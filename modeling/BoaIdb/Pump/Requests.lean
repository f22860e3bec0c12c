import BoaIdb.Pump.Quiet

/-!
Requests are completed in order.

The requests of a transaction are completed in the order in which they were placed, and none is
completed more often than it was placed. A request that is taken off its queue is completed
before handlers run again, and only those that are left in the queue come behind it.
-/

namespace BoaIdb.Pump

open Callbacks Prog

/-- The request that an event places on a transaction. -/
def Event.placed (txnId : TxnId) : Event → Option RequestId
  | .enqueued txn request => if txn = txnId then some request else none
  | _ => none

/-- The request of a transaction that an event completes. -/
def Event.done (txnId : TxnId) : Event → Option RequestId
  | .completed txn request _ => if txn = txnId then some request else none
  | _ => none

namespace State

/-- The requests that were placed on a transaction, in order. -/
def placed (s : State) (txnId : TxnId) : List RequestId := s.trace.filterMap (Event.placed txnId)

/-- Those that were completed, in order. -/
def done (s : State) (txnId : TxnId) : List RequestId := s.trace.filterMap (Event.done txnId)

def queue (s : State) (txnId : TxnId) : List RequestId := (s.txnQueues txnId).getD []

end State

/-- The requests `flight` of a transaction are off its queue and to be completed. -/
def Serving (txnId : TxnId) (flight : List RequestId) (s : State) : Prop :=
  ∀ id, (s.done id ++ ((if id = txnId then flight else []) ++ s.queue id)).Sublist (s.placed id)

/-- The invariant. -/
def Served (s : State) : Prop := ∀ id, (s.done id ++ s.queue id).Sublist (s.placed id)

/-- Requests are placed behind those that are queued, or dropped; none is completed. -/
structure Placing (s s' : State) (id : TxnId) : Prop where
  done : s'.done id = s.done id
  placed : ∃ added, s'.placed id = s.placed id ++ added ∧
    (s'.queue id).Sublist (s.queue id ++ added)

theorem Placing.refl (s : State) (id : TxnId) : Placing s s id :=
  ⟨rfl, [], (List.append_nil _).symm, by rw [List.append_nil]⟩

theorem Placing.trans {s s' s'' : State} {id : TxnId} (h : Placing s s' id)
    (h' : Placing s' s'' id) : Placing s s'' id := by
  obtain ⟨added, hplaced, hqueue⟩ := h.placed
  obtain ⟨added', hplaced', hqueue'⟩ := h'.placed
  refine ⟨h'.done.trans h.done, added ++ added', ?_, ?_⟩
  · rw [hplaced', hplaced, List.append_assoc]
  · rw [← List.append_assoc]
    exact hqueue'.trans (hqueue.append_right added')

/-- So for every transaction. -/
def Places (s s' : State) : Prop := ∀ id, Placing s s' id

theorem Places.refl (s : State) : Places s s := fun id => .refl s id

theorem Places.trans {s s' s'' : State} (h : Places s s') (h' : Places s' s'') : Places s s'' :=
  fun id => (h id).trans (h' id)

def requestContract : Contract State where
  always s := ∀ id, (s.done id).Sublist (s.placed id)
  invariant := Served
  during := Places
  refl := Places.refl
  trans := Places.trans

variable {s s' s₀ : State} {txnId : TxnId} {flight : List RequestId}

theorem serving_nil (txnId : TxnId) (s : State) : Serving txnId [] s ↔ Served s := by
  simp only [Serving, Served, ite_self, List.nil_append]

theorem Serving.ordered (h : Serving txnId flight s) : requestContract.always s :=
  fun id => (List.sublist_append_left _ _).trans (h id)

theorem Served.ordered (h : Served s) : requestContract.always s :=
  fun id => (List.sublist_append_left _ _).trans (h id)

/-- What is placed comes behind what is in flight. -/
theorem Serving.placing (h : Serving txnId flight s) (hplacing : Places s s') :
    Serving txnId flight s' := by
  intro id
  obtain ⟨hdone, added, hplaced, hqueue⟩ := hplacing id
  rw [hdone, hplaced]
  calc (s.done id ++ ((if id = txnId then flight else []) ++ s'.queue id)).Sublist
        (s.done id ++ ((if id = txnId then flight else []) ++ (s.queue id ++ added))) :=
          (hqueue.append_left _).append_left _
    _ = (s.done id ++ ((if id = txnId then flight else []) ++ s.queue id)) ++ added := by
          simp only [List.append_assoc]
    List.Sublist _ (s.placed id ++ added) := (h id).append_right added

theorem Places.served (h : Places s s') (hs : Served s) : Served s' :=
  (serving_nil 0 s').mp (Serving.placing ((serving_nil 0 s).mpr hs) h)

theorem Places.held (h : Places s s') (hs : requestContract.Held s₀ s) :
    requestContract.Held s₀ s' :=
  hs.trans ⟨(h.served hs.invariant).ordered, h.served hs.invariant, h⟩

/-! ### What completes nothing -/

/-- The event neither places a request nor completes one. -/
def Event.idle : Event → Bool
  | .enqueued _ _ | .completed _ _ _ => false
  | _ => true

theorem filterMap_idle {events : List Event} {f : Event → Option RequestId}
    (hf : ∀ e, e.idle = true → f e = none) (hidle : ∀ e ∈ events, e.idle = true) :
    events.filterMap f = [] :=
  List.filterMap_eq_nil_iff.mpr fun e he => hf e (hidle e he)

theorem placed_idle (txnId : TxnId) (e : Event) (he : e.idle = true) : e.placed txnId = none := by
  cases e <;> first | rfl | cases he

theorem done_idle (txnId : TxnId) (e : Event) (he : e.idle = true) : e.done txnId = none := by
  cases e <;> first | rfl | cases he

theorem Places.of_trace {events : List Event} (htrace : s'.trace = s.trace ++ events)
    (hidle : ∀ e ∈ events, e.idle = true) (hqueue : ∀ id, (s'.queue id).Sublist (s.queue id)) :
    Places s s' := by
  intro id
  refine ⟨?_, [], ?_, ?_⟩
  · rw [State.done, htrace, List.filterMap_append, filterMap_idle (done_idle id) hidle,
      List.append_nil]
    rfl
  · rw [State.placed, htrace, List.filterMap_append, filterMap_idle (placed_idle id) hidle]
    rfl
  · rw [List.append_nil]
    exact hqueue id

theorem Places.of_eq (htrace : s'.trace = s.trace) (hqueues : s'.txnQueues = s.txnQueues) :
    Places s s' :=
  .of_trace (htrace.trans (List.append_nil _).symm) (fun _ h => absurd h List.not_mem_nil)
    fun _ => by rw [State.queue, hqueues]; exact .refl _

theorem Places.recorded {e : Event} (htrace : s'.trace = s.trace ++ [e])
    (hqueues : s'.txnQueues = s.txnQueues) (he : e.idle = true) : Places s s' :=
  .of_trace htrace (fun _ hmem => List.mem_singleton.mp hmem ▸ he)
    fun _ => by rw [State.queue, hqueues]; exact .refl _

theorem places_forget (txnId : TxnId) (s : State) : Places s (s.forget txnId) := by
  refine .of_trace (List.append_nil _).symm (fun _ h => absurd h List.not_mem_nil) fun id => ?_
  by_cases hne : id = txnId
  · subst hne
    simp [State.queue, State.forget]
  · simp [State.queue, State.forget, hne]

theorem places_enqueue (txnId : TxnId) (requestId : RequestId) (op : PendingOp) (s : State) :
    Places s (s.enqueue txnId requestId op) := by
  intro id
  refine ⟨?_, if id = txnId then [requestId] else [], ?_, ?_⟩
  · simp [State.done, State.enqueue, Event.done]
  · by_cases hne : id = txnId
    · subst hne
      simp [State.placed, State.enqueue, Event.placed]
    · simp [State.placed, State.enqueue, Event.placed, hne, Ne.symm hne]
  · by_cases hne : id = txnId
    · subst hne
      simp [State.queue, State.enqueue]
    · simp [State.queue, State.enqueue, hne]

variable {α β : Type} {p : Prog α} {k : α → Prog β}

theorem ordered_of_places (hp : p.Within Places) (h : requestContract.Held s₀ s) :
    Kept requestContract s₀ p s :=
  hp.kept (fun _ _ hplaces _ hs => ⟨(hplaces.served hs).ordered, hplaces.served hs, hplaces⟩) h

theorem places_dispatch {e : Event} (he : e.idle = true) : (dispatch e).Within Places :=
  within_dispatch fun _ => .recorded rfl rfl he

theorem places_modify {f : State → State} (htrace : ∀ s, (f s).trace = s.trace)
    (hqueues : ∀ s, (f s).txnQueues = s.txnQueues) : (modify f : Prog Unit).Within Places :=
  within_modify fun s => .of_eq (htrace s) (hqueues s)

theorem places_dispatchEnd (txnId : TxnId) (edit : TxnObject → TxnObject) {e : Event}
    (he : e.idle = true) : (dispatchEnd txnId edit e).Within Places :=
  within_dispatchEnd txnId .refl (fun _ => .of_eq rfl rfl) (fun _ => .recorded rfl rfl he)
    fun _ => .of_eq rfl rfl

theorem places_clearUpgradeTxn (open' : PendingOpen) : (clearUpgradeTxn open').Within Places := by
  refine within_modify fun s => ?_
  cases s.results open'.requestId with
  | none => exact .refl s
  | some conn => exact .of_eq rfl rfl

theorem places_resetAbortedUpgradeRequest (open' : PendingOpen) :
    (resetAbortedUpgradeRequest open').Within Places := by
  have hlast : (modify fun s : State => s.clearResult open'.requestId : Prog Unit).Within
      Places := places_modify (fun _ => rfl) fun _ => rfl
  unfold resetAbortedUpgradeRequest
  split
  · exact within_bind (places_clearUpgradeTxn open') fun _ => hlast
  · exact hlast

theorem places_abortUpgradeOpen (txnId : TxnId) (notifyRequest : Bool) :
    (abortUpgradeOpen txnId notifyRequest).Within Places := by
  refine within_bind (within_read .refl) fun s => ?_
  split
  · exact within_pure
  · next open' _ =>
      refine within_bind (places_modify (fun _ => rfl) fun _ => rfl) fun _ =>
        within_bind (places_clearUpgradeTxn open') fun _ =>
          within_bind (places_resetAbortedUpgradeRequest open') fun _ => ?_
      split
      · exact within_pure
      · exact within_bind (places_dispatch rfl) fun _ => within_pure

theorem places_takeAborted (txnId : TxnId) : (takeAborted txnId).Within Places := by
  refine within_bind (within_modifyRead fun s => ?_) fun _ => within_pure
  split
  · exact .recorded rfl rfl rfl
  · exact .of_eq (List.append_nil _) rfl

/-! ### Opens -/

theorem places_scanOpens (ids : List RequestId) : (scanOpens ids).Within Places := by
  induction ids with
  | nil => exact within_pure
  | cons requestId rest ih =>
      refine within_bind (within_read .refl) fun s => ?_
      split
      · exact within_pure
      · refine within_bind (within_bind (within_read .refl) fun s => ?_) fun queue =>
          within_bind (within_modify fun s => ?_) fun _ => ?_
        · split
          · exact within_pure
          · exact within_bind within_choose fun _ => within_pure
        · refine .of_trace rfl (fun e he => ?_) fun id => .refl _
          obtain ⟨action, -, rfl⟩ := List.mem_map.mp he
          rfl
        · split
          · exact ih
          · exact within_pure

theorem places_nextOpenStep : nextOpenStep.Within Places := by
  refine within_bind (within_read .refl) fun s => ?_
  split
  · exact places_scanOpens _
  · split
    · exact within_pure
    · split
      · exact within_pure
      · exact places_scanOpens _

/-- An open is settled, and that is reported. -/
theorem places_settled {f : State → State} {e : Event} (htrace : ∀ s, (f s).trace = s.trace)
    (hqueues : ∀ s, (f s).txnQueues = s.txnQueues) (he : e.idle = true) :
    (modify f >>= fun _ => dispatch e >>= fun _ => (pure () : Prog Unit)).Within Places :=
  within_bind (places_modify htrace hqueues) fun _ =>
    within_bind (places_dispatch he) fun _ => within_pure

theorem places_startUpgradeTxn (open' : PendingOpen) :
    (startUpgradeTxn open').Within Places := by
  refine within_bind (within_read .refl) fun s => within_bind within_choose fun begun => ?_
  split
  · exact within_pure
  · split
    · exact within_bind (places_modify (fun _ => rfl) fun _ => rfl) fun _ => within_pure
    · exact within_bind (places_modify (fun _ => rfl) fun _ => rfl) fun _ => within_pure

theorem places_abortFailedUpgrade (open' : PendingOpen) (txnId : TxnId) :
    (abortFailedUpgrade open' txnId).Within Places := by
  refine within_bind (places_resetAbortedUpgradeRequest open') fun _ =>
    within_bind (places_takeAborted txnId) fun _ => within_bind (within_modify fun s => ?_) fun _ =>
      within_bind (places_dispatchEnd txnId _ rfl) fun _ =>
        within_bind (places_dispatch rfl) fun _ => within_pure
  exact (places_forget txnId s).trans (.of_eq rfl rfl)

theorem places_startUpgrade (open' : PendingOpen) (oldVersion newVersion : UInt64) :
    (startUpgrade open' oldVersion newVersion).Within Places := by
  refine within_bind (within_modify fun _ => .recorded rfl rfl rfl) fun _ =>
    within_bind (places_startUpgradeTxn open') fun started => ?_
  split
  · refine within_bind (places_modify (fun _ => rfl) fun _ => rfl) fun _ =>
      within_bind (within_read .refl) fun s => within_bind (places_dispatch rfl) fun reply => ?_
    split
    · split
      · exact within_pure
      · exact places_abortFailedUpgrade _ _
    · exact within_pure
  · exact places_settled (fun _ => rfl) (fun _ => rfl) rfl

theorem places_startDelete (open' : PendingOpen) : (startDelete open').Within Places := by
  refine within_bind (within_modify fun _ => .recorded rfl rfl rfl) fun _ =>
    within_bind within_choose fun deleted => ?_
  split
  · exact places_settled (fun _ => rfl) (fun _ => rfl) rfl
  · exact places_settled (fun _ => rfl) (fun _ => rfl) rfl

theorem places_releaseUpgrade (open' : PendingOpen) (txnId : TxnId) (s : State) :
    Places s (s.releaseUpgrade open' txnId) := by
  unfold State.releaseUpgrade
  split
  · exact .recorded rfl rfl rfl
  · exact .of_eq rfl rfl

theorem places_finishUpgrade (open' : PendingOpen) (txnId : TxnId) :
    (finishUpgrade open' txnId).Within Places := by
  refine within_bind (within_modifyRead fun _ => .of_eq rfl rfl) fun s => within_bind ?_ fun _ =>
    within_bind (within_modify fun s => ?_) fun _ =>
      within_bind (places_dispatchEnd txnId _ rfl) fun _ =>
        within_bind (places_clearUpgradeTxn open') fun _ => ?_
  · unfold commitUpgrade
    split
    · exact within_bind within_choose fun ok => within_modify fun _ => .recorded rfl rfl rfl
    · exact within_pure
  · have hremoved : Places (s.forget txnId) ((s.forget txnId).removeOpen open'.requestId) :=
      .of_eq rfl rfl
    exact ((places_forget txnId s).trans hremoved).trans (places_releaseUpgrade _ _ _)
  · split
    · exact places_settled (fun _ => rfl) (fun _ => rfl) rfl
    · exact within_bind (places_dispatch rfl) fun _ => within_pure

theorem places_perform (step : OpenStep) : (perform step).Within Places := by
  cases step with
  | fireBlocked open' => exact within_bind (places_dispatch rfl) fun _ => within_pure
  | openConnection open' version => exact places_settled (fun _ => rfl) (fun _ => rfl) rfl
  | failOpen open' error => exact places_settled (fun _ => rfl) (fun _ => rfl) rfl
  | startUpgrade open' old new => exact places_startUpgrade open' old new
  | startDelete open' => exact places_startDelete open'
  | finishUpgrade open' txnId => exact places_finishUpgrade open' txnId

/-! ### Completions -/

/-- The request that is next is completed. -/
theorem Serving.completed {requestId : RequestId} {error : Option IdbError}
    (h : Serving txnId (requestId :: flight) s) :
    Serving txnId flight { s with trace := s.trace ++ [.completed txnId requestId error] } := by
  intro id
  have hplaced : { s with trace := s.trace ++ [Event.completed txnId requestId error] }.placed id =
      s.placed id := by
    simp [State.placed, Event.placed]
  have hself := h id
  rw [hplaced]
  by_cases hne : id = txnId
  · subst hne
    have hdone : { s with trace := s.trace ++ [Event.completed id requestId error] }.done id =
        s.done id ++ [requestId] := by
      simp [State.done, Event.done]
    rw [hdone, if_pos rfl, List.append_assoc]
    rw [if_pos rfl] at hself
    exact hself
  · have hdone : { s with trace := s.trace ++ [Event.completed txnId requestId error] }.done id =
        s.done id := by
      simp [State.done, Event.done, Ne.symm hne]
    rw [hdone, if_neg hne]
    rw [if_neg hne] at hself
    exact hself

theorem Serving.served (h : Serving txnId flight s) : Served s := by
  intro id
  refine List.Sublist.trans ?_ (h id)
  exact (List.sublist_append_right _ _).append_left _

/-- Handlers run while requests are in flight. -/
theorem serving_of_places (hp : p.Within Places) (h : Serving txnId flight s) :
    Safe requestContract p (fun _ s' => Serving txnId flight s') s :=
  Safe.mono (ordered_of_places hp (.refl h.ordered h.served)) fun _ _ _ hs' => h.placing hs'.2

theorem places_refreshTxnEpoch (txnId : TxnId) : (refreshTxnEpoch txnId).Within Places :=
  places_modify (fun _ => rfl) fun _ => rfl

theorem serving_dispatch {requestId : RequestId} {error : Option IdbError}
    (h : Serving txnId (requestId :: flight) s) :
    Safe requestContract (dispatch (.completed txnId requestId error))
      (fun _ s' => Serving txnId flight s') s :=
  Safe.modify h.ordered (serving_of_places within_callOut h.completed)

theorem serving_failOp {requestId : RequestId} (error : IdbError)
    (h : Serving txnId (requestId :: flight) s) :
    Safe requestContract (failOp txnId requestId error)
      (fun _ s' => Serving txnId flight s') s := by
  refine Safe.seq (serving_of_places (places_refreshTxnEpoch txnId) h) fun _ s₁ _ h₁ =>
    Safe.seq (serving_dispatch h₁) fun request s₂ _ h₂ => Safe.read ?_
  split
  · exact Safe.seq (serving_of_places (places_dispatch rfl) h₂) fun _ _ halways h₃ =>
      .pure halways h₃
  · exact .pure h₂.ordered h₂

theorem served_failQueuedRequests (txnId : TxnId) (error : IdbError) (h : Served s) :
    Safe requestContract (failQueuedRequests txnId error) (fun _ => Served) s := by
  have htaken : Serving txnId (s.queue txnId)
      { s with
        ops := fun r => if r ∈ (s.txnQueues txnId).getD [] then none else s.ops r
        txnQueues := Function.update s.txnQueues txnId none } := by
    intro id
    have hself := h id
    by_cases hne : id = txnId
    · subst hne
      simpa [State.queue, State.done, State.placed] using hself
    · simpa [State.queue, State.done, State.placed, hne] using hself
  refine Safe.modifyRead h.ordered (Safe.mono (Safe.forEach (fun requestId rest s' _ hs' => ?_) _
    htaken.ordered htaken) fun _ s' _ hs' => (serving_nil txnId s').mp hs')
  exact Safe.seq (serving_failOp error hs') fun _ _ halways hs'' => .pure halways hs''

/-- A queue that is gone leaves no request to fail. -/
theorem ordered_failNone (error : IdbError) (h : requestContract.Held s₀ s)
    (hnone : s.txnQueues txnId = none) :
    Kept requestContract s₀ (failQueuedRequests txnId error) s := by
  refine Kept.modifyRead h.always ?_
  rw [hnone]
  have hplaces : Places s
      { s with
        ops := fun r => if r ∈ (none : Option (List RequestId)).getD [] then none else s.ops r
        txnQueues := Function.update s.txnQueues txnId none } := by
    refine .of_eq rfl ?_
    change Function.update s.txnQueues txnId none = s.txnQueues
    rw [← hnone, Function.update_eq_self]
  exact .pure (hplaces.held h)

theorem ordered_abortTransaction (txnId : TxnId) (notifyUpgradeOpen : Bool)
    (h : requestContract.Held s₀ s) :
    Kept requestContract s₀ (abortTransaction txnId notifyUpgradeOpen) s := by
  refine (ordered_of_places (places_takeAborted txnId) h).bind fun taken s₁ h₁ => ?_
  cases taken with
  | none => exact .pure h₁
  | some handle =>
      refine Kept.modify h₁.always ((ordered_failNone .abort ((places_forget txnId s₁).held h₁)
        (Function.update_self ..)).bind fun _ s₂ h₂ =>
          (ordered_of_places (places_dispatchEnd txnId _ rfl) h₂).bind fun _ s₃ h₃ => ?_)
      split
      · exact ordered_of_places (places_abortUpgradeOpen txnId notifyUpgradeOpen) h₃
      · exact .pure h₃

/-- A program that keeps the contract keeps the invariant. -/
theorem Kept.served (h : Kept requestContract s₀ p s) :
    Safe requestContract p (fun _ => Served) s :=
  h.mono fun _ _ _ hs' => hs'.1

theorem served_completeRequest {requestId : RequestId} (h : Serving txnId [requestId] s) :
    Safe requestContract (completeRequest txnId requestId) (fun _ => Served) s := by
  refine Safe.seq (serving_of_places (places_refreshTxnEpoch txnId) h) fun _ s₁ _ h₁ =>
    Safe.seq (serving_dispatch h₁) fun reply s₂ _ h₂ => ?_
  split
  · exact Kept.served (ordered_abortTransaction txnId true (.refl h₂.ordered h₂.served))
  · exact .pure h₂.ordered h₂.served

theorem places_executeOp (txnId : TxnId) (requestId : RequestId) (op : PendingOp) :
    (executeOp txnId requestId op).Within Places := by
  have hmodify {f : State → State} {x : Except IdbError OpExec}
      (htrace : ∀ s, (f s).trace = s.trace) (hqueues : ∀ s, (f s).txnQueues = s.txnQueues) :
      ((modify f : Prog Unit) >>= fun _ => pure x).Within Places :=
    within_bind (places_modify htrace hqueues) fun _ => within_pure
  refine within_bind within_choose fun answer => ?_
  cases op with
  | plain => cases answer <;> exact within_pure
  | cursorOp cursorId navigates => cases answer <;> exact within_pure
  | openCursor =>
      refine within_bind (within_read .refl) fun s => ?_
      split
      · exact within_pure
      · exact hmodify (fun _ => rfl) fun _ => rfl
      · exact hmodify (fun _ => rfl) fun _ => rfl
      · exact hmodify (fun _ => rfl) fun _ => rfl

theorem places_applyOutcome (txnId : TxnId) (requestId : RequestId) :
    (applyOutcome txnId requestId).Within Places :=
  within_bind (places_dispatch rfl) fun _ => within_pure

theorem served_execute {requestId : RequestId} (op : PendingOp) (h : Serving txnId [requestId] s) :
    Safe requestContract (execute txnId requestId op) (fun _ => Served) s := by
  refine Safe.seq (serving_of_places (places_executeOp txnId requestId op) h)
    fun result s₁ _ h₁ => ?_
  split
  · refine Safe.seq (serving_of_places (places_applyOutcome txnId requestId) h₁) fun _ s₂ _ h₂ =>
      Safe.modify h₂.ordered (served_completeRequest (h₂.placing ?_))
    cases op with
    | plain => exact .refl s₂
    | openCursor => exact .refl s₂
    | cursorOp cursorId navigates => exact .of_eq rfl rfl
  · exact served_completeRequest h₁
  · exact Safe.modify h₁.ordered (served_completeRequest (h₁.placing (.of_eq rfl rfl)))
  · refine Safe.seq (serving_failOp _ h₁) fun prevented s₂ _ h₂ => ?_
    split
    · exact Kept.served (ordered_abortTransaction txnId false (.refl h₂.ordered h₂.served))
    · exact .pure h₂.ordered h₂.served

/-! ### The dequeue step -/

/-- What the dequeue step leaves: the request it found is in flight. -/
def TxnWork.Taken (s : State) : Option TxnWork → Prop
  | some (.exec txnId requestId _) => Serving txnId [requestId] s
  | some (.failStalled _) | none => Served s

theorem popRequest_taken (txnId : TxnId) (h : Served s) :
    TxnWork.Taken (popRequest txnId s).1 (popRequest txnId s).2 := by
  -- the request in front leaves the queue for the flight
  have hpop {requestId : RequestId} {rest : List RequestId} {s' : State}
      (hqueue : s.txnQueues txnId = some (requestId :: rest))
      (hqueues : s'.txnQueues = Function.update s.txnQueues txnId (some rest))
      (htrace : s'.trace = s.trace) : Serving txnId [requestId] s' := by
    intro id
    have hself := h id
    have hdone : s'.done id = s.done id := by rw [State.done, htrace]; rfl
    have hplaced : s'.placed id = s.placed id := by rw [State.placed, htrace]; rfl
    rw [hdone, hplaced]
    by_cases hne : id = txnId
    · subst hne
      rw [State.queue, hqueue] at hself
      rw [State.queue, hqueues, Function.update_self, if_pos rfl]
      exact hself
    · rw [if_neg hne, State.queue, hqueues, Function.update_of_ne hne]
      exact hself
  unfold popRequest
  split
  · next requestId rest hqueue =>
      dsimp only
      split
      · exact hpop hqueue rfl rfl
      · exact Serving.served (hpop hqueue rfl rfl)
  · exact h

theorem dequeueFrom_taken (keys served : List TxnId) (h : Served s) :
    TxnWork.Taken (dequeueFrom keys served s).state (dequeueFrom keys served s).work := by
  induction keys generalizing served s with
  | nil => exact h
  | cons txnId rest ih =>
      rw [dequeueFrom]
      split
      · exact ih served h
      · split
        · exact h
        · split
          · have hpop := popRequest_taken txnId h
            split
            · next s' work heq =>
                rw [heq] at hpop
                exact hpop
            · next s' heq =>
                rw [heq] at hpop
                exact ih (txnId :: served) hpop
          · exact ih (txnId :: served) h

theorem dequeue_taken (keys served : List TxnId) (h : Served s) :
    TxnWork.Taken (dequeue keys served s).state (dequeue keys served s).work := by
  have hfrom := dequeueFrom_taken keys served h
  unfold dequeue
  dsimp only
  split
  · exact hfrom
  · next hnone =>
      rw [hnone] at hfrom
      dsimp only
      cases keys.find? _ with
      | none => exact hfrom
      | some id => exact hfrom

theorem served_processTxnRequests (served : List TxnId) (h : Served s) :
    Safe requestContract (processTxnRequests served) (fun _ => Served) s := by
  refine Safe.choose h.ordered fun order => Safe.modifyRead h.ordered ?_
  have htaken := dequeue_taken (queueKeys order s) served h
  dsimp only
  split
  · next hwork =>
      rw [hwork] at htaken
      exact .pure (Served.ordered htaken) htaken
  · next txnId hwork =>
      rw [hwork] at htaken
      exact Safe.seq (served_failQueuedRequests txnId _ htaken) fun _ _ halways hs =>
        .pure halways hs
  · next txnId requestId op hwork =>
      rw [hwork] at htaken
      exact Safe.seq (served_execute op htaken) fun _ _ halways hs => .pure halways hs

/-! ### Starting and finishing transactions -/

theorem served_startReady (id : TxnId) (h : Served s) :
    Safe requestContract (startReady id) (fun _ => Served) s := by
  have hmodify {f : State → State} {b : Bool} (htrace : ∀ s, (f s).trace = s.trace)
      (hqueues : ∀ s, (f s).txnQueues = s.txnQueues) :
      Safe requestContract ((modify f : Prog Unit) >>= fun _ => pure b) (fun _ => Served) s :=
    Kept.served (ordered_of_places (within_bind (places_modify htrace hqueues) fun _ => within_pure)
      (.refl h.ordered h))
  refine Safe.read ?_
  split
  · refine Safe.choose h.ordered fun answer => ?_
    cases answer with
    | ok => exact hmodify (fun _ => rfl) fun _ => rfl
    | locked => exact hmodify (fun _ => rfl) fun _ => rfl
    | failed =>
        have hfailed : Places s (s.failStart id) := .recorded rfl rfl rfl
        exact Safe.modify h.ordered (Safe.seq (served_failQueuedRequests id _ (hfailed.served h))
          fun _ _ halways hs => .pure halways hs)
  · exact .pure h.ordered h

theorem served_startReadyTxns (h : Served s) :
    Safe requestContract startReadyTxns (fun _ => Served) s := by
  have hpolled : Places s { s with scheduler := s.scheduler.pollReady.1 } := .of_eq rfl rfl
  have hall (ready : List TxnId) {s : State} (h : Served s) :
      Safe requestContract (startAll ready) (fun _ => Served) s := by
    induction ready generalizing s with
    | nil => exact .pure h.ordered h
    | cons id rest ih =>
        exact Safe.seq (served_startReady id h) fun _ _ _ h₁ =>
          Safe.seq (ih h₁) fun _ _ halways h₂ => .pure halways h₂
  exact Safe.modifyRead h.ordered (hall _ (hpolled.served h))

theorem places_finishTxns : finishTxns.Within Places := by
  refine within_bind (within_read .refl) fun s => ?_
  split
  · exact within_pure
  · next txnId _ =>
      exact within_bind (places_modify (fun _ => rfl) fun _ => rfl) fun _ =>
        within_bind within_choose fun ok =>
          within_bind (within_modify fun _ => .recorded rfl rfl rfl) fun _ =>
            within_bind (within_modify (places_forget txnId)) fun _ =>
              within_bind (places_dispatchEnd txnId _ rfl) fun _ => within_pure

/-! ### Methods -/

theorem places_issueRequest (txnId : TxnId) (op : PendingOp) (s : State) :
    Places s (issueRequest txnId op s) := by
  unfold issueRequest
  split
  · exact .refl s
  · have halloc : Places s { s with nextRequestId := s.nextRequestId + 1 } := .of_eq rfl rfl
    exact halloc.trans (places_enqueue _ _ _ _)

theorem places_storeRequest (txnId : TxnId) (op : PendingOp) :
    (storeRequest txnId op).Within Places := by
  refine within_modify fun s => ?_
  split
  · exact places_issueRequest txnId op s
  · exact .refl s

theorem places_navigate (cursorId : CursorId) : (navigate cursorId).Within Places := by
  refine within_bind (within_read .refl) fun s => ?_
  split
  · exact within_pure
  · split
    · exact within_pure
    · refine within_bind within_callOut fun reply => ?_
      split
      · exact within_pure
      · refine within_modify fun s => ?_
        have hpending : Places s (s.setCursorPending cursorId true) := .of_eq rfl rfl
        exact hpending.trans (places_enqueue _ _ _ _)

theorem places_cursorWrite (cursorId : CursorId) : (cursorWrite cursorId).Within Places := by
  refine within_bind (within_read .refl) fun s => ?_
  split
  · exact within_pure
  · split
    · exact within_pure
    · refine within_bind within_callOut fun reply => ?_
      split
      · exact within_pure
      · exact within_modify fun s => places_issueRequest _ _ s

theorem places_transaction (connId : ConnId) (write : Bool) (scope : List StoreId) :
    (transaction connId write scope).Within Places := by
  refine within_bind (within_read .refl) fun s => ?_
  split
  · exact within_pure
  · split
    · exact within_pure
    · refine within_bind within_callOut fun reply => ?_
      split
      · exact within_pure
      · refine within_bind (within_read .refl) fun s => ?_
        split
        · exact within_pure
        · refine within_bind within_choose fun valid => within_modify fun s => ?_
          split
          · exact .refl s
          · split
            · exact .of_eq rfl rfl
            · exact .of_eq rfl rfl

theorem places_issueOpen (kind : OpenKind) (name : String) (version : UInt64) :
    (issueOpen kind name version).Within Places := by
  refine within_modify fun s => ?_
  split
  · exact .refl s
  · exact .of_eq rfl rfl

theorem places_close (connId : ConnId) : (close connId).Within Places :=
  within_modify fun _ => .of_trace rfl (fun _ he => List.mem_singleton.mp he ▸ rfl) fun _ => .refl _

theorem places_commit (txnId : TxnId) : (commit txnId).Within Places := by
  refine within_modify fun s => ?_
  split
  · exact .of_eq rfl rfl
  · exact .refl s

theorem ordered_abort (txnId : TxnId) (h : requestContract.Held s₀ s) :
    Kept requestContract s₀ (abort txnId) s := by
  refine Kept.read ?_
  split
  · have hsame : Places s { s with
      txnObjects := Function.update s.txnObjects txnId
        ((s.txnObjects txnId).map TxnObject.over) } := .of_eq rfl rfl
    exact Kept.modify h.always (ordered_abortTransaction txnId true (hsame.held h))
  · exact .pure h

/-! ### Runs -/

/-- Every method keeps the contract. -/
theorem ordered_method (proc : Proc) (hmethod : proc.method = true)
    (h : requestContract.Held s₀ s) : Kept requestContract s₀ (body proc) s := by
  cases proc with
  | issueOpen kind name version =>
      exact (ordered_of_places (places_issueOpen kind name version) h).done
  | storeRequest txnId opensCursor => exact (ordered_of_places (places_storeRequest _ _) h).done
  | transaction connId write scope =>
      exact (ordered_of_places (places_transaction connId write scope) h).done
  | close connId =>
      exact (ordered_of_places (places_close connId) h).done
  | navigate cursorId => exact (ordered_of_places (places_navigate cursorId) h).done
  | cursorWrite cursorId => exact (ordered_of_places (places_cursorWrite cursorId) h).done
  | commit txnId => exact (ordered_of_places (places_commit txnId) h).done
  | abort txnId => exact (ordered_abort txnId h).done
  | _ => cases hmethod

/-- Every procedure keeps the invariant. -/
theorem served_body (proc : Proc) (h : Served s) :
    Safe requestContract (body proc) (fun _ => Served) s := by
  have hplaces {q : Prog (Option Proc)} (hq : q.Within Places) :
      Safe requestContract q (fun _ => Served) s :=
    Kept.served (ordered_of_places hq (.refl h.ordered h))
  by_cases hmethod : proc.method = true
  · exact Kept.served (ordered_method proc hmethod (.refl h.ordered h))
  -- of the procedures of the pump only the loop over the requests serves any
  cases proc with
  | processOpens =>
      refine hplaces (within_bind places_nextOpenStep fun step => ?_)
      split
      · exact within_pure
      · exact within_bind (places_perform _) fun _ => within_pure
  | processDeferredOpenErrors =>
      refine hplaces (within_bind (within_bind (within_modifyRead fun _ => .of_eq rfl rfl) fun s =>
        within_forEach (fun _ => ?_) _) fun _ => within_pure)
      exact within_bind (places_dispatch rfl) fun _ => within_pure
  | startReadyTxns =>
      exact Safe.seq (served_startReadyTxns h) fun _ _ halways hs => .pure halways hs
  | processTxnRequests served =>
      refine Safe.seq (served_processTxnRequests served h) fun served' s₁ halways hs => ?_
      split
      · exact .pure halways hs
      · exact .pure halways hs
  | runJobs =>
      refine hplaces (within_bind (within_read .refl) fun s => ?_)
      split
      · exact within_pure
      · exact within_bind within_callOut fun _ => within_pure
  | deactivateIdleTxns =>
      exact hplaces (within_bind (places_modify (fun _ => rfl) fun _ => rfl) fun _ => within_pure)
  | finishTxns => exact hplaces (within_bind places_finishTxns fun _ => within_pure)
  | endOfTask =>
      exact hplaces (within_bind (places_modify (fun _ => rfl) fun _ => rfl) fun _ => within_pure)
  | noteTimerTask =>
      exact hplaces (within_bind (places_modify (fun _ => rfl) fun _ => rfl) fun _ => within_pure)
  | _ => exact absurd rfl hmethod

theorem served_new (versions : String → UInt64) (autoPump : Bool) :
    Served (State.new versions autoPump) := fun _ => .refl _

theorem requests_keep : Keeps driver requestContract (fun _ => True) fun _ s => Served s where
  rest_later _ _ _ _ := trivial
  main _ _ _ hs _ := hs
  api proc s hproc halways hs := by
    have hkept := ordered_method proc hproc (.refl halways hs)
    obtain ⟨p, hp⟩ := body_method hproc
    change Safe requestContract (body proc) _ s
    rw [hp] at hkept ⊢
    exact Safe.returns hkept
  phase proc s _ hs := by
    refine (served_body proc hs).mono fun o s' _ hs' => ?_
    cases o
    · exact ⟨hs', trivial⟩
    · exact hs'

/-- **Requests are completed in order.** In every reachable state the requests completed on a
transaction are, in order, among those placed on it, each completion with a placement of its own;
and wherever handlers or the outside have control, or a phase ends, those that wait in its queue
come behind them. -/
theorem requests_in_order (versions : String → UInt64) (autoPump : Bool)
    {c : Config State Reply Proc} (h : Reaches driver (State.new versions autoPump) c)
    (id : TxnId) :
    (c.state.done id).Sublist (c.state.placed id) ∧ (c.Open ∨ c.AtEnd →
      (c.state.done id ++ c.state.queue id).Sublist (c.state.placed id)) := by
  have hserved := served_new versions autoPump
  have hgood := requests_keep.reaches hserved.ordered hserved trivial h
  refine ⟨hgood.always id, ?_⟩
  rintro (hopen | hend)
  · exact hgood.invariant hopen id
  · rcases hgood.ended hend with ⟨hs, -⟩ | ⟨_, hs⟩
    · exact hs id
    · exact hs id

/-- One request of a transaction is completed, and one waits. -/
theorem requests_in_order_session : ∃ c, Reaches driver (State.new (fun _ => 0) true) c ∧
    c.state.placed 1 = [3, 4] ∧ c.state.done 1 = [3] ∧ c.state.queue 1 = [4] ∧
    (c.state.done 1 ++ c.state.queue 1).Sublist (c.state.placed 1) := by
  obtain ⟨w⟩ := session
  have htrace := w.upgrading_trace.trans (congrArg (· ++ _) w.building_trace)
  refine ⟨_, w.reaches_upgrading, ?_, ?_, ?_,
    (requests_in_order _ _ w.reaches_upgrading 1).2 (.inl nofun)⟩
  · rw [State.placed, htrace]
    decide
  · rw [State.done, htrace]
    decide
  · rw [State.queue, w.upgrading_queue]
    rfl

end BoaIdb.Pump
