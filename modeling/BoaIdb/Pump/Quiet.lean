import BoaIdb.Pump.Footprints

/-!
The programs that touch requests and objects only.

Most of what the driver does leaves the opens, the transactions and the connections as they are.
This is said once, for all that is proved about them.
-/

namespace BoaIdb.Pump

open Callbacks Prog

/-- What happens to requests and objects. -/
def Event.quiet : Event → Bool
  | .commit _ _ _ | .complete _ | .aborting _ _ | .abort _ | .startFailed _ | .answered _ _
  | .startUpgrade _ _ | .startDelete _ _ | .advanced _ _ _ | .opened _ _ _ _ | .closed _ => false
  | _ => true

/-- The opens, the transactions and the connections are the same. -/
structure Quiet (s s' : State) : Prop where
  opens : s'.opens = s.opens
  openQueues : s'.openQueues = s.openQueues
  scheduler : s'.scheduler = s.scheduler
  nextTxnId : s'.nextTxnId = s.nextTxnId
  stages : ∀ id, (s'.txns id).map TxnHandle.stage = (s.txns id).map TxnHandle.stage
  objects : ∀ id, (s'.txnObjects id).map TxnObject.registered =
    (s.txnObjects id).map TxnObject.registered
  connections : s'.connections = s.connections
  later : s.nextRequestId ≤ s'.nextRequestId
  trace : ∃ events, s'.trace = s.trace ++ events ∧ ∀ e ∈ events, e.quiet = true

variable {s s' s'' : State}

theorem Quiet.of_trace {events : List Event} (hopens : s'.opens = s.opens)
    (hqueues : s'.openQueues = s.openQueues) (hscheduler : s'.scheduler = s.scheduler)
    (hnext : s'.nextTxnId = s.nextTxnId) (htxns : s'.txns = s.txns)
    (hobjects : s'.txnObjects = s.txnObjects)
    (hconnections : s'.connections = s.connections) (hlater : s'.nextRequestId = s.nextRequestId)
    (htrace : s'.trace = s.trace ++ events) (hquiet : ∀ e ∈ events, e.quiet = true) :
    Quiet s s' :=
  ⟨hopens, hqueues, hscheduler, hnext, fun _ => by rw [htxns], fun _ => by rw [hobjects],
    hconnections, hlater.ge, events, htrace, hquiet⟩

theorem Quiet.of_eq (hopens : s'.opens = s.opens) (hqueues : s'.openQueues = s.openQueues)
    (hscheduler : s'.scheduler = s.scheduler) (hnext : s'.nextTxnId = s.nextTxnId)
    (htxns : s'.txns = s.txns) (hobjects : s'.txnObjects = s.txnObjects)
    (hconnections : s'.connections = s.connections)
    (hlater : s'.nextRequestId = s.nextRequestId) (htrace : s'.trace = s.trace) : Quiet s s' :=
  .of_trace hopens hqueues hscheduler hnext htxns hobjects hconnections hlater
    (htrace.trans (List.append_nil _).symm) fun _ h => absurd h List.not_mem_nil

theorem Quiet.refl (s : State) : Quiet s s := .of_eq rfl rfl rfl rfl rfl rfl rfl rfl rfl

theorem Quiet.trans (h : Quiet s s') (h' : Quiet s' s'') : Quiet s s'' := by
  obtain ⟨events, htrace, hquiet⟩ := h.trace
  obtain ⟨events', htrace', hquiet'⟩ := h'.trace
  refine ⟨h'.opens.trans h.opens, h'.openQueues.trans h.openQueues,
    h'.scheduler.trans h.scheduler, h'.nextTxnId.trans h.nextTxnId,
    fun id => (h'.stages id).trans (h.stages id), fun id => (h'.objects id).trans (h.objects id),
    h'.connections.trans h.connections,
    h.later.trans h'.later, events ++ events', ?_, fun e he => ?_⟩
  · rw [htrace', htrace, List.append_assoc]
  · exact (List.mem_append.mp he).elim (hquiet e) (hquiet' e)

theorem quiet_mapTxns {edit : TxnId → TxnHandle → TxnHandle} (s : State)
    {objectEdit : TxnId → TxnObject → TxnObject}
    (hedit : ∀ id handle, (edit id handle).stage = handle.stage)
    (hobject : ∀ id object, (objectEdit id object).registered = object.registered) :
    Quiet s
      { s with
        txns := fun id => (s.txns id).map (edit id)
        txnObjects := fun id => (s.txnObjects id).map (objectEdit id) } := by
  refine ⟨rfl, rfl, rfl, rfl, fun id => ?_, fun id => ?_, rfl, le_refl _, [],
    (List.append_nil _).symm, fun _ h => absurd h List.not_mem_nil⟩
  · simp only [Option.map_map, Function.comp_def, hedit]
  · simp only [Option.map_map, Function.comp_def, hobject]

theorem quiet_editTxn (txnId : TxnId) {edit : TxnHandle → TxnHandle} (s : State)
    (hedit : ∀ handle, (edit handle).stage = handle.stage) :
    Quiet s (s.editTxn txnId edit) := by
  refine ⟨rfl, rfl, rfl, rfl, fun id => ?_, fun _ => rfl, rfl, le_refl _, [],
    (List.append_nil _).symm, fun _ h => absurd h List.not_mem_nil⟩
  by_cases h : id = txnId
  · subst h
    simp [State.editTxn, Function.comp_def, hedit]
  · simp [State.editTxn, Function.update_of_ne h]

/-- A change to one object that leaves it registered or not. -/
theorem quiet_mapObject (txnId : TxnId) {edit : TxnObject → TxnObject} (s : State)
    (hedit : ∀ object, (edit object).registered = object.registered) :
    Quiet s { s with
      txnObjects := Function.update s.txnObjects txnId ((s.txnObjects txnId).map edit) } := by
  refine ⟨rfl, rfl, rfl, rfl, fun _ => rfl, fun id => ?_, rfl, le_refl _, [],
    (List.append_nil _).symm, fun _ h => absurd h List.not_mem_nil⟩
  by_cases h : id = txnId
  · subst h
    simp [Function.comp_def, hedit]
  · simp [Function.update_of_ne h]

theorem quiet_editTxnObject (txnId : TxnId) {edit : TxnObject → TxnObject} (s : State)
    (hedit : ∀ object, (edit object).registered = object.registered) :
    Quiet s (s.editTxnObject txnId edit) := by
  refine quiet_mapObject txnId s fun object => ?_
  split
  · exact hedit object
  · rfl

/-! ### Events -/

section Events

variable {R : State → State → Prop}

theorem within_dispatch {e : Event}
    (hrecord : ∀ s : State, R s { s with trace := s.trace ++ [e] }) : (dispatch e).Within R :=
  within_bind (within_modify hrecord) fun _ => within_callOut

/-- The end of a transaction changes its object only, and reports the event. -/
theorem within_dispatchEnd (txnId : TxnId) {edit : TxnObject → TxnObject} {e : Event}
    (hrefl : ∀ s, R s s) (hedit : ∀ s : State, R s (s.editTxnObject txnId edit))
    (hrecord : ∀ s : State, R s { s with trace := s.trace ++ [e] })
    (hlast : ∀ s : State, R s (s.unregisterTxn txnId)) :
    (dispatchEnd txnId edit e).Within R := by
  refine within_bind (within_read hrefl) fun s => ?_
  split
  · exact within_bind (within_modify hedit) fun _ => within_bind (within_dispatch hrecord) fun _ =>
      within_modify hlast
  · exact within_modify hlast

end Events

theorem quiet_recorded {e : Event} (he : e.quiet = true) (s : State) :
    Quiet s { s with trace := s.trace ++ [e] } := by
  refine .of_trace rfl rfl rfl rfl rfl rfl rfl rfl rfl fun e' he' => ?_
  rw [List.mem_singleton.mp he']
  exact he

theorem quiet_dispatch {e : Event} (he : e.quiet = true) : (dispatch e).Within Quiet :=
  within_dispatch (quiet_recorded he)

/-! ### Requests -/

theorem quiet_refreshTxnEpoch (txnId : TxnId) : (refreshTxnEpoch txnId).Within Quiet :=
  within_modify fun s => quiet_editTxn txnId s fun _ => rfl

theorem quiet_failOp (txnId : TxnId) (requestId : RequestId) (error : IdbError) :
    (failOp txnId requestId error).Within Quiet := by
  refine within_bind (quiet_refreshTxnEpoch txnId) fun _ =>
    within_bind (quiet_dispatch rfl) fun request => within_bind (within_read .refl) fun s => ?_
  split
  · exact within_bind (quiet_dispatch rfl) fun _ => within_pure
  · exact within_pure

theorem quiet_failQueuedRequests (txnId : TxnId) (error : IdbError) :
    (failQueuedRequests txnId error).Within Quiet :=
  within_bind (within_modifyRead fun _ => .of_eq rfl rfl rfl rfl rfl rfl rfl rfl rfl) fun _ =>
    within_forEach (fun _ => within_bind (quiet_failOp _ _ _) fun _ => within_pure) _

theorem quiet_executeOp (txnId : TxnId) (requestId : RequestId) (op : PendingOp) :
    (executeOp txnId requestId op).Within Quiet := by
  have hmodify {f : State → State} {x : Except IdbError OpExec} (hf : ∀ s, Quiet s (f s)) :
      ((modify f : Prog Unit) >>= fun _ => pure x).Within Quiet :=
    within_bind (within_modify hf) fun _ => within_pure
  refine within_bind within_choose fun answer => ?_
  cases op with
  | plain => cases answer <;> exact within_pure
  | cursorOp cursorId navigates => cases answer <;> exact within_pure
  | openCursor =>
      refine within_bind (within_read .refl) fun s => ?_
      split
      · exact within_pure
      · exact hmodify fun _ => .of_eq rfl rfl rfl rfl rfl rfl rfl rfl rfl
      · exact hmodify fun _ => .of_eq rfl rfl rfl rfl rfl rfl rfl rfl rfl
      · exact hmodify fun _ => .of_eq rfl rfl rfl rfl rfl rfl rfl rfl rfl

theorem quiet_applyOutcome (txnId : TxnId) (requestId : RequestId) :
    (applyOutcome txnId requestId).Within Quiet :=
  within_bind (quiet_dispatch rfl) fun _ => within_pure

theorem quiet_releaseCursor (op : PendingOp) (s : State) : Quiet s (releaseCursor op s) := by
  cases op with
  | plain => exact .refl s
  | openCursor => exact .refl s
  | cursorOp cursorId navigates => exact .of_eq rfl rfl rfl rfl rfl rfl rfl rfl rfl

theorem quiet_popRequest (txnId : TxnId) (s : State) : Quiet s (popRequest txnId s).1 := by
  unfold popRequest
  split
  · dsimp only
    split
    · exact .of_eq rfl rfl rfl rfl rfl rfl rfl rfl rfl
    · exact .of_eq rfl rfl rfl rfl rfl rfl rfl rfl rfl
  · exact .refl s

theorem quiet_dequeueFrom (keys served : List TxnId) (s : State) :
    Quiet s (dequeueFrom keys served s).state := by
  induction keys generalizing served s with
  | nil => exact .refl s
  | cons txnId rest ih =>
      rw [dequeueFrom]
      split
      · exact ih served s
      · split
        · exact .refl s
        · split
          · have hpop := quiet_popRequest txnId s
            split
            · next s' work heq =>
                rw [heq] at hpop
                exact hpop
            · next s' heq =>
                rw [heq] at hpop
                exact hpop.trans (ih (txnId :: served) s')
          · exact ih (txnId :: served) s

theorem quiet_dequeue (keys served : List TxnId) (s : State) :
    Quiet s (dequeue keys served s).state := by
  have hfrom := quiet_dequeueFrom keys served s
  unfold dequeue
  dsimp only
  split
  · exact hfrom
  · exact hfrom

/-! ### Objects -/

theorem quiet_clearUpgradeTxn (open' : PendingOpen) : (clearUpgradeTxn open').Within Quiet := by
  refine within_modify fun s => ?_
  cases s.results open'.requestId with
  | none => exact .refl s
  | some conn => exact .of_eq rfl rfl rfl rfl rfl rfl rfl rfl rfl

theorem quiet_resetAbortedUpgradeRequest (open' : PendingOpen) :
    (resetAbortedUpgradeRequest open').Within Quiet := by
  have hlast : (modify fun s : State => s.clearResult open'.requestId : Prog Unit).Within
      Quiet := within_modify fun _ => .of_eq rfl rfl rfl rfl rfl rfl rfl rfl rfl
  unfold resetAbortedUpgradeRequest
  split
  · exact within_bind (quiet_clearUpgradeTxn open') fun _ => hlast
  · exact hlast

theorem quiet_processDeferredOpenErrors : processDeferredOpenErrors.Within Quiet :=
  within_bind (within_modifyRead fun _ => .of_eq rfl rfl rfl rfl rfl rfl rfl rfl rfl) fun _ =>
    within_forEach (fun _ => within_bind (quiet_dispatch rfl) fun _ => within_pure) _

theorem quiet_deactivateIdleTxns (s : State) : Quiet s (deactivateIdleTxns s) := by
  refine quiet_mapTxns s (fun id handle => ?_) fun id object => ?_
  · split <;> rfl
  · split <;> rfl

theorem quiet_endOfTask (s : State) : Quiet s (endOfTask s) := by
  refine quiet_mapTxns s (fun _ _ => rfl) fun id object => ?_
  split <;> rfl

/-! ### Methods -/

theorem quiet_enqueue (txnId : TxnId) (requestId : RequestId) (op : PendingOp) (s : State) :
    Quiet s (s.enqueue txnId requestId op) := by
  refine .of_trace rfl rfl rfl rfl rfl rfl rfl rfl rfl fun e he => ?_
  rw [List.mem_singleton.mp he]
  rfl

theorem quiet_issueRequest (txnId : TxnId) (op : PendingOp) (s : State) :
    Quiet s (issueRequest txnId op s) := by
  unfold issueRequest
  split
  · exact .refl s
  · next hnext =>
      have halloc : Quiet s { s with nextRequestId := s.nextRequestId + 1 } :=
        ⟨rfl, rfl, rfl, rfl, fun _ => rfl, fun _ => rfl, rfl, (lt_succ_self hnext).le, [],
          (List.append_nil _).symm, fun _ h => absurd h List.not_mem_nil⟩
      exact halloc.trans (quiet_enqueue ..)

theorem quiet_storeRequest (txnId : TxnId) (op : PendingOp) :
    (storeRequest txnId op).Within Quiet := by
  refine within_modify fun s => ?_
  split
  · exact quiet_issueRequest txnId op s
  · exact .refl s

theorem quiet_navigate (cursorId : CursorId) : (navigate cursorId).Within Quiet := by
  refine within_bind (within_read .refl) fun s => ?_
  split
  · exact within_pure
  · split
    · exact within_pure
    · refine within_bind within_callOut fun reply => ?_
      split
      · exact within_pure
      · refine within_modify fun s => ?_
        have hpending : Quiet s (s.setCursorPending cursorId true) :=
          .of_eq rfl rfl rfl rfl rfl rfl rfl rfl rfl
        exact hpending.trans (quiet_enqueue ..)

theorem quiet_cursorWrite (cursorId : CursorId) : (cursorWrite cursorId).Within Quiet := by
  refine within_bind (within_read .refl) fun s => ?_
  split
  · exact within_pure
  · split
    · exact within_pure
    · refine within_bind within_callOut fun reply => ?_
      split
      · exact within_pure
      · exact within_modify fun s => quiet_issueRequest _ _ s

theorem quiet_commit (txnId : TxnId) : (commit txnId).Within Quiet := by
  refine within_modify fun s => ?_
  split
  · have hedit : Quiet s (s.editTxn txnId fun handle => { handle with explicitCommit := true }) :=
      quiet_editTxn txnId s fun _ => rfl
    exact hedit.trans (quiet_mapObject txnId _ fun _ => rfl)
  · exact .refl s

end BoaIdb.Pump
