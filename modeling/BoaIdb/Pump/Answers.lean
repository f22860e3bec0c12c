import BoaIdb.Pump.Requests

/-!
A transaction commits with every request answered.

A request that waits for its answer waits in the queue of its transaction, with its operation,
unless its answer is on the way. So the drained queue of a transaction that commits has had all
its requests answered, and nothing is placed on a transaction that has committed. The result of a
request is built behind its operation, which may run script: what an abort finds then in the queue
is all that waits but for this one request.
-/

namespace BoaIdb.Pump

open Callbacks Prog

/-! ### The record -/

/-- The requests of a transaction that wait for their answer, behind one more event. -/
def answer (txnId : TxnId) (waiting : List RequestId) : Event → List RequestId
  | .enqueued txn request => if txn = txnId then waiting ++ [request] else waiting
  | .completed txn request _ =>
      if txn = txnId then waiting.filter (· ≠ request) else waiting
  | _ => waiting

/-- The requests placed on a transaction that no `success` or `error` has answered since. -/
def unanswered (txnId : TxnId) (trace : List Event) : List RequestId :=
  trace.foldl (answer txnId) []

/-- The request whose result is being built, behind one more event. -/
def build (building : Option (TxnId × RequestId)) : Event → Option (TxnId × RequestId)
  | .executed txn request => some (txn, request)
  | .completed txn request _ => if building = some (txn, request) then none else building
  | _ => building

/-- The request whose operation is done and whose result is being built: no `success` or `error`
has answered it since. -/
def building (trace : List Event) : Option (TxnId × RequestId) := trace.foldl build none

/-- The backend of the transaction has been asked to commit it. -/
def Committed (txnId : TxnId) (trace : List Event) : Prop :=
  ∃ upgrade ok, .commit txnId upgrade ok ∈ trace

/-- What holds of the requests of a transaction when an event of it is recorded. -/
def Event.Accounted (trace : List Event) : Event → Prop
  | .commit txn _ _ => unanswered txn trace = []
  | .aborting txn queue => .startFailed txn ∈ trace ∨
      ∀ r ∈ unanswered txn trace, r ∈ queue ∨ building trace = some (txn, r)
  | .enqueued txn _ => ¬ Committed txn trace
  | _ => True

/-- The event is about no request, and not the end of a transaction. -/
def Event.aloof : Event → Bool
  | .enqueued _ _ | .executed _ _ | .completed _ _ _ | .commit _ _ _ | .aborting _ _ => false
  | _ => true

/-- The event neither commits a transaction nor is there a result to be built. -/
def Event.routine : Event → Bool
  | .executed _ _ | .commit _ _ _ => false
  | _ => true

variable {s s' s'' s₀ : State} {txnId : TxnId} {requestId : RequestId}

theorem unanswered_concat (txnId : TxnId) (trace : List Event) (e : Event) :
    unanswered txnId (trace ++ [e]) = answer txnId (unanswered txnId trace) e := by
  simp [unanswered]

theorem building_concat (trace : List Event) (e : Event) :
    building (trace ++ [e]) = build (building trace) e := by
  simp [building]

/-- A result that is being built is still being built, or the request has been answered. -/
theorem building_routine (trace : List Event) {events : List Event}
    (hroutine : ∀ e ∈ events, e.routine = true) :
    building (trace ++ events) = building trace ∨ building (trace ++ events) = none := by
  induction events using List.reverseRecOn with
  | nil => simp
  | append_singleton events e ih =>
      rw [← List.append_assoc, building_concat]
      have hbefore := ih fun e' he' => hroutine e' (by simp [he'])
      have he := hroutine e (by simp)
      cases e with
      | executed txn request => cases he
      | completed txn request error =>
          dsimp only [build]
          split
          · exact .inr rfl
          · exact hbefore
      | _ => exact hbefore

theorem answer_idle {e : Event} (he : e.idle = true) (waiting : List RequestId) :
    answer txnId waiting e = waiting := by
  cases e <;> first | rfl | cases he

theorem build_aloof {e : Event} (he : e.aloof = true) (b : Option (TxnId × RequestId)) :
    build b e = b := by
  cases e <;> first | rfl | cases he

theorem accounted_aloof {e : Event} (he : e.aloof = true) (trace : List Event) :
    e.Accounted trace := by
  cases e <;> trivial

theorem idle_aloof {e : Event} (he : e.aloof = true) : e.idle = true := by
  cases e <;> first | rfl | cases he

theorem routine_aloof {e : Event} (he : e.aloof = true) : e.routine = true := by
  cases e <;> first | rfl | cases he

theorem unanswered_aloof (txnId : TxnId) (trace : List Event) {events : List Event}
    (haloof : ∀ e ∈ events, e.aloof = true) :
    unanswered txnId (trace ++ events) = unanswered txnId trace := by
  induction events using List.reverseRecOn with
  | nil => simp
  | append_singleton events e ih =>
      rw [← List.append_assoc, unanswered_concat, answer_idle (idle_aloof (haloof e (by simp)))]
      exact ih fun e' he' => haloof e' (by simp [he'])

theorem building_aloof (trace : List Event) {events : List Event}
    (haloof : ∀ e ∈ events, e.aloof = true) : building (trace ++ events) = building trace := by
  induction events using List.reverseRecOn with
  | nil => simp
  | append_singleton events e ih =>
      rw [← List.append_assoc, building_concat, build_aloof (haloof e (by simp))]
      exact ih fun e' he' => haloof e' (by simp [he'])

theorem committed_aloof {trace events : List Event} (haloof : ∀ e ∈ events, e.aloof = true)
    (h : Committed txnId (trace ++ events)) : Committed txnId trace := by
  obtain ⟨upgrade, ok, hmem⟩ := h
  refine ⟨upgrade, ok, (List.mem_append.mp hmem).resolve_right fun hmem => ?_⟩
  cases haloof _ hmem

/-- What waits for an answer has been placed. -/
theorem mem_placed_of_unanswered {trace : List Event} (h : requestId ∈ unanswered txnId trace) :
    requestId ∈ trace.filterMap (Event.placed txnId) := by
  induction trace using List.reverseRecOn with
  | nil => simp [unanswered] at h
  | append_singleton trace e ih =>
      rw [unanswered_concat] at h
      rw [List.filterMap_append, List.mem_append]
      cases e with
      | enqueued txn request =>
          by_cases htxn : txn = txnId
          · simp only [answer, htxn, if_true, List.mem_append, List.mem_singleton] at h
            rcases h with h | rfl
            · exact .inl (ih h)
            · simp [Event.placed, htxn]
          · simp only [answer, if_neg htxn] at h
            exact .inl (ih h)
      | completed txn request error =>
          by_cases htxn : txn = txnId
          · simp only [answer, htxn, if_true, List.mem_filter] at h
            exact .inl (ih h.1)
          · simp only [answer, if_neg htxn] at h
            exact .inl (ih h)
      | _ => exact .inl (ih h)

/-! ### The invariant -/

/-- What the driver is in the middle of. -/
inductive Work
  | none
  /-- The request is off its queue, and its answer is on the way. -/
  | completing (txnId : TxnId) (requestId : RequestId)
  /-- The backend has been asked to commit, and the object does not know yet. -/
  | ending (txnId : TxnId)
  deriving DecidableEq

/-- What the driver is in the middle of while handlers run: it builds a result, or waits for
nothing. -/
def State.work (s : State) : Work := (building s.trace).elim .none fun b => .completing b.1 b.2

theorem State.work_none (h : building s.trace = none) : s.work = .none := by simp [State.work, h]

theorem State.work_completing :
    s.work = .completing txnId requestId ↔ building s.trace = some (txnId, requestId) := by
  unfold State.work
  cases building s.trace with
  | none => simp
  | some b => simp [Prod.ext_iff]

theorem State.work_not_ending : s.work ≠ .ending txnId := by
  unfold State.work
  cases building s.trace <;> simp

def State.inactive (s : State) (txnId : TxnId) : Bool :=
  (s.txnObjects txnId).any fun object => !object.active

/-- The invariant: how requests and transactions stand, while the driver is at `work`. -/
structure Answering (work : Work) (s : State) : Prop where
  known : ∀ id, (s.txnObjects id).isSome → id < s.nextTxnId
  registered : ∀ id, (s.txns id).isSome → s.registered id = true
  committed : ∀ id, Committed id s.trace → s.txns id = none ∧ id < s.nextTxnId ∧
    (work = .ending id ∨ s.inactive id = true)
  failed : ∀ id handle, s.txns id = some handle → handle.finished = true →
    handle.backend = false ∧ .startFailed id ∈ s.trace
  /-- What waits for its answer is in the queue, with its operation, or on the way. -/
  waiting : ∀ id handle, s.txns id = some handle → handle.finished = false →
    ∀ r ∈ unanswered id s.trace, work = .completing id r ∨ r ∈ s.queue id ∧ (s.ops r).isSome
  owned : ∀ id id' r, r ∈ s.placed id → r ∈ s.placed id' → id = id'
  issued : ∀ id, ∀ r ∈ s.placed id, r < s.nextRequestId ∧ id < s.nextTxnId
  queued : ∀ id, ∀ r ∈ s.queue id, r ∈ s.placed id
  cursors : ∀ id cursor, s.cursors id = some cursor →
    cursor.requestId ∈ s.placed cursor.txnId
  flying : ∀ id r, work = .completing id r → r ∈ s.placed id

/-- What is left behind by any procedure: no commit, no further result that is being built, and
the transactions that are gone. -/
structure Grown (s s' : State) : Prop where
  trace : ∃ events, s'.trace = s.trace ++ events ∧ ∀ e ∈ events, e.routine = true
  nextTxnId : s.nextTxnId ≤ s'.nextTxnId
  gone : ∀ id, id < s.nextTxnId → s.txns id = none → s'.txns id = none

theorem Grown.refl (s : State) : Grown s s :=
  ⟨⟨[], by simp, by simp⟩, le_refl _, fun _ _ h => h⟩

theorem Grown.trans (h : Grown s s') (h' : Grown s' s'') : Grown s s'' := by
  obtain ⟨events, htrace, hroutine⟩ := h.trace
  obtain ⟨events', htrace', hroutine'⟩ := h'.trace
  refine ⟨⟨events ++ events', by rw [htrace', htrace, List.append_assoc], fun e he => ?_⟩,
    h.nextTxnId.trans h'.nextTxnId,
    fun id hid hgone => h'.gone id (lt_of_lt_of_le hid h.nextTxnId) (h.gone id hid hgone)⟩
  exact (List.mem_append.mp he).elim (hroutine e) (hroutine' e)

theorem Grown.builds (h : Grown s s') :
    building s'.trace = building s.trace ∨ building s'.trace = none := by
  obtain ⟨events, htrace, hroutine⟩ := h.trace
  rw [htrace]
  exact building_routine s.trace hroutine

/-- While nothing is built, nothing begins to be. -/
theorem Grown.idle (h : Grown s s') (hs : building s.trace = none) :
    building s'.trace = none :=
  h.builds.elim (fun hsame => hsame.trans hs) id

theorem Grown.placed (h : Grown s s') (hplaced : requestId ∈ s.placed txnId) :
    requestId ∈ s'.placed txnId := by
  obtain ⟨events, htrace, -⟩ := h.trace
  rw [State.placed, htrace, List.filterMap_append]
  exact List.mem_append_left _ hplaced

theorem Grown.committed (h : Grown s s') (hcommit : Committed txnId s'.trace) :
    Committed txnId s.trace := by
  obtain ⟨events, htrace, hroutine⟩ := h.trace
  obtain ⟨upgrade, ok, hmem⟩ := hcommit
  rw [htrace] at hmem
  refine ⟨upgrade, ok, (List.mem_append.mp hmem).resolve_right fun hmem => ?_⟩
  cases hroutine _ hmem

def answerContract : Contract State where
  always s := Due Event.Accounted s.trace
  invariant s := Answering s.work s
  during := Grown
  refl := Grown.refl
  trans := Grown.trans

/-! ### Steps that leave requests alone -/

/-- Requests, their order and the stages of transactions are the same. -/
structure Aloof (s s' : State) : Prop where
  txns : ∀ id, (s'.txns id).map (fun t => (t.backend, t.finished)) =
    (s.txns id).map fun t => (t.backend, t.finished)
  objects : ∀ id, (s'.txnObjects id).map TxnObject.registered =
    (s.txnObjects id).map TxnObject.registered
  inactive : ∀ id, s.inactive id = true → s'.inactive id = true
  nextTxnId : s'.nextTxnId = s.nextTxnId
  ops : s'.ops = s.ops
  txnQueues : s'.txnQueues = s.txnQueues
  cursors : ∀ id, (s'.cursors id).map (fun c => (c.txnId, c.requestId)) =
    (s.cursors id).map fun c => (c.txnId, c.requestId)
  nextRequestId : s.nextRequestId ≤ s'.nextRequestId
  trace : ∃ events, s'.trace = s.trace ++ events ∧ ∀ e ∈ events, e.aloof = true

theorem Aloof.of_trace {events : List Event} (htxns : s'.txns = s.txns)
    (hobjects : s'.txnObjects = s.txnObjects) (hnext : s'.nextTxnId = s.nextTxnId)
    (hops : s'.ops = s.ops) (hqueues : s'.txnQueues = s.txnQueues)
    (hcursors : s'.cursors = s.cursors) (hlater : s.nextRequestId ≤ s'.nextRequestId)
    (htrace : s'.trace = s.trace ++ events) (haloof : ∀ e ∈ events, e.aloof = true) :
    Aloof s s' :=
  ⟨fun _ => by rw [htxns], fun _ => by rw [hobjects],
    fun _ h => by rwa [State.inactive, hobjects], hnext, hops, hqueues, fun _ => by rw [hcursors],
    hlater, events, htrace, haloof⟩

theorem Aloof.of_eq (htxns : s'.txns = s.txns) (hobjects : s'.txnObjects = s.txnObjects)
    (hnext : s'.nextTxnId = s.nextTxnId) (hops : s'.ops = s.ops)
    (hqueues : s'.txnQueues = s.txnQueues) (hcursors : s'.cursors = s.cursors)
    (hlater : s'.nextRequestId = s.nextRequestId) (htrace : s'.trace = s.trace) : Aloof s s' :=
  .of_trace htxns hobjects hnext hops hqueues hcursors hlater.ge
    (htrace.trans (List.append_nil _).symm) fun _ h => absurd h List.not_mem_nil

theorem Aloof.refl (s : State) : Aloof s s := .of_eq rfl rfl rfl rfl rfl rfl rfl rfl

theorem Aloof.trans (h : Aloof s s') (h' : Aloof s' s'') : Aloof s s'' := by
  obtain ⟨events, htrace, haloof⟩ := h.trace
  obtain ⟨events', htrace', haloof'⟩ := h'.trace
  refine ⟨fun id => (h'.txns id).trans (h.txns id), fun id => (h'.objects id).trans (h.objects id),
    fun id hid => h'.inactive id (h.inactive id hid), h'.nextTxnId.trans h.nextTxnId,
    h'.ops.trans h.ops, h'.txnQueues.trans h.txnQueues,
    fun id => (h'.cursors id).trans (h.cursors id), h.nextRequestId.trans h'.nextRequestId,
    events ++ events', ?_, fun e he => ?_⟩
  · rw [htrace', htrace, List.append_assoc]
  · exact (List.mem_append.mp he).elim (haloof e) (haloof' e)

theorem Aloof.recorded {e : Event} (he : e.aloof = true) (s : State) :
    Aloof s { s with trace := s.trace ++ [e] } :=
  .of_trace rfl rfl rfl rfl rfl rfl (le_refl _) rfl fun _ hmem => List.mem_singleton.mp hmem ▸ he

theorem Aloof.unanswered_eq (h : Aloof s s') (id : TxnId) :
    unanswered id s'.trace = unanswered id s.trace := by
  obtain ⟨events, htrace, haloof⟩ := h.trace
  rw [htrace, unanswered_aloof id s.trace haloof]

theorem Aloof.building_eq (h : Aloof s s') : building s'.trace = building s.trace := by
  obtain ⟨events, htrace, haloof⟩ := h.trace
  rw [htrace, building_aloof s.trace haloof]

theorem Aloof.work_eq (h : Aloof s s') : s'.work = s.work := by
  rw [State.work, h.building_eq, State.work]

theorem Aloof.placed_eq (h : Aloof s s') (id : TxnId) : s'.placed id = s.placed id := by
  obtain ⟨events, htrace, haloof⟩ := h.trace
  rw [State.placed, htrace, List.filterMap_append,
    filterMap_idle (placed_idle id) fun e he => idle_aloof (haloof e he), List.append_nil]
  rfl

theorem Aloof.queue_eq (h : Aloof s s') (id : TxnId) : s'.queue id = s.queue id := by
  rw [State.queue, h.txnQueues, State.queue]

/-- The handles and objects that are there, and what matters of them, are the same. -/
theorem Aloof.handle (h : Aloof s s') {id : TxnId} {handle' : TxnHandle}
    (hhandle : s'.txns id = some handle') : ∃ handle, s.txns id = some handle ∧
      handle.backend = handle'.backend ∧ handle.finished = handle'.finished := by
  have hsame := h.txns id
  rw [hhandle] at hsame
  cases hold : s.txns id with
  | none => simp [hold] at hsame
  | some handle => exact ⟨handle, rfl, by simpa [hold, eq_comm] using hsame⟩

theorem Aloof.txns_none (h : Aloof s s') {id : TxnId} : s'.txns id = none ↔ s.txns id = none := by
  have hsame := h.txns id
  cases hold : s.txns id <;> cases hnew : s'.txns id <;> simp [hold, hnew] at hsame ⊢

theorem Aloof.registered_eq (h : Aloof s s') (id : TxnId) :
    s'.registered id = s.registered id := by
  have hsame := h.objects id
  unfold State.registered
  cases hold : s.txnObjects id <;> cases hnew : s'.txnObjects id <;>
    simp_all

theorem Aloof.answering {work : Work} (h : Aloof s s') (hs : Answering work s) :
    Answering work s' where
  known id hid := by
    rw [h.nextTxnId]
    refine hs.known id ?_
    have hsame := congrArg Option.isSome (h.objects id)
    simpa [hid] using hsame
  registered id hid := by
    rw [h.registered_eq]
    refine hs.registered id (Option.isSome_iff_ne_none.mpr fun hnone => ?_)
    rw [h.txns_none.mpr hnone] at hid
    cases hid
  committed id hid := by
    obtain ⟨events, htrace, haloof⟩ := h.trace
    rw [htrace] at hid
    obtain ⟨hgone, hbegun, hinactive⟩ := hs.committed id (committed_aloof haloof hid)
    exact ⟨h.txns_none.mpr hgone, h.nextTxnId ▸ hbegun, hinactive.imp_right (h.inactive id)⟩
  failed id handle' hhandle hfinished := by
    obtain ⟨handle, hold, hbackend, hsame⟩ := h.handle hhandle
    obtain ⟨hnone, hmem⟩ := hs.failed id handle hold (hsame.trans hfinished)
    obtain ⟨events, htrace, -⟩ := h.trace
    exact ⟨hbackend.symm.trans hnone, by simp [htrace, hmem]⟩
  waiting id handle' hhandle hfinished r hr := by
    obtain ⟨handle, hold, -, hsame⟩ := h.handle hhandle
    rw [h.unanswered_eq] at hr
    rw [h.queue_eq, h.ops]
    exact hs.waiting id handle hold (hsame.trans hfinished) r hr
  owned id id' r hr hr' := by
    rw [h.placed_eq] at hr hr'
    exact hs.owned id id' r hr hr'
  issued id r hr := by
    rw [h.placed_eq] at hr
    obtain ⟨hissued, hbegun⟩ := hs.issued id r hr
    exact ⟨lt_of_lt_of_le hissued h.nextRequestId, h.nextTxnId ▸ hbegun⟩
  queued id r hr := by
    rw [h.queue_eq] at hr
    rw [h.placed_eq]
    exact hs.queued id r hr
  cursors id cursor' hcursor := by
    have hsame := h.cursors id
    rw [hcursor] at hsame
    obtain ⟨cursor, hold, hids⟩ := Option.map_eq_some_iff.mp hsame.symm
    obtain ⟨htxn, hrequest⟩ := Prod.mk.inj hids
    rw [h.placed_eq, ← htxn, ← hrequest]
    exact hs.cursors id cursor hold
  flying id r hwork := by
    rw [h.placed_eq]
    exact hs.flying id r hwork

theorem Aloof.accounted (h : Aloof s s') (hs : answerContract.always s) :
    answerContract.always s' := by
  obtain ⟨events, htrace, haloof⟩ := h.trace
  show Due Event.Accounted s'.trace
  rw [htrace]
  exact Due.append hs fun before e he => accounted_aloof (haloof e he) before

theorem Aloof.grown (h : Aloof s s') : Grown s s' := by
  obtain ⟨events, htrace, haloof⟩ := h.trace
  exact ⟨⟨events, htrace, fun e he => routine_aloof (haloof e he)⟩, h.nextTxnId.ge,
    fun id _ hgone => h.txns_none.mpr hgone⟩

theorem Aloof.invariant (h : Aloof s s') (hs : answerContract.invariant s) :
    answerContract.invariant s' := by
  show Answering s'.work s'
  rw [h.work_eq]
  exact h.answering hs

theorem Aloof.held (h : Aloof s s') (hs : answerContract.Held s₀ s) :
    answerContract.Held s₀ s' :=
  hs.trans ⟨h.accounted hs.always, h.invariant hs.invariant, h.grown⟩

/-! ### Steps that change one thing -/

/-- One event is recorded, which neither commits a transaction nor leads to a result. -/
theorem grown_recorded {e : Event} (htrace : s'.trace = s.trace ++ [e])
    (he : e.routine = true) (hnext : s.nextTxnId ≤ s'.nextTxnId)
    (hgone : ∀ id, id < s.nextTxnId → s.txns id = none → s'.txns id = none) : Grown s s' :=
  ⟨⟨[e], htrace, fun _ hmem => List.mem_singleton.mp hmem ▸ he⟩, hnext, hgone⟩

theorem grown_same (htrace : s'.trace = s.trace) (hnext : s.nextTxnId ≤ s'.nextTxnId)
    (hgone : ∀ id, id < s.nextTxnId → s.txns id = none → s'.txns id = none) : Grown s s' :=
  ⟨⟨[], htrace.trans (List.append_nil _).symm, by simp⟩, hnext, hgone⟩

/-- An event that neither places a request nor answers one. -/
theorem Answering.recorded {work : Work} (h : Answering work s) {e : Event} (hidle : e.idle = true)
    (hcommit : ∀ id upgrade ok, e ≠ .commit id upgrade ok) :
    Answering work { s with trace := s.trace ++ [e] } := by
  have hplaced (id : TxnId) : State.placed { s with trace := s.trace ++ [e] } id = s.placed id := by
    simp [State.placed, placed_idle id e hidle]
  refine ⟨h.known, h.registered, fun id hid => ?_, fun id handle hhandle hfinished => ?_,
    fun id handle hhandle hfinished r hr => ?_, fun id id' r => ?_, fun id r => ?_, fun id r => ?_,
    fun id cursor => ?_, fun id r => ?_⟩
  · obtain ⟨upgrade, ok, hmem⟩ := hid
    refine h.committed id ⟨upgrade, ok, (List.mem_append.mp hmem).resolve_right fun hmem => ?_⟩
    exact hcommit id upgrade ok (List.mem_singleton.mp hmem).symm
  · obtain ⟨hbackend, hmem⟩ := h.failed id handle hhandle hfinished
    exact ⟨hbackend, by simp [hmem]⟩
  · rw [unanswered_concat, answer_idle hidle] at hr
    exact h.waiting id handle hhandle hfinished r hr
  · rw [hplaced, hplaced]
    exact h.owned id id' r
  · rw [hplaced]
    exact h.issued id r
  · rw [hplaced]
    exact h.queued id r
  · rw [hplaced]
    exact h.cursors id cursor
  · rw [hplaced]
    exact h.flying id r

/-- What the driver is in the middle of once a request has been answered. -/
def Work.answered (txnId : TxnId) (requestId : RequestId) (work : Work) : Work :=
  if work = .completing txnId requestId then .none else work

theorem Work.answered_eq {work work' : Work} (hwork' : work' ≠ .none) :
    work.answered txnId requestId = work' ↔
      work = work' ∧ work' ≠ .completing txnId requestId := by
  unfold Work.answered
  split
  · next hwork =>
      subst hwork
      constructor
      · intro h
        exact absurd h.symm hwork'
      · rintro ⟨rfl, hne⟩
        exact absurd rfl hne
  · next hwork =>
      constructor
      · rintro rfl
        exact ⟨rfl, hwork⟩
      · exact And.left

theorem State.work_answered (s : State) (error : Option IdbError) :
    State.work { s with trace := s.trace ++ [.completed txnId requestId error] } =
      s.work.answered txnId requestId := by
  unfold Work.answered
  by_cases hbuilding : building s.trace = some (txnId, requestId)
  · rw [if_pos (State.work_completing.mpr hbuilding)]
    exact State.work_none (by rw [building_concat, build, if_pos hbuilding])
  · rw [if_neg (fun hwork => hbuilding (State.work_completing.mp hwork)), State.work,
      building_concat, build, if_neg hbuilding, State.work]

/-- A request is answered, whether it was on the way or not. -/
theorem Answering.completed {work : Work} (h : Answering work s) (error : Option IdbError) :
    Answering (work.answered txnId requestId)
      { s with trace := s.trace ++ [.completed txnId requestId error] } := by
  have hplaced (id : TxnId) :
      State.placed { s with trace := s.trace ++ [.completed txnId requestId error] } id =
        s.placed id := by
    simp [State.placed, Event.placed]
  refine ⟨h.known, h.registered, fun id hid => ?_, fun id handle hhandle hfinished => ?_,
    fun id handle hhandle hfinished r hr => ?_, fun id id' r hr hr' => ?_, fun id r hr => ?_,
    fun id r hr => ?_, fun id cursor hcursor => ?_, fun id r hflying => ?_⟩
  · obtain ⟨upgrade, ok, hmem⟩ := hid
    obtain ⟨hgone, hbegun, hended⟩ := h.committed id ⟨upgrade, ok, by simpa using hmem⟩
    exact ⟨hgone, hbegun, hended.imp_left fun hending =>
      (Work.answered_eq (by simp)).mpr ⟨hending, by simp⟩⟩
  · obtain ⟨hbackend, hmem⟩ := h.failed id handle hhandle hfinished
    exact ⟨hbackend, by simp [hmem]⟩
  · rw [unanswered_concat] at hr
    have hwaits : r ∈ unanswered id s.trace ∧ ¬ (txnId = id ∧ r = requestId) := by
      by_cases htxn : txnId = id
      · simpa [answer, htxn] using hr
      · exact ⟨by simpa [answer, htxn] using hr, fun h => htxn h.1⟩
    refine (h.waiting id handle hhandle hfinished r hwaits.1).imp_left fun hflying =>
      (Work.answered_eq (by simp)).mpr ⟨hflying, fun hsame => ?_⟩
    cases hsame
    exact hwaits.2 ⟨rfl, rfl⟩
  · rw [hplaced] at hr hr'
    exact h.owned id id' r hr hr'
  · rw [hplaced] at hr
    exact h.issued id r hr
  · rw [hplaced]
    exact h.queued id r hr
  · rw [hplaced]
    exact h.cursors id cursor hcursor
  · rw [hplaced]
    exact h.flying id r ((Work.answered_eq (by simp)).mp hflying).1

theorem Answering.completedNext (h : Answering (.completing txnId requestId) s)
    (error : Option IdbError) :
    Answering .none { s with trace := s.trace ++ [.completed txnId requestId error] } := by
  have hcompleted : Answering (Work.answered txnId requestId (.completing txnId requestId)) _ :=
    h.completed error
  rwa [Work.answered, if_pos rfl] at hcompleted

/-- The handle of a transaction is taken out. -/
theorem Answering.removed {work : Work} (h : Answering work s) (txnId : TxnId) :
    Answering work (s.setTxn txnId none) := by
  have hold {id : TxnId} {handle : TxnHandle}
      (hhandle : (s.setTxn txnId none).txns id = some handle) : s.txns id = some handle := by
    by_cases hne : id = txnId
    · subst hne
      simp [State.setTxn] at hhandle
    · simpa [State.setTxn, hne] using hhandle
  refine ⟨h.known, fun id hid => ?_, fun id hid => ?_,
    fun id handle hhandle => h.failed id handle (hold hhandle),
    fun id handle hhandle => h.waiting id handle (hold hhandle), h.owned, h.issued, h.queued,
    h.cursors, h.flying⟩
  · obtain ⟨handle, hhandle⟩ := Option.isSome_iff_exists.mp hid
    exact h.registered id (by simp [hold hhandle])
  · obtain ⟨hgone, hrest⟩ := h.committed id hid
    refine ⟨?_, hrest⟩
    by_cases hne : id = txnId <;> simp [State.setTxn, hne, hgone]

/-- A request is placed: a new one, or one of the same transaction. -/
theorem Answering.enqueued {work : Work} (h : Answering work s) (op : PendingOp)
    (howned : ∀ id, requestId ∈ s.placed id → id = txnId) (hissued : requestId < s.nextRequestId)
    (hbegun : txnId < s.nextTxnId) :
    Answering work (s.enqueue txnId requestId op) := by
  have hplaced (id : TxnId) : (s.enqueue txnId requestId op).placed id =
      s.placed id ++ if id = txnId then [requestId] else [] := by
    by_cases hne : txnId = id
    · simp [State.placed, State.enqueue, Event.placed, hne]
    · simp [State.placed, State.enqueue, Event.placed, hne, Ne.symm hne]
  have hqueue (id : TxnId) : (s.enqueue txnId requestId op).queue id =
      s.queue id ++ if id = txnId then [requestId] else [] := by
    by_cases hne : id = txnId
    · subst hne
      simp [State.queue, State.enqueue]
    · simp [State.queue, State.enqueue, hne]
  -- what is placed is what was, and this request in its transaction
  have hmem {id : TxnId} {r : RequestId} (hr : r ∈ (s.enqueue txnId requestId op).placed id) :
      r ∈ s.placed id ∨ id = txnId ∧ r = requestId := by
    rw [hplaced] at hr
    by_cases hne : id = txnId <;> simpa [hne] using hr
  have hstays {id : TxnId} {r : RequestId} (hr : r ∈ s.placed id) :
      r ∈ (s.enqueue txnId requestId op).placed id := by simp [hplaced, hr]
  refine ⟨h.known, h.registered, fun id hid => ?_, fun id handle hhandle hfinished => ?_,
    fun id handle hhandle hfinished r hr => ?_, fun id id' r hr hr' => ?_, fun id r hr => ?_,
    fun id r hr => ?_, fun id cursor hcursor => hstays (h.cursors id cursor hcursor),
    fun id r hflying => hstays (h.flying id r hflying)⟩
  · obtain ⟨upgrade, ok, hcommit⟩ := hid
    exact h.committed id ⟨upgrade, ok, by simpa [State.enqueue] using hcommit⟩
  · obtain ⟨hbackend, hfailed⟩ := h.failed id handle hhandle hfinished
    exact ⟨hbackend, by simp [State.enqueue, hfailed]⟩
  · have hwaits : r ∈ unanswered id s.trace ∨ id = txnId ∧ r = requestId := by
      rw [State.enqueue, unanswered_concat] at hr
      by_cases hne : txnId = id
      · simpa [answer, hne] using hr
      · exact .inl (by simpa [answer, hne] using hr)
    rw [hqueue]
    rcases hwaits with hr | ⟨rfl, rfl⟩
    · refine (h.waiting id handle hhandle hfinished r hr).imp_right fun hwaits => ?_
      refine ⟨List.mem_append_left _ hwaits.1, ?_⟩
      by_cases hne : r = requestId <;> simp [State.enqueue, hne, hwaits.2]
    · exact .inr (by simp [State.enqueue])
  · rcases hmem hr with hold | ⟨rfl, rfl⟩
    · rcases hmem hr' with hold' | ⟨rfl, rfl⟩
      · exact h.owned id id' r hold hold'
      · exact howned id hold
    · rcases hmem hr' with hold' | hnew
      · exact (howned id' hold').symm
      · exact hnew.1.symm
  · rcases hmem hr with hr | ⟨rfl, rfl⟩
    · exact h.issued id r hr
    · exact ⟨hissued, hbegun⟩
  · rw [hqueue] at hr
    rcases List.mem_append.mp hr with hr | hr
    · exact hstays (h.queued id r hr)
    · by_cases hne : id = txnId
      · simp only [hne, if_true, List.mem_singleton] at hr
        simp [hplaced, hne, hr]
      · simp [hne] at hr

/-- So wherever handlers run. -/
theorem invariant_enqueued (h : answerContract.invariant s) (op : PendingOp)
    (howned : ∀ id, requestId ∈ s.placed id → id = txnId) (hissued : requestId < s.nextRequestId)
    (hbegun : txnId < s.nextTxnId) : answerContract.invariant (s.enqueue txnId requestId op) := by
  have hwork : (s.enqueue txnId requestId op).work = s.work := by
    rw [State.work, State.enqueue, building_concat]
    rfl
  show Answering (s.enqueue txnId requestId op).work _
  rw [hwork]
  exact Answering.enqueued h op howned hissued hbegun

theorem Answering.allocated {work : Work} (h : Answering work s) (hnext : s.nextTxnId + 1 ≠ 0) :
    Answering work s.allocTxn := by
  have hlater {id : TxnId} (hlt : id < s.nextTxnId) : id < s.nextTxnId + 1 :=
    hlt.trans (lt_succ_self hnext)
  refine ⟨fun id hsome => hlater (h.known id hsome), h.registered, fun id hcommit => ?_, h.failed,
    h.waiting, h.owned, fun id r hr => (h.issued id r hr).imp_right hlater, h.queued, h.cursors,
    h.flying⟩
  exact (h.committed id hcommit).imp_right fun hrest => hrest.imp_left hlater

/-- A transaction begins, with an id that no one has seen. -/
theorem Answering.begun {work : Work} (h : Answering work s) (hnext : s.nextTxnId + 1 ≠ 0)
    (handle : TxnHandle) (hid : handle.txnId = s.nextTxnId) (hfinished : handle.finished = false) :
    Answering work ((s.allocTxn.enterTxn handle).registerTxn s.nextTxnId) := by
  have halloc := h.allocated hnext
  have htxns {id : TxnId} (hne : id ≠ s.nextTxnId) :
      ((s.allocTxn.enterTxn handle).registerTxn s.nextTxnId).txns id = s.txns id := by
    simp [State.registerTxn, State.enterTxn, State.allocTxn, hid, hne]
  have hobjects {id : TxnId} (hne : id ≠ s.nextTxnId) :
      ((s.allocTxn.enterTxn handle).registerTxn s.nextTxnId).txnObjects id = s.txnObjects id := by
    simp [State.registerTxn, State.enterTxn, State.allocTxn, hne]
  have hself : ((s.allocTxn.enterTxn handle).registerTxn s.nextTxnId).txns s.nextTxnId =
      some handle := by
    simp [State.registerTxn, State.enterTxn, hid]
  refine ⟨fun id hsome => ?_, fun id hsome => ?_, fun id hcommit => ?_,
    fun id handle' hhandle hfin => ?_, fun id handle' hhandle hfin r hr => ?_, h.owned,
    halloc.issued, h.queued, h.cursors, halloc.flying⟩
  · by_cases hne : id = s.nextTxnId
    · rw [hne]
      exact lt_succ_self hnext
    · rw [hobjects hne] at hsome
      exact halloc.known id hsome
  · by_cases hne : id = s.nextTxnId
    · simp [State.registered, State.registerTxn, hne]
    · rw [htxns hne] at hsome
      rw [State.registered, hobjects hne]
      exact h.registered id hsome
  · have hne : id ≠ s.nextTxnId := (h.committed id hcommit).2.1.ne
    obtain ⟨hgone, hlt, hinactive⟩ := halloc.committed id hcommit
    refine ⟨(htxns hne).trans hgone, hlt, hinactive.imp_right fun hinactive => ?_⟩
    rwa [State.inactive, hobjects hne]
  · by_cases hne : id = s.nextTxnId
    · rw [hne, hself] at hhandle
      cases hhandle
      rw [hfinished] at hfin
      cases hfin
    · rw [htxns hne] at hhandle
      exact h.failed id handle' hhandle hfin
  · by_cases hne : id = s.nextTxnId
    · have hlt := (h.issued id r (mem_placed_of_unanswered hr)).2
      exact absurd hne hlt.ne
    · rw [htxns hne] at hhandle
      exact h.waiting id handle' hhandle hfin r hr

/-- The queue of a transaction that is gone or finished is emptied. -/
theorem Answering.emptied {work : Work} (h : Answering work s) (txnId : TxnId)
    (hstale : ∀ handle, s.txns txnId = some handle → handle.finished = true)
    (htxns : s'.txns = s.txns) (hobjects : s'.txnObjects = s.txnObjects)
    (hnext : s'.nextTxnId = s.nextTxnId) (hlater : s'.nextRequestId = s.nextRequestId)
    (hcursors : s'.cursors = s.cursors) (htrace : s'.trace = s.trace)
    (hqueues : s'.txnQueues = Function.update s.txnQueues txnId none)
    (hops : ∀ r, r ∉ s.queue txnId → s'.ops r = s.ops r) : Answering work s' := by
  have hplaced (id : TxnId) : s'.placed id = s.placed id := by
    rw [State.placed, htrace]
    rfl
  have hqueue {id : TxnId} (hne : id ≠ txnId) : s'.queue id = s.queue id := by
    simp [State.queue, hqueues, hne]
  have hself : s'.queue txnId = [] := by simp [State.queue, hqueues]
  refine ⟨fun id => ?_, fun id => ?_, fun id => ?_, fun id handle => ?_,
    fun id handle hhandle hfinished r hr => ?_, fun id id' r => ?_, fun id r => ?_,
    fun id r hr => ?_, fun id cursor => ?_, fun id r => ?_⟩
  · rw [hobjects, hnext]
    exact h.known id
  · rw [htxns, State.registered, hobjects]
    exact h.registered id
  · rw [htxns, htrace, hnext, State.inactive, hobjects]
    exact h.committed id
  · rw [htxns, htrace]
    exact h.failed id handle
  · rw [htxns] at hhandle
    rw [htrace] at hr
    -- a transaction that still waits for answers is not the one that is emptied
    have hne : id ≠ txnId := by
      rintro rfl
      rw [hstale handle hhandle] at hfinished
      cases hfinished
    rw [hqueue hne]
    refine (h.waiting id handle hhandle hfinished r hr).imp_right fun hwaits => ⟨hwaits.1, ?_⟩
    rw [hops r fun hmem =>
      hne (h.owned id txnId r (h.queued id r hwaits.1) (h.queued txnId r hmem))]
    exact hwaits.2
  · rw [hplaced, hplaced]
    exact h.owned id id' r
  · rw [hplaced, hlater, hnext]
    exact h.issued id r
  · rw [hplaced]
    by_cases hne : id = txnId
    · rw [hne, hself] at hr
      cases hr
    · rw [hqueue hne] at hr
      exact h.queued id r hr
  · rw [hcursors, hplaced]
    exact h.cursors id cursor
  · rw [hplaced]
    exact h.flying id r

theorem Answering.forgotten {work : Work} (h : Answering work s) (hgone : s.txns txnId = none) :
    Answering work (s.forget txnId) :=
  h.emptied txnId (fun handle hhandle => by simp [hgone] at hhandle) rfl rfl rfl rfl rfl
    rfl rfl fun _ _ => rfl

/-! ### Programs -/

/-- A step that keeps the contract wherever handlers may run. -/
def Tame (s s' : State) : Prop :=
  answerContract.always s → answerContract.invariant s → answerContract.Held s s'

theorem Aloof.tame (h : Aloof s s') : Tame s s' :=
  fun halways hs => h.held (.refl halways hs)

theorem Tame.refl (s : State) : Tame s s := fun halways hs => .refl halways hs

variable {α β : Type} {p : Prog α} {k : α → Prog β}

theorem answered_of_tame (hp : p.Within Tame) (h : answerContract.Held s₀ s) :
    Kept answerContract s₀ p s :=
  hp.kept (fun _ _ htame halways hs => htame halways hs) h

/-- From where it starts on, and on from there. -/
theorem answered_andThen (hp : Kept answerContract s p s)
    (hk : ∀ a s', answerContract.Held s s' → Kept answerContract s₀ (k a) s') :
    Kept answerContract s₀ (p >>= k) s :=
  Safe.seq hp fun a s' halways hs' => hk a s' ⟨halways, hs'.1, hs'.2⟩

theorem tame_modify {f : State → State} (h : ∀ s, Aloof s (f s)) :
    (modify f : Prog Unit).Within Tame := within_modify fun s => (h s).tame

theorem tame_dispatch {e : Event} (he : e.aloof = true) : (dispatch e).Within Tame :=
  within_dispatch fun s => (Aloof.recorded he s).tame

theorem tame_completed (txnId : TxnId) (requestId : RequestId) (error : Option IdbError)
    (s : State) : Tame s { s with trace := s.trace ++ [.completed txnId requestId error] } :=
  fun halways hs => by
    refine ⟨Due.concat halways trivial, ?_, grown_recorded rfl rfl (le_refl _)
      fun _ _ hgone => hgone⟩
    show Answering (State.work _) _
    rw [State.work_answered]
    exact hs.completed error

theorem aloof_mapTxns (s : State) (edit : TxnId → TxnHandle → TxnHandle)
    (objectEdit : TxnId → TxnObject → TxnObject)
    (hedit : ∀ id handle, (edit id handle).backend = handle.backend ∧
      (edit id handle).finished = handle.finished)
    (hobject : ∀ id object, (objectEdit id object).registered = object.registered ∧
      ((objectEdit id object).active = true → object.active = true)) :
    Aloof s
      { s with
        txns := fun id => (s.txns id).map (edit id)
        txnObjects := fun id => (s.txnObjects id).map (objectEdit id) } := by
  refine ⟨fun id => ?_, fun id => ?_, fun id hid => ?_, rfl, rfl, rfl, fun _ => rfl, le_refl _, [],
    by simp, by simp⟩
  · simp [Function.comp_def, hedit]
  · simp [Function.comp_def, hobject]
  · unfold State.inactive at hid ⊢
    cases hold : s.txnObjects id with
    | none => simp [hold] at hid
    | some object =>
        have hactive := (hobject id object).2
        rw [hold] at hid
        cases hnew : (objectEdit id object).active with
        | false => simp [hold, hnew]
        | true => simp [hactive hnew] at hid

theorem aloof_editTxn (txnId : TxnId) {edit : TxnHandle → TxnHandle} (s : State)
    (hedit : ∀ handle, (edit handle).backend = handle.backend ∧
      (edit handle).finished = handle.finished) : Aloof s (s.editTxn txnId edit) := by
  have h := aloof_mapTxns s (fun id => if id = txnId then edit else fun x => x) (fun _ x => x)
    (fun id handle => by split <;> simp [hedit]) (by simp)
  simpa [State.editTxn, update_map] using h

/-- A change to one object that does not activate it. -/
theorem aloof_mapObject (txnId : TxnId) {edit : TxnObject → TxnObject} (s : State)
    (hedit : ∀ object, (edit object).registered = object.registered ∧
      ((edit object).active = true → object.active = true)) :
    Aloof s { s with
      txnObjects := Function.update s.txnObjects txnId ((s.txnObjects txnId).map edit) } := by
  have h := aloof_mapTxns s (fun _ x => x) (fun id => if id = txnId then edit else fun x => x)
    (by simp) fun id object => by
      split
      · exact hedit object
      · simp
  simpa [update_map] using h

theorem aloof_editTxnObject (txnId : TxnId) {edit : TxnObject → TxnObject} (s : State)
    (hedit : ∀ object, (edit object).registered = object.registered ∧
      ((edit object).active = true → object.active = true)) :
    Aloof s (s.editTxnObject txnId edit) := by
  refine aloof_mapObject txnId s fun object => ?_
  split
  · exact hedit object
  · simp

theorem tame_refreshTxnEpoch (txnId : TxnId) : (refreshTxnEpoch txnId).Within Tame :=
  tame_modify fun s => aloof_editTxn txnId s fun _ => ⟨rfl, rfl⟩

theorem tame_failOp (txnId : TxnId) (requestId : RequestId) (error : IdbError) :
    (failOp txnId requestId error).Within Tame := by
  refine within_bind (tame_refreshTxnEpoch txnId) fun _ =>
    within_bind (within_dispatch (tame_completed txnId requestId error)) fun request =>
      within_bind (within_read .refl) fun s => ?_
  split
  · exact within_bind (tame_dispatch rfl) fun _ => within_pure
  · exact within_pure

theorem answered_failQueuedRequests (error : IdbError) (h : answerContract.Held s₀ s)
    (hstale : ∀ handle, s.txns txnId = some handle → handle.finished = true) :
    Kept answerContract s₀ (failQueuedRequests txnId error) s := by
  refine Kept.modifyRead h.always (answered_of_tame (within_forEach (fun requestId =>
    within_bind (tame_failOp txnId requestId error) fun _ => within_pure) _) ?_)
  refine h.trans ⟨h.always, ?_, grown_same rfl (le_refl _) fun _ _ hgone => hgone⟩
  refine h.invariant.emptied txnId hstale rfl rfl rfl rfl rfl rfl rfl fun r hr => ?_
  exact if_neg hr

theorem tame_clearUpgradeTxn (open' : PendingOpen) : (clearUpgradeTxn open').Within Tame := by
  refine tame_modify fun s => ?_
  cases s.results open'.requestId with
  | none => exact .refl s
  | some conn => exact .of_eq rfl rfl rfl rfl rfl rfl rfl rfl

theorem tame_resetAbortedUpgradeRequest (open' : PendingOpen) :
    (resetAbortedUpgradeRequest open').Within Tame := by
  have hlast : (modify fun s : State => s.clearResult open'.requestId : Prog Unit).Within
      Tame := tame_modify fun _ => .of_eq rfl rfl rfl rfl rfl rfl rfl rfl
  unfold resetAbortedUpgradeRequest
  split
  · exact within_bind (tame_clearUpgradeTxn open') fun _ => hlast
  · exact hlast

theorem tame_abortUpgradeOpen (txnId : TxnId) (notifyRequest : Bool) :
    (abortUpgradeOpen txnId notifyRequest).Within Tame := by
  refine within_bind (within_read .refl) fun s => ?_
  split
  · exact within_pure
  · next open' _ =>
      refine within_bind (tame_modify fun _ => .of_eq rfl rfl rfl rfl rfl rfl rfl rfl) fun _ =>
        within_bind (tame_clearUpgradeTxn open') fun _ =>
          within_bind (tame_resetAbortedUpgradeRequest open') fun _ => ?_
      split
      · exact within_pure
      · exact within_bind (tame_dispatch rfl) fun _ => within_pure

theorem Answering.unregistered {work : Work} (h : Answering work s)
    (hgone : s.txns txnId = none) : Answering work (s.unregisterTxn txnId) := by
  have hobject (id : TxnId) : ((s.unregisterTxn txnId).txnObjects id).map TxnObject.active =
      (s.txnObjects id).map TxnObject.active := by
    by_cases hne : id = txnId
    · subst hne
      simp [State.unregisterTxn, Function.comp_def]
    · simp [State.unregisterTxn, hne]
  refine ⟨fun id hsome => h.known id ?_, fun id hsome => ?_, fun id hcommit => ?_, h.failed,
    h.waiting, h.owned, h.issued, h.queued, h.cursors, h.flying⟩
  · simpa [hsome] using congrArg Option.isSome (hobject id)
  · have hne : id ≠ txnId := by
      rintro rfl
      simp [State.unregisterTxn, hgone] at hsome
    simpa [State.registered, State.unregisterTxn, hne] using h.registered id hsome
  · refine (h.committed id hcommit).imp_right fun hrest => hrest.imp_right fun hinactive =>
      hinactive.imp_right fun hinactive => ?_
    have hsame (o : Option TxnObject) :
        o.any (fun object => !object.active) = (o.map TxnObject.active).any (! ·) := by
      cases o <;> simp
    rw [State.inactive, hsame] at hinactive ⊢
    rw [hobject]
    exact hinactive

/-- The object knows that its transaction has ended. -/
theorem Answering.ended (h : Answering (.ending txnId) s) (hinactive : s.inactive txnId = true) :
    Answering .none s := by
  refine ⟨h.known, h.registered, fun id hcommit => ?_, h.failed,
    fun id handle hhandle hfinished r hr => ?_, h.owned, h.issued, h.queued, h.cursors,
    fun id r hno => by cases hno⟩
  · refine (h.committed id hcommit).imp_right fun hrest => hrest.imp_right fun hended => .inr ?_
    rcases hended with hended | hended
    · cases hended
      exact hinactive
    · exact hended
  · exact .inr ((h.waiting id handle hhandle hfinished r hr).resolve_left (by simp))

theorem Answering.begun_of_registered {work : Work} (h : Answering work s)
    (hregistered : s.registered txnId = true) : txnId < s.nextTxnId := by
  refine h.known txnId ?_
  cases hobject : s.txnObjects txnId with
  | none => simp [State.registered, hobject] at hregistered
  | some object => rfl

/-- The object of a transaction that is gone is told of its end, and let go. -/
theorem answered_dispatchEnd {work : Work} {edit : TxnObject → TxnObject} {e : Event}
    (hedit : ∀ object, (edit object).registered = object.registered ∧
      (edit object).active = false) (he : e.aloof = true)
    (halways : answerContract.always s) (hs : Answering work s) (hgrown : Grown s₀ s)
    (hgone : s.txns txnId = none)
    (hwork : work = s.work ∨
      work = .ending txnId ∧ s.registered txnId = true ∧ building s.trace = none) :
    Kept answerContract s₀ (dispatchEnd txnId edit e) s := by
  have hlast {s₁ : State} (h : answerContract.Held s₀ s₁) (hgone : s₁.txns txnId = none) :
      Kept answerContract s₀ (modify fun s => s.unregisterTxn txnId : Prog Unit) s₁ :=
    Kept.last h.always (h.trans ⟨h.always, h.invariant.unregistered hgone,
      grown_same rfl (le_refl _) fun _ _ hgone => hgone⟩)
  refine Kept.read ?_
  split
  · next hregistered =>
      have haloof : Aloof s (s.editTxnObject txnId edit) :=
        aloof_editTxnObject txnId s fun object => ⟨(hedit object).1, by simp [hedit]⟩
      have hbegun := hs.begun_of_registered hregistered
      have hinactive : (s.editTxnObject txnId edit).inactive txnId = true := by
        cases hobject : s.txnObjects txnId with
        | none => simp [State.registered, hobject] at hregistered
        | some object =>
            have hobjectRegistered : object.registered = true := by
              simpa [State.registered, hobject] using hregistered
            simp [State.inactive, State.editTxnObject, hobject, hobjectRegistered, hedit]
      have hedited : answerContract.Held s₀ (s.editTxnObject txnId edit) := by
        refine ⟨haloof.accounted halways, ?_, hgrown.trans haloof.grown⟩
        rcases hwork with rfl | ⟨rfl, -, hidle⟩
        · exact haloof.invariant hs
        · show Answering s.work _
          rw [State.work_none hidle]
          exact (haloof.answering hs).ended hinactive
      refine Kept.modify halways (answered_andThen
        (answered_of_tame (tame_dispatch he) (.refl hedited.always hedited.invariant)) ?_)
      intro _ s₁ h₁
      exact hlast (hedited.trans h₁) (h₁.during.gone txnId hbegun hgone)
  · next hregistered =>
      obtain rfl : work = s.work := hwork.resolve_right fun hending => hregistered hending.2.1
      exact hlast ⟨halways, hs, hgrown⟩ hgone

/-- What an abort takes out of the queue is all that waits, unless a result is being built. -/
theorem held_takeAborted (txnId : TxnId) (h : answerContract.Held s₀ s) :
    Safe answerContract (takeAborted txnId) (fun taken s' => answerContract.Held s₀ s' ∧
      s'.txns txnId = none ∧ (taken.isSome → txnId < s'.nextTxnId)) s := by
  have hgone (id : TxnId) (hnone : s.txns id = none) : (s.setTxn txnId none).txns id = none := by
    by_cases hne : id = txnId <;> simp [State.setTxn, hne, hnone]
  have hself : (s.setTxn txnId none).txns txnId = none := by simp [State.setTxn]
  have hremoved := h.invariant.removed txnId
  cases hhandle : s.txns txnId with
  | none =>
      refine Safe.modifyRead h.always ?_
      simp only [hhandle, Option.isSome_none, Bool.false_eq_true, if_false, List.append_nil]
      exact .pure h.always ⟨h.trans ⟨h.always, hremoved, grown_same rfl (le_refl _)
        fun id _ => hgone id⟩, hself, by simp⟩
  | some handle =>
      have hdue : Event.Accounted s.trace (.aborting txnId ((s.txnQueues txnId).getD [])) := by
        cases hfinished : handle.finished with
        | true => exact .inl (h.invariant.failed txnId handle hhandle hfinished).2
        | false =>
            refine .inr fun r hr => ?_
            rcases h.invariant.waiting txnId handle hhandle hfinished r hr with hflying | hwaits
            · exact .inr (State.work_completing.mp hflying)
            · exact .inl hwaits.1
      have hbegun := h.invariant.begun_of_registered
        (h.invariant.registered txnId (by simp [hhandle]))
      refine Safe.modifyRead h.always ?_
      simp only [hhandle, Option.isSome_some, if_true]
      have hdone := Due.concat h.always hdue
      have haborting := hremoved.recorded
        (rfl : (Event.aborting txnId ((s.txnQueues txnId).getD [])).idle = true) (by simp)
      have hwork : State.work { s.setTxn txnId none with
          trace := s.trace ++ [.aborting txnId ((s.txnQueues txnId).getD [])] } = s.work := by
        rw [State.work, building_concat]
        rfl
      refine .pure hdone ⟨h.trans ⟨hdone, ?_, grown_recorded rfl rfl (le_refl _)
        fun id _ => hgone id⟩, hself, fun _ => hbegun⟩
      show Answering (State.work _) _
      rw [hwork]
      exact haborting

theorem answered_abortTransaction (txnId : TxnId) (notifyUpgradeOpen : Bool)
    (h : answerContract.Held s₀ s) :
    Kept answerContract s₀ (abortTransaction txnId notifyUpgradeOpen) s := by
  refine Safe.seq (held_takeAborted txnId h) fun taken s₁ _ htaken => ?_
  obtain ⟨h₁, hgone, hbegun⟩ := htaken
  cases taken with
  | none => exact Kept.pure h₁
  | some handle =>
      have hforget : answerContract.Held s₀ (s₁.forget txnId) :=
        h₁.trans ⟨h₁.always, h₁.invariant.forgotten hgone, grown_same rfl (le_refl _)
          fun _ _ hgone => hgone⟩
      refine Kept.modify h₁.always (answered_andThen (answered_failQueuedRequests .abort
        (.refl hforget.always hforget.invariant) fun handle hhandle => ?_) fun _ s₂ h₂ => ?_)
      · cases hgone.symm.trans hhandle
      · have h₂' := hforget.trans h₂
        refine Kept.bind (answered_dispatchEnd (fun _ => ⟨rfl, rfl⟩) rfl h₂'.always h₂'.invariant
          h₂'.during (h₂.during.gone txnId (hbegun rfl) hgone) (.inl rfl)) fun _ s₃ h₃ => ?_
        split
        · exact answered_of_tame (tame_abortUpgradeOpen txnId notifyUpgradeOpen) h₃
        · exact Kept.pure h₃

/-! ### Opens -/

/-- A change to the opens, the connections or their objects. -/
theorem tame_opens {f : State → State} (htxns : ∀ s, (f s).txns = s.txns)
    (hobjects : ∀ s, (f s).txnObjects = s.txnObjects)
    (hnext : ∀ s, (f s).nextTxnId = s.nextTxnId) (hops : ∀ s, (f s).ops = s.ops)
    (hqueues : ∀ s, (f s).txnQueues = s.txnQueues) (hcursors : ∀ s, (f s).cursors = s.cursors)
    (hlater : ∀ s, (f s).nextRequestId = s.nextRequestId) (htrace : ∀ s, (f s).trace = s.trace) :
    (modify f : Prog Unit).Within Tame :=
  tame_modify fun s => .of_eq (htxns s) (hobjects s) (hnext s) (hops s) (hqueues s) (hcursors s)
    (hlater s) (htrace s)

theorem held_forgotten (hgone : s.txns txnId = none) (h : answerContract.Held s₀ s)
    (haloof : Aloof (s.forget txnId) s') : answerContract.Held s₀ s' :=
  haloof.held (h.trans ⟨h.always, h.invariant.forgotten hgone,
    grown_same rfl (le_refl _) fun _ _ hgone => hgone⟩)

theorem answered_abortFailedUpgrade (open' : PendingOpen) (txnId : TxnId)
    (h : answerContract.Held s₀ s) :
    Kept answerContract s₀ (abortFailedUpgrade open' txnId) s := by
  refine Kept.bind (answered_of_tame (tame_resetAbortedUpgradeRequest open') h) fun _ s₁ h₁ =>
    Safe.seq (held_takeAborted txnId h₁) fun taken s₂ _ htaken => ?_
  obtain ⟨h₂, hgone, -⟩ := htaken
  have hforget := held_forgotten hgone h₂
    (.of_eq rfl rfl rfl rfl rfl rfl rfl rfl : Aloof (s₂.forget txnId)
      (((s₂.forget txnId).removeOpen open'.requestId).editQueue open'.name
        OpenQueue.onOperationFailed))
  refine Kept.modify h₂.always (Kept.bind (answered_dispatchEnd (fun _ => ⟨rfl, rfl⟩) rfl
    hforget.always hforget.invariant hforget.during hgone (.inl rfl)) fun _ s₃ h₃ => ?_)
  exact answered_of_tame (within_bind (tame_dispatch rfl) fun _ => within_pure) h₃

/-- A transaction begins, and with it whatever is not about requests. -/
theorem held_begun (hnext : s.nextTxnId + 1 ≠ 0) {handle : TxnHandle}
    (hid : handle.txnId = s.nextTxnId) (hfinished : handle.finished = false)
    (h : answerContract.Held s₀ s)
    (haloof : Aloof ((s.allocTxn.enterTxn handle).registerTxn s.nextTxnId) s') :
    answerContract.Held s₀ s' := by
  refine haloof.held (h.trans ⟨h.always, h.invariant.begun hnext handle hid hfinished,
    grown_same rfl (lt_succ_self hnext).le fun id hlt hgone => ?_⟩)
  simp [State.registerTxn, State.enterTxn, State.allocTxn, hid, hlt.ne, hgone]

theorem held_allocated (hnext : s.nextTxnId + 1 ≠ 0) (h : answerContract.Held s₀ s) :
    answerContract.Held s₀ s.allocTxn :=
  h.trans ⟨h.always, h.invariant.allocated hnext, grown_same rfl (lt_succ_self hnext).le
    fun _ _ hgone => hgone⟩

theorem answered_startUpgradeTxn (open' : PendingOpen) (h : answerContract.Held s₀ s) :
    Kept answerContract s₀ (startUpgradeTxn open') s := by
  refine Kept.read (Kept.choose h.always fun begun => ?_)
  split
  · exact Kept.pure h
  · next hnext =>
      split
      · exact Kept.modify h.always (Kept.pure (held_begun hnext rfl rfl h
          (.of_eq rfl rfl rfl rfl rfl rfl rfl rfl)))
      · exact Kept.modify h.always (Kept.pure (held_allocated hnext h))

/-- An open is settled, and that is reported. -/
theorem tame_settled {f : State → State} {e : Event} (hf : (modify f : Prog Unit).Within Tame)
    (he : e.aloof = true) :
    (modify f >>= fun _ => dispatch e >>= fun _ => (pure () : Prog Unit)).Within Tame :=
  within_bind hf fun _ => within_bind (tame_dispatch he) fun _ => within_pure

theorem answered_startUpgrade (open' : PendingOpen) (old new : UInt64)
    (h : answerContract.Held s₀ s) : Kept answerContract s₀ (startUpgrade open' old new) s := by
  refine Kept.bind (answered_of_tame (within_modify fun s => (Aloof.recorded rfl s).tame) h)
    fun _ s₁ h₁ => Kept.bind (answered_startUpgradeTxn open' h₁) fun started s₂ h₂ => ?_
  split
  · refine Kept.bind (answered_of_tame (tame_opens (fun _ => rfl) (fun _ => rfl) (fun _ => rfl)
      (fun _ => rfl) (fun _ => rfl) (fun _ => rfl) (fun _ => rfl) fun _ => rfl) h₂)
      fun _ s₃ h₃ => Kept.read (Kept.bind (answered_of_tame (tame_dispatch rfl) h₃)
        fun reply s₄ h₄ => ?_)
    split
    · split
      · exact Kept.pure h₄
      · exact answered_abortFailedUpgrade _ _ h₄
    · exact Kept.pure h₄
  · exact answered_of_tame (tame_settled (tame_opens (fun _ => rfl) (fun _ => rfl) (fun _ => rfl)
      (fun _ => rfl) (fun _ => rfl) (fun _ => rfl) (fun _ => rfl) fun _ => rfl) rfl) h₂

theorem answered_startDelete (open' : PendingOpen) (h : answerContract.Held s₀ s) :
    Kept answerContract s₀ (startDelete open') s := by
  refine Kept.bind (answered_of_tame (within_modify fun s => (Aloof.recorded rfl s).tame) h)
    fun _ s₁ h₁ => Kept.choose h₁.always fun deleted => ?_
  split
  · exact answered_of_tame (tame_settled (tame_opens (fun _ => rfl) (fun _ => rfl) (fun _ => rfl)
      (fun _ => rfl) (fun _ => rfl) (fun _ => rfl) (fun _ => rfl) fun _ => rfl) rfl) h₁
  · exact answered_of_tame (tame_settled (tame_opens (fun _ => rfl) (fun _ => rfl) (fun _ => rfl)
      (fun _ => rfl) (fun _ => rfl) (fun _ => rfl) (fun _ => rfl) fun _ => rfl) rfl) h₁

/-- The backend is asked to commit a transaction that waits for nothing, and whose handle is
gone. -/
theorem Answering.commit (h : Answering .none s) (upgrade : Option RequestId) (ok : Bool)
    (hgone : s.txns txnId = none) (hregistered : s.registered txnId = true) :
    Answering (.ending txnId)
      { s with trace := s.trace ++ [.commit txnId upgrade ok] } := by
  have hplaced (id : TxnId) :
      State.placed { s with trace := s.trace ++ [.commit txnId upgrade ok] } id = s.placed id := by
    simp [State.placed, Event.placed]
  refine ⟨h.known, h.registered, fun id hcommit => ?_, fun id handle hhandle hfinished => ?_,
    fun id handle hhandle hfinished r hr => ?_, fun id id' r => ?_, fun id r => ?_, fun id r => ?_,
    fun id cursor => ?_, fun id r hno => by cases hno⟩
  · by_cases hne : id = txnId
    · subst hne
      exact ⟨hgone, h.begun_of_registered hregistered, .inl rfl⟩
    · obtain ⟨upgrade', ok', hmem⟩ := hcommit
      have hold := h.committed id ⟨upgrade', ok', by simpa [hne] using hmem⟩
      exact ⟨hold.1, hold.2.1, .inr (hold.2.2.resolve_left (by simp))⟩
  · obtain ⟨hbackend, hmem⟩ := h.failed id handle hhandle hfinished
    exact ⟨hbackend, by simp [hmem]⟩
  · rw [unanswered_concat] at hr
    exact .inr ((h.waiting id handle hhandle hfinished r hr).resolve_left (by simp))
  · rw [hplaced, hplaced]
    exact h.owned id id' r
  · rw [hplaced]
    exact h.issued id r
  · rw [hplaced]
    exact h.queued id r
  · rw [hplaced]
    exact h.cursors id cursor

/-- Between two phases nothing is on its way. -/
structure Resting (s : State) : Prop where
  answering : Answering .none s
  idle : building s.trace = none

theorem Resting.invariant (h : Resting s) : answerContract.invariant s := by
  show Answering s.work s
  rw [State.work_none h.idle]
  exact h.answering

theorem Resting.held (h : Resting s) (halways : answerContract.always s) :
    answerContract.Held s s := .refl halways h.invariant

theorem Aloof.resting (h : Aloof s s') (hs : Resting s) : Resting s' :=
  ⟨h.answering hs.answering, h.building_eq.trans hs.idle⟩

/-- While nothing is built, whatever keeps the contract leaves nothing on its way. -/
theorem Kept.resting (h : Kept answerContract s₀ p s) (hidle : building s₀.trace = none) :
    Safe answerContract p (fun _ => Resting) s := by
  refine h.mono fun _ s' _ hs' => ?_
  have hidle' := hs'.2.idle hidle
  exact ⟨State.work_none hidle' ▸ hs'.1, hidle'⟩

theorem resting_of_tame (hp : p.Within Tame) (halways : answerContract.always s)
    (hs : Resting s) : Safe answerContract p (fun _ => Resting) s :=
  Kept.resting (answered_of_tame hp (hs.held halways)) hs.idle

theorem resting_upgradeCommitted {work : Work} (open' : PendingOpen) (closed : Bool)
    (halways : answerContract.always s) (hs : Answering work s) (hidle : building s.trace = none)
    (hgone : s.txns txnId = none)
    (hwork : work = .none ∨ work = .ending txnId ∧ s.registered txnId = true) :
    Safe answerContract (upgradeCommitted open' txnId closed) (fun _ => Resting) s := by
  have hreleased : Aloof (s.forget txnId)
      (((s.forget txnId).removeOpen open'.requestId).releaseUpgrade open' txnId) := by
    unfold State.releaseUpgrade
    split
    · exact .of_trace rfl rfl rfl rfl rfl rfl (le_refl _) rfl
        fun _ hmem => List.mem_singleton.mp hmem ▸ rfl
    · exact .of_eq rfl rfl rfl rfl rfl rfl rfl rfl
  have hreleasedObjects : (((s.forget txnId).removeOpen open'.requestId).releaseUpgrade open'
      txnId).txnObjects = s.txnObjects := by
    unfold State.releaseUpgrade
    split <;> rfl
  have hregistered (h : s.registered txnId = true) :
      (((s.forget txnId).removeOpen open'.requestId).releaseUpgrade open' txnId).registered txnId =
        true := by
    unfold State.registered at h ⊢
    rwa [hreleasedObjects]
  have hidle' := hreleased.building_eq.trans hidle
  refine Safe.modify halways (Safe.seq (Kept.resting (answered_dispatchEnd (fun _ => ⟨rfl, rfl⟩) rfl
    (hreleased.accounted halways) (hreleased.answering (hs.forgotten hgone)) (.refl _)
    (hreleased.txns_none.mpr hgone) (hwork.imp (fun h => h.trans (State.work_none hidle').symm)
      fun h => ⟨h.1, hregistered h.2, hidle'⟩)) hidle')
    fun _ s₁ halways₁ hs₁ => resting_of_tame ?_ halways₁ hs₁)
  refine within_bind (tame_clearUpgradeTxn open') fun _ => ?_
  split
  · exact tame_settled (tame_opens (fun _ => rfl) (fun _ => rfl) (fun _ => rfl)
      (fun _ => rfl) (fun _ => rfl) (fun _ => rfl) (fun _ => rfl) fun _ => rfl) rfl
  · exact within_bind (tame_dispatch rfl) fun _ => within_pure

/-- Nothing waits on a drained transaction whose backend is there. -/
theorem Answering.drained {handle : TxnHandle} (h : Answering .none s)
    (hhandle : s.txns txnId = some handle) (hfinished : handle.finished = false)
    (hdrained : s.drained txnId = true) : unanswered txnId s.trace = [] := by
  refine List.eq_nil_iff_forall_not_mem.mpr fun r hr => ?_
  have hmem := ((h.waiting txnId handle hhandle hfinished r hr).resolve_left (by simp)).1
  rw [State.queue, List.isEmpty_iff.mp hdrained] at hmem
  cases hmem

/-- Between the commit of a transaction and the event that ends it. -/
def Closing (txnId : TxnId) (s : State) : Prop :=
  ∃ work, Answering work s ∧ building s.trace = none ∧ s.txns txnId = none ∧
    (work = .none ∨ work = .ending txnId ∧ s.registered txnId = true)

theorem closing_commitUpgrade (open' : PendingOpen) {handle : Option TxnHandle}
    (halways : answerContract.always s) (hs : Resting s) (hgone : s.txns txnId = none)
    (hdrained : handle.any TxnHandle.backend = true →
      s.registered txnId = true ∧ unanswered txnId s.trace = []) :
    Safe answerContract (commitUpgrade open' txnId handle) (fun _ => Closing txnId) s := by
  unfold commitUpgrade
  split
  · next hbackend =>
      obtain ⟨hregistered, hnothing⟩ := hdrained hbackend
      refine Safe.choose halways fun ok => ⟨halways, Due.concat halways hnothing, .ending txnId,
        ?_, (building_concat _ _).trans hs.idle, hgone, .inr ⟨rfl, hregistered⟩⟩
      have hversions :
          Aloof { s with trace := s.trace ++ [.commit txnId (some open'.requestId) ok] }
          (s.commitVersion open' txnId ok) := .of_eq rfl rfl rfl rfl rfl rfl rfl rfl
      exact hversions.answering (hs.answering.commit _ ok hgone hregistered)
  · exact .pure halways ⟨.none, hs.answering, hs.idle, hgone, .inl rfl⟩

theorem resting_finishUpgrade (open' : PendingOpen) (halways : answerContract.always s)
    (hs : Resting s) (hdrained : s.drained txnId = true) :
    Safe answerContract (finishUpgrade open' txnId) (fun _ => Resting) s := by
  have hself : (s.setTxn txnId none).txns txnId = none := by simp [State.setTxn]
  refine Safe.modifyRead halways (Safe.seq (closing_commitUpgrade open' halways
    ⟨hs.answering.removed txnId, hs.idle⟩ hself fun hbackend => ?_) fun _ s₁ halways₁ hs₁ => ?_)
  · cases hhandle : s.txns txnId with
    | none => simp [hhandle] at hbackend
    | some handle =>
        have hstarted : handle.backend = true := by simpa [hhandle] using hbackend
        have hfinished : handle.finished = false := by
          by_contra hfinished
          have hnone := (hs.answering.failed txnId handle hhandle (by simpa using hfinished)).1
          simp [hstarted] at hnone
        exact ⟨hs.answering.registered txnId (by simp [hhandle]),
          hs.answering.drained hhandle hfinished hdrained⟩
  · obtain ⟨work, hending, hidle, hgone, hwork⟩ := hs₁
    exact resting_upgradeCommitted open' _ halways₁ hending hidle hgone hwork

/-- What a scan leads to: an upgrade is finished only when it is drained. -/
def Drained (step : Option OpenStep) (s : State) : Prop :=
  Resting s ∧ ∀ open' id, step = some (.finishUpgrade open' id) → s.drained id = true

theorem drained_scanOpens (ids : List RequestId) (halways : answerContract.always s)
    (hs : Resting s) : Safe answerContract (scanOpens ids) Drained s := by
  induction ids generalizing s with
  | nil => exact .pure halways ⟨hs, by simp⟩
  | cons requestId rest ih =>
      refine Safe.read ?_
      split
      · exact .pure halways ⟨hs, by simp⟩
      · next open' _ =>
          have hqueue : Safe answerContract (openQueueOf open'.name)
              (fun _ => Resting) s := by
            refine Safe.read ?_
            split
            · exact .pure halways hs
            · exact Safe.choose halways fun _ => .pure halways hs
          refine Safe.seq hqueue fun queue s' halways' hs' => ?_
          generalize hlook : lookAt open' (s.liveConnectionCount open'.name) queue = looked
          have haloof : Aloof s' (s'.look requestId open'.name looked) := by
            refine .of_trace rfl rfl rfl rfl rfl rfl (le_refl _) rfl fun e he => ?_
            obtain ⟨action, -, rfl⟩ := List.mem_map.mp he
            rfl
          have halways₂ := haloof.accounted halways'
          have hs₂ := haloof.resting hs'
          refine Safe.modify halways' ?_
          split
          · exact ih halways₂ hs₂
          · next step hstep =>
              refine .pure halways₂ ⟨hs₂, fun open'' id heq => ?_⟩
              cases heq
              have hof := (lookAt_seen open' (s.liveConnectionCount open'.name) queue).2
              rw [hlook] at hof
              exact (hof _ hstep).elim

theorem drained_nextOpenStep (halways : answerContract.always s) (hs : Resting s) :
    Safe answerContract nextOpenStep Drained s := by
  refine Safe.read ?_
  split
  · exact drained_scanOpens _ halways hs
  · split
    · exact .pure halways ⟨hs, by simp⟩
    · split
      · next hdrained =>
          refine .pure halways ⟨hs, fun open' id heq => ?_⟩
          cases heq
          exact hdrained
      · exact drained_scanOpens _ halways hs

theorem resting_perform {step : OpenStep} (halways : answerContract.always s)
    (hs : Drained (some step) s) :
    Safe answerContract (perform step) (fun _ => Resting) s := by
  have hheld := hs.1.held halways
  cases step with
  | fireBlocked open' =>
      exact resting_of_tame (within_bind (tame_dispatch rfl) fun _ => within_pure) halways hs.1
  | openConnection open' version =>
      exact resting_of_tame (tame_settled (tame_opens (fun _ => rfl) (fun _ => rfl)
        (fun _ => rfl) (fun _ => rfl) (fun _ => rfl) (fun _ => rfl) (fun _ => rfl) fun _ => rfl)
        rfl) halways hs.1
  | failOpen open' error =>
      exact resting_of_tame (tame_settled (tame_opens (fun _ => rfl) (fun _ => rfl)
        (fun _ => rfl) (fun _ => rfl) (fun _ => rfl) (fun _ => rfl) (fun _ => rfl) fun _ => rfl)
        rfl) halways hs.1
  | startUpgrade open' old new =>
      exact Kept.resting (answered_startUpgrade open' old new hheld) hs.1.idle
  | startDelete open' => exact Kept.resting (answered_startDelete open' hheld) hs.1.idle
  | finishUpgrade open' txnId =>
      exact resting_finishUpgrade open' halways hs.1 (hs.2 open' txnId rfl)

/-! ### Starting transactions -/

/-- A handle is changed: it stays without a backend once it is finished. -/
theorem Answering.edited {edit : TxnHandle → TxnHandle} (h : Answering .none s)
    (hedit : ∀ handle, s.txns txnId = some handle →
      ((edit handle).finished = true →
        (edit handle).backend = false ∧ .startFailed txnId ∈ s.trace) ∧
      ((edit handle).finished = false → handle.finished = false)) :
    Answering .none (s.editTxn txnId edit) := by
  have hold {id : TxnId} {handle' : TxnHandle}
      (hhandle : (s.editTxn txnId edit).txns id = some handle') : ∃ handle,
        s.txns id = some handle ∧ (handle' = handle ∨ id = txnId ∧ handle' = edit handle) := by
    by_cases hne : id = txnId
    · subst hne
      obtain ⟨handle, hstood, rfl⟩ : ∃ handle, s.txns id = some handle ∧ edit handle = handle' := by
        simpa [State.editTxn] using hhandle
      exact ⟨handle, hstood, .inr ⟨rfl, rfl⟩⟩
    · exact ⟨handle', by simpa [State.editTxn, hne] using hhandle, .inl rfl⟩
  refine ⟨h.known, fun id hsome => ?_, fun id hcommit => ?_,
    fun id handle' hhandle hfinished => ?_, fun id handle' hhandle hfinished r hr => ?_, h.owned,
    h.issued, h.queued, h.cursors, h.flying⟩
  · obtain ⟨handle', hhandle⟩ := Option.isSome_iff_exists.mp hsome
    obtain ⟨handle, hstood, -⟩ := hold hhandle
    exact h.registered id (by simp [hstood])
  · refine (h.committed id hcommit).imp_left fun hgone => ?_
    by_cases hne : id = txnId
    · subst hne
      simp [State.editTxn, hgone]
    · simp [State.editTxn, hne, hgone]
  · obtain ⟨handle, hstood, rfl | ⟨rfl, rfl⟩⟩ := hold hhandle
    · exact h.failed id handle' hstood hfinished
    · exact (hedit handle hstood).1 hfinished
  · obtain ⟨handle, hstood, rfl | ⟨rfl, rfl⟩⟩ := hold hhandle
    · exact h.waiting id handle' hstood hfinished r hr
    · exact h.waiting id handle hstood ((hedit handle hstood).2 hfinished) r hr

theorem resting_startReady (txnId : TxnId) (halways : answerContract.always s)
    (hs : Resting s) :
    Safe answerContract (startReady txnId) (fun _ => Resting) s := by
  refine Safe.read ?_
  split
  · next hready =>
      obtain ⟨handle, hhandle, hfinished, hbackend⟩ : ∃ handle, s.txns txnId = some handle ∧
          handle.finished = false ∧ handle.backend = false := by
        simpa [Option.any_eq_true] using hready
      refine Safe.choose halways fun answer => ?_
      cases answer with
      | ok =>
          refine Safe.modify halways (.pure halways ⟨hs.answering.edited fun handle' hhandle' => ?_,
            hs.idle⟩)
          cases hhandle.symm.trans hhandle'
          simp [hfinished]
      | locked =>
          have haloof : Aloof s { s with scheduler := s.scheduler.requeueUnstarted txnId } :=
            .of_eq rfl rfl rfl rfl rfl rfl rfl rfl
          exact Safe.modify halways (.pure halways (haloof.resting hs))
      | failed =>
          have hrecorded : Aloof s { s with trace := s.trace ++ [.startFailed txnId] } :=
            .recorded rfl s
          have hfailed : Answering .none
              (State.editTxn txnId (fun handle => { handle with finished := true })
                { s with trace := s.trace ++ [.startFailed txnId] }) := by
            refine (hrecorded.answering hs.answering).edited fun handle' hhandle' => ?_
            cases hhandle.symm.trans hhandle'
            simp [hbackend]
          have hforgot : Aloof
              (State.editTxn txnId (fun handle => { handle with finished := true })
                { s with trace := s.trace ++ [.startFailed txnId] }) (s.failStart txnId) :=
            .of_eq rfl rfl rfl rfl rfl rfl rfl rfl
          have halways' : answerContract.always (s.failStart txnId) :=
            hrecorded.accounted halways
          have hresting : Resting (s.failStart txnId) :=
            ⟨hforgot.answering hfailed, hrecorded.building_eq.trans hs.idle⟩
          refine Safe.modify halways (Safe.seq (Kept.resting (answered_failQueuedRequests _
            (hresting.held halways') fun handle' hhandle' => ?_) hresting.idle)
            fun _ _ halways₁ hs₁ => .pure halways₁ hs₁)
          have hfinished' : (s.failStart txnId).txns txnId =
              some { handle with finished := true } := by
            simp [State.failStart, State.editTxn, hhandle]
          cases hfinished'.symm.trans hhandle'
          rfl
  · exact .pure halways hs

theorem resting_startReadyTxns (halways : answerContract.always s) (hs : Resting s) :
    Safe answerContract startReadyTxns (fun _ => Resting) s := by
  have haloof : Aloof s { s with scheduler := s.scheduler.pollReady.1 } :=
    .of_eq rfl rfl rfl rfl rfl rfl rfl rfl
  have hall (ready : List TxnId) {s : State} (halways : answerContract.always s)
      (hs : Resting s) :
      Safe answerContract (startAll ready) (fun _ => Resting) s := by
    induction ready generalizing s with
    | nil => exact .pure halways hs
    | cons id rest ih =>
        exact Safe.seq (resting_startReady id halways hs) fun _ _ halways₁ hs₁ =>
          Safe.seq (ih halways₁ hs₁) fun _ _ halways₂ hs₂ => .pure halways₂ hs₂
  exact Safe.modifyRead halways (hall _ (haloof.accounted halways) (haloof.resting hs))

/-! ### Requests -/

/-- A request is off its queue: its operation is done next, or its result is being built. -/
structure Fetching (txnId : TxnId) (requestId : RequestId) (s : State) : Prop where
  answering : Answering (.completing txnId requestId) s
  builds : building s.trace = none ∨ building s.trace = some (txnId, requestId)

theorem Aloof.fetching (h : Aloof s s') (hs : Fetching txnId requestId s) :
    Fetching txnId requestId s' :=
  ⟨h.answering hs.answering, h.building_eq.symm ▸ hs.builds⟩

/-- A request that has been placed may be looked at as on its way. -/
theorem Answering.fetched (h : Answering .none s) (hplaced : requestId ∈ s.placed txnId) :
    Answering (.completing txnId requestId) s := by
  refine ⟨h.known, h.registered, fun id hcommit => ?_, h.failed,
    fun id handle hhandle hfinished r hr => ?_, h.owned, h.issued, h.queued, h.cursors,
    fun id r hflying => ?_⟩
  · exact (h.committed id hcommit).imp_right fun hrest => hrest.imp_right fun hended =>
      .inr (hended.resolve_left (by simp))
  · exact .inr ((h.waiting id handle hhandle hfinished r hr).resolve_left (by simp))
  · cases hflying
    exact hplaced

/-- The answer of a request is on the way, and is recorded before handlers run. -/
theorem resting_completed {error : Option IdbError} {k : Reply → Prog β}
    (halways : answerContract.always s) (hs : Fetching txnId requestId s)
    (hk : ∀ reply s', answerContract.always s' → Resting s' →
      Safe answerContract (k reply) (fun _ => Resting) s') :
    Safe answerContract (refreshTxnEpoch txnId >>= fun _ =>
      dispatch (.completed txnId requestId error) >>= k) (fun _ => Resting) s := by
  have haloof : Aloof s (s.editTxn txnId fun handle =>
      { handle with activeEpoch := s.taskEpoch }) := aloof_editTxn txnId s fun _ => ⟨rfl, rfl⟩
  have hcompleted := (haloof.answering hs.answering).completedNext error
  have hdue : Event.Accounted s.trace (.completed txnId requestId error) := trivial
  have hresting : Resting { s.editTxn txnId fun handle => { handle with
      activeEpoch := s.taskEpoch } with
      trace := s.trace ++ [.completed txnId requestId error] } := by
    refine ⟨hcompleted, ?_⟩
    show building (s.trace ++ [.completed txnId requestId error]) = none
    rw [building_concat]
    rcases hs.builds with hnone | hself
    · simp [hnone, build]
    · simp [hself, build]
  have hdispatch : Safe answerContract (dispatch (.completed txnId requestId error))
      (fun _ => Resting)
      (s.editTxn txnId fun handle => { handle with activeEpoch := s.taskEpoch }) :=
    Safe.modify (haloof.accounted halways)
      (resting_of_tame within_callOut (Due.concat halways hdue) hresting)
  exact Safe.modify halways (Safe.seq hdispatch hk)

theorem resting_completeRequest (halways : answerContract.always s)
    (hs : Fetching txnId requestId s) :
    Safe answerContract (completeRequest txnId requestId) (fun _ => Resting) s := by
  refine resting_completed halways hs fun reply s₁ halways₁ hs₁ => ?_
  split
  · exact Kept.resting (answered_abortTransaction txnId true (hs₁.held halways₁)) hs₁.idle
  · exact .pure halways₁ hs₁

theorem resting_failOp (error : IdbError) (halways : answerContract.always s)
    (hs : Fetching txnId requestId s) :
    Safe answerContract (failOp txnId requestId error) (fun _ => Resting) s := by
  refine resting_completed halways hs fun reply s₁ halways₁ hs₁ =>
    resting_of_tame (within_bind (within_read .refl) fun s => ?_) halways₁ hs₁
  split
  · exact within_bind (tame_dispatch rfl) fun _ => within_pure
  · exact within_pure

/-- A cursor is opened by a request that has been placed. -/
theorem Answering.inserted {work : Work} (h : Answering work s) (cursorId : CursorId)
    {pending : Bool} (hplaced : requestId ∈ s.placed txnId) :
    Answering work (s.allocCursor.insertCursor cursorId ⟨txnId, requestId, pending⟩) := by
  refine ⟨h.known, h.registered, h.committed, h.failed, h.waiting, h.owned, h.issued, h.queued,
    fun id cursor hcursor => ?_, h.flying⟩
  by_cases hne : id = cursorId
  · subst hne
    obtain rfl : ⟨txnId, requestId, pending⟩ = cursor := by
      simpa [State.insertCursor] using hcursor
    exact hplaced
  · exact h.cursors id cursor (by simpa [State.insertCursor, State.allocCursor, hne] using hcursor)

theorem Fetching.inserted (h : Fetching txnId requestId s) (cursorId : CursorId) (pending : Bool) :
    Fetching txnId requestId (s.allocCursor.insertCursor cursorId ⟨txnId, requestId, pending⟩) :=
  ⟨h.answering.inserted cursorId (h.answering.flying txnId requestId rfl), h.builds⟩

theorem fetching_executeOp (op : PendingOp) (halways : answerContract.always s)
    (hs : Fetching txnId requestId s) :
    Safe answerContract (executeOp txnId requestId op)
      (fun _ => Fetching txnId requestId) s := by
  have halloc : Aloof s s.allocCursor := .of_eq rfl rfl rfl rfl rfl rfl rfl rfl
  refine Safe.choose halways fun answer => ?_
  cases op with
  | plain => cases answer <;> exact .pure halways hs
  | cursorOp cursorId navigates => cases answer <;> exact .pure halways hs
  | openCursor =>
      refine Safe.read ?_
      cases answer with
      | failedBefore e => exact .pure halways hs
      | failedInside e => exact Safe.modify halways (.pure halways (halloc.fetching hs))
      | failedBehind e => exact Safe.modify halways (.pure halways (hs.inserted _ _))
      | ok => exact Safe.modify halways (.pure halways (hs.inserted _ _))

/-- While the result is built handlers may do what they like: the request is still on its way, or
has been answered. -/
theorem fetching_applyOutcome (halways : answerContract.always s)
    (hs : Fetching txnId requestId s) :
    Safe answerContract (applyOutcome txnId requestId) (fun _ => Fetching txnId requestId) s := by
  have hexecuted := hs.answering.recorded (rfl : (Event.executed txnId requestId).idle = true)
    (by simp)
  have hbuilding : building (s.trace ++ [.executed txnId requestId]) = some (txnId, requestId) := by
    rw [building_concat]
    rfl
  have hplaced := hexecuted.flying txnId requestId rfl
  have hdue : Event.Accounted s.trace (.executed txnId requestId) := trivial
  refine Safe.seq (Safe.modify halways (Safe.callOut (Due.concat halways hdue)
    ?_ fun s₁ reply halways₁ hinv₁ hgrown => ?_)) fun _ _ halways₂ hs₂ => .pure halways₂ hs₂
  · show Answering (State.work _) _
    rw [State.work_completing.mpr hbuilding]
    exact hexecuted
  · refine ⟨halways₁, ?_⟩
    rcases hgrown.builds with hstill | hnone
    · have hbuilds := hstill.trans hbuilding
      exact ⟨State.work_completing.mpr hbuilds ▸ hinv₁, .inr hbuilds⟩
    · have hanswering : Answering .none s₁ := State.work_none hnone ▸ hinv₁
      exact ⟨hanswering.fetched (hgrown.placed hplaced), .inl hnone⟩

theorem aloof_setCursorPending (cursorId : CursorId) (pending : Bool) (s : State) :
    Aloof s (s.setCursorPending cursorId pending) := by
  refine ⟨fun _ => rfl, fun _ => rfl, fun _ h => h, rfl, rfl, rfl, fun id => ?_, le_refl _, [],
    by simp [State.setCursorPending], by simp⟩
  by_cases hne : id = cursorId
  · subst hne
    simp [State.setCursorPending, Function.comp_def]
  · simp [State.setCursorPending, hne]

theorem resting_execute (op : PendingOp) (halways : answerContract.always s)
    (hs : Fetching txnId requestId s) :
    Safe answerContract (execute txnId requestId op) (fun _ => Resting) s := by
  refine Safe.seq (fetching_executeOp op halways hs) fun result s₁ halways₁ hs₁ => ?_
  split
  · refine Safe.seq (fetching_applyOutcome halways₁ hs₁) fun _ s₂ halways₂ hs₂ => ?_
    have haloof : Aloof s₂ (releaseCursor op s₂) := by
      cases op with
      | plain => exact .refl s₂
      | openCursor => exact .refl s₂
      | cursorOp cursorId navigates => exact aloof_setCursorPending cursorId false s₂
    exact Safe.modify halways₂
      (resting_completeRequest (haloof.accounted halways₂) (haloof.fetching hs₂))
  · exact resting_completeRequest halways₁ hs₁
  · next cursorId =>
      have haloof := aloof_setCursorPending cursorId false s₁
      exact Safe.modify halways₁
        (resting_completeRequest (haloof.accounted halways₁) (haloof.fetching hs₁))
  · refine Safe.seq (resting_failOp _ halways₁ hs₁) fun prevented s₂ halways₂ hs₂ => ?_
    split
    · exact Kept.resting (answered_abortTransaction txnId false (hs₂.held halways₂)) hs₂.idle
    · exact .pure halways₂ hs₂

/-- What the dequeue step has found. -/
def TxnWork.Fetched (s : State) : Option TxnWork → Prop
  | some (.exec txnId requestId _) => Answering (.completing txnId requestId) s
  | some (.failStalled txnId) => Answering .none s ∧
      ∀ handle, s.txns txnId = some handle → handle.finished = true
  | none => Answering .none s

/-- A request is taken off its queue: to be answered, or because it has no operation, which means
that it does not wait. -/
theorem Answering.popped {work : Work} {rest : List RequestId} (h : Answering .none s)
    (hqueue : s.txnQueues txnId = some (requestId :: rest)) (ops : RequestId → Option PendingOp)
    (hops : ∀ r, r ≠ requestId → ops r = s.ops r)
    (hwork : work = .completing txnId requestId ∨ work = .none ∧ s.ops requestId = none) :
    Answering work { s with
      txnQueues := Function.update s.txnQueues txnId (some rest)
      ops := ops } := by
  have hhead : requestId ∈ s.queue txnId := by simp [State.queue, hqueue]
  refine ⟨h.known, h.registered, fun id hcommit => ?_, h.failed,
    fun id handle hhandle hfinished r hr => ?_, h.owned, h.issued, fun id r hr => ?_, h.cursors,
    fun id r hflying => ?_⟩
  · exact (h.committed id hcommit).imp_right fun hrest => hrest.imp_right fun hinactive =>
      .inr (hinactive.resolve_left (by simp))
  · obtain ⟨hqueued, hop⟩ := (h.waiting id handle hhandle hfinished r hr).resolve_left (by simp)
    by_cases hsame : r = requestId
    · subst hsame
      obtain rfl := h.owned id txnId r (h.queued id r hqueued) (h.queued txnId r hhead)
      rcases hwork with hwork | ⟨-, hnone⟩
      · exact .inl hwork
      · simp [hnone] at hop
    · refine .inr ⟨?_, (congrArg Option.isSome (hops r hsame)).trans hop⟩
      by_cases hne : id = txnId
      · subst hne
        simpa [State.queue, hqueue, hsame] using hqueued
      · simpa [State.queue, hne] using hqueued
  · refine h.queued id r ?_
    by_cases hne : id = txnId
    · subst hne
      have hmem : r ∈ rest := by simpa [State.queue] using hr
      simp [State.queue, hqueue, hmem]
    · simpa [State.queue, hne] using hr
  · rcases hwork with rfl | ⟨rfl, -⟩
    · cases hflying
      exact h.queued txnId requestId hhead
    · cases hflying

theorem fetched_popRequest (txnId : TxnId) (hs : Answering .none s) :
    TxnWork.Fetched (popRequest txnId s).1 (popRequest txnId s).2 := by
  unfold popRequest
  split
  · next requestId rest hqueue =>
      dsimp only
      split
      · exact hs.popped hqueue _ (fun r hne => by simp [hne]) (.inl rfl)
      · next hnone => exact hs.popped hqueue s.ops (fun _ _ => rfl) (.inr ⟨rfl, hnone⟩)
  · exact hs

theorem fetched_dequeueFrom (keys served : List TxnId) (hs : Answering .none s) :
    TxnWork.Fetched (dequeueFrom keys served s).state (dequeueFrom keys served s).work := by
  induction keys generalizing served s with
  | nil => exact hs
  | cons txnId rest ih =>
      rw [dequeueFrom]
      split
      · exact ih served hs
      · split
        · next hnone => exact ⟨hs, fun handle hhandle => by simp [hnone] at hhandle⟩
        · split
          · have hpop := fetched_popRequest txnId hs
            split
            · next s' work heq =>
                rw [heq] at hpop
                exact hpop
            · next s' heq =>
                rw [heq] at hpop
                exact ih (txnId :: served) hpop
          · exact ih (txnId :: served) hs

theorem fetched_dequeue (keys served : List TxnId) (hs : Answering .none s) :
    TxnWork.Fetched (dequeue keys served s).state (dequeue keys served s).work := by
  have hfrom := fetched_dequeueFrom keys served hs
  unfold dequeue
  dsimp only
  split
  · exact hfrom
  · next hnone =>
      rw [hnone] at hfrom
      dsimp only
      cases hstalled : keys.find? _ with
      | none => exact hfrom
      | some id =>
          have hfinished := List.find?_some hstalled
          simp only [Bool.and_eq_true] at hfinished
          refine ⟨hfrom, fun handle hhandle => ?_⟩
          simpa [hhandle] using hfinished.2

theorem popRequest_trace (txnId : TxnId) (s : State) :
    (popRequest txnId s).1.trace = s.trace := by
  unfold popRequest
  split
  · dsimp only
    split <;> rfl
  · rfl

theorem dequeueFrom_trace (keys served : List TxnId) (s : State) :
    (dequeueFrom keys served s).state.trace = s.trace := by
  induction keys generalizing served s with
  | nil => rfl
  | cons txnId rest ih =>
      rw [dequeueFrom]
      split
      · exact ih served s
      · split
        · rfl
        · split
          · have hpop := popRequest_trace txnId s
            split
            · next s' work heq =>
                rw [heq] at hpop
                exact hpop
            · next s' heq =>
                rw [heq] at hpop
                exact (ih (txnId :: served) s').trans hpop
          · exact ih (txnId :: served) s

theorem dequeue_trace (keys served : List TxnId) (s : State) :
    (dequeue keys served s).state.trace = s.trace := by
  have hfrom := dequeueFrom_trace keys served s
  unfold dequeue
  dsimp only
  split <;> exact hfrom

theorem resting_processTxnRequests (served : List TxnId) (halways : answerContract.always s)
    (hs : Resting s) :
    Safe answerContract (processTxnRequests served) (fun _ => Resting) s := by
  refine Safe.choose halways fun order => Safe.modifyRead halways ?_
  have hfetched := fetched_dequeue (queueKeys order s) served hs.answering
  have halways' : answerContract.always (dequeue (queueKeys order s) served s).state := by
    show Due Event.Accounted _
    rw [dequeue_trace]
    exact halways
  have hidle : building (dequeue (queueKeys order s) served s).state.trace = none := by
    rw [dequeue_trace]
    exact hs.idle
  dsimp only
  split
  · next hwork =>
      rw [hwork] at hfetched
      exact .pure halways' ⟨hfetched, hidle⟩
  · next txnId hwork =>
      rw [hwork] at hfetched
      have hresting : Resting (dequeue (queueKeys order s) served s).state := ⟨hfetched.1, hidle⟩
      exact Safe.seq (Kept.resting (answered_failQueuedRequests _ (hresting.held halways')
        hfetched.2) hidle) fun _ _ halways hs => .pure halways hs
  · next txnId requestId op hwork =>
      rw [hwork] at hfetched
      exact Safe.seq (resting_execute op halways' ⟨hfetched, .inl hidle⟩) fun _ _ halways hs =>
        .pure halways hs

/-! ### Ends of transactions -/

theorem resting_finishTxns (halways : answerContract.always s) (hs : Resting s) :
    Safe answerContract finishTxns (fun _ => Resting) s := by
  refine Safe.read ?_
  split
  · exact .pure halways hs
  · next txnId hfind =>
      have hfinishable := List.find?_some hfind
      obtain ⟨handle, hhandle, hfinished, hdrained⟩ : ∃ handle, s.txns txnId = some handle ∧
          handle.finished = false ∧ s.drained txnId = true := by
        cases hhandle : s.txns txnId with
        | none => simp [finishable, hhandle] at hfinishable
        | some handle =>
            simp only [finishable, hhandle, Option.any_some, Bool.and_eq_true,
              Bool.not_eq_true'] at hfinishable
            exact ⟨handle, rfl, hfinishable.1.1.1.1, hfinishable.2⟩
      have hself : (s.setTxn txnId none).txns txnId = none := by simp [State.setTxn]
      have hregistered := hs.answering.registered txnId (by simp [hhandle])
      refine Safe.modify halways (Safe.choose halways fun ok => ?_)
      have hcommit := (hs.answering.removed txnId).commit none ok hself hregistered
      have hdone : answerContract.always { s.setTxn txnId none with
          trace := s.trace ++ [.commit txnId none ok] } :=
        Due.concat halways (hs.answering.drained hhandle hfinished hdrained)
      have hidle : building (s.trace ++ [.commit txnId none ok]) = none :=
        (building_concat _ _).trans hs.idle
      refine Safe.modify halways (Safe.modify hdone (Safe.seq (Kept.resting (answered_dispatchEnd
        (fun _ => ⟨rfl, rfl⟩) rfl hdone (hcommit.forgotten hself) (.refl _) hself
        (.inr ⟨rfl, hregistered, hidle⟩)) hidle) fun _ _ halways₁ hs₁ => .pure halways₁ hs₁))

/-! ### Methods -/

theorem held_issueRequest (op : PendingOp) (h : answerContract.Held s₀ s)
    (hbegun : txnId < s.nextTxnId) (hopen : ¬ Committed txnId s.trace) :
    answerContract.Held s₀ (issueRequest txnId op s) := by
  unfold issueRequest
  split
  · exact h
  · next hnext =>
      have hlater := lt_succ_self hnext
      have haloof : Aloof s { s with nextRequestId := s.nextRequestId + 1 } :=
        .of_trace rfl rfl rfl rfl rfl rfl hlater.le (List.append_nil _).symm (by simp)
      refine h.trans
        ⟨Due.concat h.always hopen, invariant_enqueued (haloof.invariant h.invariant) op
        (fun id hplaced => ?_) hlater hbegun, grown_recorded rfl rfl (le_refl _)
        fun _ _ hgone => hgone⟩
      exact absurd (h.invariant.issued id s.nextRequestId hplaced).1 (lt_irrefl _)

theorem answered_storeRequest (op : PendingOp) (h : answerContract.Held s₀ s) :
    Kept answerContract s₀ (storeRequest txnId op) s := by
  refine Kept.last h.always ?_
  split
  · next haccepts =>
      obtain ⟨object, hobject, hactive⟩ : ∃ object, s.txnObjects txnId = some object ∧
          object.active = true := by
        cases hobject : s.txnObjects txnId with
        | none => simp [State.accepts, hobject] at haccepts
        | some object =>
            simp only [State.accepts, hobject, Option.any_some, Bool.and_eq_true] at haccepts
            exact ⟨object, rfl, haccepts.1.1.1⟩
      refine held_issueRequest op h (h.invariant.known txnId (by simp [hobject])) fun hcommit => ?_
      have hinactive := (h.invariant.committed txnId hcommit).2.2.resolve_left
        State.work_not_ending
      simp [State.inactive, hobject, hactive] at hinactive
  · exact h

/-- A cursor of a transaction that is there, and that stays open until handlers are through. -/
theorem answered_throughCursor {cursorId : CursorId} {view : CursorState} {f : State → State}
    (h : answerContract.Held s₀ s) (hview : s.cursors cursorId = some view)
    (hhandle : (s.txns view.txnId).isNone = false)
    (hf : ∀ s', answerContract.Held s₀ s' → view.requestId ∈ s'.placed view.txnId →
      ¬ Committed view.txnId s'.trace → answerContract.Held s₀ (f s')) :
    Kept answerContract s₀ (callOut >>= fun reply =>
      if reply.threw = true then pure () else modify f : Prog Unit) s := by
  have hplaced := h.invariant.cursors cursorId view hview
  refine answered_andThen (answered_of_tame within_callOut (.refl h.always h.invariant))
    fun reply s₁ h₁ => ?_
  split
  · exact Kept.pure (h.trans h₁)
  · refine Kept.last h₁.always (hf s₁ (h.trans h₁) (h₁.during.placed hplaced) fun hcommit => ?_)
    have hgone := (h.invariant.committed view.txnId (h₁.during.committed hcommit)).1
    simp [hgone] at hhandle

theorem answered_navigate (cursorId : CursorId) (h : answerContract.Held s₀ s) :
    Kept answerContract s₀ (navigate cursorId) s := by
  refine Kept.read ?_
  split
  · exact Kept.pure h
  · next view hview =>
      split
      · exact Kept.pure h
      · next hready =>
          simp only [Bool.or_eq_true, not_or, Bool.not_eq_true] at hready
          refine answered_throughCursor h hview hready.1 fun s₁ h₁ hplaced hopen => ?_
          have h₂ := (aloof_setCursorPending cursorId true s₁).held h₁
          obtain ⟨hissued, hbegun⟩ := h₁.invariant.issued view.txnId view.requestId hplaced
          exact h₂.trans ⟨Due.concat h₂.always hopen, invariant_enqueued h₂.invariant _
            (fun id hid => h₁.invariant.owned id view.txnId view.requestId hid hplaced) hissued
            hbegun, grown_recorded rfl rfl (le_refl _) fun _ _ hgone => hgone⟩

theorem answered_cursorWrite (cursorId : CursorId) (h : answerContract.Held s₀ s) :
    Kept answerContract s₀ (cursorWrite cursorId) s := by
  refine Kept.read ?_
  split
  · exact Kept.pure h
  · next view hview =>
      split
      · exact Kept.pure h
      · next hready =>
          simp only [Bool.or_eq_true, not_or, Bool.not_eq_true] at hready
          exact answered_throughCursor h hview hready.1 fun s₁ h₁ hplaced hopen =>
            held_issueRequest _ h₁ (h₁.invariant.issued _ _ hplaced).2 hopen

theorem tame_transaction (connId : ConnId) (write : Bool) (scope : List StoreId) :
    (transaction connId write scope).Within Tame := by
  refine within_bind (within_read .refl) fun s => ?_
  split
  · exact within_pure
  · split
    · exact within_pure
    · refine within_bind within_callOut fun reply => ?_
      split
      · exact within_pure
      · refine within_bind (within_read .refl) fun s => ?_
        split
        · exact within_pure
        · refine within_bind within_choose fun valid => within_modify fun s halways hs => ?_
          split
          · exact .refl halways hs
          · next hnext =>
              split
              · exact held_begun hnext rfl rfl (.refl halways hs) (.refl _)
              · exact held_allocated hnext (.refl halways hs)

theorem tame_issueOpen (kind : OpenKind) (name : String) (version : UInt64) :
    (issueOpen kind name version).Within Tame := by
  refine tame_modify fun s => ?_
  split
  · exact .refl s
  · next hnext =>
      exact .of_trace rfl rfl rfl rfl rfl rfl (lt_succ_self (not_or.mp hnext).1).le
        (List.append_nil _).symm (by simp)

theorem tame_close (connId : ConnId) : (close connId).Within Tame :=
  tame_modify fun _ => .of_trace rfl rfl rfl rfl rfl rfl (le_refl _) rfl
    fun _ hmem => List.mem_singleton.mp hmem ▸ rfl

theorem tame_commit (txnId : TxnId) : (commit txnId).Within Tame := by
  refine tame_modify fun s => ?_
  split
  · have hedit : Aloof s (s.editTxn txnId fun handle => { handle with explicitCommit := true }) :=
      aloof_editTxn txnId s fun _ => ⟨rfl, rfl⟩
    exact hedit.trans (aloof_mapObject txnId _ fun _ => ⟨rfl, fun h => h⟩)
  · exact .refl s

theorem answered_abort (txnId : TxnId) (h : answerContract.Held s₀ s) :
    Kept answerContract s₀ (abort txnId) s := by
  refine Kept.read ?_
  split
  · have haloof : Aloof s { s with
        txnObjects := Function.update s.txnObjects txnId
          ((s.txnObjects txnId).map TxnObject.over) } :=
      aloof_mapObject txnId s fun _ => ⟨rfl, by simp [TxnObject.over]⟩
    exact Kept.modify h.always (answered_abortTransaction txnId true (haloof.held h))
  · exact Kept.pure h

/-! ### Runs -/

/-- Every method keeps the contract. -/
theorem answered_method (proc : Proc) (hmethod : proc.method = true)
    (h : answerContract.Held s₀ s) : Kept answerContract s₀ (body proc) s := by
  cases proc with
  | issueOpen kind name version =>
      exact (answered_of_tame (tame_issueOpen kind name version) h).done
  | storeRequest txnId opensCursor => exact (answered_storeRequest _ h).done
  | transaction connId write scope =>
      exact (answered_of_tame (tame_transaction connId write scope) h).done
  | close connId => exact (answered_of_tame (tame_close connId) h).done
  | navigate cursorId => exact (answered_navigate cursorId h).done
  | cursorWrite cursorId => exact (answered_cursorWrite cursorId h).done
  | commit txnId => exact (answered_of_tame (tame_commit txnId) h).done
  | abort txnId => exact (answered_abort txnId h).done
  | _ => cases hmethod

theorem aloof_deactivateIdleTxns (s : State) : Aloof s (deactivateIdleTxns s) := by
  refine aloof_mapTxns s _ _ (fun id handle => ?_) fun id object => ?_
  · split <;> exact ⟨rfl, rfl⟩
  · split <;> simp

theorem aloof_endOfTask (s : State) : Aloof s (endOfTask s) := by
  refine aloof_mapTxns s _ _ (fun _ _ => ⟨rfl, rfl⟩) fun id object => ?_
  split <;> simp

/-- Every procedure leaves nothing on its way. -/
theorem resting_body (proc : Proc) (halways : answerContract.always s) (hs : Resting s) :
    Safe answerContract (body proc) (fun _ => Resting) s := by
  have htame {q : Prog (Option Proc)} (hq : q.Within Tame) :
      Safe answerContract q (fun _ => Resting) s := resting_of_tame hq halways hs
  by_cases hmethod : proc.method = true
  · exact Kept.resting (answered_method proc hmethod (hs.held halways)) hs.idle
  cases proc with
  | processOpens =>
      refine Safe.seq (drained_nextOpenStep halways hs) fun step s₁ halways₁ hs₁ => ?_
      split
      · exact .pure halways₁ hs₁.1
      · exact Safe.seq (resting_perform halways₁ hs₁) fun _ _ halways₂ hs₂ => .pure halways₂ hs₂
  | processDeferredOpenErrors =>
      have haloof (s : State) : Aloof s { s with deferredOpenErrors := [] } :=
        .of_eq rfl rfl rfl rfl rfl rfl rfl rfl
      refine htame (within_bind (within_bind (within_modifyRead fun s => (haloof s).tame) fun s =>
        within_forEach (fun _ => ?_) _) fun _ => within_pure)
      exact within_bind (tame_dispatch rfl) fun _ => within_pure
  | startReadyTxns =>
      exact Safe.seq (resting_startReadyTxns halways hs) fun _ _ halways hs => .pure halways hs
  | processTxnRequests served =>
      refine Safe.seq (resting_processTxnRequests served halways hs) fun served' s₁ halways hs => ?_
      split
      · exact .pure halways hs
      · exact .pure halways hs
  | runJobs =>
      refine htame (within_bind (within_read .refl) fun s => ?_)
      split
      · exact within_pure
      · exact within_bind within_callOut fun _ => within_pure
  | deactivateIdleTxns =>
      exact htame (within_bind (tame_modify aloof_deactivateIdleTxns) fun _ => within_pure)
  | finishTxns =>
      exact Safe.seq (resting_finishTxns halways hs) fun _ _ halways hs => .pure halways hs
  | endOfTask => exact htame (within_bind (tame_modify aloof_endOfTask) fun _ => within_pure)
  | noteTimerTask =>
      exact htame (within_bind (tame_opens (fun _ => rfl) (fun _ => rfl) (fun _ => rfl)
        (fun _ => rfl) (fun _ => rfl) (fun _ => rfl) (fun _ => rfl) fun _ => rfl)
        fun _ => within_pure)
  | _ => exact absurd rfl hmethod

theorem resting_new (versions : String → UInt64) (autoPump : Bool) :
    Resting (State.new versions autoPump) := by
  refine ⟨?_, rfl⟩
  constructor <;> simp [State.new, Committed, State.queue, State.placed, unanswered]

theorem answers_keep :
    Keeps driver answerContract (fun s => building s.trace = none) fun _ s => Resting s where
  rest_later _ _ hidle hgrown := hgrown.idle hidle
  main _ _ _ hs hidle := ⟨State.work_none hidle ▸ hs, hidle⟩
  api proc s hproc halways hs := by
    have hkept := answered_method proc hproc (.refl halways hs)
    obtain ⟨p, hp⟩ := body_method hproc
    change Safe answerContract (body proc) _ s
    rw [hp] at hkept ⊢
    exact Safe.returns hkept
  phase proc s halways hs := by
    refine (resting_body proc halways hs).mono fun o s' _ hs' => ?_
    cases o
    · exact ⟨hs'.invariant, hs'.idle⟩
    · exact hs'

/-- **A transaction commits with every request answered.** In every run, whatever handlers do,
a backend is asked to commit only when each request placed on the transaction has been answered
since, and nothing is placed on it afterwards. An abort finds in the queue all that waits, but for
the one request whose result is being built, and unless the backend did not start; and wherever
handlers or the outside have control, what waits on an unfinished transaction is in its queue with
its operation, but for that one. At the end of a phase no result is being built. -/
theorem commits_answered (versions : String → UInt64) (autoPump : Bool)
    {c : Config State Reply Proc} (h : Reaches driver (State.new versions autoPump) c)
    (id : TxnId) :
    (∀ before upgrade ok after, c.state.trace = before ++ .commit id upgrade ok :: after →
      unanswered id before = [] ∧ ∀ r, .enqueued id r ∉ after) ∧
    (∀ before queue after, c.state.trace = before ++ .aborting id queue :: after →
      .startFailed id ∈ before ∨
        ∀ r ∈ unanswered id before, r ∈ queue ∨ building before = some (id, r)) ∧
    (c.Open ∨ c.AtEnd → ∀ handle, c.state.txns id = some handle → handle.finished = false →
      ∀ r ∈ unanswered id c.state.trace,
        r ∈ c.state.queue id ∧ (c.state.ops r).isSome ∨
          building c.state.trace = some (id, r)) ∧
    (c.AtEnd → building c.state.trace = none) := by
  have halways : answerContract.always (State.new versions autoPump) := Due.nil
  have hnew := resting_new versions autoPump
  have hgood := answers_keep.reaches halways hnew.invariant hnew.idle h
  have hresting (hend : c.AtEnd) :
      answerContract.invariant c.state ∧ building c.state.trace = none := by
    rcases hgood.ended hend with hrest | ⟨_, hs⟩
    · exact hrest
    · exact ⟨hs.invariant, hs.idle⟩
  refine ⟨fun before upgrade ok after htrace => ⟨hgood.always _ _ _ htrace, fun r hr => ?_⟩,
    fun before queue after htrace => hgood.always _ _ _ htrace,
    fun hend handle hhandle hfinished r hr => ?_, fun hend => (hresting hend).2⟩
  · obtain ⟨between, later, rfl⟩ := List.append_of_mem hr
    have hdue := hgood.always (before ++ .commit id upgrade ok :: between) (.enqueued id r) later
      (by simp [htrace])
    exact hdue ⟨upgrade, ok, by simp⟩
  · have hs : answerContract.invariant c.state :=
      hend.elim hgood.invariant fun hend => (hresting hend).1
    exact (hs.waiting id handle hhandle hfinished r hr).symm.imp_right State.work_completing.mp

/-- An upgrade is committed behind its request; and while the result of a request is built script
aborts its transaction, where another request waits. -/
theorem commits_answered_session : ∃ s k c,
    Reaches driver (State.new (fun _ => 0) true) ⟨s, [.waiting k]⟩ ∧
    Reaches driver (State.new (fun _ => 0) true) c ∧
    (∃ before after, c.state.trace = before ++ .commit 0 (some 0) true :: after ∧
      .enqueued 0 1 ∈ before ∧ unanswered 0 before = [] ∧ ∀ r, .enqueued 0 r ∉ after) ∧
    (∃ before after, c.state.trace = before ++ .aborting 1 [4] :: after ∧
      unanswered 1 before = [3, 4] ∧ building before = some (1, 3) ∧
      (.startFailed 1 ∈ before ∨
        ∀ r ∈ unanswered 1 before, r ∈ [4] ∨ building before = some (1, r))) ∧
    (unanswered 1 s.trace = [3, 4] ∧ building s.trace = some (1, 3) ∧
      ∀ r ∈ unanswered 1 s.trace,
        r ∈ s.queue 1 ∧ (s.ops r).isSome ∨ building s.trace = some (1, r)) ∧
    building c.state.trace = none := by
  obtain ⟨w⟩ := session
  have hcommit : w.ended.trace = w.building.trace.take 6 ++ .commit 0 (some 0) true ::
      (w.building.trace.drop 7 ++ [.aborting 1 [4], .abort 1, .completed 1 3 none, .executed 2 5,
        .completed 2 5 none]) := by
    rw [w.ended_trace, w.building_trace]
    rfl
  have hended := commits_answered _ _ w.reaches_ended
  refine ⟨_, _, _, w.begins, w.reaches_ended, ⟨_, _, hcommit, ?_, (hended 0).1 _ _ _ _ hcommit⟩,
    ⟨_, _, w.ended_trace, ?_, ?_, (hended 1).2.1 _ _ _ w.ended_trace⟩, ⟨?_, ?_, ?_⟩,
    (hended 0).2.2.2 (.inl rfl)⟩
  · rw [w.building_trace]
    decide
  · rw [w.building_trace]
    decide
  · rw [w.building_trace]
    decide
  · rw [w.building_trace]
    decide
  · rw [w.building_trace]
    decide
  · exact (commits_answered _ _ w.begins 1).2.2.1 (.inl nofun) _ w.building_handle rfl

end BoaIdb.Pump
