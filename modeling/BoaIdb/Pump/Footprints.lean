import BoaIdb.Lib.Footprint
import BoaIdb.Pump.Driver

/-!
What the programs of the driver touch.

Most of what the driver does leaves most of its state as it is. The footprint of each program is
said once here, for all that is proved about the driver.
-/

namespace BoaIdb.Pump

open Callbacks Prog

/-- Of an id that has a successor. -/
theorem lt_succ_iff {a b : UInt64} (hb : b + 1 ≠ 0) : a < b + 1 ↔ a ≤ b := by
  have hsucc : (b + 1).toNat = b.toNat + 1 := by
    have hne : b.toNat + 1 ≠ 2 ^ 64 := by
      intro h
      exact hb (UInt64.toNat_inj.mp (by simp [UInt64.toNat_add, h]))
    have hlt := b.toNat_lt
    rw [UInt64.toNat_add, UInt64.toNat_one, Nat.mod_eq_of_lt (by omega)]
  rw [UInt64.lt_iff_toNat_lt, UInt64.le_iff_toNat_le, hsucc, Nat.lt_succ_iff]

theorem lt_succ_self {a : UInt64} (ha : a + 1 ≠ 0) : a < a + 1 := (lt_succ_iff ha).mpr (le_refl a)

/-! ### Parts -/

inductive EventKind
  | enqueued
  | executed
  | completed
  | txnError
  | commit
  | complete
  | aborting
  | abort
  | startFailed
  | answered
  | startUpgrade
  | startDelete
  | advanced
  | blocked
  | upgradeneeded
  | dbAbort
  /-- `success` at a plain open. -/
  | connected
  /-- `success` at an open behind its upgrade. -/
  | upgraded
  | closed
  | deleted
  | openFailed
  deriving DecidableEq, Repr

def Event.kind : Event → EventKind
  | .enqueued _ _ => .enqueued
  | .executed _ _ => .executed
  | .completed _ _ _ => .completed
  | .txnError _ => .txnError
  | .commit _ _ _ => .commit
  | .complete _ => .complete
  | .aborting _ _ => .aborting
  | .abort _ => .abort
  | .startFailed _ => .startFailed
  | .answered _ _ => .answered
  | .startUpgrade _ _ => .startUpgrade
  | .startDelete _ _ => .startDelete
  | .advanced _ _ _ => .advanced
  | .blocked _ => .blocked
  | .upgradeneeded _ => .upgradeneeded
  | .dbAbort _ => .dbAbort
  | .opened _ _ _ none => .connected
  | .opened _ _ _ (some _) => .upgraded
  | .closed _ => .closed
  | .deleted _ => .deleted
  | .openFailed _ _ => .openFailed

/-- What the bookkeeping of transactions reads of a handle. -/
def TxnHandle.stage (handle : TxnHandle) : TxnMode × List StoreId × Bool × Bool :=
  (handle.mode, handle.scope, handle.backend, handle.finished)

/-- The parts of the driver's state that a program may touch. -/
inductive Part
  | opens
  /-- No open gets into an upgrade. -/
  | upgrades
  | deferred
  | openQueues
  /-- The handles, with their stages. -/
  | stages
  /-- The transaction objects, as far as they are registered. -/
  | registrations
  /-- No transaction object becomes active. -/
  | activity
  | scheduler
  | txnIds
  | ops
  | txnQueues
  /-- Nothing is placed on the queue of a transaction. -/
  | queued
  /-- The cursors, with their requests. -/
  | cursors
  | connections
  /-- Ids of requests are not given back. -/
  | requestIds
  /-- What has happened. -/
  | past
  | event (kind : EventKind)
  deriving DecidableEq, Repr

/-- What happened of one kind. -/
def State.ofKind (s : State) (kind : EventKind) : List Event :=
  s.trace.filter fun e => e.kind = kind

def Part.leaves : Part → State → State → Prop
  | .opens, s, s' => s'.opens = s.opens
  | .upgrades, s, s' => ∀ o' ∈ s'.opens, ∀ id, o'.upgradeTxnId = some id →
      ∃ o ∈ s.opens, o.upgradeTxnId = some id
  | .deferred, s, s' => s'.deferredOpenErrors = s.deferredOpenErrors
  | .openQueues, s, s' => s'.openQueues = s.openQueues
  | .stages, s, s' => ∀ id, (s'.txns id).map TxnHandle.stage = (s.txns id).map TxnHandle.stage
  | .registrations, s, s' => ∀ id,
      (s'.txnObjects id).map TxnObject.registered = (s.txnObjects id).map TxnObject.registered
  | .activity, s, s' => ∀ id, (s.txnObjects id).any (fun object => !object.active) = true →
      (s'.txnObjects id).any (fun object => !object.active) = true
  | .scheduler, s, s' => s'.scheduler = s.scheduler
  | .txnIds, s, s' => s'.nextTxnId = s.nextTxnId
  | .ops, s, s' => s'.ops = s.ops
  | .txnQueues, s, s' => s'.txnQueues = s.txnQueues
  | .queued, s, s' => ∀ id, ((s'.txnQueues id).getD []).Sublist ((s.txnQueues id).getD [])
  | .cursors, s, s' => ∀ id, (s'.cursors id).map (fun c => (c.txnId, c.requestId)) =
      (s.cursors id).map fun c => (c.txnId, c.requestId)
  | .connections, s, s' => s'.connections = s.connections
  | .requestIds, s, s' => s.nextRequestId ≤ s'.nextRequestId
  | .past, s, s' => s.trace <+: s'.trace
  | .event kind, s, s' => s'.ofKind kind = s.ofKind kind

/-- The parts of the driver. -/
def parts : Parts Part State where
  leaves := Part.leaves
  refl part s := by
    cases part with
    | upgrades => exact fun o ho id hid => ⟨o, ho, hid⟩
    | activity => exact fun id h => h
    | queued => exact fun id => .refl _
    | requestIds => exact le_refl s.nextRequestId
    | past => exact List.prefix_refl _
    | stages => exact fun id => rfl
    | registrations => exact fun id => rfl
    | cursors => exact fun id => rfl
    | _ => exact rfl
  trans {part s s' s''} h h' := by
    cases part with
    | upgrades =>
        intro o'' ho'' id hid
        obtain ⟨o', ho', hid'⟩ := h' o'' ho'' id hid
        exact h o' ho' id hid'
    | activity => exact fun id hid => h' id (h id hid)
    | queued => exact fun id => (h' id).trans (h id)
    | requestIds => exact le_trans h h'
    | past => exact List.IsPrefix.trans h h'
    | stages => exact fun id => (h' id).trans (h id)
    | registrations => exact fun id => (h' id).trans (h id)
    | cursors => exact fun id => (h' id).trans (h id)
    | _ => exact Eq.trans h' h

/-- What is not listed is left alone. -/
abbrev Touches (touched : List Part) (s s' : State) : Prop := parts.Touches touched s s'

/-! ### Steps -/

variable {s s' : State}

/-- An event is recorded. -/
theorem touches_recorded (kind : EventKind) {e : Event} (he : e.kind = kind) (s : State) :
    Touches [.event kind] s { s with trace := s.trace ++ [e] } := by
  subst he
  intro part hpart
  have hsame := parts.refl part s
  cases part with
  | past => exact List.prefix_append s.trace [e]
  | event kind =>
      have hne : e.kind ≠ kind := by
        rintro rfl
        simp at hpart
      show (s.trace ++ [e]).filter _ = _
      rw [List.filter_append, List.filter_cons_of_neg (by simpa using hne)]
      simp [State.ofKind]
  | _ => exact hsame

theorem touches_setTxn (txnId : TxnId) (handle : Option TxnHandle) (s : State) :
    Touches [.stages] s (s.setTxn txnId handle) := by
  intro part hpart
  have hsame := parts.refl part s
  cases part with
  | stages => simp at hpart
  | _ => exact hsame

/-- A change to handles and objects that keeps the stages, and activates no object. -/
theorem touches_mapTxns (s : State) (edit : TxnId → TxnHandle → TxnHandle)
    (objectEdit : TxnId → TxnObject → TxnObject)
    (hedit : ∀ id handle, (edit id handle).stage = handle.stage)
    (hobject : ∀ id object, (objectEdit id object).registered = object.registered)
    (hactive : ∀ id object, (objectEdit id object).active = true → object.active = true) :
    Touches [] s
      { s with
        txns := fun id => (s.txns id).map (edit id)
        txnObjects := fun id => (s.txnObjects id).map (objectEdit id) } := by
  intro part _
  have hsame := parts.refl part s
  cases part with
  | stages =>
      intro id
      simp only [Option.map_map, Function.comp_def, hedit]
  | registrations =>
      intro id
      simp only [Option.map_map, Function.comp_def, hobject]
  | activity =>
      intro id hid
      cases hobj : s.txnObjects id with
      | none => simp [hobj] at hid
      | some object =>
          simp only [hobj, Option.any_some, Bool.not_eq_true'] at hid
          have hstill : (objectEdit id object).active ≠ true := fun h =>
            absurd ((hactive id object h).symm.trans hid) nofun
          simpa [hobj] using hstill
  | _ => exact hsame

theorem update_map {γ : Type} (f : TxnId → Option γ) (txnId : TxnId) (edit : γ → γ) :
    Function.update f txnId ((f txnId).map edit) =
      fun id => (f id).map (if id = txnId then edit else fun x => x) := by
  funext id
  by_cases h : id = txnId
  · subst h
    simp
  · simp [h]

theorem touches_editTxn (txnId : TxnId) {edit : TxnHandle → TxnHandle} (s : State)
    (hedit : ∀ handle, (edit handle).stage = handle.stage) :
    Touches [] s (s.editTxn txnId edit) := by
  have h := touches_mapTxns s (fun id => if id = txnId then edit else fun x => x) (fun _ x => x)
    (fun id handle => by split <;> simp [hedit]) (by simp) (by simp)
  simpa [State.editTxn, update_map] using h

/-- A change to one object that leaves it registered or not, and does not activate it. -/
theorem touches_mapObject (txnId : TxnId) {edit : TxnObject → TxnObject} (s : State)
    (hedit : ∀ object, (edit object).registered = object.registered)
    (hactive : ∀ object, (edit object).active = true → object.active = true) :
    Touches [] s { s with
      txnObjects := Function.update s.txnObjects txnId ((s.txnObjects txnId).map edit) } := by
  have h := touches_mapTxns s (fun _ x => x) (fun id => if id = txnId then edit else fun x => x)
    (by simp) (fun id object => by split <;> simp [hedit]) fun id object => by
      split
      · exact hactive object
      · simp
  simpa [update_map] using h

theorem touches_editTxnObject (txnId : TxnId) {edit : TxnObject → TxnObject} (s : State)
    (hedit : ∀ object, (edit object).registered = object.registered)
    (hactive : ∀ object, (edit object).active = true → object.active = true) :
    Touches [] s (s.editTxnObject txnId edit) := by
  refine touches_mapObject txnId s (fun object => ?_) fun object => ?_
  · split
    · exact hedit object
    · rfl
  · split
    · exact hactive object
    · exact id

theorem touches_unregisterTxn (txnId : TxnId) (s : State) :
    Touches [.registrations] s (s.unregisterTxn txnId) := by
  intro part hpart
  have hsame := parts.refl part s
  cases part with
  | registrations => simp at hpart
  | activity =>
      intro id hid
      by_cases hne : id = txnId
      · subst hne
        simpa [State.unregisterTxn, Option.any_map, Function.comp_def] using hid
      · simpa [State.unregisterTxn, hne] using hid
  | _ => exact hsame

/-- An open goes. -/
theorem touches_removeOpen (requestId : RequestId) (s : State) :
    Touches [.opens] s (s.removeOpen requestId) := by
  intro part hpart
  have hsame := parts.refl part s
  cases part with
  | opens => simp at hpart
  | upgrades => exact fun o ho id hid => ⟨o, List.mem_of_mem_filter ho, hid⟩
  | _ => exact hsame

theorem touches_editOpen (requestId : RequestId) (edit : PendingOpen → PendingOpen) (s : State) :
    Touches [.opens, .upgrades] s (s.editOpen requestId edit) := by
  intro part hpart
  have hsame := parts.refl part s
  cases part with
  | opens => simp at hpart
  | upgrades => simp at hpart
  | _ => exact hsame

theorem touches_editQueue (name : String) (edit : OpenQueue → OpenQueue) (s : State) :
    Touches [.openQueues] s (s.editQueue name edit) := by
  intro part hpart
  have hsame := parts.refl part s
  cases part with
  | openQueues => simp at hpart
  | _ => exact hsame

theorem touches_forget (txnId : TxnId) (s : State) :
    Touches [.scheduler, .txnQueues] s (s.forget txnId) := by
  intro part hpart
  have hsame := parts.refl part s
  cases part with
  | scheduler => simp at hpart
  | txnQueues => simp at hpart
  | queued =>
      intro id
      by_cases hne : id = txnId
      · subst hne
        simp [State.forget]
      · simp [State.forget, hne]
  | _ => exact hsame

/-- Requests are taken off the queues. -/
theorem touches_dropped {queues : TxnId → Option (List RequestId)}
    (ops : RequestId → Option PendingOp) (s : State)
    (hqueues : ∀ id, ((queues id).getD []).Sublist ((s.txnQueues id).getD [])) :
    Touches [.ops, .txnQueues] s { s with
      ops := ops
      txnQueues := queues } := by
  intro part hpart
  have hsame := parts.refl part s
  cases part with
  | ops => simp at hpart
  | txnQueues => simp at hpart
  | queued => exact hqueues
  | _ => exact hsame

theorem touches_enqueue (txnId : TxnId) (requestId : RequestId) (op : PendingOp) (s : State) :
    Touches [.ops, .txnQueues, .queued, .event .enqueued] s (s.enqueue txnId requestId op) := by
  have hplaced : Touches [.ops, .txnQueues, .queued] s
      { s with
        ops := Function.update s.ops requestId (some op)
        txnQueues := Function.update s.txnQueues txnId
          (some ((s.txnQueues txnId).getD [] ++ [requestId])) } := by
    intro part hpart
    have hsame := parts.refl part s
    cases part with
    | ops => simp at hpart
    | txnQueues => simp at hpart
    | queued => simp at hpart
    | _ => exact hsame
  exact (hplaced.widen (by decide)).trans ((touches_recorded .enqueued rfl _).widen (by decide))

/-! ### Programs -/

section Programs

variable {touched : List Part} {kind : EventKind}

theorem touches_read : (read : Prog State).Within (Touches touched) :=
  within_read Parts.Touches.refl

theorem touches_record (kind : EventKind) {e : Event} (he : e.kind = kind) :
    (record e).Within (Touches [.event kind]) :=
  within_modify (touches_recorded kind he)

theorem touches_dispatch (kind : EventKind) {e : Event} (he : e.kind = kind) :
    (dispatch e).Within (Touches [.event kind]) :=
  within_bind (touches_record kind he) fun _ => within_callOut

theorem touches_refreshTxnEpoch (txnId : TxnId) : (refreshTxnEpoch txnId).Within (Touches []) :=
  within_modify fun s => touches_editTxn txnId s fun _ => rfl

theorem touches_failOp (txnId : TxnId) (requestId : RequestId) (error : IdbError) :
    (failOp txnId requestId error).Within
      (Touches [.event .completed, .event .txnError]) := by
  refine within_bind ((touches_refreshTxnEpoch txnId).widen (by decide)) fun _ =>
    within_bind ((touches_dispatch .completed rfl).widen (by decide)) fun request =>
      within_bind touches_read fun s => ?_
  split
  · exact within_bind ((touches_dispatch .txnError rfl).widen (by decide)) fun _ => within_pure
  · exact within_pure

theorem touches_failQueuedRequests (txnId : TxnId) (error : IdbError) :
    (failQueuedRequests txnId error).Within
      (Touches [.ops, .txnQueues, .event .completed, .event .txnError]) := by
  refine within_bind (within_modifyRead fun s => ?_) fun s => within_forEach (fun requestId =>
    within_bind ((touches_failOp txnId requestId error).widen (by decide)) fun _ => within_pure) _
  refine (touches_dropped _ s fun id => ?_).widen (by decide)
  by_cases hne : id = txnId
  · subst hne
    simp
  · simp [hne]

/-! #### Ends of transactions -/

theorem touches_clearUpgradeTxn (open' : PendingOpen) :
    (clearUpgradeTxn open').Within (Touches []) := by
  refine within_modify fun s part _ => ?_
  cases s.results open'.requestId with
  | none => exact parts.refl part s
  | some conn =>
      have hsame := parts.refl part s
      cases part <;> exact hsame

theorem touches_clearResult (requestId : RequestId) (s : State) :
    Touches [] s (s.clearResult requestId) := by
  intro part _
  have hsame := parts.refl part s
  cases part <;> exact hsame

theorem touches_resetAbortedUpgradeRequest (open' : PendingOpen) :
    (resetAbortedUpgradeRequest open').Within (Touches []) := by
  have hlast : (modify fun s : State => s.clearResult open'.requestId : Prog Unit).Within
      (Touches []) := within_modify (touches_clearResult open'.requestId)
  unfold resetAbortedUpgradeRequest
  split
  · exact within_bind (touches_clearUpgradeTxn open') fun _ => hlast
  · exact hlast

/-- The open of an upgrade goes, and is kept for its error, or not. -/
theorem touches_eraseOpen (s : State) (found : PendingOpen → Bool)
    (deferred : List PendingOpen) :
    Touches [.opens, .deferred] s { s with
      opens := s.opens.eraseP found
      deferredOpenErrors := deferred } := by
  intro part hpart
  have hsame := parts.refl part s
  cases part with
  | opens => simp at hpart
  | deferred => simp at hpart
  | upgrades => exact fun o ho id hid => ⟨o, List.mem_of_mem_eraseP ho, hid⟩
  | _ => exact hsame

theorem touches_abortUpgradeOpen (txnId : TxnId) (notifyRequest : Bool) :
    (abortUpgradeOpen txnId notifyRequest).Within
      (Touches [.opens, .deferred, .openQueues, .event .dbAbort]) := by
  refine within_bind touches_read fun s => ?_
  split
  · exact within_pure
  · next open' _ =>
      refine within_bind (within_modify fun s => ?_) fun _ =>
        within_bind ((touches_clearUpgradeTxn open').widen (by decide)) fun _ =>
          within_bind ((touches_resetAbortedUpgradeRequest open').widen (by decide)) fun _ => ?_
      · exact ((touches_editQueue open'.name _ s).widen (by decide)).trans
          ((touches_eraseOpen (s.editQueue open'.name OpenQueue.onOperationFailed) _ _).widen
            (by decide))
      · split
        · exact within_pure
        · exact within_bind ((touches_dispatch .dbAbort rfl).widen (by decide)) fun _ =>
            within_pure

/-- What reports an end touches the registration, apart from the report. -/
theorem touches_dispatchEnd (txnId : TxnId) (edit : TxnObject → TxnObject) (kind : EventKind)
    {e : Event} (hedit : ∀ object, (edit object).registered = object.registered)
    (hactive : ∀ object, (edit object).active = true → object.active = true)
    (he : e.kind = kind) :
    (dispatchEnd txnId edit e).Within (Touches [.registrations, .event kind]) := by
  have hlast : (modify fun s : State => s.unregisterTxn txnId : Prog Unit).Within
      (Touches [.registrations, .event kind]) :=
    within_modify fun s => (touches_unregisterTxn txnId s).widen (by simp)
  have hreport : (dispatch e).Within (Touches [.registrations, .event kind]) :=
    (touches_dispatch kind he).widen (by simp)
  refine within_bind touches_read fun s => ?_
  split
  · refine within_bind (within_modify fun s => ?_) fun _ => within_bind hreport fun _ => hlast
    exact (touches_editTxnObject txnId s hedit hactive).widen (by simp)
  · exact hlast

theorem touches_over (txnId : TxnId) (kind : EventKind) {e : Event} (he : e.kind = kind) :
    (dispatchEnd txnId TxnObject.over e).Within (Touches [.registrations, .event kind]) :=
  touches_dispatchEnd txnId _ kind (fun _ => rfl) (by simp [TxnObject.over]) he

theorem touches_takeAborted (txnId : TxnId) :
    (takeAborted txnId).Within (Touches [.stages, .event .aborting]) := by
  refine within_bind (within_modifyRead fun s => ?_) fun _ => within_pure
  have htaken : Touches [.stages, .event .aborting] s (s.setTxn txnId none) :=
    (touches_setTxn txnId none s).widen (by decide)
  split
  · exact htaken.trans ((touches_recorded .aborting rfl _).widen (by decide))
  · rw [List.append_nil]
    exact htaken

/-- What an abort may touch. -/
def abortParts : List Part :=
  [.opens, .deferred, .openQueues, .stages, .registrations, .scheduler, .ops, .txnQueues,
    .event .completed, .event .txnError, .event .aborting, .event .abort, .event .dbAbort]

theorem touches_abortTransaction (txnId : TxnId) (notifyUpgradeOpen : Bool) :
    (abortTransaction txnId notifyUpgradeOpen).Within (Touches abortParts) := by
  refine within_bind ((touches_takeAborted txnId).widen (by decide)) fun taken => ?_
  split
  · exact within_pure
  · refine within_bind (within_modify fun s => (touches_forget txnId s).widen (by decide)) fun _ =>
      within_bind ((touches_failQueuedRequests txnId _).widen (by decide)) fun _ =>
        within_bind ((touches_over txnId .abort rfl).widen (by decide)) fun _ => ?_
    split
    · exact (touches_abortUpgradeOpen txnId notifyUpgradeOpen).widen (by decide)
    · exact within_pure

/-- What the commit of a transaction may touch. -/
def finishParts : List Part :=
  [.stages, .registrations, .scheduler, .txnQueues, .event .commit, .event .complete]

theorem touches_finishTxns : finishTxns.Within (Touches finishParts) := by
  refine within_bind touches_read fun s => ?_
  split
  · exact within_pure
  · next txnId _ =>
      exact within_bind (within_modify fun s => (touches_setTxn txnId none s).widen (by decide))
        fun _ => within_bind within_choose fun ok =>
          within_bind ((touches_record .commit rfl).widen (by decide)) fun _ =>
            within_bind (within_modify fun s => (touches_forget txnId s).widen (by decide)) fun _ =>
              within_bind ((touches_dispatchEnd txnId
                (fun o => { o with active := false }) .complete (fun _ => rfl) (by simp) rfl).widen
                  (by decide)) fun _ => within_pure

theorem touches_stages (txnId : TxnId) (edit : TxnHandle → TxnHandle) (s : State) :
    Touches [.stages] s (s.editTxn txnId edit) := by
  intro part hpart
  have hsame := parts.refl part s
  cases part with
  | stages => simp at hpart
  | _ => exact hsame

theorem touches_scheduler (scheduler : Scheduler.TransactionScheduler) (s : State) :
    Touches [.scheduler] s { s with scheduler := scheduler } := by
  intro part hpart
  have hsame := parts.refl part s
  cases part with
  | scheduler => simp at hpart
  | _ => exact hsame

theorem touches_failStart (txnId : TxnId) (s : State) :
    Touches [.stages, .scheduler, .event .startFailed] s (s.failStart txnId) := by
  let s₁ : State := s.editTxn txnId fun handle => { handle with finished := true }
  let s₂ : State := { s₁ with scheduler := s₁.scheduler.forget txnId }
  have hedited : Touches [.stages] s s₁ := touches_stages txnId _ s
  have hscheduled : Touches [.scheduler] s₁ s₂ := touches_scheduler _ s₁
  have hrecorded : Touches [.event .startFailed] s₂ (s.failStart txnId) :=
    touches_recorded .startFailed rfl s₂
  exact (hedited.widen (by decide)).trans
    ((hscheduled.widen (by decide)).trans (hrecorded.widen (by decide)))

/-- What starting a transaction may touch. -/
def readyParts : List Part :=
  [.stages, .scheduler, .ops, .txnQueues, .event .completed, .event .txnError,
    .event .startFailed]

theorem touches_startReady (txnId : TxnId) :
    (startReady txnId).Within (Touches readyParts) := by
  refine within_bind touches_read fun s => ?_
  split
  · refine within_bind within_choose fun answer => ?_
    cases answer with
    | ok =>
        exact within_bind (within_modify fun s => (touches_stages txnId _ s).widen (by decide))
          fun _ => within_pure
    | locked =>
        exact within_bind (within_modify fun s => (touches_scheduler _ s).widen (by decide))
          fun _ => within_pure
    | failed =>
        exact within_bind (within_modify fun s => (touches_failStart txnId s).widen (by decide))
          fun _ => within_bind ((touches_failQueuedRequests txnId _).widen (by decide)) fun _ =>
            within_pure
  · exact within_pure

theorem touches_startAll (ready : List TxnId) : (startAll ready).Within (Touches readyParts) := by
  induction ready with
  | nil => exact within_pure
  | cons txnId rest ih =>
      exact within_bind (touches_startReady txnId) fun _ => within_bind ih fun _ => within_pure

theorem touches_startReadyTxns : startReadyTxns.Within (Touches readyParts) :=
  within_bind (within_modifyRead fun s => (touches_scheduler _ s).widen (by decide)) fun _ =>
    touches_startAll _

/-! #### Requests of transactions -/

theorem touches_popRequest (txnId : TxnId) (s : State) :
    Touches [.ops, .txnQueues] s (popRequest txnId s).1 := by
  unfold popRequest
  split
  · next requestId rest hqueue =>
      have hrest (id : TxnId) : ((Function.update s.txnQueues txnId (some rest) id).getD []).Sublist
          ((s.txnQueues id).getD []) := by
        by_cases hne : id = txnId
        · subst hne
          simp [hqueue]
        · simp [hne]
      dsimp only
      split
      · exact touches_dropped _ s hrest
      · exact touches_dropped s.ops s hrest
  · exact .refl s

theorem touches_dequeueFrom (keys served : List TxnId) (s : State) :
    Touches [.ops, .txnQueues] s (dequeueFrom keys served s).state := by
  induction keys generalizing served s with
  | nil => exact .refl s
  | cons txnId rest ih =>
      rw [dequeueFrom]
      split
      · exact ih served s
      · split
        · exact .refl s
        · split
          · have hpop := touches_popRequest txnId s
            split
            · next s' work heq =>
                rw [heq] at hpop
                exact hpop
            · next s' heq =>
                rw [heq] at hpop
                exact hpop.trans (ih (txnId :: served) s')
          · exact ih (txnId :: served) s

theorem touches_dequeue (keys served : List TxnId) (s : State) :
    Touches [.ops, .txnQueues] s (dequeue keys served s).state := by
  have hfrom := touches_dequeueFrom keys served s
  unfold dequeue
  dsimp only
  split
  · exact hfrom
  · exact hfrom

theorem touches_executeOp (txnId : TxnId) (requestId : RequestId) (op : PendingOp) :
    (executeOp txnId requestId op).Within (Touches [.cursors]) := by
  have hmodify {f : State → State} {x : Except IdbError OpExec}
      (hf : ∀ s, Touches [.cursors] s (f s)) :
      ((modify f : Prog Unit) >>= fun _ => pure x).Within (Touches [.cursors]) :=
    within_bind (within_modify hf) fun _ => within_pure
  have halloc (s : State) : Touches [.cursors] s s.allocCursor := by
    intro part hpart
    have hsame := parts.refl part s
    cases part <;> exact hsame
  have hinsert (cursorId : CursorId) (cursor : CursorState) (s : State) :
      Touches [.cursors] s (s.allocCursor.insertCursor cursorId cursor) := by
    intro part hpart
    have hsame := parts.refl part s
    cases part with
    | cursors => simp at hpart
    | _ => exact hsame
  refine within_bind within_choose fun answer => ?_
  cases op with
  | plain => cases answer <;> exact within_pure
  | cursorOp cursorId navigates => cases answer <;> exact within_pure
  | openCursor =>
      refine within_bind touches_read fun s => ?_
      split
      · exact within_pure
      · exact hmodify halloc
      · exact hmodify fun _ => hinsert _ _ _
      · exact hmodify fun _ => hinsert _ _ _

theorem touches_setCursorPending (cursorId : CursorId) (pending : Bool) (s : State) :
    Touches [] s (s.setCursorPending cursorId pending) := by
  intro part _
  have hsame := parts.refl part s
  cases part with
  | cursors =>
      intro id
      by_cases hne : id = cursorId
      · subst hne
        simp [State.setCursorPending, Function.comp_def]
      · simp [State.setCursorPending, hne]
  | _ => exact hsame

theorem touches_releaseCursor (op : PendingOp) (s : State) : Touches [] s (releaseCursor op s) := by
  cases op with
  | plain => exact .refl s
  | openCursor => exact .refl s
  | cursorOp cursorId navigates => exact touches_setCursorPending cursorId false s

theorem touches_completeRequest (txnId : TxnId) (requestId : RequestId) :
    (completeRequest txnId requestId).Within (Touches abortParts) := by
  refine within_bind ((touches_refreshTxnEpoch txnId).widen (by decide)) fun _ =>
    within_bind ((touches_dispatch .completed rfl).widen (by decide)) fun reply => ?_
  split
  · exact touches_abortTransaction txnId true
  · exact within_pure

theorem touches_applyOutcome (txnId : TxnId) (requestId : RequestId) :
    (applyOutcome txnId requestId).Within (Touches [.event .executed]) :=
  within_bind (touches_dispatch .executed rfl) fun _ => within_pure

theorem touches_execute (txnId : TxnId) (requestId : RequestId) (op : PendingOp) :
    (execute txnId requestId op).Within (Touches (.cursors :: .event .executed :: abortParts)) := by
  refine within_bind ((touches_executeOp txnId requestId op).widen (by decide)) fun result => ?_
  split
  · exact within_bind ((touches_applyOutcome txnId requestId).widen (by decide)) fun _ =>
      within_bind (within_modify fun s => (touches_releaseCursor op s).widen (by decide))
        fun _ => (touches_completeRequest txnId requestId).widen (by decide)
  · exact (touches_completeRequest txnId requestId).widen (by decide)
  · exact within_bind (within_modify fun s => (touches_setCursorPending _ _ s).widen (by decide))
      fun _ => (touches_completeRequest txnId requestId).widen (by decide)
  · refine within_bind ((touches_failOp txnId requestId _).widen (by decide)) fun prevented => ?_
    split
    · exact (touches_abortTransaction txnId false).widen (by decide)
    · exact within_pure

theorem touches_processTxnRequests (served : List TxnId) :
    (processTxnRequests served).Within (Touches (.cursors :: .event .executed :: abortParts)) := by
  refine within_bind within_choose fun order =>
    within_bind (within_modifyRead fun s => (touches_dequeue _ served s).widen (by decide))
      fun s => ?_
  dsimp only
  split
  · exact within_pure
  · exact within_bind ((touches_failQueuedRequests _ _).widen (by decide)) fun _ => within_pure
  · exact within_bind (touches_execute _ _ _) fun _ => within_pure

/-! #### Opens -/

theorem touches_openQueueOf (name : String) : (openQueueOf name).Within (Touches []) := by
  refine within_bind touches_read fun s => ?_
  split
  · exact within_pure
  · exact within_bind within_choose fun _ => within_pure

theorem touches_look (s : State) (requestId : RequestId) (name : String) (looked : Looked) :
    Touches [.opens, .upgrades, .openQueues, .event .answered] s
      (s.look requestId name looked) := by
  intro part hpart
  have hsame := parts.refl part s
  cases part with
  | opens => simp at hpart
  | upgrades => simp at hpart
  | openQueues => simp at hpart
  | past => exact List.prefix_append ..
  | event kind =>
      have hne : kind ≠ .answered := by
        rintro rfl
        simp at hpart
      have hnone : (looked.answers.map (Event.answered requestId)).filter
          (fun e => e.kind = kind) = [] := by
        rw [List.filter_eq_nil_iff]
        intro e he
        obtain ⟨action, -, rfl⟩ := List.mem_map.mp he
        simp [Event.kind, hne.symm]
      show (s.trace ++ _).filter _ = _
      rw [List.filter_append, hnone, List.append_nil]
      rfl
  | _ => exact hsame

/-- What the scan for a step may touch. -/
def scanParts : List Part := [.opens, .upgrades, .openQueues, .event .answered]

theorem touches_scanOpens (ids : List RequestId) :
    (scanOpens ids).Within (Touches scanParts) := by
  induction ids with
  | nil => exact within_pure
  | cons requestId rest ih =>
      refine within_bind touches_read fun s => ?_
      split
      · exact within_pure
      · refine within_bind ((touches_openQueueOf _).widen (by decide)) fun queue =>
          within_bind (within_modify fun s => touches_look s _ _ _) fun _ => ?_
        split
        · exact ih
        · exact within_pure

theorem touches_nextOpenStep : nextOpenStep.Within (Touches scanParts) := by
  refine within_bind touches_read fun s => ?_
  split
  · exact touches_scanOpens _
  · split
    · exact within_pure
    · split
      · exact within_pure
      · exact touches_scanOpens _

theorem touches_enterTxn (handle : TxnHandle) (s : State) :
    Touches [.stages, .scheduler] s (s.enterTxn handle) := by
  intro part hpart
  have hsame := parts.refl part s
  cases part with
  | stages => simp at hpart
  | scheduler => simp at hpart
  | _ => exact hsame

theorem touches_allocTxn (s : State) : Touches [.txnIds] s s.allocTxn := by
  intro part hpart
  have hsame := parts.refl part s
  cases part with
  | txnIds => simp at hpart
  | _ => exact hsame

theorem touches_registerTxn (txnId : TxnId) (s : State) :
    Touches [.registrations, .activity] s (s.registerTxn txnId) := by
  intro part hpart
  have hsame := parts.refl part s
  cases part with
  | registrations => simp at hpart
  | activity => simp at hpart
  | _ => exact hsame

theorem touches_setResult (requestId : RequestId) (connId : ConnId) (db : DbObject) (s : State) :
    Touches [] s (s.setResult requestId connId db) := by
  intro part _
  have hsame := parts.refl part s
  cases part <;> exact hsame

/-- What a new transaction touches. -/
def beginParts : List Part := [.stages, .registrations, .activity, .scheduler, .txnIds]

theorem touches_begun (handle : TxnHandle) (txnId : TxnId) (s : State) :
    Touches beginParts s ((s.allocTxn.enterTxn handle).registerTxn txnId) :=
  ((touches_allocTxn s).widen (by decide)).trans
    (((touches_enterTxn handle _).widen (by decide)).trans
      ((touches_registerTxn txnId _).widen (by decide)))

theorem touches_startUpgradeTxn (open' : PendingOpen) :
    (startUpgradeTxn open').Within (Touches beginParts) := by
  refine within_bind touches_read fun s =>
    within_bind within_choose fun begun => ?_
  split
  · exact within_pure
  · split
    · exact within_bind (within_modify fun s => (touches_begun _ _ s).trans
        ((touches_setResult _ _ _ _).widen (by decide))) fun _ => within_pure
    · exact within_bind (within_modify fun s => (touches_allocTxn s).widen (by decide)) fun _ =>
        within_pure

/-- An open goes while its queue goes on. -/
theorem touches_released (requestId : RequestId) (name : String) (edit : OpenQueue → OpenQueue)
    (s : State) : Touches [.opens, .openQueues] s ((s.removeOpen requestId).editQueue name edit) :=
  ((touches_removeOpen requestId s).widen (by decide)).trans
    ((touches_editQueue name edit _).widen (by decide))

theorem touches_abortFailedUpgrade (open' : PendingOpen) (txnId : TxnId) :
    (abortFailedUpgrade open' txnId).Within
      (Touches [.opens, .openQueues, .stages, .registrations, .scheduler, .txnQueues,
        .event .aborting, .event .abort, .event .openFailed]) := by
  refine within_bind ((touches_resetAbortedUpgradeRequest open').widen (by decide)) fun _ =>
    within_bind ((touches_takeAborted txnId).widen (by decide)) fun _ =>
      within_bind (within_modify fun s => ?_) fun _ =>
        within_bind ((touches_over txnId .abort rfl).widen (by decide)) fun _ =>
          within_bind ((touches_dispatch .openFailed rfl).widen (by decide)) fun _ => within_pure
  exact ((touches_forget txnId s).widen (by decide)).trans
    ((touches_released _ _ _ _).widen (by decide))

/-- What the upgrade of a database may touch. -/
def upgradeParts : List Part :=
  [.opens, .upgrades, .openQueues, .stages, .registrations, .activity, .scheduler, .txnIds,
    .txnQueues, .event .startUpgrade, .event .upgradeneeded, .event .aborting, .event .abort,
    .event .openFailed]

theorem touches_startUpgrade (open' : PendingOpen) (oldVersion newVersion : UInt64) :
    (startUpgrade open' oldVersion newVersion).Within (Touches upgradeParts) := by
  refine within_bind ((touches_record .startUpgrade rfl).widen (by decide)) fun _ =>
    within_bind ((touches_startUpgradeTxn open').widen (by decide)) fun started => ?_
  split
  · refine within_bind (within_modify fun s => (touches_editOpen _ _ s).widen (by decide)) fun _ =>
      within_bind touches_read fun s =>
        within_bind ((touches_dispatch .upgradeneeded rfl).widen (by decide)) fun reply => ?_
    split
    · split
      · exact within_pure
      · exact (touches_abortFailedUpgrade _ _).widen (by decide)
    · exact within_pure
  · refine within_bind (within_modify fun s => ?_) fun _ =>
      within_bind ((touches_dispatch .openFailed rfl).widen (by decide)) fun _ => within_pure
    exact ((touches_editQueue _ _ s).widen (by decide)).trans
      ((touches_removeOpen _ _).widen (by decide))

theorem touches_versions (versions : String → UInt64) (s : State) :
    Touches [] s { s with versions := versions } := by
  intro part _
  have hsame := parts.refl part s
  cases part <;> exact hsame

theorem touches_startDelete (open' : PendingOpen) :
    (startDelete open').Within (Touches [.opens, .openQueues, .event .startDelete,
      .event .deleted, .event .openFailed]) := by
  have hsettled (edit : OpenQueue → OpenQueue) (s : State) : Touches [.opens, .openQueues] s
      ((s.editQueue open'.name edit).removeOpen open'.requestId) :=
    ((touches_editQueue _ _ s).widen (by decide)).trans
      ((touches_removeOpen _ _).widen (by decide))
  refine within_bind ((touches_record .startDelete rfl).widen (by decide)) fun _ =>
    within_bind within_choose fun deleted => ?_
  split
  · refine within_bind (within_modify fun s => ?_) fun _ =>
      within_bind ((touches_dispatch .deleted rfl).widen (by decide)) fun _ => within_pure
    exact ((hsettled _ s).widen (by decide)).trans ((touches_versions _ _).widen (by decide))
  · exact within_bind (within_modify fun s => (hsettled _ s).widen (by decide)) fun _ =>
      within_bind ((touches_dispatch .openFailed rfl).widen (by decide)) fun _ => within_pure

theorem touches_commitUpgrade (open' : PendingOpen) (txnId : TxnId) (handle : Option TxnHandle) :
    (commitUpgrade open' txnId handle).Within (Touches [.event .commit]) := by
  unfold commitUpgrade
  split
  · refine within_bind within_choose fun ok => within_modify fun s => ?_
    let s₁ : State := { s with versions := (s.commitVersion open' txnId ok).versions }
    have hversions : Touches [] s s₁ := touches_versions _ s
    have hrecorded : Touches [.event .commit] s₁ (s.commitVersion open' txnId ok) :=
      touches_recorded .commit rfl s₁
    exact (hversions.widen (by decide)).trans hrecorded
  · exact within_pure

theorem touches_releaseUpgrade (open' : PendingOpen) (txnId : TxnId) (s : State) :
    Touches [.openQueues, .event .advanced] s (s.releaseUpgrade open' txnId) := by
  unfold State.releaseUpgrade
  split
  · exact ((touches_editQueue _ _ s).widen (by decide)).trans
      ((touches_recorded .advanced rfl _).widen (by decide))
  · exact (touches_editQueue _ _ s).widen (by decide)

/-- What the end of an upgrade may touch behind its commit. -/
def committedParts : List Part :=
  [.opens, .openQueues, .registrations, .scheduler, .txnQueues, .event .complete,
    .event .advanced, .event .upgraded, .event .openFailed]

theorem touches_upgradeCommitted (open' : PendingOpen) (txnId : TxnId) (connectionClosed : Bool) :
    (upgradeCommitted open' txnId connectionClosed).Within (Touches committedParts) := by
  refine within_bind (within_modify fun s => ?_) fun _ =>
    within_bind ((touches_over txnId .complete rfl).widen (by decide)) fun _ =>
      within_bind ((touches_clearUpgradeTxn open').widen (by decide)) fun _ => ?_
  · exact ((touches_forget txnId s).widen (by decide)).trans
      (((touches_removeOpen _ _).widen (by decide)).trans
        ((touches_releaseUpgrade _ _ _).widen (by decide)))
  · split
    · exact within_bind (within_modify fun s => (touches_clearResult _ s).widen (by decide))
        fun _ => within_bind ((touches_dispatch .openFailed rfl).widen (by decide)) fun _ =>
          within_pure
    · exact within_bind ((touches_dispatch .upgraded rfl).widen (by decide)) fun _ => within_pure

theorem touches_finishUpgrade (open' : PendingOpen) (txnId : TxnId) :
    (finishUpgrade open' txnId).Within
      (Touches (.stages :: .event .commit :: committedParts)) :=
  within_bind (within_modifyRead fun s => (touches_setTxn txnId none s).widen (by decide)) fun _ =>
    within_bind ((touches_commitUpgrade _ _ _).widen (by decide)) fun _ =>
      (touches_upgradeCommitted _ _ _).widen (by decide)

theorem touches_openConnection (open' : PendingOpen) :
    (openConnection open').Within (Touches [.opens, .connections, .event .connected]) := by
  have hinsert (connId : ConnId) (name : String) (s : State) :
      Touches [.connections] s (s.insertConnection connId name) := by
    intro part hpart
    have hsame := parts.refl part s
    cases part with
    | connections => simp at hpart
    | _ => exact hsame
  refine within_bind (within_modify fun s => ?_) fun _ =>
    within_bind ((touches_dispatch .connected rfl).widen (by decide)) fun _ => within_pure
  exact ((hinsert _ _ s).widen (by decide)).trans
    (((touches_removeOpen _ _).widen (by decide)).trans
      ((touches_setResult _ _ _ _).widen (by decide)))

/-- What performing a step may touch. -/
def performParts : List Part := .connections :: (upgradeParts ++ [.event .blocked,
  .event .startDelete, .event .deleted, .event .commit, .event .complete, .event .advanced,
  .event .upgraded, .event .connected])

theorem touches_perform (step : OpenStep) : (perform step).Within (Touches performParts) := by
  cases step with
  | fireBlocked open' =>
      exact within_bind ((touches_dispatch .blocked rfl).widen (by decide)) fun _ => within_pure
  | openConnection open' version => exact (touches_openConnection open').widen (by decide)
  | failOpen open' error =>
      exact within_bind (within_modify fun s => (touches_removeOpen _ s).widen (by decide))
        fun _ => within_bind ((touches_dispatch .openFailed rfl).widen (by decide)) fun _ =>
          within_pure
  | startUpgrade open' old new => exact (touches_startUpgrade open' old new).widen (by decide)
  | startDelete open' => exact (touches_startDelete open').widen (by decide)
  | finishUpgrade open' txnId => exact (touches_finishUpgrade open' txnId).widen (by decide)

theorem touches_processDeferredOpenErrors :
    processDeferredOpenErrors.Within (Touches [.deferred, .event .openFailed]) := by
  have htaken (s : State) : Touches [.deferred] s { s with deferredOpenErrors := [] } := by
    intro part hpart
    have hsame := parts.refl part s
    cases part with
    | deferred => simp at hpart
    | _ => exact hsame
  exact within_bind (within_modifyRead fun s => (htaken s).widen (by decide)) fun _ =>
    within_forEach (fun _ =>
      within_bind ((touches_dispatch .openFailed rfl).widen (by decide)) fun _ => within_pure) _

/-! #### Marks and methods -/

theorem touches_deactivateIdleTxns (s : State) : Touches [] s (deactivateIdleTxns s) := by
  refine touches_mapTxns s _ _ (fun id handle => ?_) (fun id object => ?_) fun id object => ?_
  · split <;> rfl
  · split <;> rfl
  · split
    · simp
    · exact fun h => h

theorem touches_endOfTask (s : State) : Touches [] s (endOfTask s) := by
  refine touches_mapTxns s _ _ (fun _ _ => rfl) (fun id object => ?_) fun id object => ?_
  · split <;> rfl
  · split
    · simp
    · exact fun h => h

theorem touches_issueOpen (kind : OpenKind) (name : String) (version : UInt64) :
    (issueOpen kind name version).Within (Touches [.opens]) := by
  refine within_modify fun s => ?_
  split
  · exact .refl s
  · next hnext =>
      intro part hpart
      have hsame := parts.refl part s
      cases part with
      | opens => simp at hpart
      | upgrades =>
          intro o ho id hid
          rcases List.mem_append.mp ho with ho | ho
          · exact ⟨o, ho, hid⟩
          · rw [List.mem_singleton.mp ho] at hid
            cases hid
      | requestIds => exact (lt_succ_self (not_or.mp hnext).1).le
      | _ => exact hsame

/-- What placing a request touches. -/
def placeParts : List Part := [.ops, .txnQueues, .queued, .event .enqueued]

theorem touches_issueRequest (txnId : TxnId) (op : PendingOp) (s : State) :
    Touches placeParts s (issueRequest txnId op s) := by
  unfold issueRequest
  split
  · exact .refl s
  · next hnext =>
      have halloc : Touches placeParts s { s with nextRequestId := s.nextRequestId + 1 } := by
        intro part _
        have hsame := parts.refl part s
        cases part with
        | requestIds => exact (lt_succ_self hnext).le
        | _ => exact hsame
      exact halloc.trans (touches_enqueue _ _ _ _)

theorem touches_storeRequest (txnId : TxnId) (op : PendingOp) :
    (storeRequest txnId op).Within (Touches placeParts) := by
  refine within_modify fun s => ?_
  split
  · exact touches_issueRequest txnId op s
  · exact .refl s

theorem touches_createTxn (connId : ConnId) (dbName : String) (mode : TxnMode)
    (scope : List StoreId) : (createTxn connId dbName mode scope).Within (Touches beginParts) := by
  refine within_bind within_choose fun valid => within_modify fun s => ?_
  split
  · exact .refl s
  · split
    · exact touches_begun _ _ s
    · exact (touches_allocTxn s).widen (by decide)

theorem touches_transaction (connId : ConnId) (write : Bool) (scope : List StoreId) :
    (transaction connId write scope).Within (Touches beginParts) := by
  refine within_bind touches_read fun s => ?_
  split
  · exact within_pure
  · split
    · exact within_pure
    · refine within_bind within_callOut fun reply => ?_
      split
      · exact within_pure
      · refine within_bind touches_read fun s => ?_
        split
        · exact within_pure
        · exact touches_createTxn _ _ _ _

theorem touches_close (connId : ConnId) :
    (close connId).Within (Touches [.connections, .event .closed]) := by
  refine within_modify fun s => ?_
  have hmarked : Touches [.connections] s
      { s.closeConnection connId with
        dbObjects := (s.editDbObject connId fun db => { db with closed := true }).dbObjects
        trace := s.trace } := by
    intro part hpart
    have hsame := parts.refl part s
    cases part with
    | connections => simp at hpart
    | _ => exact hsame
  exact (hmarked.widen (by decide)).trans ((touches_recorded .closed rfl _).widen (by decide))

theorem touches_navigate (cursorId : CursorId) :
    (navigate cursorId).Within (Touches placeParts) := by
  refine within_bind touches_read fun s => ?_
  split
  · exact within_pure
  · split
    · exact within_pure
    · refine within_bind within_callOut fun reply => ?_
      split
      · exact within_pure
      · exact within_modify fun s => ((touches_setCursorPending _ _ s).widen (by decide)).trans
          (touches_enqueue _ _ _ _)

theorem touches_cursorWrite (cursorId : CursorId) :
    (cursorWrite cursorId).Within (Touches placeParts) := by
  refine within_bind touches_read fun s => ?_
  split
  · exact within_pure
  · split
    · exact within_pure
    · refine within_bind within_callOut fun reply => ?_
      split
      · exact within_pure
      · exact within_modify fun s => touches_issueRequest _ _ s

theorem touches_commit (txnId : TxnId) : (commit txnId).Within (Touches []) := by
  refine within_modify fun s => ?_
  split
  · have hedit :
        Touches [] s (s.editTxn txnId fun handle => { handle with explicitCommit := true }) :=
      touches_editTxn txnId s fun _ => rfl
    exact hedit.trans (touches_mapObject txnId _ (fun _ => rfl) fun _ h => h)
  · exact .refl s

theorem touches_abort (txnId : TxnId) : (abort txnId).Within (Touches abortParts) := by
  have hover (s : State) : Touches [] s { s with
      txnObjects := Function.update s.txnObjects txnId
        ((s.txnObjects txnId).map TxnObject.over) } :=
    touches_mapObject txnId s (fun _ => rfl) (by simp [TxnObject.over])
  refine within_bind touches_read fun s => ?_
  split
  · exact within_bind (within_modify fun s => (hover s).widen (by decide)) fun _ =>
      touches_abortTransaction txnId true
  · exact within_pure

theorem touches_taskEpoch (epoch : ℕ) (s : State) : Touches [] s { s with taskEpoch := epoch } := by
  intro part _
  have hsame := parts.refl part s
  cases part <;> exact hsame

end Programs

/-! ### Procedures -/

/-- What a procedure may touch. -/
def Proc.parts : Proc → List Part
  | .processOpens => .event .answered :: performParts
  | .processDeferredOpenErrors => [.deferred, .event .openFailed]
  | .startReadyTxns => readyParts
  | .processTxnRequests _ => .cursors :: .event .executed :: abortParts
  | .runJobs | .deactivateIdleTxns | .endOfTask | .noteTimerTask | .commit _ => []
  | .finishTxns => finishParts
  | .issueOpen _ _ _ => [.opens]
  | .storeRequest _ _ | .navigate _ | .cursorWrite _ => placeParts
  | .transaction _ _ _ => beginParts
  | .close _ => [.connections, .event .closed]
  | .abort _ => abortParts

/-- **The footprint of a procedure.** -/
theorem touches_body (proc : Proc) : (body proc).Within (Touches proc.parts) := by
  have hdone {p : Prog Unit} (hp : p.Within (Touches proc.parts)) :
      (p >>= fun _ => (pure none : Prog (Option Proc))).Within (Touches proc.parts) :=
    within_bind hp fun _ => within_pure
  cases proc with
  | processOpens =>
      refine within_bind (touches_nextOpenStep.widen (by decide)) fun step => ?_
      split
      · exact within_pure
      · exact within_bind ((touches_perform _).widen (by decide)) fun _ => within_pure
  | processDeferredOpenErrors =>
      exact within_bind touches_processDeferredOpenErrors fun _ => within_pure
  | startReadyTxns => exact within_bind touches_startReadyTxns fun _ => within_pure
  | processTxnRequests served =>
      refine within_bind (touches_processTxnRequests served) fun served' => ?_
      split
      · exact within_pure
      · exact within_pure
  | runJobs =>
      refine within_bind touches_read fun s => ?_
      split
      · exact within_pure
      · exact within_bind within_callOut fun _ => within_pure
  | deactivateIdleTxns =>
      exact within_bind (within_modify touches_deactivateIdleTxns) fun _ => within_pure
  | finishTxns => exact within_bind touches_finishTxns fun _ => within_pure
  | endOfTask => exact within_bind (within_modify touches_endOfTask) fun _ => within_pure
  | noteTimerTask =>
      exact within_bind (within_modify fun s => touches_taskEpoch _ s) fun _ => within_pure
  | issueOpen kind name version => exact hdone (touches_issueOpen kind name version)
  | storeRequest txnId opensCursor => exact hdone (touches_storeRequest _ _)
  | transaction connId write scope => exact hdone (touches_transaction connId write scope)
  | close connId => exact hdone (touches_close connId)
  | navigate cursorId => exact hdone (touches_navigate cursorId)
  | cursorWrite cursorId => exact hdone (touches_cursorWrite cursorId)
  | commit txnId => exact hdone (touches_commit txnId)
  | abort txnId => exact hdone (touches_abort txnId)

/-! ### Programs that hand control to nobody -/

theorem silent_resetAbortedUpgradeRequest (open' : PendingOpen) :
    (resetAbortedUpgradeRequest open').Silent := by
  unfold resetAbortedUpgradeRequest
  split
  · exact fun _ _ => trivial
  · exact fun _ => trivial

theorem silent_startUpgradeTxn (open' : PendingOpen) : (startUpgradeTxn open').Silent := by
  intro s begun
  dsimp only
  split
  · trivial
  · cases begun
    · exact fun _ => trivial
    · exact fun _ => trivial

theorem silent_commitUpgrade (open' : PendingOpen) (txnId : TxnId) (handle : Option TxnHandle) :
    (commitUpgrade open' txnId handle).Silent := by
  unfold commitUpgrade
  split
  · exact fun _ _ => trivial
  · trivial

/-! ### What is recorded -/

/-- Only events of the listed kinds are recorded, behind those that were there. -/
theorem events_of_touches {touched : List Part} (h : Touches touched s s')
    (hpast : .past ∉ touched) :
    ∃ events, s'.trace = s.trace ++ events ∧ ∀ e ∈ events, .event e.kind ∈ touched := by
  obtain ⟨events, htrace⟩ := h .past hpast
  refine ⟨events, htrace.symm, fun e he => ?_⟩
  by_contra hnot
  have hsame : s'.ofKind e.kind = s.ofKind e.kind := h (.event e.kind) hnot
  have hnone : events.filter (fun e' => e'.kind = e.kind) = [] := by
    simpa [State.ofKind, ← htrace] using hsame
  have hmem : e ∈ events.filter (fun e' => e'.kind = e.kind) := by simp [he]
  rw [hnone] at hmem
  cases hmem

end BoaIdb.Pump
