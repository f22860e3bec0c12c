import BoaIdb.Pump.Quiet
import Mathlib.Data.List.Pairwise

/-!
The driver and its scheduler stay in step.

Every transaction that is entered in one is entered in the other, by hand, on each of its exits.
At the end of a phase the scheduler holds the unfinished transactions, each once, and a normal one
has its backend exactly when the scheduler has let it run.
-/

namespace BoaIdb.Pump

open Callbacks Scheduler

/-! ### The scheduler's list -/

/-- The ids that the scheduler holds, pending and running. -/
def held (t : TransactionScheduler) : List TxnId :=
  (t.pendingQueue ++ t.runningTxns).map TxnQueueItem.id

/-- The ids in its running list. -/
def running (t : TransactionScheduler) : List TxnId := t.runningTxns.map TxnQueueItem.id

theorem running_subset_held {t : TransactionScheduler} {id : TxnId} (h : id ∈ running t) :
    id ∈ held t := by
  rw [held, List.map_append]
  exact List.mem_append_right _ h

theorem held_enqueue (t : TransactionScheduler) (item : TxnQueueItem) :
    (held (t.enqueue item)).Perm (item.id :: held t) := by
  simp only [held, TransactionScheduler.enqueue, List.map_append, List.append_assoc]
  exact List.perm_middle

theorem held_forget (t : TransactionScheduler) (id : TxnId) :
    held (t.forget id) = (held t).filter (· ≠ id) := by
  simp only [held, TransactionScheduler.forget, ← List.filter_append, List.filter_map]
  rfl

theorem running_forget (t : TransactionScheduler) (id : TxnId) :
    running (t.forget id) = (running t).filter (· ≠ id) := by
  simp only [running, TransactionScheduler.forget, List.filter_map]
  rfl

/-- What a poll lets run moves from one list to the other. -/
theorem pollFrom_releases (kept rest running : List TxnQueueItem) (ready : List TxnId) :
    ∃ left released, (rest.Perm (left ++ released)) ∧
      TransactionScheduler.pollFrom kept rest running ready =
        (⟨kept ++ left, running ++ released⟩, ready ++ released.map TxnQueueItem.id) := by
  induction rest generalizing kept running ready with
  | nil => exact ⟨[], [], .refl _, by simp [TransactionScheduler.pollFrom]⟩
  | cons candidate rest ih =>
      rw [TransactionScheduler.pollFrom]
      split
      · obtain ⟨left, released, hperm, hpoll⟩ :=
          ih kept (running ++ [candidate]) (ready ++ [candidate.id])
        refine ⟨left, candidate :: released, ?_, ?_⟩
        · exact (hperm.cons candidate).trans List.perm_middle.symm
        · rw [hpoll]
          simp
      · obtain ⟨left, released, hperm, hpoll⟩ := ih (kept ++ [candidate]) running ready
        refine ⟨candidate :: left, released, hperm.cons candidate, ?_⟩
        rw [hpoll]
        simp

theorem pollReady_releases (t : TransactionScheduler) :
    (held t.pollReady.1).Perm (held t) ∧ running t.pollReady.1 = running t ++ t.pollReady.2 := by
  obtain ⟨left, released, hperm, hpoll⟩ := pollFrom_releases [] t.pendingQueue t.runningTxns []
  rw [TransactionScheduler.pollReady, hpoll]
  refine ⟨?_, by simp [running]⟩
  simp only [held, List.nil_append]
  apply List.Perm.map
  calc (left ++ (t.runningTxns ++ released)).Perm (left ++ (released ++ t.runningTxns)) :=
        List.Perm.append_left _ List.perm_append_comm
    _ = left ++ released ++ t.runningTxns := (List.append_assoc ..).symm
    List.Perm _ (t.pendingQueue ++ t.runningTxns) := hperm.symm.append_right _

/-- What is put back leaves the running list. -/
theorem requeueUnstarted_moves {t : TransactionScheduler} {id : TxnId} (h : id ∈ running t) :
    (held (t.requeueUnstarted id)).Perm (held t) ∧
      (running t).Perm (id :: running (t.requeueUnstarted id)) := by
  have hfound : (t.runningTxns.findIdx? fun item => item.id = id) ≠ none := by
    obtain ⟨item, hitem, hid⟩ := List.mem_map.mp h
    simp only [ne_eq, List.findIdx?_eq_none_iff, not_forall]
    exact ⟨item, hitem, by simpa using hid⟩
  obtain ⟨pos, hpos⟩ := Option.ne_none_iff_exists'.mp hfound
  obtain ⟨hlt, hid, -⟩ := List.findIdx?_eq_some_iff_getElem.mp hpos
  have hsplit : t.runningTxns =
      t.runningTxns.take pos ++ t.runningTxns[pos] :: t.runningTxns.drop (pos + 1) := by
    rw [List.getElem_cons_drop, List.take_append_drop]
  have hmoved : t.requeueUnstarted id = ⟨t.runningTxns[pos] :: t.pendingQueue,
      t.runningTxns.take pos ++ t.runningTxns.drop (pos + 1)⟩ := by
    simp only [TransactionScheduler.requeueUnstarted, hpos, List.getElem?_eq_getElem hlt,
      List.eraseIdx_eq_take_drop_succ]
  generalize t.runningTxns[pos] = item at *
  have hitem : item.id = id := of_decide_eq_true hid
  rw [hmoved]
  refine ⟨?_, ?_⟩
  · unfold held
    conv_rhs => rw [hsplit]
    exact (FairQueue.perm_requeue t.pendingQueue _ _ item).map _
  · unfold running
    conv_lhs => rw [hsplit]
    rw [List.map_append, List.map_append, List.map_cons, hitem]
    exact List.perm_middle

/-! ### The invariant -/

/-- A handle that is not finished. -/
def State.Unfinished (s : State) (id : TxnId) : Prop :=
  ∃ handle, s.txns id = some handle ∧ handle.finished = false

/-- Not finished, and without its backend. -/
def State.Waiting (s : State) (id : TxnId) : Prop :=
  ∃ handle, s.txns id = some handle ∧ handle.finished = false ∧ handle.backend = false

/-- The scheduler holds the unfinished transactions, each once, and a transaction other than an
upgrade has its backend exactly when it is in the running list. -/
structure InStep (s : State) : Prop where
  once : (held s.scheduler).Nodup
  held : ∀ id, id ∈ held s.scheduler ↔ s.Unfinished id
  backend : ∀ id handle, s.txns id = some handle → handle.mode ≠ .versionChange →
    (handle.backend = true ↔ id ∈ running s.scheduler)

/-- The order of creation. -/
def Earlier (a b : TxnQueueItem) : Prop := a.id < b.id

/-- Each unfinished transaction has its entry, and entries that conflict keep the order in which
they were created. -/
structure Lined (s : State) : Prop where
  entries : ∀ id handle, s.txns id = some handle → handle.finished = false →
    ⟨id, handle.mode, handle.scope⟩ ∈ s.scheduler.pendingQueue ++ s.scheduler.runningTxns
  fair : FairQueue.Fair Conflict Earlier s.scheduler.pendingQueue s.scheduler.runningTxns

/-- What holds whenever handlers have control: of those in the running list some may be about to
get their backends. -/
structure Registered (s : State) : Prop where
  once : (held s.scheduler).Nodup
  held : ∀ id, id ∈ held s.scheduler ↔ s.Unfinished id
  fresh : ∀ id handle, s.txns id = some handle → id < s.nextTxnId
  upgrade : ∀ id handle, s.txns id = some handle → handle.mode = .versionChange →
    handle.backend = true
  unfinished : ∀ id handle, s.txns id = some handle → handle.backend = true →
    handle.finished = false
  started : ∀ id handle, s.txns id = some handle → handle.backend = true →
    handle.mode ≠ .versionChange → id ∈ running s.scheduler
  lined : Lined s

/-- None is about to get its backend. -/
def AllStarted (s : State) : Prop := ∀ id, s.Waiting id → id ∉ running s.scheduler

theorem Registered.inStep {s : State} (h : Registered s) (hall : AllStarted s) : InStep s := by
  refine ⟨h.once, h.held, fun id handle hhandle hmode => ⟨fun hbackend => ?_, fun hrunning => ?_⟩⟩
  · exact h.started id handle hhandle hbackend hmode
  · obtain ⟨handle', hhandle', hunfinished⟩ := (h.held id).mp (running_subset_held hrunning)
    obtain rfl : handle = handle' := Option.some.inj (hhandle.symm.trans hhandle')
    by_contra hbackend
    exact hall id ⟨handle, hhandle, hunfinished, Bool.eq_false_of_not_eq_true hbackend⟩ hrunning

/-- What methods leave as it is: no transaction begins to wait but a new one, and one that waits
stays in its list. -/
structure Waits (s s' : State) : Prop where
  later : s.nextTxnId ≤ s'.nextTxnId
  waits : ∀ id, id < s.nextTxnId → s'.Waiting id → s.Waiting id
  stays : ∀ id, id < s.nextTxnId → s'.Waiting id → id ∈ running s.scheduler →
    id ∈ running s'.scheduler
  due : ∀ id, s'.Waiting id → id ∈ running s'.scheduler → s.Waiting id ∧ id ∈ running s.scheduler

theorem Waits.refl (s : State) : Waits s s :=
  ⟨le_refl _, fun _ _ h => h, fun _ _ _ h => h, fun _ h h' => ⟨h, h'⟩⟩

theorem Waits.trans {s s' s'' : State} (h : Waits s s') (h' : Waits s' s'') : Waits s s'' where
  later := h.later.trans h'.later
  waits id hid hwaiting := h.waits id hid (h'.waits id (hid.trans_le h.later) hwaiting)
  stays id hid hwaiting hrunning :=
    h'.stays id (hid.trans_le h.later) hwaiting
      (h.stays id hid (h'.waits id (hid.trans_le h.later) hwaiting) hrunning)
  due id hwaiting hrunning :=
    have hdue := h'.due id hwaiting hrunning
    h.due id hdue.1 hdue.2

theorem Waits.allStarted {s s' : State} (h : Waits s s') (hall : AllStarted s) : AllStarted s' :=
  fun id hwaiting hrunning =>
    have hdue := h.due id hwaiting hrunning
    hall id hdue.1 hdue.2

/-- The handlers' contract. -/
def registryContract : Contract State where
  always _ := True
  invariant := Registered
  during := Waits
  refl := Waits.refl
  trans := Waits.trans

/-! ### What leaves the registry as it is -/

/-- The registry is the same. -/
structure SameRegistry (s s' : State) : Prop where
  scheduler : s'.scheduler = s.scheduler
  nextTxnId : s'.nextTxnId = s.nextTxnId
  stages : ∀ id, (s'.txns id).map TxnHandle.stage = (s.txns id).map TxnHandle.stage

theorem SameRegistry.of_eq {s s' : State} (hscheduler : s'.scheduler = s.scheduler)
    (hnext : s'.nextTxnId = s.nextTxnId) (htxns : s'.txns = s.txns) : SameRegistry s s' :=
  ⟨hscheduler, hnext, fun _ => by rw [htxns]⟩

theorem SameRegistry.refl (s : State) : SameRegistry s s := .of_eq rfl rfl rfl

theorem Quiet.sameRegistry {s s' : State} (h : Quiet s s') : SameRegistry s s' :=
  ⟨h.scheduler, h.nextTxnId, h.stages⟩

theorem SameRegistry.symm {s s' : State} (h : SameRegistry s s') : SameRegistry s' s :=
  ⟨h.scheduler.symm, h.nextTxnId.symm, fun id => (h.stages id).symm⟩

theorem SameRegistry.trans {s s' s'' : State} (h : SameRegistry s s') (h' : SameRegistry s' s'') :
    SameRegistry s s'' :=
  ⟨h'.scheduler.trans h.scheduler, h'.nextTxnId.trans h.nextTxnId,
    fun id => (h'.stages id).trans (h.stages id)⟩

/-- Each handle has its counterpart. -/
theorem SameRegistry.handle {s s' : State} (h : SameRegistry s s') {id : TxnId}
    {handle : TxnHandle} (hhandle : s'.txns id = some handle) :
    ∃ handle', s.txns id = some handle' ∧ handle'.mode = handle.mode ∧
      handle'.scope = handle.scope ∧ handle'.backend = handle.backend ∧
      handle'.finished = handle.finished := by
  have hstage := h.stages id
  rw [hhandle, Option.map_some, eq_comm, Option.map_eq_some_iff] at hstage
  obtain ⟨handle', hhandle', hstage⟩ := hstage
  simp only [TxnHandle.stage, Prod.mk.injEq] at hstage
  exact ⟨handle', hhandle', hstage⟩

theorem SameRegistry.unfinished {s s' : State} (h : SameRegistry s s') {id : TxnId}
    (hun : s'.Unfinished id) : s.Unfinished id := by
  obtain ⟨handle, hhandle, hfinished⟩ := hun
  obtain ⟨handle', hhandle', -, -, -, hsame⟩ := h.handle hhandle
  exact ⟨handle', hhandle', hsame.trans hfinished⟩

theorem SameRegistry.waiting {s s' : State} (h : SameRegistry s s') {id : TxnId}
    (hwaiting : s'.Waiting id) : s.Waiting id := by
  obtain ⟨handle, hhandle, hfinished, hbackend⟩ := hwaiting
  obtain ⟨handle', hhandle', -, -, hsame, hsame'⟩ := h.handle hhandle
  exact ⟨handle', hhandle', hsame'.trans hfinished, hsame.trans hbackend⟩

theorem SameRegistry.lined {s s' : State} (h : SameRegistry s s') (hs : Lined s) : Lined s' where
  entries id handle hhandle hfinished := by
    obtain ⟨handle', hhandle', hmode, hscope, -, hsame⟩ := h.handle hhandle
    rw [h.scheduler, ← hmode, ← hscope]
    exact hs.entries id handle' hhandle' (hsame.trans hfinished)
  fair := by
    rw [h.scheduler]
    exact hs.fair

theorem SameRegistry.registered {s s' : State} (h : SameRegistry s s') (hs : Registered s) :
    Registered s' where
  once := by
    rw [h.scheduler]
    exact hs.once
  held id := by
    rw [h.scheduler, hs.held id]
    exact ⟨h.symm.unfinished, h.unfinished⟩
  fresh id handle hhandle := by
    obtain ⟨handle', hhandle', -⟩ := h.handle hhandle
    rw [h.nextTxnId]
    exact hs.fresh id handle' hhandle'
  upgrade id handle hhandle hmode := by
    obtain ⟨handle', hhandle', hsame, -, hbackend, -⟩ := h.handle hhandle
    rw [← hbackend]
    exact hs.upgrade id handle' hhandle' (hsame.trans hmode)
  unfinished id handle hhandle hbackend := by
    obtain ⟨handle', hhandle', -, -, hsame, hfinished⟩ := h.handle hhandle
    rw [← hfinished]
    exact hs.unfinished id handle' hhandle' (hsame.trans hbackend)
  started id handle hhandle hbackend hmode := by
    obtain ⟨handle', hhandle', hsame, -, hsame', -⟩ := h.handle hhandle
    rw [h.scheduler]
    exact hs.started id handle' hhandle' (hsame'.trans hbackend) (hsame ▸ hmode)
  lined := h.lined hs.lined

theorem SameRegistry.waits {s s' : State} (h : SameRegistry s s') : Waits s s' where
  later := h.nextTxnId.ge
  waits _ _ := h.waiting
  stays _ _ _ hrunning := by
    rw [h.scheduler]
    exact hrunning
  due _ hwaiting hrunning := ⟨h.waiting hwaiting, h.scheduler ▸ hrunning⟩

variable {α β : Type} {s s' s₀ : State} {p : Prog α} {k : α → Prog β}

theorem SameRegistry.later (h : registryContract.Held s₀ s) (hsame : SameRegistry s s') :
    registryContract.Held s₀ s' :=
  h.trans ⟨trivial, hsame.registered h.invariant, hsame.waits⟩

/-- A program that leaves the registry as it is keeps the contract. -/
theorem kept_of_same (hp : p.Within SameRegistry) (h : registryContract.Held s₀ s) :
    Kept registryContract s₀ p s :=
  hp.kept (fun _ _ hsame _ hs => ⟨trivial, hsame.registered hs, hsame.waits⟩) h

theorem kept_of_quiet (hp : p.Within Quiet) (h : registryContract.Held s₀ s) :
    Kept registryContract s₀ p s :=
  kept_of_same (hp.mono fun _ _ hquiet => hquiet.sameRegistry) h

/-! ### What leaves the registry as it is -/

open Prog

theorem same_record (e : Event) : (record e).Within SameRegistry :=
  within_modify fun _ => .of_eq rfl rfl rfl

theorem same_dispatch (e : Event) : (dispatch e).Within SameRegistry :=
  within_dispatch fun _ => .of_eq rfl rfl rfl

theorem same_dispatchEnd (txnId : TxnId) (edit : TxnObject → TxnObject) (e : Event) :
    (dispatchEnd txnId edit e).Within SameRegistry :=
  within_dispatchEnd txnId .refl (fun _ => .of_eq rfl rfl rfl) (fun _ => .of_eq rfl rfl rfl)
    fun _ => .of_eq rfl rfl rfl

theorem same_abortUpgradeOpen (txnId : TxnId) (notifyRequest : Bool) :
    (abortUpgradeOpen txnId notifyRequest).Within SameRegistry := by
  have hquiet {q : Prog Unit} (hq : q.Within Quiet) : q.Within SameRegistry :=
    hq.mono fun _ _ h => h.sameRegistry
  refine within_bind (within_read .refl) fun s => ?_
  split
  · exact within_pure
  · next open' _ =>
      refine within_bind (within_modify fun _ => .of_eq rfl rfl rfl) fun _ =>
        within_bind (hquiet (quiet_clearUpgradeTxn open')) fun _ =>
          within_bind (hquiet (quiet_resetAbortedUpgradeRequest open')) fun _ => ?_
      split
      · exact within_pure
      · exact within_bind (same_dispatch _) fun _ => within_pure

theorem same_openQueueOf (name : String) : (openQueueOf name).Within SameRegistry := by
  refine within_bind (within_read .refl) fun s => ?_
  split
  · exact within_pure
  · exact within_bind within_choose fun _ => within_pure

theorem same_scanOpens (ids : List RequestId) : (scanOpens ids).Within SameRegistry := by
  induction ids with
  | nil => exact within_pure
  | cons requestId rest ih =>
      refine within_bind (within_read .refl) fun s => ?_
      split
      · exact within_pure
      · refine within_bind (same_openQueueOf _) fun queue =>
          within_bind (within_modify fun _ => .of_eq rfl rfl rfl) fun _ => ?_
        split
        · exact ih
        · exact within_pure

theorem same_nextOpenStep : nextOpenStep.Within SameRegistry := by
  refine within_bind (within_read .refl) fun s => ?_
  split
  · exact same_scanOpens _
  · split
    · exact within_pure
    · split
      · exact within_pure
      · exact same_scanOpens _

theorem same_startDelete (open' : PendingOpen) : (startDelete open').Within SameRegistry := by
  refine within_bind (same_record _) fun _ => within_bind within_choose fun deleted => ?_
  split
  · exact within_bind (within_modify fun _ => .of_eq rfl rfl rfl) fun _ =>
      within_bind (same_dispatch _) fun _ => within_pure
  · exact within_bind (within_modify fun _ => .of_eq rfl rfl rfl) fun _ =>
      within_bind (same_dispatch _) fun _ => within_pure

theorem same_openConnection (open' : PendingOpen) :
    (openConnection open').Within SameRegistry :=
  within_bind (within_modify fun _ => .of_eq rfl rfl rfl) fun _ =>
    within_bind (same_dispatch _) fun _ => within_pure

theorem sameRegistry_releaseUpgrade (open' : PendingOpen) (txnId : TxnId) (s : State) :
    SameRegistry s (s.releaseUpgrade open' txnId) := by
  unfold State.releaseUpgrade
  split <;> exact .of_eq rfl rfl rfl

theorem same_issueOpen (kind : OpenKind) (name : String) (version : UInt64) :
    (issueOpen kind name version).Within SameRegistry := by
  refine within_modify fun s => ?_
  split
  · exact .refl s
  · exact .of_eq rfl rfl rfl

theorem same_close (connId : ConnId) : (close connId).Within SameRegistry :=
  within_modify fun _ => .of_eq rfl rfl rfl

/-! ### A transaction that leaves -/

theorem SameRegistry.forget {s s' : State} (h : SameRegistry s s') (txnId : TxnId) :
    SameRegistry (s.forget txnId) (s'.forget txnId) :=
  ⟨congrArg (·.forget txnId) h.scheduler, h.nextTxnId, h.stages⟩

/-- The registry without a transaction. -/
def State.without (s : State) (txnId : TxnId) : State := (s.setTxn txnId none).forget txnId

theorem txns_without {s : State} {txnId id : TxnId} {handle : TxnHandle}
    (h : (s.without txnId).txns id = some handle) : id ≠ txnId ∧ s.txns id = some handle := by
  by_cases hid : id = txnId
  · subst hid
    simp [State.without, State.forget, State.setTxn] at h
  · exact ⟨hid, by simpa [State.without, State.forget, State.setTxn, hid] using h⟩

theorem txns_without_of_ne {s : State} {txnId id : TxnId} (hid : id ≠ txnId) :
    (s.without txnId).txns id = s.txns id := by
  simp [State.without, State.forget, State.setTxn, hid]

/-- The entries of the other transactions stay. -/
theorem entry_forget {t : TransactionScheduler} {item : TxnQueueItem}
    (h : item ∈ t.pendingQueue ++ t.runningTxns) {txnId : TxnId} (hid : item.id ≠ txnId) :
    item ∈ (t.forget txnId).pendingQueue ++ (t.forget txnId).runningTxns := by
  simp only [TransactionScheduler.forget, ← List.filter_append]
  exact List.mem_filter.mpr ⟨h, decide_eq_true hid⟩

theorem Lined.without {s : State} (hs : Lined s) (txnId : TxnId) : Lined (s.without txnId) where
  entries id handle hhandle hfinished := by
    obtain ⟨hid, hhandle⟩ := txns_without hhandle
    exact entry_forget (hs.entries id handle hhandle hfinished) hid
  fair := hs.fair.sublist List.filter_sublist List.filter_sublist

theorem registered_without {s : State} (hs : Registered s) (txnId : TxnId) :
    Registered (s.without txnId) where
  once := by
    change (held (s.scheduler.forget txnId)).Nodup
    rw [held_forget]
    exact hs.once.filter _
  held id := by
    change id ∈ held (s.scheduler.forget txnId) ↔ _
    rw [held_forget, List.mem_filter, decide_eq_true_eq, hs.held id]
    constructor
    · rintro ⟨⟨handle, hhandle, hfinished⟩, hid⟩
      exact ⟨handle, (txns_without_of_ne hid).trans hhandle, hfinished⟩
    · rintro ⟨handle, hhandle, hfinished⟩
      obtain ⟨hid, hhandle⟩ := txns_without hhandle
      exact ⟨⟨handle, hhandle, hfinished⟩, hid⟩
  fresh id handle hhandle := hs.fresh id handle (txns_without hhandle).2
  upgrade id handle hhandle := hs.upgrade id handle (txns_without hhandle).2
  unfinished id handle hhandle := hs.unfinished id handle (txns_without hhandle).2
  started id handle hhandle hbackend hmode := by
    obtain ⟨hid, hhandle⟩ := txns_without hhandle
    change id ∈ running (s.scheduler.forget txnId)
    rw [running_forget, List.mem_filter, decide_eq_true_eq]
    exact ⟨hs.started id handle hhandle hbackend hmode, hid⟩
  lined := hs.lined.without txnId

theorem waits_without (s : State) (txnId : TxnId) : Waits s (s.without txnId) := by
  have hwaiting {id : TxnId} (h : (s.without txnId).Waiting id) : id ≠ txnId ∧ s.Waiting id := by
    obtain ⟨handle, hhandle, hrest⟩ := h
    obtain ⟨hid, hhandle⟩ := txns_without hhandle
    exact ⟨hid, handle, hhandle, hrest⟩
  have hrunning {id : TxnId} :
      id ∈ running (s.without txnId).scheduler ↔ id ∈ running s.scheduler ∧ id ≠ txnId := by
    change id ∈ running (s.scheduler.forget txnId) ↔ _
    rw [running_forget, List.mem_filter, decide_eq_true_eq]
  refine ⟨le_refl _, fun id _ h => (hwaiting h).2, fun id _ h hin => ?_, fun id h hin => ?_⟩
  · exact hrunning.mpr ⟨hin, (hwaiting h).1⟩
  · exact ⟨(hwaiting h).2, (hrunning.mp hin).1⟩

/-- The state is the same but for a transaction that has left. -/
theorem held_left (h : registryContract.Held s₀ s) {txnId : TxnId}
    (hsame : SameRegistry (s.without txnId) s') : registryContract.Held s₀ s' :=
  SameRegistry.later (h.trans ⟨trivial, registered_without h.invariant txnId,
    waits_without s txnId⟩) hsame

/-! ### Aborts -/

theorem kept_takeAborted {txnId : TxnId} {k : Option TxnHandle → Prog β}
    (h : ∀ s', SameRegistry (s.setTxn txnId none) s' →
      Kept registryContract s₀ (k (s.txns txnId)) s') :
    Kept registryContract s₀ (takeAborted txnId >>= k) s :=
  Safe.bind (Safe.modifyRead trivial (.pure trivial (h _ (.of_eq rfl rfl rfl))))

theorem kept_abortTransaction (txnId : TxnId) (notifyUpgradeOpen : Bool)
    (h : registryContract.Held s₀ s) :
    Kept registryContract s₀ (abortTransaction txnId notifyUpgradeOpen) s := by
  refine kept_takeAborted fun s' hsame => ?_
  cases hhandle : s.txns txnId with
  | none =>
      have hset : s.setTxn txnId none = s := by
        rw [State.setTxn, ← hhandle, Function.update_eq_self]
      rw [hset] at hsame
      exact .pure (hsame.later h)
  | some handle =>
      refine Kept.modify trivial ?_
      refine (kept_of_quiet (quiet_failQueuedRequests txnId .abort)
        (held_left h (hsame.forget txnId))).bind fun _ s₁ h₁ => ?_
      refine (kept_of_same (same_dispatchEnd _ _ _) h₁).bind fun _ s₂ h₂ => ?_
      split
      · exact kept_of_same (same_abortUpgradeOpen txnId notifyUpgradeOpen) h₂
      · exact .pure h₂

theorem kept_abortFailedUpgrade (open' : PendingOpen) (txnId : TxnId)
    (h : registryContract.Held s₀ s) :
    Kept registryContract s₀ (abortFailedUpgrade open' txnId) s := by
  refine (kept_of_quiet (quiet_resetAbortedUpgradeRequest open') h).bind
    fun _ s₁ h₁ => kept_takeAborted fun s₂ hsame => Kept.modify trivial ?_
  have hsame' : SameRegistry (s₁.without txnId)
      (((s₂.forget txnId).removeOpen open'.requestId).editQueue open'.name
        OpenQueue.onOperationFailed) := (hsame.forget txnId).trans (.of_eq rfl rfl rfl)
  refine (kept_of_same (same_dispatchEnd _ _ _) (held_left h₁ hsame')).bind fun _ s₃ h₃ => ?_
  exact (kept_of_same (same_dispatch _) h₃).done

/-! ### A transaction that enters -/

/-- What the scheduler holds was created. -/
theorem Registered.created (hs : Registered s) {item : TxnQueueItem}
    (hitem : item ∈ s.scheduler.pendingQueue ++ s.scheduler.runningTxns) :
    item.id < s.nextTxnId := by
  obtain ⟨handle, hhandle, -⟩ := (hs.held item.id).mp (List.mem_map_of_mem hitem)
  exact hs.fresh item.id handle hhandle

theorem lined_entered (hs : Registered s) {handle : TxnHandle}
    (hid : handle.txnId = s.nextTxnId) : Lined (s.allocTxn.enterTxn handle) where
  entries id h hhandle hfinished := by
    change _ ∈ s.scheduler.pendingQueue ++ [_] ++ s.scheduler.runningTxns
    rw [List.append_assoc]
    apply List.perm_middle.mem_iff.mpr
    by_cases hne : id = handle.txnId
    · subst hne
      rw [show (s.allocTxn.enterTxn handle).txns handle.txnId = some handle from
        Function.update_self ..] at hhandle
      exact Option.some.inj hhandle ▸ List.mem_cons_self
    · have hother : s.txns id = some h := (Function.update_of_ne hne ..).symm.trans hhandle
      exact List.mem_cons_of_mem _ (hs.lined.entries id h hother hfinished)
  fair := by
    refine hs.lined.fair.enqueue (fun p hp => ?_) fun r hr => ?_
    · exact (hs.created (List.mem_append_left _ hp)).trans_eq hid.symm
    · exact (hs.created (List.mem_append_right _ hr)).trans_eq hid.symm

theorem registered_entered (hs : Registered s) (hnext : s.nextTxnId + 1 ≠ 0) {handle : TxnHandle}
    (hid : handle.txnId = s.nextTxnId) (hfinished : handle.finished = false)
    (hbackend : handle.backend = true ↔ handle.mode = .versionChange) :
    Registered (s.allocTxn.enterTxn handle) ∧ Waits s (s.allocTxn.enterTxn handle) := by
  -- the next id is above all that the scheduler holds
  have hnew : s.nextTxnId ∉ held s.scheduler := fun hmem => by
    obtain ⟨handle', hhandle', -⟩ := (hs.held _).mp hmem
    exact absurd (hs.fresh _ handle' hhandle') (lt_irrefl _)
  rw [← hid] at hnew
  have hself : (s.allocTxn.enterTxn handle).txns handle.txnId = some handle :=
    Function.update_self ..
  have hother {id : TxnId} (hne : id ≠ handle.txnId) :
      (s.allocTxn.enterTxn handle).txns id = s.txns id := Function.update_of_ne hne ..
  have hperm := held_enqueue s.scheduler ⟨handle.txnId, handle.mode, handle.scope⟩
  have hwaits {id : TxnId} (hw : (s.allocTxn.enterTxn handle).Waiting id)
      (hne : id ≠ handle.txnId) : s.Waiting id := by
    obtain ⟨h, hh, hrest⟩ := hw
    exact ⟨h, (hother hne).symm.trans hh, hrest⟩
  refine ⟨⟨?_, fun id => ?_, fun id h hh => ?_, fun id h hh hm => ?_, fun id h hh hb => ?_,
    fun id h hh hb hm => ?_, lined_entered hs hid⟩,
      ⟨?_, fun id hlt hw => ?_, fun id hlt hw hin => hin,
    fun id hw hin => ?_⟩⟩
  · exact hperm.nodup_iff.mpr (List.nodup_cons.mpr ⟨hnew, hs.once⟩)
  · change id ∈ held (s.scheduler.enqueue _) ↔ _
    rw [hperm.mem_iff, List.mem_cons, hs.held id, State.Unfinished, State.Unfinished]
    by_cases hne : id = handle.txnId
    · subst hne
      rw [hself]
      simpa using hfinished
    · rw [hother hne]
      exact or_iff_right hne
  · change id < s.nextTxnId + 1
    rw [lt_succ_iff hnext]
    by_cases hne : id = handle.txnId
    · exact (hne.trans hid).le
    · exact (hs.fresh id h ((hother hne).symm.trans hh)).le
  · by_cases hne : id = handle.txnId
    · subst hne
      obtain rfl : handle = h := Option.some.inj (hself.symm.trans hh)
      exact hbackend.mpr hm
    · exact hs.upgrade id h ((hother hne).symm.trans hh) hm
  · by_cases hne : id = handle.txnId
    · subst hne
      obtain rfl : handle = h := Option.some.inj (hself.symm.trans hh)
      exact hfinished
    · exact hs.unfinished id h ((hother hne).symm.trans hh) hb
  · by_cases hne : id = handle.txnId
    · subst hne
      obtain rfl : handle = h := Option.some.inj (hself.symm.trans hh)
      exact absurd (hbackend.mp hb) hm
    · exact hs.started id h ((hother hne).symm.trans hh) hb hm
  · exact ((lt_succ_iff hnext).mpr (le_refl _)).le
  · exact hwaits hw (hid ▸ hlt.ne)
  · have hne : id ≠ handle.txnId := fun hne => hnew (hne ▸ running_subset_held hin)
    exact ⟨hwaits hw hne, hin⟩

/-- An id that was handed out for nothing. -/
theorem registered_skipped (hs : Registered s) (hnext : s.nextTxnId + 1 ≠ 0) :
    Registered s.allocTxn ∧ Waits s s.allocTxn := by
  have hlt : s.nextTxnId < s.nextTxnId + 1 := (lt_succ_iff hnext).mpr (le_refl _)
  exact ⟨⟨hs.once, hs.held, fun id h hh => (hs.fresh id h hh).trans hlt, hs.upgrade,
    hs.unfinished, hs.started, hs.lined.entries, hs.lined.fair⟩,
    ⟨hlt.le, fun _ _ h => h, fun _ _ _ h => h, fun _ h h' => ⟨h, h'⟩⟩⟩

theorem kept_startUpgradeTxn (open' : PendingOpen) (h : registryContract.Held s₀ s) :
    Kept registryContract s₀ (startUpgradeTxn open') s := by
  refine Kept.read (Kept.choose trivial fun begun => ?_)
  split
  · exact .pure h
  · next hnext =>
      split
      · let handle : TxnHandle := ⟨s.nextTxnId, open'.connId, open'.name, .versionChange, [], true,
          false, true, s.taskEpoch, false⟩
        obtain ⟨hin, hlater⟩ := registered_entered h.invariant hnext
          (show handle.txnId = _ from rfl) rfl (iff_of_true rfl rfl)
        have hsame : SameRegistry (s.allocTxn.enterTxn handle)
            (((s.allocTxn.enterTxn handle).registerTxn s.nextTxnId).setResult open'.requestId
              open'.connId ⟨open'.name, false, some s.nextTxnId⟩) := .of_eq rfl rfl rfl
        exact Kept.modify trivial (.pure (hsame.later (h.trans ⟨trivial, hin, hlater⟩)))
      · obtain ⟨hin, hlater⟩ := registered_skipped h.invariant hnext
        exact Kept.modify trivial (.pure (h.trans ⟨trivial, hin, hlater⟩))

theorem kept_createTxn (connId : ConnId) (dbName : String) {mode : TxnMode}
    (hmode : mode ≠ .versionChange) (scope : List StoreId) (h : registryContract.Held s₀ s) :
    Kept registryContract s₀ (createTxn connId dbName mode scope) s := by
  refine Kept.choose trivial fun valid => Kept.modify (k := fun _ => Pure.pure ()) trivial ?_
  split
  · exact .pure h
  · next hnext =>
      split
      · let handle : TxnHandle := ⟨s.nextTxnId, connId, dbName, mode, scope, false,
          false, true, s.taskEpoch, false⟩
        obtain ⟨hin, hlater⟩ := registered_entered h.invariant hnext
          (show handle.txnId = _ from rfl) rfl (iff_of_false nofun hmode)
        have hsame : SameRegistry (s.allocTxn.enterTxn handle)
            ((s.allocTxn.enterTxn handle).registerTxn s.nextTxnId) := .of_eq rfl rfl rfl
        exact .pure (hsame.later (h.trans ⟨trivial, hin, hlater⟩))
      · obtain ⟨hin, hlater⟩ := registered_skipped h.invariant hnext
        exact .pure (h.trans ⟨trivial, hin, hlater⟩)

theorem kept_transaction (connId : ConnId) (write : Bool) (scope : List StoreId)
    (h : registryContract.Held s₀ s) :
    Kept registryContract s₀ (transaction connId write scope) s := by
  refine Kept.read ?_
  split
  · exact .pure h
  · next db _ =>
      split
      · exact .pure h
      · refine Kept.callOut h fun reply s₁ h₁ => ?_
        split
        · exact .pure h₁
        · refine Kept.read ?_
          split
          · exact .pure h₁
          · refine kept_createTxn connId db.name ?_ scope h₁
            cases write <;> nofun

/-! ### The opens -/

theorem kept_startUpgrade (open' : PendingOpen) (oldVersion newVersion : UInt64)
    (h : registryContract.Held s₀ s) :
    Kept registryContract s₀ (startUpgrade open' oldVersion newVersion) s := by
  refine (kept_of_same (same_record _) h).bind fun _ s₁ h₁ =>
    (kept_startUpgradeTxn open' h₁).bind fun started s₂ h₂ => ?_
  cases started with
  | none =>
      refine kept_of_same ?_ h₂
      exact within_bind (within_modify fun _ => .of_eq rfl rfl rfl) fun _ =>
        within_bind (same_dispatch _) fun _ => within_pure
  | some txnId =>
      have hsame : SameRegistry s₂ (s₂.editOpen open'.requestId
        (.activate txnId (oldVersion, newVersion))) := .of_eq rfl rfl rfl
      refine Kept.modify trivial (Kept.read ?_)
      refine (kept_of_same (same_dispatch _) (hsame.later h₂)).bind fun reply s₃ h₃ => ?_
      split
      · split
        · exact .pure h₃
        · exact kept_abortFailedUpgrade _ _ h₃
      · exact .pure h₃

theorem kept_commitUpgrade {open' : PendingOpen} {txnId : TxnId} {handle : Option TxnHandle}
    {k : Unit → Prog β} (h : ∀ s', SameRegistry s s' → Kept registryContract s₀ (k ()) s') :
    Kept registryContract s₀ (commitUpgrade open' txnId handle >>= k) s := by
  refine Safe.bind ?_
  unfold commitUpgrade
  split
  · exact Safe.choose trivial fun ok => ⟨trivial, trivial, h _ (.of_eq rfl rfl rfl)⟩
  · exact .pure trivial (h s (.refl s))

theorem kept_finishUpgrade (open' : PendingOpen) (txnId : TxnId)
    (h : registryContract.Held s₀ s) :
    Kept registryContract s₀ (finishUpgrade open' txnId) s := by
  refine Kept.modifyRead trivial (kept_commitUpgrade fun s₁ hsame => Kept.modify trivial ?_)
  have hremoved : SameRegistry (s₁.forget txnId)
      ((s₁.forget txnId).removeOpen open'.requestId) := .of_eq rfl rfl rfl
  have hforgotten := ((hsame.forget txnId).trans hremoved).trans
    (sameRegistry_releaseUpgrade open' txnId _)
  refine (kept_of_same (same_dispatchEnd _ _ _) (held_left h hforgotten)).bind fun _ s₂ h₂ => ?_
  refine (kept_of_quiet (quiet_clearUpgradeTxn open') h₂).bind fun _ s₃ h₃ => kept_of_same ?_ h₃
  split
  · exact within_bind (within_modify fun _ => .of_eq rfl rfl rfl) fun _ =>
      within_bind (same_dispatch _) fun _ => within_pure
  · exact within_bind (same_dispatch _) fun _ => within_pure

theorem kept_perform (step : OpenStep) (h : registryContract.Held s₀ s) :
    Kept registryContract s₀ (perform step) s := by
  cases step with
  | fireBlocked open' =>
      exact kept_of_same (within_bind (same_dispatch _) fun _ => within_pure) h
  | openConnection open' version => exact kept_of_same (same_openConnection open') h
  | failOpen open' error =>
      refine kept_of_same ?_ h
      exact within_bind (within_modify fun _ => .of_eq rfl rfl rfl) fun _ =>
        within_bind (same_dispatch _) fun _ => within_pure
  | startUpgrade open' old new => exact kept_startUpgrade open' old new h
  | startDelete open' => exact kept_of_same (same_startDelete open') h
  | finishUpgrade open' txnId => exact kept_finishUpgrade open' txnId h

/-! ### Starting transactions -/

/-- While the transactions that were released are started: those that are due are among the ones
that are left. -/
structure Starting (rest : List TxnId) (s : State) : Prop where
  registered : Registered s
  nodup : rest.Nodup
  due : ∀ id, s.Waiting id → id ∈ running s.scheduler → id ∈ rest
  released : ∀ id ∈ rest, id < s.nextTxnId ∧ (s.Waiting id → id ∈ running s.scheduler)

/-- Handlers leave the released ones in their places. -/
theorem Starting.later {rest : List TxnId} {s' : State} (h : Starting rest s)
    (hs' : Registered s') (hwaits : Waits s s') : Starting rest s' where
  registered := hs'
  nodup := h.nodup
  due id hwaiting hin := by
    obtain ⟨hwaiting', hin'⟩ := hwaits.due id hwaiting hin
    exact h.due id hwaiting' hin'
  released id hid := by
    obtain ⟨hlt, hin⟩ := h.released id hid
    exact ⟨hlt.trans_le hwaits.later, fun hwaiting =>
      hwaits.stays id hlt hwaiting (hin (hwaits.waits id hlt hwaiting))⟩

/-- One that waits no more is done with. -/
theorem Starting.tail {txnId : TxnId} {rest : List TxnId} (h : Starting (txnId :: rest) s)
    (hdone : ¬s.Waiting txnId) : Starting rest s where
  registered := h.registered
  nodup := (List.nodup_cons.mp h.nodup).2
  due id hwaiting hin := by
    rcases List.mem_cons.mp (h.due id hwaiting hin) with rfl | hid
    · exact absurd hwaiting hdone
    · exact hid
  released id hid := h.released id (List.mem_cons_of_mem _ hid)

theorem waiting_iff (s : State) (id : TxnId) :
    ((s.txns id).any fun t => !t.finished && !t.backend) = true ↔ s.Waiting id := by
  simp [State.Waiting, Option.any_eq_true]

theorem txns_editTxn_of_ne {txnId id : TxnId} {edit : TxnHandle → TxnHandle} (h : id ≠ txnId) :
    (s.editTxn txnId edit).txns id = s.txns id := by
  simp [State.editTxn, h]

/-- A handle behind a change: the one that was changed, or another one. -/
theorem txns_editTxn {txnId id : TxnId} {edit : TxnHandle → TxnHandle} {handle : TxnHandle}
    (h : (s.editTxn txnId edit).txns id = some handle) :
    (id = txnId ∧ ∃ handle', s.txns txnId = some handle' ∧ edit handle' = handle) ∨
      (id ≠ txnId ∧ s.txns id = some handle) := by
  by_cases hid : id = txnId
  · subst hid
    exact .inl ⟨rfl, by simpa [State.editTxn] using h⟩
  · exact .inr ⟨hid, (txns_editTxn_of_ne hid).symm.trans h⟩

/-- Behind a change that ends the waiting only the others wait. -/
theorem waiting_editTxn {txnId id : TxnId} {edit : TxnHandle → TxnHandle}
    (hedit : ∀ handle, (edit handle).finished = true ∨ (edit handle).backend = true)
    (h : (s.editTxn txnId edit).Waiting id) : id ≠ txnId ∧ s.Waiting id := by
  obtain ⟨handle, hhandle, hfinished, hbackend⟩ := h
  rcases txns_editTxn hhandle with ⟨-, handle', -, rfl⟩ | ⟨hid, hhandle⟩
  · rcases hedit handle' with hedit | hedit
    · exact absurd (hedit.symm.trans hfinished) nofun
    · exact absurd (hedit.symm.trans hbackend) nofun
  · exact ⟨hid, handle, hhandle, hfinished, hbackend⟩

/-- A change that leaves no transaction to wait, but each with its entry. -/
theorem Lined.edited {txnId : TxnId} {edit : TxnHandle → TxnHandle} (hs : Lined s)
    (hedit : ∀ handle, ((edit handle).mode, (edit handle).scope) = (handle.mode, handle.scope))
    (hfinished : ∀ handle, (edit handle).finished = false → handle.finished = false) :
    Lined (s.editTxn txnId edit) where
  entries id handle hhandle hun := by
    rcases txns_editTxn hhandle with ⟨rfl, handle', hhandle', rfl⟩ | ⟨-, hhandle⟩
    · obtain ⟨hmode, hscope⟩ := Prod.mk.inj (hedit handle')
      rw [hmode, hscope]
      exact hs.entries id handle' hhandle' (hfinished handle' hun)
    · exact hs.entries id handle hhandle hun
  fair := hs.fair

/-- A finished transaction has no entry. -/
theorem Lined.failed (hs : Lined s) (txnId : TxnId) : Lined (s.failStart txnId) where
  entries id handle hhandle hfinished := by
    rcases txns_editTxn hhandle with ⟨-, handle', -, rfl⟩ | ⟨hid, hhandle⟩
    · cases hfinished
    · exact entry_forget (hs.entries id handle hhandle hfinished) hid
  fair := hs.fair.sublist List.filter_sublist List.filter_sublist

/-- The scheduler moves its entries between its lists. -/
theorem Lined.moved (hs : Lined s) {t : TransactionScheduler}
    (hperm : (t.pendingQueue ++ t.runningTxns).Perm
      (s.scheduler.pendingQueue ++ s.scheduler.runningTxns))
    (hfair : FairQueue.Fair Conflict Earlier t.pendingQueue t.runningTxns) :
    Lined { s with scheduler := t } where
  entries id handle hhandle hfinished :=
    hperm.mem_iff.mpr (hs.entries id handle hhandle hfinished)
  fair := hfair

theorem Lined.requeued (hs : Lined s) (txnId : TxnId) :
    Lined { s with scheduler := s.scheduler.requeueUnstarted txnId } := by
  rcases requeueUnstarted_cases s.scheduler txnId with
    hsame | ⟨item, left, right, -, hrunning, hmoved⟩
  · rw [hsame]
    exact hs
  · rw [hmoved]
    have hfair := hs.fair
    rw [hrunning] at hfair
    refine hs.moved ?_ (hfair.requeue conflict_symm)
    rw [hrunning]
    exact FairQueue.perm_requeue s.scheduler.pendingQueue left right item

theorem Lined.polled (hs : Lined s) : Lined { s with scheduler := s.scheduler.pollReady.1 } := by
  obtain ⟨started, -, hpolls⟩ := polls_pollFrom
    (fun a b (hab : Earlier a b) => lt_asymm hab) [] s.scheduler.pendingQueue
    s.scheduler.runningTxns [] hs.fair
  exact hs.moved hpolls.perm hpolls.fair

/-- The backend is there. -/
theorem Starting.begun {txnId : TxnId} {rest : List TxnId} (h : Starting (txnId :: rest) s)
    (hwaiting : s.Waiting txnId) :
    Starting rest (s.editTxn txnId fun handle => { handle with backend := true }) := by
  have hstill {id : TxnId} (hw : (s.editTxn txnId fun handle =>
      { handle with backend := true }).Waiting id) : id ≠ txnId ∧ s.Waiting id :=
    waiting_editTxn (fun _ => .inr rfl) hw
  have hs := h.registered
  have hregistered :
      Registered (s.editTxn txnId fun handle => { handle with backend := true }) := by
    refine ⟨hs.once, fun id => (hs.held id).trans ⟨?_, ?_⟩, fun id handle hhandle => ?_,
      fun id handle hhandle hmode => ?_, fun id handle hhandle hbackend => ?_,
      fun id handle hhandle hbackend hmode => ?_, hs.lined.edited (fun _ => rfl) fun _ h => h⟩
    · rintro ⟨handle, hhandle, hfinished⟩
      by_cases hid : id = txnId
      · subst hid
        exact ⟨{ handle with backend := true }, by simp [State.editTxn, hhandle], hfinished⟩
      · exact ⟨handle, (txns_editTxn_of_ne hid).trans hhandle, hfinished⟩
    · rintro ⟨handle, hhandle, hfinished⟩
      rcases txns_editTxn hhandle with ⟨rfl, handle', hhandle', rfl⟩ | ⟨-, hhandle⟩
      · exact ⟨handle', hhandle', hfinished⟩
      · exact ⟨handle, hhandle, hfinished⟩
    · rcases txns_editTxn hhandle with ⟨rfl, handle', hhandle', -⟩ | ⟨-, hhandle⟩
      · exact hs.fresh id handle' hhandle'
      · exact hs.fresh id handle hhandle
    · rcases txns_editTxn hhandle with ⟨-, handle', -, rfl⟩ | ⟨-, hhandle⟩
      · rfl
      · exact hs.upgrade id handle hhandle hmode
    · rcases txns_editTxn hhandle with ⟨-, handle', hhandle', rfl⟩ | ⟨-, hhandle⟩
      · obtain ⟨handle₀, hhandle₀, hfinished₀, -⟩ := hwaiting
        obtain rfl := Option.some.inj (hhandle₀.symm.trans hhandle')
        exact hfinished₀
      · exact hs.unfinished id handle hhandle hbackend
    · rcases txns_editTxn hhandle with ⟨rfl, -⟩ | ⟨-, hhandle⟩
      · exact (h.released id List.mem_cons_self).2 hwaiting
      · exact hs.started id handle hhandle hbackend hmode
  exact (h.later hregistered ⟨le_refl _, fun _ _ hw => (hstill hw).2, fun _ _ _ hin => hin,
    fun _ hw hin => ⟨(hstill hw).2, hin⟩⟩).tail fun hw => (hstill hw).1 rfl

/-- A transaction whose backend does not start. -/
theorem Starting.failed {txnId : TxnId} {rest : List TxnId} (h : Starting (txnId :: rest) s)
    (hwaiting : s.Waiting txnId) : Starting rest (s.failStart txnId) := by
  have hstill {id : TxnId} (hw : (s.failStart txnId).Waiting id) : id ≠ txnId ∧ s.Waiting id :=
    waiting_editTxn (fun _ => .inl rfl) hw
  have hs := h.registered
  -- the handle is finished in place, and the scheduler forgets its item
  have hregistered : Registered (s.failStart txnId) := by
    refine ⟨?_, fun id => ?_, fun id handle hhandle => ?_,
      fun id handle hhandle hmode => ?_, fun id handle hhandle hbackend => ?_,
      fun id handle hhandle hbackend hmode => ?_, hs.lined.failed txnId⟩
    · change (held (s.scheduler.forget txnId)).Nodup
      rw [held_forget]
      exact hs.once.filter _
    · change id ∈ held (s.scheduler.forget txnId) ↔ _
      rw [held_forget, List.mem_filter, decide_eq_true_eq, hs.held id]
      constructor
      · rintro ⟨⟨handle, hhandle, hfinished⟩, hid⟩
        exact ⟨handle, (txns_editTxn_of_ne hid).trans hhandle, hfinished⟩
      · rintro ⟨handle, hhandle, hfinished⟩
        rcases txns_editTxn hhandle with ⟨-, handle', -, rfl⟩ | ⟨hid, hhandle⟩
        · cases hfinished
        · exact ⟨⟨handle, hhandle, hfinished⟩, hid⟩
    · rcases txns_editTxn hhandle with ⟨rfl, handle', hhandle', -⟩ | ⟨-, hhandle⟩
      · exact hs.fresh id handle' hhandle'
      · exact hs.fresh id handle hhandle
    · rcases txns_editTxn hhandle with ⟨-, handle', hhandle', rfl⟩ | ⟨-, hhandle⟩
      · exact hs.upgrade txnId handle' hhandle' hmode
      · exact hs.upgrade id handle hhandle hmode
    · rcases txns_editTxn hhandle with ⟨-, handle', hhandle', rfl⟩ | ⟨-, hhandle⟩
      · obtain ⟨handle₀, hhandle₀, -, hbackend₀⟩ := hwaiting
        obtain rfl := Option.some.inj (hhandle₀.symm.trans hhandle')
        exact absurd (hbackend₀.symm.trans hbackend) nofun
      · exact hs.unfinished id handle hhandle hbackend
    · rcases txns_editTxn hhandle with ⟨-, handle', hhandle', rfl⟩ | ⟨hid, hhandle⟩
      · obtain ⟨handle₀, hhandle₀, -, hbackend₀⟩ := hwaiting
        obtain rfl := Option.some.inj (hhandle₀.symm.trans hhandle')
        exact absurd (hbackend₀.symm.trans hbackend) nofun
      · change id ∈ running (s.scheduler.forget txnId)
        rw [running_forget, List.mem_filter, decide_eq_true_eq]
        exact ⟨hs.started id handle hhandle hbackend hmode, hid⟩
  have hrunning {id : TxnId} (hid : id ≠ txnId) :
      id ∈ running (s.failStart txnId).scheduler ↔ id ∈ running s.scheduler := by
    change id ∈ running (s.scheduler.forget txnId) ↔ _
    rw [running_forget, List.mem_filter, decide_eq_true_eq]
    exact and_iff_left hid
  exact (h.later hregistered ⟨le_refl _, fun _ _ hw => (hstill hw).2,
    fun _ _ hw hin => (hrunning (hstill hw).1).mpr hin,
    fun _ hw hin => ⟨(hstill hw).2, (hrunning (hstill hw).1).mp hin⟩⟩).tail
      fun hw => (hstill hw).1 rfl

/-- The writer slot is taken: the transaction goes back to the pending ones. -/
theorem Starting.requeued {txnId : TxnId} {rest : List TxnId} (h : Starting (txnId :: rest) s)
    (hwaiting : s.Waiting txnId) :
    Starting rest { s with scheduler := s.scheduler.requeueUnstarted txnId } := by
  have hs := h.registered
  obtain ⟨hheld, hrunning⟩ :=
    requeueUnstarted_moves ((h.released txnId List.mem_cons_self).2 hwaiting)
  have hout {id : TxnId} (hid : id ≠ txnId) :
      id ∈ running (s.scheduler.requeueUnstarted txnId) ↔ id ∈ running s.scheduler := by
    rw [hrunning.mem_iff, List.mem_cons]
    exact (or_iff_right hid).symm
  have hgone : txnId ∉ running (s.scheduler.requeueUnstarted txnId) := by
    have hnodup : (running s.scheduler).Nodup :=
      hs.once.sublist ((List.sublist_append_right _ _).map _)
    exact (List.nodup_cons.mp (hrunning.nodup_iff.mp hnodup)).1
  refine ⟨⟨hheld.nodup_iff.mpr hs.once, fun id => hheld.mem_iff.trans (hs.held id), hs.fresh,
    hs.upgrade, hs.unfinished, fun id handle hhandle hbackend hmode => ?_,
    hs.lined.requeued txnId⟩, (List.nodup_cons.mp h.nodup).2, fun id hw hin => ?_, fun id hid => ?_⟩
  · have hid : id ≠ txnId := by
      rintro rfl
      obtain ⟨handle', hhandle', -, hbackend'⟩ := hwaiting
      obtain rfl := Option.some.inj (hhandle.symm.trans hhandle')
      exact Bool.false_ne_true (hbackend'.symm.trans hbackend)
    exact (hout hid).mpr (hs.started id handle hhandle hbackend hmode)
  · have hid : id ≠ txnId := fun hid => hgone (hid ▸ hin)
    exact (List.mem_cons.mp (h.due id hw ((hout hid).mp hin))).resolve_left hid
  · have hne : id ≠ txnId := fun hne => (List.nodup_cons.mp h.nodup).1 (hne ▸ hid)
    obtain ⟨hlt, hin⟩ := h.released id (List.mem_cons_of_mem _ hid)
    exact ⟨hlt, fun hw => (hout hne).mpr (hin hw)⟩

/-- One released transaction is looked at. -/
theorem safe_startReady {txnId : TxnId} {rest : List TxnId} (h : Starting (txnId :: rest) s) :
    Safe registryContract (startReady txnId) (fun _ => Starting rest) s := by
  refine Safe.read ?_
  split
  · next hany =>
      have hwaiting := (waiting_iff s txnId).mp hany
      refine Safe.choose trivial fun answer => ?_
      cases answer with
      | ok => exact Safe.modify trivial (.pure trivial (h.begun hwaiting))
      | locked => exact Safe.modify trivial (.pure trivial (h.requeued hwaiting))
      | failed =>
          have hfailed := h.failed hwaiting
          refine Safe.modify trivial ?_
          exact Safe.seq (kept_of_quiet (quiet_failQueuedRequests txnId _)
            (.refl trivial hfailed.registered))
            fun _ s' _ hs' => .pure trivial (hfailed.later hs'.1 hs'.2)
  · next hany =>
      exact .pure trivial (h.tail fun hwaiting => hany ((waiting_iff s txnId).mpr hwaiting))

theorem safe_startAll (rest : List TxnId) (h : Starting rest s) :
    Safe registryContract (startAll rest) (fun _ => Starting []) s := by
  induction rest generalizing s with
  | nil => exact ⟨trivial, h⟩
  | cons txnId rest ih =>
      refine Safe.seq (safe_startReady h) fun started s' _ hs' => ?_
      exact Safe.seq (ih hs') fun others s'' _ hs'' => .pure trivial hs''

theorem Starting.allStarted (h : Starting [] s) : AllStarted s :=
  fun id hwaiting hin => List.not_mem_nil (h.due id hwaiting hin)

/-- Each pass leaves all of what it released started. -/
theorem safe_startReadyTxns (hs : Registered s) (hall : AllStarted s) :
    Safe registryContract startReadyTxns (fun _ s' => Registered s' ∧ AllStarted s') s := by
  obtain ⟨hheld, hrunning⟩ := pollReady_releases s.scheduler
  refine Safe.modifyRead trivial ?_
  have hnodup : (running s.scheduler ++ s.scheduler.pollReady.2).Nodup := by
    rw [← hrunning]
    exact (hheld.nodup_iff.mpr hs.once).sublist ((List.sublist_append_right _ _).map _)
  have hunfinished {id : TxnId} (hid : id ∈ s.scheduler.pollReady.2) : s.Unfinished id := by
    rw [← hs.held id, ← hheld.mem_iff]
    apply running_subset_held
    rw [hrunning]
    exact List.mem_append_right _ hid
  have hstarting : Starting s.scheduler.pollReady.2
      { s with scheduler := s.scheduler.pollReady.1 } := by
    refine ⟨⟨hheld.nodup_iff.mpr hs.once, fun id => hheld.mem_iff.trans (hs.held id), hs.fresh,
      hs.upgrade, hs.unfinished, fun id handle hhandle hbackend hmode => ?_, hs.lined.polled⟩,
      (List.nodup_append.mp hnodup).2.1, fun id hwaiting hin => ?_, fun id hid => ⟨?_, fun _ => ?_⟩⟩
    · change id ∈ running s.scheduler.pollReady.1
      rw [hrunning]
      exact List.mem_append_left _ (hs.started id handle hhandle hbackend hmode)
    · change id ∈ running s.scheduler.pollReady.1 at hin
      rw [hrunning] at hin
      exact (List.mem_append.mp hin).resolve_left (hall id hwaiting)
    · obtain ⟨handle, hhandle, -⟩ := hunfinished hid
      exact hs.fresh id handle hhandle
    · change id ∈ running s.scheduler.pollReady.1
      rw [hrunning]
      exact List.mem_append_right _ hid
  exact (safe_startAll _ hstarting).mono fun _ s' _ hs' => ⟨hs'.registered, hs'.allStarted⟩

/-! ### Requests -/

theorem kept_completeRequest (txnId : TxnId) (requestId : RequestId)
    (h : registryContract.Held s₀ s) :
    Kept registryContract s₀ (completeRequest txnId requestId) s := by
  refine (kept_of_quiet (quiet_refreshTxnEpoch txnId) h).bind fun _ s₁ h₁ =>
    (kept_of_same (same_dispatch _) h₁).bind fun reply s₂ h₂ => ?_
  split
  · exact kept_abortTransaction txnId true h₂
  · exact .pure h₂

theorem kept_execute (txnId : TxnId) (requestId : RequestId) (op : PendingOp)
    (h : registryContract.Held s₀ s) :
    Kept registryContract s₀ (execute txnId requestId op) s := by
  have hcursor {f : State → State} {s₁ : State} (hf : SameRegistry s₁ (f s₁))
      (h₁ : registryContract.Held s₀ s₁) : Kept registryContract s₀
        (Prog.modify f >>= fun _ => completeRequest txnId requestId) s₁ :=
    Kept.modify trivial (kept_completeRequest txnId requestId (hf.later h₁))
  refine (kept_of_quiet (quiet_executeOp txnId requestId op) h).bind fun result s₁ h₁ => ?_
  split
  · exact (kept_of_quiet (quiet_applyOutcome txnId requestId) h₁).bind fun _ s₂ h₂ =>
      hcursor (quiet_releaseCursor op s₂).sameRegistry h₂
  · exact kept_completeRequest txnId requestId h₁
  · exact hcursor (.of_eq rfl rfl rfl) h₁
  · refine (kept_of_quiet (quiet_failOp _ _ _) h₁).bind fun prevented s₂ h₂ => ?_
    split
    · exact kept_abortTransaction txnId false h₂
    · exact .pure h₂

theorem kept_processTxnRequests (served : List TxnId) (h : registryContract.Held s₀ s) :
    Kept registryContract s₀ (processTxnRequests served) s := by
  refine Kept.choose trivial fun order => Kept.modifyRead trivial ?_
  have h₁ := (quiet_dequeue (queueKeys order s) served s).sameRegistry.later h
  dsimp only
  split
  · exact .pure h₁
  · exact (kept_of_quiet (quiet_failQueuedRequests _ _) h₁).done
  · exact (kept_execute _ _ _ h₁).done

/-! ### Ends of transactions -/

theorem kept_finishTxns (h : registryContract.Held s₀ s) :
    Kept registryContract s₀ finishTxns s := by
  refine Kept.read ?_
  split
  · exact .pure h
  · next txnId _ =>
      refine Kept.modify trivial (Kept.choose trivial fun ok =>
        Kept.modify trivial (Kept.modify trivial ?_))
      have hsame : SameRegistry (s.without txnId) (State.forget txnId
        { s.setTxn txnId none with trace := s.trace ++ [.commit txnId none ok] }) :=
          .of_eq rfl rfl rfl
      exact (kept_of_same (same_dispatchEnd _ _ _) (held_left h hsame)).done

/-! ### Methods -/

theorem kept_abort (txnId : TxnId) (h : registryContract.Held s₀ s) :
    Kept registryContract s₀ (abort txnId) s := by
  refine Kept.read ?_
  split
  · have hsame : SameRegistry s { s with
      txnObjects := Function.update s.txnObjects txnId
        ((s.txnObjects txnId).map TxnObject.over) } := .of_eq rfl rfl rfl
    exact Kept.modify trivial (kept_abortTransaction txnId true (hsame.later h))
  · exact .pure h

/-! ### Runs -/

/-- Every procedure but the start of transactions keeps the contract. -/
theorem kept_body (proc : Proc) (hstart : proc ≠ .startReadyTxns)
    (h : registryContract.Held s₀ s) : Kept registryContract s₀ (body proc) s := by
  cases proc with
  | startReadyTxns => exact absurd rfl hstart
  | processOpens =>
      refine (kept_of_same same_nextOpenStep h).bind fun step s₁ h₁ => ?_
      split
      · exact .pure h₁
      · exact (kept_perform _ h₁).done
  | processDeferredOpenErrors => exact (kept_of_quiet quiet_processDeferredOpenErrors h).done
  | processTxnRequests served =>
      refine (kept_processTxnRequests served h).bind fun served' s₁ h₁ => ?_
      split
      · exact .pure h₁
      · exact .pure h₁
  | runJobs =>
      refine Kept.read ?_
      split
      · exact .pure h
      · exact Kept.callOut h fun _ _ h₁ => .pure h₁
  | deactivateIdleTxns =>
      exact Kept.modify trivial (.pure ((quiet_deactivateIdleTxns s).sameRegistry.later h))
  | finishTxns => exact (kept_finishTxns h).bind fun _ _ h₁ => .pure h₁
  | endOfTask => exact Kept.modify trivial (.pure ((quiet_endOfTask s).sameRegistry.later h))
  | noteTimerTask =>
      have hsame : SameRegistry s { s with taskEpoch := s.taskEpoch + 1 } := .of_eq rfl rfl rfl
      exact Kept.modify trivial (.pure (hsame.later h))
  | issueOpen kind name version => exact (kept_of_same (same_issueOpen _ _ _) h).done
  | storeRequest txnId opensCursor => exact (kept_of_quiet (quiet_storeRequest _ _) h).done
  | transaction connId write scope => exact (kept_transaction connId write scope h).done
  | close connId => exact (kept_of_same (same_close connId) h).done
  | navigate cursorId => exact (kept_of_quiet (quiet_navigate cursorId) h).done
  | cursorWrite cursorId => exact (kept_of_quiet (quiet_cursorWrite cursorId) h).done
  | commit txnId => exact (kept_of_quiet (quiet_commit txnId) h).done
  | abort txnId => exact (kept_abort txnId h).done

theorem registered_new (versions : String → UInt64) (autoPump : Bool) :
    Registered (State.new versions autoPump) where
  once := List.nodup_nil
  held _ := ⟨nofun, fun ⟨_, hhandle, _⟩ => nomatch hhandle⟩
  fresh _ _ hhandle := nomatch hhandle
  upgrade _ _ hhandle := nomatch hhandle
  unfinished _ _ hhandle := nomatch hhandle
  started _ _ hhandle := nomatch hhandle
  lined := ⟨nofun, FairQueue.fair_nil⟩

theorem registry_keeps :
    Keeps driver registryContract AllStarted fun _ s => Registered s ∧ AllStarted s where
  rest_later _ _ hall hwaits := hwaits.allStarted hall
  main _ _ _ hs hall := ⟨hs, hall⟩
  api proc s hproc _ hs := by
    have hkept : Kept registryContract s (body proc) s := by
      apply kept_body proc _ (.refl trivial hs)
      rintro rfl
      exact absurd hproc nofun
    obtain ⟨p, hp⟩ := body_method hproc
    change Safe registryContract (body proc) _ s
    rw [hp] at hkept ⊢
    exact Safe.returns hkept
  phase proc s _ hpre := by
    obtain ⟨hs, hall⟩ := hpre
    by_cases hstart : proc = .startReadyTxns
    · subst hstart
      refine Safe.seq (safe_startReadyTxns hs hall) fun started s' _ hs' => .pure trivial ?_
      cases started <;> exact hs'
    · refine (kept_body proc hstart (.refl trivial hs)).mono fun o s' _ hs' => ?_
      have hends := And.intro hs'.1 (hs'.2.allStarted hall)
      cases o <;> exact hends

/-- **The driver and its scheduler stay in step.** At the end of every phase, whatever was called
from outside and from handlers and whatever backends answered, the scheduler holds exactly the
unfinished transactions, each once, and those with a backend are the ones it lets run. -/
theorem scheduler_in_step (versions : String → UInt64) (autoPump : Bool)
    {c : Config State Reply Proc} (h : Reaches driver (State.new versions autoPump) c)
    (hend : c.AtEnd) : InStep c.state := by
  have hgood := registry_keeps.reaches trivial (registered_new versions autoPump)
    (fun _ hwaiting => nomatch hwaiting) h
  rcases hgood.ended hend with ⟨hs, hall⟩ | ⟨_, hs, hall⟩
  · exact hs.inStep hall
  · exact hs.inStep hall

/-- At the end of a turn, with one transaction running and one aborted. -/
theorem scheduler_in_step_session : ∃ c, Reaches driver (State.new (fun _ => 0) true) c ∧
    (∃ handle, c.state.txns 2 = some handle ∧ handle.mode = .readWrite ∧
      handle.finished = false ∧ handle.backend = true) ∧
    c.state.txns 1 = none ∧ InStep c.state := by
  obtain ⟨w⟩ := session
  obtain ⟨-, haborted, hheld⟩ := w.ended_handles
  exact ⟨_, w.reaches_ended, ⟨_, hheld, rfl, rfl, rfl⟩, haborted,
    scheduler_in_step _ _ w.reaches_ended (.inl rfl)⟩

/-! ### Isolation -/

/-- Transactions that have their backends do not conflict, upgrades apart; and while an upgrade is
unfinished none that was created behind it has one, upgrades of other databases apart. -/
structure Isolated (s : State) : Prop where
  apart : ∀ a b handle handle', a ≠ b → s.txns a = some handle → s.txns b = some handle' →
    handle.backend = true → handle'.backend = true → handle.mode ≠ .versionChange →
    handle'.mode ≠ .versionChange →
    ¬Conflict ⟨a, handle.mode, handle.scope⟩ ⟨b, handle'.mode, handle'.scope⟩
  behind : ∀ a b handle handle', s.txns a = some handle → s.txns b = some handle' →
    handle.backend = true → handle.mode ≠ .versionChange → handle'.finished = false →
    handle'.mode = .versionChange → a < b

/-- A transaction with a backend is in the running list as itself. -/
theorem Registered.runs (hs : Registered s) {id : TxnId} {handle : TxnHandle}
    (hhandle : s.txns id = some handle) (hbackend : handle.backend = true)
    (hmode : handle.mode ≠ .versionChange) :
    ⟨id, handle.mode, handle.scope⟩ ∈ s.scheduler.runningTxns := by
  obtain ⟨item, hitem, hid⟩ := List.mem_map.mp (hs.started id handle hhandle hbackend hmode)
  have hentry := hs.lined.entries id handle hhandle (hs.unfinished id handle hhandle hbackend)
  have hsame := List.inj_on_of_nodup_map hs.once (List.mem_append_right _ hitem) hentry hid
  exact hsame ▸ hitem

/-- No two entries in the running list conflict. -/
theorem Lined.apart (hs : Lined s) {a b : TxnQueueItem} (ha : a ∈ s.scheduler.runningTxns)
    (hb : b ∈ s.scheduler.runningTxns) (hne : a ≠ b) : ¬Conflict a b := by
  have : Std.Symm fun a b => ¬Conflict a b := ⟨fun a b h hc => h (conflict_symm b a hc)⟩
  exact hs.fair.apart.forall ha hb hne

theorem Registered.isolated (hs : Registered s) : Isolated s where
  apart a b handle handle' hne hhandle hhandle' hbackend hbackend' hmode hmode' hconflict := by
    have ha := hs.runs hhandle hbackend hmode
    have hb := hs.runs hhandle' hbackend' hmode'
    exact hs.lined.apart ha hb (fun heq => hne (congrArg TxnQueueItem.id heq)) hconflict
  behind a b handle handle' hhandle hhandle' hbackend hmode hfinished hupgrade := by
    have ha := hs.runs hhandle hbackend hmode
    have hb := hs.lined.entries b handle' hhandle' hfinished
    have hconflict : Conflict ⟨a, handle.mode, handle.scope⟩ ⟨b, handle'.mode, handle'.scope⟩ :=
      .inr (.inl hupgrade)
    rcases List.mem_append.mp hb with hb | hb
    · exact hs.lined.fair.ahead _ ha _ hb hconflict
    · have hne : (⟨a, handle.mode, handle.scope⟩ : TxnQueueItem) ≠
          ⟨b, handle'.mode, handle'.scope⟩ := fun heq =>
        hmode ((congrArg TxnQueueItem.mode heq).trans hupgrade)
      exact absurd hconflict (hs.lined.apart ha hb hne)

/-- **Transactions are isolated.** Whenever script has control or a phase ends, two transactions
with backends do not overlap unless both only read, and none created behind an unfinished upgrade
has its backend. Upgrades themselves are left to the queues of their databases. -/
theorem transactions_isolated (versions : String → UInt64) (autoPump : Bool)
    {c : Config State Reply Proc} (h : Reaches driver (State.new versions autoPump) c)
    (hc : c.Open ∨ c.AtEnd) : Isolated c.state := by
  have hgood := registry_keeps.reaches trivial (registered_new versions autoPump)
    (fun _ hwaiting => nomatch hwaiting) h
  rcases hc with hopen | hend
  · exact (hgood.invariant hopen).isolated
  · rcases hgood.ended hend with ⟨hs, -⟩ | ⟨_, hs, -⟩
    · exact hs.isolated
    · exact hs.isolated

/-- Two transactions have their backends beside each other, and before the upgrade of another
database. -/
theorem transactions_isolated_session : ∃ c, Reaches driver (State.new (fun _ => 0) true) c ∧
    (∀ id, id = 1 ∨ id = 2 → ∃ handle, c.state.txns id = some handle ∧
      handle.mode = .readWrite ∧ handle.backend = true) ∧
    (∃ handle, c.state.txns 3 = some handle ∧ handle.mode = .versionChange ∧
      handle.finished = false) ∧ Isolated c.state := by
  obtain ⟨w⟩ := session
  obtain ⟨hfirst, hsecond, hupgrade⟩ := w.upgrading_handles
  refine ⟨_, w.reaches_upgrading, ?_, ⟨_, hupgrade, rfl, rfl⟩,
    transactions_isolated _ _ w.reaches_upgrading (.inl nofun)⟩
  rintro id (rfl | rfl)
  · exact ⟨_, hfirst, rfl, rfl⟩
  · exact ⟨_, hsecond, rfl, rfl⟩

end BoaIdb.Pump
