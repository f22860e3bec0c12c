import BoaIdb.Driver.Locality
import BoaIdb.Engine.Scheduler
import BoaIdb.Lib.Serial
import BoaIdb.Memory.Locality

/-!
The transactions of one database on the memory backend, side by side.

A transaction reads the committed rows as they stand at each request, so nothing but the scheduler
keeps it apart from the others. What they see, and what they leave, is that of a serial run in the
order in which they were enqueued.
-/

namespace BoaIdb.Memory

open Clone Driver Faults OrdMap Runs Scheduler Serial

/-- A request of a transaction, with the driver's counter of cursors at that moment. -/
structure Request where
  nextCursorId : ℕ
  requestId : ℕ
  op : PendingOp

abbrev Answer := Exit IdbError OpExec

section Workings

variable (env : CodecEnv) (limits : LimitConfig)

/-- The transaction runs the request over the rows that are committed by now. -/
def answer (s : StorageState) (u : OpState MemoryTxn) (q : Request) : Answer × OpState MemoryTxn :=
  let u : OpState MemoryTxn := { u with nextCursorId := q.nextCursorId }
  let r := executeOp env limits q.requestId q.op (u.map (Session.mk s.rows))
  (r.1, r.2.map Session.txn)

/-- The commit of the backend, if there is one. -/
def commit (u : OpState MemoryTxn) (s : StorageState) : StorageState :=
  (u.txn.bind TxnHandle.backend).elim s fun t => t.commit s

def workings : Workings StorageState (OpState MemoryTxn) Request Answer :=
  ⟨answer env limits, commit⟩

end Workings

/-! ### Regions -/

section Regions

variable {env : CodecEnv} {limits : LimitConfig} {schema : DatabaseMeta}
  {owner : IndexId → StoreId} {item item' : TxnQueueItem} {s s' : StorageState}
  {u u' : OpState MemoryTxn} {q : Request}

/-- The scope of a transaction. -/
def regionOf (owner : IndexId → StoreId) (item : TxnQueueItem) : Region := ⟨item.scope, owner⟩

/-- A transaction of a database with a fixed schema. -/
def FitFor (schema : DatabaseMeta) (owner : IndexId → StoreId) (item : TxnQueueItem)
    (u : OpState MemoryTxn) : Prop :=
  u.Fit (regionOf owner item) (·.Fit schema item.mode (regionOf owner item))

/-- The operations of a memory transaction are local. -/
theorem local_session {g : Region} {mode : TxnMode} {base base' : Rows}
    (h : Rows.Agree g base base') : LocalTxn g (Session.Beside schema mode g base base') where
  beginRequest := lockstep_beginRequest
  commitRequest := lockstep_commitRequest
  rollbackRequest := lockstep_rollbackRequest
  put := lockstep_put h
  get := lockstep_get h
  deleteRange := lockstep_deleteRange h
  clear := lockstep_clear h
  count _ hsrc range := lockstep_count h hsrc range
  scanRows _ hsrc _ _ hbounded keyOnly := lockstep_scanRows h hsrc hbounded keyOnly
  keyGenCurrent _ hstore := lockstep_keyGenCurrent h hstore
  keyGenSet _ hstore value := lockstep_keyGenSet h hstore value
  indexPut _ hindex idxKey primaryKey unique := lockstep_indexPut h hindex idxKey primaryKey unique
  indexDelete _ hindex idxKey primaryKey := lockstep_indexDelete hindex idxKey primaryKey
  indexDeleteByPrimary _ hindex primaryKey := lockstep_indexDeleteByPrimary h hindex primaryKey

/-- The same transaction over the same rows of its region: it answers alike, and stays inside. -/
theorem answer_beside (hagree : Rows.Agree (regionOf owner item) s.rows s'.rows)
    (hfit : FitFor schema owner item u) (hq : q.op.Inside limits (regionOf owner item)) :
    answer env limits s u q = answer env limits s' u q ∧
      FitFor schema owner item (answer env limits s u q).2 := by
  have hlocal : LocalTxn (regionOf owner item)
      (Session.Beside schema item.mode (regionOf owner item) s.rows s'.rows) := local_session hagree
  let u₀ : OpState MemoryTxn := { u with nextCursorId := q.nextCursorId }
  have hfit₀ : FitFor schema owner item u₀ := ⟨hfit.txn, hfit.cursors⟩
  let both (t : MemoryTxn) : Session × Session := (⟨s.rows, t⟩, ⟨s'.rows, t⟩)
  have hboth : (u₀.map both).Fit (regionOf owner item) fun b =>
      Session.Beside schema item.mode (regionOf owner item) s.rows s'.rows b.1 b.2 :=
    hfit₀.map fun t ht => ⟨t, ht, rfl, rfl⟩
  obtain ⟨hexit, w, hw, hleft, hright⟩ := @local_executeOp _ _ _ _ env _ hlocal q.requestId _ hq
    (u₀.map (Session.mk s.rows)) (u₀.map (Session.mk s'.rows))
    ⟨u₀.map both, hboth, (u₀.map_map both Prod.fst).symm, (u₀.map_map both Prod.snd).symm⟩
  have hbehind (s : StorageState) : answer env limits s u q =
      ((executeOp env limits q.requestId q.op (u₀.map (Session.mk s.rows))).1,
        (executeOp env limits q.requestId q.op (u₀.map (Session.mk s.rows))).2.map Session.txn) :=
    rfl
  rw [hbehind, hbehind, hexit, hleft, hright, OpState.map_map, OpState.map_map]
  constructor
  · refine Prod.ext rfl (OpState.map_congr hw ?_)
    rintro b ⟨t, -, h₁, h₂⟩
    rw [h₁, h₂]
  · refine hw.map ?_
    rintro b ⟨t, ht, h₁, -⟩
    rw [h₁]
    exact ht

theorem FitFor.backend (h : FitFor schema owner item u) {t : MemoryTxn}
    (ht : u.txn.bind TxnHandle.backend = some t) :
    t.Fit schema item.mode (regionOf owner item) := by
  obtain ⟨handle, hhandle, hbackend⟩ := Option.bind_eq_some_iff.mp ht
  exact (h.txn handle hhandle).backend t hbackend

/-- What two transactions that do not conflict may do beside each other. -/
theorem apart_cases (hmode : item.mode ≠ .versionChange) (h : ¬Scheduler.Conflict item item') :
    item.mode = .readOnly ∧ item'.mode = .readOnly ∨ ∀ id ∈ item.scope, id ∉ item'.scope := by
  by_cases hread : item.mode = .readOnly ∧ item'.mode = .readOnly
  · exact .inl hread
  · refine .inr fun id hid hid' => h ?_
    unfold Scheduler.Conflict
    cases hm : item.mode <;> cases hm' : item'.mode <;> simp_all
    all_goals exact ⟨id, hid, hid'⟩

theorem agree_refl (g : Region) (rows : Rows) : Rows.Agree g rows rows :=
  ⟨fun _ _ => rfl, fun _ _ => rfl, fun _ _ => rfl⟩

theorem commit_rows (h : FitFor schema owner item u) (hapart : ¬Scheduler.Conflict item item')
    (s : StorageState) : Rows.Agree (regionOf owner item') s.rows (commit u s).rows := by
  unfold commit
  cases ht : u.txn.bind TxnHandle.backend with
  | none => exact agree_refl _ _
  | some t =>
      have hfit := h.backend ht
      rcases apart_cases hfit.normal hapart with ⟨hread, -⟩ | hdisjoint
      · show Rows.Agree _ s.rows (t.pending.applyTo s.rows)
        rw [(hfit.untouched hread).applyTo]
        exact agree_refl _ _
      · exact hfit.inside.agree_applyTo rfl hdisjoint

theorem commit_commute (h : FitFor schema owner item u) (h' : FitFor schema owner item' u')
    (hapart : ¬Scheduler.Conflict item item') (s : StorageState) :
    commit u (commit u' s) = commit u' (commit u s) := by
  unfold commit
  cases ht : u.txn.bind TxnHandle.backend with
  | none => rfl
  | some t =>
      cases ht' : u'.txn.bind TxnHandle.backend with
      | none => rfl
      | some t' =>
          have hfit := h.backend ht
          have hfit' := h'.backend ht'
          have hrows : t.pending.applyTo (t'.pending.applyTo s.rows) =
              t'.pending.applyTo (t.pending.applyTo s.rows) := by
            rcases apart_cases hfit.normal hapart with ⟨hread, hread'⟩ | hdisjoint
            · simp only [(hfit.untouched hread).applyTo, (hfit'.untouched hread').applyTo]
            · exact hfit.inside.applyTo_comm hfit'.inside rfl hdisjoint
          simp only [Option.elim_some, MemoryTxn.commit, hfit.metadata_eq, hfit'.metadata_eq, hrows]

/-- What keeps the transactions of the memory backend apart is what the scheduler looks at. -/
def regions (env : CodecEnv) (limits : LimitConfig) (schema : DatabaseMeta)
    (owner : IndexId → StoreId) : Regions (workings env limits) TxnQueueItem where
  Agree item s s' := Rows.Agree (regionOf owner item) s.rows s'.rows
  Conflict := Scheduler.Conflict
  Fit item u := FitFor schema owner item u
  Inside item q := q.op.Inside limits (regionOf owner item)
  answer_congr hagree hfit hq := (answer_beside hagree hfit hq).1
  fit_answer hfit hq := (answer_beside (agree_refl _ _) hfit hq).2
  agree_commit hfit hapart := commit_rows hfit hapart _
  commit_comm hfit hfit' hapart := commit_commute hfit hfit' hapart _
  agree_symm h := h.symm
  conflict_symm h := conflict_symm _ _ h

end Regions

/-! ### The system -/

abbrev Running := Live TxnId TxnQueueItem (OpState MemoryTxn) Request Answer

abbrev Ending := Ended TxnId TxnQueueItem (OpState MemoryTxn) Request Answer

/-- The order in which the transactions were enqueued. -/
def EnqueuedBefore (t : Traffic) (e f : Ending) : Prop :=
  t.Before e.region f.region

/-- The scheduler with its history, and the transactions over the shared state. -/
structure System where
  traffic : Traffic
  txns : State TxnId TxnQueueItem StorageState (OpState MemoryTxn) Request Answer

/-- The transaction of an item as it begins. -/
def begun (schema : DatabaseMeta) (item : TxnQueueItem) : OpState MemoryTxn where
  txn := some
    { finished := false
      metadata := schema
      backend := some ((MemoryDatabase.mk schema).begin item.mode item.scope)
      keygens := .empty
      bytesRead := 0
      bytesWritten := 0 }
  cursors := .empty
  nextCursorId := 0

namespace System

inductive Action
  | enqueue (item : TxnQueueItem)
  | pollReady
  | requeueUnstarted (id : TxnId)
  | forget (id : TxnId)
  | begin (id : TxnId)
  | request (id : TxnId) (q : Request)
  | finish (id : TxnId) (committed : Bool)

/-- Nothing has been enqueued. -/
def start (s : StorageState) : System := ⟨.new, ⟨s, fun _ => none, []⟩⟩

variable (env : CodecEnv) (limits : LimitConfig) (schema : DatabaseMeta)
  (owner : IndexId → StoreId)

/-- Any call at any time. What has not begun may be put back or forgotten; what is released begins,
is asked inside of its scope, and ends by a commit or an abort. -/
inductive Step : System → Action → System → Prop
  | enqueue {s : System} {t : Traffic} {item : TxnQueueItem} (hmode : item.mode ≠ .versionChange)
      (ht : Traffic.Step s.traffic (.enqueue item) t) :
      Step s (.enqueue item) { s with traffic := t }
  | pollReady {s : System} {t : Traffic} (ht : Traffic.Step s.traffic .pollReady t) :
      Step s .pollReady { s with traffic := t }
  | requeueUnstarted {s : System} {t : Traffic} {id : TxnId} (hid : s.txns.live id = none)
      (ht : Traffic.Step s.traffic (.requeueUnstarted id) t) :
      Step s (.requeueUnstarted id) { s with traffic := t }
  | forget {s : System} {t : Traffic} {id : TxnId} (hid : s.txns.live id = none)
      (ht : Traffic.Step s.traffic (.forget id) t) : Step s (.forget id) { s with traffic := t }
  | begin {s : System} (item : TxnQueueItem) (hnew : s.txns.live item.id = none)
      (hitem : item ∈ s.traffic.scheduler.runningTxns) :
      Step s (.begin item.id)
        { s with txns := { s.txns with
            live := Function.update s.txns.live item.id
              (some ⟨⟨item.id, item, begun schema item, []⟩, begun schema item⟩) } }
  | request {s : System} {id : TxnId} {l : Running}
      {q : Request} (hl : s.txns.live id = some l)
      (hq : q.op.Inside limits (regionOf owner l.region)) :
      Step s (.request id q)
        { s with txns := { s.txns with
            live := Function.update s.txns.live id
              (some (l.after (workings env limits) s.txns.shared q)) } }
  | finish {s : System} {t : Traffic} {id : TxnId}
      {l : Running} (committed : Bool)
      (hl : s.txns.live id = some l) (ht : Traffic.Step s.traffic (.forget id) t) :
      Step s (.finish id committed)
        { traffic := t
          txns :=
            { shared := outcome (workings env limits) committed l.current s.txns.shared
              live := Function.update s.txns.live id none
              ended := s.txns.ended ++ [⟨l.toHistory, committed⟩] } }

/-- Beside a serialized run: the transactions that are live are among the running ones, and those
that have ended came before what they conflict with. -/
structure Inv (s₀ : StorageState) (s : System) : Prop where
  traffic : s.traffic.Inv
  normal : ∀ item ∈ s.traffic.enqueued, item.mode ≠ .versionChange
  serialized : Serialized (regions env limits schema owner) s₀ s.txns
  running : ∀ id l, s.txns.live id = some l →
    l.region.id = id ∧ l.region ∈ s.traffic.scheduler.runningTxns
  left : ∀ e ∈ s.txns.ended, e.region ∈ s.traffic.forgotten
  ordered : s.txns.ended.Pairwise fun e f =>
    e.region ≠ f.region ∧
      (Scheduler.Conflict e.region f.region → s.traffic.Before e.region f.region)
  ahead : ∀ e ∈ s.txns.ended, ∀ p, p ∈ s.traffic.scheduler.pendingQueue ∨
    p ∈ s.traffic.scheduler.runningTxns → Scheduler.Conflict e.region p →
      s.traffic.Before e.region p

section Invariant

variable {env limits schema owner} {s₀ : StorageState} {s s' : System} {t : Traffic} {id : TxnId}
  {a : Action}

theorem inv_start (s₀ : StorageState) : Inv env limits schema owner s₀ (start s₀) where
  traffic := Traffic.inv_new
  normal _ h := nomatch h
  serialized := serialized_start (s := (start s₀).txns) (fun _ => rfl) rfl
  running _ _ h := nomatch h
  left _ h := nomatch h
  ordered := .nil
  ahead _ h := nomatch h

/-- A call of the scheduler that leaves what is live where it is. -/
theorem Inv.moved (h : Inv env limits schema owner s₀ s) (ht : t.Inv)
    (hnormal : ∀ item ∈ t.enqueued, item.mode ≠ .versionChange)
    (hrunning : ∀ l, s.txns.live l.region.id = some l → l.region ∈ s.traffic.scheduler.runningTxns →
      l.region ∈ t.scheduler.runningTxns)
    (hforgotten : ∀ a ∈ s.traffic.forgotten, a ∈ t.forgotten)
    (hbefore : ∀ a b, s.traffic.Before a b → t.Before a b)
    (hthere : ∀ p, p ∈ t.scheduler.pendingQueue ∨ p ∈ t.scheduler.runningTxns →
      (p ∈ s.traffic.scheduler.pendingQueue ∨ p ∈ s.traffic.scheduler.runningTxns) ∨
        ∀ a ∈ s.traffic.enqueued, t.Before a p) :
    Inv env limits schema owner s₀ { s with traffic := t } where
  traffic := ht
  normal := hnormal
  serialized := h.serialized
  running id l hl := by
    obtain ⟨rfl, hmem⟩ := h.running id l hl
    exact ⟨rfl, hrunning l hl hmem⟩
  left e he := hforgotten _ (h.left e he)
  ordered := h.ordered.imp fun hef => ⟨hef.1, fun hc => hbefore _ _ (hef.2 hc)⟩
  ahead e he p hp hc := by
    rcases hthere p hp with hp | hp
    · exact hbefore _ _ (h.ahead e he p hp hc)
    · refine hp _ (h.traffic.placed.2.subset ?_)
      exact List.mem_append_right _ (List.mem_append_right _ (h.left e he))

theorem Inv.enqueue (h : Inv env limits schema owner s₀ s) {item : TxnQueueItem}
    (hmode : item.mode ≠ .versionChange) (ht : Traffic.Step s.traffic (.enqueue item) t) :
    Inv env limits schema owner s₀ { s with traffic := t } := by
  have hinv := h.traffic.step ht
  cases ht with
  | enqueue _ hnew =>
      refine h.moved hinv (fun other hother => ?_) (fun _ _ hl => hl) (fun _ ha => ha)
        (fun a b hab => hab.trans (List.sublist_append_left _ _)) fun p hp => ?_
      · rcases List.mem_append.mp hother with hother | hother
        · exact h.normal other hother
        · exact List.mem_singleton.mp hother ▸ hmode
      · rcases hp with hp | hp
        · rcases List.mem_append.mp hp with hp | hp
          · exact .inl (.inl hp)
          · obtain rfl := List.mem_singleton.mp hp
            exact .inr fun a ha => (List.singleton_sublist.mpr ha).append (.refl [p])
        · exact .inl (.inr hp)

theorem Inv.pollReady (h : Inv env limits schema owner s₀ s)
    (ht : Traffic.Step s.traffic .pollReady t) :
    Inv env limits schema owner s₀ { s with traffic := t } := by
  have hinv := h.traffic.step ht
  obtain ⟨started, -, hpolls⟩ := h.traffic.polls
  cases ht with
  | pollReady =>
      refine h.moved hinv h.normal (fun l _ hl => ?_) (fun _ ha => ha) (fun _ _ hab => hab)
        fun p hp => .inl ?_
      · show l.region ∈ s.traffic.scheduler.pollReady.1.runningTxns
        rw [hpolls.moved]
        exact List.mem_append_left _ hl
      · exact List.mem_append.mp (hpolls.perm.subset (List.mem_append.mpr hp))

theorem Inv.requeueUnstarted (h : Inv env limits schema owner s₀ s) (hid : s.txns.live id = none)
    (ht : Traffic.Step s.traffic (.requeueUnstarted id) t) :
    Inv env limits schema owner s₀ { s with traffic := t } := by
  have hinv := h.traffic.step ht
  cases ht with
  | requeueUnstarted =>
      rcases requeueUnstarted_cases s.traffic.scheduler id with
        hsame | ⟨item, left, right, rfl, hrunning, hmoved⟩
      · rw [hsame]
        exact h
      · refine h.moved hinv h.normal (fun l hl hmem => ?_) (fun _ ha => ha) (fun _ _ hab => hab)
          fun p hp => .inl ?_
        · rw [hmoved]
          rw [hrunning] at hmem
          have hne : l.region ≠ item := fun heq => by
            rw [heq, hid] at hl
            cases hl
          simpa [hne] using hmem
        · rw [hmoved] at hp
          rw [hrunning]
          simp only [List.mem_append, List.mem_cons] at hp ⊢
          tauto

theorem Inv.forget (h : Inv env limits schema owner s₀ s) (hid : s.txns.live id = none)
    (ht : Traffic.Step s.traffic (.forget id) t) :
    Inv env limits schema owner s₀ { s with traffic := t } := by
  have hinv := h.traffic.step ht
  cases ht with
  | forget =>
      refine h.moved hinv h.normal (fun l hl hmem => ?_) (fun a ha => List.mem_append_left _ ha)
        (fun _ _ hab => hab) fun p hp => .inl ?_
      · refine List.mem_filter.mpr ⟨hmem, decide_eq_true fun heq => ?_⟩
        rw [heq, hid] at hl
        cases hl
      · exact hp.imp List.mem_of_mem_filter List.mem_of_mem_filter

/-- What runs conflicts with nothing else that runs. -/
theorem Inv.apart (h : Inv env limits schema owner s₀ s) {p r : TxnQueueItem}
    (hp : p ∈ s.traffic.scheduler.runningTxns) (hr : r ∈ s.traffic.scheduler.runningTxns)
    (hne : p ≠ r) : ¬Scheduler.Conflict p r := by
  have : Std.Symm fun a b : TxnQueueItem => ¬Scheduler.Conflict a b :=
    ⟨fun a b hab hc => hab (conflict_symm _ _ hc)⟩
  exact h.traffic.fair.apart.forall hp hr hne

/-- A transaction starts with nothing written. -/
theorem fitFor_begun (howner : Owned owner schema) {item : TxnQueueItem}
    (hmode : item.mode ≠ .versionChange) : FitFor schema owner item (begun schema item) := by
  refine ⟨fun t ht => ?_, fun _ _ hc => nomatch hc⟩
  cases ht
  refine ⟨howner, fun b hb => ?_⟩
  cases hb
  exact ⟨hmode, rfl, rfl, rfl, Pending.inside_empty, fun _ => Pending.untouched_empty⟩

theorem Inv.begin (howner : Owned owner schema)
    (h : Inv env limits schema owner s₀ s) {item : TxnQueueItem}
    (hnew : s.txns.live item.id = none) (hitem : item ∈ s.traffic.scheduler.runningTxns) :
    Inv env limits schema owner s₀
      { s with txns := { s.txns with
          live := Function.update s.txns.live item.id
            (some ⟨⟨item.id, item, begun schema item, []⟩, begun schema item⟩) } } := by
  have hmode := h.normal item (h.traffic.mem_enqueued (.inr hitem))
  refine ⟨h.traffic, h.normal, h.serialized.begin (fitFor_begun howner hmode) fun j l hl => ?_,
    fun j l hl => ?_, h.left, h.ordered, h.ahead⟩
  · obtain ⟨rfl, hmem⟩ := h.running j l hl
    refine h.apart hmem hitem fun heq => ?_
    rw [heq, hnew] at hl
    cases hl
  · rcases live_update hl with ⟨rfl, heq⟩ | ⟨-, hl⟩
    · cases heq
      exact ⟨rfl, hitem⟩
    · exact h.running j l hl

theorem Inv.request (h : Inv env limits schema owner s₀ s)
    {l : Running} {q : Request}
    (hl : s.txns.live id = some l) (hq : q.op.Inside limits (regionOf owner l.region)) :
    Inv env limits schema owner s₀
      { s with txns := { s.txns with
          live := Function.update s.txns.live id
            (some (l.after (workings env limits) s.txns.shared q)) } } := by
  refine ⟨h.traffic, h.normal, h.serialized.answer hl hq, fun j l' hl' => ?_, h.left, h.ordered,
    h.ahead⟩
  rcases live_update hl' with ⟨rfl, heq⟩ | ⟨-, hl'⟩
  · cases heq
    exact h.running j l hl
  · exact h.running j l' hl'

theorem Inv.finish (h : Inv env limits schema owner s₀ s)
    {l : Running} (committed : Bool)
    (hl : s.txns.live id = some l) (ht : Traffic.Step s.traffic (.forget id) t) :
    Inv env limits schema owner s₀
      { traffic := t
        txns :=
          { shared := outcome (workings env limits) committed l.current s.txns.shared
            live := Function.update s.txns.live id none
            ended := s.txns.ended ++ [⟨l.toHistory, committed⟩] } } := by
  have hinv := h.traffic.step ht
  obtain ⟨rfl, hmem⟩ := h.running id l hl
  cases ht with
  | forget =>
      refine ⟨hinv, h.normal, h.serialized.finish committed hl, fun j l' hl' => ?_, fun e he => ?_,
        ?_, fun e he p hp hc => ?_⟩
      · rcases live_update hl' with ⟨-, hl'⟩ | ⟨hj, hl'⟩
        · cases hl'
        · obtain ⟨rfl, hmem'⟩ := h.running j l' hl'
          exact ⟨rfl, List.mem_filter.mpr ⟨hmem', decide_eq_true hj⟩⟩
      · rcases List.mem_append.mp he with he | he
        · exact List.mem_append_left _ (h.left e he)
        · obtain rfl := List.mem_singleton.mp he
          refine List.mem_append_right _ (List.mem_append_right _ ?_)
          exact List.mem_filter.mpr ⟨hmem, decide_eq_true rfl⟩
      · refine List.pairwise_append.mpr
          ⟨h.ordered, List.pairwise_singleton _ _, fun e he f hf => ?_⟩
        obtain rfl := List.mem_singleton.mp hf
        refine ⟨fun heq => ?_, h.ahead e he _ (.inr hmem)⟩
        -- what has been forgotten does not run
        have hall := h.traffic.placed.2.nodup_iff.mpr h.traffic.nodup
        have hdisjoint := (List.nodup_append.mp hall).2.2
        exact hdisjoint l.region (List.mem_append_right _ hmem) e.region
          (List.mem_append_right _ (h.left e he)) heq.symm
      · have hp' : (p ∈ s.traffic.scheduler.pendingQueue ∨ p ∈ s.traffic.scheduler.runningTxns) ∧
            p.id ≠ l.region.id := by
          rcases hp with hp | hp
          · exact ⟨.inl (List.mem_of_mem_filter hp), of_decide_eq_true (List.mem_filter.mp hp).2⟩
          · exact ⟨.inr (List.mem_of_mem_filter hp), of_decide_eq_true (List.mem_filter.mp hp).2⟩
        rcases List.mem_append.mp he with he | he
        · exact h.ahead e he p hp'.1 hc
        · obtain rfl := List.mem_singleton.mp he
          rcases hp'.1 with hpending | hrunning
          · exact h.traffic.fair.ahead l.region hmem p hpending hc
          · exact absurd hc (h.apart hmem hrunning fun heq => hp'.2 (heq ▸ rfl))

theorem Inv.step (howner : Owned owner schema)
    (h : Inv env limits schema owner s₀ s) (hstep : Step env limits schema owner s a s') :
    Inv env limits schema owner s₀ s' := by
  cases hstep with
  | enqueue hmode ht => exact h.enqueue hmode ht
  | pollReady ht => exact h.pollReady ht
  | requeueUnstarted hid ht => exact h.requeueUnstarted hid ht
  | forget hid ht => exact h.forget hid ht
  | begin _ hnew hitem => exact h.begin howner hnew hitem
  | request hl hq => exact h.request hl hq
  | finish committed hl ht => exact h.finish committed hl ht

end Invariant

/-- The transactions of a list, in the order of another one. -/
theorem exists_sorted {I T Q A : Type} {items : List TxnQueueItem} (hitems : items.Nodup)
    {ended : List (Ended I TxnQueueItem T Q A)}
    (hdistinct : ended.Pairwise fun e f => e.region ≠ f.region)
    (hmem : ∀ e ∈ ended, e.region ∈ items) :
    ∃ log : List (Ended I TxnQueueItem T Q A),
      log.Perm ended ∧ (log.map fun e => e.region).Sublist items := by
  let named (item : TxnQueueItem) : Option (Ended I TxnQueueItem T Q A) :=
    ended.find? fun e => e.region = item
  have hnamed {item : TxnQueueItem} {e : Ended I TxnQueueItem T Q A} :
      named item = some e ↔ e ∈ ended ∧ e.region = item := by
    constructor
    · intro h
      exact ⟨List.mem_of_find?_eq_some h, by simpa using List.find?_some h⟩
    · rintro ⟨he, rfl⟩
      cases hfound : named e.region with
      | none =>
          have hnone := List.find?_eq_none.mp hfound e he
          exact absurd (decide_eq_true rfl) hnone
      | some f =>
          have hf : f ∈ ended := List.mem_of_find?_eq_some hfound
          have hregion : f.region = e.region := by simpa using List.find?_some hfound
          by_contra hne
          have : Std.Symm fun e f : Ended I TxnQueueItem T Q A => e.region ≠ f.region :=
            ⟨fun _ _ h => h.symm⟩
          exact hdistinct.forall hf he (fun heq => hne (congrArg some heq)) hregion
  have hregions : (items.filterMap named).map (fun e => e.region) =
      items.filter fun item => (named item).isSome := by
    rw [List.map_filterMap, ← List.filterMap_eq_filter]
    refine List.filterMap_congr fun item _ => ?_
    rw [Option.guard]
    cases hfound : named item with
    | none => rfl
    | some e => exact congrArg some (hnamed.mp hfound).2
  refine ⟨items.filterMap named, ?_, hregions ▸ List.filter_sublist⟩
  have hnodup : (items.filterMap named).Nodup := by
    refine List.Nodup.of_map (fun e => e.region) ?_
    rw [hregions]
    exact hitems.filter _
  have hended : ended.Nodup := hdistinct.imp fun hne heq => hne (congrArg (·.region) heq)
  refine (List.perm_ext_iff_of_nodup hnodup hended).mpr fun e => ?_
  simp only [List.mem_filterMap, hnamed]
  exact ⟨fun ⟨_, _, he, _⟩ => he, fun he => ⟨e.region, hmem e he, he, rfl⟩⟩

/-- **Transactions on the memory backend are serializable**, in the order in which they were
enqueued: one after another they give the same answers and leave the same committed state, and
whatever is live has the answers that it would have alone. -/
theorem serializable (env : CodecEnv) (limits : LimitConfig) (schema : DatabaseMeta)
    (owner : IndexId → StoreId) (howner : Owned owner schema) (s₀ : StorageState)
    (taken : List (System × Action)) (s : System)
    (h : Run (Step env limits schema owner) (start s₀) taken s) :
    (∃ log : List Ending, log.Perm s.txns.ended ∧
        (log.map fun e => e.region).Sublist s.traffic.enqueued ∧
        SerialRun (regions env limits schema owner) s₀ log s.txns.shared) ∧
      ∀ id l, s.txns.live id = some l →
        Replays (regions env limits schema owner) l.region s.txns.shared l.start l.done
          l.current := by
  have hinv : Inv env limits schema owner s₀ s := h.invariant (inv_start s₀) (.step howner)
  refine ⟨?_, hinv.serialized.alone⟩
  have henqueued (e : Ending) (he : e ∈ s.txns.ended) : e.region ∈ s.traffic.enqueued := by
    refine hinv.traffic.placed.2.subset (List.mem_append_right _ ?_)
    exact List.mem_append_right _ (hinv.left e he)
  obtain ⟨log, hperm, hsorted⟩ := exists_sorted hinv.traffic.nodup
    (hinv.ordered.imp fun hef => hef.1) henqueued
  refine ⟨log, hperm, hsorted, ?_⟩
  have hasymm (e f : Ending) (hef : EnqueuedBefore s.traffic e f) : ¬EnqueuedBefore s.traffic f e :=
    hinv.traffic.asymm e.region f.region hef
  have hpairs : (log.map fun e => e.region).Pairwise s.traffic.Before :=
    List.pairwise_iff_forall_sublist.mpr fun hab => hab.trans hsorted
  have hlog : Ordered (regions env limits schema owner) (EnqueuedBefore s.traffic) log := by
    rw [List.pairwise_map] at hpairs
    refine List.Pairwise.imp ?_ hpairs
    intro e f hef _
    exact hef
  exact hinv.serialized.serial.reorder hasymm hperm (hinv.ordered.imp fun hef => hef.2) hlog

/-- Two stores, the first one with an index. -/
def twoStores : DatabaseMeta :=
  { name := []
    version := 1
    stores :=
      [⟨1, [], .empty, true, 0x3FF0000000000000, [⟨1, 1, [], .single [], false, false, false⟩],
          false⟩,
        ⟨2, [], .empty, true, 0x3FF0000000000000, [], false⟩]
    nextStoreId := 3
    nextIndexId := 2 }

def addNull (requestId : ℕ) (store : StoreId) : Request :=
  ⟨0, requestId, .put store .null none true⟩

def countAll (requestId : ℕ) (store : StoreId) : Request :=
  ⟨0, requestId, .count (.store store) .all⟩

/-- A writer and a reader of different stores take turns; a writer of both waits for them. -/
def sideBySide : List Action :=
  [.enqueue ⟨1, .readWrite, [1]⟩, .enqueue ⟨2, .readOnly, [2]⟩, .enqueue ⟨3, .readWrite, [1, 2]⟩,
    .pollReady, .begin 2, .begin 1, .request 1 (addNull 1 1), .request 2 (countAll 2 2),
    .finish 1 true, .request 2 (countAll 3 2), .finish 2 false, .pollReady, .begin 3,
    .request 3 (countAll 4 1)]

theorem run_sideBySide : ∃ taken s, taken.map Prod.snd = sideBySide ∧
    Run (Step standardEnv {} twoStores fun _ => 1) (start .default) taken s :=
  ⟨_, _, rfl, (((((((((((((Run.start.step
    (.enqueue (by decide) (.enqueue _ _ (by simp [start, Traffic.new])))).step
    (.enqueue (by decide) (.enqueue _ _ (by simp [start, Traffic.new])))).step
    (.enqueue (by decide) (.enqueue _ _ (by simp [start, Traffic.new])))).step
    (.pollReady (.pollReady _))).step
    (.begin ⟨2, .readOnly, [2]⟩ rfl (by decide))).step
    (.begin ⟨1, .readWrite, [1]⟩ rfl (by decide))).step
    (.request rfl (List.mem_singleton.mpr rfl))).step
    (.request rfl (List.mem_singleton.mpr rfl))).step
    (.finish true rfl (.forget _ _))).step
    (.request rfl (List.mem_singleton.mpr rfl))).step
    (.finish false rfl (.forget _ _))).step
    (.pollReady (.pollReady _))).step
    (.begin ⟨3, .readWrite, [1, 2]⟩ rfl (by decide))).step
    (.request rfl (by exact List.mem_cons_self))⟩

theorem serializable_sideBySide : ∃ taken s, taken.map Prod.snd = sideBySide ∧
    Run (Step standardEnv {} twoStores fun _ => 1) (start .default) taken s ∧
    (∃ log : List Ending, log.Perm s.txns.ended ∧
        (log.map fun e => e.region).Sublist s.traffic.enqueued ∧
        SerialRun (regions standardEnv {} twoStores fun _ => 1) .default log s.txns.shared) ∧
      ∀ id l, s.txns.live id = some l →
        Replays (regions standardEnv {} twoStores fun _ => 1) l.region s.txns.shared l.start
          l.done l.current := by
  obtain ⟨taken, s, hactions, hrun⟩ := run_sideBySide
  exact ⟨taken, s, hactions, hrun, serializable standardEnv {} twoStores (fun _ => 1)
    (by simp [Owned, twoStores]) .default taken s hrun⟩

end System

end BoaIdb.Memory
