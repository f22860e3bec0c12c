import BoaIdb.Backend.RecordCount
import BoaIdb.Fs.SchemaTxn

/-!
The running key delta of a filesystem transaction, and that it is exact: committed records and
delta together are the merged records, whatever the transaction has done so far.
-/

namespace BoaIdb.Fs

open Faults OrdMap

namespace OpenTxn

variable {s : OpenTxn} {base : Rows}

theorem applyRecordTransition_eq (delta : ℤ) (before after : Bool) :
    applyRecordTransition delta before after =
      delta + View.present after - View.present before := by
  cases before <;> cases after <;> simp [applyRecordTransition, View.present]

/-! ### The loops with their delta -/

/-- A step of `clear`: a tombstone, and the delta for it. -/
def sweep (base : Rows) (acc : Pending × ℤ) (key : RecordKey) : Pending × ℤ :=
  (acc.1.setRecord key none, applyRecordTransition acc.2 (acc.1.recordExists base key) false)

theorem recordExists_setRecord_of_ne {p : Pending} {key k : RecordKey} (val : Option Bytes)
    (h : k ≠ key) : (p.setRecord key val).recordExists base k = p.recordExists base k := by
  rw [Pending.recordExists_eq, Pending.recordExists_eq, Pending.view_setRecord]
  show Option.isSome (Function.update (p.view base).records key val k) = _
  rw [Function.update_of_ne h]

/-- Keys that come once are there or not as they were before the loop. -/
theorem foldl_sweep {keys : List RecordKey} (hnodup : keys.Nodup) (p : Pending) (delta : ℤ) :
    keys.foldl (sweep base) (p, delta) =
      (keys.foldl (fun p key => p.setRecord key none) p,
        delta - (keys.filter (p.recordExists base)).length) := by
  induction keys generalizing p delta with
  | nil => simp
  | cons key keys ih =>
      obtain ⟨hkey, hkeys⟩ := List.nodup_cons.mp hnodup
      have hlater : keys.filter ((p.setRecord key none).recordExists base) =
          keys.filter (p.recordExists base) := by
        refine List.filter_congr fun k hk => recordExists_setRecord_of_ne none ?_
        rintro rfl
        exact hkey hk
      rw [List.foldl_cons, List.foldl_cons, sweep, ih hkeys, hlater, applyRecordTransition_eq]
      congr 1
      cases hexists : p.recordExists base key with
      | true =>
          rw [List.filter_cons_of_pos hexists, List.length_cons]
          simp only [View.present, if_true, Bool.false_eq_true, if_false]
          omega
      | false =>
          rw [List.filter_cons_of_neg (by rw [hexists]; exact Bool.false_ne_true)]
          simp [View.present]

/-- The keys that `clear` sweeps. -/
def storeKeys (s : OpenTxn) (store : StoreId) : List RecordKey :=
  let keys := s.rows.records.keys.filter fun k => k.store = store
  keys ++ (s.pending.records.keys.filter fun k => k.store = store).filter (· ∉ keys)

theorem nodup_storeKeys (s : OpenTxn) (store : StoreId) : (s.storeKeys store).Nodup := by
  have hkeys {V : Type} (m : OrderedMap RecordKey V) (c : RecordKey → Bool) :
      (m.keys.filter c).Nodup :=
    m.nodup_keys.filter c
  refine List.Nodup.append (hkeys _ _) ((hkeys _ _).filter _) ?_
  intro k hkeys hpending
  exact of_decide_eq_true (List.mem_filter.mp hpending).2 hkeys

/-- `clear` adjusts the delta with each key. -/
theorem clear_eq_sweep {store : StoreId} (hscope : s.checkScope store = .ok ())
    (hwrite : s.checkReadwrite = .ok ()) :
    s.clear store = .ok
      { s.withPending ((s.storeKeys store).foldl (sweep s.rows) (s.pending, s.keyDelta)).1 with
        keyDelta := ((s.storeKeys store).foldl (sweep s.rows) (s.pending, s.keyDelta)).2 } := by
  rw [foldl_sweep (nodup_storeKeys s store), clear, hscope, hwrite]
  rfl

/-! ### The delta is exact -/

/-- How many records a view has beyond the committed ones. -/
noncomputable def excess (base : Rows) (w : BoaIdb.View) : ℤ := w.recordCount - base.records.size

/-- The delta is what the changes of the transaction add, now and behind each rollback. -/
structure Exact (s : OpenTxn) : Prop where
  delta : s.keyDelta = excess s.rows (s.pending.view s.rows)
  levels : s.keyDeltaStack = (s.pending.saved s.rows).map fun w => excess s.rows w.view

theorem exact_begin (session : Session) (mode : TxnMode) (scope : List StoreId) (m : DatabaseMeta)
    (durability : Durability) (maxKeysInMemory : ℕ) :
    (OpenTxn.begin session mode scope m durability maxKeysInMemory).Exact := by
  refine ⟨?_, rfl⟩
  rw [excess, Pending.recordCount_view]
  exact (sub_self _).symm

/-- A change of the pending maps with its log, and the delta it makes. -/
theorem Exact.withPending (h : s.Exact) {p : Pending} {delta : ℤ}
    (hsaved : p.saved s.rows = s.pending.saved s.rows)
    (hdelta : delta - s.keyDelta = ((p.view s.rows).recordCount : ℤ) -
      (s.pending.view s.rows).recordCount) :
    Exact { s.withPending p with keyDelta := delta } := by
  obtain ⟨hnow, hlevels⟩ := h
  refine ⟨?_, ?_⟩
  · show delta = excess s.rows (p.view s.rows)
    rw [excess] at hnow ⊢
    omega
  · show s.keyDeltaStack = (p.saved s.rows).map fun w => excess s.rows w.view
    rw [hlevels, hsaved]

/-- A change that leaves the records. -/
theorem Exact.sameRecords (h : s.Exact) {p : Pending}
    (hsaved : p.saved s.rows = s.pending.saved s.rows)
    (hrecords : (p.view s.rows).records = (s.pending.view s.rows).records) :
    (s.withPending p).Exact := by
  have hcount : (p.view s.rows).recordCount = (s.pending.view s.rows).recordCount := by
    rw [View.recordCount, View.recordCount, View.held, View.held, hrecords]
  refine h.withPending hsaved ?_
  rw [hcount, sub_self, sub_self]

theorem Exact.setRecord (h : s.Exact) (key : RecordKey) (val : Option Bytes) :
    Exact { s.withPending (s.pending.setRecord key val) with
      keyDelta := applyRecordTransition s.keyDelta (s.pending.recordExists s.rows key)
        val.isSome } := by
  refine h.withPending (Pending.saved_setRecord key val) ?_
  rw [Pending.recordCount_setRecord, applyRecordTransition_eq]
  omega

/-- The sweep of `clear`, step by step. -/
theorem Exact.foldl_sweep (h : s.Exact) (keys : List RecordKey) :
    Exact { s.withPending (keys.foldl (sweep s.rows) (s.pending, s.keyDelta)).1 with
      keyDelta := (keys.foldl (sweep s.rows) (s.pending, s.keyDelta)).2 } := by
  induction keys generalizing s with
  | nil => exact h
  | cons key keys ih => exact ih (h.setRecord key none)

theorem Exact.beginRequest (h : s.Exact) : s.beginRequest.Exact := by
  refine ⟨h.delta, ?_⟩
  show s.keyDelta :: s.keyDeltaStack = (s.pending.beginRequest.saved s.rows).map _
  rw [Pending.saved_beginRequest, List.map_cons, h.levels, h.delta]
  rfl

theorem Exact.commitRequest (h : s.Exact) {s' : OpenTxn} (hok : s.commitRequest = .ok s') :
    s'.Exact := by
  obtain ⟨p, hp, hs'⟩ := bind_ok hok
  cases hs'
  obtain ⟨hsame, w, hsaved⟩ := @Pending.saved_commitRequest s.rows _ _ hp
  have hview : p.view s.rows = s.pending.view s.rows := congrArg Snapshot.view hsame
  refine ⟨?_, ?_⟩
  · show s.keyDelta = excess s.rows (p.view s.rows)
    rw [hview]
    exact h.delta
  · show s.keyDeltaStack.tail = (p.saved s.rows).map fun w => excess s.rows w.view
    rw [h.levels, hsaved]
    rfl

/-- The rollback restores the records of the begin of the level, and the delta kept for it. -/
theorem Exact.rollbackRequest (h : s.Exact) {s' : OpenTxn} (hok : s.rollbackRequest = .ok s') :
    s'.Exact := by
  obtain ⟨p, hp, hs'⟩ := bind_ok hok
  cases hs'
  have hsaved := @Pending.saved_rollbackRequest s.rows _ _ hp
  have hlevels := h.levels
  rw [hsaved] at hlevels
  refine ⟨?_, ?_⟩
  · show s.keyDeltaStack.head?.getD s.keyDelta = excess s.rows (p.view s.rows)
    rw [hlevels]
    rfl
  · show s.keyDeltaStack.tail = (p.saved s.rows).map fun w => excess s.rows w.view
    rw [hlevels]
    rfl

/-! ### Runs -/

/-- An operation of the transaction. -/
inductive Op
  | beginRequest
  | commitRequest
  | rollbackRequest
  | put (store : StoreId) (key val : Bytes) (noOverwrite : Bool)
  | deleteRecord (store : StoreId) (key : Bytes)
  | deleteRange (store : StoreId) (range : EncodedRange)
  | clear (store : StoreId)
  | keyGenSet (store : StoreId) (value : F64Bits)
  | indexPut (index : IndexId) (idxKey primaryKey : Bytes) (unique : Bool)
  | indexDelete (index : IndexId) (idxKey primaryKey : Bytes)
  | indexDeleteByPrimary (index : IndexId) (primaryKey : Bytes)

def run (s : OpenTxn) : Op → Except BackendError OpenTxn
  | .beginRequest => .ok s.beginRequest
  | .commitRequest => s.commitRequest
  | .rollbackRequest => s.rollbackRequest
  | .put store key val noOverwrite => s.put store key val noOverwrite
  | .deleteRecord store key => (s.deleteRecord store key).map Prod.fst
  | .deleteRange store range => (s.deleteRange store range).map Prod.fst
  | .clear store => s.clear store
  | .keyGenSet store value => s.keyGenSet store value
  | .indexPut index idxKey primaryKey unique => s.indexPut index idxKey primaryKey unique
  | .indexDelete index idxKey primaryKey => s.indexDelete index idxKey primaryKey
  | .indexDeleteByPrimary index primaryKey => s.indexDeleteByPrimary index primaryKey

/-- The state behind an operation; one that fails changes nothing. -/
def behind (s : OpenTxn) (op : Op) : OpenTxn := (s.run op).toOption.getD s

theorem Exact.put (h : s.Exact) {store : StoreId} {key val : Bytes} {noOverwrite : Bool}
    {s' : OpenTxn} (hok : s.put store key val noOverwrite = .ok s') : s'.Exact := by
  obtain ⟨_, -, hok⟩ := bind_ok hok
  obtain ⟨_, -, hok⟩ := bind_ok hok
  obtain ⟨p, hp, hs'⟩ := bind_ok hok
  cases hs'
  rw [Pending.put_ok hp]
  exact h.setRecord ⟨store, key⟩ (some val)

theorem Exact.deleteRange (h : s.Exact) (store : StoreId) (range : EncodedRange) :
    Exact { s.withPending (s.pending.deleteRange s.rows store range).1 with
      keyDelta := s.keyDelta - (s.pending.deleteRange s.rows store range).2 } := by
  have hcount := @Pending.recordCount_deleteRange s.rows s.pending store range
  refine h.withPending (Pending.saved_deleteRange store range) ?_
  omega

theorem Exact.run (h : s.Exact) {op : Op} {s' : OpenTxn} (hok : s.run op = .ok s') : s'.Exact := by
  -- one case for every operation; only those on records move the counts
  cases op with
  | beginRequest =>
      cases hok
      exact h.beginRequest
  | commitRequest => exact h.commitRequest hok
  | rollbackRequest => exact h.rollbackRequest hok
  | put store key val noOverwrite => exact h.put hok
  | deleteRecord store key =>
      obtain ⟨r, hr, hs'⟩ := map_ok hok
      obtain ⟨_, -, hr⟩ := bind_ok hr
      obtain ⟨_, -, hr⟩ := bind_ok hr
      cases hr
      cases hs'
      have hexact := h.setRecord ⟨store, key⟩ none
      rw [Pending.recordExists_eq] at hexact
      exact hexact
  | deleteRange store range =>
      obtain ⟨r, hr, rfl⟩ := map_ok hok
      obtain ⟨-, -, rfl⟩ := deleteRange_ok hr
      exact h.deleteRange store range
  | clear store =>
      obtain ⟨⟨⟩, hscope, hrest⟩ := bind_ok hok
      obtain ⟨⟨⟩, hwrite, -⟩ := bind_ok hrest
      cases (clear_eq_sweep hscope hwrite).symm.trans hok
      exact h.foldl_sweep (s.storeKeys store)
  | keyGenSet store value =>
      obtain ⟨_, -, hok⟩ := bind_ok hok
      cases hok
      refine h.sameRecords (Pending.saved_keyGenSet store value) ?_
      rw [Pending.view_keyGenSet]
  | indexPut index idxKey primaryKey unique =>
      obtain ⟨_, -, hok⟩ := bind_ok hok
      obtain ⟨p, hp, hs'⟩ := bind_ok hok
      cases hs'
      refine h.sameRecords (Pending.saved_indexPut hp) ?_
      rw [(Pending.view_indexPut hp).2]
      rfl
  | indexDelete index idxKey primaryKey =>
      obtain ⟨_, -, hok⟩ := bind_ok hok
      cases hok
      refine h.sameRecords (Pending.saved_setIndexEntry _ false) ?_
      rw [Pending.indexDelete, Pending.view_setIndexEntry_false]
      rfl
  | indexDeleteByPrimary index primaryKey =>
      obtain ⟨_, -, hok⟩ := bind_ok hok
      cases hok
      refine h.sameRecords (Pending.saved_indexDeleteByPrimary index primaryKey) ?_
      rw [Pending.view_indexDeleteByPrimary]
      rfl

theorem Exact.foldl_behind (h : s.Exact) (ops : List Op) : (ops.foldl behind s).Exact := by
  induction ops generalizing s with
  | nil => exact h
  | cons op ops ih =>
      refine ih ?_
      unfold behind
      cases hrun : s.run op with
      | error e => exact h
      | ok s' => exact h.run hrun

/-- No operation touches the session of the handle or the limit. -/
theorem behind_session (op : Op) :
    (s.behind op).session = s.session ∧ (s.behind op).maxKeysInMemory = s.maxKeysInMemory := by
  unfold behind
  cases hrun : s.run op with
  | error e => exact ⟨rfl, rfl⟩
  | ok s' =>
      show s'.session = s.session ∧ s'.maxKeysInMemory = s.maxKeysInMemory
      cases op with
      | beginRequest =>
          cases hrun
          exact ⟨rfl, rfl⟩
      | commitRequest =>
          obtain ⟨p, -, hs'⟩ := bind_ok hrun
          cases hs'
          exact ⟨rfl, rfl⟩
      | rollbackRequest =>
          obtain ⟨p, -, hs'⟩ := bind_ok hrun
          cases hs'
          exact ⟨rfl, rfl⟩
      | put store key val noOverwrite =>
          obtain ⟨_, -, hrest⟩ := bind_ok hrun
          obtain ⟨_, -, hrest⟩ := bind_ok hrest
          obtain ⟨p, -, hs'⟩ := bind_ok hrest
          cases hs'
          exact ⟨rfl, rfl⟩
      | deleteRecord store key =>
          obtain ⟨r, hr, hs'⟩ := map_ok hrun
          obtain ⟨_, -, hr⟩ := bind_ok hr
          obtain ⟨_, -, hr⟩ := bind_ok hr
          cases hr
          cases hs'
          exact ⟨rfl, rfl⟩
      | deleteRange store range =>
          obtain ⟨r, hr, rfl⟩ := map_ok hrun
          obtain ⟨-, -, rfl⟩ := deleteRange_ok hr
          exact ⟨rfl, rfl⟩
      | indexPut index idxKey primaryKey unique =>
          obtain ⟨_, -, hrest⟩ := bind_ok hrun
          obtain ⟨p, -, hs'⟩ := bind_ok hrest
          cases hs'
          exact ⟨rfl, rfl⟩
      | clear store =>
          obtain ⟨_, -, hrest⟩ := bind_ok hrun
          obtain ⟨_, -, hrest⟩ := bind_ok hrest
          cases hrest
          exact ⟨rfl, rfl⟩
      | _ =>
          obtain ⟨_, -, hrest⟩ := bind_ok hrun
          cases hrest
          exact ⟨rfl, rfl⟩

theorem foldl_behind_session (ops : List Op) :
    (ops.foldl behind s).session = s.session ∧
      (ops.foldl behind s).maxKeysInMemory = s.maxKeysInMemory := by
  induction ops generalizing s with
  | nil => exact ⟨rfl, rfl⟩
  | cons op ops ih =>
      obtain ⟨hsession, hlimit⟩ := behind_session (s := s) op
      rw [List.foldl_cons, ← hsession, ← hlimit]
      exact ih

/-! ### The quota -/

/-- The records as a commit would leave them. -/
def merged (s : OpenTxn) : OrderedMap RecordKey Bytes := (s.pending.applyTo s.rows).records

/-- The records with one more set. -/
def mergedWith (s : OpenTxn) (key : RecordKey) (val : Bytes) : OrderedMap RecordKey Bytes :=
  ((s.pending.setRecord key (some val)).applyTo s.rows).records

/-- The projection for a new record is the number of records behind it. -/
theorem Exact.projected (h : s.Exact) {key : RecordKey} (val : Bytes)
    (hnew : s.pending.recordExists s.rows key = false) :
    s.projectedKeyCountForInsert = (s.mergedWith key val).size := by
  have hcount := @Pending.recordCount_setRecord s.rows s.pending key (some val)
  have hdelta := h.delta
  rw [hnew] at hcount
  simp only [View.present, Option.isSome_some, Bool.false_eq_true, if_true, if_false] at hcount
  rw [excess] at hdelta
  rw [mergedWith, ← Pending.recordCount_view, projectedKeyCountForInsert, hdelta]
  show ((s.rows.records.size : ℤ) + _ + 1).toNat = _
  omega

/-- The quota of a transaction is exact. -/
structure QuotaExact (s : OpenTxn) : Prop where
  /-- Committed records and delta are the merged records. -/
  delta : s.keyDelta = (s.merged.size : ℤ) - s.rows.records.size
  /-- A new record is refused exactly if with it there were more than the limit, -/
  refused : ∀ store key val noOverwrite, s.checkScope store = .ok () →
    s.checkReadwrite = .ok () → s.pending.recordExists s.rows ⟨store, key⟩ = false →
    ((∃ e, s.put store key val noOverwrite = .error e) ↔
      s.maxKeysInMemory < (s.mergedWith ⟨store, key⟩ val).size)
  /-- with their number in the error, -/
  needed : ∀ store key val noOverwrite e, s.checkScope store = .ok () →
    s.checkReadwrite = .ok () → s.pending.recordExists s.rows ⟨store, key⟩ = false →
    s.put store key val noOverwrite = .error e →
    e = .quotaExceeded (s.mergedWith ⟨store, key⟩ val).size s.maxKeysInMemory
  /-- and one that replaces another never is. -/
  overwritten : ∀ store key val, s.checkScope store = .ok () → s.checkReadwrite = .ok () →
    s.pending.recordExists s.rows ⟨store, key⟩ = true → ∃ s', s.put store key val false = .ok s'

/-- A put that passes the checks is that of the pending changes. -/
theorem put_eq {store : StoreId} (key val : Bytes) (noOverwrite : Bool)
    (hscope : s.checkScope store = .ok ()) (hwrite : s.checkReadwrite = .ok ()) :
    s.put store key val noOverwrite =
      (s.pending.put s.rows (fun _ => s.checkQuota) ⟨store, key⟩ val noOverwrite).map fun p =>
        { s.withPending p with
          keyDelta := applyRecordTransition s.keyDelta
            (s.pending.recordExists s.rows ⟨store, key⟩) true } := by
  rw [OpenTxn.put, hscope, hwrite]
  rfl

/-- A put of a new record that passes the checks is decided by the projection. -/
theorem put_new {store : StoreId} {key : Bytes} (val : Bytes) (noOverwrite : Bool)
    (hscope : s.checkScope store = .ok ()) (hwrite : s.checkReadwrite = .ok ())
    (hnew : s.pending.recordExists s.rows ⟨store, key⟩ = false) :
    (s.maxKeysInMemory < s.projectedKeyCountForInsert ∧ s.put store key val noOverwrite =
        .error (.quotaExceeded s.projectedKeyCountForInsert s.maxKeysInMemory)) ∨
      (¬s.maxKeysInMemory < s.projectedKeyCountForInsert ∧
        ∃ s', s.put store key val noOverwrite = .ok s') := by
  rw [put_eq key val noOverwrite hscope hwrite]
  by_cases hfull : s.maxKeysInMemory < s.projectedKeyCountForInsert
  · have hquota : s.checkQuota =
        .error (.quotaExceeded s.projectedKeyCountForInsert s.maxKeysInMemory) := if_pos hfull
    refine .inl ⟨hfull, ?_⟩
    have hput : s.pending.put s.rows (fun _ => s.checkQuota) ⟨store, key⟩ val noOverwrite =
        .error (.quotaExceeded s.projectedKeyCountForInsert s.maxKeysInMemory) := by
      simp [Pending.put, hnew, hquota]
    rw [hput]
    rfl
  · have hquota : s.checkQuota = .ok () := if_neg hfull
    refine .inr ⟨hfull, ?_⟩
    have hput : s.pending.put s.rows (fun _ => s.checkQuota) ⟨store, key⟩ val noOverwrite =
        .ok (s.pending.setRecord ⟨store, key⟩ (some val)) := by
      simp [Pending.put, hnew, hquota]
    rw [hput]
    exact ⟨_, rfl⟩

theorem Exact.quotaExact (h : s.Exact) : s.QuotaExact where
  delta := by rw [h.delta, excess, Pending.recordCount_view, merged]
  refused := by
    intro store key val noOverwrite hscope hwrite hnew
    rw [← h.projected val hnew]
    rcases put_new val noOverwrite hscope hwrite hnew with ⟨hfull, herror⟩ | ⟨hfits, s', hok⟩
    · exact ⟨fun _ => hfull, fun _ => ⟨_, herror⟩⟩
    · refine ⟨fun ⟨e, he⟩ => ?_, fun hfull => absurd hfull hfits⟩
      rw [hok] at he
      cases he
  needed := by
    intro store key val noOverwrite e hscope hwrite hnew he
    rw [← h.projected val hnew]
    rcases put_new val noOverwrite hscope hwrite hnew with ⟨-, herror⟩ | ⟨-, s', hok⟩
    · exact Except.error.inj (he.symm.trans herror)
    · rw [hok] at he
      cases he
  overwritten := by
    intro store key val hscope hwrite hold
    have hput : s.pending.put s.rows (fun _ => s.checkQuota) ⟨store, key⟩ val false =
        .ok (s.pending.setRecord ⟨store, key⟩ (some val)) := by
      simp [Pending.put, hold]
    rw [put_eq key val false hscope hwrite, hput]
    exact ⟨_, rfl⟩

end OpenTxn

/-- **The quota is exact** behind every run of the operations of a transaction. -/
theorem quota_exact (session : Session) (mode : TxnMode) (scope : List StoreId) (m : DatabaseMeta)
    (durability : Durability) (maxKeysInMemory : ℕ) (ops : List OpenTxn.Op) :
    let s := ops.foldl OpenTxn.behind (.begin session mode scope m durability maxKeysInMemory)
    s.session = session ∧ s.maxKeysInMemory = maxKeysInMemory ∧ s.QuotaExact := by
  intro s
  obtain ⟨hsession, hlimit⟩ : s.session = session ∧ s.maxKeysInMemory = maxKeysInMemory :=
    OpenTxn.foldl_behind_session ops
  exact ⟨hsession, hlimit, ((OpenTxn.exact_begin session mode scope m durability
    maxKeysInMemory).foldl_behind ops).quotaExact⟩

end BoaIdb.Fs
