import BoaIdb.Backend.View
import BoaIdb.Cursor.Completeness

/-!
What the operations on pending changes do to the view: each acts on the merged rows as its
name says.
-/

namespace BoaIdb.Pending

open OrdMap

def view (base : Rows) (p : Pending) : View :=
  ⟨p.readRecord base, fun k => p.indexEntryExists base k = true⟩

variable {base : Rows} {p : Pending}

/-- What each step of a loop keeps, the loop keeps. -/
theorem foldl_constant {α κ β : Type} (measure : α → β) {step : α → κ → α} {keys : List κ}
    (h : ∀ a, ∀ key ∈ keys, measure (step a key) = measure a) (a : α) :
    measure (keys.foldl step a) = measure a := by
  induction keys generalizing a with
  | nil => rfl
  | cons key keys ih => exact (ih (fun b k hk => h b k (.tail _ hk)) _).trans (h a key (.head _))

/-! ### The undo log -/

@[simp] theorem records_log (op : UndoOp) : (p.log op).records = p.records := by
  unfold log
  split <;> rfl

@[simp] theorem indexEntries_log (op : UndoOp) : (p.log op).indexEntries = p.indexEntries := by
  unfold log
  split <;> rfl

@[simp] theorem keyGenerators_log (op : UndoOp) : (p.log op).keyGenerators = p.keyGenerators := by
  unfold log
  split <;> rfl

/-- The view is read from the maps of records and index entries. -/
theorem view_congr {p q : Pending} (hrecords : p.records = q.records)
    (hentries : p.indexEntries = q.indexEntries) : p.view base = q.view base := by
  simp only [view, readRecord, indexEntryExists, hrecords, hentries, View.mk.injEq, funext_iff,
    implies_true, and_self]

/-! ### Single rows -/

theorem recordExists_eq (key : RecordKey) :
    p.recordExists base key = ((p.view base).records key).isSome := by
  show p.recordExists base key = (p.readRecord base key).isSome
  rw [recordExists, readRecord]
  cases p.records.get? key with
  | none => rfl
  | some slot => rfl

theorem view_setRecord (key : RecordKey) (val : Option Bytes) :
    (p.setRecord key val).view base = (p.view base).setRecord key val := by
  refine View.ext (funext fun k => ?_) ?_
  · simp only [view, readRecord, setRecord, View.setRecord, records_log, OrderedMap.get?_insert,
      Function.update_apply]
    by_cases hk : k = key
    · rw [if_pos hk, if_pos hk]
    · rw [if_neg hk, if_neg hk]
  · simp only [view, indexEntryExists, setRecord, View.setRecord, indexEntries_log]

theorem view_erase {key : RecordKey} (hbase : base.records.get? key = none) :
    { p with records := p.records.erase key }.view base = (p.view base).setRecord key none := by
  refine View.ext (funext fun k => ?_) rfl
  simp only [view, readRecord, View.setRecord, OrderedMap.get?_erase, Function.update_apply]
  by_cases hk : k = key
  · rw [if_pos hk, if_pos hk, hk, hbase]
  · rw [if_neg hk, if_neg hk]

theorem indexEntryExists_iff {k : IndexKey} : p.indexEntryExists base k = true ↔
    p.indexEntries.get? k = some true ∨
      p.indexEntries.get? k = none ∧ k ∈ base.indexEntries.keys := by
  unfold indexEntryExists
  cases h : p.indexEntries.get? k with
  | none => simp [OrderedMap.contains_iff]
  | some existed => simp

theorem indexEntryExists_setIndexEntry (key : IndexKey) (existed : Bool) (k : IndexKey) :
    (p.setIndexEntry key existed).indexEntryExists base k =
      if k = key then existed else p.indexEntryExists base k := by
  simp only [indexEntryExists, setIndexEntry, indexEntries_log, OrderedMap.get?_insert]
  by_cases hk : k = key
  · rw [if_pos hk, if_pos hk]
  · rw [if_neg hk, if_neg hk]

theorem view_setIndexEntry_true (key : IndexKey) :
    (p.setIndexEntry key true).view base = (p.view base).addEntry key := by
  refine View.ext ?_ (funext fun k => propext ?_)
  · funext k
    simp only [view, readRecord, setIndexEntry, View.addEntry, records_log]
  · simp only [view, View.addEntry, indexEntryExists_setIndexEntry]
    by_cases hk : k = key
    · simp [hk]
    · simp [hk]

theorem view_setIndexEntry_false (key : IndexKey) :
    (p.setIndexEntry key false).view base = (p.view base).removeEntry key := by
  refine View.ext ?_ (funext fun k => propext ?_)
  · funext k
    simp only [view, readRecord, setIndexEntry, View.removeEntry, records_log]
  · simp only [view, View.removeEntry, indexEntryExists_setIndexEntry]
    by_cases hk : k = key
    · simp [hk]
    · simp [hk]

/-! ### Index lookups -/

theorem mem_committed_iff {k : IndexKey} : (k ∈ base.indexEntries.keys ∧
    (p.indexEntries.get? k).getD true = true) → p.indexEntryExists base k = true := by
  rintro ⟨hk, hlive⟩
  rw [indexEntryExists_iff]
  cases h : p.indexEntries.get? k with
  | none => exact .inr ⟨rfl, hk⟩
  | some existed =>
      rw [h] at hlive
      exact .inl (congrArg some hlive)

/-- An entry that exists is committed and alive, or pending. -/
theorem exists_cases {k : IndexKey} (h : p.indexEntryExists base k = true) :
    (k ∈ base.indexEntries.keys ∧ (p.indexEntries.get? k).getD true = true) ∨
      (k, true) ∈ p.indexEntries.entries := by
  rcases indexEntryExists_iff.mp h with hpending | ⟨hnone, hk⟩
  · exact .inr (OrderedMap.get?_eq_some_iff.mp hpending)
  · exact .inl ⟨hk, by rw [hnone]; rfl⟩

theorem exists_of_pending {k : IndexKey} (h : (k, true) ∈ p.indexEntries.entries) :
    p.indexEntryExists base k = true :=
  indexEntryExists_iff.mpr (.inl (OrderedMap.get?_eq_some_iff.mpr h))

theorem mem_findIndexEntries {index : IndexId} {idxKey pk : Bytes} :
    pk ∈ p.findIndexEntries base index idxKey ↔
      p.indexEntryExists base ⟨index, idxKey, pk⟩ = true := by
  simp only [findIndexEntries, List.mem_append, List.mem_filter, List.mem_map, decide_eq_true_eq,
    Prod.exists]
  constructor
  · rintro (⟨k, ⟨hk, rfl, rfl, hlive⟩, rfl⟩ | ⟨⟨k, existed, ⟨hk, rfl, rfl, rfl⟩, rfl⟩, -⟩)
    · exact mem_committed_iff ⟨hk, hlive⟩
    · exact exists_of_pending hk
  · intro h
    by_cases hc : ∃ k, (k ∈ base.indexEntries.keys ∧ k.index = index ∧ k.key = idxKey ∧
        (p.indexEntries.get? k).getD true = true) ∧ k.primaryKey = pk
    · exact .inl hc
    · rcases exists_cases h with ⟨hk, hlive⟩ | hk
      · exact .inl ⟨_, ⟨hk, rfl, rfl, hlive⟩, rfl⟩
      · exact .inr ⟨⟨_, true, ⟨hk, rfl, rfl, rfl⟩, rfl⟩, hc⟩

theorem mem_findIndexEntriesByPrimary {index : IndexId} {idxKey pk : Bytes} :
    idxKey ∈ p.findIndexEntriesByPrimary base index pk ↔
      p.indexEntryExists base ⟨index, idxKey, pk⟩ = true := by
  simp only [findIndexEntriesByPrimary, List.mem_append, List.mem_filter, List.mem_map,
    decide_eq_true_eq, Prod.exists]
  constructor
  · rintro (⟨k, ⟨hk, rfl, rfl, hlive⟩, rfl⟩ | ⟨⟨k, existed, ⟨hk, rfl, rfl, rfl⟩, rfl⟩, -⟩)
    · exact mem_committed_iff ⟨hk, hlive⟩
    · exact exists_of_pending hk
  · intro h
    by_cases hc : ∃ k, (k ∈ base.indexEntries.keys ∧ k.index = index ∧ k.primaryKey = pk ∧
        (p.indexEntries.get? k).getD true = true) ∧ k.key = idxKey
    · exact .inl hc
    · rcases exists_cases h with ⟨hk, hlive⟩ | hk
      · exact .inl ⟨_, ⟨hk, rfl, rfl, hlive⟩, rfl⟩
      · exact .inr ⟨⟨_, true, ⟨hk, rfl, rfl, rfl⟩, rfl⟩, hc⟩

theorem isEmpty_findIndexEntries {key : IndexKey} (hfree : p.indexEntryExists base key = false) :
    (p.findIndexEntries base key.index key.key).isEmpty = false ↔ (p.view base).Taken key := by
  rw [List.isEmpty_eq_false_iff_exists_mem]
  simp only [mem_findIndexEntries, View.Taken, view, hfree, Bool.false_eq_true, not_false_eq_true,
    true_and]

/-! ### Operations on one row -/

theorem view_put {quota : Pending → Except BackendError Unit} {key : RecordKey} {val : Bytes}
    {noOverwrite : Bool} {p' : Pending} (h : p.put base quota key val noOverwrite = .ok p') :
    p'.view base = (p.view base).setRecord key (some val) := by
  simp only [put] at h
  split at h
  · cases h
  · split at h
    · cases h
    · rw [← Except.ok.inj h]
      exact view_setRecord key (some val)

/-- An entry is refused exactly when the index is unique and its key is taken. -/
theorem indexPut_eq (base : Rows) (p : Pending) (key : IndexKey) (unique : Bool) :
    (unique = true ∧ (p.view base).Taken key ∧ p.indexPut base key unique =
        .error (.constraint ("Unique constraint violation for index " ++ toString key.index))) ∨
      ¬ (unique = true ∧ (p.view base).Taken key) ∧
        p.indexPut base key unique = .ok (p.setIndexEntry key true) := by
  unfold indexPut
  split
  · next h =>
      simp only [Bool.and_eq_true, Bool.not_eq_true'] at h
      obtain ⟨⟨hunique, hfree⟩, hheld⟩ := h
      exact .inl ⟨hunique, (isEmpty_findIndexEntries hfree).mp hheld, rfl⟩
  · next h =>
      refine .inr ⟨?_, rfl⟩
      rintro ⟨hunique, htaken⟩
      have hfree : p.indexEntryExists base key = false := by
        simpa [view] using htaken.1
      apply h
      simp [hunique, hfree, (isEmpty_findIndexEntries hfree).mpr htaken]

theorem view_indexPut {key : IndexKey} {unique : Bool} {p' : Pending}
    (h : p.indexPut base key unique = .ok p') :
    ¬ (unique = true ∧ (p.view base).Taken key) ∧ p'.view base = (p.view base).addEntry key := by
  rcases indexPut_eq base p key unique with ⟨-, -, herror⟩ | ⟨hfree, hok⟩
  · rw [herror] at h
    cases h
  · rw [hok] at h
    cases h
    exact ⟨hfree, view_setIndexEntry_true key⟩

theorem refused_indexPut {key : IndexKey} {unique : Bool} {e : BackendError}
    (h : p.indexPut base key unique = .error e) :
    (unique = true ∧ (p.view base).Taken key) ∧ ∃ msg, some e = some (.constraint msg) := by
  rcases indexPut_eq base p key unique with ⟨hunique, htaken, herror⟩ | ⟨-, hok⟩
  · rw [herror] at h
    cases h
    exact ⟨⟨hunique, htaken⟩, _, rfl⟩
  · rw [hok] at h
    cases h

/-! ### Operations on many rows -/

/-- Steps that each take one record out of the view take all of them out. -/
theorem foldl_forget {α : Type} (proj : α → View) {step : α → RecordKey → α} {keys : List RecordKey}
    (h : ∀ a, ∀ key ∈ keys, proj (step a key) = (proj a).setRecord key none) (a : α) :
    proj (keys.foldl step a) = (proj a).forget keys := by
  induction keys generalizing a with
  | nil => exact View.ext (funext fun k => by simp [View.forget]) rfl
  | cons key keys ih =>
      rw [List.foldl_cons, ih fun b k hk => h b k (.tail _ hk), h a key (by simp)]
      refine View.ext (funext fun k => ?_) rfl
      simp only [View.forget, View.setRecord, Function.update_apply, List.mem_cons]
      by_cases hk : k = key
      · simp only [hk, if_true, ite_self, true_or]
      · simp only [hk, if_false, false_or]

theorem view_tombstone (acc : Pending × ℕ) (key : RecordKey) :
    (tombstone base acc key).1.view base = (acc.1.view base).setRecord key none :=
  view_setRecord key none

theorem view_dropPending {key : RecordKey} (hbase : base.records.get? key = none)
    (acc : Pending × ℕ) :
    (dropPending acc key).1.view base = (acc.1.view base).setRecord key none := by
  unfold dropPending
  split
  · rw [view_erase hbase]
    exact congrArg (View.setRecord · key none)
      (view_congr (records_log _) (indexEntries_log _))
  · next hpending =>
      refine View.ext (funext fun k => ?_) rfl
      simp only [View.setRecord, Function.update_apply]
      by_cases hk : k = key
      · subst hk
        rw [if_pos rfl]
        simp only [view, readRecord]
        cases hget : acc.1.records.get? k with
        | none => exact hbase
        | some slot =>
            cases slot with
            | none => rfl
            | some val => exact absurd hget (hpending val)
      · rw [if_neg hk]

/-- A record that is neither committed nor pending is not there. -/
theorem readRecord_eq_none {k : RecordKey} (hbase : k ∉ base.records.keys)
    (hpending : k ∉ p.records.keys) : p.readRecord base k = none := by
  have hb : base.records.get? k = none := by
    cases h : base.records.get? k with
    | none => rfl
    | some val => exact absurd (OrderedMap.mem_keys_iff.mpr ⟨val, h⟩) hbase
  have hp : p.records.get? k = none := by
    cases h : p.records.get? k with
    | none => rfl
    | some slot => exact absurd (OrderedMap.mem_keys_iff.mpr ⟨slot, h⟩) hpending
  rw [readRecord, hp]
  exact hb

theorem view_deleteRange (store : StoreId) (range : EncodedRange) :
    (p.deleteRange base store range).1.view base = (p.view base).removeRange store range := by
  unfold deleteRange
  rw [foldl_forget fun acc : Pending × ℕ => acc.1.view base,
    foldl_forget fun acc : Pending × ℕ => acc.1.view base]
  · refine View.ext (funext fun k => ?_) rfl
    simp only [View.forget, View.removeRange, List.mem_filter, decide_eq_true_eq]
    by_cases hk : k.store = store ∧ range.contains k.key = true
    · simp only [hk, and_true]
      by_cases hbase : k ∈ base.records.keys
      · simp [hbase]
      · by_cases hpending : k ∈ p.records.keys
        · simp [hbase, hpending]
        · simp [hbase, hpending, view, readRecord_eq_none hbase hpending]
    · simp [hk]
  · exact fun acc key _ => view_tombstone acc key
  · intro acc key hkey
    simp only [List.mem_filter, decide_eq_true_eq] at hkey
    obtain ⟨⟨-, hrange⟩, hfree⟩ := hkey
    refine view_dropPending ?_ acc
    cases h : base.records.get? key with
    | none => rfl
    | some val => exact absurd ⟨OrderedMap.mem_keys_iff.mpr ⟨val, h⟩, hrange⟩ hfree

theorem view_clear (store : StoreId) :
    (p.clear base store).view base = (p.view base).removeRange store .all := by
  unfold clear
  rw [foldl_forget (fun q : Pending => q.view base) fun q key _ => view_setRecord key none]
  refine View.ext (funext fun k => ?_) rfl
  have hall : EncodedRange.all.contains k.key = true := rfl
  simp only [View.forget, View.removeRange, List.mem_append, List.mem_filter, decide_eq_true_eq,
    hall, and_true]
  by_cases hk : k.store = store
  · by_cases hbase : k ∈ base.records.keys
    · simp [hk, hbase]
    · by_cases hpending : k ∈ p.records.keys
      · simp [hk, hbase, hpending]
      · simp [hk, hbase, hpending, view, readRecord_eq_none hbase hpending]
  · simp [hk]

theorem view_keyGenSet (store : StoreId) (value : F64Bits) :
    (p.keyGenSet base store value).view base = p.view base :=
  view_congr (records_log _) (indexEntries_log _)

theorem view_indexDeleteByPrimary (index : IndexId) (pk : Bytes) :
    (p.indexDeleteByPrimary base index pk).view base = (p.view base).removePrimary index pk := by
  have hfold (keys : List Bytes) (q : Pending) :
      (keys.foldl (fun p idxKey => p.setIndexEntry ⟨index, idxKey, pk⟩ false) q).view base =
        { q.view base with entries := fun k =>
            ¬ (k.index = index ∧ k.primaryKey = pk ∧ k.key ∈ keys) ∧ (q.view base).entries k } := by
    induction keys generalizing q with
    | nil => exact View.ext rfl (funext fun k => by simp)
    | cons idxKey keys ih =>
        rw [List.foldl_cons, ih, view_setIndexEntry_false]
        refine View.ext rfl (funext fun k => propext ?_)
        obtain ⟨i, key, primary⟩ := k
        simp only [View.removeEntry, ne_eq, IndexKey.mk.injEq, List.mem_cons]
        tauto
  rw [indexDeleteByPrimary, hfold]
  refine View.ext rfl (funext fun k => propext ?_)
  simp only [View.removePrimary, mem_findIndexEntriesByPrimary]
  constructor
  · rintro ⟨hkey, hentry⟩
    refine ⟨fun hboth => hkey ⟨hboth.1, hboth.2, ?_⟩, hentry⟩
    obtain ⟨rfl, rfl⟩ := hboth
    exact hentry
  · exact fun ⟨hkey, hentry⟩ => ⟨fun hall => hkey ⟨hall.1, hall.2.1⟩, hentry⟩

/-! ### Rows of a store -/

theorem get?_mergedRecords (k : RecordKey) :
    (p.cursorMaps base).mergedRecords.get? k = p.readRecord base k := by
  rw [CursorMaps.mergedRecords, OrderedMap.get?_merge]
  simp only [cursorMaps, readRecord]
  cases p.records.get? k <;> rfl

/-- A forward walk of a store reaches every row. -/
theorem reachesRows_next (store : StoreId) (range : EncodedRange) :
    (p.cursorMaps base).ReachesRows (.store store) range .next := by
  intro k hk
  have hthere := (Cursor.mem_storeKeys.mp hk).1
  rw [OrderedMap.contains, get?_mergedRecords, readRecord] at hthere
  simp only [CursorMaps.recordReached, CursorMaps.storeUnbounded, Direction.isPrev, cursorMaps,
    Bool.false_and, Bool.not_false, Bool.and_true, OrderedMap.contains]
  cases hget : p.records.get? k with
  | none =>
      rw [hget] at hthere
      simpa using hthere
  | some slot =>
      rw [hget] at hthere
      have hlive : slot.isSome = true := hthere
      simp [hlive]

/-- What a forward walk of a store visits. -/
theorem visit_store_next (store : StoreId) (range : EncodedRange) (keyOnly : Bool) :
    ∃ rows, (Cursor.scan (p.cursorMaps base) (.store store) range .next keyOnly).visit = pure rows ∧
      (p.view base).Lists store range keyOnly rows := by
  refine ⟨_, Cursor.visit_of_reaches (reachesRows_next store range) keyOnly, ?_, ?_⟩
  · have hsorted := Cursor.storeKeys_pairwise (p.cursorMaps base) store range false
    rw [CursorMaps.rows, List.map_map, List.pairwise_map]
    refine hsorted.imp_of_mem fun {a b} ha hb hab => ?_
    have hstore : a.store = b.store :=
      (Cursor.mem_storeKeys.mp ha).2.1.trans (Cursor.mem_storeKeys.mp hb).2.1.symm
    have hlt : a < b := by simpa [OrdMap.ahead] using hab
    rcases RecordKey.lt_iff.mp hlt with h | h
    · exact absurd h (hstore ▸ lt_irrefl _)
    · exact h.2
  · intro row
    simp only [CursorMaps.rows, List.mem_map, Cursor.mem_storeKeys, OrderedMap.contains,
      get?_mergedRecords, CursorMaps.storeRow, CursorMaps.value]
    constructor
    · rintro ⟨k, ⟨hthere, rfl, hrange⟩, rfl⟩
      obtain ⟨val, hval⟩ := Option.isSome_iff_exists.mp hthere
      refine ⟨hrange, rfl, val, hval, ?_⟩
      cases keyOnly
      · exact hval
      · rfl
    · obtain ⟨key, primaryKey, val⟩ := row
      rintro ⟨hrange, hprimary, bytes, hval, hshown⟩
      obtain rfl : primaryKey = key := hprimary
      obtain rfl : val = _ := hshown
      refine ⟨⟨store, primaryKey⟩, ⟨?_, rfl, hrange⟩, ?_⟩
      · exact Option.isSome_iff_exists.mpr ⟨bytes, hval⟩
      · cases keyOnly
        · exact congrArg (fun v => (primaryKey, primaryKey, v)) hval
        · rfl

end BoaIdb.Pending
