import BoaIdb.Backend.CountScan

/-!
Operations that stay inside the scope of a transaction.

What an operation on pending changes reads of the committed rows lies in the stores that it is
about and in their indexes, walks backward without a bound apart; and so does what it writes.
-/

namespace BoaIdb

open OrdMap

/-- The stores of a scope; an index belongs to a store. -/
structure Region where
  scope : List StoreId
  owner : IndexId → StoreId

/-- A source of a region. -/
def SourceRef.Inside (g : Region) : SourceRef → Prop
  | .store id => id ∈ g.scope
  | .index id idx => id ∈ g.scope ∧ g.owner idx = id

/-- A walk that goes forward, or starts at a bound. -/
def SourceRef.bounded (range : EncodedRange) (dir : Direction) : SourceRef → Bool
  | .store _ => !CursorMaps.storeUnbounded range dir.isPrev
  | .index _ _ => !CursorMaps.indexUnbounded range dir.isPrev

/-- Committed rows that are the same in a region. -/
structure Rows.Agree (g : Region) (base base' : Rows) : Prop where
  records : ∀ k, k.store ∈ g.scope → base.records.get? k = base'.records.get? k
  indexEntries : ∀ k, g.owner k.index ∈ g.scope →
    base.indexEntries.get? k = base'.indexEntries.get? k
  generators : ∀ id ∈ g.scope, base.keyGenerators.get? id = base'.keyGenerators.get? id

theorem Rows.Agree.symm {g : Region} {base base' : Rows} (h : Rows.Agree g base base') :
    Rows.Agree g base' base :=
  ⟨fun k hk => (h.records k hk).symm, fun k hk => (h.indexEntries k hk).symm,
    fun id hid => (h.generators id hid).symm⟩

/-- The keys that meet a condition are those of another map that is the same on them. -/
theorem filter_keys_congr {K V : Type} [LinearOrder K] {m m' : OrderedMap K V} {q : K → Bool}
    (h : ∀ k, q k = true → m.get? k = m'.get? k) : m.keys.filter q = m'.keys.filter q := by
  have hsame : m.filter (fun k _ => q k) = m'.filter fun k _ => q k := by
    ext k : 1
    rw [OrderedMap.get?_filter, OrderedMap.get?_filter]
    cases hk : q k with
    | false => simp
    | true => rw [h k hk]
  have hkeys (m : OrderedMap K V) : (m.filter fun k _ => q k).keys = m.keys.filter q := by
    simp only [OrderedMap.keys, OrderedMap.filter, List.filter_map]
    rfl
  rw [← hkeys m, ← hkeys m', hsame]

namespace Pending

variable {g : Region} {base base' : Rows} {p q : Pending}

/-! ### Reads -/

section Reads

variable (h : Rows.Agree g base base')

include h

theorem readRecord_agree {k : RecordKey} (hk : k.store ∈ g.scope) :
    p.readRecord base k = p.readRecord base' k := by
  rw [readRecord, readRecord, h.records k hk]

theorem recordExists_agree {k : RecordKey} (hk : k.store ∈ g.scope) :
    p.recordExists base k = p.recordExists base' k := by
  rw [recordExists, recordExists, OrderedMap.contains, OrderedMap.contains, h.records k hk]

theorem indexEntryExists_agree {k : IndexKey} (hk : g.owner k.index ∈ g.scope) :
    p.indexEntryExists base k = p.indexEntryExists base' k := by
  rw [indexEntryExists, indexEntryExists, OrderedMap.contains, OrderedMap.contains,
    h.indexEntries k hk]

theorem findIndexEntries_agree {index : IndexId} (hindex : g.owner index ∈ g.scope)
    (idxKey : Bytes) :
    p.findIndexEntries base index idxKey = p.findIndexEntries base' index idxKey := by
  unfold findIndexEntries
  rw [filter_keys_congr fun k hk => h.indexEntries k ?_]
  obtain ⟨rfl, -⟩ := of_decide_eq_true hk
  exact hindex

theorem findIndexEntriesByPrimary_agree {index : IndexId} (hindex : g.owner index ∈ g.scope)
    (primaryKey : Bytes) : p.findIndexEntriesByPrimary base index primaryKey =
      p.findIndexEntriesByPrimary base' index primaryKey := by
  unfold findIndexEntriesByPrimary
  rw [filter_keys_congr fun k hk => h.indexEntries k ?_]
  obtain ⟨rfl, -⟩ := of_decide_eq_true hk
  exact hindex

theorem keyGenCurrent_agree {id : StoreId} (hid : id ∈ g.scope) :
    p.keyGenCurrent base id = p.keyGenCurrent base' id := by
  rw [keyGenCurrent, keyGenCurrent, Rows.generator, Rows.generator, h.generators id hid]

/-! ### Walks -/

theorem mergedRecords_agree {k : RecordKey} (hk : k.store ∈ g.scope) :
    (p.cursorMaps base).mergedRecords.get? k = (p.cursorMaps base').mergedRecords.get? k := by
  rw [get?_mergedRecords, get?_mergedRecords, readRecord_agree h hk]

theorem mergedIndex_agree {k : IndexKey} (hk : g.owner k.index ∈ g.scope) :
    (p.cursorMaps base).mergedIndex.get? k = (p.cursorMaps base').mergedIndex.get? k := by
  rw [CursorMaps.mergedIndex, CursorMaps.mergedIndex, OrderedMap.get?_merge, OrderedMap.get?_merge]
  simp only [cursorMaps, h.indexEntries k hk]

omit h in
theorem keys_walk {K V : Type} [LinearOrder K] (m : OrderedMap K V) (desc : Bool) :
    (m.ordered desc).map Prod.fst = if desc then m.keys.reverse else m.keys := by
  cases desc with
  | false => rfl
  | true => exact List.map_reverse

theorem storeKeys_agree {store : StoreId} (hstore : store ∈ g.scope) (range : EncodedRange)
    (desc : Bool) : (p.cursorMaps base).storeKeys store range desc =
      (p.cursorMaps base').storeKeys store range desc := by
  have hkeys := @filter_keys_congr _ _ _ (p.cursorMaps base).mergedRecords
    (p.cursorMaps base').mergedRecords (fun k => k.store = store ∧ range.contains k.key = true)
    fun k hk => mergedRecords_agree h ((of_decide_eq_true hk).1 ▸ hstore)
  unfold CursorMaps.storeKeys
  rw [keys_walk, keys_walk]
  cases desc with
  | false => exact hkeys
  | true =>
      rw [if_pos rfl, if_pos rfl, List.filter_reverse, List.filter_reverse]
      exact congrArg List.reverse hkeys

theorem indexKeys_agree {index : IndexId} (hindex : g.owner index ∈ g.scope)
    (range : EncodedRange) (desc : Bool) : (p.cursorMaps base).indexKeys index range desc =
      (p.cursorMaps base').indexKeys index range desc := by
  have hkeys := @filter_keys_congr _ _ _ (p.cursorMaps base).mergedIndex
    (p.cursorMaps base').mergedIndex (fun k => k.index = index ∧ range.contains k.key = true)
    fun k hk => mergedIndex_agree h ((of_decide_eq_true hk).1 ▸ hindex)
  unfold CursorMaps.indexKeys
  rw [keys_walk, keys_walk]
  cases desc with
  | false => exact hkeys
  | true =>
      rw [if_pos rfl, if_pos rfl, List.filter_reverse, List.filter_reverse]
      exact congrArg List.reverse hkeys

theorem rows_agree {src : SourceRef} (hsrc : src.Inside g) (range : EncodedRange) (dir : Direction)
    (keyOnly : Bool) : (p.cursorMaps base).rows src range dir keyOnly =
      (p.cursorMaps base').rows src range dir keyOnly := by
  have hvalue {k : RecordKey} (hk : k.store ∈ g.scope) :
      (p.cursorMaps base).value keyOnly k = (p.cursorMaps base').value keyOnly k := by
    rw [CursorMaps.value, CursorMaps.value, mergedRecords_agree h hk]
  cases src with
  | store store =>
      simp only [CursorMaps.rows, storeKeys_agree h hsrc]
      refine List.map_congr_left fun k hk => ?_
      have hstore : k.store ∈ g.scope := (Cursor.mem_storeKeys.mp hk).2.1 ▸ hsrc
      rw [CursorMaps.storeRow, CursorMaps.storeRow, hvalue hstore]
  | index store index =>
      obtain ⟨hstore, howner⟩ := hsrc
      simp only [CursorMaps.rows, indexKeys_agree h (howner.symm ▸ hstore)]
      refine List.map_congr_left fun k _ => ?_
      rw [CursorMaps.indexRow, CursorMaps.indexRow, hvalue hstore]

theorem count_agree {src : SourceRef} (hsrc : src.Inside g) (range : EncodedRange) :
    p.count base src range = p.count base' src range := by
  rw [count_eq_length src range true, count_eq_length src range true, rows_agree h hsrc]

/-! ### Writes -/

theorem put_agree {k : RecordKey} (hk : k.store ∈ g.scope)
    (quota : Pending → Except BackendError Unit) (val : Bytes) (noOverwrite : Bool) :
    p.put base quota k val noOverwrite = p.put base' quota k val noOverwrite := by
  rw [put, put, recordExists_agree h hk]

theorem deleteRange_agree {store : StoreId} (hstore : store ∈ g.scope) (range : EncodedRange) :
    p.deleteRange base store range = p.deleteRange base' store range := by
  have hkeys : base.records.keys.filter (fun k => k.store = store ∧ range.contains k.key = true) =
      base'.records.keys.filter fun k => k.store = store ∧ range.contains k.key = true :=
    filter_keys_congr fun k hk => h.records k ((of_decide_eq_true hk).1 ▸ hstore)
  unfold deleteRange
  rw [hkeys]
  refine congrArg (fun acc => List.foldl dropPending acc _) ?_
  refine List.foldl_ext _ _ _ fun acc k hk => ?_
  have hk : k.store = store := (of_decide_eq_true (List.mem_filter.mp hk).2).1
  rw [tombstone, tombstone, readRecord_agree h (hk ▸ hstore)]

theorem clear_agree {store : StoreId} (hstore : store ∈ g.scope) :
    p.clear base store = p.clear base' store := by
  have hkeys : base.records.keys.filter (fun k => k.store = store) =
      base'.records.keys.filter fun k => k.store = store :=
    filter_keys_congr fun k hk => h.records k (of_decide_eq_true hk ▸ hstore)
  unfold clear
  rw [hkeys]

theorem keyGenSet_agree {id : StoreId} (hid : id ∈ g.scope) (value : F64Bits) :
    p.keyGenSet base id value = p.keyGenSet base' id value := by
  rw [keyGenSet, keyGenSet, keyGenCurrent_agree h hid]

theorem indexPut_agree {k : IndexKey} (hk : g.owner k.index ∈ g.scope) (unique : Bool) :
    p.indexPut base k unique = p.indexPut base' k unique := by
  rw [indexPut, indexPut, indexEntryExists_agree h hk, findIndexEntries_agree h hk]

theorem indexDeleteByPrimary_agree {index : IndexId} (hindex : g.owner index ∈ g.scope)
    (primaryKey : Bytes) :
    p.indexDeleteByPrimary base index primaryKey =
      p.indexDeleteByPrimary base' index primaryKey := by
  rw [indexDeleteByPrimary, indexDeleteByPrimary, findIndexEntriesByPrimary_agree h hindex]

end Reads

/-! ### What is reached -/

/-- A merged record is reached by a walk with a bound. -/
theorem recordReached_of_bounded {range : EncodedRange} {desc : Bool} {k : RecordKey}
    (hbounded : CursorMaps.storeUnbounded range desc = false)
    (hk : (p.cursorMaps base).mergedRecords.contains k = true) :
    (p.cursorMaps base).recordReached range desc k = true := by
  rw [OrderedMap.contains, get?_mergedRecords, readRecord] at hk
  simp only [CursorMaps.recordReached, hbounded, cursorMaps, Bool.false_and, Bool.not_false,
    Bool.and_true, OrderedMap.contains]
  cases hget : p.records.get? k with
  | none =>
      rw [hget] at hk
      simpa using hk
  | some slot =>
      rw [hget] at hk
      have hlive : slot.isSome = true := hk
      simp [hlive]

theorem entryReached_of_bounded {maps : CursorMaps} {range : EncodedRange} {desc : Bool}
    {k : IndexKey} (hbounded : CursorMaps.indexUnbounded range desc = false)
    (hk : maps.mergedIndex.contains k = true) : maps.entryReached range desc k = true := by
  rw [CursorMaps.entryReached, hbounded]
  rcases Cursor.mergedIndex_contains_iff.mp hk with ⟨hcommitted, halive⟩ | hpending
  · simp only [Bool.or_eq_true, Bool.and_eq_true]
    exact .inl ⟨⟨hcommitted, halive⟩, by simp⟩
  · rw [← OrderedMap.get?_eq_some_iff] at hpending
    simp [hpending]

/-- A walk with a bound where it starts visits every merged row. -/
theorem visit_bounded {src : SourceRef} {range : EncodedRange} {dir : Direction}
    (hbounded : src.bounded range dir = true) (keyOnly : Bool) :
    (Cursor.scan (p.cursorMaps base) src range dir keyOnly).visit =
      pure ((p.cursorMaps base).rows src range dir keyOnly) := by
  refine Cursor.visit_of_reaches ?_ keyOnly
  cases src with
  | store store =>
      intro k hk
      exact recordReached_of_bounded (Bool.not_eq_true' _ ▸ hbounded) (Cursor.mem_storeKeys.mp hk).1
  | index store index =>
      have hreached {k : IndexKey} (hk : k ∈ (p.cursorMaps base).indexKeys index range dir.isPrev) :
          (p.cursorMaps base).entryReached range dir.isPrev k = true :=
        entryReached_of_bounded (Bool.not_eq_true' _ ▸ hbounded) (Cursor.mem_indexKeys.mp hk).1
      simp only [CursorMaps.ReachesRows]
      split
      · intro t ht
        have hmem := (Cursor.mem_groupMins.mp (List.mem_of_mem_head? ht)).1
        have hindex := (Cursor.mem_indexKeys.mp hmem).2.1
        exact List.any_eq_true.mpr ⟨t, hindex ▸ hmem, by simpa using hreached hmem⟩
      · exact fun k hk => hreached hk

/-! ### What is written -/

/-- An entry of an undo log restores what lies in a region. -/
def UndoInside (g : Region) : UndoOp → Prop
  | .restoreRecord key _ => key.store ∈ g.scope
  | .restoreIndex key _ => g.owner key.index ∈ g.scope
  | .restoreKeyGen store _ => store ∈ g.scope

/-- Pending changes of a region. -/
structure Inside (g : Region) (p : Pending) : Prop where
  records : ∀ k, p.records.get? k ≠ none → k.store ∈ g.scope
  indexEntries : ∀ k, p.indexEntries.get? k ≠ none → g.owner k.index ∈ g.scope
  generators : ∀ id, p.keyGenerators.get? id ≠ none → id ∈ g.scope
  undo : ∀ ops ∈ p.undoStack, ∀ op ∈ ops, UndoInside g op

theorem inside_empty : Pending.empty.Inside g where
  records _ h := absurd rfl h
  indexEntries _ h := absurd rfl h
  generators _ h := absurd rfl h
  undo _ h := nomatch h

theorem get?_insert_ne_none {K V : Type} [LinearOrder K] {m : OrderedMap K V} {k k' : K} {v : V}
    (h : (m.insert k v).get? k' ≠ none) : k' = k ∨ m.get? k' ≠ none := by
  rw [OrderedMap.get?_insert] at h
  split at h
  · next hk => exact .inl hk
  · exact .inr h

theorem get?_erase_ne_none {K V : Type} [LinearOrder K] {m : OrderedMap K V} {k k' : K}
    (h : (m.erase k).get? k' ≠ none) : m.get? k' ≠ none := by
  rw [OrderedMap.get?_erase] at h
  split at h
  · exact absurd rfl h
  · exact h

theorem Inside.setRecords (h : p.Inside g) {key : RecordKey} (hkey : key.store ∈ g.scope)
    (val : Option Bytes) : Inside g { p with records := p.records.insert key val } :=
  ⟨fun k hk => (get?_insert_ne_none hk).elim (fun heq => heq ▸ hkey) (h.records k),
    h.indexEntries, h.generators, h.undo⟩

theorem Inside.eraseRecord (h : p.Inside g) (key : RecordKey) :
    Inside g { p with records := p.records.erase key } :=
  ⟨fun k hk => h.records k (get?_erase_ne_none hk), h.indexEntries, h.generators, h.undo⟩

theorem Inside.setEntries (h : p.Inside g) {key : IndexKey} (hkey : g.owner key.index ∈ g.scope)
    (existed : Bool) : Inside g { p with indexEntries := p.indexEntries.insert key existed } :=
  ⟨h.records, fun k hk => (get?_insert_ne_none hk).elim (fun heq => heq ▸ hkey) (h.indexEntries k),
    h.generators, h.undo⟩

theorem Inside.eraseEntry (h : p.Inside g) (key : IndexKey) :
    Inside g { p with indexEntries := p.indexEntries.erase key } :=
  ⟨h.records, fun k hk => h.indexEntries k (get?_erase_ne_none hk), h.generators, h.undo⟩

theorem Inside.setGenerator (h : p.Inside g) {store : StoreId} (hstore : store ∈ g.scope)
    (value : F64Bits) : Inside g { p with keyGenerators := p.keyGenerators.insert store value } :=
  ⟨h.records, h.indexEntries,
    fun id hid => (get?_insert_ne_none hid).elim (fun heq => heq ▸ hstore) (h.generators id),
    h.undo⟩

theorem Inside.log (h : p.Inside g) {op : UndoOp} (hop : UndoInside g op) :
    (p.log op).Inside g := by
  refine ⟨?_, ?_, ?_, ?_⟩
  · rw [records_log]
    exact h.records
  · rw [indexEntries_log]
    exact h.indexEntries
  · rw [keyGenerators_log]
    exact h.generators
  · unfold Pending.log
    split
    · exact h.undo
    · next ops outer hlevels =>
        have hundo := h.undo
        rw [hlevels] at hundo
        rintro ops' hops' op' hop'
        rcases List.mem_cons.mp hops' with rfl | hops'
        · rcases List.mem_cons.mp hop' with rfl | hop'
          · exact hop
          · exact hundo ops (.head _) op' hop'
        · exact hundo ops' (.tail _ hops') op' hop'

theorem Inside.setRecord (h : p.Inside g) {key : RecordKey} (hkey : key.store ∈ g.scope)
    (val : Option Bytes) : (p.setRecord key val).Inside g :=
  (h.log (show UndoInside g (.restoreRecord key (p.pendingSlot key)) from hkey)).setRecords hkey val

theorem Inside.setIndexEntry (h : p.Inside g) {key : IndexKey}
    (hkey : g.owner key.index ∈ g.scope) (existed : Bool) :
    (p.setIndexEntry key existed).Inside g :=
  (h.log (show UndoInside g (.restoreIndex key (p.indexEntries.get? key)) from hkey)).setEntries
    hkey existed

theorem Inside.put (h : p.Inside g) {key : RecordKey} (hkey : key.store ∈ g.scope)
    {quota : Pending → Except BackendError Unit} {val : Bytes} {noOverwrite : Bool}
    (hput : p.put base quota key val noOverwrite = .ok q) : q.Inside g := by
  rw [put_ok hput]
  exact h.setRecord hkey _

theorem Inside.tombstone {acc : Pending × ℕ} (h : acc.1.Inside g) {key : RecordKey}
    (hkey : key.store ∈ g.scope) : (tombstone base acc key).1.Inside g :=
  h.setRecord hkey none

theorem Inside.dropPending {acc : Pending × ℕ} (h : acc.1.Inside g) {key : RecordKey}
    (hkey : key.store ∈ g.scope) : (dropPending acc key).1.Inside g := by
  unfold Pending.dropPending
  split
  · next val _ =>
      exact (h.log (show UndoInside g (.restoreRecord key (.value val)) from hkey)).eraseRecord key
  · exact h

/-- What each step of a loop keeps. -/
theorem foldl_inside {α κ : Type} (proj : α → Pending) {step : α → κ → α} {keys : List κ}
    (hstep : ∀ a, ∀ k ∈ keys, (proj a).Inside g → (proj (step a k)).Inside g) {a : α}
    (h : (proj a).Inside g) : (proj (keys.foldl step a)).Inside g := by
  induction keys generalizing a with
  | nil => exact h
  | cons k keys ih => exact ih (fun b j hj => hstep b j (.tail _ hj)) (hstep a k (.head _) h)

theorem Inside.deleteRange (h : p.Inside g) {store : StoreId} (hstore : store ∈ g.scope)
    (range : EncodedRange) : (p.deleteRange base store range).1.Inside g := by
  unfold Pending.deleteRange
  refine foldl_inside Prod.fst (fun acc k hk hacc => hacc.dropPending ?_)
    (foldl_inside Prod.fst (fun acc k hk hacc => hacc.tombstone ?_) h)
  · have hk := (List.mem_filter.mp (List.mem_filter.mp hk).1).2
    exact (of_decide_eq_true hk).1 ▸ hstore
  · exact (of_decide_eq_true (List.mem_filter.mp hk).2).1 ▸ hstore

theorem Inside.clear (h : p.Inside g) {store : StoreId} (hstore : store ∈ g.scope) :
    (p.clear base store).Inside g := by
  unfold Pending.clear
  refine foldl_inside id (fun q k hk hq => hq.setRecord ?_ none) h
  rcases List.mem_append.mp hk with hk | hk
  · exact of_decide_eq_true (List.mem_filter.mp hk).2 ▸ hstore
  · exact of_decide_eq_true (List.mem_filter.mp (List.mem_filter.mp hk).1).2 ▸ hstore

theorem Inside.keyGenSet (h : p.Inside g) {store : StoreId} (hstore : store ∈ g.scope)
    (value : F64Bits) : (p.keyGenSet base store value).Inside g :=
  (h.log (show UndoInside g (.restoreKeyGen store (p.keyGenCurrent base store)) from
    hstore)).setGenerator hstore value

theorem Inside.indexPut (h : p.Inside g) {key : IndexKey} (hkey : g.owner key.index ∈ g.scope)
    {unique : Bool} (hput : p.indexPut base key unique = .ok q) : q.Inside g := by
  rw [indexPut_ok hput]
  exact h.setIndexEntry hkey true

theorem Inside.indexDeleteByPrimary (h : p.Inside g) {index : IndexId}
    (hindex : g.owner index ∈ g.scope) (primaryKey : Bytes) :
    (p.indexDeleteByPrimary base index primaryKey).Inside g :=
  foldl_inside id (fun _ idxKey _ hq =>
    hq.setIndexEntry (show g.owner (IndexKey.mk index idxKey primaryKey).index ∈ _ from hindex)
      false) h

/-! ### Savepoints -/

theorem Inside.beginRequest (h : p.Inside g) : p.beginRequest.Inside g where
  records := h.records
  indexEntries := h.indexEntries
  generators := h.generators
  undo ops hops op hop := by
    rcases List.mem_cons.mp hops with rfl | hops
    · cases hop
    · exact h.undo ops hops op hop

theorem Inside.commitRequest (h : p.Inside g) (hcommit : p.commitRequest = .ok q) :
    q.Inside g := by
  unfold Pending.commitRequest at hcommit
  split at hcommit
  · cases hcommit
  · cases hcommit
    exact ⟨h.records, h.indexEntries, h.generators, fun _ hops => nomatch hops⟩
  · next ops parent outer hlevels =>
      cases hcommit
      have hundo := h.undo
      rw [hlevels] at hundo
      refine ⟨h.records, h.indexEntries, h.generators, fun log hlog op hop => ?_⟩
      rcases List.mem_cons.mp hlog with rfl | hlog
      · rcases List.mem_append.mp hop with hop | hop
        · exact hundo ops (.head _) op hop
        · exact hundo parent (.tail _ (.head _)) op hop
      · exact hundo log (.tail _ (.tail _ hlog)) op hop

theorem Inside.undone (h : p.Inside g) {op : UndoOp} (hop : UndoInside g op) :
    (p.undo op).Inside g := by
  cases op with
  | restoreRecord key old =>
      cases old with
      | absent => exact h.eraseRecord key
      | deleted => exact h.setRecords hop none
      | value val => exact h.setRecords hop (some val)
  | restoreIndex key old =>
      cases old with
      | none => exact h.eraseEntry key
      | some existed => exact h.setEntries hop existed
  | restoreKeyGen store oldVal => exact h.setGenerator hop oldVal

theorem Inside.rollbackRequest (h : p.Inside g) (hrollback : p.rollbackRequest = .ok q) :
    q.Inside g := by
  unfold Pending.rollbackRequest at hrollback
  split at hrollback
  · cases hrollback
  · next ops outer hlevels =>
      cases hrollback
      have hundo := h.undo
      rw [hlevels] at hundo
      refine foldl_inside id (fun _ op hop hq => hq.undone (hundo ops (.head _) op hop)) ?_
      exact ⟨h.records, h.indexEntries, h.generators, fun log hlog => hundo log (.tail _ hlog)⟩

/-! ### Commits -/

/-- What is committed in a region is not seen outside of it. -/
theorem Inside.agree_applyTo (h : p.Inside g) {g' : Region} (howner : g'.owner = g.owner)
    (hdisjoint : ∀ id ∈ g.scope, id ∉ g'.scope) : Rows.Agree g' base (p.applyTo base) where
  records k hk := by
    have hnone : p.records.get? k = none := by
      by_contra hsome
      exact hdisjoint _ (h.records k hsome) hk
    rw [applyTo, OrderedMap.get?_merge, hnone]
  indexEntries k hk := by
    have hnone : p.indexEntries.get? k = none := by
      by_contra hsome
      exact hdisjoint _ (h.indexEntries k hsome) (howner ▸ hk)
    rw [applyTo, OrderedMap.get?_merge, hnone]
  generators id hid := by
    have hnone : p.keyGenerators.get? id = none := by
      by_contra hsome
      exact hdisjoint _ (h.generators id hsome) hid
    rw [applyTo, OrderedMap.get?_merge, hnone]

/-- Commits of different keys may change places. -/
theorem merge_comm {K V W : Type} [LinearOrder K] {slot : W → Option V} {m : OrderedMap K V}
    {l l' : OrderedMap K W} (h : ∀ k, l.get? k ≠ none → l'.get? k = none) :
    (m.merge slot l').merge slot l = (m.merge slot l).merge slot l' := by
  ext k : 1
  simp only [OrderedMap.get?_merge]
  cases hl : l.get? k with
  | none => rfl
  | some v => rw [h k (by rw [hl]; exact Option.some_ne_none v)]

theorem Inside.applyTo_comm (hp : p.Inside g) {g' : Region} (hq : q.Inside g')
    (howner : g'.owner = g.owner) (hdisjoint : ∀ id ∈ g.scope, id ∉ g'.scope) :
    p.applyTo (q.applyTo base) = q.applyTo (p.applyTo base) := by
  simp only [applyTo, Rows.mk.injEq]
  refine ⟨merge_comm fun k hk => ?_, merge_comm fun k hk => ?_, merge_comm fun id hid => ?_⟩
  · by_contra hsome
    exact hdisjoint _ (hp.records k hk) (hq.records k hsome)
  · by_contra hsome
    exact hdisjoint _ (hp.indexEntries k hk) (howner ▸ hq.indexEntries k hsome)
  · by_contra hsome
    exact hdisjoint _ (hp.generators id hid) (hq.generators id hsome)

/-- Nothing is committed of a transaction that has written nothing. -/
theorem Untouched.applyTo (h : p.Untouched) (base : Rows) : p.applyTo base = base := by
  obtain ⟨hrecords, hentries, hgenerators, -⟩ := h
  rw [Pending.applyTo, hrecords, hentries, hgenerators]
  rfl

end Pending

end BoaIdb
