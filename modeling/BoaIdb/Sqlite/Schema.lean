import BoaIdb.Backend.SchemaTxn
import BoaIdb.Sqlite.Tables

/-!
The schema that is loaded from the tables, and what the statements do to it.

Rows are loaded in the order of their ids. A new row has the largest one, so it comes last.
-/

namespace BoaIdb.Sqlite

open Faults OrdMap

/-- A new id is above all that are in use. -/
theorem nextRowid_above {V : Type} {table : OrderedMap UInt64 V} {id : UInt64}
    (h : nextRowid table = .ok id) : ∀ k ∈ table.keys, k < id := by
  intro k hk
  unfold nextRowid at h
  cases hlast : table.keys.getLast? with
  | none =>
      rw [List.getLast?_eq_none_iff.mp hlast] at hk
      exact absurd hk List.not_mem_nil
  | some last =>
      rw [hlast] at h
      dsimp only at h
      split at h
      · rename_i hbound
        have hle : k ≤ last := by
          have hmax : table.keys.getLast (List.ne_nil_of_mem hk) = last :=
            (List.getLast_eq_iff_getLast?_eq_some _).mpr hlast
          rw [← hmax]
          exact (table.keys_sorted.imp le_of_lt).rel_getLast hk
        have hlt : last < last + 1 := by
          rw [UInt64.lt_iff_toNat_lt] at hbound ⊢
          rw [UInt64.toNat_add]
          have hmax : (0x7FFFFFFFFFFFFFFF : UInt64).toNat = 0x7FFFFFFFFFFFFFFF := rfl
          have hone : (1 : UInt64).toNat = 1 := rfl
          rw [hmax] at hbound
          rw [hone, Nat.mod_eq_of_lt (by omega)]
          omega
        rw [← Except.ok.inj h]
        exact lt_of_le_of_lt hle hlt
      · cases h

namespace Tables

/-- The index of a row. -/
def indexMeta (e : IndexId × IndexRow) : IndexMeta :=
  ⟨e.1, e.2.storeId, e.2.name, e.2.keyPath, e.2.isUnique, e.2.multiEntry, false⟩

/-- The stores and indexes of the tables, without the generators. -/
def schema (t : Tables) : List StoreMeta := t.loadMetadata.schema

/-- The store of a row, without its generator. -/
def storeMeta (t : Tables) (e : StoreId × StoreRow) : StoreMeta :=
  ⟨e.1, e.2.name, e.2.keyPath, e.2.autoIncrement, keyGenStart, t.loadIndexes e.1, false⟩

variable {t t' : Tables}

theorem schema_eq (t : Tables) : t.schema = t.objectStores.entries.map t.storeMeta := by
  show (t.objectStores.entries.map _).map _ = _
  rw [List.map_map]
  rfl

theorem loadIndexes_eq (t : Tables) (store : StoreId) :
    t.loadIndexes store =
      (t.indexes.entries.filter fun e => e.2.storeId = store).map indexMeta := by
  apply List.map_congr_left
  intro e he
  have hstore : e.2.storeId = store := by simpa using (List.mem_filter.mp he).2
  rw [indexMeta, hstore]

theorem mem_loadIndexes {store : StoreId} {i : IndexMeta} (hi : i ∈ t.loadIndexes store) :
    ∃ row, t.indexes.get? i.id = some row ∧ row.storeId = store ∧ i = indexMeta (i.id, row) := by
  rw [loadIndexes_eq] at hi
  obtain ⟨e, he, rfl⟩ := List.mem_map.mp hi
  obtain ⟨hmem, hstore⟩ := List.mem_filter.mp he
  exact ⟨e.2, OrderedMap.get?_eq_some_iff.mpr hmem, of_decide_eq_true hstore, rfl⟩

/-! ### Ids are unique -/

theorem stores_distinct (t : Tables) : t.schema.Pairwise fun s s' => s.id ≠ s'.id := by
  rw [schema_eq, List.pairwise_map]
  exact t.objectStores.sorted.imp fun h => ne_of_lt h

theorem indexes_distinct (t : Tables) (store : StoreId) :
    (t.loadIndexes store).Pairwise fun i i' => i.id ≠ i'.id := by
  rw [loadIndexes_eq, List.pairwise_map]
  exact (t.indexes.sorted.filter _).imp fun h => ne_of_lt h

theorem schema_live {s : StoreMeta} (hs : s ∈ t.schema) :
    s.deleted = false ∧ ∃ store, s.indexes = t.loadIndexes store := by
  rw [schema_eq] at hs
  obtain ⟨e, -, rfl⟩ := List.mem_map.mp hs
  exact ⟨rfl, e.1, rfl⟩

theorem loadIndexes_live {store : StoreId} {i : IndexMeta} (hi : i ∈ t.loadIndexes store) :
    i.deleted = false := by
  obtain ⟨row, -, -, hi⟩ := mem_loadIndexes hi
  rw [hi, indexMeta]

/-- A change of a store is one of the only row with its id. -/
theorem updateStore_schema (t : Tables) (id : StoreId) (f : StoreMeta → StoreMeta) :
    updateStore id f t.schema = t.schema.map fun s => if s.id = id then f s else s := by
  have hone : t.schema.Pairwise fun s s' =>
      ¬ (decide (s.id = id) = true ∧ decide (s'.id = id) = true) := by
    refine t.stores_distinct.imp fun hne => ?_
    rintro ⟨h, h'⟩
    exact hne ((of_decide_eq_true h).trans (of_decide_eq_true h').symm)
  rw [updateStore, updateFirst_eq_map hone]
  simp only [decide_eq_true_eq]

theorem updateIndex_loadIndexes (t : Tables) (store : StoreId) (id : IndexId)
    (f : IndexMeta → IndexMeta) :
    updateIndex id f (t.loadIndexes store) =
      (t.loadIndexes store).map fun i => if i.id = id then f i else i := by
  have hone : (t.loadIndexes store).Pairwise fun i i' =>
      ¬ (decide (i.id = id) = true ∧ decide (i'.id = id) = true) := by
    refine (t.indexes_distinct store).imp fun hne => ?_
    rintro ⟨h, h'⟩
    exact hne ((of_decide_eq_true h).trans (of_decide_eq_true h').symm)
  rw [updateIndex, updateFirst_eq_map hone]
  simp only [decide_eq_true_eq]

/-! ### Stores -/

theorem schema_insertStore {name : Utf16String} {keyPath : KeyPath} {autoIncrement : Bool}
    {id : StoreId} (h : t.insertStore name keyPath autoIncrement = .ok (id, t')) :
    t'.schema = t.schema ++ [⟨id, name, keyPath, autoIncrement, keyGenStart, [], false⟩] := by
  obtain ⟨id', hid, h⟩ := bind_ok h
  split at h
  · cases h
  · cases h
    have habove := nextRowid_above hid
    -- no index can belong to a store that is not there yet
    have hnone : t.loadIndexes id = [] := by
      rw [loadIndexes_eq, List.map_eq_nil_iff, List.filter_eq_nil_iff]
      intro e he hstore
      have hthere := t.references e.1 e.2 (OrderedMap.get?_eq_some_iff.mpr he)
      rw [of_decide_eq_true hstore, OrderedMap.contains_iff] at hthere
      exact lt_irrefl _ (habove id hthere)
    rw [schema_eq, schema_eq]
    show List.map t.storeMeta (t.objectStores.insert id _).entries = _
    rw [OrderedMap.entries_insert_last _ habove, List.map_append]
    show _ ++ [t.storeMeta _] = _
    rw [storeMeta, hnone]

theorem schema_setStore {id : StoreId} {row row' : StoreRow} (h : t.objectStores.get? id = some row)
    {f : StoreMeta → StoreMeta}
    (hf : f (t.storeMeta (id, row)) = t.storeMeta (id, row')) :
    (t.setStore id row').schema = updateStore id f t.schema := by
  have hthere : t.objectStores.contains id = true := by
    unfold OrderedMap.contains
    rw [h]
    rfl
  rw [updateStore_schema, schema_eq, schema_eq, List.map_map]
  show List.map t.storeMeta (t.objectStores.insert id row').entries = _
  rw [OrderedMap.entries_insert_of_contains _ hthere, List.map_map]
  apply List.map_congr_left
  intro e he
  show t.storeMeta (if e.1 = id then (id, row') else e) =
    if e.1 = id then f (t.storeMeta e) else t.storeMeta e
  split
  · next heq =>
      have hrow : e.2 = row :=
        Option.some.inj ((OrderedMap.get?_eq_some_iff.mpr he).symm.trans (heq ▸ h))
      rw [← hf, ← heq, ← hrow]
  · rfl

theorem schema_renameStore {id : StoreId} {name : Utf16String}
    (h : t.renameStore id name = .ok t') :
    t'.schema = updateStore id (StoreMeta.rename name) t.schema := by
  unfold renameStore at h
  split at h
  · next hnone =>
      cases h
      symm
      apply updateFirst_of_none
      rw [schema_eq, List.find?_eq_none]
      intro s hs hid
      obtain ⟨e, he, rfl⟩ := List.mem_map.mp hs
      exact OrderedMap.get?_eq_none_iff.mp hnone e.2 (of_decide_eq_true hid ▸ he)
  · next row hrow =>
      split at h
      · cases h
      · cases h
        exact schema_setStore hrow rfl

theorem schema_deleteStore (t : Tables) (id : StoreId) :
    (t.deleteStore id).schema = t.schema.filter fun s => s.id ≠ id := by
  rw [schema_eq, schema_eq, List.filter_map]
  show (t.objectStores.entries.filter fun e => e.1 ≠ id).map (t.deleteStore id).storeMeta =
    (t.objectStores.entries.filter fun e => e.1 ≠ id).map t.storeMeta
  apply List.map_congr_left
  intro e he
  have hne : e.1 ≠ id := by simpa using (List.mem_filter.mp he).2
  have hindexes : (t.deleteStore id).loadIndexes e.1 = t.loadIndexes e.1 := by
    rw [loadIndexes_eq, loadIndexes_eq]
    show ((t.indexes.entries.filter fun i => i.2.storeId ≠ id).filter _).map _ = _
    rw [List.filter_filter]
    congr 1
    apply List.filter_congr
    intro i _
    by_cases h : i.2.storeId = e.1
    · simp [h, hne]
    · simp [h]
  rw [storeMeta, hindexes, storeMeta]

/-! ### Indexes -/

/-- Only the indexes of one store are changed. -/
theorem schema_of_loadIndexes {store : StoreId} {f : List IndexMeta → List IndexMeta}
    (hstores : t'.objectStores = t.objectStores)
    (hown : t'.loadIndexes store = f (t.loadIndexes store))
    (hother : ∀ store', store' ≠ store → t'.loadIndexes store' = t.loadIndexes store') :
    t'.schema = updateStore store (StoreMeta.editIndexes f) t.schema := by
  rw [updateStore_schema, schema_eq, schema_eq, hstores, List.map_map]
  apply List.map_congr_left
  intro e _
  show t'.storeMeta e =
    if e.1 = store then (t.storeMeta e).editIndexes f else t.storeMeta e
  split
  · next heq => rw [storeMeta, heq, hown, ← heq]; rfl
  · next hne => rw [storeMeta, hother e.1 hne]; rfl

theorem schema_insertIndex {row : IndexRow} {id : IndexId} (h : t.insertIndex row = .ok (id, t')) :
    t'.schema = updateStore row.storeId (StoreMeta.editIndexes fun indexes =>
      indexes ++ [indexMeta (id, row)]) t.schema := by
  obtain ⟨id', hid, h⟩ := bind_ok h
  split at h
  · cases h
  · split at h
    · cases h
      have hentries : (t.indexes.insert id row).entries = t.indexes.entries ++ [(id, row)] :=
        OrderedMap.entries_insert_last row (nextRowid_above hid)
      apply schema_of_loadIndexes
      · rfl
      · rw [loadIndexes_eq, loadIndexes_eq]
        show ((t.indexes.insert id row).entries.filter _).map _ = _
        simp [hentries]
      · intro store hne
        rw [loadIndexes_eq, loadIndexes_eq]
        show ((t.indexes.insert id row).entries.filter _).map _ = _
        simp [hentries, hne.symm]
    · cases h

theorem loadIndexes_deleteIndex (t : Tables) (store : StoreId) (id : IndexId) (store' : StoreId) :
    (t.deleteIndex store id).loadIndexes store' =
      (t.loadIndexes store').filter fun i => !decide (i.id = id ∧ store' = store) := by
  rw [loadIndexes_eq, loadIndexes_eq, List.filter_map]
  show ((t.indexes.entries.filter fun e => !decide (e.1 = id ∧ e.2.storeId = store)).filter _).map
    _ = _
  rw [List.filter_filter, List.filter_filter]
  congr 1
  apply List.filter_congr
  intro e _
  by_cases h : e.2.storeId = store'
  · simp [h, indexMeta]
  · simp [h]

theorem schema_deleteIndex (t : Tables) (store : StoreId) (id : IndexId) :
    (t.deleteIndex store id).schema = updateStore store (StoreMeta.editIndexes fun indexes =>
      indexes.filter fun i => i.id ≠ id) t.schema := by
  apply schema_of_loadIndexes
  · rfl
  · rw [loadIndexes_deleteIndex]
    simp
  · intro store' hne
    rw [loadIndexes_deleteIndex]
    simp [hne]

/-- An index that is none of the store's. -/
theorem updateIndex_of_other {store : StoreId} {id : IndexId} {f : IndexMeta → IndexMeta}
    (h : ∀ row, t.indexes.get? id = some row → row.storeId ≠ store) :
    updateIndex id f (t.loadIndexes store) = t.loadIndexes store := by
  apply updateFirst_of_none
  rw [List.find?_eq_none]
  intro i hi hid
  obtain ⟨row, hrow, hstore, -⟩ := mem_loadIndexes hi
  exact h row (of_decide_eq_true hid ▸ hrow) hstore

/-- A row of the same store takes the place of an old one. -/
theorem loadIndexes_setIndex {id : IndexId} {row : IndexRow} (row' : IndexRow)
    (hrow : t.indexes.get? id = some row) (hsame : row'.storeId = row.storeId)
    (href : t.objectStores.contains row'.storeId = true) (store : StoreId) :
    (t.setIndex id row' href).loadIndexes store =
      (t.loadIndexes store).map fun i => if i.id = id then indexMeta (id, row') else i := by
  have hthere : t.indexes.contains id = true := by
    unfold OrderedMap.contains
    rw [hrow]
    rfl
  have hold (e : IndexId × IndexRow) (he : e ∈ t.indexes.entries) (hid : e.1 = id) : e.2 = row :=
    Option.some.inj ((OrderedMap.get?_eq_some_iff.mpr he).symm.trans (hid ▸ hrow))
  rw [loadIndexes_eq, loadIndexes_eq, List.map_map]
  show ((t.indexes.insert id row').entries.filter _).map _ = _
  rw [OrderedMap.entries_insert_of_contains row' hthere, List.filter_map, List.map_map]
  have hfilter : t.indexes.entries.filter
        ((fun e : IndexId × IndexRow => decide (e.2.storeId = store)) ∘
          fun e => if e.1 = id then (id, row') else e) =
      t.indexes.entries.filter fun e => e.2.storeId = store := by
    apply List.filter_congr
    intro e he
    by_cases hid : e.1 = id
    · simp [hid, hsame, hold e he hid]
    · simp [hid]
  rw [hfilter]
  apply List.map_congr_left
  intro e _
  show indexMeta (if e.1 = id then (id, row') else e) =
    if e.1 = id then indexMeta (id, row') else indexMeta e
  split <;> rfl

theorem schema_renameIndex {store : StoreId} {id : IndexId} {name : Utf16String}
    (h : t.renameIndex store id name = .ok t') :
    t'.schema = updateStore store
      (StoreMeta.editIndexes (updateIndex id (IndexMeta.rename name))) t.schema := by
  unfold renameIndex at h
  split at h
  · next hnone =>
      cases h
      refine schema_of_loadIndexes rfl (updateIndex_of_other fun row hrow => ?_).symm fun _ _ => rfl
      rw [hnone] at hrow
      cases hrow
  · next row hrow =>
      split at h
      · next hother =>
          cases h
          refine schema_of_loadIndexes rfl (updateIndex_of_other fun row' hrow' => ?_).symm
            fun _ _ => rfl
          rw [hrow] at hrow'
          cases hrow'
          exact hother
      · next hstore =>
          split at h
          · cases h
          · cases h
            have hload (store' : StoreId) := loadIndexes_setIndex { row with name := name } hrow rfl
              (t.references id row hrow) store'
            have hstore : row.storeId = store := not_not.mp hstore
            refine schema_of_loadIndexes rfl ?_ fun store' hne => ?_
            · rw [hload, updateIndex_loadIndexes]
              apply List.map_congr_left
              intro i hi
              obtain ⟨row', hrow', -, hi⟩ := mem_loadIndexes hi
              split
              · next hid =>
                  rw [hid, hrow] at hrow'
                  cases hrow'
                  rw [hi, hid]
                  rfl
              · rfl
            · rw [hload]
              conv_rhs => rw [← List.map_id (t.loadIndexes store')]
              apply List.map_congr_left
              intro i hi
              obtain ⟨row', hrow', hstore', -⟩ := mem_loadIndexes hi
              refine if_neg fun hid => ?_
              rw [hid, hrow] at hrow'
              cases hrow'
              exact hne (hstore'.symm.trans hstore)

end Tables

end BoaIdb.Sqlite
