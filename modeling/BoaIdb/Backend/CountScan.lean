import BoaIdb.Backend.RecordCount
import BoaIdb.Fs.Backend
import BoaIdb.Lib.MergeCount
import BoaIdb.Memory.Backend

/-!
`count` and `delete_range` against the cursor: the three merge the committed and the pending
maps each in its own way, and agree.
-/

namespace BoaIdb

open Faults OrdMap

namespace Pending

variable {base : Rows} {p : Pending}

theorem keys_ordered {K V : Type} [LinearOrder K] (m : OrderedMap K V) :
    (m.ordered false).map Prod.fst = m.keys := rfl

/-- The keys of a store in a range, counted as `count` does. -/
theorem count_store (store : StoreId) (range : EncodedRange) :
    p.count base (.store store) range =
      ((p.cursorMaps base).storeKeys store range false).length := by
  rw [CursorMaps.storeKeys, keys_ordered, CursorMaps.mergedRecords,
    OrderedMap.length_filter_merge]
  refine congrArg₂ (· + ·) (congrArg List.length ?_) (congrArg List.length ?_)
  · refine List.filter_congr fun k _ => ?_
    simp only [cursorMaps, id_eq, Bool.decide_and, Bool.decide_eq_true, Bool.and_assoc]
  · refine List.filter_congr fun e _ => ?_
    simp only [cursorMaps, id_eq, Bool.decide_and, Bool.decide_eq_true, Bool.and_assoc]
    cases e.2.isSome <;> cases base.records.contains e.1 <;> simp

theorem count_index (store : StoreId) (index : IndexId) (range : EncodedRange) :
    p.count base (.index store index) range =
      ((p.cursorMaps base).indexKeys index range false).length := by
  rw [CursorMaps.indexKeys, keys_ordered, CursorMaps.mergedIndex, OrderedMap.length_filter_merge]
  refine congrArg₂ (· + ·) (congrArg List.length ?_) (congrArg List.length ?_)
  · refine List.filter_congr fun k _ => ?_
    simp only [cursorMaps, Bool.decide_and, Bool.decide_eq_true, Bool.and_assoc]
    cases p.indexEntries.get? k with
    | none => simp
    | some live => cases live <;> simp [Cursor.indexSlot]
  · refine List.filter_congr fun e _ => ?_
    simp only [cursorMaps, Bool.decide_and, Bool.decide_eq_true, Bool.and_assoc]
    cases e.2 <;> cases base.indexEntries.contains e.1 <;> simp [Cursor.indexSlot]

/-- A forward walk of any source visits every merged row. -/
theorem visit_next (src : SourceRef) (range : EncodedRange) (keyOnly : Bool) :
    (Cursor.scan (p.cursorMaps base) src range .next keyOnly).visit =
      pure ((p.cursorMaps base).rows src range .next keyOnly) := by
  refine Cursor.visit_of_reaches ?_ keyOnly
  cases src with
  | store store => exact reachesRows_next store range
  | index store index =>
      intro k hk
      exact Cursor.entryReached_forward rfl (Cursor.mem_indexKeys.mp hk).1

theorem count_eq_length (src : SourceRef) (range : EncodedRange) (keyOnly : Bool) :
    p.count base src range = ((p.cursorMaps base).rows src range .next keyOnly).length := by
  cases src with
  | store store =>
      rw [count_store, CursorMaps.rows, List.length_map]
      rfl
  | index store index =>
      rw [count_index]
      simp only [CursorMaps.rows, List.length_map]
      rfl

/-! ### Range deletes -/

theorem held_removeRange (w : View) (store : StoreId) (range : EncodedRange) :
    (w.removeRange store range).held =
      w.held \ {k | k.store = store ∧ range.contains k.key = true} := by
  ext k
  simp only [View.held, View.removeRange, Set.mem_ofPred_eq, Set.mem_sdiff]
  by_cases hk : k.store = store ∧ range.contains k.key = true
  · simp [hk]
  · simp [hk]

theorem held_inter_range (store : StoreId) (range : EncodedRange) :
    (p.view base).held ∩ {k | k.store = store ∧ range.contains k.key = true} =
      (((p.cursorMaps base).storeKeys store range false).toFinset : Set RecordKey) := by
  ext k
  rw [Finset.mem_coe, List.mem_toFinset, Cursor.mem_storeKeys, OrderedMap.contains,
    get?_mergedRecords, Option.isSome_iff_ne_none]
  rfl

theorem nodup_storeKeys (maps : CursorMaps) (store : StoreId) (range : EncodedRange) :
    (maps.storeKeys store range false).Nodup := by
  rw [CursorMaps.storeKeys, keys_ordered]
  exact (OrderedMap.nodup_keys _).filter _

/-- `delete_range` counts the keys that the walk meets. -/
theorem deleteRange_count (store : StoreId) (range : EncodedRange) :
    (p.deleteRange base store range).2 =
      ((p.cursorMaps base).storeKeys store range false).length := by
  have hcount := @recordCount_deleteRange base p store range
  have hsplit := Set.ncard_inter_add_ncard_sdiff_eq_ncard (p.view base).held
    {k | k.store = store ∧ range.contains k.key = true} (finite_held base p)
  rw [held_inter_range, Set.ncard_coe_finset,
    List.toFinset_card_of_nodup (nodup_storeKeys _ _ _), ← held_removeRange] at hsplit
  rw [view_deleteRange, View.recordCount, View.recordCount] at hcount
  omega

/-- The record at a key of a store is among the rows of a walk. -/
theorem mem_rows_store {store : StoreId} {range : EncodedRange} {keyOnly : Bool} {key : Bytes} :
    key ∈ ((p.cursorMaps base).rows (.store store) range .next keyOnly).map Prod.fst ↔
      (p.readRecord base ⟨store, key⟩).isSome = true ∧ range.contains key = true := by
  rw [CursorMaps.rows, List.map_map, List.mem_map]
  simp only [Cursor.mem_storeKeys, OrderedMap.contains, get?_mergedRecords]
  constructor
  · rintro ⟨k, ⟨hthere, rfl, hrange⟩, rfl⟩
    exact ⟨hthere, hrange⟩
  · rintro ⟨hthere, hrange⟩
    exact ⟨⟨store, key⟩, ⟨hthere, rfl, hrange⟩, rfl⟩

theorem readRecord_deleteRange (store : StoreId) (range : EncodedRange) (keyOnly : Bool)
    (k : RecordKey) : (p.deleteRange base store range).1.readRecord base k =
      if k.store = store ∧
          k.key ∈ ((p.cursorMaps base).rows (.store store) range .next keyOnly).map Prod.fst then
        none
      else p.readRecord base k := by
  have hview := congrArg View.records (@view_deleteRange base p store range)
  have hread : (p.deleteRange base store range).1.readRecord base k =
      if k.store = store ∧ range.contains k.key = true then none else p.readRecord base k :=
    congrFun hview k
  rw [hread]
  simp only [mem_rows_store]
  by_cases hstore : k.store = store
  · subst hstore
    cases hold : p.readRecord base k with
    | none => simp
    | some val => simp
  · simp [hstore]

end Pending

/-! ### The transactions -/

/-- What `count` and `delete_range` of a transaction owe to its forward cursors. -/
structure AgreesWithScan (base : Rows) (p : Pending)
    (scan : SourceRef → EncodedRange → Bool → Except BackendError Cursor)
    (count : SourceRef → EncodedRange → Except BackendError ℕ)
    (deleteRange : StoreId → EncodedRange → Except BackendError (Pending × ℕ)) : Prop where
  /-- The rows visited are counted; a source that may not be read is refused alike. -/
  counts : ∀ src range keyOnly,
    (∃ e, scan src range keyOnly = .error e ∧ count src range = .error e) ∨
      ∃ cursor rows, scan src range keyOnly = .ok cursor ∧ cursor.visit = pure rows ∧
        count src range = .ok rows.length
  /-- The rows visited are deleted and counted, and all other rows stay. -/
  deletes : ∀ store range keyOnly r, deleteRange store range = .ok r →
    ∃ cursor rows, scan (.store store) range keyOnly = .ok cursor ∧ cursor.visit = pure rows ∧
      r.2 = rows.length ∧
      (∀ k, r.1.readRecord base k =
        if k.store = store ∧ k.key ∈ rows.map Prod.fst then none else p.readRecord base k) ∧
      ∀ k, r.1.indexEntryExists base k = p.indexEntryExists base k

/-- Operations that check the scope and then work on the pending changes. -/
theorem agreesWithScan {base : Rows} {p : Pending} (checkScope : StoreId → Except BackendError Unit)
    {scan : SourceRef → EncodedRange → Bool → Except BackendError Cursor}
    {count : SourceRef → EncodedRange → Except BackendError ℕ}
    {deleteRange : StoreId → EncodedRange → Except BackendError (Pending × ℕ)}
    (hscan : ∀ src range keyOnly, scan src range keyOnly =
      (checkScope src.storeId).map fun _ =>
        Cursor.scan (p.cursorMaps base) src range .next keyOnly)
    (hcount : ∀ src range, count src range =
      (checkScope src.storeId).map fun _ => p.count base src range)
    (hdelete : ∀ store range r, deleteRange store range = .ok r →
      checkScope store = .ok () ∧ r = p.deleteRange base store range) :
    AgreesWithScan base p scan count deleteRange where
  counts := by
    intro src range keyOnly
    rw [hscan, hcount]
    cases checkScope src.storeId with
    | error e => exact .inl ⟨e, rfl, rfl⟩
    | ok _ =>
        refine .inr ⟨_, _, rfl, Pending.visit_next src range keyOnly, ?_⟩
        rw [← Pending.count_eq_length src range keyOnly]
        rfl
  deletes := by
    intro store range keyOnly r hr
    obtain ⟨hscope, rfl⟩ := hdelete store range r hr
    have hok := hscan (.store store) range keyOnly
    rw [show checkScope (SourceRef.store store).storeId = .ok () from hscope] at hok
    refine ⟨_, _, hok, Pending.visit_next (.store store) range keyOnly, ?_, ?_, ?_⟩
    · rw [Pending.deleteRange_count, CursorMaps.rows, List.length_map]
      rfl
    · exact Pending.readRecord_deleteRange store range keyOnly
    · intro k
      have hentries := congrArg View.entries (@Pending.view_deleteRange base p
        store range)
      rw [Bool.eq_iff_iff]
      exact iff_of_eq (congrFun hentries k)

/-- **`count` and `delete_range` agree with iteration**, in a memory and in a filesystem
transaction. -/
theorem count_deleteRange_scan (base : Rows) (t : Memory.MemoryTxn) (s : Fs.OpenTxn) :
    AgreesWithScan base t.pending (fun src range keyOnly => t.scan base src range .next keyOnly)
        (t.count base)
        (fun store range => (t.deleteRange base store range).map fun r => (r.1.pending, r.2)) ∧
      AgreesWithScan s.rows s.pending (fun src range keyOnly => s.scan src range .next keyOnly)
        s.count
        (fun store range => (s.deleteRange store range).map fun r => (r.1.pending, r.2)) := by
  constructor
  · refine agreesWithScan t.checkScope (fun src range keyOnly => ?_)
      (fun src range => ?_) fun store range r hr => ?_
    · rw [Memory.MemoryTxn.scan]
      cases t.checkScope src.storeId <;> rfl
    · rw [Memory.MemoryTxn.count]
      cases t.checkScope src.storeId <;> rfl
    · obtain ⟨r', hr', rfl⟩ := map_ok hr
      obtain ⟨_, hscope, hr'⟩ := bind_ok hr'
      obtain ⟨_, -, hr'⟩ := bind_ok hr'
      cases hr'
      exact ⟨hscope, rfl⟩
  · refine agreesWithScan s.checkScope (fun src range keyOnly => ?_)
      (fun src range => ?_) fun store range r hr => ?_
    · rw [Fs.OpenTxn.scan]
      cases s.checkScope src.storeId <;> rfl
    · rw [Fs.OpenTxn.count]
      cases s.checkScope src.storeId <;> rfl
    · obtain ⟨r', hr', rfl⟩ := map_ok hr
      obtain ⟨hscope, -, rfl⟩ := Fs.OpenTxn.deleteRange_ok hr'
      exact ⟨hscope, rfl⟩

end BoaIdb
