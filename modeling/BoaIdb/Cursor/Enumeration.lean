import BoaIdb.Cursor.Rows

/-!
Which rows a full walk visits.

A walk is described by `Enumerates`: the rows successive calls of `advance`
buffer. For each kind of cursor, the keys a source still shows are handed over
one by one, so the walk visits exactly the reached rows; it visits all merged
rows exactly when every one of them is reached.
-/

namespace BoaIdb

open OrdMap CursorMaps

/-! ### The order of rows inside one source -/

theorem store_convex (store : StoreId) :
    OrderedMap.Convex (fun k : RecordKey => decide (k.store = store)) := by
  intro x y z hx hz hxy hyz
  simp only [decide_eq_true_eq] at *
  rcases RecordKey.lt_iff.mp hxy with h | ⟨h, -⟩
  · rcases RecordKey.lt_iff.mp hyz with h' | ⟨h', -⟩
    · subst hx
      exact absurd (h.trans h') (hz ▸ lt_irrefl _)
    · exact h'.trans hz
  · exact h ▸ hx

theorem index_convex (index : IndexId) :
    OrderedMap.Convex (fun k : IndexKey => decide (k.index = index)) := by
  intro x y z hx hz hxy hyz
  simp only [decide_eq_true_eq] at *
  rcases IndexKey.lt_iff.mp hxy with h | ⟨h, -⟩
  · rcases IndexKey.lt_iff.mp hyz with h' | ⟨h', -⟩
    · subst hx
      exact absurd (h.trans h') (hz ▸ lt_irrefl _)
    · exact h'.trans hz
  · exact h ▸ hx

theorem ahead_recordKey {desc : Bool} {a b : RecordKey} (h : a.store = b.store) :
    ahead desc a b = ahead desc a.key b.key := by
  cases desc <;> simp [ahead, RecordKey.lt_iff, h]

theorem ahead_indexKey {desc : Bool} {a b : IndexKey} (h : a.index = b.index) :
    ahead desc a b = true ↔ ahead desc a.key b.key = true ∨
      a.key = b.key ∧ ahead desc a.primaryKey b.primaryKey = true := by
  cases desc with
  | true => simp [ahead, IndexKey.lt_iff, h, eq_comm (a := b.key)]
  | false => simp [ahead, IndexKey.lt_iff, h]

namespace Cursor

/-- Past the end of the range, and everything behind that, no key is in the range. -/
theorem not_contains_of_pastUpper {c : Cursor} {x y : Bytes} (h : c.pastUpper x = true)
    (hxy : ahead c.desc y x = false) : c.range.contains y = false := by
  unfold pastUpper at h
  rw [EncodedRange.contains, Bool.and_eq_false_iff]
  cases hd : c.desc with
  | true =>
      left
      simp only [hd, if_true, ahead, decide_eq_false_iff_not, not_lt] at h hxy
      cases hl : c.range.lower with
      | none => simp [hl] at h
      | some lower =>
          obtain ⟨lo, isOpen⟩ := lower
          simp only [hl, Bool.or_eq_true, decide_eq_true_eq, Bool.and_eq_true] at h
          rcases h with h | ⟨rfl, rfl⟩
          · have hy : y < lo := lt_of_le_of_lt hxy h
            cases isOpen <;> simp [EncodedRange.aboveLower, hl, hy, hy.le]
          · simpa [EncodedRange.aboveLower, hl] using hxy
  | false =>
      right
      simp only [hd, Bool.false_eq_true, if_false, ahead, decide_eq_false_iff_not, not_lt] at h hxy
      cases hu : c.range.upper with
      | none => simp [hu] at h
      | some upper =>
          obtain ⟨hi, isOpen⟩ := upper
          simp only [hu, Bool.or_eq_true, decide_eq_true_eq, Bool.and_eq_true] at h
          rcases h with h | ⟨rfl, rfl⟩
          · have hy : hi < y := lt_of_lt_of_le h hxy
            cases isOpen <;> simp [EncodedRange.belowUpper, hu, hy, hy.le]
          · simpa [EncodedRange.belowUpper, hu] using hxy

theorem rangeVerdict_take_iff {c : Cursor} {key : Bytes} :
    c.rangeVerdict key = .take ↔ c.range.contains key = true := by
  unfold rangeVerdict
  split_ifs <;> simp_all

theorem pastUpper_of_stop {c : Cursor} {key : Bytes} (h : c.rangeVerdict key = .stop) :
    c.pastUpper key = true := by
  unfold rangeVerdict at h
  split_ifs at h with _ hp
  exact hp

theorem rangeVerdict_stop {c : Cursor} {x y : Bytes} (h : c.rangeVerdict x = .stop)
    (hxy : ahead c.desc y x = false) : c.rangeVerdict y ≠ .take := by
  rw [Ne, rangeVerdict_take_iff, not_contains_of_pastUpper (pastUpper_of_stop h) hxy]
  simp

theorem indexVerdict_take_iff {c : Cursor} {unique : Bool} {key : Bytes} :
    c.indexVerdict unique key = .take ↔
      c.range.contains key = true ∧ ¬(unique = true ∧ c.lastIndexKey = some key) := by
  unfold indexVerdict
  split_ifs with h
  · simp [h.1, h.2]
  · rw [rangeVerdict_take_iff]
    constructor
    · intro hc
      exact ⟨hc, fun hu => h ⟨hc, hu⟩⟩
    · exact And.left

theorem indexVerdict_stop {c : Cursor} {unique : Bool} {x y : Bytes}
    (h : c.indexVerdict unique x = .stop) (hxy : ahead c.desc y x = false) :
    c.indexVerdict unique y ≠ .take := by
  unfold indexVerdict at h
  split_ifs at h
  rw [Ne, indexVerdict_take_iff, not_contains_of_pastUpper (pastUpper_of_stop h) hxy]
  simp

theorem not_ahead_of_ahead {K : Type} [LinearOrder K] {desc : Bool} {x y : K}
    (h : ahead desc x y = true) : ahead desc y x = false := by
  by_contra hyx
  have := ahead_trans h (by simpa using hyx)
  simp [ahead_irrefl] at this

theorem storeWalk_stop {c : Cursor} {store : StoreId} (x y : RecordKey)
    (hx : (c.storeWalk store).inside x = true) (h : c.rangeVerdict x.key = .stop)
    (hxy : ahead (c.storeWalk store).desc x y = true) (hy : (c.storeWalk store).inside y = true) :
    c.rangeVerdict y.key ≠ .take := by
  simp only [storeWalk, decide_eq_true_eq] at hx hy hxy
  rw [ahead_recordKey (hx.trans hy.symm)] at hxy
  exact rangeVerdict_stop h (not_ahead_of_ahead hxy)

theorem indexWalk_stop {c : Cursor} {index : IndexId} {unique : Bool} (x y : IndexKey)
    (hx : (c.indexWalk index).inside x = true) (h : c.indexVerdict unique x.key = .stop)
    (hxy : ahead (c.indexWalk index).desc x y = true) (hy : (c.indexWalk index).inside y = true) :
    c.indexVerdict unique y.key ≠ .take := by
  simp only [indexWalk, decide_eq_true_eq] at hx hy hxy
  refine indexVerdict_stop h ?_
  rcases (ahead_indexKey (hx.trans hy.symm)).mp hxy with hxy | ⟨hxy, -⟩
  · exact not_ahead_of_ahead hxy
  · rw [hxy, ahead_irrefl]

theorem readMerged_eq (c : Cursor) (key : RecordKey) :
    c.readMerged key = c.maps.mergedRecords.get? key := by
  rw [readMerged, mergedRecords, OrderedMap.get?_merge]
  cases c.maps.pendingRecords.get? key <;> rfl

theorem indexValue_eq (c : Cursor) (store : StoreId) (pkey : Bytes) :
    c.indexValue store pkey = c.maps.value c.keyOnly ⟨store, pkey⟩ := by
  rw [indexValue, CursorMaps.value, readMerged_eq]

/-! ### Walks as lists of rows -/

/-- Successive calls of `advance` buffer these rows, then the cursor ends. -/
inductive Enumerates : Cursor → List (Bytes × Bytes × Option Bytes) → Prop
  | done {c c' : Cursor} (h : c.advance = pure (false, c')) : Enumerates c []
  | more {c c' : Cursor} {rows : List (Bytes × Bytes × Option Bytes)}
      (h : c.advance = pure (true, c')) (hlive : c'.exhausted = false) (hmaps : c'.maps = c.maps)
      (hrest : Enumerates c' rows) : Enumerates c (c'.row :: rows)

theorem collect_of_enumerates {c : Cursor} {rows : List (Bytes × Bytes × Option Bytes)}
    (h : Enumerates c rows) (hlive : c.exhausted = false) {fuel : ℕ} (hfuel : rows.length < fuel) :
    collect fuel c = pure (c.row :: rows) := by
  induction h generalizing fuel with
  | done h =>
      obtain ⟨fuel, rfl⟩ := Nat.exists_eq_succ_of_ne_zero (Nat.ne_of_gt hfuel)
      simp [collect, step, hlive, stepLoop, h]
  | more h hlive' _ _ ih =>
      obtain ⟨fuel, rfl⟩ := Nat.exists_eq_succ_of_ne_zero (Nat.ne_of_gt (Nat.zero_lt_of_lt hfuel))
      have hlen : _ < fuel := Nat.lt_of_succ_lt_succ hfuel
      have hrest := ih hlive' hlen
      simp [collect, step, hlive, stepLoop, h, hrest]

theorem visit_of_enumerates {c : Cursor} {rows : List (Bytes × Bytes × Option Bytes)}
    (h : Enumerates c.rewound rows)
    (hlen : rows.length ≤ c.maps.records.size + c.maps.pendingRecords.size + c.maps.index.size +
      c.maps.pendingIndex.size) :
    c.visit = pure rows := by
  cases h with
  | done h => simp [visit, seek, h]
  | @more _ c' rows h hlive hmaps hrest =>
      have hmaps : c'.maps = c.maps := hmaps
      rw [List.length_cons, ← hmaps] at hlen
      have hcollect :=
        collect_of_enumerates hrest hlive (Nat.lt_of_succ_le (hlen.trans (Nat.le_succ _)))
      simp [visit, seek, h, hcollect]

/-! ### Stores -/

theorem advanceStore_nil {c : Cursor} {store : StoreId} {pos : Positions RecordKey}
    (h : (c.storeWalk store).advance (fun key => c.rangeVerdict key.key)
      (c.maps.records.size + c.maps.pendingRecords.size + 1) c.recordPos = some (pos, none)) :
    c.advanceStore store =
      pure (false, { c with recordPos := pos, exhausted := true, current := none }) := by
  simp only [advanceStore, h]

theorem advanceStore_cons {c : Cursor} {store : StoreId} {pos : Positions RecordKey}
    {k : RecordKey} {slot : Option (Option Bytes)}
    (h : (c.storeWalk store).advance (fun key => c.rangeVerdict key.key)
      (c.maps.records.size + c.maps.pendingRecords.size + 1) c.recordPos =
        some (pos, some (k, slot)))
    (hslot : (c.storeWalk store).SlotOf k slot) :
    c.advanceStore store =
      pure (true, { c with recordPos := pos, current := some (c.maps.storeRow c.keyOnly k) }) := by
  have hvalue : slot.join.or (c.readMerged k) = c.maps.mergedRecords.get? k := by
    rw [← readMerged_eq]
    cases slot with
    | none => rfl
    | some o =>
        have hget : c.maps.pendingRecords.get? k = some o := hslot
        cases o <;> simp [readMerged, hget]
  simp only [advanceStore, h, hvalue]
  rfl

/-- A store cursor visits the keys its sources still show, in order. -/
theorem enumerates_store {c : Cursor} {store : StoreId} (hkind : c.kind = .store store)
    (hlive : c.exhausted = false) (ks : List RecordKey)
    (hsorted : ks.Pairwise (fun a b => ahead c.desc a b = true))
    (hmem : ∀ k, k ∈ ks ↔ (c.storeWalk store).Visible c.recordPos k ∧
      c.rangeVerdict k.key = .take) :
    Enumerates c (ks.map (c.maps.storeRow c.keyOnly)) := by
  have hfuel : (c.storeWalk store).left c.recordPos <
      c.maps.records.size + c.maps.pendingRecords.size + 1 :=
    Nat.lt_succ_of_le ((c.storeWalk store).left_le c.recordPos)
  have hadv := (c.storeWalk store).advance_of_sorted (fun key => c.rangeVerdict key.key)
    storeWalk_stop _ c.recordPos hfuel ks hsorted hmem
  induction ks generalizing c with
  | nil =>
      obtain ⟨pos, hadv⟩ := hadv
      exact .done (by rw [advance, hkind]; exact advanceStore_nil hadv)
  | cons k ks ih =>
      obtain ⟨pos, slot, hadv, hslot, hrest⟩ := hadv
      let c' : Cursor := { c with recordPos := pos, current := some (c.maps.storeRow c.keyOnly k) }
      have hstep : c.advance = pure (true, c') := by
        rw [advance, hkind]
        exact advanceStore_cons hadv hslot
      have hrow : c'.row = c.maps.storeRow c.keyOnly k := by
        cases hko : c.keyOnly <;>
          simp [c', row, currentKey, currentPrimaryKey, currentValue, storeRow, CursorMaps.value,
            hlive, hko]
      have hks := (List.pairwise_cons.mp hsorted).2
      have hfuel' : (c'.storeWalk store).left c'.recordPos <
          c'.maps.records.size + c'.maps.pendingRecords.size + 1 :=
        Nat.lt_succ_of_le ((c'.storeWalk store).left_le c'.recordPos)
      rw [List.map_cons, ← hrow]
      exact .more hstep hlive rfl (ih (c := c') hkind hlive hks hrest hfuel'
        ((c'.storeWalk store).advance_of_sorted (fun key => c'.rangeVerdict key.key)
          storeWalk_stop _ c'.recordPos hfuel' ks hks hrest))

/-! ### Indexes -/

theorem advanceIndex_nil {c : Cursor} {store : StoreId} {index : IndexId} {unique : Bool}
    {pos : Positions IndexKey}
    (h : (c.indexWalk index).advance (fun key => c.indexVerdict unique key.key)
      (c.maps.index.size + c.maps.pendingIndex.size + 1) c.indexPos = some (pos, none)) :
    c.advanceIndex store index unique =
      pure (false, { c with indexPos := pos, exhausted := true, current := none }) := by
  simp only [advanceIndex, h]

/-- The cursor after it has buffered an index row. -/
def yielded (c : Cursor) (store : StoreId) (unique : Bool) (pos : Positions IndexKey)
    (k : IndexKey) : Cursor := { c with
  indexPos := pos
  lastIndexKey := if unique then some k.key else c.lastIndexKey
  current := some (c.maps.indexRow store c.keyOnly k) }

theorem advanceIndex_cons {c : Cursor} {store : StoreId} {index : IndexId} {unique : Bool}
    {pos : Positions IndexKey} {k : IndexKey} {slot : Option Bool}
    (h : (c.indexWalk index).advance (fun key => c.indexVerdict unique key.key)
      (c.maps.index.size + c.maps.pendingIndex.size + 1) c.indexPos = some (pos, some (k, slot)))
    (hdir : ¬(unique = true ∧ c.desc = true)) :
    c.advanceIndex store index unique = pure (true, c.yielded store unique pos k) := by
  simp only [advanceIndex, h, if_neg hdir, indexValue_eq]
  rfl

theorem advanceIndex_jump {c : Cursor} {store : StoreId} {index : IndexId}
    {pos : Positions IndexKey} {k t : IndexKey} {slot : Option Bool}
    (h : (c.indexWalk index).advance (fun key => c.indexVerdict true key.key)
      (c.maps.index.size + c.maps.pendingIndex.size + 1) c.indexPos = some (pos, some (k, slot)))
    (hdesc : c.desc = true) (hkey : t.key = k.key) (hindex : t.index = index)
    (hmin : c.groupMin store index k.key = pure (t.primaryKey, c.indexValue store t.primaryKey)) :
    c.advanceIndex store index true = pure (true, c.yielded store true ⟨some t, some t⟩ t) := by
  obtain ⟨ti, tk, tp⟩ := t
  simp only at hkey hindex hmin
  subst hkey hindex
  rw [advanceIndex]
  simp only [h]
  rw [if_pos ⟨trivial, hdesc⟩, hmin, pure_bind, indexValue_eq]
  rfl

theorem yielded_row {c : Cursor} (store : StoreId) (unique : Bool) (pos : Positions IndexKey)
    (k : IndexKey) (hlive : c.exhausted = false) :
    (c.yielded store unique pos k).row = c.maps.indexRow store c.keyOnly k := by
  cases hko : c.keyOnly <;>
    simp [yielded, row, currentKey, currentPrimaryKey, currentValue, indexRow, CursorMaps.value,
      hlive, hko]

/-- A plain index cursor visits the entries its sources still show, in order. -/
theorem enumerates_index {c : Cursor} {store : StoreId} {index : IndexId}
    (hkind : c.kind = .index store index false) (hlive : c.exhausted = false) (ks : List IndexKey)
    (hsorted : ks.Pairwise (fun a b => ahead c.desc a b = true))
    (hmem : ∀ k, k ∈ ks ↔ (c.indexWalk index).Visible c.indexPos k ∧
      c.indexVerdict false k.key = .take) :
    Enumerates c (ks.map (c.maps.indexRow store c.keyOnly)) := by
  have hfuel : (c.indexWalk index).left c.indexPos <
      c.maps.index.size + c.maps.pendingIndex.size + 1 :=
    Nat.lt_succ_of_le ((c.indexWalk index).left_le c.indexPos)
  have hadv := (c.indexWalk index).advance_of_sorted (fun key => c.indexVerdict false key.key)
    indexWalk_stop _ c.indexPos hfuel ks hsorted hmem
  induction ks generalizing c with
  | nil =>
      obtain ⟨pos, hadv⟩ := hadv
      exact .done (by rw [advance, hkind]; exact advanceIndex_nil hadv)
  | cons k ks ih =>
      obtain ⟨pos, slot, hadv, -, hrest⟩ := hadv
      let c' := c.yielded store false pos k
      have hstep : c.advance = pure (true, c') := by
        rw [advance, hkind]
        exact advanceIndex_cons hadv (by simp)
      have hks := (List.pairwise_cons.mp hsorted).2
      have hfuel' : (c'.indexWalk index).left c'.indexPos <
          c'.maps.index.size + c'.maps.pendingIndex.size + 1 :=
        Nat.lt_succ_of_le ((c'.indexWalk index).left_le c'.indexPos)
      rw [List.map_cons, ← yielded_row store false pos k hlive]
      exact .more hstep hlive rfl (ih (c := c') hkind hlive hks hrest hfuel'
        ((c'.indexWalk index).advance_of_sorted (fun key => c'.indexVerdict false key.key)
          indexWalk_stop _ c'.indexPos hfuel' ks hks hrest))

/-! ### The smallest member of a group -/

theorem group_convex (index : IndexId) (idxKey : Bytes) :
    OrderedMap.Convex (fun k : IndexKey => decide (k.index = index ∧ k.key = idxKey)) := by
  intro x y z hx hz hxy hyz
  simp only [decide_eq_true_eq] at *
  obtain ⟨rfl, rfl⟩ := hx
  have hi : y.index = x.index := by
    simpa using index_convex x.index x y z (by simp) (by simp [hz.1]) hxy hyz
  refine ⟨hi, ?_⟩
  rcases (IndexKey.lt_iff.mp hxy) with h | ⟨-, h | ⟨h, -⟩⟩
  · exact absurd h (hi ▸ lt_irrefl _)
  · rcases (IndexKey.lt_iff.mp hyz) with h' | ⟨-, h' | ⟨h', -⟩⟩
    · rw [hi, hz.1] at h'
      exact absurd h' (lt_irrefl _)
    · rw [hz.2] at h'
      exact absurd (h.trans h') (lt_irrefl _)
    · rw [h', hz.2]
  · exact h.symm

theorem nil_le (l : Bytes) : [] ≤ l := by
  cases l with
  | nil => exact le_rfl
  | cons a l => exact le_of_lt (List.nil_lt_cons a l)

theorem mem_group {V : Type} {m : OrderedMap IndexKey V} {index : IndexId} {idxKey : Bytes}
    {e : IndexKey × V} :
    e ∈ group m index idxKey ↔ e ∈ m.entries ∧ e.1.index = index ∧ e.1.key = idxKey := by
  rw [group, OrderedMap.mem_remaining_of_inside (.inl rfl) (by simp) (group_convex index idxKey)]
  simp only [decide_eq_true_eq, admits_included, ahead, Bool.false_eq_true, if_false]
  refine and_congr_right fun _ => and_iff_right_of_imp ?_
  rintro ⟨rfl, rfl⟩
  rcases (nil_le e.1.primaryKey).eq_or_lt with h | h
  · exact .inl (by rw [h])
  · exact .inr (IndexKey.lt_iff.mpr (.inr ⟨rfl, .inr ⟨rfl, h⟩⟩))

/-- The first match in key order is the smallest one. -/
theorem find?_group {V : Type} {m : OrderedMap IndexKey V} {index : IndexId} {idxKey : Bytes}
    {p : IndexKey × V → Bool} {e : IndexKey × V} (h : (group m index idxKey).find? p = some e) :
    e ∈ group m index idxKey ∧ p e = true ∧
      ∀ x ∈ group m index idxKey, p x = true → e.1.primaryKey ≤ x.1.primaryKey := by
  refine ⟨List.mem_of_find?_eq_some h, List.find?_some h, fun x hx hpx => ?_⟩
  have hs := m.remaining_pairwise false (.included ⟨index, idxKey, []⟩)
    (fun k => decide (k.index = index ∧ k.key = idxKey))
  obtain ⟨-, hei, hek⟩ := mem_group.mp (List.mem_of_find?_eq_some h)
  obtain ⟨-, hxi, hxk⟩ := mem_group.mp hx
  rw [List.find?_eq_some_iff_append] at h
  obtain ⟨-, pre, post, hl, hpre⟩ := h
  rw [hl, List.mem_append, List.mem_cons] at hx
  rcases hx with hx | rfl | hx
  · have hnot := hpre x hx
    simp [hpx] at hnot
  · exact le_rfl
  · have hlt : ahead false e.1 x.1 = true := by
      change (group m index idxKey).Pairwise _ at hs
      rw [hl] at hs
      exact (List.pairwise_cons.mp (List.pairwise_append.mp hs).2.1).1 x hx
    rcases (ahead_indexKey (hei.trans hxi.symm)).mp hlt with h | ⟨-, h⟩
    · rw [hek, hxk, ahead_irrefl] at h
      simp at h
    · exact le_of_lt (by simpa [ahead] using h)

/-- A merged entry of the index inside the range. -/
def InRange (c : Cursor) (index : IndexId) (k : IndexKey) : Prop :=
  c.maps.mergedIndex.contains k = true ∧ k.index = index ∧ c.range.contains k.key = true

theorem mergedIndex_contains_iff {maps : CursorMaps} {k : IndexKey} :
    maps.mergedIndex.contains k = true ↔
      (maps.index.contains k = true ∧
        (!(maps.pendingIndex.get? k).any (fun live => !live)) = true) ∨
      (k, true) ∈ maps.pendingIndex.entries := by
  rw [OrderedMap.contains, mergedIndex, OrderedMap.get?_merge, OrderedMap.contains,
    ← OrderedMap.get?_eq_some_iff]
  cases maps.pendingIndex.get? k with
  | none => simp
  | some live => cases live <;> simp [indexSlot]

theorem committedMin_spec {c : Cursor} {t : IndexKey} {cm : IndexKey × Unit}
    (h : c.committedMin t.index t.key = some cm) :
    (c.maps.mergedIndex.contains cm.1 = true ∧ cm.1.index = t.index ∧ cm.1.key = t.key) ∧
      (c.maps.index.contains t = true ∧
        (!(c.maps.pendingIndex.get? t).any (fun live => !live)) = true →
        cm.1.primaryKey ≤ t.primaryKey) := by
  obtain ⟨hmem, hp, hfirst⟩ := find?_group h
  obtain ⟨hentry, hi, hk⟩ := mem_group.mp hmem
  have hbase : c.maps.index.contains cm.1 = true := by
    rw [OrderedMap.contains_iff, OrderedMap.mem_keys_iff]
    exact ⟨cm.2, OrderedMap.get?_eq_some_iff.mpr hentry⟩
  refine ⟨⟨mergedIndex_contains_iff.mpr (.inl ⟨hbase, hp⟩), hi, hk⟩, fun ⟨ht, hpt⟩ => ?_⟩
  rw [OrderedMap.contains_iff, OrderedMap.mem_keys_iff] at ht
  obtain ⟨v, hv⟩ := ht
  exact hfirst (t, v) (mem_group.mpr ⟨OrderedMap.get?_eq_some_iff.mp hv, rfl, rfl⟩) hpt

theorem pendingMin_spec {c : Cursor} {t : IndexKey} {pm : IndexKey × Bool}
    (h : c.pendingMin t.index t.key = some pm) :
    (c.maps.mergedIndex.contains pm.1 = true ∧ pm.1.index = t.index ∧ pm.1.key = t.key) ∧
      ((t, true) ∈ c.maps.pendingIndex.entries → pm.1.primaryKey ≤ t.primaryKey) := by
  obtain ⟨hmem, hp, hfirst⟩ := find?_group h
  obtain ⟨hentry, hi, hk⟩ := mem_group.mp hmem
  obtain ⟨pk, live⟩ := pm
  simp only at hp
  subst hp
  exact ⟨⟨mergedIndex_contains_iff.mpr (.inr hentry), hi, hk⟩,
    fun ht => hfirst (t, true) (mem_group.mpr ⟨ht, rfl, rfl⟩) rfl⟩

theorem committedMin_isSome {c : Cursor} {t : IndexKey} (ht : c.maps.index.contains t = true)
    (hp : (!(c.maps.pendingIndex.get? t).any (fun live => !live)) = true) :
    ∃ cm, c.committedMin t.index t.key = some cm := by
  rw [OrderedMap.contains_iff, OrderedMap.mem_keys_iff] at ht
  obtain ⟨v, hv⟩ := ht
  refine Option.isSome_iff_exists.mp (List.find?_isSome.mpr ⟨(t, v), ?_, hp⟩)
  exact mem_group.mpr ⟨OrderedMap.get?_eq_some_iff.mp hv, rfl, rfl⟩

theorem pendingMin_isSome {c : Cursor} {t : IndexKey}
    (ht : (t, true) ∈ c.maps.pendingIndex.entries) : ∃ pm, c.pendingMin t.index t.key = some pm :=
  Option.isSome_iff_exists.mp
    (List.find?_isSome.mpr ⟨(t, true), mem_group.mpr ⟨ht, rfl, rfl⟩, rfl⟩)

/-- `group_min` finds the smallest merged member of a group. -/
theorem groupMin_eq {c : Cursor} {store : StoreId} {t : IndexKey}
    (ht : c.maps.mergedIndex.contains t = true)
    (hleast : ∀ k, c.maps.mergedIndex.contains k = true → k.index = t.index → k.key = t.key →
      t.primaryKey ≤ k.primaryKey) :
    c.groupMin store t.index t.key = pure (t.primaryKey, c.indexValue store t.primaryKey) := by
  have hle {k : IndexKey}
      (h : c.maps.mergedIndex.contains k = true ∧ k.index = t.index ∧ k.key = t.key) :
      t.primaryKey ≤ k.primaryKey := hleast k h.1 h.2.1 h.2.2
  unfold groupMin
  rcases mergedIndex_contains_iff.mp ht with ⟨hc, hp⟩ | hp
  · obtain ⟨cm, hcm⟩ := committedMin_isSome hc hp
    obtain ⟨hcmem, hcfirst⟩ := committedMin_spec hcm
    have heq : cm.1.primaryKey = t.primaryKey := le_antisymm (hcfirst ⟨hc, hp⟩) (hle hcmem)
    cases hpm : c.pendingMin t.index t.key with
    | none => simp only [hcm, heq]
    | some pm =>
        have hnot : ¬pm.1.primaryKey < t.primaryKey := not_lt.mpr (hle (pendingMin_spec hpm).1)
        simp only [hcm, heq, if_neg hnot]
  · obtain ⟨pm, hpm⟩ := pendingMin_isSome hp
    obtain ⟨hpmem, hpfirst⟩ := pendingMin_spec hpm
    have heq : pm.1.primaryKey = t.primaryKey := le_antisymm (hpfirst hp) (hle hpmem)
    cases hcm : c.committedMin t.index t.key with
    | none => simp only [hpm, heq]
    | some cm =>
        rcases (hle (committedMin_spec hcm).1).eq_or_lt with h | h
        · simp only [hpm, heq, ← h, lt_irrefl, if_false]
        · simp only [hpm, heq, if_pos h]

end Cursor

end BoaIdb
