import BoaIdb.Cursor.Enumeration
import Mathlib.Data.Finset.Max

/-!
When a full walk visits every merged row.

The merged rows a cursor shows at its start are those its sources reach. Plain
cursors hand over exactly these; unique cursors hand over one row for each group,
and their first backward jump gives both sources a position, so only the first
group depends on what was reached at the start.
-/

namespace BoaIdb

open OrdMap CursorMaps

namespace Cursor

/-! ### Unique walks -/

/-- The rows a unique walk still owes: one for each coming group, the group's
smallest, with everything the sources show accounted for. -/
structure UniqueTargets (c : Cursor) (index : IndexId) (ts : List IndexKey) : Prop where
  sorted : ts.Pairwise (fun a b => ahead c.desc a.key b.key = true)
  inRange : ∀ t ∈ ts, c.InRange index t
  least : ∀ t ∈ ts, ∀ k, c.maps.mergedIndex.contains k = true → k.index = index →
    k.key = t.key → t.primaryKey ≤ k.primaryKey
  /-- No group behind an owed one is missing. -/
  complete : ∀ t ∈ ts, ∀ k, c.InRange index k → ahead c.desc t.key k.key = true →
    ∃ t' ∈ ts, t'.key = k.key
  /-- What is still shown belongs to an owed group, or to the one just yielded. -/
  covers : ∀ k, (c.indexWalk index).Visible c.indexPos k → c.range.contains k.key = true →
    c.lastIndexKey = some k.key ∨ ∃ t ∈ ts, t.key = k.key
  last : ∀ l, c.lastIndexKey = some l → ∀ t ∈ ts, ahead c.desc l t.key = true

theorem inRange_of_visible {c : Cursor} {index : IndexId} {pos : Positions IndexKey} {k : IndexKey}
    (h : (c.indexWalk index).Visible pos k) (hr : c.range.contains k.key = true) :
    c.InRange index k :=
  ⟨OverlayWalk.contains_merge_of_visible h,
    by simpa [indexWalk] using OverlayWalk.visible_inside h, hr⟩

theorem UniqueTargets.take_iff {c : Cursor} {index : IndexId} {t : IndexKey} {ts : List IndexKey}
    (h : c.UniqueTargets index (t :: ts)) {k : IndexKey} (hk : k.key = t.key) :
    c.indexVerdict true k.key = .take := by
  rw [indexVerdict_take_iff, hk]
  refine ⟨(h.inRange t (by simp)).2.2, fun ⟨_, hl⟩ => ?_⟩
  have := h.last t.key hl t (by simp)
  simp [ahead_irrefl] at this

/-- As long as the coming group is shown, the walk stops in it. -/
theorem UniqueTargets.found {c : Cursor} {index : IndexId} {t : IndexKey} {ts : List IndexKey}
    (h : c.UniqueTargets index (t :: ts)) {k₀ : IndexKey}
    (hvis : (c.indexWalk index).Visible c.indexPos k₀) (hkey : k₀.key = t.key) :
    ∃ pos slot k, (c.indexWalk index).advance (fun key => c.indexVerdict true key.key)
        (c.maps.index.size + c.maps.pendingIndex.size + 1) c.indexPos = some (pos, some (k, slot)) ∧
      k.key = t.key ∧ c.InRange index k ∧ (c.indexWalk index).Passed c.indexPos pos k ∧
      ∀ x, (c.indexWalk index).Visible c.indexPos x → x.key = t.key →
        x = k ∨ ahead c.desc k x = true := by
  obtain ⟨pos, found, hadv, hspec⟩ := (c.indexWalk index).advance_spec
    (fun key => c.indexVerdict true key.key) indexWalk_stop _ c.indexPos
    (Nat.lt_succ_of_le ((c.indexWalk index).left_le c.indexPos))
  have htake := h.take_iff hkey
  cases found with
  | none => exact absurd htake (hspec.ended rfl k₀ hvis)
  | some f =>
      obtain ⟨k, slot⟩ := f
      obtain ⟨hpass, hkvis, -, hktake, hfirst, -⟩ := hspec.taken k slot rfl
      obtain ⟨hkr, hknot⟩ := indexVerdict_take_iff.mp hktake
      have hin := inRange_of_visible hkvis hkr
      have ht := h.inRange t (by simp)
      have hk : k.key = t.key := by
        rcases h.covers k hkvis hkr with hl | ⟨t', ht', htk⟩
        · exact absurd ⟨rfl, hl⟩ hknot
        · rcases List.mem_cons.mp ht' with rfl | ht'
          · exact htk.symm
          · have hafter : ahead c.desc t.key k.key = true :=
              htk ▸ (List.pairwise_cons.mp h.sorted).1 t' ht'
            rcases hfirst k₀ hvis htake with rfl | hk₀
            · exact hkey
            · have hk₀in := inRange_of_visible hvis (hkey ▸ ht.2.2)
              rcases (ahead_indexKey (hin.2.1.trans hk₀in.2.1.symm)).mp hk₀ with hb | ⟨hb, -⟩
              · have := ahead_trans hafter (hkey ▸ hb)
                simp [ahead_irrefl] at this
              · exact hb.trans hkey
      exact ⟨pos, slot, k, hadv, hk, hin, hpass, fun x hx hxk => hfirst x hx (h.take_iff hxk)⟩

/-- Behind a position at one of its own entries an index shows all merged ones. -/
theorem visible_jump_iff {c : Cursor} {index : IndexId} {t : IndexKey} (ht : t.index = index)
    (x : IndexKey) : (c.indexWalk index).Visible ⟨some t, some t⟩ x ↔
      c.maps.mergedIndex.contains x = true ∧ x.index = index ∧ ahead c.desc t x = true := by
  have hmem := OverlayWalk.visible_iff_of_bound (w := c.indexWalk index) (p := ⟨some t, some t⟩)
    (b := .excluded t) rfl rfl (.inr rfl) (by simpa [indexWalk] using ht)
    (by simpa [indexWalk] using index_convex index) x
  rw [hmem, admits_excluded]
  simp only [indexWalk, decide_eq_true_eq]
  exact and_congr_right fun _ => and_comm

/-- What the step to a group leaves owed, given what the sources show after it. -/
theorem UniqueTargets.yielded {c : Cursor} {store : StoreId} {index : IndexId} {t : IndexKey}
    {ts : List IndexKey} {pos : Positions IndexKey} (h : c.UniqueTargets index (t :: ts))
    (hcovers : ∀ k, (c.indexWalk index).Visible pos k → c.range.contains k.key = true →
      t.key = k.key ∨ ∃ t' ∈ ts, t'.key = k.key) :
    (c.yielded store true pos t).UniqueTargets index ts where
  sorted := (List.pairwise_cons.mp h.sorted).2
  inRange t' ht' := h.inRange t' (.tail _ ht')
  least t' ht' := h.least t' (.tail _ ht')
  complete t' ht' k hk hb := by
    obtain ⟨t'', ht'', hk''⟩ := h.complete t' (.tail _ ht') k hk hb
    rcases List.mem_cons.mp ht'' with rfl | ht''
    · have := ahead_trans ((List.pairwise_cons.mp h.sorted).1 t' ht') (hk'' ▸ hb)
      simp [ahead_irrefl] at this
    · exact ⟨t'', ht'', hk''⟩
  covers k hk hr := by
    rcases hcovers k hk hr with hk | hk
    · exact .inl (by simp [Cursor.yielded, hk])
    · exact .inr hk
  last l hl t' ht' := by
    obtain rfl : t.key = l := by simpa [Cursor.yielded] using hl
    exact (List.pairwise_cons.mp h.sorted).1 t' ht'

/-- One step of a unique walk: the coming group's smallest row is buffered, and
from then on every owed row is shown. -/
theorem UniqueTargets.step {c : Cursor} {store : StoreId} {index : IndexId} {t : IndexKey}
    {ts : List IndexKey} (hkind : c.kind = .index store index true)
    (h : c.UniqueTargets index (t :: ts))
    (hshown : ∃ k, (c.indexWalk index).Visible c.indexPos k ∧ k.key = t.key)
    (hall : c.desc = false → ∀ t' ∈ t :: ts, (c.indexWalk index).Visible c.indexPos t') :
    ∃ pos, c.advance = pure (true, c.yielded store true pos t) ∧
      (c.yielded store true pos t).UniqueTargets index ts ∧
      ∀ t' ∈ ts, (c.indexWalk index).Visible pos t' := by
  obtain ⟨k₀, hvis, hkey⟩ := hshown
  obtain ⟨pos, slot, k, hadv, hk, hin, hpass, hfirst⟩ := h.found hvis hkey
  have ht := h.inRange t (by simp)
  have hbehind (t' : IndexKey) (ht' : t' ∈ ts) : ahead c.desc t t' = true :=
    (ahead_indexKey (ht.2.1.trans (h.inRange t' (.tail _ ht')).2.1.symm)).mpr
      (.inl ((List.pairwise_cons.mp h.sorted).1 t' ht'))
  cases hd : c.desc with
  | false =>
      -- forward, the first entry met in a group is its smallest
      have hkt : k = t := by
        rcases hfirst t (hall hd t (by simp)) rfl with rfl | hlt
        · rfl
        · rcases (ahead_indexKey (hin.2.1.trans ht.2.1.symm)).mp hlt with hb | ⟨-, hb⟩
          · simp [hk, ahead_irrefl] at hb
          · have hle := h.least t (by simp) k hin.1 hin.2.1 hk
            simp only [ahead, hd, Bool.false_eq_true, if_false, decide_eq_true_eq] at hb
            exact absurd hb (not_lt.mpr hle)
      subst hkt
      refine ⟨pos, ?_, h.yielded fun x hx hr => ?_, fun t' ht' => ?_⟩
      · rw [advance, hkind]
        exact advanceIndex_cons hadv (by simp [hd])
      · obtain ⟨hxv, hxb⟩ := (hpass.visible_iff x).mp hx
        rcases h.covers x hxv hr with hl | ⟨t', ht', hxk⟩
        · have hxin := inRange_of_visible hxv hr
          have hlt := h.last x.key hl k (by simp)
          rcases (ahead_indexKey (ht.2.1.trans hxin.2.1.symm)).mp hxb with hb | ⟨hb, -⟩
          · have := ahead_trans hlt hb
            simp [ahead_irrefl] at this
          · exact .inl hb
        · rcases List.mem_cons.mp ht' with rfl | ht'
          · exact .inl hxk
          · exact .inr ⟨t', ht', hxk⟩
      · exact (hpass.visible_iff t').mpr ⟨hall hd t' (.tail _ ht'), hbehind t' ht'⟩
  | true =>
      -- backward, the group's smallest is looked up and both sources jump to it
      have hmin : c.groupMin store index k.key =
          pure (t.primaryKey, c.indexValue store t.primaryKey) := by
        rw [hk, ← ht.2.1]
        exact groupMin_eq ht.1 fun x hx hxi hxk => h.least t (by simp) x hx (hxi.trans ht.2.1) hxk
      refine ⟨⟨some t, some t⟩, ?_, h.yielded fun x hx hr => ?_, fun t' ht' => ?_⟩
      · rw [advance, hkind]
        exact advanceIndex_jump hadv hd hk.symm ht.2.1 hmin
      · obtain ⟨hxm, hxi, hxb⟩ := (visible_jump_iff ht.2.1 x).mp hx
        rcases (ahead_indexKey (ht.2.1.trans hxi.symm)).mp hxb with hb | ⟨hb, -⟩
        · obtain ⟨t', ht', hxk⟩ := h.complete t (by simp) x ⟨hxm, hxi, hr⟩ hb
          rcases List.mem_cons.mp ht' with rfl | ht'
          · exact .inl hxk
          · exact .inr ⟨t', ht', hxk⟩
        · exact .inl hb
      · have ht'in := h.inRange t' (.tail _ ht')
        exact (visible_jump_iff ht.2.1 t').mpr ⟨ht'in.1, ht'in.2.1, hbehind t' ht'⟩

/-- A unique walk whose owed rows are all shown visits exactly these. -/
theorem enumerates_unique {c : Cursor} {store : StoreId} {index : IndexId}
    (hkind : c.kind = .index store index true) (hlive : c.exhausted = false) (ts : List IndexKey)
    (h : c.UniqueTargets index ts)
    (hall : ∀ t ∈ ts, (c.indexWalk index).Visible c.indexPos t) :
    Enumerates c (ts.map (c.maps.indexRow store c.keyOnly)) := by
  induction ts generalizing c with
  | nil =>
      obtain ⟨pos, found, hadv, hspec⟩ := (c.indexWalk index).advance_spec
        (fun key => c.indexVerdict true key.key) indexWalk_stop _ c.indexPos
        (Nat.lt_succ_of_le ((c.indexWalk index).left_le c.indexPos))
      cases found with
      | none =>
          have hend : c.advance = c.advanceIndex store index true := by rw [advance, hkind]
          exact .done (hend.trans (advanceIndex_nil hadv))
      | some f =>
          obtain ⟨-, hvis, -, htake, -⟩ := hspec.taken f.1 f.2 rfl
          obtain ⟨hr, hnot⟩ := indexVerdict_take_iff.mp htake
          rcases h.covers f.1 hvis hr with hl | ⟨t, ht, -⟩
          · exact absurd ⟨rfl, hl⟩ hnot
          · simp at ht
  | cons t ts ih =>
      obtain ⟨pos, hadv, h', hall'⟩ := h.step hkind ⟨t, hall t (by simp), rfl⟩ fun _ => hall
      rw [List.map_cons, ← yielded_row store true pos t hlive]
      exact .more hadv hlive rfl (ih (c := c.yielded store true pos t) hkind hlive h' hall')

/-! ### What is shown at the start -/

section Start

variable {K VB VO : Type} [LinearOrder K]

/-- A backward walk with no bound shows a source unless a later neighbour comes
first. -/
theorem mem_remaining_last {m : OrderedMap K VB} {id : K → UInt64} {source : UInt64}
    {inside : K → Bool} (hinside : ∀ k, inside k = true ↔ id k = source)
    (hmono : ∀ a b, id a < id b → a < b) (e : K × VB) :
    e ∈ m.remaining true .unbounded inside ↔
      e ∈ m.entries ∧ id e.1 = source ∧ laterNeighbour m id source = false := by
  cases hl : laterNeighbour m id source with
  | true =>
      obtain ⟨n, hn, hlater⟩ := List.any_eq_true.mp hl
      rw [OrderedMap.remaining_unbounded_eq_nil hn fun y hy => ?_]
      · simp
      · have hy := (hinside y).mp hy
        simpa [ahead] using hmono y n.1 (by rw [hy]; simpa using hlater)
  | false =>
      have hnone : ∀ n ∈ m.entries, id n.1 ≤ source := by
        intro n hn
        by_contra hlt
        have : laterNeighbour m id source = true :=
          List.any_eq_true.mpr ⟨n, hn, by simpa using hlt⟩
        simp [hl] at this
      rw [OrderedMap.mem_remaining_unbounded fun n hn => ?_, hinside]
      · simp
      · rcases (hnone n hn).eq_or_lt with h | h
        · exact .inl ((hinside _).mpr h)
        · refine .inr fun y hy => ?_
          simpa [ahead] using hmono n.1 y (by rw [(hinside y).mp hy]; exact h)

/-- The keys of one source that a walk shows before it has passed anything. -/
theorem visible_start_iff {w : OverlayWalk K VB VO} (id : K → UInt64) (source : UInt64)
    (hinside : ∀ k, w.inside k = true ↔ id k = source) (hmono : ∀ a b, id a < id b → a < b)
    (hconv : OrderedMap.Convex w.inside) {unbounded : Bool}
    (hstart : if unbounded then w.desc = true ∧ w.start = .unbounded
      else ∃ k, (w.start = .included k ∨ w.start = .excluded k) ∧ id k = source)
    {x : K} (hadmits : w.start.admits w.desc x = true) (hx : id x = source) :
    w.Visible .start x ↔
      (w.base.contains x = true ∧ w.tombstoned x = false ∧
        (unbounded && laterNeighbour w.base id source) = false) ∨
      (∃ o, w.overlay.get? x = some o ∧ (w.slot o).isSome = true ∧
        (unbounded && laterNeighbour w.overlay id source) = false) := by
  have hbase : w.base.contains x = true ↔ ∃ v, (x, v) ∈ w.base.entries := by
    rw [OrderedMap.contains_iff, OrderedMap.mem_keys_iff]
    simp only [OrderedMap.get?_eq_some_iff]
  cases unbounded with
  | true =>
      obtain ⟨hd, hs⟩ := hstart
      simp only [OverlayWalk.Visible, OverlayWalk.restBase, OverlayWalk.restOverlay,
        Positions.start,
        resume, hd, hs, mem_remaining_last hinside hmono, hbase, OrderedMap.get?_eq_some_iff, hx,
        true_and, Bool.true_and]
      constructor
      · rintro (⟨v, ⟨hv, hn⟩, ht⟩ | ⟨o, ⟨ho, hn⟩, hl⟩)
        · exact .inl ⟨⟨v, hv⟩, ht, hn⟩
        · exact .inr ⟨o, ho, hl, hn⟩
      · rintro (⟨⟨v, hv⟩, ht, hn⟩ | ⟨o, ho, hl, hn⟩)
        · exact .inl ⟨v, ⟨hv, hn⟩, ht⟩
        · exact .inr ⟨o, ⟨ho, hn⟩, hl⟩
  | false =>
      obtain ⟨k, hb, hk⟩ := hstart
      rw [OverlayWalk.visible_iff_of_bound (w := w) (p := .start) (b := w.start) rfl rfl hb
        ((hinside k).mpr hk)
        hconv x, OverlayWalk.contains_merge_iff]
      simp only [hadmits, (hinside x).mpr hx, and_true, hbase, Bool.false_and,
        OrderedMap.get?_eq_some_iff]
      constructor
      · rintro (⟨v, hv, ht⟩ | h)
        · exact .inl ⟨⟨v, hv⟩, ht⟩
        · exact .inr h
      · rintro (⟨⟨v, hv⟩, ht⟩ | h)
        · exact .inl ⟨v, hv, ht⟩
        · exact .inr h

end Start

variable {maps : CursorMaps} {store : StoreId} {index : IndexId} {unique : Bool}
  {range : EncodedRange} {dir : Direction} {keyOnly : Bool}

/-- Every start bound admits the keys of the range. -/
theorem store_start_admits {k : RecordKey} (hk : k.store = store)
    (hr : range.contains k.key = true) :
    (((«open» maps (.store store) range dir keyOnly).rewound.storeWalk store).start).admits
      dir.isPrev k = true := by
  obtain ⟨hlow, hup⟩ := Bool.and_eq_true_iff.mp hr
  cases hd : dir.isPrev with
  | true =>
      simp only [storeWalk, rewound, «open», hd, if_true, startRecordUpper, Bound.admits]
      rcases range with ⟨_, _ | ⟨hi, _ | _⟩⟩ <;>
        simp_all [EncodedRange.belowUpper, RecordKey.lt_iff, RecordKey.le_iff]
  | false =>
      simp only [storeWalk, rewound, «open», hd, Bool.false_eq_true, if_false, startRecordLower,
        Bound.admits]
      rcases range with ⟨_ | ⟨lo, _ | _⟩, _⟩ <;>
        simp_all [EncodedRange.aboveLower, RecordKey.lt_iff, RecordKey.le_iff, nil_le]

theorem index_start_admits {k : IndexKey} (hk : k.index = index)
    (hr : range.contains k.key = true) :
    (((«open» maps (.index store index unique) range dir keyOnly).rewound.indexWalk
      index).start).admits
      dir.isPrev k = true := by
  obtain ⟨hlow, hup⟩ := Bool.and_eq_true_iff.mp hr
  cases hd : dir.isPrev with
  | true =>
      simp only [indexWalk, rewound, «open», hd, if_true, startIndexUpper, Bound.admits]
      rcases range with ⟨_, _ | ⟨hi, _ | _⟩⟩ <;>
        simp_all [EncodedRange.belowUpper, IndexKey.lt_iff]
  | false =>
      simp only [indexWalk, rewound, «open», hd, Bool.false_eq_true, if_false, startIndexLower,
        Bound.admits]
      rcases range with ⟨_ | ⟨lo, _ | _⟩, _⟩
      · rcases (nil_le k.key).eq_or_lt with h | h
        · simp [IndexKey.le_iff, hk, ← h, nil_le]
        · simp [IndexKey.le_iff, hk, h]
      · have hlo : lo ≤ k.key := by simpa [EncodedRange.aboveLower] using hlow
        rcases hlo.eq_or_lt with h | h <;> simp [IndexKey.le_iff, nil_le, hk, h]
      · have hlo : lo < k.key := by simpa [EncodedRange.aboveLower] using hlow
        simp [IndexKey.lt_iff, hk, hlo]

theorem store_start {unbounded : Bool} (hu : unbounded = storeUnbounded range dir.isPrev) :
    let w := («open» maps (.store store) range dir keyOnly).rewound.storeWalk store
    if unbounded then w.desc = true ∧ w.start = .unbounded
      else ∃ k, (w.start = .included k ∨ w.start = .excluded k) ∧ k.store = store := by
  subst hu
  cases hd : dir.isPrev with
  | true =>
      rcases range with ⟨_, _ | ⟨hi, _ | _⟩⟩ <;>
        simp [storeUnbounded, storeWalk, rewound, «open», hd, startRecordUpper]
  | false =>
      rcases range with ⟨_ | ⟨lo, _ | _⟩, _⟩ <;>
        simp [storeUnbounded, storeWalk, rewound, «open», hd, startRecordLower]

theorem index_start {unbounded : Bool} (hu : unbounded = indexUnbounded range dir.isPrev) :
    let w := («open» maps (.index store index unique) range dir keyOnly).rewound.indexWalk index
    if unbounded then w.desc = true ∧ w.start = .unbounded
      else ∃ k, (w.start = .included k ∨ w.start = .excluded k) ∧ k.index = index := by
  subst hu
  cases hd : dir.isPrev with
  | true =>
      rcases range with ⟨_, _ | ⟨hi, _ | _⟩⟩ <;>
        simp [indexUnbounded, indexWalk, rewound, «open», hd, startIndexUpper]
  | false =>
      rcases range with ⟨_ | ⟨lo, _ | _⟩, _⟩ <;>
        simp [indexUnbounded, indexWalk, rewound, «open», hd, startIndexLower]

/-- At its start a store cursor shows the rows its sources reach. -/
theorem store_visible_iff {k : RecordKey} (hk : k.store = store)
    (hr : range.contains k.key = true) :
    ((«open» maps (.store store) range dir keyOnly).rewound.storeWalk store).Visible .start k ↔
      maps.recordReached range dir.isPrev k = true := by
  rw [visible_start_iff RecordKey.store store (by simp [storeWalk])
    (fun a b h => RecordKey.lt_iff.mpr (.inl h)) (store_convex store) (store_start rfl)
    (store_start_admits hk hr) hk, recordReached, Bool.or_eq_true]
  subst hk
  refine or_congr ?_ ?_
  · cases storeUnbounded range dir.isPrev <;>
      simp [storeWalk, rewound, «open», OverlayWalk.tombstoned, and_assoc]
  · cases h : maps.pendingRecords.get? k <;> cases storeUnbounded range dir.isPrev <;>
      simp [storeWalk, rewound, «open», h]

/-- At its start an index cursor shows the entries its sources reach. -/
theorem index_visible_iff {k : IndexKey} (hk : k.index = index)
    (hr : range.contains k.key = true) :
    ((«open» maps (.index store index unique) range dir keyOnly).rewound.indexWalk index).Visible
      .start k ↔ maps.entryReached range dir.isPrev k = true := by
  rw [visible_start_iff IndexKey.index index (by simp [indexWalk])
    (fun a b h => IndexKey.lt_iff.mpr (.inl h)) (index_convex index) (index_start rfl)
    (index_start_admits hk hr) hk, entryReached, Bool.or_eq_true]
  subst hk
  refine or_congr ?_ ?_
  · cases h : maps.pendingIndex.get? k with
    | none =>
        cases indexUnbounded range dir.isPrev <;>
          simp [indexWalk, rewound, «open», OverlayWalk.tombstoned, h]
    | some live =>
        cases live <;> cases indexUnbounded range dir.isPrev <;>
          simp [indexWalk, rewound, «open», OverlayWalk.tombstoned, h, indexSlot]
  · cases h : maps.pendingIndex.get? k with
    | none => simp [indexWalk, rewound, «open», h]
    | some live =>
        cases live <;> cases indexUnbounded range dir.isPrev <;>
          simp [indexWalk, rewound, «open», h, indexSlot]

/-! ### The rows of a full walk -/

theorem storeKeys_pairwise (maps : CursorMaps) (store : StoreId) (range : EncodedRange)
    (desc : Bool) :
    (maps.storeKeys store range desc).Pairwise (fun a b => ahead desc a b = true) :=
  (List.pairwise_map.mpr (maps.mergedRecords.ordered_pairwise desc)).filter _

theorem indexKeys_pairwise (maps : CursorMaps) (index : IndexId) (range : EncodedRange)
    (desc : Bool) :
    (maps.indexKeys index range desc).Pairwise (fun a b => ahead desc a b = true) :=
  (List.pairwise_map.mpr (maps.mergedIndex.ordered_pairwise desc)).filter _

theorem mem_keys_ordered {K V : Type} [LinearOrder K] {m : OrderedMap K V} {desc : Bool} {k : K} :
    k ∈ (m.ordered desc).map Prod.fst ↔ m.contains k = true := by
  rw [OrderedMap.contains_iff, OrderedMap.keys]
  simp

theorem mem_storeKeys {k : RecordKey} {desc : Bool} : k ∈ maps.storeKeys store range desc ↔
    maps.mergedRecords.contains k = true ∧ k.store = store ∧ range.contains k.key = true := by
  rw [storeKeys, List.mem_filter, mem_keys_ordered]
  simp

theorem mem_indexKeys {k : IndexKey} {desc : Bool} : k ∈ maps.indexKeys index range desc ↔
    maps.mergedIndex.contains k = true ∧ k.index = index ∧ range.contains k.key = true := by
  rw [indexKeys, List.mem_filter, mem_keys_ordered]
  simp

theorem length_ordered {K V : Type} [LinearOrder K] (m : OrderedMap K V) (desc : Bool) :
    (m.ordered desc).length = m.size := by
  cases desc <;> simp [OrderedMap.ordered, OrderedMap.size]

theorem length_storeKeys_le (maps : CursorMaps) (store : StoreId) (range : EncodedRange)
    (desc : Bool) :
    (maps.storeKeys store range desc).length ≤ maps.records.size + maps.pendingRecords.size := by
  calc (maps.storeKeys store range desc).length
      ≤ ((maps.mergedRecords.ordered desc).map Prod.fst).length := List.length_filter_le _ _
    _ = maps.mergedRecords.size := by rw [List.length_map, length_ordered]
    _ ≤ _ := OrderedMap.size_merge_le _ _ _

theorem length_indexKeys_le (maps : CursorMaps) (index : IndexId) (range : EncodedRange)
    (desc : Bool) :
    (maps.indexKeys index range desc).length ≤ maps.index.size + maps.pendingIndex.size := by
  calc (maps.indexKeys index range desc).length
      ≤ ((maps.mergedIndex.ordered desc).map Prod.fst).length := List.length_filter_le _ _
    _ = maps.mergedIndex.size := by rw [List.length_map, length_ordered]
    _ ≤ _ := OrderedMap.size_merge_le _ _ _

/-- A store cursor visits the rows its sources reach. -/
theorem visit_store : (openStore maps store range dir keyOnly).visit =
    pure (((maps.storeKeys store range dir.isPrev).filter
      (maps.recordReached range dir.isPrev)).map (maps.storeRow keyOnly)) := by
  let c := openStore maps store range dir keyOnly
  let ks := (maps.storeKeys store range dir.isPrev).filter (maps.recordReached range dir.isPrev)
  have hmem (k : RecordKey) : k ∈ ks ↔ (c.rewound.storeWalk store).Visible .start k ∧
      c.rewound.rangeVerdict k.key = .take := by
    rw [List.mem_filter, mem_storeKeys, rangeVerdict_take_iff]
    constructor
    · rintro ⟨⟨-, hs, hr⟩, hreach⟩
      exact ⟨(store_visible_iff hs hr).mpr hreach, hr⟩
    · rintro ⟨hvis, hr⟩
      have hs : k.store = store := by
        simpa [storeWalk] using OverlayWalk.visible_inside hvis
      exact ⟨⟨OverlayWalk.contains_merge_of_visible hvis, hs, hr⟩,
        (store_visible_iff hs hr).mp hvis⟩
  have henum : c.rewound.Enumerates (ks.map (maps.storeRow keyOnly)) :=
    enumerates_store (c := c.rewound) rfl rfl ks ((storeKeys_pairwise maps store range _).filter _)
      hmem
  refine visit_of_enumerates henum ?_
  have hlen : ks.length ≤ maps.records.size + maps.pendingRecords.size :=
    (List.length_filter_le _ _).trans (length_storeKeys_le maps store range _)
  rw [List.length_map]
  exact hlen.trans ((Nat.le_add_right _ _).trans (Nat.le_add_right _ _))

/-- A plain index cursor visits the entries its sources reach. -/
theorem visit_index (hplain : dir.isUnique = false) :
    (openIndex maps store index range dir keyOnly).visit =
      pure (((maps.indexKeys index range dir.isPrev).filter
        (maps.entryReached range dir.isPrev)).map (maps.indexRow store keyOnly)) := by
  let c := openIndex maps store index range dir keyOnly
  let ks := (maps.indexKeys index range dir.isPrev).filter (maps.entryReached range dir.isPrev)
  have hmem (k : IndexKey) : k ∈ ks ↔ (c.rewound.indexWalk index).Visible .start k ∧
      c.rewound.indexVerdict false k.key = .take := by
    rw [List.mem_filter, mem_indexKeys, indexVerdict_take_iff]
    constructor
    · rintro ⟨⟨-, hs, hr⟩, hreach⟩
      exact ⟨(index_visible_iff hs hr).mpr hreach, hr, by simp⟩
    · rintro ⟨hvis, hr, -⟩
      have hs : k.index = index := by
        simpa [indexWalk] using OverlayWalk.visible_inside hvis
      exact ⟨⟨OverlayWalk.contains_merge_of_visible hvis, hs, hr⟩,
        (index_visible_iff hs hr).mp hvis⟩
  have hkind : c.rewound.kind = .index store index false := by
    simp [c, rewound, openIndex, «open», hplain]
  have henum : c.rewound.Enumerates (ks.map (maps.indexRow store keyOnly)) :=
    enumerates_index (c := c.rewound) hkind rfl ks
      ((indexKeys_pairwise maps index range _).filter _)
      hmem
  refine visit_of_enumerates henum ?_
  have hlen : ks.length ≤ maps.index.size + maps.pendingIndex.size :=
    (List.length_filter_le _ _).trans (length_indexKeys_le maps index range _)
  rw [List.length_map]
  exact hlen.trans (by rw [Nat.add_assoc]; exact Nat.le_add_left _ _)

/-! ### The groups of a unique walk -/

/-- Every group has a smallest member. -/
theorem exists_groupMin {ks : List IndexKey} {k : IndexKey} (hk : k ∈ ks) :
    ∃ t ∈ groupMins ks, t.key = k.key := by
  obtain ⟨t, ht, hmin⟩ := (ks.filter (fun x => x.key = k.key)).toFinset.exists_min_image
    IndexKey.primaryKey ⟨k, by simp [hk]⟩
  simp only [List.mem_toFinset, List.mem_filter, decide_eq_true_eq] at ht hmin
  refine ⟨t, ?_, ht.2⟩
  rw [groupMins, List.mem_filter]
  exact ⟨ht.1, by simpa using fun k' hk' hkey => hmin k' ⟨hk', hkey.trans ht.2⟩⟩

theorem mem_groupMins {ks : List IndexKey} {t : IndexKey} : t ∈ groupMins ks ↔
    t ∈ ks ∧ ∀ k ∈ ks, k.key = t.key → t.primaryKey ≤ k.primaryKey := by
  rw [groupMins, List.mem_filter]
  simp

/-- The smallest members stand in strict key order. -/
theorem groupMins_pairwise (maps : CursorMaps) (index : IndexId) (range : EncodedRange)
    (desc : Bool) : (groupMins (maps.indexKeys index range desc)).Pairwise
      (fun a b => ahead desc a.key b.key = true) := by
  refine List.Pairwise.imp_of_mem ?_ ((indexKeys_pairwise maps index range desc).filter _)
  intro a b ha hb hab
  obtain ⟨ha, hamin⟩ := mem_groupMins.mp ha
  obtain ⟨hb, hbmin⟩ := mem_groupMins.mp hb
  have hai := (mem_indexKeys.mp ha).2.1
  have hbi := (mem_indexKeys.mp hb).2.1
  rcases (ahead_indexKey (hai.trans hbi.symm)).mp hab with h | ⟨h, hpk⟩
  · exact h
  · have heq : a.primaryKey = b.primaryKey := le_antisymm (hamin b hb h.symm) (hbmin a ha h)
    simp [heq, ahead_irrefl] at hpk

/-- A forward walk reaches every merged entry. -/
theorem entryReached_forward {k : IndexKey} (hd : dir.isPrev = false)
    (hk : maps.mergedIndex.contains k = true) : maps.entryReached range dir.isPrev k = true := by
  rw [entryReached, hd]
  rcases mergedIndex_contains_iff.mp hk with ⟨hc, ht⟩ | hp
  · simp only [Bool.or_eq_true, Bool.and_eq_true]
    exact .inl ⟨⟨hc, ht⟩, by simp [indexUnbounded]⟩
  · rw [← OrderedMap.get?_eq_some_iff] at hp
    simp [hp, indexUnbounded]

/-- The groups before the first reached one are lost; from there on a unique walk
owes every group. -/
theorem uniqueTargets_start :
    (openIndex maps store index range dir keyOnly).rewound.UniqueTargets index
      ((groupMins (maps.indexKeys index range dir.isPrev)).dropWhile
        (fun t => !maps.groupReached range dir.isPrev t)) := by
  have hsub := List.dropWhile_sublist (fun t => !maps.groupReached range dir.isPrev t)
    (l := groupMins (maps.indexKeys index range dir.isPrev))
  have hsorted := groupMins_pairwise maps index range dir.isPrev
  have hin {t : IndexKey} (ht : t ∈ (groupMins (maps.indexKeys index range dir.isPrev)).dropWhile
      (fun t => !maps.groupReached range dir.isPrev t)) := mem_groupMins.mp (hsub.subset ht)
  -- a reached group is not among those dropped, nor is any behind a kept one
  have hkeep {t : IndexKey} (ht : t ∈ groupMins (maps.indexKeys index range dir.isPrev))
      (hnot : t ∉ (groupMins (maps.indexKeys index range dir.isPrev)).takeWhile
        (fun t => !maps.groupReached range dir.isPrev t)) :
      t ∈ (groupMins (maps.indexKeys index range dir.isPrev)).dropWhile
        (fun t => !maps.groupReached range dir.isPrev t) := by
    rw [← List.takeWhile_append_dropWhile (p := fun t => !maps.groupReached range dir.isPrev t)
      (l := groupMins (maps.indexKeys index range dir.isPrev)), List.mem_append] at ht
    exact ht.resolve_left hnot
  constructor
  case sorted => exact hsorted.sublist hsub
  case inRange =>
      intro t ht
      exact mem_indexKeys.mp (hin ht).1
  case least =>
      intro t ht k hk hki hkey
      refine (hin ht).2 k (mem_indexKeys.mpr ⟨hk, hki, ?_⟩) hkey
      rw [hkey]
      exact (mem_indexKeys.mp (hin ht).1).2.2
  case complete =>
      intro t ht k hk hb
      obtain ⟨t', ht', hkey⟩ := exists_groupMin (mem_indexKeys.mpr hk : k ∈ maps.indexKeys index
        range dir.isPrev)
      refine ⟨t', hkeep ht' fun hdrop => ?_, hkey⟩
      have happ := List.takeWhile_append_dropWhile
        (p := fun t => !maps.groupReached range dir.isPrev t)
        (l := groupMins (maps.indexKeys index range dir.isPrev))
      rw [← happ] at hsorted
      have hbefore := (List.pairwise_append.mp hsorted).2.2 t' hdrop t ht
      rw [hkey] at hbefore
      have := ahead_trans hb hbefore
      simp [ahead_irrefl] at this
  case covers =>
      intro k hvis hr
      have hk := inRange_of_visible hvis hr
      have hreach := (index_visible_iff hk.2.1 hr).mp hvis
      obtain ⟨t, ht, hkey⟩ := exists_groupMin (mem_indexKeys.mpr hk : k ∈ maps.indexKeys index
        range dir.isPrev)
      refine .inr ⟨t, hkeep ht fun hdrop => ?_, hkey⟩
      have hnot := List.mem_takeWhile_imp hdrop
      have hti := (mem_indexKeys.mp (mem_groupMins.mp ht).1).2.1
      have hreach : maps.entryReached range dir.isPrev k = true := hreach
      have : maps.groupReached range dir.isPrev t = true :=
        List.any_eq_true.mpr ⟨k, hti ▸ mem_indexKeys.mpr hk, by simp [hkey, hreach]⟩
      simp [this] at hnot
  case last =>
      intro l hl
      simp [rewound] at hl

/-- A unique index cursor visits the smallest row of each group, from the first
group with a reached entry on. -/
theorem visit_unique (hunique : dir.isUnique = true) :
    (openIndex maps store index range dir keyOnly).visit =
      pure (((groupMins (maps.indexKeys index range dir.isPrev)).dropWhile
        (fun t => !maps.groupReached range dir.isPrev t)).map (maps.indexRow store keyOnly)) := by
  let c := openIndex maps store index range dir keyOnly
  have hkind : c.rewound.kind = .index store index true := by
    simp [c, rewound, openIndex, «open», hunique]
  have htargets : c.rewound.UniqueTargets index
      ((groupMins (maps.indexKeys index range dir.isPrev)).dropWhile
        (fun t => !maps.groupReached range dir.isPrev t)) := uniqueTargets_start
  have hhead := List.head?_dropWhile_not (fun t => !maps.groupReached range dir.isPrev t)
    (groupMins (maps.indexKeys index range dir.isPrev))
  have hlen : ((groupMins (maps.indexKeys index range dir.isPrev)).dropWhile
      (fun t => !maps.groupReached range dir.isPrev t)).length ≤
      maps.index.size + maps.pendingIndex.size :=
    ((List.length_dropWhile_le _ _).trans (List.length_filter_le _ _)).trans
      (length_indexKeys_le maps index range _)
  revert hlen htargets hhead
  generalize (groupMins (maps.indexKeys index range dir.isPrev)).dropWhile
    (fun t => !maps.groupReached range dir.isPrev t) = ts
  intro htargets hhead hlen
  have henum : c.rewound.Enumerates (ts.map (maps.indexRow store keyOnly)) := by
    cases ts with
    | nil => exact enumerates_unique hkind rfl [] htargets (by simp)
    | cons t ts =>
        have hreached : maps.groupReached range dir.isPrev t = true := by simpa using hhead
        obtain ⟨k, hk, hkt⟩ := List.any_eq_true.mp hreached
        have ht := htargets.inRange t (by simp)
        obtain ⟨hkey, hkreach⟩ : k.key = t.key ∧ maps.entryReached range dir.isPrev k = true := by
          simpa using hkt
        obtain ⟨hkm, hki, hkr⟩ := mem_indexKeys.mp hk
        obtain ⟨pos, hadv, h', hall⟩ := htargets.step hkind
          ⟨k, (index_visible_iff (hki.trans ht.2.1) hkr).mpr hkreach, hkey⟩ fun hd t' ht' => by
            have hin := htargets.inRange t' ht'
            exact (index_visible_iff hin.2.1 hin.2.2).mpr (entryReached_forward hd hin.1)
        have hrest :=
          enumerates_unique (c := c.rewound.yielded store true pos t) hkind rfl ts h' hall
        rw [List.map_cons]
        exact yielded_row (c := c.rewound) store true pos t rfl ▸
          Enumerates.more hadv rfl rfl hrest
  refine visit_of_enumerates henum ?_
  rw [List.length_map]
  exact hlen.trans (by rw [Nat.add_assoc]; exact Nat.le_add_left _ _)

/-! ### Completeness -/

theorem map_filter_eq_iff {α β : Type} {l : List α} {p : α → Bool} {f : α → β} :
    (l.filter p).map f = l.map f ↔ ∀ x ∈ l, p x = true := by
  constructor
  · intro h
    have hlen := congrArg List.length h
    rw [List.length_map, List.length_map] at hlen
    exact List.length_filter_eq_length_iff.mp hlen
  · intro h
    rw [List.filter_eq_self.mpr h]

theorem map_dropWhile_eq_iff {α β : Type} {l : List α} {p : α → Bool} {f : α → β} :
    (l.dropWhile (fun x => !p x)).map f = l.map f ↔ ∀ x ∈ l.head?, p x = true := by
  cases l with
  | nil => simp
  | cons a l =>
      cases ha : p a with
      | true => simp [ha]
      | false =>
          have hlt : ((a :: l).dropWhile (fun x => !p x)).length < (a :: l).length := by
            rw [List.dropWhile_cons_of_pos (by simp [ha]), List.length_cons]
            exact Nat.lt_succ_of_le (List.length_dropWhile_le _ _)
          constructor
          · intro h
            have hlen := congrArg List.length h
            rw [List.length_map, List.length_map] at hlen
            exact absurd hlen hlt.ne
          · intro h
            simp [ha] at h

/-- The rows that a full walk visits. -/
def visited (maps : CursorMaps) (src : SourceRef) (range : EncodedRange) (dir : Direction)
    (keyOnly : Bool) : List (Bytes × Bytes × Option Bytes) :=
  match src with
  | .store store =>
      ((maps.storeKeys store range dir.isPrev).filter (maps.recordReached range dir.isPrev)).map
        (maps.storeRow keyOnly)
  | .index store index =>
      let ks := maps.indexKeys index range dir.isPrev
      (if dir.isUnique then
          (groupMins ks).dropWhile fun t => !maps.groupReached range dir.isPrev t
        else ks.filter (maps.entryReached range dir.isPrev)).map (maps.indexRow store keyOnly)

theorem visit_eq_visited (maps : CursorMaps) (src : SourceRef) (range : EncodedRange)
    (dir : Direction) (keyOnly : Bool) :
    (scan maps src range dir keyOnly).visit = pure (visited maps src range dir keyOnly) := by
  cases src with
  | store store => exact visit_store
  | index store index =>
      rw [scan, visited]
      cases hu : dir.isUnique with
      | true => exact visit_unique hu
      | false => exact visit_index hu

/-- A full walk never fails, and never runs out of steps. -/
theorem visit_total (maps : CursorMaps) (src : SourceRef) (range : EncodedRange) (dir : Direction)
    (keyOnly : Bool) : ∃ rows, (scan maps src range dir keyOnly).visit = pure rows :=
  ⟨_, visit_eq_visited ..⟩

theorem visited_eq_rows_iff (maps : CursorMaps) (src : SourceRef) (range : EncodedRange)
    (dir : Direction) (keyOnly : Bool) :
    visited maps src range dir keyOnly = maps.rows src range dir keyOnly ↔
      maps.ReachesRows src range dir := by
  cases src with
  | store store => exact map_filter_eq_iff
  | index store index =>
      simp only [visited, rows, ReachesRows]
      cases dir.isUnique with
      | true => exact map_dropWhile_eq_iff
      | false => exact map_filter_eq_iff

theorem visit_of_reaches {maps : CursorMaps} {src : SourceRef} {range : EncodedRange}
    {dir : Direction} (h : maps.ReachesRows src range dir) (keyOnly : Bool) :
    (scan maps src range dir keyOnly).visit = pure (maps.rows src range dir keyOnly) :=
  (visit_eq_visited ..).trans (congrArg pure ((visited_eq_rows_iff ..).mpr h))

/-- A full walk visits the merged rows of its source inside the range, each once and
in direction order, exactly when its two sources reach them. -/
theorem visit_eq_rows_iff (maps : CursorMaps) (src : SourceRef) (range : EncodedRange)
    (dir : Direction) (keyOnly : Bool) :
    (scan maps src range dir keyOnly).visit = pure (maps.rows src range dir keyOnly) ↔
      maps.ReachesRows src range dir := by
  have hpure {l l' : List (Bytes × Bytes × Option Bytes)} :
      (pure l : CursorResult _) = pure l' ↔ l = l' :=
    ⟨fun h => Except.ok.inj (Option.some.inj h), congrArg pure⟩
  rw [visit_eq_visited, hpure]
  exact visited_eq_rows_iff ..

/-- Two stores with one record each; a backward walk of the first one with no
bounds visits nothing. -/
theorem visit_prev_neighbour_store :
    let maps : CursorMaps :=
      { records := OrderedMap.empty.insert ⟨1, [1]⟩ [10] |>.insert ⟨2, [1]⟩ [20]
        index := .empty
        pendingRecords := .empty
        pendingIndex := .empty }
    (scan maps (.store 1) .all .prev false).visit = pure [] ∧
      maps.rows (.store 1) .all .prev false = [([1], [1], some [10])] :=
  ⟨rfl, rfl⟩

end Cursor

end BoaIdb
