import BoaIdb.Lib.OrderedMap
import Mathlib.Data.List.Nodup

/-!
Counting the entries of a merged map without merging.

The merged entries are those of the base that the overlay leaves and those that only the
overlay has.
-/

namespace OrdMap

variable {K VB VO : Type*} [LinearOrder K]

namespace OrderedMap

/-- The keys of the base that the overlay does not take away. -/
def keptKeys (slot : VO → Option VB) (base : OrderedMap K VB) (overlay : OrderedMap K VO)
    (p : K → Bool) : List K :=
  base.keys.filter fun k => p k && (overlay.get? k).all fun v => (slot v).isSome

/-- The entries that the overlay adds. -/
def addedEntries (slot : VO → Option VB) (base : OrderedMap K VB) (overlay : OrderedMap K VO)
    (p : K → Bool) : List (K × VO) :=
  overlay.entries.filter fun e => p e.1 && (slot e.2).isSome && !base.contains e.1

variable {slot : VO → Option VB} {base : OrderedMap K VB} {overlay : OrderedMap K VO}
  {p : K → Bool} {k : K}

theorem mem_keptKeys : k ∈ keptKeys slot base overlay p ↔
    k ∈ base.keys ∧ p k = true ∧ (overlay.get? k).all (fun v => (slot v).isSome) = true := by
  rw [keptKeys, List.mem_filter, Bool.and_eq_true]

theorem mem_addedEntries : k ∈ (addedEntries slot base overlay p).map Prod.fst ↔
    k ∉ base.keys ∧ p k = true ∧ ∃ v, overlay.get? k = some v ∧ (slot v).isSome = true := by
  constructor
  · intro h
    obtain ⟨e, he, rfl⟩ := List.mem_map.mp h
    obtain ⟨hmem, hkeep⟩ := List.mem_filter.mp he
    simp only [Bool.and_eq_true, Bool.not_eq_true'] at hkeep
    obtain ⟨⟨hp, hlive⟩, hnew⟩ := hkeep
    refine ⟨fun hbase => ?_, hp, e.2, get?_eq_some_iff.mpr hmem, hlive⟩
    rw [contains_iff.mpr hbase] at hnew
    cases hnew
  · rintro ⟨hnew, hp, v, hv, hlive⟩
    refine List.mem_map.mpr ⟨(k, v), List.mem_filter.mpr ⟨get?_eq_some_iff.mp hv, ?_⟩, rfl⟩
    have hbase : base.contains k = false :=
      eq_false_of_ne_true fun h => hnew (contains_iff.mp h)
    rw [hp, hlive, hbase]
    rfl

theorem mem_merge_keys : k ∈ (base.merge slot overlay).keys ↔
    (k ∈ base.keys ∧ (overlay.get? k).all (fun v => (slot v).isSome) = true) ∨
      k ∉ base.keys ∧ ∃ v, overlay.get? k = some v ∧ (slot v).isSome = true := by
  rw [mem_keys_iff, mem_keys_iff, get?_merge]
  cases hov : overlay.get? k with
  | none => simp
  | some v =>
      by_cases hbase : ∃ w, base.get? k = some w
      · simp [hbase, Option.isSome_iff_exists]
      · simp [hbase, Option.isSome_iff_exists]

/-- The merged entries with a property, counted in the base and in the overlay. -/
theorem length_filter_merge (slot : VO → Option VB) (base : OrderedMap K VB)
    (overlay : OrderedMap K VO) (p : K → Bool) :
    ((base.merge slot overlay).keys.filter p).length =
      (keptKeys slot base overlay p).length + (addedEntries slot base overlay p).length := by
  have hadded : ((addedEntries slot base overlay p).map Prod.fst).Nodup :=
    overlay.nodup_keys.sublist (List.filter_sublist.map _)
  have hnodup : (keptKeys slot base overlay p ++
      (addedEntries slot base overlay p).map Prod.fst).Nodup := by
    refine List.Nodup.append (base.nodup_keys.filter _) hadded fun k hkept hnew => ?_
    exact (mem_addedEntries.mp hnew).1 (mem_keptKeys.mp hkept).1
  have hperm := (List.perm_ext_iff_of_nodup ((base.merge slot overlay).nodup_keys.filter p)
    hnodup).mpr fun k => by
      rw [List.mem_filter, mem_merge_keys, List.mem_append, mem_keptKeys, mem_addedEntries]
      tauto
  rw [hperm.length_eq, List.length_append, List.length_map]

end OrderedMap

end OrdMap
