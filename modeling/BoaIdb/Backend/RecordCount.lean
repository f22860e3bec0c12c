import BoaIdb.Backend.PendingView
import Mathlib.Data.Set.Card

/-!
The number of records of a view, and what the operations on pending changes do to it.
-/

/-- The keys of a map are as many as it has entries. -/
theorem OrdMap.OrderedMap.size_eq_ncard {K V : Type*} [LinearOrder K] (m : OrderedMap K V) :
    m.size = {k | m.get? k ≠ none}.ncard := by
  have hkeys : {k | m.get? k ≠ none} = (m.keys.toFinset : Set K) := by
    ext k
    rw [Set.mem_ofPred_eq, Finset.mem_coe, List.mem_toFinset, OrderedMap.mem_keys_iff,
      Option.ne_none_iff_exists']
  rw [hkeys, Set.ncard_coe_finset, List.toFinset_card_of_nodup m.nodup_keys, OrderedMap.keys,
    List.length_map, OrderedMap.size]

namespace BoaIdb

open OrdMap

namespace View

/-- The keys of the records. -/
def held (w : View) : Set RecordKey := {k | w.records k ≠ none}

/-- How many records there are. -/
noncomputable def recordCount (w : View) : ℕ := w.held.ncard

theorem held_setRecord_some (w : View) (key : RecordKey) (val : Bytes) :
    (w.setRecord key (some val)).held = insert key w.held := by
  ext k
  by_cases hk : k = key
  · simp [held, setRecord, hk]
  · simp [held, setRecord, hk]

theorem held_setRecord_none (w : View) (key : RecordKey) :
    (w.setRecord key none).held = w.held \ {key} := by
  ext k
  by_cases hk : k = key
  · simp [held, setRecord, hk]
  · simp [held, setRecord, hk]

/-- One for a record that is there. -/
def present (there : Bool) : ℤ := if there then 1 else 0

/-- A record that is set counts from then on, and the one it replaces no longer. -/
theorem recordCount_setRecord {w : View} (hfinite : w.held.Finite) (key : RecordKey)
    (val : Option Bytes) : ((w.setRecord key val).recordCount : ℤ) =
      w.recordCount + present val.isSome - present (w.records key).isSome := by
  have hmem : key ∈ w.held ↔ (w.records key).isSome = true := by
    rw [held, Set.mem_ofPred_eq, Option.isSome_iff_ne_none]
  cases hold : (w.records key).isSome with
  | true =>
      have hin : key ∈ w.held := hmem.mpr hold
      cases val with
      | some val =>
          rw [recordCount, held_setRecord_some, Set.insert_eq_of_mem hin]
          simp [recordCount, present]
      | none =>
          have hcard := Set.ncard_sdiff_singleton_add_one hin hfinite
          rw [recordCount, held_setRecord_none]
          simp only [recordCount, present, Option.isSome_none, Bool.false_eq_true, if_false,
            if_true]
          omega
  | false =>
      have hout : key ∉ w.held := fun h => by
        rw [hmem, hold] at h
        cases h
      cases val with
      | some val =>
          rw [recordCount, held_setRecord_some, Set.ncard_insert_of_notMem hout hfinite]
          simp [recordCount, present]
      | none =>
          rw [recordCount, held_setRecord_none, Set.sdiff_singleton_eq_self hout]
          simp [recordCount, present]

end View

namespace Pending

variable {base : Rows} {p : Pending}

theorem held_view (base : Rows) (p : Pending) :
    (p.view base).held = {k | (p.applyTo base).records.get? k ≠ none} := by
  ext k
  simp only [View.held, view, readRecord, applyTo, Set.mem_ofPred_eq, OrderedMap.get?_merge]
  cases p.records.get? k <;> rfl

/-- The records of the view are the merged ones. -/
theorem recordCount_view (base : Rows) (p : Pending) :
    (p.view base).recordCount = (p.applyTo base).records.size := by
  rw [View.recordCount, held_view, OrderedMap.size_eq_ncard]

theorem finite_held (base : Rows) (p : Pending) : (p.view base).held.Finite := by
  rw [held_view]
  refine ((p.applyTo base).records.keys.toFinset.finite_toSet).subset fun k hk => ?_
  rw [Finset.mem_coe, List.mem_toFinset, OrderedMap.mem_keys_iff]
  exact Option.ne_none_iff_exists'.mp hk

theorem recordCount_setRecord (key : RecordKey) (val : Option Bytes) :
    (((p.setRecord key val).view base).recordCount : ℤ) =
      (p.view base).recordCount + View.present val.isSome -
        View.present (p.recordExists base key) := by
  rw [view_setRecord, View.recordCount_setRecord (finite_held base p), recordExists_eq]

/-! ### Loops -/

theorem recordCount_tombstone (acc : Pending × ℕ) (key : RecordKey) :
    ((tombstone base acc key).1.view base).recordCount + (tombstone base acc key).2 =
      (acc.1.view base).recordCount + acc.2 := by
  have hset : ((acc.1.setRecord key none).view base).recordCount =
      ((acc.1.view base).recordCount : ℤ) + 0 - _ := recordCount_setRecord key none
  have hread : (acc.1.readRecord base key).isSome = acc.1.recordExists base key :=
    (recordExists_eq key).symm
  unfold tombstone
  rw [hread]
  cases hexists : acc.1.recordExists base key with
  | true =>
      simp only [hexists, View.present, if_true] at hset ⊢
      omega
  | false =>
      simp only [hexists, View.present, Bool.false_eq_true, if_false] at hset ⊢
      omega

theorem recordCount_dropPending {key : RecordKey} (hbase : base.records.get? key = none)
    (acc : Pending × ℕ) :
    ((dropPending acc key).1.view base).recordCount + (dropPending acc key).2 =
      (acc.1.view base).recordCount + acc.2 := by
  have hset := View.recordCount_setRecord (finite_held base acc.1) key none
  have hread : (acc.1.view base).records key = (acc.1.records.get? key).getD none := by
    simp only [view, readRecord, hbase]
    cases acc.1.records.get? key <;> rfl
  rw [view_dropPending hbase]
  rw [hread] at hset
  unfold dropPending
  split
  · next val hold =>
      simp only [hold, Option.getD_some, Option.isSome_some, Option.isSome_none, View.present,
        Bool.false_eq_true, if_true, if_false] at hset ⊢
      omega
  · next hother =>
      have hnone : (acc.1.records.get? key).getD none = none := by
        cases hget : acc.1.records.get? key with
        | none => rfl
        | some slot =>
            cases slot with
            | none => rfl
            | some val => exact absurd hget (hother val)
      simp only [hnone, Option.isSome_none, View.present, Bool.false_eq_true, if_false] at hset ⊢
      omega

/-- What `delete_range` counts is gone. -/
theorem recordCount_deleteRange (store : StoreId) (range : EncodedRange) :
    ((p.deleteRange base store range).1.view base).recordCount +
      (p.deleteRange base store range).2 = (p.view base).recordCount := by
  unfold deleteRange
  simp only
  rw [foldl_constant fun acc : Pending × ℕ => (acc.1.view base).recordCount + acc.2,
    foldl_constant fun acc : Pending × ℕ => (acc.1.view base).recordCount + acc.2]
  · rfl
  · exact fun acc key _ => recordCount_tombstone acc key
  · intro acc key hkey
    simp only [List.mem_filter, decide_eq_true_eq] at hkey
    obtain ⟨⟨-, hrange⟩, hfree⟩ := hkey
    refine recordCount_dropPending ?_ acc
    cases h : base.records.get? key with
    | none => rfl
    | some val => exact absurd ⟨OrderedMap.mem_keys_iff.mpr ⟨val, h⟩, hrange⟩ hfree

end Pending

end BoaIdb
