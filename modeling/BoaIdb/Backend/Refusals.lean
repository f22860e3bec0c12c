import BoaIdb.Fs.Backend
import BoaIdb.Memory.Backend

/-!
What the operations of a transaction refuse.

A constraint is reported for a record that is there already or for an index key that is taken,
and for nothing else: every other refusal comes from the scope, the mode or the quota.
-/

namespace BoaIdb

open Faults

def BackendError.isConstraint : BackendError → Bool
  | .constraint _ => true
  | _ => false

/-- A lawful backend that says why it refuses. -/
class LawfulRefusals (σ : Type) [BackendTxn σ] [LawfulTxn σ] where
  /-- The store is in the scope of the transaction. -/
  Scoped : σ → StoreId → Prop
  Writable : σ → Prop
  get_refused (s : σ) (store : StoreId) (key : Bytes) :
    Meets (· = s) (BackendTxn.get store key) (fun _ s' => s' = s ∧ Scoped s store)
      (fun e _ => ¬ Scoped s store ∧ e.any BackendError.isConstraint = false)
  put_refused (s : σ) (store : StoreId) (key val : Bytes) (noOverwrite : Bool) :
    Meets (· = s) (BackendTxn.put store key val noOverwrite) (fun _ _ => True)
      (fun e _ => e.any BackendError.isConstraint = true →
        noOverwrite = true ∧ (LawfulTxn.view s).records ⟨store, key⟩ ≠ none)
  keyGenSet_refused (s : σ) (store : StoreId) (value : F64Bits) :
    Meets (· = s) (BackendTxn.keyGenSet store value) (fun _ _ => True)
      (fun e _ => e.any BackendError.isConstraint = false)
  indexPut_refused (s : σ) (index : IndexId) (idxKey primaryKey : Bytes) (unique : Bool) :
    Meets (· = s) (BackendTxn.indexPut index idxKey primaryKey unique)
      (fun _ s' => Writable s ∧ Writable s')
      (fun e _ => ¬ Writable s ∧ e.any BackendError.isConstraint = false ∨
        Writable s ∧ (unique = true ∧ (LawfulTxn.view s).Taken ⟨index, idxKey, primaryKey⟩) ∧
          e.any BackendError.isConstraint = true)
  indexDelete_refused (s : σ) (index : IndexId) (idxKey primaryKey : Bytes) :
    Meets (· = s) (BackendTxn.indexDelete index idxKey primaryKey)
      (fun _ s' => Writable s ∧ Writable s')
      (fun e _ => ¬ Writable s ∧ e.any BackendError.isConstraint = false)

namespace Pending

variable {base : Rows} {p : Pending}

/-- A put is refused for a constraint when the record is there. -/
theorem put_constraint {quota : Pending → Except BackendError Unit} {key : RecordKey} {val : Bytes}
    {noOverwrite : Bool} {e : BackendError} (hquota : ∀ e, quota p = .error e →
      e.isConstraint = false)
    (h : p.put base quota key val noOverwrite = .error e) (hconstraint : e.isConstraint = true) :
    noOverwrite = true ∧ (p.view base).records key ≠ none := by
  simp only [put] at h
  split at h
  · next hadd =>
      obtain ⟨hnoOverwrite, hthere⟩ := Bool.and_eq_true_iff.mp hadd
      rw [recordExists_eq, Option.isSome_iff_ne_none] at hthere
      exact ⟨hnoOverwrite, hthere⟩
  · split at h
    · next err herr =>
        cases h
        split at herr
        · cases herr
        · rw [hquota e herr] at hconstraint
          cases hconstraint
    · cases h

/-- An entry is refused for a constraint. -/
theorem indexPut_constraint {key : IndexKey} {unique : Bool} {e : BackendError}
    (h : p.indexPut base key unique = .error e) :
    (unique = true ∧ (p.view base).Taken key) ∧ e.isConstraint = true := by
  obtain ⟨htaken, msg, hmsg⟩ := refused_indexPut h
  refine ⟨htaken, ?_⟩
  rw [Option.some.inj hmsg]
  rfl

end Pending

theorem ne_ok_of_error {ε : Type} {x : Except ε Unit} {e : ε} (h : x = .error e) : x ≠ .ok () := by
  rw [h]
  intro hok
  cases hok

/-- A failure of a first step or of what follows it. -/
theorem bind_error_cases {ε α : Type} {x : Except ε Unit} {f : Unit → Except ε α} {e : ε}
    (h : x >>= f = .error e) : x = .error e ∨ ∃ u, x = .ok u ∧ f u = .error e := by
  cases x with
  | error e' => exact .inl (congrArg Except.error (Except.error.inj h))
  | ok u => exact .inr ⟨u, rfl, h⟩

/-! ### The memory backend -/

namespace Memory.MemoryTxn

variable {t : MemoryTxn} {e : BackendError}

theorem checkScope_error {store : StoreId} (h : t.checkScope store = .error e) :
    e.isConstraint = false := by
  rw [checkScope] at h
  split at h
  · cases h
  · cases h
    rfl

theorem checkReadwrite_error (h : t.checkReadwrite = .error e) : e.isConstraint = false := by
  rw [checkReadwrite] at h
  split at h
  · cases h
    rfl
  · cases h

end Memory.MemoryTxn

open Memory in
instance : LawfulRefusals Memory.Session where
  Scoped s store := s.txn.checkScope store = .ok ()
  Writable s := s.txn.checkReadwrite = .ok ()
  get_refused s store key := by
    refine Session.meets_askTxn (fun r h => ?_) fun e h => ?_
    · obtain ⟨_, hscope, -⟩ := bind_ok h
      exact ⟨rfl, hscope⟩
    · have hscope := bind_error h fun _ h => by cases h
      exact ⟨ne_ok_of_error hscope, MemoryTxn.checkScope_error hscope⟩
  put_refused s store key val noOverwrite := by
    refine Session.meets_onTxn (fun _ _ => trivial) fun e h hconstraint => ?_
    rcases bind_error_cases h with hscope | ⟨_, -, h⟩
    · exact absurd hconstraint (ne_true_of_eq_false (MemoryTxn.checkScope_error hscope))
    rcases bind_error_cases h with hmode | ⟨_, -, h⟩
    · exact absurd hconstraint (ne_true_of_eq_false (MemoryTxn.checkReadwrite_error hmode))
    have hput := bind_error h fun _ h => by cases h
    exact Pending.put_constraint (fun _ h => by cases h) hput hconstraint
  keyGenSet_refused s store value := by
    refine Session.meets_onTxn (fun _ _ => trivial) fun e h => ?_
    exact MemoryTxn.checkReadwrite_error (bind_error h fun _ h => by cases h)
  indexPut_refused s index idxKey primaryKey unique := by
    refine Session.meets_onTxn (fun t h => ?_) fun e h => ?_
    · obtain ⟨_, hmode, h⟩ := bind_ok h
      obtain ⟨p, -, ht⟩ := bind_ok h
      cases ht
      exact ⟨hmode, hmode⟩
    · rcases bind_error_cases h with hmode | ⟨_, hmode, h⟩
      · exact .inl ⟨ne_ok_of_error hmode, MemoryTxn.checkReadwrite_error hmode⟩
      · exact .inr ⟨hmode, Pending.indexPut_constraint (bind_error h fun _ h => by cases h)⟩
  indexDelete_refused s index idxKey primaryKey := by
    refine Session.meets_onTxn (fun t h => ?_) fun e h => ?_
    · obtain ⟨_, hmode, h⟩ := bind_ok h
      cases h
      exact ⟨hmode, hmode⟩
    · have hmode := bind_error h fun _ h => by cases h
      exact ⟨ne_ok_of_error hmode, MemoryTxn.checkReadwrite_error hmode⟩

/-! ### The filesystem backend -/

namespace Fs.OpenTxn

variable {s : OpenTxn} {e : BackendError}

theorem checkScope_error {store : StoreId} (h : s.checkScope store = .error e) :
    e.isConstraint = false := by
  rw [checkScope] at h
  split at h
  · cases h
  · cases h
    rfl

theorem checkReadwrite_error (h : s.checkReadwrite = .error e) : e.isConstraint = false := by
  rw [checkReadwrite] at h
  split at h
  · cases h
    rfl
  · cases h

theorem checkQuota_error (h : s.checkQuota = .error e) : e.isConstraint = false := by
  simp only [checkQuota] at h
  split at h
  · cases h
    rfl
  · cases h

end Fs.OpenTxn

open Fs in
instance : LawfulRefusals Fs.OpenTxn where
  Scoped s store := s.checkScope store = .ok ()
  Writable s := s.checkReadwrite = .ok ()
  get_refused s store key := by
    refine OpenTxn.meets_askTxn (fun r h => ?_) fun e h => ?_
    · obtain ⟨_, hscope, -⟩ := bind_ok h
      exact ⟨rfl, hscope⟩
    · have hscope := bind_error h fun _ h => by cases h
      exact ⟨ne_ok_of_error hscope, OpenTxn.checkScope_error hscope⟩
  put_refused s store key val noOverwrite := by
    refine OpenTxn.meets_onTxn (fun _ _ => trivial) fun e h hconstraint => ?_
    rcases bind_error_cases h with hscope | ⟨_, -, h⟩
    · exact absurd hconstraint (ne_true_of_eq_false (OpenTxn.checkScope_error hscope))
    rcases bind_error_cases h with hmode | ⟨_, -, h⟩
    · exact absurd hconstraint (ne_true_of_eq_false (OpenTxn.checkReadwrite_error hmode))
    have hput := bind_error h fun _ h => by cases h
    exact Pending.put_constraint (fun _ h => OpenTxn.checkQuota_error h) hput hconstraint
  keyGenSet_refused s store value := by
    refine OpenTxn.meets_onTxn (fun _ _ => trivial) fun e h => ?_
    exact OpenTxn.checkReadwrite_error (bind_error h fun _ h => by cases h)
  indexPut_refused s index idxKey primaryKey unique := by
    refine OpenTxn.meets_onTxn (fun t h => ?_) fun e h => ?_
    · obtain ⟨_, hmode, h⟩ := bind_ok h
      obtain ⟨p, -, ht⟩ := bind_ok h
      cases ht
      exact ⟨hmode, hmode⟩
    · rcases bind_error_cases h with hmode | ⟨_, hmode, h⟩
      · exact .inl ⟨ne_ok_of_error hmode, OpenTxn.checkReadwrite_error hmode⟩
      · exact .inr ⟨hmode, Pending.indexPut_constraint (bind_error h fun _ h => by cases h)⟩
  indexDelete_refused s index idxKey primaryKey := by
    refine OpenTxn.meets_onTxn (fun t h => ?_) fun e h => ?_
    · obtain ⟨_, hmode, h⟩ := bind_ok h
      cases h
      exact ⟨hmode, hmode⟩
    · have hmode := bind_error h fun _ h => by cases h
      exact ⟨ne_ok_of_error hmode, OpenTxn.checkReadwrite_error hmode⟩

end BoaIdb
