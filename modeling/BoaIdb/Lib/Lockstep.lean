import BoaIdb.Lib.Faults

/-!
Programs side by side.

Two programs run from states that are related. `Lockstep R p p'` says that they end alike, with
the same result or the same error, and in states that are related again: what differs between
the states is never read.
-/

namespace Faults

open Prog

variable {σ σ' ε α β : Type} {R : σ → σ' → Prop}

/-- Both runs end alike. -/
def EndAlike (R : σ → σ' → Prop) (r : Exit ε α × σ) (r' : Exit ε α × σ') : Prop :=
  r.1 = r'.1 ∧ R r.2 r'.2

/-- From related states both programs end alike. -/
def Lockstep (R : σ → σ' → Prop) (p : Prog σ ε α) (p' : Prog σ' ε α) : Prop :=
  ∀ s s', R s s' → EndAlike R (p s) (p' s')

variable {p : Prog σ ε α} {p' : Prog σ' ε α} {k : α → Prog σ ε β} {k' : α → Prog σ' ε β}

theorem lockstep_pure (a : α) : Lockstep R (pure a : Prog σ ε α) (pure a : Prog σ' ε α) :=
  fun _ _ h => ⟨rfl, h⟩

theorem lockstep_throw (e : ε) : Lockstep R (throw e : Prog σ ε α) (throw e : Prog σ' ε α) :=
  fun _ _ h => ⟨rfl, h⟩

theorem lockstep_lift (r : Except ε α) :
    Lockstep R (Prog.lift r : Prog σ ε α) (Prog.lift r : Prog σ' ε α) := by
  intro s s' h
  cases r with
  | ok a => exact ⟨rfl, h⟩
  | error e => exact ⟨rfl, h⟩

theorem lockstep_modify {f : σ → σ} {f' : σ' → σ'} (h : ∀ s s', R s s' → R (f s) (f' s')) :
    Lockstep R (modify f : Prog σ ε Unit) (modify f' : Prog σ' ε Unit) :=
  fun s s' hs => ⟨rfl, h s s' hs⟩

/-- Functions that answer alike. -/
theorem lockstep_call {f : σ → Except ε (α × σ)} {f' : σ' → Except ε (α × σ')}
    (h : ∀ s s', R s s' → (∃ e, f s = .error e ∧ f' s' = .error e) ∨
      ∃ a t t', f s = .ok (a, t) ∧ f' s' = .ok (a, t') ∧ R t t') :
    Lockstep R (call f) (call f') := by
  intro s s' hs
  unfold call
  rcases h s s' hs with ⟨e, hf, hf'⟩ | ⟨a, t, t', hf, hf', ht⟩
  · rw [hf, hf']
    exact ⟨rfl, hs⟩
  · rw [hf, hf']
    exact ⟨rfl, ht⟩

theorem bind_stopped {s t : σ} (h : p s = (.stopped, t)) : (p >>= k) s = (.stopped, t) := by
  simp only [bind, h]

theorem Lockstep.bind (h : Lockstep R p p') (hk : ∀ a, Lockstep R (k a) (k' a)) :
    Lockstep R (p >>= k) (p' >>= k') := by
  intro s s' hs
  obtain ⟨hexit, hstate⟩ := h s s' hs
  rcases hp : p s with ⟨exit, t⟩
  rcases hp' : p' s' with ⟨exit', t'⟩
  rw [hp, hp'] at hexit hstate
  obtain rfl : exit = exit' := hexit
  cases exit with
  | done a =>
      rw [bind_done hp rfl, bind_done hp' rfl]
      exact hk a t t' hstate
  | failed e =>
      rw [bind_failed hp, bind_failed hp']
      exact ⟨rfl, hstate⟩
  | stopped =>
      rw [bind_stopped hp, bind_stopped hp']
      exact ⟨rfl, hstate⟩

/-- What is read may differ; it is resolved state by state. -/
theorem lockstep_read {k : σ → Prog σ ε β} {k' : σ' → Prog σ' ε β}
    (h : ∀ s s', R s s' → EndAlike R (k s s) (k' s' s')) :
    Lockstep R (read >>= k) (read >>= k') :=
  fun s s' hs => h s s' hs

theorem Lockstep.mapErr {ε' : Type} (h : Lockstep R p p') (f : ε → ε') :
    Lockstep R (p.mapErr f) (p'.mapErr f) := by
  intro s s' hs
  obtain ⟨hexit, hstate⟩ := h s s' hs
  unfold Prog.mapErr
  rcases hp : p s with ⟨exit, t⟩
  rcases hp' : p' s' with ⟨exit', t'⟩
  rw [hp, hp'] at hexit hstate
  obtain rfl : exit = exit' := hexit
  cases exit <;> exact ⟨rfl, hstate⟩

theorem Lockstep.attempt (h : Lockstep R p p') : Lockstep R p.attempt p'.attempt := by
  intro s s' hs
  obtain ⟨hexit, hstate⟩ := h s s' hs
  unfold Prog.attempt
  rcases hp : p s with ⟨exit, t⟩
  rcases hp' : p' s' with ⟨exit', t'⟩
  rw [hp, hp'] at hexit hstate
  obtain rfl : exit = exit' := hexit
  cases exit <;> exact ⟨rfl, hstate⟩

theorem lockstep_forEach {ι : Type} {body : ι → Prog σ ε Unit} {body' : ι → Prog σ' ε Unit}
    (is : List ι) (h : ∀ i ∈ is, Lockstep R (body i) (body' i)) :
    Lockstep R (Prog.forEach body is) (Prog.forEach body' is) := by
  induction is with
  | nil => exact lockstep_pure ()
  | cons i is ih =>
      exact (h i (.head _)).bind fun _ => ih fun j hj => h j (.tail _ hj)

/-- Programs on parts that are there in both states, or missing from both. -/
theorem Lockstep.zoom {τ τ' : Type} {Q : τ → τ' → Prop} {get : σ → Except ε τ}
    {get' : σ' → Except ε τ'} {set : τ → σ → σ} {set' : τ' → σ' → σ'} {q : Prog τ ε α}
    {q' : Prog τ' ε α} (h : Lockstep Q q q')
    (hparts : ∀ s s', R s s' → (∃ e, get s = .error e ∧ get' s' = .error e) ∨
      ∃ t t', get s = .ok t ∧ get' s' = .ok t' ∧ Q t t' ∧
        ∀ u u', Q u u' → R (set u s) (set' u' s')) :
    Lockstep R (Prog.zoom get set q) (Prog.zoom get' set' q') := by
  intro s s' hs
  unfold Prog.zoom
  rcases hparts s s' hs with ⟨e, hget, hget'⟩ | ⟨t, t', hget, hget', ht, hset⟩
  · rw [hget, hget']
    exact ⟨rfl, hs⟩
  · rw [hget, hget']
    exact ⟨(h t t' ht).1, hset _ _ (h t t' ht).2⟩

end Faults
