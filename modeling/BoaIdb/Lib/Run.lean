import Mathlib.Logic.Basic

/-!
Runs of a labelled transition relation, with the steps they took.

A property that one condition on each step decides holds throughout a run exactly when
every step of the run meets the condition.
-/

namespace Runs

variable {S A : Type*}

/-- A run from a start: the steps taken, each with the state it was taken in, and the
state behind them. -/
inductive Run (Step : S → A → S → Prop) (start : S) : List (S × A) → S → Prop
  | start : Run Step start [] start
  | step {taken : List (S × A)} {s s' : S} {a : A} (h : Run Step start taken s)
      (hstep : Step s a s') : Run Step start (taken ++ [(s, a)]) s'

/-- The property holds in every state of a run. -/
def Throughout (P : S → Prop) (taken : List (S × A)) (s : S) : Prop :=
  (∀ e ∈ taken, P e.1) ∧ P s

/-- Every step of a run meets the condition. -/
def EachStep (C : S → A → Prop) (taken : List (S × A)) : Prop := ∀ e ∈ taken, C e.1 e.2

section EachStep

variable {C : S → A → Prop} {taken : List (S × A)} {s : S} {a : A}

theorem eachStep_nil : EachStep C [] := fun _ h => absurd h List.not_mem_nil

theorem eachStep_append : EachStep C (taken ++ [(s, a)]) ↔ EachStep C taken ∧ C s a := by
  constructor
  · intro h
    exact ⟨fun e he => h e (List.mem_append_left _ he),
      h (s, a) (List.mem_append_right _ (List.mem_singleton.mpr rfl))⟩
  · rintro ⟨h, hlast⟩ e he
    rcases List.mem_append.mp he with he | he
    · exact h e he
    · rw [List.mem_singleton.mp he]
      exact hlast

end EachStep

namespace Run

variable {Step : S → A → S → Prop} {start s : S} {taken : List (S × A)} {Inv P : S → Prop}
  {C : S → A → Prop}

/-- What the start has and every step keeps holds behind every run. -/
theorem invariant (hstart : Inv start) (hkeep : ∀ {s a s'}, Inv s → Step s a s' → Inv s')
    (h : Run Step start taken s) : Inv s := by
  induction h with
  | start => exact hstart
  | step _ hstep ih => exact hkeep ih hstep

/-- A run whose steps all meet a condition is one of the steps that meet it. -/
theorem within (h : Run Step start taken s) (hsteps : EachStep C taken) :
    Run (fun s a s' => Step s a s' ∧ C s a) start taken s := by
  induction h with
  | start => exact .start
  | step _ hstep ih =>
      obtain ⟨hbefore, hlast⟩ := eachStep_append.mp hsteps
      exact (ih hbefore).step ⟨hstep, hlast⟩

/-- What the start has and every step of a kind keeps holds along a run of such steps. -/
theorem along (hstart : Inv start) (hkeep : ∀ {s a s'}, Inv s → C s a → Step s a s' → Inv s')
    (h : Run Step start taken s) (hsteps : EachStep C taken) :
    EachStep (fun s _ => Inv s) taken ∧ Inv s := by
  induction h with
  | start => exact ⟨eachStep_nil, hstart⟩
  | step h hstep ih =>
      obtain ⟨hbefore, hlast⟩ := eachStep_append.mp hsteps
      obtain ⟨heach, hinv⟩ := ih hbefore
      exact ⟨eachStep_append.mpr ⟨heach, hinv⟩, hkeep hinv hlast hstep⟩

/-- If each step keeps the property exactly when it meets the condition, then a run has
the property throughout exactly when each of its steps meets the condition. -/
theorem throughout_iff (hstart : Inv start) (hkeep : ∀ {s a s'}, Inv s → Step s a s' → Inv s')
    (hP : P start) (hiff : ∀ {s a s'}, Inv s → P s → Step s a s' → (P s' ↔ C s a))
    (h : Run Step start taken s) : Throughout P taken s ↔ EachStep C taken := by
  induction h with
  | start => exact ⟨fun _ => eachStep_nil, fun _ => ⟨fun _ he => absurd he List.not_mem_nil, hP⟩⟩
  | @step taken s s' a h hstep ih =>
      have hinv : Inv s := h.invariant hstart hkeep
      rw [eachStep_append]
      constructor
      · rintro ⟨hall, hlast⟩
        have hbefore : Throughout P taken s := by
          refine ⟨fun e he => hall e (List.mem_append_left _ he), ?_⟩
          exact hall (s, a) (List.mem_append_right _ (List.mem_singleton.mpr rfl))
        exact ⟨ih.mp hbefore, (hiff hinv hbefore.2 hstep).mp hlast⟩
      · rintro ⟨heach, hlast⟩
        obtain ⟨hall, hs⟩ := ih.mpr heach
        refine ⟨fun e he => ?_, (hiff hinv hs hstep).mpr hlast⟩
        rcases List.mem_append.mp he with he | he
        · exact hall e he
        · rw [List.mem_singleton.mp he]
          exact hs

end Run

end Runs
