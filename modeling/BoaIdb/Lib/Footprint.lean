import BoaIdb.Lib.Callbacks

/-!
Footprints of programs.

A state has parts, and a program touches some of them. What it touches is said once; an invariant
that reads other parts, and a relation that other parts keep, follow from it.
-/

namespace Callbacks

variable {ι σ ρ α : Type}

/-- The parts of a state, and what it means that a step leaves one alone. -/
structure Parts (ι σ : Type) where
  leaves : ι → σ → σ → Prop
  refl : ∀ i s, leaves i s s
  trans : ∀ {i s s' s''}, leaves i s s' → leaves i s' s'' → leaves i s s''

/-- All parts but those listed are left alone. -/
def Parts.Touches (parts : Parts ι σ) (touched : List ι) (s s' : σ) : Prop :=
  ∀ i, i ∉ touched → parts.leaves i s s'

namespace Parts

variable {parts : Parts ι σ} {touched touched' : List ι} {s s' s'' : σ}

theorem Touches.refl (s : σ) : parts.Touches touched s s := fun i _ => parts.refl i s

theorem Touches.trans (h : parts.Touches touched s s') (h' : parts.Touches touched s' s'') :
    parts.Touches touched s s'' :=
  fun i hi => parts.trans (h i hi) (h' i hi)

theorem Touches.widen (h : parts.Touches touched s s') (hsub : touched ⊆ touched') :
    parts.Touches touched' s s' :=
  fun i hi => h i fun hmem => hi (hsub hmem)

end Parts

/-- A program may be said to touch more than it does. -/
theorem Prog.Within.widen {parts : Parts ι σ} {touched touched' : List ι} {p : Prog σ ρ α}
    (hp : p.Within (parts.Touches touched)) (hsub : touched ⊆ touched') :
    p.Within (parts.Touches touched') :=
  hp.mono fun _ _ h => h.widen hsub

end Callbacks
