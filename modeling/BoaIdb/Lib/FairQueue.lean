import Mathlib.Data.List.Sublists
import Mathlib.Order.Defs.Unbundled

/-!
Admission from a queue under a conflict relation.

Elements wait in a queue and are admitted out of turn, but never past a conflicting one that
waits ahead of them or beside a conflicting one that is in. What was admitted may return to the
front of the queue. `Fair` is the invariant: conflicting elements are always met in the order
in which they came.
-/

namespace FairQueue

variable {α : Type*} {Conflict Before Before' : α → α → Prop} {pending pending' running running'
  kept rest left right : List α} {a c : α}

/-- Nothing that conflicts is in at once, and conflicting elements keep the order in which they
came, those that are in before those that wait. -/
structure Fair (Conflict Before : α → α → Prop) (pending running : List α) : Prop where
  apart : running.Pairwise fun a b => ¬Conflict a b
  queued : pending.Pairwise fun a b => Conflict a b → Before a b
  ahead : ∀ r ∈ running, ∀ p ∈ pending, Conflict r p → Before r p

theorem perm_requeue (pending left right : List α) (c : α) :
    (c :: pending ++ (left ++ right)).Perm (pending ++ (left ++ c :: right)) := by
  calc (c :: pending ++ (left ++ right)) = c :: (pending ++ left ++ right) := by
        rw [List.cons_append, List.append_assoc]
    List.Perm _ (pending ++ left ++ c :: right) := List.perm_middle.symm
    _ = pending ++ (left ++ c :: right) := by rw [List.append_assoc]

theorem fair_nil : Fair Conflict Before [] [] :=
  ⟨.nil, .nil, fun _ h => absurd h List.not_mem_nil⟩

theorem Fair.weaken (h : Fair Conflict Before pending running)
    (himp : ∀ a b, Before a b → Before' a b) : Fair Conflict Before' pending running :=
  ⟨h.apart, h.queued.imp fun hab hc => himp _ _ (hab hc),
    fun r hr p hp hc => himp _ _ (h.ahead r hr p hp hc)⟩

/-- Elements may leave at any place. -/
theorem Fair.sublist (h : Fair Conflict Before pending running)
    (hpending : pending'.Sublist pending)
    (hrunning : running'.Sublist running) : Fair Conflict Before pending' running' :=
  ⟨h.apart.sublist hrunning, h.queued.sublist hpending,
    fun r hr p hp => h.ahead r (hrunning.subset hr) p (hpending.subset hp)⟩

theorem Fair.enqueue (h : Fair Conflict Before pending running)
    (hpending : ∀ p ∈ pending, Before p c) (hrunning : ∀ r ∈ running, Before r c) :
    Fair Conflict Before (pending ++ [c]) running := by
  refine ⟨h.apart, ?_, ?_⟩
  · rw [List.pairwise_append]
    refine ⟨h.queued, List.pairwise_singleton _ _, fun p hp b hb _ => ?_⟩
    rw [List.mem_singleton.mp hb]
    exact hpending p hp
  · intro r hr p hp hc
    rcases List.mem_append.mp hp with hp | hp
    · exact h.ahead r hr p hp hc
    · rw [List.mem_singleton.mp hp]
      exact hrunning r hr

/-- What conflicts with nothing ahead of it may be admitted. -/
theorem Fair.start (hsymm : ∀ a b, Conflict a b → Conflict b a)
    (h : Fair Conflict Before (kept ++ c :: rest) running) (hkept : ∀ p ∈ kept, ¬Conflict c p)
    (hrunning : ∀ r ∈ running, ¬Conflict c r) :
    Fair Conflict Before (kept ++ rest) (running ++ [c]) := by
  have hsub : (kept ++ rest).Sublist (kept ++ c :: rest) :=
    List.Sublist.append_left (List.sublist_cons_self c rest) kept
  refine ⟨?_, h.queued.sublist hsub, ?_⟩
  · rw [List.pairwise_append]
    refine ⟨h.apart, List.pairwise_singleton _ _, fun r hr b hb hc => ?_⟩
    rw [List.mem_singleton.mp hb] at hc
    exact hrunning r hr (hsymm _ _ hc)
  · intro r hr p hp hc
    rcases List.mem_append.mp hr with hr | hr
    · exact h.ahead r hr p (hsub.subset hp) hc
    · rw [List.mem_singleton.mp hr] at hc ⊢
      rcases List.mem_append.mp hp with hp | hp
      · exact absurd hc (hkept p hp)
      · have hqueued := (List.pairwise_append.mp h.queued).2.1
        exact (List.pairwise_cons.mp hqueued).1 p hp hc

theorem perm_start (kept rest running : List α) (c : α) :
    (kept ++ rest ++ (running ++ [c])).Perm (kept ++ c :: rest ++ running) := by
  calc (kept ++ rest ++ (running ++ [c])).Perm (c :: (kept ++ rest ++ running)) := by
        rw [← List.append_assoc]
        exact List.perm_append_singleton c _
    _ = c :: (kept ++ (rest ++ running)) := by rw [List.append_assoc]
    List.Perm _ (kept ++ c :: (rest ++ running)) := List.perm_middle.symm
    _ = kept ++ c :: rest ++ running := by rw [List.append_assoc, List.cons_append]

/-- What was admitted may go back to the front. -/
theorem Fair.requeue (hsymm : ∀ a b, Conflict a b → Conflict b a)
    (h : Fair Conflict Before pending (left ++ c :: right)) :
    Fair Conflict Before (c :: pending) (left ++ right) := by
  obtain ⟨hleft, hright, hacross⟩ := List.pairwise_append.mp h.apart
  have hmem {r : α} (hr : r ∈ left ++ right) : r ∈ left ++ c :: right :=
    (List.Sublist.append_left (List.sublist_cons_self c right) left).subset hr
  refine ⟨?_, List.pairwise_cons.mpr ⟨fun p hp hc => ?_, h.queued⟩, ?_⟩
  · rw [List.pairwise_append]
    exact ⟨hleft, (List.pairwise_cons.mp hright).2,
      fun a ha b hb => hacross a ha b (List.mem_cons_of_mem c hb)⟩
  · exact h.ahead c (List.mem_append_right _ List.mem_cons_self) p hp hc
  · intro r hr p hp hc
    rcases List.mem_cons.mp hp with rfl | hp
    · rcases List.mem_append.mp hr with hr | hr
      · exact absurd hc (hacross r hr p List.mem_cons_self)
      · exact absurd (hsymm _ _ hc) ((List.pairwise_cons.mp hright).1 r hr)
    · exact h.ahead r (hmem hr) p hp hc

/-- Whatever came before an admitted element and conflicts with it has left. -/
theorem Fair.left_of_start (hasymm : ∀ a b, Before a b → ¬Before b a)
    (h : Fair Conflict Before (kept ++ c :: rest) running) (hkept : ∀ p ∈ kept, ¬Conflict c p)
    (hrunning : ∀ r ∈ running, ¬Conflict c r) (hbefore : Before a c) (hconflict : Conflict c a) :
    a ∉ kept ++ c :: rest ∧ a ∉ running := by
  refine ⟨fun hmem => ?_, fun hmem => hrunning a hmem hconflict⟩
  rcases List.mem_append.mp hmem with hmem | hmem
  · exact hkept a hmem hconflict
  · rcases List.mem_cons.mp hmem with rfl | hmem
    · exact hasymm _ _ hbefore hbefore
    · have hqueued := (List.pairwise_append.mp h.queued).2.1
      exact hasymm _ _ hbefore ((List.pairwise_cons.mp hqueued).1 a hmem hconflict)

/-- The order of a list in which nothing occurs twice. -/
theorem not_sublist_swap {l : List α} (h : l.Nodup) {a b : α} (hab : [a, b].Sublist l) :
    ¬[b, a].Sublist l := by
  intro hba
  induction l with
  | nil => cases hab
  | cons x l ih =>
      obtain ⟨hx, hl⟩ := List.nodup_cons.mp h
      cases hab with
      | cons _ hab =>
          cases hba with
          | cons _ hba => exact ih hl hab hba
          | cons_cons _ hba => exact hx (hab.subset (by simp))
      | cons_cons _ hab =>
          cases hba with
          | cons _ hba => exact hx (hba.subset (by simp))
          | cons_cons _ hba => exact hx (hab.subset (by simp))

end FairQueue
