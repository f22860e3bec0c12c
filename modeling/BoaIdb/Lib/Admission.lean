import Mathlib.Data.List.Basic

/-!
One pass of admission over a queue under a conflict test.

The pass looks at the elements from the front to the back. An element is admitted when it
conflicts with nothing that was in before the pass and with nothing that stands ahead of it in
the queue, admitted or not; the others are deferred and keep their order.
-/

namespace Admission

variable {α : Type*} {conflict : α → α → Bool} {past queue ins : List α} {c : α}

/-- The elements of a queue that the pass admits, when `past` is in or has been passed over. -/
def admitted (conflict : α → α → Bool) (past : List α) : List α → List α
  | [] => []
  | c :: queue =>
      if past.any (conflict c) then admitted conflict (past ++ [c]) queue
      else c :: admitted conflict (past ++ [c]) queue

/-- The elements that the pass leaves in the queue. -/
def deferred (conflict : α → α → Bool) (past : List α) : List α → List α
  | [] => []
  | c :: queue =>
      if past.any (conflict c) then c :: deferred conflict (past ++ [c]) queue
      else deferred conflict (past ++ [c]) queue

/-- Only the members of `past` matter. -/
theorem any_congr {past' : List α} (h : ∀ x, x ∈ past ↔ x ∈ past') :
    past.any (conflict c) = past'.any (conflict c) := by
  rw [Bool.eq_iff_iff, List.any_eq_true, List.any_eq_true]
  constructor
  · rintro ⟨x, hx, hc⟩
    exact ⟨x, (h x).mp hx, hc⟩
  · rintro ⟨x, hx, hc⟩
    exact ⟨x, (h x).mpr hx, hc⟩

/-- An element is admitted exactly when it conflicts with nothing ahead of it. -/
theorem mem_admitted_iff :
    c ∈ admitted conflict past queue ↔ ∃ ahead behind, queue = ahead ++ c :: behind ∧
      ∀ p ∈ past ++ ahead, conflict c p = false := by
  induction queue generalizing past with
  | nil =>
      constructor
      · intro h
        cases h
      · rintro ⟨ahead, behind, h, -⟩
        exact absurd h (List.append_ne_nil_of_right_ne_nil ahead (List.cons_ne_nil _ _)).symm
  | cons q queue ih =>
      -- behind `q` the past is longer by `q`
      have hbehind : c ∈ admitted conflict (past ++ [q]) queue ↔ ∃ ahead behind,
          q :: queue = (q :: ahead) ++ c :: behind ∧
            ∀ p ∈ past ++ q :: ahead, conflict c p = false := by
        rw [ih]
        simp only [List.cons_append, List.cons.injEq, true_and, List.append_assoc,
          List.nil_append]
      constructor
      · intro h
        rw [admitted] at h
        split at h
        · obtain ⟨ahead, behind, hqueue, hfree⟩ := hbehind.mp h
          exact ⟨q :: ahead, behind, hqueue, hfree⟩
        · next hq =>
            rcases List.mem_cons.mp h with rfl | h
            · refine ⟨[], queue, rfl, fun p hp => ?_⟩
              rw [List.append_nil] at hp
              exact eq_false_of_ne_true fun hc => hq (List.any_eq_true.mpr ⟨p, hp, hc⟩)
            · obtain ⟨ahead, behind, hqueue, hfree⟩ := hbehind.mp h
              exact ⟨q :: ahead, behind, hqueue, hfree⟩
      · rintro ⟨ahead, behind, hqueue, hfree⟩
        cases ahead with
        | nil =>
            obtain ⟨rfl, rfl⟩ := List.cons.inj hqueue
            rw [List.append_nil] at hfree
            have hq : ¬past.any (conflict q) = true := by
              intro hany
              obtain ⟨p, hp, hc⟩ := List.any_eq_true.mp hany
              rw [hfree p hp] at hc
              cases hc
            rw [admitted, if_neg hq]
            exact List.mem_cons_self
        | cons a ahead =>
            obtain ⟨rfl, -⟩ := List.cons.inj hqueue
            have hlater := hbehind.mpr ⟨ahead, behind, hqueue, hfree⟩
            rw [admitted]
            split
            · exact hlater
            · exact List.mem_cons_of_mem _ hlater

theorem admitted_sublist : (admitted conflict past queue).Sublist queue := by
  induction queue generalizing past with
  | nil => exact .slnil
  | cons c queue ih =>
      rw [admitted]
      split
      · exact ih.cons _
      · exact ih.cons_cons _

/-- Every element is deferred or admitted. -/
theorem perm_pass :
    (deferred conflict past queue ++ admitted conflict past queue).Perm queue := by
  induction queue generalizing past with
  | nil => exact .nil
  | cons c queue ih =>
      rw [deferred, admitted]
      split
      · exact ih.cons c
      · exact List.perm_middle.trans (ih.cons c)

/-- A second pass admits nothing: what was deferred conflicts with an element that is in by now
or was deferred ahead of it. -/
theorem settled (h : ∀ x ∈ past ++ admitted conflict past queue, x ∈ ins) :
    admitted conflict ins (deferred conflict past queue) = [] ∧
      deferred conflict ins (deferred conflict past queue) = deferred conflict past queue := by
  induction queue generalizing past ins with
  | nil => exact ⟨rfl, rfl⟩
  | cons c queue ih =>
      rw [admitted] at h
      rw [deferred]
      split at h
      · next hany =>
          have hins : ins.any (conflict c) = true := by
            obtain ⟨p, hp, hc⟩ := List.any_eq_true.mp hany
            exact List.any_eq_true.mpr ⟨p, h p (List.mem_append_left _ hp), hc⟩
          obtain ⟨hadmitted, hdeferred⟩ := @ih (past ++ [c]) (ins ++ [c]) (by
            intro x hx
            simp only [List.append_assoc, List.mem_append, List.mem_singleton] at hx h ⊢
            rcases hx with hx | rfl | hx
            · exact .inl (h x (.inl hx))
            · exact .inr rfl
            · exact .inl (h x (.inr hx)))
          rw [if_pos hany, admitted, if_pos hins, deferred, if_pos hins, hdeferred]
          exact ⟨hadmitted, rfl⟩
      · next hany =>
          rw [if_neg hany]
          refine ih fun x hx => h x ?_
          rw [List.append_assoc, List.singleton_append] at hx
          exact hx

/-! ### Only part of the elements -/

section Part

variable {part : α → Bool}

/-- Whoever of the part conflicts with something ahead conflicts with something of the part. -/
def Decoupled (conflict : α → α → Bool) (part : α → Bool) (past queue : List α) : Prop :=
  ∀ ahead c behind, queue = ahead ++ c :: behind → part c = true →
    (∃ p ∈ past ++ ahead, conflict c p = true) →
    ∃ p ∈ past ++ ahead, part p = true ∧ conflict c p = true

theorem Decoupled.tail (h : Decoupled conflict part past (c :: queue)) :
    Decoupled conflict part (past ++ [c]) queue := by
  intro ahead q behind hqueue hpart hconflict
  have hahead := h (c :: ahead) q behind (by rw [hqueue, List.cons_append]) hpart
  rw [show past ++ c :: ahead = past ++ [c] ++ ahead by simp] at hahead
  exact hahead hconflict

/-- The first of a decoupled queue, when it is of the part, sees a conflict among the part
exactly when it sees one at all. -/
theorem Decoupled.any_filter (h : Decoupled conflict part past (c :: queue))
    (hpart : part c = true) : (past.filter part).any (conflict c) = past.any (conflict c) := by
  rw [Bool.eq_iff_iff, List.any_eq_true, List.any_eq_true]
  constructor
  · rintro ⟨p, hp, hc⟩
    exact ⟨p, List.mem_of_mem_filter hp, hc⟩
  · rintro ⟨p, hp, hc⟩
    obtain ⟨own, hown, hpartOwn, hconflict⟩ := h [] c queue rfl hpart
      ⟨p, List.mem_append_left _ hp, hc⟩
    rw [List.append_nil] at hown
    exact ⟨own, List.mem_filter.mpr ⟨hown, hpartOwn⟩, hconflict⟩

/-- Where the part is decoupled the pass treats it as if it were alone. -/
theorem filter_pass (h : Decoupled conflict part past queue) :
    (admitted conflict past queue).filter part =
        admitted conflict (past.filter part) (queue.filter part) ∧
      (deferred conflict past queue).filter part =
        deferred conflict (past.filter part) (queue.filter part) := by
  induction queue generalizing past with
  | nil => exact ⟨rfl, rfl⟩
  | cons c queue ih =>
      obtain ⟨hadmitted, hdeferred⟩ := ih h.tail
      rw [List.filter_append] at hadmitted hdeferred
      cases hpart : part c with
      | true =>
          have hsingle : [c].filter part = [c] := by simp [hpart]
          rw [hsingle] at hadmitted hdeferred
          rw [List.filter_cons_of_pos hpart, admitted, admitted, deferred, deferred,
            h.any_filter hpart]
          split
          · exact ⟨hadmitted, by rw [List.filter_cons_of_pos hpart, hdeferred]⟩
          · exact ⟨by rw [List.filter_cons_of_pos hpart, hadmitted], hdeferred⟩
      | false =>
          have hpart' : ¬part c = true := by simp [hpart]
          have hsingle : [c].filter part = [] := by simp [hpart]
          rw [hsingle, List.append_nil] at hadmitted hdeferred
          rw [List.filter_cons_of_neg hpart', admitted, deferred]
          split
          · exact ⟨hadmitted, by rw [List.filter_cons_of_neg hpart', hdeferred]⟩
          · exact ⟨by rw [List.filter_cons_of_neg hpart', hadmitted], hdeferred⟩

end Part

end Admission
