import Mathlib.Data.List.Perm.Basic
import Mathlib.Logic.Function.Basic

/-!
Transactions over a shared state that run side by side.

A transaction answers its requests from the shared state and a state of its own, and changes the
shared one by its commit alone. Where those that are live at the same time do not conflict, a run
is a serial one: one after another, in any order that keeps the conflicting ones as they ended,
they give the same answers and leave the same shared state.
-/

namespace Serial

/-- How a transaction answers a request, and what its commit does. -/
structure Workings (S T Q A : Type*) where
  answer : S → T → Q → A × T
  commit : T → S → S

/-- What keeps transactions apart: a region for each, with what it sees of the shared state. -/
structure Regions {S T Q A : Type*} (w : Workings S T Q A) (R : Type*) where
  /-- Shared states that are the same in a region. -/
  Agree : R → S → S → Prop
  Conflict : R → R → Prop
  /-- A transaction of a region. -/
  Fit : R → T → Prop
  /-- A request that stays inside a region. -/
  Inside : R → Q → Prop
  answer_congr : ∀ {r s s' t q}, Agree r s s' → Fit r t → Inside r q →
    w.answer s t q = w.answer s' t q
  fit_answer : ∀ {r s t q}, Fit r t → Inside r q → Fit r (w.answer s t q).2
  agree_commit : ∀ {r r' s t}, Fit r t → ¬Conflict r r' → Agree r' s (w.commit t s)
  commit_comm : ∀ {r r' s t t'}, Fit r t → Fit r' t' → ¬Conflict r r' →
    w.commit t (w.commit t' s) = w.commit t' (w.commit t s)
  agree_symm : ∀ {r s s'}, Agree r s s' → Agree r s' s
  conflict_symm : ∀ {r r'}, Conflict r r' → Conflict r' r

/-- A transaction: its state at the begin, and its requests with their answers. -/
structure History (I R T Q A : Type*) where
  id : I
  region : R
  start : T
  done : List (Q × A)

/-- A transaction that has ended. -/
structure Ended (I R T Q A : Type*) extends History I R T Q A where
  committed : Bool

section Replay

variable {I R S T Q A : Type*} {w : Workings S T Q A} {g : Regions w R} {s s' s'' : S} {r r' : R}
  {start t t' : T} {done : List (Q × A)} {e f : Ended I R T Q A}
  {log log' post : List (Ended I R T Q A)}

/-- Run by itself on a shared state a transaction gives these answers. -/
inductive Replays (g : Regions w R) (r : R) (s : S) (start : T) : List (Q × A) → T → Prop
  | start (h : g.Fit r start) : Replays g r s start [] start
  | answer {done : List (Q × A)} {t : T} (h : Replays g r s start done t) {q : Q}
      (hq : g.Inside r q) :
      Replays g r s start (done ++ [(q, (w.answer s t q).1)]) (w.answer s t q).2

theorem Replays.fit (h : Replays g r s start done t) : g.Fit r t := by
  induction h with
  | start h => exact h
  | answer _ hq ih => exact g.fit_answer ih hq

/-- The answers do not depend on what is outside of the region. -/
theorem Replays.congr (h : Replays g r s start done t) (hagree : g.Agree r s s') :
    Replays g r s' start done t := by
  induction h with
  | start h => exact .start h
  | answer h hq ih =>
      rw [g.answer_congr hagree h.fit hq]
      exact ih.answer hq

/-- What is left of the shared state behind a transaction. -/
def outcome (w : Workings S T Q A) (committed : Bool) (t : T) (s : S) : S :=
  if committed then w.commit t s else s

/-- The transaction sees nothing of what one beside it leaves. -/
theorem replays_outcome_iff (hfit : g.Fit r t) (hapart : ¬g.Conflict r r') (committed : Bool) :
    Replays g r' (outcome w committed t s) start done t' ↔ Replays g r' s start done t' := by
  cases committed with
  | false => exact Iff.rfl
  | true =>
      have hagree : g.Agree r' s (w.commit t s) := g.agree_commit hfit hapart
      exact ⟨fun h => h.congr (g.agree_symm hagree), fun h => h.congr hagree⟩

theorem outcome_comm (hfit : g.Fit r t) (hfit' : g.Fit r' t') (hapart : ¬g.Conflict r r')
    (b b' : Bool) (s : S) :
    outcome w b t (outcome w b' t' s) = outcome w b' t' (outcome w b t s) := by
  cases b with
  | false => rfl
  | true =>
      cases b' with
      | false => rfl
      | true => exact g.commit_comm hfit hfit' hapart

/-- One after another. -/
inductive SerialRun (g : Regions w R) : S → List (Ended I R T Q A) → S → Prop
  | nil (s : S) : SerialRun g s [] s
  | cons {s s' : S} {e : Ended I R T Q A} {t : T} {log : List (Ended I R T Q A)}
      (h : Replays g e.region s e.start e.done t)
      (hrest : SerialRun g (outcome w e.committed t s) log s') : SerialRun g s (e :: log) s'

theorem SerialRun.append (h : SerialRun g s log s') (h' : SerialRun g s' log' s'') :
    SerialRun g s (log ++ log') s'' := by
  induction h with
  | nil => exact h'
  | cons hreplay _ ih => exact .cons hreplay (ih h')

/-- One more transaction at the end. -/
theorem SerialRun.snoc (h : SerialRun g s log s')
    (hreplay : Replays g e.region s' e.start e.done t) :
    SerialRun g s (log ++ [e]) (outcome w e.committed t s') :=
  h.append (.cons hreplay (.nil _))

/-- A transaction moves in front of those that it does not conflict with. -/
theorem SerialRun.front (h : SerialRun g s (log ++ e :: post) s')
    (hapart : ∀ f ∈ log, ¬g.Conflict f.region e.region) :
    SerialRun g s (e :: (log ++ post)) s' := by
  induction log generalizing s with
  | nil => exact h
  | cons f log ih =>
      have hfe : ¬g.Conflict f.region e.region := hapart f (.head _)
      have hef : ¬g.Conflict e.region f.region := fun hc => hfe (g.conflict_symm hc)
      cases h with
      | @cons _ _ _ t _ hf hrest =>
          cases ih hrest fun f' hf' => hapart f' (.tail _ hf') with
          | @cons _ _ _ t' _ he hrest =>
              have he' := (replays_outcome_iff hf.fit hfe f.committed).mp he
              have hf' := (replays_outcome_iff he'.fit hef e.committed).mpr hf
              rw [outcome_comm he'.fit hf.fit hef] at hrest
              exact .cons he' (.cons hf' hrest)

/-- Conflicting transactions stand in their order. -/
def Ordered (g : Regions w R) (Before : Ended I R T Q A → Ended I R T Q A → Prop)
    (log : List (Ended I R T Q A)) : Prop :=
  log.Pairwise fun e f => g.Conflict e.region f.region → Before e f

/-- Any other order will do that keeps conflicting transactions in theirs. Induction on the new
order: its first one moves to the front. -/
theorem SerialRun.reorder {Before : Ended I R T Q A → Ended I R T Q A → Prop}
    (hasymm : ∀ e f, Before e f → ¬Before f e) (h : SerialRun g s log s')
    (hperm : log'.Perm log) (hlog : Ordered g Before log) (hlog' : Ordered g Before log') :
    SerialRun g s log' s' := by
  induction log' generalizing s log with
  | nil =>
      obtain rfl : log = [] := hperm.nil_eq.symm
      exact h
  | cons e log' ih =>
      obtain ⟨pre, post, rfl⟩ := List.append_of_mem (hperm.subset (.head _))
      have hrest : log'.Perm (pre ++ post) :=
        (hperm.trans List.perm_middle).cons_inv
      obtain ⟨hbehind, hlog'⟩ := List.pairwise_cons.mp hlog'
      have hapart : ∀ f ∈ pre, ¬g.Conflict f.region e.region := by
        intro f hf hconflict
        have hfe := (List.pairwise_append.mp hlog).2.2 f hf e (.head _) hconflict
        have hef := hbehind f (hrest.symm.subset (List.mem_append_left _ hf))
          (g.conflict_symm hconflict)
        exact hasymm f e hfe hef
      have hsub : (pre ++ post).Sublist (pre ++ e :: post) :=
        List.Sublist.append_left (List.sublist_cons_self e post) pre
      cases h.front hapart with
      | cons he hrun => exact .cons he (ih hrun hrest (hlog.sublist hsub) hlog')

end Replay

/-! ### Side by side -/

/-- A transaction that is live. -/
structure Live (I R T Q A : Type*) extends History I R T Q A where
  current : T

/-- The shared state, the transactions that are live, and those that have ended, in order. -/
structure State (I R S T Q A : Type*) where
  shared : S
  live : I → Option (Live I R T Q A)
  ended : List (Ended I R T Q A)

section Runs

variable {I R S T Q A : Type*} [DecidableEq I] {w : Workings S T Q A}

/-- A request is answered. -/
def Live.after (w : Workings S T Q A) (s : S) (l : Live I R T Q A) (q : Q) : Live I R T Q A :=
  { l with
    done := l.done ++ [(q, (w.answer s l.current q).1)]
    current := (w.answer s l.current q).2 }

/-- Each live transaction stands as if it had been alone on the shared state of now, and the
others have run one after another. -/
structure Serialized (g : Regions w R) (s₀ : S) (s : State I R S T Q A) : Prop where
  serial : SerialRun g s₀ s.ended s.shared
  alone : ∀ i l, s.live i = some l → Replays g l.region s.shared l.start l.done l.current
  apart : ∀ i j l l', i ≠ j → s.live i = some l → s.live j = some l' →
    ¬g.Conflict l.region l'.region

variable {g : Regions w R} {s₀ : S} {s s' : State I R S T Q A}

omit [DecidableEq I] in
theorem serialized_start {s : State I R S T Q A} (hlive : ∀ i, s.live i = none)
    (hended : s.ended = []) : Serialized g s.shared s where
  serial := by
    rw [hended]
    exact .nil _
  alone i l hl := absurd ((hlive i).symm.trans hl) (Option.some_ne_none l).symm
  apart i _ l _ _ hl := absurd ((hlive i).symm.trans hl) (Option.some_ne_none l).symm

theorem live_update {live : I → Option (Live I R T Q A)} {i j : I}
    {v : Option (Live I R T Q A)} {l : Live I R T Q A} (h : Function.update live i v j = some l) :
    j = i ∧ v = some l ∨ j ≠ i ∧ live j = some l := by
  by_cases hj : j = i
  · subst hj
    rw [Function.update_self] at h
    exact .inl ⟨rfl, h⟩
  · exact .inr ⟨hj, (Function.update_of_ne hj ..).symm.trans h⟩

theorem Serialized.begin (h : Serialized g s₀ s) {i : I} {r : R} {start : T}
    (hfit : g.Fit r start) (hapart : ∀ j l, s.live j = some l → ¬g.Conflict l.region r) :
    Serialized g s₀
      { s with live := Function.update s.live i (some ⟨⟨i, r, start, []⟩, start⟩) } := by
  refine ⟨h.serial, fun j l hl => ?_, fun j j' l l' hne hl hl' => ?_⟩
  · rcases live_update hl with ⟨-, hl⟩ | ⟨-, hl⟩
    · cases hl
      exact .start hfit
    · exact h.alone j l hl
  · rcases live_update hl with ⟨rfl, heq⟩ | ⟨-, hold⟩
    · rcases live_update hl' with ⟨rfl, -⟩ | ⟨-, hl'⟩
      · exact absurd rfl hne
      · cases heq
        exact fun hc => hapart j' l' hl' (g.conflict_symm hc)
    · rcases live_update hl' with ⟨rfl, heq⟩ | ⟨-, hl'⟩
      · cases heq
        exact hapart j l hold
      · exact h.apart j j' l l' hne hold hl'

theorem Serialized.answer (h : Serialized g s₀ s) {i : I} {l : Live I R T Q A} {q : Q}
    (hl : s.live i = some l) (hq : g.Inside l.region q) :
    Serialized g s₀
      { s with live := Function.update s.live i (some (l.after w s.shared q)) } := by
  have hregion {j : I} {l' : Live I R T Q A}
      (hl' : Function.update s.live i (some (l.after w s.shared q)) j = some l') :
      ∃ l₀, s.live j = some l₀ ∧ l₀.region = l'.region := by
    rcases live_update hl' with ⟨rfl, heq⟩ | ⟨-, hl'⟩
    · cases heq
      exact ⟨l, hl, rfl⟩
    · exact ⟨l', hl', rfl⟩
  refine ⟨h.serial, fun j l' hl' => ?_, fun j j' l₁ l₂ hne hl₁ hl₂ => ?_⟩
  · rcases live_update hl' with ⟨rfl, heq⟩ | ⟨-, hl'⟩
    · cases heq
      exact (h.alone j l hl).answer hq
    · exact h.alone j l' hl'
  · obtain ⟨l₁', hl₁', hr₁⟩ := hregion hl₁
    obtain ⟨l₂', hl₂', hr₂⟩ := hregion hl₂
    rw [← hr₁, ← hr₂]
    exact h.apart j j' l₁' l₂' hne hl₁' hl₂'

theorem Serialized.finish (h : Serialized g s₀ s) {i : I} {l : Live I R T Q A} (committed : Bool)
    (hl : s.live i = some l) :
    Serialized g s₀
      { shared := outcome w committed l.current s.shared
        live := Function.update s.live i none
        ended := s.ended ++ [⟨l.toHistory, committed⟩] } := by
  have hreplay := h.alone i l hl
  have hothers {j : I} {l' : Live I R T Q A} (hl' : Function.update s.live i none j = some l') :
      j ≠ i ∧ s.live j = some l' := by
    rcases live_update hl' with ⟨-, hl'⟩ | hl'
    · cases hl'
    · exact hl'
  refine ⟨h.serial.snoc hreplay, fun j l' hl' => ?_, fun j j' l₁ l₂ hne hl₁ hl₂ => ?_⟩
  · obtain ⟨hj, hl'⟩ := hothers hl'
    exact (replays_outcome_iff hreplay.fit (h.apart i j l l' hj.symm hl hl') committed).mpr
      (h.alone j l' hl')
  · exact h.apart j j' l₁ l₂ hne (hothers hl₁).2 (hothers hl₂).2

end Runs

end Serial
