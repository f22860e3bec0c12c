import BoaIdb.Lib.StreamReader

/-!
The nested calls of a reader.

A reader that reads nested values by a reader `p` makes its calls of `p` on streams that can be
listed in order. `Traces` says that a list of streams is that list: an error comes from the last
call or from the reader itself, and between the calls the reader only skips input.
-/

namespace StreamReader

variable {ε μ α β γ : Type}

/-- Position and rest together, which no reader changes. -/
def Stream.total (s : Stream μ) : ℕ := s.offset + s.input.length

/-- `t` is `s` with some input read. -/
structure Skips (s t : Stream μ) : Prop where
  kept : t.kept = s.kept
  total : t.total = s.total
  offset : s.offset ≤ t.offset

theorem Skips.refl (s : Stream μ) : Skips s s := ⟨rfl, rfl, Nat.le_refl _⟩

theorem Skips.trans {s t u : Stream μ} (h : Skips s t) (h' : Skips t u) : Skips s u :=
  ⟨h'.kept.trans h.kept, h'.total.trans h.total, Nat.le_trans h.offset h'.offset⟩

/-! ### Readers without calls -/

/-- A reader that leaves the state alone, and never raises `e` on a stream within `room`. -/
structure Plain (room : ℕ) (e : ε) (d : Reader ε μ α) : Prop where
  skips : ∀ {s t : Stream μ} {a : α}, d.run s = .ok (a, t) → Skips s t
  never : ∀ {s : Stream μ}, s.total < room → d.run s ≠ .error e

section Plain

variable {room : ℕ} {e : ε} {d : Reader ε μ α} {f : α → Reader ε μ β}

theorem run_bind_ok {s t : Stream μ} {b : β} (h : (d >>= f).run s = .ok (b, t)) :
    ∃ a u, d.run s = .ok (a, u) ∧ (f a).run u = .ok (b, t) := by
  rw [StateT.run_bind] at h
  cases hd : d.run s with
  | error e' =>
      rw [hd] at h
      cases h
  | ok r =>
      rw [hd] at h
      exact ⟨r.1, r.2, rfl, h⟩

theorem run_bind_error {s : Stream μ} {e' : ε} (h : (d >>= f).run s = .error e') :
    d.run s = .error e' ∨ ∃ a u, d.run s = .ok (a, u) ∧ (f a).run u = .error e' := by
  rw [StateT.run_bind] at h
  cases hd : d.run s with
  | error e'' =>
      rw [hd] at h
      exact .inl (show Except.error e'' =
        Except.error e' from congrArg Except.error (Except.error.inj h))
  | ok r =>
      rw [hd] at h
      exact .inr ⟨r.1, r.2, rfl, h⟩

theorem run_bind_of_ok {s u : Stream μ} {a : α} (h : d.run s = .ok (a, u)) :
    (d >>= f).run s = (f a).run u := by
  rw [StateT.run_bind, h]
  rfl

theorem run_bind_of_error {s : Stream μ} {e' : ε} (h : d.run s = .error e') :
    (d >>= f).run s = .error e' := by
  rw [StateT.run_bind, h]
  rfl

theorem plain_pure (a : α) : Plain room e (pure a : Reader ε μ α) := by
  constructor
  · intro s t b h
    cases h
    exact Skips.refl s
  · intro s _ h
    cases h

theorem plain_throw {e' : ε} (h : e' ≠ e) : Plain room e (throw e' : Reader ε μ α) := by
  constructor
  · intro s t b h
    cases h
  · intro s _ hs
    exact h (Except.error.inj hs)

theorem Plain.bind (h : Plain room e d) (h' : ∀ a, Plain room e (f a)) :
    Plain room e (d >>= f) := by
  constructor
  · intro s t b hs
    obtain ⟨a, u, hd, hf⟩ := run_bind_ok hs
    exact (h.skips hd).trans ((h' a).skips hf)
  · intro s hroom hs
    rcases run_bind_error hs with hd | ⟨a, u, hd, hf⟩
    · exact h.never hroom hd
    · exact (h' a).never (by rwa [(h.skips hd).total]) hf

theorem plain_ite {c : Prop} [Decidable c] {d' : Reader ε μ α} (h : c → Plain room e d)
    (h' : ¬ c → Plain room e d') : Plain room e (if c then d else d') := by
  by_cases hc : c
  · rw [if_pos hc]
    exact h hc
  · rw [if_neg hc]
    exact h' hc

theorem Plain.ite {c : Prop} [Decidable c] {d' : Reader ε μ α} (h : Plain room e d)
    (h' : Plain room e d') : Plain room e (if c then d else d') :=
  plain_ite (fun _ => h) fun _ => h'

theorem plain_remaining : Plain room e (remaining : Reader ε μ ℕ) := by
  constructor
  · intro s t a h
    cases h
    exact Skips.refl s
  · intro s _ h
    cases h

theorem skips_takeBytes {bound n : ℕ} {tooFar short : ε} {s t : Stream μ} {bytes : List UInt8}
    (h : (takeBytes bound n tooFar short : Reader ε μ (List UInt8)).run s = .ok (bytes, t)) :
    Skips s t := by
  simp only [StateT.run, takeBytes] at h
  split at h
  · cases h
  · split at h
    · cases h
    · cases h
      refine ⟨rfl, ?_, Nat.le_add_right _ _⟩
      show s.offset + n + (s.input.drop n).length = s.offset + s.input.length
      rw [List.length_drop]
      omega

/-- Few bytes never end behind the numbers that an offset can be. -/
theorem plain_takeBytes {bound n : ℕ} {tooFar short : ε} (hshort : short ≠ e)
    (hn : room + n ≤ bound) :
    Plain room e (takeBytes bound n tooFar short : Reader ε μ (List UInt8)) := by
  constructor
  · exact skips_takeBytes
  · intro s hroom h
    have hoffset : s.offset ≤ s.total := Nat.le_add_right _ _
    simp only [StateT.run, takeBytes] at h
    rw [if_neg (by omega)] at h
    split at h
    · exact hshort (Except.error.inj h)
    · cases h

theorem plain_repeatRead {d : Reader ε μ α} (h : Plain room e d) (n : ℕ) :
    Plain room e (repeatRead d n) := by
  induction n with
  | zero => exact plain_pure []
  | succ n ih => exact h.bind fun a => ih.bind fun as => plain_pure (a :: as)

end Plain

/-! ### Calls -/

/-- The streams on which a reader makes its calls, in order. -/
abbrev Calls (μ : Type) := Stream μ → List (Stream μ)

/-- The calls behind a first step. -/
def after (d : Reader ε μ α) (calls : α → Calls μ) : Calls μ := fun s =>
  match d.run s with
  | .ok (a, t) => calls a t
  | .error _ => []

/-- The calls of one pass after the other. -/
def each (d : Reader ε μ α) (calls : Calls μ) : ℕ → Calls μ
  | 0, _ => []
  | n + 1, s => calls s ++ after d (fun _ => each d calls n) s

/-- Calls that succeed, with input skipped between them. -/
inductive Follows (p : Reader ε μ β) : Stream μ → List (Stream μ) → Stream μ → Prop
  | skip {s t : Stream μ} (h : Skips s t) : Follows p s [] t
  | call {s t u v : Stream μ} {b : β} {l : List (Stream μ)} (h : Skips s t)
      (hcall : p.run t = .ok (b, u)) (rest : Follows p u l v) : Follows p s (t :: l) v

section Calls

variable {p : Reader ε μ β}

theorem Follows.skips {s t v : Stream μ} {l : List (Stream μ)} (h : Skips s t)
    (h' : Follows p t l v) : Follows p s l v := by
  cases h' with
  | skip hskip => exact .skip (h.trans hskip)
  | call hskip hcall rest => exact .call (h.trans hskip) hcall rest

theorem Follows.trans {s t v : Stream μ} {l l' : List (Stream μ)} (h : Follows p s l t)
    (h' : Follows p t l' v) : Follows p s (l ++ l') v := by
  induction h with
  | skip hskip => exact h'.skips hskip
  | call hskip hcall _ ih => exact .call hskip hcall (ih h')

/-- Calls that leave the total alone do so one after the other. -/
theorem Follows.total {s t : Stream μ} {l : List (Stream μ)}
    (hp : ∀ {u v : Stream μ} {b : β}, p.run u = .ok (b, v) → v.total = u.total)
    (h : Follows p s l t) : t.total = s.total := by
  induction h with
  | skip hskip => exact hskip.total
  | call hskip hcall _ ih => rw [ih, hp hcall, hskip.total]

/-- Calls that only add to what is kept do so one after the other. -/
theorem Follows.kept {δ : Type} {p : Reader ε (List δ) β} {grown : Stream (List δ) → List δ}
    {s t : Stream (List δ)} {l : List (Stream (List δ))} (h : Follows p s l t)
    (hp : ∀ u ∈ l, ∀ (b : β) v, p.run u = .ok (b, v) → v.kept = u.kept ++ grown u) :
    t.kept = s.kept ++ l.flatMap grown := by
  induction h with
  | skip hskip => rw [hskip.kept, List.flatMap_nil, List.append_nil]
  | @call s t u v b l hskip hcall _ ih =>
      rw [ih fun w hw => hp w (.tail _ hw), hp t (.head _) b u hcall, hskip.kept,
        List.flatMap_cons, List.append_assoc]

/-- An element of the pieces stands in one of them. -/
theorem flatMap_split {δ : Type} {f : α → List δ} {l : List α} {x : δ} {before behind : List δ}
    (h : l.flatMap f = before ++ x :: behind) : ∃ c y d before' behind',
      l = c ++ y :: d ∧ f y = before' ++ x :: behind' ∧ before = c.flatMap f ++ before' := by
  induction l generalizing before with
  | nil => simp at h
  | cons a l ih =>
      rw [List.flatMap_cons] at h
      rcases List.append_eq_append_iff.mp h with ⟨m, rfl, hm⟩ | ⟨m, hfa, hm⟩
      · obtain ⟨c, y, d, before', behind', rfl, hy, rfl⟩ := ih hm
        exact ⟨a :: c, y, d, before', behind', rfl, hy, by
          rw [List.flatMap_cons, List.append_assoc]⟩
      · cases m with
        | nil =>
            rw [List.append_nil] at hfa
            rw [List.nil_append] at hm
            obtain ⟨c, y, d, before', behind', rfl, hy, hnil⟩ :=
              ih (show l.flatMap f = [] ++ x :: behind from hm.symm)
            refine ⟨a :: c, y, d, before', behind', rfl, hy, ?_⟩
            rw [List.flatMap_cons, hfa, List.append_assoc, ← hnil, List.append_nil]
        | cons z m =>
            obtain ⟨rfl, -⟩ := List.cons.inj hm
            exact ⟨[], a, l, before, m, rfl, hfa, rfl⟩

/-- `calls` lists the calls that `d` makes of `p`. -/
structure Traces (room : ℕ) (e : ε) (p : Reader ε μ β) (d : Reader ε μ α) (calls : Calls μ) :
    Prop where
  /-- The error `e` comes from a call. -/
  blames : ∀ {s : Stream μ}, s.total < room → d.run s = .error e → ∃ t ∈ calls s, p.run t = .error e
  /-- An error of a call is passed on. -/
  passes : ∀ {s t : Stream μ} {e' : ε}, t ∈ calls s → p.run t = .error e' → d.run s = .error e'
  /-- A call is made behind the calls before it. -/
  reaches : ∀ {s t : Stream μ} {l r : List (Stream μ)}, calls s = l ++ t :: r → Follows p s l t
  /-- The end is reached behind all calls. -/
  ends : ∀ {s t : Stream μ} {a : α}, d.run s = .ok (a, t) → Follows p s (calls s) t

variable {room : ℕ} {e : ε} {d : Reader ε μ α} {f : α → Reader ε μ γ}

theorem traces_plain (h : Plain room e d) : Traces room e p d fun _ => [] := by
  constructor
  · intro s hroom hs
    exact absurd hs (h.never hroom)
  · intro s t e' ht
    cases ht
  · intro s t l r heq
    simp at heq
  · intro s t a hs
    exact .skip (h.skips hs)

theorem traces_call : Traces room e p p fun s => [s] := by
  constructor
  · intro s _ hs
    exact ⟨s, List.mem_singleton_self s, hs⟩
  · intro s t e' ht hs
    rwa [List.mem_singleton.mp ht] at hs
  · intro s t l r heq
    cases l with
    | nil =>
        cases heq
        exact .skip (Skips.refl s)
    | cons u l =>
        have hlen := congrArg List.length heq
        simp at hlen
  · intro s t b hs
    exact .call (Skips.refl s) hs (.skip (Skips.refl t))

theorem after_of_ok {calls : α → Calls μ} {s t : Stream μ} {a : α} (h : d.run s = .ok (a, t)) :
    after d calls s = calls a t := by
  rw [after, h]

theorem exists_of_mem_after {calls : α → Calls μ} {s t : Stream μ} (h : t ∈ after d calls s) :
    ∃ a u, d.run s = .ok (a, u) ∧ t ∈ calls a u := by
  rw [after] at h
  split at h
  next a u hd => exact ⟨a, u, hd, h⟩
  next => cases h

/-- The calls of two steps, when the calls leave the total alone. -/
theorem Traces.bind {calls : Calls μ} {calls' : α → Calls μ}
    (hp : ∀ {u v : Stream μ} {b : β}, p.run u = .ok (b, v) → v.total = u.total)
    (h : Traces room e p d calls) (h' : ∀ a, Traces room e p (f a) (calls' a)) :
    Traces room e p (d >>= f) fun s => calls s ++ after d calls' s := by
  constructor
  · intro s hroom hs
    rcases run_bind_error hs with hd | ⟨a, u, hd, hf⟩
    · obtain ⟨t, ht, hcall⟩ := h.blames hroom hd
      exact ⟨t, List.mem_append_left _ ht, hcall⟩
    · have hroom' : u.total < room := by rwa [(h.ends hd).total hp]
      obtain ⟨t, ht, hcall⟩ := (h' a).blames hroom' hf
      refine ⟨t, List.mem_append_right _ ?_, hcall⟩
      rwa [after_of_ok hd]
  · intro s t e' ht hcall
    rcases List.mem_append.mp ht with ht | ht
    · exact run_bind_of_error (h.passes ht hcall)
    · obtain ⟨a, u, hd, ht⟩ := exists_of_mem_after ht
      rw [run_bind_of_ok hd]
      exact (h' a).passes ht hcall
  · intro s t l r heq
    rcases List.append_eq_append_iff.mp heq with ⟨m, rfl, hm⟩ | ⟨m, hcalls, hm⟩
    · -- the call is one of the second step
      rw [after] at hm
      split at hm
      next a u hd => exact (h.ends hd).trans ((h' a).reaches hm)
      next => simp at hm
    · cases m with
      | nil =>
          rw [List.append_nil] at hcalls
          rw [List.nil_append] at hm
          rw [after] at hm
          split at hm
          next a u hd =>
            have hrest := (h.ends hd).trans ((h' a).reaches (l := []) hm.symm)
            rwa [hcalls, List.append_nil] at hrest
          next => simp at hm
      | cons w m =>
          obtain ⟨rfl, -⟩ := List.cons.inj hm
          exact h.reaches hcalls
  · intro s t c hs
    obtain ⟨a, u, hd, hf⟩ := run_bind_ok hs
    rw [after_of_ok hd]
    exact (h.ends hd).trans ((h' a).ends hf)

/-- A first step without calls. -/
theorem Traces.behind {calls' : α → Calls μ} (h : Plain room e d)
    (h' : ∀ a, Traces room e p (f a) (calls' a)) :
    Traces room e p (d >>= f) (after d calls') := by
  constructor
  · intro s hroom hs
    rcases run_bind_error hs with hd | ⟨a, u, hd, hf⟩
    · exact absurd hd (h.never hroom)
    · rw [after_of_ok hd]
      exact (h' a).blames (by rwa [(h.skips hd).total]) hf
  · intro s t e' ht hcall
    obtain ⟨a, u, hd, ht⟩ := exists_of_mem_after ht
    rw [run_bind_of_ok hd]
    exact (h' a).passes ht hcall
  · intro s t l r heq
    rw [after] at heq
    split at heq
    next a u hd => exact ((h' a).reaches heq).skips (h.skips hd)
    next => simp at heq
  · intro s t c hs
    obtain ⟨a, u, hd, hf⟩ := run_bind_ok hs
    rw [after_of_ok hd]
    exact ((h' a).ends hf).skips (h.skips hd)

/-- A last step without calls. -/
theorem Traces.before {calls : Calls μ}
    (hp : ∀ {u v : Stream μ} {b : β}, p.run u = .ok (b, v) → v.total = u.total)
    (h : Traces room e p d calls) (h' : ∀ a, Plain room e (f a)) :
    Traces room e p (d >>= f) calls := by
  have hbind := h.bind hp (f := f) fun a => traces_plain (h' a)
  have hnone (s : Stream μ) : after d (fun _ _ => []) s = ([] : List (Stream μ)) := by
    rw [after]
    split <;> rfl
  simpa only [hnone, List.append_nil] using hbind

theorem Traces.repeated {calls : Calls μ}
    (hp : ∀ {u v : Stream μ} {b : β}, p.run u = .ok (b, v) → v.total = u.total)
    (h : Traces room e p d calls) (n : ℕ) :
    Traces room e p (repeatRead d n) (each d calls n) := by
  induction n with
  | zero => exact traces_plain (plain_pure [])
  | succ n ih =>
      exact h.bind hp fun a => ih.before hp fun as => plain_pure (a :: as)

/-- A check before the rest. -/
theorem Traces.guarded {c : Prop} [Decidable c] {e' : ε} {calls : Calls μ} (hne : e' ≠ e)
    (h : Traces room e p d calls) :
    Traces room e p (if c then throw e' else d) (if c then fun _ => [] else calls) := by
  by_cases hc : c
  · rw [if_pos hc, if_pos hc]
    exact traces_plain (plain_throw hne)
  · rw [if_neg hc, if_neg hc]
    exact h

end Calls

end StreamReader
