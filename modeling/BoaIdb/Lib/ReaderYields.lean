import BoaIdb.Lib.ReaderCalls
import Mathlib.Algebra.GroupWithZero.Nat
import Mathlib.Algebra.Order.BigOperators.Group.List

/-!
What the nested calls of a reader give it.

`Collects` is a judgment about one reader and its calls: the values that the calls gave, in
order, satisfy a postcondition together with the result, and at least `gap` bytes of input
stand before each call. Of these bytes a `credit` may have been read before the reader starts;
this is what lets the bytes before a call be read by an earlier step.
-/

namespace StreamReader

variable {ε μ α β γ : Type}

/-- Calls that give these values, each behind at least `gap` bytes. -/
inductive Yields (p : Reader ε μ β) (gap : ℕ) : ℕ → List (Stream μ) → List β → ℕ → Prop
  | done {start stop : ℕ} (h : start ≤ stop) : Yields p gap start [] [] stop
  | call {start stop : ℕ} {t u : Stream μ} {b : β} {l : List (Stream μ)} {bs : List β}
      (h : start + gap ≤ t.offset) (hcall : p.run t = .ok (b, u))
      (rest : Yields p gap u.offset l bs stop) : Yields p gap start (t :: l) (b :: bs) stop

section Yields

variable {p : Reader ε μ β} {gap : ℕ}

theorem Yields.before {start start' stop : ℕ} {l : List (Stream μ)} {bs : List β}
    (hle : start ≤ start') (h : Yields p gap start' l bs stop) : Yields p gap start l bs stop := by
  cases h with
  | done h => exact .done (Nat.le_trans hle h)
  | call h hcall rest => exact .call (Nat.le_trans (Nat.add_le_add_right hle gap) h) hcall rest

theorem Yields.trans {start middle stop : ℕ} {l l' : List (Stream μ)} {bs bs' : List β}
    (h : Yields p gap start l bs middle) (h' : Yields p gap middle l' bs' stop) :
    Yields p gap start (l ++ l') (bs ++ bs') stop := by
  induction h with
  | done h => exact h'.before h
  | call h hcall _ ih => exact .call h hcall (ih h')

theorem Yields.length {start stop : ℕ} {l : List (Stream μ)} {bs : List β}
    (h : Yields p gap start l bs stop) : bs.length = l.length := by
  induction h with
  | done h => rfl
  | call h hcall _ ih => rw [List.length_cons, List.length_cons, ih]

/-- A measure of the values that can be read off the calls. -/
theorem Yields.measured {start stop : ℕ} {l : List (Stream μ)} {bs : List β} {f : β → γ}
    {g : Stream μ → γ} (h : Yields p gap start l bs stop)
    (hp : ∀ {t u : Stream μ} {b : β}, p.run t = .ok (b, u) → f b = g t) : bs.map f = l.map g := by
  induction h with
  | done h => rfl
  | call h hcall _ ih => rw [List.map_cons, List.map_cons, ih, hp hcall]

/-- What the calls cost adds up, and the bytes before them come on top. -/
theorem Yields.spends {start stop : ℕ} {l : List (Stream μ)} {bs : List β} {cost : Stream μ → ℕ}
    (h : Yields p gap start l bs stop)
    (hp : ∀ {t u : Stream μ} {b : β}, p.run t = .ok (b, u) → t.offset + cost t ≤ u.offset) :
    start + (l.map fun t => gap + cost t).sum ≤ stop := by
  induction h with
  | done h => exact h
  | call h hcall _ ih =>
      have hcost := hp hcall
      rw [List.map_cons, List.sum_cons]
      omega

/-- What `d` reads is at least `n` bytes. -/
structure Advances (n : ℕ) (d : Reader ε μ α) : Prop where
  offset : ∀ {s t : Stream μ} {a : α}, d.run s = .ok (a, t) → s.offset + n ≤ t.offset

theorem Advances.bind {m n : ℕ} {d : Reader ε μ α} {f : α → Reader ε μ γ} (h : Advances m d)
    (h' : ∀ a, Advances n (f a)) : Advances (m + n) (d >>= f) := by
  constructor
  intro s t c hrun
  obtain ⟨a, u, hd, hf⟩ := run_bind_ok hrun
  have hfirst := h.offset hd
  have hsecond := (h' a).offset hf
  omega

theorem Advances.weaken {m n : ℕ} {d : Reader ε μ α} (h : Advances m d) (hle : n ≤ m) :
    Advances n d :=
  ⟨fun hrun => Nat.le_trans (Nat.add_le_add_left hle _) (h.offset hrun)⟩

theorem Plain.advances {room : ℕ} {e : ε} {d : Reader ε μ α} (h : Plain room e d) : Advances 0 d :=
  ⟨fun hrun => (h.skips hrun).offset⟩

theorem advances_pure (a : α) : Advances 0 (pure a : Reader ε μ α) := by
  constructor
  intro s t b h
  cases h
  exact Nat.le_refl _

theorem advances_takeBytes {bound n : ℕ} {tooFar short : ε} :
    Advances n (takeBytes bound n tooFar short : Reader ε μ (List UInt8)) := by
  constructor
  intro s t bytes h
  simp only [StateT.run, takeBytes] at h
  split at h
  · cases h
  · split at h
    · cases h
    · cases h
      exact Nat.le_refl _

theorem length_of_takeBytes {bound n : ℕ} {tooFar short : ε} {s t : Stream μ} {bytes : List UInt8}
    (h : (takeBytes bound n tooFar short : Reader ε μ (List UInt8)).run s = .ok (bytes, t)) :
    bytes.length = n := by
  simp only [StateT.run, takeBytes] at h
  split at h
  · cases h
  · split at h
    · cases h
    next hlong =>
      cases h
      rw [List.length_take]
      omega

theorem advances_remaining : Advances 0 (remaining : Reader ε μ ℕ) := by
  constructor
  intro s t n h
  cases h
  exact Nat.le_refl _

end Yields

/-! ### The judgment -/

/-- `calls` lists the calls that `d` makes, and `post` holds of its result and their values. -/
structure Collects (p : Reader ε μ β) (gap credit : ℕ) (d : Reader ε μ α) (calls : Calls μ)
    (post : α → List β → Prop) : Prop where
  gives : ∀ {s t : Stream μ} {a : α} {start : ℕ}, d.run s = .ok (a, t) → start + credit ≤ s.offset →
    ∃ bs, Yields p gap start (calls s) bs t.offset ∧ post a bs

section Collects

variable {p : Reader ε μ β} {gap credit : ℕ} {d : Reader ε μ α} {f : α → Reader ε μ γ}

theorem Collects.imp {calls : Calls μ} {post post' : α → List β → Prop}
    (h : Collects p gap credit d calls post) (hpost : ∀ a bs, post a bs → post' a bs) :
    Collects p gap credit d calls post' := by
  constructor
  intro s t a start hrun hstart
  obtain ⟨bs, hyields, ha⟩ := h.gives hrun hstart
  exact ⟨bs, hyields, hpost a bs ha⟩

theorem collects_pure {a : α} {post : α → List β → Prop} (h : post a []) :
    Collects p gap credit (pure a) (fun _ => []) post := by
  constructor
  intro s t b start hrun hstart
  cases hrun
  exact ⟨[], .done (Nat.le_trans (Nat.le_add_right _ _) hstart), h⟩

theorem collects_throw {e : ε} {calls : Calls μ} {post : α → List β → Prop} :
    Collects p gap credit (throw e) calls post := by
  constructor
  intro s t b start hrun
  cases hrun

/-- The call itself. -/
theorem collects_call : Collects p gap gap p (fun s => [s]) fun b bs => bs = [b] := by
  constructor
  intro s t b start hrun hstart
  exact ⟨[b], .call hstart hrun (.done (Nat.le_refl _)), rfl⟩

/-- Two steps; the second has no credit behind the calls of the first. -/
theorem Collects.bind {calls : Calls μ} {calls' : α → Calls μ} {post : α → List β → Prop}
    {post' : γ → List β → Prop} (h : Collects p gap credit d calls post)
    (h' : ∀ a bs, post a bs →
      Collects p gap 0 (f a) (calls' a) fun c bs' => post' c (bs ++ bs')) :
    Collects p gap credit (d >>= f) (fun s => calls s ++ after d calls' s) post' := by
  constructor
  intro s t c start hrun hstart
  obtain ⟨a, u, hd, hf⟩ := run_bind_ok hrun
  obtain ⟨bs, hyields, ha⟩ := h.gives hd hstart
  obtain ⟨bs', hyields', hc⟩ := (h' a bs ha).gives hf (Nat.le_refl _)
  refine ⟨bs ++ bs', ?_, hc⟩
  show Yields p gap start (calls s ++ after d calls' s) (bs ++ bs') t.offset
  rw [after_of_ok hd]
  exact hyields.trans hyields'

/-- A first step without calls; the bytes that it reads are credit for the rest. -/
theorem Collects.behind {n credit' : ℕ} {calls' : α → Calls μ} {post : γ → List β → Prop}
    (hd : Advances n d) (hcredit : credit' ≤ credit + n)
    (h : ∀ a, Collects p gap credit' (f a) (calls' a) post) :
    Collects p gap credit (d >>= f) (after d calls') post := by
  constructor
  intro s t c start hrun hstart
  obtain ⟨a, u, hfirst, hf⟩ := run_bind_ok hrun
  have hadvance := hd.offset hfirst
  rw [after_of_ok hfirst]
  exact (h a).gives hf (by omega)

/-- A last step without calls. -/
theorem Collects.before {calls : Calls μ} {post : α → List β → Prop}
    {post' : γ → List β → Prop} (h : Collects p gap credit d calls post)
    (h' : ∀ a bs, post a bs → Collects p gap 0 (f a) (fun _ => []) fun c bs' =>
      post' c (bs ++ bs')) :
    Collects p gap credit (d >>= f) calls post' := by
  constructor
  intro s t c start hrun hstart
  obtain ⟨bs, hyields, hc⟩ := (h.bind h').gives hrun hstart
  have hnone : calls s ++ after d (fun _ _ => []) s = calls s := by
    rw [after]
    split <;> exact List.append_nil _
  exact ⟨bs, hnone ▸ hyields, hc⟩

/-- A check before the rest. -/
theorem Collects.guarded {c : Prop} [Decidable c] {e : ε} {calls : Calls μ}
    {post : α → List β → Prop} (h : ¬ c → Collects p gap credit d calls post) :
    Collects p gap credit (if c then throw e else d) (if c then fun _ => [] else calls) post := by
  by_cases hc : c
  · rw [if_pos hc, if_pos hc]
    exact collects_throw
  · rw [if_neg hc, if_neg hc]
    exact h hc

/-- Several passes: `vals` lists the values behind the result of one. -/
theorem Collects.repeated {calls : Calls μ} {vals : α → List β}
    (h : Collects p gap 0 d calls fun a bs => bs = vals a) (n : ℕ) :
    Collects p gap 0 (repeatRead d n) (each d calls n) fun as bs => bs = as.flatMap vals := by
  induction n with
  | zero => exact collects_pure rfl
  | succ n ih =>
      refine h.bind fun a bs hbs => ih.before fun as bs' hbs' => collects_pure ?_
      rw [hbs, hbs', List.append_nil, List.flatMap_cons]

end Collects

end StreamReader
