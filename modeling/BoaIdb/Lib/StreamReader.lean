import Mathlib.Data.List.Basic

/-!
Readers of a byte stream that keep a state of their own.

`Reads bound p enc ok post` says what `p` does on a stream that starts with `enc` and
ends before `bound`: when `ok` holds it consumes exactly `enc` and returns a value that
satisfies `post`, and otherwise it fails. Both halves compose along `>>=`, so one proof
along a decoder tells on which encodings it succeeds and on which it does not.
-/

namespace StreamReader

/-- How far a reader has come, what is left, and the state that it keeps. -/
structure Stream (μ : Type) where
  offset : ℕ
  input : List UInt8
  kept : μ

abbrev Reader (ε μ α : Type) := StateT (Stream μ) (Except ε) α

variable {ε μ α β : Type}

/-- Takes `n` bytes: `tooFar` when the end is not a number below `bound`, `short` when
it is behind the end of the input. -/
def takeBytes (bound n : ℕ) (tooFar short : ε) : Reader ε μ (List UInt8) := fun s =>
  if bound ≤ s.offset + n then .error tooFar
  else if s.input.length < n then .error short
  else .ok (s.input.take n, ⟨s.offset + n, s.input.drop n, s.kept⟩)

/-- The number of bytes that are left. -/
def remaining : Reader ε μ ℕ := fun s => .ok (s.input.length, s)

def getKept : Reader ε μ μ := fun s => .ok (s.kept, s)

def modifyKept (f : μ → μ) : Reader ε μ Unit := fun s => .ok ((), { s with kept := f s.kept })

/-- Runs a reader `n` times. -/
def repeatRead (p : Reader ε μ α) : ℕ → Reader ε μ (List α)
  | 0 => pure []
  | n + 1 => do
      let a ← p
      let as ← repeatRead p n
      pure (a :: as)

/-- On a stream that starts with `enc`, `p` consumes `enc` exactly when `ok` holds, with
a result that satisfies `post`, and fails otherwise. -/
def Reads (bound : ℕ) (p : Reader ε μ α) (enc : List UInt8) (ok : Prop) (post : α → Prop) : Prop :=
  ∀ (s : Stream μ) (rest : List UInt8), s.input = enc ++ rest → s.offset + s.input.length < bound →
    (ok → ∃ a kept, p.run s = .ok (a, ⟨s.offset + enc.length, rest, kept⟩) ∧ post a) ∧
      (¬ ok → ∃ e, p.run s = .error e)

section Rules

variable {bound : ℕ} {p : Reader ε μ α} {enc enc' : List UInt8} {ok ok' : Prop} {post : α → Prop}
  {post' : β → Prop}

theorem reads_pure {a : α} (h : post a) : Reads bound (pure a : Reader ε μ α) [] True post := by
  intro s rest hs _
  refine ⟨fun _ => ⟨a, s.kept, ?_, h⟩, fun hn => absurd trivial hn⟩
  obtain ⟨offset, input, kept⟩ := s
  obtain rfl : input = rest := by simpa using hs
  rfl

theorem reads_throw (e : ε) : Reads bound (throw e : Reader ε μ α) enc False post :=
  fun _ _ _ _ => ⟨False.elim, fun _ => ⟨e, rfl⟩⟩

theorem Reads.bind {f : α → Reader ε μ β} (h : Reads bound p enc ok post)
    (h' : ∀ a, post a → Reads bound (f a) enc' ok' post') :
    Reads bound (p >>= f) (enc ++ enc') (ok ∧ ok') post' := by
  intro s rest hs hbound
  rw [List.append_assoc] at hs
  obtain ⟨haccept, hreject⟩ := h s (enc' ++ rest) hs hbound
  by_cases hok : ok
  · obtain ⟨a, kept, hrun, hpost⟩ := haccept hok
    have hbound' : s.offset + enc.length + (enc' ++ rest).length < bound := by
      rw [hs, List.length_append] at hbound
      omega
    obtain ⟨haccept', hreject'⟩ :=
      h' a hpost ⟨s.offset + enc.length, enc' ++ rest, kept⟩ rest rfl hbound'
    have hstep : (p >>= f).run s = (f a).run ⟨s.offset + enc.length, enc' ++ rest, kept⟩ := by
      rw [StateT.run_bind, hrun]
      rfl
    rw [hstep]
    refine ⟨fun hboth => ?_, fun hn => hreject' fun hok' => hn ⟨hok, hok'⟩⟩
    obtain ⟨b, kept', hrun', hpost'⟩ := haccept' hboth.2
    refine ⟨b, kept', ?_, hpost'⟩
    rw [hrun', List.length_append, Nat.add_assoc]
  · obtain ⟨e, hrun⟩ := hreject hok
    refine ⟨fun hboth => absurd hboth.1 hok, fun _ => ⟨e, ?_⟩⟩
    rw [StateT.run_bind, hrun]
    rfl

/-- The condition may be rewritten and the postcondition weakened. -/
theorem Reads.imp {post'' : α → Prop} (h : Reads bound p enc ok post) (hok : ok ↔ ok')
    (hpost : ∀ a, post a → post'' a) : Reads bound p enc ok' post'' := by
  intro s rest hs hbound
  obtain ⟨haccept, hreject⟩ := h s rest hs hbound
  refine ⟨fun h' => ?_, fun hn => hreject (mt hok.mp hn)⟩
  obtain ⟨a, kept, hrun, ha⟩ := haccept (hok.mpr h')
  exact ⟨a, kept, hrun, hpost a ha⟩

/-- An encoding that does not end before `bound` is never read. -/
theorem reads_of_lt (h : enc.length < bound → Reads bound p enc ok post) :
    Reads bound p enc ok post := by
  intro s rest hs hbound
  have hlt : enc.length < bound := by
    rw [hs, List.length_append] at hbound
    omega
  exact h hlt s rest hs hbound

theorem Reads.cast (h : Reads bound p enc ok post) (henc : enc = enc') (hok : ok ↔ ok') :
    Reads bound p enc' ok' post :=
  henc ▸ h.imp hok fun _ => id

/-- A first step that always succeeds. -/
theorem Reads.next {f : α → Reader ε μ β} (h : Reads bound p enc True post)
    (h' : ∀ a, post a → Reads bound (f a) enc' ok' post') :
    Reads bound (p >>= f) (enc ++ enc') ok' post' :=
  (h.bind h').cast rfl (Iff.of_eq (true_and ok'))

/-- A last step that always succeeds and consumes nothing. -/
theorem Reads.last {f : α → Reader ε μ β} (h : Reads bound p enc ok post)
    (h' : ∀ a, post a → Reads bound (f a) [] True post') : Reads bound (p >>= f) enc ok post' :=
  (h.bind h').cast (List.append_nil enc) (Iff.of_eq (and_true ok))

/-- A last step that only computes. -/
theorem Reads.andThen {f : α → Reader ε μ β} (h : Reads bound p enc ok post)
    (h' : ∀ a, post a → ∃ b, f a = Pure.pure b ∧ post' b) :
    Reads bound (p >>= f) enc ok post' := by
  refine h.last fun a ha => ?_
  obtain ⟨b, hf, hb⟩ := h' a ha
  rw [hf]
  exact reads_pure hb

/-- A first step that consumes nothing and succeeds. -/
theorem Reads.after {f : α → Reader ε μ β} (h : Reads bound p [] True post)
    (h' : ∀ a, post a → Reads bound (f a) enc ok post') : Reads bound (p >>= f) enc ok post' :=
  h.next h'

/-- A check before the rest. -/
theorem Reads.guarded {bad : Prop} [Decidable bad] (e : ε) (h : Reads bound p enc ok post) :
    Reads bound (if bad then throw e else p) enc (¬ bad ∧ ok) post := by
  by_cases hbad : bad
  · rw [if_pos hbad]
    exact (reads_throw e).cast rfl (by simp [hbad])
  · rw [if_neg hbad]
    exact h.cast rfl (by simp [hbad])

theorem reads_modifyKept (f : μ → μ) :
    Reads bound (modifyKept f : Reader ε μ Unit) [] True (fun _ => True) := by
  intro s rest hs _
  obtain ⟨offset, input, kept⟩ := s
  obtain rfl : input = rest := by simpa using hs
  exact ⟨fun _ => ⟨(), f kept, rfl, trivial⟩, fun hn => absurd trivial hn⟩

theorem reads_getKept : Reads bound (getKept : Reader ε μ μ) [] True (fun _ => True) := by
  intro s rest hs _
  obtain ⟨offset, input, kept⟩ := s
  obtain rfl : input = rest := by simpa using hs
  exact ⟨fun _ => ⟨kept, kept, rfl, trivial⟩, fun hn => absurd trivial hn⟩

/-- What follows may rely on the number of bytes of its own encoding being left. -/
theorem reads_remaining {f : ℕ → Reader ε μ β}
    (h : ∀ n, enc.length ≤ n → Reads bound (f n) enc ok post') :
    Reads bound (remaining >>= f) enc ok post' := by
  intro s rest hs hbound
  have hle : enc.length ≤ s.input.length := by
    rw [hs, List.length_append]
    exact Nat.le_add_right _ _
  exact h s.input.length hle s rest hs hbound

theorem reads_takeBytes {n : ℕ} {tooFar short : ε} (h : enc.length = n) :
    Reads bound (takeBytes bound n tooFar short : Reader ε μ (List UInt8)) enc True (· = enc) := by
  subst h
  intro s rest hs hbound
  refine ⟨fun _ => ⟨enc, s.kept, ?_, rfl⟩, fun hn => absurd trivial hn⟩
  have hlength : s.input.length = enc.length + rest.length := by rw [hs, List.length_append]
  have htake : s.input.take enc.length = enc := by rw [hs, List.take_left]
  have hdrop : s.input.drop enc.length = rest := by rw [hs, List.drop_left]
  simp only [StateT.run, takeBytes]
  rw [if_neg (by omega), if_neg (by omega), htake, hdrop]

/-- One item after the other; `post` relates each to what was written. -/
theorem reads_repeatRead {γ : Type} {bound : ℕ} {p : Reader ε μ α} {items : List γ}
    {code : γ → List UInt8} {ok : γ → Prop} {post : γ → α → Prop}
    (h : ∀ c ∈ items, Reads bound p (code c) (ok c) (post c)) :
    Reads bound (repeatRead p items.length) (items.flatMap code) (∀ c ∈ items, ok c)
      (List.Forall₂ post items) := by
  induction items with
  | nil => exact (reads_pure List.Forall₂.nil).cast rfl (by simp)
  | cons c items ih =>
      have htail := ih fun c' hc' => h c' (.tail _ hc')
      have hall := (h c (by simp)).bind fun a ha =>
        htail.andThen (f := fun as => Pure.pure (a :: as)) fun as has =>
          ⟨a :: as, rfl, List.Forall₂.cons ha has⟩
      exact hall.cast rfl (List.forall_mem_cons).symm

end Rules

end StreamReader
