import Mathlib.Order.Basic

/-!
Programs that can fail or be stopped at any operation.

A program runs over a state that outlives it: whatever it has done stays done,
also when it ends early. `Meets pre p post halt` is the reasoning principle. A
run of `p` from `pre` ends normally in `post`, or early in `halt`; the rules
compose along `>>=`, and an error that is caught turns `halt` into an ordinary
result.
-/

namespace Faults

/-! ### Results -/

theorem bind_ok {ε α β : Type} {x : Except ε α} {f : α → Except ε β} {b : β}
    (h : x >>= f = .ok b) : ∃ a, x = .ok a ∧ f a = .ok b := by
  cases x with
  | error e => cases h
  | ok a => exact ⟨a, rfl, h⟩

/-- An error behind which nothing fails. -/
theorem bind_error {ε α β : Type} {x : Except ε α} {f : α → Except ε β} {e : ε}
    (h : x >>= f = .error e) (hf : ∀ a, f a ≠ .error e) : x = .error e := by
  cases x with
  | error e' => exact congrArg Except.error (Except.error.inj h)
  | ok a => exact absurd h (hf a)

theorem map_ok {ε α β : Type} {x : Except ε α} {f : α → β} {b : β} (h : x.map f = .ok b) :
    ∃ a, x = .ok a ∧ f a = b := by
  cases x with
  | error e => cases h
  | ok a => exact ⟨a, rfl, Except.ok.inj h⟩

theorem mapError_ok {ε ε' α : Type} {x : Except ε α} {f : ε → ε'} {a : α}
    (h : x.mapError f = .ok a) : x = .ok a := by
  cases x with
  | error e => cases h
  | ok b => exact congrArg Except.ok (Except.ok.inj h)

/-! ### Programs -/

/-- What an operation is made to report. -/
inductive Outcome (ε : Type)
  | ok
  | fail (e : ε)
  /-- The process ends before the operation. -/
  | stop
  deriving DecidableEq, Repr

/-- How a program ended. -/
inductive Exit (ε α : Type)
  | done (a : α)
  | failed (e : ε)
  | stopped
  deriving DecidableEq, Repr

/-- A program over a state that stays as the program leaves it. -/
def Prog (σ ε α : Type) := σ → Exit ε α × σ

namespace Prog

variable {σ ε α β : Type}

instance : Monad (Prog σ ε) where
  pure a := fun s => (.done a, s)
  bind p k := fun s =>
    match p s with
    | (.done a, s) => k a s
    | (.failed e, s) => (.failed e, s)
    | (.stopped, s) => (.stopped, s)

/-- The state, read. -/
def read : Prog σ ε σ := fun s => (.done s, s)

def modify (f : σ → σ) : Prog σ ε Unit := fun s => (.done (), f s)

def throw (e : ε) : Prog σ ε α := fun s => (.failed e, s)

/-- An operation that has its effect exactly when it reports success. -/
def op (o : Outcome ε) (effect : σ → σ) : Prog σ ε Unit := fun s =>
  match o with
  | .ok => (.done (), effect s)
  | .fail e => (.failed e, s)
  | .stop => (.stopped, s)

/-- An operation that leaves part of its effect behind when it does not succeed. -/
def tornOp (o : Outcome ε) (effect part : σ → σ) : Prog σ ε Unit := fun s =>
  match o with
  | .ok => (.done (), effect s)
  | .fail e => (.failed e, part s)
  | .stop => (.stopped, part s)

/-- Catches an error, not the end of the process. -/
def attempt (p : Prog σ ε α) : Prog σ ε (Except ε α) := fun s =>
  match p s with
  | (.done a, s) => (.done (.ok a), s)
  | (.failed e, s) => (.done (.error e), s)
  | (.stopped, s) => (.stopped, s)

/-- `?` on a result. -/
def lift (r : Except ε α) : Prog σ ε α := fun s =>
  match r with
  | .ok a => (.done a, s)
  | .error e => (.failed e, s)

/-- A function on the state, which stays as it was when the function fails. -/
def call (f : σ → Except ε (α × σ)) : Prog σ ε α := fun s =>
  match f s with
  | .ok (a, s') => (.done a, s')
  | .error e => (.failed e, s)

/-- `map_err`. -/
def mapErr {ε' : Type} (f : ε → ε') (p : Prog σ ε α) : Prog σ ε' α := fun s =>
  match p s with
  | (.done a, s) => (.done a, s)
  | (.failed e, s) => (.failed (f e), s)
  | (.stopped, s) => (.stopped, s)

theorem lift_ok_bind (a : α) (k : α → Prog σ ε β) : (lift (.ok a) >>= k) = k a := rfl

theorem lift_error_bind (e : ε) (k : α → Prog σ ε β) : (lift (.error e) >>= k) = throw e := rfl

theorem bind_assoc {γ : Type} (p : Prog σ ε α) (k : α → Prog σ ε β) (l : β → Prog σ ε γ) :
    (p >>= k >>= l) = (p >>= fun a => k a >>= l) := by
  funext s
  show (match (match p s with
    | (.done a, s) => k a s
    | (.failed e, s) => (.failed e, s)
    | (.stopped, s) => (.stopped, s)) with
    | (.done b, s) => l b s
    | (.failed e, s) => (.failed e, s)
    | (.stopped, s) => (.stopped, s)) = _
  cases h : p s with
  | mk r s' => cases r <;> simp only [bind, h]

theorem bind_done {p : Prog σ ε α} {k : α → Prog σ ε β} {s s' : σ} {a : α} {r : Exit ε β × σ}
    (h : p s = (.done a, s')) (hk : k a s' = r) : (p >>= k) s = r := by
  show (match p s with
    | (.done a, s) => k a s
    | (.failed e, s) => (.failed e, s)
    | (.stopped, s) => (.stopped, s)) = r
  rw [h]
  exact hk

theorem bind_failed {p : Prog σ ε α} {k : α → Prog σ ε β} {s s' : σ} {e : ε}
    (h : p s = (.failed e, s')) : (p >>= k) s = (.failed e, s') := by
  show (match p s with
    | (.done a, s) => k a s
    | (.failed e, s) => (.failed e, s)
    | (.stopped, s) => (.stopped, s)) = _
  rw [h]

/-- A sequence that is done has done both its parts. -/
theorem of_bind_done {p : Prog σ ε α} {k : α → Prog σ ε β} {s s' : σ} {b : β}
    (h : (p >>= k) s = (.done b, s')) : ∃ a t, p s = (.done a, t) ∧ k a t = (.done b, s') := by
  rcases hp : p s with ⟨exit, t⟩
  have hbind : (match p s with
    | (.done a, s) => k a s
    | (.failed e, s) => (.failed e, s)
    | (.stopped, s) => (.stopped, s)) = (.done b, s') := h
  rw [hp] at hbind
  cases exit with
  | done a => exact ⟨a, t, rfl, hbind⟩
  | failed e => cases hbind
  | stopped => cases hbind

theorem attempt_done {p : Prog σ ε α} {s s' : σ} {a : α} (h : p s = (.done a, s')) :
    p.attempt s = (.done (.ok a), s') := by
  unfold attempt
  rw [h]

theorem call_ok {f : σ → Except ε (α × σ)} {s s' : σ} {a : α} (h : f s = .ok (a, s')) :
    call f s = (.done a, s') := by
  unfold call
  rw [h]

/-- A loop over a list. -/
def forEach {ι : Type} (body : ι → Prog σ ε Unit) : List ι → Prog σ ε Unit
  | [] => pure ()
  | i :: is => do
      body i
      forEach body is

/-- A program on a part of the state, which may be missing. -/
def zoom {τ : Type} (get : σ → Except ε τ) (set : τ → σ → σ) (p : Prog τ ε α) : Prog σ ε α :=
  fun s =>
    match get s with
    | .error e => (.failed e, s)
    | .ok t => ((p t).1, set (p t).2 s)

end Prog

open Prog

/-! ### The judgment -/

variable {σ ε α β : Type}

/-- What is left behind: `halt` speaks of the error (`none` when the process was
stopped) and of the state. -/
def Ends (post : α → σ → Prop) (halt : Option ε → σ → Prop) : Exit ε α × σ → Prop
  | (.done a, s) => post a s
  | (.failed e, s) => halt (some e) s
  | (.stopped, s) => halt none s

/-- Every run of `p` from `pre` ends in `post`, or early in `halt`. -/
def Meets (pre : σ → Prop) (p : Prog σ ε α) (post : α → σ → Prop)
    (halt : Option ε → σ → Prop) : Prop :=
  ∀ s, pre s → Ends post halt (p s)

variable {pre pre' : σ → Prop} {p : Prog σ ε α} {k : α → Prog σ ε β} {post post' : α → σ → Prop}
  {postK : β → σ → Prop} {halt halt' : Option ε → σ → Prop}

theorem Ends.mono {r : Exit ε α × σ} (h : Ends post halt r) (hpost : ∀ a s, post a s → post' a s)
    (hhalt : ∀ e s, halt e s → halt' e s) : Ends post' halt' r := by
  obtain ⟨_ | _ | _, s⟩ := r
  · exact hpost _ _ h
  · exact hhalt _ _ h
  · exact hhalt _ _ h

theorem Meets.mono (h : Meets pre p post halt) (hpre : ∀ s, pre' s → pre s)
    (hpost : ∀ a s, post a s → post' a s) (hhalt : ∀ e s, halt e s → halt' e s) :
    Meets pre' p post' halt' :=
  fun s hs => (h s (hpre s hs)).mono hpost hhalt

/-- The state behind a program, however it ended. -/
theorem Meets.behind {inv : σ → Prop} {s : σ} (h : Meets pre p (fun _ => inv) fun _ => inv)
    (hs : pre s) : inv (p s).2 := by
  have hends := h s hs
  rcases hrun : p s with ⟨_ | _ | _, s'⟩
  all_goals
    rw [hrun] at hends
    exact hends

/-- Two judgments of one program. -/
theorem Meets.and (h : Meets pre p post halt) (h' : Meets pre p post' halt') :
    Meets pre p (fun a s => post a s ∧ post' a s) (fun e s => halt e s ∧ halt' e s) := by
  intro s hs
  have hp := h s hs
  have hp' := h' s hs
  rcases hps : p s with ⟨_ | _ | _, s'⟩ <;> rw [hps] at hp hp' <;> exact ⟨hp, hp'⟩

theorem meets_pure {a : α} (h : ∀ s, pre s → post a s) :
    Meets pre (pure a : Prog σ ε α) post halt := h

theorem meets_throw {e : ε} (h : ∀ s, pre s → halt (some e) s) :
    Meets pre (throw e : Prog σ ε α) post halt := h

theorem meets_modify {f : σ → σ} {post : Unit → σ → Prop} (h : ∀ s, pre s → post () (f s)) :
    Meets pre (modify f : Prog σ ε Unit) post halt := h

/-- Sequencing: an early end of either part is an early end of the whole. -/
theorem Meets.bind (h : Meets pre p post halt) (h' : ∀ a, Meets (post a) (k a) postK halt) :
    Meets pre (p >>= k) postK halt := by
  intro s hs
  have hp := h s hs
  change Ends postK halt (match p s with
    | (.done a, s) => k a s
    | (.failed e, s) => (.failed e, s)
    | (.stopped, s) => (.stopped, s))
  rcases hps : p s with ⟨_ | _ | _, s'⟩
  · rw [hps] at hp
    exact h' _ s' hp
  · rw [hps] at hp
    exact hp
  · rw [hps] at hp
    exact hp

/-- A judgment may be made state by state. -/
theorem meets_of_forall (h : ∀ s, pre s → Meets (· = s) p post halt) : Meets pre p post halt :=
  fun s hs => h s hs s rfl

/-- What a program does is what it is seen to do. -/
theorem meets_self (p : Prog σ ε α) (s₀ : σ) :
    Meets (· = s₀) p (fun a s => p s₀ = (.done a, s))
      (fun e s => p s₀ = (match e with | some e => .failed e | none => .stopped, s)) := by
  rintro s rfl
  rcases p s with ⟨_ | _ | _, s'⟩
  all_goals exact rfl

/-- A read is resolved state by state. -/
theorem meets_read {k : σ → Prog σ ε β}
    (h : ∀ s, pre s → Meets (· = s) (k s) postK halt) : Meets pre (read >>= k) postK halt :=
  fun s hs => h s hs s rfl

/-- An operation: its effect on success, its state kept on an early end. -/
theorem meets_op {o : Outcome ε} {effect : σ → σ} {post : Unit → σ → Prop}
    (hok : o = .ok → ∀ s, pre s → post () (effect s))
    (hfail : ∀ e, o = .fail e → ∀ s, pre s → halt (some e) s)
    (hstop : o = .stop → ∀ s, pre s → halt none s) : Meets pre (op o effect) post halt := by
  intro s hs
  cases o with
  | ok => exact hok rfl s hs
  | fail e => exact hfail e rfl s hs
  | stop => exact hstop rfl s hs

theorem meets_tornOp {o : Outcome ε} {effect part : σ → σ} {post : Unit → σ → Prop}
    (hok : o = .ok → ∀ s, pre s → post () (effect s))
    (hfail : ∀ e, o = .fail e → ∀ s, pre s → halt (some e) (part s))
    (hstop : o = .stop → ∀ s, pre s → halt none (part s)) :
    Meets pre (tornOp o effect part) post halt := by
  intro s hs
  cases o with
  | ok => exact hok rfl s hs
  | fail e => exact hfail e rfl s hs
  | stop => exact hstop rfl s hs

/-- A caught error is an ordinary result; only a stop still ends early. -/
theorem Meets.attempt (h : Meets pre p post halt) :
    Meets pre p.attempt
      (fun r s => match r with | .ok a => post a s | .error e => halt (some e) s)
      (fun e s => e = none ∧ halt none s) := by
  intro s hs
  have hp := h s hs
  unfold Prog.attempt
  rcases hps : p s with ⟨_ | _ | _, s'⟩
  all_goals rw [hps] at hp
  · exact hp
  · exact hp
  · exact ⟨rfl, hp⟩

/-- A result that is not there yet ends the program. -/
theorem meets_lift {r : Except ε α} (hok : ∀ a, r = .ok a → ∀ s, pre s → post a s)
    (herror : ∀ e, r = .error e → ∀ s, pre s → halt (some e) s) :
    Meets pre (Prog.lift r : Prog σ ε α) post halt := by
  intro s hs
  cases r with
  | ok a => exact hok a rfl s hs
  | error e => exact herror e rfl s hs

theorem meets_call {f : σ → Except ε (α × σ)} {s₀ : σ}
    (hok : ∀ a s, f s₀ = .ok (a, s) → post a s) (herror : ∀ e, f s₀ = .error e → halt (some e) s₀) :
    Meets (· = s₀) (Prog.call f) post halt := by
  rintro s rfl
  unfold Prog.call
  cases hf : f s with
  | ok r => exact hok r.1 r.2 hf
  | error e => exact herror e hf

/-- A call whose result and state are made of what a function returns. -/
theorem meets_call_map {β : Type} {f : σ → Except ε β} {g : σ → β → α × σ} {s₀ : σ}
    (hok : ∀ b, f s₀ = .ok b → post (g s₀ b).1 (g s₀ b).2)
    (herror : ∀ e, f s₀ = .error e → halt (some e) s₀) :
    Meets (· = s₀) (Prog.call fun s => (f s).map (g s)) post halt := by
  refine meets_call (fun a s h => ?_) fun e h => ?_
  · obtain ⟨b, hb, heq⟩ := map_ok h
    have hpost := hok b hb
    rwa [heq] at hpost
  · cases hf : f s₀ with
    | error e' =>
        rw [hf] at h
        cases h
        exact herror e hf
    | ok b =>
        rw [hf] at h
        cases h

/-- A program on a part that is there changes that part alone. -/
theorem meets_zoom {τ : Type} {get : σ → Except ε τ} {set : τ → σ → σ} {q : Prog τ ε α} {s₀ : σ}
    {t : τ} {post : α → τ → Prop} {halt : Option ε → τ → Prop} (hget : get s₀ = .ok t)
    (h : Meets (· = t) q post halt) :
    Meets (· = s₀) (Prog.zoom get set q) (fun a s => ∃ t', post a t' ∧ s = set t' s₀)
      (fun e s => ∃ t', halt e t' ∧ s = set t' s₀) := by
  rintro s rfl
  have hends := h t rfl
  unfold Prog.zoom
  rw [hget]
  dsimp only
  rcases hq : q t with ⟨_ | _ | _, t'⟩ <;> rw [hq] at hends <;> exact ⟨t', hends, rfl⟩

theorem meets_zoom_missing {τ : Type} {get : σ → Except ε τ} {set : τ → σ → σ} {q : Prog τ ε α}
    {s₀ : σ} {e : ε} (hget : get s₀ = .error e) :
    Meets (· = s₀) (Prog.zoom get set q) (fun _ _ => False) fun e' s => e'.isSome ∧ s = s₀ := by
  rintro s rfl
  unfold Prog.zoom
  rw [hget]
  exact ⟨rfl, rfl⟩

theorem Meets.mapErr {ε' : Type} {f : ε → ε'} {halt' : Option ε' → σ → Prop}
    (h : Meets pre p post halt) (hhalt : ∀ e s, halt e s → halt' (e.map f) s) :
    Meets pre (p.mapErr f) post halt' := by
  intro s hs
  have hp := h s hs
  unfold Prog.mapErr
  rcases hps : p s with ⟨_ | _ | _, s'⟩
  all_goals rw [hps] at hp
  · exact hp
  · exact hhalt _ _ hp
  · exact hhalt _ _ hp

/-- An error that is only known to be one. -/
theorem Meets.mapErr_isSome {ε' : Type} (f : ε → ε') {kept : σ → Prop}
    (h : Meets pre p post fun e s => e.isSome ∧ kept s) :
    Meets pre (p.mapErr f) post fun e _ => e.isSome :=
  h.mapErr fun e _ he => by simpa using he.1

/-- A result that is not there yet, and the state as it was. -/
theorem meets_lift_self (s : σ) (r : Except ε α) :
    Meets (· = s) (Prog.lift r) (fun a s' => r = .ok a ∧ s' = s) fun e _ => e.isSome :=
  meets_lift (fun _ ha _ hs => ⟨ha, hs⟩) fun _ _ _ _ => rfl

/-- A loop keeps what each pass keeps; the invariant may speak of the passes left. -/
theorem meets_forEach {ι : Type} {body : ι → Prog σ ε Unit} (inv : List ι → σ → Prop)
    (h : ∀ i is, Meets (inv (i :: is)) (body i) (fun _ => inv is) halt) (is : List ι) :
    Meets (inv is) (Prog.forEach body is) (fun _ => inv []) halt := by
  induction is with
  | nil => exact meets_pure fun _ hs => hs
  | cons i is ih => exact (h i is).bind fun _ => ih

/-- A condition that does not depend on the state. -/
theorem Meets.of_imp {c : Prop} (h : c → Meets pre p post halt) :
    Meets (fun s => c ∧ pre s) p post halt :=
  fun s hs => h hs.1 s hs.2

theorem Meets.of_exists {ι : Type} {pre : ι → σ → Prop} (h : ∀ i, Meets (pre i) p post halt) :
    Meets (fun s => ∃ i, pre i s) p post halt :=
  fun s ⟨i, hs⟩ => h i s hs

/-! ### Invariants of programs -/

/-- The program is not stopped, and it keeps the invariant whether it fails or not. -/
def Keeps (inv : σ → Prop) (p : Prog σ ε α) : Prop :=
  Meets inv p (fun _ => inv) fun e s => e.isSome ∧ inv s

section Keeps

variable {inv : σ → Prop}

theorem keeps_pure (a : α) : Keeps inv (pure a : Prog σ ε α) := meets_pure fun _ hs => hs

theorem keeps_throw (e : ε) : Keeps inv (throw e : Prog σ ε α) := meets_throw fun _ hs => ⟨rfl, hs⟩

theorem keeps_lift (r : Except ε α) : Keeps inv (Prog.lift r) :=
  meets_lift (fun _ _ _ hs => hs) fun _ _ _ hs => ⟨rfl, hs⟩

theorem keeps_modify {f : σ → σ} (h : ∀ s, inv s → inv (f s)) :
    Keeps inv (modify f : Prog σ ε Unit) :=
  meets_modify h

/-- A read is resolved state by state, and the state is known to have the invariant. -/
theorem keeps_read {k : σ → Prog σ ε α} (h : ∀ s, inv s → Keeps inv (k s)) :
    Keeps inv (read >>= k) :=
  fun s hs => h s hs s hs

/-- From a state with the invariant. -/
theorem Keeps.at (h : Keeps inv p) {s₀ : σ} (hs : inv s₀) :
    Meets (· = s₀) p (fun _ => inv) fun e s => e.isSome ∧ inv s :=
  Meets.mono h (fun _ heq => heq ▸ hs) (fun _ _ h => h) fun _ _ h => h

theorem Keeps.bind (h : Keeps inv p) (h' : ∀ a, Keeps inv (k a)) : Keeps inv (p >>= k) :=
  Meets.bind h h'

theorem Keeps.mapErr {ε' : Type} (h : Keeps inv p) (f : ε → ε') : Keeps inv (p.mapErr f) :=
  Meets.mapErr h fun e _ hs => ⟨by simpa using hs.1, hs.2⟩

theorem keeps_forEach {ι : Type} {body : ι → Prog σ ε Unit} (h : ∀ i, Keeps inv (body i))
    (is : List ι) : Keeps inv (Prog.forEach body is) :=
  meets_forEach (fun _ => inv) (fun i _ => h i) is

/-- The state behind a program that ended in any way. -/
theorem Keeps.behind (h : Keeps inv p) {s s' : σ} {r : Exit ε α} (hs : inv s)
    (hrun : p s = (r, s')) : inv s' := by
  have hends := h s hs
  rw [hrun] at hends
  cases r with
  | done a => exact hends
  | failed e => exact hends.2
  | stopped => exact hends.2

end Keeps

/-- The program keeps the invariant however it ends, a stop included. -/
def Leaves (inv : σ → Prop) (p : Prog σ ε α) : Prop := Meets inv p (fun _ => inv) fun _ => inv

section Leaves

variable {inv : σ → Prop}

theorem leaves_pure (a : α) : Leaves inv (pure a : Prog σ ε α) := meets_pure fun _ hs => hs

theorem leaves_throw (e : ε) : Leaves inv (throw e : Prog σ ε α) := meets_throw fun _ hs => hs

theorem leaves_modify {f : σ → σ} (h : ∀ s, inv s → inv (f s)) :
    Leaves inv (modify f : Prog σ ε Unit) :=
  meets_modify h

theorem Leaves.bind (h : Leaves inv p) (h' : ∀ a, Leaves inv (k a)) : Leaves inv (p >>= k) :=
  Meets.bind h h'

theorem Leaves.attempt (h : Leaves inv p) : Leaves inv p.attempt := by
  refine (Meets.attempt h).mono (fun _ hs => hs) (fun r s hs => ?_) fun _ _ hs => hs.2
  cases r with
  | ok a => exact hs
  | error e => exact hs

end Leaves

end Faults
