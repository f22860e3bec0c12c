import Mathlib.Data.List.Basic
import Mathlib.Data.List.Induction
import Mathlib.Logic.Relation

/-!
Programs that call out to handlers, which may call back.

A program changes a state, asks its environment and hands control to handlers. While it waits
they call procedures of the same system, which may call out in turn. What a program may rely on
when it gets control back is an invariant that holds whenever handlers run, and a relation that
every procedure guarantees between its start and its end.
-/

namespace Callbacks

/-- A program over a state `σ`, with handlers that answer `ρ`. -/
inductive Prog (σ ρ α : Type) : Type 1
  | ret (a : α)
  /-- Changes the state; the rest is given the state before. -/
  | step (f : σ → σ) (k : σ → Prog σ ρ α)
  /-- The environment answers. -/
  | ask (ι : Type) (k : ι → Prog σ ρ α)
  /-- Hands control to handlers, until they answer. -/
  | call (k : ρ → Prog σ ρ α)

namespace Prog

variable {σ ρ α β : Type}

protected def bind : Prog σ ρ α → (α → Prog σ ρ β) → Prog σ ρ β
  | ret a, g => g a
  | step f k, g => step f fun s => (k s).bind g
  | ask ι k, g => ask ι fun x => (k x).bind g
  | call k, g => call fun r => (k r).bind g

instance : Monad (Prog σ ρ) where
  pure := ret
  bind := Prog.bind

/-- The state as it is. -/
def read : Prog σ ρ σ := step id ret

def modify (f : σ → σ) : Prog σ ρ Unit := step f fun _ => ret ()

/-- The state as it is, and what becomes of it. -/
def modifyRead (f : σ → σ) : Prog σ ρ σ := step f ret

def choose (ι : Type) : Prog σ ρ ι := ask ι ret

def callOut : Prog σ ρ ρ := call ret

/-- One pass for each element, in order. -/
def forEach {ι : Type} (body : ι → Prog σ ρ Unit) : List ι → Prog σ ρ Unit
  | [] => ret ()
  | i :: is => (body i).bind fun _ => forEach body is

end Prog

/-! ### Systems -/

/-- A waiting or running program on the stack; a program may end in a further procedure. -/
inductive Frame (σ ρ P : Type) : Type 1
  | running (p : Prog σ ρ (Option P))
  | waiting (k : ρ → Prog σ ρ (Option P))

/-- What each procedure does, which of them handlers may call, and which of them start from
outside only. -/
structure System (σ ρ P : Type) where
  body : P → Prog σ ρ (Option P)
  api : P → Prop
  main : P → Prop

/-- The state and the stack, innermost program first. -/
structure Config (σ ρ P : Type) : Type 1 where
  state : σ
  stack : List (Frame σ ρ P)

section System

variable {σ ρ P : Type}

/-- The steps of a system. With nothing on the stack a procedure starts from outside. -/
inductive Step (sys : System σ ρ P) : Config σ ρ P → Config σ ρ P → Prop
  | step {s : σ} {f : σ → σ} {k : σ → Prog σ ρ (Option P)} {stack : List (Frame σ ρ P)} :
      Step sys ⟨s, .running (.step f k) :: stack⟩ ⟨f s, .running (k s) :: stack⟩
  | ask {s : σ} {ι : Type} {k : ι → Prog σ ρ (Option P)} {stack : List (Frame σ ρ P)} (x : ι) :
      Step sys ⟨s, .running (.ask ι k) :: stack⟩ ⟨s, .running (k x) :: stack⟩
  | call {s : σ} {k : ρ → Prog σ ρ (Option P)} {stack : List (Frame σ ρ P)} :
      Step sys ⟨s, .running (.call k) :: stack⟩ ⟨s, .waiting k :: stack⟩
  /-- The handlers call a procedure. -/
  | enter {s : σ} {k : ρ → Prog σ ρ (Option P)} {stack : List (Frame σ ρ P)} {p : P}
      (hp : sys.api p) :
      Step sys ⟨s, .waiting k :: stack⟩ ⟨s, .running (sys.body p) :: .waiting k :: stack⟩
  /-- The handlers are through. -/
  | resume {s : σ} {k : ρ → Prog σ ρ (Option P)} {stack : List (Frame σ ρ P)} (r : ρ) :
      Step sys ⟨s, .waiting k :: stack⟩ ⟨s, .running (k r) :: stack⟩
  | leave {s : σ} {stack : List (Frame σ ρ P)} :
      Step sys ⟨s, .running (.ret none) :: stack⟩ ⟨s, stack⟩
  | next {s : σ} {p : P} {stack : List (Frame σ ρ P)} :
      Step sys ⟨s, .running (.ret (some p)) :: stack⟩ ⟨s, .running (sys.body p) :: stack⟩
  | start {s : σ} {p : P} (hp : sys.api p ∨ sys.main p) :
      Step sys ⟨s, []⟩ ⟨s, [.running (sys.body p)]⟩

/-- What is reached from a state with nothing on the stack. -/
def Reaches (sys : System σ ρ P) (start : σ) (c : Config σ ρ P) : Prop :=
  Relation.ReflTransGen (Step sys) ⟨start, []⟩ c

/-- Handlers or the outside have control. -/
def Config.Open (c : Config σ ρ P) : Prop :=
  ∀ p stack, c.stack ≠ .running p :: stack

/-! ### Runs, one program after another -/

/-- A program up to where it asks, calls out or ends, and the state there. -/
def Prog.onward {α : Type} : Prog σ ρ α → σ → σ × Prog σ ρ α
  | .step f k, s => (k s).onward (f s)
  | p, s => (s, p)

/-- A program on top of a stack, as far as it goes by itself. -/
def Prog.onStack (p : Prog σ ρ (Option P)) (s : σ) (stack : List (Frame σ ρ P)) :
    Config σ ρ P :=
  match p.onward s with
  | (s', .call k) => ⟨s', .waiting k :: stack⟩
  | (s', p') => ⟨s', .running p' :: stack⟩

theorem steps_onStack {sys : System σ ρ P} (p : Prog σ ρ (Option P)) (s : σ)
    (stack : List (Frame σ ρ P)) :
    Relation.ReflTransGen (Step sys) ⟨s, .running p :: stack⟩ (p.onStack s stack) := by
  induction p generalizing s with
  | ret a => exact .refl
  | ask ι k => exact .refl
  | call k => exact .single .call
  | step f k ih => exact .head .step (ih s (f s))

section Onward

variable {sys : System σ ρ P} {s : σ} {p : P} {stack : List (Frame σ ρ P)} {c : Config σ ρ P}

/-- A procedure starts from outside, and goes on by itself. -/
theorem steps_start (hp : sys.api p ∨ sys.main p)
    (h : Relation.ReflTransGen (Step sys) ((sys.body p).onStack s []) c) :
    Relation.ReflTransGen (Step sys) ⟨s, []⟩ c :=
  .head (.start hp) ((steps_onStack _ _ _).trans h)

/-- Handlers call a procedure. -/
theorem steps_enter {k : ρ → Prog σ ρ (Option P)} (hp : sys.api p)
    (h : Relation.ReflTransGen (Step sys)
      ((sys.body p).onStack s (.waiting k :: stack)) c) :
    Relation.ReflTransGen (Step sys) ⟨s, .waiting k :: stack⟩ c :=
  .head (.enter hp) ((steps_onStack _ _ _).trans h)

/-- Handlers are through. -/
theorem steps_resume {k : ρ → Prog σ ρ (Option P)} (r : ρ)
    (h : Relation.ReflTransGen (Step sys) ((k r).onStack s stack) c) :
    Relation.ReflTransGen (Step sys) ⟨s, .waiting k :: stack⟩ c :=
  .head (.resume r) ((steps_onStack _ _ _).trans h)

/-- The environment answers. -/
theorem steps_answer {ι : Type} {k : ι → Prog σ ρ (Option P)} (x : ι)
    (h : Relation.ReflTransGen (Step sys) ((k x).onStack s stack) c) :
    Relation.ReflTransGen (Step sys) ⟨s, .running (.ask ι k) :: stack⟩ c :=
  .head (.ask x) ((steps_onStack _ _ _).trans h)

/-- A program goes on in a further procedure. -/
theorem steps_next
    (h : Relation.ReflTransGen (Step sys) ((sys.body p).onStack s stack) c) :
    Relation.ReflTransGen (Step sys) ⟨s, .running (.ret (some p)) :: stack⟩ c :=
  .head .next ((steps_onStack _ _ _).trans h)

/-- A program ends. -/
theorem steps_leave (h : Relation.ReflTransGen (Step sys) ⟨s, stack⟩ c) :
    Relation.ReflTransGen (Step sys) ⟨s, .running (.ret none) :: stack⟩ c :=
  .head .leave h

end Onward

/-! ### The rules -/

/-- What is said of all states (`always`), of those in which handlers have control
(`invariant`), and of the states at the two ends of a procedure (`during`). -/
structure Contract (σ : Type) where
  always : σ → Prop
  invariant : σ → Prop
  during : σ → σ → Prop
  refl : ∀ s, during s s
  trans : ∀ {s s' s''}, during s s' → during s' s'' → during s s''

variable {α β : Type} {con : Contract σ}

/-- Every run of the program from `s` ends in `post`, if handlers keep the contract. -/
def Safe (con : Contract σ) : Prog σ ρ α → (α → σ → Prop) → σ → Prop
  | .ret a, post, s => con.always s ∧ post a s
  | .step f k, post, s => con.always s ∧ Safe con (k s) post (f s)
  | .ask _ k, post, s => con.always s ∧ ∀ x, Safe con (k x) post s
  | .call k, post, s => con.always s ∧ con.invariant s ∧
      ∀ s' r, con.always s' → con.invariant s' → con.during s s' → Safe con (k r) post s'

theorem Safe.always {p : Prog σ ρ α} {post : α → σ → Prop} {s : σ} (h : Safe con p post s) :
    con.always s := by
  cases p with
  | ret a => exact h.1
  | step f k => exact h.1
  | ask ι k => exact h.1
  | call k => exact h.1

theorem Safe.mono {p : Prog σ ρ α} {post post' : α → σ → Prop} {s : σ} (h : Safe con p post s)
    (hpost : ∀ a s', con.always s' → post a s' → post' a s') : Safe con p post' s := by
  induction p generalizing s with
  | ret a => exact ⟨h.1, hpost a s h.1 h.2⟩
  | step f k ih => exact ⟨h.1, ih s h.2⟩
  | ask ι k ih => exact ⟨h.1, fun x => ih x (h.2 x)⟩
  | call k ih =>
      exact ⟨h.1, h.2.1, fun s' r halways hinv hduring => ih r (h.2.2 s' r halways hinv hduring)⟩

theorem Safe.bind {p : Prog σ ρ α} {k : α → Prog σ ρ β} {post : β → σ → Prop} {s : σ}
    (h : Safe con p (fun a s' => Safe con (k a) post s') s) : Safe con (p >>= k) post s := by
  change Safe con (p.bind k) post s
  induction p generalizing s with
  | ret a => exact h.2
  | step f k' ih => exact ⟨h.1, ih s h.2⟩
  | ask ι k' ih => exact ⟨h.1, fun x => ih x (h.2 x)⟩
  | call k' ih =>
      exact ⟨h.1, h.2.1, fun s' r halways hinv hduring => ih r (h.2.2 s' r halways hinv hduring)⟩

/-- Sequencing, with what holds in between. -/
theorem Safe.seq {p : Prog σ ρ α} {k : α → Prog σ ρ β} {mid : α → σ → Prop} {post : β → σ → Prop}
    {s : σ} (h : Safe con p mid s)
    (hk : ∀ a s', con.always s' → mid a s' → Safe con (k a) post s') :
    Safe con (p >>= k) post s :=
  (h.mono hk).bind

theorem Safe.pure {a : α} {post : α → σ → Prop} {s : σ} (halways : con.always s)
    (h : post a s) : Safe con (pure a : Prog σ ρ α) post s := ⟨halways, h⟩

/-- A program that ends in a constant ends in it. -/
theorem Safe.returns {p : Prog σ ρ α} {b : β} {post : β → σ → Prop} {s : σ}
    (h : Safe con (p >>= fun _ => Pure.pure b) post s) :
    Safe con (p >>= fun _ => Pure.pure b) (fun b' s' => b' = b ∧ post b' s') s := by
  change Safe con (p.bind fun _ => .ret b) post s at h
  change Safe con (p.bind fun _ => .ret b) _ s
  induction p generalizing s with
  | ret a => exact ⟨h.1, rfl, h.2⟩
  | step f k ih => exact ⟨h.1, ih s h.2⟩
  | ask ι k ih => exact ⟨h.1, fun x => ih x (h.2 x)⟩
  | call k ih =>
      exact ⟨h.1, h.2.1, fun s' r halways hinv hduring => ih r (h.2.2 s' r halways hinv hduring)⟩

section Steps

variable {post : β → σ → Prop} {s : σ}

theorem Safe.read {k : σ → Prog σ ρ β} (h : Safe con (k s) post s) :
    Safe con (Prog.read >>= k) post s := ⟨h.always, h⟩

theorem Safe.modify {f : σ → σ} {k : Unit → Prog σ ρ β} (halways : con.always s)
    (h : Safe con (k ()) post (f s)) : Safe con (Prog.modify f >>= k) post s := ⟨halways, h⟩

theorem Safe.modifyRead {f : σ → σ} {k : σ → Prog σ ρ β} (halways : con.always s)
    (h : Safe con (k s) post (f s)) : Safe con (Prog.modifyRead f >>= k) post s := ⟨halways, h⟩

theorem Safe.choose {ι : Type} {k : ι → Prog σ ρ β} (halways : con.always s)
    (h : ∀ x, Safe con (k x) post s) : Safe con (Prog.choose ι >>= k) post s := ⟨halways, h⟩

/-- Handlers run: the invariant holds before, and what they leave is all that is known. -/
theorem Safe.callOut {k : ρ → Prog σ ρ β} (halways : con.always s) (hinv : con.invariant s)
    (h : ∀ s' r, con.always s' → con.invariant s' → con.during s s' → Safe con (k r) post s') :
    Safe con (Prog.callOut >>= k) post s :=
  ⟨halways, hinv, h⟩

end Steps

/-- A loop, with what holds before the passes that are left. -/
theorem Safe.forEach {ι : Type} {body : ι → Prog σ ρ Unit} {inv : List ι → σ → Prop}
    (hbody : ∀ i is s, con.always s → inv (i :: is) s →
      Safe con (body i) (fun _ s' => inv is s') s) :
    ∀ (is : List ι) {s : σ}, con.always s → inv is s →
      Safe con (Prog.forEach body is) (fun _ s' => inv [] s') s
  | [], _, halways, h => ⟨halways, h⟩
  | i :: is, s, halways, h =>
      Safe.seq (hbody i is s halways h) fun _ _ halways' h' => Safe.forEach hbody is halways' h'

/-! ### Programs that keep the contract -/

/-- What a program may rely on at `s`, in a run from `s₀`. -/
structure Contract.Held (con : Contract σ) (s₀ s : σ) : Prop where
  always : con.always s
  invariant : con.invariant s
  during : con.during s₀ s

theorem Contract.Held.refl {s : σ} (halways : con.always s) (hinv : con.invariant s) :
    con.Held s s := ⟨halways, hinv, con.refl s⟩

theorem Contract.Held.trans {s₀ s s' : σ} (h : con.Held s₀ s) (h' : con.Held s s') :
    con.Held s₀ s' := ⟨h'.always, h'.invariant, con.trans h.during h'.during⟩

/-- From `s`, in a run from `s₀`, the program ends within the contract. -/
def Kept (con : Contract σ) (s₀ : σ) (p : Prog σ ρ α) (s : σ) : Prop :=
  Safe con p (fun _ s' => con.invariant s' ∧ con.during s₀ s') s

section Kept

variable {s₀ s : σ}

theorem Kept.pure {a : α} (h : con.Held s₀ s) : Kept con s₀ (pure a : Prog σ ρ α) s :=
  ⟨h.always, h.invariant, h.during⟩

theorem Kept.bind {p : Prog σ ρ α} {k : α → Prog σ ρ β} (hp : Kept con s₀ p s)
    (hk : ∀ a s', con.Held s₀ s' → Kept con s₀ (k a) s') : Kept con s₀ (p >>= k) s :=
  Safe.seq hp fun a s' halways h => hk a s' ⟨halways, h.1, h.2⟩

theorem Kept.read {k : σ → Prog σ ρ β} (h : Kept con s₀ (k s) s) :
    Kept con s₀ (Prog.read >>= k) s := Safe.read h

theorem Kept.modify {f : σ → σ} {k : Unit → Prog σ ρ β} (halways : con.always s)
    (h : Kept con s₀ (k ()) (f s)) : Kept con s₀ (Prog.modify f >>= k) s :=
  Safe.modify halways h

theorem Kept.modifyRead {f : σ → σ} {k : σ → Prog σ ρ β} (halways : con.always s)
    (h : Kept con s₀ (k s) (f s)) : Kept con s₀ (Prog.modifyRead f >>= k) s :=
  Safe.modifyRead halways h

theorem Kept.choose {ι : Type} {k : ι → Prog σ ρ β} (halways : con.always s)
    (h : ∀ x, Kept con s₀ (k x) s) : Kept con s₀ (Prog.choose ι >>= k) s :=
  Safe.choose halways h

theorem Kept.callOut {k : ρ → Prog σ ρ β} (hs : con.Held s₀ s)
    (h : ∀ r s', con.Held s₀ s' → Kept con s₀ (k r) s') :
    Kept con s₀ (Prog.callOut >>= k) s :=
  Safe.callOut hs.always hs.invariant fun s' r halways hinv hduring =>
    h r s' (hs.trans ⟨halways, hinv, hduring⟩)

/-- A change that ends the program. -/
theorem Kept.last {f : σ → σ} (halways : con.always s) (h : con.Held s₀ (f s)) :
    Kept con s₀ (Prog.modify f : Prog σ ρ Unit) s :=
  ⟨halways, h.always, h.invariant, h.during⟩

/-- What is kept from where the program starts is kept from further back. -/
theorem Kept.later {p : Prog σ ρ α} (h : con.Held s₀ s) (hp : Kept con s p s) :
    Kept con s₀ p s :=
  hp.mono fun _ _ _ hs' => ⟨hs'.1, con.trans h.during hs'.2⟩

/-- A program with a result that nothing depends on. -/
theorem Kept.done {p : Prog σ ρ α} {b : β} (h : Kept con s₀ p s) :
    Kept con s₀ (p >>= fun _ => Pure.pure b) s :=
  h.bind fun _ _ => .pure

end Kept

/-! ### Programs whose every step is of one kind -/

/-- Every step of the program, from any state, is in the relation. -/
def Prog.Within (R : σ → σ → Prop) : Prog σ ρ α → Prop
  | .ret _ => True
  | .step f k => (∀ s, R s (f s)) ∧ ∀ s, (k s).Within R
  | .ask _ k => ∀ x, (k x).Within R
  | .call k => ∀ r, (k r).Within R

namespace Prog

variable {R : σ → σ → Prop}

theorem within_bind {p : Prog σ ρ α} {k : α → Prog σ ρ β} (hp : p.Within R)
    (hk : ∀ a, (k a).Within R) : (p >>= k).Within R := by
  change (p.bind k).Within R
  induction p with
  | ret a => exact hk a
  | step f k' ih => exact ⟨hp.1, fun s => ih s (hp.2 s)⟩
  | ask ι k' ih => exact fun x => ih x (hp x)
  | call k' ih => exact fun r => ih r (hp r)

theorem within_pure {a : α} : (pure a : Prog σ ρ α).Within R := trivial

theorem within_read (hrefl : ∀ s, R s s) : (read : Prog σ ρ σ).Within R :=
  ⟨hrefl, fun _ => trivial⟩

theorem within_modify {f : σ → σ} (h : ∀ s, R s (f s)) : (modify f : Prog σ ρ Unit).Within R :=
  ⟨h, fun _ => trivial⟩

theorem within_modifyRead {f : σ → σ} (h : ∀ s, R s (f s)) :
    (modifyRead f : Prog σ ρ σ).Within R :=
  ⟨h, fun _ => trivial⟩

theorem within_choose {ι : Type} : (choose ι : Prog σ ρ ι).Within R := fun _ => trivial

theorem within_callOut : (callOut : Prog σ ρ ρ).Within R := fun _ => trivial

theorem within_forEach {ι : Type} {body : ι → Prog σ ρ Unit} (h : ∀ i, (body i).Within R)
    (is : List ι) : (forEach body is).Within R := by
  induction is with
  | nil => trivial
  | cons i is ih => exact within_bind (h i) fun _ => ih

end Prog

theorem Prog.Within.mono {R R' : σ → σ → Prop} {p : Prog σ ρ α} (hp : p.Within R)
    (h : ∀ s s', R s s' → R' s s') : p.Within R' := by
  induction p with
  | ret a => trivial
  | step f k ih => exact ⟨fun s => h s (f s) (hp.1 s), fun s => ih s (hp.2 s)⟩
  | ask ι k ih => exact fun x => ih x (hp x)
  | call k ih => exact fun r => ih r (hp r)

/-- The program never hands control to handlers. -/
def Prog.Silent : Prog σ ρ α → Prop
  | .ret _ => True
  | .step _ k => ∀ s, (k s).Silent
  | .ask _ k => ∀ x, (k x).Silent
  | .call _ => False

/-- A silent program needs no invariant. -/
theorem Prog.Silent.safe {R : σ → σ → Prop} {p : Prog σ ρ α} (hsilent : p.Silent)
    (hp : p.Within R) (hrefl : ∀ s, R s s) (htrans : ∀ s s' s'', R s s' → R s' s'' → R s s'')
    (halways : ∀ s s', R s s' → con.always s → con.always s') {s : σ} (h : con.always s) :
    Safe con p (fun _ s' => R s s') s := by
  suffices hall : ∀ s₀, R s₀ s → Safe con p (fun _ s' => R s₀ s') s from hall s (hrefl s)
  intro s₀ hs₀
  induction p generalizing s with
  | ret a => exact ⟨h, hs₀⟩
  | step f k ih =>
      exact ⟨h, ih s (hsilent s) (hp.2 s) (halways s (f s) (hp.1 s) h)
        (htrans s₀ s (f s) hs₀ (hp.1 s))⟩
  | ask ι k ih => exact ⟨h, fun x => ih x (hsilent x) (hp x) h hs₀⟩
  | call k ih => exact hsilent.elim

/-- Steps that keep the contract are safe wherever they stand. -/
theorem Prog.Within.kept {R : σ → σ → Prop} {p : Prog σ ρ α} (hp : p.Within R)
    (hR : ∀ s s', R s s' → con.always s → con.invariant s → con.Held s s') {s₀ s : σ}
    (h : con.Held s₀ s) : Kept con s₀ p s := by
  induction p generalizing s with
  | ret a => exact .pure h
  | step f k ih =>
      exact ⟨h.always, ih s (hp.2 s) (h.trans (hR s (f s) (hp.1 s) h.always h.invariant))⟩
  | ask ι k ih => exact ⟨h.always, fun x => ih x (hp x) h⟩
  | call k ih =>
      exact ⟨h.always, h.invariant, fun s' r halways hinv hduring =>
        ih r (hp r) (h.trans ⟨halways, hinv, hduring⟩)⟩

/-! ### Runs -/

section Runs

variable {sys : System σ ρ P} {rest : σ → Prop} {pre : P → σ → Prop}

/-- The programs that wait may go on once control is back, whatever has been done since `s`; with
none waiting the state is at rest. Only an outermost program goes on in a further procedure. -/
def Ready (con : Contract σ) (rest : σ → Prop) (pre : P → σ → Prop) :
    List (Frame σ ρ P) → σ → Prop
  | [], s => rest s
  | .running _ :: _, _ => False
  | .waiting k :: stack, s => ∀ s' r, con.always s' → con.invariant s' → con.during s s' →
      Safe con (k r) (fun o s'' => o.elim (con.invariant s'' ∧ Ready con rest pre stack s'')
        fun p => stack = [] ∧ pre p s'') s'

/-- How the program on top of a stack may end. -/
def Settles (con : Contract σ) (rest : σ → Prop) (pre : P → σ → Prop)
    (stack : List (Frame σ ρ P)) (o : Option P) (s : σ) : Prop :=
  o.elim (con.invariant s ∧ Ready con rest pre stack s) fun p => stack = [] ∧ pre p s

theorem Ready.later (hrest : ∀ s s', rest s → con.during s s' → rest s')
    {stack : List (Frame σ ρ P)} {s s' : σ} (h : Ready con rest pre stack s)
    (hduring : con.during s s') : Ready con rest pre stack s' := by
  match stack with
  | [] => exact hrest s s' h hduring
  | .running _ :: _ => exact h.elim
  | .waiting k :: stack =>
      intro s'' r halways hinv hlater
      exact h s'' r halways hinv (con.trans hduring hlater)

/-- What holds of every configuration of a run. -/
def Config.Good (con : Contract σ) (rest : σ → Prop) (pre : P → σ → Prop)
    (c : Config σ ρ P) : Prop :=
  match c.stack with
  | .running p :: stack => Safe con p (Settles con rest pre stack) c.state
  | stack => con.always c.state ∧ con.invariant c.state ∧ Ready con rest pre stack c.state

/-- What is to be shown of a system: a method, which handlers may call, ends within the contract;
a phase, from where it may start, leaves the state at rest, or as the phase behind it may start. -/
structure Keeps (sys : System σ ρ P) (con : Contract σ) (rest : σ → Prop)
    (pre : P → σ → Prop) : Prop where
  rest_later : ∀ s s', rest s → con.during s s' → rest s'
  main : ∀ p s, sys.main p → con.invariant s → rest s → pre p s
  api : ∀ p s, sys.api p → con.always s → con.invariant s →
    Safe con (sys.body p) (fun o s' => o = none ∧ con.invariant s' ∧ con.during s s') s
  phase : ∀ p s, con.always s → pre p s →
    Safe con (sys.body p) (fun o s' => o.elim (con.invariant s' ∧ rest s') fun p => pre p s') s

/-- A method may start wherever the programs that wait are ready. -/
theorem Keeps.entered (h : Keeps sys con rest pre) {p : P} (hp : sys.api p) {s : σ}
    {stack : List (Frame σ ρ P)} (halways : con.always s) (hinv : con.invariant s)
    (hready : Ready con rest pre stack s) :
    Safe con (sys.body p) (Settles con rest pre stack) s := by
  refine (h.api p s hp halways hinv).mono fun o s' _ hends => ?_
  obtain ⟨rfl, hinv', hduring⟩ := hends
  exact ⟨hinv', hready.later h.rest_later hduring⟩

/-- So may a phase, with nothing else on the stack. -/
theorem Keeps.started (h : Keeps sys con rest pre) {p : P} {s : σ} (halways : con.always s)
    (hpre : pre p s) :
    Safe con (sys.body p) (Settles con rest pre ([] : List (Frame σ ρ P))) s := by
  refine (h.phase p s halways hpre).mono fun o s' _ hends => ?_
  cases o with
  | none => exact hends
  | some p => exact ⟨rfl, hends⟩

theorem Keeps.step (h : Keeps sys con rest pre) {c c' : Config σ ρ P} (hgood : c.Good con rest pre)
    (hstep : Step sys c c') : c'.Good con rest pre := by
  -- the contract is due at the calls, at the ends and between the procedures
  cases hstep with
  | step => exact hgood.2
  | ask x => exact hgood.2 x
  | call => exact hgood
  | enter hp => exact h.entered hp hgood.1 hgood.2.1 hgood.2.2
  | resume r => exact hgood.2.2 _ r hgood.1 hgood.2.1 (con.refl _)
  | @leave s stack =>
      obtain ⟨halways, hinv, hready⟩ := hgood
      cases stack with
      | nil => exact ⟨halways, hinv, hready⟩
      | cons frame stack =>
          cases frame with
          | running p => exact hready.elim
          | waiting k => exact ⟨halways, hinv, hready⟩
  | next =>
      obtain ⟨halways, rfl, hpre⟩ := hgood
      exact h.started halways hpre
  | start hp =>
      obtain ⟨halways, hinv, hrest⟩ := hgood
      rcases hp with hp | hp
      · exact h.entered hp halways hinv hrest
      · exact h.started halways (h.main _ _ hp hinv hrest)

/-- **The rule of callbacks.** If every method ends within the contract and every phase leaves
what the phase behind it needs, while handlers keep the contract, then every run keeps it. -/
theorem Keeps.reaches (h : Keeps sys con rest pre) {start : σ} (halways : con.always start)
    (hinv : con.invariant start) (hrest : rest start) {c : Config σ ρ P}
    (hreaches : Reaches sys start c) : c.Good con rest pre := by
  induction hreaches with
  | refl => exact ⟨halways, hinv, hrest⟩
  | tail _ hstep ih => exact h.step ih hstep

theorem Config.Good.always {c : Config σ ρ P} (h : c.Good con rest pre) :
    con.always c.state := by
  unfold Config.Good at h
  split at h
  · exact h.always
  · exact h.1

/-- Wherever handlers or the outside have control the invariant holds. -/
theorem Config.Good.invariant {c : Config σ ρ P} (h : c.Good con rest pre) (hopen : c.Open) :
    con.invariant c.state := by
  unfold Config.Good at h
  split at h
  · next p stack hstack => exact absurd hstack (hopen p stack)
  · exact h.2.1

/-- Where a procedure ends with nothing else on the stack. -/
def Config.AtEnd (c : Config σ ρ P) : Prop :=
  c.stack = [] ∨ ∃ o, c.stack = [.running (.ret o)]

/-- At the end of a phase the state is at rest, or as the phase behind it may start. -/
theorem Config.Good.ended {c : Config σ ρ P} (h : c.Good con rest pre) (hend : c.AtEnd) :
    con.invariant c.state ∧ rest c.state ∨ ∃ p, pre p c.state := by
  obtain ⟨s, stack⟩ := c
  rcases hend with rfl | ⟨o, rfl⟩
  · exact .inl h.2
  · obtain ⟨-, hends⟩ := h
    cases o with
    | none => exact .inl hends
    | some p => exact .inr ⟨p, hends.2⟩

end Runs

end System

/-! ### Records -/

section Records

variable {ε : Type} {due : List ε → ε → Prop} {trace events : List ε} {e : ε}

/-- Each entry of a record was due when it was made. -/
def Due (due : List ε → ε → Prop) (trace : List ε) : Prop :=
  ∀ before e after, trace = before ++ e :: after → due before e

theorem Due.nil : Due due [] := by
  intro before e after htrace
  simp at htrace

theorem Due.concat (h : Due due trace) (he : due trace e) : Due due (trace ++ [e]) := by
  intro before e' after htrace
  rcases List.eq_nil_or_concat' after with rfl | ⟨after, last, rfl⟩
  · obtain ⟨rfl, hlast⟩ := List.append_inj' htrace rfl
    obtain rfl : e = e' := by simpa using hlast
    exact he
  · rw [← List.cons_append, ← List.append_assoc] at htrace
    exact h before e' after (List.append_inj' htrace rfl).1

/-- Entries that are due at any time. -/
theorem Due.append (h : Due due trace) (hevents : ∀ before, ∀ e ∈ events, due before e) :
    Due due (trace ++ events) := by
  induction events using List.reverseRecOn with
  | nil => simpa using h
  | append_singleton events e ih =>
      rw [← List.append_assoc]
      exact (ih fun before e' he' => hevents before e' (List.mem_append_left _ he')).concat
        (hevents _ e (by simp))

end Records

end Callbacks
