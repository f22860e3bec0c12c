import BoaIdb.Driver.ExecuteOp

/-!
The moves of the cursors of script, and what an operation does to the cursors.

A cursor reads its rows when it is opened and moves over that list.
-/

namespace BoaIdb.Driver

open Clone Engine Faults OrdMap

/-! ### Moves -/

/-- A row that lies past a position; a unique walk leaves a whole group behind. -/
def past (direction : Direction) (position row : CursorRow) : Bool :=
  let k := row.key.compareKeys position.key
  let pk := row.primaryKey.compareKeys position.primaryKey
  match direction with
  | .next => k == .gt || (k == .eq && pk == .gt)
  | .prev => k == .lt || (k == .eq && pk == .lt)
  | .nextUnique => k == .gt
  | .prevUnique => k == .lt

namespace CursorAction

/-- The moves that script can ask for. -/
def IsMove : CursorAction → Prop
  | .advance n => 0 < n
  | .continue _ | .continuePrimaryKey _ _ => True
  | .update _ | .delete => False

/-- Where a move leads, of the rows past the position. -/
def landing (direction : Direction) (ahead : List CursorRow) : CursorAction → Option CursorRow
  | .advance n => ahead[n - 1]?
  | .continue none => ahead.head?
  | .continue (some target) => ahead.find? fun row =>
      if direction.isPrev then row.key.compareKeys target != .gt
      else row.key.compareKeys target != .lt
  | .continuePrimaryKey key primaryKey => ahead.find? fun row =>
      let k := row.key.compareKeys key
      let pk := row.primaryKey.compareKeys primaryKey
      if direction.isPrev then k == .lt || (k == .eq && pk != .gt)
      else k == .gt || (k == .eq && pk != .lt)
  | .update _ | .delete => none

end CursorAction

namespace CursorState

/-- An action changes the position alone, and inside the rows it goes forward. -/
theorem apply_pos (c : CursorState) (action : CursorAction) :
    ∃ pos, c.apply action = { c with pos } ∧ (pos < c.rows.length → c.pos ≤ pos) := by
  have hseek (fits : CursorRow → Bool) :
      ∃ pos, c.seekFrom fits = { c with pos } ∧ (pos < c.rows.length → c.pos ≤ pos) := by
    refine ⟨_, rfl, fun h => ?_⟩
    rcases min_lt_iff.mp h with h | h
    · rw [min_eq_left h.le]
      omega
    · exact absurd h (lt_irrefl _)
  cases action with
  | advance n => exact ⟨c.pos + n, rfl, fun _ => Nat.le_add_right _ _⟩
  | «continue» target =>
      cases target with
      | none => exact ⟨c.pos + 1, rfl, fun _ => Nat.le_succ _⟩
      | some target =>
          unfold apply
          cases c.direction.isPrev with
          | true => exact hseek _
          | false => exact hseek _
  | continuePrimaryKey key primaryKey => exact hseek _
  | update value => exact ⟨c.pos, rfl, fun _ => le_rfl⟩
  | delete => exact ⟨c.pos, rfl, fun _ => le_rfl⟩

/-- The move lands on the row that is due among what the source holds. -/
def Lands (c : CursorState) (live : List CursorRow) (action : CursorAction) : Prop :=
  ∀ r, c.current = some r →
    (c.apply action).current = action.landing c.direction (live.filter (past c.direction r))

/-- Now and behind further moves, every move lands on the row that is due. -/
def Live (c : CursorState) (live : List CursorRow) : Prop :=
  ∀ pos, c.pos ≤ pos → ∀ action : CursorAction, action.IsMove → { c with pos }.Lands live action

/-- Each row of the list, from the current one on, is followed by what the source holds past it. -/
def Follows (c : CursorState) (live : List CursorRow) : Prop :=
  ∀ pos r, c.pos ≤ pos → c.rows[pos]? = some r →
    c.rows.drop (pos + 1) = live.filter (past c.direction r)

/-- The rows that follow are the same from a later position on. -/
theorem Follows.apply {c : CursorState} {live : List CursorRow} (h : c.Follows live)
    (action : CursorAction) : (c.apply action).Follows live := by
  obtain ⟨start, heq, hle⟩ := c.apply_pos action
  rw [heq]
  intro pos r hpos hr
  have hlt : pos < c.rows.length := (List.getElem?_eq_some_iff.mp hr).1
  exact h pos r ((hle (hpos.trans_lt hlt)).trans hpos) hr

end CursorState

/-! ### What an operation does to the cursors -/

/-- The cursors of a transaction, and the next id. -/
def OpState.cursorPart {σ : Type} (s : OpState σ) : OrderedMap ℕ CursorState × ℕ :=
  (s.cursors, s.nextCursorId)

section Frame

variable {σ : Type} {env : CodecEnv} {limits : LimitConfig} {α : Type}

/-- A program leaves the cursors alone. -/
def LeavesCursors (p : Prog (OpState σ) IdbError α) : Prop :=
  ∀ inv : OrderedMap ℕ CursorState × ℕ → Prop, Leaves (fun s => inv s.cursorPart) p

theorem LeavesCursors.bind {β : Type} {p : Prog (OpState σ) IdbError α}
    {k : α → Prog (OpState σ) IdbError β} (h : LeavesCursors p) (h' : ∀ a, LeavesCursors (k a)) :
    LeavesCursors (p >>= k) :=
  fun inv => (h inv).bind fun a => h' a inv

/-- What an operation that succeeds does to the cursors. -/
def CursorEffect (x : OrderedMap ℕ CursorState × ℕ) (requestId : ℕ) (op : PendingOp)
    (result : OpExec) (y : OrderedMap ℕ CursorState × ℕ) : Prop :=
  match op with
  | .openCursor source _ direction keyOnly =>
      result = .cursorOpened x.2 ∧
        ∃ rows, y =
          (x.1.insert x.2 ⟨x.2, requestId, source, direction, keyOnly, rows, 0, false⟩, x.2 + 1)
  | .cursorOp _ (.update _) | .cursorOp _ .delete => y = x
  | .cursorOp id action => ∃ c, x.1.get? id = some c ∧
      result = .cursorContinued id (c.apply action).reachedEnd ∧
      y = (x.1.insert id (c.apply action), x.2)
  | _ => y = x

/-- An operation that fails changes no cursor; an id may have been taken for one. -/
def CursorsKept (x y : OrderedMap ℕ CursorState × ℕ) : Prop := y.1 = x.1 ∧ x.2 ≤ y.2

theorem LeavesCursors.meets {x : OrderedMap ℕ CursorState × ℕ} {p : Prog (OpState σ) IdbError α}
    (h : LeavesCursors p) : Meets (fun s => s.cursorPart = x) p (fun _ s => s.cursorPart = x)
      fun _ s => CursorsKept x s.cursorPart := by
  refine (h fun y => y = x).mono (fun _ h => h) (fun _ _ h => h) ?_
  rintro _ s rfl
  exact ⟨rfl, le_rfl⟩

variable [BackendTxn σ]

/-- What a request can do to the cursors. -/
theorem CursorEffect.cases {x y : OrderedMap ℕ CursorState × ℕ} {requestId : ℕ} {op : PendingOp}
    {result : OpExec} (h : CursorEffect x requestId op result y) :
    y = x ∨ (∃ c, y = (x.1.insert x.2 c, x.2 + 1)) ∨
      ∃ id c action, x.1.get? id = some c ∧ y = (x.1.insert id (c.apply action), x.2) := by
  cases op with
  | openCursor source range direction keyOnly =>
      obtain ⟨-, rows, hy⟩ := h
      exact .inr (.inl ⟨_, hy⟩)
  | cursorOp id action =>
      cases action with
      | update value => exact .inl h
      | delete => exact .inl h
      | advance n | «continue» key | continuePrimaryKey key primaryKey =>
          obtain ⟨c, hc, -, hy⟩ := h
          exact .inr (.inr ⟨id, c, _, hc, hy⟩)
  | get | count | getKey | getAllRecords | put | delete | clear => exact .inl h
  | getAll => exact .inl h

end Frame

end BoaIdb.Driver
