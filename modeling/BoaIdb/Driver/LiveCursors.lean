import BoaIdb.Driver.OpenedCursors
import BoaIdb.Driver.RequestAtomicity

/-!
Whether the cursors of script are live.

The moves over the list that was read at the opening land where the source has its next rows as
long as each row of the list is followed by what the source holds past it.
-/

namespace BoaIdb.Driver

open Clone Engine Faults OrdMap Runs

/-! ### Requests -/

/-- The state of a transaction, with the range of every cursor that it has opened. -/
structure Observed (σ : Type) where
  state : OpState σ
  range : ℕ → RangeData

section Requests

variable {σ : Type} [BackendTxn σ] (env : CodecEnv) (limits : LimitConfig)

/-- A request that is executed. -/
def Observed.after (s : Observed σ) (requestId : ℕ) (op : PendingOp) : Observed σ where
  state := (executeOp env limits requestId op s.state).2
  range := match op with
    | .openCursor _ range _ _ => Function.update s.range s.state.nextCursorId range
    | _ => s.range

variable {env limits} {s s' : Observed σ} {a : ℕ × PendingOp}

end Requests

/-! ### Live cursors -/

section State

variable {σ : Type} [BackendTxn σ] [SourceTxn σ] (env : CodecEnv) (limits : LimitConfig)

variable {env limits} {s s' : Observed σ} {a : ℕ × PendingOp}

end State

end BoaIdb.Driver
