import BoaIdb.Core.KeyDecode
import BoaIdb.Driver.Backfill

/-!
The cursors of script: rows that are read when the cursor is opened, and the moves over them.
-/

namespace BoaIdb.Driver

open Clone Engine Faults

/-- A materialized cursor row. -/
structure CursorRow where
  key : Key
  primaryKey : Key
  /-- `none` for key-only cursors. -/
  value : Option ScValue

/-- A live cursor state. -/
structure CursorState where
  cursorId : ℕ
  /-- The request that opened the cursor. -/
  requestId : ℕ
  source : SourceRef
  direction : Direction
  keyOnly : Bool
  /-- In iteration order. -/
  rows : List CursorRow
  /-- `rows.length` when exhausted. -/
  pos : ℕ
  pending : Bool

inductive CursorAction
  | advance (count : ℕ)
  | continue (key : Option Key)
  | continuePrimaryKey (key primaryKey : Key)
  | update (value : ScValue)
  | delete

namespace CursorState

/-- The current row, if the position is valid. -/
def current (c : CursorState) : Option CursorRow := c.rows[c.pos]?

/-- The first row strictly after the current one that fits, or the end. -/
def seekFrom (c : CursorState) (fits : CursorRow → Bool) : CursorState :=
  let skipped := (c.rows.drop (c.pos + 1)).findIdx fits
  { c with pos := min (c.pos + 1 + skipped) c.rows.length }

/-- `cursor_seek_key_next`. -/
def seekKeyNext (c : CursorState) (target : Key) : CursorState :=
  c.seekFrom fun row => row.key.compareKeys target != .lt

/-- `cursor_seek_key_prev`. -/
def seekKeyPrev (c : CursorState) (target : Key) : CursorState :=
  c.seekFrom fun row => row.key.compareKeys target != .gt

/-- `cursor_seek_key_primary`. -/
def seekKeyPrimary (c : CursorState) (key primary : Key) (isPrev : Bool) : CursorState :=
  c.seekFrom fun row =>
    let k := row.key.compareKeys key
    let pk := row.primaryKey.compareKeys primary
    if isPrev then k == .lt || (k == .eq && pk != .gt) else k == .gt || (k == .eq && pk != .lt)

/-- `apply_cursor_action`; the rows are in the cursor's direction, so every move goes towards
the end of the list. -/
def apply (c : CursorState) : CursorAction → CursorState
  | .advance n => { c with pos := c.pos + n }
  | .continue none => { c with pos := c.pos + 1 }
  | .continue (some target) =>
      if c.direction.isPrev then c.seekKeyPrev target else c.seekKeyNext target
  | .continuePrimaryKey key primaryKey => c.seekKeyPrimary key primaryKey c.direction.isPrev
  | .update _ | .delete => c

/-- Whether the cursor is exhausted behind an action. -/
def reachedEnd (c : CursorState) : Bool := !decide (c.pos < c.rows.length)

end CursorState

/-! ### Reading rows -/

/-- `decode_key(..).map_err(encode_key_err)`, without the number of bytes. -/
def decodeKey (bytes : Bytes) : Except IdbError Key :=
  ((Key.decodeKey bytes).mapError encodeKeyErr).map Prod.fst

/-- `enc_key`. -/
def encKey (limits : LimitConfig) (key : Key) : Except IdbError Bytes :=
  (key.encodeKey limits).mapError encodeKeyErr

/-- `RangeData::to_encoded`, with the driver's error. -/
def encodedRange (limits : LimitConfig) (range : RangeData) : Except IdbError EncodedRange :=
  (range.toEncoded limits).mapError encodeKeyErr

/-- A stored value as it is read. -/
def decodeValue (env : CodecEnv) (limits : LimitConfig) (bytes : Bytes) :
    Except IdbError ScValue :=
  (decodeScf env limits bytes).mapError fun e => IdbError.data ("SCF decode failed: " ++ e.text)

/-- Store id for a source. -/
def storeOf : SourceRef → StoreId
  | .store id => id
  | .index store _ => store

section Reads

variable {σ : Type} [BackendTxn σ] (env : CodecEnv) (limits : LimitConfig)

/-- The bytes of each row as a `CursorRow`, and how many bytes of values there were. -/
def decodeRows (keyOnly : Bool) : List (Bytes × Bytes × Option Bytes) →
    Except IdbError (List CursorRow × ℕ)
  | [] => .ok ([], 0)
  | row :: rows => do
      let key ← decodeKey row.1
      let primaryKey ← decodeKey row.2.1
      let value ← if keyOnly then .ok none else row.2.2.mapM (decodeValue env limits)
      let (rest, read) ← decodeRows keyOnly rows
      .ok (⟨key, primaryKey, value⟩ :: rest,
        (if keyOnly then 0 else (row.2.2.map List.length).getD 0) + read)

variable {env limits} in
theorem decodeRows_cons (keyOnly : Bool) (row : Bytes × Bytes × Option Bytes)
    (rows : List (Bytes × Bytes × Option Bytes)) : decodeRows env limits keyOnly (row :: rows) =
      decodeKey row.1 >>= fun key => decodeKey row.2.1 >>= fun pk =>
        (if keyOnly then .ok none else row.2.2.mapM (decodeValue env limits)) >>= fun value =>
          decodeRows env limits keyOnly rows >>= fun rest =>
            .ok (⟨key, pk, value⟩ :: rest.1,
              (if keyOnly then 0 else (row.2.2.map List.length).getD 0) + rest.2) := by
  rw [decodeRows]
  cases keyOnly <;> rfl

/-- `materialize`. -/
def materialize (source : SourceRef) (range : RangeData) (direction : Direction)
    (keyOnly : Bool) : Prog σ IdbError (List CursorRow × ℕ) := do
  let encoded ← Prog.lift (encodedRange limits range)
  let rows ← (BackendTxn.scanRows source encoded direction keyOnly).mapErr backendErr
  Prog.lift (decodeRows env limits keyOnly rows)

/-- `first_value`: the first primary key, and its record by a lookup. -/
def firstValue (source : SourceRef) (range : RangeData) :
    Prog σ IdbError (Option ScValue × ℕ) := do
  let encoded ← Prog.lift (encodedRange limits range)
  let rows ← (BackendTxn.scanRows source encoded .next true).mapErr backendErr
  match rows with
  | [] => pure (none, 0)
  | row :: _ => do
      let pk ← Prog.lift (decodeKey row.2.1)
      let pkBytes ← Prog.lift (encKey limits pk)
      match ← (BackendTxn.get (storeOf source) pkBytes).mapErr backendErr with
      | some bytes => do
          let value ← Prog.lift (decodeValue env limits bytes)
          pure (some value, bytes.length)
      | none => pure (none, 0)

/-- `first_key`. -/
def firstKey (source : SourceRef) (range : RangeData) : Prog σ IdbError (Option Key) := do
  let encoded ← Prog.lift (encodedRange limits range)
  let rows ← (BackendTxn.scanRows source encoded .next true).mapErr backendErr
  match rows with
  | [] => pure none
  | row :: _ => do
      let key ← Prog.lift (decodeKey row.2.1)
      pure (some key)

/-- The limit is looked at behind each row that is kept. -/
def limitReached (limit : Option ℕ) (count : ℕ) : Bool := limit.any (· ≤ count)

/-- The loop of `collect_keys`. -/
def takeKeys (limit : Option ℕ) : List (Bytes × Bytes × Option Bytes) → List Key →
    Except IdbError (List Key)
  | [], out => .ok out
  | row :: rows, out => do
      let key ← decodeKey row.2.1
      let out := out ++ [key]
      if limitReached limit out.length then .ok out else takeKeys limit rows out

/-- `collect_keys`. -/
def collectKeys (source : SourceRef) (range : RangeData) (limit : Option ℕ) :
    Prog σ IdbError (List Key) := do
  let encoded ← Prog.lift (encodedRange limits range)
  let rows ← (BackendTxn.scanRows source encoded .next true).mapErr backendErr
  Prog.lift (takeKeys limit rows [])

/-- The first loop of `collect_values`: the primary keys, encoded anew. -/
def takePrimaryKeys (limit : Option ℕ) : List (Bytes × Bytes × Option Bytes) → List Bytes →
    Except IdbError (List Bytes)
  | [], out => .ok out
  | row :: rows, out => do
      let pk ← decodeKey row.2.1
      let bytes ← encKey limits pk
      let out := out ++ [bytes]
      if limitReached limit out.length then .ok out else takePrimaryKeys limit rows out

/-- The second loop of `collect_values`. -/
def takeValues (store : StoreId) (limit : Option ℕ) : List Bytes → List ScValue → ℕ →
    Prog σ IdbError (List ScValue × ℕ)
  | [], out, read => pure (out, read)
  | pk :: pks, out, read => do
      match ← (BackendTxn.get store pk).mapErr backendErr with
      | some bytes => do
          let value ← Prog.lift (decodeValue env limits bytes)
          let out := out ++ [value]
          if limitReached limit out.length then pure (out, read + bytes.length)
          else takeValues store limit pks out (read + bytes.length)
      | none =>
          if limitReached limit out.length then pure (out, read)
          else takeValues store limit pks out read

/-- `collect_values`. -/
def collectValues (source : SourceRef) (range : RangeData) (limit : Option ℕ) :
    Prog σ IdbError (List ScValue × ℕ) := do
  let encoded ← Prog.lift (encodedRange limits range)
  let rows ← (BackendTxn.scanRows source encoded .next true).mapErr backendErr
  let pks ← Prog.lift (takePrimaryKeys limits limit rows [])
  takeValues env limits (storeOf source) limit pks [] 0

end Reads

end BoaIdb.Driver
