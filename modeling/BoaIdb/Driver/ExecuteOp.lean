import BoaIdb.Driver.ScriptCursor

/-!
The execution of one queued operation of a transaction.

Each operation runs inside a savepoint of the backend together with the transaction's key
generators: success commits the savepoint, failure rolls it back.
-/

namespace BoaIdb

open Clone Faults OrdMap

mutual

/-- The derived equality of keys, on which both zeros are one number and a NaN is none. -/
def Key.beq : Key → Key → Bool
  | .number x, .number y => F64Bits.eqF64 x y
  | .date x, .date y => F64Bits.eqF64 x y
  | .string x, .string y => x == y
  | .binary x, .binary y => x == y
  | .array x, .array y => Key.beqItems x y
  | _, _ => false

def Key.beqItems : List Key → List Key → Bool
  | [], [] => true
  | x :: xs, y :: ys => Key.beq x y && Key.beqItems xs ys
  | _, _ => false

end

/-- The generator as `determine_key` leaves it, also when the key cannot be used. -/
def Engine.generatorBehind (store : StoreMeta) (keygen : KeyGenerator) (value : ScValue)
    (explicitKey : Option Key) : KeyGenerator :=
  let generates : Bool := match explicitKey, store.keyPath.extract value with
    | some _, _ => false
    | none, .ok none => store.autoIncrement
    | none, _ => store.autoIncrement && decide (store.keyPath = .empty)
  if generates then
    match keygen.generate with
    | .ok (_, keygen) => keygen
    | .error _ => keygen
  else keygen

namespace Driver

open Engine

/-- One queued operation. -/
inductive PendingOp
  | get (source : SourceRef) (range : RangeData)
  | count (source : SourceRef) (range : RangeData)
  | getKey (source : SourceRef) (range : RangeData)
  | getAll (source : SourceRef) (range : RangeData) (limit : Option ℕ) (keysOnly : Bool)
  | getAllRecords (source : SourceRef) (range : RangeData) (limit : Option ℕ)
      (direction : Direction)
  | put (store : StoreId) (value : ScValue) (explicitKey : Option Key) (noOverwrite : Bool)
  | delete (store : StoreId) (range : RangeData)
  | clear (store : StoreId)
  | openCursor (source : SourceRef) (range : RangeData) (direction : Direction) (keyOnly : Bool)
  | cursorOp (cursorId : ℕ) (action : CursorAction)

inductive RawOutcome
  | empty
  | key (key : Key)
  | value (value : Option ScValue)
  | keys (keys : List Key)
  | values (values : List ScValue)
  | records (rows : List CursorRow)
  | count (n : ℕ)

/-- Outcome of executing one operation. -/
inductive OpExec
  | outcome (result : RawOutcome)
  | cursorOpened (cursorId : ℕ)
  | cursorContinued (cursorId : ℕ) (reachedEnd : Bool)

/-- What an operation uses of a transaction's handle. -/
structure TxnHandle (σ : Type) where
  finished : Bool
  metadata : DatabaseMeta
  /-- `none` until the scheduler starts it. -/
  backend : Option σ
  keygens : OrderedMap StoreId KeyGenerator
  bytesRead : ℕ
  bytesWritten : ℕ

/-- What an operation uses of the driver: the handle of its transaction, and the cursors. -/
structure OpState (σ : Type) where
  txn : Option (TxnHandle σ)
  cursors : OrderedMap ℕ CursorState
  nextCursorId : ℕ

section State

variable {σ : Type}

def OpState.handle (s : OpState σ) : Except IdbError (TxnHandle σ) :=
  match s.txn with
  | some t => .ok t
  | none => .error .transactionInactive

/-- The backend of the transaction, if it has been started. -/
def OpState.backend (s : OpState σ) : Except IdbError σ := do
  let t ← s.handle
  t.backend.elim (.error .transactionInactive) .ok

def OpState.setHandle (t : TxnHandle σ) (s : OpState σ) : OpState σ := { s with txn := some t }

def OpState.setBackend (b : σ) (s : OpState σ) : OpState σ :=
  { s with txn := s.txn.map fun t => { t with backend := some b } }

/-- A program on the handle of the transaction. -/
def onHandle {α : Type} (p : Prog (TxnHandle σ) IdbError α) : Prog (OpState σ) IdbError α :=
  p.zoom OpState.handle OpState.setHandle

/-- A program on the backend of the transaction. -/
def onBackend {α : Type} (p : Prog σ IdbError α) : Prog (OpState σ) IdbError α :=
  p.zoom OpState.backend OpState.setBackend

def addBytesRead (n : ℕ) : Prog (OpState σ) IdbError Unit :=
  Prog.modify fun s => { s with txn := s.txn.map fun t => { t with bytesRead := t.bytesRead + n } }

def addBytesWritten (n : ℕ) : Prog (OpState σ) IdbError Unit :=
  Prog.modify fun s =>
    { s with txn := s.txn.map fun t => { t with bytesWritten := t.bytesWritten + n } }

/-- The metadata of a transaction that is not finished. -/
def openMetadata : Prog (OpState σ) IdbError DatabaseMeta := do
  let s ← Prog.read
  match s.txn with
  | none => Prog.throw .transactionInactive
  | some t => if t.finished then Prog.throw .transactionInactive else pure t.metadata

/-- The store of an operation. A store deleted behind the request is found as well. -/
def findStore (m : DatabaseMeta) (id : StoreId) : Except IdbError StoreMeta :=
  match m.stores.find? (fun store => store.id = id) with
  | some store => .ok store
  | none => .error (.notFound "Object store not found")

/-! ### Key generators -/

def setKeygen (store : StoreId) (keygen : KeyGenerator) : Prog (OpState σ) IdbError Unit :=
  onHandle (Prog.modify fun t => { t with keygens := t.keygens.insert store keygen })

/-- The entry of a store. A generator created here missed the begin of the savepoint, so one is
opened for it. -/
def TxnHandle.entry (store : StoreId) (base : F64Bits) :
    Prog (TxnHandle σ) IdbError KeyGenerator := do
  let t ← Prog.read
  match t.keygens.get? store with
  | some keygen => pure keygen
  | none => do
      let keygen := (KeyGenerator.new base).beginRequest
      Prog.modify fun t => { t with keygens := t.keygens.insert store keygen }
      pure keygen

def keygenEntry (store : StoreId) (base : F64Bits) : Prog (OpState σ) IdbError KeyGenerator :=
  onHandle (TxnHandle.entry store base)

def commitKeygen (store : StoreId) : Prog (TxnHandle σ) IdbError Unit := do
  let t ← Prog.read
  match t.keygens.get? store with
  | none => pure ()
  | some keygen => do
      let keygen ← Prog.lift keygen.commitRequest
      Prog.modify fun t => { t with keygens := t.keygens.insert store keygen }

/-- The error of a generator without a savepoint is ignored. -/
def rolledBack (keygen : KeyGenerator) : KeyGenerator :=
  match keygen.rollbackRequest with
  | .ok keygen => keygen
  | .error _ => keygen

end State

section Execute

variable {σ : Type} [BackendTxn σ] (env : CodecEnv) (limits : LimitConfig)

/-- The generator value of the backend, or else that of the registry snapshot. -/
def keygenBase (store : StoreMeta) : Prog σ IdbError F64Bits := do
  match ← ((BackendTxn.keyGenCurrent store.id).mapErr backendErr).attempt with
  | .ok value => pure value
  | .error _ => pure store.keyGen

/-- A put into a store that was found; the transaction's generator is changed in place, also
when the put fails. -/
def putRecord (store : StoreMeta) (value : ScValue) (explicitKey : Option Key)
    (noOverwrite : Bool) : Prog (OpState σ) IdbError OpExec := do
  let base ← onBackend (keygenBase store)
  let keygen ← keygenEntry store.id base
  match ← (onBackend (put env limits store keygen value explicitKey noOverwrite)).attempt with
  | .error e => do
      setKeygen store.id (generatorBehind store keygen value explicitKey)
      Prog.throw e
  | .ok (result, keygen, _) => do
      setKeygen store.id keygen
      addBytesWritten result.valueBytes
      pure (.outcome (.key result.key))

/-- The current row of a cursor. -/
def cursorRow (cursorId : ℕ) : Prog (OpState σ) IdbError (SourceRef × CursorRow) := do
  let s ← Prog.read
  match s.cursors.get? cursorId with
  | none => Prog.throw (.invalidState "cursor not found")
  | some cursor =>
      match cursor.current with
      | none => Prog.throw (.invalidState "cursor at end")
      | some row => pure (cursor.source, row)

/-- In-line-keyed stores take the key from the value, the others that of the cursor. -/
def checkInlineKey (store : StoreMeta) (value : ScValue) (pkey : Key) :
    Except IdbError (Option Key) :=
  if store.keyPath = .empty then .ok (some pkey)
  else do
    match ← (store.keyPath.extract value).mapError KeyError.toIdb with
    | some k =>
        if Key.beq k pkey then .ok none
        else .error (.data "Cursor update changes the in-line key")
    | none => .ok none

/-- `cursor.update(value)`. -/
def cursorUpdate (m : DatabaseMeta) (cursorId : ℕ) (value : ScValue) :
    Prog (OpState σ) IdbError OpExec := do
  let (source, row) ← cursorRow cursorId
  let store ← Prog.lift (findStore m (storeOf source))
  let explicitKey ← Prog.lift (checkInlineKey store value row.primaryKey)
  putRecord env limits store value explicitKey false

/-- `cursor.delete()`, through the store algorithm. -/
def cursorDelete (m : DatabaseMeta) (cursorId : ℕ) : Prog (OpState σ) IdbError OpExec := do
  let (source, row) ← cursorRow cursorId
  let store ← Prog.lift (findStore m (storeOf source))
  let pk ← Prog.lift (encKey limits row.primaryKey)
  let _ ← onBackend (delete store (.only pk))
  pure (.outcome .empty)

/-- A move of a cursor over its rows. -/
def cursorMove (cursorId : ℕ) (action : CursorAction) : Prog (OpState σ) IdbError OpExec := do
  let s ← Prog.read
  match s.cursors.get? cursorId with
  | none => Prog.throw (.invalidState "cursor not found")
  | some cursor => do
      let cursor := cursor.apply action
      Prog.modify fun s => { s with cursors := s.cursors.insert cursorId cursor }
      pure (.cursorContinued cursorId cursor.reachedEnd)

def allocCursor : Prog (OpState σ) IdbError ℕ := do
  let s ← Prog.read
  Prog.modify fun s => { s with nextCursorId := s.nextCursorId + 1 }
  pure s.nextCursorId

/-- `execute_op_inner`. -/
def executeOpInner (requestId : ℕ) (op : PendingOp) : Prog (OpState σ) IdbError OpExec := do
  let m ← openMetadata
  match op with
  | .get source range => do
      let (value, read) ← onBackend (firstValue env limits source range)
      addBytesRead read
      pure (.outcome (.value value))
  | .count source range => do
      let encoded ← Prog.lift (encodedRange limits range)
      let count ← onBackend ((BackendTxn.count source encoded).mapErr backendErr)
      pure (.outcome (.count count))
  | .getKey source range => do
      match ← onBackend (firstKey limits source range) with
      | some key => pure (.outcome (.key key))
      | none => pure (.outcome (.value none))
  | .getAll source range limit true => do
      let keys ← onBackend (collectKeys limits source range limit)
      pure (.outcome (.keys keys))
  | .getAll source range limit false => do
      let (values, read) ← onBackend (collectValues env limits source range limit)
      addBytesRead read
      pure (.outcome (.values values))
  | .getAllRecords source range limit direction => do
      let (rows, read) ← onBackend (materialize env limits source range direction false)
      addBytesRead read
      pure (.outcome (.records (limit.elim rows fun n => rows.take n)))
  | .put id value explicitKey noOverwrite => do
      let store ← Prog.lift (findStore m id)
      putRecord env limits store value explicitKey noOverwrite
  | .delete id range => do
      let store ← Prog.lift (findStore m id)
      let encoded ← Prog.lift (encodedRange limits range)
      let _ ← onBackend (Engine.delete store encoded)
      pure (.outcome .empty)
  | .clear id => do
      let store ← Prog.lift (findStore m id)
      onBackend (Engine.clear store)
      pure (.outcome .empty)
  | .openCursor source range direction keyOnly => do
      let cursorId ← allocCursor
      let (rows, read) ← onBackend (materialize env limits source range direction keyOnly)
      addBytesRead read
      let cursor : CursorState :=
        ⟨cursorId, requestId, source, direction, keyOnly, rows, 0, false⟩
      Prog.modify fun s => { s with cursors := s.cursors.insert cursorId cursor }
      pure (.cursorOpened cursorId)
  | .cursorOp cursorId (.update value) => cursorUpdate env limits m cursorId value
  | .cursorOp cursorId .delete => cursorDelete limits m cursorId
  | .cursorOp cursorId action => cursorMove cursorId action

/-! ### Savepoints -/

/-- Phase A. -/
def openSavepoints : Prog (OpState σ) IdbError Unit := do
  onBackend (BackendTxn.beginRequest.mapErr backendErr)
  onHandle (Prog.modify fun t => { t with keygens := t.keygens.map KeyGenerator.beginRequest })

/-- A program on the backend, or nothing without one. -/
def ifBackend (p : Prog σ IdbError Unit) : Prog (OpState σ) IdbError Unit := do
  let s ← Prog.read
  let t ← Prog.lift s.handle
  match t.backend with
  | none => pure ()
  | some _ => onBackend p

/-- Phase C behind a success. -/
def commitSavepoints : Prog (OpState σ) IdbError Unit := do
  ifBackend (BackendTxn.commitRequest.mapErr backendErr)
  onHandle do
    let t ← Prog.read
    Prog.forEach commitKeygen t.keygens.keys

/-- Phase C behind a failure. -/
def rollbackSavepoints : Prog (OpState σ) IdbError Unit := do
  ifBackend do
    let _ ← (BackendTxn.rollbackRequest.mapErr backendErr).attempt
    pure ()
  onHandle (Prog.modify fun t => { t with keygens := t.keygens.map rolledBack })

/-- `execute_op`. -/
def executeOp (requestId : ℕ) (op : PendingOp) : Prog (OpState σ) IdbError OpExec := do
  openSavepoints
  match ← (executeOpInner env limits requestId op).attempt with
  | .ok result => do
      commitSavepoints
      pure result
  | .error e => do
      rollbackSavepoints
      Prog.throw e

end Execute

end Driver

end BoaIdb
