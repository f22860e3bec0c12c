import BoaIdb.Backend.Txn
import BoaIdb.Engine.KeyGenerator

/-!
Store operations: put, delete and clear, and the index entries they maintain.

They run on any backend transaction. Whatever an operation has told the backend before it
fails stays there until the savepoint of its request is rolled back.
-/

namespace BoaIdb

/-- The indexes that are not deleted. -/
def StoreMeta.liveIndexes (store : StoreMeta) : List IndexMeta :=
  store.indexes.filter fun index => !index.deleted

namespace Engine

open Clone Faults

/-- Result of a put: the key, whether the record is new, and the bytes of its value. -/
structure PutResult where
  key : Key
  inserted : Bool
  valueBytes : ℕ

/-- `encode_key(..)?`. -/
def encodeKey (limits : LimitConfig) (key : Key) : Except IdbError Bytes :=
  (key.encodeKey limits).mapError KeyError.toIdb

/-! ### Index operations -/

section Index

variable {σ : Type} [BackendTxn σ]

/-- `ops_index::put`. -/
def indexPut (index : IndexId) (idxKey primaryKey : Bytes) (unique : Bool) :
    Prog σ IdbError Unit :=
  (BackendTxn.indexPut index idxKey primaryKey unique).mapErr fun
    | .constraint msg => .constraint msg
    | other => .data ("Index put failed: " ++ other.text)

/-- `ops_index::delete`. -/
def indexDelete (index : IndexId) (idxKey primaryKey : Bytes) : Prog σ IdbError Unit :=
  (BackendTxn.indexDelete index idxKey primaryKey).mapErr fun e =>
    .data ("Index delete failed: " ++ e.text)

/-- `ops_index::delete_by_primary`. -/
def deleteByPrimary (index : IndexId) (primaryKey : Bytes) : Prog σ IdbError Unit :=
  (BackendTxn.indexDeleteByPrimary index primaryKey).mapErr fun e =>
    .data ("Index delete by primary failed: " ++ e.text)

end Index

/-! ### Keys of a value -/

/-- The encodings of the keys, each once. -/
def encodeDistinct (limits : LimitConfig) : List Key → List Bytes → Except IdbError (List Bytes)
  | [], out => .ok out
  | k :: keys, out => do
      let bytes ← encodeKey limits k
      encodeDistinct limits keys (if bytes ∈ out then out else out ++ [bytes])

/-- A value without a valid key is not indexed. -/
def indexKeysForValue (limits : LimitConfig) (index : IndexMeta) (value : ScValue) :
    Except IdbError (List Bytes) :=
  if index.multiEntry then do
    let keys ← (index.keyPath.extractMultiEntry value).mapError KeyError.toIdb
    encodeDistinct limits keys []
  else
    match index.keyPath.extract value with
    | .ok (some idxKey) => encodeDistinct limits [idxKey] []
    | _ => .ok []

/-- The key of a put, with the generator and the value behind it: the value is changed when
a generated key is injected into it. -/
def determineKey (store : StoreMeta) (keygen : KeyGenerator) (value : ScValue)
    (explicitKey : Option Key) : Except IdbError (Key × KeyGenerator × ScValue) :=
  match explicitKey with
  | some k =>
      if store.keyPath = .empty then .ok (k, keygen, value)
      else .error (.data "Cannot provide explicit key when store has a keyPath")
  | none =>
      if store.keyPath = .empty then
        -- an omitted key path is empty as well, so the generator comes first
        if store.autoIncrement then do
          let (generated, keygen) ← keygen.generate
          .ok (.number generated, keygen, value)
        else match value.toKey with
          | .ok (some k) => .ok (k, keygen, value)
          | .ok none => .error (.data "Value cannot be used as a key")
          | .error e => .error (.data ("Invalid key: " ++ e.text))
      else do
        match ← (store.keyPath.extract value).mapError KeyError.toIdb with
        | some k => .ok (k, keygen, value)
        | none =>
            if store.autoIncrement then do
              let (generated, keygen) ← keygen.generate
              match store.keyPath.inject value (.number generated) with
              | .ok value => .ok (.number generated, keygen, value)
              | .error e => .error (.data ("Failed to inject key into value: " ++ e.text))
            else
              .error (.data "Could not extract key from value and autoIncrement is disabled")

/-- The number or date of a key, for the generator. -/
def keyToF64 : Key → F64Bits
  | .number n => n
  | .date d => d
  | _ => 0

/-! ### Operations -/

/-- `{key:?}`. -/
def debugKey (key : Key) : String := toString (repr key)

section Store

variable {σ : Type} [BackendTxn σ] (env : CodecEnv) (limits : LimitConfig) (store : StoreMeta)

/-- Stale entries of one index are deleted, then the new ones inserted; entries of both
values are left alone. -/
def syncIndex (index : IndexMeta) (oldValue : Option ScValue) (newValue : ScValue)
    (encodedPk : Bytes) : Prog σ IdbError Unit := do
  let oldKeys ← Prog.lift (match oldValue with
    | some v => indexKeysForValue limits index v
    | none => .ok [])
  let newKeys ← Prog.lift (indexKeysForValue limits index newValue)
  Prog.forEach (fun old => indexDelete index.id old encodedPk) (oldKeys.filter (· ∉ newKeys))
  Prog.forEach (fun new => indexPut index.id new encodedPk index.unique)
    (newKeys.filter (· ∉ oldKeys))

def syncIndexesOnPut (oldValue : Option ScValue) (newValue : ScValue) (primaryKey : Key) :
    Prog σ IdbError Unit := do
  let encodedPk ← Prog.lift (encodeKey limits primaryKey)
  Prog.forEach (fun index => syncIndex limits index oldValue newValue encodedPk)
    store.liveIndexes

/-- The value that a put overwrites. -/
def oldValueOf (key : Key) : Option Bytes → Except IdbError (Option ScValue)
  | none => .ok none
  | some bytes =>
      match decodeScf env limits bytes with
      | .ok v => .ok (some v)
      | .error e =>
          let shown := debugKey key
          let cause := e.text
          .error (.notReadable s!"Stored value for key {shown} is corrupt: {cause}")

/-- `ops_store::put`; with `noOverwrite` it is an add. The generator and the value that
the caller passed come back changed. -/
def put (keygen : KeyGenerator) (value : ScValue) (explicitKey : Option Key)
    (noOverwrite : Bool) : Prog σ IdbError (PutResult × KeyGenerator × ScValue) := do
  let (key, keygen, value) ← Prog.lift (determineKey store keygen value explicitKey)
  let encoded ← Prog.lift (encodeKey limits key)
  let existing ← (BackendTxn.get store.id encoded).mapErr backendErr
  if noOverwrite && existing.isSome then
    Prog.throw (.constraint ("Record with key " ++ debugKey key ++ " already exists"))
  else
    let oldValue ← Prog.lift (oldValueOf env limits key existing)
    syncIndexesOnPut limits store oldValue value key
    let encodedValue ← Prog.lift ((encodeScf env limits value).mapError fun e =>
      IdbError.dataClone ("Failed to encode value: " ++ e.text))
    (BackendTxn.put store.id encoded encodedValue noOverwrite).mapErr backendErr
    let keygen := keygen.possiblyUpdate (keyToF64 key)
    (BackendTxn.keyGenSet store.id keygen.current).mapErr backendErr
    pure (⟨key, existing.isNone, encodedValue.length⟩, keygen, value)

/-- The encoded primary keys of the records in a range. -/
def collectRangeKeys (store : StoreId) (range : EncodedRange) : Prog σ IdbError (List Bytes) := do
  let rows ← (BackendTxn.scanRows (.store store) range .next true).mapErr backendErr
  pure (rows.map Prod.fst)

/-- The entries of the deleted records leave every live index. -/
def deleteEntries (doomed : List Bytes) : Prog σ IdbError Unit :=
  Prog.forEach (fun pkey => Prog.forEach (fun index : IndexMeta => deleteByPrimary index.id pkey)
    store.liveIndexes) doomed

/-- `ops_store::delete`. -/
def delete (range : EncodedRange) : Prog σ IdbError ℕ := do
  let doomed ← collectRangeKeys store.id range
  let count ← (BackendTxn.deleteRange store.id range).mapErr backendErr
  deleteEntries store doomed
  pure count

/-- `ops_store::clear`. -/
def clear : Prog σ IdbError Unit := do
  let doomed ← collectRangeKeys store.id .all
  (BackendTxn.clear store.id).mapErr backendErr
  deleteEntries store doomed

end Store

end Engine

end BoaIdb
