import BoaIdb.Backend.Txn
import BoaIdb.Core.Utf16
import BoaIdb.Sqlite.Cursor

/-!
A transaction of the SQLite backend.

Its statements work on the tables of one connection. Savepoints and the transaction itself keep
the tables as they were, and blob files are tracked beside them, per savepoint level.
-/

namespace BoaIdb.Sqlite

open Faults OrdMap

/-- A transaction over the tables that its connection sees. The name of a blob file is the
digest of its contents. -/
structure SqliteTxn (sha256 : Bytes → Bytes) where
  tables : Tables
  /-- The tables at `BEGIN`. -/
  base : Tables
  /-- The tables at each open savepoint, the innermost first. -/
  savepoints : List Tables
  mode : TxnMode
  scope : List StoreId
  metadata : DatabaseMeta
  files : BlobFiles
  /-- Files that were written, per level, the innermost first. -/
  blobCreated : List (List BlobPath)
  /-- References that went away, per level. -/
  blobOrphaned : List (List BlobPath)
  /-- Index entries put since the last overwrite of their primary key. -/
  pendingIndexPuts : OrderedMap Bytes (List (IndexId × Bytes))

namespace SqliteTxn

variable {sha256 : Bytes → Bytes}

/-- `SqliteDatabase::begin`, which loads the metadata again. -/
def begin (tables : Tables) (files : BlobFiles) (mode : TxnMode) (scope : List StoreId) :
    SqliteTxn sha256 :=
  ⟨tables, tables, [], mode, scope, tables.loadMetadata, files, [], [], .empty⟩

abbrev Op (sha256 : Bytes → Bytes) (α : Type) := Prog (SqliteTxn sha256) BackendError α

/-! ### Checks -/

def checkScope (store : StoreId) : Op sha256 Unit := do
  let t ← Prog.read
  if t.mode = .versionChange ∨ store ∈ t.scope then pure ()
  else Prog.throw (.internal ("Store " ++ toString store ++ " not in transaction scope"))

def checkReadwrite : Op sha256 Unit := do
  let t ← Prog.read
  if t.mode = .readOnly then Prog.throw (.internal "Cannot write in a read-only transaction")
  else pure ()

def checkSrcScope : SourceRef → Op sha256 Unit
  | .store store | .index store _ => checkScope store

def checkVersionChange (name : String) : Op sha256 Unit := do
  let t ← Prog.read
  if t.mode ≠ .versionChange then
    Prog.throw (.internal (name ++ " requires VersionChange mode"))
  else pure ()

/-! ### Statements -/

/-- A statement that may break a constraint, and the error that is made of it. -/
def execute {α : Type} (statement : Tables → Except SqlError (α × Tables))
    (err : SqlError → BackendError) : Op sha256 α := do
  let t ← Prog.read
  match statement t.tables with
  | .error e => Prog.throw (err e)
  | .ok (a, tables) => do
      Prog.modify fun t => { t with tables := tables }
      pure a

/-- A statement that always succeeds. -/
def run (statement : Tables → Tables) : Op sha256 Unit :=
  Prog.modify fun t => { t with tables := statement t.tables }

/-- Uniqueness violations are constraint errors, with a text of their own. -/
def constraintOr (constraint name : String) : SqlError → BackendError
  | .unique => .constraint constraint
  | e => .internal (name ++ " failed: " ++ e.text)

def setMetadata (f : DatabaseMeta → DatabaseMeta) : Op sha256 Unit :=
  Prog.modify fun t => { t with metadata := f t.metadata }

/-! ### Blob tracking -/

/-- The tracking levels, with at least one. -/
def blobLevels (levels : List (List BlobPath)) : List (List BlobPath) :=
  if levels.isEmpty then [[]] else levels

/-- Records a path in the current level. -/
def trackIn (path : BlobPath) (levels : List (List BlobPath)) : List (List BlobPath) :=
  (blobLevels levels).modifyHead (· ++ [path])

def trackBlobCreated (path : BlobPath) : Op sha256 Unit :=
  Prog.modify fun t => { t with
    blobCreated := trackIn path t.blobCreated
    blobOrphaned := if t.blobCreated.isEmpty then [[]] else t.blobOrphaned }

def trackBlobOrphaned (path : BlobPath) : Op sha256 Unit :=
  Prog.modify fun t => { t with
    blobCreated := blobLevels t.blobCreated
    blobOrphaned := trackIn path (if t.blobCreated.isEmpty then [] else t.blobOrphaned) }

/-- A record names the file. -/
def blobIsReferenced (t : Tables) (path : BlobPath) : Bool :=
  t.records.entries.any fun e => e.2.ext = some path

/-- Deletes a file unless a record names it. -/
def gcBlobFile (path : BlobPath) : Op sha256 Unit :=
  Prog.modify fun t =>
    if blobIsReferenced t.tables path then t else { t with files := t.files.remove path }

/-! ### Savepoints -/

def beginRequest : Op sha256 Unit :=
  Prog.modify fun t => { t with
    savepoints := t.tables :: t.savepoints
    blobCreated := [] :: t.blobCreated
    blobOrphaned := [] :: t.blobOrphaned }

/-- The innermost level joins the one around it. -/
def mergeLevel (levels : List (List BlobPath)) : List (List BlobPath) :=
  (blobLevels levels.tail).modifyHead (· ++ levels.head?.getD [])

def commitRequest : Op sha256 Unit := do
  let t ← Prog.read
  match t.savepoints with
  | [] => Prog.throw (.internal "commit_request without matching begin_request")
  | _ :: rest =>
      Prog.modify fun t => { t with
        savepoints := rest
        blobCreated := mergeLevel t.blobCreated
        blobOrphaned := mergeLevel t.blobOrphaned }

/-- The files of the level are garbage unless they are referenced; what it orphaned is live
again. -/
def rollbackRequest : Op sha256 Unit := do
  let t ← Prog.read
  match t.savepoints with
  | [] => Prog.throw (.internal "rollback_request without matching begin_request")
  | tables :: rest => do
      Prog.modify fun t => { t with
        tables := tables
        savepoints := rest
        blobCreated := t.blobCreated.tail
        blobOrphaned := t.blobOrphaned.tail }
      Prog.forEach gcBlobFile (t.blobCreated.head?.getD [])

/-! ### Schema -/

def setVersion (version : UInt64) : Op sha256 Unit := do
  checkVersionChange "set_version"
  setMetadata fun m => { m with version := version }
  run fun tables => { tables with version := version }

def createStore (name : Utf16String) (keyPath : KeyPath) (autoIncrement : Bool) :
    Op sha256 StoreId := do
  checkVersionChange "create_store"
  let id ← execute (fun t => t.insertStore name keyPath autoIncrement)
    (constraintOr ("Object store '" ++ Utf16String.toText name ++ "' already exists")
      "create_store")
  setMetadata fun m => { m with
    stores := m.stores ++ [⟨id, name, keyPath, autoIncrement, keyGenStart, [], false⟩]
    nextStoreId := max m.nextStoreId (id + 1) }
  pure id

/-- The references of the records of a store. -/
def collectExts (t : Tables) (store : StoreId) (range : EncodedRange) : List BlobPath :=
  t.records.entries.filterMap fun e =>
    if e.1.store = store ∧ range.contains e.1.key = true then e.2.ext else none

def deleteStore (id : StoreId) : Op sha256 Unit := do
  checkVersionChange "delete_store"
  let t ← Prog.read
  Prog.forEach trackBlobOrphaned (collectExts t.tables id .all)
  run fun t => t.deleteStore id
  setMetadata (editStore id fun s => { s with deleted := true })

def renameStore (id : StoreId) (name : Utf16String) : Op sha256 Unit := do
  checkVersionChange "rename_store"
  execute (fun t => (t.renameStore id name).map ((), ·))
    (constraintOr ("Object store '" ++ Utf16String.toText name ++ "' already exists")
      "rename_store")
  setMetadata (editStore id fun s => { s with name := name })

def createIndex (store : StoreId) (name : Utf16String) (keyPath : KeyPath)
    (unique multiEntry : Bool) : Op sha256 IndexId := do
  checkVersionChange "create_index"
  let id ← execute (fun t => t.insertIndex ⟨store, name, keyPath, unique, multiEntry⟩)
    (constraintOr ("Index '" ++ Utf16String.toText name ++ "' already exists on store " ++
      toString store) "create_index")
  setMetadata fun m => { editStore store (fun s => { s with
      indexes := s.indexes ++ [⟨id, store, name, keyPath, unique, multiEntry, false⟩] }) m with
    nextIndexId := max m.nextIndexId (id + 1) }
  pure id

def deleteIndex (store : StoreId) (id : IndexId) : Op sha256 Unit := do
  checkVersionChange "delete_index"
  run fun t => t.deleteIndex store id
  setMetadata (editIndex store id fun i => { i with deleted := true })

def renameIndex (store : StoreId) (id : IndexId) (name : Utf16String) : Op sha256 Unit := do
  checkVersionChange "rename_index"
  execute (fun t => (t.renameIndex store id name).map ((), ·))
    (constraintOr ("Index '" ++ Utf16String.toText name ++ "' already exists") "rename_index")
  setMetadata (editIndex store id fun i => { i with name := name })

/-! ### Data -/

def readRecordExt (t : Tables) (key : RecordKey) : Option BlobPath :=
  (t.records.get? key).bind RecordRow.ext

/-- `DELETE … AND key NOT IN (…)` for each index of the store; without kept keys, all. -/
def syncIndexEntriesOnPut (store : StoreId) (pkey : Bytes) : Op sha256 Unit := do
  let t ← Prog.read
  let keep := (t.pendingIndexPuts.get? pkey).getD []
  Prog.modify fun t => { t with pendingIndexPuts := t.pendingIndexPuts.erase pkey }
  let indexIds := match t.metadata.stores.find? (fun s => s.id = store) with
    | some s => s.indexes.map IndexMeta.id
    | none => []
  Prog.forEach (fun index => run fun tables => tables.deleteIndexRecords fun k =>
    decide (k.index = index ∧ k.primaryKey = pkey ∧ (index, k.key) ∉ keep)) indexIds

/-- The columns of a value; a large one goes to a file. -/
def columnsOf (value : Bytes) : Op sha256 RecordRow := do
  if shouldExternalize value then
    let t ← Prog.read
    let (path, files) := BlobFiles.store sha256 t.files value
    Prog.modify fun t => { t with files := files }
    trackBlobCreated path
    pure ⟨none, some path⟩
  else pure ⟨some value, none⟩

def put (store : StoreId) (key value : Bytes) (noOverwrite : Bool) : Op sha256 Unit := do
  checkScope store
  checkReadwrite
  let row ← columnsOf value
  let t ← Prog.read
  Prog.forEach trackBlobOrphaned (readRecordExt t.tables ⟨store, key⟩).toList
  if noOverwrite then pure () else syncIndexEntriesOnPut store key
  execute (fun tables =>
      ((if noOverwrite then tables.insertRecord else tables.upsertRecord) ⟨store, key⟩ row).map
        ((), ·))
    (constraintOr ("Record already exists for key in store " ++ toString store) "put")

/-- `read_record_value`. -/
def readRecordValue (t : SqliteTxn sha256) (key : RecordKey) : Except BackendError (Option Bytes) :=
  match t.tables.records.get? key with
  | none => .ok none
  | some row =>
      match row.value, row.ext with
      | some value, _ => .ok (some value)
      | none, some path => (BlobFiles.read sha256 t.files path).map some
      | none, none => .ok none

def get (store : StoreId) (key : Bytes) : Op sha256 (Option Bytes) := do
  checkScope store
  let t ← Prog.read
  Prog.lift (t.readRecordValue ⟨store, key⟩)

def deleteRecord (store : StoreId) (key : Bytes) : Op sha256 Bool := do
  checkScope store
  checkReadwrite
  let t ← Prog.read
  Prog.forEach trackBlobOrphaned (readRecordExt t.tables ⟨store, key⟩).toList
  run fun tables => tables.deleteIndexRecords fun k =>
    tables.ofStore store k.index && decide (k.primaryKey = key)
  let changed ← execute (fun tables => .ok (tables.deleteRecords fun k => k = ⟨store, key⟩))
    (constraintOr "" "delete_record")
  pure (0 < changed)

/-- The rows of a store in a range. -/
def inRange (store : StoreId) (range : EncodedRange) (k : RecordKey) : Bool :=
  decide (k.store = store) && range.contains k.key

def deleteRange (store : StoreId) (range : EncodedRange) : Op sha256 ℕ := do
  checkScope store
  checkReadwrite
  let t ← Prog.read
  Prog.forEach trackBlobOrphaned (collectExts t.tables store range)
  -- the records must still be there for the subquery
  run fun tables => tables.deleteIndexRecords fun k =>
    tables.ofStore store k.index &&
      (tables.records.contains ⟨store, k.primaryKey⟩ && range.contains k.primaryKey)
  execute (fun tables => .ok (tables.deleteRecords (inRange store range)))
    (constraintOr "" "delete_range")

def clear (store : StoreId) : Op sha256 Unit := do
  checkScope store
  checkReadwrite
  let t ← Prog.read
  Prog.forEach trackBlobOrphaned (collectExts t.tables store .all)
  run fun tables => tables.deleteIndexRecords fun k => tables.ofStore store k.index
  run fun tables => (tables.deleteRecords (inRange store .all)).2

/-- `build_count_sql`, run: entries without a record are counted as well. -/
def countRows (t : Tables) (src : SourceRef) (range : EncodedRange) : ℕ :=
  match src with
  | .store store => (t.records.keys.filter (inRange store range)).length
  | .index _ index =>
      (t.indexRecords.keys.filter fun k =>
        decide (k.index = index) && range.contains k.key).length

def count (src : SourceRef) (range : EncodedRange) : Op sha256 ℕ := do
  checkSrcScope src
  let t ← Prog.read
  pure (countRows t.tables src range)

/-- `scan`, and the walk over the rows. -/
def scanRows (src : SourceRef) (range : EncodedRange) (dir : Direction) (keyOnly : Bool) :
    Op sha256 (List (Bytes × Bytes × Option Bytes)) := do
  checkSrcScope src
  let t ← Prog.read
  match (SqliteCursor.open src range dir keyOnly).visit sha256 t.tables t.files with
  | .ok rows => pure rows
  | .error (.failed e) => Prog.throw e
  | .error _ => fun t => (.stopped, t)

def keyGenCurrent (store : StoreId) : Op sha256 F64Bits := do
  let t ← Prog.read
  match t.tables.objectStores.get? store with
  | some row => pure row.keyGen
  | none => Prog.throw (.notFound ("Store " ++ toString store ++ " not found"))

def keyGenSet (store : StoreId) (value : F64Bits) : Op sha256 Unit := do
  checkReadwrite
  run fun tables => tables.setKeyGen store value

/-- An entry of another primary key holds the index key. -/
def indexKeyHeld (t : Tables) (index : IndexId) (idxKey primaryKey : Bytes) : Bool :=
  t.indexRecords.keys.any fun k =>
    decide (k.index = index ∧ k.key = idxKey ∧ k.primaryKey ≠ primaryKey)

def indexPut (index : IndexId) (idxKey primaryKey : Bytes) (unique : Bool) : Op sha256 Unit := do
  checkReadwrite
  let t ← Prog.read
  if unique = true ∧ indexKeyHeld t.tables index idxKey primaryKey = true then
    Prog.throw (.constraint ("Unique constraint violation for index " ++ toString index))
  else do
    execute (fun tables => (tables.insertIndexRecord ⟨index, idxKey, primaryKey⟩).map ((), ·))
      (fun e => .internal ("index_put failed: " ++ e.text))
    Prog.modify fun t => { t with
      pendingIndexPuts := t.pendingIndexPuts.insert primaryKey
        ((t.pendingIndexPuts.get? primaryKey).getD [] ++ [(index, idxKey)]) }

def indexDelete (index : IndexId) (idxKey primaryKey : Bytes) : Op sha256 Unit := do
  checkReadwrite
  run fun tables => tables.deleteIndexRecords fun k => k = ⟨index, idxKey, primaryKey⟩

def indexDeleteByPrimary (index : IndexId) (primaryKey : Bytes) : Op sha256 Unit := do
  checkReadwrite
  run fun tables => tables.deleteIndexRecords fun k =>
    decide (k.index = index ∧ k.primaryKey = primaryKey)

end SqliteTxn

instance {sha256 : Bytes → Bytes} : BackendTxn (SqliteTxn sha256) where
  beginRequest := SqliteTxn.beginRequest
  commitRequest := SqliteTxn.commitRequest
  rollbackRequest := SqliteTxn.rollbackRequest
  put := SqliteTxn.put
  get := SqliteTxn.get
  deleteRecord := SqliteTxn.deleteRecord
  deleteRange := SqliteTxn.deleteRange
  clear := SqliteTxn.clear
  count := SqliteTxn.count
  scanRows := SqliteTxn.scanRows
  keyGenCurrent := SqliteTxn.keyGenCurrent
  keyGenSet := SqliteTxn.keyGenSet
  indexPut := SqliteTxn.indexPut
  indexDelete := SqliteTxn.indexDelete
  indexDeleteByPrimary := SqliteTxn.indexDeleteByPrimary

end BoaIdb.Sqlite
