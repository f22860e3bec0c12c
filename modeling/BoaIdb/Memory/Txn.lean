import BoaIdb.Backend.Pending

/-!
The memory backend: the state of one database, its handles and its transactions.

All handles and transactions of a database share one state. A handle keeps the metadata
that it was opened with, and a transaction starts from the metadata of its handle.
-/

namespace BoaIdb.Memory

open OrdMap

/-- Shared state of one database; `databases` holds its metadata under its name. -/
structure StorageState where
  databases : OrderedMap Utf16String DatabaseMeta
  rows : Rows

def StorageState.default : StorageState := ⟨.empty, .empty⟩

structure MemoryDatabase where
  metadata : DatabaseMeta

structure MemoryTxn where
  mode : TxnMode
  scope : List StoreId
  metadata : DatabaseMeta
  pending : Pending

/-- `MemoryStorage::open_database`: a database that is not there yet is created. -/
def openDatabase (name : Utf16String) (s : StorageState) : MemoryDatabase × StorageState :=
  match s.databases.get? name with
  | some m => (⟨m⟩, s)
  | none => (⟨emptyMeta name⟩, { s with databases := s.databases.insert name (emptyMeta name) })

/-- `MemoryDatabase::begin`. -/
def MemoryDatabase.begin (d : MemoryDatabase) (mode : TxnMode) (scope : List StoreId) :
    MemoryTxn :=
  ⟨mode, scope, d.metadata, .empty⟩

namespace MemoryTxn

/-! ### Checks -/

/-- A versionchange transaction spans the whole database. -/
def checkScope (t : MemoryTxn) (store : StoreId) : Except BackendError Unit :=
  if t.mode = .versionChange ∨ store ∈ t.scope then .ok ()
  else .error (.internal ("Store " ++ toString store ++ " not in transaction scope"))

def checkReadwrite (t : MemoryTxn) : Except BackendError Unit :=
  if t.mode = .readOnly then .error (.internal "Cannot write in a read-only transaction")
  else .ok ()

theorem writable {t : MemoryTxn} (h : t.checkReadwrite = .ok ()) : t.mode ≠ .readOnly := by
  intro hmode
  rw [checkReadwrite, if_pos hmode] at h
  cases h

/-! ### Schema operations -/

/-- A change of the transaction's own metadata, refused outside an upgrade. -/
def schemaOp (t : MemoryTxn) (name : String) (f : DatabaseMeta → DatabaseMeta) :
    Except BackendError MemoryTxn :=
  if t.mode ≠ .versionChange then .error (.internal (name ++ " requires VersionChange mode"))
  else .ok { t with metadata := f t.metadata }

def setVersion (t : MemoryTxn) (version : UInt64) : Except BackendError MemoryTxn :=
  t.schemaOp "set_version" fun m => { m with version := version }

/-- The store takes the next id, which is returned. -/
def createStore (t : MemoryTxn) (name : Utf16String) (keyPath : KeyPath) (autoIncrement : Bool) :
    Except BackendError (MemoryTxn × StoreId) :=
  (t.schemaOp "create_store" fun m => { m with
    nextStoreId := m.nextStoreId + 1
    stores := m.stores ++
      [⟨m.nextStoreId, name, keyPath, autoIncrement, keyGenStart, [], false⟩] }).map
    (·, t.metadata.nextStoreId)

def deleteStore (t : MemoryTxn) (id : StoreId) : Except BackendError MemoryTxn :=
  t.schemaOp "delete_store" (editStore id fun s => { s with deleted := true })

def renameStore (t : MemoryTxn) (id : StoreId) (name : Utf16String) :
    Except BackendError MemoryTxn :=
  t.schemaOp "rename_store" (editStore id fun s => { s with name := name })

/-- The next index id is taken even when the store is not found. -/
def createIndex (t : MemoryTxn) (store : StoreId) (name : Utf16String) (keyPath : KeyPath)
    (unique multiEntry : Bool) : Except BackendError (MemoryTxn × IndexId) :=
  (t.schemaOp "create_index" fun m => { editStore store (fun s => { s with
      indexes := s.indexes ++ [⟨m.nextIndexId, store, name, keyPath, unique, multiEntry, false⟩] })
      m with nextIndexId := m.nextIndexId + 1 }).map
    (·, t.metadata.nextIndexId)

def deleteIndex (t : MemoryTxn) (store : StoreId) (id : IndexId) :
    Except BackendError MemoryTxn :=
  t.schemaOp "delete_index" (editIndex store id fun i => { i with deleted := true })

def renameIndex (t : MemoryTxn) (store : StoreId) (id : IndexId) (name : Utf16String) :
    Except BackendError MemoryTxn :=
  t.schemaOp "rename_index" (editIndex store id fun i => { i with name := name })

/-! ### Savepoints and data operations

Each checks the scope or the mode and then works on the pending changes. An operation that
fails leaves the transaction as it was. -/

def beginRequest (t : MemoryTxn) : MemoryTxn := { t with pending := t.pending.beginRequest }

def commitRequest (t : MemoryTxn) : Except BackendError MemoryTxn := do
  .ok { t with pending := ← t.pending.commitRequest }

def rollbackRequest (t : MemoryTxn) : Except BackendError MemoryTxn := do
  .ok { t with pending := ← t.pending.rollbackRequest }

def put (base : Rows) (t : MemoryTxn) (store : StoreId) (key val : Bytes) (noOverwrite : Bool) :
    Except BackendError MemoryTxn := do
  t.checkScope store
  t.checkReadwrite
  .ok { t with pending := ← t.pending.put base (fun _ => .ok ()) ⟨store, key⟩ val noOverwrite }

def get (base : Rows) (t : MemoryTxn) (store : StoreId) (key : Bytes) :
    Except BackendError (Option Bytes) := do
  t.checkScope store
  .ok (t.pending.readRecord base ⟨store, key⟩)

def deleteRecord (base : Rows) (t : MemoryTxn) (store : StoreId) (key : Bytes) :
    Except BackendError (MemoryTxn × Bool) := do
  t.checkScope store
  t.checkReadwrite
  let (pending, existed) := t.pending.deleteRecord base ⟨store, key⟩
  .ok ({ t with pending := pending }, existed)

def deleteRange (base : Rows) (t : MemoryTxn) (store : StoreId) (range : EncodedRange) :
    Except BackendError (MemoryTxn × ℕ) := do
  t.checkScope store
  t.checkReadwrite
  let (pending, count) := t.pending.deleteRange base store range
  .ok ({ t with pending := pending }, count)

def clear (base : Rows) (t : MemoryTxn) (store : StoreId) : Except BackendError MemoryTxn := do
  t.checkScope store
  t.checkReadwrite
  .ok { t with pending := t.pending.clear base store }

def count (base : Rows) (t : MemoryTxn) (src : SourceRef) (range : EncodedRange) :
    Except BackendError ℕ := do
  t.checkScope src.storeId
  .ok (t.pending.count base src range)

def scan (base : Rows) (t : MemoryTxn) (src : SourceRef) (range : EncodedRange)
    (dir : Direction) (keyOnly : Bool) : Except BackendError Cursor := do
  t.checkScope src.storeId
  .ok (Cursor.scan (t.pending.cursorMaps base) src range dir keyOnly)

def keyGenCurrent (base : Rows) (t : MemoryTxn) (store : StoreId) : F64Bits :=
  t.pending.keyGenCurrent base store

def keyGenSet (base : Rows) (t : MemoryTxn) (store : StoreId) (value : F64Bits) :
    Except BackendError MemoryTxn := do
  t.checkReadwrite
  .ok { t with pending := t.pending.keyGenSet base store value }

def indexPut (base : Rows) (t : MemoryTxn) (index : IndexId) (idxKey primaryKey : Bytes)
    (unique : Bool) : Except BackendError MemoryTxn := do
  t.checkReadwrite
  .ok { t with pending := ← t.pending.indexPut base ⟨index, idxKey, primaryKey⟩ unique }

def indexDelete (t : MemoryTxn) (index : IndexId) (idxKey primaryKey : Bytes) :
    Except BackendError MemoryTxn := do
  t.checkReadwrite
  .ok { t with pending := t.pending.indexDelete ⟨index, idxKey, primaryKey⟩ }

def indexDeleteByPrimary (base : Rows) (t : MemoryTxn) (index : IndexId) (primaryKey : Bytes) :
    Except BackendError MemoryTxn := do
  t.checkReadwrite
  .ok { t with pending := t.pending.indexDeleteByPrimary base index primaryKey }

/-- `MemoryTxn::commit`, in every mode: the pending rows over the committed ones, and the
transaction's metadata in the place of the committed one. -/
def commit (t : MemoryTxn) (s : StorageState) : StorageState where
  databases := s.databases.insert t.metadata.name t.metadata
  rows := t.pending.applyTo s.rows

end MemoryTxn

end BoaIdb.Memory
