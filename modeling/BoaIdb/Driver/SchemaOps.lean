import BoaIdb.Backend.SchemaTxn
import BoaIdb.Core.Utf16
import BoaIdb.Driver.Backfill
import BoaIdb.Driver.ExecuteOp
import BoaIdb.Engine.Scheduler

/-!
The schema operations of an upgrade.

Each changes the backend and then the driver's own metadata of the transaction.
-/

namespace BoaIdb.Driver

open Clone Engine Faults

/-- What the schema operations use of a transaction's handle besides. -/
structure UpgradeHandle (σ : Type) extends TxnHandle σ where
  txnId : TxnId
  mode : TxnMode
  deletedStoreIds : List StoreId

/-- A schema operation, on the handle of its transaction if there is one. -/
abbrev SchemaOp (σ α : Type) := Prog (Option (UpgradeHandle σ)) IdbError α

section Handle

variable {σ : Type}

/-- `upgrade_handle_mut`. -/
def upgradeHandleMut (s : Option (UpgradeHandle σ)) : Except IdbError (UpgradeHandle σ) :=
  match s with
  | some h =>
      if h.finished = false ∧ h.mode = .versionChange ∧ h.backend.isSome then .ok h
      else .error (.invalidState "Schema operations require a live versionchange transaction")
  | none => .error .transactionInactive

def upgradeHandle : SchemaOp σ (UpgradeHandle σ) := do
  let s ← Prog.read
  Prog.lift (upgradeHandleMut s)

def upgradeBackend (s : Option (UpgradeHandle σ)) : Except IdbError σ := do
  let h ← upgradeHandleMut s
  h.backend.elim (.error .transactionInactive) .ok

/-- A program on the backend of the upgrade. -/
def onUpgrade {α : Type} (p : Prog σ IdbError α) : SchemaOp σ α :=
  p.zoom upgradeBackend fun b s => s.map fun h => { h with backend := some b }

def editHandle (f : UpgradeHandle σ → UpgradeHandle σ) : SchemaOp σ Unit := do
  let h ← upgradeHandle
  Prog.modify fun _ => some (f h)

def editMetadata (f : DatabaseMeta → DatabaseMeta) : SchemaOp σ Unit :=
  editHandle fun h => { h with metadata := f h.metadata }

end Handle

/-! ### Lookups by name -/

def liveStoreNamed (m : DatabaseMeta) (name : Utf16String) : Option StoreMeta :=
  m.stores.find? fun s => !s.deleted && decide (s.name = name)

def liveIndexNamed (s : StoreMeta) (name : Utf16String) : Option IndexMeta :=
  s.indexes.find? fun i => !i.deleted && decide (i.name = name)

def storeNotFound (name : String) : IdbError :=
    .notFound ("Object store '" ++ name ++ "' not found")

def findLiveStore (m : DatabaseMeta) (name : String) : Except IdbError StoreMeta :=
  (liveStoreNamed m (.ofString name)).elim (.error (storeNotFound name)) .ok

def findLiveIndex (s : StoreMeta) (name : String) : Except IdbError IndexMeta :=
  (liveIndexNamed s (.ofString name)).elim
  (.error (.notFound ("Index '" ++ name ++ "' not found"))) .ok

def checkStoreName (m : DatabaseMeta) (name : String) : Except IdbError Unit :=
  if (liveStoreNamed m (.ofString name)).isSome then
    .error (.constraint ("Object store '" ++ name ++ "' already exists"))
  else .ok ()

def checkIndexName (s : StoreMeta) (name : String) : Except IdbError Unit :=
  if (liveIndexNamed s (.ofString name)).isSome then
    .error (.constraint ("Index '" ++ name ++ "' already exists"))
  else .ok ()

/-! ### Stores -/

section Operations

variable {σ : Type} [SchemaTxn σ]

/-- `autoIncrement` with a key path that is empty or an array, unless it was left out. -/
def checkAutoIncrement (keyPath : Option KeyPath) (autoIncrement : Bool) : Except IdbError Unit :=
  match autoIncrement, keyPath with
  | false, _ | true, none | true, some (.single _) => .ok ()
  | true, some _ => .error (.invalidAccess "autoIncrement requires a single non-empty keyPath")

/-- `schema_create_store`. -/
def schemaCreateStore (name : String) (keyPath : Option KeyPath) (autoIncrement : Bool) :
    SchemaOp σ StoreMeta := do
  Prog.lift (checkAutoIncrement keyPath autoIncrement)
  let kp := keyPath.getD .empty
  let h ← upgradeHandle
  Prog.lift (checkStoreName h.metadata name)
  let id ← onUpgrade ((SchemaTxn.createStore (.ofString name) kp autoIncrement).mapErr backendErr)
  let store : StoreMeta := ⟨id, .ofString name, kp, autoIncrement, keyGenStart, [], false⟩
  editMetadata fun m => { m with
    nextStoreId := if m.nextStoreId ≤ id then id + 1 else m.nextStoreId
    stores := m.stores ++ [store] }
  pure store

/-- The name that a deleted store has in the backend until the commit. -/
def tombstone (txn : TxnId) (store : StoreId) : String :=
  "\x00boa-deleted-" ++ toString txn ++ "-" ++ toString store

/-- `schema_delete_store`: requests that were queued before still find the store. -/
def schemaDeleteStore (name : String) : SchemaOp σ Unit := do
  let h ← upgradeHandle
  let store ← Prog.lift (findLiveStore h.metadata name)
  onUpgrade ((SchemaTxn.renameStore store.id (.ofString (tombstone h.txnId store.id))).mapErr
    backendErr)
  editHandle fun h => { h with
    metadata := editStore store.id StoreMeta.delete h.metadata
    deletedStoreIds := h.deletedStoreIds ++ [store.id] }

/-- `schema_rename_store`. -/
def schemaRenameStore (oldName newName : String) : SchemaOp σ Unit := do
  let h ← upgradeHandle
  let store ← Prog.lift (findLiveStore h.metadata oldName)
  Prog.lift (checkStoreName h.metadata newName)
  onUpgrade ((SchemaTxn.renameStore store.id (.ofString newName)).mapErr backendErr)
  editMetadata (editStore store.id (StoreMeta.rename (.ofString newName)))

/-! ### Indexes -/

/-- The first store with an id. -/
def storeById (m : DatabaseMeta) (id : StoreId) : Except IdbError StoreMeta :=
  (findStoreById id m.stores).elim (.error (.notFound "Object store not found")) .ok

/-- The store of a new index, which has no live index of the name. -/
def createIndexTarget (m : DatabaseMeta) (storeName name : String) : Except IdbError StoreMeta := do
  let named ← findLiveStore m storeName
  let store ← storeById m named.id
  checkIndexName store name
  .ok store

/-- `schema_create_index`. -/
def schemaCreateIndex (env : CodecEnv) (limits : LimitConfig) (storeName name : String)
    (keyPath : KeyPath) (unique multiEntry : Bool) : SchemaOp σ IndexMeta := do
  Prog.lift (checkDefinition keyPath multiEntry)
  let h ← upgradeHandle
  let store ← Prog.lift (createIndexTarget h.metadata storeName name)
  let id ← onUpgrade
    ((SchemaTxn.createIndex store.id (.ofString name) keyPath unique multiEntry).mapErr backendErr)
  onUpgrade (backfillIndex env limits id store.id keyPath multiEntry unique)
  let index : IndexMeta := ⟨id, store.id, .ofString name, keyPath, unique, multiEntry, false⟩
  editMetadata fun m => { editStore store.id (StoreMeta.editIndexes (· ++ [index])) m with
    nextIndexId := if m.nextIndexId ≤ id then id + 1 else m.nextIndexId }
  pure index

/-- `collect_store_pkeys`. -/
def collectStorePkeys (store : StoreId) : Prog σ IdbError (List Bytes) := do
  let rows ← (BackendTxn.scanRows (.store store) .all .next true).mapErr backendErr
  pure (rows.map fun row => row.2.1)

def deleteIndexTarget (m : DatabaseMeta) (storeName name : String) :
    Except IdbError (StoreMeta × IndexMeta) := do
  let store ← findLiveStore m storeName
  let index ← findLiveIndex store name
  .ok (store, index)

/-- `schema_delete_index`: the entries go before the index. -/
def schemaDeleteIndex (storeName name : String) : SchemaOp σ Unit := do
  let h ← upgradeHandle
  let (store, index) ← Prog.lift (deleteIndexTarget h.metadata storeName name)
  onUpgrade do
    let pkeys ← collectStorePkeys store.id
    Prog.forEach (fun pk => (BackendTxn.indexDeleteByPrimary index.id pk).mapErr backendErr) pkeys
    (SchemaTxn.deleteIndex store.id index.id).mapErr backendErr
  editMetadata (editStore store.id (StoreMeta.editIndexes (updateIndex index.id IndexMeta.delete)))

def renameIndexTarget (m : DatabaseMeta) (storeName oldName newName : String) :
    Except IdbError (StoreMeta × IndexMeta) := do
  let store ← findLiveStore m storeName
  checkIndexName store newName
  let index ← findLiveIndex store oldName
  .ok (store, index)

/-- `schema_rename_index`. -/
def schemaRenameIndex (storeName oldName newName : String) : SchemaOp σ Unit := do
  let h ← upgradeHandle
  let (store, index) ← Prog.lift (renameIndexTarget h.metadata storeName oldName newName)
  onUpgrade ((SchemaTxn.renameIndex store.id index.id (.ofString newName)).mapErr backendErr)
  editMetadata (editStore store.id
    (StoreMeta.editIndexes (updateIndex index.id (IndexMeta.rename (.ofString newName)))))

/-! ### The upgrade -/

/-- `start_upgrade_txn` behind the begin of the backend: its handle. -/
def startUpgrade (txnId : TxnId) (version : UInt64) (m : DatabaseMeta) :
    Prog σ BackendError (UpgradeHandle σ) := do
  SchemaTxn.setVersion version
  let backend ← Prog.read
  pure {
    finished := false
    metadata := { m with version := version }
    backend := some backend
    keygens := .empty
    bytesRead := 0
    bytesWritten := 0
    txnId
    mode := .versionChange
    deletedStoreIds := [] }

/-- The schema operations of a script, with the names as strings. -/
inductive SchemaCall
  | createStore (name : String) (keyPath : Option KeyPath) (autoIncrement : Bool)
  | deleteStore (name : String)
  | renameStore (oldName newName : String)
  | createIndex (storeName name : String) (keyPath : KeyPath) (unique multiEntry : Bool)
  | deleteIndex (storeName name : String)
  | renameIndex (storeName oldName newName : String)

/-- A call; what it returns is for the script alone. -/
def SchemaCall.run (env : CodecEnv) (limits : LimitConfig) : SchemaCall → SchemaOp σ Unit
  | .createStore name keyPath autoIncrement => do
      let _ ← schemaCreateStore name keyPath autoIncrement
      pure ()
  | .deleteStore name => schemaDeleteStore name
  | .renameStore oldName newName => schemaRenameStore oldName newName
  | .createIndex storeName name keyPath unique multiEntry => do
      let _ ← schemaCreateIndex env limits storeName name keyPath unique multiEntry
      pure ()
  | .deleteIndex storeName name => schemaDeleteIndex storeName name
  | .renameIndex storeName oldName newName => schemaRenameIndex storeName oldName newName

end Operations

end BoaIdb.Driver
