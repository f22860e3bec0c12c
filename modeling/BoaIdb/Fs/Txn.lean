import BoaIdb.Fs.Compact
import BoaIdb.Fs.WalRecovery

/-!
A filesystem transaction and its commit.

Between begin and commit the operations of a transaction only change its pending
maps and, in an upgrade, its copy of the metadata. The commit appends the pending
operations to the log, replaces `meta.scf` when the metadata changed, and only
then touches the committed state.
-/

namespace BoaIdb.Fs

open OrdMap Faults

/-- The configuration a database is opened with. -/
structure FsConfig where
  maxFramePayload : ℕ
  compact : CompactConfig
  /-- The limit is a `u32`, which may lie above what the format reads. -/
  fits : maxFramePayload < 256 ^ 4

/-- What the format reads is a `u32` itself. -/
theorem limit_fits : maxFramePayloadLimit < 256 ^ 4 := by decide

/-- Pending changes of a transaction; `begun` is the metadata it began with. -/
structure FsTxn where
  mode : TxnMode
  scope : List StoreId
  begun : DatabaseMeta
  metadata : DatabaseMeta
  durability : Durability
  schemaDirty : Bool
  pendingRecords : OrderedMap RecordKey (Option Bytes)
  pendingIndexEntries : OrderedMap IndexKey Bool
  pendingKeyGenerators : OrderedMap StoreId F64Bits
  /-- Every schema operation sets the flag. -/
  clean : schemaDirty = false → metadata = begun
  /-- Schema operations are refused outside an upgrade. -/
  guarded : mode ≠ .versionChange → schemaDirty = false
  /-- A schema operation creates stores with a fresh generator and moves no other. -/
  seeded : ∀ store ∈ metadata.stores, store.keyGen = keyGenStart ∨
    ∃ store' ∈ begun.stores, store'.id = store.id ∧ store'.keyGen = store.keyGen

/-- `FsDatabase::begin`, for the metadata of the handle. -/
def FsTxn.begin (mode : TxnMode) (scope : List StoreId) (m : DatabaseMeta)
    (durability : Durability) : FsTxn where
  mode := mode
  scope := scope
  begun := m
  metadata := m
  durability := durability
  schemaDirty := false
  pendingRecords := .empty
  pendingIndexEntries := .empty
  pendingKeyGenerators := .empty
  clean := fun _ => rfl
  guarded := fun _ => rfl
  seeded := fun store h => .inr ⟨store, h, rfl, rfl⟩

namespace FsTxn

def wantsSync (t : FsTxn) : Bool := t.durability = .strict

/-! ### Schema operations

Each is refused outside an upgrade, changes the transaction's copy of the metadata
and sets the dirty flag. -/

/-- A change of the metadata by a schema operation. -/
def schemaOp (t : FsTxn) (name : String) (f : DatabaseMeta → DatabaseMeta)
    (hf : ∀ m, ∀ store ∈ (f m).stores, store.keyGen = keyGenStart ∨
      ∃ store' ∈ m.stores, store'.id = store.id ∧ store'.keyGen = store.keyGen) :
    Except BackendError FsTxn :=
  if h : t.mode ≠ .versionChange then
    .error (.internal (name ++ " requires VersionChange mode"))
  else .ok { t with
    metadata := f t.metadata
    schemaDirty := true
    clean := by simp
    guarded := fun hm => absurd hm h
    seeded := by
      intro store hstore
      rcases hf t.metadata store hstore with hs | ⟨store', hs', hid, hgen⟩
      · exact .inl hs
      · rcases t.seeded store' hs' with hs | ⟨store'', hs'', hid', hgen'⟩
        · exact .inl (hgen ▸ hs)
        · exact .inr ⟨store'', hs'', hid'.trans hid, hgen'.trans hgen⟩ }

theorem editStore_seeded {id : StoreId} {f : StoreMeta → StoreMeta}
    (hf : ∀ s, (f s).id = s.id ∧ (f s).keyGen = s.keyGen) (m : DatabaseMeta) :
    ∀ store ∈ (editStore id f m).stores, store.keyGen = keyGenStart ∨
      ∃ store' ∈ m.stores, store'.id = store.id ∧ store'.keyGen = store.keyGen := by
  intro store hstore
  rcases mem_updateFirst hstore with h | ⟨store', h, rfl⟩
  · exact .inr ⟨store, h, rfl, rfl⟩
  · exact .inr ⟨store', h, (hf store').1.symm, (hf store').2.symm⟩

def setVersion (t : FsTxn) (version : UInt64) : Except BackendError FsTxn :=
  t.schemaOp "set_version" (fun m => { m with version := version })
    fun _ store h => .inr ⟨store, h, rfl, rfl⟩

/-- The new store takes the next id; its generator starts at `1.0`. -/
def createStore (t : FsTxn) (name : Utf16String) (keyPath : KeyPath) (autoIncrement : Bool) :
    Except BackendError FsTxn :=
  t.schemaOp "create_store"
    (fun m => { m with
      nextStoreId := m.nextStoreId + 1
      stores := m.stores ++
        [⟨m.nextStoreId, name, keyPath, autoIncrement, keyGenStart, [], false⟩] })
    fun _ store h => by
      rcases List.mem_append.mp h with h | h
      · exact .inr ⟨store, h, rfl, rfl⟩
      · obtain rfl := List.mem_singleton.mp h
        exact .inl rfl

def deleteStore (t : FsTxn) (id : StoreId) : Except BackendError FsTxn :=
  t.schemaOp "delete_store" (editStore id fun s => { s with deleted := true })
    (editStore_seeded fun _ => ⟨rfl, rfl⟩)

def renameStore (t : FsTxn) (id : StoreId) (name : Utf16String) : Except BackendError FsTxn :=
  t.schemaOp "rename_store" (editStore id fun s => { s with name := name })
    (editStore_seeded fun _ => ⟨rfl, rfl⟩)

/-- The next index id is taken even when the store is not found. -/
def createIndex (t : FsTxn) (store : StoreId) (name : Utf16String) (keyPath : KeyPath)
    (unique multiEntry : Bool) : Except BackendError FsTxn :=
  t.schemaOp "create_index"
    (fun m => { editStore store (fun s => { s with
        indexes := s.indexes ++
          [⟨m.nextIndexId, store, name, keyPath, unique, multiEntry, false⟩] })
        m with nextIndexId := m.nextIndexId + 1 })
    fun m store' h => editStore_seeded (fun _ => by exact ⟨rfl, rfl⟩) m store' h

def deleteIndex (t : FsTxn) (store : StoreId) (id : IndexId) : Except BackendError FsTxn :=
  t.schemaOp "delete_index" (editIndex store id fun i => { i with deleted := true })
    (editStore_seeded fun _ => ⟨rfl, rfl⟩)

def renameIndex (t : FsTxn) (store : StoreId) (id : IndexId) (name : Utf16String) :
    Except BackendError FsTxn :=
  t.schemaOp "rename_index" (editIndex store id fun i => { i with name := name })
    (editStore_seeded fun _ => ⟨rfl, rfl⟩)

/-! ### The payload of a commit -/

/-- The metadata with the pending generator values. -/
def commitMeta (t : FsTxn) : DatabaseMeta :=
  t.pendingKeyGenerators.entries.foldl (fun m e => setKeyGen m e.1 e.2) t.metadata

/-- Whether `meta.scf` is written and the log synced. -/
def metaDirty (t : FsTxn) : Bool := t.schemaDirty || !t.pendingKeyGenerators.entries.isEmpty

def recordOp (e : RecordKey × Option Bytes) : WalOp :=
  match e.2 with
  | some value => .put e.1.store e.1.key value
  | none => .delete e.1.store e.1.key

def indexOp (e : IndexKey × Bool) : WalOp :=
  if e.2 then .indexPut e.1.index e.1.key e.1.primaryKey
  else .indexDelete e.1.index e.1.key e.1.primaryKey

/-- The operations on records, index entries and generators. -/
def dataOps (t : FsTxn) : List WalOp :=
  t.pendingRecords.entries.map recordOp ++ (t.pendingIndexEntries.entries.map indexOp ++
    t.pendingKeyGenerators.entries.map (fun e => .keyGenSet e.1 e.2))

/-- `build_commit_payload`: the operations, the metadata and the dirty flag. -/
def buildCommitPayload (t : FsTxn) : List WalOp × DatabaseMeta × Bool :=
  (t.dataOps ++ (if t.metaDirty then [.metaReplace (encodeMeta t.commitMeta)] else []),
    t.commitMeta, t.metaDirty)

def ops (t : FsTxn) : List WalOp := t.buildCommitPayload.1

/-- A pending index entry is there or is a tombstone. -/
def presentSlot (present : Bool) : Option Unit := if present then some () else none

/-- `apply_pending_to_state`: each pending map over the committed one. -/
def applyPendingToState (t : FsTxn) (m : DatabaseMeta) (txnSeq : UInt64) (bumpSeq : Bool)
    (s : DbState) : DbState :=
  { s with
    nextTxnSeq := if bumpSeq then saturatingSucc txnSeq else s.nextTxnSeq
    records := s.records.merge id t.pendingRecords
    indexEntries := s.indexEntries.merge presentSlot t.pendingIndexEntries
    keyGenerators := s.keyGenerators.merge some t.pendingKeyGenerators
    metadata := some m }

end FsTxn

/-! ### Commit -/

/-- The outcomes of the file operations of a commit, in their order. -/
structure CommitFaults where
  metadataLen : Outcome IoError := .ok
  /-- Per frame. -/
  append : ℕ → AppendFaults := fun _ => {}
  metaScf : AtomicFaults := {}
  /-- The repair of the log behind a failed step. -/
  truncate : Outcome IoError := .ok
  compact : CompactFaults := {}

/-- `metadata_len(..).unwrap_or(0)`. -/
def walLenBefore (wal : ℕ) : Outcome IoError → FsProg ℕ
  | .ok => do
      let s ← Prog.read
      pure (s.disk.walBytes wal).length
  | .fail _ => pure 0
  | .stop => fun s => (.stopped, s)

/-- On an error, truncates the log to what it was taken to be and reports the error. -/
def orRepair (wal len : ℕ) (truncate : Outcome IoError) (p : FsProg Unit) : FsProg Unit := do
  match ← p.attempt with
  | .ok _ => pure ()
  | .error err => do
      let _ ← (truncateFile wal len truncate).attempt
      Prog.throw err

/-- The frames, one after the other; only the last is synced. -/
def appendFrames (wal len : ℕ) (walSync : Bool) (f : CommitFaults) : ℕ → List Bytes → FsProg Unit
  | _, [] => pure ()
  | i, bytes :: rest => do
      orRepair wal len f.truncate
        (appendAndMaybeSync wal bytes (walSync && rest.isEmpty) (f.append i))
      appendFrames wal len walSync f (i + 1) rest

/-- The error of a payload that could not be encoded; the packing has no other error
than an operation that fits no frame. -/
def encodeError (cfg : FsConfig) : CodecError → BackendError
  | .payloadTooLarge needed => .quotaExceeded needed cfg.maxFramePayload
  | _ => .internal "encode WAL frames"

/-- Thresholds are checked behind a commit; the outcome of a compaction is ignored. -/
def countAndCompact (cfg : FsConfig) (f : CommitFaults) (appended : ℕ) : FsProg Unit := do
  Prog.modify (Session.onState fun s => { s with
    walBytesSinceCompact := s.walBytesSinceCompact + appended
    walFramesSinceCompact := s.walFramesSinceCompact + 1 })
  let _ ← (maybeCompact cfg.compact f.compact).attempt
  pure ()

namespace FsTxn

/-- The durable part of a commit, then the change of the committed state. -/
def commitFrames (t : FsTxn) (cfg : FsConfig) (f : CommitFaults) (wal len : ℕ) (txnSeq : UInt64)
    (frames : List Bytes) : FsProg Unit := do
  let (ops, m, schemaDirty) := t.buildCommitPayload
  appendFrames wal len (t.wantsSync || schemaDirty) f 0 frames
  whenSet schemaDirty (orRepair wal len f.truncate (writeMetaFile m t.wantsSync f.metaScf))
  Prog.modify (Session.onState (t.applyPendingToState m txnSeq (!ops.isEmpty)))
  whenSet (!ops.isEmpty) (countAndCompact cfg f (frames.map List.length).sum)

/-- `FsTxn::commit`. -/
def commit (t : FsTxn) (cfg : FsConfig) (f : CommitFaults) : FsProg Unit :=
  if t.mode = .readOnly then pure ()
  else do
    let s ← Prog.read
    let wal := s.state.walSeq
    let txnSeq := s.state.nextTxnSeq
    let len ← walLenBefore wal f.metadataLen
    match encodeTxnFramesLimited txnSeq t.ops cfg.maxFramePayload with
    | .error err => Prog.throw (encodeError cfg err)
    | .ok frames => t.commitFrames cfg f wal len txnSeq frames

end FsTxn

end BoaIdb.Fs
