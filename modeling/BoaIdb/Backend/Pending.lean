import BoaIdb.Backend.Schema
import BoaIdb.Cursor.Rows

/-!
The pending changes of a transaction of the memory or the filesystem backend.

Both backends keep the changes of a transaction in three maps over the committed ones and
an undo log for each request savepoint. Their operations on these are the same, so one
model embeds both; the filesystem adds a quota to `put`.
-/

namespace BoaIdb

open OrdMap

/-- The committed maps of a database. -/
structure Rows where
  records : OrderedMap RecordKey Bytes
  indexEntries : OrderedMap IndexKey Unit
  keyGenerators : OrderedMap StoreId F64Bits
  deriving DecidableEq

namespace Rows

def empty : Rows := ⟨.empty, .empty, .empty⟩

/-- The committed value of a generator. -/
def generator (base : Rows) (store : StoreId) : F64Bits :=
  (base.keyGenerators.get? store).getD keyGenStart

end Rows

/-- Previous pending state of a record entry. -/
inductive PendingSlot
  /-- No pending entry. -/
  | absent
  /-- A pending tombstone. -/
  | deleted
  | value (value : Bytes)
  deriving DecidableEq

/-- Undo operation for savepoint rollback. -/
inductive UndoOp
  | restoreRecord (key : RecordKey) (old : PendingSlot)
  | restoreIndex (key : IndexKey) (old : Option Bool)
  | restoreKeyGen (store : StoreId) (oldVal : F64Bits)
  deriving DecidableEq

/-- The pending maps and the undo logs. The innermost savepoint level comes first, and in
each log the latest entry. -/
structure Pending where
  records : OrderedMap RecordKey (Option Bytes)
  indexEntries : OrderedMap IndexKey Bool
  keyGenerators : OrderedMap StoreId F64Bits
  undoStack : List (List UndoOp)
  deriving DecidableEq

namespace Pending

def empty : Pending := ⟨.empty, .empty, .empty, []⟩

/-! ### Reads -/

/-- Pending changes first, then committed storage. -/
def readRecord (base : Rows) (p : Pending) (key : RecordKey) : Option Bytes :=
  match p.records.get? key with
  | some val => val
  | none => base.records.get? key

def recordExists (base : Rows) (p : Pending) (key : RecordKey) : Bool :=
  match p.records.get? key with
  | some val => val.isSome
  | none => base.records.contains key

def indexEntryExists (base : Rows) (p : Pending) (key : IndexKey) : Bool :=
  match p.indexEntries.get? key with
  | some existed => existed
  | none => base.indexEntries.contains key

/-- The primary keys that hold an index key. -/
def findIndexEntries (base : Rows) (p : Pending) (index : IndexId) (idxKey : Bytes) :
    List Bytes :=
  let committed := (base.indexEntries.keys.filter (fun k =>
    k.index = index ∧ k.key = idxKey ∧ (p.indexEntries.get? k).getD true = true)).map
      IndexKey.primaryKey
  let pending := (p.indexEntries.entries.filter (fun e =>
    e.1.index = index ∧ e.1.key = idxKey ∧ e.2 = true)).map (fun e => e.1.primaryKey)
  committed ++ pending.filter (fun pk => pk ∉ committed)

/-- The keys under which an index holds a primary key. -/
def findIndexEntriesByPrimary (base : Rows) (p : Pending) (index : IndexId)
    (primaryKey : Bytes) : List Bytes :=
  let committed := (base.indexEntries.keys.filter (fun k =>
    k.index = index ∧ k.primaryKey = primaryKey ∧ (p.indexEntries.get? k).getD true = true)).map
      IndexKey.key
  let pending := (p.indexEntries.entries.filter (fun e =>
    e.1.index = index ∧ e.1.primaryKey = primaryKey ∧ e.2 = true)).map (fun e => e.1.key)
  committed ++ pending.filter (fun ik => ik ∉ committed)

def keyGenCurrent (base : Rows) (p : Pending) (store : StoreId) : F64Bits :=
  match p.keyGenerators.get? store with
  | some val => val
  | none => base.generator store

/-- The maps a cursor of the transaction walks. -/
def cursorMaps (base : Rows) (p : Pending) : CursorMaps :=
  ⟨base.records, base.indexEntries, p.records, p.indexEntries⟩

/-- The rows of a source in a range, committed ones first. -/
def count (base : Rows) (p : Pending) (src : SourceRef) (range : EncodedRange) : ℕ :=
  match src with
  | .store store =>
      (base.records.keys.filter (fun k => k.store = store ∧ range.contains k.key = true ∧
        (p.records.get? k).all Option.isSome = true)).length +
      (p.records.entries.filter (fun e => e.1.store = store ∧ e.2.isSome = true ∧
        range.contains e.1.key = true ∧ base.records.contains e.1 = false)).length
  | .index _ index =>
      (base.indexEntries.keys.filter (fun k => k.index = index ∧ range.contains k.key = true ∧
        (p.indexEntries.get? k).getD true = true)).length +
      (p.indexEntries.entries.filter (fun e => e.1.index = index ∧ e.2 = true ∧
        range.contains e.1.key = true ∧ base.indexEntries.contains e.1 = false)).length

/-! ### Savepoints -/

/-- An entry in the log of the innermost level; without a level nothing is kept. -/
def log (p : Pending) (op : UndoOp) : Pending :=
  match p.undoStack with
  | [] => p
  | ops :: outer => { p with undoStack := (op :: ops) :: outer }

def beginRequest (p : Pending) : Pending := { p with undoStack := [] :: p.undoStack }

/-- The log joins that of the outer level. -/
def commitRequest (p : Pending) : Except BackendError Pending :=
  match p.undoStack with
  | [] => .error (.internal "commit_request without matching begin_request")
  | [_] => .ok { p with undoStack := [] }
  | ops :: parent :: outer => .ok { p with undoStack := (ops ++ parent) :: outer }

def undo (p : Pending) : UndoOp → Pending
  | .restoreRecord key (.value val) => { p with records := p.records.insert key (some val) }
  | .restoreRecord key .deleted => { p with records := p.records.insert key none }
  | .restoreRecord key .absent => { p with records := p.records.erase key }
  | .restoreIndex key (some existed) =>
      { p with indexEntries := p.indexEntries.insert key existed }
  | .restoreIndex key none => { p with indexEntries := p.indexEntries.erase key }
  | .restoreKeyGen store oldVal => { p with keyGenerators := p.keyGenerators.insert store oldVal }

/-- The log of the innermost level, latest entry first. -/
def rollbackRequest (p : Pending) : Except BackendError Pending :=
  match p.undoStack with
  | [] => .error (.internal "rollback_request without matching begin_request")
  | ops :: outer => .ok (ops.foldl undo { p with undoStack := outer })

/-! ### Writes -/

/-- Captures the current pending slot of a record for the undo log. -/
def pendingSlot (p : Pending) (key : RecordKey) : PendingSlot :=
  match p.records.get? key with
  | none => .absent
  | some none => .deleted
  | some (some val) => .value val

def setRecord (p : Pending) (key : RecordKey) (val : Option Bytes) : Pending :=
  let p := p.log (.restoreRecord key (p.pendingSlot key))
  { p with records := p.records.insert key val }

def setIndexEntry (p : Pending) (key : IndexKey) (existed : Bool) : Pending :=
  let p := p.log (.restoreIndex key (p.indexEntries.get? key))
  { p with indexEntries := p.indexEntries.insert key existed }

/-- The quota is asked only for a record that is not there yet. -/
def put (base : Rows) (p : Pending) (quota : Pending → Except BackendError Unit)
    (key : RecordKey) (val : Bytes) (noOverwrite : Bool) : Except BackendError Pending :=
  let existed := p.recordExists base key
  if noOverwrite && existed then
    .error (.constraint ("Record already exists for key in store " ++ toString key.store))
  else
    match (if existed then .ok () else quota p : Except BackendError Unit) with
    | .error err => .error err
    | .ok _ => .ok (p.setRecord key (some val))

def deleteRecord (base : Rows) (p : Pending) (key : RecordKey) : Pending × Bool :=
  (p.setRecord key none, (p.readRecord base key).isSome)

/-- A pending-only record leaves no tombstone behind. -/
def dropPending (acc : Pending × ℕ) (key : RecordKey) : Pending × ℕ :=
  match acc.1.records.get? key with
  | some (some val) =>
      let p := acc.1.log (.restoreRecord key (.value val))
      ({ p with records := p.records.erase key }, acc.2 + 1)
  | _ => acc

def tombstone (base : Rows) (acc : Pending × ℕ) (key : RecordKey) : Pending × ℕ :=
  (acc.1.setRecord key none,
    if (acc.1.readRecord base key).isSome then acc.2 + 1 else acc.2)

/-- Committed keys of the range first, then those only pending. -/
def deleteRange (base : Rows) (p : Pending) (store : StoreId) (range : EncodedRange) :
    Pending × ℕ :=
  let keysInRange := base.records.keys.filter
    (fun k => k.store = store ∧ range.contains k.key = true)
  let pendingKeys := p.records.keys.filter
    (fun k => k.store = store ∧ range.contains k.key = true)
  (pendingKeys.filter (fun k => k ∉ keysInRange)).foldl dropPending
    (keysInRange.foldl (tombstone base) (p, 0))

/-- Tombstones for all keys of the store, so that reads see them gone. -/
def clear (base : Rows) (p : Pending) (store : StoreId) : Pending :=
  let keys := base.records.keys.filter (fun k => k.store = store)
  let pendingKeys := (p.records.keys.filter (fun k => k.store = store)).filter (· ∉ keys)
  (keys ++ pendingKeys).foldl (fun p key => p.setRecord key none) p

def keyGenSet (base : Rows) (p : Pending) (store : StoreId) (value : F64Bits) : Pending :=
  let p := p.log (.restoreKeyGen store (p.keyGenCurrent base store))
  { p with keyGenerators := p.keyGenerators.insert store value }

def indexPut (base : Rows) (p : Pending) (key : IndexKey) (unique : Bool) :
    Except BackendError Pending :=
  if unique && !p.indexEntryExists base key &&
      !(p.findIndexEntries base key.index key.key).isEmpty then
    .error (.constraint ("Unique constraint violation for index " ++ toString key.index))
  else .ok (p.setIndexEntry key true)

def indexDelete (p : Pending) (key : IndexKey) : Pending := p.setIndexEntry key false

def indexDeleteByPrimary (base : Rows) (p : Pending) (index : IndexId) (primaryKey : Bytes) :
    Pending :=
  (p.findIndexEntriesByPrimary base index primaryKey).foldl
    (fun p idxKey => p.setIndexEntry ⟨index, idxKey, primaryKey⟩ false) p

/-! ### Commit -/

/-- The pending maps over the committed ones. -/
def applyTo (p : Pending) (base : Rows) : Rows where
  records := base.records.merge id p.records
  indexEntries := base.indexEntries.merge Cursor.indexSlot p.indexEntries
  keyGenerators := base.keyGenerators.merge some p.keyGenerators

end Pending

end BoaIdb
