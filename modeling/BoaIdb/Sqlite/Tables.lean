import BoaIdb.Backend.Schema
import BoaIdb.Lib.OrderedMap

/-!
The tables of a database file, and the statements that are run against them.

Names and key paths stand decoded in their columns. Foreign keys are on, with cascades.
-/

namespace BoaIdb.Sqlite

open OrdMap

/-- The digest that names a blob file: `<xx>/<sha256>.bin`. -/
abbrev BlobPath := Bytes

/-- A row of `object_stores`, under its id. -/
structure StoreRow where
  name : Utf16String
  keyPath : KeyPath
  autoIncrement : Bool
  keyGen : F64Bits
  deriving DecidableEq, Repr

/-- A row of `indexes`, under its id. -/
structure IndexRow where
  storeId : StoreId
  name : Utf16String
  keyPath : KeyPath
  isUnique : Bool
  multiEntry : Bool
  deriving DecidableEq, Repr

/-- The columns `value` and `ext` of a row of `records`. -/
structure RecordRow where
  value : Option Bytes
  ext : Option BlobPath
  deriving DecidableEq, Repr

structure Tables where
  /-- The rows `db_name` and `version` of `meta`. -/
  dbName : Utf16String
  version : UInt64
  objectStores : OrderedMap StoreId StoreRow
  indexes : OrderedMap IndexId IndexRow
  records : OrderedMap RecordKey RecordRow
  indexRecords : OrderedMap IndexKey Unit
  /-- `store_id` references a row of `object_stores`. -/
  references : ∀ id row, indexes.get? id = some row → objectStores.contains row.storeId = true

/-- What SQLite reports of a statement that it refuses. -/
inductive SqlError
  | unique
  | foreignKey
  | full
  deriving DecidableEq, Repr

def SqlError.text : SqlError → String
  | .unique => "UNIQUE constraint failed"
  | .foreignKey => "FOREIGN KEY constraint failed"
  | .full => "database or disk is full"

/-- The id that an `INTEGER PRIMARY KEY` gives to a new row: one more than the largest. With the
largest `i64` in use the insertion fails; the attempts at random ids before that are left out. -/
def nextRowid {V : Type} (table : OrderedMap UInt64 V) : Except SqlError UInt64 :=
  match table.keys.getLast? with
  | none => .ok 1
  | some id => if id < 0x7FFFFFFFFFFFFFFF then .ok (id + 1) else .error .full

namespace Tables

def empty (dbName : Utf16String) : Tables where
  dbName
  version := 0
  objectStores := .empty
  indexes := .empty
  records := .empty
  indexRecords := .empty
  references _ _ h := by cases h

/-! ### Schema -/

/-- Another row of `object_stores` has the name. -/
def storeNamed (t : Tables) (id : StoreId) (name : Utf16String) : Bool :=
  t.objectStores.entries.any fun e => decide (e.1 ≠ id ∧ e.2.name = name)

/-- A row of `object_stores` under its id, old or new. -/
def setStore (t : Tables) (id : StoreId) (row : StoreRow) : Tables :=
  { t with
    objectStores := t.objectStores.insert id row
    references := fun i r h => by
      rw [OrderedMap.contains_insert, t.references i r h, Bool.or_true] }

/-- `INSERT INTO object_stores`; the new id is `last_insert_rowid`. -/
def insertStore (t : Tables) (name : Utf16String) (keyPath : KeyPath) (autoIncrement : Bool) :
    Except SqlError (StoreId × Tables) := do
  let id ← nextRowid t.objectStores
  if t.storeNamed id name then .error .unique
  else .ok (id, t.setStore id ⟨name, keyPath, autoIncrement, keyGenStart⟩)

/-- The entries of the indexes that are left. -/
def cascadeIndexes (t : Tables) : Tables :=
  { t with indexRecords := t.indexRecords.filter fun k _ => t.indexes.contains k.index }

/-- `DELETE FROM object_stores WHERE id = ?1`, which takes the indexes and records along. -/
def deleteStore (t : Tables) (id : StoreId) : Tables :=
  cascadeIndexes { t with
    objectStores := t.objectStores.erase id
    indexes := t.indexes.filter fun _ row => row.storeId ≠ id
    records := t.records.filter fun k _ => k.store ≠ id
    references := fun i r h => by
      rw [OrderedMap.get?_filter, Option.filter_eq_some_iff] at h
      rw [OrderedMap.contains_erase_of_ne _ (by simpa using h.2)]
      exact t.references i r h.1 }

/-- `UPDATE object_stores SET name = ?1 WHERE id = ?2`. -/
def renameStore (t : Tables) (id : StoreId) (name : Utf16String) : Except SqlError Tables :=
  match t.objectStores.get? id with
  | none => .ok t
  | some row =>
      if t.storeNamed id name then .error .unique
      else .ok (t.setStore id { row with name := name })

/-- Another row of `indexes` has the name in this store. -/
def indexNamed (t : Tables) (store : StoreId) (id : IndexId) (name : Utf16String) : Bool :=
  t.indexes.entries.any fun e => decide (e.1 ≠ id ∧ e.2.storeId = store ∧ e.2.name = name)

/-- A row of `indexes` under its id, old or new. -/
def setIndex (t : Tables) (id : IndexId) (row : IndexRow)
    (h : t.objectStores.contains row.storeId = true) : Tables :=
  { t with
    indexes := t.indexes.insert id row
    references := fun i r hr => by
      rw [OrderedMap.get?_insert] at hr
      split at hr
      · cases hr
        exact h
      · exact t.references i r hr }

/-- `INSERT INTO indexes`. -/
def insertIndex (t : Tables) (row : IndexRow) : Except SqlError (IndexId × Tables) := do
  let id ← nextRowid t.indexes
  if t.indexNamed row.storeId id row.name then .error .unique
  else if h : t.objectStores.contains row.storeId = true then .ok (id, t.setIndex id row h)
  else .error .foreignKey

/-- `DELETE FROM indexes WHERE id = ?1 AND store_id = ?2`. -/
def deleteIndex (t : Tables) (store : StoreId) (id : IndexId) : Tables :=
  cascadeIndexes { t with
    indexes := t.indexes.filter fun k row => !decide (k = id ∧ row.storeId = store)
    references := fun i r h => by
      rw [OrderedMap.get?_filter, Option.filter_eq_some_iff] at h
      exact t.references i r h.1 }

/-- `UPDATE indexes SET name = ?1 WHERE id = ?2 AND store_id = ?3`. -/
def renameIndex (t : Tables) (store : StoreId) (id : IndexId) (name : Utf16String) :
    Except SqlError Tables :=
  match h : t.indexes.get? id with
  | none => .ok t
  | some row =>
      if row.storeId ≠ store then .ok t
      else if t.indexNamed store id name then .error .unique
      else .ok (t.setIndex id { row with name := name } (t.references id row h))

/-! ### Metadata -/

/-- `load_indexes`, in the order of the ids. -/
def loadIndexes (t : Tables) (store : StoreId) : List IndexMeta :=
  (t.indexes.entries.filter fun e => e.2.storeId = store).map fun e =>
    ⟨e.1, store, e.2.name, e.2.keyPath, e.2.isUnique, e.2.multiEntry, false⟩

def loadStores (t : Tables) : List StoreMeta :=
  t.objectStores.entries.map fun e =>
    ⟨e.1, e.2.name, e.2.keyPath, e.2.autoIncrement, e.2.keyGen, t.loadIndexes e.1, false⟩

/-- `load_metadata`. -/
def loadMetadata (t : Tables) : DatabaseMeta where
  name := t.dbName
  version := t.version
  stores := t.loadStores
  nextStoreId := t.loadStores.foldl (fun next s => max next (s.id + 1)) 1
  nextIndexId :=
    (t.loadStores.flatMap StoreMeta.indexes).foldl (fun next i => max next (i.id + 1)) 1

/-! ### Records and index entries -/

/-- `INSERT INTO records`, refused when the key is there. -/
def insertRecord (t : Tables) (key : RecordKey) (row : RecordRow) : Except SqlError Tables :=
  if t.records.contains key then .error .unique
  else if !t.objectStores.contains key.store then .error .foreignKey
  else .ok { t with records := t.records.insert key row }

/-- `INSERT INTO records … ON CONFLICT DO UPDATE`. -/
def upsertRecord (t : Tables) (key : RecordKey) (row : RecordRow) : Except SqlError Tables :=
  if !t.objectStores.contains key.store then .error .foreignKey
  else .ok { t with records := t.records.insert key row }

/-- `DELETE FROM records WHERE …`, and the number of rows. -/
def deleteRecords (t : Tables) (p : RecordKey → Bool) : ℕ × Tables :=
  ((t.records.filter fun k _ => p k).size, { t with records := t.records.filter fun k _ => !p k })

/-- `INSERT OR IGNORE INTO index_records`. -/
def insertIndexRecord (t : Tables) (key : IndexKey) : Except SqlError Tables :=
  if !t.indexes.contains key.index then .error .foreignKey
  else .ok { t with indexRecords := t.indexRecords.insert key () }

/-- `DELETE FROM index_records WHERE …`. -/
def deleteIndexRecords (t : Tables) (p : IndexKey → Bool) : Tables :=
  { t with indexRecords := t.indexRecords.filter fun k _ => !p k }

/-- `index_id IN (SELECT id FROM indexes WHERE store_id = ?1)`. -/
def ofStore (t : Tables) (store : StoreId) (index : IndexId) : Bool :=
  (t.indexes.get? index).any fun row => decide (row.storeId = store)

/-- `UPDATE object_stores SET key_gen = ?1 WHERE id = ?2`. -/
def setKeyGen (t : Tables) (id : StoreId) (value : F64Bits) : Tables :=
  match t.objectStores.get? id with
  | none => t
  | some row => t.setStore id { row with keyGen := value }

end Tables

end BoaIdb.Sqlite
