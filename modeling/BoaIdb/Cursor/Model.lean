import BoaIdb.Core.Types
import BoaIdb.Lib.OverlayWalk

/-!
The lazy merge cursor of the memory and the filesystem backend.

Both backends keep committed records and committed index entries in ordered
maps shared by all stores and indexes, and a transaction keeps its own pending
overlay. A cursor re-seeks both maps at every step and merges them; it holds
positions, one buffered row, and no list of rows. The two backends' cursors
differ only in where the committed maps come from, so one model embeds both.
-/

namespace BoaIdb

open OrdMap

/-- Results of cursor operations. The outer `none` is a loop that ran out of
the model's fuel, which `visit_total` excludes. -/
abbrev CursorResult (α : Type) := ExceptT BackendError Option α

/-- The maps a cursor merges: the committed state and the pending overlay. -/
structure CursorMaps where
  records : OrderedMap RecordKey Bytes
  index : OrderedMap IndexKey Unit
  pendingRecords : OrderedMap RecordKey (Option Bytes)
  pendingIndex : OrderedMap IndexKey Bool

inductive CursorKind
  | store (store : StoreId)
  | index (store : StoreId) (index : IndexId) (unique : Bool)
  deriving DecidableEq

inductive CursorSeek
  | first
  | key (key : Bytes)
  | keyAndPrimaryKey (key pkey : Bytes)

structure Cursor where
  maps : CursorMaps
  kind : CursorKind
  range : EncodedRange
  desc : Bool
  keyOnly : Bool
  /-- `committed_record_pos` and `pending_record_pos`. -/
  recordPos : Positions RecordKey
  /-- `committed_index_pos` and `pending_index_pos`. -/
  indexPos : Positions IndexKey
  /-- Inclusive seek floors, clamped with the range. -/
  floorRecord : Option RecordKey
  floorIndex : Option IndexKey
  /-- Last yielded index key. -/
  lastIndexKey : Option Bytes
  /-- The buffered row: key, primary key, value. -/
  current : Option (Bytes × Bytes × Option Bytes)
  exhausted : Bool

namespace Cursor

/-- Opens a cursor; fetches nothing until positioned. -/
def «open» (maps : CursorMaps) (kind : CursorKind) (range : EncodedRange) (dir : Direction)
    (keyOnly : Bool) : Cursor where
  maps
  kind
  range
  desc := dir.isPrev
  keyOnly
  recordPos := .start
  indexPos := .start
  floorRecord := none
  floorIndex := none
  lastIndexKey := none
  current := none
  exhausted := true

def openStore (maps : CursorMaps) (store : StoreId) (range : EncodedRange) (dir : Direction)
    (keyOnly : Bool) : Cursor :=
  «open» maps (.store store) range dir keyOnly

def openIndex (maps : CursorMaps) (store : StoreId) (index : IndexId) (range : EncodedRange)
    (dir : Direction) (keyOnly : Bool) : Cursor :=
  «open» maps (.index store index dir.isUnique) range dir keyOnly

/-- `scan`: the cursor of a source. -/
def scan (maps : CursorMaps) (src : SourceRef) (range : EncodedRange) (dir : Direction)
    (keyOnly : Bool) : Cursor :=
  match src with
  | .store store => openStore maps store range dir keyOnly
  | .index store index => openIndex maps store index range dir keyOnly

/-! ### Start bounds

Where a source starts before it has a position; committed and pending starts
are the same, and `resume` lets a position win over both. -/

/-- `start_record_lower` and `pending_start_record`: the range's lower bound in
store scope, or the seek floor when that is narrower. -/
def startRecordLower (c : Cursor) (store : StoreId) : Bound RecordKey :=
  let (key, inclusive) : RecordKey × Bool :=
    match c.range.lower with
    | some (lo, isOpen) => (⟨store, lo⟩, !isOpen)
    | none => (⟨store, []⟩, true)
  let (key, inclusive) :=
    match c.floorRecord with
    | some floor => if key.key < floor.key then (floor, true) else (key, inclusive)
    | none => (key, inclusive)
  if inclusive then .included key else .excluded key

/-- `start_record_upper` and `pending_end_record`. -/
def startRecordUpper (c : Cursor) (store : StoreId) : Bound RecordKey :=
  match c.range.upper, c.floorRecord with
  | none, none => .unbounded
  | none, some floor => .included floor
  | some (hi, isOpen), none => if isOpen then .excluded ⟨store, hi⟩ else .included ⟨store, hi⟩
  | some (hi, isOpen), some floor =>
      if floor.key < hi then .included floor
      else if isOpen then .excluded ⟨store, hi⟩ else .included ⟨store, hi⟩

/-- `start_index_lower` and `pending_start_index`. -/
def startIndexLower (c : Cursor) (index : IndexId) : Bound IndexKey :=
  let (key, inclusive) : IndexKey × Bool :=
    match c.range.lower with
    | some (lo, isOpen) => (⟨index, lo, []⟩, !isOpen)
    | none => (⟨index, [], []⟩, true)
  let (key, inclusive) :=
    match c.floorIndex with
    | some floor =>
        if key.key < floor.key ∨ key.key = floor.key ∧ key.primaryKey < floor.primaryKey then
          (floor, true)
        else (key, inclusive)
    | none => (key, inclusive)
  if inclusive then .included key else .excluded key

/-- `start_index_upper` and `pending_end_index`. An inclusive upper bound would
have to cover a whole group of primary keys, so it is left unbounded. -/
def startIndexUpper (c : Cursor) (index : IndexId) : Bound IndexKey :=
  match c.floorIndex with
  | some floor => .included floor
  | none =>
      match c.range.upper with
      | some (hi, true) => .excluded ⟨index, hi, []⟩
      | some (_, false) => .unbounded
      | none => .unbounded

/-- Whether a key is past the range end for the direction. -/
def pastUpper (c : Cursor) (key : Bytes) : Bool :=
  if c.desc then
    match c.range.lower with
    | some (lo, isOpen) => key < lo || (key = lo && isOpen)
    | none => false
  else
    match c.range.upper with
    | some (hi, isOpen) => hi < key || (key = hi && isOpen)
    | none => false

/-! ### Advancing -/

/-- The merge of the committed and the pending records of a store. -/
def storeWalk (c : Cursor) (store : StoreId) : OverlayWalk RecordKey Bytes (Option Bytes) where
  base := c.maps.records
  overlay := c.maps.pendingRecords
  slot := id
  desc := c.desc
  start := if c.desc then c.startRecordUpper store else c.startRecordLower store
  inside key := key.store = store

/-- An index entry is `()`; a pending slot is live or a tombstone. -/
def indexSlot (live : Bool) : Option Unit :=
  if live then some () else none

/-- The merge of the committed and the pending entries of an index. -/
def indexWalk (c : Cursor) (index : IndexId) : OverlayWalk IndexKey Unit Bool where
  base := c.maps.index
  overlay := c.maps.pendingIndex
  slot := indexSlot
  desc := c.desc
  start := if c.desc then c.startIndexUpper index else c.startIndexLower index
  inside key := key.index = index

/-- A row outside the range ends the walk when it is past the range's end, and
is skipped otherwise. -/
def rangeVerdict (c : Cursor) (key : Bytes) : Verdict :=
  if c.range.contains key then .take
  else if c.pastUpper key then .stop
  else .skip

/-- Unique cursors also skip the rest of the group they have just yielded. -/
def indexVerdict (c : Cursor) (unique : Bool) (key : Bytes) : Verdict :=
  if c.range.contains key = true ∧ unique = true ∧ c.lastIndexKey = some key then .skip
  else c.rangeVerdict key

/-- Reads the merged value for a record key, pending overlay first. -/
def readMerged (c : Cursor) (key : RecordKey) : Option Bytes :=
  match c.maps.pendingRecords.get? key with
  | some slot => slot
  | none => c.maps.records.get? key

def advanceStore (c : Cursor) (store : StoreId) : CursorResult (Bool × Cursor) :=
  let fuel := c.maps.records.size + c.maps.pendingRecords.size + 1
  match (c.storeWalk store).advance (fun key => c.rangeVerdict key.key) fuel c.recordPos with
  | none => none
  | some (pos, none) =>
      pure (false, { c with recordPos := pos, exhausted := true, current := none })
  | some (pos, some (key, slot)) =>
      let value := if c.keyOnly then none else slot.join.or (c.readMerged key)
      pure (true, { c with recordPos := pos, current := some (key.key, key.key, value) })

/-- The value that goes with an index row. -/
def indexValue (c : Cursor) (store : StoreId) (pkey : Bytes) : Option Bytes :=
  if c.keyOnly then none else c.readMerged ⟨store, pkey⟩

/-- The entries of one index-key group, found from `(index, key, ⊥)` on. -/
def group {V : Type} (m : OrderedMap IndexKey V) (index : IndexId) (idxKey : Bytes) :
    List (IndexKey × V) :=
  m.remaining false (.included ⟨index, idxKey, []⟩) (fun k => k.index = index ∧ k.key = idxKey)

/-- Committed member: smallest primary key of the group, tombstone-free. -/
def committedMin (c : Cursor) (index : IndexId) (idxKey : Bytes) : Option (IndexKey × Unit) :=
  (group c.maps.index index idxKey).find?
    (fun e => !(c.maps.pendingIndex.get? e.1).any (fun live => !live))

/-- Pending member: smallest live primary key of the group. -/
def pendingMin (c : Cursor) (index : IndexId) (idxKey : Bytes) : Option (IndexKey × Bool) :=
  (group c.maps.pendingIndex index idxKey).find? (fun e => e.2)

/-- Smallest primary key, and its value, of an index-key group. -/
def groupMin (c : Cursor) (store : StoreId) (index : IndexId) (idxKey : Bytes) :
    CursorResult (Bytes × Option Bytes) :=
  match c.committedMin index idxKey, c.pendingMin index idxKey with
  | some cm, some pm =>
      if pm.1.primaryKey < cm.1.primaryKey then
        pure (pm.1.primaryKey, c.indexValue store pm.1.primaryKey)
      else pure (cm.1.primaryKey, c.indexValue store cm.1.primaryKey)
  | some cm, none => pure (cm.1.primaryKey, c.indexValue store cm.1.primaryKey)
  | none, some pm => pure (pm.1.primaryKey, c.indexValue store pm.1.primaryKey)
  | none, none => throw (.internal "unique group vanished mid-iteration")

def advanceIndex (c : Cursor) (store : StoreId) (index : IndexId) (unique : Bool) :
    CursorResult (Bool × Cursor) :=
  let fuel := c.maps.index.size + c.maps.pendingIndex.size + 1
  match (c.indexWalk index).advance (fun key => c.indexVerdict unique key.key) fuel c.indexPos with
  | none => none
  | some (pos, none) => pure (false, { c with indexPos := pos, exhausted := true, current := none })
  | some (pos, some (key, _)) =>
      if unique = true ∧ c.desc = true then do
        let (minPkey, value) ← c.groupMin store index key.key
        -- Both descents jump below the whole group.
        let min : IndexKey := ⟨index, key.key, minPkey⟩
        pure (true, { c with
          indexPos := ⟨some min, some min⟩
          lastIndexKey := some key.key
          current := some (key.key, minPkey, value) })
      else
        pure (true, { c with
          indexPos := pos
          lastIndexKey := if unique then some key.key else c.lastIndexKey
          current := some (key.key, key.primaryKey, c.indexValue store key.primaryKey) })

/-- Advances to the next matching row, buffering it. -/
def advance (c : Cursor) : CursorResult (Bool × Cursor) :=
  match c.kind with
  | .store store => c.advanceStore store
  | .index store index unique => c.advanceIndex store index unique

/-- The merge state and the floors reset, as every seek starts. -/
def rewound (c : Cursor) : Cursor := { c with
  recordPos := .start
  indexPos := .start
  floorRecord := none
  floorIndex := none
  lastIndexKey := none
  exhausted := false }

def seek (c : Cursor) (target : CursorSeek) : CursorResult (Bool × Cursor) :=
  match target with
  | .first => c.rewound.advance
  | .key key =>
      match c.kind with
      | .store store => { c.rewound with floorRecord := some ⟨store, key⟩ }.advance
      | .index _ index _ => { c.rewound with floorIndex := some ⟨index, key, []⟩ }.advance
  | .keyAndPrimaryKey key pkey =>
      match c.kind with
      -- Store keys are primary keys.
      | .store store => { c.rewound with floorRecord := some ⟨store, key⟩ }.advance
      | .index _ index _ => { c.rewound with floorIndex := some ⟨index, key, pkey⟩ }.advance

def stepLoop : ℕ → Cursor → CursorResult (Bool × Cursor)
  | 0, c => pure (true, c)
  | count + 1, c => do
      let (more, c) ← c.advance
      if more then stepLoop count c else pure (false, c)

def step (c : Cursor) (count : ℕ) : CursorResult (Bool × Cursor) :=
  if c.exhausted then pure (false, c) else stepLoop count c

def currentKey (c : Cursor) : Bytes :=
  if c.exhausted then [] else (c.current.map Prod.fst).getD []

def currentPrimaryKey (c : Cursor) : Bytes :=
  if c.exhausted then [] else (c.current.map (fun row => row.2.1)).getD []

def currentValue (c : Cursor) : Option Bytes :=
  if c.keyOnly || c.exhausted then none else c.current.bind (fun row => row.2.2)

/-! ### A full walk -/

/-- What a caller reads at the current row. -/
def row (c : Cursor) : Bytes × Bytes × Option Bytes :=
  (c.currentKey, c.currentPrimaryKey, c.currentValue)

/-- The rows from the current one on, stepping by one until the cursor ends. -/
def collect : ℕ → Cursor → CursorResult (List (Bytes × Bytes × Option Bytes))
  | 0, _ => none
  | fuel + 1, c => do
      let (more, c') ← c.step 1
      if more then
        let rows ← collect fuel c'
        pure (c.row :: rows)
      else pure [c.row]

/-- Seeks to the first row and steps by one until the cursor ends. -/
def visit (c : Cursor) : CursorResult (List (Bytes × Bytes × Option Bytes)) := do
  let (found, c) ← c.seek .first
  if found then
    collect (c.maps.records.size + c.maps.pendingRecords.size + c.maps.index.size +
      c.maps.pendingIndex.size + 1) c
  else pure []

end Cursor

end BoaIdb
