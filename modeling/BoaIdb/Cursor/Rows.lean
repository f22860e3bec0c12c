import BoaIdb.Cursor.Model

/-!
The rows a cursor is meant to visit, read off the merged maps, and the rows its
two sources can reach.
-/

namespace BoaIdb

open OrdMap

namespace CursorMaps

def mergedRecords (maps : CursorMaps) : OrderedMap RecordKey Bytes :=
  maps.records.merge id maps.pendingRecords

def mergedIndex (maps : CursorMaps) : OrderedMap IndexKey Unit :=
  maps.index.merge Cursor.indexSlot maps.pendingIndex

/-! ### The merged rows of a source -/

/-- The keys of the merged rows of a store inside the range, in walk order. -/
def storeKeys (maps : CursorMaps) (store : StoreId) (range : EncodedRange) (desc : Bool) :
    List RecordKey :=
  ((maps.mergedRecords.ordered desc).map Prod.fst).filter
    (fun k => k.store = store ∧ range.contains k.key = true)

/-- The merged entries of an index inside the range, in walk order: by key, then
by primary key. -/
def indexKeys (maps : CursorMaps) (index : IndexId) (range : EncodedRange) (desc : Bool) :
    List IndexKey :=
  ((maps.mergedIndex.ordered desc).map Prod.fst).filter
    (fun k => k.index = index ∧ range.contains k.key = true)

/-- One entry for each index key: the one with the smallest primary key. -/
def groupMins (ks : List IndexKey) : List IndexKey :=
  ks.filter (fun k => ∀ k' ∈ ks, k'.key = k.key → k.primaryKey ≤ k'.primaryKey)

def value (maps : CursorMaps) (keyOnly : Bool) (key : RecordKey) : Option Bytes :=
  if keyOnly then none else maps.mergedRecords.get? key

def storeRow (maps : CursorMaps) (keyOnly : Bool) (k : RecordKey) : Bytes × Bytes × Option Bytes :=
  (k.key, k.key, maps.value keyOnly k)

def indexRow (maps : CursorMaps) (store : StoreId) (keyOnly : Bool) (k : IndexKey) :
    Bytes × Bytes × Option Bytes :=
  (k.key, k.primaryKey, maps.value keyOnly ⟨store, k.primaryKey⟩)

/-- The merged rows of a source inside a range, in direction order. -/
def rows (maps : CursorMaps) (src : SourceRef) (range : EncodedRange) (dir : Direction)
    (keyOnly : Bool) : List (Bytes × Bytes × Option Bytes) :=
  match src with
  | .store store => (maps.storeKeys store range dir.isPrev).map (maps.storeRow keyOnly)
  | .index store index =>
      let ks := maps.indexKeys index range dir.isPrev
      (if dir.isUnique then groupMins ks else ks).map (maps.indexRow store keyOnly)

/-! ### What the sources can reach

A backward walk that starts with no bound asks for the last entry of a whole map.
When that entry belongs to a store or index with a larger id, the source is
taken to be empty. -/

/-- The map holds an entry of a later store or index. -/
def laterNeighbour {K V : Type} [LinearOrder K] (m : OrderedMap K V) (id : K → UInt64)
    (source : UInt64) : Bool :=
  m.entries.any (fun e => source < id e.1)

/-- A backward walk of a store starts with no bound. -/
def storeUnbounded (range : EncodedRange) (desc : Bool) : Bool :=
  desc && range.upper.isNone

/-- A backward walk of an index starts with no bound; a closed upper bound is not
used as a start. -/
def indexUnbounded (range : EncodedRange) (desc : Bool) : Bool :=
  desc && match range.upper with
    | some (_, isOpen) => !isOpen
    | none => true

/-- A merged record that a source of the walk reaches. -/
def recordReached (maps : CursorMaps) (range : EncodedRange) (desc : Bool) (k : RecordKey) : Bool :=
  (maps.records.contains k && !(maps.pendingRecords.get? k).any Option.isNone &&
      !(storeUnbounded range desc && laterNeighbour maps.records RecordKey.store k.store)) ||
    ((maps.pendingRecords.get? k).any Option.isSome &&
      !(storeUnbounded range desc && laterNeighbour maps.pendingRecords RecordKey.store k.store))

/-- A merged index entry that a source of the walk reaches. -/
def entryReached (maps : CursorMaps) (range : EncodedRange) (desc : Bool) (k : IndexKey) : Bool :=
  (maps.index.contains k && !(maps.pendingIndex.get? k).any (fun live => !live) &&
      !(indexUnbounded range desc && laterNeighbour maps.index IndexKey.index k.index)) ||
    ((maps.pendingIndex.get? k).any (fun live => live) &&
      !(indexUnbounded range desc && laterNeighbour maps.pendingIndex IndexKey.index k.index))

/-- An entry of this group is reached. -/
def groupReached (maps : CursorMaps) (range : EncodedRange) (desc : Bool) (t : IndexKey) : Bool :=
  (maps.indexKeys t.index range desc).any
    (fun k => k.key = t.key ∧ maps.entryReached range desc k = true)

/-- Every merged row in the range is reached by one of the two sources. A unique
walk resolves each group by itself and gives both sources a position with its first
row, so for it the first group is enough. -/
def ReachesRows (maps : CursorMaps) (src : SourceRef) (range : EncodedRange) (dir : Direction) :
    Prop :=
  match src with
  | .store store =>
      ∀ k ∈ maps.storeKeys store range dir.isPrev, maps.recordReached range dir.isPrev k = true
  | .index _ index =>
      let ks := maps.indexKeys index range dir.isPrev
      if dir.isUnique then
        ∀ t ∈ (groupMins ks).head?, maps.groupReached range dir.isPrev t = true
      else ∀ k ∈ ks, maps.entryReached range dir.isPrev k = true

instance (maps : CursorMaps) (src : SourceRef) (range : EncodedRange) (dir : Direction) :
    Decidable (maps.ReachesRows src range dir) :=
  match src with
  | .store store => inferInstanceAs (Decidable
      (∀ k ∈ maps.storeKeys store range dir.isPrev, maps.recordReached range dir.isPrev k = true))
  | .index _ index =>
      inferInstanceAs (Decidable (if dir.isUnique then
          ∀ t ∈ (groupMins (maps.indexKeys index range dir.isPrev)).head?,
            maps.groupReached range dir.isPrev t = true
        else ∀ k ∈ maps.indexKeys index range dir.isPrev,
          maps.entryReached range dir.isPrev k = true))

end CursorMaps

end BoaIdb
