import BoaIdb.Backend.Pending
import BoaIdb.Backend.Txn

/-!
What a transaction sees: the merged records and index entries of its database.

A backend is lawful when each operation does to this view what its name says, and leaves it
alone when it reports an error. The engine is verified on lawful backends.
-/

namespace BoaIdb

open Faults OrdMap

/-- The records and the index entries that a transaction reads. -/
@[ext]
structure View where
  records : RecordKey → Option Bytes
  entries : IndexKey → Prop

namespace View

def setRecord (w : View) (key : RecordKey) (val : Option Bytes) : View :=
  { w with records := Function.update w.records key val }

def addEntry (w : View) (key : IndexKey) : View :=
  { w with entries := fun k => k = key ∨ w.entries k }

def removeEntry (w : View) (key : IndexKey) : View :=
  { w with entries := fun k => k ≠ key ∧ w.entries k }

def removePrimary (w : View) (index : IndexId) (primaryKey : Bytes) : View :=
  { w with entries := fun k => ¬ (k.index = index ∧ k.primaryKey = primaryKey) ∧ w.entries k }

def removeRange (w : View) (store : StoreId) (range : EncodedRange) : View :=
  { w with records := fun k =>
      if k.store = store ∧ range.contains k.key = true then none else w.records k }

/-- The records of these keys are gone. -/
def forget (w : View) (keys : List RecordKey) : View :=
  { w with records := fun k => if k ∈ keys then none else w.records k }

/-- The index key is held, and not by this primary key. -/
def Taken (w : View) (key : IndexKey) : Prop :=
  ¬ w.entries key ∧ ∃ pk, w.entries ⟨key.index, key.key, pk⟩

/-- Every key of the index has one holder. -/
def OneHolder (w : View) (index : IndexId) : Prop :=
  ∀ key pk pk', w.entries ⟨index, key, pk⟩ → w.entries ⟨index, key, pk'⟩ → pk = pk'

/-- The rows of a store in a range, in key order. -/
structure Lists (w : View) (store : StoreId) (range : EncodedRange) (keyOnly : Bool)
    (rows : List (Bytes × Bytes × Option Bytes)) : Prop where
  /-- The keys ascend. -/
  sorted : (rows.map Prod.fst).Pairwise (· < ·)
  /-- A row is a record of the store in the range, with its value unless only keys are asked. -/
  rows_iff : ∀ row, row ∈ rows ↔ range.contains row.1 = true ∧ row.2.1 = row.1 ∧
    ∃ val, w.records ⟨store, row.1⟩ = some val ∧ row.2.2 = if keyOnly then none else some val

/-- The rows are determined. -/
theorem Lists.unique {w : View} {store : StoreId} {range : EncodedRange} {keyOnly : Bool}
    {rows rows' : List (Bytes × Bytes × Option Bytes)} (h : w.Lists store range keyOnly rows)
    (h' : w.Lists store range keyOnly rows') : rows = rows' := by
  have hsorted {l : List (Bytes × Bytes × Option Bytes)}
      (hl : (l.map Prod.fst).Pairwise (· < ·)) : l.Pairwise fun a b => a.1 < b.1 :=
    List.pairwise_map.mp hl
  have hnodup {l : List (Bytes × Bytes × Option Bytes)}
      (hl : (l.map Prod.fst).Pairwise (· < ·)) : l.Nodup :=
    (hsorted hl).imp fun hlt heq => (heq ▸ hlt).false
  refine List.Perm.eq_of_pairwise (fun a b _ _ hab hba => absurd hba hab.asymm) (hsorted h.sorted)
    (hsorted h'.sorted) ?_
  refine (List.perm_ext_iff_of_nodup (hnodup h.sorted) (hnodup h'.sorted)).mpr fun row => ?_
  rw [h.rows_iff, h'.rows_iff]

end View

/-- A backend whose operations act on a view. -/
class LawfulTxn (σ : Type) [BackendTxn σ] where
  view : σ → View
  /-- An upgrade transaction, for which every store is in scope. -/
  Upgrade : σ → Prop
  get (s : σ) (store : StoreId) (key : Bytes) :
    Meets (· = s) (BackendTxn.get store key)
      (fun r s' => s' = s ∧ r = (view s).records ⟨store, key⟩) (fun e s' => e.isSome ∧ s' = s)
  put (s : σ) (store : StoreId) (key val : Bytes) (noOverwrite : Bool) :
    Meets (· = s) (BackendTxn.put store key val noOverwrite)
      (fun _ s' => view s' = (view s).setRecord ⟨store, key⟩ (some val))
      (fun e s' => e.isSome ∧ s' = s)
  deleteRecord (s : σ) (store : StoreId) (key : Bytes) :
    Meets (· = s) (BackendTxn.deleteRecord store key)
      (fun _ s' => view s' = (view s).setRecord ⟨store, key⟩ none) (fun e s' => e.isSome ∧ s' = s)
  deleteRange (s : σ) (store : StoreId) (range : EncodedRange) :
    Meets (· = s) (BackendTxn.deleteRange store range)
      (fun _ s' => view s' = (view s).removeRange store range) (fun e s' => e.isSome ∧ s' = s)
  clear (s : σ) (store : StoreId) :
    Meets (· = s) (BackendTxn.clear store)
      (fun _ s' => view s' = (view s).removeRange store .all) (fun e s' => e.isSome ∧ s' = s)
  scanRows (s : σ) (store : StoreId) (range : EncodedRange) (keyOnly : Bool) :
    Meets (· = s) (BackendTxn.scanRows (.store store) range .next keyOnly)
      (fun rows s' => s' = s ∧ (view s).Lists store range keyOnly rows)
      (fun e s' => e.isSome ∧ s' = s)
  keyGenSet (s : σ) (store : StoreId) (value : F64Bits) :
    Meets (· = s) (BackendTxn.keyGenSet store value) (fun _ s' => view s' = view s)
      (fun e s' => e.isSome ∧ s' = s)
  indexPut (s : σ) (index : IndexId) (idxKey primaryKey : Bytes) (unique : Bool) :
    Meets (· = s) (BackendTxn.indexPut index idxKey primaryKey unique)
      (fun _ s' => ¬ (unique = true ∧ (view s).Taken ⟨index, idxKey, primaryKey⟩) ∧
        view s' = (view s).addEntry ⟨index, idxKey, primaryKey⟩)
      (fun e s' => e.isSome ∧ s' = s)
  indexDelete (s : σ) (index : IndexId) (idxKey primaryKey : Bytes) :
    Meets (· = s) (BackendTxn.indexDelete index idxKey primaryKey)
      (fun _ s' => view s' = (view s).removeEntry ⟨index, idxKey, primaryKey⟩)
      (fun e s' => e.isSome ∧ s' = s)
  indexDeleteByPrimary (s : σ) (index : IndexId) (primaryKey : Bytes) :
    Meets (· = s) (BackendTxn.indexDeleteByPrimary index primaryKey)
      (fun _ s' => view s' = (view s).removePrimary index primaryKey)
      (fun e s' => e.isSome ∧ s' = s)
  /-- A scan of an upgrade is not refused. -/
  scanRows_upgrade (s : σ) (store : StoreId) (range : EncodedRange) (keyOnly : Bool)
    (h : Upgrade s) :
    Meets (· = s) (BackendTxn.scanRows (.store store) range .next keyOnly) (fun _ s' => Upgrade s')
      (fun _ _ => False)
  /-- In an upgrade an index entry is refused only when its key is taken. -/
  indexPut_upgrade (s : σ) (index : IndexId) (idxKey primaryKey : Bytes) (unique : Bool)
    (h : Upgrade s) :
    Meets (· = s) (BackendTxn.indexPut index idxKey primaryKey unique) (fun _ s' => Upgrade s')
      (fun e _ => (unique = true ∧ (view s).Taken ⟨index, idxKey, primaryKey⟩) ∧
        ∃ msg, e = some (.constraint msg))

end BoaIdb
