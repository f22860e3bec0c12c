import BoaIdb.Core.Types
import BoaIdb.Lib.Faults

/-!
The operations of a backend transaction that the engine calls.
-/

namespace BoaIdb

open Faults

/-- `trait BackendTxn`, without its schema operations. A state stands for the transaction
and the storage under it. -/
class BackendTxn (σ : Type) where
  beginRequest : Prog σ BackendError Unit
  commitRequest : Prog σ BackendError Unit
  rollbackRequest : Prog σ BackendError Unit
  put (store : StoreId) (key value : Bytes) (noOverwrite : Bool) : Prog σ BackendError Unit
  get (store : StoreId) (key : Bytes) : Prog σ BackendError (Option Bytes)
  deleteRecord (store : StoreId) (key : Bytes) : Prog σ BackendError Bool
  deleteRange (store : StoreId) (range : EncodedRange) : Prog σ BackendError ℕ
  clear (store : StoreId) : Prog σ BackendError Unit
  count (src : SourceRef) (range : EncodedRange) : Prog σ BackendError ℕ
  /-- `scan`, and the rows that `seek(First)` and `step(1)` visit until the cursor ends: the
  cursor borrows the transaction, so nothing comes between. -/
  scanRows (src : SourceRef) (range : EncodedRange) (dir : Direction) (keyOnly : Bool) :
    Prog σ BackendError (List (Bytes × Bytes × Option Bytes))
  keyGenCurrent (store : StoreId) : Prog σ BackendError F64Bits
  keyGenSet (store : StoreId) (value : F64Bits) : Prog σ BackendError Unit
  indexPut (index : IndexId) (idxKey primaryKey : Bytes) (unique : Bool) :
    Prog σ BackendError Unit
  indexDelete (index : IndexId) (idxKey primaryKey : Bytes) : Prog σ BackendError Unit
  indexDeleteByPrimary (index : IndexId) (primaryKey : Bytes) : Prog σ BackendError Unit

end BoaIdb
