import BoaIdb.Backend.View

/-!
Savepoints: what a transaction sees again behind a rollback.

A backend with lawful savepoints keeps, for each open request, what was read at its begin, and
the committed rows under them all. The data operations leave these alone, whether they succeed
or not.
-/

namespace BoaIdb

open Faults

/-- What a transaction reads: the merged rows and the generators. -/
@[ext]
structure Snapshot where
  view : View
  generator : StoreId → F64Bits

/-- The operations of the backend that leave the generators alone keep an invariant. -/
structure RowOperationsKeep (σ : Type) [BackendTxn σ] (inv : σ → Prop) : Prop where
  get : ∀ store key, Keeps inv (BackendTxn.get store key : Prog σ _ _)
  put : ∀ store key value noOverwrite,
    Keeps inv (BackendTxn.put store key value noOverwrite : Prog σ _ _)
  deleteRecord : ∀ store key, Keeps inv (BackendTxn.deleteRecord store key : Prog σ _ _)
  deleteRange : ∀ store range, Keeps inv (BackendTxn.deleteRange store range : Prog σ _ _)
  clear : ∀ store, Keeps inv (BackendTxn.clear store : Prog σ _ _)
  count : ∀ src range, Keeps inv (BackendTxn.count src range : Prog σ _ _)
  scanRows : ∀ src range dir keyOnly,
    Keeps inv (BackendTxn.scanRows src range dir keyOnly : Prog σ _ _)
  keyGenCurrent : ∀ store, Keeps inv (BackendTxn.keyGenCurrent store : Prog σ _ _)
  indexPut : ∀ index idxKey primaryKey unique,
    Keeps inv (BackendTxn.indexPut index idxKey primaryKey unique : Prog σ _ _)
  indexDelete : ∀ index idxKey primaryKey,
    Keeps inv (BackendTxn.indexDelete index idxKey primaryKey : Prog σ _ _)
  indexDeleteByPrimary : ∀ index primaryKey,
    Keeps inv (BackendTxn.indexDeleteByPrimary index primaryKey : Prog σ _ _)

/-- The data operations of the backend keep an invariant. -/
structure OperationsKeep (σ : Type) [BackendTxn σ] (inv : σ → Prop) : Prop
    extends RowOperationsKeep σ inv where
  keyGenSet : ∀ store value, Keeps inv (BackendTxn.keyGenSet store value : Prog σ _ _)

/-- A lawful backend whose requests can be rolled back. -/
class LawfulSavepoints (σ : Type) [BackendTxn σ] extends LawfulTxn σ where
  /-- What holds of a transaction from its begin on. -/
  Valid : σ → Prop
  generator : σ → StoreId → F64Bits
  /-- What the rollbacks of the open requests restore, that of the innermost first. -/
  saved : σ → List Snapshot
  /-- The committed rows and generators. -/
  base : σ → Snapshot
  operations_valid : OperationsKeep σ Valid
  operations_keep (snapshots : List Snapshot) (w : Snapshot) :
    OperationsKeep σ fun s => saved s = snapshots ∧ base s = w
  rows_keep_generator (g : StoreId → F64Bits) : RowOperationsKeep σ fun s => generator s = g
  keyGenCurrent (s : σ) (store : StoreId) :
    Meets (· = s) (BackendTxn.keyGenCurrent store)
      (fun r s' => s' = s ∧ r = generator s store) (fun _ _ => False)
  keyGenSet_generator (s : σ) (store : StoreId) (value : F64Bits) :
    Meets (· = s) (BackendTxn.keyGenSet store value)
      (fun _ s' => generator s' = Function.update (generator s) store value)
      (fun e s' => e.isSome ∧ s' = s)
  beginRequest (s : σ) :
    Meets (· = s) BackendTxn.beginRequest
      (fun _ s' => (Valid s → Valid s') ∧
        (Snapshot.mk (view s') (generator s') = ⟨view s, generator s⟩) ∧
        saved s' = ⟨view s, generator s⟩ :: saved s ∧ base s' = base s)
      (fun _ _ => False)
  commitRequest (s : σ) :
    Meets (· = s) BackendTxn.commitRequest
      (fun _ s' => (Valid s → Valid s') ∧
        (Snapshot.mk (view s') (generator s') = ⟨view s, generator s⟩) ∧
        (∃ w, saved s = w :: saved s') ∧ base s' = base s)
      (fun e s' => e.isSome ∧ s' = s ∧ saved s = [])
  rollbackRequest (s : σ) :
    Meets (· = s) BackendTxn.rollbackRequest
      (fun _ s' => (Valid s → Valid s') ∧ saved s = ⟨view s', generator s'⟩ :: saved s' ∧
        base s' = base s)
      (fun e s' => e.isSome ∧ s' = s ∧ saved s = [])

/-- What a transaction reads. -/
def snapshot {σ : Type} [BackendTxn σ] [LawfulSavepoints σ] (s : σ) : Snapshot :=
  ⟨LawfulTxn.view s, LawfulSavepoints.generator s⟩

/-- The transactions of a database: how one begins, and what is committed when it ends. -/
class LawfulDatabase (δ : Type) (σ : outParam Type) [BackendTxn σ] [LawfulSavepoints σ] where
  committed : δ → Snapshot
  Begins : δ → σ → Prop
  /-- A commit, and whether it reports success. -/
  Commits : σ → Bool → δ → Prop
  Aborts : σ → δ → Prop
  begins {d : δ} {s : σ} (h : Begins d s) :
    LawfulSavepoints.Valid s ∧ snapshot s = committed d ∧ LawfulSavepoints.saved s = [] ∧
      LawfulSavepoints.base s = committed d
  commits_ok {s : σ} {d : δ} (hvalid : LawfulSavepoints.Valid s) (h : Commits s true d) :
    committed d = snapshot s
  commits_err {s : σ} {d : δ} (h : Commits s false d) : committed d = LawfulSavepoints.base s
  aborts {s : σ} {d : δ} (h : Aborts s d) : committed d = LawfulSavepoints.base s

end BoaIdb
