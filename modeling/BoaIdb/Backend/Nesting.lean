import BoaIdb.Fs.Backend
import BoaIdb.Lib.Run
import BoaIdb.Memory.Backend

/-!
Nested requests of a transaction.

Any calls may come between the begin of a request and its end, other requests among them, and
any of these calls may fail. Each open request carries a mark of what was read at its begin.
-/

namespace BoaIdb

open Faults Runs

/-- A data operation with its arguments. -/
inductive DataOp
  | put (store : StoreId) (key value : Bytes) (noOverwrite : Bool)
  | deleteRecord (store : StoreId) (key : Bytes)
  | deleteRange (store : StoreId) (range : EncodedRange)
  | clear (store : StoreId)
  | indexPut (index : IndexId) (idxKey primaryKey : Bytes) (unique : Bool)
  | indexDelete (index : IndexId) (idxKey primaryKey : Bytes)
  | indexDeleteByPrimary (index : IndexId) (primaryKey : Bytes)
  | keyGenSet (store : StoreId) (value : F64Bits)

inductive Call
  | beginRequest
  | commitRequest
  | rollbackRequest
  | data (op : DataOp)

section Calls

variable {σ : Type} [BackendTxn σ]

def DataOp.run : DataOp → Prog σ BackendError Unit
  | .put store key value noOverwrite => BackendTxn.put store key value noOverwrite
  | .deleteRecord store key => do
      let _ ← BackendTxn.deleteRecord store key
      pure ()
  | .deleteRange store range => do
      let _ ← BackendTxn.deleteRange store range
      pure ()
  | .clear store => BackendTxn.clear store
  | .indexPut index idxKey primaryKey unique => BackendTxn.indexPut index idxKey primaryKey unique
  | .indexDelete index idxKey primaryKey => BackendTxn.indexDelete index idxKey primaryKey
  | .indexDeleteByPrimary index primaryKey => BackendTxn.indexDeleteByPrimary index primaryKey
  | .keyGenSet store value => BackendTxn.keyGenSet store value

def Call.run : Call → Prog σ BackendError Unit
  | .beginRequest => BackendTxn.beginRequest
  | .commitRequest => BackendTxn.commitRequest
  | .rollbackRequest => BackendTxn.rollbackRequest
  | .data op => op.run

/-- The transaction behind a call, whatever the call reports. -/
def Call.behind (call : Call) (s : σ) : σ := (call.run s).2

theorem keeps_dataOp {inv : σ → Prop} (h : OperationsKeep σ inv) (op : DataOp) :
    Keeps inv (op.run : Prog σ BackendError Unit) := by
  cases op with
  | put store key value noOverwrite => exact h.put store key value noOverwrite
  | deleteRecord store key => exact (h.deleteRecord store key).bind fun _ => keeps_pure _
  | deleteRange store range => exact (h.deleteRange store range).bind fun _ => keeps_pure _
  | clear store => exact h.clear store
  | indexPut index idxKey primaryKey unique => exact h.indexPut index idxKey primaryKey unique
  | indexDelete index idxKey primaryKey => exact h.indexDelete index idxKey primaryKey
  | indexDeleteByPrimary index primaryKey => exact h.indexDeleteByPrimary index primaryKey
  | keyGenSet store value => exact h.keyGenSet store value

end Calls

section Nesting

variable {σ : Type} [BackendTxn σ] [LawfulSavepoints σ]

/-- A transaction, and what was read at the begin of each open request, the innermost first. -/
structure Nested (σ : Type) where
  txn : σ
  marks : List Snapshot

/-- A call in a well-nested sequence: each end of a request has its begin. -/
inductive Nested.Step : Nested σ → Call → Nested σ → Prop
  | beginRequest (s : σ) (marks : List Snapshot) :
      Step ⟨s, marks⟩ .beginRequest ⟨Call.beginRequest.behind s, snapshot s :: marks⟩
  | commitRequest (s : σ) (mark : Snapshot) (marks : List Snapshot) :
      Step ⟨s, mark :: marks⟩ .commitRequest ⟨Call.commitRequest.behind s, marks⟩
  | rollbackRequest (s : σ) (mark : Snapshot) (marks : List Snapshot) :
      Step ⟨s, mark :: marks⟩ .rollbackRequest ⟨Call.rollbackRequest.behind s, marks⟩
  | data (op : DataOp) (s : σ) (marks : List Snapshot) :
      Step ⟨s, marks⟩ (.data op) ⟨(Call.data op).behind s, marks⟩

/-- The end of a request succeeds; a rollback restores what was read at the matching begin, and
a commit keeps what is read. -/
def Nested.Exact (n : Nested σ) : Call → Prop
  | .beginRequest => (Call.beginRequest.run n.txn).1 = .done () ∧
      snapshot (Call.beginRequest.behind n.txn) = snapshot n.txn
  | .commitRequest => (Call.commitRequest.run n.txn).1 = .done () ∧
      snapshot (Call.commitRequest.behind n.txn) = snapshot n.txn
  | .rollbackRequest => (Call.rollbackRequest.run n.txn).1 = .done () ∧
      n.marks.head? = some (snapshot (Call.rollbackRequest.behind n.txn))
  | .data _ => True

/-- The marks are what the rollbacks restore, above the requests that were open before. -/
def Nested.Marked (outer : List Snapshot) (n : Nested σ) : Prop :=
  LawfulSavepoints.saved n.txn = n.marks ++ outer

variable {outer : List Snapshot} {n n' : Nested σ} {call : Call}

theorem beginRequest_behind (s : σ) : (Call.beginRequest.run s).1 = .done () ∧
    snapshot (Call.beginRequest.behind s) = snapshot s ∧
      LawfulSavepoints.saved (Call.beginRequest.behind s) =
        snapshot s :: LawfulSavepoints.saved s := by
  have hbegin : Ends _ _ (Call.beginRequest.run s) := LawfulSavepoints.beginRequest s s rfl
  unfold Call.behind
  rcases hrun : Call.beginRequest.run s with ⟨exit, s'⟩
  rw [hrun] at hbegin
  cases exit with
  | done u => exact ⟨rfl, hbegin.2.1, hbegin.2.2.1⟩
  | failed e => exact hbegin.elim
  | stopped => exact hbegin.elim

theorem commitRequest_behind {s : σ} {mark : Snapshot} {marks : List Snapshot}
    (h : LawfulSavepoints.saved s = mark :: marks) : (Call.commitRequest.run s).1 = .done () ∧
      snapshot (Call.commitRequest.behind s) = snapshot s ∧
        LawfulSavepoints.saved (Call.commitRequest.behind s) = marks := by
  have hcommit : Ends _ _ (Call.commitRequest.run s) := LawfulSavepoints.commitRequest s s rfl
  unfold Call.behind
  rcases hrun : Call.commitRequest.run s with ⟨exit, s'⟩
  rw [hrun] at hcommit
  have hlevel (hnone : LawfulSavepoints.saved s = []) : False := by
    rw [h] at hnone
    cases hnone
  cases exit with
  | done u =>
      obtain ⟨-, hsnapshot, ⟨w, hsaved⟩, -⟩ := hcommit
      rw [h] at hsaved
      exact ⟨rfl, hsnapshot, (List.cons.inj hsaved).2.symm⟩
  | failed e => exact (hlevel hcommit.2.2).elim
  | stopped => exact (hlevel hcommit.2.2).elim

theorem rollbackRequest_behind {s : σ} {mark : Snapshot} {marks : List Snapshot}
    (h : LawfulSavepoints.saved s = mark :: marks) : (Call.rollbackRequest.run s).1 = .done () ∧
      snapshot (Call.rollbackRequest.behind s) = mark ∧
        LawfulSavepoints.saved (Call.rollbackRequest.behind s) = marks := by
  have hrollback : Ends _ _ (Call.rollbackRequest.run s) := LawfulSavepoints.rollbackRequest s s rfl
  unfold Call.behind
  rcases hrun : Call.rollbackRequest.run s with ⟨exit, s'⟩
  rw [hrun] at hrollback
  have hlevel (hnone : LawfulSavepoints.saved s = []) : False := by
    rw [h] at hnone
    cases hnone
  cases exit with
  | done u =>
      obtain ⟨-, hsaved, -⟩ := hrollback
      rw [h] at hsaved
      exact ⟨rfl, (List.cons.inj hsaved).1.symm, (List.cons.inj hsaved).2.symm⟩
  | failed e => exact (hlevel hrollback.2.2).elim
  | stopped => exact (hlevel hrollback.2.2).elim

/-- A data operation leaves alone what the rollbacks restore, also when it fails. -/
theorem saved_dataOp (op : DataOp) (s : σ) :
    LawfulSavepoints.saved ((Call.data op).behind s) = LawfulSavepoints.saved s := by
  have hkeep : Keeps _ (op.run : Prog σ BackendError Unit) :=
    keeps_dataOp (LawfulSavepoints.operations_keep (LawfulSavepoints.saved s)
      (LawfulSavepoints.base s)) op
  have hrun : (op.run : Prog σ BackendError Unit) s = ((op.run s).1, (Call.data op).behind s) := rfl
  exact (hkeep.behind ⟨rfl, rfl⟩ hrun).1

theorem Nested.Marked.step (hmarked : n.Marked outer) (hstep : Nested.Step n call n') :
    n'.Marked outer := by
  cases hstep with
  | beginRequest s marks =>
      show _ = _ :: (marks ++ outer)
      rw [(beginRequest_behind s).2.2, hmarked]
  | commitRequest s mark marks => exact (commitRequest_behind hmarked).2.2
  | rollbackRequest s mark marks => exact (rollbackRequest_behind hmarked).2.2
  | data op s marks => exact (saved_dataOp op s).trans hmarked

theorem Nested.Marked.exact_step (hmarked : n.Marked outer) (hstep : Nested.Step n call n') :
    n.Exact call := by
  cases hstep with
  | beginRequest s marks => exact ⟨(beginRequest_behind s).1, (beginRequest_behind s).2.1⟩
  | commitRequest s mark marks =>
      exact ⟨(commitRequest_behind hmarked).1, (commitRequest_behind hmarked).2.1⟩
  | rollbackRequest s mark marks =>
      refine ⟨(rollbackRequest_behind hmarked).1, ?_⟩
      rw [(rollbackRequest_behind hmarked).2.1]
      rfl
  | data op s marks => trivial

/-- In a well-nested sequence every end of a request does what it should. -/
theorem exact_run {s : σ} {taken : List (Nested σ × Call)}
    (h : Run Nested.Step ⟨s, []⟩ taken n) : EachStep Nested.Exact taken := by
  have hstart : Nested.Marked (LawfulSavepoints.saved s) ⟨s, []⟩ := rfl
  induction h with
  | start => exact eachStep_nil
  | step h hstep ih =>
      exact eachStep_append.mpr ⟨ih, (h.invariant hstart .step).exact_step hstep⟩

end Nesting

/-- **Nested savepoints restore exactly**, on both backends and from any state of a
transaction. -/
theorem nested_savepoints :
    (∀ (s : Memory.Session) (taken : List (Nested Memory.Session × Call))
      (n : Nested Memory.Session),
      Run Nested.Step ⟨s, []⟩ taken n → EachStep Nested.Exact taken) ∧
    ∀ (s : Fs.OpenTxn) (taken : List (Nested Fs.OpenTxn × Call)) (n : Nested Fs.OpenTxn),
      Run Nested.Step ⟨s, []⟩ taken n → EachStep Nested.Exact taken :=
  ⟨fun _ _ _ h => exact_run h, fun _ _ _ h => exact_run h⟩

/-- A record that an inner request writes and clears, behind a write of the outer one. -/
def nestedCalls : List Call :=
  [.beginRequest, .data (.put 1 [0x10] [0x01] false), .beginRequest,
    .data (.put 1 [0x10] [0x02] false), .data (.clear 1), .commitRequest, .rollbackRequest]

theorem run_nestedCalls {σ : Type} [BackendTxn σ] [LawfulSavepoints σ] (s : σ) :
    ∃ taken n, Run Nested.Step ⟨s, []⟩ taken n ∧ taken.map Prod.snd = nestedCalls :=
  ⟨_, _, ((((((Run.start.step (.beginRequest s [])).step (.data _ _ _)).step
    (.beginRequest _ _)).step (.data _ _ _)).step (.data _ _ _)).step (.commitRequest _ _ _)).step
    (.rollbackRequest _ _ _), rfl⟩

theorem nested_savepoints_cleared :
    (∃ taken n, taken.map Prod.snd = nestedCalls ∧
      Run Nested.Step ⟨(⟨.empty, .versionChange, [], emptyMeta [], .empty⟩ : Memory.Session), []⟩
        taken n ∧ EachStep Nested.Exact taken) ∧
    ∃ taken n, taken.map Prod.snd = nestedCalls ∧
      Run Nested.Step
        ⟨Fs.OpenTxn.begin (Fs.freshSession []) .versionChange [] (emptyMeta []) .strict 8, []⟩
        taken n ∧ EachStep Nested.Exact taken := by
  obtain ⟨taken, n, hrun, hcalls⟩ := run_nestedCalls
    (⟨.empty, .versionChange, [], emptyMeta [], .empty⟩ : Memory.Session)
  obtain ⟨taken', n', hrun', hcalls'⟩ := run_nestedCalls
    (Fs.OpenTxn.begin (Fs.freshSession []) .versionChange [] (emptyMeta []) .strict 8)
  exact ⟨⟨taken, n, hcalls, hrun, nested_savepoints.1 _ _ _ hrun⟩,
    taken', n', hcalls', hrun', nested_savepoints.2 _ _ _ hrun'⟩

end BoaIdb
