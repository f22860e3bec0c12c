import BoaIdb.Sqlite.Txn

/-!
How a transaction of the SQLite backend ends, and the connection that goes back to the pool.

`commit`, `abort` and `Drop` run their statements on a checked-out connection. Each statement
either fails without effect or does what it says; an end that fails is followed by `Drop`.
-/

namespace BoaIdb.Sqlite

open Faults OrdMap

/-! ### Connections -/

/-- `PRAGMA synchronous`. -/
inductive Synchronous
  | normal
  | full
  deriving DecidableEq, Repr

structure Conn where
  inTransaction : Bool
  synchronous : Synchronous
  deriving DecidableEq, Repr

/-- `create_connection`, with the standard pragmas. -/
def createConnection : Conn := ⟨false, .normal⟩

/-- No open transaction, and the normal setting. -/
structure Conn.Clean (c : Conn) : Prop where
  closed : c.inTransaction = false
  synchronous : c.synchronous = .normal

/-- What SQLite reports of a statement that fails. -/
structure SqliteFailure where
  text : String
  /-- `DatabaseBusy` or `DatabaseLocked`. -/
  locked : Bool := false
  deriving DecidableEq, Repr

/-- Whether a statement is made to fail. -/
abbrev Failing := Option SqliteFailure

def internalError (context : String) (e : SqliteFailure) : BackendError :=
  .internal (context ++ ": " ++ e.text)

section Statement

variable {σ : Type}

/-- A statement fails when it is made to, and when SQLite refuses it. -/
def statement (f : Failing) (err : SqliteFailure → BackendError)
    (effect : σ → Except SqliteFailure σ) : Prog σ BackendError Unit := fun s =>
  match f, effect s with
  | none, .ok s' => (.done (), s')
  | none, .error e => (.failed (err e), s)
  | some e, _ => (.failed (err e), s)

/-- `let _ = …`. -/
def ignoring (p : Prog σ BackendError Unit) : Prog σ BackendError Unit := do
  let _ ← p.attempt
  pure ()

/-- `if c { … }`. -/
def onlyIf (c : Prop) [Decidable c] (p : Prog σ BackendError Unit) : Prog σ BackendError Unit :=
  if c then p else pure ()

variable {f : Failing} {err : SqliteFailure → BackendError} {effect : σ → Except SqliteFailure σ}
  {post : σ → Prop} {halt : σ → Prop} {s₀ : σ}

theorem meets_statement (hok : f = none → ∀ s, effect s₀ = .ok s → post s)
    (hfail : f ≠ none ∨ (∃ e, effect s₀ = .error e) → halt s₀) :
    Meets (· = s₀) (statement f err effect) (fun _ => post) fun e s => e.isSome ∧ halt s := by
  rintro s rfl
  unfold statement
  cases f with
  | some e => exact ⟨rfl, hfail (.inl (by simp))⟩
  | none =>
      cases heffect : effect s with
      | ok s' => exact hok rfl s' heffect
      | error e => exact ⟨rfl, hfail (.inr ⟨e, heffect⟩)⟩

/-- A statement that SQLite does not refuse. -/
theorem meets_statement_of_ok {s : σ} (h : effect s₀ = .ok s) (hok : f = none → post s)
    (hfail : f ≠ none → halt s₀) :
    Meets (· = s₀) (statement f err effect) (fun _ => post) fun e s => e.isSome ∧ halt s := by
  refine meets_statement (fun hf s' hs' => ?_) ?_
  · rw [h] at hs'
    cases hs'
    exact hok hf
  · rintro (hf | ⟨e, he⟩)
    · exact hfail hf
    · rw [h] at he
      cases he

/-- What holds however a step ends holds behind it. -/
theorem Meets.ignoring {p : Prog σ BackendError Unit} {pre : σ → Prop}
    (h : Meets pre p (fun _ => post) fun e s => e.isSome ∧ post s) :
    Meets pre (ignoring p) (fun _ => post) fun _ _ => False := by
  refine (Meets.attempt h).mono (fun _ hs => hs) (fun r s hs => ?_) ?_ |>.bind fun _ =>
    meets_pure fun _ hs => hs
  · cases r with
    | ok a => exact hs
    | error e => exact hs.2
  · rintro e s ⟨-, hstop, -⟩
    cases hstop

end Statement

def Conn.beginSql (c : Conn) : Except SqliteFailure Conn :=
  if c.inTransaction then .error ⟨"cannot start a transaction within a transaction", false⟩
  else .ok { c with inTransaction := true }

/-- Which statements of `new_writer` fail. -/
structure BeginFailing where
  pragma : Failing := none
  begin : Failing := none

/-- `SqliteTxn::new_writer`. -/
def newWriter (durability : Durability) (f : BeginFailing) : Prog Conn BackendError Unit := do
  onlyIf (durability = .strict)
    (statement f.pragma (internalError "setting strict durability failed") fun c =>
      .ok { c with synchronous := .full })
  statement f.begin
    (fun e => if e.locked then .locked else internalError "BEGIN IMMEDIATE failed" e) Conn.beginSql

/-- What a successful begin leaves. -/
def Conn.begun (durability : Durability) (c : Conn) : Conn :=
  ⟨true, if durability = .strict then .full else c.synchronous⟩

/-! ### Ends -/

/-- A transaction with the connection that it owns. -/
structure Owned (sha256 : Bytes → Bytes) where
  txn : SqliteTxn sha256
  durability : Durability
  conn : Conn
  /-- The tables that the other connections see. -/
  committed : Tables
  /-- How many savepoints the handle holds the names of. -/
  names : ℕ

variable {sha256 : Bytes → Bytes}

/-- Which steps of the collection of a blob file fail. -/
structure GcFailing where
  refcheck : Failing := none
  removal : Bool := false

structure SavepointFailing where
  rollbackTo : Failing := none
  release : Failing := none

/-- Which steps of `Drop` fail; the savepoints and the files by their position. -/
structure DropFailing where
  savepoint : ℕ → SavepointFailing := fun _ => {}
  rollback : Failing := none
  gc : ℕ → GcFailing := fun _ => {}

structure CommitFailing where
  version : Failing := none
  commit : Failing := none
  checkpoint : Failing := none
  synchronous : Failing := none
  gc : ℕ → GcFailing := fun _ => {}
  dropped : DropFailing := {}

structure AbortFailing where
  savepoint : ℕ → SavepointFailing := fun _ => {}
  rollback : Failing := none
  gc : ℕ → GcFailing := fun _ => {}
  dropped : DropFailing := {}

namespace Owned

abbrev Step (sha256 : Bytes → Bytes) := Prog (Owned sha256) BackendError Unit

def setTables (tables : Tables) (s : Owned sha256) : Owned sha256 :=
  { s with txn := { s.txn with tables := tables } }

def setFiles (files : BlobFiles) (s : Owned sha256) : Owned sha256 :=
  { s with txn := { s.txn with files := files } }

/-- Outside a transaction the connection sees what all see. -/
def settle (committed : Tables) (s : Owned sha256) : Owned sha256 :=
  { s with
    txn := { s.txn with tables := committed, savepoints := [] }
    conn := { s.conn with inTransaction := false }
    committed := committed }

/-- `INSERT OR REPLACE INTO meta`. -/
def writeVersion (f : Failing) : Step sha256 :=
  statement f (internalError "commit meta write failed") fun s =>
    .ok (s.setTables { s.txn.tables with version := s.txn.metadata.version })

/-- A reader has written nothing; what others have committed meanwhile stays. -/
def commitSql (f : Failing) : Step sha256 :=
  statement f (internalError "COMMIT failed") fun s =>
    if s.conn.inTransaction then
      .ok (s.settle (if s.txn.mode = .readOnly then s.committed else s.txn.tables))
    else .error ⟨"cannot commit - no transaction is active", false⟩

def rollbackSql (f : Failing) : Step sha256 :=
  statement f (internalError "ROLLBACK failed") fun s =>
    if s.conn.inTransaction then .ok (s.settle s.committed)
    else .error ⟨"cannot rollback - no transaction is active", false⟩

/-- `PRAGMA wal_checkpoint(TRUNCATE)`, which moves pages only. -/
def checkpoint (f : Failing) : Step sha256 :=
  statement f (internalError "strict WAL checkpoint failed") .ok

def restoreSynchronous (f : Failing) : Step sha256 :=
  statement f (internalError "restoring SQLite durability failed") fun s =>
    .ok { s with conn := { s.conn with synchronous := .normal } }

/-- `ROLLBACK TO SAVEPOINT`: the savepoint stays, those inside it go. The outermost has depth 0. -/
def rollbackTo (depth : ℕ) (s : Owned sha256) : Except SqliteFailure (Owned sha256) :=
  match s.txn.savepoints.reverse[depth]? with
  | none => .error ⟨"no such savepoint", false⟩
  | some tables =>
      .ok { s with txn := { s.txn with
        tables := tables
        savepoints := s.txn.savepoints.drop (s.txn.savepoints.length - (depth + 1)) } }

/-- `RELEASE SAVEPOINT`. -/
def release (depth : ℕ) (s : Owned sha256) : Except SqliteFailure (Owned sha256) :=
  if depth < s.txn.savepoints.length then
    .ok { s with txn := { s.txn with
      savepoints := s.txn.savepoints.drop (s.txn.savepoints.length - depth) } }
  else .error ⟨"no such savepoint", false⟩

def rollbackSavepoint (f : SavepointFailing) (depth : ℕ) : Step sha256 := do
  statement f.rollbackTo (internalError "") (rollbackTo depth)
  statement f.release (internalError "") (release depth)

/-- `gc_blob_file`: an error of the removal is ignored. -/
def gcBlobFile (f : GcFailing) (path : BlobPath) : Step sha256 := do
  statement f.refcheck (internalError "blob refcheck failed") .ok
  let s ← Prog.read
  if SqliteTxn.blobIsReferenced s.txn.tables path then pure ()
  else if f.removal then pure ()
  else Prog.modify fun s => s.setFiles (s.txn.files.remove path)

/-- Collects the files up to the first error. -/
def collect (f : ℕ → GcFailing) : List BlobPath → Step sha256
  | [] => pure ()
  | path :: paths => do
      gcBlobFile (f 0) path
      collect (fun i => f (i + 1)) paths

/-- Collects the files, whatever fails. -/
def collectAll (f : ℕ → GcFailing) : List BlobPath → Step sha256
  | [] => pure ()
  | path :: paths => do
      ignoring (gcBlobFile (f 0) path)
      collectAll (fun i => f (i + 1)) paths

/-- Takes the created files of all levels, the outermost first. -/
def takeCreated : Prog (Owned sha256) BackendError (List BlobPath) := do
  let s ← Prog.read
  Prog.modify fun s => { s with txn := { s.txn with blobCreated := [] } }
  pure s.txn.blobCreated.reverse.flatten

/-- `Drop`, of a transaction that was not ended. -/
def dropTxn (f : DropFailing) : Step sha256 := do
  let s ← Prog.read
  Prog.modify fun s => { s with names := 0 }
  Prog.forEach (fun depth => ignoring (rollbackSavepoint (f.savepoint depth) depth))
    (List.range s.names)
  ignoring (rollbackSql f.rollback)
  let created ← takeCreated
  collectAll f.gc created

/-- An end that fails leaves the rest to `Drop`. -/
def orDrop (f : DropFailing) (body : Step sha256) : Step sha256 := do
  match ← body.attempt with
  | .ok () => pure ()
  | .error e => do
      dropTxn f
      Prog.throw e

/-- Strict durability: the log goes to the database file, and the connection back to normal. -/
def makeDurable (f : CommitFailing) : Step sha256 := do
  checkpoint f.checkpoint
  restoreSynchronous f.synchronous

/-- Takes the orphaned files of all levels. -/
def takeOrphaned : Prog (Owned sha256) BackendError (List BlobPath) := do
  let s ← Prog.read
  Prog.modify fun s => { s with txn := { s.txn with blobOrphaned := [], blobCreated := [] } }
  pure s.txn.blobOrphaned.reverse.flatten

def commitBody (f : CommitFailing) : Step sha256 := do
  let s ← Prog.read
  onlyIf (s.txn.mode = .versionChange) (writeVersion f.version)
  commitSql f.commit
  onlyIf (s.durability = .strict) (makeDurable f)
  let orphaned ← takeOrphaned
  collect f.gc orphaned

def commit (f : CommitFailing) : Step sha256 := orDrop f.dropped (commitBody f)

/-- Without its savepoints, the innermost first. -/
def rollbackNames (f : ℕ → SavepointFailing) : ℕ → Step sha256
  | 0 => pure ()
  | depth + 1 => do
      Prog.modify fun s => { s with names := depth }
      ignoring (rollbackSavepoint (f depth) depth)
      rollbackNames f depth

def abortBody (f : AbortFailing) : Step sha256 := do
  let s ← Prog.read
  rollbackNames f.savepoint s.names
  rollbackSql f.rollback
  let created ← takeCreated
  Prog.modify fun s => { s with txn := { s.txn with blobOrphaned := [] } }
  collect f.gc created

def abort (f : AbortFailing) : Step sha256 := orDrop f.dropped (abortBody f)

end Owned

end BoaIdb.Sqlite
