import BoaIdb.Sqlite.Ending

/-!
When a transaction ends cleanly: a commit that fails has left nothing behind, and the connection
goes back without a transaction and with the normal synchronous setting.
-/

namespace BoaIdb.Sqlite

open Faults OrdMap

variable {sha256 : Bytes → Bytes}

/-! ### Collected files -/

/-- The files of a predicate are gone unless a record names them; the others are as they were. -/
structure Collected (gone : BlobPath → Prop) (tables : Tables) (files files' : BlobFiles) :
    Prop where
  removed : ∀ path, gone path → SqliteTxn.blobIsReferenced tables path = false →
    files'.get? path = none
  kept : ∀ path, ¬ (gone path ∧ SqliteTxn.blobIsReferenced tables path = false) →
    files'.get? path = files.get? path

namespace Collected

variable {gone gone' : BlobPath → Prop} {tables : Tables} {files files' files'' : BlobFiles}

theorem none (h : ∀ path, ¬ gone path) : Collected gone tables files files where
  removed path hgone := absurd hgone (h path)
  kept _ _ := rfl

theorem congr (h : Collected gone tables files files') (hgone : ∀ path, gone path ↔ gone' path) :
    Collected gone' tables files files' where
  removed path hpath := h.removed path ((hgone path).mpr hpath)
  kept path hpath := h.kept path fun hboth => hpath ⟨(hgone path).mp hboth.1, hboth.2⟩

/-- One collection after another. -/
theorem trans (h : Collected gone tables files files')
    (h' : Collected gone' tables files' files'') :
    Collected (fun path => gone path ∨ gone' path) tables files files'' where
  removed path hpath hfree := by
    by_cases hgone' : gone' path
    · exact h'.removed path hgone' hfree
    · rw [h'.kept path fun hboth => hgone' hboth.1]
      exact h.removed path (hpath.resolve_right hgone') hfree
  kept path hpath := by
    rw [h'.kept path fun hboth => hpath ⟨.inr hboth.1, hboth.2⟩]
    exact h.kept path fun hboth => hpath ⟨.inl hboth.1, hboth.2⟩

/-- A file that a record names is as it was. -/
theorem named (h : Collected gone tables files files') {path : BlobPath}
    (hnamed : SqliteTxn.blobIsReferenced tables path = true) :
    files'.get? path = files.get? path :=
  h.kept path fun hboth => by
    rw [hnamed] at hboth
    cases hboth.2

end Collected

/-- The file is checked and removed, at some position. -/
def Reclaimed (f : ℕ → GcFailing) (paths : List BlobPath) (path : BlobPath) : Prop :=
  ∃ i, paths[i]? = some path ∧ (f i).refcheck = none ∧ (f i).removal = false

/-- The file is removed at some position, and no check fails up to there. -/
def ReclaimedFirst (f : ℕ → GcFailing) (paths : List BlobPath) (path : BlobPath) : Prop :=
  ∃ i, paths[i]? = some path ∧ (∀ j ≤ i, (f j).refcheck = none) ∧ (f i).removal = false

theorem reclaimed_cons {f : ℕ → GcFailing} {p path : BlobPath} {paths : List BlobPath} :
    Reclaimed f (p :: paths) path ↔
      (p = path ∧ (f 0).refcheck = none ∧ (f 0).removal = false) ∨
        Reclaimed (fun i => f (i + 1)) paths path := by
  constructor
  · rintro ⟨i, hi, hf⟩
    cases i with
    | zero => exact .inl ⟨by simpa using hi, hf⟩
    | succ i => exact .inr ⟨i, by simpa using hi, hf⟩
  · rintro (⟨rfl, hf⟩ | ⟨i, hi, hf⟩)
    · exact ⟨0, rfl, hf⟩
    · exact ⟨i + 1, by simpa using hi, hf⟩

theorem reclaimedFirst_cons {f : ℕ → GcFailing} {p path : BlobPath} {paths : List BlobPath} :
    ReclaimedFirst f (p :: paths) path ↔ (f 0).refcheck = none ∧
      ((p = path ∧ (f 0).removal = false) ∨ ReclaimedFirst (fun i => f (i + 1)) paths path) := by
  constructor
  · rintro ⟨i, hi, hchecks, hf⟩
    refine ⟨hchecks 0 (Nat.zero_le i), ?_⟩
    cases i with
    | zero => exact .inl ⟨by simpa using hi, hf⟩
    | succ i =>
        exact .inr ⟨i, by simpa using hi, fun j hj => hchecks (j + 1) (Nat.succ_le_succ hj), hf⟩
  · rintro ⟨h0, ⟨rfl, hf⟩ | ⟨i, hi, hchecks, hf⟩⟩
    · refine ⟨0, rfl, fun j hj => ?_, hf⟩
      rwa [Nat.le_zero.mp hj]
    · refine ⟨i + 1, by simpa using hi, fun j hj => ?_, hf⟩
      cases j with
      | zero => exact h0
      | succ j => exact hchecks j (Nat.le_of_succ_le_succ hj)

namespace Owned

variable {s₀ : Owned sha256}

/-- `gc_blob_file`, whose only error is that of the check. -/
theorem meets_gcBlobFile (f : GcFailing) (path : BlobPath) :
    Meets (· = s₀) (gcBlobFile f path)
      (fun _ s => f.refcheck = none ∧ ∃ files, s = s₀.setFiles files ∧
        Collected (fun p => path = p ∧ f.removal = false) s₀.txn.tables s₀.txn.files files)
      (fun e s => e.isSome ∧ f.refcheck ≠ none ∧ s = s₀) := by
  have hcheck : Meets (· = s₀)
      (statement f.refcheck (internalError "blob refcheck failed") (Except.ok : Owned sha256 → _))
      (fun _ s => f.refcheck = none ∧ s = s₀)
      (fun e s => e.isSome ∧ f.refcheck ≠ none ∧ s = s₀) :=
    meets_statement_of_ok rfl (fun h => ⟨h, rfl⟩) fun h => ⟨h, rfl⟩
  refine Meets.bind hcheck fun _ => meets_read fun s hs => ?_
  obtain ⟨hok, rfl⟩ := hs
  by_cases hnamed : SqliteTxn.blobIsReferenced s.txn.tables path = true
  · rw [if_pos hnamed]
    refine meets_pure fun s' hs' => ⟨hok, s.txn.files, hs', fun p hp hfree => ?_, fun _ _ => rfl⟩
    rw [← hp.1, hnamed] at hfree
    cases hfree
  · rw [if_neg hnamed]
    have hfree : SqliteTxn.blobIsReferenced s.txn.tables path = false := by simpa using hnamed
    cases hremoval : f.removal with
    | true =>
        exact meets_pure fun s' hs' =>
          ⟨hok, s.txn.files, hs', .none fun p hp => by cases hp.2⟩
    | false =>
        refine meets_modify fun s' hs' => ⟨hok, s.txn.files.remove path, by rw [hs'], ?_, ?_⟩
        · rintro p ⟨rfl, -⟩ -
          exact OrderedMap.get?_erase_self _ _
        · intro p hp
          refine OrderedMap.get?_erase_of_ne _ fun heq => hp ⟨⟨heq.symm, rfl⟩, ?_⟩
          rw [heq, hfree]

theorem meets_collectAll (f : ℕ → GcFailing) (paths : List BlobPath) :
    Meets (· = s₀) (collectAll f paths)
      (fun _ s => ∃ files, s = s₀.setFiles files ∧
        Collected (Reclaimed f paths) s₀.txn.tables s₀.txn.files files) fun _ _ => False := by
  induction paths generalizing f s₀ with
  | nil =>
      refine meets_pure fun s hs => ⟨s₀.txn.files, hs, .none fun path hpath => ?_⟩
      obtain ⟨i, hi, -⟩ := hpath
      cases hi
  | cons path paths ih =>
      have hfirst : Meets (· = s₀) (ignoring (gcBlobFile (f 0) path))
          (fun _ s => ∃ files, s = s₀.setFiles files ∧
            Collected (fun p => path = p ∧ (f 0).refcheck = none ∧ (f 0).removal = false)
              s₀.txn.tables s₀.txn.files files) fun _ _ => False := by
        refine Meets.ignoring ((meets_gcBlobFile (f 0) path).mono (fun _ h => h) ?_ ?_)
        · rintro _ s ⟨hok, files, hs, hfiles⟩
          exact ⟨files, hs, hfiles.congr fun p => by simp [hok]⟩
        · rintro e s ⟨he, hfails, hs⟩
          exact ⟨he, s₀.txn.files, hs, .none fun p hp => hfails hp.2.1⟩
      refine hfirst.bind fun _ => meets_of_forall fun s hs => ?_
      obtain ⟨files, rfl, hfiles⟩ := hs
      refine (ih fun i => f (i + 1)).mono (fun _ h => h) ?_ fun _ _ h => h
      rintro _ s' ⟨files', rfl, hfiles'⟩
      exact ⟨files', rfl, (hfiles.trans hfiles').congr fun p => reclaimed_cons.symm⟩

/-- `?` on each file: the check of the first that fails ends it. -/
theorem meets_collect (f : ℕ → GcFailing) (paths : List BlobPath) :
    Meets (· = s₀) (collect f paths)
      (fun _ s => (∀ i < paths.length, (f i).refcheck = none) ∧ ∃ files, s = s₀.setFiles files)
      (fun e s => e.isSome ∧ (¬ ∀ i < paths.length, (f i).refcheck = none) ∧
        ∃ files, s = s₀.setFiles files ∧
          Collected (ReclaimedFirst f paths) s₀.txn.tables s₀.txn.files files) := by
  induction paths generalizing f s₀ with
  | nil => exact meets_pure fun s hs =>
      ⟨fun i hi => absurd hi (Nat.not_lt_zero i), s₀.txn.files, hs⟩
  | cons path paths ih =>
      refine Meets.bind ((meets_gcBlobFile (f 0) path).mono (fun _ h => h) (fun _ _ h => h) ?_)
        fun _ => meets_of_forall fun s hs => ?_
      · rintro e s ⟨he, hfails, hs⟩
        refine ⟨he, fun hall => hfails (hall 0 (Nat.zero_lt_succ _)), s₀.txn.files, hs, .none ?_⟩
        exact fun p hp => hfails (reclaimedFirst_cons.mp hp).1
      · obtain ⟨hok, files, rfl, hfiles⟩ := hs
        refine (ih fun i => f (i + 1)).mono (fun _ h => h) ?_ ?_
        · rintro _ s' ⟨hall, files', rfl⟩
          refine ⟨fun i hi => ?_, files', rfl⟩
          cases i with
          | zero => exact hok
          | succ i => exact hall i (Nat.lt_of_succ_lt_succ hi)
        · rintro e s' ⟨he, hsome, files', rfl, hfiles'⟩
          refine ⟨he, fun hall => hsome fun i hi =>
            hall (i + 1) (Nat.succ_lt_succ hi), files', rfl, ?_⟩
          refine (hfiles.trans hfiles').congr fun p => ?_
          rw [reclaimedFirst_cons]
          exact (and_iff_right hok).symm

/-! ### `Drop` -/

/-- What the steps of an end leave alone as long as no transaction ends: all but the tables that
the connection sees and its savepoints. -/
structure SameBut (s₀ s : Owned sha256) : Prop where
  conn : s.conn = s₀.conn
  durability : s.durability = s₀.durability
  committed : s.committed = s₀.committed
  mode : s.txn.mode = s₀.txn.mode
  files : s.txn.files = s₀.txn.files
  blobCreated : s.txn.blobCreated = s₀.txn.blobCreated
  blobOrphaned : s.txn.blobOrphaned = s₀.txn.blobOrphaned

theorem SameBut.refl (s : Owned sha256) : SameBut s s := ⟨rfl, rfl, rfl, rfl, rfl, rfl, rfl⟩

theorem SameBut.trans {s s' s'' : Owned sha256} (h : SameBut s s') (h' : SameBut s' s'') :
    SameBut s s'' :=
  ⟨h'.conn.trans h.conn, h'.durability.trans h.durability, h'.committed.trans h.committed,
    h'.mode.trans h.mode, h'.files.trans h.files, h'.blobCreated.trans h.blobCreated,
    h'.blobOrphaned.trans h.blobOrphaned⟩

theorem keeps_statement {inv : Owned sha256 → Prop} {f : Failing}
    {err : SqliteFailure → BackendError}
    {effect : Owned sha256 → Except SqliteFailure (Owned sha256)}
    (h : ∀ s s', inv s → effect s = .ok s' → inv s') : Keeps inv (statement f err effect) :=
  meets_of_forall fun s hs => meets_statement (fun _ s' hs' => h s s' hs hs') fun _ => hs

theorem keeps_rollbackSavepoint (f : SavepointFailing) (depth : ℕ) :
    Keeps (SameBut s₀) (rollbackSavepoint f depth) := by
  refine Keeps.bind (keeps_statement fun s s' hs hrun => ?_) fun _ =>
    keeps_statement fun s s' hs hrun => ?_
  · rw [rollbackTo] at hrun
    split at hrun
    · cases hrun
    · cases hrun
      exact hs.trans ⟨rfl, rfl, rfl, rfl, rfl, rfl, rfl⟩
  · rw [release] at hrun
    split at hrun
    · cases hrun
      exact hs.trans ⟨rfl, rfl, rfl, rfl, rfl, rfl, rfl⟩
    · cases hrun

theorem meets_rollbackSql (f : Failing) :
    Meets (· = s₀) (rollbackSql f)
      (fun _ s => f = none ∧ s₀.conn.inTransaction = true ∧ s = s₀.settle s₀.committed)
      (fun e s => e.isSome ∧ ¬ (f = none ∧ s₀.conn.inTransaction = true) ∧ s = s₀) := by
  by_cases hopen : s₀.conn.inTransaction = true
  · refine meets_statement_of_ok (if_pos hopen) (fun hf => ⟨hf, hopen, rfl⟩) fun hf => ?_
    exact ⟨fun h => hf h.1, rfl⟩
  · refine meets_statement (fun _ s hs => ?_) fun _ => ⟨fun h => hopen h.2, rfl⟩
    rw [if_neg hopen] at hs
    cases hs

/-- The files that the handle keeps as created. -/
def created (s : Owned sha256) : List BlobPath := s.txn.blobCreated.reverse.flatten

def orphaned (s : Owned sha256) : List BlobPath := s.txn.blobOrphaned.reverse.flatten

/-- What `Drop` leaves: a transaction that could not be rolled back stays open, and the created
files are collected, against the committed tables if it could. -/
structure Dropped (f : DropFailing) (s₀ s : Owned sha256) : Prop where
  synchronous : s.conn.synchronous = s₀.conn.synchronous
  committed : s.committed = s₀.committed
  inTransaction : s.conn.inTransaction = true ↔
    s₀.conn.inTransaction = true ∧ ¬ f.rollback = none
  files : ∃ tables, (f.rollback = none → s₀.conn.inTransaction = true → tables = s₀.committed) ∧
    Collected (Reclaimed f.gc s₀.created) tables s₀.txn.files s.txn.files

theorem meets_takeCreated :
    Meets (· = s₀) takeCreated
      (fun paths s => paths = s₀.created ∧
        s = { s₀ with txn := { s₀.txn with blobCreated := [] } }) fun _ _ => False := by
  refine meets_read fun s hs => ?_
  rw [show s = s₀ from hs]
  exact Meets.bind (meets_modify fun s' hs' => by rw [hs']) fun _ =>
    meets_pure fun s' hs' => ⟨rfl, hs'⟩

theorem meets_dropTxn (f : DropFailing) :
    Meets (· = s₀) (dropTxn f) (fun _ => Dropped f s₀) fun _ _ => False := by
  refine meets_read fun s hs => ?_
  rw [show s = s₀ from hs]
  have hnames : Meets (· = s₀) (Prog.modify (fun s => { s with names := 0 }) : Step sha256)
      (fun _ => SameBut s₀) fun _ _ => False :=
    meets_modify fun s' hs' => hs' ▸ ⟨rfl, rfl, rfl, rfl, rfl, rfl, rfl⟩
  have hsavepoints := meets_forEach (fun _ => SameBut s₀)
    (fun depth _ => Meets.ignoring (keeps_rollbackSavepoint (f.savepoint depth) depth))
    (List.range s₀.names)
  refine hnames.bind fun _ => hsavepoints.bind fun _ => meets_of_forall fun s hs => ?_
  -- the rollback, and the tables that the connection sees behind it
  have hrollback : Meets (· = s) (ignoring (rollbackSql f.rollback))
      (fun _ s' => (f.rollback = none ∧ s.conn.inTransaction = true ∧ s' = s.settle s.committed) ∨
        (¬ (f.rollback = none ∧ s.conn.inTransaction = true) ∧ s' = s)) fun _ _ => False := by
    refine Meets.ignoring ((meets_rollbackSql f.rollback).mono (fun _ h => h) ?_ ?_)
    · exact fun _ _ h => .inl h
    · exact fun e _ h => ⟨h.1, .inr h.2⟩
  refine hrollback.bind fun _ => meets_of_forall fun s₁ hs₁ => ?_
  refine meets_takeCreated.bind fun paths => meets_of_forall fun s₂ hs₂ => ?_
  obtain ⟨rfl, rfl⟩ := hs₂
  refine (meets_collectAll f.gc s₁.created).mono (fun _ h => h) ?_ fun _ _ h => h
  rintro _ s₃ ⟨files, rfl, hfiles⟩
  have hcreated : s.created = s₀.created := congrArg (fun l => l.reverse.flatten) hs.blobCreated
  rcases hs₁ with ⟨hok, hopen, rfl⟩ | ⟨hfails, rfl⟩
  · rw [hs.conn] at hopen
    refine ⟨?_, hs.committed, ?_, s.committed, fun _ _ => hs.committed, ?_⟩
    · show s.conn.synchronous = _
      rw [hs.conn]
    · exact iff_of_false (fun h => by cases h) fun h => h.2 hok
    · rw [← hcreated, ← hs.files]
      exact hfiles
  · rw [hs.conn] at hfails
    refine ⟨congrArg Conn.synchronous hs.conn, hs.committed, ?_, s₁.txn.tables, ?_, ?_⟩
    · show s₁.conn.inTransaction = true ↔ _
      rw [hs.conn]
      exact ⟨fun hopen => ⟨hopen, fun hok => hfails ⟨hok, hopen⟩⟩, fun h => h.1⟩
    · exact fun hok hopen => absurd ⟨hok, hopen⟩ hfails
    · rw [← hcreated, ← hs.files]
      exact hfiles

/-! ### `commit` -/

/-- What a commit makes the committed tables. -/
def toCommit (s : Owned sha256) : Tables :=
  if s.txn.mode = .readOnly then s.committed
  else if s.txn.mode = .versionChange then { s.txn.tables with version := s.txn.metadata.version }
  else s.txn.tables

/-- The steps up to the point of no return succeed. -/
def Written (s : Owned sha256) (f : CommitFailing) : Prop :=
  (s.txn.mode = .versionChange → f.version = none) ∧ f.commit = none

/-- The connection of a strict transaction gets its setting back. -/
def Durable (s : Owned sha256) (f : CommitFailing) : Prop :=
  s.durability = .strict → f.checkpoint = none ∧ f.synchronous = none

/-- Every check of an orphaned file succeeds. -/
def Checked (s : Owned sha256) (f : CommitFailing) : Prop :=
  ∀ i < s.orphaned.length, (f.gc i).refcheck = none

/-- The setting behind the durable part of a commit. -/
def synchronousAfter (s : Owned sha256) : Synchronous :=
  if s.durability = .strict then .normal else s.conn.synchronous

theorem meets_writeVersion (f : Failing) :
    Meets (· = s₀) (writeVersion f)
      (fun _ s => f = none ∧
        s = s₀.setTables { s₀.txn.tables with version := s₀.txn.metadata.version })
      (fun e s => e.isSome ∧ f ≠ none ∧ s = s₀) :=
  meets_statement_of_ok rfl (fun h => ⟨h, rfl⟩) fun h => ⟨h, rfl⟩

theorem meets_commitSql (f : Failing) (hopen : s₀.conn.inTransaction = true) :
    Meets (· = s₀) (commitSql f)
      (fun _ s => f = none ∧
        s = s₀.settle (if s₀.txn.mode = .readOnly then s₀.committed else s₀.txn.tables))
      (fun e s => e.isSome ∧ f ≠ none ∧ s = s₀) :=
  meets_statement_of_ok (if_pos hopen) (fun h => ⟨h, rfl⟩) fun h => ⟨h, rfl⟩

/-- Up to the point of no return. -/
theorem meets_write (f : CommitFailing) (hopen : s₀.conn.inTransaction = true) :
    Meets (· = s₀) (onlyIf (s₀.txn.mode = .versionChange) (writeVersion f.version) >>=
        fun _ => commitSql f.commit)
      (fun _ s => Written s₀ f ∧ s = s₀.settle s₀.toCommit)
      (fun e s => e.isSome ∧ ¬ Written s₀ f ∧ SameBut s₀ s) := by
  by_cases hmode : s₀.txn.mode = .versionChange
  · rw [onlyIf, if_pos hmode]
    refine Meets.bind ((meets_writeVersion f.version).mono (fun _ h => h) (fun _ _ h => h) ?_)
      fun _ => meets_of_forall fun s hs => ?_
    · rintro e s ⟨he, hfails, rfl⟩
      exact ⟨he, fun h => hfails (h.1 hmode), .refl s⟩
    · obtain ⟨hok, hwritten⟩ := hs
      have hopen' : s.conn.inTransaction = true := by
        rw [hwritten]
        exact hopen
      refine (meets_commitSql f.commit hopen').mono (fun _ h => h) ?_ ?_
      · rintro _ s' ⟨hcommit, rfl⟩
        refine ⟨⟨fun _ => hok, hcommit⟩, ?_⟩
        simp [hwritten, toCommit, hmode, setTables, settle]
      · rintro e s' ⟨he, hfails, rfl⟩
        refine ⟨he, fun h => hfails h.2, ?_⟩
        rw [hwritten]
        exact ⟨rfl, rfl, rfl, rfl, rfl, rfl, rfl⟩
  · rw [onlyIf, if_neg hmode]
    refine (meets_commitSql f.commit hopen).mono (fun _ h => h) ?_ ?_
    · rintro _ s ⟨hcommit, rfl⟩
      refine ⟨⟨fun h => absurd h hmode, hcommit⟩, ?_⟩
      simp [toCommit, hmode]
    · rintro e s ⟨he, hfails, rfl⟩
      exact ⟨he, fun h => hfails h.2, .refl s⟩

theorem meets_makeDurable (f : CommitFailing) :
    Meets (· = s₀) (makeDurable f)
      (fun _ s => (f.checkpoint = none ∧ f.synchronous = none) ∧
        s = { s₀ with conn := { s₀.conn with synchronous := .normal } })
      (fun e s => e.isSome ∧ ¬ (f.checkpoint = none ∧ f.synchronous = none) ∧ s = s₀) := by
  have hcheckpoint : Meets (· = s₀) (checkpoint f.checkpoint)
      (fun _ s => f.checkpoint = none ∧ s = s₀)
      (fun e s => e.isSome ∧ ¬ (f.checkpoint = none ∧ f.synchronous = none) ∧ s = s₀) :=
    meets_statement_of_ok rfl (fun h => ⟨h, rfl⟩) fun h => ⟨fun hboth => h hboth.1, rfl⟩
  refine hcheckpoint.bind fun _ => meets_of_forall fun s hs => ?_
  obtain ⟨hok, rfl⟩ := hs
  exact meets_statement_of_ok rfl (fun h => ⟨⟨hok, h⟩, rfl⟩) fun h => ⟨fun hboth => h hboth.2, rfl⟩

theorem meets_takeOrphaned :
    Meets (· = s₀) takeOrphaned
      (fun paths s => paths = s₀.orphaned ∧
        s = { s₀ with txn := { s₀.txn with blobOrphaned := [], blobCreated := [] } })
      fun _ _ => False := by
  refine meets_read fun s hs => ?_
  rw [show s = s₀ from hs]
  exact Meets.bind (meets_modify fun s' hs' => by rw [hs']) fun _ =>
    meets_pure fun s' hs' => ⟨rfl, hs'⟩

/-- How a commit fails: before the point of no return, on the way to durability, or in the
collection of the orphaned files. -/
inductive CommitFailed (s₀ : Owned sha256) (f : CommitFailing) (s : Owned sha256) : Prop
  | before (hwritten : ¬ Written s₀ f) (hsame : SameBut s₀ s)
  | durable (hwritten : Written s₀ f) (hdurable : ¬ Durable s₀ f)
      (hconn : s.conn = ⟨false, s₀.conn.synchronous⟩)
  | checked (hwritten : Written s₀ f) (hdurable : Durable s₀ f) (hchecked : ¬ Checked s₀ f)
      (hconn : s.conn = ⟨false, s₀.synchronousAfter⟩) (hcommitted : s.committed = s₀.toCommit)
      (hcreated : s.txn.blobCreated = [])
      (hfiles : Collected (ReclaimedFirst f.gc s₀.orphaned) s₀.toCommit s₀.txn.files s.txn.files)

theorem meets_commitBody (f : CommitFailing) (hopen : s₀.conn.inTransaction = true) :
    Meets (· = s₀) (commitBody f)
      (fun _ s => Written s₀ f ∧ Durable s₀ f ∧ Checked s₀ f ∧
        s.conn = ⟨false, s₀.synchronousAfter⟩)
      (fun e s => e.isSome ∧ CommitFailed s₀ f s) := by
  refine meets_read fun s hs => ?_
  rw [show s = s₀ from hs, ← Prog.bind_assoc]
  refine Meets.bind ((meets_write f hopen).mono (fun _ h => h) (fun _ _ h => h) ?_) fun _ => ?_
  · exact fun e s h => ⟨h.1, .before h.2.1 h.2.2⟩
  refine meets_of_forall fun s₁ hs₁ => ?_
  obtain ⟨hwritten, hsettled⟩ := hs₁
  -- behind the point of no return: durability, if it is strict
  have hdurable : Meets (· = s₁) (onlyIf (s₀.durability = .strict) (makeDurable f))
      (fun _ s => Durable s₀ f ∧
        s = { s₁ with conn := ⟨false, s₀.synchronousAfter⟩ })
      (fun e s => e.isSome ∧ CommitFailed s₀ f s) := by
    by_cases hstrict : s₀.durability = .strict
    · rw [onlyIf, if_pos hstrict]
      refine (meets_makeDurable f).mono (fun _ h => h) ?_ ?_
      · rintro _ s ⟨hok, rfl⟩
        refine ⟨fun _ => hok, ?_⟩
        rw [hsettled, synchronousAfter, if_pos hstrict]
        rfl
      · rintro e s ⟨he, hfails, rfl⟩
        refine ⟨he, .durable hwritten (fun h => hfails (h hstrict)) ?_⟩
        rw [hsettled]
        rfl
    · rw [onlyIf, if_neg hstrict]
      refine meets_pure fun s hs => ⟨fun h => absurd h hstrict, ?_⟩
      rw [hs, hsettled, synchronousAfter, if_neg hstrict]
      rfl
  refine hdurable.bind fun _ => meets_of_forall fun s₂ hs₂ => ?_
  obtain ⟨hdurable, hs₂⟩ := hs₂
  refine Meets.bind (meets_takeOrphaned.mono (fun _ h => h) (fun _ _ h => h) fun _ _ h => h.elim)
    fun paths => meets_of_forall fun s₃ hs₃ => ?_
  obtain ⟨hpaths, hs₃⟩ := hs₃
  have horphaned : paths = s₀.orphaned := by
    rw [hpaths, hs₂, hsettled]
    rfl
  rw [horphaned]
  refine (meets_collect f.gc s₀.orphaned).mono (fun _ h => h) ?_ ?_
  · rintro _ s ⟨hchecked, files, rfl⟩
    refine ⟨hwritten, hdurable, hchecked, ?_⟩
    rw [hs₃, hs₂]
    rfl
  · rintro e s ⟨he, hfails, files, rfl, hfiles⟩
    refine ⟨he, .checked hwritten hdurable hfails ?_ ?_ ?_ ?_⟩
    · rw [hs₃, hs₂]
      rfl
    · rw [hs₃, hs₂, hsettled]
      rfl
    · rw [hs₃]
      rfl
    · rw [hs₃, hs₂, hsettled] at hfiles
      exact hfiles

/-- What fails is dropped from where it failed. -/
theorem meets_orDrop {f : DropFailing} {body : Step sha256} {post halt : Owned sha256 → Prop}
    (h : Meets (· = s₀) body (fun _ => post) fun e s => e.isSome ∧ halt s) :
    Meets (· = s₀) (orDrop f body) (fun _ => post)
      fun e s => e.isSome ∧ ∃ s', halt s' ∧ Dropped f s' s := by
  refine Meets.bind ((Meets.attempt h).mono (fun _ h => h) (fun _ _ h => h) ?_)
    fun r => meets_of_forall fun s hs => ?_
  · rintro e s ⟨-, hstop, -⟩
    cases hstop
  · cases r with
    | ok a => exact meets_pure fun s' hs' => hs' ▸ hs
    | error e =>
        refine Meets.bind ((meets_dropTxn f).mono (fun _ h => h) (fun _ _ h => h) fun _ _ h =>
          h.elim)
          fun _ => meets_throw fun s' hs' => ⟨rfl, s, hs.2, hs'⟩

/-! ### `abort` -/

theorem meets_rollbackNames (f : ℕ → SavepointFailing) (names : ℕ) :
    Meets (SameBut s₀) (rollbackNames f names) (fun _ => SameBut s₀) fun _ _ => False := by
  induction names with
  | zero => exact meets_pure fun _ hs => hs
  | succ depth ih =>
      have hnames :
          Meets (SameBut s₀) (Prog.modify (fun s => { s with names := depth }) : Step sha256)
          (fun _ => SameBut s₀) fun _ _ => False :=
        meets_modify fun s hs => hs.trans ⟨rfl, rfl, rfl, rfl, rfl, rfl, rfl⟩
      exact hnames.bind fun _ =>
        (Meets.ignoring (keeps_rollbackSavepoint (f depth) depth)).bind fun _ => ih

/-- The connection of an abort: behind its rollback, or as it was. -/
def AbortFailed (s₀ : Owned sha256) (f : AbortFailing) (s : Owned sha256) : Prop :=
  (f.rollback = none ∧ s.conn = ⟨false, s₀.conn.synchronous⟩) ∨
    (f.rollback ≠ none ∧ s.conn = s₀.conn)

theorem meets_abortBody (f : AbortFailing) (hopen : s₀.conn.inTransaction = true) :
    Meets (· = s₀) (abortBody f)
      (fun _ s => f.rollback = none ∧ s.conn = ⟨false, s₀.conn.synchronous⟩)
      (fun e s => e.isSome ∧ AbortFailed s₀ f s) := by
  refine meets_read fun s hs => ?_
  rw [show s = s₀ from hs]
  have hnames : Meets (· = s₀) (rollbackNames f.savepoint s₀.names) (fun _ => SameBut s₀)
      fun _ _ => False :=
    (meets_rollbackNames f.savepoint s₀.names).mono (fun s hs => hs ▸ .refl s₀) (fun _ _ h => h)
      fun _ _ h => h
  refine Meets.bind (hnames.mono (fun _ h => h) (fun _ _ h => h) fun _ _ h => h.elim) fun _ =>
    meets_of_forall fun s₁ hs₁ => ?_
  have hopen₁ : s₁.conn.inTransaction = true := by rw [hs₁.conn, hopen]
  refine Meets.bind ((meets_rollbackSql f.rollback).mono (fun _ h => h) (fun _ _ h => h) ?_)
    fun _ => meets_of_forall fun s₂ hs₂ => ?_
  · rintro e s ⟨he, hfails, rfl⟩
    exact ⟨he, .inr ⟨fun hok => hfails ⟨hok, hopen₁⟩, hs₁.conn⟩⟩
  -- behind the rollback only files change
  obtain ⟨hok, -, hs₂⟩ := hs₂
  have hconn : s₂.conn = ⟨false, s₀.conn.synchronous⟩ := by
    rw [hs₂, ← hs₁.conn]
    rfl
  refine Meets.bind (meets_takeCreated.mono (fun _ h => h) (fun _ _ h => h) fun _ _ h => h.elim)
    fun paths => ?_
  have hclear : Meets (fun s => paths = s₂.created ∧
        s = { s₂ with txn := { s₂.txn with blobCreated := [] } })
      (Prog.modify (fun s => { s with txn := { s.txn with blobOrphaned := [] } }) : Step sha256)
      (fun _ s => s.conn = s₂.conn) fun e s => e.isSome ∧ AbortFailed s₀ f s :=
    meets_modify fun s hs => by rw [hs.2]
  refine hclear.bind fun _ => meets_of_forall fun s₃ hs₃ => ?_
  refine (meets_collect f.gc paths).mono (fun _ h => h) ?_ ?_
  · rintro _ s ⟨-, files, rfl⟩
    exact ⟨hok, hs₃.trans hconn⟩
  · rintro e s ⟨he, -, files, rfl, -⟩
    exact ⟨he, .inl ⟨hok, hs₃.trans hconn⟩⟩

/-! ### Clean ends -/

/-- Nothing of a transaction is to be seen: the committed rows are those from before, the files
they name are the files at its begin, and no file of its own is left. -/
structure Unseen (files₀ : BlobFiles) (committed₀ : Tables) (s : Owned sha256) : Prop where
  rows : s.committed = committed₀
  named : ∀ path, SqliteTxn.blobIsReferenced committed₀ path = true →
    s.txn.files.get? path = files₀.get? path
  files : ∀ path, s.txn.files.contains path = true → files₀.contains path = true

/-- The same before a step that makes `tables` the committed ones and collects files. -/
structure WillBeUnseen (files₀ : BlobFiles) (s : Owned sha256) (tables : Tables)
    (gone : BlobPath → Prop) : Prop where
  rows : tables = s.committed
  named : ∀ path, SqliteTxn.blobIsReferenced s.committed path = true →
    s.txn.files.get? path = files₀.get? path
  files : ∀ path, s.txn.files.contains path = true → files₀.contains path = true ∨
    (gone path ∧ SqliteTxn.blobIsReferenced s.committed path = false)

theorem unseen_iff {files₀ : BlobFiles} {tables : Tables} {gone : BlobPath → Prop}
    {s : Owned sha256}
    (hrows : s.committed = tables) (h : Collected gone tables s₀.txn.files s.txn.files) :
    Unseen files₀ s₀.committed s ↔ WillBeUnseen files₀ s₀ tables gone := by
  constructor
  · intro hunseen
    obtain rfl : tables = s₀.committed := hrows.symm.trans hunseen.rows
    refine ⟨rfl, fun path hnamed => ?_, fun path hpath => ?_⟩
    · rw [← h.named hnamed, hunseen.named path hnamed]
    · by_cases hgone : gone path ∧ SqliteTxn.blobIsReferenced s₀.committed path = false
      · exact .inr hgone
      · refine .inl (hunseen.files path ?_)
        rw [OrderedMap.contains, h.kept path hgone]
        exact hpath
  · intro hwill
    obtain rfl := hwill.rows
    refine ⟨hrows, fun path hnamed => ?_, fun path hpath => ?_⟩
    · rw [h.named hnamed, hwill.named path hnamed]
    · have hkept : ¬ (gone path ∧ SqliteTxn.blobIsReferenced s₀.committed path = false) := by
        intro hgone
        rw [OrderedMap.contains, h.removed path hgone.1 hgone.2] at hpath
        cases hpath
      rw [OrderedMap.contains, h.kept path hkept] at hpath
      exact (hwill.files path hpath).resolve_right hkept

/-- A transaction on a connection that was checked out and begun. -/
def start (c : Conn) (t : SqliteTxn sha256) (durability : Durability) (committed : Tables) :
    Owned sha256 :=
  ⟨t, durability, c.begun durability, committed, t.savepoints.length⟩

/-- A commit fails only if nothing of it is to be seen, and its connection is clean. -/
structure CommitsCleanly (files₀ : BlobFiles) (s : Owned sha256) (f : CommitFailing) : Prop where
  unseen : (commit f s).1 ≠ .done () → Unseen files₀ s.committed (commit f s).2
  conn : (commit f s).2.conn.Clean

/-- Either it is written, the setting is the normal one behind it, and no check fails if something
is to be seen; or it is not written, and the rollback of `Drop` and its collection undo all. -/
def EndsUnseen (files₀ : BlobFiles) (s : Owned sha256) (f : CommitFailing) : Prop :=
  (Written s f ∧ Durable s f ∧ s.synchronousAfter = .normal ∧
      (Checked s f ∨ WillBeUnseen files₀ s s.toCommit (ReclaimedFirst f.gc s.orphaned))) ∨
    (¬ Written s f ∧ s.conn.synchronous = .normal ∧ f.dropped.rollback = none ∧
      WillBeUnseen files₀ s s.committed (Reclaimed f.dropped.gc s.created))

/-- Without created files nothing is collected. -/
theorem Dropped.files_kept {f : DropFailing} {s : Owned sha256} (h : Dropped f s₀ s)
    (hnil : s₀.txn.blobCreated = []) (path : BlobPath) :
    s.txn.files.get? path = s₀.txn.files.get? path := by
  obtain ⟨tables, -, hfiles⟩ := h.files
  refine hfiles.kept path fun hgone => ?_
  obtain ⟨⟨i, hi, -⟩, -⟩ := hgone
  rw [created, hnil] at hi
  cases hi

/-- A drop of an open transaction undoes it exactly when its rollback and its collection do. -/
theorem dropped_unseen_iff {f : DropFailing} {s' s : Owned sha256} {files₀ : BlobFiles}
    (hopen : s₀.conn.inTransaction = true) (hsame : SameBut s₀ s') (h : Dropped f s' s) :
    (Unseen files₀ s₀.committed s ∧ s.conn.Clean) ↔
      (s₀.conn.synchronous = .normal ∧ f.rollback = none ∧
        WillBeUnseen files₀ s₀ s₀.committed (Reclaimed f.gc s₀.created)) := by
  have hopen' : s'.conn.inTransaction = true := by rw [hsame.conn, hopen]
  have hsynchronous : s.conn.synchronous = s₀.conn.synchronous := by
    rw [h.synchronous, hsame.conn]
  by_cases hok : f.rollback = none
  · obtain ⟨tables, htables, hfiles⟩ := h.files
    have hcreated : s'.created = s₀.created :=
      congrArg (fun l => l.reverse.flatten) hsame.blobCreated
    rw [htables hok hopen', hsame.committed, hsame.files, hcreated] at hfiles
    rw [unseen_iff (h.committed.trans hsame.committed) hfiles]
    have hclosed : s.conn.inTransaction = false := by
      rw [← Bool.not_eq_true, h.inTransaction]
      exact fun hboth => hboth.2 hok
    exact ⟨fun hboth => ⟨hsynchronous.symm.trans hboth.2.synchronous, hok, hboth.1⟩,
      fun hall => ⟨hall.2.2, hclosed, hsynchronous.trans hall.1⟩⟩
  · refine iff_of_false (fun hboth => ?_) fun hall => hok hall.2.1
    have hclosed := hboth.2.closed
    rw [h.inTransaction.mpr ⟨hopen', hok⟩] at hclosed
    cases hclosed

/-- A drop behind the end of the SQL transaction changes no connection. -/
theorem Dropped.conn {f : DropFailing} {s : Owned sha256} (h : Dropped f s₀ s)
    (hclosed : s₀.conn.inTransaction = false) : s.conn = s₀.conn := by
  have hstays : s.conn.inTransaction = false := by
    rw [← Bool.not_eq_true, h.inTransaction, hclosed]
    exact fun hboth => by cases hboth.1
  rcases hconn : s.conn with ⟨inTransaction, synchronous⟩
  rcases hconn₀ : s₀.conn with ⟨inTransaction₀, synchronous₀⟩
  have hsynchronous := h.synchronous
  rw [hconn, hconn₀] at hsynchronous
  rw [hconn] at hstays
  rw [hconn₀] at hclosed
  obtain rfl : inTransaction = false := hstays
  obtain rfl : inTransaction₀ = false := hclosed
  exact congrArg (Conn.mk false) hsynchronous

theorem commitsCleanly_iff (hopen : s₀.conn.inTransaction = true)
    (hfull : s₀.durability = .strict → s₀.conn.synchronous = .full) (files₀ : BlobFiles)
    (f : CommitFailing) : CommitsCleanly files₀ s₀ f ↔ EndsUnseen files₀ s₀ f := by
  have hends := meets_orDrop (f := f.dropped) (meets_commitBody f hopen) s₀ rfl
  change Ends _ _ (commit f s₀) at hends
  rcases hrun : commit f s₀ with ⟨_ | e | _, s⟩ <;> rw [hrun] at hends
  · obtain ⟨hwritten, hdurable, hchecked, hconn⟩ := hends
    constructor
    · intro h
      have hnormal := h.conn.synchronous
      rw [hrun, hconn] at hnormal
      exact .inl ⟨hwritten, hdurable, hnormal, .inl hchecked⟩
    · rintro (⟨-, -, hnormal, -⟩ | ⟨hnot, -⟩)
      · refine ⟨fun h => absurd (by rw [hrun]) h, ?_⟩
        rw [hrun, hconn]
        exact ⟨rfl, hnormal⟩
      · exact absurd hwritten hnot
  · obtain ⟨-, s', hfailed, hdropped⟩ := hends
    have hclean : CommitsCleanly files₀ s₀ f ↔ Unseen files₀ s₀.committed s ∧ s.conn.Clean := by
      constructor
      · intro h
        have hunseen := h.unseen (by rw [hrun]; simp)
        have hconn := h.conn
        rw [hrun] at hunseen hconn
        exact ⟨hunseen, hconn⟩
      · rintro ⟨hunseen, hconn⟩
        refine ⟨fun _ => ?_, ?_⟩
        · rw [hrun]
          exact hunseen
        · rw [hrun]
          exact hconn
    rw [hclean]
    -- the commit stopped before it was written, at the sync, or behind it
    cases hfailed with
    | before hwritten hsame =>
        rw [dropped_unseen_iff hopen hsame hdropped]
        refine ⟨fun h => .inr ⟨hwritten, h⟩, ?_⟩
        rintro (⟨h, -⟩ | ⟨-, h⟩)
        · exact absurd h hwritten
        · exact h
    | durable hwritten hdurable hconn =>
        refine iff_of_false (fun h => hdurable fun hstrict => ?_) ?_
        · -- a strict transaction had set the connection to full
          have hnormal := h.2.synchronous
          rw [hdropped.synchronous, hconn, hfull hstrict] at hnormal
          cases hnormal
        · rintro (⟨-, h, -⟩ | ⟨h, -⟩)
          · exact hdurable h
          · exact h hwritten
    | checked hwritten hdurable hchecked hconn hcommitted hcreated hfiles =>
        have hconn' : s.conn = ⟨false, s₀.synchronousAfter⟩ := by
          rw [hdropped.conn (by rw [hconn]), hconn]
        have hfiles' : Collected (ReclaimedFirst f.gc s₀.orphaned) s₀.toCommit s₀.txn.files
            s.txn.files := by
          refine ⟨fun path hgone hfree => ?_, fun path hkept => ?_⟩
          · rw [hdropped.files_kept hcreated, hfiles.removed path hgone hfree]
          · rw [hdropped.files_kept hcreated, hfiles.kept path hkept]
        rw [unseen_iff (hdropped.committed.trans hcommitted) hfiles', hconn']
        constructor
        · exact fun h => .inl ⟨hwritten, hdurable, h.2.synchronous, .inr h.1⟩
        · rintro (⟨-, -, hnormal, h | h⟩ | ⟨h, -⟩)
          · exact absurd h hchecked
          · exact ⟨h, rfl, hnormal⟩
          · exact absurd hwritten h
  · cases hends.1

theorem abort_clean_iff (hopen : s₀.conn.inTransaction = true) (f : AbortFailing) :
    (abort f s₀).2.conn.Clean ↔
      s₀.conn.synchronous = .normal ∧ (f.rollback = none ∨ f.dropped.rollback = none) := by
  have hends := meets_orDrop (f := f.dropped) (meets_abortBody f hopen) s₀ rfl
  change Ends _ _ (abort f s₀) at hends
  have hrolled {s : Owned sha256} (hok : f.rollback = none)
      (hconn : s.conn = ⟨false, s₀.conn.synchronous⟩) :
      s.conn.Clean ↔ s₀.conn.synchronous = .normal ∧
        (f.rollback = none ∨ f.dropped.rollback = none) := by
    rw [hconn]
    exact ⟨fun h => ⟨h.synchronous, .inl hok⟩, fun h => ⟨rfl, h.1⟩⟩
  rcases hrun : abort f s₀ with ⟨_ | e | _, s⟩ <;> rw [hrun] at hends
  · exact hrolled hends.1 hends.2
  · obtain ⟨-, s', ⟨hok, hconn⟩ | ⟨hfails, hconn⟩, hdropped⟩ := hends
    · exact hrolled hok (by rw [hdropped.conn (by rw [hconn]), hconn])
    · -- the second rollback is that of the drop
      constructor
      · intro h
        refine ⟨?_, .inr ?_⟩
        · rw [← hconn, ← hdropped.synchronous]
          exact h.synchronous
        · by_contra hnot
          have hclosed := h.closed
          rw [hdropped.inTransaction.mpr ⟨by rw [hconn, hopen], hnot⟩] at hclosed
          cases hclosed
      · rintro ⟨hnormal, hok⟩
        refine ⟨?_, ?_⟩
        · rw [← Bool.not_eq_true, hdropped.inTransaction]
          exact fun hboth => hboth.2 (hok.resolve_left hfails)
        · rw [hdropped.synchronous, hconn, hnormal]
  · cases hends.1

theorem drop_clean_iff (hopen : s₀.conn.inTransaction = true) (f : DropFailing) :
    (dropTxn f s₀).2.conn.Clean ↔ s₀.conn.synchronous = .normal ∧ f.rollback = none := by
  have hends := meets_dropTxn f s₀ rfl
  rcases hrun : dropTxn f s₀ with ⟨_ | e | _, s⟩ <;> rw [hrun] at hends
  · have hdropped : Dropped f s₀ s := hends
    constructor
    · intro h
      refine ⟨hdropped.synchronous.symm.trans h.synchronous, ?_⟩
      by_contra hnot
      have hclosed := h.closed
      rw [hdropped.inTransaction.mpr ⟨hopen, hnot⟩] at hclosed
      cases hclosed
    · rintro ⟨hnormal, hok⟩
      refine ⟨?_, hdropped.synchronous.trans hnormal⟩
      rw [← Bool.not_eq_true, hdropped.inTransaction]
      exact fun hboth => hboth.2 hok
  · exact hends.elim
  · exact hends.elim

theorem start_synchronous (c : Conn) (t : SqliteTxn sha256) (durability : Durability)
    (committed : Tables) : (start c t durability committed).conn.synchronous = .normal ↔
      durability ≠ .strict ∧ c.synchronous = .normal := by
  show (if durability = .strict then Synchronous.full else c.synchronous) = .normal ↔ _
  by_cases hstrict : durability = .strict
  · rw [if_pos hstrict]
    exact iff_of_false (fun h => by cases h) fun h => h.1 hstrict
  · rw [if_neg hstrict]
    exact (and_iff_right hstrict).symm

/-! ### The connection of the writer slot -/

/-- How a transaction is ended. -/
inductive Ending
  | commit (f : CommitFailing)
  | abort (f : AbortFailing)
  | drop (f : DropFailing)

def Ending.run : Ending → Step sha256
  | .commit f => Owned.commit f
  | .abort f => Owned.abort f
  | .drop f => dropTxn f

/-- One use of the connection: its begin, what any operations made of the transaction, its end. -/
structure Checkout (sha256 : Bytes → Bytes) where
  durability : Durability
  failing : BeginFailing
  txn : SqliteTxn sha256
  committed : Tables
  ending : Ending

/-- The connection that goes back; a failed begin gives it back at once. -/
def Checkout.giveBack (u : Checkout sha256) (c : Conn) : Conn :=
  match newWriter u.durability u.failing c with
  | (.done (), c) =>
      (u.ending.run ⟨u.txn, u.durability, c, u.committed, u.txn.savepoints.length⟩).2.conn
  | (_, c) => c

/-- A use that leaves a clean connection clean. -/
structure Checkout.Harmless (u : Checkout sha256) : Prop where
  begins : u.durability = .strict → u.failing.pragma = none → u.failing.begin = none
  commits : ∀ f, u.ending = .commit f →
    ∃ files₀, EndsUnseen files₀ (start createConnection u.txn u.durability u.committed) f
  aborts : ∀ f, u.ending = .abort f →
    u.durability ≠ .strict ∧ (f.rollback = none ∨ f.dropped.rollback = none)
  drops : ∀ f, u.ending = .drop f → u.durability ≠ .strict ∧ f.rollback = none

theorem meets_newWriter (durability : Durability) (f : BeginFailing) (c : Conn)
    (hclosed : c.inTransaction = false) :
    Meets (· = c) (newWriter durability f) (fun _ c' => c' = c.begun durability)
      (fun e c' => e.isSome ∧
        (c' = c ∨ (durability = .strict ∧ f.pragma = none ∧ f.begin ≠ none))) := by
  have hbegin (synchronous : Synchronous) : Conn.beginSql ⟨c.inTransaction, synchronous⟩ =
      .ok ⟨true, synchronous⟩ := by
    rw [Conn.beginSql, if_neg (by simp [hclosed])]
  by_cases hstrict : durability = .strict
  · rw [newWriter, onlyIf, if_pos hstrict]
    have hpragma : Meets (· = c)
        (statement f.pragma (internalError "setting strict durability failed") fun c =>
          .ok { c with synchronous := .full })
        (fun _ c' => f.pragma = none ∧ c' = ⟨c.inTransaction, .full⟩)
        (fun e c' => e.isSome ∧
          (c' = c ∨ (durability = .strict ∧ f.pragma = none ∧ f.begin ≠ none))) :=
      meets_statement_of_ok rfl (fun h => ⟨h, rfl⟩) fun _ => .inl rfl
    refine hpragma.bind fun _ => meets_of_forall fun c' hc' => ?_
    obtain ⟨hok, rfl⟩ := hc'
    refine meets_statement_of_ok (hbegin .full) (fun _ => ?_) fun hfails =>
      .inr ⟨hstrict, hok, hfails⟩
    rw [Conn.begun, if_pos hstrict]
  · rw [newWriter, onlyIf, if_neg hstrict]
    refine meets_statement_of_ok (hbegin c.synchronous) (fun _ => ?_) fun _ => .inl rfl
    rw [Conn.begun, if_neg hstrict]

theorem Checkout.giveBack_clean {u : Checkout sha256} (h : u.Harmless) {c : Conn} (hc : c.Clean) :
    (u.giveBack c).Clean := by
  obtain rfl : c = createConnection := by
    rcases c with ⟨inTransaction, synchronous⟩
    obtain ⟨rfl, rfl⟩ := hc
    rfl
  have hends := meets_newWriter u.durability u.failing createConnection rfl createConnection rfl
  rw [giveBack]
  rcases hrun : newWriter u.durability u.failing createConnection with ⟨_ | e | _, c⟩ <;>
    rw [hrun] at hends
  · obtain rfl : c = createConnection.begun u.durability := hends
    show (u.ending.run (start createConnection u.txn u.durability u.committed)).2.conn.Clean
    cases hending : u.ending with
    | commit f =>
        obtain ⟨files₀, hunseen⟩ := h.commits f hending
        exact ((commitsCleanly_iff rfl (fun hstrict => if_pos hstrict) files₀ f).mpr hunseen).conn
    | abort f =>
        obtain ⟨hstrict, hrollback⟩ := h.aborts f hending
        exact (abort_clean_iff rfl f).mpr
          ⟨(start_synchronous _ _ _ _).mpr ⟨hstrict, rfl⟩, hrollback⟩
    | drop f =>
        obtain ⟨hstrict, hrollback⟩ := h.drops f hending
        exact (drop_clean_iff rfl f).mpr ⟨(start_synchronous _ _ _ _).mpr ⟨hstrict, rfl⟩, hrollback⟩
  · obtain ⟨-, hc | ⟨hstrict, hpragma, hfails⟩⟩ := hends
    · rw [show c = createConnection from hc]
      exact ⟨rfl, rfl⟩
    · exact absurd (h.begins hstrict hpragma) hfails
  · cases hends.1

/-- The connection is clean at every checkout of a run whose uses are harmless. -/
theorem giveBack_run_clean {us : List (Checkout sha256)} (h : ∀ u ∈ us, u.Harmless) {c : Conn}
    (hc : c.Clean) : (us.foldl (fun c u => u.giveBack c) c).Clean := by
  induction us generalizing c with
  | nil => exact hc
  | cons u us ih =>
      exact ih (fun u' hu' => h u' (List.mem_cons_of_mem u hu'))
        (Checkout.giveBack_clean (h u List.mem_cons_self) hc)

/-- **Clean ends**: when a commit that fails has left nothing, and when the connection of a commit,
an abort or a drop goes back clean. -/
theorem ends_cleanly_iff (c : Conn) (t : SqliteTxn sha256) (durability : Durability)
    (committed : Tables) (files₀ : BlobFiles) :
    (∀ f, CommitsCleanly files₀ (start c t durability committed) f ↔
      EndsUnseen files₀ (start c t durability committed) f) ∧
      (∀ f : AbortFailing, (abort f (start c t durability committed)).2.conn.Clean ↔
        (durability ≠ .strict ∧ c.synchronous = .normal) ∧
          (f.rollback = none ∨ f.dropped.rollback = none)) ∧
      ∀ f : DropFailing, (dropTxn f (start c t durability committed)).2.conn.Clean ↔
        (durability ≠ .strict ∧ c.synchronous = .normal) ∧ f.rollback = none := by
  refine ⟨fun f => commitsCleanly_iff rfl (fun hstrict => ?_) files₀ f, fun f => ?_, fun f => ?_⟩
  · exact if_pos hstrict
  · rw [abort_clean_iff rfl, start_synchronous]
  · rw [drop_clean_iff rfl, start_synchronous]

/-- An upgrade to version 7 with strict durability. -/
def strictUpgrade : Owned id :=
  let t : SqliteTxn id := .begin (.empty []) .empty .versionChange []
  start createConnection { t with metadata := { t.metadata with version := 7 } } .strict (.empty [])

/-- The checkpoint fails behind `COMMIT`; an abort and a drop without any failure keep the strict
setting as well. -/
theorem strict_end_leaks :
    ¬ CommitsCleanly .empty strictUpgrade { checkpoint := some ⟨"disk I/O error", false⟩ } ∧
      (commit { checkpoint := some ⟨"disk I/O error", false⟩ } strictUpgrade).1 =
        .failed (.internal "strict WAL checkpoint failed: disk I/O error") ∧
      (commit { checkpoint := some ⟨"disk I/O error", false⟩ } strictUpgrade).2.committed.version =
        7 ∧
      (commit { checkpoint := some ⟨"disk I/O error", false⟩ } strictUpgrade).2.conn =
        ⟨false, .full⟩ ∧
      (abort {} strictUpgrade).2.conn = ⟨false, .full⟩ ∧
      (dropTxn {} strictUpgrade).2.conn = ⟨false, .full⟩ := by
  refine ⟨fun h => ?_, rfl, rfl, rfl, rfl, rfl⟩
  have hconn := h.conn.synchronous
  cases hconn

end Owned

end BoaIdb.Sqlite
