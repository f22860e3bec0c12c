import BoaIdb.Fs.CommitErrors

/-!
The deletion of a database directory, and what opening shows when it did not come to its end.

The entries go in the order of the listing. Whatever was removed before a failure, or before
the process stopped, stays removed; opening makes what it misses, or reports it.
-/

namespace BoaIdb.Fs

open OrdMap Faults

/-! ### The deletion -/

/-- A file of a database directory. -/
inductive DiskFile
  | current
  | manifest (seq : ℕ)
  | metaScf
  | wal (seq : ℕ)
  | segment (seq : ℕ)
  /-- A temporary file, or one that is never read. -/
  | temp
  deriving DecidableEq

def DiskFile.remove : DiskFile → Disk → Disk
  | .current, d => { d with current := none }
  | .manifest seq, d => { d with manifests := Function.update d.manifests seq none }
  | .metaScf, d => { d with metaScf := none }
  | .wal seq, d => d.removeWal seq
  | .segment seq, d => d.removeSegment seq
  | .temp, d => d

def Disk.without (gone : List DiskFile) (d : Disk) : Disk :=
  gone.foldl (fun d file => file.remove d) d

/-- An entry of the listing, with the outcomes of its removal. -/
inductive DirEntry
  | lock
  | file (target : DiskFile) (o : Outcome IoError)
  /-- A directory, with its files in the order in which they go. -/
  | dir (files : List (DiskFile × Outcome IoError)) (rmdir : Outcome IoError)

structure DeleteFaults where
  acquire : Outcome BackendError := .ok
  readDir : Outcome IoError := .ok
  lockThere : Bool := true
  removeLock : Outcome IoError := .ok
  /-- Files that the listing has missed. -/
  left : List (DiskFile × Outcome IoError) := []
  removeDir : Outcome IoError := .ok

abbrev DiskProg := Prog Disk BackendError

def removeFiles (context : String) (files : List (DiskFile × Outcome IoError)) : DiskProg Unit :=
  Prog.forEach (fun r => Prog.op (asBackend context r.2) r.1.remove) files

def DirEntry.delete : DirEntry → DiskProg Unit
  | .lock => pure ()
  | .file target o => removeFiles "delete file" [(target, o)]
  | .dir files rmdir => do
      removeFiles "delete nested dir" files
      Prog.op (asBackend "delete nested dir" rmdir) id

/-- A directory that is not there is removed. -/
def ignoreNotFound : Outcome IoError → Outcome IoError
  | .fail (.other text) => if text = notFoundText then .ok else .fail (.other text)
  | o => o

/-- `LOCK` goes when nobody holds it any more. -/
def removeLockFile (f : DeleteFaults) : DiskProg Unit :=
  if f.lockThere then Prog.op (asBackend "delete LOCK" f.removeLock) id else pure ()

def deleteDatabaseDir (entries : List DirEntry) (f : DeleteFaults) : DiskProg Unit := do
  Prog.op f.acquire id
  Prog.op (asBackend "delete read_dir" f.readDir) id
  Prog.forEach DirEntry.delete entries
  removeLockFile f
  removeFiles "delete_database" f.left
  Prog.op (asBackend "delete_database" (ignoreNotFound f.removeDir)) id

/-! ### What is removed -/

/-- Files that are removed one after the other, and whether all are. -/
def removedOf : List (DiskFile × Outcome IoError) → List DiskFile × Bool
  | [] => ([], true)
  | (file, o) :: rest =>
      if o = .ok then (file :: (removedOf rest).1, (removedOf rest).2) else ([], false)

def DirEntry.removed : DirEntry → List DiskFile × Bool
  | .lock => ([], true)
  | .file target o => removedOf [(target, o)]
  | .dir files rmdir => ((removedOf files).1, (removedOf files).2 && rmdir == .ok)

def removedEntries : List DirEntry → List DiskFile × Bool
  | [] => ([], true)
  | entry :: rest =>
      if entry.removed.2 then (entry.removed.1 ++ (removedEntries rest).1, (removedEntries rest).2)
      else (entry.removed.1, false)

/-- The files that a deletion has removed when it ends, however it ends. -/
def DeleteFaults.gone (f : DeleteFaults) (entries : List DirEntry) : List DiskFile :=
  if f.acquire = .ok ∧ f.readDir = .ok then
    if (removedEntries entries).2 ∧ (f.lockThere → f.removeLock = .ok) then
      (removedEntries entries).1 ++ (removedOf f.left).1
    else (removedEntries entries).1
  else []

theorem without_append (gone gone' : List DiskFile) (d : Disk) :
    d.without (gone ++ gone') = (d.without gone).without gone' := List.foldl_append

/-- A program that removes files, as far as it comes. -/
abbrev Removes (d : Disk) (p : DiskProg Unit) (removed : List DiskFile × Bool) : Prop :=
  Meets (· = d) p (fun _ d' => removed.2 = true ∧ d' = d.without removed.1)
    (fun _ d' => removed.2 = false ∧ d' = d.without removed.1)

theorem removes_op {context : String} {o : Outcome IoError} {d : Disk} :
    Meets (· = d) (Prog.op (asBackend context o) id) (fun _ d' => o = .ok ∧ d' = d)
      (fun _ d' => o ≠ .ok ∧ d' = d) := by
  refine meets_op (fun ho s hs => ⟨?_, hs⟩) (fun e ho s hs => ⟨?_, hs⟩) fun ho s hs => ⟨?_, hs⟩
  all_goals cases o <;> simp_all [asBackend]

theorem removes_files (context : String) (files : List (DiskFile × Outcome IoError)) (d : Disk) :
    Removes d (removeFiles context files) (removedOf files) := by
  induction files generalizing d with
  | nil => exact meets_pure fun d' hd => ⟨rfl, hd⟩
  | cons r rest ih =>
      obtain ⟨target, o⟩ := r
      have hfirst : Meets (· = d) (Prog.op (asBackend context o) target.remove)
          (fun _ d' => o = .ok ∧ d' = target.remove d) (fun _ d' => o ≠ .ok ∧ d' = d) := by
        refine meets_op (fun ho s hs => ⟨?_, by rw [hs]⟩) (fun e ho s hs => ⟨?_, hs⟩)
          fun ho s hs => ⟨?_, hs⟩
        all_goals cases o <;> simp_all [asBackend]
      have hremoved : removedOf ((target, o) :: rest) =
          if o = .ok then (target :: (removedOf rest).1, (removedOf rest).2) else ([], false) := rfl
      rw [Removes, hremoved]
      refine (hfirst.mono (fun _ h => h) (fun _ _ h => h) fun _ d' hd => ?_).bind fun _ =>
        Meets.of_imp fun ho => ?_
      · rw [if_neg hd.1]
        exact ⟨rfl, hd.2⟩
      · rw [if_pos ho]
        exact ih (target.remove d)

theorem removes_entry (entry : DirEntry) (d : Disk) : Removes d entry.delete entry.removed := by
  cases entry with
  | lock => exact meets_pure fun d' hd => ⟨rfl, hd⟩
  | file target o => exact removes_files _ _ d
  | dir files rmdir =>
      have hall (hrmdir : rmdir = .ok) (h : (removedOf files).2 = true) :
          (DirEntry.dir files rmdir).removed.2 = true := by
        show ((removedOf files).2 && rmdir == .ok) = true
        rw [h, hrmdir]
        rfl
      have hsome (h : (removedOf files).2 = false ∨ rmdir ≠ .ok) :
          (DirEntry.dir files rmdir).removed.2 = false := by
        show ((removedOf files).2 && rmdir == .ok) = false
        rcases h with h | h
        · rw [h, Bool.false_and]
        · rw [beq_false_of_ne h, Bool.and_false]
      refine ((removes_files _ files d).mono (fun _ h => h) (fun _ _ h => h) fun _ d' hd =>
        ⟨hsome (.inl hd.1), hd.2⟩).bind fun _ => Meets.of_imp fun h => ?_
      exact removes_op.mono (fun _ h => h) (fun _ d' hd => ⟨hall hd.1 h, hd.2⟩)
        fun _ d' hd => ⟨hsome (.inr hd.1), hd.2⟩

theorem removes_entries (entries : List DirEntry) (d : Disk) :
    Removes d (Prog.forEach DirEntry.delete entries) (removedEntries entries) := by
  induction entries generalizing d with
  | nil => exact meets_pure fun d' hd => ⟨rfl, hd⟩
  | cons entry rest ih =>
      have hremoved : removedEntries (entry :: rest) =
          if entry.removed.2 then
            (entry.removed.1 ++ (removedEntries rest).1, (removedEntries rest).2)
          else (entry.removed.1, false) := rfl
      rw [Removes, hremoved]
      refine ((removes_entry entry d).mono (fun _ h => h) (fun _ _ h => h) fun _ d' hd => ?_).bind
        fun _ => Meets.of_imp fun hall => ?_
      · rw [if_neg (by rw [hd.1]; exact Bool.false_ne_true)]
        exact ⟨rfl, hd.2⟩
      · rw [if_pos hall]
        refine (ih (d.without entry.removed.1)).mono (fun _ h => h) (fun _ d' hd => ?_)
          fun _ d' hd => ?_
        · exact ⟨hd.1, by rw [hd.2, without_append]⟩
        · exact ⟨hd.1, by rw [hd.2, without_append]⟩

/-- A deletion leaves the files that it has not removed, as they were. -/
theorem disk_deleteDatabaseDir (entries : List DirEntry) (f : DeleteFaults) (d : Disk) :
    (deleteDatabaseDir entries f d).2 = d.without (f.gone entries) := by
  have hrun : Meets (· = d) (deleteDatabaseDir entries f)
      (fun _ d' => d' = d.without (f.gone entries))
      (fun _ d' => d' = d.without (f.gone entries)) := by
    unfold deleteDatabaseDir
    have hnone (h : ¬ (f.acquire = .ok ∧ f.readDir = .ok)) : f.gone entries = [] := if_neg h
    have hacquire : Meets (· = d) (Prog.op f.acquire id : DiskProg Unit)
        (fun _ d' => f.acquire = .ok ∧ d' = d) (fun _ d' => d' = d.without (f.gone entries)) := by
      refine meets_op (fun ho s hs => ⟨ho, hs⟩) (fun e ho s hs => ?_) fun ho s hs => ?_
      all_goals
        rw [hnone fun h => by rw [ho] at h; cases h.1]
        exact hs
    refine hacquire.bind fun _ => Meets.of_imp fun h₁ => ?_
    refine (removes_op.mono (fun _ h => h) (fun _ _ h => h) fun _ d' hd => ?_).bind fun _ =>
      Meets.of_imp fun h₂ => ?_
    · rw [hnone fun h => hd.1 h.2]
      exact hd.2
    have hgone : f.gone entries =
        if (removedEntries entries).2 ∧ (f.lockThere → f.removeLock = .ok) then
          (removedEntries entries).1 ++ (removedOf f.left).1
        else (removedEntries entries).1 := if_pos ⟨h₁, h₂⟩
    refine ((removes_entries entries d).mono (fun _ h => h) (fun _ _ h => h) fun _ d' hd => ?_).bind
      fun _ => Meets.of_imp fun h₃ => ?_
    · rw [hgone, if_neg fun h => by rw [hd.1] at h; cases h.1]
      exact hd.2
    have hlock : Meets (· = d.without (removedEntries entries).1) (removeLockFile f)
        (fun _ d' => (f.lockThere → f.removeLock = .ok) ∧
          d' = d.without (removedEntries entries).1)
        (fun _ d' => d' = d.without (f.gone entries)) := by
      unfold removeLockFile
      split
      · refine removes_op.mono (fun _ h => h) (fun _ d' hd => ⟨fun _ => hd.1, hd.2⟩)
          fun _ d' hd => ?_
        rw [hgone, if_neg fun h => hd.1 (h.2 ‹_›)]
        exact hd.2
      · exact meets_pure fun d' hd => ⟨fun h => absurd h ‹_›, hd⟩
    refine hlock.bind fun _ => Meets.of_imp fun h₄ => ?_
    rw [hgone, if_pos ⟨h₃, h₄⟩, without_append]
    refine ((removes_files _ f.left _).mono (fun _ h => h) (fun _ _ h => h.2) fun _ _ h => h.2).bind
      fun _ => ?_
    exact removes_op.mono (fun _ h => h) (fun _ _ h => h.2) fun _ _ h => h.2
  exact hrun.behind rfl

/-! ### What is left -/

/-- A part of the directory that one file makes. -/
theorem read_without {α : Type} (read : Disk → Option α) (file : DiskFile)
    (hself : ∀ d, read (file.remove d) = none)
    (hother : ∀ other d, other ≠ file → read (other.remove d) = read d) (gone : List DiskFile)
    (d : Disk) : read (d.without gone) = if file ∈ gone then none else read d := by
  induction gone generalizing d with
  | nil => rfl
  | cons first gone ih =>
      show read ((first.remove d).without gone) = _
      rw [ih]
      by_cases hfirst : first = file
      · subst hfirst
        rw [hself, ite_self, if_pos List.mem_cons_self]
      · rw [hother first d hfirst]
        simp only [List.mem_cons, Ne.symm hfirst, false_or]

theorem current_without (gone : List DiskFile) (d : Disk) :
    (d.without gone).current = if .current ∈ gone then none else d.current := by
  refine read_without Disk.current .current (fun d => rfl) (fun other d hother => ?_) gone d
  cases other <;> first | rfl | exact absurd rfl hother

theorem metaScf_without (gone : List DiskFile) (d : Disk) :
    (d.without gone).metaScf = if .metaScf ∈ gone then none else d.metaScf := by
  refine read_without Disk.metaScf .metaScf (fun d => rfl) (fun other d hother => ?_) gone d
  cases other <;> first | rfl | exact absurd rfl hother

theorem manifests_without (gone : List DiskFile) (d : Disk) (seq : ℕ) :
    (d.without gone).manifests seq = if .manifest seq ∈ gone then none else d.manifests seq := by
  refine read_without (fun d => d.manifests seq) (.manifest seq)
    (fun d => Function.update_self _ _ _)
    (fun other d hother => ?_) gone d
  cases other with
  | manifest seq' =>
      refine Function.update_of_ne (fun h => hother ?_) _ _
      rw [h]
  | _ => rfl

theorem wals_without (gone : List DiskFile) (d : Disk) (seq : ℕ) :
    (d.without gone).wals seq = if .wal seq ∈ gone then none else d.wals seq := by
  refine read_without (fun d => d.wals seq) (.wal seq) (fun d => Function.update_self _ _ _)
    (fun other d hother => ?_) gone d
  cases other with
  | wal seq' =>
      refine Function.update_of_ne (fun h => hother ?_) _ _
      rw [h]
  | _ => rfl

theorem segFiles_without (gone : List DiskFile) (d : Disk) (seq : ℕ) :
    (d.without gone).segFiles seq = if .segment seq ∈ gone then none else d.segFiles seq := by
  refine read_without (fun d => d.segFiles seq) (.segment seq) (fun d => Function.update_self _ _ _)
    (fun other d hother => ?_) gone d
  cases other with
  | segment seq' =>
      refine Function.update_of_ne (fun h => hother ?_) _ _
      rw [h]
  | _ => rfl

/-- A log that is gone reads as an empty one. -/
theorem logOps_without (gone : List DiskFile) (d : Disk) (seq : ℕ) :
    (d.without gone).logOps seq = if .wal seq ∈ gone then [] else d.logOps seq := by
  have hbytes : (d.without gone).walBytes seq =
      if .wal seq ∈ gone then [] else d.walBytes seq := by
    rw [Disk.walBytes, wals_without]
    split <;> rfl
  by_cases hgone : .wal seq ∈ gone
  · rw [if_pos hgone] at hbytes ⊢
    exact logOps_nil hbytes
  · rw [if_neg hgone] at hbytes ⊢
    exact logOps_congr hbytes

/-! ### What opening shows -/

/-- An empty database of version 0. -/
def View.fresh (name : Utf16String) : View :=
  ⟨.empty, .empty, fun _ => keyGenStart, some (emptyMeta name)⟩

theorem view_freshBase_none (name : Utf16String) (tip : ManifestData) :
    (freshBase name none tip).view = View.fresh name := rfl

/-- An error, the old database, or an empty one. -/
def Untorn (name : Utf16String) (v : View) (r : Except BackendError View) : Prop :=
  ∀ w, r = .ok w → w = v ∨ w = View.fresh name

variable {name : Utf16String} {d : Disk} {gone : List DiskFile} {v : View}

/-- Without a `CURRENT` a first generation is made; its log is kept when it is there. -/
theorem reopened_first (h : d.current = none) {w : View} :
    reopened name d = .ok w ↔ (∀ op ∈ d.logOps 1, op.Decodes) ∧
      w = (d.logOps 1).foldl View.apply (View.fresh name) := by
  have hopen : openDatabase name d = openDatabase name (d.createFirst name) := by
    rw [openDatabase, openDatabase, h]
    rfl
  have hman : (d.createFirst name).manifests 1 = some ⟨1, 1, []⟩ := rfl
  have hops : (d.createFirst name).logOps 1 = d.logOps 1 := logOps_congr (walBytes_ensureWal d 1 1)
  rw [reopened, hopen]
  show reopened name (d.createFirst name) = .ok w ↔ _
  rw [reopened_eq_ok_iff rfl hman, loadBase_nil rfl, hops]
  constructor
  · rintro ⟨base, hbase, hdecodes, hw⟩
    obtain rfl := Except.ok.inj hbase
    exact ⟨hdecodes, hw⟩
  · rintro ⟨hdecodes, hw⟩
    exact ⟨_, rfl, hdecodes, hw⟩

/-- Loading reads every segment that the manifest lists. -/
theorem segFiles_of_loadSegments {seqs : List ℕ} {s s' : DbState}
    (h : loadSegments d seqs s = .ok s') {seq : ℕ} (hseq : seq ∈ seqs) :
    d.segFiles seq ≠ none := by
  induction seqs generalizing s with
  | nil => exact absurd hseq List.not_mem_nil
  | cons first seqs ih =>
      rw [loadSegments] at h
      obtain ⟨s₁, hfirst, hrest⟩ := bind_ok h
      rcases List.mem_cons.mp hseq with rfl | hseq
      · intro hnone
        rw [loadSegmentFile, hnone] at hfirst
        cases hfirst
      · exact ih hrest hseq

theorem segFiles_of_loadBase {tip : ManifestData} {base : DbState}
    (h : loadBase name d tip = .ok base) {seq : ℕ} (hseq : seq ∈ tip.segments) :
    d.segFiles seq ≠ none := by
  rw [loadBase] at h
  obtain ⟨s, hs, -⟩ := bind_ok h
  exact segFiles_of_loadSegments hs hseq

/-- Without a `CURRENT`, log 1 is all that can come back. -/
def FirstLogHarmless (name : Utf16String) (d : Disk) (v : View) (gone : List DiskFile) : Prop :=
  .wal 1 ∈ gone ∨ (∃ op ∈ d.logOps 1, ¬ op.Decodes) ∨
    (d.logOps 1).foldl View.apply (View.fresh name) = v ∨
      (d.logOps 1).foldl View.apply (View.fresh name) = View.fresh name

/-- What `meta.scf` gives, the log gives again, or an empty database has it. -/
def Restates (name : Utf16String) (base : DbState) (ops : List WalOp) : Prop :=
  (∀ store, LeavesGenerator store ops → base.generator store = keyGenStart) ∧
    (LeavesSchema ops → base.view.schema = some (emptyMeta name))

/-- Of the published generation a part is gone that opening misses, or no part that shows. -/
def GenerationHarmless (name : Utf16String) (d : Disk) (v : View) (gone : List DiskFile) (n : ℕ)
    (tip : ManifestData) (base : DbState) : Prop :=
  .manifest n ∈ gone ∨ (∃ seq ∈ tip.segments, .segment seq ∈ gone) ∨
    if .wal tip.walSeq ∈ gone then
      tip.segments = [] ∧ .metaScf ∈ gone ∨ base.view = v ∨ base.view = View.fresh name
    else
      tip.segments ≠ [] ∨ .metaScf ∉ gone ∨ Restates name base (d.logOps tip.walSeq) ∨
        (d.logOps tip.walSeq).foldl View.apply (View.fresh name) = View.fresh name

/-- The removed files are ones behind which opening shows no mixture. -/
def Harmless (name : Utf16String) (d : Disk) (v : View) (gone : List DiskFile) : Prop :=
  if .current ∈ gone ∨ d.current = none then FirstLogHarmless name d v gone
  else ∀ n tip base, d.current = some n → d.manifests n = some tip →
    loadBase name d tip = .ok base → GenerationHarmless name d v gone n tip base

theorem untorn_first_iff (h : d.current = none) :
    Untorn name v (reopened name d) ↔ (∃ op ∈ d.logOps 1, ¬ op.Decodes) ∨
      (d.logOps 1).foldl View.apply (View.fresh name) = v ∨
        (d.logOps 1).foldl View.apply (View.fresh name) = View.fresh name := by
  constructor
  · intro huntorn
    by_cases hdecodes : ∀ op ∈ d.logOps 1, op.Decodes
    · exact .inr (huntorn _ ((reopened_first h).mpr ⟨hdecodes, rfl⟩))
    · exact .inl (by simpa only [not_forall, exists_prop] using hdecodes)
  · rintro (⟨op, hop, hnot⟩ | hshows) w hw
    · exact absurd (((reopened_first h).mp hw).1 op hop) hnot
    · rw [((reopened_first h).mp hw).2]
      exact hshows

theorem firstLogHarmless_iff (h : (d.without gone).current = none) :
    Untorn name v (reopened name (d.without gone)) ↔ FirstLogHarmless name d v gone := by
  rw [untorn_first_iff h, logOps_without, FirstLogHarmless]
  by_cases hlog : .wal 1 ∈ gone
  · rw [if_pos hlog]
    exact iff_of_true (.inr (.inr rfl)) (.inl hlog)
  · rw [if_neg hlog]
    simp only [hlog, false_or]

theorem generationHarmless_iff {n : ℕ} {tip : ManifestData} {base : DbState}
    (hcur : d.current = some n) (hman : d.manifests n = some tip)
    (hbase : loadBase name d tip = .ok base) (hdecodes : ∀ op ∈ d.logOps tip.walSeq, op.Decodes)
    (hv : v = (d.logOps tip.walSeq).foldl View.apply base.view) (hkept : .current ∉ gone) :
    Untorn name v (reopened name (d.without gone)) ↔
      GenerationHarmless name d v gone n tip base := by
  have hcur' : (d.without gone).current = some n := by rw [current_without, if_neg hkept, hcur]
  -- without the manifest, or a segment that it names, nothing opens
  by_cases hmanifest : .manifest n ∈ gone
  · refine iff_of_true (fun w hw => ?_) (.inl hmanifest)
    have hmissing : (d.without gone).manifests n = none := by
      rw [manifests_without, if_pos hmanifest]
    have hload : reopened name (d.without gone) =
        .error (.io ("read MANIFEST: " ++ notFoundText)) := by
      rw [reopened, openDatabase, hcur']
      simp only [Option.isNone_some, Bool.false_eq_true, if_false, loadManifest, hcur', hmissing]
      rfl
    rw [hload] at hw
    cases hw
  have hman' : (d.without gone).manifests n = some tip := by
    rw [manifests_without, if_neg hmanifest, hman]
  by_cases hsegment : ∃ seq ∈ tip.segments, .segment seq ∈ gone
  · refine iff_of_true (fun w hw => ?_) (.inr (.inl hsegment))
    obtain ⟨seq, hseq, hgone⟩ := hsegment
    obtain ⟨base', hbase', -⟩ := (reopened_eq_ok_iff hcur' hman').mp hw
    refine absurd ?_ (segFiles_of_loadBase hbase' hseq)
    rw [segFiles_without, if_pos hgone]
  have hsegments : ∀ seq ∈ tip.segments, (d.without gone).segFiles seq = d.segFiles seq :=
    fun seq hseq => by rw [segFiles_without, if_neg fun h => hsegment ⟨seq, hseq, h⟩]
  -- what opens, given the base that is left
  have hshows {base' : DbState} (hbase' : loadBase name (d.without gone) tip = .ok base') :
      Untorn name v (reopened name (d.without gone)) ↔
        ((d.without gone).logOps tip.walSeq).foldl View.apply base'.view = v ∨
          ((d.without gone).logOps tip.walSeq).foldl View.apply base'.view = View.fresh name := by
    have hdecodes' : ∀ op ∈ (d.without gone).logOps tip.walSeq, op.Decodes := by
      rw [logOps_without]
      split
      · exact fun op hop => absurd hop List.not_mem_nil
      · exact hdecodes
    constructor
    · exact fun h => h _ ((reopened_eq_ok_iff hcur' hman').mpr ⟨base', hbase', hdecodes', rfl⟩)
    · intro h w hw
      obtain ⟨base'', hbase'', -, rfl⟩ := (reopened_eq_ok_iff hcur' hman').mp hw
      rw [hbase'] at hbase''
      obtain rfl := Except.ok.inj hbase''
      exact h
  rw [GenerationHarmless, or_iff_right hmanifest, or_iff_right hsegment]
  -- without `meta.scf` and segments the base is a fresh database of the same name
  by_cases hnamed : tip.segments = [] ∧ .metaScf ∈ gone
  · obtain ⟨hnil, hmeta⟩ := hnamed
    have hbase' : loadBase name (d.without gone) tip = .ok (freshBase name none tip) := by
      rw [loadBase_nil hnil, metaScf_without, if_pos hmeta]
    rw [hshows hbase', view_freshBase_none, logOps_without]
    by_cases hlog : .wal tip.walSeq ∈ gone
    · rw [if_pos hlog, if_pos hlog]
      exact iff_of_true (.inr rfl) (.inl ⟨hnil, hmeta⟩)
    · rw [if_neg hlog, if_neg hlog, or_iff_right (not_not_intro hnil),
        or_iff_right (not_not_intro hmeta), hv]
      rw [loadBase_nil hnil] at hbase
      obtain rfl := Except.ok.inj hbase
      refine or_congr ?_ Iff.rfl
      refine (foldl_apply_eq_iff (v := View.fresh name) (w := (freshBase name d.metaScf tip).view)
        rfl rfl
        hdecodes).trans ?_
      refine and_congr (forall₂_congr fun store _ => eq_comm) (forall_congr' fun _ => eq_comm)
  · have hbase' : loadBase name (d.without gone) tip = .ok base := by
      by_cases hnil : tip.segments = []
      · have hmeta : .metaScf ∉ gone := fun h => hnamed ⟨hnil, h⟩
        rw [loadBase_congr hsegments (by rw [metaScf_without, if_neg hmeta]), hbase]
      · rw [loadBase_congr_of_segments hsegments hnil, hbase]
    rw [hshows hbase', logOps_without]
    by_cases hlog : .wal tip.walSeq ∈ gone
    · rw [if_pos hlog, if_pos hlog, or_iff_right hnamed]
      exact Iff.rfl
    · rw [if_neg hlog, if_neg hlog]
      refine iff_of_true (.inl hv.symm) ?_
      by_cases hnil : tip.segments = []
      · exact .inr (.inl fun h => hnamed ⟨hnil, h⟩)
      · exact .inl hnil

theorem harmless_iff (h : reopened name d = .ok v) :
    Untorn name v (reopened name (d.without gone)) ↔ Harmless name d v gone := by
  rw [Harmless]
  by_cases hfirst : .current ∈ gone ∨ d.current = none
  · rw [if_pos hfirst]
    apply firstLogHarmless_iff
    rw [current_without]
    rcases hfirst with hgone | hnone
    · rw [if_pos hgone]
    · rw [hnone, ite_self]
  · rw [if_neg hfirst]
    obtain ⟨hkept, hsome⟩ := not_or.mp hfirst
    obtain ⟨n, hcur⟩ := Option.ne_none_iff_exists'.mp hsome
    obtain ⟨tip, hman⟩ : ∃ tip, d.manifests n = some tip := by
      cases hman : d.manifests n with
      | some tip => exact ⟨tip, rfl⟩
      | none =>
          rw [reopened, openDatabase, hcur] at h
          simp only [Option.isNone_some, Bool.false_eq_true, if_false, loadManifest, hcur,
            hman] at h
          cases h
    obtain ⟨base, hbase, hdecodes, hv⟩ := (reopened_eq_ok_iff hcur hman).mp h
    have hiff : Untorn name v (reopened name (d.without gone)) ↔
        GenerationHarmless name d v gone n tip base :=
      generationHarmless_iff hcur hman hbase hdecodes hv hkept
    refine hiff.trans ⟨fun hgen n' tip' base' hcur' hman' hbase' => ?_, fun hall =>
      hall n tip base hcur hman hbase⟩
    obtain rfl := Option.some.inj (hcur.symm.trans hcur')
    obtain rfl := Option.some.inj (hman.symm.trans hman')
    obtain rfl := Except.ok.inj (hbase.symm.trans hbase')
    exact hgen

/-- **An interrupted deletion.** However a deletion ends, opening the directory afterwards
reports an error or shows the old database or an empty one exactly if what the deletion has
removed is harmless. -/
theorem interrupted_deletion_iff {name : Utf16String} {d : Disk} {v : View}
    (h : reopened name d = .ok v) (entries : List DirEntry) (f : DeleteFaults) :
    Untorn name v (reopened name (deleteDatabaseDir entries f d).2) ↔
      Harmless name d v (f.gone entries) := by
  rw [disk_deleteDatabaseDir]
  exact harmless_iff h

/-! ### The log goes first -/

/-- The upgrade that makes a store and puts a record into it. -/
def firstUpgrade : FsTxn where
  mode := .versionChange
  scope := []
  begun := emptyMeta []
  metadata := { emptyMeta [] with
    version := 1
    nextStoreId := 2
    stores := [⟨1, [97], .empty, false, keyGenStart, [], false⟩] }
  durability := .strict
  schemaDirty := true
  pendingRecords := OrderedMap.empty.insert ⟨1, [1]⟩ (some [7])
  pendingIndexEntries := .empty
  pendingKeyGenerators := .empty
  clean := fun h => by cases h
  guarded := fun h => absurd rfl h
  seeded := fun store h => .inl (by rw [List.mem_singleton.mp h])

/-- A database behind this upgrade. -/
def filled : Session := (firstUpgrade.commit defaultConfig {} (freshSession [])).2

/-- The process stops when the log is removed and nothing else. -/
def logFirst : List DirEntry :=
  [.lock, .dir [(.wal 1, .ok)] .ok, .file .metaScf .stop, .file .current .ok,
    .file (.manifest 1) .ok, .dir [] .ok]

/-- The process stops when `meta.scf` is removed and nothing else. -/
def metaScfFirst : List DirEntry :=
  [.lock, .file .metaScf .ok, .dir [(.wal 1, .stop)] .ok, .file .current .ok,
    .file (.manifest 1) .ok, .dir [] .ok]

set_option maxRecDepth 4000 in
theorem reopened_filled :
    ∃ v, reopened [] filled.disk = .ok v ∧ v.records.get? ⟨1, [1]⟩ = some [7] :=
  ⟨_, rfl, rfl⟩

set_option maxRecDepth 4000 in
/-- The schema is there, and no record. -/
theorem reopened_logFirst : ∃ w, reopened [] (deleteDatabaseDir logFirst {} filled.disk).2 = .ok w ∧
    w.records.get? ⟨1, [1]⟩ = none ∧ w.schema.map DatabaseMeta.version = some 1 :=
  ⟨_, rfl, rfl, rfl⟩

/-- The log is gone and `meta.scf` is not: a schema without its records. -/
theorem torn_deletion : ¬ ∀ (name : Utf16String) (d : Disk) (v : View) (entries : List DirEntry)
    (f : DeleteFaults), reopened name d = .ok v →
      Untorn name v (reopened name (deleteDatabaseDir entries f d).2) := by
  intro h
  obtain ⟨v, hv, hrecord⟩ := reopened_filled
  obtain ⟨w, hw, hnone, hversion⟩ := reopened_logFirst
  rcases h [] filled.disk v logFirst {} hv w hw with rfl | rfl
  · rw [hnone] at hrecord
    cases hrecord
  · cases hversion

theorem generators_filled (store : StoreId) :
    (freshBase [] filled.disk.metaScf ⟨1, 1, []⟩).generator store = keyGenStart := by
  have hscf : filled.disk.metaScf = some firstUpgrade.metadata := rfl
  rw [hscf]
  change ((seedGenerators .empty firstUpgrade.metadata.stores).get? store).getD keyGenStart = _
  rw [get?_seedGenerators, OrderedMap.get?_empty, Option.none_or]
  cases hfind : firstUpgrade.metadata.stores.find? (fun s => s.id = store) with
  | none => rfl
  | some found =>
      rw [List.mem_singleton.mp (List.mem_of_find?_eq_some hfind)]
      rfl

set_option maxRecDepth 4000 in
/-- The record is there. -/
theorem reopened_metaScfFirst : ∃ w,
    reopened [] (deleteDatabaseDir metaScfFirst {} filled.disk).2 = .ok w ∧
      w.records.get? ⟨1, [1]⟩ = some [7] :=
  ⟨_, rfl, rfl⟩

/-- `meta.scf` is gone and the log is not, which tells everything again: the old database is
there. -/
theorem interrupted_metaScfFirst :
    (∃ w, reopened [] (deleteDatabaseDir metaScfFirst {} filled.disk).2 = .ok w ∧
      w.records.get? ⟨1, [1]⟩ = some [7]) ∧
    ∃ v, reopened [] filled.disk = .ok v ∧
      Untorn [] v (reopened [] (deleteDatabaseDir metaScfFirst {} filled.disk).2) := by
  obtain ⟨v, hv, -⟩ := reopened_filled
  refine ⟨reopened_metaScfFirst, v, hv, (interrupted_deletion_iff hv metaScfFirst {}).mpr ?_⟩
  have hgone : ({} : DeleteFaults).gone metaScfFirst = [.metaScf] := by decide
  rw [hgone, Harmless, if_neg (by decide)]
  intro n tip base hcurrent hman hbase
  obtain rfl : 1 = n := Option.some.inj hcurrent
  obtain rfl : ⟨1, 1, []⟩ = tip := Option.some.inj hman
  rw [loadBase_nil rfl] at hbase
  obtain rfl := Except.ok.inj hbase
  refine .inr (.inr ?_)
  rw [if_neg (by decide)]
  refine .inr (.inr (.inl ⟨fun store _ => generators_filled store, fun hleaves => ?_⟩))
  have hlogged : .metaReplace (encodeMeta firstUpgrade.commitMeta) ∈ filled.disk.logOps 1 := by
    decide +kernel
  exact absurd hlogged (hleaves _)

end BoaIdb.Fs
