import BoaIdb.Fs.State
import BoaIdb.Lib.Faults
import Mathlib.Logic.Function.Basic

/-!
The files of a database directory, and the file operations on them.

The log is bytes: it is appended to, torn and truncated. `CURRENT`, the
manifests, `meta.scf` and the segments are only ever replaced whole, by writing
a temporary file and renaming it, so each is kept as what its bytes decode to.
Temporary files are written and never read. Every operation has an outcome of
its own, which a fault sets.
-/

namespace BoaIdb.Fs

open OrdMap Faults

/-- A durable snapshot of a whole state. -/
structure Segment where
  seq : ℕ
  nextTxnSeq : UInt64
  metadata : DatabaseMeta
  records : OrderedMap RecordKey Bytes
  indexEntries : OrderedMap IndexKey Unit
  keyGenerators : OrderedMap StoreId F64Bits

structure Disk where
  /-- The manifest that `CURRENT` names. -/
  current : Option ℕ
  manifests : ℕ → Option ManifestData
  metaScf : Option DatabaseMeta
  /-- `wal/<seq>.log`. -/
  wals : ℕ → Option Bytes
  /-- `seg/<seq>.seg`. -/
  segFiles : ℕ → Option Segment

def Disk.empty : Disk := ⟨none, fun _ => none, none, fun _ => none, fun _ => none⟩

/-- A database directory together with the state of the handle that works on it. -/
structure Session where
  disk : Disk
  state : DbState

/-- An error of the operating system. -/
inductive IoError
  | storageFull
  | other (text : String)
  deriving DecidableEq, Repr

def ioToBackend (err : IoError) (context : String) : BackendError :=
  match err with
  | .storageFull => .quotaExceeded 0 0
  | .other text => .io (context ++ ": " ++ text)

/-- The text of a missing file. -/
def notFoundText : String := "No such file or directory (os error 2)"

/-- A program of the filesystem backend. -/
abbrev FsProg := Prog Session BackendError

/-! ### Single operations -/

def Session.onDisk (effect : Disk → Disk) (s : Session) : Session :=
  { s with disk := effect s.disk }

/-- The outcome as the backend reports it. -/
def asBackend (context : String) : Outcome IoError → Outcome BackendError
  | .ok => .ok
  | .fail e => .fail (ioToBackend e context)
  | .stop => .stop

/-- A file operation; `context` is the text of its error. -/
def fsOp (context : String) (o : Outcome IoError) (effect : Disk → Disk) : FsProg Unit :=
  Prog.op (asBackend context o) (Session.onDisk effect)

def Disk.setWal (wal : ℕ) (bytes : Bytes) (d : Disk) : Disk :=
  { d with wals := Function.update d.wals wal (some bytes) }

/-- The bytes of a log; a missing file reads as none, as when it is created. -/
def Disk.walBytes (d : Disk) (wal : ℕ) : Bytes := (d.wals wal).getD []

/-- Creates an empty log unless it exists. -/
def Disk.ensureWal (wal : ℕ) (d : Disk) : Disk := d.setWal wal (d.walBytes wal)

/-- `set_len`, never beyond the end. -/
def Disk.truncateWal (wal len : ℕ) (d : Disk) : Disk := d.setWal wal ((d.walBytes wal).take len)

def Disk.appendWal (wal : ℕ) (bytes : Bytes) (d : Disk) : Disk :=
  d.setWal wal (d.walBytes wal ++ bytes)

def ensureFile (wal : ℕ) (o : Outcome IoError) : FsProg Unit :=
  fsOp "ensure file" o (Disk.ensureWal wal)

def truncateFile (wal len : ℕ) (o : Outcome IoError) : FsProg Unit :=
  fsOp "set_len" o (Disk.truncateWal wal len)

/-- A step that is only taken when its flag is set. -/
def whenSet (flag : Bool) (p : FsProg Unit) : FsProg Unit := if flag then p else pure ()

/-- The outcomes of an append and of the sync behind it; an append that does not
succeed leaves the first `written` bytes. -/
structure AppendFaults where
  append : Outcome IoError := .ok
  written : ℕ := 0
  sync : Outcome IoError := .ok

def appendAndMaybeSync (wal : ℕ) (bytes : Bytes) (sync : Bool) (f : AppendFaults) :
    FsProg Unit := do
  Prog.tornOp (asBackend "append wal" f.append) (Session.onDisk (Disk.appendWal wal bytes))
    (Session.onDisk (Disk.appendWal wal (bytes.take f.written)))
  whenSet sync (fsOp "sync wal" f.sync id)

/-! ### Atomic replacement -/

/-- The outcomes of the steps of an atomic write. -/
structure AtomicFaults where
  createDir : Outcome IoError := .ok
  writeTemp : Outcome IoError := .ok
  syncTemp : Outcome IoError := .ok
  rename : Outcome IoError := .ok
  syncDir : Outcome IoError := .ok

/-- Temp, write, sync, rename, directory sync; `replace` is what the rename does. -/
def atomicWrite (replace : Disk → Disk) (sync : Bool) (f : AtomicFaults) : FsProg Unit := do
  fsOp "create_dir_all" f.createDir id
  fsOp "write temp" f.writeTemp id
  whenSet sync (fsOp "sync temp" f.syncTemp id)
  fsOp "rename" f.rename replace
  whenSet sync (fsOp "sync dir" f.syncDir id)

def Disk.setMetaScf (m : DatabaseMeta) (d : Disk) : Disk := { d with metaScf := some m }

def Disk.setManifest (data : ManifestData) (d : Disk) : Disk :=
  { d with manifests := Function.update d.manifests data.manifestSeq (some data) }

def Disk.setCurrent (manifest : ℕ) (d : Disk) : Disk := { d with current := some manifest }

def Disk.setSegment (segment : Segment) (d : Disk) : Disk :=
  { d with segFiles := Function.update d.segFiles segment.seq (some segment) }

def Disk.removeSegment (seq : ℕ) (d : Disk) : Disk :=
  { d with segFiles := Function.update d.segFiles seq none }

def Disk.removeWal (wal : ℕ) (d : Disk) : Disk :=
  { d with wals := Function.update d.wals wal none }

def writeMetaFile (m : DatabaseMeta) (sync : Bool) (f : AtomicFaults) : FsProg Unit :=
  atomicWrite (Disk.setMetaScf m) sync f

/-- Manifest file fully synced, then `CURRENT`. -/
def writeManifest (data : ManifestData) (sync : Bool) (manifest current : AtomicFaults) :
    FsProg Unit := do
  atomicWrite (Disk.setManifest data) sync manifest
  atomicWrite (Disk.setCurrent data.manifestSeq) sync current

/-! ### What an atomic write can do -/

/-- The rename takes place. -/
def AtomicFaults.Replaces (f : AtomicFaults) (sync : Bool) : Prop :=
  f.createDir = .ok ∧ f.writeTemp = .ok ∧ (sync = true → f.syncTemp = .ok) ∧ f.rename = .ok

instance (f : AtomicFaults) (sync : Bool) : Decidable (f.Replaces sync) :=
  inferInstanceAs (Decidable (_ ∧ _ ∧ _ ∧ _))

/-- The rename takes place and nothing behind it fails. -/
def AtomicFaults.Succeeds (f : AtomicFaults) (sync : Bool) : Prop :=
  f.Replaces sync ∧ (sync = true → f.syncDir = .ok)

instance (f : AtomicFaults) (sync : Bool) : Decidable (f.Succeeds sync) :=
  inferInstanceAs (Decidable (_ ∧ (_ → _)))

/-- An early end `e` that comes from the outcome `o`. -/
def Reports (o : Outcome IoError) (e : Option BackendError) : Prop :=
  o = .stop ∧ e = none ∨ ∃ err, o = .fail err ∧ e.isSome

theorem Reports.ne_ok {o : Outcome IoError} {e : Option BackendError} (h : Reports o e) :
    o ≠ .ok := by
  rcases h with ⟨rfl, -⟩ | ⟨err, rfl, -⟩
  all_goals simp

section Rules

variable {pre : Session → Prop} {context : String} {o : Outcome IoError} {sync : Bool}
  {post : Unit → Session → Prop} {halt : Option BackendError → Session → Prop}

/-- A step whose failure leaves everything as it was. -/
theorem meets_fsOp {effect : Disk → Disk}
    (hok : o = .ok → ∀ s, pre s → post () (s.onDisk effect))
    (hhalt : ∀ e s, Reports o e → pre s → halt e s) :
    Meets pre (fsOp context o effect) post halt := by
  refine meets_op (fun ho => hok ?_) (fun e ho s => hhalt _ s ?_) (fun ho s => hhalt _ s ?_)
  · cases o <;> simp_all [asBackend]
  · cases o <;> simp_all [asBackend, Reports]
  · cases o <;> simp_all [asBackend, Reports]

/-- A step that only reports. -/
theorem meets_report (hhalt : ∀ e s, Reports o e → pre s → halt e s) :
    Meets pre (fsOp context o id) (fun _ s => o = .ok ∧ pre s) halt :=
  meets_fsOp (fun ho _ hs => ⟨ho, hs⟩) hhalt

/-- A reporting step that only a synchronous write has. -/
theorem meets_reportWhen (hhalt : sync = true → ∀ e s, Reports o e → pre s → halt e s) :
    Meets pre (whenSet sync (fsOp context o id))
      (fun _ s => (sync = true → o = .ok) ∧ pre s) halt := by
  cases sync with
  | false => exact meets_pure fun s hs => ⟨by simp, hs⟩
  | true =>
      exact (meets_report (hhalt rfl)).mono (fun _ => id) (fun _ s hs => ⟨fun _ => hs.1, hs.2⟩)
        (fun _ _ => id)

/-- An atomic write ends with the file replaced; or early, with the file as it was;
or early although the file is replaced, when the directory sync is what failed. -/
theorem meets_atomicWrite {replace : Disk → Disk} {f : AtomicFaults}
    (hpost : f.Replaces sync → (sync = true → f.syncDir = .ok) →
      ∀ s, pre s → post () (s.onDisk replace))
    (hkept : ¬ f.Replaces sync → ∀ e s, pre s → halt e s)
    (hlate : f.Replaces sync → sync = true →
      ∀ e s, Reports f.syncDir e → pre s → halt e (s.onDisk replace)) :
    Meets pre (atomicWrite replace sync f) post halt := by
  unfold atomicWrite
  refine Meets.bind (meets_report fun e s hr => hkept (fun h => hr.ne_ok h.1) e s) fun _ =>
    Meets.of_imp fun h₁ => ?_
  refine Meets.bind (meets_report fun e s hr => hkept (fun h => hr.ne_ok h.2.1) e s) fun _ =>
    Meets.of_imp fun h₂ => ?_
  refine Meets.bind (meets_reportWhen fun hs e s hr => hkept (fun h => hr.ne_ok (h.2.2.1 hs)) e s)
    fun _ => Meets.of_imp fun h₃ => ?_
  have hrename : Meets pre (fsOp "rename" f.rename replace)
      (fun _ s => f.Replaces sync ∧ ∃ s₀, pre s₀ ∧ s = s₀.onDisk replace) halt :=
    meets_fsOp (fun h₄ s hs => ⟨⟨h₁, h₂, h₃, h₄⟩, s, hs, rfl⟩)
      (fun e s hr => hkept (fun h => hr.ne_ok h.2.2.2) e s)
  refine hrename.bind fun _ => Meets.of_imp fun hr => ?_
  refine (meets_reportWhen ?_).mono (fun _ => id) ?_ (fun _ _ => id)
  · rintro hs e _ hrep ⟨s₀, hs₀, rfl⟩
    exact hlate hr hs e s₀ hrep hs₀
  · rintro _ _ ⟨hok, s₀, hs₀, rfl⟩
    exact hpost hr hok s₀ hs₀

end Rules

end BoaIdb.Fs
