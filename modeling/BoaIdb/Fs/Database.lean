import BoaIdb.Fs.Disk
import BoaIdb.Fs.WalRecovery

/-!
Opening a database directory: the published manifest, its segments, the replay
of the log, and the repair of what a crash or a failure left behind.

Opening is modelled for a directory whose files can be read and written.
-/

namespace BoaIdb.Fs

open OrdMap

/-- The files of a directory without a `CURRENT`. -/
def Disk.createFirst (name : Utf16String) (d : Disk) : Disk :=
  (((d.ensureWal 1).setMetaScf (emptyMeta name)).setManifest ⟨1, 1, []⟩).setCurrent 1

def loadManifest (d : Disk) : Except BackendError ManifestData :=
  match d.current with
  | none => .error (.io ("read CURRENT: " ++ notFoundText))
  | some manifest =>
      match d.manifests manifest with
      | none => .error (.io ("read MANIFEST: " ++ notFoundText))
      | some data => .ok data

/-- A segment replaces the maps of the state. -/
def Segment.load (segment : Segment) (s : DbState) : DbState :=
  { s with
    metadata := some segment.metadata
    records := segment.records
    indexEntries := segment.indexEntries
    keyGenerators := segment.keyGenerators
    nextTxnSeq := segment.nextTxnSeq }

def loadSegmentFile (d : Disk) (seq : ℕ) (s : DbState) : Except BackendError DbState :=
  match d.segFiles seq with
  | none => .error (.io ("read segment: " ++ notFoundText))
  | some segment =>
      if segment.seq ≠ seq then
        .error (.corrupted ("segment seq mismatch file=" ++ toString seq ++ " body=" ++
          toString segment.seq))
      else .ok (segment.load s)

/-- The manifest's segments, in order; each is kept as live. -/
def loadSegments (d : Disk) : List ℕ → DbState → Except BackendError DbState
  | [], s => .ok s
  | seq :: seqs, s => do
      let s ← loadSegmentFile d seq s
      loadSegments d seqs { s with segments := s.segments ++ [seq] }

/-- `entry(store.id).or_insert(store.key_gen)`, for every store. -/
def seedGenerators (generators : OrderedMap StoreId F64Bits) (stores : List StoreMeta) :
    OrderedMap StoreId F64Bits :=
  stores.foldl (fun g store => if g.contains store.id then g else g.insert store.id store.keyGen)
    generators

/-- The metadata a state without any takes: `meta.scf`, or that of an empty database. -/
def DbState.nameFrom (s : DbState) (name : Utf16String) (d : Disk) : DbState :=
  match s.metadata with
  | some _ => s
  | none => { s with metadata := some (d.metaScf.getD (emptyMeta name)) }

def DbState.seed (s : DbState) : DbState :=
  match s.metadata with
  | none => s
  | some m => { s with keyGenerators := seedGenerators s.keyGenerators m.stores }

/-- The empty state of a generation. -/
def DbState.ofManifest (manifest : ManifestData) : DbState :=
  { DbState.default with manifestSeq := manifest.manifestSeq, walSeq := manifest.walSeq }

/-- The state before the log is replayed. -/
def loadBase (name : Utf16String) (d : Disk) (manifest : ManifestData) :
    Except BackendError DbState := do
  let s ← loadSegments d manifest.segments (.ofManifest manifest)
  .ok (s.nameFrom name d).seed

/-- The log of a state, replayed onto it. -/
def replayWal (d : Disk) (s : DbState) : Except BackendError DbState := do
  let recovered := recoverCommittedFrames (d.walBytes s.walSeq)
  let s ← applyFrames s recovered.frames
  .ok { s with
    walBytesSinceCompact := recovered.validPrefixLen
    walFramesSinceCompact := recovered.frames.length }

/-- Bytes behind the accepted part of the log are cut off. -/
def Disk.trimWal (wal validPrefixLen : ℕ) (d : Disk) : Disk :=
  if validPrefixLen < (d.walBytes wal).length then d.truncateWal wal validPrefixLen else d

/-- `meta.scf` is rewritten when it differs. -/
def Disk.healMeta (m : DatabaseMeta) (d : Disk) : Disk :=
  if d.metaScf = some m then d else d.setMetaScf m

/-- Opens the generation of a manifest. -/
def openGeneration (name : Utf16String) (d : Disk) (manifest : ManifestData) :
    Except BackendError Session := do
  let base ← loadBase name d manifest
  let d := d.ensureWal base.walSeq
  let s ← replayWal d base
  match s.metadata with
  | none => .error (.internal "database metadata missing after open")
  | some m => .ok ⟨(d.trimWal base.walSeq s.walBytesSinceCompact).healMeta m, s⟩

/-- `FsDatabase::open`. -/
def openDatabase (name : Utf16String) (d : Disk) : Except BackendError Session := do
  let d := if d.current.isNone then d.createFirst name else d
  let manifest ← loadManifest d
  openGeneration name d manifest

/-- What a reopened directory shows. -/
def reopened (name : Utf16String) (d : Disk) : Except BackendError View :=
  (openDatabase name d).map (fun s => s.state.view)

end BoaIdb.Fs
