import BoaIdb.Fs.Disk

/-!
Compaction: the whole state becomes a segment, an empty log is prepared, and a
new manifest is published by replacing `CURRENT`.
-/

namespace BoaIdb.Fs

open Faults

/-- Compaction thresholds. -/
structure CompactConfig where
  walBytes : ℕ
  walFrames : ℕ
  deriving DecidableEq, Repr

def CompactConfig.shouldCompact (cfg : CompactConfig) (s : DbState) : Bool :=
  cfg.walBytes ≤ s.walBytesSinceCompact || cfg.walFrames ≤ s.walFramesSinceCompact

/-- The outcomes of the file operations of a compaction, in their order. -/
structure CompactFaults where
  createSegDir : Outcome IoError := .ok
  segment : AtomicFaults := {}
  ensureWal : Outcome IoError := .ok
  truncateWal : Outcome IoError := .ok
  manifest : AtomicFaults := {}
  current : AtomicFaults := {}
  /-- A superseded segment; one that a snapshot still holds is not removed, as if the
  removal failed. -/
  removeSegment : ℕ → Outcome IoError := fun _ => .ok
  metaScf : AtomicFaults := {}
  removeWal : Outcome IoError := .ok

/-- `encode_segment`. -/
def encodeSegment (seq : ℕ) (s : DbState) : FsProg Segment :=
  match s.metadata with
  | none => Prog.throw (.internal "segment encode without meta")
  | some m => pure ⟨seq, s.nextTxnSeq, m, s.records, s.indexEntries, s.keyGenerators⟩

/-- `write_segment_file`. -/
def writeSegmentFile (seq : ℕ) (s : DbState) (createDir : Outcome IoError) (f : AtomicFaults) :
    FsProg Unit := do
  fsOp "create seg dir" createDir id
  let segment ← encodeSegment seq s
  atomicWrite (Disk.setSegment segment) true f

/-- `iter().max().unwrap_or(0).saturating_add(1)`. -/
def nextSegSeq (segments : List ℕ) : ℕ := segments.foldr max 0 + 1

/-- The generation that a compaction publishes. -/
def nextTip (s : DbState) : ManifestData :=
  ⟨s.manifestSeq + 1, s.walSeq + 1, [nextSegSeq s.segments]⟩

/-- The state once a new generation is published. -/
def DbState.advance (s : DbState) (tip : ManifestData) : DbState :=
  { s with
    segments := tip.segments
    manifestSeq := tip.manifestSeq
    walSeq := tip.walSeq
    walBytesSinceCompact := 0
    walFramesSinceCompact := 0 }

def Session.onState (effect : DbState → DbState) (s : Session) : Session :=
  { s with state := effect s.state }

/-- The superseded guards are dropped; a removal that fails is ignored. -/
def removeSegments (o : ℕ → Outcome IoError) : List ℕ → FsProg Unit
  | [] => pure ()
  | seq :: seqs => do
      let _ ← (fsOp "remove segment" (o seq) (Disk.removeSegment seq)).attempt
      removeSegments o seqs

/-- An empty log for the next generation. -/
def prepareWal (wal : ℕ) (f : CompactFaults) : FsProg Unit := do
  ensureFile wal f.ensureWal
  truncateFile wal 0 f.truncateWal

/-- `compact_now`, up to and including the swap of `CURRENT`. -/
def publish (s : DbState) (f : CompactFaults) : FsProg Unit := do
  writeSegmentFile (nextSegSeq s.segments) s f.createSegDir f.segment
  prepareWal (nextTip s).walSeq f
  writeManifest (nextTip s) true f.manifest f.current

/-- The clean-up behind the swap: the state follows at once, then old segments,
`meta.scf` and the old log. -/
def settle (old : DbState) (f : CompactFaults) : FsProg Unit := do
  Prog.modify (Session.onState (DbState.advance · (nextTip old)))
  removeSegments f.removeSegment old.segments
  let metaErr ← (match old.metadata with
    | none => pure ()
    | some m => writeMetaFile m true f.metaScf : FsProg Unit).attempt
  let _ ← (fsOp "remove wal" f.removeWal (Disk.removeWal old.walSeq)).attempt
  match metaErr with
  | .error err => Prog.throw err
  | .ok _ => pure ()

/-- `compact_now`. -/
def compactNow (f : CompactFaults) : FsProg Unit := do
  let s ← Prog.read
  publish s.state f
  settle s.state f

/-- `maybe_compact`. -/
def maybeCompact (cfg : CompactConfig) (f : CompactFaults) : FsProg Bool := do
  let s ← Prog.read
  if cfg.shouldCompact s.state then do
    compactNow f
    pure true
  else pure false

end BoaIdb.Fs
