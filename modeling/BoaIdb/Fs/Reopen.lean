import BoaIdb.Fs.Database

/-!
What a reopened directory shows.

The answer only depends on the published generation: its manifest, the segments
it lists, `meta.scf` when there are none, and the accepted part of its log.
-/

namespace BoaIdb.Fs

open OrdMap

/-- The operations that the scan accepts from a log. -/
def Disk.logOps (d : Disk) (wal : ℕ) : List WalOp :=
  (recoverCommittedFrames (d.walBytes wal)).frames.flatMap WalFrame.ops

/-- The manifest that `CURRENT` names. -/
def Disk.published (d : Disk) : Option ManifestData := d.current.bind d.manifests

/-! ### The state before the replay -/

theorem loadSegmentFile_tip {d : Disk} {seq : ℕ} {s s' : DbState}
    (h : loadSegmentFile d seq s = .ok s') : s'.tip = s.tip := by
  unfold loadSegmentFile at h
  split at h
  · simp at h
  · split at h
    · simp at h
    · obtain rfl := Except.ok.inj h
      rfl

theorem loadSegments_tip {d : Disk} {seqs : List ℕ} {s s' : DbState}
    (h : loadSegments d seqs s = .ok s') :
    s'.tip = { s.tip with segments := s.segments ++ seqs } := by
  induction seqs generalizing s with
  | nil =>
      obtain rfl := Except.ok.inj h
      simp [DbState.tip]
  | cons seq seqs ih =>
      rw [loadSegments] at h
      cases hload : loadSegmentFile d seq s with
      | error e => simp [hload, bind, Except.bind] at h
      | ok s₁ =>
          have hrest := ih (by simpa [hload, bind, Except.bind] using h)
          have htip := loadSegmentFile_tip hload
          simp only [DbState.tip, ManifestData.mk.injEq] at htip hrest ⊢
          obtain ⟨hm, hw, hs⟩ := htip
          obtain ⟨hm', hw', hs'⟩ := hrest
          exact ⟨hm'.trans hm, hw'.trans hw, by rw [hs', hs, List.append_assoc]; rfl⟩

@[simp] theorem tip_nameFrom (s : DbState) (name : Utf16String) (d : Disk) :
    (s.nameFrom name d).tip = s.tip := by
  unfold DbState.nameFrom
  split <;> rfl

@[simp] theorem tip_seed (s : DbState) : s.seed.tip = s.tip := by
  unfold DbState.seed
  split <;> rfl

@[simp] theorem metadata_seed (s : DbState) : s.seed.metadata = s.metadata := by
  unfold DbState.seed
  split
  next h => exact h.symm ▸ rfl
  · rfl

theorem loadBase_ok {name : Utf16String} {d : Disk} {manifest : ManifestData} {base : DbState}
    (h : loadBase name d manifest = .ok base) : base.tip = manifest ∧ base.metadata.isSome := by
  unfold loadBase at h
  obtain ⟨s, hs, hbase⟩ : ∃ s, loadSegments d manifest.segments (.ofManifest manifest) = .ok s ∧
      (s.nameFrom name d).seed = base := by
    cases hs : loadSegments d manifest.segments (.ofManifest manifest) with
    | error e => simp [hs, bind, Except.bind] at h
    | ok s => exact ⟨s, rfl, by simpa [hs, bind, Except.bind] using h⟩
  subst hbase
  constructor
  · rw [tip_seed, tip_nameFrom, loadSegments_tip hs]
    rfl
  · rw [metadata_seed]
    unfold DbState.nameFrom
    split
    next m hm => simp [hm]
    next => rfl

/-- Loading reads the listed segments, and `meta.scf` when there are none. -/
theorem loadSegments_congr {d d' : Disk} {seqs : List ℕ}
    (h : ∀ seq ∈ seqs, d'.segFiles seq = d.segFiles seq) (s : DbState) :
    loadSegments d' seqs s = loadSegments d seqs s := by
  induction seqs generalizing s with
  | nil => rfl
  | cons seq seqs ih =>
      have hload : loadSegmentFile d' seq s = loadSegmentFile d seq s := by
        rw [loadSegmentFile, loadSegmentFile, h seq (by simp)]
      rw [loadSegments, loadSegments, hload]
      exact congrArg _ (funext fun s₁ => ih (fun seq hseq => h seq (.tail _ hseq)) _)

theorem loadBase_congr {name : Utf16String} {d d' : Disk} {manifest : ManifestData}
    (h : ∀ seq ∈ manifest.segments, d'.segFiles seq = d.segFiles seq)
    (hm : d'.metaScf = d.metaScf) : loadBase name d' manifest = loadBase name d manifest := by
  unfold loadBase
  rw [loadSegments_congr h]
  refine congrArg _ (funext fun s => ?_)
  simp only [DbState.nameFrom, hm]

theorem loadSegments_named {d : Disk} {seq : ℕ} {seqs : List ℕ} {s s' : DbState}
    (h : loadSegments d (seq :: seqs) s = .ok s') : s'.metadata.isSome := by
  induction seqs generalizing seq s with
  | nil =>
      rw [loadSegments] at h
      cases hload : loadSegmentFile d seq s with
      | error e => simp [hload, bind, Except.bind] at h
      | ok s₁ =>
          have hs' : { s₁ with segments := s₁.segments ++ [seq] } = s' := by
            simpa [hload, bind, Except.bind, loadSegments] using h
          subst hs'
          unfold loadSegmentFile at hload
          split at hload
          · simp at hload
          · split at hload
            · simp at hload
            · obtain rfl := Except.ok.inj hload
              rfl
  | cons seq' seqs ih =>
      rw [loadSegments] at h
      cases hload : loadSegmentFile d seq s with
      | error e => simp [hload, bind, Except.bind] at h
      | ok s₁ => exact ih (by simpa [hload, bind, Except.bind] using h)

/-- With a segment, `meta.scf` is not read. -/
theorem loadBase_congr_of_segments {name : Utf16String} {d d' : Disk} {manifest : ManifestData}
    (h : ∀ seq ∈ manifest.segments, d'.segFiles seq = d.segFiles seq)
    (hne : manifest.segments ≠ []) : loadBase name d' manifest = loadBase name d manifest := by
  unfold loadBase
  rw [loadSegments_congr h]
  cases hs : loadSegments d manifest.segments (.ofManifest manifest) with
  | error e => rfl
  | ok s =>
      obtain ⟨seq, seqs, hseqs⟩ := List.exists_cons_of_ne_nil hne
      rw [hseqs] at hs
      obtain ⟨m, hm⟩ := Option.isSome_iff_exists.mp (loadSegments_named hs)
      simp only [bind, Except.bind, DbState.nameFrom, hm]

/-- The state of a generation without segments. -/
def freshBase (name : Utf16String) (metaScf : Option DatabaseMeta) (manifest : ManifestData) :
    DbState :=
  { DbState.ofManifest manifest with
    metadata := some (metaScf.getD (emptyMeta name))
    keyGenerators := seedGenerators .empty (metaScf.getD (emptyMeta name)).stores }

theorem loadBase_nil {name : Utf16String} {d : Disk} {manifest : ManifestData}
    (h : manifest.segments = []) :
    loadBase name d manifest = .ok (freshBase name d.metaScf manifest) := by
  simp [loadBase, h, loadSegments, bind, Except.bind, DbState.nameFrom,
    DbState.ofManifest, DbState.default, DbState.seed, freshBase]

/-- The state of a generation with one segment. -/
def Segment.base (segment : Segment) (manifest : ManifestData) : DbState :=
  { segment.load (.ofManifest manifest) with
    segments := manifest.segments
    keyGenerators := seedGenerators segment.keyGenerators segment.metadata.stores }

theorem loadBase_singleton {name : Utf16String} {d : Disk} {manifest : ManifestData} {seq : ℕ}
    {segment : Segment} (h : manifest.segments = [seq]) (hseg : d.segFiles seq = some segment)
    (hseq : segment.seq = seq) : loadBase name d manifest = .ok (segment.base manifest) := by
  simp [loadBase, h, loadSegments, loadSegmentFile, hseg, hseq, bind, Except.bind,
    DbState.nameFrom, DbState.ofManifest, DbState.default, DbState.seed, Segment.load, Segment.base]

/-! ### The replay -/

@[simp] theorem walBytes_setWal (d : Disk) (wal : ℕ) (bytes : Bytes) (wal' : ℕ) :
    (d.setWal wal bytes).walBytes wal' = if wal' = wal then bytes else d.walBytes wal' := by
  simp only [Disk.walBytes, Disk.setWal, Function.update_apply]
  split <;> rfl

@[simp] theorem walBytes_ensureWal (d : Disk) (wal wal' : ℕ) :
    (d.ensureWal wal).walBytes wal' = d.walBytes wal' := by
  rw [Disk.ensureWal, walBytes_setWal]
  split
  next h => rw [h]
  next => rfl

theorem replayWal_ensureWal (d : Disk) (s : DbState) :
    replayWal (d.ensureWal s.walSeq) s = replayWal d s := by
  rw [replayWal, replayWal, walBytes_ensureWal]

/-- The replay of a log whose metadata all decode. -/
theorem replayWal_ok {d : Disk} {s : DbState} (h : ∀ op ∈ d.logOps s.walSeq, op.Decodes) :
    ∃ s', replayWal d s = .ok s' ∧ Replays s (d.logOps s.walSeq) s' ∧
      s'.walBytesSinceCompact =
        (recoverCommittedFrames (d.walBytes s.walSeq)).validPrefixLen := by
  obtain ⟨s', hs', hr⟩ := applyFrames_ok (s := s) h
  let recovered := recoverCommittedFrames (d.walBytes s.walSeq)
  refine ⟨{ s' with
    walBytesSinceCompact := recovered.validPrefixLen
    walFramesSinceCompact := recovered.frames.length }, ?_, ?_, rfl⟩
  · rw [replayWal, hs']
    rfl
  · exact ⟨hr.view, hr.generators, hr.tip, hr.named⟩

/-- What opening leaves on disk: the log cut to its accepted part, and `meta.scf`. -/
structure Opened (name : Utf16String) (d : Disk) (tip : ManifestData) (base : DbState)
    (s : Session) : Prop where
  opens : openDatabase name d = .ok s
  replays : Replays base (d.logOps tip.walSeq) s.state
  counted : s.state.walBytesSinceCompact =
    (recoverCommittedFrames (d.walBytes tip.walSeq)).validPrefixLen
  current : s.disk.current = d.current
  manifests : s.disk.manifests = d.manifests
  segFiles : s.disk.segFiles = d.segFiles
  metaScf : s.disk.metaScf = s.state.metadata
  wal : s.disk.walBytes tip.walSeq = (d.walBytes tip.walSeq).take
    (recoverCommittedFrames (d.walBytes tip.walSeq)).validPrefixLen

theorem healMeta_eq (d : Disk) (m : DatabaseMeta) : d.healMeta m = d.setMetaScf m := by
  unfold Disk.healMeta
  split
  next h =>
    cases d
    simp only at h
    subst h
    rfl
  next => rfl

theorem openDatabase_published {name : Utf16String} {d : Disk} {n : ℕ} {tip : ManifestData}
    (hcur : d.current = some n) (hman : d.manifests n = some tip) :
    openDatabase name d = openGeneration name d tip := by
  have hload : loadManifest d = .ok tip := by
    rw [loadManifest, hcur]
    simp only [hman]
  rw [openDatabase, hcur]
  simp only [Option.isNone_some, Bool.false_eq_true, if_false, hload]
  rfl

theorem openDatabase_ok {name : Utf16String} {d : Disk} {n : ℕ} {tip : ManifestData}
    {base : DbState} (hcur : d.current = some n) (hman : d.manifests n = some tip)
    (hbase : loadBase name d tip = .ok base) (hdec : ∀ op ∈ d.logOps tip.walSeq, op.Decodes) :
    ∃ s, Opened name d tip base s := by
  obtain ⟨htip, hnamed⟩ := loadBase_ok hbase
  have hwal : base.walSeq = tip.walSeq := congrArg ManifestData.walSeq htip
  obtain ⟨s, hs, hr, hlen⟩ := replayWal_ok (d := d) (s := base) (hwal ▸ hdec)
  rw [hwal] at hr hlen
  obtain ⟨m, hm⟩ := Option.isSome_iff_exists.mp (hr.named hnamed)
  have hreplay : replayWal (d.ensureWal tip.walSeq) base = .ok s := by
    rw [← hwal, replayWal_ensureWal, hs]
  refine ⟨⟨((d.ensureWal tip.walSeq).trimWal tip.walSeq s.walBytesSinceCompact).setMetaScf m, s⟩,
    ?_, hr, hlen, ?_, ?_, ?_, hm.symm, ?_⟩
  · rw [openDatabase_published hcur hman]
    simp only [openGeneration, hbase, bind, Except.bind, hwal, hreplay, hm, healMeta_eq]
  · unfold Disk.trimWal
    split <;> rfl
  · unfold Disk.trimWal
    split <;> rfl
  · unfold Disk.trimWal
    split <;> rfl
  · change ((d.ensureWal tip.walSeq).trimWal tip.walSeq s.walBytesSinceCompact).walBytes _ = _
    rw [Disk.trimWal, walBytes_ensureWal, hlen]
    split
    next => simp [Disk.truncateWal]
    next hge =>
      rw [not_lt] at hge
      rw [List.take_of_length_le hge]
      exact walBytes_ensureWal d _ _

/-! ### The reopened view -/

/-- A reopened directory shows its base state with the accepted operations on top. -/
theorem reopened_eq_ok_iff {name : Utf16String} {d : Disk} {n : ℕ} {tip : ManifestData} {v : View}
    (hcur : d.current = some n) (hman : d.manifests n = some tip) :
    reopened name d = .ok v ↔ ∃ base, loadBase name d tip = .ok base ∧
      (∀ op ∈ d.logOps tip.walSeq, op.Decodes) ∧
      v = (d.logOps tip.walSeq).foldl View.apply base.view := by
  constructor
  · intro h
    rw [reopened, openDatabase_published hcur hman, openGeneration] at h
    cases hbase : loadBase name d tip with
    | error e => simp [hbase, bind, Except.bind, Except.map] at h
    | ok base =>
        have hwal : base.walSeq = tip.walSeq :=
          congrArg ManifestData.walSeq (loadBase_ok hbase).1
        have hdec : ∀ op ∈ d.logOps tip.walSeq, op.Decodes := by
          cases hframes : applyFrames base
              (recoverCommittedFrames (d.walBytes tip.walSeq)).frames with
          | error e =>
              simp [hbase, bind, Except.bind, Except.map, replayWal, hwal, hframes] at h
          | ok s => exact decodes_of_applyFrames hframes
        obtain ⟨s, hopen⟩ := openDatabase_ok hcur hman hbase hdec
        refine ⟨base, rfl, hdec, ?_⟩
        have hshow : reopened name d = .ok s.state.view := by rw [reopened, hopen.opens]; rfl
        rw [reopened, openDatabase_published hcur hman, openGeneration, h] at hshow
        rw [← hopen.replays.view]
        exact Except.ok.inj hshow
  · rintro ⟨base, hbase, hdec, rfl⟩
    obtain ⟨s, hopen⟩ := openDatabase_ok hcur hman hbase hdec
    rw [reopened, hopen.opens]
    exact congrArg Except.ok hopen.replays.view

/-- Two directories with the same published generation show the same. -/
theorem reopened_congr {name : Utf16String} {d d' : Disk} {n : ℕ} {tip : ManifestData} {v : View}
    (h : reopened name d = .ok v) (hcur : d.current = some n) (hman : d.manifests n = some tip)
    (hcur' : d'.current = some n) (hman' : d'.manifests n = some tip)
    (hseg : ∀ seq ∈ tip.segments, d'.segFiles seq = d.segFiles seq)
    (hmeta : d'.metaScf = d.metaScf) (hwal : d'.logOps tip.walSeq = d.logOps tip.walSeq) :
    reopened name d' = .ok v := by
  rw [reopened_eq_ok_iff hcur' hman', loadBase_congr hseg hmeta, hwal]
  exact (reopened_eq_ok_iff hcur hman).mp h

/-- Memory and directory in step: the tip is the published one, under its own name,
and reopening shows what memory shows. -/
structure InStep (name : Utf16String) (s : Session) : Prop where
  current : s.disk.current = some s.state.manifestSeq
  manifest : s.disk.manifests s.state.manifestSeq = some s.state.tip
  shows : reopened name s.disk = .ok s.state.view
  named : s.state.metadata.isSome

theorem InStep.published {name : Utf16String} {s : Session} (h : InStep name s) :
    s.disk.published = some s.state.tip := by
  rw [Disk.published, h.current]
  exact h.manifest

/-! ### A new directory -/

/-- The session that opening an empty directory leads to. -/
def freshSession (name : Utf16String) : Session :=
  ⟨((Disk.empty.createFirst name).ensureWal 1).setMetaScf (emptyMeta name),
    { DbState.default with metadata := some (emptyMeta name) }⟩

theorem logOps_fresh (name : Utf16String) (wal : ℕ) :
    (freshSession name).disk.logOps wal = [] := by
  have hbytes : (freshSession name).disk.walBytes wal = [] := by
    change (((Disk.empty.ensureWal 1).ensureWal 1).walBytes wal) = []
    rw [walBytes_ensureWal, walBytes_ensureWal]
    rfl
  rw [Disk.logOps, hbytes]
  rfl

theorem inStep_fresh (name : Utf16String) : InStep name (freshSession name) where
  current := rfl
  manifest := rfl
  shows := by
    have hman : (freshSession name).disk.manifests 1 = some ⟨1, 1, []⟩ := rfl
    refine (reopened_eq_ok_iff rfl hman).mpr ⟨_, loadBase_nil rfl, ?_, ?_⟩
    · rw [logOps_fresh]
      exact fun op hop => absurd hop List.not_mem_nil
    · rw [logOps_fresh]
      rfl
  named := rfl

end BoaIdb.Fs
