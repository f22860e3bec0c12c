import BoaIdb.Core.Utf16
import BoaIdb.Fs.Runs
import BoaIdb.Fs.WalCut

/-!
The listing of databases, which resolves a name and a version without opening.

Opening takes the metadata of the live segment, of `meta.scf` without one, and then of the log;
the listing takes those of `meta.scf` and then of the log. The two agree as long as `meta.scf`
names what the files under the log name, or the log names it again.
-/

namespace BoaIdb.Fs

open OrdMap Faults

/-! ### Listing -/

/-- The published log, or the first without a `CURRENT`. -/
def listedWal (d : Disk) : Except BackendError ℕ :=
  if d.current.isSome then (loadManifest d).map ManifestData.walSeq else .ok 1

/-- `load_meta_with_wal`. -/
def loadMetaWithWal (d : Disk) : Except BackendError (Option DatabaseMeta) :=
  if d.current.isNone ∧ d.metaScf.isNone then .ok none
  else do
    let walSeq ← listedWal d
    match d.wals walSeq with
    | none => .ok d.metaScf
    | some bytes =>
        (applyFrames { DbState.default with metadata := d.metaScf }
          (recoverCommittedFrames bytes).frames).map DbState.metadata

/-- `FsStorage::list_databases`, over the directories of the root: those without a database and
the corrupt ones are skipped. -/
def listDatabases : List Disk → Except BackendError (List (String × UInt64))
  | [] => .ok []
  | d :: ds =>
      match loadMetaWithWal d with
      | .ok (some m) => do
          let rest ← listDatabases ds
          .ok ((Utf16String.toText m.name, m.version) :: rest)
      | .ok none => listDatabases ds
      | .error (.corrupted _) => listDatabases ds
      | .error e => .error e

/-- The name and the version. -/
def heading (m : DatabaseMeta) : Utf16String × UInt64 := (m.name, m.version)

/-- The listing shows the name and the version that opening leads to. -/
def Agrees (name : Utf16String) (d : Disk) : Prop :=
  ∀ s, openDatabase name d = .ok s →
    ∃ m, loadMetaWithWal d = .ok (some m) ∧ some (heading m) = s.state.metadata.map heading

/-! ### What the log names -/

/-- The name and the version of the last metadata in a log. -/
def logHeading (ops : List WalOp) : Option (Utf16String × UInt64) :=
  (ops.foldl WalOp.onSchema none).map heading

theorem logHeading_append (ops ops' : List WalOp) :
    logHeading (ops ++ ops') = (logHeading ops').or (logHeading ops) := by
  rw [logHeading, logHeading, logHeading, List.foldl_append, foldl_onSchema ops']
  cases ops'.foldl WalOp.onSchema none <;> rfl

theorem Replays.heading {s s' : DbState} {ops : List WalOp} (h : Replays s ops s') :
    s'.metadata.map heading = (logHeading ops).or (s.metadata.map heading) := by
  have hschema := congrArg View.schema h.view
  rw [schema_foldl] at hschema
  have hmap := congrArg (Option.map Fs.heading) hschema
  have hname (m : Option DatabaseMeta) :
      (m.map schemaOf).map Fs.heading = m.map Fs.heading := by
    rw [Option.map_map]
    rfl
  change (s'.metadata.map schemaOf).map Fs.heading =
    ((ops.foldl WalOp.onSchema none).or (s.metadata.map schemaOf)).map Fs.heading at hmap
  rw [hname] at hmap
  rw [hmap, logHeading, ← hname s.metadata]
  cases ops.foldl WalOp.onSchema none <;> rfl

/-- The log of a directory, replayed onto what `meta.scf` holds. -/
theorem loadMetaWithWal_ok {d : Disk} {walSeq : ℕ}
    (hsome : ¬ (d.current.isNone ∧ d.metaScf.isNone))
    (hwal : listedWal d = .ok walSeq) (hdec : ∀ op ∈ d.logOps walSeq, op.Decodes) :
    ∃ m, loadMetaWithWal d = .ok m ∧
      m.map heading = (logHeading (d.logOps walSeq)).or (d.metaScf.map heading) := by
  rw [loadMetaWithWal, if_neg hsome, hwal]
  simp only [bind, Except.bind]
  cases hbytes : d.wals walSeq with
  | none =>
      refine ⟨d.metaScf, rfl, ?_⟩
      have hnil : d.logOps walSeq = [] := logOps_nil (by rw [Disk.walBytes, hbytes]; rfl)
      rw [hnil]
      rfl
  | some bytes =>
      have hlog : d.logOps walSeq = (recoverCommittedFrames bytes).frames.flatMap WalFrame.ops := by
        rw [Disk.logOps, Disk.walBytes, hbytes]
        rfl
      rw [hlog] at hdec ⊢
      obtain ⟨s, hs, hreplays⟩ :=
        applyFrames_ok (s := { DbState.default with metadata := d.metaScf }) hdec
      exact ⟨s.metadata, congrArg (Except.map DbState.metadata) hs, hreplays.heading⟩

/-! ### When the two agree -/

/-- The directory that opening loads: a new generation is prepared without a `CURRENT`. -/
def Disk.prepared (name : Utf16String) (d : Disk) : Disk :=
  if d.current.isNone then d.createFirst name else d

/-- There is a database, and `meta.scf` names what the files under the log name, or the log names
it again. -/
def ListsRightly (name : Utf16String) (d : Disk) : Prop :=
  (d.current.isSome ∨ d.metaScf.isSome) ∧
    ∃ tip base, loadManifest (d.prepared name) = .ok tip ∧
      loadBase name (d.prepared name) tip = .ok base ∧
      ((logHeading (d.logOps tip.walSeq)).isSome ∨
        d.metaScf.map heading = base.metadata.map heading)

theorem loadManifest_ok {d : Disk} {tip : ManifestData} (h : loadManifest d = .ok tip) :
    ∃ n, d.current = some n ∧ d.manifests n = some tip := by
  rw [loadManifest] at h
  cases hcur : d.current with
  | none =>
      rw [hcur] at h
      cases h
  | some n =>
      rw [hcur] at h
      dsimp only at h
      cases hman : d.manifests n with
      | none =>
          rw [hman] at h
          cases h
      | some data =>
          rw [hman] at h
          exact ⟨n, rfl, by rw [hman, Except.ok.inj h]⟩

/-- A directory that opens has loaded the files under its log, and replayed the log. -/
theorem opened_of_ok {name : Utf16String} {d : Disk} {s : Session}
    (h : openDatabase name d = .ok s) :
    ∃ tip base, loadManifest (d.prepared name) = .ok tip ∧
      loadBase name (d.prepared name) tip = .ok base ∧
      (∀ op ∈ (d.prepared name).logOps tip.walSeq, op.Decodes) ∧
      Opened name (d.prepared name) tip base s := by
  obtain ⟨tip, hload, hgeneration⟩ := bind_ok h
  obtain ⟨n, hcur, hman⟩ := loadManifest_ok hload
  have hopen : openDatabase name (d.prepared name) = .ok s :=
    (openDatabase_published hcur hman).trans hgeneration
  have hshow : reopened name (d.prepared name) = .ok s.state.view := by
    rw [reopened, hopen]
    rfl
  obtain ⟨base, hbase, hdec, -⟩ := (reopened_eq_ok_iff hcur hman).mp hshow
  obtain ⟨s', hs'⟩ := openDatabase_ok hcur hman hbase hdec
  obtain rfl := Except.ok.inj (hs'.opens.symm.trans hopen)
  exact ⟨tip, base, hload, hbase, hdec, hs'⟩

@[simp] theorem logOps_prepared (name : Utf16String) (d : Disk) (wal : ℕ) :
    (d.prepared name).logOps wal = d.logOps wal := by
  unfold Disk.prepared
  split
  · exact logOps_congr (walBytes_ensureWal d 1 wal)
  · rfl

/-- The listing reads the log of the generation that opening loads. -/
theorem listedWal_ok {name : Utf16String} {d : Disk} {tip : ManifestData}
    (h : loadManifest (d.prepared name) = .ok tip) : listedWal d = .ok tip.walSeq := by
  rw [listedWal]
  cases hcur : d.current with
  | none =>
      rw [Disk.prepared, if_pos (by rw [hcur]; rfl)] at h
      have hfirst : loadManifest (d.createFirst name) = .ok ⟨1, 1, []⟩ := by
        simp [loadManifest, Disk.createFirst, Disk.setCurrent, Disk.setManifest]
      obtain rfl := Except.ok.inj (hfirst.symm.trans h)
      rfl
  | some n =>
      rw [Disk.prepared, if_neg (by simp [hcur])] at h
      rw [h]
      rfl

theorem or_eq_or_iff {α : Type} (a b c : Option α) : a.or b = a.or c ↔ a.isSome ∨ b = c := by
  cases a <;> simp

/-- A directory that opens is listed as it opens exactly when its files say so. -/
theorem agrees_iff {name : Utf16String} {d : Disk} {s : Session}
    (hopen : openDatabase name d = .ok s) : Agrees name d ↔ ListsRightly name d := by
  obtain ⟨tip, base, hload, hbase, hdec, hopened⟩ := opened_of_ok hopen
  have hshown := hopened.replays.heading
  rw [logOps_prepared] at hdec hshown
  have hright : ListsRightly name d ↔ (d.current.isSome ∨ d.metaScf.isSome) ∧
      ((logHeading (d.logOps tip.walSeq)).isSome ∨
        d.metaScf.map heading = base.metadata.map heading) := by
    refine and_congr_right fun _ => ⟨?_, fun h => ⟨tip, base, hload, hbase, h⟩⟩
    rintro ⟨tip', base', hload', hbase', h⟩
    obtain rfl := Except.ok.inj (hload.symm.trans hload')
    obtain rfl := Except.ok.inj (hbase.symm.trans hbase')
    exact h
  have hagrees : Agrees name d ↔
      ∃ m, loadMetaWithWal d = .ok (some m) ∧ some (heading m) = s.state.metadata.map heading := by
    refine ⟨fun h => h s hopen, fun h s' hopen' => ?_⟩
    obtain rfl := Except.ok.inj (hopen.symm.trans hopen')
    exact h
  rw [hright, hagrees]
  by_cases hnone : d.current.isNone ∧ d.metaScf.isNone
  · have hlist : loadMetaWithWal d = .ok none := by rw [loadMetaWithWal, if_pos hnone]
    refine iff_of_false ?_ ?_
    · rintro ⟨m, hm, -⟩
      rw [hlist] at hm
      cases hm
    · simp only [Option.isNone_iff_eq_none] at hnone
      rintro ⟨h, -⟩
      simp [hnone.1, hnone.2] at h
  · obtain ⟨m, hm, hheading⟩ := loadMetaWithWal_ok hnone (listedWal_ok hload) hdec
    have hsome : d.current.isSome ∨ d.metaScf.isSome := by
      rw [Option.isSome_iff_ne_none, Option.isSome_iff_ne_none]
      simpa only [Option.isNone_iff_eq_none, not_and_or] using hnone
    rw [and_iff_right hsome, hm, ← or_eq_or_iff, ← hheading, ← hshown]
    obtain ⟨m', hm'⟩ := Option.isSome_iff_exists.mp
      (hopened.replays.named (loadBase_ok hbase).2)
    rw [hm']
    cases m with
    | none => simp
    | some m => simp

/-! ### A session that is listed as it is -/

/-- `meta.scf` names what memory names, and so do the files under the log. -/
structure Settled (name : Utf16String) (s : Session) : Prop where
  metaScf : s.disk.metaScf.map heading = s.state.metadata.map heading
  under : ∀ base, loadBase name s.disk s.state.tip = .ok base →
    base.metadata.map heading = s.state.metadata.map heading

/-- The published generation is that of memory. The log names the database, or there is only
`meta.scf` under it, or `meta.scf` and the files under the log name the same. -/
structure Shown (name : Utf16String) (s : Session) : Prop where
  current : s.disk.current = some s.state.manifestSeq
  manifest : s.disk.manifests s.state.manifestSeq = some s.state.tip
  named : s.state.metadata.isSome
  metaScf : s.disk.metaScf.isSome
  names : (logHeading s.logOps).isSome ∨ s.state.segments = [] ∨ Settled name s

/-- With a segment the files under the log do not depend on `meta.scf`. -/
theorem Settled.congr {name : Utf16String} {s s' : Session} (h : Settled name s)
    (hne : s.state.segments ≠ []) (htip : s'.state.tip = s.state.tip)
    (hheading : s'.state.metadata.map heading = s.state.metadata.map heading)
    (hseg : ∀ seq ∈ s.state.segments, s'.disk.segFiles seq = s.disk.segFiles seq)
    (hmeta : s'.disk.metaScf.map heading = s.state.metadata.map heading) : Settled name s' := by
  refine ⟨hmeta.trans hheading.symm, fun base hbase => ?_⟩
  rw [htip, loadBase_congr_of_segments (d := s.disk) hseg hne] at hbase
  rw [hheading]
  exact h.under base hbase

/-- More bytes hide nothing that the log names. -/
theorem logHeading_append_isSome {bytes rest : Bytes}
    (h : (logHeading ((recoverCommittedFrames bytes).frames.flatMap WalFrame.ops)).isSome) :
    (logHeading ((recoverCommittedFrames (bytes ++ rest)).frames.flatMap WalFrame.ops)).isSome := by
  obtain ⟨more, hmore⟩ := recover_frames_prefix bytes rest
  rw [← hmore, List.flatMap_append, logHeading_append, Option.isSome_or, h, Bool.or_true]

/-! ### Compaction -/

/-- `meta.scf` is as it was, or holds these metadata. -/
def ScfIn (s₀ : Session) (m : DatabaseMeta) (s : Session) : Prop :=
  s.disk.metaScf = s₀.disk.metaScf ∨ s.disk.metaScf = some m

section ScfIn

variable {s₀ : Session} {m : DatabaseMeta}

theorem leaves_fsOp {context : String} {o : Outcome IoError} {effect : Disk → Disk}
    (h : ∀ s, ScfIn s₀ m s → ScfIn s₀ m (s.onDisk effect)) :
    Leaves (ScfIn s₀ m) (fsOp context o effect) :=
  meets_fsOp (fun _ s hs => h s hs) fun _ _ _ hs => hs

theorem leaves_atomicWrite {replace : Disk → Disk} {sync : Bool} {f : AtomicFaults}
    (h : ∀ s, ScfIn s₀ m s → ScfIn s₀ m (s.onDisk replace)) :
    Leaves (ScfIn s₀ m) (atomicWrite replace sync f) :=
  meets_atomicWrite (fun _ _ s hs => h s hs) (fun _ _ _ hs => hs) fun _ _ _ s _ hs => h s hs

theorem leaves_removeSegments (o : ℕ → Outcome IoError) (seqs : List ℕ) :
    Leaves (ScfIn s₀ m) (removeSegments o seqs) := by
  induction seqs with
  | nil => exact leaves_pure ()
  | cons seq seqs ih =>
      exact Leaves.bind (Leaves.attempt (leaves_fsOp fun _ hs => hs)) fun _ => ih

theorem leaves_publish (s : DbState) (f : CompactFaults) :
    Leaves (ScfIn s₀ m) (publish s f) := by
  have hsegment : Leaves (ScfIn s₀ m)
      (writeSegmentFile (nextSegSeq s.segments) s f.createSegDir f.segment) := by
    refine Leaves.bind (leaves_fsOp fun _ hs => hs) fun _ => Leaves.bind ?_ fun segment =>
      leaves_atomicWrite fun _ hs => hs
    unfold encodeSegment
    split
    · exact leaves_throw _
    · exact leaves_pure _
  refine Leaves.bind hsegment fun _ => Leaves.bind ?_ fun _ => ?_
  · exact Leaves.bind (leaves_fsOp fun _ hs => hs) fun _ => leaves_fsOp fun _ hs => hs
  · exact Leaves.bind (leaves_atomicWrite fun _ hs => hs) fun _ => leaves_atomicWrite fun _ hs => hs

theorem leaves_settle {s : DbState} (hm : s.metadata = some m) (f : CompactFaults) :
    Leaves (ScfIn s₀ m) (settle s f) := by
  unfold settle
  rw [hm]
  refine Leaves.bind (leaves_modify fun _ hs => hs) fun _ =>
    Leaves.bind (leaves_removeSegments _ _) fun _ =>
      Leaves.bind (Leaves.attempt (leaves_atomicWrite fun _ _ => .inr rfl)) fun r =>
        Leaves.bind (Leaves.attempt (leaves_fsOp fun _ hs => hs)) fun _ => ?_
  cases r with
  | error e => exact leaves_throw e
  | ok _ => exact leaves_pure _

/-- A compaction writes no other `meta.scf` than that of memory. -/
theorem metaScf_compactNow (hm : s₀.state.metadata = some m) (f : CompactFaults) :
    ScfIn s₀ m (compactNow f s₀).2 := by
  have hrun : Meets (· = s₀) (compactNow f) (fun _ => ScfIn s₀ m) fun _ => ScfIn s₀ m := by
    refine meets_read fun s hs => ?_
    rw [show s = s₀ from hs]
    refine (Leaves.bind (leaves_publish s₀.state f) fun _ => leaves_settle hm f).mono ?_
      (fun _ _ h => h) fun _ _ h => h
    exact fun s' hs' => .inl (by rw [hs'])
  exact hrun.behind rfl

end ScfIn

/-- The clean-up behind the swap replaces `meta.scf` unless its write fails before the rename. -/
theorem meets_settle_metaScf {s : DbState} {m : DatabaseMeta} (hm : s.metadata = some m)
    {f : CompactFaults} (hreplaces : f.metaScf.Replaces true) :
    Meets (fun _ => True) (settle s f) (fun _ s' => s'.disk.metaScf = some m)
      (OnError fun s' => s'.disk.metaScf = some m) := by
  have hremove (seqs : List ℕ) : Meets (fun _ => True) (removeSegments f.removeSegment seqs)
      (fun _ _ => True) (OnError fun s' : Session => s'.disk.metaScf = some m) := by
    induction seqs with
    | nil => exact meets_pure fun _ hs => hs
    | cons seq seqs ih =>
        have hone : Meets (fun _ : Session => True)
            (fsOp "remove segment" (f.removeSegment seq) (Disk.removeSegment seq))
            (fun _ _ => True) (fun _ _ => True) :=
          meets_fsOp (fun _ _ _ => trivial) fun _ _ _ _ => trivial
        refine (hone.attempt.mono (fun _ hs => hs) (fun _ _ _ => trivial) fun e _ hs he => ?_).bind
          fun _ => ih
        rw [hs.1] at he
        cases he
  have hwrite : Meets (fun _ : Session => True) (writeMetaFile m true f.metaScf)
      (fun _ s' => s'.disk.metaScf = some m) (fun _ s' => s'.disk.metaScf = some m) :=
    meets_atomicWrite (fun _ _ _ _ => rfl) (fun h => absurd hreplaces h) fun _ _ _ _ _ _ => rfl
  have hwritten : Meets (fun _ : Session => True) (writeMetaFile m true f.metaScf).attempt
      (fun _ s' => s'.disk.metaScf = some m) (OnError fun s' => s'.disk.metaScf = some m) := by
    refine hwrite.attempt.mono (fun _ hs => hs) (fun r s' hs => ?_) fun _ _ hs _ => hs.2
    cases r with
    | ok _ => exact hs
    | error e => exact hs
  have hwal : Meets (fun s' : Session => s'.disk.metaScf = some m)
      (fsOp "remove wal" f.removeWal (Disk.removeWal s.walSeq))
      (fun _ s' => s'.disk.metaScf = some m) (fun _ s' => s'.disk.metaScf = some m) :=
    meets_fsOp (fun _ _ hs => hs) fun _ _ _ hs => hs
  have hignored : Meets (fun s' : Session => s'.disk.metaScf = some m)
      (fsOp "remove wal" f.removeWal (Disk.removeWal s.walSeq)).attempt
      (fun _ s' => s'.disk.metaScf = some m) (OnError fun s' => s'.disk.metaScf = some m) :=
    (meets_ignored hwal).mono (fun _ hs => hs) (fun _ _ hs => hs) fun _ _ hs _ => hs
  unfold settle
  rw [hm]
  refine (meets_modify fun _ _ => trivial).bind fun _ => (hremove _).bind fun _ =>
    hwritten.bind fun r => hignored.bind fun _ => ?_
  cases r with
  | error e => exact meets_throw fun _ hs _ => hs
  | ok _ => exact meets_pure fun _ hs => hs

/-- Behind a compaction that got to the clean-up, `meta.scf` is that of memory. -/
theorem meets_compactNow_metaScf {s₀ : Session} {m : DatabaseMeta} (hm : s₀.state.metadata = some m)
    {f : CompactFaults} (hreplaces : f.metaScf.Replaces true) :
    Meets (· = s₀) (compactNow f) (fun _ s => s.disk.metaScf = some m)
      (OnError fun s => (∃ e, PublishHalts s₀ m f e s) ∨ s.disk.metaScf = some m) := by
  refine meets_read fun s hs => ?_
  rw [show s = s₀ from hs]
  refine ((meets_publish hm).mono (fun _ hs => hs) (fun _ _ h => h) fun e _ h _ =>
    .inl ⟨e, h⟩).bind fun _ => ?_
  exact (meets_settle_metaScf hm hreplaces).mono (fun _ _ => trivial) (fun _ _ h => h)
    fun _ _ h he => .inr (h he)

/-- `meta.scf` names what memory names. -/
def Session.ScfNames (s : Session) : Prop :=
  s.disk.metaScf.map heading = s.state.metadata.map heading

/-- Whether a compaction avoids the faults behind which the listing can differ. -/
structure CompactFaults.KeepsListing (f : CompactFaults) (scfNames : Prop) : Prop where
  tip : ¬ f.LosesTip
  /-- A `meta.scf` that names something else is replaced behind the swap. -/
  metaScf : f.Publishes → scfNames ∨ f.metaScf.Replaces true

section Steps

variable {name : Utf16String} {cfg : FsConfig} {s s' : Session}

theorem Shown.compact (h : Shown name s) {f : CompactFaults} {r : Exit BackendError Unit}
    (hrun : compactNow f s = (r, s')) (hr : r ≠ .stopped) (hkeeps : f.KeepsListing s.ScfNames) :
    Shown name s' := by
  obtain ⟨m, hm⟩ := Option.isSome_iff_exists.mp h.named
  have hscf : ScfIn s m s' := by
    have hwritten := metaScf_compactNow hm f
    rwa [hrun] at hwritten
  have hsome : s'.disk.metaScf.isSome := by
    rcases hscf with hsame | hnew
    · rw [hsame]
      exact h.metaScf
    · rw [hnew]
      rfl
  -- memory has followed: the log is empty, and the segment holds the metadata of memory
  have hfollowed (hf : Followed s m s') (hnames : s'.disk.metaScf.map heading = some (heading m)) :
      Shown name s' := by
    obtain ⟨hstate, hswap⟩ := hf
    have htip : s'.state.tip = nextTip s.state := by rw [hstate]; rfl
    have hmeta : s'.state.metadata = some m := by rw [hstate]; exact hm
    have hunder (base : DbState) (hbase : loadBase name s'.disk s'.state.tip = .ok base) :
        base.metadata.map heading = s'.state.metadata.map heading := by
      rw [htip, loadBase_singleton rfl hswap.segment rfl] at hbase
      obtain rfl := Except.ok.inj hbase
      rw [hmeta]
      rfl
    refine ⟨?_, ?_, by rw [hmeta]; rfl, hsome, .inr (.inr ⟨by rw [hnames, hmeta]; rfl, hunder⟩)⟩
    · rw [hswap.current, hstate]
      rfl
    · rw [htip, hstate]
      exact hswap.manifest
  -- the new generation is not published: everything is as it was
  have hkept (hp : Prepared s s') : Shown name s' := by
    refine ⟨by rw [hp.current, hp.state, h.current], by rw [hp.state, hp.manifest, h.manifest],
      by rw [hp.state]; exact h.named, hsome, ?_⟩
    rcases h.names with hlog | hnil | hsettled
    · left
      rw [Session.logOps, hp.state, logOps_congr hp.wal]
      exact hlog
    · exact .inr (.inl (by rw [hp.state]; exact hnil))
    · by_cases hnil : s.state.segments = []
      · exact .inr (.inl (by rw [hp.state]; exact hnil))
      · refine .inr
          (.inr (hsettled.congr hnil (by rw [hp.state]) (by rw [hp.state]) hp.segFiles ?_))
        rw [hp.metaScf, hsettled.metaScf]
  have hhalts {e : Option BackendError} (he : e.isSome) (hp : PublishHalts s m f e s') :
      Shown name s' := by
    rcases hp with ⟨-, hp⟩ | ⟨hpub, hreport, -⟩
    · exact hkept hp
    · rcases hreport with ⟨-, hnone⟩ | ⟨err, hfail, -⟩
      · rw [hnone] at he
        cases he
      · exact absurd ⟨hpub, err, hfail⟩ hkeeps.tip
  -- what `meta.scf` names behind the clean-up
  have hnames (hpub : f.Publishes) (hwritten : f.metaScf.Replaces true → s'.disk.metaScf = some m) :
      s'.disk.metaScf.map heading = some (heading m) := by
    rcases hscf with hsame | hnew
    · rcases hkeeps.metaScf hpub with hnames | hreplaces
      · rw [hsame, hnames, hm]
        rfl
      · rw [hwritten hreplaces]
        rfl
    · rw [hnew]
      rfl
  have hends := meets_compactNow (f := f) hm s rfl
  have hends' (hreplaces : f.metaScf.Replaces true) :=
    meets_compactNow_metaScf hm hreplaces s rfl
  rw [hrun] at hends hends'
  cases r with
  | done _ => exact hfollowed hends.2 (hnames hends.1.1 hends')
  | failed e =>
      rcases hends with hp | ⟨hpub, hf⟩
      · exact hhalts rfl hp
      · by_cases hreplaces : f.metaScf.Replaces true
        · rcases hends' hreplaces rfl with ⟨e', ⟨hnot, -⟩ | ⟨-, hreport, -⟩⟩ | hwritten
          · exact absurd hpub.1 hnot
          · exact absurd hpub.2 hreport.ne_ok
          · exact hfollowed hf (hnames hpub.1 fun _ => hwritten)
        · exact hfollowed hf (hnames hpub.1 fun h => absurd h hreplaces)
  | stopped => exact absurd rfl hr

/-! ### Commits -/

/-- The commit gives the database another name or version. -/
def FsTxn.Renames (t : FsTxn) (s : DbState) : Prop :=
  some (heading t.commitMeta) ≠ s.metadata.map heading

/-- Whether a commit avoids what the listing can differ behind. -/
structure CommitFaults.KeepsListing (name : Utf16String) (cfg : FsConfig) (t : FsTxn)
    (f : CommitFaults) (s : Session) (frames : List Bytes) : Prop where
  /-- What lands without metadata of its own does not go back to an older name or version. -/
  begun : f.Lands t frames → t.metaDirty = false → ¬ t.Renames s.state
  /-- An upgrade that lands is not hidden behind a torn tail or in a frame that is not read. -/
  seen : f.Lands t frames → t.Renames s.state → s.state.segments ≠ [] →
    (Complete s.log ∧ ReadableFrames frames) ∨ (logHeading s.logOps).isSome
  compacts : f.Lands t frames → t.Compacts cfg s.state frames →
    f.compact.KeepsListing (t.metaDirty = true ∨ s.ScfNames)
  /-- An upgrade that fails has not replaced `meta.scf`, or the log hides it. -/
  kept : ¬ f.Lands t frames → f.Leaks t frames → t.Renames s.state → s.state.segments ≠ [] →
    if f.truncate = .ok then f.metadataLen = .ok ∧ (logHeading s.logOps).isSome
    else (Complete s.log ∧ ReadableFrames frames) ∨ (logHeading s.logOps).isSome
  /-- The repair does not empty a log that is needed. -/
  repaired : ¬ f.Lands t frames → f.truncate = .ok → f.metadataLen ≠ .ok →
    s.state.segments ≠ [] → Settled name s

/-- A transaction that is dirty logs its metadata. -/
theorem logHeading_ops {t : FsTxn} (h : t.PayloadMeta) (hdirty : t.metaDirty = true) :
    (logHeading t.ops).isSome := by
  have hdec := FsTxn.decodes_ops h
  rw [logHeading, Option.isSome_map, Option.isSome_iff_ne_none, ne_eq,
    foldl_onSchema_eq_none_iff hdec]
  intro hleaves
  refine hleaves (encodeMeta t.commitMeta) ?_
  rw [FsTxn.ops, FsTxn.buildCommitPayload, hdirty]
  simp

variable {t : FsTxn} {f : CommitFaults} {frames : List Bytes}

/-- The whole chain of a dirty transaction names the database, behind a complete log or one that
names it. -/
theorem logHeading_whole (hframes : t.frames cfg s = .ok frames) (hdirty : t.metaDirty = true)
    (h : (Complete s.log ∧ ReadableFrames frames) ∨ (logHeading s.logOps).isSome) :
    (logHeading ((recoverCommittedFrames (s.log ++ frames.flatten)).frames.flatMap
      WalFrame.ops)).isSome := by
  rcases h with ⟨hcomplete, hread⟩ | hlogged
  · rw [ops_whole hframes hread hcomplete, logHeading_append, Option.isSome_or,
      logHeading_ops (FsTxn.payloadMeta_of_encode hframes) hdirty, Bool.true_or]
  · exact logHeading_append_isSome hlogged

/-- What a landed commit leaves, before a compaction. -/
theorem Shown.landed (h : Shown name s) {s₁ : Session} (hframes : t.frames cfg s = .ok frames)
    (hlands : f.Lands t frames) (hkeeps : f.KeepsListing name cfg t s frames)
    (hw : Working s (s.log ++ frames.flatten)
      (if t.metaDirty then some t.commitMeta else s.disk.metaScf) s₁) :
    Shown name (s₁.onState (t.committed frames)) ∧
      (t.metaDirty = true ∨ s.ScfNames → (s₁.onState (t.committed frames)).ScfNames) := by
  have hbegun := hkeeps.begun hlands
  have htip : (t.committed frames s₁.state).tip = s.state.tip := by
    rw [hw.state]
    unfold FsTxn.committed
    simp only
    split <;> rfl
  have hmanifestSeq : (t.committed frames s₁.state).manifestSeq = s.state.manifestSeq :=
    congrArg ManifestData.manifestSeq htip
  have hwalSeq : (t.committed frames s₁.state).walSeq = s.state.walSeq :=
    congrArg ManifestData.walSeq htip
  have hsegments : (t.committed frames s₁.state).segments = s.state.segments :=
    congrArg ManifestData.segments htip
  have hmeta : (t.committed frames s₁.state).metadata = some t.commitMeta :=
    metadata_committed t frames s₁.state
  -- a commit that writes no `meta.scf` finds it under the name that it began with
  have hscf (hnames : t.metaDirty = true ∨ s.ScfNames) :
      s₁.disk.metaScf.map heading = some (heading t.commitMeta) := by
    rw [hw.disk.metaScf]
    cases hdirty : t.metaDirty with
    | true => rfl
    | false =>
        rw [if_neg (by simp)]
        rw [hdirty] at hnames
        refine (hnames.resolve_left (by simp)).trans ?_
        exact (not_not.mp (hbegun hdirty)).symm
  have hsome : s₁.disk.metaScf.isSome := by
    rw [hw.disk.metaScf]
    split
    · rfl
    · exact h.metaScf
  have hlog : (s₁.onState (t.committed frames)).logOps =
      (recoverCommittedFrames (s.log ++ frames.flatten)).frames.flatMap WalFrame.ops := by
    show s₁.disk.logOps (t.committed frames s₁.state).walSeq = _
    rw [hwalSeq, Disk.logOps, hw.disk.walBytes]
  have hnames : (logHeading (s₁.onState (t.committed frames)).logOps).isSome ∨
      s.state.segments = [] ∨ Settled name (s₁.onState (t.committed frames)) := by
    rw [hlog]
    by_cases hnil : s.state.segments = []
    · exact .inr (.inl hnil)
    -- a new heading is in the log behind the commit; an old one is where it was
    by_cases hrenames : t.Renames s.state
    · have hdirty : t.metaDirty = true := by
        by_contra hclean
        exact hbegun (by simpa using hclean) hrenames
      exact .inl (logHeading_whole hframes hdirty (hkeeps.seen hlands hrenames hnil))
    · have hsame : (t.committed frames s₁.state).metadata.map heading =
          s.state.metadata.map heading := by
        rw [hmeta]
        exact not_not.mp hrenames
      rcases h.names with hlogged | hempty | hsettled
      · exact .inl (logHeading_append_isSome hlogged)
      · exact absurd hempty hnil
      · refine .inr (.inr (hsettled.congr hnil htip hsame (fun seq _ => ?_) ?_))
        · exact congrFun hw.disk.segFiles seq
        · rw [← hsame, hmeta]
          exact hscf (.inr hsettled.metaScf)
  refine ⟨⟨?_, ?_, by rw [Session.onState, hmeta]; rfl, hsome, ?_⟩, fun hscfNames => ?_⟩
  · show s₁.disk.current = some (t.committed frames s₁.state).manifestSeq
    rw [hw.disk.current, hmanifestSeq, h.current]
  · show s₁.disk.manifests (t.committed frames s₁.state).manifestSeq =
      some (t.committed frames s₁.state).tip
    rw [hw.disk.manifests, hmanifestSeq, htip, h.manifest]
  · rw [show (s₁.onState (t.committed frames)).state.segments = s.state.segments from hsegments]
    exact hnames
  · show s₁.disk.metaScf.map heading = (t.committed frames s₁.state).metadata.map heading
    rw [hscf hscfNames, hmeta]
    rfl

/-- A commit that returns. -/
theorem Shown.commitOk (h : Shown name s) (hmode : t.mode ≠ .readOnly)
    (hkeeps : ∀ frames, t.frames cfg s = .ok frames → f.KeepsListing name cfg t s frames)
    (hrun : t.commit cfg f s = (.done (), s')) : Shown name s' := by
  have hends : Ends _ _ (t.commit cfg f s) := meets_commit hmode s rfl
  rw [hrun] at hends
  obtain ⟨frames, s₁, hframes, hlands, hworking, hlast⟩ := hends
  obtain ⟨hlanded, hnames⟩ := h.landed hframes hlands (hkeeps frames hframes) hworking
  simp only at hlast
  split at hlast
  · rename_i hcompacts
    obtain ⟨r, hcompact, hr⟩ := hlast
    have hf := (hkeeps frames hframes).compacts hlands ⟨hcompacts.1, hworking.state ▸ hcompacts.2⟩
    exact hlanded.compact hcompact hr ⟨hf.tip, fun hpub => (hf.metaScf hpub).imp_left hnames⟩
  · rw [hlast]
    exact hlanded

/-- A commit that fails. -/
theorem Shown.commitErr (h : Shown name s) {e : BackendError} (hmode : t.mode ≠ .readOnly)
    (hkeeps : ∀ frames, t.frames cfg s = .ok frames → f.KeepsListing name cfg t s frames)
    (hrun : t.commit cfg f s = (.failed e, s')) : Shown name s' := by
  have hends : Ends _ _ (t.commit cfg f s) := meets_commit hmode s rfl
  rw [hrun] at hends
  have hfailed : FailedCommit cfg t f s s' := hends rfl
  unfold FailedCommit at hfailed
  cases hframes : t.frames cfg s with
  | error err =>
      rw [hframes] at hfailed
      obtain rfl : s' = s := hfailed
      exact h
  | ok frames =>
      rw [hframes] at hfailed
      obtain ⟨hlands, hw⟩ := hfailed
      have hk := hkeeps frames hframes
      have hlog : s'.logOps = (recoverCommittedFrames (f.leftLog (f.knownLen s.log)
          (s.log ++ (f.reach t.walSync 0 frames).1))).frames.flatMap WalFrame.ops := by
        rw [Session.logOps, hw.state, Disk.logOps, hw.disk.walBytes]
      have hsome : s'.disk.metaScf.isSome := by
        rw [hw.disk.metaScf]
        split
        · rfl
        · exact h.metaScf
      -- the log still names the database, unless the repair has emptied it
      have hlogged (hemptied : f.truncate = .ok → f.metadataLen = .ok)
          (hlogged : (logHeading s.logOps).isSome) : (logHeading s'.logOps).isSome := by
        rw [hlog, CommitFaults.leftLog]
        split
        · rename_i htruncate
          rw [CommitFaults.knownLen, if_pos (hemptied htruncate), List.take_left]
          exact hlogged
        · exact logHeading_append_isSome hlogged
      refine ⟨by rw [hw.disk.current, hw.state, h.current],
        by rw [hw.disk.manifests, hw.state, h.manifest], by rw [hw.state]; exact h.named, hsome, ?_⟩
      rw [hw.state]
      by_cases hnil : s.state.segments = []
      · exact .inr (.inl hnil)
      by_cases hleaks : f.Leaks t frames ∧ t.Renames s.state
      · left
        have hkept := hk.kept hlands hleaks.1 hleaks.2 hnil
        by_cases htruncate : f.truncate = .ok
        · rw [if_pos htruncate] at hkept
          exact hlogged (fun _ => hkept.1) hkept.2
        · rw [if_neg htruncate] at hkept
          rw [hlog, CommitFaults.leftLog, if_neg htruncate, reach_eq_flatten hleaks.1.2.1]
          exact logHeading_whole hframes hleaks.1.1 hkept
      · -- `meta.scf` names what it named
        have hsettles (hsettled : Settled name s) : Settled name s' := by
          refine hsettled.congr hnil (by rw [hw.state]) (by rw [hw.state])
            (fun seq _ => congrFun hw.disk.segFiles seq) ?_
          rw [hw.disk.metaScf]
          split
          · rename_i hleaked
            exact not_not.mp fun hrenames => hleaks ⟨hleaked, hrenames⟩
          · exact hsettled.metaScf
        rcases h.names with hlog | hempty | hsettled
        · by_cases hemptied : f.truncate = .ok ∧ f.metadataLen ≠ .ok
          · exact .inr (.inr (hsettles (hk.repaired hlands hemptied.1 hemptied.2 hnil)))
          · refine .inl (hlogged (fun htruncate => ?_) hlog)
            exact not_not.mp fun hlen => hemptied ⟨htruncate, hlen⟩
        · exact absurd hempty hnil
        · exact .inr (.inr (hsettles hsettled))

end Steps

/-! ### Runs -/

/-- Which file operations of a creation fail. -/
structure CreateFaults where
  ensureWal : Outcome IoError := .ok
  metaScf : AtomicFaults := {}
  manifest : AtomicFaults := {}
  current : AtomicFaults := {}

/-- What `FsDatabase::open` writes into a directory without a `CURRENT`. -/
def createFirst (name : Utf16String) (f : CreateFaults) : FsProg Unit := do
  ensureFile 1 f.ensureWal
  writeMetaFile (emptyMeta name) true f.metaScf
  writeManifest ⟨1, 1, []⟩ true f.manifest f.current

/-- A directory, closed or with a handle on it. -/
inductive Place
  | closed (d : Disk)
  | opened (w : World)

def Place.disk : Place → Disk
  | .closed d => d
  | .opened w => w.session.disk

/-- Whether a step avoids what the listing can differ behind. -/
def Action.KeepsListing (name : Utf16String) (cfg : FsConfig) (w : World) : Action → Prop
  | .commit t f => t.mode ≠ .readOnly → ∀ frames, t.frames cfg w.session = .ok frames →
      f.KeepsListing name cfg t w.session frames
  | .compact f => f.KeepsListing w.session.ScfNames
  | _ => True

/-- The directories that creations, opens, commits and compactions reach from an empty one: a
creation may end anywhere, and each step of a handle keeps the listing. -/
inductive ListingRun (name : Utf16String) (cfg : FsConfig) : Place → Prop
  | empty : ListingRun name cfg (.closed .empty)
  | create {d : Disk} {f : CreateFaults} (h : ListingRun name cfg (.closed d))
      (hnone : d.current = none) :
      ListingRun name cfg (.closed (createFirst name f ⟨d, .default⟩).2.disk)
  | opens {d : Disk} {s : Session} (h : ListingRun name cfg (.closed d))
      (hrun : openDatabase name d = .ok s) : ListingRun name cfg (.opened ⟨s, [], []⟩)
  | closes {w : World} (h : ListingRun name cfg (.opened w)) :
      ListingRun name cfg (.closed w.session.disk)
  | step {w w' : World} {a : Action} (h : ListingRun name cfg (.opened w))
      (hkeeps : a.KeepsListing name cfg w) (hstep : Step name cfg w a w') :
      ListingRun name cfg (.opened w')

/-! ### Directories without a handle -/

/-- `CURRENT` leads to this generation, under the number that the generation gives itself. -/
structure Disk.Leads (d : Disk) (tip : ManifestData) : Prop where
  current : d.current = some tip.manifestSeq
  manifest : d.manifests tip.manifestSeq = some tip

theorem Disk.Leads.load {d : Disk} {tip : ManifestData} (h : d.Leads tip) :
    loadManifest d = .ok tip := by
  rw [loadManifest, h.current]
  simp only [h.manifest]

/-- The published log names the database, or `meta.scf` names what the files under it name. -/
def Listed (name : Utf16String) (d : Disk) : Prop :=
  ∃ tip, d.Leads tip ∧ ((logHeading (d.logOps tip.walSeq)).isSome ∨
    ∀ base, loadBase name d tip = .ok base →
      d.metaScf.map heading = base.metadata.map heading)

section Closed

variable {name : Utf16String} {d : Disk} {s : Session}

theorem Disk.Leads.prepared {tip : ManifestData} (h : d.Leads tip) (name : Utf16String) :
    d.prepared name = d := by
  rw [Disk.prepared, if_neg (by simp [h.current])]

theorem Listed.agrees (h : Listed name d) : Agrees name d := by
  intro s hopen
  refine (agrees_iff hopen).mpr ?_ s hopen
  obtain ⟨tip, hleads, hnames⟩ := h
  obtain ⟨tip', base, hload, hbase, -⟩ := opened_of_ok hopen
  have hsame := hload
  rw [hleads.prepared name, hleads.load] at hsame
  obtain rfl := Except.ok.inj hsame
  refine ⟨.inl (by rw [hleads.current]; rfl), tip, base, hload, hbase, ?_⟩
  rw [hleads.prepared name] at hbase
  exact hnames.imp_right fun h => h base hbase

theorem Shown.listed (h : Shown name s) : Listed name s.disk := by
  refine ⟨s.state.tip, ⟨h.current, h.manifest⟩, ?_⟩
  rcases h.names with hlogged | hnil | hsettled
  · exact .inl hlogged
  · refine .inr fun base hbase => ?_
    rw [loadBase_nil (show s.state.tip.segments = [] from hnil)] at hbase
    obtain rfl := Except.ok.inj hbase
    obtain ⟨m, hm⟩ := Option.isSome_iff_exists.mp h.metaScf
    rw [freshBase, hm]
    rfl
  · exact .inr fun base hbase => hsettled.metaScf.trans (hsettled.under base hbase).symm

/-- Opening heals the directory. -/
theorem shown_of_opened {tip : ManifestData} (hleads : (d.prepared name).Leads tip)
    (hopen : openDatabase name d = .ok s) : Shown name s := by
  obtain ⟨tip', base, hload, hbase, -, hopened⟩ := opened_of_ok hopen
  obtain rfl := Except.ok.inj (hleads.load.symm.trans hload)
  obtain ⟨hbasetip, hnamed⟩ := loadBase_ok hbase
  have htip : s.state.tip = tip := hopened.replays.tip.trans hbasetip
  have hsome : s.state.metadata.isSome := hopened.replays.named hnamed
  have hlog : s.logOps = (d.prepared name).logOps tip.walSeq := by
    rw [Session.logOps, show s.state.walSeq = tip.walSeq from congrArg ManifestData.walSeq htip,
      Disk.logOps, hopened.wal, recover_validPrefix, Disk.logOps]
  have hseq : s.state.manifestSeq = tip.manifestSeq := congrArg ManifestData.manifestSeq htip
  refine ⟨by rw [hopened.current, hseq, hleads.current],
    by rw [hopened.manifests, hseq, htip, hleads.manifest],
      hsome, by rw [hopened.metaScf]; exact hsome,
    ?_⟩
  -- a log that names nothing leaves the metadata of the files under it
  by_cases hlogged : (logHeading s.logOps).isSome
  · exact .inl hlogged
  by_cases hnil : s.state.segments = []
  · exact .inr (.inl hnil)
  refine .inr (.inr ⟨congrArg (Option.map heading) hopened.metaScf, fun base' hbase' => ?_⟩)
  have hsegments : tip.segments ≠ [] := htip ▸ hnil
  rw [htip, loadBase_congr_of_segments
    (fun seq _ => congrFun hopened.segFiles seq) hsegments] at hbase'
  obtain rfl := Except.ok.inj (hbase.symm.trans hbase')
  have hheading := hopened.replays.heading
  rw [← hlog, Option.not_isSome_iff_eq_none.mp hlogged, Option.none_or] at hheading
  exact hheading.symm

/-- A directory whose creation has not reached `CURRENT`. -/
structure Uncreated (name : Utf16String) (d : Disk) : Prop where
  current : d.current = none
  metaScf : d.metaScf = none ∨ d.metaScf = some (emptyMeta name)
  log : d.walBytes 1 = []

theorem Uncreated.prepared (h : Uncreated name d) : d.prepared name = d.createFirst name := by
  rw [Disk.prepared, if_pos (by rw [h.current]; rfl)]

theorem manifests_setManifest (d : Disk) (data : ManifestData) :
    (d.setManifest data).manifests data.manifestSeq = some data := by
  simp [Disk.setManifest]

theorem leads_createFirst (d : Disk) : (d.createFirst name).Leads ⟨1, 1, []⟩ :=
  ⟨rfl, manifests_setManifest ((d.ensureWal 1).setMetaScf (emptyMeta name)) ⟨1, 1, []⟩⟩

/-- A directory whose creation got to `meta.scf` is listed as the database that opening creates. -/
theorem Uncreated.agrees (h : Uncreated name d) (hsome : d.metaScf.isSome) : Agrees name d := by
  intro s hopen
  refine (agrees_iff hopen).mpr ⟨.inr hsome, ⟨1, 1, []⟩,
    freshBase name (some (emptyMeta name)) ⟨1, 1, []⟩, ?_, ?_, .inr ?_⟩ s hopen
  · rw [h.prepared]
    exact (leads_createFirst d).load
  · rw [h.prepared]
    exact loadBase_nil rfl
  · rcases h.metaScf with hnone | hempty
    · rw [hnone] at hsome
      cases hsome
    · rw [hempty]
      rfl

/-- A creation that ends anywhere leaves a directory to create, or a database. -/
theorem Uncreated.create (h : Uncreated name d) (f : CreateFaults) :
    Uncreated name (createFirst name f ⟨d, .default⟩).2.disk ∨
      Listed name (createFirst name f ⟨d, .default⟩).2.disk := by
  let fresh (s : Session) : Prop := Uncreated name s.disk
  let named (s : Session) : Prop := fresh s ∧ s.disk.metaScf = some (emptyMeta name)
  let led (s : Session) : Prop := named s ∧ s.disk.manifests 1 = some ⟨1, 1, []⟩
  let ended (s : Session) : Prop := Uncreated name s.disk ∨ Listed name s.disk
  have hwal : Meets fresh (ensureFile 1 f.ensureWal) (fun _ => fresh) fun _ => ended := by
    refine meets_fsOp (fun _ s hs => ⟨hs.current, hs.metaScf, ?_⟩) fun _ _ _ hs => .inl hs
    exact (walBytes_ensureWal s.disk 1 1).trans hs.log
  have hmeta : Meets fresh (writeMetaFile (emptyMeta name) true f.metaScf) (fun _ => named)
      fun _ => ended := by
    have hset (s : Session) (hs : fresh s) : named (s.onDisk (Disk.setMetaScf (emptyMeta name))) :=
      ⟨⟨hs.current, .inr rfl, hs.log⟩, rfl⟩
    exact meets_atomicWrite (fun _ _ s hs => hset s hs) (fun _ _ _ hs => .inl hs)
      fun _ _ _ s _ hs => .inl (hset s hs).1
  have hmanifest : Meets named (atomicWrite (Disk.setManifest ⟨1, 1, []⟩) true f.manifest)
      (fun _ => led) fun _ => ended := by
    have hset (s : Session) (hs : named s) : led (s.onDisk (Disk.setManifest ⟨1, 1, []⟩)) :=
      ⟨⟨⟨hs.1.current, hs.1.metaScf, hs.1.log⟩, hs.2⟩,
        manifests_setManifest s.disk ⟨1, 1, []⟩⟩
    exact meets_atomicWrite (fun _ _ s hs => hset s hs) (fun _ _ _ hs => .inl hs.1)
      fun _ _ _ s _ hs => .inl (hset s hs).1.1
  have hcurrent : Meets led (atomicWrite (Disk.setCurrent 1) true f.current)
      (fun _ => ended) fun _ => ended := by
    have hset (s : Session) (hs : led s) : ended (s.onDisk (Disk.setCurrent 1)) := by
      refine .inr ⟨⟨1, 1, []⟩, ⟨rfl, hs.2⟩, .inr fun base hbase => ?_⟩
      rw [loadBase_nil rfl] at hbase
      obtain rfl := Except.ok.inj hbase
      show s.disk.metaScf.map heading = (some (s.disk.metaScf.getD (emptyMeta name))).map heading
      rw [hs.1.2]
      rfl
    exact meets_atomicWrite (fun _ _ s hs => hset s hs) (fun _ _ _ hs => .inl hs.1.1)
      fun _ _ _ s _ hs => hset s hs
  have hrun : Meets fresh (createFirst name f) (fun _ => ended) fun _ => ended :=
    hwal.bind fun _ => hmeta.bind fun _ => hmanifest.bind fun _ => hcurrent
  exact hrun.behind h

end Closed

/-! ### Handles -/

section Worlds

variable {name : Utf16String} {cfg : FsConfig} {w : World} {t : FsTxn} {f : CommitFaults}
  {s : Session}

/-- Files that no generation names do not show. -/
theorem Shown.release (h : Shown name s) {seq : ℕ} (hold : seq ∉ s.state.segments) :
    Shown name (s.onDisk (Disk.removeSegment seq)) := by
  refine ⟨h.current, h.manifest, h.named, h.metaScf, ?_⟩
  by_cases hnil : s.state.segments = []
  · exact .inr (.inl hnil)
  refine h.names.imp_right (Or.imp_right fun hsettled => ?_)
  refine hsettled.congr hnil rfl rfl (fun seq' hseq' => ?_) hsettled.metaScf
  have hne : seq' ≠ seq := by
    rintro rfl
    exact hold hseq'
  exact Function.update_of_ne hne _ _

/-- **Each step that keeps the listing keeps what opening the directory shows listed.** -/
theorem Shown.step {w' : World} {a : Action} (h : Shown name w.session)
    (hkeeps : a.KeepsListing name cfg w) (hstep : Step name cfg w a w') :
    Shown name w'.session := by
  cases hstep with
  | begin hm => exact h
  | edit before after hactive hmode hbegun => exact h
  | @commitOk t f s before after hactive hrun =>
      by_cases hmode : t.mode = .readOnly
      · rw [FsTxn.commit, if_pos hmode] at hrun
        obtain rfl : w.session = s := congrArg Prod.snd hrun
        exact h
      · exact h.commitOk hmode (hkeeps hmode) hrun
  | commitErr before after hactive hrun =>
      have hmode := (state_commit_failed hrun).1
      exact h.commitErr hmode (hkeeps hmode) hrun
  | abort before after hactive => exact h
  | compact hrun hr => exact h.compact hrun hr hkeeps
  | reopen hrun =>
      obtain ⟨tip, hleads, -⟩ := h.listed
      have hprepared := hleads.prepared name
      exact shown_of_opened (hprepared.symm ▸ hleads) hrun
  | release hold => exact h.release hold

/-- What holds of every place on such a run. -/
def Place.Listed (name : Utf16String) : Place → Prop
  | .closed d => Uncreated name d ∨ Fs.Listed name d
  | .opened w => Shown name w.session

theorem ListingRun.listed {place : Place} (h : ListingRun name cfg place) : place.Listed name := by
  induction h with
  | empty => exact .inl ⟨rfl, .inl rfl, rfl⟩
  | @create d f h hnone ih =>
      rcases ih with huncreated | ⟨tip, hleads, -⟩
      · exact huncreated.create f
      · rw [hleads.current] at hnone
        cases hnone
  | @opens d s h hrun ih =>
      have hleads : ∃ tip, (d.prepared name).Leads tip := by
        rcases ih with huncreated | ⟨tip, hleads, -⟩
        · rw [huncreated.prepared]
          exact ⟨_, leads_createFirst d⟩
        · rw [hleads.prepared name]
          exact ⟨tip, hleads⟩
      obtain ⟨tip, hleads⟩ := hleads
      exact shown_of_opened hleads hrun
  | closes h ih => exact .inr ih.listed
  | step h hkeeps hstep ih => exact ih.step hkeeps hstep

end Worlds

end BoaIdb.Fs
