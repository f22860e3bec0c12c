import BoaIdb.Fs.CommitErrors

/-!
What survives a run of commits, compactions and reopens, with faults.

`Carries ops s` says that a state shows the rows of `ops` and the last generator
values and schema they give. A database is durable when memory carries every
transaction that was reported as committed, and so does the directory: the files
under the log carry a first part of them and the log is the rest.
-/

namespace BoaIdb.Fs

open OrdMap Faults

/-! ### Carrying a list of operations -/

/-- A database without rows. -/
def View.blank : View := ⟨.empty, .empty, fun _ => keyGenStart, none⟩

/-- The state shows the operations, applied in order to a database without rows.
Generators and the schema may have had any value before. -/
structure Carries (ops : List WalOp) (s : DbState) : Prop where
  records : s.records = (ops.foldl View.apply .blank).records
  indexEntries : s.indexEntries = (ops.foldl View.apply .blank).indexEntries
  generators : ∀ store value, ops.foldl (WalOp.onGenerator store) none = some value →
    s.keyGenerators.get? store = some value
  schema : ∀ m, ops.foldl WalOp.onSchema none = some m → s.metadata.map schemaOf = some m

theorem Carries.nil {s : DbState} (hr : s.records = .empty) (hi : s.indexEntries = .empty) :
    Carries [] s :=
  ⟨hr, hi, fun _ _ h => (by cases h), fun _ h => (by cases h)⟩

/-- Operations that were replayed are carried on top. -/
theorem Carries.replays {ops ops' : List WalOp} {s s' : DbState} (h : Carries ops s)
    (hr : Replays s ops' s') : Carries (ops ++ ops') s' where
  records := by
    have hrec := congrArg View.records hr.view
    rw [List.foldl_append]
    exact hrec.trans (rows_foldl h.records h.indexEntries ops').1
  indexEntries := by
    have hidx := congrArg View.indexEntries hr.view
    rw [List.foldl_append]
    exact hidx.trans (rows_foldl h.records h.indexEntries ops').2
  generators store value hv := by
    rw [List.foldl_append, foldl_onGenerator] at hv
    rw [hr.generators, foldl_onGenerator]
    cases hlast : ops'.foldl (WalOp.onGenerator store) none with
    | some value' => rwa [hlast] at hv
    | none =>
        rw [hlast, Option.none_or] at hv
        rw [Option.none_or]
        exact h.generators store value hv
  schema m hm := by
    have hsch := congrArg View.schema hr.view
    rw [schema_foldl] at hsch
    rw [List.foldl_append, foldl_onSchema] at hm
    cases hlast : ops'.foldl WalOp.onSchema none with
    | some m' =>
        rw [hlast] at hsch hm
        exact hsch.trans hm
    | none =>
        rw [hlast, Option.none_or] at hsch hm
        exact hsch.trans (h.schema m hm)

/-- The operations of these transactions, in order, on a database without rows. -/
def ShowsAll (log : List (List WalOp)) (v : View) : Prop :=
  ∃ v₀ : View, v₀.records = .empty ∧ v₀.indexEntries = .empty ∧
    v = log.flatten.foldl View.apply v₀

theorem Carries.showsAll {log : List (List WalOp)} {s : DbState} (h : Carries log.flatten s) :
    ShowsAll log s.view := by
  refine ⟨{ s.view with records := .empty, indexEntries := .empty }, rfl, rfl, ?_⟩
  have hrows := rows_foldl (v := { s.view with records := .empty, indexEntries := .empty })
    (w := .blank) rfl rfl log.flatten
  refine View.ext (h.records.trans hrows.1.symm) (h.indexEntries.trans hrows.2.symm)
    (fun store => ?_) ?_
  · rw [generator_foldl]
    cases hlast : log.flatten.foldl (WalOp.onGenerator store) none with
    | some value =>
        change (s.keyGenerators.get? store).getD keyGenStart = _
        rw [h.generators store value hlast]
        rfl
    | none => rfl
  · rw [schema_foldl]
    cases hlast : log.flatten.foldl WalOp.onSchema none with
    | some m => exact h.schema m hlast
    | none => rfl

/-! ### A durable database -/

/-- Memory and directory both carry the operations. -/
structure Durable (name : Utf16String) (ops : List WalOp) (s : Session) : Prop where
  current : s.disk.current = some s.state.manifestSeq
  manifest : s.disk.manifests s.state.manifestSeq = some s.state.tip
  complete : Complete s.log
  decodes : ∀ op ∈ s.logOps, op.Decodes
  /-- The files under the log carry what the log does not; without a segment that is
  nothing. -/
  base : ∃ base below, loadBase name s.disk s.state.tip = .ok base ∧ Carries below base ∧
    ops = below ++ s.logOps ∧ (s.state.segments = [] → below = [])
  named : s.state.metadata.isSome
  memory : Carries ops s.state

theorem durable_fresh (name : Utf16String) : Durable name [] (freshSession name) where
  current := rfl
  manifest := rfl
  complete := complete_nil
  decodes := by
    rw [Session.logOps, logOps_fresh]
    exact fun op hop => absurd hop List.not_mem_nil
  base := ⟨_, [], loadBase_nil rfl, .nil rfl rfl, (logOps_fresh name _).symm, fun _ => rfl⟩
  named := rfl
  memory := .nil rfl rfl

section Steps

variable {name : Utf16String} {cfg : FsConfig} {ops : List WalOp} {s s' : Session}

/-- Another `meta.scf` does not change what the files under the log carry. -/
theorem Durable.base_metaScf (h : Durable name ops s) (metaScf : Option DatabaseMeta) :
    ∃ base below, loadBase name { s.disk with metaScf := metaScf } s.state.tip = .ok base ∧
      Carries below base ∧ ops = below ++ s.logOps ∧ (s.state.segments = [] → below = []) := by
  obtain ⟨base, below, hbase, hcarries, hops, hnil⟩ := h.base
  by_cases hseg : s.state.segments = []
  · obtain rfl := hnil hseg
    exact ⟨_, [], loadBase_nil hseg, .nil rfl rfl, hops, fun _ => rfl⟩
  · refine ⟨base, below, ?_, hcarries, hops, hnil⟩
    rw [← hbase]
    exact loadBase_congr_of_segments (fun _ _ => rfl) hseg

/-- A durable directory opens. -/
theorem Durable.opens (h : Durable name ops s) :
    ∃ base s', loadBase name s.disk s.state.tip = .ok base ∧
      Opened name s.disk s.state.tip base s' := by
  obtain ⟨base, below, hbase, -⟩ := h.base
  obtain ⟨s', hopen⟩ := openDatabase_ok h.current h.manifest hbase h.decodes
  exact ⟨base, s', hbase, hopen⟩

/-- Opening keeps a log that is accepted in full. -/
theorem Durable.wal_opened (h : Durable name ops s) {base : DbState}
    (hopen : Opened name s.disk s.state.tip base s') :
    s'.disk.walBytes s.state.walSeq = s.log := by
  have hbytes := hopen.wal
  change _ = s.log.take (recoverCommittedFrames s.log).validPrefixLen at hbytes
  rwa [h.complete, List.take_length] at hbytes

/-- An opened directory carries the operations and is durable again. -/
theorem Durable.opened (h : Durable name ops s) {base : DbState}
    (hload : loadBase name s.disk s.state.tip = .ok base)
    (hopen : Opened name s.disk s.state.tip base s') : Durable name ops s' := by
  obtain ⟨base', below, hbase, hcarries, hops, hnil⟩ := h.base
  obtain rfl := Except.ok.inj (hload.symm.trans hbase)
  have htip : s'.state.tip = s.state.tip := hopen.replays.tip.trans (loadBase_ok hbase).1
  have hman : s'.state.manifestSeq = s.state.manifestSeq := congrArg ManifestData.manifestSeq htip
  have hwal : s'.state.walSeq = s.state.walSeq := congrArg ManifestData.walSeq htip
  have hseg : s'.state.segments = s.state.segments := congrArg ManifestData.segments htip
  have hlog : s'.log = s.log := by
    rw [Session.log, hwal]
    exact h.wal_opened hopen
  have hlogOps : s'.logOps = s.logOps := by
    change (recoverCommittedFrames s'.log).frames.flatMap WalFrame.ops = _
    rw [hlog]
    rfl
  refine ⟨?_, ?_, ?_, ?_, ?_, ?_, ?_⟩
  · rw [hopen.current, hman]
    exact h.current
  · rw [hopen.manifests, hman, htip]
    exact h.manifest
  · rw [hlog]
    exact h.complete
  · rw [hlogOps]
    exact h.decodes
  · obtain ⟨base', below', hbase', hcarries', hops', hnil'⟩ := h.base_metaScf s'.disk.metaScf
    refine ⟨base', below', ?_, hcarries', by rw [hlogOps]; exact hops', by rw [hseg]; exact hnil'⟩
    rw [htip, ← hbase']
    exact loadBase_congr (fun seq _ => congrFun hopen.segFiles seq) rfl
  · exact hopen.replays.named (loadBase_ok hbase).2
  · rw [hops]
    exact hcarries.replays hopen.replays

theorem Durable.reopen (h : Durable name ops s) :
    ∃ s', openDatabase name s.disk = .ok s' ∧ Durable name ops s' := by
  obtain ⟨base, s', hbase, hopen⟩ := h.opens
  exact ⟨s', hopen.opens, h.opened hbase hopen⟩

/-- A failed commit that leaves the bytes of the log. -/
theorem Durable.working (h : Durable name ops s) {metaScf : Option DatabaseMeta}
    (hw : Working s s.log metaScf s') : Durable name ops s' := by
  have hstate := hw.state
  have hlog : s'.log = s.log := by
    rw [Session.log, hstate]
    exact hw.disk.walBytes
  have hlogOps : s'.logOps = s.logOps := by
    change (recoverCommittedFrames s'.log).frames.flatMap WalFrame.ops = _
    rw [hlog]
    rfl
  obtain ⟨base, below, hbase, hcarries, hops, hnil⟩ := h.base_metaScf metaScf
  refine ⟨?_, ?_, ?_, ?_, ⟨base, below, ?_, hcarries, ?_, ?_⟩, ?_, ?_⟩
  · rw [hw.disk.current, hstate]
    exact h.current
  · rw [hw.disk.manifests, hstate]
    exact h.manifest
  · rw [hlog]
    exact h.complete
  · rw [hlogOps]
    exact h.decodes
  · rw [hstate, ← hbase]
    exact loadBase_congr (fun seq _ => congrFun hw.disk.segFiles seq) hw.disk.metaScf
  · rw [hlogOps]
    exact hops
  · rw [hstate]
    exact hnil
  · rw [hstate]
    exact h.named
  · rw [hstate]
    exact h.memory

/-- A commit that returns, up to the compaction behind it. -/
theorem Durable.commit (h : Durable name ops s) {t : FsTxn} {frames : List Bytes}
    {metaScf : Option DatabaseMeta} (hframes : t.frames cfg s = .ok frames)
    (hread : ReadableFrames frames) (hw : Working s (s.log ++ frames.flatten) metaScf s')
    (hschema : t.metaDirty = false → s.state.metadata.map schemaOf = some (schemaOf t.metadata)) :
    Durable name (ops ++ t.ops) (s'.onState (t.committed frames)) := by
  have hpayload := FsTxn.payloadMeta_of_encode hframes
  have hrep : Replays s.state t.ops (t.committed frames s.state) :=
    FsTxn.replays_committed hpayload hschema
  -- the frames follow a log that is scanned to its end
  have hcomplete : Complete (s.log ++ frames.flatten) := by
    by_cases hnil : t.ops = []
    · rw [frames_nil hframes hnil, List.flatten_nil, List.append_nil]
      exact h.complete
    · exact h.complete.append (encodesTxn hnil hread hframes).whole.1
  have hstate : (s'.onState (t.committed frames)).state = t.committed frames s.state :=
    congrArg (t.committed frames) hw.state
  have hman : (t.committed frames s.state).manifestSeq = s.state.manifestSeq :=
    congrArg ManifestData.manifestSeq hrep.tip
  have hwal : (t.committed frames s.state).walSeq = s.state.walSeq :=
    congrArg ManifestData.walSeq hrep.tip
  have hseg : (t.committed frames s.state).segments = s.state.segments :=
    congrArg ManifestData.segments hrep.tip
  have hlog : (s'.onState (t.committed frames)).log = s.log ++ frames.flatten := by
    rw [Session.log, hstate, hwal]
    exact hw.disk.walBytes
  have hlogOps : (s'.onState (t.committed frames)).logOps = s.logOps ++ t.ops := by
    rw [Session.logOps, Disk.logOps]
    change (recoverCommittedFrames (s'.onState (t.committed frames)).log).frames.flatMap _ = _
    rw [hlog]
    exact ops_whole hframes hread h.complete
  obtain ⟨base, below, hbase, hcarries, hops, hnil⟩ := h.base_metaScf metaScf
  refine ⟨?_, ?_, ?_, ?_, ⟨base, below, ?_, hcarries, ?_, ?_⟩, ?_, ?_⟩
  · rw [hstate, hman]
    exact hw.disk.current.trans h.current
  · rw [hstate, hman, hrep.tip]
    exact (congrFun hw.disk.manifests _).trans h.manifest
  · rw [hlog]
    exact hcomplete
  · rw [hlogOps]
    exact fun op hop => (List.mem_append.mp hop).elim (h.decodes op)
      (FsTxn.decodes_ops hpayload op)
  · rw [hstate, hrep.tip, ← hbase]
    exact loadBase_congr (fun seq _ => congrFun hw.disk.segFiles seq) hw.disk.metaScf
  · rw [hlogOps, hops, List.append_assoc]
  · rw [hstate, hseg]
    exact hnil
  · rw [hstate]
    exact hrep.named h.named
  · rw [hstate]
    exact h.memory.replays hrep

/-- A segment carries what the state carried that it was written from. -/
theorem Carries.segment {st : DbState} (h : Carries ops st) {m : DatabaseMeta}
    (hm : st.metadata = some m) (seq : ℕ) (tip : ManifestData) :
    Carries ops ((st.segment seq m).base tip) where
  records := h.records
  indexEntries := h.indexEntries
  generators store value hv := by
    change (seedGenerators st.keyGenerators m.stores).get? store = some value
    rw [get?_seedGenerators, h.generators store value hv]
    rfl
  schema m' hm' := by
    have hs := h.schema m' hm'
    rw [hm] at hs
    exact hs

/-- Files that are not published, and a removed log or segment of an older
generation, do not matter. -/
theorem Durable.prepared (h : Durable name ops s) (hp : Prepared s s') : Durable name ops s' := by
  have hstate := hp.state
  have hlog : s'.log = s.log := by
    rw [Session.log, hstate]
    exact hp.wal
  have hlogOps : s'.logOps = s.logOps := by
    change (recoverCommittedFrames s'.log).frames.flatMap WalFrame.ops = _
    rw [hlog]
    rfl
  obtain ⟨base, below, hbase, hcarries, hops, hnil⟩ := h.base
  refine ⟨?_, ?_, ?_, ?_, ⟨base, below, ?_, hcarries, ?_, ?_⟩, ?_, ?_⟩
  · rw [hp.current, hstate]
    exact h.current
  · rw [hstate, hp.manifest]
    exact h.manifest
  · rw [hlog]
    exact h.complete
  · rw [hlogOps]
    exact h.decodes
  · rw [hstate, ← hbase]
    exact loadBase_congr hp.segFiles hp.metaScf
  · rw [hlogOps]
    exact hops
  · rw [hstate]
    exact hnil
  · rw [hstate]
    exact h.named
  · rw [hstate]
    exact h.memory

/-- The next generation, with memory behind it. -/
theorem Durable.followed (h : Durable name ops s) {m : DatabaseMeta}
    (hm : s.state.metadata = some m) (hf : Followed s m s') : Durable name ops s' := by
  obtain ⟨hstate, hswap⟩ := hf
  have htip : s'.state.tip = nextTip s.state := by
    rw [hstate]
    rfl
  have hwal : s'.state.walSeq = (nextTip s.state).walSeq := congrArg ManifestData.walSeq htip
  have hlog : s'.log = [] := by
    rw [Session.log, hwal]
    exact hswap.wal
  have hlogOps : s'.logOps = [] := logOps_nil hlog
  have hmemory : Carries ops s'.state := by
    rw [hstate]
    exact ⟨h.memory.records, h.memory.indexEntries, h.memory.generators, h.memory.schema⟩
  refine ⟨?_, ?_, ?_, ?_, ⟨_, ops, ?_, h.memory.segment hm (nextSegSeq s.state.segments)
    (nextTip s.state), ?_, ?_⟩, ?_, hmemory⟩
  · rw [hstate]
    exact hswap.current
  · rw [htip, hstate]
    exact hswap.manifest
  · rw [hlog]
    exact complete_nil
  · rw [hlogOps]
    exact fun op hop => absurd hop List.not_mem_nil
  · rw [htip]
    exact loadBase_singleton rfl hswap.segment rfl
  · rw [hlogOps, List.append_nil]
  · rw [hstate]
    exact fun hnil => absurd hnil (List.cons_ne_nil _ _)
  · rw [hstate]
    exact h.named

/-- A compaction that returns and does not lose the tip. -/
theorem Durable.compact (h : Durable name ops s) {f : CompactFaults} (hf : ¬ f.LosesTip)
    {r : Exit BackendError Unit} (hr : r ≠ .stopped) (hrun : compactNow f s = (r, s')) :
    Durable name ops s' := by
  obtain ⟨m, hm⟩ := Option.isSome_iff_exists.mp h.named
  have hends : Ends _ _ (compactNow f s) := meets_compactNow hm s rfl
  rw [hrun] at hends
  cases r with
  | done _ => exact h.followed hm hends.2
  | failed e =>
      rcases hends with (⟨-, hprep⟩ | ⟨hpub, hrep, -⟩) | ⟨-, hfollow⟩
      · exact h.prepared hprep
      · rcases hrep with ⟨-, he⟩ | ⟨err, herr, -⟩
        · cases he
        · exact absurd ⟨hpub, err, herr⟩ hf
      · exact h.followed hm hfollow
  | stopped => exact absurd rfl hr

end Steps

end BoaIdb.Fs
