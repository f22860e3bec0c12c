import BoaIdb.Fs.Commit

/-!
A commit that reports an error, seen after reopening.

Memory is never touched. On disk such a commit shows through in three ways: what it
appended stays in the log because the repair failed, and is read; the repair cuts the
log at a length that could not be read; or `meta.scf` had been replaced and nothing
that is read after it hides the new metadata.
-/

namespace BoaIdb.Fs

open OrdMap Faults

/-! ### The base under a log -/

/-- The generator that a store is seeded with. -/
def seedOf (m : DatabaseMeta) (store : StoreId) : F64Bits :=
  ((m.stores.find? (fun s => s.id = store)).map StoreMeta.keyGen).getD keyGenStart

theorem generator_freshBase (name : Utf16String) (m : DatabaseMeta) (tip : ManifestData)
    (store : StoreId) : (freshBase name (some m) tip).view.generator store = seedOf m store := by
  change ((seedGenerators .empty m.stores).get? store).getD keyGenStart = _
  rw [get?_seedGenerators, OrderedMap.get?_empty, Option.none_or]
  rfl

/-- Metadata that seeds a state without segments, behind a log: each generator that the
log leaves is as seen, and so is the schema if the log leaves it. -/
structure HiddenBy (ops : List WalOp) (m : DatabaseMeta) (v : View) : Prop where
  generators : ∀ store, LeavesGenerator store ops → seedOf m store = v.generator store
  schema : LeavesSchema ops → some (schemaOf m) = v.schema

/-- The log of a session, as it is replayed. -/
def Session.logOps (s : Session) : List WalOp := s.disk.logOps s.state.walSeq

/-- What a session in step is made of. -/
theorem InStep.base {name : Utf16String} {s : Session} (h : InStep name s) :
    ∃ base, loadBase name s.disk s.state.tip = .ok base ∧ (∀ op ∈ s.logOps, op.Decodes) ∧
      s.logOps.foldl View.apply base.view = s.state.view := by
  obtain ⟨base, hbase, hdec, hview⟩ := (reopened_eq_ok_iff h.current h.manifest).mp h.shows
  exact ⟨base, hbase, hdec, hview.symm⟩

section Replay

variable {name : Utf16String} {s s' : Session} {bytes : Bytes} {metaScf : Option DatabaseMeta}

/-- The directory of a working commit, reopened. -/
theorem Working.reopened_iff (h : InStep name s) (hw : Working s bytes metaScf s') {v : View} :
    reopened name s'.disk = .ok v ↔ ∃ base,
      loadBase name { s.disk with metaScf := metaScf } s.state.tip = .ok base ∧
      (∀ op ∈ s'.disk.logOps s.state.walSeq, op.Decodes) ∧
      v = (s'.disk.logOps s.state.walSeq).foldl View.apply base.view := by
  have hbase : loadBase name s'.disk s.state.tip =
      loadBase name { s.disk with metaScf := metaScf } s.state.tip :=
    loadBase_congr (fun seq _ => congrFun hw.disk.segFiles seq) hw.disk.metaScf
  have hcur := hw.disk.current.trans h.current
  have hman := (congrFun hw.disk.manifests _).trans h.manifest
  rw [reopened_eq_ok_iff hcur hman, hbase]
  rfl

theorem Working.logOps (hw : Working s bytes metaScf s') :
    s'.disk.logOps s.state.walSeq = (recoverCommittedFrames bytes).frames.flatMap WalFrame.ops := by
  rw [Disk.logOps, hw.disk.walBytes]

end Replay

/-! ### What recovery reads behind the log -/

/-- The operations that recovery reads of a log with these bytes behind it, and did not read
without them. -/
def Session.readBehind (s : Session) (bytes : Bytes) : List WalOp :=
  ((recoverCommittedFrames (s.log ++ bytes)).frames.drop
    (recoverCommittedFrames s.log).frames.length).flatMap WalFrame.ops

/-- The operations of a log stay in front when it grows. -/
theorem Session.ops_append (s : Session) (bytes : Bytes) :
    (recoverCommittedFrames (s.log ++ bytes)).frames.flatMap WalFrame.ops =
      s.logOps ++ s.readBehind bytes := by
  obtain ⟨more, hmore⟩ := recoverFrom_prefix s.log bytes .start
  change (recoverCommittedFrames s.log).frames ++ more =
    (recoverCommittedFrames (s.log ++ bytes)).frames at hmore
  rw [Session.readBehind, ← hmore, List.drop_left, List.flatMap_append]
  rfl

section Chain

variable {cfg : FsConfig} {t : FsTxn} {s : Session} {frames : List Bytes}

theorem frames_nil (hframes : t.frames cfg s = .ok frames) (h : t.ops = []) : frames = [] := by
  rw [FsTxn.frames, h] at hframes
  exact (Except.ok.inj hframes).symm

/-- The whole chain behind a complete log: the log's operations, then the transaction's. -/
theorem ops_whole (hframes : t.frames cfg s = .ok frames) (hread : ReadableFrames frames)
    {bytes : Bytes} (hc : Complete bytes) :
    (recoverCommittedFrames (bytes ++ frames.flatten)).frames.flatMap WalFrame.ops =
      (recoverCommittedFrames bytes).frames.flatMap WalFrame.ops ++ t.ops := by
  by_cases hops : t.ops = []
  · rw [frames_nil hframes hops, hops]
    simp
  · rw [recover_append hc, List.flatMap_append, (encodesTxn hops hread hframes).whole.2.1]

/-- Behind a complete log recovery reads the whole chain, if the format allows its frames, and
nothing of a part of it. -/
theorem readBehind_complete (hframes : t.frames cfg s = .ok frames) (hc : Complete s.log)
    {cut : Bytes} (hcut : cut <+: frames.flatten) :
    s.readBehind cut = if cut = frames.flatten ∧ ReadableFrames frames then t.ops else [] := by
  have hread : s.readBehind cut = (recoverCommittedFrames cut).frames.flatMap WalFrame.ops := by
    rw [Session.readBehind, recover_append hc, List.drop_left]
  rw [hread]
  split
  · rename_i hwhole
    by_cases hops : t.ops = []
    · rw [hwhole.1, frames_nil hframes hops, hops]
      rfl
    · rw [hwhole.1, (encodesTxn hops hwhole.2 hframes).whole.2.1]
  · rename_i hnot
    have hnone : (recoverCommittedFrames cut).frames = [] := by
      by_cases hallowed : ReadableFrames frames
      · have hne : cut ≠ frames.flatten := fun heq => hnot ⟨heq, hallowed⟩
        by_cases hops : t.ops = []
        · rw [frames_nil hframes hops] at hcut hne
          exact absurd (List.prefix_nil.mp hcut) hne
        · rw [(encodesTxn hops hallowed hframes).cut cut hcut hne]
      · obtain ⟨rest, hrest⟩ := hcut
        have hprefix := recoverFrom_prefix cut rest .start
        change (recoverCommittedFrames cut).frames <+:
          (recoverCommittedFrames (cut ++ rest)).frames at hprefix
        have hunread := recover_unread cfg.fits hframes hallowed []
        rw [List.append_nil] at hunread
        rw [hrest, hunread] at hprefix
        exact List.prefix_nil.mp hprefix
    rw [hnone]
    rfl

/-- Behind a complete log what a failed commit leaves is harmless exactly if it is not a whole
chain of frames that the format allows, or the transaction changes nothing. -/
theorem readBehind_changesNothing_iff (hframes : t.frames cfg s = .ok frames)
    (hc : Complete s.log) (f : CommitFaults) (v : View) :
    let left := (f.reach t.walSync 0 frames).1
    ((∀ op ∈ s.readBehind left, op.Decodes) ∧ (s.readBehind left).foldl View.apply v = v) ↔
      (left = frames.flatten → ReadableFrames frames → t.ChangesNothing v) := by
  intro left
  have hpayload := FsTxn.payloadMeta_of_encode hframes
  rw [readBehind_complete hframes hc (reach_cut f t.walSync 0 frames)]
  split
  · rename_i hwhole
    rw [FsTxn.foldl_ops hpayload, FsTxn.effect_eq_iff, and_iff_right (FsTxn.decodes_ops hpayload)]
    exact ⟨fun h _ _ => h, fun h => h hwhole.1 hwhole.2⟩
  · rename_i hnot
    exact iff_of_true ⟨fun op hop => absurd hop List.not_mem_nil, rfl⟩
      fun hwhole hread => absurd ⟨hwhole, hread⟩ hnot

end Chain

/-! ### When an error is harmless -/

/-- When a failed commit does not show after reopening. `leaked` says that the new
metadata seeds the reopened state. -/
def CommitFaults.Harmless (f : CommitFaults) (cfg : FsConfig) (name : Utf16String) (t : FsTxn)
    (s : Session) : Prop :=
  match t.frames cfg s with
  | .error _ => True
  | .ok frames =>
      let leaked := f.Leaks t frames ∧ s.state.segments = []
      if f.truncate = .ok then
        if f.metadataLen = .ok then
          -- the log is as it was
          leaked → HiddenBy s.logOps t.commitMeta s.state.view
        else
          -- the log is empty: the files under it have to show the database alone
          ∃ base, loadBase name { s.disk with
            metaScf := if f.Leaks t frames then some t.commitMeta else s.disk.metaScf }
              s.state.tip = .ok base ∧ base.view = s.state.view
      else
        -- the log keeps what was appended: what recovery now reads of it changes nothing
        let read := s.readBehind (f.reach t.walSync 0 frames).1
        ((∀ op ∈ read, op.Decodes) ∧ read.foldl View.apply s.state.view = s.state.view) ∧
          (leaked → HiddenBy (s.logOps ++ read) t.commitMeta s.state.view)

section Errors

variable {name : Utf16String} {cfg : FsConfig} {t : FsTxn} {f : CommitFaults} {s s' : Session}
  {frames : List Bytes}

/-- The state under the log when the new metadata seeds it: no rows, and its own
generators and schema. -/
theorem leaked_base {base : DbState} (hbase : loadBase name s.disk s.state.tip = .ok base)
    (hseg : s.state.segments = []) (m : DatabaseMeta) : ∃ base',
      loadBase name { s.disk with metaScf := some m } s.state.tip = .ok base' ∧
      base'.view.records = base.view.records ∧ base'.view.indexEntries = base.view.indexEntries ∧
      (∀ store, base'.view.generator store = seedOf m store) ∧
      base'.view.schema = some (schemaOf m) := by
  have hnil : s.state.tip.segments = [] := hseg
  rw [loadBase_nil hnil] at hbase
  obtain rfl := Except.ok.inj hbase
  exact ⟨_, loadBase_nil hnil, rfl, rfl, generator_freshBase name m _, rfl⟩

/-- With the log `ops` over metadata that may have leaked, the old view shows exactly
when what leaked is hidden. -/
theorem shows_iff_hidden {ops : List WalOp} {base : DbState} {leaks : Prop} [Decidable leaks]
    {m : DatabaseMeta}
    (hbase : loadBase name s.disk s.state.tip = .ok base) (hdec : ∀ op ∈ ops, op.Decodes)
    (hview : ops.foldl View.apply base.view = s.state.view) :
    (∃ base', loadBase name { s.disk with metaScf := if leaks then some m else s.disk.metaScf }
        s.state.tip = .ok base' ∧ (∀ op ∈ ops, op.Decodes) ∧
        s.state.view = ops.foldl View.apply base'.view) ↔
      (leaks ∧ s.state.segments = [] → HiddenBy ops m s.state.view) := by
  by_cases hleaks : leaks ∧ s.state.segments = []
  · obtain ⟨hl, hseg⟩ := hleaks
    obtain ⟨base', hbase', hr, hi, hg, hs⟩ := leaked_base hbase hseg m
    have hiff := foldl_apply_eq_iff_hidden hr hi hdec hview
    rw [hs] at hiff
    simp only [hg] at hiff
    rw [if_pos hl, hbase']
    simp only [Except.ok.injEq, exists_eq_left', hl, hseg, and_self, true_implies]
    rw [eq_comm, and_iff_right hdec, hiff]
    exact ⟨fun h => ⟨h.1, h.2⟩, fun h => ⟨h.generators, h.schema⟩⟩
  · have hsame : loadBase name { s.disk with metaScf := if leaks then some m else s.disk.metaScf }
        s.state.tip = .ok base := by
      rw [← hbase]
      split
      next hl => exact loadBase_congr_of_segments (fun _ _ => rfl) fun hseg => hleaks ⟨hl, hseg⟩
      next => rfl
    exact ⟨fun _ h => absurd h hleaks, fun _ => ⟨base, hsame, hdec, hview.symm⟩⟩

/-- The directory that a failed commit leaves behind. -/
theorem FailedCommit.shows_iff (h : InStep name s) (hfailed : FailedCommit cfg t f s s') :
    s'.state = s.state ∧ (reopened name s'.disk = .ok s.state.view ↔ f.Harmless cfg name t s) := by
  obtain ⟨base, hbase, hdec, hview⟩ := h.base
  unfold FailedCommit at hfailed
  unfold CommitFaults.Harmless
  cases hframes : t.frames cfg s with
  | error err =>
      rw [hframes] at hfailed
      obtain rfl : s' = s := hfailed
      exact ⟨rfl, fun _ => trivial, fun _ => h.shows⟩
  | ok frames =>
      rw [hframes] at hfailed
      replace hfailed := hfailed.2
      refine ⟨hfailed.state, ?_⟩
      rw [hfailed.reopened_iff h, hfailed.logOps]
      simp only
      by_cases htruncate : f.truncate = .ok
      · rw [CommitFaults.leftLog, if_pos htruncate, if_pos htruncate]
        by_cases hlen : f.metadataLen = .ok
        · rw [CommitFaults.knownLen, if_pos hlen, if_pos hlen, List.take_left]
          exact shows_iff_hidden hbase hdec hview
        · rw [CommitFaults.knownLen, if_neg hlen, if_neg hlen, List.take_zero]
          refine exists_congr fun base' => and_congr_right fun _ => ?_
          exact ⟨fun hv => hv.2.symm, fun hv =>
            ⟨fun op hop => absurd hop List.not_mem_nil, hv.symm⟩⟩
      · rw [CommitFaults.leftLog, if_neg htruncate, if_neg htruncate, Session.ops_append]
        generalize s.readBehind (f.reach t.walSync 0 frames).1 = read
        by_cases hread : ∀ op ∈ read, op.Decodes
        · have hdec' : ∀ op ∈ s.logOps ++ read, op.Decodes := fun op hop =>
            (List.mem_append.mp hop).elim (hdec op) (hread op)
          by_cases hnothing : read.foldl View.apply s.state.view = s.state.view
          · have hview' : (s.logOps ++ read).foldl View.apply base.view = s.state.view := by
              rw [List.foldl_append, hview, hnothing]
            rw [and_iff_right ⟨hread, hnothing⟩]
            exact shows_iff_hidden hbase hdec' hview'
          · refine iff_of_false ?_ fun hc => hnothing hc.1.2
            rintro ⟨base', -, -, hshow⟩
            rw [List.foldl_append] at hshow
            refine hnothing ?_
            rw [hshow, foldl_apply_again]
        · refine iff_of_false ?_ fun hc => hread hc.1.1
          rintro ⟨base', -, hall, -⟩
          exact hread fun op hop => hall op (List.mem_append_right _ hop)

end Errors

/-- **When a commit that reports an error leaves no trace.** From a database in step with its
directory: the committed state is untouched in any case, and a reopened directory shows what
it showed before exactly under `Harmless`. -/
theorem commit_err_iff {name : Utf16String} {cfg : FsConfig} {t : FsTxn} {f : CommitFaults}
    {s : Session} {e : BackendError} (h : InStep name s)
    (herr : (t.commit cfg f s).1 = .failed e) :
    ((t.commit cfg f s).2.state = s.state ∧
      reopened name (t.commit cfg f s).2.disk = .ok s.state.view) ↔ f.Harmless cfg name t s := by
  have hmode : t.mode ≠ .readOnly := by
    intro hro
    rw [FsTxn.commit, if_pos hro] at herr
    cases herr
  have hends : Ends _ _ (t.commit cfg f s) := meets_commit hmode s rfl
  rcases hrun : t.commit cfg f s with ⟨_ | e' | _, s'⟩
  · rw [hrun] at herr
    cases herr
  · rw [hrun] at hends
    obtain ⟨hstate, hshows⟩ := (hends rfl).shows_iff h
    exact ⟨fun hh => hshows.mp hh.2, fun hh => ⟨hstate, hshows.mpr hh⟩⟩
  · rw [hrun] at herr
    cases herr

/-- The configuration the factory starts from. -/
def defaultConfig : FsConfig := ⟨maxFramePayloadLimit, ⟨64 * 1024 * 1024, 10000⟩, limit_fits⟩

/-- A strict upgrade of a new database to version 1. -/
def strictUpgrade : FsTxn :=
  { FsTxn.begin .versionChange [] (emptyMeta []) .strict with
    metadata := { emptyMeta [] with version := 1 }
    schemaDirty := true
    clean := by simp
    guarded := fun h => absurd rfl h
    seeded := by simp [emptyMeta] }

/-- The first append finds the disk full. -/
def appendFails : CommitFaults := { append := fun _ => { append := .fail .storageFull } }

/-- The upgrade whose append fails leaves no trace. -/
theorem commit_err_appendFails :
    (strictUpgrade.commit defaultConfig appendFails (freshSession [])).2.state =
        (freshSession []).state ∧
      reopened [] (strictUpgrade.commit defaultConfig appendFails (freshSession [])).2.disk =
        .ok (freshSession []).state.view := by
  have herr : (strictUpgrade.commit defaultConfig appendFails (freshSession [])).1 =
      .failed (.quotaExceeded 0 0) := rfl
  refine (commit_err_iff (inStep_fresh []) herr).mpr ?_
  unfold CommitFaults.Harmless
  cases hframes : strictUpgrade.frames defaultConfig (freshSession []) with
  | error err => trivial
  | ok frames =>
      rintro ⟨⟨-, hreach, -⟩, -⟩
      cases frames with
      | nil => cases hframes
      | cons _ _ => cases hreach

/-- The directory sync behind the rename of `meta.scf` fails. -/
def metaSyncFails : CommitFaults :=
  { metaScf := { syncDir := .fail (.other "fault: EIO") } }

/-- The upgrade whose `meta.scf` meets that fault: the commit reports the error and the
version is there after reopening. -/
theorem commit_metaSyncFails :
    (FsTxn.begin .versionChange [] (emptyMeta []) .strict).setVersion 1 = .ok strictUpgrade ∧
      InStep [] (freshSession []) ∧ Complete (freshSession []).log ∧
      (strictUpgrade.commit defaultConfig metaSyncFails (freshSession [])).1 =
        .failed (.io "sync dir: fault: EIO") ∧
      (freshSession []).state.view.schema.map DatabaseMeta.version = some 0 ∧
      (reopened [] (strictUpgrade.commit defaultConfig metaSyncFails (freshSession [])).2.disk).map
        (fun v => v.schema.map DatabaseMeta.version) = .ok (some 1) :=
  ⟨rfl, inStep_fresh [], complete_nil, rfl, rfl, rfl⟩

end BoaIdb.Fs
