import BoaIdb.Fs.Overlap
import BoaIdb.Lib.Run

/-!
The replay of a handle's log against what its commits did in memory.

As long as the format allows every frame, records, index entries and generators come out the
same. The metadata of the state in memory are those of the last transaction, cloned when it
began, while the log names only metadata that were changed: the two part when a transaction
that changes none commits over metadata that it did not begin with. Behind a frame that the
format does not allow nothing is replayed.
-/

namespace BoaIdb.Fs

open OrdMap Runs

/-! ### The metadata through a replay -/

/-- The metadata through an operation, with their generator fields. -/
def WalOp.onMetadata (m : Option DatabaseMeta) : WalOp → Option DatabaseMeta
  | .keyGenSet store valueBits => m.map (fun m => setKeyGen m store valueBits)
  | .metaReplace bytes =>
      match decodeMeta bytes with
      | .ok m' => some m'
      | .error _ => m
  | _ => m

theorem metadata_applyOp {s s' : DbState} {op : WalOp} (h : applyOp s op = .ok s') :
    s'.metadata = op.onMetadata s.metadata := by
  cases op with
  | metaReplace bytes =>
      cases hm : decodeMeta bytes with
      | error e => simp [applyOp, hm, bind, Except.bind] at h
      | ok m =>
          simp only [applyOp, hm, bind, Except.bind, Except.ok.injEq] at h
          rw [← h, WalOp.onMetadata, hm]
  | _ =>
      simp only [applyOp, Except.ok.injEq] at h
      rw [← h]
      rfl

theorem metadata_applyOps {s s' : DbState} {ops : List WalOp} (h : applyOps s ops = .ok s') :
    s'.metadata = ops.foldl WalOp.onMetadata s.metadata := by
  induction ops generalizing s with
  | nil =>
      obtain rfl := Except.ok.inj h
      rfl
  | cons op ops ih =>
      cases hop : applyOp s op with
      | error e => simp [applyOps, hop, bind, Except.bind] at h
      | ok s₁ =>
          have hrest : applyOps s₁ ops = .ok s' := by
            simpa [applyOps, hop, bind, Except.bind] using h
          rw [List.foldl_cons, ← metadata_applyOp hop]
          exact ih hrest

theorem metadata_applyFrames {s s' : DbState} {frames : List WalFrame}
    (h : applyFrames s frames = .ok s') :
    s'.metadata = (frames.flatMap WalFrame.ops).foldl WalOp.onMetadata s.metadata := by
  induction frames generalizing s with
  | nil =>
      obtain rfl := Except.ok.inj h
      rfl
  | cons frame frames ih =>
      cases hops : applyOps s frame.ops with
      | error e => simp [applyFrames, hops, bind, Except.bind] at h
      | ok s₁ =>
          have hrest : applyFrames
              { s₁ with nextTxnSeq := max s₁.nextTxnSeq (saturatingSucc frame.txnSeq) } frames =
                .ok s' := by
            simpa [applyFrames, hops, bind, Except.bind] using h
          rw [List.flatMap_cons, List.foldl_append, ← metadata_applyOps hops, ih hrest]

theorem applyFrames_append {s s₁ s₂ : DbState} {frames frames' : List WalFrame}
    (h : applyFrames s frames = .ok s₁) (h' : applyFrames s₁ frames' = .ok s₂) :
    applyFrames s (frames ++ frames') = .ok s₂ := by
  induction frames generalizing s with
  | nil =>
      obtain rfl := Except.ok.inj h
      exact h'
  | cons frame frames ih =>
      cases hops : applyOps s frame.ops with
      | error e => simp [applyFrames, hops, bind, Except.bind] at h
      | ok s₀ =>
          simp only [applyFrames, hops, bind, Except.bind, List.cons_append] at h ⊢
          exact ih h

theorem onMetadata_of_leaves {ops : List WalOp}
    (h : ∀ op ∈ ops, ∀ m, WalOp.onMetadata m op = m) (m : Option DatabaseMeta) :
    ops.foldl WalOp.onMetadata m = m := by
  induction ops with
  | nil => rfl
  | cons op ops ih =>
      rw [List.foldl_cons, h op (by simp)]
      exact ih fun op' hop' => h op' (.tail _ hop')

/-- A transaction's operations lead to its metadata if it changed any, and leave them
otherwise. -/
theorem FsTxn.onMetadata_ops {t : FsTxn} (h : t.PayloadMeta) (m : Option DatabaseMeta) :
    t.ops.foldl WalOp.onMetadata m = if t.metaDirty then some t.commitMeta else m := by
  unfold FsTxn.ops FsTxn.buildCommitPayload
  cases hdirty : t.metaDirty with
  | true =>
      simp only [if_true, List.foldl_append, List.foldl_cons, List.foldl_nil, WalOp.onMetadata,
        h hdirty]
  | false =>
      have hnone : t.pendingKeyGenerators.entries = [] := by
        have hor := Bool.or_eq_false_iff.mp hdirty
        simpa using hor.2
      simp only [Bool.false_eq_true, if_false, List.append_nil]
      refine onMetadata_of_leaves (fun op hop m => ?_) m
      simp only [FsTxn.dataOps, hnone, List.map_nil, List.append_nil, List.mem_append,
        List.mem_map] at hop
      rcases hop with ⟨⟨k, _ | val⟩, -, rfl⟩ | ⟨⟨k, _ | _⟩, -, rfl⟩ <;> rfl

/-! ### Runs of commits -/

/-- A handle: the state it was opened with, the state in memory, the log written since, and
the transactions in flight. -/
structure LogWorld where
  base : DbState
  state : DbState
  wal : Bytes
  active : List FsTxn

inductive LogAction
  | begin (mode : TxnMode) (scope : List StoreId) (durability : Durability)
  /-- Any operations of a transaction between its begin and its end. -/
  | edit (t t' : FsTxn)
  | commit (t : FsTxn)
  | abort (t : FsTxn)

/-- Transactions begin with the committed metadata; a commit encodes its payload behind the
log and applies its pending changes to the state. -/
inductive LogStep (cfg : FsConfig) : LogWorld → LogAction → LogWorld → Prop
  | begin {w : LogWorld} {mode : TxnMode} {scope : List StoreId} {durability : Durability}
      {m : DatabaseMeta} (hm : w.state.metadata = some m) :
      LogStep cfg w (.begin mode scope durability)
        { w with active := w.active ++ [FsTxn.begin mode scope m durability] }
  | edit {w : LogWorld} {t t' : FsTxn} (before after : List FsTxn)
      (hactive : w.active = before ++ t :: after) (hmode : t'.mode = t.mode)
      (hbegun : t'.begun = t.begun) :
      LogStep cfg w (.edit t t') { w with active := before ++ t' :: after }
  | commit {w : LogWorld} {t : FsTxn} {frames : List Bytes} (before after : List FsTxn)
      (hactive : w.active = before ++ t :: after) (hmode : t.mode ≠ .readOnly)
      (hframes : encodeTxnFramesLimited w.state.nextTxnSeq t.ops cfg.maxFramePayload = .ok frames) :
      LogStep cfg w (.commit t)
        ⟨w.base, t.applyPendingToState t.commitMeta w.state.nextTxnSeq (!t.ops.isEmpty) w.state,
          w.wal ++ frames.flatten, before ++ after⟩
  | abort {w : LogWorld} {t : FsTxn} (before after : List FsTxn)
      (hactive : w.active = before ++ t :: after) :
      LogStep cfg w (.abort t) { w with active := before ++ after }

/-- Replaying the log onto the base. -/
def LogWorld.replayed (w : LogWorld) : Except BackendError DbState :=
  applyFrames w.base (recoverCommittedFrames w.wal).frames

/-- The same records, index entries and generators; `key_gen_current` reads the latter. -/
structure SameRows (s s' : DbState) : Prop where
  records : s.records = s'.records
  indexEntries : s.indexEntries = s'.indexEntries
  keyGenerators : s.keyGenerators = s'.keyGenerators
  generator : ∀ store, s.generator store = s'.generator store

theorem SameRows.symm {s s' : DbState} (h : SameRows s s') : SameRows s' s :=
  ⟨h.records.symm, h.indexEntries.symm, h.keyGenerators.symm, fun store => (h.generator store).symm⟩

theorem SameRows.trans {s s' s'' : DbState} (h : SameRows s s') (h' : SameRows s' s'') :
    SameRows s s'' :=
  ⟨h.records.trans h'.records, h.indexEntries.trans h'.indexEntries,
    h.keyGenerators.trans h'.keyGenerators,
    fun store => (h.generator store).trans (h'.generator store)⟩

/-- The replay succeeds and shows the rows of the state in memory. -/
def LogWorld.RowsRefined (w : LogWorld) : Prop := ∃ s, w.replayed = .ok s ∧ SameRows s w.state

/-- The replay leads to the rows and the metadata of the state in memory. -/
def LogWorld.Refined (w : LogWorld) : Prop :=
  ∃ s, w.replayed = .ok s ∧ SameRows s w.state ∧ s.metadata = w.state.metadata

/-- A transaction all of whose pending changes the state has already. -/
structure FsTxn.Redundant (t : FsTxn) (s : DbState) : Prop where
  records : ∀ k slot, t.pendingRecords.get? k = some slot → s.records.get? k = slot
  indexEntries : ∀ k present, t.pendingIndexEntries.get? k = some present →
    s.indexEntries.get? k = presentSlot present
  generators : ∀ store value, t.pendingKeyGenerators.get? store = some value →
    s.keyGenerators.get? store = some value
  metadata : s.metadata = some t.commitMeta

/-- A commit that is read back sets a generator or changes the schema, or finds the metadata it
began with; one that is not, because a frame of it or of an earlier one is too long for the
format, changes nothing. -/
def LogAction.KeepsRefined (cfg : FsConfig) (w : LogWorld) : LogAction → Prop
  | .commit t => ∀ frames,
      encodeTxnFramesLimited w.state.nextTxnSeq t.ops cfg.maxFramePayload = .ok frames →
      if Complete w.wal ∧ ReadableFrames frames then
        t.metaDirty = false → w.state.metadata = some t.begun
      else t.Redundant w.state
  | _ => True

/-- The format allows the frames of a commit. -/
def LogAction.Readable (cfg : FsConfig) (w : LogWorld) : LogAction → Prop
  | .commit t => ∀ frames,
      encodeTxnFramesLimited w.state.nextTxnSeq t.ops cfg.maxFramePayload = .ok frames →
      ReadableFrames frames
  | _ => True

theorem LogAction.readable_of_le {cfg : FsConfig}
    (hlimit : cfg.maxFramePayload ≤ maxFramePayloadLimit) (w : LogWorld) (a : LogAction) :
    a.Readable cfg w := by
  cases a with
  | commit t => exact fun frames hframes => readableFrames_of_le hlimit hframes
  | _ => trivial

/-- What a run of such commits keeps: the log is complete, and replays to the rows in memory. -/
structure LogWorld.Inv (w : LogWorld) : Prop where
  complete : Complete w.wal
  rows : w.RowsRefined

section Steps

variable {cfg : FsConfig} {w w' : LogWorld} {a : LogAction} {t : FsTxn} {s : DbState}
  {frames : List Bytes} {txnSeq : UInt64}

/-- The encoding of a transaction is a complete log of its operations. -/
theorem recover_frames
    (h : encodeTxnFramesLimited txnSeq t.ops cfg.maxFramePayload = .ok frames)
    (hread : ReadableFrames frames) :
    Complete frames.flatten ∧
      (recoverCommittedFrames frames.flatten).frames.flatMap WalFrame.ops = t.ops := by
  by_cases hops : t.ops = []
  · rw [hops] at h ⊢
    obtain rfl : [] = frames := Except.ok.inj h
    exact ⟨complete_nil, rfl⟩
  · obtain ⟨hcomplete, hflat, -⟩ := (encodesTxn hops hread h).whole
    exact ⟨hcomplete, hflat⟩

/-- Replaying the frames of a commit: the rows move as in memory, the metadata as the
operations say. -/
theorem replay_commit (hsame : SameRows s w.state)
    (h : encodeTxnFramesLimited txnSeq t.ops cfg.maxFramePayload = .ok frames)
    (hread : ReadableFrames frames) (m : DatabaseMeta) (bumpSeq : Bool) :
    ∃ s', applyFrames s (recoverCommittedFrames frames.flatten).frames = .ok s' ∧
      SameRows s' (t.applyPendingToState m txnSeq bumpSeq w.state) ∧
      s'.metadata = if t.metaDirty then some t.commitMeta else s.metadata := by
  have hpayload := FsTxn.payloadMeta_of_encode h
  obtain ⟨-, hflat⟩ := recover_frames h hread
  have hdecodes : ∀ op ∈ (recoverCommittedFrames frames.flatten).frames.flatMap WalFrame.ops,
      op.Decodes := by
    rw [hflat]
    exact FsTxn.decodes_ops hpayload
  obtain ⟨s', hrun, hreplays⟩ := applyFrames_ok (s := s) hdecodes
  rw [hflat] at hreplays
  have hview : s'.view = t.effect s.view := hreplays.view.trans (FsTxn.foldl_ops hpayload s.view)
  have hgenerators : s'.keyGenerators =
      w.state.keyGenerators.merge some t.pendingKeyGenerators := by
    ext1 store
    rw [hreplays.generators, hsame.keyGenerators, FsTxn.foldl_onGenerator_ops]
  refine ⟨s', hrun, ⟨?_, ?_, hgenerators, fun store => ?_⟩, ?_⟩
  · have hrecords : s'.records = s.records.merge id t.pendingRecords :=
      congrArg View.records hview
    rw [hrecords, hsame.records]
    rfl
  · have hindex : s'.indexEntries = s.indexEntries.merge FsTxn.presentSlot t.pendingIndexEntries :=
      congrArg View.indexEntries hview
    rw [hindex, hsame.indexEntries]
    rfl
  · rw [DbState.generator, hgenerators]
    rfl
  · rw [metadata_applyFrames hrun, hflat, FsTxn.onMetadata_ops hpayload]

/-- The replay of a longer log. -/
theorem LogWorld.replayed_append (hcomplete : Complete w.wal) {s' : DbState} {rest : Bytes}
    {state : DbState} {active : List FsTxn} (hs : w.replayed = .ok s)
    (hrest : applyFrames s (recoverCommittedFrames rest).frames = .ok s') :
    LogWorld.replayed ⟨w.base, state, w.wal ++ rest, active⟩ = .ok s' := by
  change applyFrames w.base (recoverCommittedFrames (w.wal ++ rest)).frames = _
  rw [recover_append hcomplete]
  exact applyFrames_append hs hrest

theorem LogWorld.Inv.step (h : w.Inv) (hreadable : a.Readable cfg w)
    (hstep : LogStep cfg w a w') : w'.Inv := by
  cases hstep with
  | begin hm => exact ⟨h.complete, h.rows⟩
  | edit before after hactive hmode hbegun => exact ⟨h.complete, h.rows⟩
  | abort before after hactive => exact ⟨h.complete, h.rows⟩
  | @commit t frames before after hactive hmode hframes =>
      have hread := hreadable frames hframes
      obtain ⟨s, hs, hsame⟩ := h.rows
      obtain ⟨s', hrun, hsame', -⟩ :=
        replay_commit hsame hframes hread t.commitMeta (!t.ops.isEmpty)
      exact ⟨h.complete.append (recover_frames hframes hread).1, s',
        LogWorld.replayed_append h.complete hs hrun, hsame'⟩

/-- The commit of a transaction keeps rows and metadata exactly if it changes nothing. -/
theorem sameRows_commit_iff (m : DatabaseMeta) (bumpSeq : Bool) :
    (SameRows s (t.applyPendingToState m txnSeq bumpSeq s) ∧ s.metadata = some t.commitMeta) ↔
      t.Redundant s := by
  constructor
  · rintro ⟨hsame, hmeta⟩
    refine ⟨fun k slot hk => ?_, fun k present hk => ?_, fun store value hk => ?_, hmeta⟩
    · have hget := congrArg (fun records => records.get? k) hsame.records
      simpa [FsTxn.applyPendingToState, OrderedMap.get?_merge, hk] using hget
    · have hget := congrArg (fun entries => entries.get? k) hsame.indexEntries
      simpa [FsTxn.applyPendingToState, OrderedMap.get?_merge, hk] using hget
    · have hget := congrArg (fun generators => generators.get? store) hsame.keyGenerators
      simpa [FsTxn.applyPendingToState, OrderedMap.get?_merge, hk] using hget
  · intro h
    have hgenerators : s.keyGenerators = s.keyGenerators.merge some t.pendingKeyGenerators := by
      refine OrderedMap.ext_get? fun store => ?_
      rw [OrderedMap.get?_merge]
      cases hk : t.pendingKeyGenerators.get? store with
      | none => rfl
      | some value => exact h.generators store value hk
    refine ⟨⟨OrderedMap.ext_get? fun k => ?_, OrderedMap.ext_get? fun k => ?_, hgenerators,
      fun store => ?_⟩, h.metadata⟩
    · change _ = (s.records.merge id t.pendingRecords).get? k
      rw [OrderedMap.get?_merge]
      cases hk : t.pendingRecords.get? k with
      | none => rfl
      | some slot => exact h.records k slot hk
    · change _ = (s.indexEntries.merge FsTxn.presentSlot t.pendingIndexEntries).get? k
      rw [OrderedMap.get?_merge]
      cases hk : t.pendingIndexEntries.get? k with
      | none => rfl
      | some present => exact h.indexEntries k present hk
    · change (s.keyGenerators.get? store).getD keyGenStart =
        ((s.keyGenerators.merge some t.pendingKeyGenerators).get? store).getD keyGenStart
      rw [← hgenerators]

/-- What every run keeps of its log: it is read to its end, or nothing that is appended is. -/
theorem ends_step (h : Complete w.wal ∨ Closed w.wal) (hstep : LogStep cfg w a w') :
    Complete w'.wal ∨ Closed w'.wal := by
  cases hstep with
  | begin hm => exact h
  | edit before after hactive hmode hbegun => exact h
  | abort before after hactive => exact h
  | @commit t frames before after hactive hmode hframes =>
      rcases h with hcomplete | hclosed
      · by_cases hread : ReadableFrames frames
        · exact .inl (hcomplete.append (recover_frames hframes hread).1)
        · exact .inr (hcomplete.closed cfg.fits hframes hread).2
      · exact .inr (hclosed.append _)

/-- The condition on a commit, by the frames that it is encoded into. -/
theorem keepsRefined_commit_iff (hframes : encodeTxnFramesLimited w.state.nextTxnSeq t.ops
    cfg.maxFramePayload = .ok frames) : LogAction.KeepsRefined cfg w (.commit t) ↔
      if Complete w.wal ∧ ReadableFrames frames then
        t.metaDirty = false → w.state.metadata = some t.begun
      else t.Redundant w.state := by
  refine ⟨fun h => h frames hframes, fun h frames' hframes' => ?_⟩
  obtain rfl := Except.ok.inj (hframes.symm.trans hframes')
  exact h

theorem keepsRefined_read_iff (hcomplete : Complete w.wal) (hread : ReadableFrames frames)
    (hframes : encodeTxnFramesLimited w.state.nextTxnSeq t.ops cfg.maxFramePayload = .ok frames) :
    LogAction.KeepsRefined cfg w (.commit t) ↔
      (t.metaDirty = false → w.state.metadata = some t.begun) := by
  rw [keepsRefined_commit_iff hframes, if_pos ⟨hcomplete, hread⟩]

/-- A step keeps rows and metadata in step exactly under its condition. -/
theorem refined_step_iff (h : Complete w.wal ∨ Closed w.wal) (hrefined : w.Refined)
    (hstep : LogStep cfg w a w') : w'.Refined ↔ a.KeepsRefined cfg w := by
  cases hstep with
  | begin hm => exact iff_of_true hrefined trivial
  | edit before after hactive hmode hbegun => exact iff_of_true hrefined trivial
  | abort before after hactive => exact iff_of_true hrefined trivial
  | @commit t frames before after hactive hmode hframes =>
      obtain ⟨s, hs, hsame, hmeta⟩ := hrefined
      rw [keepsRefined_commit_iff hframes]
      split
      · rename_i hreads
        obtain ⟨s', hrun, hsame', hmeta'⟩ :=
          replay_commit hsame hframes hreads.2 t.commitMeta (!t.ops.isEmpty)
        have hreplayed : LogWorld.replayed ⟨w.base,
            t.applyPendingToState t.commitMeta w.state.nextTxnSeq (!t.ops.isEmpty) w.state, _,
            before ++ after⟩ = .ok s' := LogWorld.replayed_append hreads.1 hs hrun
        rw [hmeta] at hmeta'
        have hiff : s'.metadata = some t.commitMeta ↔
            (t.metaDirty = false → w.state.metadata = some t.begun) := by
          rw [hmeta']
          cases hdirty : t.metaDirty with
          | true => simp
          | false =>
              have hcommit : t.commitMeta = t.begun := by
                have hor := Bool.or_eq_false_iff.mp hdirty
                have hnone : t.pendingKeyGenerators.entries = [] := by simpa using hor.2
                rw [FsTxn.commitMeta, hnone]
                exact metadata_of_not_dirty hdirty
              rw [hcommit]
              simp
        constructor
        · rintro ⟨s'', hs'', -, hmeta''⟩
          obtain rfl : s' = s'' := Except.ok.inj (hreplayed.symm.trans hs'')
          exact hiff.mp hmeta''
        · exact fun hkeeps => ⟨s', hreplayed, hsame', hiff.mpr hkeeps⟩
      · rename_i hreads
        -- the replay ends where it ended before
        have hunread : recoverCommittedFrames (w.wal ++ frames.flatten) =
            recoverCommittedFrames w.wal := by
          rcases h with hcomplete | hclosed
          · exact (hcomplete.closed cfg.fits hframes fun hread => hreads ⟨hcomplete, hread⟩).1
          · exact hclosed.unread _
        have hreplayed : LogWorld.replayed ⟨w.base,
            t.applyPendingToState t.commitMeta w.state.nextTxnSeq (!t.ops.isEmpty) w.state,
            w.wal ++ frames.flatten, before ++ after⟩ = .ok s := by
          rw [LogWorld.replayed, hunread]
          exact hs
        have hiff : (SameRows w.state (t.applyPendingToState t.commitMeta w.state.nextTxnSeq
            (!t.ops.isEmpty) w.state) ∧ w.state.metadata = some t.commitMeta) ↔
              t.Redundant w.state := sameRows_commit_iff t.commitMeta (!t.ops.isEmpty)
        rw [← hiff]
        constructor
        · rintro ⟨s'', hs'', hsame'', hmeta''⟩
          obtain rfl : s = s'' := Except.ok.inj (hreplayed.symm.trans hs'')
          exact ⟨hsame.symm.trans hsame'', hmeta.symm.trans hmeta''⟩
        · rintro ⟨hsame'', hmeta''⟩
          exact ⟨s, hreplayed, hsame.trans hsame'', hmeta.trans hmeta''⟩

end Steps

/-- A handle behind its opening. -/
structure LogWorld.Start (w : LogWorld) : Prop where
  state : w.state = w.base
  wal : w.wal = []
  active : w.active = []

theorem LogWorld.Start.refined {w : LogWorld} (h : w.Start) : w.Refined := by
  refine ⟨w.base, ?_, ?_, by rw [h.state]⟩
  · rw [LogWorld.replayed, h.wal]
    rfl
  · rw [h.state]
    exact ⟨rfl, rfl, rfl, fun _ => rfl⟩

theorem LogWorld.Start.inv {w : LogWorld} (h : w.Start) : w.Inv := by
  obtain ⟨s, hs, hsame, -⟩ := h.refined
  refine ⟨?_, s, hs, hsame⟩
  rw [h.wal]
  exact complete_nil

/-- **The replay of the log refines the commits in memory.** As long as the format allows the
frames of every commit, records, index entries and generators agree; rows and metadata agree
throughout a run exactly if every commit of it meets its condition. -/
theorem replay_refines_iff {cfg : FsConfig} {w₀ w : LogWorld} {taken : List (LogWorld × LogAction)}
    (hstart : w₀.Start) (h : Run (LogStep cfg) w₀ taken w) :
    (EachStep (fun w a => LogAction.Readable cfg w a) taken → w.RowsRefined) ∧
      (Throughout LogWorld.Refined taken w ↔
        EachStep (fun w a => LogAction.KeepsRefined cfg w a) taken) := by
  constructor
  · intro hreadable
    have hkeep {w w' : LogWorld} {a : LogAction} (hinv : w.Inv) (hread : a.Readable cfg w)
        (hstep : LogStep cfg w a w') : w'.Inv := hinv.step hread hstep
    exact (h.along hstart.inv hkeep hreadable).2.rows
  · have hends : Complete w₀.wal ∨ Closed w₀.wal := .inl hstart.inv.complete
    exact @Run.throughout_iff _ _ _ _ _ _ (fun w : LogWorld => Complete w.wal ∨ Closed w.wal) _ _
      hends (fun hinv hstep => ends_step hinv hstep) hstart.refined
      (fun hinv hrefined hstep => refined_step_iff hinv hrefined hstep) h

/-! ### Two transactions that overlap -/

/-- A transaction on the first store that sets its generator to `2.0`. -/
def setsGenerator : FsTxn :=
  { begunOn 1 with pendingKeyGenerators := OrderedMap.empty.insert 1 0x4000000000000000 }

/-- The state behind a commit of the transaction. -/
def appliedTo (t : FsTxn) (s : DbState) : DbState :=
  t.applyPendingToState t.commitMeta s.nextTxnSeq (!t.ops.isEmpty) s

/-- The frames of the transaction as the next one of the state. -/
def encodedOn (t : FsTxn) (s : DbState) : List Bytes :=
  match encodeTxnFramesLimited s.nextTxnSeq t.ops defaultConfig.maxFramePayload with
  | .ok frames => frames
  | .error _ => []

theorem encodedOn_of_ok {t : FsTxn} {s : DbState}
    (h : (encodeTxnFramesLimited s.nextTxnSeq t.ops defaultConfig.maxFramePayload).isOk = true) :
    encodeTxnFramesLimited s.nextTxnSeq t.ops defaultConfig.maxFramePayload =
      .ok (encodedOn t s) := by
  rw [encodedOn]
  cases hframes : encodeTxnFramesLimited s.nextTxnSeq t.ops defaultConfig.maxFramePayload with
  | ok frames => rfl
  | error e =>
      rw [hframes] at h
      cases h

theorem encoded_setsGenerator :
    encodeTxnFramesLimited compacted.state.nextTxnSeq setsGenerator.ops
      defaultConfig.maxFramePayload = .ok (encodedOn setsGenerator compacted.state) :=
  encodedOn_of_ok (by decide +kernel)

def handleWorld (active : List FsTxn) : LogWorld := ⟨compacted.state, compacted.state, [], active⟩

def behindGenerator : LogWorld :=
  ⟨compacted.state, appliedTo setsGenerator compacted.state,
    [] ++ (encodedOn setsGenerator compacted.state).flatten, [] ++ [putOne 2]⟩

def behindBoth : LogWorld :=
  ⟨compacted.state, appliedTo (putOne 2) behindGenerator.state,
    behindGenerator.wal ++ (encodedOn (putOne 2) behindGenerator.state).flatten, [] ++ []⟩

/-- Both begin; the one that sets the generator commits, then the one that writes a record
of the other store. -/
def overlappingRun : List (LogWorld × LogAction) :=
  [(handleWorld [], .begin .readWrite [1] .relaxed),
    (handleWorld [begunOn 1], .begin .readWrite [2] .relaxed),
    (handleWorld [begunOn 1, begunOn 2], .edit (begunOn 1) setsGenerator),
    (handleWorld [setsGenerator, begunOn 2], .edit (begunOn 2) (putOne 2)),
    (handleWorld [setsGenerator, putOne 2], .commit setsGenerator),
    (behindGenerator, .commit (putOne 2))]

theorem start_handleWorld : (handleWorld []).Start := ⟨rfl, rfl, rfl⟩

theorem step_setsGenerator : LogStep defaultConfig (handleWorld [setsGenerator, putOne 2])
    (.commit setsGenerator) behindGenerator :=
  .commit [] [putOne 2] rfl (by decide) encoded_setsGenerator

theorem encoded_putOne : encodeTxnFramesLimited behindGenerator.state.nextTxnSeq (putOne 2).ops
    defaultConfig.maxFramePayload = .ok (encodedOn (putOne 2) behindGenerator.state) :=
  encodedOn_of_ok (by decide +kernel)

theorem step_putOne : LogStep defaultConfig behindGenerator (.commit (putOne 2)) behindBoth :=
  .commit [] [] rfl (by decide) encoded_putOne

theorem run_overlappingRun :
    Run (LogStep defaultConfig) (handleWorld []) overlappingRun behindBoth := by
  have hfirst : Run (LogStep defaultConfig) (handleWorld []) _ (handleWorld [begunOn 1]) :=
    Run.start.step (.begin rfl)
  have hsecond : Run (LogStep defaultConfig) (handleWorld []) _
      (handleWorld [begunOn 1, begunOn 2]) := hfirst.step (.begin rfl)
  have hset : Run (LogStep defaultConfig) (handleWorld []) _
      (handleWorld [setsGenerator, begunOn 2]) := hsecond.step (.edit [] [_] rfl rfl rfl)
  have hput : Run (LogStep defaultConfig) (handleWorld []) _
      (handleWorld [setsGenerator, putOne 2]) := hset.step (.edit [_] [] rfl rfl rfl)
  exact (hput.step step_setsGenerator).step step_putOne

theorem replay_refines_overlapping :
    behindBoth.RowsRefined ∧
      (Throughout LogWorld.Refined overlappingRun behindBoth ↔
        EachStep (fun w a => LogAction.KeepsRefined defaultConfig w a) overlappingRun) := by
  obtain ⟨hrows, hboth⟩ := replay_refines_iff start_handleWorld run_overlappingRun
  exact ⟨hrows fun e _ => LogAction.readable_of_le le_rfl e.1 e.2, hboth⟩

/-- In memory the second commit puts the metadata that it began with back; the log keeps
those with the new generator value. -/
theorem replay_not_refined :
    (handleWorld []).Start ∧ setsGenerator.scope.Disjoint (putOne 2).scope ∧
      Run (LogStep defaultConfig) (handleWorld []) overlappingRun behindBoth ∧
      ¬ behindBoth.Refined := by
  have hread {t : FsTxn} {txnSeq : UInt64} {frames : List Bytes}
      (h : encodeTxnFramesLimited txnSeq t.ops defaultConfig.maxFramePayload = .ok frames) :
      ReadableFrames frames := readableFrames_of_le le_rfl h
  have hcomplete : Complete behindGenerator.wal := complete_nil.append
    (@recover_frames defaultConfig _ _ _ encoded_setsGenerator (hread encoded_setsGenerator)).1
  have hdirty : setsGenerator.metaDirty = true := by decide
  have hsets {w : LogWorld} {frames : List Bytes} (hwal : Complete w.wal)
      (hframes : encodeTxnFramesLimited w.state.nextTxnSeq setsGenerator.ops
        defaultConfig.maxFramePayload = .ok frames) :
      LogAction.KeepsRefined defaultConfig w (.commit setsGenerator) := by
    rw [keepsRefined_read_iff hwal (hread hframes) hframes, hdirty]
    exact fun h => nomatch h
  have hstart : (handleWorld [setsGenerator, putOne 2]).Refined := start_handleWorld.refined
  have hrefined : behindGenerator.Refined :=
    (refined_step_iff (.inl complete_nil) hstart step_setsGenerator).mpr
      (@hsets (handleWorld [setsGenerator, putOne 2]) _ complete_nil encoded_setsGenerator)
  have hstale : ¬ LogAction.KeepsRefined defaultConfig behindGenerator (.commit (putOne 2)) := by
    intro hkeeps
    rw [keepsRefined_read_iff hcomplete (hread encoded_putOne) encoded_putOne] at hkeeps
    have hgenerators := congrArg (Option.map fun m => m.stores.map StoreMeta.keyGen) (hkeeps rfl)
    revert hgenerators
    decide
  refine ⟨start_handleWorld, fun store h h' => ?_, run_overlappingRun, fun h => hstale ?_⟩
  · rw [List.mem_singleton.mp h] at h'
    exact absurd (List.mem_singleton.mp h') (by decide)
  · rwa [← refined_step_iff (.inl hcomplete) hrefined step_putOne]

end BoaIdb.Fs
