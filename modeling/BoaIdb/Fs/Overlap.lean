import BoaIdb.Fs.Runs
import BoaIdb.Fs.Scopes

/-!
Readwrite transactions that share the directory and nothing else.

The driver opens the database for each transaction and drops the handle once it has
begun, so a transaction works on the state that it loaded itself: another one's commit
shows only in the log, and another one's compaction not at all. Nothing is lost as long
as every commit appends frames that the format allows to the log that is published, and a
commit that publishes a new generation has everything that was committed in its own state.
-/

namespace BoaIdb.Fs

open OrdMap Faults

/-- A transaction with the state it loaded. -/
structure Entry where
  txn : FsTxn
  state : DbState

/-- The directory, the transactions in flight, and those whose commit returned `Ok`, in
commit order. -/
structure Shared where
  disk : Disk
  active : List Entry
  committed : List FsTxn

/-- All transactions that count. -/
def Shared.txns (w : Shared) : List FsTxn := w.active.map Entry.txn ++ w.committed

/-- The operations behind the directory: those it started with, then the committed ones. -/
def Shared.ops (history : List WalOp) (w : Shared) : List WalOp :=
  history ++ w.committed.flatMap FsTxn.ops

inductive SharedAction
  /-- `open_db_handle`, `begin`, and the handle is dropped. -/
  | begin (scope : List StoreId) (durability : Durability)
  | edit (e : Entry) (t : FsTxn)
  | commit (e : Entry) (f : CommitFaults)

inductive SharedStep (name : Utf16String) (cfg : FsConfig) : Shared → SharedAction → Shared → Prop
  | begin {w : Shared} {scope : List StoreId} {durability : Durability} {s : Session}
      {m : DatabaseMeta} (hopen : openDatabase name w.disk = .ok s)
      (hm : s.state.metadata = some m) (hdisjoint : ∀ t ∈ w.txns, scope.Disjoint t.scope) :
      SharedStep name cfg w (.begin scope durability)
        ⟨s.disk, ⟨FsTxn.begin .readWrite scope m durability, s.state⟩ :: w.active, w.committed⟩
  | edit {w : Shared} {e : Entry} {t : FsTxn} (before after : List Entry)
      (hactive : w.active = before ++ e :: after) (hmode : t.mode = e.txn.mode)
      (hbegun : t.begun = e.txn.begun) (hscope : t.scope = e.txn.scope) (hin : t.InScope) :
      SharedStep name cfg w (.edit e t)
        ⟨w.disk, before ++ { e with txn := t } :: after, w.committed⟩
  | commit {w : Shared} {e : Entry} {f : CommitFaults} {s : Session} (before after : List Entry)
      (hactive : w.active = before ++ e :: after)
      (hrun : e.txn.commit cfg f ⟨w.disk, e.state⟩ = (.done (), s)) :
      SharedStep name cfg w (.commit e f) ⟨s.disk, before ++ after, w.committed ++ [e.txn]⟩

/-- A commit that logs something appends frames that the format allows to the published log;
and if it publishes a new generation, that log has not grown since the transaction loaded its
state. -/
def SharedAction.Safe (cfg : FsConfig) (w : Shared) : SharedAction → Prop
  | .commit e f => e.txn.ops ≠ [] → w.disk.published = some e.state.tip ∧
      ∀ frames, e.txn.frames cfg ⟨w.disk, e.state⟩ = .ok frames → ReadableFrames frames ∧
        (e.txn.Compacts cfg e.state frames → f.compact.Publishes →
          (w.disk.walBytes e.state.walSeq).length = e.state.walBytesSinceCompact)
  | _ => True

/-- What safe steps reach from a directory that holds the operations `history`. -/
inductive SafeSharedRun (name : Utf16String) (cfg : FsConfig) (history : List WalOp) :
    Shared → Prop
  | start {s : Session} (h : Durable name history s) :
      SafeSharedRun name cfg history ⟨s.disk, [], []⟩
  | step {w w' : Shared} {a : SharedAction} (h : SafeSharedRun name cfg history w)
      (hsafe : a.Safe cfg w) (hstep : SharedStep name cfg w a w') :
      SafeSharedRun name cfg history w'

/-! ### The schema of a directory -/

/-- Opening the directory leads to this schema. -/
def Disk.Names (d : Disk) (name : Utf16String) (tip : ManifestData) (schema : DatabaseMeta) :
    Prop :=
  ∃ base, loadBase name d tip = .ok base ∧
    ((d.logOps tip.walSeq).foldl View.apply base.view).schema = some schema

section Names

variable {name : Utf16String} {d d' : Disk} {tip : ManifestData} {schema : DatabaseMeta}

/-- The schema stays when the log grows by operations that keep it and `meta.scf` is
replaced by metadata of the same schema. -/
theorem Disk.Names.grow (h : d.Names name tip schema) (ops : List WalOp)
    (hseg : d'.segFiles = d.segFiles)
    (hmeta : d'.metaScf = d.metaScf ∨ ∃ m, d'.metaScf = some m ∧ schemaOf m = schema)
    (hlog : d'.logOps tip.walSeq = d.logOps tip.walSeq ++ ops)
    (hops : ∀ m, ops.foldl WalOp.onSchema none = some m → m = schema) :
    d'.Names name tip schema := by
  obtain ⟨base, hbase, hschema⟩ := h
  have hnew : ∃ base', loadBase name d' tip = .ok base' ∧
      (base'.view.schema = base.view.schema ∨ base'.view.schema = some schema) := by
    by_cases hnil : tip.segments = []
    · refine ⟨_, loadBase_nil hnil, ?_⟩
      rw [loadBase_nil hnil] at hbase
      obtain rfl := Except.ok.inj hbase
      rcases hmeta with hmeta | ⟨m, hmeta, hm⟩
      · rw [hmeta]
        exact .inl rfl
      · rw [hmeta]
        exact .inr (congrArg some hm)
    · refine ⟨base, ?_, .inl rfl⟩
      rw [← hbase]
      exact loadBase_congr_of_segments (fun seq _ => congrFun hseg seq) hnil
  obtain ⟨base', hbase', hor⟩ := hnew
  refine ⟨base', hbase', ?_⟩
  rw [schema_foldl] at hschema ⊢
  rw [hlog, List.foldl_append, foldl_onSchema]
  cases hlast : ops.foldl WalOp.onSchema none with
  | some m =>
      rw [hops m hlast]
      rfl
  | none =>
      rw [Option.none_or]
      cases hold : (d.logOps tip.walSeq).foldl WalOp.onSchema none with
      | some m =>
          rw [hold] at hschema
          exact hschema
      | none =>
          rw [hold, Option.none_or] at hschema
          rw [Option.none_or]
          exact hor.elim (fun h => h.trans hschema) id

/-- The operations of a transaction name no schema but that of its metadata. -/
theorem FsTxn.onSchema_ops {t : FsTxn} (h : t.PayloadMeta) {m : DatabaseMeta}
    (hm : t.ops.foldl WalOp.onSchema none = some m) : m = schemaOf t.metadata := by
  have hfold := schema_foldl { View.blank with schema := none } t.ops
  rw [FsTxn.foldl_ops h, hm] at hfold
  simp only [FsTxn.effect] at hfold
  split at hfold
  · exact (Option.some.inj hfold).symm
  · cases hfold

end Names

/-! ### What an entry knows -/

/-- What holds of a transaction in flight over a directory with the operations `ops`. -/
structure Entry.Inv (name : Utf16String) (ops : List WalOp) (schema : DatabaseMeta) (d : Disk)
    (e : Entry) : Prop where
  mode : e.txn.mode = .readWrite
  begun : e.state.metadata = some e.txn.begun
  schema : schemaOf e.txn.begun = schema
  inScope : e.txn.InScope
  older : ∃ n, d.current = some n ∧ e.state.manifestSeq ≤ n
  /-- What the state counts is a first part of the published log. -/
  counted : d.published = some e.state.tip →
    e.state.walBytesSinceCompact ≤ (d.walBytes e.state.walSeq).length
  /-- As long as the log has not grown the state is up to date. -/
  fresh : d.published = some e.state.tip →
    (d.walBytes e.state.walSeq).length = e.state.walBytesSinceCompact →
    Durable name ops ⟨d, e.state⟩

section Entries

variable {name : Utf16String} {cfg : FsConfig} {ops ops' : List WalOp} {schema : DatabaseMeta}
  {d d' : Disk} {e : Entry}

theorem Durable.published {s : Session} (h : Durable name ops s) :
    s.disk.published = some s.state.tip := by
  rw [Disk.published, h.current]
  exact h.manifest

theorem Durable.current_of_published {s : Session} (h : Durable name ops s) {tip : ManifestData}
    (hpub : s.disk.published = some tip) : s.disk.current = some tip.manifestSeq := by
  rw [h.published] at hpub
  obtain rfl := Option.some.inj hpub
  exact h.current

/-- Only the bytes of the published log and `meta.scf` are replaced, and the log stays. -/
theorem Entry.Inv.rewritten (h : e.Inv name ops schema d) {tip : ManifestData}
    {metaScf : Option DatabaseMeta} (hpub : d.published = some tip)
    (hd : d.Rewritten tip.walSeq (d.walBytes tip.walSeq) metaScf d') :
    e.Inv name ops schema d' := by
  have hpub' : d'.published = d.published := by
    rw [Disk.published, hd.current, hd.manifests]
    rfl
  have hwal (htip : d'.published = some e.state.tip) :
      e.state.walSeq = tip.walSeq ∧ d'.walBytes e.state.walSeq = d.walBytes e.state.walSeq := by
    rw [hpub', hpub] at htip
    have hseq : tip.walSeq = e.state.walSeq :=
      congrArg ManifestData.walSeq (Option.some.inj htip)
    rw [← hseq]
    exact ⟨rfl, hd.walBytes⟩
  refine ⟨h.mode, h.begun, h.schema, h.inScope, ?_, fun htip => ?_, fun htip hlen => ?_⟩
  · rw [hd.current]
    exact h.older
  · rw [(hwal htip).2]
    exact h.counted (hpub' ▸ htip)
  · rw [(hwal htip).2] at hlen
    have hw : Working ⟨d, e.state⟩ (d.walBytes e.state.walSeq) metaScf ⟨d', e.state⟩ :=
      ⟨rfl, hd.current, hd.manifests, hd.segFiles, hd.metaScf, (hwal htip).2⟩
    exact (h.fresh (hpub' ▸ htip) hlen).working hw

/-- The published log has grown. -/
theorem Entry.Inv.grown (h : e.Inv name ops schema d) (hcur : d'.current = d.current)
    (hpub : d'.published = d.published) (hwal : ∀ tip, d.published = some tip →
      (d.walBytes tip.walSeq).length < (d'.walBytes tip.walSeq).length) :
    e.Inv name ops' schema d' := by
  refine ⟨h.mode, h.begun, h.schema, h.inScope, ?_, fun htip => ?_, fun htip hlen => ?_⟩
  · rw [hcur]
    exact h.older
  · rw [hpub] at htip
    have hcounted := h.counted htip
    have hgrown := hwal _ htip
    exact hcounted.trans hgrown.le
  · rw [hpub] at htip
    have hcounted := h.counted htip
    have hgrown : (d.walBytes e.state.walSeq).length < (d'.walBytes e.state.walSeq).length :=
      hwal _ htip
    omega

/-- Another generation is published. -/
theorem Entry.Inv.superseded (h : e.Inv name ops schema d) {n n' : ℕ} {tip : ManifestData}
    (hcur : d.current = some n) (hcur' : d'.current = some n') (hlt : n < n')
    (hpub : d'.published = some tip) (htip : tip.manifestSeq = n') :
    e.Inv name ops' schema d' := by
  obtain ⟨n₀, hn₀, hle⟩ := h.older
  obtain rfl := Option.some.inj (hcur.symm.trans hn₀)
  have hne : d'.published ≠ some e.state.tip := by
    rw [hpub]
    rintro heq
    have hseq : tip.manifestSeq = e.state.manifestSeq :=
      congrArg ManifestData.manifestSeq (Option.some.inj heq)
    omega
  exact ⟨h.mode, h.begun, h.schema, h.inScope, ⟨n', hcur', hle.trans hlt.le⟩,
    fun h => absurd h hne, fun h => absurd h hne⟩

end Entries

/-! ### The directory behind a commit -/

/-- Some state is in step with the directory; nobody need have it in memory. -/
def Disk.Lasting (d : Disk) (name : Utf16String) (ops : List WalOp) (schema : DatabaseMeta) :
    Prop :=
  ∃ st, Durable name ops ⟨d, st⟩ ∧ st.metadata.map schemaOf = some schema ∧
    d.Names name st.tip schema

section Commits

variable {name : Utf16String} {cfg : FsConfig} {ops : List WalOp} {schema : DatabaseMeta}
  {d : Disk} {e : Entry} {f : CommitFaults} {s : Session} {frames : List Bytes}

/-- A state is as durable under any transaction number. -/
theorem Durable.renumber {st : DbState} (h : Durable name ops ⟨d, st⟩) (seq : UInt64) :
    Durable name ops ⟨d, { st with nextTxnSeq := seq }⟩ :=
  ⟨h.current, h.manifest, h.complete, h.decodes, h.base, h.named,
    h.memory.records, h.memory.indexEntries, h.memory.generators, h.memory.schema⟩

/-- A commit without operations leaves the directory as it is. -/
theorem disk_commit_nil {t : FsTxn} {s₀ : Session} (hops : t.ops = [])
    (hrun : t.commit cfg f s₀ = (.done (), s)) : s.disk = s₀.disk := by
  by_cases hmode : t.mode = .readOnly
  · rw [FsTxn.commit, if_pos hmode] at hrun
    obtain rfl : s₀ = s := congrArg Prod.snd hrun
    rfl
  have hdirty : t.metaDirty = false := by
    by_contra hne
    simp [FsTxn.ops, FsTxn.buildCommitPayload, hne] at hops
  have hcommit : Meets (· = s₀) (t.commit cfg f) (fun _ s => s.disk = s₀.disk)
      (OnError fun _ => True) := by
    unfold FsTxn.commit
    rw [if_neg hmode]
    refine meets_read fun s hs => ?_
    subst hs
    refine (meets_walLenBefore.mono (fun _ => id) (fun _ _ => id) fun _ _ h he => (h he).elim).bind
      fun len => Meets.of_imp fun _ => ?_
    rw [hops]
    change Meets _ (t.commitFrames cfg f s.state.walSeq len s.state.nextTxnSeq []) _ _
    have hpayload : t.buildCommitPayload = ([], t.commitMeta, false) :=
      Prod.ext hops (Prod.ext rfl hdirty)
    unfold FsTxn.commitFrames
    rw [hpayload]
    have hskip : Meets (· = s) (pure () : FsProg Unit) (fun _ => (· = s)) (OnError fun _ => True) :=
      meets_pure fun _ => id
    have happly : Meets (· = s) (Prog.modify (Session.onState
        (t.applyPendingToState t.commitMeta s.state.nextTxnSeq false)) : FsProg Unit)
        (fun _ s' => s'.disk = s.disk) (OnError fun _ => True) := meets_modify fun s' hs' => by
      rw [hs']
      rfl
    exact hskip.bind fun _ => hskip.bind fun _ => happly.bind fun _ => meets_pure fun _ => id
  have hends := hcommit s₀ rfl
  rw [hrun] at hends
  exact hends

/-- The frames of a transaction, behind the published log. -/
theorem Disk.Lasting.append (h : d.Lasting name ops schema) (he : e.Inv name ops schema d)
    (hpub : d.published = some e.state.tip) (hops : e.txn.ops ≠ [])
    (hframes : e.txn.frames cfg ⟨d, e.state⟩ = .ok frames) (hread : ReadableFrames frames)
    (hw : Working ⟨d, e.state⟩ (d.walBytes e.state.walSeq ++ frames.flatten)
      (if e.txn.metaDirty then some e.txn.commitMeta else d.metaScf) s) :
    s.disk.Lasting name (ops ++ e.txn.ops) schema ∧
      (d.walBytes e.state.walSeq).length < (s.disk.walBytes e.state.walSeq).length := by
  obtain ⟨st, hst, hschema, hnames⟩ := h
  have hpayload := FsTxn.payloadMeta_of_encode hframes
  have hclean : e.txn.metadata = e.txn.begun :=
    e.txn.clean (e.txn.guarded (by rw [he.mode]; decide))
  have hcommitMeta : schemaOf e.txn.commitMeta = schema := by
    rw [FsTxn.schemaOf_commitMeta, hclean, he.schema]
  have htip : st.tip = e.state.tip := Option.some.inj (hst.published.symm.trans hpub)
  have hwal : e.state.walSeq = st.walSeq := (congrArg ManifestData.walSeq htip).symm
  -- the state in step takes the transaction's number, and its commit the same frames
  let st₁ : DbState := { st with nextTxnSeq := e.state.nextTxnSeq }
  have hw₁ : Working ⟨d, st₁⟩ (d.walBytes st.walSeq ++ frames.flatten)
      (if e.txn.metaDirty then some e.txn.commitMeta else d.metaScf) ⟨s.disk, st₁⟩ := by
    rw [← hwal]
    refine ⟨rfl, ?_⟩
    change d.Rewritten st.walSeq _ _ _
    rw [← hwal]
    exact hw.disk
  have hframes₁ : e.txn.frames cfg ⟨d, st₁⟩ = .ok frames := hframes
  have hdone := (hst.renumber e.state.nextTxnSeq).commit hframes₁ hread hw₁ fun _ => by
    rw [hclean, he.schema]
    exact hschema
  refine ⟨⟨_, hdone, ?_, ?_⟩, ?_⟩
  · change (e.txn.committed frames st₁).metadata.map schemaOf = _
    unfold FsTxn.committed
    simp only
    split <;> exact congrArg some hcommitMeta
  · have htip₁ : (e.txn.committed frames st₁).tip = st.tip := by
      unfold FsTxn.committed
      simp only
      split <;> rfl
    change s.disk.Names name (e.txn.committed frames st₁).tip schema
    rw [htip₁]
    refine hnames.grow e.txn.ops hw.disk.segFiles ?_ ?_ fun m hm => ?_
    · rw [hw.disk.metaScf]
      split
      · exact .inr ⟨_, rfl, hcommitMeta⟩
      · exact .inl rfl
    · have hbytes := hw₁.disk.walBytes
      change (recoverCommittedFrames (s.disk.walBytes st.walSeq)).frames.flatMap _ = _
      rw [show s.disk.walBytes st.walSeq = _ from hbytes]
      exact ops_whole hframes hread hst.complete
    · rw [FsTxn.onSchema_ops hpayload hm, hclean, he.schema]
  · rw [hw.disk.walBytes, List.length_append]
    have hne := (encodesTxn hops hread hframes).whole.2.2.1
    have hpos : frames.flatten ≠ [] := by
      intro hnil
      rw [hnil] at hne
      exact hne rfl
    have := List.length_pos_iff.mpr hpos
    omega

/-- How a commit leaves the directory for the others: its log grew, or another generation
is published. -/
def Disk.MovesTo (d : Disk) (tip : ManifestData) (d' : Disk) : Prop :=
  (d'.current = d.current ∧ d'.published = d.published ∧
      (d.walBytes tip.walSeq).length < (d'.walBytes tip.walSeq).length) ∨
    ∃ tip', d'.current = some tip'.manifestSeq ∧ d'.published = some tip' ∧
      tip.manifestSeq < tip'.manifestSeq

/-- A compaction by a state that is up to date if the new generation is published. -/
theorem Disk.Lasting.compact {m : DatabaseMeta} {f : CompactFaults} {s' : Session}
    {r : Exit BackendError Unit} (h : s.disk.Lasting name ops schema)
    (hpub : s.disk.published = some s.state.tip) (hm : s.state.metadata = some m)
    (hschema : schemaOf m = schema) (hfresh : f.Publishes → Durable name ops s)
    (hrun : compactNow f s = (r, s')) (hr : r ≠ .stopped) :
    s'.disk.Lasting name ops schema ∧
      ((s'.disk.current = s.disk.current ∧ s'.disk.published = s.disk.published ∧
          s'.disk.walBytes s.state.walSeq = s.disk.walBytes s.state.walSeq) ∨
        s'.disk.current = some (nextTip s.state).manifestSeq ∧
          s'.disk.published = some (nextTip s.state)) := by
  obtain ⟨st, hst, hstSchema, hnames⟩ := h
  have htip : st.tip = s.state.tip := Option.some.inj (hst.published.symm.trans hpub)
  have hends : Ends _ _ (compactNow f s) := meets_compactNow hm s rfl
  -- the swap took effect, whatever was reported
  have hswapped (hp : f.Publishes) (hs : Swapped s m s'.disk) :
      s'.disk.Lasting name ops schema ∧ s'.disk.current = some (nextTip s.state).manifestSeq ∧
        s'.disk.published = some (nextTip s.state) := by
    have hdurable : Durable name ops ⟨s'.disk, s.state.advance (nextTip s.state)⟩ :=
      (hfresh hp).followed hm ⟨rfl, hs⟩
    refine ⟨⟨_, hdurable, ?_, _, loadBase_singleton rfl hs.segment rfl, ?_⟩, hs.current,
      hdurable.published⟩
    · change s.state.metadata.map schemaOf = _
      rw [hm]
      exact congrArg some hschema
    · change ((s'.disk.logOps (nextTip s.state).walSeq).foldl View.apply _).schema = _
      rw [logOps_nil hs.wal]
      exact congrArg some hschema
  -- only files of the next generation
  have hprepared (hp : Prepared s s') : s'.disk.Lasting name ops schema ∧
      s'.disk.current = s.disk.current ∧ s'.disk.published = s.disk.published ∧
        s'.disk.walBytes s.state.walSeq = s.disk.walBytes s.state.walSeq := by
    have hp' : Prepared ⟨s.disk, st⟩ ⟨s'.disk, st⟩ := by
      have hman : st.manifestSeq = s.state.manifestSeq := congrArg ManifestData.manifestSeq htip
      have hwal : st.walSeq = s.state.walSeq := congrArg ManifestData.walSeq htip
      have hseg : st.segments = s.state.segments := congrArg ManifestData.segments htip
      exact ⟨rfl, hp.current, hman ▸ hp.manifest, hp.metaScf, hseg ▸ hp.segFiles, hwal ▸ hp.wal⟩
    have hdurable := hst.prepared hp'
    obtain ⟨base, hbase, hbaseSchema⟩ := hnames
    refine ⟨⟨st, hdurable, hstSchema, base, ?_, ?_⟩, hp.current, ?_, hp.wal⟩
    · rw [← hbase]
      exact loadBase_congr hp'.segFiles hp'.metaScf
    · have hlogOps : s'.disk.logOps st.tip.walSeq = s.disk.logOps st.tip.walSeq :=
        logOps_congr hp'.wal
      rw [hlogOps]
      exact hbaseSchema
    · exact hdurable.published.trans hst.published.symm
  have hhalt {e : Option BackendError} (h : PublishHalts s m f e s' ∨
      (f.Publishes ∧ f.current.syncDir = .ok) ∧ Followed s m s') :
      s'.disk.Lasting name ops schema ∧
        ((s'.disk.current = s.disk.current ∧ s'.disk.published = s.disk.published ∧
            s'.disk.walBytes s.state.walSeq = s.disk.walBytes s.state.walSeq) ∨
          s'.disk.current = some (nextTip s.state).manifestSeq ∧
            s'.disk.published = some (nextTip s.state)) := by
    rcases h with (⟨-, hp⟩ | ⟨hp, -, -, hs⟩) | ⟨hp, -, hs⟩
    · exact ⟨(hprepared hp).1, .inl (hprepared hp).2⟩
    · exact ⟨(hswapped hp hs).1, .inr (hswapped hp hs).2⟩
    · exact ⟨(hswapped hp.1 hs).1, .inr (hswapped hp.1 hs).2⟩
  rw [hrun] at hends
  cases r with
  | done _ => exact hhalt (e := none) (.inr hends)
  | failed e => exact hhalt hends
  | stopped => exact absurd rfl hr

/-- **A safe commit keeps the directory lasting, with the transaction's operations.** -/
theorem Disk.Lasting.commit {w : Shared} (h : w.disk.Lasting name ops schema)
    (he : e.Inv name ops schema w.disk) (hops : e.txn.ops ≠ [])
    (hsafe : (SharedAction.commit e f).Safe cfg w)
    (hrun : e.txn.commit cfg f ⟨w.disk, e.state⟩ = (.done (), s)) :
    s.disk.Lasting name (ops ++ e.txn.ops) schema ∧ w.disk.MovesTo e.state.tip s.disk ∧
      e.txn.PayloadMeta := by
  obtain ⟨hpub, hframed⟩ := hsafe hops
  have hmode : e.txn.mode ≠ .readOnly := by
    rw [he.mode]
    decide
  have hends : Ends _ _ (e.txn.commit cfg f ⟨w.disk, e.state⟩) := meets_commit hmode _ rfl
  rw [hrun] at hends
  obtain ⟨frames, s₁, hframes, -, hw, hlast⟩ := hends
  have hpayload := FsTxn.payloadMeta_of_encode hframes
  obtain ⟨hread, hcompacts⟩ := hframed frames hframes
  obtain ⟨hlasting, hgrown⟩ := h.append he hpub hops hframes hread hw
  have hcur₁ : s₁.disk.current = w.disk.current := hw.disk.current
  have hpub₁ : s₁.disk.published = w.disk.published := by
    rw [Disk.published, hcur₁, hw.disk.manifests]
    rfl
  have hclean : e.txn.metadata = e.txn.begun :=
    e.txn.clean (e.txn.guarded (by rw [he.mode]; decide))
  simp only at hlast
  split at hlast
  next hcompact =>
    obtain ⟨r, hcompactNow, hr⟩ := hlast
    have hstate : (s₁.onState (e.txn.committed frames)).state =
        e.txn.committed frames e.state := congrArg (e.txn.committed frames) hw.state
    have htip : (e.txn.committed frames e.state).tip = e.state.tip := by
      unfold FsTxn.committed
      simp only
      split <;> rfl
    have hmeta : (e.txn.committed frames e.state).metadata = some e.txn.commitMeta := by
      unfold FsTxn.committed
      simp only
      split <;> rfl
    -- a compaction that publishes writes what this state has, which is all there is
    have hfresh (hp : f.compact.Publishes) :
        Durable name (ops ++ e.txn.ops) (s₁.onState (e.txn.committed frames)) := by
      have hlen := hcompacts ⟨hops, hstate ▸ hcompact.2⟩ hp
      refine (he.fresh hpub hlen).commit hframes hread hw fun _ => ?_
      rw [hclean]
      exact congrArg (Option.map schemaOf) he.begun
    obtain ⟨hlasting', hmoves⟩ := Disk.Lasting.compact (s := s₁.onState (e.txn.committed frames))
      hlasting (by rw [hstate, htip, ← hpub]; exact hpub₁) (hstate ▸ hmeta)
      (by rw [FsTxn.schemaOf_commitMeta, hclean, he.schema]) hfresh hcompactNow hr
    refine ⟨hlasting', ?_, hpayload⟩
    rw [hstate] at hmoves
    rcases hmoves with ⟨hcur, hpub', hwal⟩ | ⟨hcur, hpub'⟩
    · refine .inl ⟨hcur.trans hcur₁, hpub'.trans hpub₁, ?_⟩
      change (w.disk.walBytes e.state.walSeq).length < (s.disk.walBytes e.state.walSeq).length
      have hseq : (e.txn.committed frames e.state).walSeq = e.state.walSeq :=
        congrArg ManifestData.walSeq htip
      rw [hseq] at hwal
      rw [hwal]
      exact hgrown
    · refine .inr ⟨_, hcur, hpub', ?_⟩
      have hman : (e.txn.committed frames e.state).manifestSeq = e.state.manifestSeq :=
        congrArg ManifestData.manifestSeq htip
      change e.state.manifestSeq < (e.txn.committed frames e.state).manifestSeq + 1
      omega
  next =>
    subst hlast
    exact ⟨hlasting, .inl ⟨hcur₁, hpub₁, hgrown⟩, hpayload⟩

end Commits

/-! ### Runs -/

/-- What holds wherever safe steps lead. -/
structure Shared.Inv (name : Utf16String) (history : List WalOp) (schema : DatabaseMeta)
    (w : Shared) : Prop where
  lasting : w.disk.Lasting name (w.ops history) schema
  entries : ∀ e ∈ w.active, e.Inv name (w.ops history) schema w.disk
  disjoint : (w.txns.map FsTxn.scope).Pairwise List.Disjoint
  committed : ∀ t ∈ w.committed, t.PayloadMeta ∧ t.InScope ∧ schemaOf t.begun = schema

section Runs

variable {name : Utf16String} {cfg : FsConfig} {history : List WalOp} {schema : DatabaseMeta}
  {w w' : Shared}

/-- The directory behind a begin: the log as it was, and `meta.scf` healed. -/
theorem Disk.Lasting.opened {d : Disk} {ops : List WalOp} (h : d.Lasting name ops schema)
    {s : Session} (hopen : openDatabase name d = .ok s) :
    s.disk.Lasting name ops schema ∧ Durable name ops s ∧
      s.state.metadata.map schemaOf = some schema ∧
      s.state.walBytesSinceCompact = s.log.length ∧
      ∃ tip metaScf, d.published = some tip ∧
        d.Rewritten tip.walSeq (d.walBytes tip.walSeq) metaScf s.disk := by
  obtain ⟨st, hst, hschema, hnames⟩ := h
  obtain ⟨base, s', hload, hopened⟩ := hst.opens
  obtain rfl := Except.ok.inj (hopen.symm.trans hopened.opens)
  have hdurable := hst.opened hload hopened
  have htip : s.state.tip = st.tip := hopened.replays.tip.trans (loadBase_ok hload).1
  have hwal : s.state.walSeq = st.walSeq := congrArg ManifestData.walSeq htip
  have hbytes : s.disk.walBytes st.walSeq = d.walBytes st.walSeq := hst.wal_opened hopened
  have hview : s.state.metadata.map schemaOf = some schema := by
    obtain ⟨base', hload', hshow⟩ := hnames
    obtain rfl := Except.ok.inj (hload.symm.trans hload')
    exact (congrArg View.schema hopened.replays.view).trans hshow
  have hrewritten : d.Rewritten st.walSeq (d.walBytes st.walSeq) s.state.metadata s.disk :=
    ⟨hopened.current, hopened.manifests, hopened.segFiles, hopened.metaScf, hbytes⟩
  refine ⟨⟨s.state, hdurable, hview, ?_⟩, hdurable, hview, ?_, st.tip, _, hst.published, hrewritten⟩
  · rw [htip]
    obtain ⟨m, hm, hms⟩ := Option.map_eq_some_iff.mp hview
    refine hnames.grow [] hopened.segFiles (.inr ⟨m, hopened.metaScf.trans hm, hms⟩) ?_
      fun m hm => by cases hm
    rw [List.append_nil]
    exact logOps_congr hbytes
  · rw [hopened.counted, Session.log, hwal, hbytes]
    exact hst.complete

theorem Shared.Inv.begin (h : w.Inv name history schema) {scope : List StoreId}
    {durability : Durability} {s : Session} {m : DatabaseMeta}
    (hopen : openDatabase name w.disk = .ok s) (hm : s.state.metadata = some m)
    (hdisjoint : ∀ t ∈ w.txns, scope.Disjoint t.scope) :
    Shared.Inv name history schema ⟨s.disk,
      ⟨FsTxn.begin .readWrite scope m durability, s.state⟩ :: w.active, w.committed⟩ := by
  obtain ⟨hlasting, hdurable, hschema, hcounted, tip, metaScf, hpub, hrewritten⟩ :=
    h.lasting.opened hopen
  refine ⟨hlasting, fun e he => ?_,
    List.pairwise_cons.mpr ⟨List.forall_mem_map.mpr hdisjoint, h.disjoint⟩, h.committed⟩
  rcases List.mem_cons.mp he with rfl | he
  · refine ⟨rfl, hm, ?_, ⟨?_, ?_, ?_⟩, ⟨_, hdurable.current, le_rfl⟩, fun _ => hcounted.le,
      fun _ _ => hdurable⟩
    · rw [hm] at hschema
      exact Option.some.inj hschema
    all_goals exact fun key hkey => absurd (OrderedMap.get?_empty key) hkey
  · exact (h.entries e he).rewritten hpub hrewritten

theorem Shared.Inv.edit (h : w.Inv name history schema) {e : Entry} {t : FsTxn}
    {before after : List Entry} (hactive : w.active = before ++ e :: after)
    (hmode : t.mode = e.txn.mode) (hbegun : t.begun = e.txn.begun)
    (hscope : t.scope = e.txn.scope) (hin : t.InScope) :
    Shared.Inv name history schema
      ⟨w.disk, before ++ { e with txn := t } :: after, w.committed⟩ := by
  have he := h.entries e (by simp [hactive])
  refine ⟨h.lasting, fun e' he' => ?_, ?_, h.committed⟩
  · rcases List.mem_append.mp he' with he' | he'
    · exact h.entries e' (by simp [hactive, he'])
    · rcases List.mem_cons.mp he' with rfl | he'
      · exact ⟨hmode.trans he.mode, he.begun.trans (congrArg some hbegun.symm),
          (congrArg schemaOf hbegun).trans he.schema, hin, he.older, he.counted, he.fresh⟩
      · exact h.entries e' (by simp [hactive, he'])
  · have hscopes := h.disjoint
    simpa [Shared.txns, hactive, hscope] using hscopes

theorem Shared.Inv.commit (h : w.Inv name history schema) {e : Entry} {f : CommitFaults}
    {before after : List Entry} {s : Session} (hactive : w.active = before ++ e :: after)
    (hsafe : (SharedAction.commit e f).Safe cfg w)
    (hrun : e.txn.commit cfg f ⟨w.disk, e.state⟩ = (.done (), s)) :
    Shared.Inv name history schema ⟨s.disk, before ++ after, w.committed ++ [e.txn]⟩ := by
  have he := h.entries e (by simp [hactive])
  have hrest : ∀ e' ∈ before ++ after, e' ∈ w.active := by
    intro e' he'
    rw [hactive]
    exact (List.mem_append.mp he').elim (List.mem_append_left _)
      fun h => List.mem_append_right _ (.tail _ h)
  have hopsEq : Shared.ops history ⟨s.disk, before ++ after, w.committed ++ [e.txn]⟩ =
      w.ops history ++ e.txn.ops := by
    simp [Shared.ops]
  have hdisjoint : ((Shared.txns ⟨s.disk, before ++ after, w.committed ++ [e.txn]⟩).map
      FsTxn.scope).Pairwise List.Disjoint := by
    refine h.disjoint.perm (.map _ ?_) fun h _ hb ha => h ha hb
    rw [Shared.txns, Shared.txns, hactive]
    simp only [List.map_append, List.map_cons, List.append_assoc, List.cons_append]
    refine .append_left _ ((List.perm_append_singleton _ _).symm.trans ?_)
    rw [List.append_assoc]
  have hcommitted (hp : e.txn.PayloadMeta) : ∀ t ∈ w.committed ++ [e.txn],
      t.PayloadMeta ∧ t.InScope ∧ schemaOf t.begun = schema := by
    intro t ht
    rcases List.mem_append.mp ht with ht | ht
    · exact h.committed t ht
    · rw [List.mem_singleton.mp ht]
      exact ⟨hp, he.inScope, he.schema⟩
  by_cases hops : e.txn.ops = []
  · have hdisk : s.disk = w.disk := disk_commit_nil hops hrun
    have hpayload : e.txn.PayloadMeta := by
      intro hdirty
      simp [FsTxn.ops, FsTxn.buildCommitPayload, hdirty] at hops
    rw [hops, List.append_nil] at hopsEq
    refine ⟨?_, fun e' he' => ?_, hdisjoint, hcommitted hpayload⟩
    · rw [hopsEq]
      exact hdisk ▸ h.lasting
    · rw [hopsEq]
      exact hdisk ▸ h.entries e' (hrest e' he')
  · obtain ⟨hlasting, hmoves, hpayload⟩ := h.lasting.commit he hops hsafe hrun
    refine ⟨hopsEq ▸ hlasting, fun e' he' => ?_, hdisjoint, hcommitted hpayload⟩
    have hpub := (hsafe hops).1
    have he'' := h.entries e' (hrest e' he')
    -- the others find a longer log, or a generation that has superseded theirs
    rcases hmoves with ⟨hcur, hpub', hlen⟩ | ⟨tip', hcur', hpub', hlt⟩
    · refine he''.grown hcur hpub' fun tip htip => ?_
      obtain rfl := Option.some.inj (hpub.symm.trans htip)
      exact hlen
    · obtain ⟨st, hst, -⟩ := h.lasting
      exact he''.superseded (hst.current_of_published hpub) hcur' hlt hpub' rfl

theorem Shared.Inv.step (h : w.Inv name history schema) {a : SharedAction}
    (hsafe : a.Safe cfg w) (hstep : SharedStep name cfg w a w') : w'.Inv name history schema := by
  cases hstep with
  | begin hopen hm hdisjoint => exact h.begin hopen hm hdisjoint
  | edit before after hactive hmode hbegun hscope hin =>
      exact h.edit hactive hmode hbegun hscope hin
  | commit before after hactive hrun => exact h.commit hactive hsafe hrun

end Runs

/-- The directory of a durable database: it opens to a state that is in step with it. -/
theorem Durable.lasting {name : Utf16String} {ops : List WalOp} {s : Session}
    (h : Durable name ops s) : ∃ schema, s.disk.Lasting name ops schema := by
  obtain ⟨base, s', hload, hopened⟩ := h.opens
  have hdurable := h.opened hload hopened
  have htip : s'.state.tip = s.state.tip := hopened.replays.tip.trans (loadBase_ok hload).1
  have hwal : s'.state.walSeq = s.state.walSeq := congrArg ManifestData.walSeq htip
  have hback : Working s' s'.log s.disk.metaScf ⟨s.disk, s'.state⟩ := by
    refine ⟨rfl, hopened.current.symm, hopened.manifests.symm, hopened.segFiles.symm, rfl, ?_⟩
    rw [Session.log, hwal, h.wal_opened hopened]
    rfl
  obtain ⟨m, hm⟩ := Option.isSome_iff_exists.mp hdurable.named
  have hview := congrArg View.schema hopened.replays.view
  refine ⟨schemaOf m, s'.state, hdurable.working hback, congrArg (Option.map schemaOf) hm, base,
    htip ▸ hload, ?_⟩
  rw [htip, ← hview]
  exact congrArg (Option.map schemaOf) hm

theorem SafeSharedRun.inv {name : Utf16String} {cfg : FsConfig} {history : List WalOp}
    {w : Shared} (h : SafeSharedRun name cfg history w) :
    ∃ schema, w.Inv name history schema := by
  induction h with
  | start hs =>
      obtain ⟨schema, hlasting⟩ := hs.lasting
      refine ⟨schema, ?_, fun e he => absurd he List.not_mem_nil, .nil,
        fun t ht => absurd ht List.not_mem_nil⟩
      simpa [Shared.ops] using hlasting
  | step _ hsafe hstep ih =>
      obtain ⟨schema, hinv⟩ := ih
      exact ⟨schema, hinv.step hsafe hstep⟩

theorem SafeSharedRun.steps {name : Utf16String} {cfg : FsConfig} {history : List WalOp}
    {w w' : Shared} (h : SafeSharedRun name cfg history w)
    (hsteps : Relation.ReflTransGen
      (fun w w' => ∃ a, SharedStep name cfg w a w' ∧ a.Safe cfg w) w w') :
    SafeSharedRun name cfg history w' := by
  induction hsteps with
  | refl => exact h
  | tail _ hstep ih =>
      obtain ⟨a, hstep, hsafe⟩ := hstep
      exact ih.step hsafe hstep

/-- **No committed update is lost.** Wherever safe steps lead, the directory can be
reopened: it shows all operations in commit order, and everything that each committed
transaction wrote. -/
theorem SafeSharedRun.reopens {name : Utf16String} {cfg : FsConfig} {history : List WalOp}
    {w : Shared} (h : SafeSharedRun name cfg history w) :
    ∃ s, openDatabase name w.disk = .ok s ∧
      ShowsAll (history :: w.committed.map FsTxn.ops) s.state.view ∧
      ∀ t ∈ w.committed, t.WrittenIn s.state.view := by
  obtain ⟨schema, hinv⟩ := h.inv
  obtain ⟨st, hst, -⟩ := hinv.lasting
  obtain ⟨s, hopen, hdurable⟩ := hst.reopen
  have hshows : ShowsAll (history :: w.committed.map FsTxn.ops) s.state.view := by
    refine Carries.showsAll ?_
    simpa [Shared.ops, List.flatMap_def] using hdurable.memory
  refine ⟨s, hopen, hshows, ?_⟩
  obtain ⟨v₀, -, -, hview⟩ := hshows
  have hapart : w.committed.Pairwise FsTxn.Apart := by
    have hdisjoint := hinv.disjoint
    rw [Shared.txns, List.map_append] at hdisjoint
    have hscopes := List.pairwise_map.mp (List.pairwise_append.mp hdisjoint).2.1
    refine hscopes.imp_of_mem fun {t u} ht hu h => ?_
    obtain ⟨-, hin, hschema⟩ := hinv.committed t ht
    obtain ⟨-, hin', hschema'⟩ := hinv.committed u hu
    exact hin.apart hin' (hschema.trans hschema'.symm) h
  rw [hview, List.flatten_cons, List.foldl_append, ← List.flatMap_def,
    FsTxn.foldl_flatMap_ops fun t ht => (hinv.committed t ht).1]
  exact FsTxn.writtenIn_foldl hapart _

/-! ### Two transactions that overlap -/

/-- The schema of three empty stores. -/
def threeStores : DatabaseMeta :=
  { emptyMeta [] with
    version := 1
    nextStoreId := 4
    stores := [⟨1, [97], .empty, false, keyGenStart, [], false⟩,
      ⟨2, [98], .empty, false, keyGenStart, [], false⟩,
      ⟨3, [99], .empty, false, keyGenStart, [], false⟩] }

/-- A database with these stores behind its first compaction. -/
def compacted : Session where
  disk := { Disk.empty with
    current := some 2
    manifests := Function.update (fun _ => none) 2 (some ⟨2, 2, [1]⟩)
    segFiles := Function.update (fun _ => none) 1 (some ⟨1, 2, threeStores, .empty, .empty, .empty⟩)
    metaScf := some threeStores }
  state := { DbState.default with
    segments := [1]
    manifestSeq := 2
    walSeq := 2
    nextTxnSeq := 2
    keyGenerators := seedGenerators .empty threeStores.stores
    metadata := some threeStores }

theorem durable_compacted : Durable [] [] compacted where
  current := rfl
  manifest := rfl
  complete := complete_nil
  decodes := fun _ hop => absurd hop List.not_mem_nil
  base := ⟨_, [], loadBase_singleton rfl rfl rfl, .nil rfl rfl, rfl, fun _ => rfl⟩
  named := rfl
  memory := .nil rfl rfl

/-- So many frames in the log are reason enough to compact. -/
def compactingAt (frames : ℕ) : FsConfig :=
  ⟨maxFramePayloadLimit, ⟨64 * 1024 * 1024, frames⟩, limit_fits⟩

/-- A record in one of the stores. -/
def putOne (store : StoreId) : FsTxn :=
  { FsTxn.begin .readWrite [store] threeStores .relaxed with
    pendingRecords := OrderedMap.empty.insert ⟨store, [1]⟩ (some [7]) }

theorem inScope_putOne (store : StoreId) : (putOne store).InScope where
  records key h := by
    by_cases hkey : key = ⟨store, [1]⟩
    · simp [hkey, putOne, FsTxn.begin]
    · exact absurd (OrderedMap.get?_insert_of_ne .empty (some [7]) hkey) h
  indexEntries key h := absurd (OrderedMap.get?_empty key) h
  generators store h := absurd (OrderedMap.get?_empty store) h

/-- What opening the directory leads to. -/
def openedAt (d : Disk) : Session :=
  match openDatabase [] d with
  | .ok s => s
  | .error _ => freshSession []

theorem openedAt_of_ok {d : Disk} (h : (openDatabase [] d).isOk = true) :
    openDatabase [] d = .ok (openedAt d) := by
  rw [openedAt]
  cases hopen : openDatabase [] d with
  | ok s => rfl
  | error e =>
      rw [hopen] at h
      cases h

/-- A transaction on the state of one session and the directory of another. -/
def commitOn (cfg : FsConfig) (store : StoreId) (state : DbState) (d : Disk) : Session :=
  ((putOne store).commit cfg {} ⟨d, state⟩).2

/-- The directory and the state that the first two of them load. -/
def bothLoaded : Session := openedAt (openedAt compacted.disk).disk

def begunOn (store : StoreId) : FsTxn := FsTxn.begin .readWrite [store] threeStores .relaxed

def loadedBy (t : FsTxn) : Entry := ⟨t, bothLoaded.state⟩

theorem disjoint_putOne {store store' : StoreId} (h : store ≠ store') :
    (putOne store).scope.Disjoint (putOne store').scope := by
  intro id hid hid'
  rw [List.mem_singleton.mp hid] at hid'
  exact h (List.mem_singleton.mp hid')

section Overlap

variable {cfg : FsConfig}

/-- Both are begun and have written their record before either commits. -/
theorem steps_loaded : Relation.ReflTransGen
    (fun w w' => ∃ a, SharedStep [] cfg w a w' ∧ a.Safe cfg w) ⟨compacted.disk, [], []⟩
    ⟨bothLoaded.disk, [loadedBy (putOne 2), loadedBy (putOne 1)], []⟩ := by
  have hstart : SharedStep [] cfg ⟨compacted.disk, [], []⟩ (.begin [1] .relaxed)
      ⟨(openedAt compacted.disk).disk, [loadedBy (begunOn 1)], []⟩ :=
    .begin (s := openedAt compacted.disk) (by rfl) (by rfl) fun u hu => absurd hu List.not_mem_nil
  have hbegin : SharedStep [] cfg ⟨(openedAt compacted.disk).disk, [loadedBy (begunOn 1)], []⟩
      (.begin [2] .relaxed) ⟨bothLoaded.disk, [loadedBy (begunOn 2), loadedBy (begunOn 1)], []⟩ :=
    .begin (s := bothLoaded) (by rfl) (by rfl) fun u hu => by
      rw [List.mem_singleton.mp hu]
      exact @disjoint_putOne 2 1 (by decide)
  have hedit : SharedStep [] cfg
      ⟨bothLoaded.disk, [loadedBy (begunOn 2), loadedBy (begunOn 1)], []⟩
      (.edit (loadedBy (begunOn 1)) (putOne 1))
      ⟨bothLoaded.disk, [loadedBy (begunOn 2), loadedBy (putOne 1)], []⟩ :=
    .edit [_] [] rfl rfl rfl rfl (inScope_putOne 1)
  have hedit' : SharedStep [] cfg
      ⟨bothLoaded.disk, [loadedBy (begunOn 2), loadedBy (putOne 1)], []⟩
      (.edit (loadedBy (begunOn 2)) (putOne 2))
      ⟨bothLoaded.disk, [loadedBy (putOne 2), loadedBy (putOne 1)], []⟩ :=
    .edit [] [_] rfl rfl rfl rfl (inScope_putOne 2)
  exact (((Relation.ReflTransGen.single ⟨_, hstart, by exact trivial⟩).tail
    ⟨_, hbegin, by exact trivial⟩).tail ⟨_, hedit, by exact trivial⟩).tail
    ⟨_, hedit', by exact trivial⟩

end Overlap

/-- The directories behind the second transaction, then the first, then a third one that is
begun behind both and whose commit compacts. -/
def behindSecond : Session := commitOn (compactingAt 3) 2 bothLoaded.state bothLoaded.disk

def behindFirst : Session := commitOn (compactingAt 3) 1 bothLoaded.state behindSecond.disk

def behindThird : Session :=
  commitOn (compactingAt 3) 3 (openedAt behindFirst.disk).state (openedAt behindFirst.disk).disk

/-- Two transactions that are open at once commit in the other order, and a third one compacts
behind them: all three are there. -/
theorem SafeSharedRun.reopens_overlapping :
    ∃ s, openDatabase [] behindThird.disk = .ok s ∧
      ShowsAll ([] :: [putOne 2, putOne 1, putOne 3].map FsTxn.ops) s.state.view ∧
      ∀ t ∈ [putOne 2, putOne 1, putOne 3], t.WrittenIn s.state.view := by
  have hloaded : SafeSharedRun [] (compactingAt 3) []
      ⟨bothLoaded.disk, [loadedBy (putOne 2), loadedBy (putOne 1)], []⟩ := by
    exact (SafeSharedRun.start durable_compacted).steps steps_loaded
  have hframed {t : FsTxn} {s : Session} {frames : List Bytes}
      (h : t.frames (compactingAt 3) s = .ok frames) : ReadableFrames frames :=
    readableFrames_of_le le_rfl h
  have hsecond : SafeSharedRun [] (compactingAt 3) []
      ⟨behindSecond.disk, [loadedBy (putOne 1)], [putOne 2]⟩ :=
    hloaded.step (a := .commit (loadedBy (putOne 2)) {})
      (fun _ => ⟨by rfl, fun frames h => ⟨hframed h, fun _ _ => by rfl⟩⟩)
      (.commit [] [_] rfl (Prod.ext (by rfl) rfl))
  have hfirst :
      SafeSharedRun [] (compactingAt 3) [] ⟨behindFirst.disk, [], [putOne 2, putOne 1]⟩ := by
    refine hsecond.step (a := .commit (loadedBy (putOne 1)) {})
      (fun _ => ⟨by rfl, fun frames h => ⟨hframed h, fun hcompacts => ?_⟩⟩)
      (.commit [] [] rfl (Prod.ext (by rfl) rfl))
    -- its own frame is the only one that the state counts
    have hlength : ((putOne 1).frames (compactingAt 3) ⟨behindSecond.disk, bothLoaded.state⟩).map
        (fun frames => (frames.map List.length).sum) = .ok 28 := by decide +kernel
    replace h : (putOne 1).frames (compactingAt 3) ⟨behindSecond.disk, bothLoaded.state⟩ =
      .ok frames := h
    rw [h] at hlength
    have hsum : (frames.map List.length).sum = 28 := Except.ok.inj hlength
    have hfew : (compactingAt 3).compact.shouldCompact
        ((putOne 1).committed frames bothLoaded.state) = false := by
      change (decide (_ ≤ bothLoaded.state.walBytesSinceCompact + (frames.map List.length).sum) ||
        decide (3 ≤ bothLoaded.state.walFramesSinceCompact + 1)) = false
      rw [hsum]
      decide +kernel
    have hmany := hcompacts.2
    change (compactingAt 3).compact.shouldCompact
      ((putOne 1).committed frames bothLoaded.state) = true at hmany
    rw [hfew] at hmany
    cases hmany
  have hopen : SharedStep [] (compactingAt 3) ⟨behindFirst.disk, [], [putOne 2, putOne 1]⟩
      (.begin [3] .relaxed) ⟨(openedAt behindFirst.disk).disk,
        [⟨begunOn 3, (openedAt behindFirst.disk).state⟩], [putOne 2, putOne 1]⟩ :=
    .begin (openedAt_of_ok (by decide +kernel)) (by decide +kernel) fun u hu => by
      rcases List.mem_cons.mp hu with rfl | hu
      · exact @disjoint_putOne 3 2 (by decide)
      · rw [List.mem_singleton.mp hu]
        exact @disjoint_putOne 3 1 (by decide)
  have hedit (d : Disk) (st : DbState) : SharedStep [] (compactingAt 3)
      ⟨d, [⟨begunOn 3, st⟩], [putOne 2, putOne 1]⟩ (.edit ⟨begunOn 3, st⟩ (putOne 3))
      ⟨d, [⟨putOne 3, st⟩], [putOne 2, putOne 1]⟩ :=
    .edit [] [] rfl rfl rfl rfl (inScope_putOne 3)
  have hcommit (d : Disk) (st : DbState) (s : Session)
      (hrun : (putOne 3).commit (compactingAt 3) {} ⟨d, st⟩ = (.done (), s)) :
      SharedStep [] (compactingAt 3) ⟨d, [⟨putOne 3, st⟩], [putOne 2, putOne 1]⟩
        (.commit ⟨putOne 3, st⟩ {}) ⟨s.disk, [], [putOne 2, putOne 1, putOne 3]⟩ :=
    .commit [] [] rfl hrun
  have hdone : ((putOne 3).commit (compactingAt 3) {}
      ⟨(openedAt behindFirst.disk).disk, (openedAt behindFirst.disk).state⟩).1 = .done () := by
    decide +kernel
  have hthird : SafeSharedRun [] (compactingAt 3) []
      ⟨behindThird.disk, [], [putOne 2, putOne 1, putOne 3]⟩ :=
    ((hfirst.step (by exact trivial) hopen).step (by exact trivial) (hedit _ _)).step
      (a := .commit ⟨putOne 3, (openedAt behindFirst.disk).state⟩ {})
      (fun _ => ⟨by decide +kernel, fun frames h => ⟨hframed h, fun _ _ => by decide +kernel⟩⟩)
      (hcommit _ _ behindThird (Prod.ext hdone (by rw [behindThird, commitOn])))
  have hreopens := hthird.reopens
  dsimp only at hreopens
  exact hreopens

def firstOverlapping : Session := commitOn (compactingAt 1) 1 bothLoaded.state bothLoaded.disk

def secondOverlapping : Session :=
  commitOn (compactingAt 1) 2 bothLoaded.state firstOverlapping.disk

/-- Both are begun before either commits: the second commit appends to a log that the first
one's compaction has superseded, then compacts its own state over the new generation. Both
commits return `Ok`, and the record of the first transaction is gone. -/
theorem overlapping_lost :
    Durable [] [] compacted ∧
      Relation.ReflTransGen (fun w w' => ∃ a, SharedStep [] (compactingAt 1) w a w')
        ⟨compacted.disk, [], []⟩ ⟨secondOverlapping.disk, [], [putOne 1, putOne 2]⟩ ∧
      ¬ ∃ s, openDatabase [] secondOverlapping.disk = .ok s ∧
        ∀ t ∈ [putOne 1, putOne 2], t.WrittenIn s.state.view := by
  have hloaded : Relation.ReflTransGen (fun w w' => ∃ a, SharedStep [] (compactingAt 1) w a w')
      ⟨compacted.disk, [], []⟩ ⟨bothLoaded.disk, [loadedBy (putOne 2), loadedBy (putOne 1)], []⟩ :=
    Relation.ReflTransGen.mono (fun _ _ h => Exists.imp (fun _ h => h.1) h) _ _ steps_loaded
  have hfirst : SharedStep [] (compactingAt 1)
      ⟨bothLoaded.disk, [loadedBy (putOne 2), loadedBy (putOne 1)], []⟩
      (.commit (loadedBy (putOne 1)) {})
      ⟨firstOverlapping.disk, [loadedBy (putOne 2)], [putOne 1]⟩ :=
    .commit [_] [] rfl (Prod.ext (by rfl) rfl)
  have hsecond : SharedStep [] (compactingAt 1)
      ⟨firstOverlapping.disk, [loadedBy (putOne 2)], [putOne 1]⟩
      (.commit (loadedBy (putOne 2)) {}) ⟨secondOverlapping.disk, [], [putOne 1, putOne 2]⟩ :=
    .commit [] [] rfl (Prod.ext (by rfl) rfl)
  refine ⟨durable_compacted, (hloaded.tail ⟨_, hfirst⟩).tail ⟨_, hsecond⟩, ?_⟩
  rintro ⟨s, hopen, hall⟩
  have hthere := (hall (putOne 1) (by simp)).records ⟨1, [1]⟩ (some [7])
    (OrderedMap.get?_insert_self _ _ _)
  have hgone :
      (openDatabase [] secondOverlapping.disk).map (fun s => s.state.view.records.get? ⟨1, [1]⟩) =
      .ok none := by rfl
  rw [hopen] at hgone
  simp only [Except.map, Except.ok.injEq] at hgone
  rw [hgone] at hthere
  cases hthere

end BoaIdb.Fs
