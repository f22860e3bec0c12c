import BoaIdb.Fs.Durability

/-!
Runs of one database handle: transactions that begin, change, commit and abort,
compactions, and reopens, with a fault wherever a file operation is.

A run keeps every committed transaction as long as no commit goes over a schema that its
transaction did not begin with or writes a frame that the format does not allow, no failed
commit leaves a different log behind, and no compaction loses the tip.
-/

namespace BoaIdb.Fs

open OrdMap Faults

/-- A handle with its transactions in flight, and what was reported as committed. -/
structure World where
  session : Session
  active : List FsTxn
  /-- The operations of every transaction whose commit returned `Ok`, in commit order. -/
  log : List (List WalOp)

inductive Action
  | begin (mode : TxnMode) (scope : List StoreId) (durability : Durability)
  /-- Any operations of a transaction between its begin and its end. -/
  | edit (t t' : FsTxn)
  | commit (t : FsTxn) (f : CommitFaults)
  | abort (t : FsTxn)
  | compact (f : CompactFaults)
  | reopen
  /-- The last snapshot of a superseded segment is dropped, and the file goes with it. -/
  | release (seq : ℕ)

/-- What a commit of the transaction logs; a read-only one logs nothing. -/
def FsTxn.loggedOps (t : FsTxn) : List (List WalOp) :=
  if t.mode = .readOnly then [] else [t.ops]

/-- The steps of a handle. A stopped process takes no further step. -/
inductive Step (name : Utf16String) (cfg : FsConfig) : World → Action → World → Prop
  | begin {w : World} {mode : TxnMode} {scope : List StoreId} {durability : Durability}
      {m : DatabaseMeta} (hm : w.session.state.metadata = some m) :
      Step name cfg w (.begin mode scope durability)
        { w with active := w.active ++ [FsTxn.begin mode scope m durability] }
  | edit {w : World} {t t' : FsTxn} (before after : List FsTxn)
      (hactive : w.active = before ++ t :: after) (hmode : t'.mode = t.mode)
      (hbegun : t'.begun = t.begun) :
      Step name cfg w (.edit t t') { w with active := before ++ t' :: after }
  | commitOk {w : World} {t : FsTxn} {f : CommitFaults} {s : Session} (before after : List FsTxn)
      (hactive : w.active = before ++ t :: after)
      (hrun : t.commit cfg f w.session = (.done (), s)) :
      Step name cfg w (.commit t f) ⟨s, before ++ after, w.log ++ t.loggedOps⟩
  | commitErr {w : World} {t : FsTxn} {f : CommitFaults} {s : Session} {e : BackendError}
      (before after : List FsTxn) (hactive : w.active = before ++ t :: after)
      (hrun : t.commit cfg f w.session = (.failed e, s)) :
      Step name cfg w (.commit t f) ⟨s, before ++ after, w.log⟩
  | abort {w : World} {t : FsTxn} (before after : List FsTxn)
      (hactive : w.active = before ++ t :: after) :
      Step name cfg w (.abort t) { w with active := before ++ after }
  | compact {w : World} {f : CompactFaults} {r : Exit BackendError Unit} {s : Session}
      (hrun : compactNow f w.session = (r, s)) (hr : r ≠ .stopped) :
      Step name cfg w (.compact f) { w with session := s }
  | reopen {w : World} {s : Session} (hrun : openDatabase name w.session.disk = .ok s) :
      Step name cfg w .reopen ⟨s, [], w.log⟩
  | release {w : World} {seq : ℕ} (hold : seq ∉ w.session.state.segments) :
      Step name cfg w (.release seq)
        { w with session := w.session.onDisk (Disk.removeSegment seq) }

/-- The commit leaves the bytes of the log when it fails: the repair cuts the log where it
ended, or there is nothing to repair. -/
def CommitFaults.KeepsLog (f : CommitFaults) (t : FsTxn) (s : Session) (frames : List Bytes) :
    Prop :=
  if f.truncate = .ok then f.metadataLen = .ok ∨ s.log = []
  else (f.reach t.walSync 0 frames).1 = []

/-- The commit compacts: it logs something and a threshold is reached. -/
def FsTxn.Compacts (t : FsTxn) (cfg : FsConfig) (s : DbState) (frames : List Bytes) : Prop :=
  t.ops ≠ [] ∧ cfg.compact.shouldCompact (t.committed frames s) = true

/-- Nobody has changed the schema since the transaction began. -/
def FsTxn.Current (t : FsTxn) (s : DbState) : Prop :=
  s.metadata.map schemaOf = some (schemaOf t.begun)

/-- Whether a step avoids what loses a committed transaction. -/
def Action.Safe (cfg : FsConfig) (w : World) : Action → Prop
  | .commit t f => t.mode ≠ .readOnly → ∀ frames, t.frames cfg w.session = .ok frames →
      (¬ f.Lands t frames → f.KeepsLog t w.session frames) ∧
        (f.Lands t frames → t.Current w.session.state ∧ ReadableFrames frames ∧
          (t.Compacts cfg w.session.state frames → ¬ f.compact.LosesTip))
  | .compact f => ¬ f.LosesTip
  | _ => True

/-- The worlds that safe steps reach from a new directory. -/
inductive SafeRun (name : Utf16String) (cfg : FsConfig) : World → Prop
  | start : SafeRun name cfg ⟨freshSession name, [], []⟩
  | step {w w' : World} {a : Action} (h : SafeRun name cfg w) (hsafe : a.Safe cfg w)
      (hstep : Step name cfg w a w') : SafeRun name cfg w'

/-! ### The invariant -/

/-- What holds of every world on a safe run. -/
def World.Inv (name : Utf16String) (w : World) : Prop := Durable name w.log.flatten w.session

section Steps

variable {name : Utf16String} {cfg : FsConfig} {w : World} {t : FsTxn} {f : CommitFaults}
  {before after : List FsTxn} {s : Session}

/-- The metadata of a transaction that changes none: what it began with. -/
theorem metadata_of_not_dirty {t : FsTxn} (h : t.metaDirty = false) : t.metadata = t.begun :=
  t.clean (Bool.or_eq_false_iff.mp h).1

/-- A compaction keeps what does not depend on the generation of the files. -/
theorem kept_compactNow {β : Type} (g : DbState → β) (hg : ∀ s tip, g (DbState.advance s tip) = g s)
    {f : CompactFaults} {s s' : Session} {r : Exit BackendError Unit}
    (hnamed : s.state.metadata.isSome) (hrun : compactNow f s = (r, s')) :
    g s'.state = g s.state := by
  obtain ⟨m, hm⟩ := Option.isSome_iff_exists.mp hnamed
  have hends : Ends _ _ (compactNow f s) := meets_compactNow hm s rfl
  have hfollow (h : Followed s m s') : g s'.state = g s.state := by
    rw [h.1]
    exact hg _ _
  have hhalt {e : Option BackendError} (h : PublishHalts s m f e s' ∨
      (f.Publishes ∧ f.current.syncDir = .ok) ∧ Followed s m s') : g s'.state = g s.state := by
    rcases h with (⟨-, h⟩ | ⟨-, -, h, -⟩) | ⟨-, h⟩
    · rw [h.state]
    · rw [h]
    · exact hfollow h
  rw [hrun] at hends
  cases r with
  | done _ => exact hfollow hends.2
  | failed e => exact hhalt hends
  | stopped => exact hhalt hends

theorem metadata_committed (t : FsTxn) (frames : List Bytes) (s : DbState) :
    (t.committed frames s).metadata = some t.commitMeta := by
  unfold FsTxn.committed
  simp only
  split <;> rfl

/-- A commit that returns has landed, and what does not depend on the generation of the files
is as committed. -/
theorem kept_commit_done {β : Type} (g : DbState → β)
    (hg : ∀ s tip, g (DbState.advance s tip) = g s) {s₀ : Session} (hmode : t.mode ≠ .readOnly)
    (hrun : t.commit cfg f s₀ = (.done (), s)) :
    ∃ frames, t.frames cfg s₀ = .ok frames ∧ f.Lands t frames ∧
      g s.state = g (t.committed frames s₀.state) := by
  have hends : Ends _ _ (t.commit cfg f s₀) := meets_commit hmode s₀ rfl
  rw [hrun] at hends
  obtain ⟨frames, s₁, hframes, hlands, hworking, hlast⟩ := hends
  refine ⟨frames, hframes, hlands, ?_⟩
  rw [← hworking.state]
  simp only at hlast
  split at hlast
  · obtain ⟨r, hcompact, -⟩ := hlast
    have hnamed : (s₁.onState (t.committed frames)).state.metadata.isSome := by
      show (t.committed frames s₁.state).metadata.isSome
      rw [metadata_committed]
      rfl
    exact kept_compactNow g hg hnamed hcompact
  · rw [hlast]
    rfl

/-- A commit that returns has landed, and its metadata are the committed ones. -/
theorem metadata_commit_done {s₀ : Session} (hmode : t.mode ≠ .readOnly)
    (hrun : t.commit cfg f s₀ = (.done (), s)) :
    (∃ frames, t.frames cfg s₀ = .ok frames ∧ f.Lands t frames) ∧
      s.state.metadata = some t.commitMeta := by
  obtain ⟨frames, hframes, hlands, hmeta⟩ :=
    kept_commit_done DbState.metadata (fun _ _ => rfl) hmode hrun
  exact ⟨⟨frames, hframes, hlands⟩, hmeta.trans (metadata_committed t frames _)⟩

/-- A commit that fails has not landed and leaves the state in memory. -/
theorem state_commit_failed {s₀ : Session} {e : BackendError}
    (hrun : t.commit cfg f s₀ = (.failed e, s)) :
    t.mode ≠ .readOnly ∧ (¬ ∃ frames, t.frames cfg s₀ = .ok frames ∧ f.Lands t frames) ∧
      s.state = s₀.state := by
  have hmode : t.mode ≠ .readOnly := by
    intro hro
    rw [FsTxn.commit, if_pos hro] at hrun
    cases congrArg Prod.fst hrun
  have hends : Ends _ _ (t.commit cfg f s₀) := meets_commit hmode s₀ rfl
  rw [hrun] at hends
  have hfailed : FailedCommit cfg t f s₀ s := hends rfl
  unfold FailedCommit at hfailed
  refine ⟨hmode, ?_⟩
  cases hframes : t.frames cfg s₀ with
  | error err =>
      rw [hframes] at hfailed
      obtain rfl : s = s₀ := hfailed
      refine ⟨?_, rfl⟩
      rintro ⟨frames, hok, -⟩
      cases hok
  | ok frames =>
      rw [hframes] at hfailed
      obtain ⟨hlands, hworking⟩ := hfailed
      refine ⟨?_, hworking.state⟩
      rintro ⟨frames', hok, hlands'⟩
      obtain rfl := Except.ok.inj hok
      exact hlands hlands'

/-- A commit that returns. -/
theorem inv_commitOk (h : w.Inv name) (hsafe : (Action.commit t f).Safe cfg w)
    (hrun : t.commit cfg f w.session = (.done (), s)) (active : List FsTxn) :
    World.Inv name ⟨s, active, w.log ++ t.loggedOps⟩ := by
  by_cases hmode : t.mode = .readOnly
  · rw [FsTxn.commit, if_pos hmode] at hrun
    obtain rfl : w.session = s := congrArg Prod.snd hrun
    rw [FsTxn.loggedOps, if_pos hmode, List.append_nil]
    exact h
  have hends : Ends _ _ (t.commit cfg f w.session) := meets_commit hmode w.session rfl
  rw [hrun] at hends
  obtain ⟨frames, s₁, hframes, hlands, hw, hlast⟩ := hends
  obtain ⟨hcurrent, hread, hcompact⟩ := (hsafe hmode frames hframes).2 hlands
  have hdone := Durable.commit h hframes hread hw fun hdirty => by
    rw [metadata_of_not_dirty hdirty]
    exact hcurrent
  have hops : (w.log ++ t.loggedOps).flatten = w.log.flatten ++ t.ops := by
    rw [FsTxn.loggedOps, if_neg hmode]
    simp
  rw [World.Inv, hops]
  simp only at hlast
  split at hlast
  · rename_i hcompacts
    obtain ⟨r, hrun', hr⟩ := hlast
    exact hdone.compact (hcompact ⟨hcompacts.1, hw.state ▸ hcompacts.2⟩) hr hrun'
  · rw [hlast]
    exact hdone

/-- A commit that fails and leaves the log as it was. -/
theorem inv_commitErr {e : BackendError} (h : w.Inv name)
    (hsafe : (Action.commit t f).Safe cfg w)
    (hrun : t.commit cfg f w.session = (.failed e, s)) (active : List FsTxn) :
    World.Inv name ⟨s, active, w.log⟩ := by
  obtain ⟨hmode, -, -⟩ := state_commit_failed hrun
  have hends : Ends _ _ (t.commit cfg f w.session) := meets_commit hmode w.session rfl
  rw [hrun] at hends
  have hfailed : FailedCommit cfg t f w.session s := hends rfl
  unfold FailedCommit at hfailed
  cases hframes : t.frames cfg w.session with
  | error err =>
      rw [hframes] at hfailed
      obtain rfl : s = w.session := hfailed
      exact h
  | ok frames =>
      rw [hframes] at hfailed
      obtain ⟨hlands, hfailed⟩ := hfailed
      have hkeeps := (hsafe hmode frames hframes).1 hlands
      unfold CommitFaults.KeepsLog at hkeeps
      have hleft : f.leftLog (f.knownLen w.session.log)
          (w.session.log ++ (f.reach t.walSync 0 frames).1) = w.session.log := by
        unfold CommitFaults.leftLog CommitFaults.knownLen
        split_ifs at hkeeps ⊢ with htruncate hlen
        · exact List.take_left
        · rw [hkeeps.resolve_left hlen, List.take_zero]
        · rw [hkeeps, List.append_nil]
      rw [hleft] at hfailed
      exact Durable.working h hfailed

/-- **Every safe step keeps the invariant.** -/
theorem World.Inv.step {w' : World} {a : Action} (h : w.Inv name) (hsafe : a.Safe cfg w)
    (hstep : Step name cfg w a w') : w'.Inv name := by
  cases hstep with
  | begin hm => exact h
  | edit before after hactive hmode hbegun => exact h
  | commitOk before after hactive hrun => exact inv_commitOk h hsafe hrun _
  | commitErr before after hactive hrun => exact inv_commitErr h hsafe hrun _
  | abort before after hactive => exact h
  | compact hrun hr => exact Durable.compact h hsafe hr hrun
  | reopen hrun =>
      obtain ⟨s', hopen, hdurable⟩ := Durable.reopen h
      obtain rfl := Except.ok.inj (hopen.symm.trans hrun)
      exact hdurable
  | @release seq hold =>
      refine Durable.prepared h ⟨rfl, rfl, rfl, rfl, fun seq' hseq' => ?_, rfl⟩
      have hne : seq' ≠ seq := by
        rintro rfl
        exact hold hseq'
      exact Function.update_of_ne hne _ _

theorem SafeRun.inv (h : SafeRun name cfg w) : w.Inv name := by
  induction h with
  | start => exact durable_fresh name
  | step _ hsafe hstep ih => exact ih.step hsafe hstep

end Steps

/-- **No committed transaction is lost on a safe run.** In every world that it reaches,
the directory can be reopened and shows every transaction whose commit returned `Ok`, in
commit order and with all of its effects. -/
theorem SafeRun.durable {name : Utf16String} {cfg : FsConfig} {w : World}
    (h : SafeRun name cfg w) :
    ∃ s, openDatabase name w.session.disk = .ok s ∧ ShowsAll w.log s.state.view := by
  obtain ⟨s, hopen, hdurable⟩ := Durable.reopen h.inv
  exact ⟨s, hopen, hdurable.memory.showsAll⟩

/-- What a strict upgrade to version 1 leaves behind, from a session without other
transactions. -/
def upgraded (s : Session) : World :=
  ⟨(strictUpgrade.commit defaultConfig {} s).2, [], [strictUpgrade.ops]⟩

/-- The three steps of that upgrade, from any session with the metadata of a new database
whose commit returns. -/
theorem steps_upgraded {s : Session} (hm : s.state.metadata = some (emptyMeta []))
    (hdone : (strictUpgrade.commit defaultConfig {} s).1 = .done ()) :
    Step [] defaultConfig ⟨s, [], []⟩ (.begin .versionChange [] .strict)
        ⟨s, [FsTxn.begin .versionChange [] (emptyMeta []) .strict], []⟩ ∧
      Step [] defaultConfig ⟨s, [FsTxn.begin .versionChange [] (emptyMeta []) .strict], []⟩
        (.edit (FsTxn.begin .versionChange [] (emptyMeta []) .strict) strictUpgrade)
        ⟨s, [strictUpgrade], []⟩ ∧
      Step [] defaultConfig ⟨s, [strictUpgrade], []⟩ (.commit strictUpgrade {}) (upgraded s) := by
  refine ⟨.begin hm, ?_, ?_⟩
  · exact .edit [] [] rfl rfl rfl
  · exact .commitOk [] [] rfl (Prod.ext hdone rfl)

/-- The upgrade of a new directory without any fault is there after reopening. -/
theorem SafeRun.durable_upgraded :
    ∃ s, openDatabase [] (upgraded (freshSession [])).session.disk = .ok s ∧
      ShowsAll (upgraded (freshSession [])).log s.state.view := by
  obtain ⟨hbegin, hedit, hcommit⟩ := steps_upgraded (s := freshSession []) rfl rfl
  have hbegun : SafeRun [] defaultConfig _ := SafeRun.start.step (by exact trivial) hbegin
  have hedited : SafeRun [] defaultConfig _ := hbegun.step (by exact trivial) hedit
  have hsafe : (Action.commit strictUpgrade {}).Safe defaultConfig
      ⟨freshSession [], [strictUpgrade], []⟩ := by
    refine fun _ frames hframes => ⟨fun _ => .inl rfl, fun _ => ⟨rfl, ?_, fun _ => ?_⟩⟩
    · exact readableFrames_of_le le_rfl hframes
    · rintro ⟨-, e, he⟩
      cases he
  exact (hedited.step hsafe hcommit).durable

/-- A new database behind a compaction whose swap of `CURRENT` was reported as failed. -/
def leftBehind : Session := (compactNow currentSyncFails (freshSession [])).2

/-- The same upgrade, after a compaction whose swap of `CURRENT` was reported as failed:
its commit returns `Ok` and reopening the directory shows the database without it. -/
theorem upgrade_lost :
    Relation.ReflTransGen (fun w w' => ∃ a, Step [] defaultConfig w a w')
        ⟨freshSession [], [], []⟩ (upgraded leftBehind) ∧
      ¬ ∃ s, openDatabase [] (upgraded leftBehind).session.disk = .ok s ∧
        ShowsAll (upgraded leftBehind).log s.state.view := by
  have hdone : (strictUpgrade.commit defaultConfig {} leftBehind).1 = .done () := rfl
  obtain ⟨hbegin, hedit, hcommit⟩ := steps_upgraded (s := leftBehind) rfl hdone
  have hcompact : Step [] defaultConfig ⟨freshSession [], [], []⟩ (.compact currentSyncFails)
      ⟨leftBehind, [], []⟩ :=
    .compact rfl (by simp)
  refine ⟨(((Relation.ReflTransGen.single ⟨_, hcompact⟩).tail ⟨_, hbegin⟩).tail ⟨_, hedit⟩).tail
    ⟨_, hcommit⟩, ?_⟩
  rintro ⟨s, hopen, v₀, -, -, hview⟩
  have hold : (openDatabase [] (upgraded leftBehind).session.disk).map
      (fun s => s.state.view.schema.map DatabaseMeta.version) = .ok (some 0) := rfl
  rw [hopen] at hold
  simp only [Except.map, Except.ok.injEq] at hold
  rw [hview] at hold
  have hnew :
      ((upgraded leftBehind).log.flatten.foldl View.apply v₀).schema.map DatabaseMeta.version =
      some 1 := rfl
  rw [hnew] at hold
  cases hold

end BoaIdb.Fs
