import BoaIdb.Fs.Compaction
import BoaIdb.Fs.Effects

/-!
What a commit leaves behind, however it ends.

A commit that reports an error has not touched the state. On disk it has changed
at most the bytes of the log and `meta.scf`, and both are determined by the
outcomes of its file operations: how much of the frames reached the log, what the
repair cut off, and whether `meta.scf` had been replaced.
-/

namespace BoaIdb.Fs

open OrdMap Faults

/-! ### Where a commit can leave the log -/

/-- The bytes of the frames that reach the log, and whether every step on the way
succeeds. -/
def CommitFaults.reach (f : CommitFaults) (walSync : Bool) : ℕ → List Bytes → Bytes × Bool
  | _, [] => ([], true)
  | i, bytes :: rest =>
      if (f.append i).append ≠ .ok then (bytes.take (f.append i).written, false)
      else if (walSync && rest.isEmpty) = true ∧ (f.append i).sync ≠ .ok then (bytes, false)
      else (bytes ++ (f.reach walSync (i + 1) rest).1, (f.reach walSync (i + 1) rest).2)

/-- The log behind the repair of a failed step. -/
def CommitFaults.leftLog (f : CommitFaults) (len : ℕ) (bytes : Bytes) : Bytes :=
  if f.truncate = .ok then bytes.take len else bytes

/-- What the commit takes the length of the log to be. -/
def CommitFaults.knownLen (f : CommitFaults) (bytes : Bytes) : ℕ :=
  if f.metadataLen = .ok then bytes.length else 0

/-- The directory differs only in the bytes of one log and in `meta.scf`. -/
structure Disk.Rewritten (d : Disk) (wal : ℕ) (bytes : Bytes) (metaScf : Option DatabaseMeta)
    (d' : Disk) : Prop where
  current : d'.current = d.current
  manifests : d'.manifests = d.manifests
  segFiles : d'.segFiles = d.segFiles
  metaScf : d'.metaScf = metaScf
  walBytes : d'.walBytes wal = bytes

/-- The session while a commit works: the state untouched, the log at `bytes`. -/
structure Working (s₀ : Session) (bytes : Bytes) (metaScf : Option DatabaseMeta) (s : Session) :
    Prop where
  state : s.state = s₀.state
  disk : s₀.disk.Rewritten s₀.state.walSeq bytes metaScf s.disk

/-- The log a session commits to. -/
def Session.log (s : Session) : Bytes := s.disk.walBytes s.state.walSeq

/-- What is said of an early end that reports an error. -/
def OnError (P : Session → Prop) : Option BackendError → Session → Prop :=
  fun e s => e.isSome → P s

section Steps

variable {s₀ : Session} {bytes : Bytes} {metaScf : Option DatabaseMeta} {len : ℕ}

theorem Working.refl (s : Session) : Working s s.log s.disk.metaScf s :=
  ⟨rfl, rfl, rfl, rfl, rfl, rfl⟩

theorem Working.setWal {s : Session} (h : Working s₀ bytes metaScf s) (bytes' : Bytes) :
    Working s₀ bytes' metaScf (s.onDisk (Disk.setWal s₀.state.walSeq bytes')) :=
  ⟨h.state, h.disk.current, h.disk.manifests, h.disk.segFiles, h.disk.metaScf,
    (walBytes_setWal _ _ _ _).trans (if_pos rfl)⟩

theorem Working.append {s : Session} (h : Working s₀ bytes metaScf s) (more : Bytes) :
    Working s₀ (bytes ++ more) metaScf (s.onDisk (Disk.appendWal s₀.state.walSeq more)) := by
  have hset := h.setWal (bytes ++ more)
  rwa [← h.disk.walBytes] at hset ⊢

theorem Working.truncate {s : Session} (h : Working s₀ bytes metaScf s) (len : ℕ) :
    Working s₀ (bytes.take len) metaScf (s.onDisk (Disk.truncateWal s₀.state.walSeq len)) := by
  have hset := h.setWal (bytes.take len)
  rwa [← h.disk.walBytes] at hset ⊢

theorem Working.setMetaScf {s : Session} (h : Working s₀ bytes metaScf s) (m : DatabaseMeta) :
    Working s₀ bytes (some m) (s.onDisk (Disk.setMetaScf m)) :=
  ⟨h.state, h.disk.current, h.disk.manifests, h.disk.segFiles, rfl, h.disk.walBytes⟩

/-- A step with the repair behind it. -/
theorem meets_orRepair {pre : Session → Prop} {p : FsProg Unit} {post : Unit → Session → Prop}
    {P Q : Session → Prop} {f : CommitFaults} (h : Meets pre p post (OnError P))
    (hkeep : f.truncate ≠ .ok → ∀ s, P s → Q s)
    (hcut : f.truncate = .ok → ∀ s, P s → Q (s.onDisk (Disk.truncateWal s₀.state.walSeq len))) :
    Meets pre (orRepair s₀.state.walSeq len f.truncate p) post (OnError Q) := by
  unfold orRepair
  refine (h.attempt.mono (fun _ => id) (fun _ _ => id) ?_).bind fun r => ?_
  · rintro _ s ⟨rfl, -⟩ he
    simp at he
  cases r with
  | ok a => exact meets_pure fun s hs => hs
  | error err =>
      have htruncate : Meets (OnError P (some err)) (truncateFile s₀.state.walSeq len f.truncate)
          (fun _ => Q) (fun _ => Q) :=
        meets_fsOp (fun hok s hs => hcut hok s (hs rfl)) fun e s hr hs => hkeep hr.ne_ok s (hs rfl)
      refine (htruncate.attempt.mono (fun _ => id) (fun r s hs => ?_) ?_).bind fun _ =>
        meets_throw fun s (hs : Q s) _ => hs
      · cases r <;> exact hs
      · rintro _ s ⟨rfl, -⟩ he
        simp at he

/-- One frame: the whole of it, or what its outcomes let through. -/
theorem meets_append {data : Bytes} {sync : Bool} {f : AppendFaults} :
    Meets (Working s₀ bytes metaScf) (appendAndMaybeSync s₀.state.walSeq data sync f)
      (fun _ s => (f.append = .ok ∧ (sync = true → f.sync = .ok)) ∧
        Working s₀ (bytes ++ data) metaScf s)
      (OnError fun s => f.append ≠ .ok ∧ Working s₀ (bytes ++ data.take f.written) metaScf s ∨
        f.append = .ok ∧ sync = true ∧ f.sync ≠ .ok ∧ Working s₀ (bytes ++ data) metaScf s) := by
  have happend : Meets (Working s₀ bytes metaScf)
      (Prog.tornOp (asBackend "append wal" f.append)
        (Session.onDisk (Disk.appendWal s₀.state.walSeq data))
        (Session.onDisk (Disk.appendWal s₀.state.walSeq (data.take f.written))))
      (fun _ s => f.append = .ok ∧ Working s₀ (bytes ++ data) metaScf s)
      (OnError fun s => f.append ≠ .ok ∧ Working s₀ (bytes ++ data.take f.written) metaScf s ∨
        f.append = .ok ∧ sync = true ∧ f.sync ≠ .ok ∧ Working s₀ (bytes ++ data) metaScf s) := by
    refine meets_tornOp (fun ho s hs => ⟨?_, hs.append data⟩)
      (fun e ho s hs _ => .inl ⟨?_, hs.append _⟩) (fun ho s hs he => by simp at he)
    · cases h : f.append <;> simp_all [asBackend]
    · intro hok
      simp [hok, asBackend] at ho
  refine happend.bind fun _ => Meets.of_imp fun hok => ?_
  refine (meets_reportWhen fun hsync e s hr hs _ => ?_).mono (fun _ => id) ?_ fun _ _ => id
  · exact .inr ⟨hok, hsync, hr.ne_ok, hs⟩
  · exact fun _ s hs => ⟨⟨hok, hs.1⟩, hs.2⟩

/-- The frames, one after the other. -/
theorem meets_appendFrames {f : CommitFaults} {walSync : Bool} (i : ℕ) (frames : List Bytes) :
    Meets (Working s₀ bytes metaScf) (appendFrames s₀.state.walSeq len walSync f i frames)
      (fun _ s => (f.reach walSync i frames).2 = true ∧
        Working s₀ (bytes ++ (f.reach walSync i frames).1) metaScf s)
      (OnError fun s => (f.reach walSync i frames).2 = false ∧
        Working s₀ (f.leftLog len (bytes ++ (f.reach walSync i frames).1)) metaScf s) := by
  induction frames generalizing i bytes with
  | nil =>
      refine meets_pure fun s hs => ⟨rfl, ?_⟩
      rwa [CommitFaults.reach, List.append_nil]
  | cons data rest ih =>
      have hleft {b : Bytes} {s : Session} (hs : Working s₀ b metaScf s) (h : f.truncate ≠ .ok) :
          Working s₀ (f.leftLog len b) metaScf s := by
        rwa [CommitFaults.leftLog, if_neg h]
      have hcut {b : Bytes} {s : Session} (hs : Working s₀ b metaScf s) (h : f.truncate = .ok) :
          Working s₀ (f.leftLog len b) metaScf
            (s.onDisk (Disk.truncateWal s₀.state.walSeq len)) := by
        rw [CommitFaults.leftLog, if_pos h]
        exact hs.truncate len
      have htorn (h : (f.append i).append ≠ .ok) : f.reach walSync i (data :: rest) =
          (data.take (f.append i).written, false) := by
        rw [CommitFaults.reach, if_pos h]
      have hunsynced (h : (f.append i).append = .ok) (hsync : (walSync && rest.isEmpty) = true)
          (h' : (f.append i).sync ≠ .ok) : f.reach walSync i (data :: rest) = (data, false) := by
        rw [CommitFaults.reach, if_neg (by simp [h]), if_pos ⟨hsync, h'⟩]
      refine (meets_orRepair meets_append ?_ ?_).bind fun _ => Meets.of_imp fun hok => ?_
      · rintro htr s (⟨h, hs⟩ | ⟨h, hsync, h', hs⟩)
        · rw [htorn h]
          exact ⟨rfl, hleft hs htr⟩
        · rw [hunsynced h hsync h']
          exact ⟨rfl, hleft hs htr⟩
      · rintro htr s (⟨h, hs⟩ | ⟨h, hsync, h', hs⟩)
        · rw [htorn h]
          exact ⟨rfl, hcut hs htr⟩
        · rw [hunsynced h hsync h']
          exact ⟨rfl, hcut hs htr⟩
      · have hreach : f.reach walSync i (data :: rest) =
            (data ++ (f.reach walSync (i + 1) rest).1, (f.reach walSync (i + 1) rest).2) := by
          rw [CommitFaults.reach, if_neg (by simp [hok.1]), if_neg]
          exact fun h => h.2 (hok.2 h.1)
        rw [hreach]
        have hrest : Meets (Working s₀ (bytes ++ data) metaScf) _ _ _ := ih (i + 1)
        simpa only [List.append_assoc] using hrest

theorem reach_eq_flatten {f : CommitFaults} {walSync : Bool} {i : ℕ} {frames : List Bytes}
    (h : (f.reach walSync i frames).2 = true) : (f.reach walSync i frames).1 = frames.flatten := by
  induction frames generalizing i with
  | nil => rfl
  | cons data rest ih =>
      unfold CommitFaults.reach at h ⊢
      split_ifs at h ⊢
      · simp only at h ⊢
        rw [List.flatten_cons, ih h]

/-- Whatever reaches the log is a part of the frames, from their start. -/
theorem reach_cut (f : CommitFaults) (walSync : Bool) (i : ℕ) (frames : List Bytes) :
    (f.reach walSync i frames).1 <+: frames.flatten := by
  induction frames generalizing i with
  | nil => exact List.prefix_refl _
  | cons data rest ih =>
      rw [List.flatten_cons]
      unfold CommitFaults.reach
      split_ifs
      · exact (List.take_prefix _ _).trans (List.prefix_append _ _)
      · exact List.prefix_append _ _
      · exact (List.prefix_append_right_inj _).mpr (ih (i + 1))

end Steps

/-! ### The commit -/

/-- Frames are synced when the durability or a change of the metadata asks for it. -/
def FsTxn.walSync (t : FsTxn) : Bool := t.wantsSync || t.metaDirty

def FsTxn.frames (t : FsTxn) (cfg : FsConfig) (s : Session) : Except CodecError (List Bytes) :=
  encodeTxnFramesLimited s.state.nextTxnSeq t.ops cfg.maxFramePayload

/-- A failed commit has replaced `meta.scf` all the same. -/
def CommitFaults.Leaks (f : CommitFaults) (t : FsTxn) (frames : List Bytes) : Prop :=
  t.metaDirty = true ∧ (f.reach t.walSync 0 frames).2 = true ∧ f.metaScf.Replaces t.wantsSync

instance (f : CommitFaults) (t : FsTxn) (frames : List Bytes) : Decidable (f.Leaks t frames) :=
  inferInstanceAs (Decidable (_ ∧ _ ∧ _))

/-- Every step up to the change of the state succeeds. -/
def CommitFaults.Lands (f : CommitFaults) (t : FsTxn) (frames : List Bytes) : Prop :=
  (f.reach t.walSync 0 frames).2 = true ∧ (t.metaDirty = true → f.metaScf.Succeeds t.wantsSync)

instance (f : CommitFaults) (t : FsTxn) (frames : List Bytes) : Decidable (f.Lands t frames) :=
  inferInstanceAs (Decidable (_ ∧ (_ → _)))

/-- What a commit that reports an error leaves behind. -/
def FailedCommit (cfg : FsConfig) (t : FsTxn) (f : CommitFaults) (s₀ s : Session) : Prop :=
  match t.frames cfg s₀ with
  | .error _ => s = s₀
  | .ok frames =>
      ¬ f.Lands t frames ∧ Working s₀
        (f.leftLog (f.knownLen s₀.log) (s₀.log ++ (f.reach t.walSync 0 frames).1))
        (if f.Leaks t frames then some t.commitMeta else s₀.disk.metaScf) s

/-- The state behind a commit, with the counters moved if it logged anything. -/
def FsTxn.committed (t : FsTxn) (frames : List Bytes) (s : DbState) : DbState :=
  let s' := t.applyPendingToState t.commitMeta s.nextTxnSeq (!t.ops.isEmpty) s
  if t.ops.isEmpty then s'
  else { s' with
    walBytesSinceCompact := s'.walBytesSinceCompact + (frames.map List.length).sum
    walFramesSinceCompact := s'.walFramesSinceCompact + 1 }

/-- The committed state is what replaying the transaction's operations leads to. -/
theorem FsTxn.replays_committed {t : FsTxn} {frames : List Bytes} {s : DbState}
    (h : t.PayloadMeta)
    (hschema : t.metaDirty = false → s.metadata.map schemaOf = some (schemaOf t.metadata)) :
    Replays s t.ops (t.committed frames s) := by
  have hview : (t.applyPendingToState t.commitMeta s.nextTxnSeq (!t.ops.isEmpty) s).view =
      t.ops.foldl View.apply s.view := by
    rw [FsTxn.foldl_ops h]
    refine View.ext rfl rfl (fun store => ?_) ?_
    · change ((s.keyGenerators.merge some t.pendingKeyGenerators).get? store).getD keyGenStart = _
      rw [OrderedMap.get?_merge]
      simp only [FsTxn.effect]
      cases t.pendingKeyGenerators.get? store <;> rfl
    · change some (schemaOf t.commitMeta) = _
      rw [FsTxn.schemaOf_commitMeta]
      simp only [FsTxn.effect]
      cases hdirty : t.metaDirty with
      | true => rfl
      | false => exact (hschema hdirty).symm
  have hgen (store : StoreId) := t.foldl_onGenerator_ops store s.keyGenerators
  unfold FsTxn.committed
  simp only
  split
  · exact ⟨hview, fun store => (hgen store).symm, rfl, fun _ => rfl⟩
  · exact ⟨hview, fun store => (hgen store).symm, rfl, fun _ => rfl⟩

/-- What a commit that returns leaves behind: the frames in the log, the pending changes
in the state, and whatever a compaction made of that. -/
def DoneCommit (cfg : FsConfig) (t : FsTxn) (f : CommitFaults) (s₀ s : Session) : Prop :=
  ∃ frames s₁, t.frames cfg s₀ = .ok frames ∧ f.Lands t frames ∧
    Working s₀ (s₀.log ++ frames.flatten)
      (if t.metaDirty then some t.commitMeta else s₀.disk.metaScf) s₁ ∧
    let s₂ := s₁.onState (t.committed frames)
    if t.ops ≠ [] ∧ cfg.compact.shouldCompact s₂.state = true then
      ∃ r, compactNow f.compact s₂ = (r, s) ∧ r ≠ .stopped
    else s = s₂

section Commit

variable {cfg : FsConfig} {t : FsTxn} {f : CommitFaults} {s₀ : Session}

theorem meets_walLenBefore {wal : ℕ} : Meets (· = s₀) (walLenBefore wal f.metadataLen)
    (fun len s => len = f.knownLen (s₀.disk.walBytes wal) ∧ s = s₀) (OnError fun _ => False) := by
  rintro s rfl
  unfold walLenBefore
  cases h : f.metadataLen with
  | ok => exact ⟨by rw [CommitFaults.knownLen, if_pos h], rfl⟩
  | fail e => exact ⟨by rw [CommitFaults.knownLen, if_neg (by simp [h])], rfl⟩
  | stop => exact fun he => absurd he (by simp)

/-- The replacement of `meta.scf`, with the repair of the log behind it. -/
theorem meets_commitMeta {len : ℕ} {bytes : Bytes} {metaScf : Option DatabaseMeta}
    {m : DatabaseMeta} {sync : Bool} :
    Meets (Working s₀ bytes metaScf)
      (orRepair s₀.state.walSeq len f.truncate (writeMetaFile m sync f.metaScf))
      (fun _ s => f.metaScf.Succeeds sync ∧ Working s₀ bytes (some m) s)
      (OnError fun s => ¬ f.metaScf.Succeeds sync ∧ Working s₀ (f.leftLog len bytes)
        (if f.metaScf.Replaces sync then some m else metaScf) s) := by
  have hwrite : Meets (Working s₀ bytes metaScf) (writeMetaFile m sync f.metaScf)
      (fun _ s => f.metaScf.Succeeds sync ∧ Working s₀ bytes (some m) s)
      (OnError fun s => ¬ f.metaScf.Succeeds sync ∧
        Working s₀ bytes (if f.metaScf.Replaces sync then some m else metaScf) s) := by
    refine meets_atomicWrite (fun hrep hsync s hs => ⟨⟨hrep, hsync⟩, hs.setMetaScf m⟩)
      (fun hrep e s hs _ => ⟨fun h => hrep h.1, ?_⟩)
      (fun hrep hsync e s hfail hs _ => ⟨fun h => hfail.ne_ok (h.2 hsync), ?_⟩)
    · rwa [if_neg hrep]
    · rw [if_pos hrep]
      exact hs.setMetaScf m
  refine meets_orRepair hwrite (fun h s hs => ⟨hs.1, ?_⟩) (fun h s hs => ⟨hs.1, ?_⟩)
  · rw [CommitFaults.leftLog, if_neg h]
    exact hs.2
  · rw [CommitFaults.leftLog, if_pos h]
    exact hs.2.truncate len

/-- Counting and compacting behind a commit that logged something. -/
theorem meets_countAndCompact {s₁ : Session} {appended : ℕ} :
    Meets (· = s₁) (countAndCompact cfg f appended)
      (fun _ s =>
        let s₂ := s₁.onState fun s => { s with
          walBytesSinceCompact := s.walBytesSinceCompact + appended
          walFramesSinceCompact := s.walFramesSinceCompact + 1 }
        if cfg.compact.shouldCompact s₂.state = true then
          ∃ r, compactNow f.compact s₂ = (r, s) ∧ r ≠ .stopped
        else s = s₂)
      (OnError fun _ => False) := by
  let s₂ := s₁.onState fun s => { s with
    walBytesSinceCompact := s.walBytesSinceCompact + appended
    walFramesSinceCompact := s.walFramesSinceCompact + 1 }
  have hcount : Meets (· = s₁) (Prog.modify (Session.onState fun s => { s with
      walBytesSinceCompact := s.walBytesSinceCompact + appended
      walFramesSinceCompact := s.walFramesSinceCompact + 1 }) : FsProg Unit) (fun _ => (· = s₂))
      (OnError fun _ => False) := meets_modify fun s hs => by rw [hs]
  refine hcount.bind fun _ => ?_
  have hcompact : Meets (· = s₂) (maybeCompact cfg.compact f.compact)
      (fun _ s => if cfg.compact.shouldCompact s₂.state = true then
          ∃ r, compactNow f.compact s₂ = (r, s) ∧ r ≠ .stopped
        else s = s₂)
      (OnError fun s => if cfg.compact.shouldCompact s₂.state = true then
          ∃ r, compactNow f.compact s₂ = (r, s) ∧ r ≠ .stopped
        else s = s₂) := by
    refine meets_read fun s hs => ?_
    subst hs
    cases hshould : cfg.compact.shouldCompact s₂.state with
    | false =>
        simp only [Bool.false_eq_true, if_false]
        exact meets_pure fun s hs => hs
    | true =>
        simp only [if_true]
        refine ((meets_self (compactNow f.compact) s₂).mono (fun _ => id) (fun _ _ => id) ?_).bind
          fun _ => meets_pure fun s hs => ⟨_, hs, by simp⟩
        rintro (_ | e) s hs he
        · simp at he
        · exact ⟨_, hs, by simp⟩
  refine (hcompact.attempt.mono (fun _ => id) (fun _ _ => id) ?_).bind fun r =>
    meets_pure fun s hs => ?_
  · rintro _ s ⟨rfl, -⟩ he
    simp at he
  · cases r with
    | ok _ => exact hs
    | error _ => exact hs rfl

/-- Behind the encoding: append, replace `meta.scf`, apply, compact. -/
theorem meets_commitFrames {frames : List Bytes} (hframes : t.frames cfg s₀ = .ok frames) :
    Meets (· = s₀)
      (t.commitFrames cfg f s₀.state.walSeq (f.knownLen s₀.log) s₀.state.nextTxnSeq frames)
      (fun _ => DoneCommit cfg t f s₀) (OnError (FailedCommit cfg t f s₀)) := by
  let metaScf := if t.metaDirty then some t.commitMeta else s₀.disk.metaScf
  -- a failed append lands nothing, and `meta.scf` is not reached
  have happend :
      Meets (· = s₀) (appendFrames s₀.state.walSeq (f.knownLen s₀.log) t.walSync f 0 frames)
      (fun _ s => (f.reach t.walSync 0 frames).2 = true ∧
        Working s₀ (s₀.log ++ frames.flatten) s₀.disk.metaScf s)
      (OnError (FailedCommit cfg t f s₀)) := by
    have hall : Meets (Working s₀ s₀.log s₀.disk.metaScf)
        (appendFrames s₀.state.walSeq (f.knownLen s₀.log) t.walSync f 0 frames) _ _ :=
      meets_appendFrames 0 frames
    refine hall.mono (fun s hs => ?_) ?_ ?_
    · subst hs
      exact Working.refl s
    · rintro - s ⟨hreach, hs⟩
      rw [reach_eq_flatten hreach] at hs
      exact ⟨hreach, hs⟩
    · intro e s hs he
      obtain ⟨hreach, hs⟩ := hs he
      rw [FailedCommit, hframes]
      simp only
      have hleaks : ¬ f.Leaks t frames := fun h => by
        rw [CommitFaults.Leaks, hreach] at h
        exact absurd h.2.1 (by simp)
      rw [if_neg hleaks]
      refine ⟨fun h => ?_, hs⟩
      rw [CommitFaults.Lands, hreach] at h
      exact absurd h.1 (by simp)
  -- a failed write of `meta.scf` is repaired in the log alone
  have hmeta (hreach : (f.reach t.walSync 0 frames).2 = true) :
      Meets (Working s₀ (s₀.log ++ frames.flatten) s₀.disk.metaScf)
        (whenSet t.metaDirty (orRepair s₀.state.walSeq (f.knownLen s₀.log) f.truncate
          (writeMetaFile t.commitMeta t.wantsSync f.metaScf)))
        (fun _ s => f.Lands t frames ∧ Working s₀ (s₀.log ++ frames.flatten) metaScf s)
        (OnError (FailedCommit cfg t f s₀)) := by
    simp only [metaScf]
    cases hdirty : t.metaDirty with
    | false =>
        refine meets_pure fun s hs => ⟨⟨hreach, fun h => ?_⟩, hs⟩
        rw [hdirty] at h
        cases h
    | true =>
        refine meets_commitMeta.mono (fun _ => id) (fun _ s hs => ⟨⟨hreach, fun _ => hs.1⟩, hs.2⟩)
          fun e s hs he => ?_
        have hs := hs he
        rw [FailedCommit, hframes]
        simp only [CommitFaults.Leaks, hdirty, hreach, true_and]
        refine ⟨fun h => hs.1 (h.2 hdirty), ?_⟩
        rw [reach_eq_flatten hreach]
        exact hs.2
  unfold FsTxn.commitFrames
  refine happend.bind fun _ => Meets.of_imp fun hreach => (hmeta hreach).bind fun _ =>
    Meets.of_imp fun hlands => meets_of_forall fun s₁ hs₁ => ?_
  let s₂ := s₁.onState (t.applyPendingToState t.commitMeta s₀.state.nextTxnSeq (!t.ops.isEmpty))
  have happly : Meets (· = s₁) (Prog.modify (Session.onState
      (t.applyPendingToState t.commitMeta s₀.state.nextTxnSeq (!t.ops.isEmpty))) : FsProg Unit)
      (fun _ => (· = s₂)) (OnError (FailedCommit cfg t f s₀)) :=
    meets_modify fun s hs => by rw [hs]
  refine happly.bind fun _ => ?_
  change Meets _ (whenSet (!t.ops.isEmpty) _) _ _
  have hseq : s₁.state.nextTxnSeq = s₀.state.nextTxnSeq := by rw [hs₁.state]
  -- only a commit that logged something is counted, and may compact
  cases hempty : t.ops.isEmpty with
  | true =>
      refine meets_pure fun s hs => ⟨frames, s₁, hframes, hlands, hs₁, ?_⟩
      subst hs
      rw [if_neg fun h => h.1 (List.isEmpty_iff.mp hempty)]
      simp only [s₂, FsTxn.committed, Session.onState, hempty, hseq, if_true]
  | false =>
      have hne : t.ops ≠ [] := fun h => by simp [h] at hempty
      refine meets_countAndCompact.mono (fun _ => id)
        (fun _ s hs => ⟨frames, s₁, hframes, hlands, hs₁, ?_⟩) fun _ _ h he => (h he).elim
      simp only [s₂, FsTxn.committed, Session.onState, hempty, hseq, Bool.false_eq_true, if_false,
        hne, ne_eq, not_false_eq_true, true_and] at hs ⊢
      exact hs

/-- **The ways a commit can end.** -/
theorem meets_commit (hmode : t.mode ≠ .readOnly) :
    Meets (· = s₀) (t.commit cfg f) (fun _ => DoneCommit cfg t f s₀)
      (OnError (FailedCommit cfg t f s₀)) := by
  unfold FsTxn.commit
  rw [if_neg hmode]
  refine meets_read fun s hs => ?_
  subst hs
  refine (meets_walLenBefore.mono (fun _ => id) (fun _ _ => id) fun _ _ h he => (h he).elim).bind
    fun len => Meets.of_imp fun hlen => ?_
  subst hlen
  change Meets _ (match t.frames cfg s with
    | .error err => Prog.throw (encodeError cfg err)
    | .ok frames =>
        t.commitFrames cfg f s.state.walSeq (f.knownLen s.log) s.state.nextTxnSeq frames)
    _ _
  cases hframes : t.frames cfg s with
  | error err =>
      refine meets_throw fun s' hs' _ => ?_
      rw [FailedCommit, hframes]
      exact hs'
  | ok frames => exact meets_commitFrames hframes

end Commit

end BoaIdb.Fs
