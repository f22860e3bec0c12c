import BoaIdb.Fs.Compact
import BoaIdb.Fs.Reopen

/-!
Compaction does not change the logical database.

Until `CURRENT` is replaced only files of the next generation are touched, and
from then on the directory shows the segment that was written from memory. The
tip in memory follows right behind the swap, so it is left behind exactly when
the swap took effect and its directory sync was reported as failed.
-/

namespace BoaIdb.Fs

open OrdMap Faults

/-! ### The segment shows the state it was written from -/

theorem get?_seedGenerators (stores : List StoreMeta) (g : OrderedMap StoreId F64Bits)
    (id : StoreId) : (seedGenerators g stores).get? id =
      (g.get? id).or ((stores.find? (fun s => s.id = id)).map StoreMeta.keyGen) := by
  induction stores generalizing g with
  | nil => simp [seedGenerators]
  | cons store stores ih =>
      change (seedGenerators (if g.contains store.id then g else g.insert store.id store.keyGen)
        stores).get? id = _
      rw [ih, List.find?_cons]
      by_cases hid : store.id = id
      · subst hid
        rcases hg : g.get? store.id with _ | v
        · simp [OrderedMap.contains, hg]
        · simp [OrderedMap.contains, hg]
      · have hne : id ≠ store.id := fun h => hid h.symm
        split
        · simp [hid]
        · simp [hid, OrderedMap.get?_insert_of_ne _ _ hne]

/-- A generator that was never moved is not remembered by the metadata either. -/
def DbState.Seeded (s : DbState) : Prop :=
  ∀ m, s.metadata = some m → ∀ id store, s.keyGenerators.get? id = none →
    m.stores.find? (fun s => s.id = id) = some store → store.keyGen = keyGenStart

/-- The segment of a state. -/
def DbState.segment (s : DbState) (seq : ℕ) (m : DatabaseMeta) : Segment :=
  ⟨seq, s.nextTxnSeq, m, s.records, s.indexEntries, s.keyGenerators⟩

theorem view_segment_eq_iff {s : DbState} {m : DatabaseMeta} (h : s.metadata = some m) (seq : ℕ)
    (tip : ManifestData) : ((s.segment seq m).base tip).view = s.view ↔ s.Seeded := by
  have hgen (id : StoreId) : ((s.segment seq m).base tip).generator id =
      ((s.keyGenerators.get? id).or
        ((m.stores.find? (fun s => s.id = id)).map StoreMeta.keyGen)).getD keyGenStart := by
    rw [DbState.generator, ← get?_seedGenerators]
    rfl
  constructor
  · intro hview m' hm' id store hnone hfind
    obtain rfl := Option.some.inj (h.symm.trans hm')
    have hid := congrFun (congrArg View.generator hview) id
    change ((s.segment seq m).base tip).generator id = s.generator id at hid
    rw [hgen, DbState.generator, hnone, hfind] at hid
    exact hid
  · intro hseeded
    refine View.ext rfl rfl (fun id => ?_) (congrArg (Option.map schemaOf) h.symm)
    change ((s.segment seq m).base tip).generator id = s.generator id
    rw [hgen, DbState.generator]
    rcases hnone : s.keyGenerators.get? id with _ | v
    · rcases hfind : m.stores.find? (fun s => s.id = id) with _ | store
      · rw [hfind]
        rfl
      · rw [hfind]
        exact hseeded m h id store hnone hfind
    · rfl

/-! ### Up to the swap -/

theorem le_nextSegSeq {segments : List ℕ} {seq : ℕ} (h : seq ∈ segments) :
    seq < nextSegSeq segments := by
  induction segments with
  | nil => exact absurd h List.not_mem_nil
  | cons a as ih =>
      rw [nextSegSeq, List.foldr_cons]
      rcases List.mem_cons.mp h with rfl | h
      · omega
      · have := ih h
        rw [nextSegSeq] at this
        omega

/-- Only files of the next generation differ. -/
structure Prepared (s₀ s : Session) : Prop where
  state : s.state = s₀.state
  current : s.disk.current = s₀.disk.current
  manifest : s.disk.manifests s₀.state.manifestSeq = s₀.disk.manifests s₀.state.manifestSeq
  metaScf : s.disk.metaScf = s₀.disk.metaScf
  segFiles : ∀ seq ∈ s₀.state.segments, s.disk.segFiles seq = s₀.disk.segFiles seq
  wal : s.disk.walBytes s₀.state.walSeq = s₀.disk.walBytes s₀.state.walSeq

/-- The next generation is on disk, and `CURRENT` names it. -/
structure Swapped (s₀ : Session) (m : DatabaseMeta) (d : Disk) : Prop where
  current : d.current = some (nextTip s₀.state).manifestSeq
  manifest : d.manifests (nextTip s₀.state).manifestSeq = some (nextTip s₀.state)
  segment : d.segFiles (nextSegSeq s₀.state.segments) =
    some (s₀.state.segment (nextSegSeq s₀.state.segments) m)
  wal : d.walBytes (nextTip s₀.state).walSeq = []

/-- Every step up to and including the rename of `CURRENT` succeeds. -/
structure CompactFaults.Publishes (f : CompactFaults) : Prop where
  createSegDir : f.createSegDir = .ok
  segment : f.segment.Replaces true ∧ f.segment.syncDir = .ok
  ensureWal : f.ensureWal = .ok
  truncateWal : f.truncateWal = .ok
  manifest : f.manifest.Replaces true ∧ f.manifest.syncDir = .ok
  current : f.current.Replaces true

/-- How `publish` ends early: before the swap, or because of the sync behind it. -/
def PublishHalts (s₀ : Session) (m : DatabaseMeta) (f : CompactFaults) (e : Option BackendError)
    (s : Session) : Prop :=
  ¬ f.Publishes ∧ Prepared s₀ s ∨
    f.Publishes ∧ Reports f.current.syncDir e ∧ s.state = s₀.state ∧ Swapped s₀ m s.disk

section Publish

variable {s₀ : Session} {m : DatabaseMeta} {f : CompactFaults}

theorem Prepared.onDisk {s : Session} {effect : Disk → Disk} (h : Prepared s₀ s)
    (hcur : (effect s.disk).current = s.disk.current)
    (hman : (effect s.disk).manifests s₀.state.manifestSeq = s.disk.manifests s₀.state.manifestSeq)
    (hmeta : (effect s.disk).metaScf = s.disk.metaScf)
    (hseg : ∀ seq ∈ s₀.state.segments, (effect s.disk).segFiles seq = s.disk.segFiles seq)
    (hwal : (effect s.disk).walBytes s₀.state.walSeq = s.disk.walBytes s₀.state.walSeq) :
    Prepared s₀ (s.onDisk effect) :=
  ⟨h.state, hcur.trans h.current, hman.trans h.manifest, hmeta.trans h.metaScf,
    fun seq hseq => (hseg seq hseq).trans (h.segFiles seq hseq), hwal.trans h.wal⟩

/-- The segment file, with every step of it accounted for. -/
theorem meets_writeSegmentFile (hm : s₀.state.metadata = some m) :
    Meets (· = s₀)
      (writeSegmentFile (nextSegSeq s₀.state.segments) s₀.state f.createSegDir f.segment)
      (fun _ s => (f.createSegDir = .ok ∧ f.segment.Replaces true ∧ f.segment.syncDir = .ok) ∧
        Prepared s₀ s ∧ s.disk.segFiles (nextSegSeq s₀.state.segments) =
          some (s₀.state.segment (nextSegSeq s₀.state.segments) m))
      (PublishHalts s₀ m f) := by
  have hstart : Prepared s₀ s₀ := ⟨rfl, rfl, rfl, rfl, fun _ _ => rfl, rfl⟩
  have hwritten : Prepared s₀ (s₀.onDisk (Disk.setSegment
      (s₀.state.segment (nextSegSeq s₀.state.segments) m))) := by
    refine hstart.onDisk rfl rfl rfl (fun seq hseq => ?_) rfl
    exact Function.update_of_ne (le_nextSegSeq hseq).ne _ _
  unfold writeSegmentFile
  refine Meets.bind (meets_report fun e s hr hs => .inl ⟨fun h => hr.ne_ok h.createSegDir, ?_⟩)
    fun _ => Meets.of_imp fun hdir => ?_
  · exact hs ▸ hstart
  have hencode : encodeSegment (nextSegSeq s₀.state.segments) s₀.state =
      pure (s₀.state.segment (nextSegSeq s₀.state.segments) m) := by
    rw [encodeSegment, hm]
    rfl
  rw [hencode]
  have hpure : Meets (· = s₀) (pure (s₀.state.segment (nextSegSeq s₀.state.segments) m))
      (fun a s => a = s₀.state.segment (nextSegSeq s₀.state.segments) m ∧ s = s₀)
      (PublishHalts s₀ m f) := meets_pure fun s hs => ⟨rfl, hs⟩
  refine hpure.bind fun segment => Meets.of_imp fun hsegment => ?_
  subst hsegment
  refine meets_atomicWrite ?_ ?_ ?_
  · rintro hrep hsync s rfl
    exact ⟨⟨hdir, hrep, hsync rfl⟩, hwritten, Function.update_self _ _ _⟩
  · rintro hrep e s rfl
    exact .inl ⟨fun h => hrep h.segment.1, hstart⟩
  · rintro hrep - e s hr rfl
    exact .inl ⟨fun h => hr.ne_ok h.segment.2, hwritten⟩

/-- The empty log of the next generation. -/
theorem meets_prepareWal :
    Meets (fun s => Prepared s₀ s ∧ s.disk.segFiles (nextSegSeq s₀.state.segments) =
        some (s₀.state.segment (nextSegSeq s₀.state.segments) m))
      (prepareWal (nextTip s₀.state).walSeq f)
      (fun _ s => (f.ensureWal = .ok ∧ f.truncateWal = .ok) ∧
        Prepared s₀ s ∧ s.disk.segFiles (nextSegSeq s₀.state.segments) =
          some (s₀.state.segment (nextSegSeq s₀.state.segments) m) ∧
        s.disk.walBytes (nextTip s₀.state).walSeq = [])
      (PublishHalts s₀ m f) := by
  have hne : s₀.state.walSeq ≠ (nextTip s₀.state).walSeq := Nat.ne_of_lt (Nat.lt_succ_self _)
  have hensure : Meets (fun s => Prepared s₀ s ∧ s.disk.segFiles (nextSegSeq s₀.state.segments) =
        some (s₀.state.segment (nextSegSeq s₀.state.segments) m))
      (ensureFile (nextTip s₀.state).walSeq f.ensureWal)
      (fun _ s => f.ensureWal = .ok ∧
        Prepared s₀ s ∧ s.disk.segFiles (nextSegSeq s₀.state.segments) =
          some (s₀.state.segment (nextSegSeq s₀.state.segments) m)) (PublishHalts s₀ m f) := by
    refine meets_fsOp (fun hok s hs => ⟨hok, ?_, hs.2⟩)
      (fun e s hr hs => .inl ⟨fun h => hr.ne_ok h.ensureWal, hs.1⟩)
    exact hs.1.onDisk rfl rfl rfl (fun _ _ => rfl) (walBytes_ensureWal _ _ _)
  refine hensure.bind fun _ => Meets.of_imp fun hok => ?_
  refine meets_fsOp (fun hok' s hs => ⟨⟨hok, hok'⟩, ?_, hs.2, ?_⟩)
    (fun e s hr hs => .inl ⟨fun h => hr.ne_ok h.truncateWal, hs.1⟩)
  · refine hs.1.onDisk rfl rfl rfl (fun _ _ => rfl) ?_
    rw [Disk.truncateWal, walBytes_setWal, if_neg hne]
  · change ((s.disk.truncateWal _ 0).walBytes _) = []
    rw [Disk.truncateWal, walBytes_setWal, if_pos rfl, List.take_zero]

/-- The swap: a new manifest, then `CURRENT`. -/
theorem meets_writeManifest (hcreate : f.createSegDir = .ok)
    (hsegment : f.segment.Replaces true ∧ f.segment.syncDir = .ok)
    (hwal : f.ensureWal = .ok ∧ f.truncateWal = .ok) :
    Meets (fun s => Prepared s₀ s ∧ s.disk.segFiles (nextSegSeq s₀.state.segments) =
        some (s₀.state.segment (nextSegSeq s₀.state.segments) m) ∧
        s.disk.walBytes (nextTip s₀.state).walSeq = [])
      (writeManifest (nextTip s₀.state) true f.manifest f.current)
      (fun _ s => (f.Publishes ∧ f.current.syncDir = .ok) ∧ s.state = s₀.state ∧
        Swapped s₀ m s.disk)
      (PublishHalts s₀ m f) := by
  have hne : s₀.state.manifestSeq ≠ (nextTip s₀.state).manifestSeq :=
    Nat.ne_of_lt (Nat.lt_succ_self _)
  have hmanifest : Meets (fun s => Prepared s₀ s ∧
        s.disk.segFiles (nextSegSeq s₀.state.segments) =
          some (s₀.state.segment (nextSegSeq s₀.state.segments) m) ∧
        s.disk.walBytes (nextTip s₀.state).walSeq = [])
      (atomicWrite (Disk.setManifest (nextTip s₀.state)) true f.manifest)
      (fun _ s => (f.manifest.Replaces true ∧ f.manifest.syncDir = .ok) ∧ Prepared s₀ s ∧
        Swapped s₀ m (s.disk.setCurrent (nextTip s₀.state).manifestSeq))
      (PublishHalts s₀ m f) := by
    have hnext {s : Session} (h : Prepared s₀ s) :
        Prepared s₀ (s.onDisk (Disk.setManifest (nextTip s₀.state))) :=
      h.onDisk rfl (Function.update_of_ne hne _ _) rfl (fun _ _ => rfl) rfl
    refine meets_atomicWrite ?_ ?_ ?_
    · rintro hrep hsync s ⟨hs, hseg, hempty⟩
      exact ⟨⟨hrep, hsync rfl⟩, hnext hs, ⟨rfl, Function.update_self _ _ _, hseg, hempty⟩⟩
    · rintro hrep e s ⟨hs, -⟩
      exact .inl ⟨fun h => hrep h.manifest.1, hs⟩
    · rintro - - e s hr ⟨hs, -⟩
      exact .inl ⟨fun h => hr.ne_ok h.manifest.2, hnext hs⟩
  refine hmanifest.bind fun _ => Meets.of_imp fun hman => ?_
  have hpub (h : f.current.Replaces true) : f.Publishes :=
    ⟨hcreate, hsegment, hwal.1, hwal.2, hman, h⟩
  refine meets_atomicWrite ?_ ?_ ?_
  · rintro hrep hsync s ⟨hs, hswap⟩
    exact ⟨⟨hpub hrep, hsync rfl⟩, hs.state, hswap⟩
  · rintro hrep e s ⟨hs, -⟩
    exact .inl ⟨fun h => hrep h.current, hs⟩
  · rintro hrep - e s hr ⟨hs, hswap⟩
    exact .inr ⟨hpub hrep, hr, hs.state, hswap⟩

/-- Publishing ends behind the swap, or early. -/
theorem meets_publish (hm : s₀.state.metadata = some m) :
    Meets (· = s₀) (publish s₀.state f)
      (fun _ s => (f.Publishes ∧ f.current.syncDir = .ok) ∧ s.state = s₀.state ∧
        Swapped s₀ m s.disk)
      (PublishHalts s₀ m f) := by
  refine (meets_writeSegmentFile hm).bind fun _ => Meets.of_imp fun hseg => ?_
  exact meets_prepareWal.bind fun _ => Meets.of_imp fun hwal =>
    meets_writeManifest hseg.1 hseg.2 hwal

/-! ### Behind the swap -/

/-- The directory shows the next generation and memory has followed. -/
def Followed (s₀ : Session) (m : DatabaseMeta) (s : Session) : Prop :=
  s.state = s₀.state.advance (nextTip s₀.state) ∧ Swapped s₀ m s.disk

/-- A clean-up step keeps what the generation consists of. -/
theorem Followed.onDisk {s : Session} {effect : Disk → Disk} (h : Followed s₀ m s)
    (hcur : (effect s.disk).current = s.disk.current)
    (hman : (effect s.disk).manifests = s.disk.manifests)
    (hseg : (effect s.disk).segFiles (nextSegSeq s₀.state.segments) =
      s.disk.segFiles (nextSegSeq s₀.state.segments))
    (hwal : (effect s.disk).walBytes (nextTip s₀.state).walSeq =
      s.disk.walBytes (nextTip s₀.state).walSeq) : Followed s₀ m (s.onDisk effect) :=
  ⟨h.1, hcur.trans h.2.current, by rw [← h.2.manifest]; exact congrFun hman _,
    hseg.trans h.2.segment,
    hwal.trans h.2.wal⟩

/-- A step that is tried and ignored. -/
theorem meets_ignored {inv : Session → Prop} {p : FsProg Unit}
    (h : Meets inv p (fun _ => inv) (fun _ => inv)) :
    Meets inv p.attempt (fun _ => inv) (fun _ => inv) :=
  h.attempt.mono (fun _ => id) (fun r s hs => by cases r <;> exact hs) (fun _ _ hs => hs.2)

theorem meets_removeSegments {o : ℕ → Outcome IoError} {seqs : List ℕ}
    (h : ∀ seq ∈ seqs, seq ∈ s₀.state.segments) :
    Meets (Followed s₀ m) (removeSegments o seqs) (fun _ => Followed s₀ m)
      (fun _ => Followed s₀ m) := by
  induction seqs with
  | nil => exact meets_pure fun _ => id
  | cons seq seqs ih =>
      refine Meets.bind (meets_ignored (meets_fsOp (fun _ s hs => ?_) fun _ _ _ => id)) fun _ =>
        ih fun seq' hseq' => h seq' (.tail _ hseq')
      refine hs.onDisk rfl rfl ?_ rfl
      exact Function.update_of_ne (le_nextSegSeq (h seq (by simp))).ne' _ _

/-- The clean-up keeps the new generation, however it ends. -/
theorem meets_settle :
    Meets (fun s => s.state = s₀.state ∧ Swapped s₀ m s.disk) (settle s₀.state f)
      (fun _ => Followed s₀ m) (fun _ => Followed s₀ m) := by
  have hfollow : Meets (fun s => s.state = s₀.state ∧ Swapped s₀ m s.disk)
      (Prog.modify (Session.onState (DbState.advance · (nextTip s₀.state))) : FsProg Unit)
      (fun _ => Followed s₀ m) (fun _ => Followed s₀ m) :=
    meets_modify fun s hs => ⟨congrArg (DbState.advance · (nextTip s₀.state)) hs.1, hs.2⟩
  have hwal : Meets (Followed s₀ m)
      (fsOp "remove wal" f.removeWal (Disk.removeWal s₀.state.walSeq)) (fun _ => Followed s₀ m)
      (fun _ => Followed s₀ m) := by
    refine meets_fsOp (fun _ s hs => hs.onDisk rfl rfl rfl ?_) fun _ _ _ => id
    have hne : (nextTip s₀.state).walSeq ≠ s₀.state.walSeq := Nat.succ_ne_self _
    simp only [Disk.walBytes, Disk.removeWal, Function.update_of_ne hne]
  unfold settle
  refine hfollow.bind fun _ => (meets_removeSegments fun _ => id).bind fun _ =>
    (meets_ignored ?_).bind fun r => (meets_ignored hwal).bind fun _ => ?_
  · split
    · exact meets_pure fun _ => id
    · exact meets_atomicWrite (fun _ _ s hs => hs.onDisk rfl rfl rfl rfl) (fun _ _ _ => id)
        (fun _ _ _ s _ hs => hs.onDisk rfl rfl rfl rfl)
  · cases r with
    | error err => exact meets_throw fun _ => id
    | ok _ => exact meets_pure fun _ => id

/-- The ways a compaction can end. -/
theorem meets_compactNow (hm : s₀.state.metadata = some m) :
    Meets (· = s₀) (compactNow f)
      (fun _ s => (f.Publishes ∧ f.current.syncDir = .ok) ∧ Followed s₀ m s)
      (fun e s => PublishHalts s₀ m f e s ∨
        (f.Publishes ∧ f.current.syncDir = .ok) ∧ Followed s₀ m s) := by
  unfold compactNow
  refine meets_read fun s hs => ?_
  subst hs
  refine ((meets_publish hm).mono (fun _ => id) (fun _ _ => id) fun _ _ => .inl).bind fun _ =>
    Meets.of_imp fun hpub => ?_
  exact meets_settle.mono (fun _ => id) (fun _ _ h => ⟨hpub, h⟩) fun _ _ h => .inr ⟨hpub, h⟩

end Publish

/-! ### What a compaction shows -/

theorem logOps_congr {d d' : Disk} {wal : ℕ} (h : d'.walBytes wal = d.walBytes wal) :
    d'.logOps wal = d.logOps wal := by
  rw [Disk.logOps, Disk.logOps, h]

theorem logOps_nil {d : Disk} {wal : ℕ} (h : d.walBytes wal = []) : d.logOps wal = [] := by
  rw [Disk.logOps, h]
  rfl

/-- Files of a generation that is not published do not show. -/
theorem Prepared.shows {name : Utf16String} {s₀ s : Session} (h : Prepared s₀ s)
    (hin : InStep name s₀) : reopened name s.disk = .ok s₀.state.view ∧
      s.disk.published = some s.state.tip := by
  have hcur := h.current.trans hin.current
  have hman := h.manifest.trans hin.manifest
  constructor
  · exact reopened_congr hin.shows hin.current hin.manifest hcur hman h.segFiles h.metaScf
      (logOps_congr h.wal)
  · rw [Disk.published, hcur, h.state]
    exact hman

/-- The new generation shows what its segment holds. -/
theorem Swapped.shows {name : Utf16String} {s₀ : Session} {m : DatabaseMeta} {d : Disk}
    (h : Swapped s₀ m d) : reopened name d =
      .ok ((s₀.state.segment (nextSegSeq s₀.state.segments) m).base (nextTip s₀.state)).view := by
  refine (reopened_eq_ok_iff h.current h.manifest).mpr
    ⟨_, loadBase_singleton rfl h.segment rfl, ?_, ?_⟩
  · rw [logOps_nil h.wal]
    exact fun op hop => absurd hop List.not_mem_nil
  · rw [logOps_nil h.wal]
    rfl

theorem Swapped.published {s₀ : Session} {m : DatabaseMeta} {d : Disk} (h : Swapped s₀ m d) :
    d.published = some (nextTip s₀.state) := by
  rw [Disk.published, h.current]
  exact h.manifest

/-- The swap takes effect and the directory sync behind it is reported as failed. -/
def CompactFaults.LosesTip (f : CompactFaults) : Prop :=
  f.Publishes ∧ ∃ e, f.current.syncDir = .fail e

/-- **Compaction is invisible and memory stays in step, exactly unless the tip is lost.**
However the compaction ends, reopening shows the logical database it started from and,
unless the process is gone, the tip in memory is the manifest that `CURRENT` names. -/
theorem compactNow_inStep_iff {name : Utf16String} {s : Session} (h : InStep name s)
    (f : CompactFaults) :
    (reopened name (compactNow f s).2.disk = .ok s.state.view ∧
      ((compactNow f s).1 ≠ .stopped →
        (compactNow f s).2.disk.published = some (compactNow f s).2.state.tip)) ↔
      ¬ f.LosesTip ∧ (f.Publishes → s.state.Seeded) := by
  obtain ⟨m, hm⟩ := Option.isSome_iff_exists.mp h.named
  have hshow {d : Disk} (hswap : Swapped s m d) :
      reopened name d = .ok s.state.view ↔ s.state.Seeded := by
    rw [hswap.shows, Except.ok.injEq]
    exact view_segment_eq_iff hm _ _
  -- memory has followed the swap
  have hfollowed {s' : Session} (hpub : f.Publishes ∧ f.current.syncDir = .ok)
      (hs' : Followed s m s') : (reopened name s'.disk = .ok s.state.view ∧
        s'.disk.published = some s'.state.tip) ↔
        ¬ f.LosesTip ∧ (f.Publishes → s.state.Seeded) := by
    rw [hshow hs'.2, hs'.2.published, hs'.1]
    refine ⟨fun hseeded => ⟨?_, fun _ => hseeded.1⟩, fun hc => ⟨hc.2 hpub.1, rfl⟩⟩
    rintro ⟨-, e, he⟩
    rw [hpub.2] at he
    cases he
  -- the publication has stopped, before the swap or behind it
  have hhalts {e : Option BackendError} {s' : Session} (hs' : PublishHalts s m f e s') :
      (reopened name s'.disk = .ok s.state.view ∧
        (e.isSome → s'.disk.published = some s'.state.tip)) ↔
        ¬ f.LosesTip ∧ (f.Publishes → s.state.Seeded) := by
    rcases hs' with ⟨hpub, hprep⟩ | ⟨hpub, hrep, hstate, hswap⟩
    · have hprep := hprep.shows h
      exact ⟨fun _ => ⟨fun hl => hpub hl.1, fun hp => absurd hp hpub⟩,
        fun _ => ⟨hprep.1, fun _ => hprep.2⟩⟩
    · have htip : some (nextTip s.state) ≠ some s.state.tip := by
        intro heq
        have := congrArg ManifestData.walSeq (Option.some.inj heq)
        exact Nat.succ_ne_self _ this
      rw [hshow hswap, hswap.published, hstate]
      rcases hrep with ⟨hstop, rfl⟩ | ⟨err, hfail, he⟩
      · refine ⟨fun hseeded => ⟨?_, fun _ => hseeded.1⟩, fun hc => ⟨hc.2 hpub, by simp⟩⟩
        rintro ⟨-, e, he⟩
        rw [hstop] at he
        cases he
      · exact ⟨fun hc => absurd (hc.2 he) htip, fun hc => absurd ⟨hpub, err, hfail⟩ hc.1⟩
  have hends := meets_compactNow (f := f) hm s rfl
  rcases hrun : compactNow f s with ⟨_ | e | _, s'⟩
  all_goals rw [hrun] at hends
  · simpa using hfollowed hends.1 hends.2
  · rcases hends with hends | hends
    · simpa using hhalts hends
    · simpa using hfollowed hends.1 hends.2
  · rcases hends with hends | ⟨hpub, hs'⟩
    · simpa using hhalts hends
    · have hiff := hfollowed hpub hs'
      refine ⟨fun hc => hiff.mp ⟨hc.1, ?_⟩, fun hc => ⟨(hiff.mpr hc).1, fun hne => absurd rfl hne⟩⟩
      rw [hs'.2.published, hs'.1]
      rfl

/-- The schema of one store whose generator has moved. -/
def numbered : DatabaseMeta :=
  { emptyMeta [] with
    version := 1
    nextStoreId := 2
    stores := [⟨1, [97], .empty, true, 0x4000000000000000, [], false⟩] }

/-- The segment that a compaction of one record writes. -/
def firstSegment : Segment :=
  ⟨1, 2, numbered, OrderedMap.empty.insert ⟨1, [1]⟩ [7], .empty, .empty⟩

/-- A database with one record, behind a compaction. -/
def compactedOnce : Session where
  disk := { Disk.empty with
    current := some 2
    manifests := Function.update (fun _ => none) 2 (some ⟨2, 2, [1]⟩)
    segFiles := Function.update (fun _ => none) 1 (some firstSegment)
    metaScf := some numbered }
  state := { DbState.default with
    segments := [1]
    manifestSeq := 2
    walSeq := 2
    nextTxnSeq := 2
    records := OrderedMap.empty.insert ⟨1, [1]⟩ [7]
    keyGenerators := seedGenerators .empty numbered.stores
    metadata := some numbered }

theorem inStep_compactedOnce : InStep [] compactedOnce where
  current := rfl
  manifest := rfl
  shows := by
    have hman : compactedOnce.disk.manifests 2 = some ⟨2, 2, [1]⟩ := rfl
    have hbase : loadBase [] compactedOnce.disk ⟨2, 2, [1]⟩ = .ok (firstSegment.base ⟨2, 2, [1]⟩) :=
      loadBase_singleton rfl rfl rfl
    have hops : compactedOnce.disk.logOps 2 = [] := rfl
    refine (reopened_eq_ok_iff rfl hman).mpr ⟨_, hbase, ?_, ?_⟩
    · rw [hops]
      exact fun op hop => absurd hop List.not_mem_nil
    · rw [hops]
      rfl
  named := rfl

/-- The new generation is published; `meta.scf` cannot be written and the old files cannot
be removed. -/
def metaScfFails : CompactFaults where
  removeSegment _ := .fail (.other "fault: EIO")
  metaScf := { rename := .fail (.other "fault: EIO") }
  removeWal := .fail (.other "fault: EIO")

/-- This compaction reports the error, and memory has followed the tip. -/
theorem compactNow_inStep_metaScfFails :
    (compactNow metaScfFails compactedOnce).1 = .failed (.io "rename: fault: EIO") ∧
      (compactNow metaScfFails compactedOnce).2.state.tip = ⟨3, 3, [2]⟩ ∧
      (reopened [] (compactNow metaScfFails compactedOnce).2.disk = .ok compactedOnce.state.view ∧
        ((compactNow metaScfFails compactedOnce).1 ≠ .stopped →
          (compactNow metaScfFails compactedOnce).2.disk.published =
            some (compactNow metaScfFails compactedOnce).2.state.tip)) := by
  refine ⟨rfl, rfl, (compactNow_inStep_iff inStep_compactedOnce metaScfFails).mpr
    ⟨?_, fun _ m hm id store hnone hfind => ?_⟩⟩
  · rintro ⟨-, e, he⟩
    cases he
  · -- every store of the metadata has its generator in memory
    obtain rfl := Option.some.inj hm
    have hnumbered : store = ⟨1, [97], .empty, true, 0x4000000000000000, [], false⟩ :=
      List.mem_singleton.mp (List.mem_of_find?_eq_some hfind)
    have hid : store.id = id := by simpa using List.find?_some hfind
    subst hnumbered
    subst hid
    exact absurd hnone (by decide)

/-- The directory sync behind the swap of `CURRENT` fails, and everything else succeeds. -/
def currentSyncFails : CompactFaults :=
  { current := { syncDir := .fail (.other "fault: EIO") } }

/-- A new database whose first compaction meets that fault: the directory names the
second generation, and memory goes on with the first. -/
theorem compactNow_currentSyncFails :
    InStep [] (freshSession []) ∧
      (compactNow currentSyncFails (freshSession [])).1 = .failed (.io "sync dir: fault: EIO") ∧
      (compactNow currentSyncFails (freshSession [])).2.disk.published = some ⟨2, 2, [1]⟩ ∧
      (compactNow currentSyncFails (freshSession [])).2.state.tip = ⟨1, 1, []⟩ :=
  ⟨inStep_fresh [], rfl, rfl, rfl⟩

end BoaIdb.Fs
