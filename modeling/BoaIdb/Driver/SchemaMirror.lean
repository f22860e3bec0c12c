import BoaIdb.Driver.SchemaOps
import BoaIdb.Fs.SchemaTxn
import BoaIdb.Lib.Run
import BoaIdb.Memory.SchemaTxn
import BoaIdb.Sqlite.SchemaTxn

/-!
The driver's metadata of an upgrade, beside the schema that its backend will commit.

They drift apart in two ways: an index stays in the backend when its backfill fails, and
with SQLite the id of a deleted index is used again while the deleted entry is still the first
one with this id in the driver's list.
-/

namespace BoaIdb.Driver

open Clone Faults Runs

section Mirror

variable {σ : Type} [SchemaTxn σ]

/-! ### The two sides -/

/-- The live stores and indexes of the driver's metadata. -/
def mirrored (s : Option (UpgradeHandle σ)) : Option (List StoreMeta) :=
  s.map fun h => liveStores h.metadata.stores

/-- Those that the backend is about to commit, behind the deletions of the driver. -/
def committed (s : Option (UpgradeHandle σ)) : Option (List StoreMeta) :=
  s.bind fun h => h.backend.map fun b =>
    liveStores (SchemaTxn.schema (dropStores h.deletedStoreIds b).2)

def UpgradeHandle.withBackend (h : UpgradeHandle σ) (b : σ) : UpgradeHandle σ :=
  { h with backend := some b }

/-- The backend of a handle, in an upgrade, has the stores of the driver's metadata. -/
structure Tracks (h : UpgradeHandle σ) (b : σ) : Prop where
  backend : h.backend = some b
  mode : SchemaTxn.mode b = .versionChange
  mirrors : StoresMirror (SchemaTxn.marksIndexes σ) h.deletedStoreIds h.metadata.stores
    (SchemaTxn.schema b)

def Tracked (s : Option (UpgradeHandle σ)) : Prop := ∃ h b, s = some h ∧ Tracks h b

/-- The operation has changed no schema. -/
def Unchanged (h : UpgradeHandle σ) (b : σ) (s : Option (UpgradeHandle σ)) : Prop :=
  ∃ b', SameSchema b b' ∧ s = some (h.withBackend b')

variable {h : UpgradeHandle σ} {b b' : σ} {s : Option (UpgradeHandle σ)}

theorem Tracks.withBackend (ht : Tracks h b) (hsame : SameSchema b b') :
    Tracks (h.withBackend b') b' := by
  refine ⟨rfl, hsame.2.trans ht.mode, ?_⟩
  rw [hsame.1]
  exact ht.mirrors

theorem Tracks.unchanged (ht : Tracks h b) : Unchanged h b (some h) := by
  refine ⟨b, .refl b, ?_⟩
  rw [UpgradeHandle.withBackend, ← ht.backend]

theorem Unchanged.tracked (ht : Tracks h b) (hs : Unchanged h b s) : Tracked s := by
  obtain ⟨b', hsame, rfl⟩ := hs
  exact ⟨_, b', rfl, ht.withBackend hsame⟩

variable [LawfulSchema σ]

/-- What is about to be committed is what the driver shows. -/
theorem Tracks.committed_eq (ht : Tracks h b) :
    committed (some h) = some (liveStores h.metadata.stores) := by
  show h.backend.map _ = _
  rw [ht.backend, ht.mirrors.live, ← LawfulSchema.dropStores b h.deletedStoreIds ht.mode]
  rfl

theorem Tracked.same (hs : Tracked s) : mirrored s = committed s := by
  obtain ⟨h, b, rfl, ht⟩ := hs
  rw [ht.committed_eq]
  rfl

theorem Unchanged.same (ht : Tracks h b) (hs : Unchanged h b s) :
    mirrored s = mirrored (some h) ∧ committed s = committed (some h) := by
  obtain ⟨b', hsame, rfl⟩ := hs
  rw [(ht.withBackend hsame).committed_eq, ht.committed_eq]
  exact ⟨rfl, rfl⟩

end Mirror

/-! ### Programs on the handle -/

section Handle

variable {σ : Type} {h : UpgradeHandle σ} {b : σ}

/-- The handle of an upgrade that is not finished. -/
def UpgradeHandle.Live (h : UpgradeHandle σ) : Prop := h.finished = false ∧ h.mode = .versionChange

theorem upgradeHandleMut_some (hlive : h.Live) (hb : h.backend = some b) :
    upgradeHandleMut (some h) = .ok h := by
  exact if_pos ⟨hlive.1, hlive.2, by rw [hb]; rfl⟩

theorem upgradeBackend_ok {s : Option (UpgradeHandle σ)} (hb : upgradeBackend s = .ok b) :
    ∃ h, s = some h ∧ h.Live ∧ h.backend = some b := by
  obtain ⟨h, hh, hfound⟩ := bind_ok hb
  cases s with
  | none => cases hh
  | some h' =>
      unfold upgradeHandleMut at hh
      dsimp only at hh
      split at hh
      · next hlive =>
          cases hh
          refine ⟨h, rfl, ⟨hlive.1, hlive.2.1⟩, ?_⟩
          cases hbackend : h.backend with
          | none =>
              rw [hbackend] at hfound
              cases hfound
          | some b' =>
              rw [hbackend] at hfound
              cases hfound
              rfl
      · cases hh

theorem meets_upgradeHandle :
    Meets (· = some h) upgradeHandle (fun h' s => h' = h ∧ s = some h ∧ h.Live)
      fun _ s => s = some h := by
  apply meets_read
  rintro s rfl
  apply meets_lift
  · intro h' hh' s hs
    unfold upgradeHandleMut at hh'
    dsimp only at hh'
    split at hh'
    · next hlive =>
        cases hh'
        exact ⟨rfl, hs, hlive.1, hlive.2.1⟩
    · cases hh'
  · intro _ _ s hs
    exact hs

theorem meets_onUpgrade {α : Type} {p : Prog σ IdbError α} {post : α → σ → Prop}
    {halt : Option IdbError → σ → Prop} (hlive : h.Live) (hb : h.backend = some b)
    (hp : Meets (· = b) p post halt) :
    Meets (· = some h) (onUpgrade p) (fun a s => ∃ b', post a b' ∧ s = some (h.withBackend b'))
      fun e s => ∃ b', halt e b' ∧ s = some (h.withBackend b') := by
  have hget : upgradeBackend (some h) = .ok b := by
    unfold upgradeBackend
    rw [upgradeHandleMut_some hlive hb]
    show h.backend.elim _ _ = _
    rw [hb]
    rfl
  exact meets_zoom hget hp

theorem meets_editHandle {f : UpgradeHandle σ → UpgradeHandle σ} {halt : Option IdbError → _ → Prop}
    (hlive : h.Live) (hb : h.backend = some b) :
    Meets (· = some h) (editHandle f) (fun _ s => s = some (f h)) halt := by
  refine Meets.bind (?_ : Meets _ _ (fun h' s => h' = h ∧ s = some h) halt) fun h' => ?_
  · apply meets_read
    rintro s rfl
    rw [upgradeHandleMut_some hlive hb]
    exact meets_lift (fun _ hh' s hs => ⟨(Except.ok.inj hh').symm, hs⟩) fun _ hh' => nomatch hh'
  · rintro s ⟨rfl, rfl⟩
    rfl

end Handle

/-! ### The operations -/

section Operations

variable {σ : Type} [SchemaTxn σ] {h : UpgradeHandle σ} {b : σ}

theorem mem_of_findLiveStore {m : DatabaseMeta} {name : String} {store : StoreMeta}
    (hstore : findLiveStore m name = .ok store) : store ∈ m.stores := by
  unfold findLiveStore at hstore
  cases hfind : liveStoreNamed m (.ofString name) with
  | none =>
      rw [hfind] at hstore
      cases hstore
  | some store' =>
      rw [hfind] at hstore
      cases hstore
      exact List.mem_of_find?_eq_some hfind

theorem meets_handle (ht : Tracks h b) :
    Meets (· = some h) upgradeHandle (fun h' s => (h' = h ∧ h.Live) ∧ s = some h)
      fun _ => Unchanged h b :=
  meets_upgradeHandle.mono (fun _ h => h) (fun _ _ ⟨hh', hs, hlive⟩ => ⟨⟨hh', hlive⟩, hs⟩)
    fun _ _ hs => hs ▸ ht.unchanged

theorem meets_check {α : Type} (ht : Tracks h b) (r : Except IdbError α) :
    Meets (· = some h) (Prog.lift r) (fun a s => r = .ok a ∧ s = some h) fun _ => Unchanged h b :=
  meets_lift (fun _ ha _ hs => ⟨ha, hs⟩) fun _ _ _ hs => hs ▸ ht.unchanged

/-- A change of the backend's schema; the driver's is to follow. -/
theorem meets_change {α : Type} {p : Prog σ BackendError α}
    {f : α → List StoreMeta → List StoreMeta}
    (ht : Tracks h b) (hlive : h.Live) (hp : ChangesSchema b p f) :
    Meets (· = some h) (onUpgrade (p.mapErr backendErr))
      (fun a s => ∃ b', (SchemaTxn.schema b' = f a (SchemaTxn.schema b) ∧
        SchemaTxn.mode b' = SchemaTxn.mode b) ∧ s = some (h.withBackend b'))
      fun _ => Unchanged h b :=
  meets_onUpgrade hlive ht.backend (Meets.mapErr hp fun _ _ hs => hs)

/-- The driver follows. -/
theorem meets_follow {b' : σ} {f : UpgradeHandle σ → UpgradeHandle σ}
    {halt : Option IdbError → _ → Prop}
    (hlive : h.Live) (ht : Tracks (f (h.withBackend b')) b') :
    Meets (· = some (h.withBackend b')) (editHandle f) (fun _ => Tracked) halt :=
  (meets_editHandle (h := h.withBackend b') hlive rfl).mono (fun _ h => h)
  (fun _ _ hs => ⟨_, b', hs, ht⟩) fun _ _ h => h

variable [LawfulSchema σ]

theorem meets_schemaCreateStore (ht : Tracks h b) (name : String) (keyPath : Option KeyPath)
    (autoIncrement : Bool) :
    Meets (· = some h) (schemaCreateStore name keyPath autoIncrement) (fun _ => Tracked)
      fun _ => Unchanged h b := by
  refine (meets_check ht _).bind fun _ => Meets.of_imp fun _ => ?_
  refine (meets_handle ht).bind fun h' => Meets.of_imp ?_
  rintro ⟨rfl, hlive⟩
  refine (meets_check ht _).bind fun _ => Meets.of_imp fun _ => ?_
  refine (meets_change ht hlive (LawfulSchema.createStore b _ _ _)).bind fun id =>
    Meets.of_exists fun b' => Meets.of_imp ?_
  rintro ⟨hschema, hmode⟩
  refine (meets_follow hlive ⟨rfl, hmode.trans ht.mode, ?_⟩).bind fun _ => meets_pure fun _ hs => hs
  rw [hschema]
  exact ht.mirrors.create _

theorem meets_schemaDeleteStore (ht : Tracks h b) (name : String) :
    Meets (· = some h) (schemaDeleteStore name) (fun _ => Tracked) fun _ => Unchanged h b := by
  refine (meets_handle ht).bind fun h' => Meets.of_imp ?_
  rintro ⟨rfl, hlive⟩
  refine (meets_check ht _).bind fun store => Meets.of_imp fun hstore => ?_
  refine (meets_change ht hlive (LawfulSchema.renameStore b _ _)).bind fun _ =>
    Meets.of_exists fun b' => Meets.of_imp ?_
  rintro ⟨hschema, hmode⟩
  refine meets_follow hlive ⟨rfl, hmode.trans ht.mode, ?_⟩
  rw [hschema]
  exact ht.mirrors.delete _ ⟨store, mem_of_findLiveStore hstore, rfl⟩

theorem meets_schemaRenameStore (ht : Tracks h b) (oldName newName : String) :
    Meets (· = some h) (schemaRenameStore oldName newName) (fun _ => Tracked)
      fun _ => Unchanged h b := by
  refine (meets_handle ht).bind fun h' => Meets.of_imp ?_
  rintro ⟨rfl, hlive⟩
  refine (meets_check ht _).bind fun store => Meets.of_imp fun _ => ?_
  refine (meets_check ht _).bind fun _ => Meets.of_imp fun _ => ?_
  refine (meets_change ht hlive (LawfulSchema.renameStore b _ _)).bind fun _ =>
    Meets.of_exists fun b' => Meets.of_imp ?_
  rintro ⟨hschema, hmode⟩
  refine meets_follow hlive ⟨rfl, hmode.trans ht.mode, ?_⟩
  rw [hschema]
  exact ht.mirrors.update (fun _ => rfl) (fun _ => rfl) fun m s _ _ hms => hms.rename _

/-! ### Indexes -/

/-- The driver's first index with the id, in the store with an id, is a deleted one. -/
def firstDeleted (m : DatabaseMeta) (store : StoreId) (index : IndexId) : Bool :=
  (findStoreById store m.stores).any fun s => indexState index s.indexes = some true

/-- Where the driver finds no deleted index first, it finds what the backend does. -/
theorem indexState_eq {id : IndexId} {m s : StoreMeta}
    (hms : StoreMirror (SchemaTxn.marksIndexes σ) m s) (hlive : m.deleted = false)
    (hs : ∃ s' ∈ SchemaTxn.schema b, s'.indexes = s.indexes)
    (hfound : SchemaTxn.marksIndexes σ = true ∨ indexState id m.indexes ≠ some true) :
    indexState id m.indexes = indexState id s.indexes := by
  cases hmarks : SchemaTxn.marksIndexes σ with
  | true => rw [hms.indexes hmarks hlive]
  | false =>
      obtain ⟨s', hs', hindexes⟩ := hs
      have hall : ∀ i ∈ s.indexes, i.deleted = false :=
        hindexes ▸ LawfulSchema.indexes_live b hmarks s' hs'
      have hstate : indexState id m.indexes ≠ some true :=
        hfound.resolve_left (by rw [hmarks]; exact Bool.false_ne_true)
      calc indexState id m.indexes = indexState id (liveIndexes m.indexes) :=
            (indexState_liveIndexes hstate).symm
        _ = indexState id (liveIndexes s.indexes) := by rw [hms.liveIndexes_eq hlive]
        _ = indexState id s.indexes := by rw [liveIndexes_eq_self hall]

theorem preservesSchema_backfillKeys (limits : LimitConfig) (index : IndexId) (unique : Bool)
    (pkey : Bytes) (keys : List Key) (seen : List Bytes) :
    PreservesSchema (backfillKeys limits index unique pkey keys seen : Prog σ IdbError Unit) := by
  induction keys generalizing seen with
  | nil => exact preservesSchema_of_state fun _ => rfl
  | cons key keys ih =>
      refine (preservesSchema_lift _).bind fun encoded => ?_
      split
      · exact ih seen
      · exact ((LawfulSchema.indexPut index encoded pkey unique).mapErr _).bind fun _ => ih _

theorem preservesSchema_backfillIndex (env : CodecEnv) (limits : LimitConfig) (index : IndexId)
    (store : StoreId) (keyPath : KeyPath) (multiEntry unique : Bool) :
    PreservesSchema (backfillIndex env limits index store keyPath multiEntry unique :
      Prog σ IdbError Unit) := by
  refine ((LawfulSchema.scanRows _ _ _ _).mapErr _).bind fun rows =>
    preservesSchema_forEach (fun row => ?_) rows
  exact (preservesSchema_lift _).bind fun keys =>
    preservesSchema_backfillKeys limits index unique row.2.1 keys []

theorem firstDeleted_eq_false {m : DatabaseMeta} {store : StoreId} {index : IndexId} {s : StoreMeta}
    (hfirst : firstDeleted m store index = false) (hs : findStoreById store m.stores = some s) :
    indexState index s.indexes ≠ some true := by
  unfold firstDeleted at hfirst
  rw [hs] at hfirst
  exact of_decide_eq_false hfirst

/-- The backfill does not fail. -/
theorem meets_backfill {env : CodecEnv} {limits : LimitConfig} {index : IndexId} {store : StoreId}
    {keyPath : KeyPath} {multiEntry unique : Bool} {b₁ : σ}
    (hsafe : ∀ e b₂, backfillIndex env limits index store keyPath multiEntry unique b₁ ≠
      (.failed e, b₂)) :
    Meets (· = b₁) (backfillIndex env limits index store keyPath multiEntry unique)
      (fun _ => SameSchema b₁) fun e _ => e = none := by
  rintro t rfl
  have hsame := preservesSchema_backfillIndex env limits index store keyPath multiEntry unique t
  rcases hrun : backfillIndex env limits index store keyPath multiEntry unique t with ⟨_ | e | _, s⟩
  · rw [hrun] at hsame
    exact hsame
  · exact absurd hrun (hsafe e s)
  · rfl

theorem meets_schemaCreateIndex {env : CodecEnv} {limits : LimitConfig} (ht : Tracks h b)
    (storeName name : String) (keyPath : KeyPath) (unique multiEntry : Bool)
    (hsafe : h.Live → ∀ store id b₁, checkDefinition keyPath multiEntry = .ok () →
      createIndexTarget h.metadata storeName name = .ok store →
      SchemaTxn.createIndex store.id (.ofString name) keyPath unique multiEntry b = (.done id, b₁) →
      ∀ e b₂, backfillIndex env limits id store.id keyPath multiEntry unique b₁ ≠ (.failed e, b₂)) :
    Meets (· = some h) (schemaCreateIndex env limits storeName name keyPath unique multiEntry)
      (fun _ => Tracked) fun e s => e.isSome → Unchanged h b s := by
  have hweak (e : Option IdbError) (s : Option (UpgradeHandle σ)) (hs : Unchanged h b s) :
      e.isSome → Unchanged h b s := fun _ => hs
  refine ((meets_check ht _).mono (fun _ h => h) (fun _ _ h => h) hweak).bind fun _ =>
    Meets.of_imp fun hdef => ?_
  refine ((meets_handle ht).mono (fun _ h => h) (fun _ _ h => h) hweak).bind fun h' =>
    Meets.of_imp ?_
  rintro ⟨rfl, hlive⟩
  refine ((meets_check ht _).mono (fun _ h => h) (fun _ _ h => h) hweak).bind fun store =>
    Meets.of_imp fun htarget => ?_
  -- the state behind the backend's part is that of which the backfill is known to succeed
  have hcreate :=
    (LawfulSchema.createIndex b store.id (.ofString name) keyPath unique multiEntry).and
    (meets_self _ b)
  have hbackend : Meets (· = b) ((SchemaTxn.createIndex store.id (.ofString name) keyPath unique
      multiEntry).mapErr backendErr) _ fun _ => SameSchema b :=
    Meets.mapErr hcreate fun _ _ hs => hs.1
  refine ((meets_onUpgrade hlive ht.backend hbackend).mono (fun _ h => h) (fun _ _ h => h)
    hweak).bind fun id => Meets.of_exists fun b₁ => Meets.of_imp ?_
  rintro ⟨⟨hschema, hmode⟩, hrun⟩
  refine ((meets_onUpgrade (h := h'.withBackend b₁) hlive rfl
    (meets_backfill (hsafe hlive store id b₁ hdef htarget hrun))).mono (fun _ h => h)
    (fun _ _ h => h)
      ?_).bind fun _ => Meets.of_exists fun b₂ => Meets.of_imp fun hsame => ?_
  · rintro e s ⟨b', rfl, -⟩ hsome
    cases hsome
  refine (meets_follow (h := h'.withBackend b₁) hlive ⟨rfl, ?_, ?_⟩).bind fun _ =>
    meets_pure fun _ hs => hs
  · exact hsame.2.trans (hmode.trans ht.mode)
  · rw [hsame.1, hschema]
    refine ht.mirrors.update (fun _ => rfl) (fun _ => rfl) fun m s _ _ hms =>
      hms.editIndexes (fun hm => ?_) fun hmarks hm => by rw [hms.indexes hmarks hm]
    rw [liveIndexes_append, liveIndexes_append, hms.liveIndexes_eq hm]

/-- The backend's part of the deletion of an index. -/
theorem meets_removeIndex (b : σ) (store : StoreId) (index : IndexId) :
    Meets (· = b)
      (do
        let pkeys ← collectStorePkeys store
        Prog.forEach (fun pk => (BackendTxn.indexDeleteByPrimary index pk).mapErr backendErr) pkeys
        (SchemaTxn.deleteIndex store index).mapErr backendErr)
      (fun _ t => ∃ remove : List IndexMeta → List IndexMeta,
        (SchemaTxn.marksIndexes σ = true → remove = updateIndex index IndexMeta.delete) ∧
        (∀ s ∈ SchemaTxn.schema b, liveIndexes (remove s.indexes) =
          liveIndexes (updateIndex index IndexMeta.delete s.indexes)) ∧
        SchemaTxn.schema t = updateStore store (StoreMeta.editIndexes remove) (SchemaTxn.schema b) ∧
        SchemaTxn.mode t = SchemaTxn.mode b)
      fun _ => SameSchema b := by
  have hcollect : PreservesSchema (collectStorePkeys store : Prog σ IdbError _) :=
    ((LawfulSchema.scanRows _ _ _ _).mapErr _).bind fun _ => preservesSchema_of_state fun _ => rfl
  refine Meets.bind
    ((hcollect.meets b).mono (fun _ h => h ▸ .refl b) (fun _ _ h => h) fun _ _ h => h)
    fun pkeys => ?_
  have hentries : PreservesSchema (Prog.forEach (fun pk =>
      (BackendTxn.indexDeleteByPrimary index pk).mapErr backendErr) pkeys : Prog σ IdbError Unit) :=
    preservesSchema_forEach (fun pk => (LawfulSchema.indexDeleteByPrimary index pk).mapErr _) pkeys
  refine (hentries.meets b).bind fun _ => meets_of_forall fun t hsame => ?_
  obtain ⟨remove, hmarks, hremove, hchange⟩ := LawfulSchema.deleteIndex t store index
  refine Meets.mapErr (hchange.mono (fun _ h => h) ?_ fun _ _ h => hsame.trans h) fun _ _ h => h
  rintro _ t' ⟨hschema, hmode⟩
  rw [hsame.1] at hremove hschema
  exact ⟨remove, hmarks, hremove, hschema, hmode.trans hsame.2⟩

theorem meets_schemaDeleteIndex (ht : Tracks h b) (storeName name : String)
    (hsafe : h.Live →
      ∀ store index, deleteIndexTarget h.metadata storeName name = .ok (store, index) →
      SchemaTxn.marksIndexes σ = true ∨ firstDeleted h.metadata store.id index.id = false) :
    Meets (· = some h) (schemaDeleteIndex storeName name) (fun _ => Tracked)
      fun _ => Unchanged h b := by
  refine (meets_handle ht).bind fun h' => Meets.of_imp ?_
  rintro ⟨rfl, hlive⟩
  refine (meets_check ht _).bind fun target => Meets.of_imp fun htarget => ?_
  obtain ⟨store, index⟩ := target
  have hfound := hsafe hlive store index htarget
  refine (meets_onUpgrade hlive ht.backend (meets_removeIndex b store.id index.id)).bind fun _ =>
    Meets.of_exists fun b' => Meets.of_imp ?_
  rintro ⟨remove, hall, hremove, hschema, hmode⟩
  refine meets_follow hlive ⟨rfl, hmode.trans ht.mode, ?_⟩
  rw [hschema]
  refine ht.mirrors.update (fun _ => rfl) (fun _ => rfl) fun m s hm hs hms =>
    hms.editIndexes (fun hm' => ?_) fun hmarks hm' => by rw [hall hmarks, hms.indexes hmarks hm']
  obtain ⟨s', hs', hindexes⟩ := hs
  rw [← hindexes, hremove s' hs', hindexes]
  apply liveIndexes_delete (hms.liveIndexes_eq hm')
  exact indexState_eq hms hm' ⟨s', hs', hindexes⟩
    (hfound.imp_right fun hfirst => firstDeleted_eq_false hfirst hm)

theorem meets_schemaRenameIndex (ht : Tracks h b) (storeName oldName newName : String)
    (hsafe : h.Live → ∀ store index, renameIndexTarget h.metadata storeName oldName newName =
      .ok (store, index) →
      SchemaTxn.marksIndexes σ = true ∨ firstDeleted h.metadata store.id index.id = false) :
    Meets (· = some h) (schemaRenameIndex storeName oldName newName) (fun _ => Tracked)
      fun _ => Unchanged h b := by
  refine (meets_handle ht).bind fun h' => Meets.of_imp ?_
  rintro ⟨rfl, hlive⟩
  refine (meets_check ht _).bind fun target => Meets.of_imp fun htarget => ?_
  obtain ⟨store, index⟩ := target
  have hfound := hsafe hlive store index htarget
  refine (meets_change ht hlive (LawfulSchema.renameIndex b _ _ _)).bind fun _ =>
    Meets.of_exists fun b' => Meets.of_imp ?_
  rintro ⟨hschema, hmode⟩
  refine meets_follow hlive ⟨rfl, hmode.trans ht.mode, ?_⟩
  rw [hschema]
  refine ht.mirrors.update (fun _ => rfl) (fun _ => rfl) fun m s hm hs hms =>
    hms.editIndexes (fun hm' => ?_) fun hmarks hm' => by rw [hms.indexes hmarks hm']
  apply liveIndexes_rename _ (hms.liveIndexes_eq hm')
  exact indexState_eq hms hm' hs (hfound.imp_right fun hfirst => firstDeleted_eq_false hfirst hm)

end Operations

/-! ### Runs of an upgrade -/

inductive UpgradeAction
  | call (c : SchemaCall)
  /-- Requests in between. -/
  | requests

section Runs

variable {σ : Type} [SchemaTxn σ] (env : CodecEnv) (limits : LimitConfig)

/-- The handle of an upgrade that has just been started. -/
def Started (s : Option (UpgradeHandle σ)) : Prop :=
  ∃ txnId version m b₀ h b, SchemaTxn.Begins m b₀ ∧
    startUpgrade txnId version m b₀ = (.done h, b) ∧ s = some h

inductive UpgradeStep : Option (UpgradeHandle σ) → UpgradeAction → Option (UpgradeHandle σ) → Prop
  | call {s s' : Option (UpgradeHandle σ)} {c : SchemaCall} {r : Exit IdbError Unit}
      (hrun : c.run env limits s = (r, s')) (hends : r ≠ .stopped) : UpgradeStep s (.call c) s'
  /-- They leave the schema on both sides. -/
  | requests {h h' : UpgradeHandle σ} {b b' : σ} (hb : h.backend = some b)
      (hb' : h'.backend = some b') (hsame : SameSchema b b') (hmeta : h'.metadata = h.metadata)
      (hgone : h'.deletedStoreIds = h.deletedStoreIds) : UpgradeStep (some h) .requests (some h')

/-- The backfill of a new index does not fail, and an index that is deleted or renamed is found
before any deleted index with its id, where ids are used again. -/
def Safe (s : Option (UpgradeHandle σ)) : UpgradeAction → Prop
  | .call (.createIndex storeName name keyPath unique multiEntry) =>
      ∀ h b store id b₁, upgradeHandleMut s = .ok h → h.backend = some b →
        checkDefinition keyPath multiEntry = .ok () →
        createIndexTarget h.metadata storeName name = .ok store →
        SchemaTxn.createIndex store.id (.ofString name) keyPath unique multiEntry b =
          (.done id, b₁) →
        ∀ e b₂, backfillIndex env limits id store.id keyPath multiEntry unique b₁ ≠ (.failed e, b₂)
  | .call (.deleteIndex storeName name) =>
      ∀ h store index, upgradeHandleMut s = .ok h →
        deleteIndexTarget h.metadata storeName name = .ok (store, index) →
        SchemaTxn.marksIndexes σ = true ∨ firstDeleted h.metadata store.id index.id = false
  | .call (.renameIndex storeName oldName newName) =>
      ∀ h store index, upgradeHandleMut s = .ok h →
        renameIndexTarget h.metadata storeName oldName newName = .ok (store, index) →
        SchemaTxn.marksIndexes σ = true ∨ firstDeleted h.metadata store.id index.id = false
  | _ => True

/-- A call that fails changes neither side. -/
def FailsClean (s : Option (UpgradeHandle σ)) : UpgradeAction → Prop
  | .call c => ∀ e s', c.run env limits s = (.failed e, s') →
      mirrored s' = mirrored s ∧ committed s' = committed s
  | .requests => True

variable [LawfulSchema σ] {env limits} {s s' : Option (UpgradeHandle σ)} {a : UpgradeAction}

theorem Started.tracked (hs : Started s) : Tracked s := by
  obtain ⟨txnId, version, m, b₀, h, b, hbegins, hstart, rfl⟩ := hs
  obtain ⟨hmode, hschema⟩ := LawfulSchema.begins hbegins
  have hrun : Meets (· = b₀) (startUpgrade txnId version m)
      (fun h t => SameSchema b₀ t ∧ h.backend = some t ∧ h.deletedStoreIds = [] ∧
        h.metadata.stores = m.stores) fun _ _ => True := by
    refine Meets.bind (((LawfulSchema.setVersion version).meets b₀).mono (fun _ h => h ▸ .refl b₀)
      (fun _ _ h => h) fun _ _ _ => trivial) fun _ => ?_
    intro t ht
    exact ⟨ht, rfl, rfl, rfl⟩
  have hends := hrun b₀ rfl
  rw [hstart] at hends
  obtain ⟨hsame, hbackend, hgone, hstores⟩ := hends
  refine ⟨h, b, rfl, hbackend, hsame.2.trans hmode, ?_⟩
  rw [hgone, hstores, hsame.1, hschema]
  apply StoresMirror.start
  rw [DatabaseMeta.schema, schemaOf, List.forall₂_map_right_iff, List.forall₂_same]
  exact fun _ _ => ⟨rfl, rfl, fun _ => rfl, fun _ _ => rfl⟩

/-- How a call ends that meets the condition. -/
theorem meets_call_run {h : UpgradeHandle σ} {b : σ} (ht : Tracks h b) (c : SchemaCall)
    (hsafe : Safe env limits (some h) (.call c)) :
    Meets (· = some h) (c.run env limits) (fun _ => Tracked) fun e s =>
      e.isSome → Unchanged h b s := by
  have hweak (e : Option IdbError) (s : Option (UpgradeHandle σ)) (hs : Unchanged h b s) :
      e.isSome → Unchanged h b s := fun _ => hs
  cases c with
  | createStore name keyPath autoIncrement =>
      exact ((meets_schemaCreateStore ht name keyPath autoIncrement).mono (fun _ h => h)
        (fun _ _ h => h) hweak).bind fun _ => meets_pure fun _ hs => hs
  | deleteStore name =>
      exact (meets_schemaDeleteStore ht name).mono (fun _ h => h) (fun _ _ h => h) hweak
  | renameStore oldName newName =>
      exact (meets_schemaRenameStore ht oldName newName).mono (fun _ h => h) (fun _ _ h => h) hweak
  | createIndex storeName name keyPath unique multiEntry =>
      refine (meets_schemaCreateIndex ht storeName name keyPath unique multiEntry
        fun hlive store id b₁ =>
        ?_).bind fun _ => meets_pure fun _ hs => hs
      exact hsafe h b store id b₁ (upgradeHandleMut_some hlive ht.backend) ht.backend
  | deleteIndex storeName name =>
      refine (meets_schemaDeleteIndex ht storeName name fun hlive store index => ?_).mono
        (fun _ h => h) (fun _ _ h => h) hweak
      exact hsafe h store index (upgradeHandleMut_some hlive ht.backend)
  | renameIndex storeName oldName newName =>
      refine (meets_schemaRenameIndex ht storeName oldName newName fun hlive store index => ?_).mono
        (fun _ h => h) (fun _ _ h => h) hweak
      exact hsafe h store index (upgradeHandleMut_some hlive ht.backend)

theorem Tracked.step (hs : Tracked s) (hstep : UpgradeStep env limits s a s')
    (hsafe : Safe env limits s a) : Tracked s' ∧ FailsClean env limits s a := by
  obtain ⟨h, b, rfl, ht⟩ := hs
  cases hstep with
  | @call _ _ c r hrun hends =>
      have hcall := meets_call_run ht c hsafe (some h) rfl
      rw [hrun] at hcall
      cases r with
      | done u =>
          refine ⟨hcall, fun e s'' hfail => ?_⟩
          rw [hrun] at hfail
          cases hfail
      | failed e =>
          have hsame : Unchanged h b s' := hcall rfl
          refine ⟨hsame.tracked ht, fun e' s'' hfail => ?_⟩
          rw [hrun] at hfail
          cases hfail
          exact hsame.same ht
      | stopped => exact absurd rfl hends
  | @requests _ h' b₁ b' hb hb' hsame hmeta hgone =>
      have hb₁ : b₁ = b := Option.some.inj (hb.symm.trans ht.backend)
      subst hb₁
      refine ⟨⟨h', b', rfl, hb', hsame.2.trans ht.mode, ?_⟩, trivial⟩
      rw [hmeta, hgone, hsame.1]
      exact ht.mirrors

theorem mirrored_run {s₀ : Option (UpgradeHandle σ)}
    {taken : List (Option (UpgradeHandle σ) × UpgradeAction)}
    (hstart : Started s₀) (h : Run (UpgradeStep env limits) s₀ taken s)
    (hsafe : EachStep (Safe env limits) taken) :
    (Throughout Tracked taken s) ∧ EachStep (FailsClean env limits) taken := by
  induction h with
  | start => exact ⟨⟨fun _ h => absurd h List.not_mem_nil, hstart.tracked⟩, eachStep_nil⟩
  | @step taken s s' a h hstep ih =>
      obtain ⟨hbefore, hlast⟩ := eachStep_append.mp hsafe
      obtain ⟨⟨hall, hs⟩, hclean⟩ := ih hbefore
      obtain ⟨hs', hclean'⟩ := hs.step hstep hlast
      refine ⟨⟨fun e he => ?_, hs'⟩, eachStep_append.mpr ⟨hclean, hclean'⟩⟩
      rcases List.mem_append.mp he with he | he
      · exact hall e he
      · rw [List.mem_singleton.mp he]
        exact hs

end Runs

/-- While every step meets the condition, the driver's metadata of an upgrade shows what the
backend will commit, and a call that fails changes neither. -/
def KeepsMirror (env : CodecEnv) (limits : LimitConfig) (σ : Type) [SchemaTxn σ] : Prop :=
  ∀ (s₀ s : Option (UpgradeHandle σ)) (taken : List (Option (UpgradeHandle σ) × UpgradeAction)),
    Started s₀ → Run (UpgradeStep env limits) s₀ taken s → EachStep (Safe env limits) taken →
    Throughout (fun s => mirrored s = committed s) taken s ∧ EachStep (FailsClean env limits) taken

theorem keepsMirror (env : CodecEnv) (limits : LimitConfig) (σ : Type) [SchemaTxn σ]
    [LawfulSchema σ] : KeepsMirror env limits σ := by
  intro s₀ s taken hstart h hsafe
  obtain ⟨⟨hall, hlast⟩, hclean⟩ := mirrored_run hstart h hsafe
  exact ⟨⟨fun e he => (hall e he).same, hlast.same⟩, hclean⟩

/-- **The schema mirror of an upgrade**, on the three backends. -/
theorem schema_mirrored (env : CodecEnv) (limits : LimitConfig) (sha256 : Bytes → Bytes) :
    KeepsMirror env limits Memory.Session ∧ KeepsMirror env limits Fs.OpenTxn ∧
      KeepsMirror env limits (Sqlite.SqliteTxn sha256) :=
  ⟨keepsMirror _ _ _, keepsMirror _ _ _, keepsMirror _ _ _⟩

/-! ### Calls in a row -/

section Calls

variable {σ : Type} [SchemaTxn σ] {s₀ s : Option (UpgradeHandle σ)}

def afterCalls (calls : List SchemaCall) (s : Option (UpgradeHandle σ)) :
    Option (UpgradeHandle σ) :=
  calls.foldl (fun s c => (c.run standardEnv {} s).2) s

/-- The calls, each with the handle that it finds. -/
def callsTaken : List SchemaCall → Option (UpgradeHandle σ) →
    List (Option (UpgradeHandle σ) × UpgradeAction)
  | [], _ => []
  | c :: cs, s => (s, .call c) :: callsTaken cs (c.run standardEnv {} s).2

/-- No call stops the process. -/
def allEnd : List SchemaCall → Option (UpgradeHandle σ) → Bool
  | [], _ => true
  | c :: cs, s => decide ((c.run standardEnv {} s).1 ≠ .stopped) &&
      allEnd cs (c.run standardEnv {} s).2

theorem run_calls (calls : List SchemaCall)
    {taken : List (Option (UpgradeHandle σ) × UpgradeAction)}
    (h : Run (UpgradeStep standardEnv {}) s₀ taken s) (hends : allEnd calls s = true) :
    Run (UpgradeStep standardEnv {}) s₀ (taken ++ callsTaken calls s) (afterCalls calls s) := by
  induction calls generalizing taken s with
  | nil => rwa [callsTaken, List.append_nil]
  | cons c cs ih =>
      obtain ⟨hend, hrest⟩ := Bool.and_eq_true_iff.mp hends
      have hrun := ih (h.step (.call rfl (of_decide_eq_true hend))) hrest
      rwa [List.append_assoc] at hrun

theorem map_callsTaken (calls : List SchemaCall) (s : Option (UpgradeHandle σ)) :
    (callsTaken calls s).map Prod.snd = calls.map .call := by
  induction calls generalizing s with
  | nil => rfl
  | cons c cs ih => rw [callsTaken, List.map_cons, List.map_cons, ih]

/-- How many of the calls fail. -/
def refusals : List SchemaCall → Option (UpgradeHandle σ) → ℕ
  | [], _ => 0
  | c :: cs, s =>
      (match (c.run standardEnv {} s).1 with
        | .failed _ => 1
        | _ => 0) + refusals cs (c.run standardEnv {} s).2

/-- Whether a call is safe, as far as its own lookups go. -/
def safeCall (s : Option (UpgradeHandle σ)) : SchemaCall → Bool
  | .createIndex storeName name keyPath unique multiEntry =>
      (upgradeHandleMut s).toOption.all fun h => h.backend.all fun b =>
        (createIndexTarget h.metadata storeName name).toOption.all fun store =>
          match SchemaTxn.createIndex store.id (.ofString name) keyPath unique multiEntry b with
          | (.done id, b) =>
              match backfillIndex standardEnv {} id store.id keyPath multiEntry unique b with
              | (.failed _, _) => false
              | _ => true
          | _ => true
  | .deleteIndex storeName name =>
      SchemaTxn.marksIndexes σ || (upgradeHandleMut s).toOption.all fun h =>
        (deleteIndexTarget h.metadata storeName name).toOption.all fun target =>
          !firstDeleted h.metadata target.1.id target.2.id
  | .renameIndex storeName oldName newName =>
      SchemaTxn.marksIndexes σ || (upgradeHandleMut s).toOption.all fun h =>
        (renameIndexTarget h.metadata storeName oldName newName).toOption.all fun target =>
          !firstDeleted h.metadata target.1.id target.2.id
  | _ => true

theorem safe_of_safeCall {c : SchemaCall} (h : safeCall s c = true) :
    Safe standardEnv {} s (.call c) := by
  cases c with
  | createIndex storeName name keyPath unique multiEntry =>
      intro handle b store id b₁ hhandle hb _ htarget hcreate e b₂ hfails
      rw [safeCall, hhandle] at h
      simp only [Except.toOption, Option.all_some, hb, htarget, hcreate, hfails] at h
      cases h
  | deleteIndex storeName name =>
      intro handle store index hhandle htarget
      refine (Bool.or_eq_true_iff.mp h).imp_right fun h => ?_
      rw [hhandle] at h
      simpa only [Except.toOption, Option.all_some, htarget, Bool.not_eq_true'] using h
  | renameIndex storeName oldName newName =>
      intro handle store index hhandle htarget
      refine (Bool.or_eq_true_iff.mp h).imp_right fun h => ?_
      rw [hhandle] at h
      simpa only [Except.toOption, Option.all_some, htarget, Bool.not_eq_true'] using h
  | _ => trivial

def allSafe : List SchemaCall → Option (UpgradeHandle σ) → Bool
  | [], _ => true
  | c :: cs, s => safeCall s c && allSafe cs (c.run standardEnv {} s).2

theorem eachStep_allSafe {calls : List SchemaCall} (h : allSafe calls s = true) :
    EachStep (Safe standardEnv {}) (callsTaken calls s) := by
  induction calls generalizing s with
  | nil => exact eachStep_nil
  | cons c cs ih =>
      obtain ⟨hcall, hrest⟩ := Bool.and_eq_true_iff.mp h
      intro e he
      rcases List.mem_cons.mp he with rfl | he
      · exact safe_of_safeCall hcall
      · exact ih hrest e he

/-- Whether a program finds a backend, and leaves its schema. -/
def leavesSchema {α : Type} (p : Prog σ IdbError α) (s : Option (UpgradeHandle σ)) : Bool :=
  match upgradeBackend s with
  | .ok b => decide (SchemaTxn.schema (p b).2 = SchemaTxn.schema b ∧
      SchemaTxn.mode (p b).2 = SchemaTxn.mode b)
  | .error _ => false

theorem requests_onUpgrade {env : CodecEnv} {limits : LimitConfig} {α : Type}
    {p : Prog σ IdbError α} (h : leavesSchema p s = true) :
    UpgradeStep env limits s .requests (onUpgrade p s).2 := by
  unfold leavesSchema at h
  cases hb : upgradeBackend s with
  | error e =>
      rw [hb] at h
      cases h
  | ok b =>
      rw [hb] at h
      obtain ⟨handle, rfl, hlive, hbackend⟩ := upgradeBackend_ok hb
      have hp : Meets (· = b) p (fun _ => SameSchema b) fun _ => SameSchema b := by
        rintro t rfl
        have hsame : SameSchema t (p t).2 := by
          unfold SameSchema
          exact of_decide_eq_true h
        rcases hrun : p t with ⟨_ | _ | _, t'⟩ <;> rw [hrun] at hsame <;> exact hsame
      obtain ⟨b', hsame, hs⟩ := (meets_onUpgrade hlive hbackend hp).behind rfl
      rw [hs]
      exact .requests hbackend rfl hsame rfl rfl

/-- The handle of an upgrade of a new database. -/
def opened (m : DatabaseMeta) (b : σ) : Option (UpgradeHandle σ) :=
  match startUpgrade 1 1 m b with
  | (.done h, _) => some h
  | _ => none

theorem started_opened {m : DatabaseMeta} {b : σ} (hbegins : SchemaTxn.Begins m b)
    (hsome : (opened m b).isSome) : Started (opened m b) := by
  unfold opened at hsome ⊢
  rcases hrun : startUpgrade 1 1 m b with ⟨h | _ | _, b'⟩
  · exact ⟨1, 1, m, b, h, b', hbegins, hrun, rfl⟩
  · rw [hrun] at hsome
    cases hsome
  · rw [hrun] at hsome
    cases hsome

end Calls

def memoryUpgrade : Memory.Session :=
  ⟨.empty, (Memory.MemoryDatabase.mk (emptyMeta [])).begin .versionChange []⟩

def fsUpgrade : Fs.OpenTxn :=
  .begin (Fs.freshSession []) .versionChange [] (emptyMeta []) .strict 8

def sqliteUpgrade : Sqlite.SqliteTxn id := .begin (.empty []) .empty .versionChange []

theorem begins_memoryUpgrade : SchemaTxn.Begins (emptyMeta []) memoryUpgrade :=
  ⟨⟨emptyMeta []⟩, [], rfl, rfl⟩

theorem begins_fsUpgrade : SchemaTxn.Begins (emptyMeta []) fsUpgrade := ⟨_, _, _, _, rfl⟩

theorem begins_sqliteUpgrade :
    SchemaTxn.Begins (Sqlite.Tables.empty []).loadMetadata sqliteUpgrade :=
  ⟨_, _, _, rfl, rfl⟩

/-- A store and its index are created, renamed and deleted; the name of each is taken once. -/
def storeCalls : List SchemaCall :=
  [.createStore "s" none true, .createStore "s" none false, .createIndex "s" "a" .empty true false,
    .createIndex "s" "a" .empty false false, .renameIndex "s" "a" "b", .renameStore "s" "t",
    .deleteIndex "t" "b", .deleteStore "t"]

/-- Two of the calls are refused, and the mirror holds throughout. -/
structure StoreCallsMirrored {σ : Type} [SchemaTxn σ] (s₀ : Option (UpgradeHandle σ)) : Prop where
  refused : refusals storeCalls s₀ = 2
  kept : Throughout (fun s => mirrored s = committed s) (callsTaken storeCalls s₀)
      (afterCalls storeCalls s₀) ∧
    EachStep (FailsClean standardEnv {}) (callsTaken storeCalls s₀)

theorem schema_mirrored_storeCalls :
    StoreCallsMirrored (opened (emptyMeta []) memoryUpgrade) ∧
      StoreCallsMirrored (opened (emptyMeta []) fsUpgrade) ∧
      StoreCallsMirrored (opened (Sqlite.Tables.empty []).loadMetadata sqliteUpgrade) := by
  have hmemory := run_calls storeCalls .start
    (by decide +kernel : allEnd _ (opened (emptyMeta []) memoryUpgrade) = true)
  have hfs := run_calls storeCalls .start
    (by decide +kernel : allEnd _ (opened (emptyMeta []) fsUpgrade) = true)
  have hsqlite := run_calls storeCalls .start (by decide +kernel :
    allEnd _ (opened (Sqlite.Tables.empty []).loadMetadata sqliteUpgrade) = true)
  refine ⟨⟨by decide +kernel, ?_⟩, ⟨by decide +kernel, ?_⟩, by decide +kernel, ?_⟩
  · exact (schema_mirrored _ _ id).1 _ _ _ (started_opened begins_memoryUpgrade rfl) hmemory
      (eachStep_allSafe (by decide +kernel))
  · exact (schema_mirrored _ _ id).2.1 _ _ _ (started_opened begins_fsUpgrade rfl) hfs
      (eachStep_allSafe (by decide +kernel))
  · exact (schema_mirrored _ _ id).2.2 _ _ _ (started_opened begins_sqliteUpgrade rfl) hsqlite
      (eachStep_allSafe (by decide +kernel))

/-! ### The two ways apart -/

/-- Two records with the same value. -/
def putTwice : Prog Memory.Session IdbError Unit := do
  let store : StoreMeta := ⟨1, .ofString "s", .empty, false, keyGenStart, [], false⟩
  let _ ← Engine.put standardEnv {} store (.new keyGenStart) (.number keyGenStart)
    (some (.number 0)) false
  let _ ← Engine.put standardEnv {} store (.new keyGenStart) (.number keyGenStart)
    (some (.number keyGenStart)) false
  pure ()

def withStore : Option (UpgradeHandle Memory.Session) :=
  afterCalls [.createStore "s" none false] (opened (emptyMeta []) memoryUpgrade)

def withRecords : Option (UpgradeHandle Memory.Session) := (onUpgrade putTwice withStore).2

/-- A unique index on the whole value. -/
def uniqueIndex : SchemaCall := .createIndex "s" "a" .empty true false

/-- An index is created under the id of a deleted one, and renamed. -/
def reusedId : List SchemaCall :=
  [.createStore "s" none false, .createIndex "s" "a" .empty false false, .deleteIndex "s" "a",
    .createIndex "s" "b" .empty false false, .renameIndex "s" "b" "c"]

/-- A unique index whose backfill fails is in the backend alone; with SQLite, a new index under
an old id keeps its name in the driver's metadata when it is renamed. -/
theorem schema_drifts :
    (∃ taken s₀, ∃ s s' : Option (UpgradeHandle Memory.Session), Started s₀ ∧
      Run (UpgradeStep standardEnv {}) s₀ taken s ∧ mirrored s = committed s ∧
      UpgradeStep standardEnv {} s (.call uniqueIndex) s' ∧
      (∃ e, uniqueIndex.run standardEnv {} s = (.failed e, s')) ∧
      mirrored s' = mirrored s ∧ committed s' ≠ committed s) ∧
    ∃ taken s₀, ∃ s : Option (UpgradeHandle (Sqlite.SqliteTxn id)), Started s₀ ∧
      Run (UpgradeStep standardEnv {}) s₀ taken s ∧
      taken.map Prod.snd = reusedId.map UpgradeAction.call ∧ mirrored s ≠ committed s := by
  constructor
  · have hrun := run_calls [.createStore "s" none false] .start
      (by decide +kernel : allEnd _ (opened (emptyMeta []) memoryUpgrade) = true)
    have hrecords :=
      hrun.step (requests_onUpgrade (by decide +kernel : leavesSchema putTwice withStore = true))
    have hfails : (uniqueIndex.run standardEnv {} withRecords).1 =
        .failed (.constraint "Unique constraint violation for index 1") := by decide +kernel
    refine ⟨_, _, withRecords, (uniqueIndex.run standardEnv {} withRecords).2,
      started_opened begins_memoryUpgrade rfl, hrecords, by decide +kernel,
      .call (Prod.ext hfails rfl) (fun h => nomatch h), ⟨_, Prod.ext hfails rfl⟩,
      by decide +kernel, by decide +kernel⟩
  · have hrun := run_calls reusedId .start (by decide +kernel :
      allEnd _ (opened (Sqlite.Tables.empty []).loadMetadata sqliteUpgrade) = true)
    exact ⟨_, _, _, started_opened begins_sqliteUpgrade rfl, hrun, map_callsTaken reusedId _,
      by decide +kernel⟩

end BoaIdb.Driver
