import BoaIdb.Backend.LiveSchema
import BoaIdb.Backend.Txn

/-!
The schema operations of a backend transaction, and what the driver relies on.
-/

namespace BoaIdb

open Faults

/-- The schema operations of `trait BackendTxn`. -/
class SchemaTxn (σ : Type) extends BackendTxn σ where
  setVersion (version : UInt64) : Prog σ BackendError Unit
  createStore (name : Utf16String) (keyPath : KeyPath) (autoIncrement : Bool) :
    Prog σ BackendError StoreId
  deleteStore (id : StoreId) : Prog σ BackendError Unit
  renameStore (id : StoreId) (name : Utf16String) : Prog σ BackendError Unit
  createIndex (store : StoreId) (name : Utf16String) (keyPath : KeyPath)
    (unique multiEntry : Bool) : Prog σ BackendError IndexId
  deleteIndex (store : StoreId) (id : IndexId) : Prog σ BackendError Unit
  renameIndex (store : StoreId) (id : IndexId) (name : Utf16String) : Prog σ BackendError Unit
  mode : σ → TxnMode
  /-- Whether a deleted index stays in the schema, marked, and its id is not used again. -/
  marksIndexes : Bool
  /-- The stores and indexes that a commit publishes; their generators are left out. -/
  schema : σ → List StoreMeta
  /-- `begin` in an upgrade, with the metadata of the handle behind it. -/
  Begins : DatabaseMeta → σ → Prop

section

variable {σ : Type} [SchemaTxn σ]

open SchemaTxn

/-- The physical deletions before a commit, with their errors ignored. -/
def dropStores (gone : List StoreId) : Prog σ BackendError Unit :=
  Prog.forEach (fun id => do
    let _ ← (deleteStore id).attempt
    pure ()) gone

/-- The state has the schema and the mode of another one. -/
def SameSchema (t t' : σ) : Prop := schema t' = schema t ∧ mode t' = mode t

/-- The program preserves the schema, however it ends. -/
def PreservesSchema {ε α : Type} (p : Prog σ ε α) : Prop := ∀ t : σ, SameSchema t (p t).2

/-- The program changes the schema, or ends early and leaves it. -/
def ChangesSchema {α : Type} (t : σ) (p : Prog σ BackendError α)
    (f : α → List StoreMeta → List StoreMeta) : Prop :=
  Meets (· = t) p (fun a t' => schema t' = f a (schema t) ∧ mode t' = mode t)
    fun _ t' => SameSchema t t'

theorem SameSchema.refl (t : σ) : SameSchema t t := ⟨rfl, rfl⟩

theorem SameSchema.trans {t t' t'' : σ} (h : SameSchema t t') (h' : SameSchema t' t'') :
    SameSchema t t'' :=
  ⟨h'.1.trans h.1, h'.2.trans h.2⟩

/-! ### Programs that preserve the schema -/

section PreservesSchema

variable {ε α β : Type} {p : Prog σ ε α}

theorem preservesSchema_of_state (h : ∀ t, (p t).2 = t) : PreservesSchema p := by
  intro t
  rw [h]
  exact .refl t

theorem preservesSchema_lift (r : Except ε α) : PreservesSchema (Prog.lift r : Prog σ ε α) := by
  apply preservesSchema_of_state
  intro t
  cases r <;> rfl

/-- A read is resolved state by state. -/
theorem preservesSchema_read {k : σ → Prog σ ε α} (h : ∀ t, PreservesSchema (k t)) :
    PreservesSchema (Prog.read >>= k) :=
  fun t => h t t

theorem preservesSchema_modify {f : σ → σ} (h : ∀ t, SameSchema t (f t)) :
    PreservesSchema (Prog.modify f : Prog σ ε Unit) := h

/-- From any state with the schema. -/
theorem PreservesSchema.meets (h : PreservesSchema p) (t : σ) :
    Meets (SameSchema t) p (fun _ => SameSchema t) fun _ => SameSchema t := by
  intro t' ht'
  have hsame := ht'.trans (h t')
  rcases hrun : p t' with ⟨_ | _ | _, s⟩ <;> rw [hrun] at hsame <;> exact hsame

theorem PreservesSchema.bind {k : α → Prog σ ε β} (h : PreservesSchema p)
    (hk : ∀ a, PreservesSchema (k a)) : PreservesSchema (p >>= k) := by
  intro t
  exact ((h.meets t).bind fun a => (hk a).meets t).behind (.refl t)

theorem PreservesSchema.mapErr {ε' : Type} (h : PreservesSchema p) (f : ε → ε') :
    PreservesSchema (p.mapErr f) := by
  intro t
  have hsame := h t
  unfold Prog.mapErr
  rcases hrun : p t with ⟨_ | _ | _, s⟩ <;> rw [hrun] at hsame <;> exact hsame

theorem preservesSchema_forEach {ι : Type} {body : ι → Prog σ ε Unit}
    (h : ∀ i, PreservesSchema (body i))
    (is : List ι) : PreservesSchema (Prog.forEach body is) := by
  induction is with
  | nil => exact .refl
  | cons i is ih => exact (h i).bind fun _ => ih

end PreservesSchema

end

/-- The stores of the metadata, without their generators. -/
def DatabaseMeta.schema (m : DatabaseMeta) : List StoreMeta := (schemaOf m).stores

/-- What the schema operations do, and that operations on data preserve it. -/
class LawfulSchema (σ : Type) [SchemaTxn σ] : Prop where
  begins {m : DatabaseMeta} {t : σ} (h : SchemaTxn.Begins m t) :
    SchemaTxn.mode t = .versionChange ∧ SchemaTxn.schema t = m.schema
  setVersion (version : UInt64) :
    PreservesSchema (SchemaTxn.setVersion version : Prog σ BackendError Unit)
  createStore (t : σ) (name : Utf16String) (keyPath : KeyPath) (autoIncrement : Bool) :
    ChangesSchema t (SchemaTxn.createStore name keyPath autoIncrement) fun id stores =>
      stores ++ [⟨id, name, keyPath, autoIncrement, keyGenStart, [], false⟩]
  renameStore (t : σ) (id : StoreId) (name : Utf16String) :
    ChangesSchema t (SchemaTxn.renameStore id name) fun _ =>
      updateStore id (StoreMeta.rename name)
  createIndex (t : σ) (store : StoreId) (name : Utf16String) (keyPath : KeyPath)
    (unique multiEntry : Bool) :
    ChangesSchema t (SchemaTxn.createIndex store name keyPath unique multiEntry) fun id =>
      updateStore store (StoreMeta.editIndexes fun indexes =>
        indexes ++ [⟨id, store, name, keyPath, unique, multiEntry, false⟩])
  deleteIndex (t : σ) (store : StoreId) (id : IndexId) :
    ∃ remove : List IndexMeta → List IndexMeta,
      (SchemaTxn.marksIndexes σ = true → remove = updateIndex id IndexMeta.delete) ∧
      (∀ s ∈ SchemaTxn.schema t, liveIndexes (remove s.indexes) =
        liveIndexes (updateIndex id IndexMeta.delete s.indexes)) ∧
      ChangesSchema t (SchemaTxn.deleteIndex store id) fun _ =>
        updateStore store (StoreMeta.editIndexes remove)
  indexes_live (t : σ) (hmarks : SchemaTxn.marksIndexes σ = false) :
    ∀ s ∈ SchemaTxn.schema t, ∀ i ∈ s.indexes, i.deleted = false
  renameIndex (t : σ) (store : StoreId) (id : IndexId) (name : Utf16String) :
    ChangesSchema t (SchemaTxn.renameIndex store id name) fun _ =>
      updateStore store (StoreMeta.editIndexes (updateIndex id (IndexMeta.rename name)))
  dropStores (t : σ) (gone : List StoreId) (hmode : SchemaTxn.mode t = .versionChange) :
    liveStores (SchemaTxn.schema (dropStores gone t).2) =
      liveStores (deleteStores gone (SchemaTxn.schema t))
  scanRows (src : SourceRef) (range : EncodedRange) (dir : Direction) (keyOnly : Bool) :
    PreservesSchema (BackendTxn.scanRows src range dir keyOnly : Prog σ BackendError _)
  indexPut (index : IndexId) (idxKey primaryKey : Bytes) (unique : Bool) :
    PreservesSchema (BackendTxn.indexPut index idxKey primaryKey unique : Prog σ BackendError _)
  indexDeleteByPrimary (index : IndexId) (primaryKey : Bytes) :
    PreservesSchema (BackendTxn.indexDeleteByPrimary index primaryKey : Prog σ BackendError _)

/-! ### Transactions with a copy of the metadata -/

theorem DatabaseMeta.schema_editStore {f : StoreMeta → StoreMeta} (id : StoreId) (m : DatabaseMeta)
    (hf : ∀ s, { f s with keyGen := keyGenStart } = f { s with keyGen := keyGenStart }) :
    (editStore id f m).schema = updateStore id f m.schema :=
  map_updateFirst_comm m.stores (fun _ => rfl) hf

section

variable {σ : Type} [SchemaTxn σ]

open SchemaTxn

/-- The program changes the metadata, or fails and changes nothing. -/
def EditsMetadata {α : Type} (metadata : σ → DatabaseMeta) (p : Prog σ BackendError α)
    (result : DatabaseMeta → α) (f : DatabaseMeta → DatabaseMeta) : Prop :=
  ∀ t, Meets (· = t) p
    (fun a t' => a = result (metadata t) ∧ metadata t' = f (metadata t) ∧ mode t' = mode t)
    fun _ t' => t' = t

end

/-- The transaction changes its own copy of the metadata. -/
class MetadataTxn (σ : Type) extends SchemaTxn σ where
  metadata : σ → DatabaseMeta
  marks : marksIndexes = true
  schema_eq (t : σ) : schema t = (metadata t).schema
  begins {m : DatabaseMeta} {t : σ} (h : Begins m t) : mode t = .versionChange ∧ metadata t = m
  setVersion_edits (version : UInt64) :
    EditsMetadata metadata (setVersion version) (fun _ => ()) fun m => { m with version := version }
  createStore_edits (name : Utf16String) (keyPath : KeyPath) (autoIncrement : Bool) :
    EditsMetadata metadata (createStore name keyPath autoIncrement) DatabaseMeta.nextStoreId
      fun m => { m with
        nextStoreId := m.nextStoreId + 1
        stores := m.stores ++
          [⟨m.nextStoreId, name, keyPath, autoIncrement, keyGenStart, [], false⟩] }
  deleteStore_edits (id : StoreId) :
    EditsMetadata metadata (deleteStore id) (fun _ => ()) (editStore id StoreMeta.delete)
  /-- In an upgrade a deletion succeeds. -/
  deleteStore_done (id : StoreId) (t : σ) (h : mode t = .versionChange) :
    ∃ t', deleteStore id t = (.done (), t')
  renameStore_edits (id : StoreId) (name : Utf16String) :
    EditsMetadata metadata (renameStore id name)
      (fun _ => ()) (editStore id (StoreMeta.rename name))
  createIndex_edits (store : StoreId) (name : Utf16String) (keyPath : KeyPath)
    (unique multiEntry : Bool) :
    EditsMetadata metadata (createIndex store name keyPath unique multiEntry)
      DatabaseMeta.nextIndexId fun m => { editStore store (StoreMeta.editIndexes fun indexes =>
        indexes ++ [⟨m.nextIndexId, store, name, keyPath, unique, multiEntry, false⟩]) m with
        nextIndexId := m.nextIndexId + 1 }
  deleteIndex_edits (store : StoreId) (id : IndexId) :
    EditsMetadata metadata (deleteIndex store id) (fun _ => ())
      (editStore store (StoreMeta.editIndexes (updateIndex id IndexMeta.delete)))
  renameIndex_edits (store : StoreId) (id : IndexId) (name : Utf16String) :
    EditsMetadata metadata (renameIndex store id name) (fun _ => ())
      (editStore store (StoreMeta.editIndexes (updateIndex id (IndexMeta.rename name))))
  scanRows_preserves (src : SourceRef) (range : EncodedRange) (dir : Direction) (keyOnly : Bool) :
    PreservesSchema (scanRows src range dir keyOnly)
  indexPut_preserves (index : IndexId) (idxKey primaryKey : Bytes) (unique : Bool) :
    PreservesSchema (indexPut index idxKey primaryKey unique)
  indexDeleteByPrimary_preserves (index : IndexId) (primaryKey : Bytes) :
    PreservesSchema (indexDeleteByPrimary index primaryKey)

namespace MetadataTxn

open SchemaTxn

variable {σ : Type} [MetadataTxn σ]

/-- A change of the metadata as a change of the schema. -/
theorem changesSchema {α : Type} {p : Prog σ BackendError α} {result : DatabaseMeta → α}
    {f : DatabaseMeta → DatabaseMeta} {g : α → List StoreMeta → List StoreMeta}
    (h : EditsMetadata metadata p result f)
    (hfg : ∀ m : DatabaseMeta, (f m).schema = g (result m) m.schema) (t : σ) :
    ChangesSchema t p g := by
  refine (h t).mono (fun _ h => h) ?_ ?_
  · rintro a t' ⟨rfl, hmeta, hmode⟩
    refine ⟨?_, hmode⟩
    rw [schema_eq, schema_eq, hmeta, hfg]
  · rintro _ t' rfl
    exact .refl _

/-- In an upgrade the stores are marked one by one. -/
theorem schema_dropStores (gone : List StoreId) (t : σ) (hmode : mode t = .versionChange) :
    schema (dropStores gone t).2 = deleteStores gone (schema t) := by
  induction gone generalizing t with
  | nil => rfl
  | cons id rest ih =>
      obtain ⟨t', hrun⟩ := deleteStore_done id t hmode
      have hedits := deleteStore_edits id t t rfl
      rw [hrun] at hedits
      obtain ⟨-, hmeta, hmode'⟩ := hedits
      have hschema : schema t' = updateStore id StoreMeta.delete (schema t) := by
        rw [schema_eq, schema_eq, hmeta]
        exact DatabaseMeta.schema_editStore id _ fun _ => rfl
      have hrest : dropStores (id :: rest) t = dropStores rest t' := by
        apply Prog.bind_done
        · exact Prog.bind_done (Prog.attempt_done hrun) rfl
        · rfl
      rw [hrest, ih t' (hmode'.trans hmode), hschema]
      rfl

instance : LawfulSchema σ where
  begins h := by
    obtain ⟨hmode, hmeta⟩ := MetadataTxn.begins h
    rw [schema_eq, hmeta]
    exact ⟨hmode, rfl⟩
  setVersion version t := by
    have hset := changesSchema (g := fun _ stores => stores) (setVersion_edits version)
      (fun _ => rfl) t
    exact Meets.behind (hset.mono (fun _ h => h) (fun _ _ h => h) fun _ _ h => h) rfl
  createStore t name keyPath autoIncrement :=
    changesSchema (createStore_edits name keyPath autoIncrement) (fun m => by
      simp [DatabaseMeta.schema, schemaOf]) t
  renameStore t id name :=
    changesSchema (renameStore_edits id name)
      (fun _ => DatabaseMeta.schema_editStore id _ fun _ => rfl) t
  createIndex t store name keyPath unique multiEntry :=
    changesSchema (createIndex_edits store name keyPath unique multiEntry)
      (fun _ => DatabaseMeta.schema_editStore store _ fun _ => rfl) t
  indexes_live t h := by
    rw [marks] at h
    cases h
  deleteIndex t store id := ⟨updateIndex id IndexMeta.delete, fun _ => rfl, fun _ _ => rfl,
    changesSchema (deleteIndex_edits store id)
      (fun _ => DatabaseMeta.schema_editStore store _ fun _ => rfl) t⟩
  renameIndex t store id name :=
    changesSchema (renameIndex_edits store id name)
      (fun _ => DatabaseMeta.schema_editStore store _ fun _ => rfl) t
  dropStores t gone hmode := congrArg liveStores (schema_dropStores gone t hmode)
  scanRows := scanRows_preserves
  indexPut := indexPut_preserves
  indexDeleteByPrimary := indexDeleteByPrimary_preserves

end MetadataTxn

end BoaIdb
