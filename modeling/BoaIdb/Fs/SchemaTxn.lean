import BoaIdb.Backend.SchemaTxn
import BoaIdb.Fs.Backend

/-!
The schema operations of a filesystem transaction, on its copy of the metadata.
-/

namespace BoaIdb.Fs

open Faults

namespace OpenTxn

/-- A schema operation. -/
def onSchema (f : FsTxn → Except BackendError FsTxn) : Prog OpenTxn BackendError Unit :=
  Prog.call fun s => (f s.txn).map fun t => ((), { s with txn := t })

/-- A schema operation that takes an id of the metadata. -/
def onSchemaWith {α : Type} (result : DatabaseMeta → α) (f : FsTxn → Except BackendError FsTxn) :
    Prog OpenTxn BackendError α :=
  Prog.call fun s => (f s.txn).map fun t => (result s.txn.metadata, { s with txn := t })

end OpenTxn

instance : SchemaTxn OpenTxn where
  setVersion version := OpenTxn.onSchema fun t => t.setVersion version
  createStore name keyPath autoIncrement :=
    OpenTxn.onSchemaWith DatabaseMeta.nextStoreId fun t => t.createStore name keyPath autoIncrement
  deleteStore id := OpenTxn.onSchema fun t => t.deleteStore id
  renameStore id name := OpenTxn.onSchema fun t => t.renameStore id name
  createIndex store name keyPath unique multiEntry :=
    OpenTxn.onSchemaWith DatabaseMeta.nextIndexId fun t =>
      t.createIndex store name keyPath unique multiEntry
  deleteIndex store id := OpenTxn.onSchema fun t => t.deleteIndex store id
  renameIndex store id name := OpenTxn.onSchema fun t => t.renameIndex store id name
  mode s := s.txn.mode
  marksIndexes := true
  schema s := s.txn.metadata.schema
  Begins m s := ∃ session scope durability maxKeys,
    s = OpenTxn.begin session .versionChange scope m durability maxKeys

namespace OpenTxn

def metadata (s : OpenTxn) : DatabaseMeta := s.txn.metadata

section Edits

variable {op : String} {f : DatabaseMeta → DatabaseMeta}
  (hf : ∀ m, ∀ store ∈ (f m).stores, store.keyGen = keyGenStart ∨
    ∃ store' ∈ m.stores, store'.id = store.id ∧ store'.keyGen = store.keyGen)

theorem schemaOp_ok {t t' : FsTxn} (h : t.schemaOp op f hf = .ok t') :
    t'.metadata = f t.metadata ∧ t'.mode = t.mode := by
  unfold FsTxn.schemaOp at h
  split at h
  · cases h
  · cases h
    exact ⟨rfl, rfl⟩

theorem edits_onSchemaWith {α : Type} (result : DatabaseMeta → α) :
    EditsMetadata metadata (onSchemaWith result fun t => t.schemaOp op f hf) result f := by
  intro s
  apply meets_call_map
  · intro t ht
    obtain ⟨hmeta, hmode⟩ := schemaOp_ok hf ht
    exact ⟨rfl, hmeta, hmode⟩
  · intro e _
    rfl

theorem edits_onSchema :
    EditsMetadata metadata (onSchema fun t => t.schemaOp op f hf) (fun _ => ()) f :=
  edits_onSchemaWith hf fun _ => ()

end Edits

/-- An operation on the pending changes leaves the metadata. -/
theorem preservesSchema_onTxn {f : OpenTxn → Except BackendError OpenTxn}
    (h : ∀ s s', f s = .ok s' → s'.txn.metadata = s.txn.metadata ∧ s'.txn.mode = s.txn.mode) :
    PreservesSchema (onTxn f) := by
  intro s
  have hends : Meets (· = s) (onTxn f) (fun _ => SameSchema s) fun _ => SameSchema s := by
    apply meets_onTxn
    · intro s' hs'
      obtain ⟨hmeta, hmode⟩ := h s s' hs'
      exact ⟨congrArg DatabaseMeta.schema hmeta, hmode⟩
    · intro e _
      exact .refl s
  exact hends.behind rfl

end OpenTxn

instance : MetadataTxn OpenTxn where
  metadata := OpenTxn.metadata
  marks := rfl
  schema_eq _ := rfl
  begins := by
    rintro m s ⟨session, scope, durability, maxKeys, rfl⟩
    exact ⟨rfl, rfl⟩
  setVersion_edits _ := OpenTxn.edits_onSchema _
  createStore_edits _ _ _ := OpenTxn.edits_onSchemaWith _ _
  deleteStore_edits _ := OpenTxn.edits_onSchema _
  deleteStore_done id s h := by
    obtain ⟨t, hop⟩ : ∃ t, s.txn.deleteStore id = .ok t := ⟨_, dif_neg (not_not.mpr h)⟩
    refine ⟨{ s with txn := t }, ?_⟩
    show Prog.call (fun s : OpenTxn => (s.txn.deleteStore id).map fun t =>
      ((), { s with txn := t })) s = _
    exact Prog.call_ok (by rw [hop]; rfl)
  renameStore_edits _ _ := OpenTxn.edits_onSchema _
  createIndex_edits _ _ _ _ _ := OpenTxn.edits_onSchemaWith _ _
  deleteIndex_edits _ _ := OpenTxn.edits_onSchema _
  renameIndex_edits _ _ _ := OpenTxn.edits_onSchema _
  scanRows_preserves src range dir keyOnly := by
    refine PreservesSchema.bind (preservesSchema_of_state fun s => ?_) fun c =>
      preservesSchema_of_state c.visitRows_state
    have hask : Meets (· = s) (OpenTxn.askTxn (·.scan src range dir keyOnly))
        (fun _ s' => s' = s) fun _ s' => s' = s :=
      OpenTxn.meets_askTxn (fun _ _ => rfl) fun _ _ => rfl
    exact hask.behind rfl
  indexPut_preserves _ _ _ _ := OpenTxn.preservesSchema_onTxn fun s s' h => by
    obtain ⟨_, -, h⟩ := bind_ok h
    obtain ⟨p, -, hs'⟩ := bind_ok h
    cases hs'
    exact ⟨rfl, rfl⟩
  indexDeleteByPrimary_preserves _ _ := OpenTxn.preservesSchema_onTxn fun s s' h => by
    obtain ⟨_, -, h⟩ := bind_ok h
    cases h
    exact ⟨rfl, rfl⟩

end BoaIdb.Fs
