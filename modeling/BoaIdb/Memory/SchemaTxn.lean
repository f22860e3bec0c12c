import BoaIdb.Backend.SchemaTxn
import BoaIdb.Memory.Backend
import BoaIdb.Memory.Schema

/-!
The schema operations of a memory transaction, on its copy of the metadata.
-/

namespace BoaIdb.Memory

open Faults

instance : SchemaTxn Session where
  setVersion version := Session.onTxn fun _ t => t.setVersion version
  createStore name keyPath autoIncrement :=
    Session.onTxnWith fun _ t => t.createStore name keyPath autoIncrement
  deleteStore id := Session.onTxn fun _ t => t.deleteStore id
  renameStore id name := Session.onTxn fun _ t => t.renameStore id name
  createIndex store name keyPath unique multiEntry :=
    Session.onTxnWith fun _ t => t.createIndex store name keyPath unique multiEntry
  deleteIndex store id := Session.onTxn fun _ t => t.deleteIndex store id
  renameIndex store id name := Session.onTxn fun _ t => t.renameIndex store id name
  mode s := s.txn.mode
  marksIndexes := true
  schema s := s.txn.metadata.schema
  Begins m s := ∃ (d : MemoryDatabase) (scope : List StoreId),
    m = d.metadata ∧ s.txn = d.begin .versionChange scope

namespace Session

def metadata (s : Session) : DatabaseMeta := s.txn.metadata

theorem edits_onTxn (op : String) (f : DatabaseMeta → DatabaseMeta) :
    EditsMetadata metadata (onTxn fun _ t => t.schemaOp op f) (fun _ => ()) f := by
  intro s
  apply meets_onTxn
  · intro t ht
    obtain ⟨-, rfl⟩ := schemaOp_ok ht
    exact ⟨rfl, rfl, rfl⟩
  · intro e _
    rfl

theorem edits_onTxnWith {α : Type} (op : String) (f : DatabaseMeta → DatabaseMeta)
    (result : DatabaseMeta → α) :
    EditsMetadata metadata
      (onTxnWith fun _ t => (t.schemaOp op f).map (·, result t.metadata)) result f := by
  intro s
  apply meets_onTxnWith
  · intro t a ht
    obtain ⟨t', ht', heq⟩ := map_ok ht
    obtain ⟨-, rfl⟩ := schemaOp_ok ht'
    cases heq
    exact ⟨rfl, rfl, rfl⟩
  · intro e _
    rfl

/-- An operation on the pending changes leaves the metadata. -/
theorem preservesSchema_onTxn {f : Rows → MemoryTxn → Except BackendError MemoryTxn}
    (h : ∀ base t t', f base t = .ok t' → t'.metadata = t.metadata ∧ t'.mode = t.mode) :
    PreservesSchema (onTxn f) := by
  intro s
  have hends : Meets (· = s) (onTxn f) (fun _ => SameSchema s) fun _ => SameSchema s := by
    apply meets_onTxn
    · intro t ht
      obtain ⟨hmeta, hmode⟩ := h s.rows s.txn t ht
      exact ⟨congrArg DatabaseMeta.schema hmeta, hmode⟩
    · intro e _
      exact .refl s
  exact hends.behind rfl

end Session

instance : MetadataTxn Session where
  metadata := Session.metadata
  marks := rfl
  schema_eq _ := rfl
  begins := by
    rintro m s ⟨d, scope, rfl, hs⟩
    show s.txn.mode = _ ∧ s.txn.metadata = _
    rw [hs]
    exact ⟨rfl, rfl⟩
  setVersion_edits _ := Session.edits_onTxn _ _
  createStore_edits _ _ _ := Session.edits_onTxnWith _ _ _
  deleteStore_edits _ := Session.edits_onTxn _ _
  deleteStore_done id s h := by
    have hop : s.txn.deleteStore id =
        .ok { s.txn with metadata := editStore id StoreMeta.delete s.txn.metadata } :=
      if_neg (not_not.mpr h)
    refine ⟨{ s with txn :=
      { s.txn with metadata := editStore id StoreMeta.delete s.txn.metadata } }, ?_⟩
    show Prog.call (fun s : Session => (s.txn.deleteStore id).map fun t =>
      ((), { s with txn := t })) s = _
    exact Prog.call_ok (by rw [hop]; rfl)
  renameStore_edits _ _ := Session.edits_onTxn _ _
  createIndex_edits _ _ _ _ _ := Session.edits_onTxnWith _ _ _
  deleteIndex_edits _ _ := Session.edits_onTxn _ _
  renameIndex_edits _ _ _ := Session.edits_onTxn _ _
  scanRows_preserves src range dir keyOnly := by
    refine PreservesSchema.bind (preservesSchema_of_state fun s => ?_) fun c =>
      preservesSchema_of_state c.visitRows_state
    have hask : Meets (· = s) (Session.askTxn fun base t => t.scan base src range dir keyOnly)
        (fun _ s' => s' = s) fun _ s' => s' = s :=
      Session.meets_askTxn (fun _ _ => rfl) fun _ _ => rfl
    exact hask.behind rfl
  indexPut_preserves _ _ _ _ := Session.preservesSchema_onTxn fun base t t' h => by
    obtain ⟨_, -, h⟩ := bind_ok h
    obtain ⟨p, -, ht⟩ := bind_ok h
    cases ht
    exact ⟨rfl, rfl⟩
  indexDeleteByPrimary_preserves _ _ := Session.preservesSchema_onTxn fun base t t' h => by
    obtain ⟨_, -, h⟩ := bind_ok h
    cases h
    exact ⟨rfl, rfl⟩

end BoaIdb.Memory
