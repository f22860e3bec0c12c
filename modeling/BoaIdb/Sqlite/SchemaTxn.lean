import BoaIdb.Sqlite.Schema
import BoaIdb.Sqlite.Txn

/-!
The schema operations of a SQLite transaction, on the tables of its connection.
-/

namespace BoaIdb.Sqlite

open Faults OrdMap

variable {sha256 : Bytes → Bytes}

instance : SchemaTxn (SqliteTxn sha256) where
  setVersion := SqliteTxn.setVersion
  createStore := SqliteTxn.createStore
  deleteStore := SqliteTxn.deleteStore
  renameStore := SqliteTxn.renameStore
  createIndex := SqliteTxn.createIndex
  deleteIndex := SqliteTxn.deleteIndex
  renameIndex := SqliteTxn.renameIndex
  mode t := t.mode
  marksIndexes := false
  schema t := t.tables.schema
  Begins m t := ∃ tables files scope,
    m = tables.loadMetadata ∧ t = SqliteTxn.begin tables files .versionChange scope

namespace SqliteTxn

variable {t : SqliteTxn sha256}

/-! ### Statements -/

theorem meets_checkVersionChange (name : String) :
    Meets (· = t) (checkVersionChange name) (fun _ t' => t' = t) fun _ t' => t' = t := by
  apply meets_read
  rintro s rfl
  split
  · exact meets_throw fun _ h => h
  · exact meets_pure fun _ h => h

theorem meets_execute {α : Type} (statement : Tables → Except SqlError (α × Tables))
    (err : SqlError → BackendError) :
    Meets (· = t) (execute statement err)
      (fun a t' => ∃ tables, statement t.tables = .ok (a, tables) ∧
        t' = { t with tables := tables })
      fun _ t' => t' = t := by
  apply meets_read
  rintro s rfl
  cases hrun : statement s.tables with
  | error e => exact meets_throw fun _ h => h
  | ok r =>
      rintro s' rfl
      exact ⟨r.2, rfl, rfl⟩

/-- A checked statement, and the same change of the metadata. -/
theorem changesSchema_execute {α β : Type} {name : String}
    {statement : Tables → Except SqlError (α × Tables)} {err : SqlError → BackendError}
    {k : α → Op sha256 β} {f : β → List StoreMeta → List StoreMeta} {result : α → β}
    (hk : ∀ a s, ∃ m, k a s = (.done (result a), { s with metadata := m }))
    (hf : ∀ a tables, statement t.tables = .ok (a, tables) →
      tables.schema = f (result a) t.tables.schema) :
    ChangesSchema t (do checkVersionChange name; let a ← execute statement err; k a) f := by
  have hsame (e : Option BackendError) (t' : SqliteTxn sha256) (h : t' = t) : SameSchema t t' :=
    h ▸ .refl t
  refine Meets.bind ((meets_checkVersionChange name).mono (fun _ h => h) (fun _ _ h => h) hsame)
    fun _ => Meets.bind ((meets_execute statement err).mono (fun _ h => h) (fun _ _ h => h) hsame)
      fun a => ?_
  rintro t' ⟨tables, hstatement, rfl⟩
  obtain ⟨m, hrun⟩ := hk a { t with tables := tables }
  rw [hrun]
  exact ⟨hf a tables hstatement, rfl⟩

theorem map_unit_ok {r : Except SqlError Tables} {u : Unit} {tables : Tables}
    (h : r.map ((), ·) = .ok (u, tables)) : r = .ok tables := by
  obtain ⟨tables', hr, heq⟩ := map_ok h
  cases heq
  exact hr

/-! ### Deletions -/

theorem forEach_trackBlobOrphaned (paths : List BlobPath) (t : SqliteTxn sha256) :
    ∃ t', Prog.forEach trackBlobOrphaned paths t = (.done (), t') ∧ t'.mode = t.mode ∧
      t'.tables = t.tables := by
  induction paths generalizing t with
  | nil => exact ⟨t, rfl, rfl, rfl⟩
  | cons path rest ih =>
      obtain ⟨t', hrun, hmode, htables⟩ := ih (trackBlobOrphaned path t).2
      exact ⟨t', Prog.bind_done rfl hrun, hmode, htables⟩

/-- In an upgrade a store goes away with its rows. -/
theorem deleteStore_done (id : StoreId) (t : SqliteTxn sha256) (h : t.mode = .versionChange) :
    ∃ t', deleteStore id t = (.done (), t') ∧ t'.mode = t.mode ∧
      t'.tables = t.tables.deleteStore id := by
  have hcheck : (checkVersionChange "delete_store" : Op sha256 Unit) t = (.done (), t) :=
    Prog.bind_done rfl (by rw [if_neg (not_not.mpr h)]; rfl)
  obtain ⟨t', htrack, hmode, htables⟩ := forEach_trackBlobOrphaned (collectExts t.tables id .all) t
  refine ⟨_, Prog.bind_done hcheck (Prog.bind_done rfl (Prog.bind_done htrack rfl)), hmode, ?_⟩
  show t'.tables.deleteStore id = _
  rw [htables]

theorem schema_dropStores (gone : List StoreId) (t : SqliteTxn sha256)
    (h : t.mode = .versionChange) :
    SchemaTxn.schema (dropStores gone t).2 = t.tables.schema.filter fun s => s.id ∉ gone := by
  induction gone generalizing t with
  | nil => simp [dropStores, Prog.forEach]; rfl
  | cons id rest ih =>
      obtain ⟨t', hrun, hmode, htables⟩ := deleteStore_done id t h
      have hrest : dropStores (id :: rest) t = dropStores rest t' := by
        apply Prog.bind_done
        · exact Prog.bind_done (Prog.attempt_done hrun) rfl
        · rfl
      rw [hrest, ih t' (hmode.trans h), htables, Tables.schema_deleteStore, List.filter_filter]
      apply List.filter_congr
      intro s _
      by_cases hs : s.id = id <;> simp [hs]

end SqliteTxn

namespace SqliteTxn

/-! ### Operations on data -/

theorem preservesSchema_check (c : SqliteTxn sha256 → Prop) [DecidablePred c] (e : BackendError) :
    PreservesSchema (do
      let t ← Prog.read
      if c t then pure () else Prog.throw e : Op sha256 Unit) := by
  refine preservesSchema_read fun t => preservesSchema_of_state fun t' => ?_
  split <;> rfl

theorem preservesSchema_checkReadwrite : PreservesSchema (checkReadwrite : Op sha256 Unit) := by
  refine preservesSchema_read fun t => preservesSchema_of_state fun t' => ?_
  split <;> rfl

theorem preservesSchema_setVersion (version : UInt64) :
    PreservesSchema (setVersion version : Op sha256 Unit) := by
  refine PreservesSchema.bind (fun t => ?_) fun _ => PreservesSchema.bind ?_ fun _ => ?_
  · refine Meets.behind ((meets_checkVersionChange "set_version").mono (fun _ h => h) ?_ ?_) rfl
    all_goals
      rintro _ _ rfl
      exact .refl _
  · exact preservesSchema_modify fun t => ⟨rfl, rfl⟩
  · exact preservesSchema_modify fun t => ⟨rfl, rfl⟩

theorem preservesSchema_scanRows (src : SourceRef) (range : EncodedRange) (dir : Direction)
    (keyOnly : Bool) : PreservesSchema (scanRows src range dir keyOnly : Op sha256 _) := by
  refine PreservesSchema.bind ?_ fun _ => preservesSchema_read fun t =>
    preservesSchema_of_state fun t' => ?_
  · cases src <;> exact preservesSchema_check _ _
  · cases (SqliteCursor.open src range dir keyOnly).visit sha256 t.tables t.files with
    | ok rows => rfl
    | error stop => cases stop <;> rfl

theorem preservesSchema_indexPut (index : IndexId) (idxKey primaryKey : Bytes) (unique : Bool) :
    PreservesSchema (indexPut index idxKey primaryKey unique : Op sha256 Unit) := by
  refine preservesSchema_checkReadwrite.bind fun _ => preservesSchema_read fun t => ?_
  split
  · exact preservesSchema_of_state fun _ => rfl
  · refine PreservesSchema.bind (fun t => ?_) fun _ => preservesSchema_modify fun t => ⟨rfl, rfl⟩
    have hput := meets_execute (t := t)
      (fun tables => (tables.insertIndexRecord ⟨index, idxKey, primaryKey⟩).map ((), ·))
      fun e => .internal ("index_put failed: " ++ e.text)
    refine Meets.behind (hput.mono (fun _ h => h) ?_ fun _ _ h => h ▸ .refl t) rfl
    rintro u t' ⟨tables, hrun, rfl⟩
    have hinsert := map_unit_ok hrun
    unfold Tables.insertIndexRecord at hinsert
    split at hinsert
    · cases hinsert
    · cases hinsert
      exact ⟨rfl, rfl⟩

theorem preservesSchema_indexDeleteByPrimary (index : IndexId) (primaryKey : Bytes) :
    PreservesSchema (indexDeleteByPrimary index primaryKey : Op sha256 Unit) :=
  preservesSchema_checkReadwrite.bind fun _ => preservesSchema_modify fun _ => ⟨rfl, rfl⟩

end SqliteTxn

instance : LawfulSchema (SqliteTxn sha256) where
  begins := by
    rintro m t ⟨tables, files, scope, rfl, rfl⟩
    exact ⟨rfl, rfl⟩
  setVersion version := SqliteTxn.preservesSchema_setVersion version
  createStore t name keyPath autoIncrement :=
    SqliteTxn.changesSchema_execute (fun _ _ => ⟨_, rfl⟩) fun _ _ h => Tables.schema_insertStore h
  renameStore t id name :=
    SqliteTxn.changesSchema_execute (fun _ _ => ⟨_, rfl⟩) fun _ _ h =>
      Tables.schema_renameStore (SqliteTxn.map_unit_ok h)
  createIndex t store name keyPath unique multiEntry :=
    SqliteTxn.changesSchema_execute (fun _ _ => ⟨_, rfl⟩) fun _ _ h => Tables.schema_insertIndex h
  indexes_live t _ s hs i hi := by
    obtain ⟨-, store, hindexes⟩ := Tables.schema_live hs
    exact Tables.loadIndexes_live (hindexes ▸ hi)
  deleteIndex t store id := by
    refine ⟨fun indexes => indexes.filter fun i => i.id ≠ id, fun h =>
      Bool.noConfusion h, fun s hs => ?_, ?_⟩
    · obtain ⟨-, store', hindexes⟩ := Tables.schema_live hs
      rw [hindexes, Tables.updateIndex_loadIndexes, liveIndexes_map_delete]
    · refine Meets.bind ((SqliteTxn.meets_checkVersionChange "delete_index").mono (fun _ h => h)
        (fun _ _ h => h) fun _ _ h => h ▸ .refl t) fun _ => ?_
      rintro t' rfl
      exact ⟨Tables.schema_deleteIndex t'.tables store id, rfl⟩
  renameIndex t store id name :=
    SqliteTxn.changesSchema_execute (fun _ _ => ⟨_, rfl⟩) fun _ _ h =>
      Tables.schema_renameIndex (SqliteTxn.map_unit_ok h)
  dropStores t gone h := by
    show _ = liveStores (deleteStores gone t.tables.schema)
    rw [SqliteTxn.schema_dropStores gone t h, deleteStores_eq_map gone t.tables.stores_distinct,
      liveStores_map_delete]
  scanRows := SqliteTxn.preservesSchema_scanRows
  indexPut := SqliteTxn.preservesSchema_indexPut
  indexDeleteByPrimary := SqliteTxn.preservesSchema_indexDeleteByPrimary

end BoaIdb.Sqlite
