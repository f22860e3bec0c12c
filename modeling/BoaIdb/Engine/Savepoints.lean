import BoaIdb.Backend.Savepoints
import BoaIdb.Engine.OpsStore

/-!
The store operations keep what the operations of the backend keep, also when they fail.
-/

namespace BoaIdb.Engine

open Clone Faults

variable {σ : Type} [BackendTxn σ] {inv : σ → Prop} {env : CodecEnv} {limits : LimitConfig}
  {store : StoreMeta}

theorem keeps_syncIndex (h : RowOperationsKeep σ inv) (index : IndexMeta) (old : Option ScValue)
    (new : ScValue) (pk : Bytes) : Keeps inv (syncIndex limits index old new pk : Prog σ _ _) := by
  refine (keeps_lift _).bind fun oldKeys => (keeps_lift _).bind fun newKeys => ?_
  refine (keeps_forEach (fun key => ?_) _).bind fun _ => keeps_forEach (fun key => ?_) _
  · exact (h.indexDelete index.id key pk).mapErr _
  · exact (h.indexPut index.id key pk index.unique).mapErr _

theorem keeps_put (h : OperationsKeep σ inv) (keygen : KeyGenerator) (value : ScValue)
    (explicitKey : Option Key) (noOverwrite : Bool) :
    Keeps inv (put env limits store keygen value explicitKey noOverwrite : Prog σ _ _) := by
  refine (keeps_lift _).bind fun determined => (keeps_lift _).bind fun pk => ?_
  refine ((h.get store.id pk).mapErr _).bind fun existing => ?_
  dsimp only
  split
  · exact keeps_throw _
  refine (keeps_lift _).bind fun old => Keeps.bind ?_ fun _ => ?_
  · refine (keeps_lift _).bind fun pk' => keeps_forEach (fun index => ?_) _
    exact keeps_syncIndex h.toRowOperationsKeep index old determined.2.2 pk'
  · refine (keeps_lift _).bind fun bytes => ?_
    refine ((h.put store.id pk bytes noOverwrite).mapErr _).bind fun _ => ?_
    exact ((h.keyGenSet store.id _).mapErr _).bind fun _ => keeps_pure _

theorem keeps_collectRangeKeys (h : RowOperationsKeep σ inv) (id : StoreId) (range : EncodedRange) :
    Keeps inv (collectRangeKeys id range : Prog σ _ _) :=
  ((h.scanRows (.store id) range .next true).mapErr _).bind fun _ => keeps_pure _

theorem keeps_deleteEntries (h : RowOperationsKeep σ inv) (doomed : List Bytes) :
    Keeps inv (deleteEntries store doomed : Prog σ _ _) := by
  refine keeps_forEach (fun pk => keeps_forEach (fun index => ?_) _) _
  exact (h.indexDeleteByPrimary index.id pk).mapErr _

theorem keeps_delete (h : RowOperationsKeep σ inv) (range : EncodedRange) :
    Keeps inv (delete store range : Prog σ _ _) := by
  refine (keeps_collectRangeKeys h store.id range).bind fun doomed => ?_
  refine ((h.deleteRange store.id range).mapErr _).bind fun count => ?_
  exact (keeps_deleteEntries h doomed).bind fun _ => keeps_pure _

theorem keeps_clear (h : RowOperationsKeep σ inv) : Keeps inv (clear store : Prog σ _ _) := by
  refine (keeps_collectRangeKeys h store.id .all).bind fun doomed => ?_
  exact ((h.clear store.id).mapErr _).bind fun _ => keeps_deleteEntries h doomed

/-! ### Generators -/

theorem saveStack_generate {keygen keygen' : KeyGenerator} {key : F64Bits}
    (h : keygen.generate = .ok (key, keygen')) : keygen'.saveStack = keygen.saveStack := by
  unfold KeyGenerator.generate at h
  split at h
  · cases h
  · cases h
    rfl

theorem saveStack_determineKey {keygen keygen' : KeyGenerator} {value value' : ScValue}
    {explicitKey : Option Key} {key : Key}
    (h : determineKey store keygen value explicitKey = .ok (key, keygen', value')) :
    keygen'.saveStack = keygen.saveStack := by
  unfold determineKey at h
  split at h
  · split at h
    · cases h
      rfl
    · cases h
  · split at h
    · split at h
      · obtain ⟨⟨generated, moved⟩, hgenerate, h⟩ := bind_ok h
        cases h
        exact saveStack_generate hgenerate
      · split at h
        · cases h
          rfl
        · cases h
        · cases h
    · obtain ⟨extracted, -, h⟩ := bind_ok h
      cases extracted with
      | some k =>
          cases h
          rfl
      | none =>
          dsimp only at h
          split at h
          · obtain ⟨⟨generated, moved⟩, hgenerate, h⟩ := bind_ok h
            dsimp only at h
            split at h
            · cases h
              exact saveStack_generate hgenerate
            · cases h
          · cases h

theorem saveStack_possiblyUpdate (keygen : KeyGenerator) (key : F64Bits) :
    (keygen.possiblyUpdate key).saveStack = keygen.saveStack := by
  unfold KeyGenerator.possiblyUpdate
  split <;> rfl

/-- A put that succeeds tells the backend where the generator has come to. -/
theorem generator_put [LawfulSavepoints σ] (s : σ) (keygen : KeyGenerator) (value : ScValue)
    (explicitKey : Option Key) (noOverwrite : Bool) :
    Meets (· = s) (put env limits store keygen value explicitKey noOverwrite)
      (fun r s' => LawfulSavepoints.generator s' =
          Function.update (LawfulSavepoints.generator s) store.id r.2.1.current ∧
        r.2.1.saveStack = keygen.saveStack)
      (fun e _ => e.isSome) := by
  let still (s' : σ) : Prop := LawfulSavepoints.generator s' = LawfulSavepoints.generator s
  have hrows : RowOperationsKeep σ still := LawfulSavepoints.rows_keep_generator _
  have hkept {α : Type} {p : Prog σ IdbError α} (h : Keeps still p) :
      Meets still p (fun _ => still) fun e _ => e.isSome :=
    Meets.mono h (fun _ h => h) (fun _ _ h => h) fun _ _ h => h.1
  have hdetermined : Meets (· = s) (Prog.lift (determineKey store keygen value explicitKey))
      (fun r s' => r.2.1.saveStack = keygen.saveStack ∧ still s') fun e _ => e.isSome := by
    refine meets_lift ?_ fun _ _ _ _ => rfl
    rintro r hr _ rfl
    exact ⟨saveStack_determineKey hr, rfl⟩
  refine hdetermined.bind fun determined => Meets.of_imp fun hstack => ?_
  refine (hkept (keeps_lift _)).bind fun pk => ?_
  refine (hkept ((hrows.get store.id pk).mapErr _)).bind fun existing => ?_
  dsimp only
  split
  · exact meets_throw fun _ _ => rfl
  refine (hkept (keeps_lift _)).bind fun old => (hkept ?_).bind fun _ => ?_
  · refine (keeps_lift _).bind fun pk' => keeps_forEach (fun index => ?_) _
    exact keeps_syncIndex hrows index old determined.2.2 pk'
  refine (hkept (keeps_lift _)).bind fun bytes => ?_
  refine (hkept ((hrows.put store.id pk bytes noOverwrite).mapErr _)).bind fun _ => ?_
  refine meets_of_forall fun s' hs' => ?_
  refine (Meets.mapErr_isSome _ (LawfulSavepoints.keyGenSet_generator s' store.id _)).bind
    fun _ => meets_pure fun s'' hs'' => ?_
  rw [hs'', hs']
  exact ⟨rfl, (saveStack_possiblyUpdate _ _).trans hstack⟩

end BoaIdb.Engine
