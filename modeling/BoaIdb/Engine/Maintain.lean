import BoaIdb.Backend.View
import BoaIdb.Clone.RoundTrip
import BoaIdb.Engine.OpsStore

/-!
What the store operations do to the view of a lawful backend.

Along a run every store has a ghost: the value that each primary key holds, as it was put.
The operations keep the records and the entries of every live index in step with it.
-/

namespace BoaIdb.Engine

open Clone Faults LawfulTxn

variable {σ : Type} [BackendTxn σ] [LawfulTxn σ] {env : CodecEnv} {limits : LimitConfig}

/-! ### Entries of one index -/

theorem meets_indexDelete (s : σ) (index : IndexId) (idxKey pk : Bytes) :
    Meets (· = s) (indexDelete index idxKey pk)
      (fun _ s' => view s' = (view s).removeEntry ⟨index, idxKey, pk⟩) (fun e _ => e.isSome) :=
  (LawfulTxn.indexDelete s index idxKey pk).mapErr_isSome _

theorem meets_indexPut (s : σ) (index : IndexId) (idxKey pk : Bytes) (unique : Bool) :
    Meets (· = s) (indexPut index idxKey pk unique)
      (fun _ s' => ¬ (unique = true ∧ (view s).Taken ⟨index, idxKey, pk⟩) ∧
        view s' = (view s).addEntry ⟨index, idxKey, pk⟩) (fun e _ => e.isSome) :=
  (LawfulTxn.indexPut s index idxKey pk unique).mapErr_isSome _

theorem meets_deleteByPrimary (s : σ) (index : IndexId) (pk : Bytes) :
    Meets (· = s) (deleteByPrimary index pk)
      (fun _ s' => view s' = (view s).removePrimary index pk) (fun e _ => e.isSome) :=
  (LawfulTxn.indexDeleteByPrimary s index pk).mapErr_isSome _

theorem meets_deleteKeys (index : IndexId) (pk : Bytes) (keys : List Bytes) (s : σ) :
    Meets (· = s) (Prog.forEach (fun old => indexDelete index old pk) keys)
      (fun _ s' => (view s').records = (view s).records ∧ ∀ k, (view s').entries k ↔
        ¬ (k.index = index ∧ k.primaryKey = pk ∧ k.key ∈ keys) ∧ (view s).entries k)
      (fun e _ => e.isSome) := by
  induction keys generalizing s with
  | nil => exact meets_pure fun s' hs => by simp [hs]
  | cons key keys ih =>
      refine (meets_indexDelete s index key pk).bind fun _ s' hs' => ?_
      refine (ih s' s' rfl).mono (fun _ t ht => ?_) fun _ _ h => h
      obtain ⟨hrecords, hentries⟩ := ht
      rw [hs'] at hrecords hentries
      refine ⟨hrecords, fun k => ?_⟩
      obtain ⟨i, kk, kpk⟩ := k
      rw [hentries]
      simp only [View.removeEntry, ne_eq, IndexKey.mk.injEq, List.mem_cons]
      tauto

/-- Keys that a unique index accepts for a primary key are its own or free. -/
theorem meets_putKeys (index : IndexId) (pk : Bytes) (unique : Bool) (keys : List Bytes) (s : σ) :
    Meets (· = s) (Prog.forEach (fun new => indexPut index new pk unique) keys)
      (fun _ s' => (view s').records = (view s).records ∧
        (∀ k, (view s').entries k ↔
          k.index = index ∧ k.primaryKey = pk ∧ k.key ∈ keys ∨ (view s).entries k) ∧
        (unique = true → ∀ key ∈ keys, (view s).entries ⟨index, key, pk⟩ ∨
          ∀ pk', ¬ (view s).entries ⟨index, key, pk'⟩))
      (fun e _ => e.isSome) := by
  induction keys generalizing s with
  | nil => exact meets_pure fun s' hs => by simp [hs]
  | cons key keys ih =>
      refine (meets_indexPut s index key pk unique).bind fun _ s' hs' => ?_
      obtain ⟨hfree, hs'⟩ := hs'
      refine (ih s' s' rfl).mono (fun _ t ht => ?_) fun _ _ h => h
      obtain ⟨hrecords, hentries, hunique⟩ := ht
      rw [hs'] at hrecords hentries hunique
      have hhead : unique = true → (view s).entries ⟨index, key, pk⟩ ∨
          ∀ pk', ¬ (view s).entries ⟨index, key, pk'⟩ := by
        intro h
        by_contra hnot
        push Not at hnot
        exact hfree ⟨h, hnot⟩
      refine ⟨hrecords, fun k => ?_, fun h key' hkey' => ?_⟩
      · obtain ⟨i, kk, kpk⟩ := k
        rw [hentries]
        simp only [View.addEntry, IndexKey.mk.injEq, List.mem_cons]
        tauto
      · rcases List.mem_cons.mp hkey' with rfl | hkey'
        · exact hhead h
        · rcases hunique h key' hkey' with hown | hnone
          · rcases hown with heq | hown
            · cases heq
              exact hhead h
            · exact .inl hown
          · exact .inr fun pk' hpk' => hnone pk' (.inr hpk')

/-! ### Encodings -/

theorem encodeDistinct_ok {keys : List Key} {out encoded : List Bytes}
    (h : encodeDistinct limits keys out = .ok encoded) :
    (∀ k ∈ keys, ∃ bytes, k.encodeKey limits = .ok bytes) ∧
      ∀ bytes, bytes ∈ encoded ↔ bytes ∈ out ∨ ∃ k ∈ keys, k.encodeKey limits = .ok bytes := by
  induction keys generalizing out with
  | nil =>
      cases h
      exact ⟨fun _ hk => absurd hk List.not_mem_nil, fun bytes => by simp⟩
  | cons key keys ih =>
      rw [encodeDistinct] at h
      obtain ⟨first, hfirst, h⟩ := bind_ok h
      have hkey : key.encodeKey limits = .ok first := mapError_ok hfirst
      obtain ⟨hall, hmem⟩ := ih h
      refine ⟨fun k hk => ?_, fun bytes => ?_⟩
      · rcases List.mem_cons.mp hk with rfl | hk
        · exact ⟨first, hkey⟩
        · exact hall k hk
      · have hout : bytes ∈ (if first ∈ out then out else out ++ [first]) ↔
            bytes ∈ out ∨ bytes = first := by
          split
          · next hin =>
              refine ⟨.inl, ?_⟩
              rintro (h | rfl)
              · exact h
              · exact hin
          · rw [List.mem_append, List.mem_singleton]
        rw [hmem, hout]
        simp only [List.mem_cons, exists_eq_or_imp, hkey, Except.ok.injEq, eq_comm (a := first),
          or_assoc]

/-! ### Synchronizing the entries of a record -/

/-- The keys an index holds for a value that may be missing. -/
def keysOf (limits : LimitConfig) (index : IndexMeta) :
    Option ScValue → Except IdbError (List Bytes)
  | some v => indexKeysForValue limits index v
  | none => .ok []

/-- The entries of one primary key are those of the old value before, and of the new one
behind the synchronization. -/
theorem meets_syncIndex (s : σ) (index : IndexMeta) {old : Option ScValue} (new : ScValue)
    {pk : Bytes} (hold : ∀ keys, keysOf limits index old = .ok keys →
      ∀ key, (view s).entries ⟨index.id, key, pk⟩ ↔ key ∈ keys) :
    Meets (· = s) (syncIndex limits index old new pk)
      (fun _ s' => (view s').records = (view s).records ∧
        (∃ keys, indexKeysForValue limits index new = .ok keys ∧
          ∀ key, (view s').entries ⟨index.id, key, pk⟩ ↔ key ∈ keys) ∧
        (∀ k, ¬ (k.index = index.id ∧ k.primaryKey = pk) →
          ((view s').entries k ↔ (view s).entries k)) ∧
        (index.unique = true → (view s).OneHolder index.id → (view s').OneHolder index.id))
      (fun e _ => e.isSome) := by
  refine (meets_lift_self s _).bind fun oldKeys => Meets.of_imp fun holdKeys => ?_
  refine (meets_lift_self s _).bind fun newKeys => Meets.of_imp fun hnewKeys => ?_
  have hown := hold oldKeys (by cases old <;> exact holdKeys)
  refine (meets_deleteKeys index.id pk _ s).bind fun _ s₁ hs₁ => ?_
  obtain ⟨hrecords₁, hentries₁⟩ := hs₁
  refine (meets_putKeys index.id pk index.unique _ s₁ s₁ rfl).mono (fun _ s₂ hs₂ => ?_) fun _ _ h =>
    h
  obtain ⟨hrecords₂, hentries₂, hfree⟩ := hs₂
  have hafter (k : IndexKey) : (view s₂).entries k ↔
      k.index = index.id ∧ k.primaryKey = pk ∧ k.key ∈ newKeys ∧ k.key ∉ oldKeys ∨
        ¬ (k.index = index.id ∧ k.primaryKey = pk ∧ k.key ∈ oldKeys ∧ k.key ∉ newKeys) ∧
          (view s).entries k := by
    rw [hentries₂, hentries₁]
    simp only [List.mem_filter, decide_eq_true_eq]
  have hnew (key : Bytes) : (view s₂).entries ⟨index.id, key, pk⟩ ↔ key ∈ newKeys := by
    rw [hafter, hown]
    tauto
  refine ⟨hrecords₂.trans hrecords₁, ⟨newKeys, hnewKeys, hnew⟩, fun k hk => ?_,
    fun hunique hone => ?_⟩
  · rw [hafter]
    tauto
  · have hother {key pk' : Bytes} (hne : pk' ≠ pk) : (view s₂).entries ⟨index.id, key, pk'⟩ ↔
        (view s).entries ⟨index.id, key, pk'⟩ := by
      rw [hafter]
      tauto
    -- a key of the new value has no other holder
    have halone {key pk' : Bytes} (hkey : (view s₂).entries ⟨index.id, key, pk⟩)
        (hheld : (view s₂).entries ⟨index.id, key, pk'⟩) : pk' = pk := by
      by_contra hne
      have hheld₀ := (hother hne).mp hheld
      have hkey' := (hnew key).mp hkey
      by_cases holdKey : key ∈ oldKeys
      · exact hne (hone key pk' pk hheld₀ ((hown key).mpr holdKey))
      · have hpick : key ∈ newKeys.filter (· ∉ oldKeys) := by simp [hkey', holdKey]
        rcases hfree hunique key hpick with hentry | hnone
        · rw [hentries₁, hown] at hentry
          exact holdKey hentry.2
        · refine hnone pk' ((hentries₁ _).mpr ⟨fun h => hne h.2.1, hheld₀⟩)
    intro key pk₁ pk₂ h₁ h₂
    by_cases hpk₁ : pk₁ = pk
    · subst hpk₁
      exact (halone h₁ h₂).symm
    · by_cases hpk₂ : pk₂ = pk
      · subst hpk₂
        exact halone h₂ h₁
      · exact hone key pk₁ pk₂ ((hother hpk₁).mp h₁) ((hother hpk₂).mp h₂)

theorem meets_syncIndexes (indexes : List IndexMeta) (hnodup : (indexes.map IndexMeta.id).Nodup)
    (s : σ) {old : Option ScValue} (new : ScValue) {pk : Bytes}
    (hold : ∀ index ∈ indexes, ∀ keys, keysOf limits index old = .ok keys →
      ∀ key, (view s).entries ⟨index.id, key, pk⟩ ↔ key ∈ keys) :
    Meets (· = s) (Prog.forEach (fun index => syncIndex limits index old new pk) indexes)
      (fun _ s' => (view s').records = (view s).records ∧
        (∀ index ∈ indexes, ∃ keys, indexKeysForValue limits index new = .ok keys ∧
          ∀ key, (view s').entries ⟨index.id, key, pk⟩ ↔ key ∈ keys) ∧
        (∀ k : IndexKey, (k.index ∉ indexes.map IndexMeta.id ∨ k.primaryKey ≠ pk) →
          ((view s').entries k ↔ (view s).entries k)) ∧
        (∀ index ∈ indexes, index.unique = true → (view s).OneHolder index.id →
          (view s').OneHolder index.id))
      (fun e _ => e.isSome) := by
  induction indexes generalizing s with
  | nil => exact meets_pure fun s' hs => by simp [hs]
  | cons index indexes ih =>
      obtain ⟨hnot, hnodup⟩ := List.nodup_cons.mp hnodup
      have hne {i : IndexMeta} (hi : i ∈ indexes) : i.id ≠ index.id := fun h =>
        hnot (h ▸ List.mem_map_of_mem hi)
      refine (meets_syncIndex s index new (hold index (by simp))).bind fun _ s₁ hs₁ => ?_
      obtain ⟨hrecords₁, hkeys₁, hframe₁, hone₁⟩ := hs₁
      refine (ih hnodup s₁ (fun i hi keys hkeys key => ?_) s₁ rfl).mono (fun _ s₂ hs₂ => ?_)
        fun _ _ h => h
      · rw [hframe₁ _ fun h => hne hi h.1]
        exact hold i (.tail _ hi) keys hkeys key
      obtain ⟨hrecords₂, hkeys₂, hframe₂, hone₂⟩ := hs₂
      refine ⟨hrecords₂.trans hrecords₁, fun i hi => ?_, fun k hk =>
        ?_, fun i hi hunique hone => ?_⟩
      · rcases List.mem_cons.mp hi with rfl | hi
        · obtain ⟨keys, hkeys, hown⟩ := hkeys₁
          exact ⟨keys, hkeys, fun key => (hframe₂ _ (.inl hnot)).trans (hown key)⟩
        · exact hkeys₂ i hi
      · rw [List.map_cons, List.mem_cons] at hk
        rw [hframe₂ k (by tauto), hframe₁ k (by tauto)]
      · rcases List.mem_cons.mp hi with rfl | hi
        · intro key pk₁ pk₂ h₁ h₂
          exact hone₁ hunique hone key pk₁ pk₂ ((hframe₂ _ (.inl hnot)).mp h₁)
            ((hframe₂ _ (.inl hnot)).mp h₂)
        · refine hone₂ i hi hunique fun key pk₁ pk₂ h₁ h₂ => ?_
          rw [hframe₁ _ fun h => hne hi h.1] at h₁ h₂
          exact hone key pk₁ pk₂ h₁ h₂

/-! ### A store in step with its ghost -/

/-- The records of a store are the encoded values, and the entries of its live indexes are
those of the values. -/
structure Maintains (env : CodecEnv) (limits : LimitConfig) (store : StoreMeta) (w : View)
    (values : Bytes → Option ScValue) : Prop where
  records : ∀ pk, w.records ⟨store.id, pk⟩ = none ∧ values pk = none ∨
    ∃ v bytes, values pk = some v ∧ encodeScf env limits v = .ok bytes ∧
      w.records ⟨store.id, pk⟩ = some bytes
  entries : ∀ index ∈ store.liveIndexes, ∀ pk, ∃ keys, keysOf limits index (values pk) = .ok keys ∧
    ∀ key, w.entries ⟨index.id, key, pk⟩ ↔ key ∈ keys
  /-- No key of a unique index has two holders. -/
  oneHolder : ∀ index ∈ store.liveIndexes, index.unique = true → w.OneHolder index.id
  storable : ∀ pk v, values pk = some v → v.Storable

/-- Records of other stores and entries of other indexes are as before. -/
structure Frames (store : StoreMeta) (w w' : View) : Prop where
  records : ∀ k, k.store ≠ store.id → w'.records k = w.records k
  entries : ∀ k, k.index ∉ store.liveIndexes.map IndexMeta.id → (w'.entries k ↔ w.entries k)

/-- The value that is read back has the same index keys. -/
theorem indexKeysForValue_stored (index : IndexMeta) (v : ScValue) :
    indexKeysForValue limits index v.stored = indexKeysForValue limits index v := by
  rw [indexKeysForValue, indexKeysForValue, KeyPath.extractMultiEntry_stored,
    KeyPath.extract_stored]

theorem storable_determineKey {store : StoreMeta} {keygen keygen' : KeyGenerator} {v v' : ScValue}
    {explicitKey : Option Key} {key : Key} (hv : v.Storable)
    (h : determineKey store keygen v explicitKey = .ok (key, keygen', v')) : v'.Storable := by
  unfold determineKey at h
  cases explicitKey with
  | some k =>
      dsimp only at h
      split at h
      · cases h
        exact hv
      · cases h
  | none =>
      dsimp only at h
      split at h
      · split at h
        · obtain ⟨generated, -, h⟩ := bind_ok h
          cases h
          exact hv
        · split at h
          · cases h
            exact hv
          · cases h
          · cases h
      · obtain ⟨extracted, -, h⟩ := bind_ok h
        cases extracted with
        | some k =>
            cases h
            exact hv
        | none =>
            dsimp only at h
            split at h
            · obtain ⟨generated, -, h⟩ := bind_ok h
              split at h
              · next hinject =>
                  cases h
                  exact KeyPath.storable_inject hv hinject
              · cases h
            · cases h

/-- The value to be overwritten has the index keys of the ghost, if it can be read. -/
theorem keysOf_oldValue (henv : env.Lawful) (hlimit : limits.maxValueLen < 2 ^ 64)
    {store : StoreMeta} {w : View} {values : Bytes → Option ScValue}
    (h : Maintains env limits store w values) {key : Key} {pk : Bytes} {old : Option ScValue}
    (hold : oldValueOf env limits key (w.records ⟨store.id, pk⟩) = .ok old) (index : IndexMeta) :
    keysOf limits index old = keysOf limits index (values pk) := by
  rcases h.records pk with ⟨hnone, hvalue⟩ | ⟨v, bytes, hvalue, hencode, hrecord⟩
  · rw [hnone] at hold
    rw [← Except.ok.inj hold, hvalue]
  · rw [hrecord, oldValueOf] at hold
    obtain ⟨hnoMemo, hrepresentable⟩ := ScValue.everywhere_and.mp (h.storable pk v hvalue)
    obtain ⟨hreads, hfails⟩ := decodeScf_stored henv hlimit hnoMemo hrepresentable hencode
    by_cases hok : v.scfSize env ≤ limits.maxValueLen ∧
        ScValue.Everywhere (ScValue.Bounded env limits) 0 v
    · rw [hreads hok] at hold
      rw [← Except.ok.inj hold, hvalue]
      exact indexKeysForValue_stored index v
    · obtain ⟨e, he⟩ := hfails hok
      rw [he] at hold
      cases hold

/-! ### The operations -/

/-- What a put that succeeds has done: it found the key of the record, it took the value
under that key, and it moved the generator past the key. -/
structure PutDone (limits : LimitConfig) (store : StoreMeta) (keygen : KeyGenerator)
    (value : ScValue)
    (explicitKey : Option Key) (r : PutResult × KeyGenerator × ScValue) (pk : Bytes) : Prop where
  key : ∃ generated, determineKey store keygen value explicitKey = .ok (r.1.key, generated, r.2.2) ∧
    r.2.1 = generated.possiblyUpdate (keyToF64 r.1.key)
  encoded : encodeKey limits r.1.key = .ok pk

variable {store : StoreMeta} {values : Bytes → Option ScValue}

/-- The entries behind the synchronization of a put. -/
structure Synced (limits : LimitConfig) (store : StoreMeta) (new : ScValue) (pk : Bytes)
    (w w' : View) : Prop where
  records : w'.records = w.records
  keys : ∀ index ∈ store.liveIndexes, ∃ keys, indexKeysForValue limits index new = .ok keys ∧
    ∀ key, w'.entries ⟨index.id, key, pk⟩ ↔ key ∈ keys
  frame : ∀ k : IndexKey, (k.index ∉ store.liveIndexes.map IndexMeta.id ∨ k.primaryKey ≠ pk) →
    (w'.entries k ↔ w.entries k)
  oneHolder : ∀ index ∈ store.liveIndexes, index.unique = true → w.OneHolder index.id →
    w'.OneHolder index.id

theorem meets_syncIndexesOnPut (hnodup : (store.liveIndexes.map IndexMeta.id).Nodup) (s : σ)
    (h : Maintains env limits store (view s) values) {key : Key} {pk : Bytes}
    (hpk : encodeKey limits key = .ok pk) {old : Option ScValue} (new : ScValue)
    (hold : ∀ index, keysOf limits index old = keysOf limits index (values pk)) :
    Meets (· = s) (syncIndexesOnPut limits store old new key)
      (fun _ s' => Synced limits store new pk (view s) (view s')) (fun e _ => e.isSome) := by
  refine (meets_lift_self s _).bind fun pk' => Meets.of_imp fun hpk' => ?_
  obtain rfl : pk = pk' := Except.ok.inj (hpk.symm.trans hpk')
  have hentries (index : IndexMeta) (hindex : index ∈ store.liveIndexes) (keys : List Bytes)
      (hkeys : keysOf limits index old = .ok keys) (key : Bytes) :
      (view s).entries ⟨index.id, key, pk⟩ ↔ key ∈ keys := by
    obtain ⟨keys', hkeys', hown⟩ := h.entries index hindex pk
    rw [hold index, hkeys'] at hkeys
    rw [hown, Except.ok.inj hkeys]
  refine (meets_syncIndexes store.liveIndexes hnodup s new hentries).mono (fun _ h => h)
    (fun _ s' hs' => ?_) fun _ _ h => h
  exact ⟨hs'.1, hs'.2.1, hs'.2.2.1, hs'.2.2.2⟩

/-- The store is in step again once the record is written under the new entries. -/
theorem Synced.maintains {new : ScValue} {pk bytes : Bytes} {w w' : View}
    (h : Maintains env limits store w values) (hsync : Synced limits store new pk w w')
    (hbytes : encodeScf env limits new = .ok bytes) (hnew : new.Storable) :
    Maintains env limits store (w'.setRecord ⟨store.id, pk⟩ (some bytes))
      (Function.update values pk (some new)) := by
  refine ⟨fun pk' => ?_, fun index hindex pk' => ?_, fun index hindex hunique => ?_,
    fun pk' v hv => ?_⟩
  · by_cases hsame : pk' = pk
    · subst hsame
      exact .inr ⟨new, bytes, by simp, hbytes, by simp [View.setRecord]⟩
    · have hne : (⟨store.id, pk'⟩ : RecordKey) ≠ ⟨store.id, pk⟩ := by simpa using hsame
      simp only [View.setRecord, Function.update_of_ne hne, Function.update_of_ne hsame,
        hsync.records]
      exact h.records pk'
  · by_cases hsame : pk' = pk
    · subst hsame
      rw [Function.update_self]
      exact hsync.keys index hindex
    · rw [Function.update_of_ne hsame]
      obtain ⟨keys, hkeys, hentries⟩ := h.entries index hindex pk'
      exact ⟨keys, hkeys, fun key => (hsync.frame _ (.inr hsame)).trans (hentries key)⟩
  · exact hsync.oneHolder index hindex hunique (h.oneHolder index hindex hunique)
  · by_cases hsame : pk' = pk
    · subst hsame
      rw [Function.update_self] at hv
      exact Option.some.inj hv ▸ hnew
    · rw [Function.update_of_ne hsame] at hv
      exact h.storable pk' v hv

theorem Synced.frames {new : ScValue} {pk : Bytes} {w w' : View} {val : Option Bytes}
    (hsync : Synced limits store new pk w w') :
    Frames store w (w'.setRecord ⟨store.id, pk⟩ val) := by
  refine ⟨fun k hk => ?_, fun k hk => hsync.frame k (.inl hk)⟩
  have hne : k ≠ ⟨store.id, pk⟩ := fun heq => hk (by rw [heq])
  simp only [View.setRecord, Function.update_of_ne hne, hsync.records]

theorem meets_put (henv : env.Lawful) (hlimit : limits.maxValueLen < 2 ^ 64)
    (hnodup : (store.liveIndexes.map IndexMeta.id).Nodup) (s : σ)
    (h : Maintains env limits store (view s) values) (keygen : KeyGenerator) {value : ScValue}
    (hvalue : value.Storable) (explicitKey : Option Key) (noOverwrite : Bool) :
    Meets (· = s) (put env limits store keygen value explicitKey noOverwrite)
      (fun r s' => ∃ pk, PutDone limits store keygen value explicitKey r pk ∧
        Maintains env limits store (view s') (Function.update values pk (some r.2.2)) ∧
        Frames store (view s) (view s'))
      (fun e _ => e.isSome) := by
  refine (meets_lift_self s _).bind fun determined => Meets.of_imp fun hdetermined => ?_
  obtain ⟨key, generated, value'⟩ := determined
  refine (meets_lift_self s _).bind fun pk => Meets.of_imp fun hpk => ?_
  refine ((LawfulTxn.get s store.id pk).mapErr_isSome _).bind fun existing => ?_
  rintro s' ⟨rfl, rfl⟩
  dsimp only
  split
  · exact rfl
  refine (meets_lift_self s' _).bind (fun old => Meets.of_imp fun hold => ?_) s' rfl
  refine (meets_syncIndexesOnPut hnodup s' h hpk value'
    (keysOf_oldValue henv hlimit h hold)).bind fun _ => meets_of_forall fun t hsync => ?_
  refine (meets_lift_self t _).bind fun bytes => Meets.of_imp fun hbytes => ?_
  refine ((LawfulTxn.put t store.id pk bytes noOverwrite).mapErr_isSome _).bind fun _ u hu => ?_
  refine (((LawfulTxn.keyGenSet u store.id _).mapErr_isSome _).bind fun _ =>
    meets_pure fun v hv => ?_) u rfl
  refine ⟨pk, ⟨⟨generated, hdetermined, rfl⟩, hpk⟩, ?_⟩
  rw [hv, hu]
  exact ⟨hsync.maintains h (mapError_ok hbytes) (storable_determineKey hvalue hdetermined),
    hsync.frames⟩

theorem meets_collectRangeKeys (s : σ) (id : StoreId) (range : EncodedRange) :
    Meets (· = s) (collectRangeKeys id range)
      (fun doomed s' => s' = s ∧ ∀ pk, pk ∈ doomed ↔
        range.contains pk = true ∧ (view s).records ⟨id, pk⟩ ≠ none)
      (fun e _ => e.isSome) := by
  refine ((LawfulTxn.scanRows s id range true).mapErr_isSome _).bind fun rows => ?_
  refine meets_pure fun s' hs' => ⟨hs'.1, fun pk => ?_⟩
  obtain ⟨-, hrows⟩ := hs'
  rw [List.mem_map]
  constructor
  · rintro ⟨row, hrow, rfl⟩
    obtain ⟨hrange, -, val, hval, -⟩ := (hrows.rows_iff row).mp hrow
    exact ⟨hrange, by rw [hval]; exact Option.some_ne_none val⟩
  · rintro ⟨hrange, hthere⟩
    obtain ⟨val, hval⟩ := Option.ne_none_iff_exists'.mp hthere
    exact ⟨(pk, pk, none), (hrows.rows_iff _).mpr ⟨hrange, rfl, val, hval, rfl⟩, rfl⟩

theorem meets_deletePrimary (indexes : List IndexMeta) (pk : Bytes) (s : σ) :
    Meets (· = s) (Prog.forEach (fun index : IndexMeta => deleteByPrimary index.id pk) indexes)
      (fun _ s' => (view s').records = (view s).records ∧ ∀ k, (view s').entries k ↔
        ¬ (k.index ∈ indexes.map IndexMeta.id ∧ k.primaryKey = pk) ∧ (view s).entries k)
      (fun e _ => e.isSome) := by
  induction indexes generalizing s with
  | nil => exact meets_pure fun s' hs => by simp [hs]
  | cons index indexes ih =>
      refine (meets_deleteByPrimary s index.id pk).bind fun _ s' hs' => ?_
      refine (ih s' s' rfl).mono (fun _ t ht => ?_) fun _ _ h => h
      obtain ⟨hrecords, hentries⟩ := ht
      rw [hs'] at hrecords hentries
      refine ⟨hrecords, fun k => ?_⟩
      rw [hentries]
      simp only [View.removePrimary, List.map_cons, List.mem_cons]
      tauto

theorem meets_deleteEntries (doomed : List Bytes) (s : σ) :
    Meets (· = s) (deleteEntries store doomed)
      (fun _ s' => (view s').records = (view s).records ∧ ∀ k, (view s').entries k ↔
        ¬ (k.index ∈ store.liveIndexes.map IndexMeta.id ∧ k.primaryKey ∈ doomed) ∧
          (view s).entries k)
      (fun e _ => e.isSome) := by
  unfold deleteEntries
  induction doomed generalizing s with
  | nil => exact meets_pure fun s' hs => by simp [hs]
  | cons pk doomed ih =>
      refine (meets_deletePrimary store.liveIndexes pk s).bind fun _ s' hs' => ?_
      refine (ih s' s' rfl).mono (fun _ t ht => ?_) fun _ _ h => h
      obtain ⟨hrecords, hentries⟩ := ht
      refine ⟨hrecords.trans hs'.1, fun k => ?_⟩
      rw [hentries, hs'.2, List.mem_cons]
      tauto

/-- The records of a range, and with them their entries, are gone. -/
theorem Maintains.removed {range : EncodedRange} {doomed : List Bytes} {w w' : View}
    (h : Maintains env limits store w values)
    (hdoomed : ∀ pk, pk ∈ doomed ↔ range.contains pk = true ∧ w.records ⟨store.id, pk⟩ ≠ none)
    (hrecords : w'.records = (w.removeRange store.id range).records)
    (hentries : ∀ k, w'.entries k ↔ ¬ (k.index ∈ store.liveIndexes.map IndexMeta.id ∧
      k.primaryKey ∈ doomed) ∧ w.entries k) :
    Maintains env limits store w' (fun pk => if range.contains pk then none else values pk) ∧
      Frames store w w' := by
  refine ⟨⟨fun pk => ?_, fun index hindex pk => ?_, fun index hindex hunique => ?_,
    fun pk v hv => ?_⟩, fun k hk => ?_, fun k hk => ?_⟩
  · rw [hrecords]
    simp only [View.removeRange, true_and]
    by_cases hrange : range.contains pk = true
    · simp [hrange]
    · simp only [hrange]
      exact h.records pk
  · have hlive : index.id ∈ store.liveIndexes.map IndexMeta.id := List.mem_map_of_mem hindex
    obtain ⟨keys, hkeys, hown⟩ := h.entries index hindex pk
    by_cases hrange : range.contains pk = true
    · refine ⟨[], by simp [hrange, keysOf], fun key => ?_⟩
      rw [hentries, hown]
      simp only [hlive, true_and, List.not_mem_nil, iff_false, not_and]
      intro hout hkey
      -- a key of this record means that there is one
      have hvalue : values pk ≠ none := by
        intro hnone
        rw [hnone] at hkeys
        rw [← Except.ok.inj hkeys] at hkey
        cases hkey
      apply hout
      rw [hdoomed]
      refine ⟨hrange, fun hnone => ?_⟩
      rcases h.records pk with ⟨-, hnone'⟩ | ⟨v, bytes, -, -, hsome⟩
      · exact hvalue hnone'
      · rw [hnone] at hsome
        cases hsome
    · refine ⟨keys, by simpa [hrange] using hkeys, fun key => ?_⟩
      have hkept : pk ∉ doomed := fun hmem => hrange ((hdoomed pk).mp hmem).1
      rw [hentries, hown]
      simp [hkept]
  · intro key pk pk' hpk hpk'
    exact h.oneHolder index hindex hunique key pk pk' ((hentries _).mp hpk).2
      ((hentries _).mp hpk').2
  · by_cases hrange : range.contains pk = true
    · simp [hrange] at hv
    · exact h.storable pk v (by simpa [hrange] using hv)
  · rw [hrecords]
    simp [View.removeRange, hk]
  · rw [hentries]
    simp [hk]

theorem meets_delete (s : σ) (h : Maintains env limits store (view s) values)
    (range : EncodedRange) :
    Meets (· = s) (delete store range)
      (fun _ s' => Maintains env limits store (view s')
          (fun pk => if range.contains pk then none else values pk) ∧
        Frames store (view s) (view s'))
      (fun e _ => e.isSome) := by
  refine (meets_collectRangeKeys s store.id range).bind fun doomed => ?_
  rintro s' ⟨rfl, hdoomed⟩
  refine ((LawfulTxn.deleteRange s' store.id range).mapErr_isSome _).bind
    (fun count => meets_of_forall fun t ht => ?_) s' rfl
  refine (meets_deleteEntries doomed t).bind fun _ => meets_pure fun u hu => ?_
  rw [ht] at hu
  exact h.removed hdoomed hu.1 hu.2

theorem meets_clear (s : σ) (h : Maintains env limits store (view s) values) :
    Meets (· = s) (clear store)
      (fun _ s' => Maintains env limits store (view s') (fun _ => none) ∧
        Frames store (view s) (view s'))
      (fun e _ => e.isSome) := by
  refine (meets_collectRangeKeys s store.id .all).bind fun doomed => ?_
  rintro s' ⟨rfl, hdoomed⟩
  refine ((LawfulTxn.clear s' store.id).mapErr_isSome _).bind
    (fun _ => meets_of_forall fun t ht => ?_) s' rfl
  refine (meets_deleteEntries doomed t).mono (fun _ h => h) (fun _ u hu => ?_) fun _ _ h => h
  rw [ht] at hu
  exact h.removed hdoomed hu.1 hu.2

end BoaIdb.Engine
