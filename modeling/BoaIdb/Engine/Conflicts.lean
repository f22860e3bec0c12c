import BoaIdb.Backend.Refusals
import BoaIdb.Engine.Maintain

/-!
When a put is refused for a constraint.

The work of a put has an order: its key, the record that is there, the value to be overwritten,
and then one index after the other. The first thing that goes wrong decides what is reported.
-/

namespace BoaIdb

open Clone Faults LawfulTxn LawfulRefusals

def IdbError.isConstraint : IdbError → Bool
  | .constraint _ => true
  | _ => false

namespace Engine

/-! ### Keys -/

/-- A key has to be generated, and the generator is past its largest value. -/
def Exhausted (store : StoreMeta) (keygen : KeyGenerator) (value : ScValue)
    (explicitKey : Option Key) : Prop :=
  (explicitKey = none ∧ store.autoIncrement = true ∧
    (store.keyPath = .empty ∨ store.keyPath.extract value = .ok none)) ∧
  F64Bits.partialCmp keygen.current KeyGenerator.maxKey = some .gt

theorem generate_error {keygen : KeyGenerator} {e : IdbError} (h : keygen.generate = .error e) :
    e.isConstraint = true ∧ F64Bits.partialCmp keygen.current KeyGenerator.maxKey = some .gt := by
  rw [KeyGenerator.generate] at h
  split at h
  · next hgt =>
      cases h
      exact ⟨rfl, hgt⟩
  · cases h

theorem generate_ok {keygen : KeyGenerator} {r : F64Bits × KeyGenerator}
    (h : keygen.generate = .ok r) :
    F64Bits.partialCmp keygen.current KeyGenerator.maxKey ≠ some .gt := by
  rw [KeyGenerator.generate] at h
  split at h
  · cases h
  · next hgt => exact hgt

/-- A key is refused for a constraint when the generator is exhausted. -/
theorem determineKey_refused {store : StoreMeta} {keygen : KeyGenerator} {value : ScValue}
    {explicitKey : Option Key} {e : IdbError}
    (h : determineKey store keygen value explicitKey = .error e) :
    e.isConstraint = true ↔ Exhausted store keygen value explicitKey := by
  -- every other refusal is a Data error, and not of a key to generate
  have hneither (hdata : e.isConstraint = false) (hnot : ¬ (explicitKey = none ∧
      store.autoIncrement = true ∧
        (store.keyPath = .empty ∨ store.keyPath.extract value = .ok none))) :
      e.isConstraint = true ↔ Exhausted store keygen value explicitKey :=
    iff_of_false (by rw [hdata]; exact Bool.false_ne_true) fun hex => hnot hex.1
  unfold determineKey at h
  cases explicitKey with
  | some k =>
      dsimp only at h
      split at h
      · cases h
      · cases h
        exact hneither rfl fun hnone => (by cases hnone.1)
  | none =>
      dsimp only at h
      split at h
      · next hempty =>
          split at h
          · next hauto =>
              cases hgenerate : keygen.generate with
              | error e' =>
                  rw [hgenerate] at h
                  cases h
                  obtain ⟨hconstraint, hgt⟩ := generate_error hgenerate
                  exact iff_of_true hconstraint ⟨⟨rfl, hauto, .inl hempty⟩, hgt⟩
              | ok r =>
                  rw [hgenerate] at h
                  cases h
          · next hauto =>
              refine hneither ?_ fun hnone => hauto hnone.2.1
              split at h
              · cases h
              · cases h
                rfl
              · cases h
                rfl
      · next hempty =>
          cases hextract : store.keyPath.extract value with
          | error e' =>
              rw [hextract] at h
              cases h
              refine hneither rfl fun hnone => ?_
              rcases hnone.2.2 with hpath | hnone
              · exact hempty hpath
              · rw [hextract] at hnone
                cases hnone
          | ok extracted =>
              rw [hextract] at h
              cases extracted with
              | some k => cases h
              | none =>
                  simp only [Except.mapError, bind, Except.bind] at h
                  split at h
                  · next hauto =>
                      cases hgenerate : keygen.generate with
                      | error e' =>
                          rw [hgenerate] at h
                          cases h
                          obtain ⟨hconstraint, hgt⟩ := generate_error hgenerate
                          exact iff_of_true hconstraint ⟨⟨rfl, hauto, .inr hextract⟩, hgt⟩
                      | ok r =>
                          refine iff_of_false ?_ fun hex => generate_ok hgenerate hex.2
                          rw [hgenerate] at h
                          dsimp only at h
                          split at h
                          · cases h
                          · cases h
                            exact Bool.false_ne_true
                  · next hauto =>
                      cases h
                      exact hneither rfl fun hnone => hauto hnone.2.1

theorem determineKey_ok {store : StoreMeta} {keygen : KeyGenerator} {value : ScValue}
    {explicitKey : Option Key} {r : Key × KeyGenerator × ScValue}
    (h : determineKey store keygen value explicitKey = .ok r) :
    ¬ Exhausted store keygen value explicitKey := by
  rintro ⟨⟨rfl, hauto, hpath⟩, hgt⟩
  have hgenerate : keygen.generate =
      .error (.constraint "Key generator overflow: maximum value reached") := by
    rw [KeyGenerator.generate, if_pos hgt]
  unfold determineKey at h
  dsimp only at h
  split at h
  · rw [hgenerate] at h
    cases h
  · next hempty =>
      have hextract := hpath.resolve_left hempty
      rw [hextract] at h
      simp only [Except.mapError, bind, Except.bind, hgenerate] at h
      cases h

/-! ### Index entries -/

variable {σ : Type} [BackendTxn σ] [LawfulTxn σ] [LawfulRefusals σ] {env : CodecEnv}
  {limits : LimitConfig}

theorem any_map_isConstraint {f : BackendError → IdbError}
    (hf : ∀ err, (f err).isConstraint = err.isConstraint) (e : Option BackendError) :
    (e.map f).any IdbError.isConstraint = e.any BackendError.isConstraint := by
  cases e with
  | none => rfl
  | some err => exact hf err

theorem any_map_eq_false {f : BackendError → IdbError} (hf : ∀ err, (f err).isConstraint = false)
    (e : Option BackendError) : (e.map f).any IdbError.isConstraint = false := by
  cases e with
  | none => rfl
  | some err => exact hf err

theorem backendErr_isConstraint (err : BackendError) :
    (backendErr err).isConstraint = err.isConstraint := by
  cases err <;> rfl

/-- Nothing but the mode refuses the deletions. -/
theorem refused_deleteKeys (index : IndexId) (pk : Bytes) (keys : List Bytes) (s : σ) :
    Meets (· = s) (Prog.forEach (fun old => indexDelete index old pk) keys)
      (fun _ s' => Writable s' ↔ Writable s)
      (fun e _ => ¬ Writable s ∧ e.any IdbError.isConstraint = false) := by
  induction keys generalizing s with
  | nil => exact meets_pure fun s' hs => by rw [hs]
  | cons key keys ih =>
      have hdelete : Meets (· = s) (indexDelete index key pk)
          (fun _ s' => Writable s ∧ Writable s')
          (fun e _ => ¬ Writable s ∧ e.any IdbError.isConstraint = false) :=
        (LawfulRefusals.indexDelete_refused s index key pk).mapErr fun e _ he => by
          refine ⟨he.1, ?_⟩
          rw [any_map_eq_false fun err => rfl]
      refine hdelete.bind fun _ => meets_of_forall fun s' hs' => ?_
      refine (ih s').mono (fun _ h => h) (fun _ t ht => ?_) fun e t ht => ?_
      · exact ht.trans (iff_of_true hs'.2 hs'.1)
      · exact absurd hs'.2 ht.1

/-- The first key that is taken is refused for a constraint. -/
theorem refused_putKeys (index : IndexId) (pk : Bytes) (unique : Bool) (keys : List Bytes) (s : σ) :
    Meets (· = s) (Prog.forEach (fun new => indexPut index new pk unique) keys)
      (fun _ s' => Writable s' ↔ Writable s)
      (fun e _ => ¬ Writable s ∧ e.any IdbError.isConstraint = false ∨
        Writable s ∧ (unique = true ∧ ∃ key ∈ keys, (view s).Taken ⟨index, key, pk⟩) ∧
          e.any IdbError.isConstraint = true) := by
  induction keys generalizing s with
  | nil => exact meets_pure fun s' hs => by rw [hs]
  | cons key keys ih =>
      have hput : Meets (· = s) (indexPut index key pk unique)
          (fun _ s' => (Writable s ∧ Writable s') ∧ view s' = (view s).addEntry ⟨index, key, pk⟩)
          (fun e _ => ¬ Writable s ∧ e.any IdbError.isConstraint = false ∨
            Writable s ∧ (unique = true ∧ (view s).Taken ⟨index, key, pk⟩) ∧
              e.any IdbError.isConstraint = true) := by
        refine (((LawfulRefusals.indexPut_refused s index key pk unique).and
          (LawfulTxn.indexPut s index key pk unique)).mono (fun _ h => h)
            (fun _ _ h => ⟨h.1, h.2.2⟩) fun _ _ h => h.1).mapErr fun e _ he => ?_
        rwa [any_map_isConstraint fun err => ?_]
        cases err <;> rfl
      refine hput.mono (fun _ h => h) (fun _ _ h => h) (fun e _ he => ?_) |>.bind fun _ =>
        meets_of_forall fun s' hs' => ?_
      · rcases he with he | ⟨hwritable, ⟨hunique, htaken⟩, he⟩
        · exact .inl he
        · exact .inr ⟨hwritable, ⟨hunique, key, .head _, htaken⟩, he⟩
      obtain ⟨⟨hwritable, hwritable'⟩, hview⟩ := hs'
      refine (ih s').mono (fun _ h => h) (fun _ t ht => ?_) fun e t ht => ?_
      · exact ht.trans (iff_of_true hwritable' hwritable)
      · rcases ht with ⟨hnot, -⟩ | ⟨-, ⟨hunique, key', hkey', htaken⟩, he⟩
        · exact absurd hwritable' hnot
        · refine .inr ⟨hwritable, ⟨hunique, key', .tail _ hkey', ?_⟩, he⟩
          -- the key before was added for this primary key
          obtain ⟨hfree, pk', hheld⟩ := htaken
          rw [hview] at hfree hheld
          have hne : key' ≠ key := by
            rintro rfl
            exact hfree (.inl rfl)
          refine ⟨fun hown => hfree (.inr hown), pk', hheld.resolve_left fun heq => ?_⟩
          cases heq
          exact hne rfl

theorem encodeKey_refused {key : Key} {e : IdbError} (h : encodeKey limits key = .error e) :
    e.isConstraint = false := by
  unfold encodeKey at h
  cases hkey : key.encodeKey limits with
  | error err =>
      rw [hkey] at h
      cases h
      rfl
  | ok bytes =>
      rw [hkey] at h
      cases h

theorem encodeDistinct_refused {keys : List Key} {out : List Bytes} {e : IdbError}
    (h : encodeDistinct limits keys out = .error e) : e.isConstraint = false := by
  induction keys generalizing out with
  | nil => cases h
  | cons key keys ih =>
      rw [encodeDistinct] at h
      cases hkey : encodeKey limits key with
      | error err =>
          rw [hkey] at h
          cases h
          exact encodeKey_refused hkey
      | ok bytes =>
          rw [hkey] at h
          exact ih h

theorem indexKeysForValue_refused {index : IndexMeta} {value : ScValue} {e : IdbError}
    (h : indexKeysForValue limits index value = .error e) : e.isConstraint = false := by
  unfold indexKeysForValue at h
  split at h
  · cases hkeys : index.keyPath.extractMultiEntry value with
    | error err =>
        rw [hkeys] at h
        cases h
        rfl
    | ok keys =>
        rw [hkeys] at h
        exact encodeDistinct_refused h
  · split at h
    · exact encodeDistinct_refused h
    · cases h

/-- A key of a unique index is held by another primary key. -/
def Blocked (w : View) (pk : Bytes) (index : IndexMeta) (keys : List Bytes) : Prop :=
  index.unique = true ∧ ∃ key ∈ keys, ∃ pk', pk' ≠ pk ∧ w.entries ⟨index.id, key, pk'⟩

/-- In a transaction that writes, an index refuses a value for a constraint when a key of it is
blocked, and otherwise only for want of its keys. -/
theorem refused_syncIndex (s : σ) (index : IndexMeta) {old : Option ScValue} (new : ScValue)
    {pk : Bytes} (hold : ∃ oldKeys, keysOf limits index old = .ok oldKeys ∧
      ∀ key, (view s).entries ⟨index.id, key, pk⟩ ↔ key ∈ oldKeys)
    (hone : index.unique = true → (view s).OneHolder index.id) :
    Meets (· = s) (syncIndex limits index old new pk)
      (fun _ s' => (Writable s' ↔ Writable s) ∧
        ∃ keys, indexKeysForValue limits index new = .ok keys ∧ ¬ Blocked (view s) pk index keys)
      (fun e _ => e.any IdbError.isConstraint = true ∧ Writable s ∧
          (∃ keys, indexKeysForValue limits index new = .ok keys ∧ Blocked (view s) pk index keys) ∨
        e.any IdbError.isConstraint = false ∧
          ¬ (Writable s ∧ ∃ keys, indexKeysForValue limits index new = .ok keys)) := by
  obtain ⟨oldKeys, hold, hown⟩ := hold
  have hlift : Meets (· = s) (Prog.lift (keysOf limits index old) : Prog σ IdbError (List Bytes))
      (fun r s' => r = oldKeys ∧ s' = s) (fun _ _ => False) := by
    rw [hold]
    exact meets_lift (fun _ ha _ hs => ⟨(Except.ok.inj ha).symm, hs⟩) fun _ he _ _ => by cases he
  have hprog : syncIndex limits index old new pk = (do
      let oldKeys ← Prog.lift (keysOf limits index old)
      let newKeys ← Prog.lift (indexKeysForValue limits index new)
      Prog.forEach (fun old => indexDelete index.id old pk) (oldKeys.filter (· ∉ newKeys))
      Prog.forEach (fun new => indexPut index.id new pk index.unique)
        (newKeys.filter (· ∉ oldKeys)) : Prog σ IdbError Unit) := by
    cases old <;> rfl
  rw [hprog]
  refine (hlift.mono (fun _ h => h) (fun _ _ h => h) fun _ _ h => h.elim).bind fun r =>
    Meets.of_imp ?_
  rintro rfl
  cases hnew : indexKeysForValue limits index new with
  | error e =>
      refine meets_throw fun _ _ => .inr ⟨indexKeysForValue_refused hnew, ?_⟩
      rintro ⟨-, keys, hkeys⟩
      cases hkeys
  | ok newKeys =>
      rw [Prog.lift_ok_bind]
      refine (((meets_deleteKeys index.id pk _ s).and (refused_deleteKeys index.id pk _ s)).mono
        (fun _ h => h) (fun _ _ h => h) fun e _ he => ?_).bind fun _ =>
          meets_of_forall fun s₁ hs₁ => ?_
      · exact .inr ⟨he.2.2, fun hc => he.2.1 hc.1⟩
      obtain ⟨⟨-, hentries₁⟩, hwritable₁⟩ := hs₁
      -- the deletions have taken entries of this record only
      have hother {key pk' : Bytes} (hne : pk' ≠ pk) :
          (view s₁).entries ⟨index.id, key, pk'⟩ ↔ (view s).entries ⟨index.id, key, pk'⟩ := by
        rw [hentries₁]
        tauto
      refine ((meets_putKeys index.id pk index.unique _ s₁).and
        (refused_putKeys index.id pk index.unique _ s₁)).mono (fun _ h => h) (fun _ s₂ hs₂ => ?_)
          fun e _ he => ?_
      · obtain ⟨⟨-, -, hfree⟩, hwritable₂⟩ := hs₂
        refine ⟨hwritable₂.trans hwritable₁, newKeys, rfl, ?_⟩
        rintro ⟨hunique, key, hkey, pk', hne, hheld⟩
        by_cases holdKey : key ∈ r
        · exact hne (hone hunique key pk' pk hheld ((hown key).mpr holdKey))
        · have hpick : key ∈ newKeys.filter (· ∉ r) := by simp [hkey, holdKey]
          rcases hfree hunique key hpick with hentry | hnone
          · exact holdKey ((hown key).mp ((hentries₁ _).mp hentry).2)
          · exact hnone pk' ((hother hne).mpr hheld)
      · rcases he.2 with ⟨hnot, he⟩ | ⟨hwritable, ⟨hunique, key, hkey, hfree, pk', hheld⟩, he⟩
        · exact .inr ⟨he, fun hc => hnot (hwritable₁.mpr hc.1)⟩
        · have hne : pk' ≠ pk := by
            rintro rfl
            exact hfree hheld
          exact .inl ⟨he, hwritable₁.mp hwritable, newKeys, rfl, hunique, key,
            (List.mem_filter.mp hkey).1, pk', hne, (hother hne).mp hheld⟩

/-- A key of one of the indexes is blocked, and the indexes up to it have their keys. -/
def Obstructed (limits : LimitConfig) (w : View) (pk : Bytes) (new : ScValue)
    (indexes : List IndexMeta) : Prop :=
  ∃ before index after, indexes = before ++ index :: after ∧
    (∀ i ∈ before, ∃ keys, indexKeysForValue limits i new = .ok keys) ∧
    ∃ keys, indexKeysForValue limits index new = .ok keys ∧ Blocked w pk index keys

theorem obstructed_cons {w : View} {pk : Bytes} {new : ScValue} {index : IndexMeta}
    {indexes : List IndexMeta} : Obstructed limits w pk new (index :: indexes) ↔
      ∃ keys, indexKeysForValue limits index new = .ok keys ∧
        (Blocked w pk index keys ∨ Obstructed limits w pk new indexes) := by
  constructor
  · rintro ⟨before, i, after, hsplit, hbefore, keys, hkeys, hblocked⟩
    cases before with
    | nil =>
        cases hsplit
        exact ⟨keys, hkeys, .inl hblocked⟩
    | cons j before =>
        cases hsplit
        obtain ⟨keys', hkeys'⟩ := hbefore index (.head _)
        exact ⟨keys', hkeys', .inr ⟨before, i, after, rfl, fun j hj => hbefore j (.tail _ hj),
          keys, hkeys, hblocked⟩⟩
  · rintro ⟨keys, hkeys, hblocked | ⟨before, i, after, rfl, hbefore, hrest⟩⟩
    · exact ⟨[], index, indexes, rfl, fun _ h => absurd h List.not_mem_nil, keys, hkeys, hblocked⟩
    · refine ⟨index :: before, i, after, rfl, fun j hj => ?_, hrest⟩
      rcases List.mem_cons.mp hj with rfl | hj
      · exact ⟨keys, hkeys⟩
      · exact hbefore j hj

theorem Blocked.congr {w w' : View} {pk : Bytes} {index : IndexMeta} {keys : List Bytes}
    (h : ∀ key pk', w'.entries ⟨index.id, key, pk'⟩ ↔ w.entries ⟨index.id, key, pk'⟩) :
    Blocked w' pk index keys ↔ Blocked w pk index keys := by
  simp only [Blocked, h]

theorem refused_syncIndexes (indexes : List IndexMeta) (hnodup : (indexes.map IndexMeta.id).Nodup)
    (s : σ) {old : Option ScValue} (new : ScValue) {pk : Bytes}
    (hold : ∀ index ∈ indexes, ∃ oldKeys, keysOf limits index old = .ok oldKeys ∧
      ∀ key, (view s).entries ⟨index.id, key, pk⟩ ↔ key ∈ oldKeys)
    (hone : ∀ index ∈ indexes, index.unique = true → (view s).OneHolder index.id) :
    Meets (· = s) (Prog.forEach (fun index => syncIndex limits index old new pk) indexes)
      (fun _ s' => (Writable s' ↔ Writable s) ∧ ¬ Obstructed limits (view s) pk new indexes)
      (fun e _ => e.any IdbError.isConstraint = true ↔
        Writable s ∧ Obstructed limits (view s) pk new indexes) := by
  induction indexes generalizing s with
  | nil =>
      refine meets_pure fun s' hs => ⟨by rw [hs], ?_⟩
      rintro ⟨before, index, after, hsplit, -⟩
      cases before <;> cases hsplit
  | cons index indexes ih =>
      obtain ⟨hnot, hnodup⟩ := List.nodup_cons.mp hnodup
      have hne {i : IndexMeta} (hi : i ∈ indexes) : i.id ≠ index.id := fun h =>
        hnot (h ▸ List.mem_map_of_mem hi)
      have hentries (keys : List Bytes) (hkeys : keysOf limits index old = .ok keys) (key : Bytes) :
          (view s).entries ⟨index.id, key, pk⟩ ↔ key ∈ keys := by
        obtain ⟨keys', hkeys', hown⟩ := hold index (.head _)
        rw [hkeys] at hkeys'
        rw [hown, Except.ok.inj hkeys']
      refine (((meets_syncIndex s index new hentries).and (refused_syncIndex s index new
        (hold index (.head _)) (hone index (.head _)))).mono (fun _ h => h) (fun _ _ h => h)
          fun e _ he => ?_).bind fun _ => meets_of_forall fun s₁ hs₁ => ?_
      · rw [obstructed_cons]
        rcases he.2 with ⟨he, hwritable, keys, hkeys, hblocked⟩ | ⟨he, hrefused⟩
        · exact iff_of_true he ⟨hwritable, keys, hkeys, .inl hblocked⟩
        · refine iff_of_false (by rw [he]; exact Bool.false_ne_true) ?_
          rintro ⟨hwritable, keys, hkeys, -⟩
          exact hrefused ⟨hwritable, keys, hkeys⟩
      obtain ⟨⟨-, -, hframe₁, -⟩, hwritable₁, keys, hkeys, hfree⟩ := hs₁
      have hsame {i : IndexMeta} (hi : i ∈ indexes) (key pk' : Bytes) :
          (view s₁).entries ⟨i.id, key, pk'⟩ ↔ (view s).entries ⟨i.id, key, pk'⟩ :=
        hframe₁ _ fun h => hne hi h.1
      -- what obstructs the rest is what did before: the first index touched its own entries only
      have hrest : Obstructed limits (view s) pk new (index :: indexes) ↔
          Obstructed limits (view s₁) pk new indexes := by
        rw [obstructed_cons]
        have hblocked {before after : List IndexMeta} {i : IndexMeta} {ks : List Bytes}
            (hsplit : indexes = before ++ i :: after) :
            Blocked (view s₁) pk i ks ↔ Blocked (view s) pk i ks :=
          Blocked.congr (hsame (hsplit ▸ List.mem_append_right _ (.head _)))
        constructor
        · rintro ⟨keys', hkeys', hblocked' | ⟨before, i, after, hsplit, hbefore, ks, hks, hi⟩⟩
          · rw [hkeys] at hkeys'
            rw [← Except.ok.inj hkeys'] at hblocked'
            exact absurd hblocked' hfree
          · exact ⟨before, i, after, hsplit, hbefore, ks, hks, (hblocked hsplit).mpr hi⟩
        · rintro ⟨before, i, after, hsplit, hbefore, ks, hks, hi⟩
          exact ⟨keys, hkeys, .inr ⟨before, i, after, hsplit, hbefore, ks, hks,
            (hblocked hsplit).mp hi⟩⟩
      refine (ih hnodup s₁ (fun i hi => ?_) fun i hi hunique key pk₁ pk₂ h₁ h₂ => ?_).mono
        (fun _ h => h) (fun _ s₂ hs₂ => ?_) fun e _ he => ?_
      · obtain ⟨oldKeys, holdKeys, hown⟩ := hold i (.tail _ hi)
        exact ⟨oldKeys, holdKeys, fun key => (hsame hi key pk).trans (hown key)⟩
      · rw [hsame hi] at h₁ h₂
        exact hone i (.tail _ hi) hunique key pk₁ pk₂ h₁ h₂
      · exact ⟨hs₂.1.trans hwritable₁, fun h => hs₂.2 (hrest.mp h)⟩
      · rw [hrest, ← hwritable₁]
        exact he

/-! ### Puts -/

/-- Why a put reports a constraint. -/
inductive PutConflict (env : CodecEnv) (limits : LimitConfig) (store : StoreMeta) (s : σ)
    (keygen : KeyGenerator) (value : ScValue) (explicitKey : Option Key) (noOverwrite : Bool) : Prop
  | exhausted (h : Exhausted store keygen value explicitKey)
  /-- An add of a record that is there. -/
  | existing {key : Key} {generated : KeyGenerator} {new : ScValue} {pk : Bytes}
      (hkey : determineKey store keygen value explicitKey = .ok (key, generated, new))
      (hpk : encodeKey limits key = .ok pk) (hscope : Scoped s store.id)
      (hadd : noOverwrite = true) (hthere : (view s).records ⟨store.id, pk⟩ ≠ none)
  /-- A key of the value is held by another record in a unique index, and nothing before it in
  the order of the work goes wrong. -/
  | held {key : Key} {generated : KeyGenerator} {new : ScValue} {pk : Bytes} {old : Option ScValue}
      (hkey : determineKey store keygen value explicitKey = .ok (key, generated, new))
      (hpk : encodeKey limits key = .ok pk) (hscope : Scoped s store.id) (hwritable : Writable s)
      (hold : oldValueOf env limits key ((view s).records ⟨store.id, pk⟩) = .ok old)
      (hheld : Obstructed limits (view s) pk new store.liveIndexes)

theorem oldValueOf_refused {key : Key} {existing : Option Bytes} {e : IdbError}
    (h : oldValueOf env limits key existing = .error e) : e.isConstraint = false := by
  cases existing with
  | none => cases h
  | some bytes =>
      rw [oldValueOf] at h
      split at h
      · cases h
      · cases h
        rfl

theorem refused_syncIndexesOnPut {store : StoreMeta} {values : Bytes → Option ScValue}
    (hnodup : (store.liveIndexes.map IndexMeta.id).Nodup) (s : σ)
    (h : Maintains env limits store (view s) values) {key : Key} {pk : Bytes}
    (hpk : encodeKey limits key = .ok pk) {old : Option ScValue} (new : ScValue)
    (hold : ∀ index, keysOf limits index old = keysOf limits index (values pk)) :
    Meets (· = s) (syncIndexesOnPut limits store old new key)
      (fun _ _ => ¬ Obstructed limits (view s) pk new store.liveIndexes)
      (fun e _ => e.any IdbError.isConstraint = true ↔
        Writable s ∧ Obstructed limits (view s) pk new store.liveIndexes) := by
  unfold syncIndexesOnPut
  rw [hpk, Prog.lift_ok_bind]
  refine (refused_syncIndexes store.liveIndexes hnodup s new (fun index hindex => ?_)
    h.oneHolder).mono (fun _ h => h) (fun _ _ h => h.2) fun _ _ h => h
  obtain ⟨keys, hkeys, hown⟩ := h.entries index hindex pk
  exact ⟨keys, (hold index).trans hkeys, hown⟩

/-- A put in a state that is in step reports a constraint exactly for a conflict. -/
theorem refused_put {store : StoreMeta} {values : Bytes → Option ScValue} (henv : env.Lawful)
    (hlimit : limits.maxValueLen < 2 ^ 64) (hnodup : (store.liveIndexes.map IndexMeta.id).Nodup)
    (s : σ) (h : Maintains env limits store (view s) values) (keygen : KeyGenerator)
    (value : ScValue)
    (explicitKey : Option Key) (noOverwrite : Bool) :
    Meets (· = s) (put env limits store keygen value explicitKey noOverwrite)
      (fun _ _ => ¬ PutConflict env limits store s keygen value explicitKey noOverwrite)
      (fun e _ => e.any IdbError.isConstraint = true ↔
        PutConflict env limits store s keygen value explicitKey noOverwrite) := by
  have hneither {e : Option IdbError} (he : e.any IdbError.isConstraint = false)
      (hc : ¬ PutConflict env limits store s keygen value explicitKey noOverwrite) :
      e.any IdbError.isConstraint = true ↔
        PutConflict env limits store s keygen value explicitKey noOverwrite :=
    iff_of_false (by rw [he]; exact Bool.false_ne_true) hc
  unfold put
  cases hkey : determineKey store keygen value explicitKey with
  | error e =>
      refine meets_throw fun _ _ => (determineKey_refused hkey).trans ⟨.exhausted, fun hc => ?_⟩
      cases hc with
      | exhausted h => exact h
      | existing hok => cases hkey.symm.trans hok
      | held hok => cases hkey.symm.trans hok
  | ok determined =>
  obtain ⟨key, generated, new⟩ := determined
  have hfresh := determineKey_ok hkey
  rw [Prog.lift_ok_bind]
  dsimp only
  cases hpk : encodeKey limits key with
  | error e =>
      refine meets_throw fun _ _ => @hneither (some e) (encodeKey_refused hpk) (fun hc => ?_)
      cases hc with
      | exhausted h => exact hfresh h
      | existing hok hpk' =>
          cases hkey.symm.trans hok
          cases hpk.symm.trans hpk'
      | held hok hpk' =>
          cases hkey.symm.trans hok
          cases hpk.symm.trans hpk'
  | ok pk =>
  rw [Prog.lift_ok_bind]
  -- what a conflict is once the key is known
  have hcases (hc : PutConflict env limits store s keygen value explicitKey noOverwrite) :
      Scoped s store.id ∧ (noOverwrite = true ∧ (view s).records ⟨store.id, pk⟩ ≠ none ∨
        (∃ old, oldValueOf env limits key ((view s).records ⟨store.id, pk⟩) = .ok old) ∧
          Writable s ∧ Obstructed limits (view s) pk new store.liveIndexes) := by
    cases hc with
    | exhausted h => exact absurd h hfresh
    | existing hok hpk' hscope hadd hthere =>
        cases hkey.symm.trans hok
        cases hpk.symm.trans hpk'
        exact ⟨hscope, .inl ⟨hadd, hthere⟩⟩
    | held hok hpk' hscope hwritable hold hheld =>
        cases hkey.symm.trans hok
        cases hpk.symm.trans hpk'
        exact ⟨hscope, .inr ⟨⟨_, hold⟩, hwritable, hheld⟩⟩
  have hget : Meets (· = s) ((BackendTxn.get store.id pk).mapErr backendErr)
      (fun r s' => s' = s ∧ Scoped s store.id ∧ r = (view s).records ⟨store.id, pk⟩)
      (fun e _ => e.any IdbError.isConstraint = true ↔
        PutConflict env limits store s keygen value explicitKey noOverwrite) := by
    refine (((LawfulRefusals.get_refused s store.id pk).and (LawfulTxn.get s store.id pk)).mono
      (fun _ h => h) (fun _ _ h => ⟨h.1.1, h.1.2, h.2.2⟩) fun _ _ h => h.1).mapErr fun e _ he => ?_
    refine hneither ?_ fun hc => he.1 (hcases hc).1
    rw [any_map_isConstraint backendErr_isConstraint]
    exact he.2
  refine hget.bind fun existing => ?_
  rintro s' ⟨rfl, hscope, rfl⟩
  split
  · next hadd =>
      obtain ⟨hnoOverwrite, hthere⟩ := Bool.and_eq_true_iff.mp hadd
      exact iff_of_true rfl (.existing hkey hpk hscope hnoOverwrite
        (Option.isSome_iff_ne_none.mp hthere))
  next hadd =>
  have hnew : ¬ (noOverwrite = true ∧ (view s').records ⟨store.id, pk⟩ ≠ none) := fun hboth =>
    hadd (Bool.and_eq_true_iff.mpr ⟨hboth.1, Option.isSome_iff_ne_none.mpr hboth.2⟩)
  cases hold : oldValueOf env limits key ((view s').records ⟨store.id, pk⟩) with
  | error e =>
      refine @hneither (some e) (oldValueOf_refused hold) fun hc => ?_
      rcases (hcases hc).2 with hthere | ⟨⟨old, hok⟩, -⟩
      · exact hnew hthere
      · cases hold.symm.trans hok
  | ok old =>
  rw [Prog.lift_ok_bind]
  have hold' (index : IndexMeta) := keysOf_oldValue henv hlimit h hold index
  refine (((meets_syncIndexesOnPut hnodup s' h hpk new hold').and
    (refused_syncIndexesOnPut hnodup s' h hpk new hold')).mono (fun _ h => h) (fun _ _ h => h)
      fun e _ he => he.2.trans ⟨fun hc => ?_, fun hc => ?_⟩).bind (fun _ => meets_of_forall
        fun t ht => ?_) s' rfl
  · exact .held hkey hpk hscope hc.1 hold hc.2
  · exact ((hcases hc).2.resolve_left hnew).2
  obtain ⟨hsync, hfree⟩ := ht
  have hnone : ¬ PutConflict env limits store s' keygen value explicitKey noOverwrite := fun hc =>
    hfree ((hcases hc).2.resolve_left hnew).2.2
  -- behind the indexes nothing is refused for a constraint
  have hrest {p : Prog σ IdbError (PutResult × KeyGenerator × ScValue)} {u : σ}
      (hp : Meets (· = u) p (fun _ _ => True) fun e _ => e.any IdbError.isConstraint = false) :
      Meets (· = u) p
        (fun _ _ => ¬ PutConflict env limits store s' keygen value explicitKey noOverwrite)
        (fun e _ => e.any IdbError.isConstraint = true ↔
          PutConflict env limits store s' keygen value explicitKey noOverwrite) :=
    hp.mono (fun _ h => h) (fun _ _ _ => hnone) fun e _ he => hneither he hnone
  cases hbytes : encodeScf env limits new with
  | error e => exact hrest (meets_throw fun _ _ => rfl)
  | ok bytes =>
  refine hrest ?_
  -- the record was looked for above, so the backend does not find it under an add
  have hput : Meets (· = t) ((BackendTxn.put store.id pk bytes noOverwrite).mapErr backendErr)
      (fun _ _ => True) fun e _ => e.any IdbError.isConstraint = false := by
    refine (LawfulRefusals.put_refused t store.id pk bytes noOverwrite).mapErr fun e _ he => ?_
    rw [any_map_isConstraint backendErr_isConstraint, ← Bool.not_eq_true]
    intro hconstraint
    obtain ⟨hadd, hthere⟩ := he hconstraint
    rw [hsync.records] at hthere
    exact hnew ⟨hadd, hthere⟩
  refine hput.bind fun _ => meets_of_forall fun u _ => ?_
  have hset : Meets (· = u) ((BackendTxn.keyGenSet store.id
      (generated.possiblyUpdate (keyToF64 key)).current).mapErr backendErr)
      (fun _ _ => True) fun e _ => e.any IdbError.isConstraint = false := by
    refine (LawfulRefusals.keyGenSet_refused u store.id _).mapErr fun e _ he => ?_
    rwa [any_map_isConstraint backendErr_isConstraint]
  exact hset.bind fun _ => meets_pure fun _ _ => trivial

end Engine

end BoaIdb
