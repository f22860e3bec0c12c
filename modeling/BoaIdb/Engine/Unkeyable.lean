import BoaIdb.Engine.Conflicts
import BoaIdb.Memory.FirstPut

/-!
Why a put fails, and what its indexes take from a value.

An index takes the keys that it finds. A plain index skips a value that is no key, and a
multiEntry index the members of an array that are none; but what a multiEntry index finds
instead of an array has to be a key, or the put fails.
-/

namespace BoaIdb.Engine

open Clone Faults LawfulTxn LawfulRefusals

/-! ### The keys of an index -/

/-- The keys that a multiEntry index is to hold for what its path leads to: those among the members
of an array, or the one key. -/
def membersOf : Option ScValue → List Key
  | none => []
  | some (.array elements _) => elements.filterMap KeyPath.memberKey
  | some raw => (KeyPath.memberKey (some raw)).toList

/-- The keys that an index is to hold for a value. What is no key counts for none. -/
def validKeys (index : IndexMeta) (value : ScValue) : List Key :=
  if index.multiEntry then membersOf (index.keyPath.multiEntryRoot value)
  else match index.keyPath.extract value with
    | .ok (some key) => [key]
    | _ => []

/-- The path of a multiEntry index leads to a value that is neither an array nor a key. -/
def Unkeyable (index : IndexMeta) (value : ScValue) : Prop :=
  index.multiEntry = true ∧ ∃ raw, index.keyPath.multiEntryRoot value = some raw ∧
    (∀ elements props, raw ≠ .array elements props) ∧ ∃ e, raw.toKey = .error e

/-- The conversion of a value to a key failed. -/
inductive NoKey : KeyError → Prop
  | invalidType (msg : String) : NoKey (.invalidType msg)
  | invalidValue (msg : String) : NoKey (.invalidValue msg)

variable {limits : LimitConfig} {index : IndexMeta} {value new : ScValue}

theorem toKey_noKey {raw : ScValue} (hraw : ∀ elements props, raw ≠ .array elements props)
    {e : KeyError} (h : raw.toKey = .error e) : NoKey e := by
  cases raw with
  | array elements props => exact absurd rfl (hraw elements props)
  | number n =>
      rw [ScValue.toKey] at h
      split at h
      · cases h
        exact .invalidValue _
      · cases h
  | date d =>
      rw [ScValue.toKey] at h
      split at h
      · cases h
        exact .invalidValue _
      · cases h
  | string s => simp [ScValue.toKey] at h
  | _ =>
      simp only [ScValue.toKey, Except.error.injEq] at h
      subst h
      exact .invalidType _

/-- A value that is neither an array nor a key is not left out. -/
theorem indexKeysForValue_unkeyable (h : Unkeyable index value) :
    ∃ e, indexKeysForValue limits index value = .error e.toIdb ∧ NoKey e := by
  obtain ⟨hmulti, raw, hroot, hraw, e, he⟩ := h
  have hmembers : index.keyPath.extractMultiEntry value = .error e := by
    rw [KeyPath.extractMultiEntry, hroot]
    cases raw with
    | array elements props => exact absurd rfl (hraw elements props)
    | _ =>
        dsimp only
        rw [he]
        rfl
  refine ⟨e, ?_, toKey_noKey hraw he⟩
  rw [indexKeysForValue, if_pos hmulti, hmembers]
  rfl

/-- Of every other value the index takes the keys. -/
theorem indexKeysForValue_eq (h : ¬ Unkeyable index value) :
    indexKeysForValue limits index value = encodeDistinct limits (validKeys index value) [] := by
  rw [indexKeysForValue, validKeys]
  split
  · next hmulti =>
      have hmembers : index.keyPath.extractMultiEntry value =
          .ok (membersOf (index.keyPath.multiEntryRoot value)) := by
        rw [KeyPath.extractMultiEntry]
        cases hroot : index.keyPath.multiEntryRoot value with
        | none => rfl
        | some raw =>
            have hkey (hraw : ∀ elements props, raw ≠ .array elements props) :
                raw.toKey.map Option.toList = .ok (KeyPath.memberKey (some raw)).toList := by
              rw [KeyPath.memberKey]
              cases hconvert : raw.toKey with
              | ok key => rfl
              | error e => exact absurd ⟨hmulti, raw, hroot, hraw, e, hconvert⟩ h
            cases raw with
            | array elements props => rfl
            | _ => exact hkey fun _ _ heq => by cases heq
      rw [hmembers]
      rfl
  · cases index.keyPath.extract value with
    | error e => rfl
    | ok key => cases key <;> rfl

theorem encodeDistinct_total {keys : List Key} (out : List Bytes)
    (h : ∀ k ∈ keys, ∃ bytes, encodeKey limits k = .ok bytes) :
    ∃ encoded, encodeDistinct limits keys out = .ok encoded := by
  induction keys generalizing out with
  | nil => exact ⟨out, rfl⟩
  | cons key keys ih =>
      obtain ⟨bytes, hbytes⟩ := h key (.head _)
      rw [encodeDistinct, hbytes]
      exact ih _ fun k hk => h k (.tail _ hk)

/-- The keys an index takes are the valid ones. -/
theorem mem_indexKeysForValue {keys : List Bytes}
    (h : indexKeysForValue limits index value = .ok keys)
    (bytes : Bytes) :
    bytes ∈ keys ↔ ∃ k ∈ validKeys index value, encodeKey limits k = .ok bytes := by
  have hkeyable : ¬ Unkeyable index value := by
    intro hunkeyable
    obtain ⟨e, he, -⟩ := indexKeysForValue_unkeyable hunkeyable
    cases he.symm.trans h
  rw [indexKeysForValue_eq hkeyable] at h
  rw [(encodeDistinct_ok h).2]
  simp only [List.not_mem_nil, false_or]
  refine exists_congr fun k => and_congr_right fun _ => ?_
  exact ⟨fun hk => by rw [encodeKey, hk]; rfl, mapError_ok⟩

/-! ### Errors of the backend -/

/-- What a put passes on of an error that a call of the backend reported, other than a
constraint. -/
inductive Reported (σ : Type) [BackendTxn σ] : IdbError → Prop
  | get {s s' : σ} {store : StoreId} {key : Bytes} {err : BackendError}
      (h : BackendTxn.get store key s = (.failed err, s')) (hother : err.isConstraint = false) :
      Reported σ (backendErr err)
  | put {s s' : σ} {store : StoreId} {key val : Bytes} {noOverwrite : Bool} {err : BackendError}
      (h : BackendTxn.put store key val noOverwrite s = (.failed err, s'))
      (hother : err.isConstraint = false) : Reported σ (backendErr err)
  | keyGenSet {s s' : σ} {store : StoreId} {value : F64Bits} {err : BackendError}
      (h : BackendTxn.keyGenSet store value s = (.failed err, s'))
      (hother : err.isConstraint = false) : Reported σ (backendErr err)
  | indexPut {s s' : σ} {index : IndexId} {key primaryKey : Bytes} {unique : Bool}
      {err : BackendError}
      (h : BackendTxn.indexPut index key primaryKey unique s = (.failed err, s'))
      (hother : err.isConstraint = false) : Reported σ (.data ("Index put failed: " ++ err.text))
  | indexDelete {s s' : σ} {index : IndexId} {key primaryKey : Bytes} {err : BackendError}
      (h : BackendTxn.indexDelete index key primaryKey s = (.failed err, s')) :
      Reported σ (.data ("Index delete failed: " ++ err.text))

section Put

variable {σ : Type} [BackendTxn σ] [LawfulTxn σ]

/-- A constraint, or an error of the backend. -/
def Explained (σ : Type) [BackendTxn σ] (e : Option IdbError) : Prop :=
  e.any IdbError.isConstraint = true ∨ ∃ err, e = some err ∧ Reported σ err

omit [LawfulTxn σ] in
/-- A call of the backend whose errors are passed on. -/
theorem explained_call {α : Type} {p : Prog σ BackendError α} {f : BackendError → IdbError} {s : σ}
    {post : α → σ → Prop} (hp : Meets (· = s) p post fun e s' => e.isSome ∧ s' = s)
    (hf : ∀ err s', p s = (.failed err, s') → (f err).isConstraint = true ∨ Reported σ (f err)) :
    Meets (· = s) (p.mapErr f) post fun e _ => Explained σ e := by
  refine (hp.and (meets_self p s)).mono (fun _ h => h) (fun _ _ h => h.1) (fun _ _ h => h)
    |>.mapErr ?_
  rintro e s' ⟨⟨hsome, -⟩, hrun⟩
  obtain ⟨err, rfl⟩ := Option.isSome_iff_exists.mp hsome
  rcases hf err s' hrun with hconstraint | hreported
  · exact .inl hconstraint
  · exact .inr ⟨_, rfl, hreported⟩

omit [LawfulTxn σ] in
theorem explained_backendErr {err : BackendError}
    (h : err.isConstraint = false → Reported σ (backendErr err)) :
    (backendErr err).isConstraint = true ∨ Reported σ (backendErr err) := by
  rw [backendErr_isConstraint]
  cases hkind : err.isConstraint with
  | true => exact .inl rfl
  | false => exact .inr (h hkind)

theorem explained_indexDelete (index : IndexId) (key pk : Bytes) :
    Meets (fun _ : σ => True) (indexDelete index key pk) (fun _ _ => True) fun e _ =>
      Explained σ e :=
  meets_of_forall fun s _ => (explained_call (LawfulTxn.indexDelete s index key pk) fun _ _ h =>
    .inr (.indexDelete h)).mono (fun _ h => h) (fun _ _ _ => trivial) fun _ _ h => h

theorem explained_indexPut (index : IndexId) (key pk : Bytes) (unique : Bool) :
    Meets (fun _ : σ => True) (indexPut index key pk unique) (fun _ _ => True)
      fun e _ => Explained σ e := by
  refine meets_of_forall fun s _ => (explained_call (LawfulTxn.indexPut s index key pk unique)
    fun err _ h => ?_).mono (fun _ h => h) (fun _ _ _ => trivial) fun _ _ h => h
  cases err with
  | constraint msg => exact .inl rfl
  | _ => exact .inr (.indexPut h rfl)

/-- An index that has its keys fails with the backend only. -/
theorem explained_syncIndex {old : Option ScValue} {oldKeys newKeys : List Bytes} (pk : Bytes)
    (hold : keysOf limits index old = .ok oldKeys)
    (hnew : indexKeysForValue limits index new = .ok newKeys) :
    Meets (fun _ : σ => True) (syncIndex limits index old new pk) (fun _ _ => True)
      fun e _ => Explained σ e := by
  have hprog : syncIndex limits index old new pk = (do
      Prog.forEach (fun old => indexDelete index.id old pk) (oldKeys.filter (· ∉ newKeys))
      Prog.forEach (fun new => indexPut index.id new pk index.unique)
        (newKeys.filter (· ∉ oldKeys)) : Prog σ IdbError Unit) := by
    cases old with
    | none =>
        cases hold
        rw [syncIndex, hnew]
        rfl
    | some v =>
        rw [keysOf] at hold
        rw [syncIndex, hnew, hold]
        rfl
  rw [hprog]
  refine Meets.bind (meets_forEach (fun _ _ => True) (fun key _ => ?_) _) fun _ =>
    meets_forEach (fun _ _ => True) (fun key _ => ?_) _
  · exact explained_indexDelete index.id key pk
  · exact explained_indexPut index.id key pk index.unique

theorem explained_syncIndexesOnPut {store : StoreMeta} {old : Option ScValue} {key : Key}
    {pk : Bytes}
    (hpk : encodeKey limits key = .ok pk)
    (hold : ∀ index ∈ store.liveIndexes, ∃ keys, keysOf limits index old = .ok keys)
    (hnew : ∀ index ∈ store.liveIndexes, ∃ keys, indexKeysForValue limits index new = .ok keys) :
    Meets (fun _ : σ => True) (syncIndexesOnPut limits store old new key) (fun _ _ => True)
      fun e _ => Explained σ e := by
  unfold syncIndexesOnPut
  rw [hpk, Prog.lift_ok_bind]
  generalize store.liveIndexes = indexes at hold hnew
  induction indexes with
  | nil => exact meets_pure fun _ hs => hs
  | cons index indexes ih =>
      obtain ⟨oldKeys, holdKeys⟩ := hold index (.head _)
      obtain ⟨newKeys, hnewKeys⟩ := hnew index (.head _)
      refine (explained_syncIndex pk holdKeys hnewKeys).bind fun _ => ?_
      exact ih (fun i hi => hold i (.tail _ hi)) fun i hi => hnew i (.tail _ hi)

end Put

/-! ### Puts -/

/-- A put of a value that can be stored: its key is valid, unless the generator is exhausted, and
the key, the keys of its indexes and the value are within the limits. -/
structure Puttable (env : CodecEnv) (limits : LimitConfig) (store : StoreMeta)
    (keygen : KeyGenerator) (value : ScValue) (explicitKey : Option Key) : Prop where
  storable : value.Storable
  key : Exhausted store keygen value explicitKey ∨
    ∃ r, determineKey store keygen value explicitKey = .ok r
  fits : ∀ key generated new,
    determineKey store keygen value explicitKey = .ok (key, generated, new) →
    (∃ pk, encodeKey limits key = .ok pk) ∧
      (∀ index ∈ store.liveIndexes, ∀ k ∈ validKeys index new,
        ∃ bytes, encodeKey limits k = .ok bytes) ∧ ∃ bytes, encodeScf env limits new = .ok bytes

/-- The entries that a record has in the live indexes are those of the valid keys in its value. -/
def Indexed (limits : LimitConfig) (store : StoreMeta) (key : Key) (new : ScValue) (w : View) :
    Prop :=
  ∃ pk, encodeKey limits key = .ok pk ∧ ∀ index ∈ store.liveIndexes, ∀ bytes,
    w.entries ⟨index.id, bytes, pk⟩ ↔ ∃ k ∈ validKeys index new, encodeKey limits k = .ok bytes

/-- The value can be read back from what it is stored as. -/
def ReadsBack (env : CodecEnv) (limits : LimitConfig) (v : ScValue) : Prop :=
  v.scfSize env ≤ limits.maxValueLen ∧ ScValue.Everywhere (ScValue.Bounded env limits) 0 v

/-- A value that a put has stored: every live index has its keys, and the bytes are there. -/
structure Stored (env : CodecEnv) (limits : LimitConfig) (store : StoreMeta) (v : ScValue) :
    Prop where
  storable : v.Storable
  encodes : ∃ bytes, encodeScf env limits v = .ok bytes
  keys : ∀ index ∈ store.liveIndexes, ∃ keys, indexKeysForValue limits index v = .ok keys

/-- On every backend whose indexes are in step with its values, and that holds `old` under the key
of the put, the put fails for a conflict or for an error of the backend only, and if it does not
fail each index holds the valid keys. -/
def FailsForConflicts (env : CodecEnv) (limits : LimitConfig) (store : StoreMeta)
    (keygen : KeyGenerator) (value : ScValue) (explicitKey : Option Key) (noOverwrite : Bool)
    (old : Option ScValue) : Prop :=
  ∀ (σ : Type) [BackendTxn σ] [LawfulTxn σ] [LawfulRefusals σ] (s : σ)
    (values : Bytes → Option ScValue), Maintains env limits store (view s) values →
    (∀ key generated new pk,
      determineKey store keygen value explicitKey = .ok (key, generated, new) →
      encodeKey limits key = .ok pk → values pk = old) →
    Meets (· = s) (put env limits store keygen value explicitKey noOverwrite)
      (fun r s' => Indexed limits store r.1.key r.2.2 (view s'))
      (fun e _ => PutConflict env limits store s keygen value explicitKey noOverwrite ∨
        ∃ err, e = some err ∧ Reported σ err)

/-- Every index can key the value: where the path of a multiEntry index leads to anything, it is an
array or a key. What is overwritten can be read back. -/
structure Admitted (env : CodecEnv) (limits : LimitConfig) (store : StoreMeta) (new : ScValue)
    (old : Option ScValue) : Prop where
  keyable : ∀ index ∈ store.liveIndexes, ¬ Unkeyable index new
  readsBack : ∀ v, old = some v → ReadsBack env limits v

/-- The put is an add of a key that is there, or the value as it is stored is admitted. -/
def Keyable (env : CodecEnv) (limits : LimitConfig) (store : StoreMeta) (keygen : KeyGenerator)
    (value : ScValue) (explicitKey : Option Key) (noOverwrite : Bool) (old : Option ScValue) :
    Prop :=
  ∀ key generated new, determineKey store keygen value explicitKey = .ok (key, generated, new) →
    noOverwrite = true ∧ old.isSome = true ∨ Admitted env limits store new old

variable {env : CodecEnv} {store : StoreMeta} {keygen : KeyGenerator} {explicitKey : Option Key}
  {noOverwrite : Bool} {old : Option ScValue}

section Put

variable {σ : Type} [BackendTxn σ] [LawfulTxn σ]

/-- A record is there exactly if a value is. -/
theorem Maintains.isSome_records {w : View} {values : Bytes → Option ScValue}
    (h : Maintains env limits store w values) (pk : Bytes) :
    (w.records ⟨store.id, pk⟩).isSome = (values pk).isSome := by
  rcases h.records pk with ⟨hnone, hvalue⟩ | ⟨v, bytes, hvalue, -, hrecord⟩
  · rw [hnone, hvalue]
    rfl
  · rw [hrecord, hvalue]
    rfl

/-- What is overwritten is read exactly if it can be read back. -/
theorem oldValueOf_ok_iff (henv : env.Lawful) (hlimit : limits.maxValueLen < 2 ^ 64) {w : View}
    {values : Bytes → Option ScValue} (h : Maintains env limits store w values) (key : Key)
    (pk : Bytes) : (∃ old, oldValueOf env limits key (w.records ⟨store.id, pk⟩) = .ok old) ↔
      ∀ v, values pk = some v → ReadsBack env limits v := by
  rcases h.records pk with ⟨hnone, hvalue⟩ | ⟨v, bytes, hvalue, hencode, hrecord⟩
  · rw [hnone, hvalue]
    exact iff_of_true ⟨none, rfl⟩ fun _ h => by cases h
  · obtain ⟨hnoMemo, hrepresentable⟩ := ScValue.everywhere_and.mp (h.storable pk v hvalue)
    obtain ⟨hdecodes, hrefused⟩ := decodeScf_stored henv hlimit hnoMemo hrepresentable hencode
    rw [hrecord, hvalue, oldValueOf]
    by_cases hreads : ReadsBack env limits v
    · rw [hdecodes hreads]
      refine iff_of_true ⟨_, rfl⟩ fun _ heq => ?_
      rwa [← Option.some.inj heq]
    · obtain ⟨e, he⟩ := hrefused hreads
      rw [he]
      refine iff_of_false ?_ fun hall => hreads (hall v rfl)
      rintro ⟨old, hold⟩
      cases hold

/-- A value that cannot be read back is reported as such. -/
theorem oldValueOf_error {key : Key} {existing : Option Bytes} {e : IdbError}
    (h : oldValueOf env limits key existing = .error e) : ∃ msg, e = .notReadable msg := by
  cases existing with
  | none => cases h
  | some bytes =>
      rw [oldValueOf] at h
      split at h
      · cases h
      · cases h
        exact ⟨_, rfl⟩

theorem explained_put (henv : env.Lawful) (hlimit : limits.maxValueLen < 2 ^ 64) (s : σ)
    {values : Bytes → Option ScValue} (h : Maintains env limits store (view s) values)
    (hput : Puttable env limits store keygen value explicitKey)
    (hvalues : ∀ key generated new pk,
      determineKey store keygen value explicitKey = .ok (key, generated, new) →
      encodeKey limits key = .ok pk → values pk = old)
    (hkeyable : Keyable env limits store keygen value explicitKey noOverwrite old) :
    Meets (· = s) (put env limits store keygen value explicitKey noOverwrite) (fun _ _ => True)
      fun e _ => Explained σ e := by
  unfold put
  cases hkey : determineKey store keygen value explicitKey with
  | error e =>
      refine meets_throw fun _ _ => .inl ((determineKey_refused hkey).mpr ?_)
      rcases hput.key with hexhausted | ⟨r, hr⟩
      · exact hexhausted
      · cases hkey.symm.trans hr
  | ok determined =>
  obtain ⟨key, generated, new⟩ := determined
  obtain ⟨⟨pk, hpk⟩, hindexes, bytes, hbytes⟩ := hput.fits key generated new hkey
  have hold := hvalues key generated new pk hkey hpk
  rw [Prog.lift_ok_bind]
  dsimp only
  rw [hpk, Prog.lift_ok_bind]
  have hget : Meets (· = s) ((BackendTxn.get store.id pk).mapErr backendErr)
      (fun r s' => s' = s ∧ r = (view s).records ⟨store.id, pk⟩) fun e _ => Explained σ e :=
    explained_call (LawfulTxn.get s store.id pk) fun _ _ h =>
      explained_backendErr (.get h)
  refine hget.bind fun existing => ?_
  rintro s' ⟨rfl, rfl⟩
  split
  · exact .inl rfl
  rename_i hadd
  rw [h.isSome_records, hold, Bool.and_eq_true] at hadd
  have hadmitted := (hkeyable key generated new hkey).resolve_left hadd
  obtain ⟨read, hread⟩ := (oldValueOf_ok_iff henv hlimit h key pk).mpr fun v hv =>
    hadmitted.readsBack v (hold.symm.trans hv)
  rw [hread, Prog.lift_ok_bind]
  -- the keys of what is overwritten were encoded when it was put, those of the value now
  have holdKeys (index : IndexMeta) (hindex : index ∈ store.liveIndexes) :
      ∃ keys, keysOf limits index read = .ok keys := by
    obtain ⟨keys, hkeys, -⟩ := h.entries index hindex pk
    exact ⟨keys, (keysOf_oldValue henv hlimit h hread index).trans hkeys⟩
  have hnewKeys (index : IndexMeta) (hindex : index ∈ store.liveIndexes) :
      ∃ keys, indexKeysForValue limits index new = .ok keys := by
    rw [indexKeysForValue_eq (hadmitted.keyable index hindex)]
    exact encodeDistinct_total [] (hindexes index hindex)
  refine ((explained_syncIndexesOnPut hpk holdKeys hnewKeys).mono (fun _ _ => trivial)
    (fun _ _ h => h) fun _ _ h => h).bind (fun _ => meets_of_forall fun t _ => ?_) s' rfl
  rw [hbytes]
  have hwrite : Meets (· = t) ((BackendTxn.put store.id pk bytes noOverwrite).mapErr backendErr) _
      fun e _ => Explained σ e :=
    explained_call (LawfulTxn.put t store.id pk bytes noOverwrite) fun _ _ h =>
      explained_backendErr (.put h)
  refine hwrite.bind fun _ => meets_of_forall fun u _ => ?_
  have hset : Meets (· = u) ((BackendTxn.keyGenSet store.id
      (generated.possiblyUpdate (keyToF64 key)).current).mapErr backendErr) _
      fun e _ => Explained σ e :=
    explained_call (LawfulTxn.keyGenSet u store.id _) fun _ _ h =>
      explained_backendErr (.keyGenSet h)
  exact hset.bind fun _ => meets_pure fun _ _ => trivial

/-- Behind a put the indexes hold the valid keys. -/
theorem Maintains.indexed {w : View} {values : Bytes → Option ScValue} {key : Key} {pk : Bytes}
    (h : Maintains env limits store w (Function.update values pk (some new)))
    (hpk : encodeKey limits key = .ok pk) : Indexed limits store key new w := by
  refine ⟨pk, hpk, fun index hindex bytes => ?_⟩
  obtain ⟨keys, hkeys, hown⟩ := h.entries index hindex pk
  rw [Function.update_self] at hkeys
  exact (hown bytes).trans (mem_indexKeysForValue hkeys bytes)

end Put

theorem failsForConflicts_of_keyable (henv : env.Lawful) (hlimit : limits.maxValueLen < 2 ^ 64)
    (hnodup : (store.liveIndexes.map IndexMeta.id).Nodup)
    (hput : Puttable env limits store keygen value explicitKey)
    (hkeyable : Keyable env limits store keygen value explicitKey noOverwrite old) :
    FailsForConflicts env limits store keygen value explicitKey noOverwrite old := by
  intro σ _ _ _ s values h hvalues
  have hdone := meets_put henv hlimit hnodup s h keygen hput.storable explicitKey noOverwrite
  have hrefused := refused_put henv hlimit hnodup s h keygen value explicitKey noOverwrite
  have hexplained := explained_put henv hlimit s h hput hvalues hkeyable
  refine (hdone.and (hrefused.and hexplained)).mono (fun _ h => h) ?_ ?_
  · rintro r s' ⟨⟨pk, hkey, hmaintains, -⟩, -⟩
    exact hmaintains.indexed hkey.encoded
  · rintro e s' ⟨-, hconflict, hconstraint | hreported⟩
    · exact .inl (hconflict.mp hconstraint)
    · exact .inr hreported

/-! ### A put that is refused -/

/-- Why a put is refused that meets no conflict: a value that is no key, or bytes that cannot be
read back. -/
inductive Refused : Option IdbError → Prop
  | noKey {e : KeyError} (h : NoKey e) : Refused (some e.toIdb)
  | notReadable (msg : String) : Refused (some (.notReadable msg))

section Sole

variable {σ : Type} [BackendTxn σ] [LawfulTxn σ] [LawfulRefusals σ] {pk : Bytes}

/-- The transaction can write, and the live indexes hold entries of one primary key only. -/
structure SoleRecord (store : StoreMeta) (pk : Bytes) (s : σ) : Prop where
  writable : Writable s
  holder : ∀ index ∈ store.liveIndexes, ∀ key pk', (view s).entries ⟨index.id, key, pk'⟩ → pk' = pk

theorem SoleRecord.indexDelete (index : IndexId) (key : Bytes) :
    Meets (SoleRecord store pk (σ := σ)) (indexDelete index key pk) (fun _ => SoleRecord store pk)
      (fun _ _ => False) := by
  refine meets_of_forall fun s hs => ?_
  refine ((LawfulTxn.indexDelete s index key pk).and
    (LawfulRefusals.indexDelete_refused s index key pk)).mapErr ?_ |>.mono (fun _ h => h)
      (fun _ s' hs' => ⟨hs'.2.2, fun i hi key' pk' hentry => ?_⟩) fun _ _ h => h
  · rintro e s' ⟨-, hnot, -⟩
    exact hnot hs.writable
  · rw [hs'.1] at hentry
    exact hs.holder i hi key' pk' hentry.2

theorem SoleRecord.indexPut (index : IndexMeta) (hindex : index ∈ store.liveIndexes) (key : Bytes) :
    Meets (SoleRecord store pk (σ := σ)) (indexPut index.id key pk index.unique)
      (fun _ => SoleRecord store pk) (fun _ _ => False) := by
  refine meets_of_forall fun s hs => ?_
  refine ((LawfulTxn.indexPut s index.id key pk index.unique).and
    (LawfulRefusals.indexPut_refused s index.id key pk index.unique)).mapErr ?_ |>.mono
    (fun _ h => h)
      (fun _ s' hs' => ⟨hs'.2.2, fun i hi key' pk' hentry => ?_⟩) fun _ _ h => h
  · rintro e s' ⟨-, ⟨hnot, -⟩ | ⟨-, ⟨-, hfree, pk', hheld⟩, -⟩⟩
    · exact hnot hs.writable
    · obtain rfl := hs.holder index hindex key pk' hheld
      exact hfree hheld
  · rw [hs'.1.2] at hentry
    rcases hentry with heq | hentry
    · exact congrArg IndexKey.primaryKey heq
    · exact hs.holder i hi key' pk' hentry

/-- Only a value that cannot be keyed stops the synchronization. -/
theorem SoleRecord.syncIndexesOnPut {read : Option ScValue} {key : Key}
    (hpk : encodeKey limits key = .ok pk)
    (hold : ∀ index ∈ store.liveIndexes, ∃ keys, keysOf limits index read = .ok keys)
    (hencodes : ∀ index ∈ store.liveIndexes, ∀ k ∈ validKeys index new,
      ∃ bytes, encodeKey limits k = .ok bytes) :
    Meets (SoleRecord store pk (σ := σ)) (syncIndexesOnPut limits store read new key)
      (fun _ _ => ∀ index ∈ store.liveIndexes, ¬ Unkeyable index new) (fun e _ => Refused e) := by
  unfold Engine.syncIndexesOnPut
  rw [hpk, Prog.lift_ok_bind]
  -- induction on the live indexes; none of them meets an entry of another record
  have hall (indexes : List IndexMeta) (hsub : ∀ index ∈ indexes, index ∈ store.liveIndexes) :
      Meets (SoleRecord store pk (σ := σ))
        (Prog.forEach (fun index => syncIndex limits index read new pk) indexes)
        (fun _ _ => ∀ index ∈ indexes, ¬ Unkeyable index new) (fun e _ => Refused e) := by
    induction indexes with
    | nil => exact meets_pure fun _ _ => fun index hindex => absurd hindex List.not_mem_nil
    | cons index indexes ih =>
        have hlive := hsub index (.head _)
        obtain ⟨oldKeys, holdKeys⟩ := hold index hlive
        have hprog : syncIndex limits index read new pk = (do
            let newKeys ← Prog.lift (indexKeysForValue limits index new)
            Prog.forEach (fun old => Engine.indexDelete index.id old pk)
              (oldKeys.filter (· ∉ newKeys))
            Prog.forEach (fun new => Engine.indexPut index.id new pk index.unique)
              (newKeys.filter (· ∉ oldKeys)) : Prog σ IdbError Unit) := by
          cases read with
          | none =>
              cases holdKeys
              rfl
          | some v =>
              rw [keysOf] at holdKeys
              rw [syncIndex, holdKeys]
              rfl
        rw [Prog.forEach, hprog]
        by_cases hunkeyable : Unkeyable index new
        · obtain ⟨e, he, hnokey⟩ := @indexKeysForValue_unkeyable limits _ _ hunkeyable
          rw [he]
          exact meets_throw fun _ _ => .noKey hnokey
        · obtain ⟨keys, hkeys⟩ := encodeDistinct_total [] (hencodes index hlive)
          rw [← indexKeysForValue_eq hunkeyable] at hkeys
          rw [hkeys, Prog.lift_ok_bind]
          have hdelete : Meets (SoleRecord store pk (σ := σ)) (Prog.forEach (fun old =>
              Engine.indexDelete index.id old pk) (oldKeys.filter (· ∉ keys)))
              (fun _ => SoleRecord store pk) (fun _ _ => False) :=
            meets_forEach (fun _ => SoleRecord store pk)
              (fun key _ => SoleRecord.indexDelete _ key) _
          have hinsert : Meets (SoleRecord store pk (σ := σ)) (Prog.forEach (fun new =>
              Engine.indexPut index.id new pk index.unique) (keys.filter (· ∉ oldKeys)))
              (fun _ => SoleRecord store pk) (fun _ _ => False) :=
            meets_forEach (fun _ => SoleRecord store pk)
              (fun key _ => SoleRecord.indexPut index hlive key) _
          have hsync := (hdelete.bind fun _ => hinsert).mono (fun _ h => h) (fun _ _ h => h)
            fun e _ h => (h.elim : Refused e)
          refine hsync.bind fun _ => ?_
          exact (ih fun i hi => hsub i (.tail _ hi)).mono (fun _ h => h)
            (fun _ _ hrest => List.forall_mem_cons.mpr ⟨hunkeyable, hrest⟩) fun _ _ h => h
  exact hall _ fun _ h => h

/-- A put into a store with one record, that is no add of it, ends with a refusal only if the value
or the record is not admitted. -/
theorem refused_put_sole (henv : env.Lawful) (hlimit : limits.maxValueLen < 2 ^ 64) {s : σ}
    {values : Bytes → Option ScValue} (h : Maintains env limits store (view s) values)
    (hsole : SoleRecord store pk s) (hscope : Scoped s store.id)
    (hput : Puttable env limits store keygen value explicitKey) {key : Key}
    {generated : KeyGenerator}
    (hkey : determineKey store keygen value explicitKey = .ok (key, generated, new))
    (hpk : encodeKey limits key = .ok pk)
    (hadd : ¬ (noOverwrite = true ∧ (values pk).isSome = true)) :
    Meets (· = s) (put env limits store keygen value explicitKey noOverwrite)
      (fun _ _ => Admitted env limits store new (values pk))
      (fun e _ => Admitted env limits store new (values pk) ∨ Refused e) := by
  obtain ⟨-, hindexes, bytes, hbytes⟩ := hput.fits key generated new hkey
  unfold put
  rw [hkey, Prog.lift_ok_bind]
  dsimp only
  rw [hpk, Prog.lift_ok_bind]
  have hget : Meets (· = s) ((BackendTxn.get store.id pk).mapErr backendErr)
      (fun r s' => s' = s ∧ r = (view s).records ⟨store.id, pk⟩) (fun _ _ => False) :=
    ((LawfulTxn.get s store.id pk).and (LawfulRefusals.get_refused s store.id pk)).mapErr
      (fun _ _ he => he.2.1 hscope) |>.mono (fun _ h => h) (fun _ _ h => h.1) fun _ _ h => h
  refine (hget.mono (fun _ h => h) (fun _ _ h => h) fun _ _ h => h.elim).bind fun existing => ?_
  rintro s' ⟨rfl, rfl⟩
  rw [h.isSome_records, if_neg (by rwa [Bool.and_eq_true])]
  cases hread : oldValueOf env limits key ((view s').records ⟨store.id, pk⟩) with
  | error e =>
      obtain ⟨msg, rfl⟩ := oldValueOf_error hread
      exact .inr (.notReadable msg)
  | ok read =>
      have hreads := (oldValueOf_ok_iff henv hlimit h key pk).mp ⟨read, hread⟩
      have holdKeys (index : IndexMeta) (hindex : index ∈ store.liveIndexes) :
          ∃ keys, keysOf limits index read = .ok keys := by
        obtain ⟨keys, hkeys, -⟩ := h.entries index hindex pk
        exact ⟨keys, (keysOf_oldValue henv hlimit h hread index).trans hkeys⟩
      rw [Prog.lift_ok_bind]
      have hsync : Meets (· = s') (syncIndexesOnPut limits store read new key)
          (fun _ _ => ∀ index ∈ store.liveIndexes, ¬ Unkeyable index new)
          fun e _ => Admitted env limits store new (values pk) ∨ Refused e :=
        (SoleRecord.syncIndexesOnPut hpk holdKeys hindexes).mono (fun t ht => ht ▸ hsole)
          (fun _ _ h => h) fun _ _ h => .inr h
      -- what fails behind the indexes fails for another reason
      refine hsync.bind (fun _ => meets_of_forall fun t hkeyable => ?_) s' rfl
      exact (meets_self _ t).mono (fun _ h => h) (fun _ _ _ => ⟨hkeyable, hreads⟩)
        fun _ _ _ => .inl ⟨hkeyable, hreads⟩

end Sole

/-- Texts that differ at their beginning. -/
theorem text_ne {a b x y : String} (n : ℕ) (ha : n ≤ a.toList.length) (hb : n ≤ b.toList.length)
    (h : a.toList.take n ≠ b.toList.take n) : a ++ x ≠ b ++ y := by
  intro heq
  apply h
  have hlist := congrArg (fun s : String => s.toList.take n) heq
  simpa only [String.toList_append, List.take_append_of_le_length ha,
    List.take_append_of_le_length hb] using hlist

/-- No call of a backend reports that a value is no key. -/
theorem not_reported_noKey {σ : Type} [BackendTxn σ] {err : KeyError} (h : NoKey err) :
    ¬ Reported σ err.toIdb := by
  have htext : ∃ a msg : String, err.toIdb = .data (a ++ msg) ∧ 3 ≤ a.toList.length ∧
      a.toList.take 3 = ['I', 'n', 'v'] := by
    cases h with
    | invalidType msg => exact ⟨_, msg, rfl, by decide, by decide⟩
    | invalidValue msg => exact ⟨_, msg, rfl, by decide, by decide⟩
  obtain ⟨a, msg, htoIdb, hlength, htake⟩ := htext
  have hother {b y : String} (hb : 3 ≤ b.toList.length) (hne : ['I', 'n', 'v'] ≠ b.toList.take 3) :
      IdbError.data (a ++ msg) ≠ .data (b ++ y) := fun heq =>
    text_ne 3 hlength hb (htake ▸ hne) (IdbError.data.inj heq)
  have hbackend {berr : BackendError} (hkind : berr.isConstraint = false) :
      IdbError.data (a ++ msg) ≠ backendErr berr := by
    cases berr with
    | constraint msg => cases hkind
    | _ => exact hother (by decide) (by decide)
  rw [htoIdb]
  intro hreported
  generalize hdata : IdbError.data (a ++ msg) = e at hreported
  cases hreported with
  | get _ hkind => exact hbackend hkind hdata
  | put _ hkind => exact hbackend hkind hdata
  | keyGenSet _ hkind => exact hbackend hkind hdata
  | indexPut => exact hother (by decide) (by decide) hdata
  | indexDelete => exact hother (by decide) (by decide) hdata

/-- No call of a backend reports what a refused put reports. -/
theorem Refused.not_reported {σ : Type} [BackendTxn σ] {err : IdbError} (h : Refused (some err)) :
    ¬ Reported σ err := by
  generalize he : some err = e at h
  cases h with
  | noKey h =>
      obtain rfl := Option.some.inj he
      exact not_reported_noKey h
  | notReadable msg =>
      obtain rfl := Option.some.inj he
      have hbackend (berr : BackendError) : IdbError.notReadable msg ≠ backendErr berr := by
        cases berr <;> exact fun heq => by cases heq
      intro hreported
      generalize htext : IdbError.notReadable msg = e at hreported
      cases hreported with
      | get => exact hbackend _ htext
      | put => exact hbackend _ htext
      | keyGenSet => exact hbackend _ htext
      | indexPut => cases htext
      | indexDelete => cases htext

/-- The stores of an empty database are in step with no value. -/
theorem maintains_first : Maintains env limits store (view Memory.Session.first) fun _ => none where
  records pk := .inl ⟨rfl, rfl⟩
  entries index _ pk := ⟨[], rfl, fun key => iff_of_false (Memory.Session.entries_first _)
    List.not_mem_nil⟩
  oneHolder index _ _ key pk pk' h := absurd h (Memory.Session.entries_first _)
  storable _ _ h := by cases h

/-- An upgrade of a memory database that holds at most one record, under this key. -/
theorem exists_sole (henv : env.Lawful) (hlimit : limits.maxValueLen < 2 ^ 64)
    (hnodup : (store.liveIndexes.map IndexMeta.id).Nodup) {key : Key} {pk : Bytes}
    (hpk : encodeKey limits key = .ok pk) (hold : ∀ v, old = some v → Stored env limits store v) :
    ∃ (s : Memory.Session) (values : Bytes → Option ScValue), Upgrade s ∧ values pk = old ∧
      (∀ pk' ≠ pk, values pk' = none) ∧ Maintains env limits store (view s) values := by
  cases old with
  | none =>
      exact ⟨Memory.Session.first, fun _ => none, rfl, rfl, fun _ _ => rfl, maintains_first⟩
  | some v =>
      obtain ⟨hstorable, ⟨bytes, hbytes⟩, hkeys⟩ := hold v rfl
      -- the same store with keys of its own takes the value under any key
      have hkey : determineKey { store with keyPath := .empty } (.new keyGenStart) v (some key) =
          .ok (key, .new keyGenStart, v) := by
        rw [determineKey, if_pos rfl]
      have hfirst := Memory.meets_put_first false hkey hpk hkeys hbytes
      have hempty : Maintains env limits { store with keyPath := .empty }
          (view Memory.Session.first) fun _ => none := maintains_first
      have hids : ((StoreMeta.liveIndexes { store with keyPath := .empty }).map
        IndexMeta.id).Nodup := hnodup
      have hdone := meets_put henv hlimit hids Memory.Session.first hempty (.new keyGenStart)
        hstorable (some key) false
      have hends := hfirst.and hdone _ rfl
      rcases hrun : put env limits { store with keyPath := .empty } (.new keyGenStart) v (some key)
        false Memory.Session.first with ⟨r | e | _, s⟩
      all_goals rw [hrun] at hends
      · obtain ⟨⟨hupgrade, -⟩, pk', hput, hmaintains, -⟩ := hends
        obtain ⟨⟨generated, hdetermined, -⟩, hencoded⟩ := hput
        rw [hkey] at hdetermined
        obtain ⟨hsame, -, hvalue⟩ := Prod.mk.inj (Except.ok.inj hdetermined) |>.imp id Prod.mk.inj
        rw [← hsame, hpk] at hencoded
        obtain rfl := Except.ok.inj hencoded
        rw [← hvalue] at hmaintains
        exact ⟨s, _, hupgrade, Function.update_self .., fun _ hne => Function.update_of_ne hne ..,
          hmaintains.records, hmaintains.entries, hmaintains.oneHolder, hmaintains.storable⟩
      · exact hends.1.elim
      · exact hends.1.elim

theorem keyable_of_failsForConflicts (henv : env.Lawful) (hlimit : limits.maxValueLen < 2 ^ 64)
    (hnodup : (store.liveIndexes.map IndexMeta.id).Nodup)
    (hput : Puttable env limits store keygen value explicitKey)
    (hold : ∀ v, old = some v → Stored env limits store v)
    (h : FailsForConflicts env limits store keygen value explicitKey noOverwrite old) :
    Keyable env limits store keygen value explicitKey noOverwrite old := by
  intro key generated new hkey
  by_cases hadd : noOverwrite = true ∧ old.isSome = true
  · exact .inl hadd
  refine .inr ?_
  obtain ⟨⟨pk, hpk⟩, -, -⟩ := hput.fits key generated new hkey
  obtain ⟨s, values, hupgrade, rfl, hnone, hmaintains⟩ := exists_sole henv hlimit hnodup hpk hold
  have hholder : ∀ index ∈ store.liveIndexes, ∀ key pk', (view s).entries ⟨index.id, key, pk'⟩ →
      pk' = pk := by
    intro index hindex key pk' hentry
    by_contra hne
    obtain ⟨keys, hkeys, hown⟩ := hmaintains.entries index hindex pk'
    rw [hnone pk' hne] at hkeys
    cases hkeys
    exact absurd ((hown key).mp hentry) List.not_mem_nil
  have hsole : SoleRecord store pk s := ⟨if_neg fun h => (by cases hupgrade.symm.trans h), hholder⟩
  -- what is assumed, at the database in memory that holds this record alone
  have hfirst := h Memory.Session s values hmaintains fun key' generated' new' pk' hkey' hpk' => by
    rw [hkey] at hkey'
    cases hkey'
    rw [hpk] at hpk'
    cases hpk'
    rfl
  have hstops :=
    refused_put_sole henv hlimit hmaintains hsole (if_pos (.inl hupgrade)) hput hkey hpk
    hadd
  -- with one record no key is held by another one
  have hconflict (hc : PutConflict env limits store s keygen value explicitKey noOverwrite) :
      Admitted env limits store new (values pk) := by
    cases hc with
    | exhausted hexhausted => exact absurd hexhausted (determineKey_ok hkey)
    | existing hkey' hpk' _ hno hthere =>
        rw [hkey] at hkey'
        cases hkey'
        rw [hpk] at hpk'
        cases hpk'
        rw [← Option.isSome_iff_ne_none, hmaintains.isSome_records] at hthere
        exact absurd ⟨hno, hthere⟩ hadd
    | held hkey' hpk' _ _ _ hheld =>
        rw [hkey] at hkey'
        cases hkey'
        rw [hpk] at hpk'
        cases hpk'
        obtain ⟨before, index, after, hsplit, -, keys, -, hblocked⟩ := hheld
        obtain ⟨-, key', -, pk', hne, hentry⟩ := hblocked
        refine absurd (hholder index ?_ key' pk' hentry) hne
        rw [hsplit]
        exact List.mem_append_right _ (.head _)
  have hends := hfirst.and hstops _ rfl
  rcases hrun : put env limits store keygen value explicitKey noOverwrite s with ⟨_ | _ | _, s'⟩
  all_goals rw [hrun] at hends
  · exact hends.2
  · obtain ⟨hc | ⟨err, heq, hreported⟩, hadmitted | hrefused⟩ := hends
    · exact hadmitted
    · exact hconflict hc
    · exact hadmitted
    · obtain rfl := Option.some.inj heq
      exact absurd hreported hrefused.not_reported
  · obtain ⟨hc | ⟨err, heq, -⟩, -⟩ := hends
    · exact hconflict hc
    · cases heq

/-- **A value that an index cannot key makes no put fail**: of a value that can be stored a put
fails for a conflict or for the backend only, and each index takes the valid keys and no others.
This holds exactly if no live multiEntry index leads to a value that is neither an array nor a
key, and what the put overwrites can be read back; or if it is an add of a key that is there. -/
theorem failsForConflicts_iff (henv : env.Lawful) (hlimit : limits.maxValueLen < 2 ^ 64)
    (hnodup : (store.liveIndexes.map IndexMeta.id).Nodup)
    (hput : Puttable env limits store keygen value explicitKey)
    (hold : ∀ v, old = some v → Stored env limits store v) :
    FailsForConflicts env limits store keygen value explicitKey noOverwrite old ↔
      Keyable env limits store keygen value explicitKey noOverwrite old :=
  ⟨keyable_of_failsForConflicts henv hlimit hnodup hput hold,
    failsForConflicts_of_keyable henv hlimit hnodup hput⟩

/-! ### A multiEntry index of tags -/

/-- A store with a multiEntry index by `t`. -/
def tagged : StoreMeta :=
  ⟨0, [0x73], .empty, false, keyGenStart, [⟨0, 0, [0x69], .single [0x74], false, true, false⟩],
    false⟩

/-- An object with a tag. -/
def withTag (tag : ScValue) : ScValue := .object [([0x74], tag)]

theorem storable_withTag {tag : ScValue}
    (hleaf : ∀ depth, ScValue.Everywhere ScValue.Promised depth tag) : (withTag tag).Storable := by
  refine ScValue.everywhere_object.mpr ⟨by simp, fun kv hkv => ?_⟩
  obtain rfl := List.mem_singleton.mp hkv
  exact hleaf _

/-- It can be put under the key 1. -/
theorem puttable_withTag {tag : ScValue} {bytes : Bytes}
    (hleaf : ∀ depth, ScValue.Everywhere ScValue.Promised depth tag)
    (hkeys : ∀ k ∈ validKeys ⟨0, 0, [0x69], .single [0x74], false, true, false⟩ (withTag tag),
      ∃ bytes, encodeKey {} k = .ok bytes)
    (hbytes : encodeScf standardEnv {} (withTag tag) = .ok bytes) :
    Puttable standardEnv {} tagged (.new keyGenStart) (withTag tag)
      (some (.number keyGenStart)) where
  storable := storable_withTag hleaf
  key := .inr ⟨_, rfl⟩
  fits := by
    rintro key generated new hkey
    cases hkey
    refine ⟨⟨_, rfl⟩, fun index hindex => ?_, bytes, hbytes⟩
    obtain rfl := List.mem_singleton.mp hindex
    exact hkeys

theorem everywhere_string (s : Utf16String) {p : ℕ → ScValue → Prop}
    (h : ∀ depth, p depth (.string s)) (depth : ℕ) : ScValue.Everywhere p depth (.string s) :=
  .intro (h depth) fun _ hchild => absurd hchild List.not_mem_nil

/-- Tagged `a`, and stored. -/
theorem stored_withTag : Stored standardEnv {} tagged (withTag (.string [0x61])) where
  storable := storable_withTag (everywhere_string _ fun _ => ⟨trivial, trivial⟩)
  encodes := ⟨_, rfl⟩
  keys index hindex := by
    obtain rfl := List.mem_singleton.mp hindex
    exact ⟨_, rfl⟩

theorem readsBack_withTag : ReadsBack standardEnv {} (withTag (.string [0x61])) := by
  refine ⟨?_, ScValue.everywhere_iff.mpr ⟨trivial, fun child hchild => ?_⟩⟩
  · simp only [withTag, ScValue.scfSize_eq, ScValue.ownSize, ScValue.children, List.map_cons,
      List.map_nil, List.sum_cons, List.sum_nil]
    decide
  · obtain rfl : child = .string [0x61] := List.mem_singleton.mp hchild
    exact everywhere_string _ (fun _ => trivial) _

/-- An object tagged `b` overwrites it. -/
theorem failsForConflicts_withTag : FailsForConflicts standardEnv {} tagged (.new keyGenStart)
    (withTag (.string [0x62])) (some (.number keyGenStart)) false
    (some (withTag (.string [0x61]))) := by
  have hput := @puttable_withTag (.string [0x62]) _
    (everywhere_string _ fun _ => ⟨trivial, trivial⟩)
    (fun k hk => by
      obtain rfl := List.mem_singleton.mp hk
      exact ⟨_, rfl⟩) rfl
  refine (failsForConflicts_iff standardEnv_lawful (by decide) (by decide) hput
    fun v hv => Option.some.inj hv ▸ stored_withTag).mpr fun key generated new hkey => .inr ?_
  cases hkey
  refine ⟨fun index hindex => ?_, fun v hv => Option.some.inj hv ▸ readsBack_withTag⟩
  obtain rfl := List.mem_singleton.mp hindex
  rintro ⟨-, raw, hroot, -, e, he⟩
  cases hroot
  cases he

/-- A tag that is a boolean makes the put fail. -/
theorem fails_for_tag : ¬ ∀ (env : CodecEnv) (limits : LimitConfig) (store : StoreMeta)
    (keygen : KeyGenerator) (value : ScValue) (explicitKey : Option Key) (noOverwrite : Bool)
    (old : Option ScValue), env.Lawful → limits.maxValueLen < 2 ^ 64 →
    (store.liveIndexes.map IndexMeta.id).Nodup →
    Puttable env limits store keygen value explicitKey →
    (∀ v, old = some v → Stored env limits store v) →
    FailsForConflicts env limits store keygen value explicitKey noOverwrite old := by
  intro h
  have hput := @puttable_withTag (.boolean true) _
    (fun _ => .intro ⟨trivial, trivial⟩ fun _ h => absurd h List.not_mem_nil)
    (fun k hk => absurd hk List.not_mem_nil) rfl
  have hnone (v : ScValue) (hv : none = some v) : Stored standardEnv {} tagged v := by cases hv
  have hkeyable := keyable_of_failsForConflicts standardEnv_lawful (by decide) (by decide) hput
    hnone (h _ _ tagged _ _ _ false none standardEnv_lawful (by decide) (by decide) hput hnone)
  rcases hkeyable _ _ _ rfl with ⟨hadd, -⟩ | hadmitted
  · cases hadd
  · refine hadmitted.keyable _ (.head _) ⟨rfl, .boolean true, rfl, ?_, _, rfl⟩
    rintro _ _ ⟨⟩

end BoaIdb.Engine
