import BoaIdb.Driver.Savepoints
import BoaIdb.Engine.Conflicts
import BoaIdb.Memory.FirstPut

/-!
What an update through a cursor touches.

The update is a put: the key comes from the cursor or, in a store with a key path, from the new
value. A put changes nothing but one record and the entries of that record, so it is the key
that decides.
-/

namespace BoaIdb

open Clone Faults LawfulTxn OrdMap

/-! ### Equal keys -/

namespace F64Bits

variable {x y : F64Bits}

theorem eqF64_cases (h : eqF64 x y = true) :
    isNaN x = false ∧ isNaN y = false ∧ signed x = signed y := by
  have hcmp : partialCmp x y = some .eq := by simpa [eqF64] using h
  rw [partialCmp] at hcmp
  by_cases hnan : (isNaN x || isNaN y) = true
  · rw [if_pos hnan] at hcmp
    cases hcmp
  · rw [if_neg hnan] at hcmp
    rw [Bool.not_eq_true, Bool.or_eq_false_iff] at hnan
    exact ⟨hnan.1, hnan.2, (cmp_eq_eq_iff _ _).mp (Option.some.inj hcmp)⟩

/-- Doubles that compare equal are the same, or both are zeros. -/
theorem eq_or_isZero (h : eqF64 x y = true) : x = y ∨ isZero x = true ∧ isZero y = true := by
  cases hy : isZero y with
  | false => exact .inl (eq_of_eqF64 h (.inl hy))
  | true =>
      refine .inr ⟨?_, rfl⟩
      rw [isZero, magnitude_eq_of_signed (eqF64_cases h).2.2]
      exact hy

theorem normZero_eq (h : eqF64 x y = true) : normZero x = normZero y := by
  rcases eq_or_isZero h with rfl | ⟨hx, hy⟩
  · rfl
  · rw [normZero, normZero, if_pos hx, if_pos hy]

theorem floorInt_zero (h : isZero x = true) : floorInt x = 0 := by
  have hmagnitude : magnitude x = 0 := by simpa [isZero] using h
  have hexponent : exponentBits x = 0 := by rw [exponentBits, hmagnitude, Nat.zero_div]
  have hsignificand : significand x = 0 := by
    rw [significand, if_pos hexponent, hmagnitude, Nat.zero_mod]
  have hscale : ¬ 1075 ≤ scale x := by rw [scale, hexponent]; decide
  rw [floorInt, if_neg hscale, hsignificand]
  generalize 1075 - scale x = k
  have hunit : (0 + 2 ^ k - 1) / 2 ^ k = 0 := by
    apply Nat.div_eq_of_lt
    have hpos := Nat.two_pow_pos k
    omega
  dsimp only
  rw [hunit, Nat.zero_div]
  split <;> rfl

theorem floorPlusOne_eq (h : eqF64 x y = true) : floorPlusOne x = floorPlusOne y := by
  rcases eq_or_isZero h with rfl | ⟨hx, hy⟩
  · rfl
  · have hfinite {z : F64Bits} (hz : isZero z = true) : exponentBits z ≠ 2047 := by
      have hmagnitude : magnitude z = 0 := by simpa [isZero] using hz
      rw [exponentBits, hmagnitude]
      decide
    rw [floorPlusOne, floorPlusOne, if_neg (hfinite hx), if_neg (hfinite hy), floorInt_zero hx,
      floorInt_zero hy]

end F64Bits

namespace Key

mutual

theorem validateRecursive_beq {limits : LimitConfig} {depth : ℕ} {k k' : Key}
    (h : beq k k' = true) :
    validateRecursive limits depth k = validateRecursive limits depth k' := by
  cases k <;> cases k' <;> first
    | cases h
    | skip
  case number.number x y =>
    rw [validateRecursive, validateRecursive]
    simp only [(F64Bits.eqF64_cases h).1, (F64Bits.eqF64_cases h).2.1]
  case date.date x y =>
    rw [validateRecursive, validateRecursive]
    simp only [(F64Bits.eqF64_cases h).1, (F64Bits.eqF64_cases h).2.1]
  case string.string x y => rw [validateRecursive, validateRecursive]
  case binary.binary x y => rw [validateRecursive, validateRecursive]
  case array.array xs ys =>
    rw [validateRecursive, validateRecursive]
    simp only [validateItems_beq h]

theorem validateItems_beq {limits : LimitConfig} {depth : ℕ} {ks ks' : List Key}
    (h : beqItems ks ks' = true) :
    validateItems limits depth ks = validateItems limits depth ks' := by
  cases ks with
  | nil =>
      cases ks' with
      | nil => rfl
      | cons k' ks' => cases h
  | cons k ks =>
      cases ks' with
      | nil => cases h
      | cons k' ks' =>
          rw [beqItems, Bool.and_eq_true] at h
          rw [validateItems, validateItems, validateRecursive_beq h.1, validateItems_beq h.2]

end

mutual

theorem encodeKeyInternal_beq {limits : LimitConfig} {depth : ℕ} {k k' : Key}
    (h : beq k k' = true) :
    encodeKeyInternal limits depth k = encodeKeyInternal limits depth k' := by
  cases k <;> cases k' <;> first
    | cases h
    | skip
  case number.number x y =>
    rw [encodeKeyInternal, encodeKeyInternal]
    simp only [encodeF64Orderable, F64Bits.normZero_eq h]
  case date.date x y =>
    rw [encodeKeyInternal, encodeKeyInternal]
    simp only [encodeF64Orderable, F64Bits.normZero_eq h]
  case string.string x y => rw [eq_of_beq (show (x == y) = true from h)]
  case binary.binary x y => rw [eq_of_beq (show (x == y) = true from h)]
  case array.array xs ys =>
    rw [encodeKeyInternal, encodeKeyInternal]
    simp only [encodeItems_beq h]

theorem encodeItems_beq {limits : LimitConfig} {depth : ℕ} {ks ks' : List Key}
    (h : beqItems ks ks' = true) : encodeItems limits depth ks = encodeItems limits depth ks' := by
  cases ks with
  | nil =>
      cases ks' with
      | nil => rfl
      | cons k' ks' => cases h
  | cons k ks =>
      cases ks' with
      | nil => cases h
      | cons k' ks' =>
          rw [beqItems, Bool.and_eq_true] at h
          rw [encodeItems, encodeItems, encodeKeyInternal_beq h.1, encodeItems_beq h.2]

end

/-- Equal keys are kept under one encoding. -/
theorem encodeKey_beq {limits : LimitConfig} {k k' : Key} (h : beq k k' = true) :
    Engine.encodeKey limits k = Engine.encodeKey limits k' := by
  rw [Engine.encodeKey, Engine.encodeKey, encodeKey, encodeKey, validate, validate,
    validateRecursive_beq h, encodeKeyInternal_beq h]

end Key

/-- And they move a generator to the same value. -/
theorem KeyGenerator.possiblyUpdate_beq {k k' : Key} (h : Key.beq k k' = true) (g : KeyGenerator) :
    g.possiblyUpdate (Engine.keyToF64 k) = g.possiblyUpdate (Engine.keyToF64 k') := by
  have hmoves {x y : F64Bits} (heq : F64Bits.eqF64 x y = true) :
      g.possiblyUpdate x = g.possiblyUpdate y := by
    obtain ⟨hx, hy, hsigned⟩ := F64Bits.eqF64_cases heq
    rw [possiblyUpdate, possiblyUpdate, F64Bits.floorPlusOne_eq heq, F64Bits.leF64, F64Bits.leF64,
      F64Bits.partialCmp, F64Bits.partialCmp, hx, hy, hsigned]
  cases k <;> cases k' <;> first
    | cases h
    | skip
  case number.number x y => exact hmoves h
  case date.date x y => exact hmoves h
  all_goals rfl

/-! ### One record -/

namespace Engine

variable {σ : Type} [BackendTxn σ] [LawfulTxn σ] {env : CodecEnv} {limits : LimitConfig}
  {store : StoreMeta}

/-- Between two views of a database nothing differs but the record of a store under a primary key,
and the entries of that record in the live indexes of the store. -/
structure OnlyRecord (limits : LimitConfig) (store : StoreMeta) (primaryKey : Key) (w w' : View) :
    Prop where
  records : ∀ k, ¬ (k.store = store.id ∧ encodeKey limits primaryKey = .ok k.key) →
    w'.records k = w.records k
  entries : ∀ k, ¬ (k.index ∈ store.liveIndexes.map IndexMeta.id ∧
    encodeKey limits primaryKey = .ok k.primaryKey) → (w'.entries k ↔ w.entries k)

/-- Only the encoding of the key matters. -/
theorem OnlyRecord.of_encodeKey {k k' : Key} {w w' : View} (h : OnlyRecord limits store k w w')
    (heq : encodeKey limits k = encodeKey limits k') : OnlyRecord limits store k' w w' := by
  obtain ⟨hrecords, hentries⟩ := h
  rw [heq] at hrecords hentries
  exact ⟨hrecords, hentries⟩

/-- The keys a value needs to be stored are there. -/
structure Fits (env : CodecEnv) (limits : LimitConfig) (store : StoreMeta) (key : Key)
    (value : ScValue) : Prop where
  key : ∃ pk, encodeKey limits key = .ok pk
  indexes : ∀ index ∈ store.liveIndexes, ∃ keys, indexKeysForValue limits index value = .ok keys
  value : ∃ bytes, encodeScf env limits value = .ok bytes

/-- The entries of one index and one primary key. -/
theorem meets_syncIndex_only (s : σ) (index : IndexMeta) (old : Option ScValue) (new : ScValue)
    (pk : Bytes) :
    Meets (· = s) (syncIndex limits index old new pk)
      (fun _ s' => (view s').records = (view s).records ∧
        (∃ keys, indexKeysForValue limits index new = .ok keys) ∧
        ∀ k, ¬ (k.index = index.id ∧ k.primaryKey = pk) →
          ((view s').entries k ↔ (view s).entries k))
      (fun _ _ => True) := by
  refine ((meets_lift_self s _).mono (fun _ h => h) (fun _ _ h => h) fun _ _ _ => trivial).bind
    fun oldKeys => Meets.of_imp fun _ => ?_
  refine ((meets_lift_self s _).mono (fun _ h => h) (fun _ _ h => h) fun _ _ _ => trivial).bind
    fun newKeys => Meets.of_imp fun hnew => ?_
  refine ((meets_deleteKeys index.id pk _ s).mono (fun _ h => h) (fun _ _ h => h)
    fun _ _ _ => trivial).bind fun _ => meets_of_forall fun s₁ hs₁ => ?_
  obtain ⟨hrecords₁, hentries₁⟩ := hs₁
  refine (meets_putKeys index.id pk index.unique _ s₁).mono (fun _ h => h) (fun _ s₂ hs₂ => ?_)
    fun _ _ _ => trivial
  obtain ⟨hrecords₂, hentries₂, -⟩ := hs₂
  refine ⟨hrecords₂.trans hrecords₁, ⟨newKeys, hnew⟩, fun k hk => ?_⟩
  rw [hentries₂, hentries₁]
  tauto

theorem meets_syncIndexes_only (indexes : List IndexMeta) (s : σ) (old : Option ScValue)
    (new : ScValue) (pk : Bytes) :
    Meets (· = s) (Prog.forEach (fun index => syncIndex limits index old new pk) indexes)
      (fun _ s' => (view s').records = (view s).records ∧
        (∀ index ∈ indexes, ∃ keys, indexKeysForValue limits index new = .ok keys) ∧
        ∀ k, ¬ (k.index ∈ indexes.map IndexMeta.id ∧ k.primaryKey = pk) →
          ((view s').entries k ↔ (view s).entries k))
      (fun _ _ => True) := by
  induction indexes generalizing s with
  | nil => exact meets_pure fun s' hs => by simp [hs]
  | cons index indexes ih =>
      refine (meets_syncIndex_only s index old new pk).bind fun _ =>
        meets_of_forall fun s₁ hs₁ => ?_
      obtain ⟨hrecords₁, hkeys₁, hentries₁⟩ := hs₁
      refine (ih s₁).mono (fun _ h => h) (fun _ s₂ hs₂ => ?_) fun _ _ h => h
      obtain ⟨hrecords₂, hkeys₂, hentries₂⟩ := hs₂
      refine ⟨hrecords₂.trans hrecords₁, ?_, fun k hk => ?_⟩
      · exact List.forall_mem_cons.mpr ⟨hkeys₁, hkeys₂⟩
      · rw [List.map_cons, List.mem_cons] at hk
        rw [hentries₂ k (by tauto), hentries₁ k (by tauto)]

theorem meets_syncIndexesOnPut_only (s : σ) (old : Option ScValue) (new : ScValue) {key : Key}
    {pk : Bytes} (hpk : encodeKey limits key = .ok pk) :
    Meets (· = s) (syncIndexesOnPut limits store old new key)
      (fun _ s' => (view s').records = (view s).records ∧
        (∀ index ∈ store.liveIndexes, ∃ keys, indexKeysForValue limits index new = .ok keys) ∧
        ∀ k, ¬ (k.index ∈ store.liveIndexes.map IndexMeta.id ∧ k.primaryKey = pk) →
          ((view s').entries k ↔ (view s).entries k))
      (fun _ _ => True) := by
  unfold syncIndexesOnPut
  rw [hpk, Prog.lift_ok_bind]
  exact meets_syncIndexes_only store.liveIndexes s old new pk

/-- What a put that succeeds has done, whatever was there before it. -/
structure PutOnce (env : CodecEnv) (limits : LimitConfig) (store : StoreMeta)
    (keygen : KeyGenerator) (value : ScValue) (explicitKey : Option Key)
    (r : PutResult × KeyGenerator × ScValue) (w w' : View) : Prop where
  key : ∃ generated, determineKey store keygen value explicitKey = .ok (r.1.key, generated, r.2.2) ∧
    r.2.1 = generated.possiblyUpdate (keyToF64 r.1.key)
  fits : Fits env limits store r.1.key r.2.2
  only : OnlyRecord limits store r.1.key w w'

/-- A put touches the record of its key. -/
theorem meets_put_once (s : σ) (keygen : KeyGenerator) (value : ScValue) (explicitKey : Option Key)
    (noOverwrite : Bool) :
    Meets (· = s) (put env limits store keygen value explicitKey noOverwrite)
      (fun r s' => PutOnce env limits store keygen value explicitKey r (view s) (view s'))
      (fun _ _ => True) := by
  have hlift {α : Type} (s : σ) (r : Except IdbError α) :
      Meets (· = s) (Prog.lift r) (fun a s' => r = .ok a ∧ s' = s) fun _ _ => True :=
    (meets_lift_self s r).mono (fun _ h => h) (fun _ _ h => h) fun _ _ _ => trivial
  refine (hlift s _).bind fun determined => Meets.of_imp fun hdetermined => ?_
  obtain ⟨key, generated, new⟩ := determined
  refine (hlift s _).bind fun pk => Meets.of_imp fun hpk => ?_
  refine ((LawfulTxn.get s store.id pk).mapErr fun _ _ _ => trivial).bind fun existing => ?_
  rintro s' ⟨rfl, -⟩
  dsimp only
  split
  · exact trivial
  refine (hlift s' _).bind (fun old => Meets.of_imp fun _ => ?_) s' rfl
  refine (meets_syncIndexesOnPut_only s' old new hpk).bind fun _ => meets_of_forall fun t ht => ?_
  obtain ⟨hrecords, hkeys, hentries⟩ := ht
  refine (hlift t _).bind fun bytes => Meets.of_imp fun hbytes => ?_
  refine ((LawfulTxn.put t store.id pk bytes noOverwrite).mapErr fun _ _ _ => trivial).bind
    fun _ u hu => ?_
  refine (((LawfulTxn.keyGenSet u store.id _).mapErr fun _ _ _ => trivial).bind fun _ =>
    meets_pure fun v hv => ?_) u rfl
  rw [hu] at hv
  refine ⟨⟨generated, hdetermined, rfl⟩, ⟨⟨pk, hpk⟩, hkeys, bytes, mapError_ok hbytes⟩, ?_, ?_⟩
  · intro k hk
    have hne : k ≠ ⟨store.id, pk⟩ := by
      rintro rfl
      exact hk ⟨rfl, hpk⟩
    rw [hv, ← hrecords]
    exact Function.update_of_ne hne _ _
  · intro k hk
    rw [hv]
    refine hentries k fun hboth => hk ⟨hboth.1, ?_⟩
    rw [hboth.2]
    exact hpk

/-! ### The key of an update -/

variable {keygen generated : KeyGenerator} {value new : ScValue} {k key : Key}

theorem determineKey_inline (hpath : store.keyPath ≠ .empty)
    (hextract : store.keyPath.extract value = .ok (some k)) :
    determineKey store keygen value none = .ok (k, keygen, value) := by
  rw [determineKey, if_neg hpath, hextract]
  rfl

theorem generate_value {n : F64Bits} (h : keygen.generate = .ok (n, generated)) :
    keygen.current = n := by
  rw [KeyGenerator.generate] at h
  split at h
  · cases h
  · cases h
    rfl

/-- A value without the key takes a generated one. -/
theorem determineKey_absent (hpath : store.keyPath ≠ .empty)
    (hextract : store.keyPath.extract value = .ok none) :
    determineKey store keygen value none = .ok (key, generated, new) ↔
      store.autoIncrement = true ∧ ∃ n, keygen.generate = .ok (n, generated) ∧ key = .number n ∧
        store.keyPath.inject value (.number n) = .ok new := by
  rw [determineKey, if_neg hpath, hextract]
  simp only [Except.mapError, bind, Except.bind]
  constructor
  · intro h
    split at h
    · next hauto =>
        refine ⟨hauto, ?_⟩
        cases hgenerate : keygen.generate with
        | error e =>
            rw [hgenerate] at h
            cases h
        | ok r =>
            rw [hgenerate] at h
            dsimp only at h
            split at h
            · next hinject =>
                cases h
                exact ⟨r.1, rfl, rfl, hinject⟩
            · cases h
    · cases h
  · rintro ⟨hauto, n, hgenerate, rfl, hinject⟩
    rw [if_pos hauto, hgenerate]
    dsimp only
    rw [hinject]

end Engine

namespace Driver

open Engine

/-- The new value lacks the key that its store would generate: the key path of an autoIncrement
store leads to none, and a number that the generator can have takes its place and is stored. -/
structure TakesGenerated (env : CodecEnv) (limits : LimitConfig) (store : StoreMeta)
    (value : ScValue) : Prop where
  inline : store.keyPath ≠ .empty
  generates : store.autoIncrement = true
  absent : store.keyPath.extract value = .ok none
  fits : ∃ n new, F64Bits.partialCmp n KeyGenerator.maxKey ≠ some .gt ∧
    store.keyPath.inject value (.number n) = .ok new ∧ Fits env limits store (.number n) new

section Key

variable {env : CodecEnv} {limits : LimitConfig} {store : StoreMeta} {value : ScValue}
  {primaryKey : Key} {explicitKey : Option Key}

theorem checkInlineKey_ok (h : checkInlineKey store value primaryKey = .ok explicitKey) :
    (store.keyPath = .empty ∧ explicitKey = some primaryKey) ∨
      store.keyPath ≠ .empty ∧ explicitKey = none ∧ (store.keyPath.extract value = .ok none ∨
        ∃ k, store.keyPath.extract value = .ok (some k) ∧ Key.beq k primaryKey = true) := by
  unfold checkInlineKey at h
  split at h
  · next hempty =>
      cases h
      exact .inl ⟨hempty, rfl⟩
  · next hempty =>
      obtain ⟨extracted, hextracted, h⟩ := bind_ok h
      have hextract := mapError_ok hextracted
      cases extracted with
      | none =>
          cases h
          exact .inr ⟨hempty, rfl, .inl hextract⟩
      | some k =>
          dsimp only at h
          split at h
          · next heq =>
              cases h
              exact .inr ⟨hempty, rfl, .inr ⟨k, hextract, heq⟩⟩
          · cases h

/-- Unless a key is generated, the put is one of the cursor's own key. -/
theorem PutOnce.own {keygen : KeyGenerator} {r : PutResult × KeyGenerator × ScValue} {w w' : View}
    (hcheck : checkInlineKey store value primaryKey = .ok explicitKey)
    (h : PutOnce env limits store keygen value explicitKey r w w')
    (hnot : ¬ TakesGenerated env limits store value) :
    encodeKey limits r.1.key = encodeKey limits primaryKey ∧
      r.2.1 = keygen.possiblyUpdate (keyToF64 primaryKey) := by
  obtain ⟨generated, hkey, hmoved⟩ := h.key
  rcases checkInlineKey_ok hcheck with ⟨hempty, rfl⟩ | ⟨hpath, rfl, habsent | ⟨k, hextract, heq⟩⟩
  · rw [determineKey, if_pos hempty] at hkey
    obtain ⟨hk, hrest⟩ := Prod.mk.inj (Except.ok.inj hkey)
    obtain ⟨hgenerator, -⟩ := Prod.mk.inj hrest
    rw [hmoved, ← hk, ← hgenerator]
    exact ⟨rfl, rfl⟩
  · obtain ⟨hauto, n, hgenerate, hn, hinject⟩ := (determineKey_absent hpath habsent).mp hkey
    refine absurd ⟨hpath, hauto, habsent, n, r.2.2, ?_, hinject, hn ▸ h.fits⟩ hnot
    rw [← (generate_value hgenerate)]
    exact generate_ok hgenerate
  · rw [determineKey_inline hpath hextract] at hkey
    obtain ⟨hk, hrest⟩ := Prod.mk.inj (Except.ok.inj hkey)
    obtain ⟨hgenerator, -⟩ := Prod.mk.inj hrest
    rw [hmoved, ← hk, ← hgenerator]
    exact ⟨Key.encodeKey_beq heq, KeyGenerator.possiblyUpdate_beq heq keygen⟩

end Key

section Run

variable {σ : Type} [BackendTxn σ]

/-- The generator of a store as an operation finds it. -/
def TxnHandle.keygenOf (t : TxnHandle σ) (store : StoreId) (base : F64Bits) : KeyGenerator :=
  (t.keygens.get? store).getD (KeyGenerator.new base).beginRequest

omit [BackendTxn σ] in
theorem meets_entry (t : TxnHandle σ) (store : StoreId) (base : F64Bits) :
    Meets (· = t) (TxnHandle.entry store base)
      (fun keygen t' => t'.backend = t.backend ∧ keygen = t.keygenOf store base)
      (fun _ _ => False) := by
  refine meets_read fun t' ht' => ?_
  obtain rfl : t' = t := ht'
  unfold TxnHandle.keygenOf
  split
  · next keygen hkeygen =>
      refine meets_pure ?_
      rintro _ rfl
      exact ⟨rfl, by rw [hkeygen]; rfl⟩
  · next hkeygen =>
      refine Meets.bind (meets_modify ?_) fun _ => meets_pure fun _ h => h
      rintro _ rfl
      exact ⟨rfl, by rw [hkeygen]; rfl⟩

variable [LawfulSavepoints σ] {env : CodecEnv} {limits : LimitConfig} {store : StoreMeta}
  {value : ScValue}

/-- The generator of a put record starts where the transaction has it, and ends where the put
leaves it. -/
theorem meets_putRecord_at {s : OpState σ} {t : TxnHandle σ} {b : σ} (explicitKey : Option Key)
    (noOverwrite : Bool) {post : PutResult × KeyGenerator × ScValue → σ → Prop}
    {halt : Prop} (ht : s.txn = some t) (hb : t.backend = some b)
    (hput : Meets (· = b) (put env limits store
        (t.keygenOf store.id (LawfulSavepoints.generator b store.id)) value explicitKey noOverwrite)
      post (fun _ _ => halt)) :
    Meets (· = s) (putRecord env limits store value explicitKey noOverwrite)
      (fun _ s' => ∃ t' b' r, s'.txn = some t' ∧ t'.backend = some b' ∧ post r b' ∧
        t'.keygens.get? store.id = some r.2.1)
      (fun _ _ => halt) := by
  have hbase : Meets (· = s) (onBackend (keygenBase store))
      (fun r s' => r = LawfulSavepoints.generator b store.id ∧
        s'.txn = some { t with backend := some b }) (fun _ _ => halt) := by
    refine (meets_onBackend ht hb (meets_keygenBase store b)).mono (fun _ h => h) ?_ ?_
    · rintro r s' ⟨b', ⟨rfl, hr⟩, hs'⟩
      exact ⟨hr, hs'⟩
    · rintro _ _ ⟨_, h, -⟩
      exact h.elim
  refine hbase.bind fun base => Meets.of_imp ?_
  rintro rfl
  refine meets_of_forall fun s₁ hs₁ => ?_
  refine ((meets_onHandle hs₁ (meets_entry _ store.id _)).mono (fun _ h => h) (fun _ _ h => h)
    fun _ _ ⟨_, h, _⟩ => h.elim).bind fun keygen => meets_of_forall fun s₂ hs₂ => ?_
  obtain ⟨t₂, ⟨hb₂, rfl⟩, ht₂⟩ := hs₂
  -- the generator of the put is the one in memory, where the transaction has it
  refine ((meets_onBackend ht₂ hb₂ hput).attempt.mono (fun _ h => h) (fun _ _ h => h) ?_).bind
    fun r => meets_of_forall fun s₃ hs₃ => ?_
  · rintro _ s' ⟨-, _, h, -⟩
    exact h
  cases r with
  | error e =>
      obtain ⟨b', hhalt, -⟩ := hs₃
      refine ((meets_self _ s₃).mono (fun _ h => h) (fun _ _ _ => trivial) fun _ _ _ => hhalt).bind
        fun _ => meets_throw fun _ _ => hhalt
  | ok r =>
      obtain ⟨b', hpost, hs₃⟩ := hs₃
      have hset : Meets (· = s₃) (setKeygen store.id r.2.1)
          (fun _ s' => ∃ t', s'.txn = some t' ∧ t'.backend = some b' ∧
            t'.keygens.get? store.id = some r.2.1) (fun _ _ => halt) := by
        refine (meets_onHandle hs₃ (meets_self _ _)).mono (fun _ h => h) ?_ ?_
        · rintro _ s' ⟨t', ht', hs'⟩
          cases ht'
          exact ⟨_, hs', rfl, OrderedMap.get?_insert_self _ _ _⟩
        · rintro e _ ⟨_, h, -⟩
          cases e <;> cases h
      refine hset.bind fun _ => Meets.bind (meets_modify ?_) fun _ => meets_pure fun _ h => h
      rintro s' ⟨t', ht', hb', hkeygen⟩
      refine ⟨{ t' with bytesWritten := t'.bytesWritten + r.1.valueBytes }, b', r, ?_, hb', hpost,
        hkeygen⟩
      show s'.txn.map _ = _
      rw [ht']
      rfl

omit [LawfulSavepoints σ] in
/-- An update through a cursor at a row is a put into the store of its source, once the new value
has passed the check of its key. -/
theorem meets_update {s : OpState σ} {t : TxnHandle σ} {cursorId : ℕ} {cursor : CursorState}
    {row : CursorRow} (requestId : ℕ) {post : OpExec → OpState σ → Prop} {halt : Prop}
    (ht : s.txn = some t) (hcursor : s.cursors.get? cursorId = some cursor)
    (hrow : cursor.current = some row)
    (hstore : findStore t.metadata (storeOf cursor.source) = .ok store)
    (hfinished : t.finished = true → halt)
    (hcheck : ∀ e, checkInlineKey store value row.primaryKey = .error e → halt)
    (hput : ∀ explicitKey, checkInlineKey store value row.primaryKey = .ok explicitKey →
      Meets (· = s) (putRecord env limits store value explicitKey false) post fun _ _ => halt) :
    Meets (· = s) (executeOpInner env limits requestId (.cursorOp cursorId (.update value))) post
      (fun _ _ => halt) := by
  have hmetadata : Meets (· = s) (openMetadata : Prog (OpState σ) IdbError DatabaseMeta)
      (fun m s' => m = t.metadata ∧ s' = s) (fun _ _ => halt) := by
    refine meets_read fun s' hs' => ?_
    obtain rfl : s' = s := hs'
    rw [ht]
    dsimp only
    split
    · next hfin => exact meets_throw fun _ _ => hfinished hfin
    · exact meets_pure fun _ hs => ⟨rfl, hs⟩
  refine hmetadata.bind fun m => Meets.of_imp ?_
  rintro rfl
  have hcurrent : Meets (· = s) (cursorRow cursorId : Prog (OpState σ) IdbError _)
      (fun r s' => r = (cursor.source, row) ∧ s' = s) (fun _ _ => halt) := by
    refine meets_read fun s' hs' => ?_
    obtain rfl : s' = s := hs'
    rw [hcursor]
    dsimp only
    rw [hrow]
    exact meets_pure fun _ hs => ⟨rfl, hs⟩
  refine hcurrent.bind fun r => Meets.of_imp ?_
  rintro rfl
  dsimp only
  rw [hstore, Prog.lift_ok_bind]
  cases hkey : checkInlineKey store value row.primaryKey with
  | error e => exact meets_throw fun _ _ => hcheck e hkey
  | ok explicitKey => exact hput explicitKey hkey

end Run

/-- An update through a cursor, wherever it stands and on whichever backend: if it succeeds, the
views before and behind it differ only in the record at the cursor's primary key and in the
entries of that record, and no key was generated, so that the generator is where an explicit put
of the cursor's key would leave it. -/
def TouchesOne (env : CodecEnv) (limits : LimitConfig) (store : StoreMeta) (value : ScValue) :
    Prop :=
  ∀ (σ : Type) [BackendTxn σ] [LawfulSavepoints σ] (requestId cursorId : ℕ) (s : OpState σ)
    (t : TxnHandle σ) (b : σ) (cursor : CursorState) (row : CursorRow),
    s.txn = some t → t.backend = some b → s.cursors.get? cursorId = some cursor →
    cursor.current = some row → findStore t.metadata (storeOf cursor.source) = .ok store →
    Meets (· = s) (executeOpInner env limits requestId (.cursorOp cursorId (.update value)))
      (fun _ s' => ∃ t' b', s'.txn = some t' ∧ t'.backend = some b' ∧
        OnlyRecord limits store row.primaryKey (view b) (view b') ∧
        t'.keygens.get? store.id =
          some ((t.keygenOf store.id (LawfulSavepoints.generator b store.id)).possiblyUpdate
            (keyToF64 row.primaryKey)))
      (fun _ _ => True)

variable {env : CodecEnv} {limits : LimitConfig} {store : StoreMeta} {value : ScValue}

theorem touchesOne_of_not (hnot : ¬ TakesGenerated env limits store value) :
    TouchesOne env limits store value := by
  intro σ _ _ requestId cursorId s t b cursor row ht hb hcursor hrow hstore
  refine meets_update requestId ht hcursor hrow hstore (fun _ => trivial) (fun _ _ => trivial) ?_
  intro explicitKey hcheck
  refine (meets_putRecord_at explicitKey false ht hb
    (meets_put_once b _ value explicitKey false)).mono
    (fun _ h => h) ?_ fun _ _ h => h
  rintro _ s' ⟨t', b', r, ht', hb', honce, hkeygen⟩
  obtain ⟨hkey, hmoved⟩ := PutOnce.own hcheck honce hnot
  refine ⟨t', b', ht', hb', honce.only.of_encodeKey hkey, ?_⟩
  rw [hkeygen, hmoved]

/-- The first transaction of a database with one store, whose generator has a given value. -/
def firstTxn (store : StoreMeta) (n : F64Bits) : TxnHandle Memory.Session where
  finished := false
  metadata := { emptyMeta [] with stores := [store] }
  backend := some .first
  keygens := OrderedMap.empty.insert store.id (.new n)
  bytesRead := 0
  bytesWritten := 0

/-- A cursor of the store at a row whose key is the empty string. -/
def emptyStringCursor (store : StoreMeta) : CursorState where
  cursorId := 0
  requestId := 0
  source := .store store.id
  direction := .next
  keyOnly := false
  rows := [⟨.string [], .string [], none⟩]
  pos := 0
  pending := false

def atEmptyString (store : StoreMeta) (n : F64Bits) : OpState Memory.Session :=
  ⟨some (firstTxn store n), OrderedMap.empty.insert 0 (emptyStringCursor store), 1⟩

theorem not_touchesOne (h : TakesGenerated env limits store value) :
    ¬ TouchesOne env limits store value := by
  obtain ⟨hpath, hauto, habsent, n, new, hn, hinject, ⟨pk, hpk⟩, hindexes, bytes, hbytes⟩ := h
  intro htouches
  have hkeygen (base : F64Bits) : (firstTxn store n).keygenOf store.id base = .new n := by
    rw [TxnHandle.keygenOf, firstTxn, OrderedMap.get?_insert_self]
    rfl
  have hcheck : checkInlineKey store value (.string []) = .ok none := by
    rw [checkInlineKey, if_neg hpath, habsent]
    rfl
  have hstore : findStore (firstTxn store n).metadata (storeOf (emptyStringCursor store).source) =
      .ok store := by
    show findStore { emptyMeta [] with stores := [store] } store.id = .ok store
    simp [findStore]
  have hkey : determineKey store (.new n) value none =
      .ok (.number n, ⟨F64Bits.plusOne n, []⟩, new) :=
    (determineKey_absent hpath habsent).mpr ⟨hauto, n, if_neg hn, rfl, hinject⟩
  have hput : Meets (· = Memory.Session.first) (put env limits store ((firstTxn store n).keygenOf
      store.id (LawfulSavepoints.generator Memory.Session.first store.id)) value none false)
      (fun _ s' => (view s').records ⟨store.id, pk⟩ = some bytes) (fun _ _ => False) := by
    rw [hkeygen]
    exact (Memory.meets_put_first false hkey hpk hindexes hbytes).mono (fun _ h => h)
      (fun _ _ h => h.2) fun _ _ h => h
  -- the update succeeds, and the generated key has a record behind it
  have hlands : Meets (· = atEmptyString store n)
      (executeOpInner env limits 0 (.cursorOp 0 (.update value)))
      (fun _ s' => ∃ t' b', s'.txn = some t' ∧ t'.backend = some b' ∧
        (view b').records ⟨store.id, pk⟩ = some bytes) (fun _ _ => False) := by
    refine meets_update 0 rfl rfl rfl hstore (fun h => by cases h) (fun e he => ?_) ?_
    · cases hcheck.symm.trans he
    intro explicitKey hok
    obtain rfl : none = explicitKey := Except.ok.inj (hcheck.symm.trans hok)
    refine (meets_putRecord_at none false rfl rfl hput).mono (fun _ h => h) ?_ fun _ _ h => h
    rintro _ s' ⟨t', b', r, ht', hb', hrecord, -⟩
    exact ⟨t', b', ht', hb', hrecord⟩
  have hends := (htouches Memory.Session 0 0 (atEmptyString store n) _ _ _ _ rfl rfl rfl rfl
    hstore).and hlands _ rfl
  rcases hrun : executeOpInner env limits 0 (.cursorOp 0 (.update value)) (atEmptyString store n)
    with ⟨_ | _ | _, s'⟩
  all_goals rw [hrun] at hends
  · obtain ⟨⟨t₁, b₁, ht₁, hb₁, honly, -⟩, t₂, b₂, ht₂, hb₂, hrecord⟩ := hends
    cases ht₁.symm.trans ht₂
    cases hb₁.symm.trans hb₂
    have hother : (view b₁).records ⟨store.id, pk⟩ =
        (view Memory.Session.first).records ⟨store.id, pk⟩ := by
      refine honly.records _ fun hsame => ?_
      have hcode := (Key.encodeKey_eq (mapError_ok hpk)).2.symm.trans
        (Key.encodeKey_eq (mapError_ok hsame.2)).2
      rw [Key.code, Key.code] at hcode
      cases (List.cons.inj hcode).1
    rw [hrecord, Memory.Session.records_first] at hother
    cases hother
  · exact hends.2
  · exact hends.2

/-- **A cursor update touches one record and generates no key**, on every backend and wherever the
cursor stands, exactly for the stores and values where no key has to be generated. -/
theorem touchesOne_iff :
    TouchesOne env limits store value ↔ ¬ TakesGenerated env limits store value :=
  ⟨fun h ht => not_touchesOne ht h, touchesOne_of_not⟩

/-- A store with the key path `k` and a key generator. -/
def numbered : StoreMeta := ⟨0, [0x73], .single [0x6B], true, keyGenStart, [], false⟩

/-- Updated with an object without the key `k`, a record stays and another one is made. -/
theorem update_generates :
    ¬ ∀ (store : StoreMeta) (value : ScValue), TouchesOne standardEnv {} store value := by
  intro h
  refine not_touchesOne ?_ (h numbered (.object []))
  exact ⟨(fun hpath => by cases hpath), rfl, rfl, keyGenStart,
    .object [([0x6B], .number keyGenStart)], by decide, rfl, ⟨_, rfl⟩,
      (fun _ hindex => by cases hindex),
    _, rfl⟩

end Driver

end BoaIdb
