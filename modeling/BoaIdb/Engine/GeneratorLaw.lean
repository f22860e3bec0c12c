import BoaIdb.Core.FloatValue
import BoaIdb.Driver.ExecuteOp
import BoaIdb.Engine.Conflicts
import BoaIdb.Lib.Run
import BoaIdb.Memory.FirstPut

/-!
The law of a key generator, over the exact values of its numbers.

The generator is a whole number from 1 to `2 ^ 53`. A put moves it past a key that is not below
it; but it takes a date for the number of its milliseconds.
-/

namespace BoaIdb

open Clone Faults Runs

/-! ### Arithmetic of the generator -/

namespace F64Bits

/-- The integer below a double is the floor of its value. -/
theorem floorInt_eq (x : F64Bits) : floorInt x = ⌊value x⌋ := by
  rw [value_eq, floorInt]
  split
  · next hlarge =>
      have hplaces : unitPlaces ≤ scale x - 1 := by
        rw [unitPlaces]
        omega
      have hunits : scale x - 1 - unitPlaces = scale x - 1075 := by
        rw [unitPlaces]
        omega
      rw [units_large hplaces, hunits, truncated, if_pos hlarge]
      split
      · have hcast (m : ℕ) : -(m : ℚ) = ((-(m : ℤ) : ℤ) : ℚ) := by push_cast; rfl
        rw [hcast, Int.floor_intCast]
      · rw [Int.floor_natCast]
  · next hsmall =>
      have hone : 1 ≤ scale x := Nat.le_max_right _ _
      have hplaces : scale x - 1 ≤ unitPlaces := by
        rw [unitPlaces]
        omega
      have hunits : unitPlaces - (scale x - 1) = 1075 - scale x := by
        rw [unitPlaces]
        omega
      rw [units_small hplaces, hunits]
      dsimp only
      split
      · exact (floor_neg_div _ (Nat.two_pow_pos _)).symm
      · have hfloor := Rat.floor_intCast_div_natCast (significand x) (2 ^ (1075 - scale x))
        rw [Int.cast_natCast] at hfloor
        rw [hfloor]
        rfl

theorem value_zero : value 0 = 0 := by
  have hsigned : signedUnits 0 = 0 := by decide
  rw [value, hsigned, Int.cast_zero, zero_div]

theorem ofNatBits_double {a : ℕ} (ha : 0 < a) (h : 2 * a ≤ 2 ^ 53) :
    ofNatBits (2 * a) = ofNatBits a + 2 ^ 52 := by
  rcases Nat.lt_or_eq_of_le h with hlt | heq
  · obtain ⟨-, -, hone⟩ := ofNatBits_eq (by omega) (show a < 2 ^ 53 by omega)
    obtain ⟨-, -, htwo⟩ := ofNatBits_eq (by omega) hlt
    have htop : Nat.log2 (2 * a) ≤ 52 := Nat.lt_succ_iff.mp ((Nat.log2_lt (by omega)).mpr hlt)
    rw [Nat.log2_two_mul (by omega)] at htwo htop
    have hfraction : 2 * a * 2 ^ (52 - (Nat.log2 a + 1)) = a * 2 ^ (52 - Nat.log2 a) := by
      have hplace : 52 - Nat.log2 a = 52 - (Nat.log2 a + 1) + 1 := by omega
      rw [hplace, Nat.pow_succ]
      ring
    rw [hone, htwo, hfraction]
    ring
  · obtain rfl : a = 2 ^ 52 := by omega
    decide

/-- A significand that is shifted raises the exponent. -/
theorem ofNatBits_shift {a : ℕ} (ha : 0 < a) {k : ℕ} (h : a * 2 ^ k ≤ 2 ^ 53) :
    ofNatBits (a * 2 ^ k) = ofNatBits a + k * 2 ^ 52 := by
  induction k with
  | zero => simp
  | succ k ih =>
      have hstep : a * 2 ^ (k + 1) = 2 * (a * 2 ^ k) := by ring
      have hpos : 0 < a * 2 ^ k := Nat.mul_pos ha (Nat.two_pow_pos k)
      rw [hstep] at h
      rw [hstep, ofNatBits_double hpos h, ih (by omega)]
      ring

/-- The successor of an integer below `2 ^ 53` is exact. -/
theorem plusOne_ofInt {n : ℕ} (hpos : 0 < n) (h : n < 2 ^ 53) :
    plusOne (ofInt n) = ofInt (n + 1) := by
  obtain ⟨hf, hleast, hbits⟩ := ofNatBits_eq (by omega) h
  have htop : Nat.log2 n ≤ 52 := Nat.lt_succ_iff.mp ((Nat.log2_lt (by omega)).mpr h)
  -- the significand is `n * 2 ^ k`, so that its leading bit stands at place 52
  obtain ⟨k, hplace⟩ : ∃ k, Nat.log2 n + k = 52 := ⟨52 - Nat.log2 n, by omega⟩
  have hk : 52 - Nat.log2 n = k := by omega
  have hshift : 1075 - (Nat.log2 n + 1023) = k := by omega
  have hwhole : Nat.log2 n + 1023 - 1075 = 0 :=
    Nat.sub_eq_zero_of_le (Nat.add_le_add_right htop 1023)
  have htotal : Nat.log2 n + 1 + k = 53 := by omega
  rw [hk] at hf hleast hbits
  have hofInt (m : ℕ) : ofInt m = UInt64.ofNat (ofNatBits m) := by
    rw [ofInt, if_neg (by omega), Int.natAbs_natCast]
  have htoNat : (ofInt n).toNat = (Nat.log2 n + 1023) * 2 ^ 52 + (n * 2 ^ k - 2 ^ 52) := by
    rw [hofInt, hbits, UInt64.toNat_ofNat']
    omega
  have hmagnitude : magnitude (ofInt n) = (Nat.log2 n + 1023) * 2 ^ 52 + (n * 2 ^ k - 2 ^ 52) := by
    rw [magnitude, htoNat]
    omega
  have hexponent : exponentBits (ofInt n) = Nat.log2 n + 1023 := by
    rw [exponentBits, hmagnitude]
    omega
  have hsignificand : significand (ofInt n) = n * 2 ^ k := by
    rw [significand, hexponent, if_neg (by omega), hmagnitude]
    omega
  have hscale : scale (ofInt n) = Nat.log2 n + 1023 := by
    rw [scale, hexponent]
    omega
  have hpositive : isNegative (ofInt n) = false := by
    rw [isNegative, htoNat, decide_eq_false_iff_not]
    omega
  have hsum : (n * 2 ^ k : ℕ) + (2 : ℤ) ^ k = ((n + 1) * 2 ^ k : ℕ) := by
    push_cast
    ring
  have hmost : (n + 1) * 2 ^ k ≤ 2 ^ 53 := by
    calc (n + 1) * 2 ^ k ≤ 2 ^ (Nat.log2 n + 1) * 2 ^ k := Nat.mul_le_mul_right _ Nat.lt_log2_self
      _ = 2 ^ 53 := by rw [← Nat.pow_add, htotal]
  have hnonzero : 0 < (n + 1) * 2 ^ k := Nat.mul_pos (Nat.succ_pos n) (Nat.two_pow_pos k)
  have hfinite : ¬ exponentBits (ofInt n) = 2047 := by
    rw [hexponent]
    omega
  rw [plusOne, if_neg hfinite, hscale, hsignificand, hpositive, hshift, hwhole]
  have hvalue : (if false = true then -((n * 2 ^ k : ℕ) * 2 ^ 0 : ℤ) else (n * 2 ^ k : ℕ) * 2 ^ 0) +
      2 ^ k = (((n + 1) * 2 ^ k : ℕ) : ℤ) := by
    rw [if_neg Bool.false_ne_true, pow_zero, mul_one, hsum]
  dsimp only
  rw [hvalue, if_neg (by omega), if_neg (by omega), Int.natAbs_natCast, Nat.zero_add,
    ofNatBits_shift (Nat.succ_pos n) hmost, Nat.add_sub_cancel]
  exact (hofInt (n + 1)).symm

end F64Bits

open F64Bits

namespace KeyGenerator

variable {g : KeyGenerator} {n : ℕ} {x : F64Bits}

theorem value_maxKey : value maxKey = 2 ^ 53 - 1 ∧ isFinite maxKey = true := by
  have hbits : maxKey = ofInt (2 ^ 53 - 1 : ℕ) := by decide
  obtain ⟨hvalue, hfinite⟩ := @value_ofInt (2 ^ 53 - 1) (Nat.sub_le _ _)
  rw [hbits]
  refine ⟨hvalue.trans ?_, hfinite⟩
  norm_num

theorem generate_below (hpos : 0 < n) (h : n < 2 ^ 53) (hcurrent : g.current = ofInt n) :
    g.generate = .ok (ofInt n, { g with current := ofInt (n + 1) }) := by
  obtain ⟨hvalue, hfinite⟩ := value_ofInt h.le
  have hle : ¬ value maxKey < value (ofInt n) := by
    have hcast : (n : ℚ) + 1 ≤ 2 ^ 53 := by exact_mod_cast h
    rw [value_maxKey.1, hvalue]
    linarith
  rw [generate, hcurrent, if_neg (mt (gt_iff hfinite value_maxKey.2).mp hle), plusOne_ofInt hpos h]

theorem generate_exhausted (hcurrent : g.current = ofInt (2 ^ 53 : ℕ)) :
    g.generate = .error (.constraint "Key generator overflow: maximum value reached") := by
  obtain ⟨hvalue, hfinite⟩ := @value_ofInt (2 ^ 53) (le_refl _)
  have hgt : value maxKey < value (ofInt (2 ^ 53 : ℕ)) := by
    rw [value_maxKey.1, hvalue]
    norm_num
  rw [generate, hcurrent, if_pos ((gt_iff hfinite value_maxKey.2).mpr hgt)]

variable (hcurrent : g.current = ofInt n) (hn : n ≤ 2 ^ 53) (hx : isFinite x = true)

include hcurrent hn hx

theorem possiblyUpdate_below (h : value x < n) : g.possiblyUpdate x = g := by
  obtain ⟨hvalue, hfinite⟩ := value_ofInt hn
  have hlt : ¬ value (ofInt n) ≤ value x := by
    rw [hvalue]
    exact not_le.mpr h
  rw [possiblyUpdate, hcurrent, if_neg (mt (leF64_iff hfinite hx).mp hlt)]

theorem possiblyUpdate_past (h : n ≤ value x) :
    g.possiblyUpdate x = { g with current := ofInt (⌊value x⌋ + 1) } := by
  obtain ⟨hvalue, hfinite⟩ := value_ofInt hn
  have hle : value (ofInt n) ≤ value x := by
    rw [hvalue]
    exact h
  have hexponent : exponentBits x ≠ 2047 := of_decide_eq_true hx
  rw [possiblyUpdate, hcurrent, if_pos ((leF64_iff hfinite hx).mpr hle), floorPlusOne,
    if_neg hexponent, floorInt_eq]

omit hcurrent hn hx

/-- Where a stored number takes the generator. -/
inductive Moved (v : ℚ) (n n' : ℕ) : Prop
  | below (h : v < n) (hsame : n' = n)
  | past (h : n ≤ v) (hlast : v < 2 ^ 53) (hnext : (n' : ℤ) = ⌊v⌋ + 1)
  /-- The sum is rounded down. -/
  | last (h : v = 2 ^ 53) (hend : n' = 2 ^ 53)

theorem Moved.le {v : ℚ} {n n' : ℕ} (h : Moved v n n') (hn : n ≤ 2 ^ 53) :
    n ≤ n' ∧ n' ≤ 2 ^ 53 := by
  cases h with
  | below h hsame => exact ⟨hsame.ge, hsame ▸ hn⟩
  | past h hlast hnext =>
      have hfloor : (n : ℤ) ≤ ⌊v⌋ := Int.le_floor.mpr (by exact_mod_cast h)
      have hlast' : ⌊v⌋ < 2 ^ 53 := Int.floor_lt.mpr (by exact_mod_cast hlast)
      omega
  | last h hend => exact ⟨hend ▸ hn, hend.le⟩

/-- The generator is past the number, or at its end. -/
theorem Moved.lt {v : ℚ} {n n' : ℕ} (h : Moved v n n') : v < n' ∨ n' = 2 ^ 53 := by
  cases h with
  | below h hsame => exact .inl (hsame ▸ h)
  | past h hlast hnext =>
      have hcast : (n' : ℚ) = ⌊v⌋ + 1 := by exact_mod_cast hnext
      rw [hcast]
      exact .inl (Int.lt_floor_add_one v)
  | last h hend => exact .inr hend

theorem possiblyUpdate_moved (hcurrent : g.current = ofInt n) (hn : n ≤ 2 ^ 53)
    (hx : isFinite x = true) (hmost : value x ≤ 2 ^ 53) :
    ∃ n' : ℕ, Moved (value x) n n' ∧ g.possiblyUpdate x = { g with current := ofInt n' } := by
  rcases lt_or_ge (value x) n with hlt | hge
  · refine ⟨n, .below hlt rfl, ?_⟩
    rw [possiblyUpdate_below hcurrent hn hx hlt, ← hcurrent]
  have hpast := possiblyUpdate_past hcurrent hn hx hge
  rcases lt_or_eq_of_le hmost with hlast | hend
  · have hnonneg : 0 ≤ ⌊value x⌋ := Int.floor_nonneg.mpr (le_trans (Nat.cast_nonneg n) hge)
    have hnext : ((⌊value x⌋ + 1).toNat : ℤ) = ⌊value x⌋ + 1 := Int.toNat_of_nonneg (by omega)
    refine ⟨(⌊value x⌋ + 1).toNat, .past hge hlast hnext, ?_⟩
    rw [hpast, hnext]
  · have hfloor : ⌊value x⌋ = 2 ^ 53 := by
      rw [hend]
      exact Int.floor_natCast (2 ^ 53)
    have hround : ofInt (2 ^ 53 + 1) = ofInt (2 ^ 53 : ℕ) := by decide
    refine ⟨2 ^ 53, .last hend rfl, ?_⟩
    rw [hpast, hfloor, hround]

end KeyGenerator

/-! ### One put -/

namespace Engine

section Put

variable {σ : Type} [BackendTxn σ] (env : CodecEnv) (limits : LimitConfig) (store : StoreMeta)

/-- A put up to the record: what is left is to save the generator. -/
def putRecorded (keygen : KeyGenerator) (value : ScValue) (explicitKey : Option Key)
    (noOverwrite : Bool) : Prog σ IdbError (PutResult × KeyGenerator × ScValue) := do
  let (key, keygen, value) ← Prog.lift (determineKey store keygen value explicitKey)
  let encoded ← Prog.lift (encodeKey limits key)
  let existing ← (BackendTxn.get store.id encoded).mapErr backendErr
  if noOverwrite && existing.isSome then
    Prog.throw (.constraint ("Record with key " ++ debugKey key ++ " already exists"))
  else
    let oldValue ← Prog.lift (oldValueOf env limits key existing)
    syncIndexesOnPut limits store oldValue value key
    let encodedValue ← Prog.lift ((encodeScf env limits value).mapError fun e =>
      IdbError.dataClone ("Failed to encode value: " ++ e.text))
    (BackendTxn.put store.id encoded encodedValue noOverwrite).mapErr backendErr
    pure (⟨key, existing.isNone, encodedValue.length⟩, keygen.possiblyUpdate (keyToF64 key), value)

theorem put_eq (keygen : KeyGenerator) (value : ScValue) (explicitKey : Option Key)
    (noOverwrite : Bool) :
    (put env limits store keygen value explicitKey noOverwrite : Prog σ IdbError _) =
      putRecorded env limits store keygen value explicitKey noOverwrite >>= fun r =>
        (BackendTxn.keyGenSet store.id r.2.1.current).mapErr backendErr >>= fun _ => pure r := by
  unfold put putRecorded
  rw [Prog.bind_assoc]
  refine congrArg _ (funext fun determined => ?_)
  obtain ⟨key, generated, new⟩ := determined
  dsimp only
  rw [Prog.bind_assoc]
  refine congrArg _ (funext fun encoded => ?_)
  rw [Prog.bind_assoc]
  refine congrArg _ (funext fun existing => ?_)
  split
  · rfl
  · simp only [Prog.bind_assoc]
    rfl

/-- The put writes its record. -/
def recorded (keygen : KeyGenerator) (value : ScValue) (explicitKey : Option Key)
    (noOverwrite : Bool) (s : σ) : Bool :=
  match (putRecorded env limits store keygen value explicitKey noOverwrite s).1 with
  | .done _ => true
  | _ => false

/-- The generator behind a put, whatever comes of it. -/
def generatorAfter (keygen : KeyGenerator) (value : ScValue) (explicitKey : Option Key)
    (noOverwrite : Bool) (s : σ) : KeyGenerator :=
  match (putRecorded env limits store keygen value explicitKey noOverwrite s).1 with
  | .done r => r.2.1
  | _ => generatorBehind store keygen value explicitKey

/-- Where the key of a put into an auto-increment store comes from. -/
inductive KeySource
  | given (key : Key)
  | generated
  /-- The value has something else under the key path. -/
  | invalid

def keySource (value : ScValue) : Option Key → KeySource
  | some key => .given key
  | none =>
      if store.keyPath = .empty then .generated
      else match store.keyPath.extract value with
        | .ok (some key) => .given key
        | .ok none => .generated
        | .error _ => .invalid

variable {env limits store} {keygen generated : KeyGenerator} {value : ScValue}
  {explicitKey : Option Key} {noOverwrite : Bool} {key : Key} {s : σ}

theorem putRecorded_done {s' : σ} {r : PutResult × KeyGenerator × ScValue}
    (h : putRecorded env limits store keygen value explicitKey noOverwrite s = (.done r, s')) :
    ∃ generated, determineKey store keygen value explicitKey = .ok (r.1.key, generated, r.2.2) ∧
      r.2.1 = generated.possiblyUpdate (keyToF64 r.1.key) := by
  obtain ⟨determined, t, hlift, h⟩ := Prog.of_bind_done h
  obtain ⟨key, generated, new⟩ := determined
  have hdetermined : determineKey store keygen value explicitKey = .ok (key, generated, new) := by
    cases hkey : determineKey store keygen value explicitKey with
    | error e =>
        rw [hkey] at hlift
        cases hlift
    | ok r =>
        rw [hkey] at hlift
        cases hlift
        rfl
  obtain ⟨pk, t₁, -, h⟩ := Prog.of_bind_done h
  obtain ⟨existing, t₂, -, h⟩ := Prog.of_bind_done h
  split at h
  · cases h
  · obtain ⟨old, t₃, -, h⟩ := Prog.of_bind_done h
    obtain ⟨_, t₄, -, h⟩ := Prog.of_bind_done h
    obtain ⟨bytes, t₅, -, h⟩ := Prog.of_bind_done h
    obtain ⟨_, t₆, -, h⟩ := Prog.of_bind_done h
    obtain rfl := Exit.done.inj (congrArg Prod.fst h)
    exact ⟨generated, hdetermined, rfl⟩

theorem determineKey_given (h : keySource store value explicitKey = .given key) :
    generatorBehind store keygen value explicitKey = keygen ∧
      ∀ r, determineKey store keygen value explicitKey = .ok r → r.1 = key ∧ r.2.1 = keygen := by
  unfold keySource at h
  unfold generatorBehind determineKey
  cases explicitKey with
  | some k =>
      cases h
      refine ⟨rfl, fun r hr => ?_⟩
      dsimp only at hr
      split at hr
      · cases hr
        exact ⟨rfl, rfl⟩
      · cases hr
  | none =>
      dsimp only at h ⊢
      split at h
      · cases h
      · next hpath =>
          split at h
          · next k hextract =>
              cases h
              rw [hextract, if_neg hpath, decide_eq_false hpath, Bool.and_false]
              refine ⟨rfl, fun r hr => ?_⟩
              cases hr
              exact ⟨rfl, rfl⟩
          · cases h
          · cases h

theorem generatorBehind_generated (hauto : store.autoIncrement = true)
    (h : keySource store value explicitKey = .generated) :
    generatorBehind store keygen value explicitKey =
      match keygen.generate with
      | .ok (_, generated) => generated
      | .error _ => keygen := by
  unfold keySource at h
  unfold generatorBehind
  cases explicitKey with
  | some k => cases h
  | none =>
      dsimp only at h
      rw [hauto]
      cases hextract : store.keyPath.extract value with
      | error e =>
          rw [hextract] at h
          split at h
          · next hpath => rw [decide_eq_true hpath]; rfl
          · cases h
      | ok found =>
          cases found with
          | none => rfl
          | some k =>
              rw [hextract] at h
              split at h
              · next hpath => rw [decide_eq_true hpath]; rfl
              · cases h

theorem determineKey_generated (hauto : store.autoIncrement = true)
    (h : keySource store value explicitKey = .generated) :
    (∀ x generated, keygen.generate = .ok (x, generated) →
      ∀ r, determineKey store keygen value explicitKey = .ok r →
        r.1 = .number x ∧ r.2.1 = generated) ∧
    ∀ e, keygen.generate = .error e →
      determineKey store keygen value explicitKey = .error e := by
  unfold keySource at h
  unfold determineKey
  cases explicitKey with
  | some k => cases h
  | none =>
      dsimp only at h ⊢
      split at h
      · next hpath =>
          rw [if_pos hpath, if_pos hauto]
          refine ⟨fun x generated hgenerate r hr => ?_, fun e hgenerate => ?_⟩
          · rw [hgenerate] at hr
            cases hr
            exact ⟨rfl, rfl⟩
          · rw [hgenerate]
            rfl
      · next hpath =>
          split at h
          · cases h
          · next hextract =>
              rw [hextract, if_neg hpath, hauto]
              refine ⟨fun x generated hgenerate r hr => ?_, fun e hgenerate => ?_⟩
              · rw [hgenerate] at hr
                simp only [Except.mapError, bind, Except.bind, if_true] at hr
                split at hr
                · cases hr
                  exact ⟨rfl, rfl⟩
                · cases hr
              · rw [hgenerate]
                rfl
          · cases h

theorem generatorAfter_given (h : keySource store value explicitKey = .given key) :
    generatorAfter env limits store keygen value explicitKey noOverwrite s =
      if recorded env limits store keygen value explicitKey noOverwrite s then
        keygen.possiblyUpdate (keyToF64 key)
      else keygen := by
  obtain ⟨hbehind, hkey⟩ := @determineKey_given store keygen _ _ _ h
  rw [generatorAfter, recorded]
  split
  · next r hrecorded =>
      obtain ⟨generated, hdetermined, hmoved⟩ := putRecorded_done (Prod.ext hrecorded rfl)
      obtain ⟨hsame, hkept⟩ := hkey _ hdetermined
      dsimp only at hsame hkept
      rw [if_pos rfl, hmoved, hsame, hkept]
  · rw [if_neg Bool.false_ne_true, hbehind]

theorem generatorAfter_generated (hauto : store.autoIncrement = true)
    (h : keySource store value explicitKey = .generated) {x : F64Bits}
    (hgenerate : keygen.generate = .ok (x, generated)) :
    generatorAfter env limits store keygen value explicitKey noOverwrite s =
      if recorded env limits store keygen value explicitKey noOverwrite s then
        generated.possiblyUpdate x
      else generated := by
  rw [generatorAfter, recorded]
  split
  · next r hrecorded =>
      obtain ⟨generated', hdetermined, hmoved⟩ := putRecorded_done (Prod.ext hrecorded rfl)
      obtain ⟨hsame, hkept⟩ :=
        (determineKey_generated hauto h).1 x generated hgenerate _ hdetermined
      dsimp only at hsame hkept
      rw [if_pos rfl, hmoved, hsame, hkept]
      rfl
  · rw [if_neg Bool.false_ne_true, generatorBehind_generated hauto h, hgenerate]

theorem determineKey_invalid (h : keySource store value explicitKey = .invalid) :
    generatorBehind store keygen value explicitKey = keygen ∧
      ∃ e, determineKey store keygen value explicitKey = .error e := by
  unfold keySource at h
  unfold generatorBehind determineKey
  cases explicitKey with
  | some k => cases h
  | none =>
      dsimp only at h ⊢
      split at h
      · cases h
      · next hpath =>
          split at h
          · cases h
          · cases h
          · next e hextract =>
              rw [hextract, if_neg hpath, decide_eq_false hpath, Bool.and_false]
              exact ⟨rfl, _, rfl⟩

theorem generatorAfter_none {e : IdbError}
    (hdetermined : determineKey store keygen value explicitKey = .error e) :
    generatorAfter env limits store keygen value explicitKey noOverwrite s =
      generatorBehind store keygen value explicitKey := by
  rw [generatorAfter]
  split
  · next r hrecorded =>
      obtain ⟨_, hdone, -⟩ := putRecorded_done (Prod.ext hrecorded rfl)
      cases hdetermined.symm.trans hdone
  · rfl

end Put

/-! ### Runs of puts -/

/-- A generator with the number keys that were put or generated so far; what a rollback undoes
is no longer among them. -/
structure GeneratorWorld where
  keygen : KeyGenerator
  keys : List F64Bits
  /-- The keys at the start of each open request. -/
  saved : List (List F64Bits)

/-- A put into whatever the backend holds by then, or a savepoint of the generator. -/
inductive GeneratorEvent (σ : Type)
  | put (s : σ) (value : ScValue) (explicitKey : Option Key) (noOverwrite : Bool)
  | beginRequest
  | commitRequest
  | rollbackRequest

namespace GeneratorWorld

def start (initial : F64Bits) : GeneratorWorld := ⟨.new initial, [], []⟩

section Step

variable {σ : Type} [BackendTxn σ] (env : CodecEnv) (limits : LimitConfig) (store : StoreMeta)
  (w : GeneratorWorld)

/-- The number key that a put adds to the keys. -/
def newKey (s : σ) (value : ScValue) (explicitKey : Option Key) (noOverwrite : Bool) :
    Option F64Bits :=
  match keySource store value explicitKey with
  | .given (.number x) =>
      if recorded env limits store w.keygen value explicitKey noOverwrite s then some x else none
  | .given _ => none
  | .generated => w.keygen.generate.toOption.map Prod.fst
  | .invalid => none

def next : GeneratorEvent σ → GeneratorWorld
  | .put s value explicitKey noOverwrite =>
      ⟨generatorAfter env limits store w.keygen value explicitKey noOverwrite s,
        (newKey env limits store w s value explicitKey noOverwrite).toList ++ w.keys, w.saved⟩
  | .beginRequest => ⟨w.keygen.beginRequest, w.keys, w.keys :: w.saved⟩
  | .commitRequest =>
      match w.keygen.commitRequest with
      | .ok keygen => ⟨keygen, w.keys, w.saved.tail⟩
      | .error _ => w
  | .rollbackRequest =>
      match w.keygen.rollbackRequest with
      | .ok keygen => ⟨keygen, w.saved.headD [], w.saved.tail⟩
      | .error _ => w

/-! ### The law -/

/-- Where a given key is to move the generator. -/
def pushed (current : ℚ) : Key → ℚ
  | .number x => if current ≤ F64Bits.value x then ⌊F64Bits.value x⌋ + 1 else current
  | _ => current

/-- The largest value of the generator that is still a key. -/
def lastKey : ℚ := 2 ^ 53 - 1

/-- What the law says of a put. -/
structure LawfulPut (s : σ) (value : ScValue) (explicitKey : Option Key) (noOverwrite : Bool) :
    Prop where
  /-- Only a given number moves the generator, past itself; a put without a record leaves it. -/
  given : ∀ key, keySource store value explicitKey = .given key →
    F64Bits.value (next env limits store w (.put s value explicitKey noOverwrite)).keygen.current =
      if recorded env limits store w.keygen value explicitKey noOverwrite s then
        pushed (F64Bits.value w.keygen.current) key
      else F64Bits.value w.keygen.current
  increases : F64Bits.value w.keygen.current ≤
    F64Bits.value (next env limits store w (.put s value explicitKey noOverwrite)).keygen.current
  /-- A generated key is a new integer. -/
  generated : keySource store value explicitKey = .generated →
    ∀ x keygen, w.keygen.generate = .ok (x, keygen) →
      (∃ m : ℤ, F64Bits.value x = m) ∧ ∀ y ∈ w.keys, F64Bits.value y < F64Bits.value x
  /-- It is the key of the record. -/
  stored : keySource store value explicitKey = .generated → ∀ r s',
    put env limits store w.keygen value explicitKey noOverwrite s = (.done r, s') →
      ∃ x keygen, w.keygen.generate = .ok (x, keygen) ∧ r.1.key = .number x
  /-- Past its last key the generator fails, and it stays there. -/
  exhausted : lastKey < F64Bits.value w.keygen.current →
    (keySource store value explicitKey = .generated → ∃ msg,
      (put env limits store w.keygen value explicitKey noOverwrite s).1 =
        .failed (.constraint msg)) ∧
    lastKey < F64Bits.value
      (next env limits store w (.put s value explicitKey noOverwrite)).keygen.current

/-- What the law says of an event; a rollback may do what it likes. -/
def Lawful : GeneratorEvent σ → Prop
  | .put s value explicitKey noOverwrite =>
      LawfulPut env limits store w s value explicitKey noOverwrite
  | .rollbackRequest => True
  | a => F64Bits.value (next env limits store w a).keygen.current =
      F64Bits.value w.keygen.current

/-- The numbers of a key are whole or fractional up to `2 ^ 53`. -/
def ExactKey : Key → Prop
  | .number x => F64Bits.isFinite x = true ∧ |F64Bits.value x| ≤ 2 ^ 53
  | .date x => F64Bits.isFinite x = true ∧ |F64Bits.value x| ≤ 2 ^ 53
  | _ => True

def Exact : GeneratorEvent σ → Prop
  | .put _ value explicitKey _ =>
      ∀ key, keySource store value explicitKey = .given key → ExactKey key
  | _ => True

/-- A given key does not lead the generator astray: it is no date from the generator on, while
the generator has keys left, and it is not the last number, whose successor is no double. -/
def Harmless (current : ℚ) : Key → Prop
  | .number x => F64Bits.value x ≠ 2 ^ 53
  | .date x => F64Bits.value x < current ∨ lastKey < current
  | _ => True

/-- No record is put under a key that leads the generator astray. -/
def Sound : GeneratorEvent σ → Prop
  | .put s value explicitKey noOverwrite =>
      recorded env limits store w.keygen value explicitKey noOverwrite s = true →
        ∀ key, keySource store value explicitKey = .given key →
          Harmless (F64Bits.value w.keygen.current) key
  | _ => True

end Step

/-! ### What a put does to the generator -/

variable {σ : Type} [BackendTxn σ] {env : CodecEnv} {limits : LimitConfig} {store : StoreMeta}
  {w : GeneratorWorld} {n n' : ℕ}

/-- The generator is the number `n`, and past the keys. -/
structure Ahead (x : F64Bits) (keys : List F64Bits) (n : ℕ) : Prop where
  pos : 0 < n
  le : n ≤ 2 ^ 53
  current : x = ofInt n
  keys : ∀ y ∈ keys, F64Bits.value y < n ∨ n = 2 ^ 53

/-- What the two ends of a put say of each other. -/
inductive PutMoves (env : CodecEnv) (limits : LimitConfig) (store : StoreMeta)
    (w : GeneratorWorld) (s : σ) (value : ScValue) (explicitKey : Option Key) (noOverwrite : Bool)
    (n n' : ℕ) : Prop
  | given (key : Key) (h : keySource store value explicitKey = .given key)
      (hmoved : if recorded env limits store w.keygen value explicitKey noOverwrite s then
        KeyGenerator.Moved (F64Bits.value (keyToF64 key)) n n' else n' = n)
  | generated (h : keySource store value explicitKey = .generated) (hlt : n < 2 ^ 53)
      (hnext : n' = n + 1)
  | exhausted (h : keySource store value explicitKey = .generated) (hend : n = 2 ^ 53)
      (hsame : n' = n)
  | invalid (h : keySource store value explicitKey = .invalid) (hsame : n' = n)

theorem keyToF64_exact {key : Key} (h : ExactKey key) :
    F64Bits.isFinite (keyToF64 key) = true ∧ F64Bits.value (keyToF64 key) ≤ 2 ^ 53 := by
  have hother : F64Bits.isFinite 0 = true ∧ F64Bits.value 0 ≤ 2 ^ 53 := by
    rw [value_zero]
    exact ⟨by decide, by positivity⟩
  cases key with
  | number x => exact ⟨h.1, (le_abs_self _).trans h.2⟩
  | date x => exact ⟨h.1, (le_abs_self _).trans h.2⟩
  | string _ => exact hother
  | binary _ => exact hother
  | array _ => exact hother

theorem put_moves (hauto : store.autoIncrement = true) {s : σ} {value : ScValue}
    {explicitKey : Option Key} {noOverwrite : Bool} (h : Ahead w.keygen.current w.keys n)
    (hexact : Exact store (.put s value explicitKey noOverwrite : GeneratorEvent σ)) :
    ∃ n', PutMoves env limits store w s value explicitKey noOverwrite n n' ∧
      generatorAfter env limits store w.keygen value explicitKey noOverwrite s =
        { w.keygen with current := ofInt n' } := by
  have hsame : w.keygen = { w.keygen with current := ofInt n } := by rw [← h.current]
  cases hsource : keySource store value explicitKey with
  | given key =>
      obtain ⟨hfinite, hmost⟩ := keyToF64_exact (hexact key hsource)
      obtain ⟨n', hmoved, hupdate⟩ :=
        KeyGenerator.possiblyUpdate_moved h.current h.le hfinite hmost
      rw [generatorAfter_given hsource]
      by_cases hrecorded : recorded env limits store w.keygen value explicitKey noOverwrite s = true
      · refine ⟨n', .given key hsource ?_, ?_⟩
        · rw [if_pos hrecorded]
          exact hmoved
        · rw [if_pos hrecorded, hupdate]
      · refine ⟨n, .given key hsource ?_, ?_⟩
        · rw [if_neg hrecorded]
        · rw [if_neg hrecorded, ← hsame]
  | generated =>
      rcases Nat.lt_or_eq_of_le h.le with hlt | hend
      · have hgenerate := KeyGenerator.generate_below h.pos hlt h.current
        refine ⟨n + 1, .generated hsource hlt rfl, ?_⟩
        rw [generatorAfter_generated hauto hsource hgenerate]
        split
        · -- the generated key is below the next one
          obtain ⟨hvalue, hfinite⟩ := value_ofInt hlt.le
          refine KeyGenerator.possiblyUpdate_below rfl hlt hfinite ?_
          rw [hvalue]
          push_cast
          exact lt_add_one _
        · rfl
      · have hgenerate := KeyGenerator.generate_exhausted (hend ▸ h.current)
        refine ⟨n, .exhausted hsource hend rfl, ?_⟩
        rw [generatorAfter_none ((determineKey_generated hauto hsource).2 _ hgenerate),
          generatorBehind_generated hauto hsource, hgenerate, ← hsame]
  | invalid =>
      obtain ⟨hbehind, e, hdetermined⟩ := @determineKey_invalid store w.keygen _ _ hsource
      refine ⟨n, .invalid hsource rfl, ?_⟩
      rw [generatorAfter_none hdetermined, hbehind, ← hsame]

/-! ### What holds throughout -/

theorem PutMoves.le {s : σ} {value : ScValue} {explicitKey : Option Key} {noOverwrite : Bool}
    (h : PutMoves env limits store w s value explicitKey noOverwrite n n') (hn : n ≤ 2 ^ 53) :
    n ≤ n' ∧ n' ≤ 2 ^ 53 := by
  cases h with
  | given key h hmoved =>
      split at hmoved
      · exact hmoved.le hn
      · exact ⟨hmoved.ge, hmoved ▸ hn⟩
  | generated h hlt hnext => omega
  | exhausted h hend hsame => exact ⟨hsame.ge, hsame ▸ hn⟩
  | invalid h hsame => exact ⟨hsame.ge, hsame ▸ hn⟩

theorem PutMoves.newKey {s : σ} {value : ScValue} {explicitKey : Option Key} {noOverwrite : Bool}
    (h : PutMoves env limits store w s value explicitKey noOverwrite n n')
    (hahead : Ahead w.keygen.current w.keys n) {y : F64Bits}
    (hy : newKey env limits store w s value explicitKey noOverwrite = some y) :
    F64Bits.value y < n' ∨ n' = 2 ^ 53 := by
  unfold GeneratorWorld.newKey at hy
  cases h with
  | given key h hmoved =>
      rw [h] at hy
      cases key with
      | number x =>
          dsimp only at hy
          split at hy
          · next hrecorded =>
              rw [if_pos hrecorded] at hmoved
              cases hy
              exact hmoved.lt
          · cases hy
      | date _ => cases hy
      | string _ => cases hy
      | binary _ => cases hy
      | array _ => cases hy
  | generated h hlt hnext =>
      rw [h, KeyGenerator.generate_below hahead.pos hlt hahead.current] at hy
      cases hy
      rw [(value_ofInt hlt.le).1, hnext]
      push_cast
      exact .inl (lt_add_one _)
  | exhausted h hend hsame =>
      rw [h, KeyGenerator.generate_exhausted (hend ▸ hahead.current)] at hy
      cases hy
  | invalid h hsame =>
      rw [h] at hy
      cases hy

/-- The generator is past its keys, and was so at the start of each open request. -/
structure Inv (w : GeneratorWorld) : Prop where
  ahead : ∃ n, Ahead w.keygen.current w.keys n
  saved : List.Forall₂ (fun x keys => ∃ n, Ahead x keys n) w.keygen.saveStack w.saved

theorem inv_start (hpos : 0 < n) (hn : n ≤ 2 ^ 53) : Inv (start (ofInt n)) :=
  ⟨⟨n, hpos, hn, rfl, fun _ h => absurd h List.not_mem_nil⟩, .nil⟩

theorem Inv.next (hauto : store.autoIncrement = true) (h : Inv w) {a : GeneratorEvent σ}
    (hexact : Exact store a) : Inv (next env limits store w a) := by
  obtain ⟨⟨n, hahead⟩, hsaved⟩ := h
  cases a with
  | put s value explicitKey noOverwrite =>
      obtain ⟨n', hmoves, hafter⟩ :=
        @put_moves _ _ env limits _ _ _ hauto s _ _ noOverwrite hahead hexact
      obtain ⟨hle, hle'⟩ := hmoves.le hahead.le
      have hcast : (n : ℚ) ≤ n' := by exact_mod_cast hle
      refine ⟨⟨n', lt_of_lt_of_le hahead.pos hle, hle', ?_, fun y hy => ?_⟩, ?_⟩
      · show (generatorAfter env limits store w.keygen value explicitKey noOverwrite s).current = _
        rw [hafter]
      · rcases List.mem_append.mp hy with hnew | hold
        · exact hmoves.newKey hahead (Option.mem_toList.mp hnew)
        · rcases hahead.keys y hold with hlt | hend
          · exact .inl (lt_of_lt_of_le hlt hcast)
          · exact .inr (by omega)
      · show List.Forall₂ _ (generatorAfter env limits store w.keygen value explicitKey noOverwrite
          s).saveStack w.saved
        rw [hafter]
        exact hsaved
  | beginRequest => exact ⟨⟨n, hahead⟩, .cons ⟨n, hahead⟩ hsaved⟩
  | commitRequest =>
      unfold GeneratorWorld.next KeyGenerator.commitRequest
      generalize hlevels : w.saved = levels at hsaved
      cases hstack : w.keygen.saveStack with
      | nil => exact ⟨⟨n, hahead⟩, hlevels ▸ hsaved⟩
      | cons x outer =>
          rw [hstack] at hsaved
          cases hsaved with
          | cons _ htail => exact ⟨⟨n, hahead⟩, htail⟩
  | rollbackRequest =>
      unfold GeneratorWorld.next KeyGenerator.rollbackRequest
      generalize hlevels : w.saved = levels at hsaved
      cases hstack : w.keygen.saveStack with
      | nil => exact ⟨⟨n, hahead⟩, hlevels ▸ hsaved⟩
      | cons x outer =>
          rw [hstack] at hsaved
          cases hsaved with
          | cons hlast htail => exact ⟨hlast, htail⟩

/-! ### Where the law holds -/

theorem lastKey_lt (hn : n ≤ 2 ^ 53) : lastKey < n ↔ n = 2 ^ 53 := by
  have hcast : lastKey < n ↔ 2 ^ 53 - 1 < n := by
    rw [lastKey, ← @Nat.cast_lt ℚ]
    norm_num
  rw [hcast]
  omega

theorem pushed_iff {key : Key} (hpos : 0 < n) (hn : n ≤ 2 ^ 53)
    (h : KeyGenerator.Moved (F64Bits.value (keyToF64 key)) n n') :
    (n' : ℚ) = pushed n key ↔ Harmless n key := by
  have hn' : (n : ℚ) ≤ 2 ^ 53 := by exact_mod_cast hn
  -- only a number or a date has a value to push with
  have hother (hkey : keyToF64 key = 0) : n' = n := by
    have hpos' : (0 : ℚ) < n := by exact_mod_cast hpos
    rw [hkey, value_zero] at h
    cases h with
    | below h hsame => exact hsame
    | past h hlast hnext => exact absurd hpos' (not_lt.mpr h)
    | last h hend => exact absurd h (by norm_num)
  cases key with
  | number x =>
      have h : KeyGenerator.Moved (F64Bits.value x) n n' := h
      show _ = (if (n : ℚ) ≤ F64Bits.value x then (⌊F64Bits.value x⌋ : ℚ) + 1 else n) ↔ _ ≠ _
      cases h with
      | below h hsame =>
          rw [if_neg (not_le.mpr h), hsame]
          exact iff_of_true rfl (lt_of_lt_of_le h hn').ne
      | past h hlast hnext =>
          rw [if_pos h]
          exact iff_of_true (by exact_mod_cast hnext) hlast.ne
      | last h hend =>
          have hfloor : ⌊F64Bits.value x⌋ = 2 ^ 53 := by
            rw [h]
            exact Int.floor_natCast (2 ^ 53)
          rw [if_pos (h ▸ hn'), hfloor, hend]
          refine iff_of_false ?_ fun hne => hne h
          norm_num
  | date x =>
      have h : KeyGenerator.Moved (F64Bits.value x) n n' := h
      show (n' : ℚ) = n ↔ F64Bits.value x < n ∨ lastKey < n
      rw [lastKey_lt hn, Nat.cast_inj]
      cases h with
      | below h hsame => exact iff_of_true hsame (.inl h)
      | past h hlast hnext =>
          have hfloor : (n : ℤ) ≤ ⌊F64Bits.value x⌋ := Int.le_floor.mpr (by exact_mod_cast h)
          refine iff_of_false (by omega) ?_
          rintro (hlt | hend)
          · exact absurd h (not_le.mpr hlt)
          · rw [hend] at h
            exact absurd hlast (not_lt.mpr (by exact_mod_cast h))
      | last h hend =>
          have hnot : ¬ F64Bits.value x < n := not_lt.mpr (h ▸ hn')
          rw [hend, or_iff_right hnot]
          exact eq_comm
  | string _ => exact iff_of_true (congrArg _ (hother rfl)) trivial
  | binary _ => exact iff_of_true (congrArg _ (hother rfl)) trivial
  | array _ => exact iff_of_true (congrArg _ (hother rfl)) trivial

theorem lawfulPut_iff (hauto : store.autoIncrement = true) (h : Inv w) {s : σ} {value : ScValue}
    {explicitKey : Option Key} {noOverwrite : Bool}
    (hexact : Exact store (.put s value explicitKey noOverwrite : GeneratorEvent σ)) :
    LawfulPut env limits store w s value explicitKey noOverwrite ↔
      Sound env limits store w (.put s value explicitKey noOverwrite) := by
  obtain ⟨⟨n, hahead⟩, -⟩ := h
  obtain ⟨n', hmoves, hafter⟩ :=
    @put_moves _ _ env limits _ _ _ hauto s _ _ noOverwrite hahead hexact
  obtain ⟨hle, hle'⟩ := hmoves.le hahead.le
  -- the generator is the natural number `n` before the put, and `n'` behind it
  have hbefore : F64Bits.value w.keygen.current = n := by
    rw [hahead.current]
    exact (value_ofInt hahead.le).1
  have hbehind : F64Bits.value (next env limits store w
      (.put s value explicitKey noOverwrite)).keygen.current = n' := by
    show F64Bits.value (generatorAfter env limits store w.keygen value explicitKey noOverwrite
      s).current = n'
    rw [hafter]
    exact (value_ofInt hle').1
  have hcast : (n : ℚ) ≤ n' := by exact_mod_cast hle
  constructor
  · intro hlaw hrecorded key hkey
    have hgiven := hlaw.given key hkey
    rw [if_pos hrecorded, hbehind, hbefore] at hgiven
    rw [hbefore]
    cases hmoves with
    | given key' hkey' hmoved =>
        cases hkey.symm.trans hkey'
        rw [if_pos hrecorded] at hmoved
        exact (pushed_iff hahead.pos hahead.le hmoved).mp hgiven
    | generated hkey' => cases hkey.symm.trans hkey'
    | exhausted hkey' => cases hkey.symm.trans hkey'
    | invalid hkey' => cases hkey.symm.trans hkey'
  intro hsound
  refine ⟨fun key hkey => ?_, ?_, fun hkey x keygen hgenerate => ?_, fun hkey r s' hput => ?_,
    fun hlast => ⟨fun hkey => ?_, ?_⟩⟩
  · rw [hbehind, hbefore]
    cases hmoves with
    | given key' hkey' hmoved =>
        cases hkey.symm.trans hkey'
        split
        · next hrecorded =>
            rw [if_pos hrecorded] at hmoved
            have hharmless := hsound hrecorded key hkey
            rw [hbefore] at hharmless
            exact (pushed_iff hahead.pos hahead.le hmoved).mpr hharmless
        · next hrecorded =>
            rw [if_neg hrecorded] at hmoved
            rw [hmoved]
    | generated hkey' => cases hkey.symm.trans hkey'
    | exhausted hkey' => cases hkey.symm.trans hkey'
    | invalid hkey' => cases hkey.symm.trans hkey'
  · rw [hbehind, hbefore]
    exact hcast
  · rcases Nat.lt_or_eq_of_le hahead.le with hlt | hend
    · rw [KeyGenerator.generate_below hahead.pos hlt hahead.current] at hgenerate
      cases hgenerate
      rw [(value_ofInt hahead.le).1]
      refine ⟨⟨n, (Int.cast_natCast n).symm⟩, fun y hy => ?_⟩
      exact (hahead.keys y hy).resolve_right hlt.ne
    · rw [KeyGenerator.generate_exhausted (hend ▸ hahead.current)] at hgenerate
      cases hgenerate
  · rw [put_eq] at hput
    obtain ⟨r₁, t, hrecorded, hrest⟩ := Prog.of_bind_done hput
    obtain ⟨_, t', -, hpure⟩ := Prog.of_bind_done hrest
    obtain rfl : r₁ = r := Exit.done.inj (congrArg Prod.fst hpure)
    obtain ⟨generated, hdetermined, -⟩ := putRecorded_done hrecorded
    obtain ⟨hok, herror⟩ := @determineKey_generated _ w.keygen _ _ hauto hkey
    cases hgenerate : w.keygen.generate with
    | error e => cases (herror e hgenerate).symm.trans hdetermined
    | ok issued => exact ⟨issued.1, issued.2, rfl, (hok _ _ hgenerate _ hdetermined).1⟩
  · rw [hbefore, lastKey_lt hahead.le] at hlast
    have hgenerate := KeyGenerator.generate_exhausted (hlast ▸ hahead.current)
    refine ⟨"Key generator overflow: maximum value reached", ?_⟩
    rw [put, (determineKey_generated hauto hkey).2 _ hgenerate]
    rfl
  · rw [hbefore] at hlast
    rw [hbehind]
    exact lt_of_lt_of_le hlast hcast

theorem lawful_iff (hauto : store.autoIncrement = true) (h : Inv w) {a : GeneratorEvent σ}
    (hexact : Exact store a) : Lawful env limits store w a ↔ Sound env limits store w a := by
  cases a with
  | put s value explicitKey noOverwrite => exact lawfulPut_iff hauto h hexact
  | beginRequest => exact iff_of_true rfl trivial
  | commitRequest =>
      refine iff_of_true ?_ trivial
      show F64Bits.value (GeneratorWorld.next env limits store w .commitRequest).keygen.current = _
      unfold GeneratorWorld.next KeyGenerator.commitRequest
      cases w.keygen.saveStack <;> rfl
  | rollbackRequest => exact iff_of_true trivial trivial

/-- The generator follows the law in every step of a run exactly when no step records a key that
leads it astray. -/
theorem generatorLaw_iff (env : CodecEnv) (limits : LimitConfig) (store : StoreMeta)
    (hauto : store.autoIncrement = true) (hpos : 0 < n) (hn : n ≤ 2 ^ 53)
    {taken : List (GeneratorWorld × GeneratorEvent σ)}
    (hrun : Run (fun w a w' => w' = next env limits store w a) (start (ofInt n)) taken w)
    (hexact : EachStep (fun _ a => Exact store a) taken) :
    EachStep (Lawful env limits store) taken ↔ EachStep (Sound env limits store) taken := by
  have hkeep {w w' : GeneratorWorld} {a : GeneratorEvent σ} (h : Inv w) (ha : Exact store a)
      (hstep : w' = next env limits store w a) : Inv w' := by
    rw [hstep]
    exact h.next hauto ha
  obtain ⟨hinv, -⟩ := hrun.along (inv_start hpos hn) hkeep hexact
  have hiff (e) (he : e ∈ taken) :
      Lawful env limits store e.1 e.2 ↔ Sound env limits store e.1 e.2 :=
    lawful_iff hauto (hinv e he) (hexact e he)
  exact ⟨fun h e he => (hiff e he).mp (h e he), fun h e he => (hiff e he).mpr (h e he)⟩

end GeneratorWorld

/-! ### A date moves the generator -/

open GeneratorWorld

/-- A store that numbers its records, which may have keys of their own. -/
def tickets : StoreMeta := ⟨1, [], .empty, true, keyGenStart, [], false⟩

/-- Null under the date 5. -/
def datedPut : GeneratorEvent Memory.Session :=
  .put .first .null (some (.date 0x4014000000000000)) false

theorem value_date : F64Bits.value 0x4014000000000000 = 5 ∧
    F64Bits.isFinite 0x4014000000000000 = true := by
  have hbits : (0x4014000000000000 : F64Bits) = ofInt (5 : ℕ) := by decide
  rw [hbits]
  exact @value_ofInt 5 (by decide)

theorem exact_datedPut : EachStep (fun _ a => Exact tickets a)
    [(start (ofInt (1 : ℕ)), datedPut)] := by
  intro e he
  obtain rfl := List.mem_singleton.mp he
  rintro key hkey
  cases hkey
  obtain ⟨hvalue, hfinite⟩ := value_date
  refine ⟨hfinite, ?_⟩
  rw [hvalue]
  norm_num

theorem run_datedPut : ∃ w, Run (fun w a w' => w' = next standardEnv {} tickets w a)
    (start (ofInt (1 : ℕ))) [(start (ofInt (1 : ℕ)), datedPut)] w :=
  ⟨_, Run.start.step rfl⟩

/-- The first of the generated numbers is then 6. -/
theorem generatorLaw_date : ¬ ∀ (env : CodecEnv) (limits : LimitConfig) (store : StoreMeta) (n : ℕ)
    (taken : List (GeneratorWorld × GeneratorEvent Memory.Session)) (w : GeneratorWorld),
    store.autoIncrement = true → 0 < n → n ≤ 2 ^ 53 →
    Run (fun w a w' => w' = next env limits store w a) (start (ofInt n)) taken w →
    EachStep (fun _ a => Exact store a) taken → EachStep (Lawful env limits store) taken := by
  intro h
  obtain ⟨w, hrun⟩ := run_datedPut
  have hlawful := h standardEnv {} tickets 1 _ w rfl Nat.one_pos (by decide) hrun exact_datedPut
    _ (List.mem_singleton.mpr rfl)
  have hsound : Sound standardEnv {} tickets (start (ofInt (1 : ℕ))) datedPut :=
    (lawful_iff rfl (inv_start Nat.one_pos (by decide))
      (exact_datedPut _ (List.mem_singleton.mpr rfl))).mp hlawful
  have hcurrent : F64Bits.value (start (ofInt (1 : ℕ))).keygen.current = 1 :=
    (@value_ofInt 1 (by decide)).1.trans Nat.cast_one
  rcases hsound rfl _ rfl with hlt | hlast
  · rw [value_date.1, hcurrent] at hlt
    norm_num at hlt
  · rw [hcurrent, lastKey] at hlast
    norm_num at hlast

theorem generatorLaw_datedPut : ∃ w, Run (fun w a w' => w' = next standardEnv {} tickets w a)
    (start (ofInt (1 : ℕ))) [(start (ofInt (1 : ℕ)), datedPut)] w ∧
    (EachStep (Lawful standardEnv {} tickets) [(start (ofInt (1 : ℕ)), datedPut)] ↔
      EachStep (Sound standardEnv {} tickets) [(start (ofInt (1 : ℕ)), datedPut)]) := by
  obtain ⟨w, hrun⟩ := run_datedPut
  exact ⟨w, hrun, generatorLaw_iff standardEnv {} tickets rfl Nat.one_pos (by decide) hrun
    exact_datedPut⟩

end Engine

end BoaIdb
