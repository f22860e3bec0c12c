import BoaIdb.Core.Float64
import Mathlib.Data.Nat.Log
import Mathlib.Data.Rat.Floor
import Mathlib.Order.Monotone.Basic
import Mathlib.Tactic

/-!
The exact values of doubles: their order, their floors, and the integers among them.

Every finite double is a whole number of units `2 ^ -1074`.
-/

namespace BoaIdb.F64Bits

/-! ### Units -/

/-- The units of a magnitude. -/
def unitsOf (m : ℕ) : ℕ :=
  if m / 2 ^ 52 = 0 then m % 2 ^ 52 else (2 ^ 52 + m % 2 ^ 52) * 2 ^ (m / 2 ^ 52 - 1)

theorem unitsOf_lt_succ (m : ℕ) : unitsOf m < unitsOf (m + 1) := by
  obtain ⟨e, f, hf, rfl⟩ : ∃ e f, f < 2 ^ 52 ∧ m = e * 2 ^ 52 + f :=
    ⟨m / 2 ^ 52, m % 2 ^ 52, Nat.mod_lt _ (by decide), by omega⟩
  have hfields {e f : ℕ} (hf : f < 2 ^ 52) : unitsOf (e * 2 ^ 52 + f) =
      if e = 0 then f else (2 ^ 52 + f) * 2 ^ (e - 1) := by
    have hdiv : (e * 2 ^ 52 + f) / 2 ^ 52 = e := by omega
    have hmod : (e * 2 ^ 52 + f) % 2 ^ 52 = f := by omega
    rw [unitsOf, hdiv, hmod]
  rw [hfields hf]
  have hpos := Nat.two_pow_pos (e - 1)
  by_cases hlast : f + 1 < 2 ^ 52
  · rw [Nat.add_assoc, hfields hlast]
    split
    · exact Nat.lt_succ_self f
    · exact Nat.mul_lt_mul_of_pos_right (by omega) hpos
  · -- the fraction runs over into the exponent
    have hcarry : e * 2 ^ 52 + f + 1 = (e + 1) * 2 ^ 52 + 0 := by omega
    rw [hcarry, hfields (by decide), if_neg (Nat.succ_ne_zero e), Nat.add_sub_cancel]
    split
    · next he =>
        rw [he]
        omega
    · next he =>
        have hdouble : 2 ^ e = 2 * 2 ^ (e - 1) := by
          rw [← Nat.pow_succ']
          congr 1
          omega
        rw [hdouble, ← Nat.mul_assoc]
        exact Nat.mul_lt_mul_of_pos_right (by omega) hpos

theorem unitsOf_strictMono : StrictMono unitsOf := strictMono_nat_of_lt_succ unitsOf_lt_succ

theorem unitsOf_magnitude (x : F64Bits) :
    unitsOf (magnitude x) = significand x * 2 ^ (scale x - 1) := by
  have hscale : scale x - 1 = exponentBits x - 1 := by
    rw [scale]
    omega
  rw [hscale, unitsOf, significand, exponentBits]
  split
  · next he => rw [he, Nat.zero_sub, Nat.pow_zero, Nat.mul_one]
  · rfl

/-- The units under their sign. -/
def signedUnits (x : F64Bits) : ℤ :=
  if isNegative x then -(unitsOf (magnitude x) : ℤ) else unitsOf (magnitude x)

/-- The places of a unit behind the point. -/
def unitPlaces : ℕ := 1074

/-- The exact value of a finite double. -/
def value (x : F64Bits) : ℚ := signedUnits x / 2 ^ unitPlaces

/-- A double that is neither infinite nor a NaN. -/
def isFinite (x : F64Bits) : Bool := decide (exponentBits x ≠ 2047)

/-! ### Order -/

theorem signedUnits_lt {x y : F64Bits} : signedUnits x < signedUnits y ↔ signed x < signed y := by
  have hzero : unitsOf 0 = 0 := rfl
  have hlt (m n : ℕ) : unitsOf m < unitsOf n ↔ m < n := unitsOf_strictMono.lt_iff_lt
  have hx := hlt 0 (magnitude x)
  have hy := hlt 0 (magnitude y)
  have hxy := hlt (magnitude x) (magnitude y)
  have hyx := hlt (magnitude y) (magnitude x)
  rw [hzero] at hx hy
  unfold signedUnits signed
  split <;> split <;> omega

theorem value_lt {x y : F64Bits} : value x < value y ↔ signed x < signed y := by
  rw [value, value, div_lt_div_iff_of_pos_right (by positivity), Int.cast_lt, signedUnits_lt]

theorem value_le {x y : F64Bits} : value x ≤ value y ↔ signed x ≤ signed y := by
  rw [← not_lt, value_lt, not_lt]

theorem isNaN_of_isFinite {x : F64Bits} (h : isFinite x = true) : isNaN x = false := by
  have hexponent : exponentBits x ≠ 2047 := of_decide_eq_true h
  have hmagnitude : magnitude x < 2 ^ 63 := Nat.mod_lt _ (by decide)
  rw [isNaN, decide_eq_false_iff_not]
  unfold exponentBits at hexponent
  omega

theorem partialCmp_eq {x y : F64Bits} (hx : isFinite x = true) (hy : isFinite y = true) :
    partialCmp x y = some (cmp (signed x) (signed y)) := by
  rw [partialCmp, isNaN_of_isFinite hx, isNaN_of_isFinite hy]
  rfl

theorem leF64_iff {x y : F64Bits} (hx : isFinite x = true) (hy : isFinite y = true) :
    leF64 x y = true ↔ value x ≤ value y := by
  have hle : signed x ≤ signed y ↔
      cmp (signed x) (signed y) = .lt ∨ cmp (signed x) (signed y) = .eq := by
    rw [cmp_eq_lt_iff, cmp_eq_eq_iff, le_iff_lt_or_eq]
  rw [value_le, hle, leF64, partialCmp_eq hx hy]
  generalize cmp (signed x) (signed y) = o
  cases o <;> decide

theorem gt_iff {x y : F64Bits} (hx : isFinite x = true) (hy : isFinite y = true) :
    partialCmp x y = some .gt ↔ value y < value x := by
  rw [value_lt, partialCmp_eq hx hy, Option.some.injEq, cmp_eq_gt_iff]

/-! ### Floors -/

/-- Down to a whole number of units, and up again under a minus. -/
theorem floor_neg_div (u : ℕ) {d : ℕ} (hd : 0 < d) :
    ⌊-((u : ℚ) / d)⌋ = -(((u + d - 1) / d : ℕ) : ℤ) := by
  have hd' : (0 : ℚ) < d := by exact_mod_cast hd
  have hlow := Nat.div_mul_le_self (u + d - 1) d
  have hhigh := @Nat.lt_div_mul_add (u + d - 1) d hd
  generalize (u + d - 1) / d = q at hlow hhigh
  have hle : (u : ℚ) ≤ q * d := by
    have hnat : u ≤ q * d := by omega
    exact_mod_cast hnat
  have hlt : (q : ℚ) * d < u + d := by
    have hnat : q * d < u + d := by omega
    exact_mod_cast hnat
  rw [Int.floor_eq_iff]
  push_cast
  constructor
  · rw [neg_le_neg_iff, div_le_iff₀ hd']
    exact hle
  · have hsplit : (u : ℚ) / d > q - 1 := by
      rw [gt_iff_lt, lt_div_iff₀ hd', sub_mul, one_mul]
      linarith
    linarith

/-- The value of a double with a sign, over the unit of its significand. -/
theorem value_eq (x : F64Bits) : value x =
    if isNegative x then -((significand x * 2 ^ (scale x - 1) : ℕ) / 2 ^ unitPlaces : ℚ)
    else ((significand x * 2 ^ (scale x - 1) : ℕ) : ℚ) / 2 ^ unitPlaces := by
  rw [value, signedUnits, unitsOf_magnitude]
  split
  · rw [Int.cast_neg, Int.cast_natCast, neg_div]
  · rw [Int.cast_natCast]

/-- From the exponent 52 on a double is an integer. -/
theorem units_large {m s K : ℕ} (h : K ≤ s) :
    ((m * 2 ^ s : ℕ) : ℚ) / 2 ^ K = ((m * 2 ^ (s - K) : ℕ) : ℚ) := by
  have hsplit : 2 ^ s = 2 ^ (s - K) * 2 ^ K := by rw [← Nat.pow_add, Nat.sub_add_cancel h]
  rw [hsplit, ← Nat.mul_assoc, Nat.cast_mul, Nat.cast_pow, Nat.cast_ofNat]
  exact mul_div_cancel_right₀ _ (by positivity)

theorem units_small {m s K : ℕ} (h : s ≤ K) :
    ((m * 2 ^ s : ℕ) : ℚ) / 2 ^ K = (m : ℚ) / ((2 ^ (K - s) : ℕ) : ℚ) := by
  have hsplit : (2 : ℚ) ^ K = 2 ^ (K - s) * 2 ^ s := by rw [← pow_add, Nat.sub_add_cancel h]
  rw [hsplit, Nat.cast_mul, Nat.cast_pow, Nat.cast_pow, Nat.cast_ofNat]
  exact mul_div_mul_right _ _ (by positivity)

/-! ### Integers -/

/-- The bits of a natural number that a significand holds: its exponent, and its fraction. -/
theorem ofNatBits_eq {n : ℕ} (hn : n ≠ 0) (h : n < 2 ^ 53) :
    n * 2 ^ (52 - Nat.log2 n) - 2 ^ 52 < 2 ^ 52 ∧ 2 ^ 52 ≤ n * 2 ^ (52 - Nat.log2 n) ∧
      ofNatBits n = (Nat.log2 n + 1023) * 2 ^ 52 + (n * 2 ^ (52 - Nat.log2 n) - 2 ^ 52) := by
  have htop : Nat.log2 n ≤ 52 := Nat.lt_succ_iff.mp ((Nat.log2_lt hn).mpr h)
  have hlow : 2 ^ Nat.log2 n ≤ n := Nat.log2_self_le hn
  have hhigh : n < 2 ^ (Nat.log2 n + 1) := Nat.lt_log2_self
  have hpos := Nat.two_pow_pos (52 - Nat.log2 n)
  have hleast : 2 ^ 52 ≤ n * 2 ^ (52 - Nat.log2 n) := by
    calc 2 ^ 52 = 2 ^ Nat.log2 n * 2 ^ (52 - Nat.log2 n) := by rw [← Nat.pow_add]; congr 1; omega
      _ ≤ n * 2 ^ (52 - Nat.log2 n) := Nat.mul_le_mul_right _ hlow
  have hmost : n * 2 ^ (52 - Nat.log2 n) < 2 ^ 53 := by
    calc n * 2 ^ (52 - Nat.log2 n) < 2 ^ (Nat.log2 n + 1) * 2 ^ (52 - Nat.log2 n) :=
          Nat.mul_lt_mul_of_pos_right hhigh hpos
      _ = 2 ^ 53 := by rw [← Nat.pow_add]; congr 1; omega
  refine ⟨by omega, hleast, ?_⟩
  rw [ofNatBits, if_neg hn]
  dsimp only
  rw [if_pos htop]
  omega

/-- A positive double from its exponent and its fraction. -/
theorem value_ofNat {e f : ℕ} (he : 0 < e) (he' : e < 2047) (hf : f < 2 ^ 52) :
    value (UInt64.ofNat (e * 2 ^ 52 + f)) = ((2 ^ 52 + f) * 2 ^ (e - 1) : ℕ) / 2 ^ unitPlaces ∧
      isFinite (UInt64.ofNat (e * 2 ^ 52 + f)) = true := by
  have htoNat : (UInt64.ofNat (e * 2 ^ 52 + f)).toNat = e * 2 ^ 52 + f := by
    rw [UInt64.toNat_ofNat']
    omega
  have hmagnitude : magnitude (UInt64.ofNat (e * 2 ^ 52 + f)) = e * 2 ^ 52 + f := by
    rw [magnitude, htoNat]
    omega
  have hpositive : isNegative (UInt64.ofNat (e * 2 ^ 52 + f)) = false := by
    rw [isNegative, htoNat, decide_eq_false_iff_not]
    omega
  have hdiv : (e * 2 ^ 52 + f) / 2 ^ 52 = e := by omega
  have hmod : (e * 2 ^ 52 + f) % 2 ^ 52 = f := by omega
  constructor
  · rw [value, signedUnits, hpositive, if_neg Bool.false_ne_true, hmagnitude, unitsOf, hdiv, hmod,
      if_neg (by omega)]
    rfl
  · rw [isFinite, exponentBits, hmagnitude, hdiv]
    exact decide_eq_true (by omega)

/-- The integers up to `2 ^ 53` are doubles. -/
theorem value_ofInt {n : ℕ} (h : n ≤ 2 ^ 53) :
    value (ofInt n) = n ∧ isFinite (ofInt n) = true := by
  have hnonneg : ¬ (n : ℤ) < 0 := by omega
  have hofInt : ofInt n = UInt64.ofNat (ofNatBits n) := by
    rw [ofInt, if_neg hnonneg, Int.natAbs_natCast]
  rw [hofInt]
  have hunits (k : ℕ) : ((k * 2 ^ unitPlaces : ℕ) : ℚ) / 2 ^ unitPlaces = k := by
    rw [units_large (le_refl _), Nat.sub_self, Nat.pow_zero, Nat.mul_one]
  rcases Nat.eq_zero_or_pos n with rfl | hpos
  · refine ⟨?_, by decide⟩
    have hzero : signedUnits (UInt64.ofNat (ofNatBits 0)) = 0 := by decide
    rw [value, hzero, Int.cast_zero, zero_div, Nat.cast_zero]
  rcases Nat.lt_or_eq_of_le h with hlt | rfl
  · obtain ⟨hf, hleast, hbits⟩ := ofNatBits_eq (by omega) hlt
    have htop : Nat.log2 n ≤ 52 := Nat.lt_succ_iff.mp ((Nat.log2_lt (by omega)).mpr hlt)
    obtain ⟨hvalue, hfinite⟩ := @value_ofNat (Nat.log2 n + 1023) _ (by omega) (by omega) hf
    rw [hbits]
    refine ⟨?_, hfinite⟩
    have hsplit : (2 ^ 52 + (n * 2 ^ (52 - Nat.log2 n) - 2 ^ 52)) * 2 ^ (Nat.log2 n + 1023 - 1) =
        n * 2 ^ unitPlaces := by
      have hplaces : 52 - Nat.log2 n + (Nat.log2 n + 1023 - 1) = unitPlaces := by
        rw [unitPlaces]
        omega
      rw [Nat.add_sub_cancel' hleast, Nat.mul_assoc, ← Nat.pow_add, hplaces]
    rw [hvalue, hsplit, hunits]
  · have hbits : ofNatBits (2 ^ 53) = 1076 * 2 ^ 52 + 0 := by decide
    obtain ⟨hvalue, hfinite⟩ := @value_ofNat 1076 0 (by decide) (by decide) (by decide)
    rw [hbits]
    refine ⟨?_, hfinite⟩
    have hsplit : (2 ^ 52 + 0) * 2 ^ (1076 - 1) = 2 ^ 53 * 2 ^ unitPlaces := by
      have hplaces : 52 + (1076 - 1) = 53 + unitPlaces := rfl
      rw [Nat.add_zero, ← Nat.pow_add, ← Nat.pow_add, hplaces]
    rw [hvalue, hsplit, hunits]

end BoaIdb.F64Bits
