import BoaIdb.Core.Types
import Mathlib.Algebra.Order.Ring.Int

/-!
IEEE-754 doubles as their bit patterns: a sign bit over 63 bits of magnitude.
-/

namespace BoaIdb.F64Bits

/-- The bits below the sign. -/
def magnitude (x : F64Bits) : ℕ := x.toNat % 2 ^ 63

def isNegative (x : F64Bits) : Bool := decide (2 ^ 63 ≤ x.toNat)

/-- An exponent of ones and a fraction that is not zero. -/
def isNaN (x : F64Bits) : Bool := decide (0x7FF0000000000000 < magnitude x)

/-- `x == 0.0`, true of both zeros. -/
def isZero (x : F64Bits) : Bool := magnitude x = 0

/-- The magnitude under its sign; the order of these is the order of the doubles. -/
def signed (x : F64Bits) : ℤ := if isNegative x then -(magnitude x : ℤ) else magnitude x

/-- `f64::partial_cmp`. -/
def partialCmp (x y : F64Bits) : Option Ordering :=
  if isNaN x || isNaN y then none else some (cmp (signed x) (signed y))

/-- `if x == 0.0 { 0.0 } else { x }`. -/
def normZero (x : F64Bits) : F64Bits := if isZero x then 0 else x

theorem isNaN_normZero (x : F64Bits) : isNaN (normZero x) = true → isNaN x = true := by
  unfold normZero
  split
  · intro h
    exact absurd h (by decide)
  · exact id

/-- The value is its magnitude, plus the sign bit when it is negative. -/
theorem toNat_eq (x : F64Bits) :
    x.toNat = if isNegative x then 2 ^ 63 + magnitude x else magnitude x := by
  have hlt := x.toNat_lt
  unfold isNegative magnitude
  split
  next h =>
    have h := of_decide_eq_true h
    omega
  next h =>
    have h : ¬ 2 ^ 63 ≤ x.toNat := by simpa using h
    omega

/-! ### Integers -/

def exponentBits (x : F64Bits) : ℕ := magnitude x / 2 ^ 52

/-- The fraction with its leading one, which subnormal numbers lack. A finite double is
its significand times `2 ^ (scale x - 1075)`. -/
def significand (x : F64Bits) : ℕ :=
  if exponentBits x = 0 then magnitude x % 2 ^ 52 else 2 ^ 52 + magnitude x % 2 ^ 52

def scale (x : F64Bits) : ℕ := max (exponentBits x) 1

/-- `x.fract() == 0.0`, false of infinities and NaNs. -/
def fractIsZero (x : F64Bits) : Bool :=
  exponentBits x ≠ 2047 && (1075 ≤ scale x || significand x % 2 ^ (1075 - scale x) = 0)

/-- The integer part, rounded towards zero. -/
def truncated (x : F64Bits) : ℤ :=
  let m : ℕ :=
    if 1075 ≤ scale x then significand x * 2 ^ (scale x - 1075)
    else significand x / 2 ^ (1075 - scale x)
  if isNegative x then -(m : ℤ) else m

/-- `x as i32`, which saturates. -/
def toI32 (x : F64Bits) : ℤ :=
  if isNaN x then 0 else max (-2 ^ 31) (min (2 ^ 31 - 1) (truncated x))

/-- The bits of a natural number, rounded to the nearest even significand. -/
def ofNatBits (n : ℕ) : ℕ :=
  if n = 0 then 0
  else
    let top := Nat.log2 n
    if top ≤ 52 then (top + 1022) * 2 ^ 52 + n * 2 ^ (52 - top)
    else
      let unit := 2 ^ (top - 52)
      let q := n / unit
      let r := n % unit
      let up := if unit < 2 * r ∨ (unit = 2 * r ∧ q % 2 = 1) then 1 else 0
      (top + 1022) * 2 ^ 52 + (q + up)

/-- `i as f64`. -/
def ofInt (i : ℤ) : F64Bits :=
  UInt64.ofNat (if i < 0 then 2 ^ 63 + ofNatBits i.natAbs else ofNatBits i.natAbs)

-- `f64::from(i32::MIN)`, `f64::from(i32::MAX)` and a number that rounds to even
example : ofInt (-2 ^ 31) = 0xC1E0000000000000 ∧ ofInt (2 ^ 31 - 1) = 0x41DFFFFFFFC00000 ∧
    ofInt (2 ^ 53 + 1) = 0x4340000000000000 := by
  decide

/-- `x == y`. -/
def eqF64 (x y : F64Bits) : Bool := partialCmp x y == some .eq

/-- `x <= y`. -/
def leF64 (x y : F64Bits) : Bool := partialCmp x y == some .lt || partialCmp x y == some .eq

theorem toI32_zero : toI32 0 = 0 := by
  have hsignificand : significand 0 = 0 := by decide
  have htruncated : truncated 0 = 0 := by
    simp [truncated, hsignificand]
  have hnan : isNaN 0 = false := by decide
  rw [toI32, hnan, htruncated]
  rfl

theorem magnitude_eq_of_signed {x y : F64Bits} (h : signed x = signed y) :
    magnitude x = magnitude y := by
  unfold signed at h
  split at h <;> split at h <;> omega

/-- Doubles that compare equal have the same bits, unless they are the two zeros. -/
theorem eq_of_eqF64 {x y : F64Bits} (h : eqF64 x y = true)
    (hy : isZero y = false ∨ isNegative x = isNegative y) : x = y := by
  have hcmp : partialCmp x y = some .eq := by simpa [eqF64] using h
  rw [partialCmp] at hcmp
  by_cases hnan : (isNaN x || isNaN y) = true
  · rw [if_pos hnan] at hcmp
    cases hcmp
  · rw [if_neg hnan] at hcmp
    have hsigned : signed x = signed y := (cmp_eq_eq_iff _ _).mp (Option.some.inj hcmp)
    have hmagnitude := magnitude_eq_of_signed hsigned
    have hnegative : isNegative x = isNegative y := by
      rcases hy with hy | hy
      · have hpos : magnitude y ≠ 0 := by simpa [isZero] using hy
        unfold signed at hsigned
        cases hx' : isNegative x <;> cases hy' : isNegative y <;>
          simp [hx', hy'] at hsigned <;> first | rfl | omega
      · exact hy
    apply UInt64.toNat_inj.mp
    rw [toNat_eq x, toNat_eq y, hmagnitude, hnegative]

end BoaIdb.F64Bits
