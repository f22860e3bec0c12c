import BoaIdb.Engine.Error

/-!
The key generator of a store, over the bit patterns of doubles.
-/

namespace BoaIdb

namespace F64Bits

/-- The integer below a finite double, or the double itself. -/
def floorInt (x : F64Bits) : ℤ :=
  if 1075 ≤ scale x then truncated x
  else
    let unit := 2 ^ (1075 - scale x)
    if isNegative x then -(((significand x + unit - 1) / unit : ℕ) : ℤ)
    else ((significand x / unit : ℕ) : ℤ)

/-- `x.floor() + 1.0`; the floor is an integer, so the sum is rounded once. -/
def floorPlusOne (x : F64Bits) : F64Bits :=
  if exponentBits x = 2047 then x else ofInt (floorInt x + 1)

/-- `x + 1.0`: the exact sum over the unit of `x`, rounded once. It is zero or a normal
number, so the exponent can be lowered by that of the unit. -/
def plusOne (x : F64Bits) : F64Bits :=
  if exponentBits x = 2047 then x
  else
    let shift := 1075 - scale x
    let m : ℤ := significand x * 2 ^ (scale x - 1075)
    let sum := (if isNegative x then -m else m) + 2 ^ shift
    if sum = 0 then 0
    else UInt64.ofNat ((if sum < 0 then 2 ^ 63 else 0) + ofNatBits sum.natAbs - shift * 2 ^ 52)

-- 1.0, 0.5, -1.5 and the largest integer whose successor is a double
example : plusOne 0x3FF0000000000000 = 0x4000000000000000 ∧
    plusOne 0x3FE0000000000000 = 0x3FF8000000000000 ∧
    plusOne 0xBFF8000000000000 = 0xBFE0000000000000 ∧
    plusOne 0x433FFFFFFFFFFFFF = 0x4340000000000000 := by
  decide

end F64Bits

structure KeyGenerator where
  current : F64Bits
  saveStack : List F64Bits

namespace KeyGenerator

/-- `2 ^ 53 - 1`. -/
def maxKey : F64Bits := 0x433FFFFFFFFFFFFF

def new (initial : F64Bits) : KeyGenerator := ⟨initial, []⟩

def generate (g : KeyGenerator) : Except IdbError (F64Bits × KeyGenerator) :=
  if F64Bits.partialCmp g.current maxKey = some .gt then
    .error (.constraint "Key generator overflow: maximum value reached")
  else .ok (g.current, { g with current := F64Bits.plusOne g.current })

/-- Moves past a key that is not below the next one. -/
def possiblyUpdate (g : KeyGenerator) (key : F64Bits) : KeyGenerator :=
  if F64Bits.leF64 g.current key then { g with current := F64Bits.floorPlusOne key } else g

def beginRequest (g : KeyGenerator) : KeyGenerator :=
  { g with saveStack := g.current :: g.saveStack }

def commitRequest (g : KeyGenerator) : Except IdbError KeyGenerator :=
  match g.saveStack with
  | [] => .error (.invalidState "KeyGenerator commit without matching begin")
  | _ :: outer => .ok { g with saveStack := outer }

def rollbackRequest (g : KeyGenerator) : Except IdbError KeyGenerator :=
  match g.saveStack with
  | [] => .error (.invalidState "KeyGenerator rollback without matching begin")
  | saved :: outer => .ok ⟨saved, outer⟩

end KeyGenerator

end BoaIdb
