import Mathlib.Data.Nat.Bitwise
import BoaIdb.Core.Key
import BoaIdb.Lib.OrderedCode

/-!
The key encoding preserves the order of keys.

Each field of an encoding agrees with its comparison whatever follows it: the sign
flip of numbers, the units of a string behind their escapes, and the items of an
array, which are all larger than the terminator. Keys follow by induction.
-/

namespace BoaIdb.Key

open ByteCodec OrderedCode

/-! ### Numbers -/

/-- The big-endian number that `encode_f64_orderable` writes. -/
def orderable (x : F64Bits) : ℕ :=
  if F64Bits.isNegative x then 2 ^ 63 - 1 - F64Bits.magnitude x else 2 ^ 63 + F64Bits.magnitude x

theorem toNat_signBit : signBit.toNat = 2 ^ 63 := rfl

theorem and_signBit (x : UInt64) : x &&& signBit ≠ 0 ↔ F64Bits.isNegative x = true := by
  have hlt := x.toNat_lt
  have hand : (x &&& signBit).toNat = (x.toNat.testBit 63).toNat * 2 ^ 63 := by
    rw [UInt64.toNat_and, toNat_signBit, Nat.and_two_pow]
  have hbit : x.toNat.testBit 63 = decide (2 ^ 63 ≤ x.toNat) := by
    rw [Nat.testBit_eq_decide_div_mod_eq, decide_eq_decide]
    omega
  rw [F64Bits.isNegative, ← hbit, ne_eq, ← UInt64.toNat_inj, hand]
  cases x.toNat.testBit 63 <;> simp

theorem encodeF64Orderable_eq (x : F64Bits) :
    encodeF64Orderable x = bigEndian 8 (orderable (F64Bits.normZero x)) := by
  have hlt := (F64Bits.normZero x).toNat_lt
  have hsplit := F64Bits.toNat_eq (F64Bits.normZero x)
  unfold encodeF64Orderable orderable
  simp only [and_signBit]
  congr 1
  split
  next h =>
    rw [if_pos h] at hsplit
    rw [← UInt64.toNat_toBitVec, UInt64.toBitVec_not, BitVec.toNat_not, UInt64.toNat_toBitVec,
      hsplit]
    omega
  next h =>
    rw [if_neg h] at hsplit
    have hmagnitude : F64Bits.magnitude (F64Bits.normZero x) < 2 ^ 63 := Nat.mod_lt _ (by norm_num)
    have hor := Nat.two_pow_add_eq_or_of_lt hmagnitude 1
    rw [mul_one] at hor
    rw [UInt64.toNat_or, toNat_signBit, hsplit, Nat.or_comm, hor]

/-- Doubles that are numbers compare like the numbers that are written. -/
theorem compareF64_eq {x y : F64Bits} (hx : F64Bits.isNaN x = false)
    (hy : F64Bits.isNaN y = false) :
    compareF64 x y = cmp (orderable (F64Bits.normZero x)) (orderable (F64Bits.normZero y)) := by
  have hx' : F64Bits.isNaN (F64Bits.normZero x) = false := by
    by_contra h
    simp [F64Bits.isNaN_normZero x (by simpa using h)] at hx
  have hy' : F64Bits.isNaN (F64Bits.normZero y) = false := by
    by_contra h
    simp [F64Bits.isNaN_normZero y (by simpa using h)] at hy
  -- a negative number that is left by the normalization is no zero
  have hpos {z : F64Bits} (h : F64Bits.isNegative (F64Bits.normZero z) = true) :
      0 < F64Bits.magnitude (F64Bits.normZero z) := by
    unfold F64Bits.normZero at h ⊢
    split at h
    next => exact absurd h (by decide)
    next hz =>
      rw [if_neg hz]
      exact Nat.pos_of_ne_zero (by simpa [F64Bits.isZero] using hz)
  have hlt {z : F64Bits} : F64Bits.magnitude z < 2 ^ 63 := Nat.mod_lt _ (by norm_num)
  have hmono {z w : F64Bits} :
      F64Bits.signed (F64Bits.normZero z) < F64Bits.signed (F64Bits.normZero w) ↔
      orderable (F64Bits.normZero z) < orderable (F64Bits.normZero w) := by
    have hz := @hlt (F64Bits.normZero z)
    have hw := @hlt (F64Bits.normZero w)
    have hzp := @hpos z
    have hwp := @hpos w
    unfold F64Bits.signed orderable
    split_ifs with h h' h'
    · have := hzp h
      have := hwp h'
      omega
    · have := hzp h
      omega
    · have := hwp h'
      omega
    · omega
  rw [compareF64, F64Bits.partialCmp, hx', hy']
  unfold cmp cmpUsing
  simp only [Bool.or_self, Bool.false_eq_true, if_false, Option.getD_some, hmono]

theorem orderable_lt (x : F64Bits) : orderable x < 256 ^ 8 := by
  have hlt : F64Bits.magnitude x < 2 ^ 63 := Nat.mod_lt _ (by norm_num)
  unfold orderable
  split <;> omega

theorem agrees_f64 {x y : F64Bits} (hx : F64Bits.isNaN x = false) (hy : F64Bits.isNaN y = false) :
    Agrees cmp (compareF64 x y) (encodeF64Orderable x) (encodeF64Orderable y) := by
  rw [compareF64_eq hx hy, encodeF64Orderable_eq, encodeF64Orderable_eq]
  exact agrees_bigEndian (orderable_lt _) (orderable_lt _)

/-! ### Escapes -/

theorem escapeByte_of_ne {b : UInt8} (h : b ≠ 0) : escapeByte b = [b] := if_neg h

theorem pos_of_ne {b : UInt8} (h : b ≠ 0) : 0 < b :=
  UInt8.pos_iff_ne_zero.mpr h

theorem agrees_escapeByte (a b : UInt8) : Agrees cmp (cmp a b) (escapeByte a) (escapeByte b) := by
  by_cases ha : a = 0
  · by_cases hb : b = 0
    · rw [ha, hb, cmp_self_eq_eq]
      exact agrees_self _
    · rw [ha, escapeByte_of_ne hb, (cmp_eq_lt_iff _ _).mpr (pos_of_ne hb)]
      exact agrees_of_lt ((cmp_eq_lt_iff _ _).mpr (pos_of_ne hb)) _ _
  · by_cases hb : b = 0
    · rw [hb, escapeByte_of_ne ha, (cmp_eq_gt_iff _ _).mpr (pos_of_ne ha)]
      exact (agrees_of_lt ((cmp_eq_lt_iff _ _).mpr (pos_of_ne ha)) _ _).swap
    · rw [escapeByte_of_ne ha, escapeByte_of_ne hb]
      exact agrees_symbol a b

/-- The terminator is smaller than an escaped zero and than any other byte. -/
theorem terminator_lt_escapeByte (a : UInt8) : Agrees cmp .lt escapeTerminator (escapeByte a) := by
  by_cases ha : a = 0
  · rw [ha]
    exact (agrees_of_lt (by decide) [] []).cons 0
  · rw [escapeByte_of_ne ha]
    exact agrees_of_lt ((cmp_eq_lt_iff _ _).mpr (pos_of_ne ha)) _ _

theorem agrees_binary (a b : Bytes) :
    Agrees cmp (a.compareLex cmp b) (encodeBinary a) (encodeBinary b) :=
  agrees_items a b (fun x _ y _ => agrees_escapeByte x y) fun x _ => terminator_lt_escapeByte x

/-! ### Strings -/

/-- The escaped bytes of the unit with number `n`. -/
def unitCode (n : ℕ) : Bytes :=
  if n = 0 then [0x00, 0xFF]
  else if n < 128 then [UInt8.ofNat n]
  else if n < 2048 then [UInt8.ofNat (192 + n / 64), UInt8.ofNat (128 + n % 64)]
  else [UInt8.ofNat (224 + n / 4096), UInt8.ofNat (128 + n / 64 % 64), UInt8.ofNat (128 + n % 64)]

/-- One, two or three bytes by the size of the unit; zero is escaped. -/
theorem unitCode_cases (n : ℕ) :
    (n = 0 ∧ unitCode n = [0x00, 0xFF]) ∨ (0 < n ∧ n < 128 ∧ unitCode n = [UInt8.ofNat n]) ∨
      (128 ≤ n ∧ n < 2048 ∧
        unitCode n = [UInt8.ofNat (192 + n / 64), UInt8.ofNat (128 + n % 64)]) ∨
      2048 ≤ n ∧ unitCode n = [UInt8.ofNat (224 + n / 4096), UInt8.ofNat (128 + n / 64 % 64),
        UInt8.ofNat (128 + n % 64)] := by
  unfold unitCode
  split_ifs with hzero hone htwo
  · exact .inl ⟨hzero, rfl⟩
  · exact .inr (.inl ⟨Nat.pos_of_ne_zero hzero, hone, rfl⟩)
  · exact .inr (.inr (.inl ⟨Nat.le_of_not_lt hone, htwo, rfl⟩))
  · exact .inr (.inr (.inr ⟨Nat.le_of_not_lt htwo, rfl⟩))

/-- The marker bits and the payload of a byte do not overlap. -/
theorem marked (high k : ℕ) {marker : UInt8} {low : UInt16} (hmarker : marker.toNat = high * 2 ^ k)
    (hlow : low.toNat < 2 ^ k) (hbyte : high * 2 ^ k + low.toNat < 256) :
    marker ||| UInt16.toUInt8 low = UInt8.ofNat (high * 2 ^ k + low.toNat) := by
  apply UInt8.toNat_inj.mp
  have hadd := Nat.two_pow_add_eq_or_of_lt hlow high
  rw [Nat.mul_comm] at hadd
  rw [UInt8.toNat_or, UInt16.toNat_toUInt8, Nat.mod_eq_of_lt (by omega), hmarker, ← hadd,
    UInt8.toNat_ofNat_of_lt' hbyte]

theorem toNat_and_63 (cu : UInt16) : (cu &&& 0x3F).toNat = cu.toNat % 64 := by
  rw [UInt16.toNat_and]
  exact Nat.and_two_pow_sub_one_eq_mod cu.toNat 6

theorem toNat_shift (cu : UInt16) {k : ℕ} (h : k < 16) :
    (cu >>> UInt16.ofNat k).toNat = cu.toNat / 2 ^ k := by
  have hk : (UInt16.ofNat k).toNat = k := UInt16.toNat_ofNat_of_lt' (by simp [UInt16.size]; omega)
  rw [UInt16.toNat_shiftRight, hk, Nat.mod_eq_of_lt h, Nat.shiftRight_eq_div_pow]

theorem ofNat_ne_zero {n : ℕ} (h : 0 < n) (h' : n < 256) : UInt8.ofNat n ≠ 0 := by
  intro heq
  have := congrArg UInt8.toNat heq
  rw [UInt8.toNat_ofNat_of_lt' h'] at this
  simp at this
  omega

/-- The bytes of the unit with number `n`. -/
def cesu8Code (n : ℕ) : Bytes :=
  if n < 128 then [UInt8.ofNat n]
  else if n < 2048 then [UInt8.ofNat (192 + n / 64), UInt8.ofNat (128 + n % 64)]
  else [UInt8.ofNat (224 + n / 4096), UInt8.ofNat (128 + n / 64 % 64), UInt8.ofNat (128 + n % 64)]

theorem encodeCesu8Unit_eq (cu : UInt16) : encodeCesu8Unit cu = cesu8Code cu.toNat := by
  have hlt := cu.toNat_lt
  have hsix : (cu >>> 6).toNat = cu.toNat / 64 := toNat_shift cu (by norm_num)
  have htwelve : (cu >>> 12).toNat = cu.toNat / 4096 := toNat_shift cu (by norm_num)
  have hlow := toNat_and_63 cu
  have hmid : ((cu >>> 6) &&& 0x3F).toNat = cu.toNat / 64 % 64 := by rw [toNat_and_63, hsix]
  have h7f : cu ≤ 0x007F ↔ cu.toNat ≤ 0x7F := UInt16.le_iff_toNat_le
  have h7ff : cu ≤ 0x07FF ↔ cu.toNat ≤ 0x7FF := UInt16.le_iff_toNat_le
  unfold encodeCesu8Unit cesu8Code
  -- the source takes NUL first, although it is spelled as the other units of one byte
  by_cases h0 : cu = 0
  · rw [h0]
    rfl
  rw [if_neg h0]
  by_cases h1 : cu.toNat ≤ 0x7F
  · rw [if_pos (h7f.mpr h1), if_pos (Nat.lt_succ_of_le h1)]
    rfl
  rw [if_neg (mt h7f.mp h1), if_neg (mt Nat.le_of_lt_succ h1)]
  have hlast :
      (0x80 : UInt8) ||| UInt16.toUInt8 (cu &&& 0x3F) = UInt8.ofNat (128 + cu.toNat % 64) := by
    rw [marked 2 6 rfl (by rw [hlow]; omega) (by rw [hlow]; omega), hlow]
    rfl
  by_cases h2 : cu.toNat ≤ 0x7FF
  · rw [if_pos (h7ff.mpr h2), if_pos (Nat.lt_succ_of_le h2)]
    have hfirst :
        (0xC0 : UInt8) ||| UInt16.toUInt8 (cu >>> 6) = UInt8.ofNat (192 + cu.toNat / 64) := by
      rw [marked 3 6 rfl (by rw [hsix]; omega) (by rw [hsix]; omega), hsix]
      rfl
    rw [hfirst, hlast]
  · rw [if_neg (mt h7ff.mp h2), if_neg (mt Nat.le_of_lt_succ h2)]
    have hfirst : (0xE0 : UInt8) ||| UInt16.toUInt8 (cu >>> 12) =
        UInt8.ofNat (224 + cu.toNat / 4096) := by
      rw [marked 14 4 rfl (by rw [htwelve]; omega) (by rw [htwelve]; omega), htwelve]
      rfl
    have hmiddle : (0x80 : UInt8) ||| UInt16.toUInt8 ((cu >>> 6) &&& 0x3F) =
        UInt8.ofNat (128 + cu.toNat / 64 % 64) := by
      rw [marked 2 6 rfl (by rw [hmid]; omega) (by rw [hmid]; omega), hmid]
      rfl
    rw [hfirst, hmiddle, hlast]

theorem encodeCesu8Unit_escaped (cu : UInt16) :
    (encodeCesu8Unit cu).flatMap escapeByte = unitCode cu.toNat := by
  have hlt := cu.toNat_lt
  have hescape {n : ℕ} (h : 0 < n) (h' : n < 256) : escapeByte (UInt8.ofNat n) = [UInt8.ofNat n] :=
    escapeByte_of_ne (ofNat_ne_zero h h')
  rw [encodeCesu8Unit_eq]
  unfold cesu8Code
  rcases unitCode_cases cu.toNat with ⟨h, hcode⟩ | ⟨h, h', hcode⟩ | ⟨h, h', hcode⟩ | ⟨h, hcode⟩ <;>
    rw [hcode]
  · rw [h]
    rfl
  · rw [if_pos h', List.flatMap_singleton, hescape (by omega) (by omega)]
  · rw [if_neg (by omega), if_pos h', List.flatMap_cons, List.flatMap_singleton,
      hescape (by omega) (by omega), hescape (by omega) (by omega)]
    rfl
  · rw [if_neg (by omega), if_neg (by omega), List.flatMap_cons, List.flatMap_cons,
      List.flatMap_singleton, hescape (by omega) (by omega), hescape (by omega) (by omega),
      hescape (by omega) (by omega)]
    rfl

theorem cmp_ofNat_lt {m n : ℕ} (h : m < n) (hn : n < 256) :
    cmp (UInt8.ofNat m) (UInt8.ofNat n) = .lt := by
  rw [cmp_ofNat (h.trans hn) hn, cmp_eq_lt_iff]
  exact h

/-- One digit behind its marker. -/
theorem agrees_digit (marker : ℕ) {m n : ℕ} (hm : marker + m < 256) (hn : marker + n < 256) :
    Agrees cmp (cmp m n) [UInt8.ofNat (marker + m)] [UInt8.ofNat (marker + n)] := by
  have hsymbol := agrees_symbol (c := cmp) (UInt8.ofNat (marker + m)) (UInt8.ofNat (marker + n))
  rwa [cmp_ofNat hm hn, cmp_add_left] at hsymbol

/-- Units of one length compare digit by digit, the others by their first byte. -/
theorem unitCode_lt {m n : ℕ} (h : m < n) (hn : n < 65536) :
    Agrees cmp .lt (unitCode m) (unitCode n) := by
  have hmn : cmp m n = .lt := (cmp_eq_lt_iff m n).mpr h
  have hzero {k : ℕ} (hk : 0 < k) (hk' : k < 256) : cmp 0 (UInt8.ofNat k) = .lt :=
    cmp_ofNat_lt hk hk'
  rcases unitCode_cases m with ⟨hm, hcode⟩ | ⟨hm, hm', hcode⟩ | ⟨hm, hm', hcode⟩ | ⟨hm, hcode⟩ <;>
    rcases unitCode_cases n with ⟨hn', hcode'⟩ | ⟨hn', hn'', hcode'⟩ | ⟨hn', hn'', hcode'⟩ |
      ⟨hn', hcode'⟩ <;>
    rw [hcode, hcode']
  all_goals first
    | omega
    | exact agrees_of_lt (cmp_ofNat_lt (by omega) (by omega)) _ _
    | exact agrees_of_lt (hzero (by omega) (by omega)) _ _
    | skip
  · have hhigh := agrees_digit 192 (m := m / 64) (n := n / 64) (by omega) (by omega)
    have hlow := agrees_digit 128 (m := m % 64) (n := n % 64) (by omega) (by omega)
    have hboth := hhigh.append hlow
    rwa [cmp_div_mod, hmn] at hboth
  · have hhigh := agrees_digit 224 (m := m / 4096) (n := n / 4096) (by omega) (by omega)
    have hmid := agrees_digit 128 (m := m / 64 % 64) (n := n / 64 % 64) (by omega) (by omega)
    have hlow := agrees_digit 128 (m := m % 64) (n := n % 64) (by omega) (by omega)
    have hquot : cmp (m / 4096) (n / 4096) = cmp (m / 64 / 64) (n / 64 / 64) := by
      rw [Nat.div_div_eq_div_mul, Nat.div_div_eq_div_mul]
    have hall := (hhigh.append hmid).append hlow
    rwa [hquot, cmp_div_mod, cmp_div_mod, hmn] at hall

theorem agrees_unit (a b : UInt16) :
    Agrees cmp (cmp a b) (unitCode a.toNat) (unitCode b.toNat) := by
  rcases lt_trichotomy a b with h | h | h
  · rw [(cmp_eq_lt_iff a b).mpr h]
    exact unitCode_lt (UInt16.lt_iff_toNat_lt.mp h) b.toNat_lt
  · rw [h, cmp_self_eq_eq]
    exact agrees_self _
  · rw [(cmp_eq_gt_iff a b).mpr h]
    exact (unitCode_lt (UInt16.lt_iff_toNat_lt.mp h) a.toNat_lt).swap

theorem terminator_lt_unitCode {n : ℕ} (hn : n < 65536) :
    Agrees cmp .lt escapeTerminator (unitCode n) := by
  rcases unitCode_cases n with ⟨h, hcode⟩ | ⟨h, h', hcode⟩ | ⟨h, h', hcode⟩ | ⟨h, hcode⟩ <;>
    rw [hcode]
  · exact (agrees_of_lt (by decide) [] []).cons 0
  all_goals exact agrees_of_lt (cmp_ofNat_lt (m := 0) (by omega) (by omega)) _ _

theorem encodeStringCesu8_eq (units : Utf16String) :
    encodeStringCesu8 units = units.flatMap (fun cu => unitCode cu.toNat) ++ escapeTerminator := by
  rw [encodeStringCesu8, List.flatMap_assoc]
  simp only [encodeCesu8Unit_escaped]

theorem agrees_string (a b : Utf16String) :
    Agrees cmp (a.compareLex cmp b) (encodeStringCesu8 a) (encodeStringCesu8 b) := by
  rw [encodeStringCesu8_eq, encodeStringCesu8_eq]
  exact agrees_items a b (fun x _ y _ => agrees_unit x y)
    fun x _ => terminator_lt_unitCode x.toNat_lt

/-! ### Nested keys -/

/-- No number or date inside is a NaN. -/
inductive Numeric : Key → Prop
  | number {n : F64Bits} (h : F64Bits.isNaN n = false) : Numeric (.number n)
  | date {d : F64Bits} (h : F64Bits.isNaN d = false) : Numeric (.date d)
  | string (s : Utf16String) : Numeric (.string s)
  | binary (b : Bytes) : Numeric (.binary b)
  | array {items : List Key} (h : ∀ item ∈ items, Numeric item) : Numeric (.array items)

def tag : Key → UInt8
  | .number _ => tagNumber
  | .date _ => tagDate
  | .string _ => tagString
  | .binary _ => tagBinary
  | .array _ => tagArray

mutual

/-- What follows the tag. -/
def body : Key → Bytes
  | .number n => encodeF64Orderable n
  | .date d => encodeF64Orderable d
  | .string s => encodeStringCesu8 s
  | .binary b => encodeBinary b
  | .array items => itemsCode items ++ [tagArrayTerminator]

def itemsCode : List Key → Bytes
  | [] => []
  | item :: items => tag item :: body item ++ itemsCode items

end

/-- The encoding without its limits. -/
def code (key : Key) : Bytes := key.tag :: key.body

theorem itemsCode_eq (items : List Key) : itemsCode items = items.flatMap code := by
  induction items with
  | nil => simp [itemsCode]
  | cons item items ih => rw [itemsCode, ih, List.flatMap_cons, code]

mutual

theorem encodeKeyInternal_eq {limits : LimitConfig} {depth : ℕ} {key : Key} {bytes : Bytes}
    (h : encodeKeyInternal limits depth key = .ok bytes) : bytes = key.code := by
  unfold encodeKeyInternal at h
  split at h
  next => cases h
  next =>
    cases key with
    | number n => cases h; simp only [code, tag, body]
    | date d => cases h; simp only [code, tag, body]
    | string s => cases h; simp only [code, tag, body]
    | binary b => cases h; simp only [code, tag, body]
    | array items =>
        cases hitems : encodeItems limits (depth + 1) items with
        | error e => simp [hitems, bind, Except.bind] at h
        | ok inner =>
            have hinner := encodeItems_eq hitems
            simp only [hitems, bind, Except.bind, Except.ok.injEq] at h
            rw [← h, hinner, code, tag, body]

theorem encodeItems_eq {limits : LimitConfig} {depth : ℕ} {items : List Key} {bytes : Bytes}
    (h : encodeItems limits depth items = .ok bytes) : bytes = itemsCode items := by
  cases items with
  | nil =>
      rw [encodeItems] at h
      cases h
      rw [itemsCode]
  | cons item items =>
      rw [encodeItems] at h
      cases hitem : encodeKeyInternal limits depth item with
      | error e => simp [hitem, bind, Except.bind] at h
      | ok first =>
          cases hrest : encodeItems limits depth items with
          | error e => simp [hitem, hrest, bind, Except.bind] at h
          | ok rest =>
              have hfirst := encodeKeyInternal_eq hitem
              have hrest' := encodeItems_eq hrest
              simp only [hitem, hrest, bind, Except.bind, Except.ok.injEq] at h
              rw [← h, hfirst, hrest', code, itemsCode]

end

mutual

theorem numeric_of_validate {limits : LimitConfig} {depth : ℕ} {key : Key}
    (h : validateRecursive limits depth key = .ok ()) : key.Numeric := by
  unfold validateRecursive at h
  split at h
  next => cases h
  next =>
    cases key with
    | number n => exact .number (by simpa using h)
    | date d => exact .date (by simpa using h)
    | string s => exact .string s
    | binary b => exact .binary b
    | array items => exact .array (numeric_of_validateItems h)

theorem numeric_of_validateItems {limits : LimitConfig} {depth : ℕ} {items : List Key}
    (h : validateItems limits depth items = .ok ()) : ∀ item ∈ items, item.Numeric := by
  cases items with
  | nil => simp
  | cons item items =>
      rw [validateItems] at h
      cases hitem : validateRecursive limits depth item with
      | error e => simp [hitem, bind, Except.bind] at h
      | ok u =>
          have hfirst := numeric_of_validate hitem
          simp only [hitem, bind, Except.bind] at h
          have hrest := numeric_of_validateItems h
          simpa using ⟨hfirst, hrest⟩

end

theorem compareKeys_number (x y : F64Bits) :
    compareKeys (.number x) (.number y) = compareF64 x y :=
  rfl

theorem compareKeys_date (x y : F64Bits) : compareKeys (.date x) (.date y) = compareF64 x y :=
  rfl

theorem compareKeys_string (x y : Utf16String) :
    compareKeys (.string x) (.string y) = x.compareLex cmp y :=
  rfl

theorem compareKeys_binary (x y : Bytes) :
    compareKeys (.binary x) (.binary y) = x.compareLex cmp y :=
  rfl

/-- The items that both arrays have, then the lengths. -/
theorem compareKeys_array (as bs : List Key) :
    compareKeys (.array as) (.array bs) = as.compareLex compareKeys bs := by
  have hitems :
      (compareItems as bs).then (cmp as.length bs.length) = as.compareLex compareKeys bs := by
    induction as generalizing bs with
    | nil =>
        cases bs with
        | nil =>
            rw [compareItems]
            · rfl
            · simp
        | cons b bs =>
            rw [compareItems]
            · exact (cmp_eq_lt_iff _ _).mpr (Nat.succ_pos _)
            · simp
    | cons a as ih =>
        cases bs with
        | nil =>
            rw [compareItems]
            · exact (cmp_eq_gt_iff _ _).mpr (Nat.succ_pos _)
            · simp
        | cons b bs =>
            have hlength : cmp (a :: as).length (b :: bs).length = cmp as.length bs.length := by
              rw [List.length_cons, List.length_cons, cmp_add_right]
            rw [compareItems, hlength, List.compareLex_cons_cons, ← ih]
            cases compareKeys a b <;> rfl
  exact hitems

/-- The tags are ordered like the types. -/
theorem cmp_tag (a b : Key) : cmp a.tag b.tag = cmp a.typeOrder b.typeOrder := by
  cases a <;> cases b <;> rfl

theorem compareKeys_of_ne {a b : Key} (h : a.typeOrder ≠ b.typeOrder) :
    compareKeys a b = cmp a.typeOrder b.typeOrder := by
  cases a <;> cases b <;> first | rfl | exact absurd rfl h

theorem agrees_code_of_ne {a b : Key} (h : a.typeOrder ≠ b.typeOrder) :
    Agrees cmp (compareKeys a b) a.code b.code := by
  rw [compareKeys_of_ne h]
  rcases lt_or_gt_of_ne h with hlt | hgt
  · rw [(cmp_eq_lt_iff _ _).mpr hlt]
    refine agrees_of_lt ?_ a.body b.body
    rw [cmp_tag, (cmp_eq_lt_iff _ _).mpr hlt]
  · rw [(cmp_eq_gt_iff _ _).mpr hgt]
    refine (agrees_of_lt ?_ b.body a.body).swap
    rw [cmp_tag, (cmp_eq_lt_iff _ _).mpr hgt]

/-- The terminator of an array is smaller than any tag. -/
theorem terminator_lt_code (key : Key) : Agrees cmp .lt [tagArrayTerminator] key.code :=
  agrees_of_lt (by cases key <;> rfl) _ _

/-- Encodings compare like their keys, whatever follows them. -/
theorem agrees_code {a b : Key} (ha : a.Numeric) (hb : b.Numeric) :
    Agrees cmp (compareKeys a b) a.code b.code := by
  induction ha generalizing b with
  | number hx =>
      cases hb with
      | number hy =>
          have hbody := (agrees_f64 hx hy).cons tagNumber
          rwa [← compareKeys_number] at hbody
      | _ => exact agrees_code_of_ne (by simp [typeOrder])
  | date hx =>
      cases hb with
      | date hy =>
          have hbody := (agrees_f64 hx hy).cons tagDate
          rwa [← compareKeys_date] at hbody
      | _ => exact agrees_code_of_ne (by simp [typeOrder])
  | string x =>
      cases hb with
      | string y =>
          have hbody := (agrees_string x y).cons tagString
          rwa [← compareKeys_string] at hbody
      | _ => exact agrees_code_of_ne (by simp [typeOrder])
  | binary x =>
      cases hb with
      | binary y =>
          have hbody := (agrees_binary x y).cons tagBinary
          rwa [← compareKeys_binary] at hbody
      | _ => exact agrees_code_of_ne (by simp [typeOrder])
  | @array as hx ih =>
      cases hb with
      | @array bs hy =>
          have hitems := agrees_items as bs (fun a ha b hb => ih a ha (hy b hb))
            fun item _ => terminator_lt_code item
          rw [compareKeys_array, code, code, body, body, itemsCode_eq, itemsCode_eq]
          exact hitems.cons tagArray
      | _ => exact agrees_code_of_ne (by simp [typeOrder])

theorem encodeKey_ok {limits : LimitConfig} {key : Key} {bytes : Bytes}
    (h : key.encodeKey limits = .ok bytes) :
    key.validate limits = .ok () ∧ encodeKeyInternal limits 0 key = .ok bytes := by
  unfold encodeKey at h
  cases hvalid : key.validate limits with
  | error e => simp [hvalid, bind, Except.bind] at h
  | ok u =>
      cases hcode : encodeKeyInternal limits 0 key with
      | error e => simp [hvalid, hcode, bind, Except.bind] at h
      | ok inner =>
          simp only [hvalid, hcode, bind, Except.bind] at h
          split at h
          next => cases h
          next =>
            cases h
            exact ⟨rfl, rfl⟩

theorem encodeKey_eq {limits : LimitConfig} {key : Key} {bytes : Bytes}
    (h : key.encodeKey limits = .ok bytes) : key.Numeric ∧ bytes = key.code :=
  ⟨numeric_of_validate (encodeKey_ok h).1, encodeKeyInternal_eq (encodeKey_ok h).2⟩

/-- Encodings compare like their keys. -/
theorem compareLex_encodeKey {a b : Key} {limits limits' : LimitConfig} {x y : Bytes}
    (hx : a.encodeKey limits = .ok x) (hy : b.encodeKey limits' = .ok y) :
    x.compareLex cmp y = compareKeys a b := by
  obtain ⟨ha, rfl⟩ := encodeKey_eq hx
  obtain ⟨hb, rfl⟩ := encodeKey_eq hy
  exact (agrees_code ha hb).compareLex_eq

theorem encodeKey_lt_iff {a b : Key} {limits limits' : LimitConfig} {x y : Bytes}
    (hx : a.encodeKey limits = .ok x) (hy : b.encodeKey limits' = .ok y) :
    x < y ↔ compareKeys a b = .lt := by
  rw [← compareLex_eq_lt_iff, compareLex_encodeKey hx hy]

theorem encodeKey_le_iff {a b : Key} {limits limits' : LimitConfig} {x y : Bytes}
    (hx : a.encodeKey limits = .ok x) (hy : b.encodeKey limits' = .ok y) :
    x ≤ y ↔ compareKeys a b ≠ .gt := by
  rw [← not_lt, ← compareLex_eq_lt_iff, ← compareLex_swap, compareLex_encodeKey hx hy]
  cases compareKeys a b <;> decide

/-! ### Ranges -/

theorem aboveLower_eq {key lower : Key} {limits limits' : LimitConfig} {k l : Bytes}
    (hl : lower.encodeKey limits = .ok l) (hk : key.encodeKey limits' = .ok k) (isOpen : Bool)
    (upper : Option (Bytes × Bool)) :
    EncodedRange.aboveLower ⟨some (l, isOpen), upper⟩ k =
      if isOpen then lower.compareKeys key == .lt else lower.compareKeys key != .gt := by
  cases isOpen with
  | true => simp [EncodedRange.aboveLower, encodeKey_lt_iff hl hk, beq_eq_decide]
  | false => simp [EncodedRange.aboveLower, encodeKey_le_iff hl hk, bne, beq_eq_decide]

theorem belowUpper_eq {key upper : Key} {limits limits' : LimitConfig} {k u : Bytes}
    (hu : upper.encodeKey limits = .ok u) (hk : key.encodeKey limits' = .ok k) (isOpen : Bool)
    (lower : Option (Bytes × Bool)) :
    EncodedRange.belowUpper ⟨lower, some (u, isOpen)⟩ k =
      if isOpen then key.compareKeys upper == .lt else key.compareKeys upper != .gt := by
  cases isOpen with
  | true => simp [EncodedRange.belowUpper, encodeKey_lt_iff hk hu, beq_eq_decide]
  | false => simp [EncodedRange.belowUpper, encodeKey_le_iff hk hu, bne, beq_eq_decide]

/-- An encoded range holds the encodings of the keys that the range includes. -/
theorem contains_eq_includes {r : KeyRange} {limits limits' : LimitConfig} {e : EncodedRange}
    {key : Key} {k : Bytes} (he : r.toData.toEncoded limits = .ok e)
    (hk : key.encodeKey limits' = .ok k) : e.contains k = r.includes key := by
  obtain ⟨lower, upper, lowerOpen, upperOpen⟩ := r
  cases lower with
  | none =>
      cases upper with
      | none =>
          cases he
          rfl
      | some u =>
          cases hu : u.encodeKey limits with
          | error err => simp [KeyRange.toData, RangeData.toEncoded, hu, bind, Except.bind] at he
          | ok ub =>
              simp only [KeyRange.toData, RangeData.toEncoded, Option.map_some, Option.map_none, hu,
                bind, Except.bind, Except.ok.injEq] at he
              rw [← he, EncodedRange.contains, belowUpper_eq hu hk, KeyRange.includes]
              rfl
  | some l =>
      cases hl : l.encodeKey limits with
      | error err =>
          cases upper <;>
            simp [KeyRange.toData, RangeData.toEncoded, hl, bind, Except.bind] at he
      | ok lb =>
          cases upper with
          | none =>
              simp only [KeyRange.toData, RangeData.toEncoded, Option.map_some, Option.map_none, hl,
                bind, Except.bind, Except.ok.injEq] at he
              rw [← he, EncodedRange.contains, aboveLower_eq hl hk, KeyRange.includes]
              rfl
          | some u =>
              cases hu : u.encodeKey limits with
              | error err =>
                  simp [KeyRange.toData, RangeData.toEncoded, hl, hu, bind, Except.bind] at he
              | ok ub =>
                  simp only [KeyRange.toData, RangeData.toEncoded, Option.map_some, hl, hu,
                    bind, Except.bind, Except.ok.injEq] at he
                  rw [← he, EncodedRange.contains, aboveLower_eq hl hk, belowUpper_eq hu hk,
                    KeyRange.includes]

/-- The encoding preserves the order of keys, and ranges of encodings hold what the
ranges of keys include. -/
theorem encodeKey_preserves_order :
    (∀ (a b : Key) (limits limits' : LimitConfig) (x y : Bytes),
      a.encodeKey limits = .ok x → b.encodeKey limits' = .ok y →
        x.compareLex cmp y = compareKeys a b) ∧
    ∀ (r : KeyRange) (key : Key) (limits limits' : LimitConfig) (e : EncodedRange) (k : Bytes),
      r.toData.toEncoded limits = .ok e → key.encodeKey limits' = .ok k →
        e.contains k = r.includes key :=
  ⟨fun _ _ _ _ _ _ => compareLex_encodeKey, fun _ _ _ _ _ _ => contains_eq_includes⟩

/-- An array whose string is a proper start of the other one's, behind an escape. -/
theorem encodeKey_preserves_order_nested :
    [0x50, 0x30, 0x00, 0xFF, 0x00, 0x00, 0x50, 0x00, 0x00].compareLex cmp
        [0x50, 0x30, 0x00, 0xFF, 0xED, 0xA0, 0x80, 0x00, 0x00, (0x00 : UInt8)] =
      compareKeys (.array [.string [0], .array []]) (.array [.string [0, 0xD800]]) ∧
    EncodedRange.contains
        ⟨some ([0x10, 0x80, 0, 0, 0, 0, 0, 0, 0], true), some ([0x50, 0x00], false)⟩
        [0x40, 0x00, 0xFF, 0x00, 0x00] =
      KeyRange.includes ⟨some (.number 0x8000000000000000), some (.array []), true, false⟩
        (.binary [0]) :=
  ⟨encodeKey_preserves_order.1 _ _ {} {} _ _ rfl rfl,
    encodeKey_preserves_order.2 _ _ {} {} _ _ rfl rfl⟩

end BoaIdb.Key
