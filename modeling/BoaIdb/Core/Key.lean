import BoaIdb.Core.Float64
import BoaIdb.Lib.ByteCodec

/-!
Keys, their comparison, and the `KEY-v1` encoding.
-/

namespace BoaIdb

open ByteCodec

inductive Key
  | number (n : F64Bits)
  | date (d : F64Bits)
  | string (s : Utf16String)
  | binary (b : Bytes)
  | array (items : List Key)
  deriving Repr

/-- Safety limits and quotas. -/
structure LimitConfig where
  maxKeyLen : ℕ := 1024 * 1024
  maxKeyDepth : ℕ := 32
  maxValueLen : ℕ := 64 * 1024 * 1024
  maxCloneDepth : ℕ := 512
  deriving DecidableEq, Repr

inductive KeyError
  | invalidType (msg : String)
  | invalidValue (msg : String)
  | keyTooLarge (limit actual : ℕ)
  | maxDepthExceeded (limit : ℕ)
  | invalidEncoding (msg : String)
  | unexpectedEof
  deriving DecidableEq, Repr

namespace Key

/-! ### Validation -/

mutual

/-- `validate_recursive`. -/
def validateRecursive (limits : LimitConfig) (depth : ℕ) (key : Key) : Except KeyError Unit :=
  if limits.maxKeyDepth < depth then .error (.maxDepthExceeded limits.maxKeyDepth)
  else match key with
    | .number n =>
        if F64Bits.isNaN n then .error (.invalidValue "Number key cannot be NaN") else .ok ()
    | .date d =>
        if F64Bits.isNaN d then .error (.invalidValue "Date key cannot be NaN") else .ok ()
    | .string _ => .ok ()
    | .binary _ => .ok ()
    | .array items => validateItems limits (depth + 1) items

def validateItems (limits : LimitConfig) (depth : ℕ) : List Key → Except KeyError Unit
  | [] => .ok ()
  | item :: items => do
      validateRecursive limits depth item
      validateItems limits depth items

end

def validate (key : Key) (limits : LimitConfig) : Except KeyError Unit :=
  validateRecursive limits 0 key

/-! ### Comparison -/

def typeOrder : Key → UInt8
  | .number _ => 1
  | .date _ => 2
  | .string _ => 3
  | .binary _ => 4
  | .array _ => 5

/-- Doubles with both zeros as one. -/
def compareF64 (x y : F64Bits) : Ordering :=
  (F64Bits.partialCmp (F64Bits.normZero x) (F64Bits.normZero y)).getD .eq

mutual

/-- `compare_keys`. -/
def compareKeys (a b : Key) : Ordering :=
  if typeOrder a ≠ typeOrder b then cmp (typeOrder a) (typeOrder b)
  else match a, b with
    | .number x, .number y => compareF64 x y
    | .date x, .date y => compareF64 x y
    | .string x, .string y => x.compareLex cmp y
    | .binary x, .binary y => x.compareLex cmp y
    | .array x, .array y =>
        match compareItems x y with
        | .eq => cmp x.length y.length
        | ord => ord
    -- excluded by the order of the types
    | _, _ => .eq

/-- The items that both arrays have. -/
def compareItems : List Key → List Key → Ordering
  | a :: as, b :: bs =>
      match compareKeys a b with
      | .eq => compareItems as bs
      | ord => ord
  | _, _ => .eq

end

/-! ### Encoding -/

def tagNumber : UInt8 := 0x10
def tagDate : UInt8 := 0x20
def tagString : UInt8 := 0x30
def tagBinary : UInt8 := 0x40
def tagArray : UInt8 := 0x50
def tagArrayTerminator : UInt8 := 0x00

def signBit : UInt64 := 0x8000000000000000

/-- `encode_f64_orderable`: negative numbers with all bits inverted, the others with
the sign bit set. -/
def encodeF64Orderable (val : F64Bits) : Bytes :=
  let bits := F64Bits.normZero val
  let ord := if bits &&& signBit ≠ 0 then ~~~bits else bits ||| signBit
  bigEndian 8 ord.toNat

/-- `encode_cesu8_unit`; `U+0000` is the byte `0x00`. -/
def encodeCesu8Unit (cu : UInt16) : Bytes :=
  if cu = 0 then [0x00]
  else if cu ≤ 0x007F then [cu.toUInt8]
  else if cu ≤ 0x07FF then
    [(0xC0 : UInt8) ||| UInt16.toUInt8 (cu >>> 6), (0x80 : UInt8) ||| UInt16.toUInt8 (cu &&& 0x3F)]
  else
    [(0xE0 : UInt8) ||| UInt16.toUInt8 (cu >>> 12),
      (0x80 : UInt8) ||| UInt16.toUInt8 ((cu >>> 6) &&& 0x3F),
      (0x80 : UInt8) ||| UInt16.toUInt8 (cu &&& 0x3F)]

/-- `0x00` becomes `0x00 0xFF`. -/
def escapeByte (b : UInt8) : Bytes := if b = 0x00 then [0x00, 0xFF] else [b]

def escapeTerminator : Bytes := [0x00, 0x00]

def encodeStringCesu8 (units : Utf16String) : Bytes :=
  (units.flatMap encodeCesu8Unit).flatMap escapeByte ++ escapeTerminator

def encodeBinary (data : Bytes) : Bytes := data.flatMap escapeByte ++ escapeTerminator

mutual

/-- `encode_key_internal`: the bytes that are appended. -/
def encodeKeyInternal (limits : LimitConfig) (depth : ℕ) (key : Key) : Except KeyError Bytes :=
  if limits.maxKeyDepth < depth then .error (.maxDepthExceeded limits.maxKeyDepth)
  else match key with
    | .number n => .ok (tagNumber :: encodeF64Orderable n)
    | .date d => .ok (tagDate :: encodeF64Orderable d)
    | .string s => .ok (tagString :: encodeStringCesu8 s)
    | .binary b => .ok (tagBinary :: encodeBinary b)
    | .array items => do
        let bytes ← encodeItems limits (depth + 1) items
        .ok (tagArray :: (bytes ++ [tagArrayTerminator]))

def encodeItems (limits : LimitConfig) (depth : ℕ) : List Key → Except KeyError Bytes
  | [] => .ok []
  | item :: items => do
      let bytes ← encodeKeyInternal limits depth item
      let rest ← encodeItems limits depth items
      .ok (bytes ++ rest)

end

/-- `encode_key`, onto an empty buffer. -/
def encodeKey (key : Key) (limits : LimitConfig) : Except KeyError Bytes := do
  key.validate limits
  let bytes ← encodeKeyInternal limits 0 key
  if limits.maxKeyLen < bytes.length then .error (.keyTooLarge limits.maxKeyLen bytes.length)
  else .ok bytes

end Key

/-! ### Key ranges -/

/-- The data of an `IDBKeyRange`. -/
structure KeyRange where
  lower : Option Key
  upper : Option Key
  lowerOpen : Bool
  upperOpen : Bool

/-- `IDBKeyRange.includes`. -/
def KeyRange.includes (r : KeyRange) (key : Key) : Bool :=
  let inLower := match r.lower with
    | some lower =>
        if r.lowerOpen then lower.compareKeys key == .lt else lower.compareKeys key != .gt
    | none => true
  let inUpper := match r.upper with
    | some upper =>
        if r.upperOpen then key.compareKeys upper == .lt else key.compareKeys upper != .gt
    | none => true
  inLower && inUpper

/-- A key range in plain form. -/
inductive RangeData
  | all
  | only (key : Key)
  | bounds (lower upper : Option (Key × Bool))

def KeyRange.toData (r : KeyRange) : RangeData :=
  .bounds (r.lower.map (·, r.lowerOpen)) (r.upper.map (·, r.upperOpen))

/-- `RangeData::to_encoded`. -/
def RangeData.toEncoded (limits : LimitConfig) : RangeData → Except KeyError EncodedRange
  | .all => .ok .all
  | .only k => do
      let key ← k.encodeKey limits
      .ok (.only key)
  | .bounds none none => .ok .all
  | .bounds (some (l, lo)) none => do
      let lower ← l.encodeKey limits
      .ok ⟨some (lower, lo), none⟩
  | .bounds none (some (u, uo)) => do
      let upper ← u.encodeKey limits
      .ok ⟨none, some (upper, uo)⟩
  | .bounds (some (l, lo)) (some (u, uo)) => do
      let lower ← l.encodeKey limits
      let upper ← u.encodeKey limits
      .ok ⟨some (lower, lo), some (upper, uo)⟩

end BoaIdb
