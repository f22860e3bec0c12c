import BoaIdb.Clone.Varint
import BoaIdb.Core.Crc32c

/-!
The SCF binary encoder.

Depth and size are checked when a value is entered; what a value writes after that is
not checked again.
-/

namespace BoaIdb.Clone

open ByteCodec

def tagUndefined : UInt8 := 0x00
def tagNull : UInt8 := 0x01
def tagFalse : UInt8 := 0x02
def tagTrue : UInt8 := 0x03
def tagInt32 : UInt8 := 0x04
def tagDouble : UInt8 := 0x05
def tagString : UInt8 := 0x06
def tagBigInt : UInt8 := 0x07
def tagDate : UInt8 := 0x08
def tagRegExp : UInt8 := 0x09
def tagArray : UInt8 := 0x0A
def tagObject : UInt8 := 0x0B
def tagMap : UInt8 := 0x0C
def tagSet : UInt8 := 0x0D
def tagError : UInt8 := 0x0E
def tagArrayBuffer : UInt8 := 0x0F
def tagTypedArray : UInt8 := 0x10
def tagDataView : UInt8 := 0x11
def tagBoxed : UInt8 := 0x12
def tagMemoRef : UInt8 := 0x13
def tagHole : UInt8 := 0x14

def boxedBool : UInt8 := 0
def boxedNum : UInt8 := 1
def boxedStr : UInt8 := 2
def boxedBig : UInt8 := 3

/-- `IDB1`. -/
def scfMagic : Bytes := [0x49, 0x44, 0x42, 0x31]

def scfVersion : UInt8 := 2

/-! ### Big integers -/

/-- `num_bigint::Sign`. -/
inductive Sign
  | minus
  | noSign
  | plus
  deriving DecidableEq, Repr

/-- What the codec takes from elsewhere: the conversions of `num_bigint` between integers and
little-endian magnitudes, and the bytes that the compiler gives an `Option<ScValue>`. -/
structure CodecEnv where
  toBytesLe : ℤ → Sign × Bytes
  fromBytesLe : Sign → Bytes → ℤ
  slotSize : ℕ

/-- What the codec relies on: sign and magnitude give back the integer, and zero, the one
without a sign, comes back under a plus as well. -/
structure CodecEnv.Lawful (env : CodecEnv) : Prop where
  round_trip : ∀ n, env.fromBytesLe (env.toBytesLe n).1 (env.toBytesLe n).2 = n
  zero_plus : ∀ n, (env.toBytesLe n).1 = .noSign → env.fromBytesLe .plus (env.toBytesLe n).2 = n

/-! ### Values without nested ones -/

/-- The integer a double is written as, if its bits come back from that. -/
def asInt32 (n : F64Bits) : Option ℤ :=
  if F64Bits.fractIsZero n && (!F64Bits.isZero n || !F64Bits.isNegative n) &&
      F64Bits.leF64 (F64Bits.ofInt (-2 ^ 31)) n && F64Bits.leF64 n (F64Bits.ofInt (2 ^ 31 - 1)) then
    let i := F64Bits.toI32 n
    if F64Bits.eqF64 (F64Bits.ofInt i) n then some i else none
  else none

def encodeNumber (n : F64Bits) : Bytes :=
  match asInt32 n with
  | some i => tagInt32 :: encodeIvarint (Int64.ofInt i)
  | none => tagDouble :: littleEndian 8 n.toNat

/-- `len as u64`. -/
def encodeLen (len : ℕ) : Bytes := encodeUvarint (UInt64.ofNat len)

def encodeBigInt (env : CodecEnv) (n : ℤ) : Bytes :=
  let (sign, bytes) := env.toBytesLe n
  let signByte : UInt8 := if sign = .minus then 1 else 0
  tagBigInt :: signByte :: (encodeLen bytes.length ++ bytes)

def encodeStringValue (s : Utf16String) : Bytes :=
  encodeLen s.length ++ s.flatMap fun unit => littleEndian 2 unit.toNat

def encodeString (s : Utf16String) : Bytes := tagString :: encodeStringValue s

def encodeDate (d : F64Bits) : Bytes := tagDate :: littleEndian 8 d.toNat

def encodeRegExp (pattern : Utf16String) (flags : RegExpFlags) : Bytes :=
  tagRegExp :: (encodeStringValue pattern ++ encodeUvarint flags.toBitfield.toUInt64)

/-- The maximum plus one, which wraps around, or zero for a buffer of fixed length. -/
def encodeMaxByteLength : Option UInt64 → Bytes
  | some max => encodeUvarint (max + 1)
  | none => encodeUvarint 0

def encodeArrayBuffer (data : Bytes) (maxByteLength : Option UInt64) : Bytes :=
  tagArrayBuffer :: (encodeMaxByteLength maxByteLength ++ (encodeLen data.length ++ data))

/-- bit 0: message, bit 1: cause, bit 2: errors. -/
def errorFlags (hasMessage hasCause hasErrors : Bool) : UInt8 :=
  (if hasMessage then 1 else 0) ||| (if hasCause then 2 else 0) ||| (if hasErrors then 4 else 0)

/-! ### Encoder -/

structure ScfEncoder where
  buf : Bytes
  nextMemo : ℕ

namespace ScfEncoder

/-- The header: magic, version, flags and two reserved bytes. -/
def new : ScfEncoder := ⟨scfMagic ++ [scfVersion, 0, 0, 0], 0⟩

def push (enc : ScfEncoder) (bytes : Bytes) : ScfEncoder := { enc with buf := enc.buf ++ bytes }

def allocateMemo (enc : ScfEncoder) : ScfEncoder := { enc with nextMemo := enc.nextMemo + 1 }

def finish (enc : ScfEncoder) : Bytes := enc.buf ++ littleEndian 4 (crc32c enc.buf).toNat

end ScfEncoder

section Values

variable (env : CodecEnv) (limits : LimitConfig)

mutual

/-- `encode_with_depth`. -/
def encodeWithDepth (depth : ℕ) (enc : ScfEncoder) (value : ScValue) : Except ScError ScfEncoder :=
  if limits.maxCloneDepth < depth then .error (.maxDepthExceeded limits.maxCloneDepth)
  else if limits.maxValueLen < enc.buf.length then
    .error (.valueTooLarge limits.maxValueLen enc.buf.length)
  else match value with
    | .undefined => .ok (enc.push [tagUndefined])
    | .null => .ok (enc.push [tagNull])
    | .boolean b => .ok (enc.push [if b then tagTrue else tagFalse])
    | .number n => .ok (enc.push (encodeNumber n))
    | .bigInt n => .ok (enc.push (encodeBigInt env n))
    | .string s => .ok (enc.push (encodeString s))
    | .date d => .ok (enc.push (encodeDate d))
    | .regExp pattern flags => .ok (enc.push (encodeRegExp pattern flags))
    | .array elements extraProps => do
        let enc := enc.allocateMemo.push (tagArray :: (encodeLen elements.length ++
          encodeLen elements.reduceOption.length))
        let enc ← encodeItems (depth + 1) 0 enc elements
        encodeProps (depth + 1) (enc.push (encodeLen extraProps.length)) extraProps
    | .object entries =>
        encodeProps (depth + 1)
          (enc.allocateMemo.push (tagObject :: encodeLen entries.length)) entries
    | .map pairs =>
        encodePairs (depth + 1) (enc.allocateMemo.push (tagMap :: encodeLen pairs.length)) pairs
    | .set values =>
        encodeValues (depth + 1) (enc.allocateMemo.push (tagSet :: encodeLen values.length)) values
    | .error kind message cause errors => do
        let enc := enc.allocateMemo.push
          [tagError, kind.toU8, errorFlags message.isSome cause.isSome errors.isSome]
        let enc ← encodeCause (depth + 1) (enc.push (message.elim [] encodeStringValue)) cause
        encodeErrors (depth + 1) enc errors
    | .arrayBuffer data maxByteLength =>
        .ok (enc.allocateMemo.push (encodeArrayBuffer data maxByteLength))
    | .typedArray kind byteOffset length buffer =>
        encodeWithDepth (depth + 1) (enc.allocateMemo.push
          (tagTypedArray :: kind.toU8 :: (encodeUvarint byteOffset ++ encodeUvarint length))) buffer
    | .dataView byteOffset byteLength buffer =>
        encodeWithDepth (depth + 1) (enc.allocateMemo.push
          (tagDataView :: (encodeUvarint byteOffset ++ encodeUvarint byteLength))) buffer
    | .boxedBoolean b =>
        .ok (enc.allocateMemo.push [tagBoxed, boxedBool, if b then tagTrue else tagFalse])
    | .boxedNumber n => .ok (enc.allocateMemo.push (tagBoxed :: boxedNum :: encodeNumber n))
    | .boxedString s => .ok (enc.allocateMemo.push (tagBoxed :: boxedStr :: encodeString s))
    | .boxedBigInt n => .ok (enc.allocateMemo.push (tagBoxed :: boxedBig :: encodeBigInt env n))
    | .memoRef idx => .ok (enc.push (tagMemoRef :: encodeUvarint idx))

/-- The elements that are not holes, each behind its index. -/
def encodeItems (depth i : ℕ) (enc : ScfEncoder) : List (Option ScValue) → Except ScError ScfEncoder
  | [] => .ok enc
  | none :: elements => encodeItems depth (i + 1) enc elements
  | some v :: elements => do
      let enc ← encodeWithDepth depth (enc.push (encodeLen i)) v
      encodeItems depth (i + 1) enc elements

def encodeProps (depth : ℕ) (enc : ScfEncoder) :
    List (Utf16String × ScValue) → Except ScError ScfEncoder
  | [] => .ok enc
  | (key, val) :: props => do
      let enc ← encodeWithDepth depth (enc.push (encodeStringValue key)) val
      encodeProps depth enc props

def encodePairs (depth : ℕ) (enc : ScfEncoder) :
    List (ScValue × ScValue) → Except ScError ScfEncoder
  | [] => .ok enc
  | (k, v) :: pairs => do
      let enc ← encodeWithDepth depth enc k
      let enc ← encodeWithDepth depth enc v
      encodePairs depth enc pairs

def encodeValues (depth : ℕ) (enc : ScfEncoder) : List ScValue → Except ScError ScfEncoder
  | [] => .ok enc
  | v :: values => do
      let enc ← encodeWithDepth depth enc v
      encodeValues depth enc values

def encodeCause (depth : ℕ) (enc : ScfEncoder) : Option ScValue → Except ScError ScfEncoder
  | none => .ok enc
  | some cause => encodeWithDepth depth enc cause

def encodeErrors (depth : ℕ) (enc : ScfEncoder) : Option (List ScValue) → Except ScError ScfEncoder
  | none => .ok enc
  | some errors => encodeValues depth (enc.push (encodeLen errors.length)) errors

end

/-- `encode_scf`. -/
def encodeScf (value : ScValue) : Except ScError Bytes := do
  let enc ← encodeWithDepth env limits 0 .new value
  .ok enc.finish

end Values

end BoaIdb.Clone
