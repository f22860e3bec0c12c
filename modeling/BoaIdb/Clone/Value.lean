import BoaIdb.Core.Key
import Mathlib.Data.Int.Order.Basic
import Mathlib.Data.List.ReduceOption

/-!
Intermediate values of structured cloning, and their conversion to keys.

What an argument or a check says about every value nested in a value is stated through
`ScValue.children`, the values one level down.
-/

namespace BoaIdb

/-- Kinds of `Error` objects. -/
inductive ScErrorKind
  | error
  | evalError
  | rangeError
  | referenceError
  | syntaxError
  | typeError
  | uriError
  | aggregateError
  deriving DecidableEq, Repr

namespace ScErrorKind

def toU8 : ScErrorKind → UInt8
  | .error => 0
  | .evalError => 1
  | .rangeError => 2
  | .referenceError => 3
  | .syntaxError => 4
  | .typeError => 5
  | .uriError => 6
  | .aggregateError => 7

def fromU8 (v : UInt8) : Option ScErrorKind :=
  if v = 0 then some .error
  else if v = 1 then some .evalError
  else if v = 2 then some .rangeError
  else if v = 3 then some .referenceError
  else if v = 4 then some .syntaxError
  else if v = 5 then some .typeError
  else if v = 6 then some .uriError
  else if v = 7 then some .aggregateError
  else none

@[simp] theorem fromU8_toU8 (kind : ScErrorKind) : fromU8 kind.toU8 = some kind := by
  cases kind <;> rfl

end ScErrorKind

/-- Element kinds of typed arrays. -/
inductive ScTypedArrayKind
  | int8
  | uint8
  | uint8Clamped
  | int16
  | uint16
  | int32
  | uint32
  | float32
  | float64
  | bigInt64
  | bigUint64
  | float16
  deriving DecidableEq, Repr

namespace ScTypedArrayKind

def toU8 : ScTypedArrayKind → UInt8
  | .int8 => 0
  | .uint8 => 1
  | .uint8Clamped => 2
  | .int16 => 3
  | .uint16 => 4
  | .int32 => 5
  | .uint32 => 6
  | .float32 => 7
  | .float64 => 8
  | .bigInt64 => 9
  | .bigUint64 => 10
  | .float16 => 11

def fromU8 (v : UInt8) : Option ScTypedArrayKind :=
  if v = 0 then some .int8
  else if v = 1 then some .uint8
  else if v = 2 then some .uint8Clamped
  else if v = 3 then some .int16
  else if v = 4 then some .uint16
  else if v = 5 then some .int32
  else if v = 6 then some .uint32
  else if v = 7 then some .float32
  else if v = 8 then some .float64
  else if v = 9 then some .bigInt64
  else if v = 10 then some .bigUint64
  else if v = 11 then some .float16
  else none

@[simp] theorem fromU8_toU8 (kind : ScTypedArrayKind) : fromU8 kind.toU8 = some kind := by
  cases kind <;> rfl

end ScTypedArrayKind

structure RegExpFlags where
  hasIndices : Bool
  global : Bool
  ignoreCase : Bool
  multiline : Bool
  dotAll : Bool
  unicode : Bool
  unicodeSets : Bool
  sticky : Bool
  deriving DecidableEq, Repr

namespace RegExpFlags

/-- One flag at its place in the bit field. -/
def bit (set : Bool) (mask : UInt8) : UInt8 := if set then mask else 0

def toBitfield (f : RegExpFlags) : UInt8 :=
  bit f.hasIndices 0x01 ||| bit f.global 0x02 ||| bit f.ignoreCase 0x04 ||| bit f.multiline 0x08 |||
    bit f.dotAll 0x10 ||| bit f.unicode 0x20 ||| bit f.unicodeSets 0x40 ||| bit f.sticky 0x80

def fromBitfield (bits : UInt8) : RegExpFlags where
  hasIndices := bits &&& 0x01 ≠ 0
  global := bits &&& 0x02 ≠ 0
  ignoreCase := bits &&& 0x04 ≠ 0
  multiline := bits &&& 0x08 ≠ 0
  dotAll := bits &&& 0x10 ≠ 0
  unicode := bits &&& 0x20 ≠ 0
  unicodeSets := bits &&& 0x40 ≠ 0
  sticky := bits &&& 0x80 ≠ 0

@[simp] theorem fromBitfield_toBitfield (f : RegExpFlags) : fromBitfield f.toBitfield = f := by
  obtain ⟨d, g, i, m, s, u, v, y⟩ := f
  cases d <;> cases g <;> cases i <;> cases m <;> cases s <;> cases u <;> cases v <;> cases y
    <;> rfl

end RegExpFlags

/-- An intermediate value. `Vec<Option<ScValue>>` keeps the holes of an array, an
`IndexMap` its entries in order; `usize` has 64 bits. -/
inductive ScValue
  | undefined
  | null
  | boolean (b : Bool)
  | number (n : F64Bits)
  | bigInt (n : ℤ)
  | string (s : Utf16String)
  | date (d : F64Bits)
  | regExp (pattern : Utf16String) (flags : RegExpFlags)
  | array (elements : List (Option ScValue)) (extraProps : List (Utf16String × ScValue))
  | object (entries : List (Utf16String × ScValue))
  | map (pairs : List (ScValue × ScValue))
  | set (values : List ScValue)
  -- the fields of `ScErrorObject`
  | error (kind : ScErrorKind) (message : Option Utf16String) (cause : Option ScValue)
      (errors : Option (List ScValue))
  | arrayBuffer (data : Bytes) (maxByteLength : Option UInt64)
  | typedArray (kind : ScTypedArrayKind) (byteOffset length : UInt64) (buffer : ScValue)
  | dataView (byteOffset byteLength : UInt64) (buffer : ScValue)
  | boxedBoolean (b : Bool)
  | boxedNumber (n : F64Bits)
  | boxedString (s : Utf16String)
  | boxedBigInt (n : ℤ)
  | memoRef (idx : UInt64)

inductive ScError
  | dataClone (msg : String)
  | unsupportedVersion (version : UInt8)
  | invalidMagic
  | checksumMismatch (expected calculated : UInt32)
  | maxDepthExceeded (limit : ℕ)
  | valueTooLarge (limit actual : ℕ)
  | invalidMemoRef (idx : UInt64)
  | unknownTag (tag : UInt8)
  | corruptedPayload (msg : String)
  | unexpectedEof
  deriving DecidableEq, Repr

namespace ScValue

/-! ### Conversion to and from keys -/

/-- The number of the variant, as `std::mem::discriminant` shows it. -/
def discriminant : ScValue → ℕ
  | .undefined => 0
  | .null => 1
  | .boolean _ => 2
  | .number _ => 3
  | .bigInt _ => 4
  | .string _ => 5
  | .date _ => 6
  | .regExp _ _ => 7
  | .array _ _ => 8
  | .object _ => 9
  | .map _ => 10
  | .set _ => 11
  | .error _ _ _ _ => 12
  | .arrayBuffer _ _ => 13
  | .typedArray _ _ _ _ => 14
  | .dataView _ _ _ => 15
  | .boxedBoolean _ => 16
  | .boxedNumber _ => 17
  | .boxedString _ => 18
  | .boxedBigInt _ => 19
  | .memoRef _ => 20

mutual

/-- `to_key`; `none` for an array with holes. -/
def toKey : ScValue → Except KeyError (Option Key)
  | .number n =>
      if F64Bits.isNaN n then .error (.invalidValue "NaN cannot be a key")
        else .ok (some (.number n))
  | .date d =>
      if F64Bits.isNaN d then .error (.invalidValue "Invalid Date cannot be a key")
      else .ok (some (.date d))
  | .string s => .ok (some (.string s))
  | .bigInt _ => .error (.invalidType "BigInt cannot be a key")
  | .array elements _ => do
      let keys ← elementKeys elements
      .ok (keys.map .array)
  | .object _ => .error (.invalidType "Object/Map/Set cannot be a key")
  | .map _ => .error (.invalidType "Object/Map/Set cannot be a key")
  | .set _ => .error (.invalidType "Object/Map/Set cannot be a key")
  | .memoRef _ => .error (.invalidType "Memo reference cannot be a key")
  | v =>
      let variant := v.discriminant
      .error (.invalidType s!"Discriminant({variant}) cannot be a key")

/-- The keys of the elements, up to the first hole, member without a key or error. -/
def elementKeys : List (Option ScValue) → Except KeyError (Option (List Key))
  | [] => .ok (some [])
  | none :: _ => .ok none
  | some v :: elements => do
      match ← toKey v with
      | none => .ok none
      | some k =>
          let keys ← elementKeys elements
          .ok (keys.map (k :: ·))

end

mutual

def fromKey : Key → ScValue
  | .number n => .number n
  | .date d => .date d
  | .string s => .string s
  | .binary b => .arrayBuffer b none
  | .array items => .array (fromKeys items) []

def fromKeys : List Key → List (Option ScValue)
  | [] => []
  | item :: items => some (fromKey item) :: fromKeys items

end

/-! ### Nested values -/

/-- The values one level down, in the order of their encoding. -/
def children : ScValue → List ScValue
  | .array elements extraProps => elements.reduceOption ++ extraProps.map Prod.snd
  | .object entries => entries.map Prod.snd
  | .map pairs => pairs.flatMap fun p => [p.1, p.2]
  | .set values => values
  | .error _ _ cause errors => cause.toList ++ errors.getD []
  | .typedArray _ _ _ buffer => [buffer]
  | .dataView _ _ buffer => [buffer]
  | _ => []

theorem sizeOf_children {v c : ScValue} (h : c ∈ v.children) : sizeOf c < sizeOf v := by
  cases v with
  | array elements extraProps =>
      rcases List.mem_append.mp h with h | h
      · have hsome := List.sizeOf_lt_of_mem (List.reduceOption_mem_iff.mp h)
        simp only [Option.some.sizeOf_spec, array.sizeOf_spec] at *
        omega
      · obtain ⟨⟨k, w⟩, hp, rfl⟩ := List.mem_map.mp h
        have hpair := List.sizeOf_lt_of_mem hp
        simp only [Prod.mk.sizeOf_spec, array.sizeOf_spec] at *
        omega
  | object entries =>
      obtain ⟨⟨k, w⟩, hp, rfl⟩ := List.mem_map.mp h
      have hpair := List.sizeOf_lt_of_mem hp
      simp only [Prod.mk.sizeOf_spec, object.sizeOf_spec] at *
      omega
  | map pairs =>
      obtain ⟨⟨k, w⟩, hp, hc⟩ := List.mem_flatMap.mp h
      have hpair := List.sizeOf_lt_of_mem hp
      simp only [Prod.mk.sizeOf_spec, map.sizeOf_spec, List.mem_cons, List.not_mem_nil,
        or_false] at *
      rcases hc with rfl | rfl <;> omega
  | set values =>
      have hmem := List.sizeOf_lt_of_mem (show c ∈ values from h)
      simp only [set.sizeOf_spec]
      omega
  | error kind message cause errors =>
      rcases List.mem_append.mp h with h | h
      · obtain rfl : cause = some c := by simpa using h
        simp only [error.sizeOf_spec, Option.some.sizeOf_spec]
        omega
      · cases errors with
        | none => simp at h
        | some values =>
            have hmem := List.sizeOf_lt_of_mem (show c ∈ values from h)
            simp only [error.sizeOf_spec, Option.some.sizeOf_spec]
            omega
  | typedArray kind byteOffset length buffer =>
      obtain rfl : c = buffer := by simpa [children] using h
      simp only [typedArray.sizeOf_spec]
      omega
  | dataView byteOffset byteLength buffer =>
      obtain rfl : c = buffer := by simpa [children] using h
      simp only [dataView.sizeOf_spec]
      omega
  | _ => simp [children] at h

/-- A statement about a value follows from the same about the values one level down. -/
theorem induction {motive : ScValue → Prop}
    (step : ∀ v, (∀ c ∈ v.children, motive c) → motive v) (v : ScValue) : motive v :=
  step v fun c _ => induction step c
termination_by sizeOf v
decreasing_by exact sizeOf_children ‹_›

/-- `P` holds of the value at depth `depth` and of every value nested in it, each at
its depth. -/
inductive Everywhere (P : ℕ → ScValue → Prop) : ℕ → ScValue → Prop
  | intro {depth : ℕ} {v : ScValue} (here : P depth v)
      (below : ∀ c ∈ v.children, Everywhere P (depth + 1) c) : Everywhere P depth v

theorem everywhere_iff {P : ℕ → ScValue → Prop} {depth : ℕ} {v : ScValue} :
    Everywhere P depth v ↔ P depth v ∧ ∀ c ∈ v.children, Everywhere P (depth + 1) c :=
  ⟨fun ⟨here, below⟩ => ⟨here, below⟩, fun ⟨here, below⟩ => ⟨here, below⟩⟩

theorem everywhere_and {P Q : ℕ → ScValue → Prop} {depth : ℕ} {v : ScValue} :
    Everywhere (fun d w => P d w ∧ Q d w) depth v ↔ Everywhere P depth v ∧
      Everywhere Q depth v := by
  constructor
  · intro h
    induction h with
    | intro here _ ih =>
        exact ⟨⟨here.1, fun c hc => (ih c hc).1⟩, ⟨here.2, fun c hc => (ih c hc).2⟩⟩
  · rintro ⟨hp, hq⟩
    induction hp with
    | intro here _ ih =>
        obtain ⟨here', below'⟩ := hq
        exact ⟨⟨here, here'⟩, fun c hc => ih c hc (below' c hc)⟩

end ScValue

end BoaIdb
