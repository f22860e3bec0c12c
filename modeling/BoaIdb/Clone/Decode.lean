import BoaIdb.Clone.Encode
import Mathlib.Data.List.Nodup

/-!
The SCF binary decoder.

The recursion is on the number of levels that the depth limit leaves: `decode_value_depth`
at depth `d` is `decodeValueLevels` with `max_clone_depth + 1 - d` levels.
-/

namespace BoaIdb.Clone

open ByteCodec StreamReader

/-! ### Pieces -/

/-- `usize::try_from` never fails: `usize` has 64 bits. -/
def decodeUsize : Decoder ℕ := do
  let v ← decodeUvarint
  pure v.toNat

def readF64Le : Decoder F64Bits := do
  let bytes ← readBytes 8
  pure (UInt64.ofNat (ofLittleEndian bytes))

/-- `check_count`, before the rest. -/
def checkCount {α : Type} (count : ℕ) (next : Decoder α) : Decoder α := do
  let left ← remaining
  if left < count then
    fail (.corruptedPayload s!"Element count {count} exceeds remaining input {left}")
  else next

def readUnit : Decoder UInt16 := do
  let bytes ← readBytes 2
  pure (UInt16.ofNat (ofLittleEndian bytes))

/-- The units behind a length whose double must be a `usize`. -/
def decodeUnits (overflowMsg : ℕ → String) : Decoder Utf16String := do
  let len ← decodeUsize
  if usizeBound ≤ len * 2 then fail (.corruptedPayload (overflowMsg len))
  else
    let left ← remaining
    if left < len * 2 then fail .unexpectedEof
    else repeatRead readUnit len

/-- The string of `decode_string_value`. -/
def decodeStringUnits : Decoder Utf16String :=
  decodeUnits fun len => s!"String length overflows: {len}"

def decodeBigIntValue (env : CodecEnv) : Decoder ℤ := do
  let signByte ← readByte
  let len ← decodeUsize
  let bytes ← readBytes len
  if signByte = 0 then pure (env.fromBytesLe .plus bytes)
  else if signByte = 1 then pure (env.fromBytesLe .minus bytes)
  else
    let shown := hexByte signByte
    fail (.corruptedPayload s!"Invalid BigInt sign byte: {shown}")

def decodeRegExpValue : Decoder ScValue := do
  let pattern ← decodeUnits fun len => s!"RegExp pattern length overflows: {len}"
  let flagsRaw ← decodeUvarint
  if 255 < flagsRaw then
    -- `{:#x}`
    let shown := "0x" ++ String.ofList (Nat.toDigits 16 flagsRaw.toNat)
    fail (.corruptedPayload s!"RegExp flags out of range: {shown}")
  else pure (.regExp pattern (RegExpFlags.fromBitfield flagsRaw.toUInt8))

def decodeArrayBufferData : Decoder ScValue := do
  let raw ← decodeUsize
  let maxByteLength := if raw = 0 then none else some (UInt64.ofNat (raw - 1))
  let byteLen ← decodeUsize
  let data ← readBytes byteLen
  pure (.arrayBuffer data maxByteLength)

/-! ### Memo table -/

/-- Reserves the next slot around a decoder and puts its result there. -/
def memoized (p : Decoder ScValue) : Decoder ScValue := do
  let memo ← getKept
  modifyKept (· ++ [.undefined])
  let value ← p
  modifyKept fun table => table.set memo.length value
  pure value

def decodeMemoRef : Decoder ScValue := do
  let idx ← decodeUvarint
  let memo ← getKept
  match memo[idx.toNat]? with
  | some value => pure value
  | none => fail (.invalidMemoRef idx)

/-! ### Nested values -/

/-- `IndexMap::insert`: in place of an equal key, or behind all others. -/
def insertEntry (entries : List (Utf16String × ScValue)) (key : Utf16String) (val : ScValue) :
    List (Utf16String × ScValue) :=
  match entries with
  | [] => [(key, val)]
  | (k, v) :: rest => if k = key then (k, val) :: rest else (k, v) :: insertEntry rest key val

theorem keys_insertEntry (entries : List (Utf16String × ScValue)) (key : Utf16String)
    (val : ScValue) :
    (insertEntry entries key val).map Prod.fst =
      if key ∈ entries.map Prod.fst then entries.map Prod.fst
        else entries.map Prod.fst ++ [key] := by
  induction entries with
  | nil => rfl
  | cons kv entries ih =>
      obtain ⟨k, v⟩ := kv
      rw [insertEntry]
      by_cases hkey : k = key
      · rw [if_pos hkey, List.map_cons, List.map_cons,
          if_pos (by rw [hkey]; exact List.mem_cons_self)]
      · have hmem : key ∈ k :: entries.map Prod.fst ↔ key ∈ entries.map Prod.fst := by
          rw [List.mem_cons, or_iff_right (Ne.symm hkey)]
        rw [if_neg hkey, List.map_cons, List.map_cons, ih]
        by_cases hin : key ∈ entries.map Prod.fst
        · rw [if_pos hin, if_pos (hmem.mpr hin)]
        · rw [if_neg hin, if_neg (mt hmem.mp hin), List.cons_append]

/-- The keys stay distinct. -/
theorem nodup_insertEntry {entries : List (Utf16String × ScValue)} {key : Utf16String}
    {val : ScValue} (h : (entries.map Prod.fst).Nodup) :
    ((insertEntry entries key val).map Prod.fst).Nodup := by
  rw [keys_insertEntry]
  split
  · exact h
  next hnot => exact List.nodup_append.mpr ⟨h, List.nodup_singleton key, by
      rintro a ha b hb rfl
      exact hnot (List.mem_singleton.mp hb ▸ ha)⟩

section Nested

variable (p : Decoder ScValue)

/-- The loop over the items of an array. -/
def decodeItems (length : ℕ) : ℕ → List (Option ScValue) → Decoder (List (Option ScValue))
  | 0, elements => pure elements
  | count + 1, elements => do
      let index ← decodeUsize
      if length ≤ index then
        fail (.corruptedPayload s!"Array item index {index} out of bounds for length {length}")
      else
        let val ← p
        if (elements[index]?.getD none).isSome then
          fail (.corruptedPayload s!"Duplicate array item index {index}")
        else decodeItems length count (elements.set index (some val))

def decodeProp : Decoder (Utf16String × ScValue) := do
  let key ← decodeStringUnits
  let val ← p
  pure (key, val)

def decodePair : Decoder (ScValue × ScValue) := do
  let k ← p
  let v ← p
  pure (k, v)

/-- The length and the number of items of an array, with their checks. -/
def decodeArrayHeader (limits : LimitConfig) : Decoder (ℕ × ℕ) := do
  let length ← decodeUsize
  let itemsCount ← decodeUsize
  if limits.maxValueLen < length then fail (.valueTooLarge limits.maxValueLen length)
  else if length < itemsCount then
    fail (.corruptedPayload s!"Array items count {itemsCount} exceeds array length {length}")
  else checkCount itemsCount (pure (length, itemsCount))

/-- What follows the allocation of the slots. -/
def decodeElements (length itemsCount : ℕ) : Decoder ScValue := do
  let elements ← decodeItems p length itemsCount (List.replicate length none)
  let extraCount ← decodeUsize
  checkCount extraCount do
    let extraProps ← repeatRead (decodeProp p) extraCount
    pure (.array elements extraProps)

def decodeArrayValue (env : CodecEnv) (limits : LimitConfig) : Decoder ScValue := do
  let (length, itemsCount) ← decodeArrayHeader limits
  -- `vec![None; length]` panics with a capacity overflow
  if isizeBound ≤ length * env.slotSize then throw .overflow
  else decodeElements p length itemsCount

/-- The header and what follows it, in one. -/
theorem decodeArrayValue_eq (env : CodecEnv) (limits : LimitConfig) :
    decodeArrayValue p env limits = (do
      let length ← decodeUsize
      let itemsCount ← decodeUsize
      if limits.maxValueLen < length then fail (.valueTooLarge limits.maxValueLen length)
      else if length < itemsCount then
        fail (.corruptedPayload s!"Array items count {itemsCount} exceeds array length {length}")
      else checkCount itemsCount do
        if isizeBound ≤ length * env.slotSize then throw .overflow
        else decodeElements p length itemsCount) := by
  rw [decodeArrayValue, decodeArrayHeader]
  simp only [bind_assoc]
  refine bind_congr fun length => bind_congr fun itemsCount => ?_
  split
  · rfl
  split
  · rfl
  rw [checkCount, checkCount, bind_assoc]
  refine bind_congr fun left => ?_
  split
  · rfl
  · rfl

def decodeObjectValue : Decoder ScValue := do
  let count ← decodeUsize
  checkCount count do
    let props ← repeatRead (decodeProp p) count
    pure (.object (props.foldl (fun entries kv => insertEntry entries kv.1 kv.2) []))

def decodeMapValue : Decoder ScValue := do
  let count ← decodeUsize
  checkCount count do
    let pairs ← repeatRead (decodePair p) count
    pure (.map pairs)

def decodeSetValue : Decoder ScValue := do
  let count ← decodeUsize
  checkCount count do
    let values ← repeatRead p count
    pure (.set values)

/-- A field whose presence a flag tells. -/
def decodeOptional {α : Type} (present : Bool) (q : Decoder α) : Decoder (Option α) :=
  if present then do
    let a ← q
    pure (some a)
  else pure none

def decodeErrors : Decoder (List ScValue) := do
  let count ← decodeUsize
  checkCount count (repeatRead p count)

def decodeErrorValue : Decoder ScValue := do
  let kindByte ← readByte
  match ScErrorKind.fromU8 kindByte with
  | none =>
      let shown := hexByte kindByte
      fail (.corruptedPayload s!"Unknown error kind: {shown}")
  | some kind => do
      let flags ← readByte
      let message ← decodeOptional (flags &&& 1 ≠ 0) decodeStringUnits
      let cause ← decodeOptional (flags &&& 2 ≠ 0) p
      let errors ← decodeOptional (flags &&& 4 ≠ 0) (decodeErrors p)
      pure (.error kind message cause errors)

def decodeTypedArrayValue : Decoder ScValue := do
  let kindByte ← readByte
  match ScTypedArrayKind.fromU8 kindByte with
  | none =>
      let shown := hexByte kindByte
      fail (.corruptedPayload s!"Unknown TypedArray kind: {shown}")
  | some kind => do
      let byteOffset ← decodeUvarint
      let length ← decodeUvarint
      let buffer ← p
      pure (.typedArray kind byteOffset length buffer)

def decodeDataViewValue : Decoder ScValue := do
  let byteOffset ← decodeUvarint
  let byteLength ← decodeUvarint
  let buffer ← p
  pure (.dataView byteOffset byteLength buffer)

/-- The primitive that a box of this subtag holds. -/
def boxedOf (subtag : UInt8) (inner : ScValue) : Except ScError ScValue :=
  if subtag = boxedBool then
    match inner with
    | .boolean b => .ok (.boxedBoolean b)
    | _ => .error (.corruptedPayload "Expected boolean in boxed boolean")
  else if subtag = boxedNum then
    match inner with
    | .number n => .ok (.boxedNumber n)
    | _ => .error (.corruptedPayload "Expected number in boxed number")
  else if subtag = boxedStr then
    match inner with
    | .string s => .ok (.boxedString s)
    | _ => .error (.corruptedPayload "Expected string in boxed string")
  else
    match inner with
    | .bigInt n => .ok (.boxedBigInt n)
    | _ => .error (.corruptedPayload "Expected bigint in boxed bigint")

def decodeBoxedValue : Decoder ScValue := do
  let subtag ← readByte
  if boxedBig < subtag then
    let shown := hexByte subtag
    fail (.corruptedPayload s!"Unknown boxed subtag: {shown}")
  else
    let inner ← p
    match boxedOf subtag inner with
    | .ok value => pure value
    | .error e => fail e

end Nested

/-- What follows a tag; nested values are read by `p`. -/
def decodeTagged (env : CodecEnv) (limits : LimitConfig) (p : Decoder ScValue) (tag : UInt8) :
    Decoder ScValue :=
  if tag = tagUndefined then pure .undefined
  else if tag = tagNull then pure .null
  else if tag = tagFalse then pure (.boolean false)
  else if tag = tagTrue then pure (.boolean true)
  else if tag = tagInt32 then do
    let val ← decodeIvarint
    pure (.number (F64Bits.ofInt val.toInt))
  else if tag = tagDouble then do
    let n ← readF64Le
    pure (.number n)
  else if tag = tagString then do
    let s ← decodeStringUnits
    pure (.string s)
  else if tag = tagBigInt then do
    let n ← decodeBigIntValue env
    pure (.bigInt n)
  else if tag = tagDate then do
    let d ← readF64Le
    pure (.date d)
  else if tag = tagRegExp then decodeRegExpValue
  else if tag = tagArray then memoized (decodeArrayValue p env limits)
  else if tag = tagObject then memoized (decodeObjectValue p)
  else if tag = tagMap then memoized (decodeMapValue p)
  else if tag = tagSet then memoized (decodeSetValue p)
  else if tag = tagError then memoized (decodeErrorValue p)
  else if tag = tagArrayBuffer then memoized decodeArrayBufferData
  else if tag = tagTypedArray then memoized (decodeTypedArrayValue p)
  else if tag = tagDataView then memoized (decodeDataViewValue p)
  else if tag = tagBoxed then memoized (decodeBoxedValue p)
  else if tag = tagMemoRef then decodeMemoRef
  else if tag = tagHole then fail (.corruptedPayload "Hole tag outside of array context")
  else fail (.unknownTag tag)

/-- `decode_value_depth`, by the levels that are left; no bytes left is `UnexpectedEof`, as
it is for `read_byte`. -/
def decodeValueLevels (env : CodecEnv) (limits : LimitConfig) : ℕ → Decoder ScValue
  | 0 => fail (.maxDepthExceeded limits.maxCloneDepth)
  | levels + 1 => do
      let tag ← readByte
      decodeTagged env limits (decodeValueLevels env limits levels) tag

def decodeValueDepth (env : CodecEnv) (limits : LimitConfig) (depth : ℕ) : Decoder ScValue :=
  decodeValueLevels env limits (limits.maxCloneDepth + 1 - depth)

/-- `decode_scf`. -/
def decodeScf (env : CodecEnv) (limits : LimitConfig) (data : Bytes) :
    Except DecodeFailure ScValue :=
  let payloadEnd := data.length - 4
  let expected := UInt32.ofNat (ofLittleEndian (data.drop payloadEnd))
  let calculated := crc32c (data.take payloadEnd)
  if data.length < 4 then .error (.error (.corruptedPayload "SCF data too short"))
  else if data.take 4 ≠ scfMagic then .error (.error .invalidMagic)
  else match data[4]? with
    | none => .error (.error (.corruptedPayload "SCF data too short"))
    | some version =>
        if version ≠ scfVersion then .error (.error (.unsupportedVersion version))
        else if data.length < 13 then .error (.error (.corruptedPayload "SCF data too short"))
        else if expected ≠ calculated then .error (.error (.checksumMismatch expected calculated))
        else if limits.maxValueLen < payloadEnd - 8 then
          .error (.error (.valueTooLarge limits.maxValueLen (payloadEnd - 8)))
        else
          ((decodeValueDepth env limits 0).run ⟨0, (data.take payloadEnd).drop 8, []⟩).map Prod.fst

end BoaIdb.Clone
