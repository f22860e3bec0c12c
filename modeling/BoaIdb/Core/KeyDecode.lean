import BoaIdb.Core.KeyOrder

/-!
The decoder of the `KEY-v1` encoding, and that it undoes the encoder.

A decoder is given what is left of the input and returns how many bytes it took. The ends of
strings, binaries and arrays are found from their terminators, whatever follows them.
-/

namespace BoaIdb.Key

open ByteCodec

/-! ### Decoding -/

/-- `MAX_KEY_DECODE_DEPTH`. -/
def maxKeyDecodeDepth : ℕ := 32

/-- `decode_f64_orderable`. -/
def decodeF64Orderable (bytes : Bytes) : F64Bits :=
  let ord := UInt64.ofNat (ofBigEndian bytes)
  if ord &&& signBit ≠ 0 then ord &&& ~~~signBit else ~~~ord

/-- The number behind the tag of a number or date. -/
def decodeF64Key (key : F64Bits → Key) (nan : String) (rest : Bytes) : Except KeyError (Key × ℕ) :=
  if rest.length < 8 then .error .unexpectedEof
  else
    let val := decodeF64Orderable (rest.take 8)
    if F64Bits.isNaN val then .error (.invalidValue nan) else .ok (key val, 9)

/-- The texts of the errors in an escaped field. -/
structure EscapeTexts where
  unexpectedEnd : String
  loneZero : String
  unterminated : String

/-- The bytes up to the terminator, without their escapes, and how many were read. -/
def unescape (texts : EscapeTexts) : Bytes → Except KeyError (Bytes × ℕ)
  | [] => .error (.invalidEncoding texts.unterminated)
  | b :: rest =>
      if b = 0x00 then
        match rest with
        | [] => .error (.invalidEncoding texts.unexpectedEnd)
        | c :: rest =>
            if c = 0x00 then .ok ([], 2)
            else if c = 0xFF then do
              let (data, consumed) ← unescape texts rest
              .ok (0x00 :: data, consumed + 2)
            else .error (.invalidEncoding texts.loneZero)
      else do
        let (data, consumed) ← unescape texts rest
        .ok (b :: data, consumed + 1)

def isContinuation (b : UInt8) : Bool := 0x80 ≤ b && b ≤ 0xBF

/-- CESU-8 bytes as UTF-16 units. -/
def decodeCesu8 : Bytes → Except KeyError Utf16String
  | [] => .ok []
  | b :: rest =>
      if b ≤ 0x7F then do
        let units ← decodeCesu8 rest
        .ok (b.toUInt16 :: units)
      else if 0xC0 ≤ b ∧ b ≤ 0xDF then
        match rest with
        | b2 :: rest =>
            if isContinuation b2 then do
              let units ← decodeCesu8 rest
              .ok (((b &&& 0x1F).toUInt16 <<< 6 ||| (b2 &&& 0x3F).toUInt16) :: units)
            else .error (.invalidEncoding "Invalid CESU-8 continuation byte")
        | [] => .error (.invalidEncoding "Truncated CESU-8 2-byte sequence")
      else if 0xE0 ≤ b ∧ b ≤ 0xEF then
        match rest with
        | b2 :: b3 :: rest =>
            if isContinuation b2 && isContinuation b3 then do
              let units ← decodeCesu8 rest
              .ok (((b &&& 0x0F).toUInt16 <<< 12 ||| (b2 &&& 0x3F).toUInt16 <<< 6 |||
                (b3 &&& 0x3F).toUInt16) :: units)
            else .error (.invalidEncoding "Invalid CESU-8 continuation byte")
        | _ => .error (.invalidEncoding "Truncated CESU-8 3-byte sequence")
      else
        let shown := hexByte b
        .error (.invalidEncoding s!"Invalid CESU-8 leading byte: {shown}")

def stringTexts : EscapeTexts where
  unexpectedEnd := "Unexpected end after 0x00 in string"
  loneZero := "Lone 0x00 without 0xFF or 0x00 terminator"
  unterminated := "Unterminated string in key encoding"

def binaryTexts : EscapeTexts where
  unexpectedEnd := "Unexpected end after 0x00 in binary"
  loneZero := "Lone 0x00 without 0xFF or 0x00 terminator in binary"
  unterminated := "Unterminated binary data in key encoding"

def decodeStringCesu8 (bytes : Bytes) : Except KeyError (Utf16String × ℕ) := do
  let (unescaped, consumed) ← unescape stringTexts bytes
  let units ← decodeCesu8 unescaped
  .ok (units, consumed)

def decodeBinaryEscaped (bytes : Bytes) : Except KeyError (Bytes × ℕ) := unescape binaryTexts bytes

/-- The loop over the items of an array. Each pass takes a byte, so the length of the input
bounds the passes. -/
def decodeItems (decode : Bytes → Except KeyError (Key × ℕ)) : ℕ → Bytes →
    Except KeyError (List Key × ℕ)
  | 0, _ => .error .unexpectedEof
  | _ + 1, [] => .error .unexpectedEof
  | passes + 1, b :: rest =>
      if b = tagArrayTerminator then .ok ([], 1)
      else do
        let (key, consumed) ← decode (b :: rest)
        let (keys, consumed') ← decodeItems decode passes ((b :: rest).drop consumed)
        .ok (key :: keys, consumed + consumed')

/-- `decode_key_internal`, by the levels that are left. -/
def decodeKeyInternal : ℕ → Bytes → Except KeyError (Key × ℕ)
  | 0, _ => .error (.maxDepthExceeded maxKeyDecodeDepth)
  | _ + 1, [] => .error .unexpectedEof
  | levels + 1, tag :: rest =>
      if tag = tagNumber then decodeF64Key .number "Number key cannot be NaN" rest
      else if tag = tagDate then decodeF64Key .date "Date key cannot be NaN" rest
      else if tag = tagString then do
        let (units, consumed) ← decodeStringCesu8 rest
        .ok (.string units, consumed + 1)
      else if tag = tagBinary then do
        let (data, consumed) ← decodeBinaryEscaped rest
        .ok (.binary data, consumed + 1)
      else if tag = tagArray then do
        let (items, consumed) ← decodeItems (decodeKeyInternal levels) rest.length rest
        .ok (.array items, consumed + 1)
      else
        let shown := hexByte tag
        .error (.invalidEncoding s!"Unknown key tag: {shown}")

/-- `decode_key`. -/
def decodeKey (bytes : Bytes) : Except KeyError (Key × ℕ) :=
  if bytes.isEmpty then .error .unexpectedEof
  else decodeKeyInternal (maxKeyDecodeDepth + 1) bytes

/-! ### Numbers -/

theorem decodeF64_encode (x : F64Bits) :
    decodeF64Orderable (encodeF64Orderable x) = F64Bits.normZero x := by
  have hlt := orderable_lt (F64Bits.normZero x)
  have hmagnitude : F64Bits.magnitude (F64Bits.normZero x) < 2 ^ 63 := Nat.mod_lt _ (by norm_num)
  have hsplit := F64Bits.toNat_eq (F64Bits.normZero x)
  rw [decodeF64Orderable, encodeF64Orderable_eq, ofBigEndian_bigEndian hlt]
  generalize hord : UInt64.ofNat (orderable (F64Bits.normZero x)) = ord
  have hnat : ord.toNat = orderable (F64Bits.normZero x) := by
    rw [← hord]
    exact UInt64.toNat_ofNat_of_lt' hlt
  have hsign : ord &&& signBit ≠ 0 ↔ F64Bits.isNegative (F64Bits.normZero x) = false := by
    rw [and_signBit, F64Bits.isNegative, decide_eq_true_eq, hnat, orderable]
    split
    next h => exact iff_of_false (by omega) (by simp [h])
    next h => exact iff_of_true (by omega) (by simpa using h)
  apply UInt64.toNat_inj.mp
  cases hneg : F64Bits.isNegative (F64Bits.normZero x) with
  | true =>
      rw [if_neg (by rw [hsign, hneg]; decide), ← UInt64.toNat_toBitVec, UInt64.toBitVec_not,
        BitVec.toNat_not, UInt64.toNat_toBitVec, hnat, hsplit, orderable, hneg]
      simp only [if_true]
      omega
  | false =>
      rw [if_pos (hsign.mpr hneg), UInt64.toNat_and, hnat, hsplit, orderable, hneg]
      have hmask : (~~~signBit).toNat = 2 ^ 63 - 1 := by decide
      rw [hmask, Nat.and_two_pow_sub_one_eq_mod]
      simp only [Bool.false_eq_true, if_false]
      omega

/-! ### Escapes -/

/-- Escaped bytes are found again in front of anything. -/
theorem unescape_escaped (texts : EscapeTexts) (data rest : Bytes) :
    unescape texts (data.flatMap escapeByte ++ escapeTerminator ++ rest) =
      .ok (data, (data.flatMap escapeByte ++ escapeTerminator).length) := by
  induction data with
  | nil => rfl
  | cons b data ih =>
      by_cases hb : b = 0x00
      · subst hb
        show (unescape texts (data.flatMap escapeByte ++ escapeTerminator ++ rest) >>= fun r =>
          Except.ok (0x00 :: r.1, r.2 + 2)) = _
        rw [ih]
        rfl
      · have hescaped : (b :: data).flatMap escapeByte = b :: data.flatMap escapeByte := by
          rw [List.flatMap_cons, escapeByte_of_ne hb]
          rfl
        rw [hescaped]
        show unescape texts (b :: (data.flatMap escapeByte ++ escapeTerminator ++ rest)) = _
        rw [unescape.eq_def]
        dsimp only
        rw [if_neg hb, ih]
        rfl

/-! ### Strings -/

theorem join_bits (high low : UInt16) {k : ℕ} (hk : k < 16) (hlow : low.toNat < 2 ^ k)
    (hall : high.toNat * 2 ^ k < 2 ^ 16) :
    (high <<< UInt16.ofNat k ||| low).toNat = high.toNat * 2 ^ k + low.toNat := by
  have hshift : (UInt16.ofNat k).toNat = k :=
    UInt16.toNat_ofNat_of_lt' (by simp [UInt16.size]; omega)
  have hadd := Nat.two_pow_add_eq_or_of_lt hlow high.toNat
  rw [UInt16.toNat_or, UInt16.toNat_shiftLeft, hshift, Nat.mod_eq_of_lt hk, Nat.shiftLeft_eq,
    Nat.mod_eq_of_lt hall, Nat.mul_comm, ← hadd]

/-- The payload of a byte behind its marker. -/
theorem payload {marker n k : ℕ} (hmarker : marker % 2 ^ k = 0) (hn : n < 2 ^ k)
    (hbyte : marker + n < 256) {mask : UInt8} (hmask : mask.toNat = 2 ^ k - 1) :
    (UInt8.ofNat (marker + n) &&& mask).toUInt16.toNat = n := by
  rw [UInt8.toNat_toUInt16, UInt8.toNat_and, UInt8.toNat_ofNat_of_lt' hbyte, hmask,
    Nat.and_two_pow_sub_one_eq_mod, Nat.add_mod, hmarker, Nat.mod_eq_of_lt hn, Nat.zero_add,
    Nat.mod_eq_of_lt hn]

theorem isContinuation_low {n : ℕ} (h : n < 64) :
    isContinuation (UInt8.ofNat (128 + n)) = true := by
  have hnat : (UInt8.ofNat (128 + n)).toNat = 128 + n :=
    UInt8.toNat_ofNat_of_lt' (show 128 + n < 256 by omega)
  simp only [isContinuation, Bool.and_eq_true, decide_eq_true_eq, UInt8.le_iff_toNat_le, hnat]
  exact ⟨Nat.le_add_right 128 n, by simp; omega⟩

theorem toNat_ofNat {n : ℕ} (h : n < 256) : (UInt8.ofNat n).toNat = n := UInt8.toNat_ofNat_of_lt' h

/-- A byte in a range of leading bytes. -/
theorem leading {first last : UInt8} {n : ℕ} (h : first.toNat ≤ n) (h' : n ≤ last.toNat) :
    first ≤ UInt8.ofNat n ∧ UInt8.ofNat n ≤ last := by
  have hn : n < 256 := lt_of_le_of_lt h' last.toNat_lt
  rw [UInt8.le_iff_toNat_le, UInt8.le_iff_toNat_le, toNat_ofNat hn]
  exact ⟨h, h'⟩

theorem not_le_of_lt {bound : UInt8} {n : ℕ} (h : bound.toNat < n) (hn : n < 256) :
    ¬ UInt8.ofNat n ≤ bound := by
  rw [UInt8.le_iff_toNat_le, toNat_ofNat hn]
  exact Nat.not_le_of_lt h

theorem payload_low (n : ℕ) :
    (UInt8.ofNat (128 + n % 64) &&& 0x3F).toUInt16.toNat = n % 64 :=
  payload rfl (show n % 64 < 2 ^ 6 from Nat.mod_lt n (by norm_num)) (by omega) rfl

/-- The bytes of one unit are read back, whatever follows. -/
theorem decodeCesu8_unit (cu : UInt16) (rest : Bytes) :
    decodeCesu8 (encodeCesu8Unit cu ++ rest) = (decodeCesu8 rest).map (cu :: ·) := by
  have hlt := cu.toNat_lt
  rw [encodeCesu8Unit_eq]
  unfold cesu8Code
  -- one case for each length of the code: one, two or three bytes
  split_ifs with hone htwo
  · have hunit : (UInt8.ofNat cu.toNat).toUInt16 = cu := by
      apply UInt16.toNat_inj.mp
      rw [UInt8.toNat_toUInt16, toNat_ofNat (by omega)]
    have hle : UInt8.ofNat cu.toNat ≤ 0x7F :=
      (leading (show (0 : UInt8).toNat ≤ _ from Nat.zero_le _) (Nat.le_of_lt_succ hone)).2
    show decodeCesu8 (_ :: rest) = _
    rw [decodeCesu8.eq_def]
    dsimp only
    rw [if_pos hle, hunit]
    rfl
  · have hhigh : (UInt8.ofNat (192 + cu.toNat / 64) &&& 0x1F).toUInt16.toNat = cu.toNat / 64 :=
      payload rfl (show cu.toNat / 64 < 2 ^ 5 by omega) (by omega) rfl
    have hunit : (UInt8.ofNat (192 + cu.toNat / 64) &&& 0x1F).toUInt16 <<< 6 |||
        (UInt8.ofNat (128 + cu.toNat % 64) &&& 0x3F).toUInt16 = cu := by
      apply UInt16.toNat_inj.mp
      refine (join_bits _ _ (show 6 < 16 by norm_num) ?_ ?_).trans ?_
      · rw [payload_low]
        omega
      · rw [hhigh]
        omega
      · rw [hhigh, payload_low]
        omega
    have hone' : ¬ UInt8.ofNat (192 + cu.toNat / 64) ≤ 0x7F :=
      not_le_of_lt (show 127 < _ by omega) (by omega)
    have htwo' : 0xC0 ≤ UInt8.ofNat (192 + cu.toNat / 64) ∧
        UInt8.ofNat (192 + cu.toNat / 64) ≤ 0xDF :=
      leading (show 192 ≤ _ by omega) (show _ ≤ 223 by omega)
    show decodeCesu8 (_ :: _ :: rest) = _
    rw [decodeCesu8.eq_def]
    dsimp only
    rw [if_neg hone', if_pos htwo', if_pos (isContinuation_low (Nat.mod_lt _ (by norm_num))), hunit]
    rfl
  · have hhigh : (UInt8.ofNat (224 + cu.toNat / 4096) &&& 0x0F).toUInt16.toNat =
        cu.toNat / 4096 :=
      payload rfl (show cu.toNat / 4096 < 2 ^ 4 by omega) (by omega) rfl
    have hunit : (UInt8.ofNat (224 + cu.toNat / 4096) &&& 0x0F).toUInt16 <<< 12 |||
        (UInt8.ofNat (128 + cu.toNat / 64 % 64) &&& 0x3F).toUInt16 <<< 6 |||
        (UInt8.ofNat (128 + cu.toNat % 64) &&& 0x3F).toUInt16 = cu := by
      have hmiddle := payload_low (cu.toNat / 64)
      have hlow := payload_low cu.toNat
      have hjoin := join_bits (UInt8.ofNat (128 + cu.toNat / 64 % 64) &&& 0x3F).toUInt16
        (UInt8.ofNat (128 + cu.toNat % 64) &&& 0x3F).toUInt16 (show 6 < 16 by norm_num)
        (by rw [hlow]; omega) (by rw [hmiddle]; omega)
      rw [hmiddle, hlow] at hjoin
      apply UInt16.toNat_inj.mp
      rw [UInt16.or_assoc]
      refine (join_bits _ _ (show 12 < 16 by norm_num) ?_ ?_).trans ?_
      · exact lt_of_eq_of_lt hjoin (by omega)
      · rw [hhigh]
        omega
      · rw [hhigh]
        refine (congrArg (cu.toNat / 4096 * 2 ^ 12 + ·) hjoin).trans ?_
        show _ * 2 ^ 12 + (_ * 2 ^ 6 + _) = _
        omega
    have hone' : ¬ UInt8.ofNat (224 + cu.toNat / 4096) ≤ 0x7F :=
      not_le_of_lt (show 127 < _ by omega) (by omega)
    have htwo' : ¬ (0xC0 ≤ UInt8.ofNat (224 + cu.toNat / 4096) ∧
        UInt8.ofNat (224 + cu.toNat / 4096) ≤ 0xDF) :=
      fun h => not_le_of_lt (show 223 < _ by omega) (by omega) h.2
    have hthree : 0xE0 ≤ UInt8.ofNat (224 + cu.toNat / 4096) ∧
        UInt8.ofNat (224 + cu.toNat / 4096) ≤ 0xEF :=
      leading (show 224 ≤ _ by omega) (show _ ≤ 239 by omega)
    have hrest : (isContinuation (UInt8.ofNat (128 + cu.toNat / 64 % 64)) &&
        isContinuation (UInt8.ofNat (128 + cu.toNat % 64))) = true := by
      rw [isContinuation_low (Nat.mod_lt _ (by norm_num)),
        isContinuation_low (Nat.mod_lt _ (by norm_num))]
      rfl
    show decodeCesu8 (_ :: _ :: _ :: rest) = _
    rw [decodeCesu8.eq_def]
    dsimp only
    rw [if_neg hone', if_neg htwo', if_pos hthree, if_pos hrest, hunit]
    rfl

theorem decodeCesu8_units (units : Utf16String) :
    decodeCesu8 (units.flatMap encodeCesu8Unit) = .ok units := by
  induction units with
  | nil => rfl
  | cons cu units ih =>
      rw [List.flatMap_cons, decodeCesu8_unit, ih]
      rfl

/-- A string is found again in front of anything. -/
theorem decodeStringCesu8_encode (units : Utf16String) (rest : Bytes) :
    decodeStringCesu8 (encodeStringCesu8 units ++ rest) =
      .ok (units, (encodeStringCesu8 units).length) := by
  rw [decodeStringCesu8, encodeStringCesu8, unescape_escaped]
  show (decodeCesu8 (units.flatMap encodeCesu8Unit) >>= _) = _
  rw [decodeCesu8_units]
  rfl

theorem decodeBinaryEscaped_encode (data rest : Bytes) :
    decodeBinaryEscaped (encodeBinary data ++ rest) = .ok (data, (encodeBinary data).length) :=
  unescape_escaped binaryTexts data rest

theorem decodeF64Key_encode (key : F64Bits → Key) (nan : String) {x : F64Bits}
    (h : F64Bits.isNaN x = false) (rest : Bytes) :
    decodeF64Key key nan (encodeF64Orderable x ++ rest) = .ok (key (F64Bits.normZero x), 9) := by
  have hlength : (encodeF64Orderable x).length = 8 := length_bigEndian 8 _
  have hnumber : ¬ F64Bits.isNaN (F64Bits.normZero x) = true := fun hnan => by
    rw [F64Bits.isNaN_normZero x hnan] at h
    exact Bool.noConfusion h
  rw [decodeF64Key, if_neg (by rw [List.length_append, hlength]; omega), ← hlength,
    List.take_left, decodeF64_encode]
  exact if_neg hnumber

/-! ### Nested keys -/

mutual

/-- The key with `-0` as `+0`. -/
def normalized : Key → Key
  | .number n => .number (F64Bits.normZero n)
  | .date d => .date (F64Bits.normZero d)
  | .string s => .string s
  | .binary b => .binary b
  | .array items => .array (normalizedItems items)

def normalizedItems : List Key → List Key
  | [] => []
  | item :: items => normalized item :: normalizedItems items

end

theorem tag_ne_terminator (key : Key) : key.tag ≠ tagArrayTerminator := by
  cases key
  all_goals
    rw [tag]
    decide

mutual

/-- The encoder's depth and the levels of the decoder add up. -/
theorem decodeKeyInternal_encode {limits : LimitConfig} {depth levels : ℕ} {key : Key}
    {bytes : Bytes} (hlevels : limits.maxKeyDepth < depth + levels) (hnumeric : key.Numeric)
    (h : encodeKeyInternal limits depth key = .ok bytes) (rest : Bytes) :
    decodeKeyInternal levels (bytes ++ rest) = .ok (key.normalized, bytes.length) := by
  unfold encodeKeyInternal at h
  split at h
  next => cases h
  next hdepth =>
    obtain ⟨levels, rfl⟩ : ∃ n, levels = n + 1 := Nat.exists_eq_succ_of_ne_zero (by omega)
    cases key with
    | number n =>
        cases h
        cases hnumeric with
        | number hn => exact decodeF64Key_encode .number _ hn rest
    | date d =>
        cases h
        cases hnumeric with
        | date hd => exact decodeF64Key_encode .date _ hd rest
    | string s =>
        cases h
        show (decodeStringCesu8 (encodeStringCesu8 s ++ rest) >>= _) = _
        rw [decodeStringCesu8_encode]
        rfl
    | binary b =>
        cases h
        show (decodeBinaryEscaped (encodeBinary b ++ rest) >>= _) = _
        rw [decodeBinaryEscaped_encode]
        rfl
    | array items =>
        cases hnumeric with
        | array hitems =>
            cases hcode : encodeItems limits (depth + 1) items with
            | error e => simp [hcode, bind, Except.bind] at h
            | ok inner =>
                simp only [hcode, bind, Except.bind, Except.ok.injEq] at h
                subst h
                have hlength : inner.length < (inner ++ tagArrayTerminator :: rest).length := by
                  rw [List.length_append, List.length_cons]
                  omega
                have hdown : limits.maxKeyDepth < depth + 1 + levels := by omega
                have hread := decodeItems_encode hdown hitems hcode rest hlength
                show (decodeItems (decodeKeyInternal levels)
                  (inner ++ [tagArrayTerminator] ++ rest).length
                  (inner ++ [tagArrayTerminator] ++ rest) >>= _) = _
                rw [List.append_assoc, List.singleton_append, hread]
                show Except.ok (Key.array (normalizedItems items), inner.length + 1 + 1) = _
                rw [normalized, List.length_cons, List.length_append, List.length_singleton]

theorem decodeItems_encode {limits : LimitConfig} {depth levels passes : ℕ} {items : List Key}
    {bytes : Bytes} (hlevels : limits.maxKeyDepth < depth + levels)
    (hnumeric : ∀ item ∈ items, item.Numeric)
    (h : encodeItems limits depth items = .ok bytes) (rest : Bytes)
    (hpasses : bytes.length < passes) :
    decodeItems (decodeKeyInternal levels) passes (bytes ++ tagArrayTerminator :: rest) =
      .ok (normalizedItems items, bytes.length + 1) := by
  obtain ⟨passes, rfl⟩ : ∃ n, passes = n + 1 := Nat.exists_eq_succ_of_ne_zero (by omega)
  cases items with
  | nil =>
      cases h
      rfl
  | cons item items =>
      rw [encodeItems] at h
      cases hitem : encodeKeyInternal limits depth item with
      | error e => simp [hitem, bind, Except.bind] at h
      | ok first =>
          cases hrest : encodeItems limits depth items with
          | error e => simp [hitem, hrest, bind, Except.bind] at h
          | ok others =>
              simp only [hitem, hrest, bind, Except.bind, Except.ok.injEq] at h
              subst h
              have hfirst := decodeKeyInternal_encode hlevels (hnumeric item (.head _)) hitem
                (others ++ tagArrayTerminator :: rest)
              have hshorter : others.length < passes := by
                rw [encodeKeyInternal_eq hitem, code, List.length_append, List.length_cons]
                  at hpasses
                omega
              have hothers := decodeItems_encode hlevels
                (fun other h => hnumeric other (.tail _ h)) hrest rest hshorter
              -- an item starts with its tag, which is not the terminator
              obtain ⟨b, tail, hb, hcons⟩ : ∃ b tail, b ≠ tagArrayTerminator ∧ first = b :: tail :=
                ⟨item.tag, item.body, tag_ne_terminator item, encodeKeyInternal_eq hitem⟩
              rw [List.append_assoc]
              rw [hcons] at hfirst ⊢
              rw [List.cons_append, decodeItems, if_neg hb]
              rw [List.cons_append] at hfirst
              rw [hfirst]
              show (decodeItems (decodeKeyInternal levels) passes
                ((b :: tail ++ (others ++ tagArrayTerminator :: rest)).drop (b :: tail).length)
                >>= _) = _
              rw [List.drop_left, hothers]
              show Except.ok (_, _ + (_ + 1)) = _
              rw [normalizedItems, List.length_append, Nat.add_assoc]

end

/-- Decoding undoes encoding, whatever follows the encoding. -/
theorem decodeKey_code {limits : LimitConfig} (hlimits : limits.maxKeyDepth ≤ maxKeyDecodeDepth)
    {key : Key} {bytes : Bytes} (h : key.encodeKey limits = .ok bytes) (rest : Bytes) :
    decodeKey (bytes ++ rest) = .ok (key.normalized, bytes.length) := by
  obtain ⟨hvalid, hinternal⟩ := encodeKey_ok h
  have hempty : ¬ (bytes ++ rest).isEmpty = true := by
    rw [encodeKeyInternal_eq hinternal, code]
    exact Bool.false_ne_true
  rw [decodeKey, if_neg hempty]
  exact decodeKeyInternal_encode (by omega) (numeric_of_validate hvalid) hinternal rest

/-- Decoding undoes encoding, so no encoding is a proper start of another. -/
theorem decodeKey_encodeKey {limits : LimitConfig}
    (hlimits : limits.maxKeyDepth ≤ maxKeyDecodeDepth)
    {key : Key} {bytes : Bytes} (h : key.encodeKey limits = .ok bytes) :
    (∀ rest, decodeKey (bytes ++ rest) = .ok (key.normalized, bytes.length)) ∧
      ∀ (limits' : LimitConfig) (key' : Key) (bytes' : Bytes),
        limits'.maxKeyDepth ≤ maxKeyDecodeDepth → key'.encodeKey limits' = .ok bytes' →
          bytes <+: bytes' → bytes = bytes' := by
  refine ⟨decodeKey_code hlimits h, ?_⟩
  rintro limits' key' bytes' hlimits' h' ⟨tail, rfl⟩
  have hlong := decodeKey_code hlimits' h' []
  rw [List.append_nil, decodeKey_code hlimits h tail] at hlong
  cases tail with
  | nil => exact (List.append_nil bytes).symm
  | cons b tail =>
      have hlength := congrArg Prod.snd (Except.ok.inj hlong)
      rw [List.length_append, List.length_cons] at hlength
      omega

/-- A negative zero and an escaped string in an array, in front of other bytes. -/
theorem decodeKey_encodeKey_nested :
    (∀ rest : Bytes,
      decodeKey ([0x50, 0x10, 0x80, 0, 0, 0, 0, 0, 0, 0, 0x30, 0x00, 0xFF, 0x00, 0x00, 0x00] ++
        rest) =
        .ok (normalized (.array [.number 0x8000000000000000, .string [0]]), 16)) ∧
      ∀ (limits' : LimitConfig) (key' : Key) (bytes' : Bytes),
        limits'.maxKeyDepth ≤ maxKeyDecodeDepth → key'.encodeKey limits' = .ok bytes' →
          [0x50, 0x10, 0x80, 0, 0, 0, 0, 0, 0, 0, 0x30, 0x00, 0xFF, 0x00, 0x00, 0x00] <+: bytes' →
            [0x50, 0x10, 0x80, 0, 0, 0, 0, 0, 0, 0, 0x30, 0x00, 0xFF, 0x00, 0x00, 0x00] = bytes' :=
  @decodeKey_encodeKey {} (by decide) (.array [.number 0x8000000000000000, .string [0]]) _ rfl

end BoaIdb.Key
