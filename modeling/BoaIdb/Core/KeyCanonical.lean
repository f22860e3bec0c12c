import BoaIdb.Core.KeyDecode
import BoaIdb.Lib.Faults

/-!
Which byte strings are decoded to a key whose encoding they are.

The decoder takes a few patterns that the encoder never writes: the pattern of a negative zero,
and units in more bytes than they need. `skipShortest` finds the end of a key without them.
-/

namespace BoaIdb.Key

open ByteCodec Faults

/-! ### Numbers -/

/-- The pattern that is read as a negative zero. -/
def negativeZero : Bytes := [0x7F, 0xFF, 0xFF, 0xFF, 0xFF, 0xFF, 0xFF, 0xFF]

theorem orderable_decodeF64 {bytes : Bytes} (h : bytes.length = 8) :
    orderable (decodeF64Orderable bytes) = ofBigEndian bytes := by
  have hlt : ofBigEndian bytes < 2 ^ 64 := by
    have := ofBigEndian_lt bytes
    rwa [h] at this
  have hnat : (UInt64.ofNat (ofBigEndian bytes)).toNat = ofBigEndian bytes :=
    UInt64.toNat_ofNat_of_lt' hlt
  have hvalue : (decodeF64Orderable bytes).toNat =
      if 2 ^ 63 ≤ ofBigEndian bytes then ofBigEndian bytes - 2 ^ 63
      else 2 ^ 64 - 1 - ofBigEndian bytes := by
    rw [decodeF64Orderable]
    simp only [and_signBit, F64Bits.isNegative, hnat, decide_eq_true_eq]
    split
    next hsign =>
      have hmask : (~~~signBit).toNat = 2 ^ 63 - 1 := by decide
      rw [UInt64.toNat_and, hnat, hmask, Nat.and_two_pow_sub_one_eq_mod]
      omega
    next =>
      rw [← UInt64.toNat_toBitVec, UInt64.toBitVec_not, BitVec.toNat_not, UInt64.toNat_toBitVec,
        hnat]
  rw [orderable, F64Bits.isNegative, F64Bits.magnitude, hvalue]
  simp only [decide_eq_true_eq]
  split_ifs <;> omega

theorem orderable_normZero_ne (x : F64Bits) : orderable (F64Bits.normZero x) ≠ 2 ^ 63 - 1 := by
  rw [F64Bits.normZero]
  split
  next => decide
  next hzero =>
    have hmagnitude : F64Bits.magnitude x ≠ 0 := by simpa [F64Bits.isZero] using hzero
    rw [orderable]
    split <;> omega

/-- Every other pattern is written back. -/
theorem encodeF64_decode {bytes : Bytes} (h : bytes.length = 8) (hzero : bytes ≠ negativeZero) :
    encodeF64Orderable (decodeF64Orderable bytes) = bytes := by
  have hbytes : bigEndian 8 (ofBigEndian bytes) = bytes := by
    rw [← h]
    exact bigEndian_ofBigEndian bytes
  have hne : ofBigEndian bytes ≠ 2 ^ 63 - 1 := by
    intro heq
    apply hzero
    rw [← hbytes, heq]
    rfl
  have hord := orderable_decodeF64 h
  have hnorm : orderable (F64Bits.normZero (decodeF64Orderable bytes)) = ofBigEndian bytes := by
    rw [F64Bits.normZero]
    split
    next hz =>
      have hmagnitude : F64Bits.magnitude (decodeF64Orderable bytes) = 0 := by
        simpa [F64Bits.isZero] using hz
      rw [orderable, hmagnitude] at hord
      -- of the two zeros only the positive one is left
      split at hord
      next => exact absurd hord.symm (by simpa using hne)
      next => exact hord
    next => exact hord
  rw [encodeF64Orderable_eq, hnorm, hbytes]

theorem encodeF64_ne (x : F64Bits) : encodeF64Orderable x ≠ negativeZero := by
  intro h
  rw [encodeF64Orderable_eq] at h
  apply orderable_normZero_ne x
  have hvalue := ofBigEndian_bigEndian (orderable_lt (F64Bits.normZero x))
  rw [h] at hvalue
  rw [← hvalue]
  rfl

/-! ### Escapes -/

/-- What is read has only one escaped form. -/
theorem unescape_ok {texts : EscapeTexts} {bytes data : Bytes} {n : ℕ}
    (h : unescape texts bytes = .ok (data, n)) :
    n = (data.flatMap escapeByte ++ escapeTerminator).length ∧
      ∃ tail, bytes = data.flatMap escapeByte ++ escapeTerminator ++ tail := by
  induction bytes using unescape.induct generalizing data n with
  | case1 => cases h
  | case2 => cases h
  | case3 rest =>
      cases h
      exact ⟨rfl, rest, rfl⟩
  | case4 rest _ ih =>
      obtain ⟨⟨inner, consumed⟩, hinner, hok⟩ := bind_ok h
      cases hok
      obtain ⟨rfl, tail, htail⟩ := ih hinner
      refine ⟨rfl, tail, ?_⟩
      rw [htail, List.flatMap_cons]
      rfl
  | case5 c rest hzero hescape =>
      rw [unescape.eq_def] at h
      simp only [if_true, hzero, hescape, if_false] at h
      cases h
  | case6 b rest hb ih =>
      rw [unescape.eq_def] at h
      dsimp only at h
      rw [if_neg hb] at h
      obtain ⟨⟨inner, consumed⟩, hinner, hok⟩ := bind_ok h
      cases hok
      obtain ⟨rfl, tail, htail⟩ := ih hinner
      have hescaped : (b :: inner).flatMap escapeByte = b :: inner.flatMap escapeByte := by
        rw [List.flatMap_cons, escapeByte_of_ne hb]
        rfl
      rw [hescaped]
      refine ⟨rfl, tail, ?_⟩
      rw [htail]
      rfl

/-! ### Strings -/

/-- Whether no unit takes more bytes than it needs. -/
def shortestUnits : Bytes → Bool
  | [] => true
  | b :: rest =>
      if b ≤ 0x7F then shortestUnits rest
      else if b ≤ 0xDF then
        match rest with
        | _ :: rest => 0xC2 ≤ b && shortestUnits rest
        | [] => true
      else
        match rest with
        | b2 :: _ :: rest => (0xE1 ≤ b || 0xA0 ≤ b2) && shortestUnits rest
        | _ => true

section shortestUnits

variable {b b2 b3 : UInt8} {rest : Bytes}

theorem shortestUnits_one (hone : b ≤ 0x7F) : shortestUnits (b :: rest) = shortestUnits rest := by
  rw [shortestUnits.eq_def]
  exact if_pos hone

theorem shortestUnits_two (hone : ¬ b ≤ 0x7F) (htwo : b ≤ 0xDF) :
    shortestUnits (b :: b2 :: rest) = (decide (0xC2 ≤ b) && shortestUnits rest) := by
  rw [shortestUnits.eq_def]
  exact (if_neg hone).trans (if_pos htwo)

theorem shortestUnits_three (hone : ¬ b ≤ 0x7F) (htwo : ¬ b ≤ 0xDF) :
    shortestUnits (b :: b2 :: b3 :: rest) =
      ((decide (0xE1 ≤ b) || decide (0xA0 ≤ b2)) && shortestUnits rest) := by
  rw [shortestUnits.eq_def]
  exact (if_neg hone).trans (if_neg htwo)

end shortestUnits

/-- A byte behind its marker, as its payload. -/
theorem toNat_payload {b mask : UInt8} {marker k : ℕ} (hmarker : marker % 2 ^ k = 0)
    (hle : marker ≤ b.toNat) (hlt : b.toNat < marker + 2 ^ k) (hmask : mask.toNat = 2 ^ k - 1) :
    (b &&& mask).toUInt16.toNat = b.toNat - marker := by
  obtain ⟨n, hn⟩ := Nat.exists_eq_add_of_le hle
  have hb : b = UInt8.ofNat (marker + n) := by
    rw [← hn]
    exact UInt8.ofNat_toNat.symm
  have hbyte := b.toNat_lt
  rw [hb, payload hmarker (by omega) (by omega) hmask, toNat_ofNat (by omega),
    Nat.add_sub_cancel_left]

theorem continuation_iff (b : UInt8) : isContinuation b = true ↔ 128 ≤ b.toNat ∧ b.toNat < 192 := by
  rw [isContinuation, Bool.and_eq_true, decide_eq_true_eq, decide_eq_true_eq, UInt8.le_iff_toNat_le,
    UInt8.le_iff_toNat_le]
  exact and_congr Iff.rfl Nat.lt_succ_iff.symm

theorem encode_two {b b2 : UInt8} (hlow : 0xC2 ≤ b) (hhigh : b ≤ 0xDF)
    (hb2 : isContinuation b2 = true) :
    encodeCesu8Unit ((b &&& 0x1F).toUInt16 <<< 6 ||| (b2 &&& 0x3F).toUInt16) = [b, b2] := by
  have hlow : 194 ≤ b.toNat := UInt8.le_iff_toNat_le.mp hlow
  have hhigh : b.toNat ≤ 223 := UInt8.le_iff_toNat_le.mp hhigh
  obtain ⟨hb2, hb2'⟩ := (continuation_iff b2).mp hb2
  have hfirst : (b &&& 0x1F).toUInt16.toNat = b.toNat - 192 :=
    toNat_payload (k := 5) rfl (by omega) (by omega) rfl
  have hsecond : (b2 &&& 0x3F).toUInt16.toNat = b2.toNat - 128 :=
    toNat_payload (k := 6) rfl hb2 (by omega) rfl
  have hunit : ((b &&& 0x1F).toUInt16 <<< 6 ||| (b2 &&& 0x3F).toUInt16).toNat =
      (b.toNat - 192) * 2 ^ 6 + (b2.toNat - 128) := by
    rw [← hfirst, ← hsecond]
    apply join_bits (k := 6) _ _ (by norm_num)
    · rw [hsecond]
      omega
    · rw [hfirst]
      omega
  rw [encodeCesu8Unit_eq, hunit, cesu8Code, if_neg (by omega), if_pos (by omega)]
  have hhead : 192 + ((b.toNat - 192) * 2 ^ 6 + (b2.toNat - 128)) / 64 = b.toNat := by omega
  have htail : 128 + ((b.toNat - 192) * 2 ^ 6 + (b2.toNat - 128)) % 64 = b2.toNat := by omega
  rw [hhead, htail, UInt8.ofNat_toNat, UInt8.ofNat_toNat]

theorem encode_three {b b2 b3 : UInt8} (hlow : 0xE0 ≤ b) (hhigh : b ≤ 0xEF)
    (hshort : 0xE1 ≤ b ∨ 0xA0 ≤ b2) (hb2 : isContinuation b2 = true)
    (hb3 : isContinuation b3 = true) :
    encodeCesu8Unit ((b &&& 0x0F).toUInt16 <<< 12 ||| (b2 &&& 0x3F).toUInt16 <<< 6 |||
      (b3 &&& 0x3F).toUInt16) = [b, b2, b3] := by
  have hlow : 224 ≤ b.toNat := UInt8.le_iff_toNat_le.mp hlow
  have hhigh : b.toNat ≤ 239 := UInt8.le_iff_toNat_le.mp hhigh
  have hshort : 225 ≤ b.toNat ∨ 160 ≤ b2.toNat :=
    hshort.imp UInt8.le_iff_toNat_le.mp UInt8.le_iff_toNat_le.mp
  obtain ⟨hb2, hb2'⟩ := (continuation_iff b2).mp hb2
  obtain ⟨hb3, hb3'⟩ := (continuation_iff b3).mp hb3
  have hfirst : (b &&& 0x0F).toUInt16.toNat = b.toNat - 224 :=
    toNat_payload (k := 4) rfl (by omega) (by omega) rfl
  have hsecond : (b2 &&& 0x3F).toUInt16.toNat = b2.toNat - 128 :=
    toNat_payload (k := 6) rfl hb2 (by omega) rfl
  have hthird : (b3 &&& 0x3F).toUInt16.toNat = b3.toNat - 128 :=
    toNat_payload (k := 6) rfl hb3 (by omega) rfl
  have hlower : ((b2 &&& 0x3F).toUInt16 <<< 6 ||| (b3 &&& 0x3F).toUInt16).toNat =
      (b2.toNat - 128) * 2 ^ 6 + (b3.toNat - 128) := by
    rw [← hsecond, ← hthird]
    apply join_bits (k := 6) _ _ (by norm_num)
    · rw [hthird]
      omega
    · rw [hsecond]
      omega
  have hunit : ((b &&& 0x0F).toUInt16 <<< 12 ||| (b2 &&& 0x3F).toUInt16 <<< 6 |||
      (b3 &&& 0x3F).toUInt16).toNat =
      (b.toNat - 224) * 2 ^ 12 + ((b2.toNat - 128) * 2 ^ 6 + (b3.toNat - 128)) := by
    rw [UInt16.or_assoc, ← hfirst, ← hlower]
    apply join_bits (k := 12) _ _ (by norm_num)
    · rw [hlower]
      omega
    · rw [hfirst]
      omega
  rw [encodeCesu8Unit_eq, hunit, cesu8Code, if_neg (by omega), if_neg (by omega)]
  have hhead : 224 + ((b.toNat - 224) * 2 ^ 12 + ((b2.toNat - 128) * 2 ^ 6 + (b3.toNat - 128))) /
      4096 = b.toNat := by omega
  have hmiddle : 128 + ((b.toNat - 224) * 2 ^ 12 + ((b2.toNat - 128) * 2 ^ 6 + (b3.toNat - 128))) /
      64 % 64 = b2.toNat := by omega
  have htail : 128 + ((b.toNat - 224) * 2 ^ 12 + ((b2.toNat - 128) * 2 ^ 6 + (b3.toNat - 128))) %
      64 = b3.toNat := by omega
  rw [hhead, hmiddle, htail, UInt8.ofNat_toNat, UInt8.ofNat_toNat, UInt8.ofNat_toNat]

theorem decodeCesu8_shortest {bytes : Bytes} {units : Utf16String}
    (h : decodeCesu8 bytes = .ok units) (hshort : shortestUnits bytes = true) :
    units.flatMap encodeCesu8Unit = bytes := by
  -- the three lengths of a code read on; in the other cases the decoder fails
  induction bytes using decodeCesu8.induct generalizing units with
  | case1 =>
      cases h
      rfl
  | case2 b rest hone ih =>
      rw [decodeCesu8.eq_def] at h
      rw [shortestUnits_one hone] at hshort
      dsimp only at h
      rw [if_pos hone] at h
      obtain ⟨others, hothers, hok⟩ := bind_ok h
      cases hok
      have hunit : encodeCesu8Unit b.toUInt16 = [b] := by
        have hlt : b.toNat < 128 := Nat.lt_succ_of_le (UInt8.le_iff_toNat_le.mp hone)
        rw [encodeCesu8Unit_eq, UInt8.toNat_toUInt16, cesu8Code, if_pos hlt, UInt8.ofNat_toNat]
      rw [List.flatMap_cons, hunit, ih hothers hshort]
      rfl
  | case3 b hone htwo b2 rest hb2 ih =>
      rw [decodeCesu8.eq_def] at h
      rw [shortestUnits_two hone htwo.2, Bool.and_eq_true, decide_eq_true_eq] at hshort
      dsimp only at h
      rw [if_neg hone, if_pos htwo, if_pos hb2] at h
      obtain ⟨others, hothers, hok⟩ := bind_ok h
      cases hok
      rw [List.flatMap_cons, encode_two hshort.1 htwo.2 hb2, ih hothers hshort.2]
      rfl
  | case4 b hone htwo b2 rest hb2 =>
      rw [decodeCesu8.eq_def] at h
      dsimp only at h
      rw [if_neg hone, if_pos htwo, if_neg hb2] at h
      cases h
  | case5 b hone htwo =>
      rw [decodeCesu8.eq_def] at h
      dsimp only at h
      rw [if_neg hone, if_pos htwo] at h
      cases h
  | case6 b hone htwo hthree b2 b3 rest hnext ih =>
      have hhigh : ¬ b ≤ 0xDF := fun hle => htwo ⟨UInt8.le_trans (by decide) hthree.1, hle⟩
      rw [decodeCesu8.eq_def] at h
      rw [shortestUnits_three hone hhigh, Bool.and_eq_true, Bool.or_eq_true, decide_eq_true_eq,
        decide_eq_true_eq] at hshort
      dsimp only at h
      rw [if_neg hone, if_neg htwo, if_pos hthree, if_pos hnext] at h
      obtain ⟨others, hothers, hok⟩ := bind_ok h
      cases hok
      obtain ⟨hb2, hb3⟩ := Bool.and_eq_true _ _ ▸ hnext
      rw [List.flatMap_cons, encode_three hthree.1 hthree.2 hshort.1 hb2 hb3, ih hothers hshort.2]
      rfl
  | case7 b hone htwo hthree b2 b3 rest hnext =>
      rw [decodeCesu8.eq_def] at h
      dsimp only at h
      rw [if_neg hone, if_neg htwo, if_pos hthree, if_neg hnext] at h
      cases h
  | case8 b rest hone htwo hthree hrest =>
      rw [decodeCesu8.eq_def] at h
      dsimp only at h
      rw [if_neg hone, if_neg htwo, if_pos hthree] at h
      split at h
      · exact absurd rfl (hrest _ _ _)
      · cases h
  | case9 b rest hone htwo hthree =>
      rw [decodeCesu8.eq_def] at h
      dsimp only at h
      rw [if_neg hone, if_neg htwo, if_neg hthree] at h
      cases h

theorem shortestUnits_unit (cu : UInt16) (rest : Bytes) :
    shortestUnits (encodeCesu8Unit cu ++ rest) = shortestUnits rest := by
  have hlt := cu.toNat_lt
  rw [encodeCesu8Unit_eq, cesu8Code]
  split_ifs with hone htwo
  · have hle : UInt8.ofNat cu.toNat ≤ 0x7F :=
      (leading (show (0 : UInt8).toNat ≤ _ from Nat.zero_le _) (Nat.le_of_lt_succ hone)).2
    exact shortestUnits_one hle
  · have hone' : ¬ UInt8.ofNat (192 + cu.toNat / 64) ≤ 0x7F :=
      not_le_of_lt (show 127 < _ by omega) (by omega)
    have htwo' : 0xC2 ≤ UInt8.ofNat (192 + cu.toNat / 64) ∧
        UInt8.ofNat (192 + cu.toNat / 64) ≤ 0xDF :=
      leading (show 194 ≤ _ by omega) (show _ ≤ 223 by omega)
    refine (shortestUnits_two hone' htwo'.2).trans ?_
    rw [decide_eq_true htwo'.1, Bool.true_and]
    rfl
  · have hone' : ¬ UInt8.ofNat (224 + cu.toNat / 4096) ≤ 0x7F :=
      not_le_of_lt (show 127 < _ by omega) (by omega)
    have htwo' : ¬ UInt8.ofNat (224 + cu.toNat / 4096) ≤ 0xDF :=
      not_le_of_lt (show 223 < _ by omega) (by omega)
    have hshort : (decide (0xE1 ≤ UInt8.ofNat (224 + cu.toNat / 4096)) ||
        decide (0xA0 ≤ UInt8.ofNat (128 + cu.toNat / 64 % 64))) = true := by
      rw [Bool.or_eq_true, decide_eq_true_eq, decide_eq_true_eq, UInt8.le_iff_toNat_le,
        UInt8.le_iff_toNat_le, toNat_ofNat (by omega), toNat_ofNat (by omega)]
      show 225 ≤ _ ∨ 160 ≤ _
      omega
    refine (shortestUnits_three hone' htwo').trans ?_
    rw [hshort, Bool.true_and]
    rfl

theorem shortestUnits_units (units : Utf16String) :
    shortestUnits (units.flatMap encodeCesu8Unit) = true := by
  induction units with
  | nil => rfl
  | cons cu units ih => rw [List.flatMap_cons, shortestUnits_unit, ih]

/-! ### Keys -/

/-- The loop over the items of an array. -/
def skipItems (skip : Bytes → Option Bytes) : ℕ → Bytes → Option Bytes
  | 0, _ => none
  | _ + 1, [] => none
  | passes + 1, b :: rest =>
      if b = tagArrayTerminator then some rest
      else (skip (b :: rest)).bind (skipItems skip passes)

/-- The bytes behind the key at the front, which has no number with the pattern of a negative
zero and no unit in more bytes than it needs; `none` if it has. -/
def skipShortest : ℕ → Bytes → Option Bytes
  | 0, _ => none
  | _ + 1, [] => none
  | levels + 1, tag :: rest =>
      if tag = tagNumber ∨ tag = tagDate then
        if rest.take 8 = negativeZero then none else some (rest.drop 8)
      else if tag = tagString then
        match unescape stringTexts rest with
        | .ok (data, consumed) => if shortestUnits data then some (rest.drop consumed) else none
        | .error _ => none
      else if tag = tagBinary then
        match unescape binaryTexts rest with
        | .ok (_, consumed) => some (rest.drop consumed)
        | .error _ => none
      else if tag = tagArray then skipItems (skipShortest levels) rest.length rest
      else none

/-- Whether the key at the front is written as the encoder writes numbers and units. -/
def startsShortest (bytes : Bytes) : Bool := (skipShortest (maxKeyDecodeDepth + 1) bytes).isSome

theorem decodeF64Key_shortest {key : F64Bits → Key} {nan : String} {rest : Bytes} {k : Key} {n : ℕ}
    (h : decodeF64Key key nan rest = .ok (k, n)) (hzero : rest.take 8 ≠ negativeZero) :
    ∃ x, k = key x ∧ n = 9 ∧ rest = encodeF64Orderable x ++ rest.drop 8 := by
  rw [decodeF64Key] at h
  split at h
  next => cases h
  next hlength =>
    dsimp only at h
    split at h
    next => cases h
    next =>
      cases h
      have htake : (rest.take 8).length = 8 := by
        rw [List.length_take]
        omega
      refine ⟨_, rfl, rfl, ?_⟩
      rw [encodeF64_decode htake hzero, List.take_append_drop]

/-- What was skipped is the encoding of the key that is decoded there. -/
def Spells (decode : Bytes → Except KeyError (Key × ℕ)) (skip : Bytes → Option Bytes) : Prop :=
  ∀ (bytes tail : Bytes) (k : Key) (n : ℕ), decode bytes = .ok (k, n) → skip bytes = some tail →
    bytes = k.code ++ tail ∧ n = k.code.length

theorem decodeItems_shortest {decode : Bytes → Except KeyError (Key × ℕ)}
    {skip : Bytes → Option Bytes} (hspells : Spells decode skip) {passes : ℕ} {bytes tail : Bytes}
    {items : List Key} {n : ℕ} (h : decodeItems decode passes bytes = .ok (items, n))
    (hskip : skipItems skip passes bytes = some tail) :
    bytes = itemsCode items ++ tagArrayTerminator :: tail ∧ n = (itemsCode items).length + 1 := by
  induction passes generalizing bytes items n with
  | zero => cases h
  | succ passes ih =>
      cases bytes with
      | nil => cases h
      | cons b rest =>
          rw [decodeItems] at h
          rw [skipItems] at hskip
          split at h
          next hterminator =>
            rw [if_pos hterminator] at hskip
            cases h
            cases hskip
            rw [hterminator, itemsCode]
            exact ⟨rfl, rfl⟩
          next hitem =>
            rw [if_neg hitem] at hskip
            obtain ⟨⟨k, m⟩, hk, h⟩ := bind_ok h
            obtain ⟨⟨ks, m'⟩, hks, hok⟩ := bind_ok h
            obtain ⟨inner, hinner, hskip⟩ := Option.bind_eq_some_iff.mp hskip
            cases hok
            obtain ⟨hbytes, rfl⟩ := hspells _ _ _ _ hk hinner
            rw [hbytes, List.drop_left] at hks
            obtain ⟨hinner', rfl⟩ := ih hks hskip
            have hcons : itemsCode (k :: ks) = k.code ++ itemsCode ks := by
              rw [itemsCode, code, List.cons_append]
            rw [hbytes, hinner', hcons, List.append_assoc, List.length_append, Nat.add_assoc]
            exact ⟨rfl, rfl⟩

theorem decodeString_shortest {rest data : Bytes} {units : Utf16String} {consumed n : ℕ}
    (hread : unescape stringTexts rest = .ok (data, consumed)) (hshort : shortestUnits data = true)
    (h : decodeStringCesu8 rest = .ok (units, n)) :
    rest = encodeStringCesu8 units ++ rest.drop consumed ∧
      n = (encodeStringCesu8 units).length := by
  rw [decodeStringCesu8, hread] at h
  obtain ⟨units', hunits, hok⟩ := bind_ok (x := decodeCesu8 data) h
  cases hok
  obtain ⟨rfl, tail, htail⟩ := unescape_ok hread
  rw [encodeStringCesu8, decodeCesu8_shortest hunits hshort]
  refine ⟨?_, rfl⟩
  rw [htail, List.drop_left]

theorem decodeBinary_shortest {rest data : Bytes} {n : ℕ}
    (h : decodeBinaryEscaped rest = .ok (data, n)) :
    rest = encodeBinary data ++ rest.drop n ∧ n = (encodeBinary data).length := by
  obtain ⟨rfl, tail, htail⟩ := unescape_ok h
  refine ⟨?_, rfl⟩
  rw [htail, encodeBinary, List.drop_left]

theorem length_encodeF64 (x : F64Bits) : (encodeF64Orderable x).length = 8 := length_bigEndian 8 _

theorem spells_decodeKeyInternal (levels : ℕ) :
    Spells (decodeKeyInternal levels) (skipShortest levels) := by
  -- the levels of nesting decrease with every array that is entered
  induction levels with
  | zero =>
      intro bytes tail k n h hskip
      cases h
  | succ levels ih =>
      intro bytes tail k n h hskip
      cases bytes with
      | nil => cases h
      | cons t rest =>
          rw [decodeKeyInternal] at h
          rw [skipShortest] at hskip
          by_cases hnumber : t = tagNumber
          · rw [if_pos hnumber] at h
            rw [if_pos (.inl hnumber)] at hskip
            split at hskip
            next => cases hskip
            next hzero =>
              cases hskip
              obtain ⟨x, rfl, rfl, hrest⟩ := decodeF64Key_shortest h hzero
              rw [hnumber, code, tag, body, List.length_cons, length_encodeF64]
              exact ⟨congrArg (tagNumber :: ·) hrest, rfl⟩
          by_cases hdate : t = tagDate
          · rw [if_neg hnumber, if_pos hdate] at h
            rw [if_pos (.inr hdate)] at hskip
            split at hskip
            next => cases hskip
            next hzero =>
              cases hskip
              obtain ⟨x, rfl, rfl, hrest⟩ := decodeF64Key_shortest h hzero
              rw [hdate, code, tag, body, List.length_cons, length_encodeF64]
              exact ⟨congrArg (tagDate :: ·) hrest, rfl⟩
          rw [if_neg hnumber, if_neg hdate] at h
          rw [if_neg (not_or.mpr ⟨hnumber, hdate⟩)] at hskip
          by_cases hstring : t = tagString
          · rw [if_pos hstring] at h hskip
            obtain ⟨⟨units, m⟩, hunits, hok⟩ := bind_ok h
            cases hok
            split at hskip
            next data consumed hread =>
              split at hskip
              next hshort =>
                cases hskip
                obtain ⟨hrest, rfl⟩ := decodeString_shortest hread hshort hunits
                rw [hstring, code, tag, body, List.length_cons]
                exact ⟨congrArg (tagString :: ·) hrest, rfl⟩
              next => cases hskip
            next => cases hskip
          rw [if_neg hstring] at h hskip
          by_cases hbinary : t = tagBinary
          · rw [if_pos hbinary] at h hskip
            obtain ⟨⟨data, m⟩, hdata, hok⟩ := bind_ok h
            cases hok
            have hread : unescape binaryTexts rest = .ok (data, m) := hdata
            rw [hread] at hskip
            cases hskip
            obtain ⟨hrest, hlength⟩ := decodeBinary_shortest hdata
            rw [hbinary, code, tag, body, List.length_cons, ← hlength]
            exact ⟨congrArg (tagBinary :: ·) hrest, rfl⟩
          rw [if_neg hbinary] at h hskip
          by_cases harray : t = tagArray
          · rw [if_pos harray] at h hskip
            obtain ⟨⟨items, m⟩, hitems, hok⟩ := bind_ok h
            cases hok
            obtain ⟨hrest, rfl⟩ := decodeItems_shortest ih hitems hskip
            rw [harray, code, tag, body, List.length_cons, List.length_append,
              List.length_singleton]
            refine ⟨?_, rfl⟩
            rw [hrest, List.cons_append, List.append_assoc, List.singleton_append]
          · rw [if_neg harray] at h
            cases h

mutual

/-- The encoder writes nothing else. -/
theorem skipShortest_encode {limits : LimitConfig} {depth levels : ℕ} {key : Key} {bytes : Bytes}
    (hlevels : limits.maxKeyDepth < depth + levels)
    (h : encodeKeyInternal limits depth key = .ok bytes) (rest : Bytes) :
    skipShortest levels (bytes ++ rest) = some rest := by
  unfold encodeKeyInternal at h
  split at h
  next => cases h
  next hdepth =>
    obtain ⟨levels, rfl⟩ : ∃ n, levels = n + 1 := Nat.exists_eq_succ_of_ne_zero (by omega)
    have hnumber (x : F64Bits) : (if (encodeF64Orderable x ++ rest).take 8 = negativeZero then none
        else some ((encodeF64Orderable x ++ rest).drop 8)) = some rest := by
      rw [← length_encodeF64 x, List.take_left, List.drop_left]
      exact if_neg (encodeF64_ne x)
    cases key with
    | number n =>
        cases h
        exact hnumber n
    | date d =>
        cases h
        exact hnumber d
    | string s =>
        cases h
        show (match unescape stringTexts (encodeStringCesu8 s ++ rest) with
          | .ok (data, consumed) =>
              if shortestUnits data then some ((encodeStringCesu8 s ++ rest).drop consumed)
                else none
          | .error _ => none) = some rest
        rw [encodeStringCesu8, unescape_escaped]
        dsimp only
        rw [shortestUnits_units, List.drop_left]
        rfl
    | binary b =>
        cases h
        show (match unescape binaryTexts (encodeBinary b ++ rest) with
          | .ok (_, consumed) => some ((encodeBinary b ++ rest).drop consumed)
          | .error _ => none) = some rest
        rw [encodeBinary, unescape_escaped]
        dsimp only
        rw [List.drop_left]
    | array items =>
        obtain ⟨inner, hinner, hok⟩ := bind_ok h
        cases hok
        have hlength : inner.length < (inner ++ tagArrayTerminator :: rest).length := by
          rw [List.length_append, List.length_cons]
          omega
        have hskip :=
          skipItems_encode (show limits.maxKeyDepth < (depth + 1) + levels by omega) hinner rest
            hlength
        show skipItems (skipShortest levels) (inner ++ [tagArrayTerminator] ++ rest).length
          (inner ++ [tagArrayTerminator] ++ rest) = some rest
        rw [List.append_assoc, List.singleton_append]
        exact hskip

theorem skipItems_encode {limits : LimitConfig} {depth levels passes : ℕ} {items : List Key}
    {bytes : Bytes} (hlevels : limits.maxKeyDepth < depth + levels)
    (h : encodeItems limits depth items = .ok bytes) (rest : Bytes)
    (hpasses : bytes.length < passes) :
    skipItems (skipShortest levels) passes (bytes ++ tagArrayTerminator :: rest) = some rest := by
  obtain ⟨passes, rfl⟩ : ∃ n, passes = n + 1 := Nat.exists_eq_succ_of_ne_zero (by omega)
  cases items with
  | nil =>
      cases h
      rfl
  | cons item items =>
      rw [encodeItems] at h
      obtain ⟨first, hfirst, h⟩ := bind_ok h
      obtain ⟨others, hothers, hok⟩ := bind_ok h
      cases hok
      have hskip := skipShortest_encode hlevels hfirst (others ++ tagArrayTerminator :: rest)
      have hshorter : others.length < passes := by
        rw [encodeKeyInternal_eq hfirst, code, List.length_append, List.length_cons] at hpasses
        omega
      have hskips := skipItems_encode hlevels hothers rest hshorter
      -- an item starts with its tag, which is not the terminator
      have hcode : first = item.tag :: item.body := encodeKeyInternal_eq hfirst
      rw [List.append_assoc]
      rw [hcode, List.cons_append] at hskip ⊢
      rw [skipItems, if_neg (tag_ne_terminator item), hskip]
      exact hskips

end

mutual

/-- A valid key is encoded, if its length allows. -/
theorem encodeKeyInternal_valid {limits : LimitConfig} {depth : ℕ} {key : Key}
    (h : validateRecursive limits depth key = .ok ()) :
    encodeKeyInternal limits depth key = .ok key.code := by
  rw [validateRecursive.eq_def] at h
  split at h
  next => cases h
  next hdepth =>
    rw [encodeKeyInternal.eq_def, if_neg hdepth]
    cases key with
    | array items =>
        show (encodeItems limits (depth + 1) items >>= _) = _
        rw [encodeItems_valid h]
        rfl
    | _ => rfl

theorem encodeItems_valid {limits : LimitConfig} {depth : ℕ} {items : List Key}
    (h : validateItems limits depth items = .ok ()) :
    encodeItems limits depth items = .ok (itemsCode items) := by
  cases items with
  | nil => rfl
  | cons item items =>
      rw [validateItems] at h
      obtain ⟨_, hitem, hitems⟩ := bind_ok h
      rw [encodeItems, encodeKeyInternal_valid hitem, encodeItems_valid hitems]
      rfl

end

theorem validate_items {limits : LimitConfig} {depth : ℕ}
    {decode : Bytes → Except KeyError (Key × ℕ)}
    (hdecode : ∀ (bytes : Bytes) (k : Key) (n : ℕ), decode bytes = .ok (k, n) →
      validateRecursive limits depth k = .ok ())
    {passes : ℕ} {bytes : Bytes} {items : List Key} {n : ℕ}
    (h : decodeItems decode passes bytes = .ok (items, n)) :
    validateItems limits depth items = .ok () := by
  induction passes generalizing bytes items n with
  | zero => cases h
  | succ passes ih =>
      cases bytes with
      | nil => cases h
      | cons b rest =>
          rw [decodeItems] at h
          split at h
          next =>
            cases h
            rfl
          next =>
            obtain ⟨⟨k, m⟩, hk, h⟩ := bind_ok h
            obtain ⟨⟨ks, m'⟩, hks, hok⟩ := bind_ok h
            cases hok
            rw [validateItems, hdecode _ _ _ hk]
            exact ih hks

theorem decodeF64Key_ok {key : F64Bits → Key} {nan : String} {rest : Bytes} {k : Key} {n : ℕ}
    (h : decodeF64Key key nan rest = .ok (k, n)) : ∃ x, k = key x ∧ F64Bits.isNaN x = false := by
  rw [decodeF64Key] at h
  split at h
  next => cases h
  next =>
    dsimp only at h
    split at h
    next => cases h
    next hnumber =>
      cases h
      exact ⟨_, rfl, by simpa using hnumber⟩

/-- The decoder returns valid keys only. -/
theorem validate_decoded {limits : LimitConfig} {levels depth : ℕ} {bytes : Bytes} {k : Key} {n : ℕ}
    (hlevels : depth + levels ≤ limits.maxKeyDepth + 1)
    (h : decodeKeyInternal levels bytes = .ok (k, n)) :
    validateRecursive limits depth k = .ok () := by
  induction levels generalizing depth bytes k n with
  | zero => cases h
  | succ levels ih =>
      have hdepth : ¬ limits.maxKeyDepth < depth := by omega
      cases bytes with
      | nil => cases h
      | cons t rest =>
          rw [decodeKeyInternal] at h
          rw [validateRecursive.eq_def, if_neg hdepth]
          split at h
          next =>
            obtain ⟨x, rfl, hx⟩ := decodeF64Key_ok h
            exact if_neg (by rw [hx]; decide)
          next =>
            split at h
            next =>
              obtain ⟨x, rfl, hx⟩ := decodeF64Key_ok h
              exact if_neg (by rw [hx]; decide)
            next =>
              split at h
              next =>
                obtain ⟨⟨units, m⟩, -, hok⟩ := bind_ok h
                cases hok
                rfl
              next =>
                split at h
                next =>
                  obtain ⟨⟨data, m⟩, -, hok⟩ := bind_ok h
                  cases hok
                  rfl
                next =>
                  split at h
                  next =>
                    obtain ⟨⟨items, m⟩, hitems, hok⟩ := bind_ok h
                    cases hok
                    exact validate_items (fun _ _ _ hk => ih (by omega) hk) hitems
                  next => cases h

theorem decodeKeyInternal_of_ok {bytes : Bytes} {k : Key} {n : ℕ}
    (h : decodeKey bytes = .ok (k, n)) :
    decodeKeyInternal (maxKeyDecodeDepth + 1) bytes = .ok (k, n) := by
  rw [decodeKey] at h
  split at h
  next => cases h
  next => exact h

/-! ### Whole keys -/

/-- If a key is read from the bytes at all, they are its spelling by the encoder, to the end. -/
def WellSpelled (bytes : Bytes) : Prop :=
  ∀ k n, decodeKey bytes = .ok (k, n) → n = bytes.length ∧ startsShortest bytes = true

instance (bytes : Bytes) : Decidable (WellSpelled bytes) :=
  match h : decodeKey bytes with
  | .error _ => isTrue fun _ _ hread => by cases h.symm.trans hread
  | .ok (_, n) => decidable_of_iff (n = bytes.length ∧ startsShortest bytes = true)
      ⟨fun hspelled _ _ hread => by cases h.symm.trans hread; exact hspelled, fun hall =>
        hall _ _ h⟩

theorem WellSpelled.code {bytes : Bytes} {k : Key} {n : ℕ} (h : WellSpelled bytes)
    (hread : decodeKey bytes = .ok (k, n)) : bytes = k.code ∧ k.Numeric := by
  obtain ⟨hn, hstarts⟩ := h k n hread
  obtain ⟨tail, hskip⟩ := Option.isSome_iff_exists.mp hstarts
  have hinternal := decodeKeyInternal_of_ok hread
  obtain ⟨hbytes, hlength⟩ := spells_decodeKeyInternal _ _ _ _ _ hinternal hskip
  have htail : tail = [] := by
    have htotal := congrArg List.length hbytes
    rw [List.length_append, ← hlength, ← hn] at htotal
    exact List.length_eq_zero_iff.mp (by omega)
  rw [htail, List.append_nil] at hbytes
  refine ⟨hbytes, ?_⟩
  have hdepth : 0 + (maxKeyDecodeDepth + 1) ≤ maxKeyDecodeDepth + 1 := le_of_eq (Nat.zero_add _)
  exact numeric_of_validate
    (@validate_decoded { maxKeyDepth := maxKeyDecodeDepth } _ _ _ _ _ hdepth hinternal)

/-- Under limits that permit it, a decoded key is written back as the bytes that were read exactly
when they spell it as the encoder writes numbers and units. -/
theorem decodeKey_canonical_iff {bytes : Bytes} {k : Key} {n : ℕ}
    (h : decodeKey bytes = .ok (k, n)) :
    (∀ (limits : LimitConfig) (written : Bytes), k.encodeKey limits = .ok written →
      written = bytes.take n) ↔ startsShortest bytes = true := by
  have hread := decodeKeyInternal_of_ok h
  constructor
  · intro hall
    let limits : LimitConfig := { maxKeyLen := k.code.length, maxKeyDepth := maxKeyDecodeDepth }
    have hvalid : k.validate limits = .ok () :=
      validate_decoded (show 0 + (maxKeyDecodeDepth + 1) ≤ _ from le_of_eq (Nat.zero_add _)) hread
    have hcode := encodeKeyInternal_valid hvalid
    have hencode : k.encodeKey limits = .ok k.code := by
      rw [encodeKey, hvalid, hcode]
      exact if_neg (lt_irrefl _)
    have hskip := skipShortest_encode
      (show maxKeyDecodeDepth < 0 + (maxKeyDecodeDepth + 1) by omega) hcode (bytes.drop n)
    rw [hall limits k.code hencode, List.take_append_drop] at hskip
    rw [startsShortest, hskip]
    rfl
  · intro hstarts limits written hwritten
    obtain ⟨tail, hskip⟩ := Option.isSome_iff_exists.mp hstarts
    obtain ⟨hbytes, rfl⟩ := spells_decodeKeyInternal _ _ _ _ _ hread hskip
    rw [(encodeKey_eq hwritten).2]
    rw [hbytes, List.take_left]

theorem decodeKey_canonical_iff_nested :
    (∀ (limits : LimitConfig) (written : Bytes),
      Key.encodeKey (.array [.string [0xE9], .number 0]) limits = .ok written →
        written = [0x50, 0x30, 0xC3, 0xA9, 0, 0, 0x10, 0x80, 0, 0, 0, 0, 0, 0, 0, 0]) ↔
      startsShortest [0x50, 0x30, 0xC3, 0xA9, 0, 0, 0x10, 0x80, 0, 0, 0, 0, 0, 0, 0, 0] = true :=
  @decodeKey_canonical_iff [0x50, 0x30, 0xC3, 0xA9, 0, 0, 0x10, 0x80, 0, 0, 0, 0, 0, 0, 0, 0] _
    16 rfl

/-- `A` in two bytes. -/
theorem overlong_accepted : ¬ ∀ (bytes : Bytes) (k : Key) (n : ℕ), decodeKey bytes = .ok (k, n) →
    ∀ (limits : LimitConfig) (written : Bytes), k.encodeKey limits = .ok written →
      written = bytes.take n := by
  intro h
  have hwritten := h [0x30, 0xC1, 0x81, 0, 0] (.string [0x41]) 5 rfl {} [0x30, 0x41, 0, 0] rfl
  exact absurd hwritten (by decide)

end BoaIdb.Key
