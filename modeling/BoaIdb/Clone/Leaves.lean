import BoaIdb.Clone.Decode
import Mathlib.Data.List.Forall2

/-!
The values that hold no others come back from their encoding.

Numbers do because an integer is written only when its bits are the ones the number has;
the maximum of a resizable buffer does unless one more than it is not a `usize`.
-/

namespace BoaIdb.Clone

open ByteCodec StreamReader

/-! ### Pieces -/

theorem reads_decodeUsize {n : ℕ} (h : n < 2 ^ 64) :
    Reads usizeBound decodeUsize (encodeLen n) True (· = n) := by
  refine (reads_uvarint _).andThen ?_
  rintro _ rfl
  exact ⟨_, rfl, UInt64.toNat_ofNat_of_lt' h⟩

theorem reads_readF64Le (n : F64Bits) :
    Reads usizeBound readF64Le (littleEndian 8 n.toNat) True (· = n) := by
  refine (reads_readBytes (length_littleEndian 8 _)).andThen ?_
  rintro _ rfl
  refine ⟨_, rfl, ?_⟩
  rw [ofLittleEndian_littleEndian (lt_of_lt_of_eq n.toNat_lt (by norm_num)), UInt64.ofNat_toNat]

theorem reads_readUnit (unit : UInt16) :
    Reads usizeBound readUnit (littleEndian 2 unit.toNat) True (· = unit) := by
  refine (reads_readBytes (length_littleEndian 2 _)).andThen ?_
  rintro _ rfl
  refine ⟨_, rfl, ?_⟩
  rw [ofLittleEndian_littleEndian (lt_of_lt_of_eq unit.toNat_lt (by norm_num)), UInt16.ofNat_toNat]

theorem reads_checkCount {α : Type} {count : ℕ} {next : Decoder α} {code : Bytes} {ok : Prop}
    {post : α → Prop} (hcount : count ≤ code.length) (h : Reads usizeBound next code ok post) :
    Reads usizeBound (checkCount count next) code ok post := by
  refine reads_remaining fun left hleft => ?_
  rw [if_neg (by omega)]
  exact h

theorem length_units (s : Utf16String) :
    (s.flatMap fun unit => littleEndian 2 unit.toNat).length = s.length * 2 := by
  induction s with
  | nil => rfl
  | cons unit s ih =>
      rw [List.flatMap_cons, List.length_append, ih, length_littleEndian, List.length_cons]
      omega

theorem reads_decodeUnits (overflowMsg : ℕ → String) (s : Utf16String) :
    Reads usizeBound (decodeUnits overflowMsg) (encodeStringValue s) True (· = s) := by
  refine reads_of_lt fun hlt => ?_
  have hunits := length_units s
  rw [encodeStringValue, List.length_append, hunits, usizeBound] at hlt
  refine (reads_decodeUsize (n := s.length) (by omega)).next ?_
  rintro _ rfl
  rw [if_neg (by rw [usizeBound]; omega)]
  refine reads_remaining fun left hleft => ?_
  rw [if_neg (by omega)]
  have hall : Reads usizeBound (repeatRead readUnit s.length) _ (∀ unit ∈ s, True)
      (List.Forall₂ (fun unit a => a = unit) s) :=
    reads_repeatRead fun unit (_ : unit ∈ s) => reads_readUnit unit
  refine hall.imp (by simp) fun units hforall => ?_
  have heq : List.Forall₂ (· = ·) s units := hforall.imp fun _ _ h => h.symm
  rw [List.forall₂_eq_eq_eq] at heq
  exact heq.symm

theorem reads_string (s : Utf16String) :
    Reads usizeBound decodeStringUnits (encodeStringValue s) True (· = s) :=
  reads_decodeUnits _ s

theorem reads_decodeBigIntValue {env : CodecEnv} (henv : env.Lawful) (n : ℤ) :
    Reads usizeBound (decodeBigIntValue env) ((encodeBigInt env n).tail) True (· = n) := by
  refine reads_of_lt fun hlt => ?_
  cases hto : env.toBytesLe n with
  | mk sign bytes =>
      have hsign := henv.round_trip n
      have hzero := henv.zero_plus n
      simp only [encodeBigInt, hto, List.tail_cons, List.length_cons, List.length_append,
        usizeBound] at hlt hsign hzero ⊢
      refine (reads_readByte _).next ?_
      rintro _ rfl
      refine (reads_decodeUsize (n := bytes.length) (by omega)).next ?_
      rintro _ rfl
      refine (reads_readBytes rfl).andThen ?_
      rintro _ rfl
      cases sign with
      | minus => exact ⟨_, rfl, hsign⟩
      | noSign => exact ⟨_, rfl, hzero rfl⟩
      | plus => exact ⟨_, rfl, hsign⟩

/-! ### Numbers -/

/-- An integer that is written denotes the very bits of the number. -/
theorem ofInt_of_asInt32 {n : F64Bits} {i : ℤ} (h : asInt32 n = some i) : F64Bits.ofInt i = n := by
  unfold asInt32 at h
  split at h
  next hguard =>
    simp only at h
    split at h
    next heq =>
      obtain rfl : F64Bits.toI32 n = i := by simpa using h
      cases hzero : F64Bits.isZero n with
      | false => exact F64Bits.eq_of_eqF64 heq (.inl hzero)
      | true =>
          -- the zero that is not negative
          have hpos : F64Bits.isNegative n = false := by simp_all
          have hbits : n = 0 := by
            have hmagnitude : F64Bits.magnitude n = 0 := by simpa [F64Bits.isZero] using hzero
            have htoNat := F64Bits.toNat_eq n
            rw [hpos, hmagnitude] at htoNat
            exact UInt64.toNat_inj.mp htoNat
          rw [hbits, F64Bits.toI32_zero]
          decide
    next => cases h
  next => cases h

theorem asInt32_range {n : F64Bits} {i : ℤ} (h : asInt32 n = some i) :
    -2 ^ 31 ≤ i ∧ i < 2 ^ 31 := by
  unfold asInt32 at h
  split at h
  next =>
    simp only at h
    split at h
    next =>
      obtain rfl : F64Bits.toI32 n = i := by simpa using h
      unfold F64Bits.toI32
      split <;> omega
    next => cases h
  next => cases h

/-! ### Buffers and patterns -/

theorem reads_decodeRegExpValue (pattern : Utf16String) (flags : RegExpFlags) :
    Reads usizeBound decodeRegExpValue ((encodeRegExp pattern flags).tail) True
      (· = .regExp pattern flags) := by
  rw [encodeRegExp, List.tail_cons]
  refine (reads_decodeUnits _ pattern).next ?_
  rintro _ rfl
  refine (reads_uvarint _).andThen ?_
  rintro _ rfl
  have hsmall : ¬ (255 : UInt64) < flags.toBitfield.toUInt64 := by
    have hlt := flags.toBitfield.toNat_lt
    rw [UInt64.lt_iff_toNat_lt, UInt8.toNat_toUInt64]
    exact not_lt.mpr (Nat.le_of_lt_succ hlt)
  refine ⟨_, if_neg hsmall, ?_⟩
  rw [UInt8.toUInt8_toUInt64, RegExpFlags.fromBitfield_toBitfield]

/-- One more than the maximum is still a `usize`. -/
def MaxFits : Option UInt64 → Prop
  | some max => max ≠ 0xFFFFFFFFFFFFFFFF
  | none => True

/-- The maximum that comes back: one without a successor is lost. -/
def storedMax : Option UInt64 → Option UInt64
  | some max => if max = 0xFFFFFFFFFFFFFFFF then none else some max
  | none => none

theorem storedMax_eq_iff {maxByteLength : Option UInt64} :
    storedMax maxByteLength = maxByteLength ↔ MaxFits maxByteLength := by
  cases maxByteLength with
  | none => exact iff_of_true rfl trivial
  | some max =>
      unfold storedMax MaxFits
      split <;> simp_all

theorem reads_decodeArrayBufferData (data : Bytes) (maxByteLength : Option UInt64) :
    Reads usizeBound decodeArrayBufferData ((encodeArrayBuffer data maxByteLength).tail) True
      (· = .arrayBuffer data (storedMax maxByteLength)) := by
  refine reads_of_lt fun hlt => ?_
  rw [encodeArrayBuffer, List.tail_cons, List.length_append, List.length_append, usizeBound] at hlt
  rw [encodeArrayBuffer, List.tail_cons]
  have hmax : Reads usizeBound decodeUsize (encodeMaxByteLength maxByteLength) True
      (fun raw => (if raw = 0 then none else some (UInt64.ofNat (raw - 1))) =
        storedMax maxByteLength) := by
    cases maxByteLength with
    | none =>
        refine (reads_uvarint 0).andThen ?_
        rintro _ rfl
        exact ⟨_, rfl, rfl⟩
    | some max =>
        refine (reads_uvarint (max + 1)).andThen ?_
        rintro _ rfl
        refine ⟨_, rfl, ?_⟩
        by_cases hmax : max = 0xFFFFFFFFFFFFFFFF
        · subst hmax
          rfl
        · have hlt := max.toNat_lt
          have hne : max.toNat ≠ 2 ^ 64 - 1 := fun h => hmax (UInt64.toNat_inj.mp h)
          have hsucc : (max + 1).toNat = max.toNat + 1 := by
            rw [UInt64.toNat_add]
            exact Nat.mod_eq_of_lt (by simp; omega)
          rw [hsucc, if_neg (Nat.succ_ne_zero _), Nat.add_sub_cancel, UInt64.ofNat_toNat]
          exact (if_neg hmax).symm
  refine hmax.next fun raw hraw => ?_
  refine (reads_decodeUsize (n := data.length) (by omega)).next ?_
  rintro _ rfl
  refine (reads_readBytes rfl).andThen ?_
  rintro _ rfl
  exact ⟨_, rfl, by rw [hraw]⟩

end BoaIdb.Clone
