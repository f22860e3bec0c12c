import BoaIdb.Clone.Value
import BoaIdb.Lib.Leb128
import BoaIdb.Lib.StreamReader

/-!
Variable-length integers of structured clones: LEB128, and ZigZag for signed ones.
-/

namespace BoaIdb.Clone

open StreamReader

/-- Why a decoder stops: with an error of its own, or in a panic, because a sum of offsets is
not a `usize` or the slots of a vector are more than memory can address. -/
inductive DecodeFailure
  | error (e : ScError)
  | overflow
  deriving DecidableEq, Repr

/-- A decoder over the rest of its input, with its memo table. -/
abbrev Decoder (α : Type) := Reader DecodeFailure (List ScValue) α

/-- One more than the largest `usize`. -/
def usizeBound : ℕ := 2 ^ 64

/-- One more than the largest `isize`, and with it than the largest allocation. -/
def isizeBound : ℕ := 2 ^ 63

def fail {α : Type} (e : ScError) : Decoder α := throw (.error e)

/-- `read_bytes`. -/
def readBytes (n : ℕ) : Decoder Bytes :=
  takeBytes usizeBound n .overflow (.error .unexpectedEof)

/-- `read_byte`. -/
def readByte : Decoder UInt8 := fun s =>
  match s.input with
  | [] => .error (.error .unexpectedEof)
  | b :: rest => .ok (b, ⟨s.offset + 1, rest, s.kept⟩)

theorem reads_readBytes {n : ℕ} {code : Bytes} (h : code.length = n) :
    Reads usizeBound (readBytes n) code True (· = code) :=
  reads_takeBytes h

theorem reads_readByte (b : UInt8) : Reads usizeBound readByte [b] True (· = b) := by
  intro s rest hs _
  refine ⟨fun _ => ⟨b, s.kept, ?_, rfl⟩, fun hn => absurd trivial hn⟩
  obtain ⟨offset, input, kept⟩ := s
  subst hs
  rfl

/-! ### Unsigned -/

/-- A 64-bit value has at most ten groups. -/
def encodeUvarintLoop : ℕ → ℕ → Bytes
  | 0, _ => []
  | passes + 1, val =>
      if val / 128 ≠ 0 then UInt8.ofNat (val % 128 + 128) :: encodeUvarintLoop passes (val / 128)
      else [UInt8.ofNat (val % 128)]

def encodeUvarint (val : UInt64) : Bytes := encodeUvarintLoop 10 val.toNat

/-- The shifted group is a `u64`: bits pushed past the top are lost. -/
def decodeUvarintLoop (shift result : ℕ) : Bytes → Except ScError (ℕ × Bytes)
  | [] => .error .unexpectedEof
  | b :: rest =>
      let result := result ||| (((b.toNat % 128) <<< shift) % 2 ^ 64)
      if b.toNat < 128 then .ok (result, rest)
      else if 64 ≤ shift + 7 then .error (.corruptedPayload "Varint too long (>= 10 bytes)")
      else decodeUvarintLoop (shift + 7) result rest

def decodeUvarint : Decoder UInt64 := fun s =>
  match decodeUvarintLoop 0 0 s.input with
  | .error e => .error (.error e)
  | .ok (val, rest) =>
      .ok (UInt64.ofNat val, ⟨s.offset + (s.input.length - rest.length), rest, s.kept⟩)

theorem groupWriter_encodeUvarint : Leb128.GroupWriter encodeUvarintLoop where
  last passes v h := by rw [encodeUvarintLoop, if_neg (not_not.mpr h)]
  next passes v h := by rw [encodeUvarintLoop, if_pos h]

theorem groupLoop_decodeUvarint : Leb128.GroupLoop decodeUvarintLoop where
  nil shift result := ⟨_, rfl⟩
  last result rest _ hlast := by
    rw [decodeUvarintLoop]
    exact if_pos hlast
  next result rest hshift hmore := by
    rw [decodeUvarintLoop]
    exact (if_neg (by omega)).trans (if_neg (by omega))
  full result rest _ hfull hmore := by
    rw [decodeUvarintLoop]
    exact ⟨_, (if_neg (by omega)).trans (if_pos hfull)⟩

/-- An integer is read back from its encoding, whatever follows it. -/
theorem run_decodeUvarint (val : UInt64) (offset : ℕ) (rest : Bytes) (kept : List ScValue) :
    decodeUvarint.run ⟨offset, encodeUvarint val ++ rest, kept⟩ =
      .ok (val, ⟨offset + (encodeUvarint val).length, rest, kept⟩) := by
  have hloop := groupLoop_decodeUvarint.round_trip groupWriter_encodeUvarint val rest
  have hlength : (encodeUvarint val ++ rest).length - rest.length = (encodeUvarint val).length := by
    rw [List.length_append]
    omega
  have hinput : decodeUvarintLoop 0 0 (encodeUvarint val ++ rest) = .ok (val.toNat, rest) := hloop
  simp only [StateT.run, decodeUvarint, hinput, hlength, UInt64.ofNat_toNat]

theorem reads_uvarint (val : UInt64) :
    Reads usizeBound decodeUvarint (encodeUvarint val) True (· = val) := by
  rintro ⟨offset, input, kept⟩ rest rfl _
  exact ⟨fun _ => ⟨val, kept, run_decodeUvarint val offset rest kept, rfl⟩,
    fun hn => absurd trivial hn⟩

/-! ### Signed -/

/-- `(n << 1) ^ (n >> 63)`. -/
def encodeIvarint (val : Int64) : Bytes := encodeUvarint ((val <<< 1) ^^^ (val >>> 63)).toUInt64

def decodeIvarint : Decoder Int64 := do
  let zigzag ← decodeUvarint
  pure (UInt64.toInt64 (zigzag >>> 1) ^^^ -UInt64.toInt64 (zigzag &&& 1))

/-- The double of a value that is not negative, or the complement of the double. -/
theorem zigzag_unzigzag (x : BitVec 64) :
    (((x <<< 1) ^^^ (x.sshiftRight 63)) >>> 1) ^^^
      -(((x <<< 1) ^^^ (x.sshiftRight 63)) &&& 1#64) = x := by
  have hx := x.isLt
  have hmsb := BitVec.msb_eq_decide x
  have hlow : (x <<< 1) &&& 1#64 = 0#64 := by
    ext i hi
    simp
    omega
  have hdouble : (x <<< 1).toNat = 2 * x.toNat % 2 ^ 64 := by
    rw [BitVec.toNat_shiftLeft, Nat.shiftLeft_eq, Nat.mul_comm]
  cases hm : x.msb with
  | false =>
      have hsmall : x.toNat < 2 ^ 63 := by
        simp [hm] at hmsb
        omega
      have hsign : x.sshiftRight 63 = 0#64 := by
        rw [BitVec.sshiftRight_eq_of_msb_false hm]
        apply BitVec.eq_of_toNat_eq
        rw [BitVec.toNat_ushiftRight, Nat.shiftRight_eq_div_pow, Nat.div_eq_of_lt hsmall]
        rfl
      rw [hsign, BitVec.xor_zero, hlow, BitVec.neg_zero, BitVec.xor_zero]
      apply BitVec.eq_of_toNat_eq
      rw [BitVec.toNat_ushiftRight, Nat.shiftRight_eq_div_pow, hdouble]
      omega
  | true =>
      have hbig : 2 ^ 63 ≤ x.toNat := by
        simp [hm] at hmsb
        omega
      have hsign : x.sshiftRight 63 = BitVec.allOnes 64 := by
        rw [BitVec.sshiftRight_eq_of_msb_true hm, BitVec.not_eq_comm, BitVec.not_allOnes]
        apply BitVec.eq_of_toNat_eq
        rw [BitVec.toNat_ushiftRight, BitVec.toNat_not, Nat.shiftRight_eq_div_pow]
        simp
        omega
      have hone : ~~~(x <<< 1) &&& 1#64 = 1#64 := by
        ext i hi
        simp
        omega
      have hneg : -1#64 = BitVec.allOnes 64 := rfl
      rw [hsign, BitVec.xor_allOnes, hone, hneg, BitVec.xor_allOnes]
      apply BitVec.eq_of_toNat_eq
      rw [BitVec.toNat_not, BitVec.toNat_ushiftRight, BitVec.toNat_not,
        Nat.shiftRight_eq_div_pow, hdouble]
      omega

/-- What `decode_ivarint` makes of the unsigned integer. -/
theorem unzigzag_encode (val : Int64) :
    UInt64.toInt64 (((val <<< 1) ^^^ (val >>> 63)).toUInt64 >>> 1) ^^^
      -UInt64.toInt64 (((val <<< 1) ^^^ (val >>> 63)).toUInt64 &&& 1) = val := by
  refine Int64.toBitVec_inj.mp ?_
  simpa using zigzag_unzigzag val.toBitVec

theorem reads_ivarint (val : Int64) :
    Reads usizeBound decodeIvarint (encodeIvarint val) True (· = val) := by
  refine (reads_uvarint _).andThen ?_
  rintro _ rfl
  exact ⟨_, rfl, unzigzag_encode val⟩

end BoaIdb.Clone
