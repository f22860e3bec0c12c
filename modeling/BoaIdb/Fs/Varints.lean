import BoaIdb.Clone.Varint
import BoaIdb.Fs.WalCodec
import BoaIdb.Lib.ReaderCalls

/-!
Variable-length integers, in structured clones and in the log.

Both decoders read back what their encoders wrote. On other input they return the exact sum of
the groups unless a tenth byte brings bits beyond the width of the result.
-/

namespace BoaIdb

open StreamReader

/-- Encoded integers are read back exactly, whatever follows them. -/
structure VarintsRoundTrip : Prop where
  unsigned : ∀ (val : UInt64) (offset : ℕ) (rest : Bytes) (kept : List ScValue),
    Clone.decodeUvarint.run ⟨offset, Clone.encodeUvarint val ++ rest, kept⟩ =
      .ok (val, ⟨offset + (Clone.encodeUvarint val).length, rest, kept⟩)
  signed : ∀ (val : Int64) (offset : ℕ) (rest : Bytes) (kept : List ScValue),
    Clone.decodeIvarint.run ⟨offset, Clone.encodeIvarint val ++ rest, kept⟩ =
      .ok (val, ⟨offset + (Clone.encodeIvarint val).length, rest, kept⟩)
  log : ∀ (val : UInt64) (rest : Bytes),
    Fs.readVarint.run (Fs.writeVarint val ++ rest) = .ok (val, rest)

/-- `decode_uvarint` returns the exact sum of the groups that it consumes, if it accepts. -/
def UvarintExact (s : Stream (List ScValue)) : Prop :=
  ∀ val t, Clone.decodeUvarint.run s = .ok (val, t) →
    ∃ code, s.input = code ++ t.input ∧ t.offset = s.offset + code.length ∧
      Leb128.denotes code = val.toNat

/-- The same of `read_varint`. -/
def LogVarintExact (input : Bytes) : Prop :=
  ∀ val rest, Fs.readVarint.run input = .ok (val, rest) →
    ∃ code, input = code ++ rest ∧ Leb128.denotes code = val.toNat

theorem varintsRoundTrip : VarintsRoundTrip where
  unsigned := Clone.run_decodeUvarint
  signed val offset rest kept := by
    have hread := Clone.run_decodeUvarint ((val <<< 1) ^^^ (val >>> 63)).toUInt64 offset rest kept
    rw [Clone.decodeIvarint, Clone.encodeIvarint, run_bind_of_ok hread, Clone.unzigzag_encode]
    rfl
  log := Fs.parses_varint

theorem uvarintExact_iff (s : Stream (List ScValue)) :
    UvarintExact s ↔ Leb128.Exact Clone.decodeUvarintLoop s.input := by
  constructor
  · intro h val rest hloop
    have hlt := Clone.groupLoop_decodeUvarint.val_lt hloop
    have hrun : Clone.decodeUvarint.run s = .ok (UInt64.ofNat val,
        ⟨s.offset + (s.input.length - rest.length), rest, s.kept⟩) := by
      simp only [StateT.run, Clone.decodeUvarint, hloop]
    obtain ⟨code, hcode, -, hdenotes⟩ := h _ _ hrun
    refine ⟨code, hcode, ?_, hlt⟩
    rw [hdenotes, UInt64.toNat_ofNat', Nat.mod_eq_of_lt hlt]
  · intro h val t hrun
    obtain ⟨read, hloop⟩ : ∃ read, Clone.decodeUvarintLoop 0 0 s.input = .ok read := by
      cases hloop : Clone.decodeUvarintLoop 0 0 s.input with
      | ok read => exact ⟨read, rfl⟩
      | error e =>
          simp only [StateT.run, Clone.decodeUvarint, hloop] at hrun
          cases hrun
    obtain ⟨code, hcode, hdenotes, hlt⟩ := h read.1 read.2 hloop
    simp only [StateT.run, Clone.decodeUvarint, hloop] at hrun
    cases hrun
    refine ⟨code, hcode, ?_, ?_⟩
    · have hlength : s.input.length - read.2.length = code.length := by
        rw [hcode, List.length_append]
        exact Nat.add_sub_cancel _ _
      rw [hlength]
    · rw [hdenotes, UInt64.toNat_ofNat', Nat.mod_eq_of_lt hlt]

theorem logVarintExact_iff (input : Bytes) :
    LogVarintExact input ↔ Leb128.Exact Fs.readVarintLoop input := by
  constructor
  · intro h val rest hloop
    have hlt := Fs.groupLoop_readVarint.val_lt hloop
    have hrun : Fs.readVarint.run input = .ok (UInt64.ofNat val, rest) := by
      simp only [StateT.run, Fs.readVarint, hloop, Except.map]
    obtain ⟨code, hcode, hdenotes⟩ := h _ _ hrun
    refine ⟨code, hcode, ?_, hlt⟩
    rw [hdenotes, UInt64.toNat_ofNat', Nat.mod_eq_of_lt hlt]
  · intro h val rest hrun
    obtain ⟨read, hloop⟩ : ∃ read, Fs.readVarintLoop 0 0 input = .ok read := by
      cases hloop : Fs.readVarintLoop 0 0 input with
      | ok read => exact ⟨read, rfl⟩
      | error e =>
          simp only [StateT.run, Fs.readVarint, hloop, Except.map] at hrun
          cases hrun
    obtain ⟨code, hcode, hdenotes, hlt⟩ := h read.1 read.2 hloop
    simp only [StateT.run, Fs.readVarint, hloop, Except.map] at hrun
    cases hrun
    refine ⟨code, hcode, ?_⟩
    rw [hdenotes, UInt64.toNat_ofNat', Nat.mod_eq_of_lt hlt]

/-- What is encoded comes back. What is accepted is the exact sum of its groups if and only if a
tenth byte that ends it is zero or one. -/
theorem varints_exact_iff (s : Stream (List ScValue)) (input : Bytes) :
    VarintsRoundTrip ∧ (UvarintExact s ↔ Leb128.TenthFits s.input) ∧
      (LogVarintExact input ↔ Leb128.TenthFits input) := by
  refine ⟨varintsRoundTrip, ?_, ?_⟩
  · exact (uvarintExact_iff s).trans (Clone.groupLoop_decodeUvarint.exact_iff s.input)
  · exact (logVarintExact_iff input).trans (Fs.groupLoop_readVarint.exact_iff input)

/-- Nine bytes that go on, and a tenth that reaches beyond the width. -/
def overlongVarint : Bytes := List.replicate 9 128 ++ [2]

/-- Both readers return 0 for `2 ^ 64`. -/
theorem overlong_varint_accepted :
    Leb128.denotes overlongVarint = 2 ^ 64 ∧
      Clone.decodeUvarint.run ⟨0, overlongVarint, []⟩ = .ok (0, ⟨10, [], []⟩) ∧
      Fs.readVarint.run overlongVarint = .ok (0, []) ∧
      ¬ UvarintExact ⟨0, overlongVarint, []⟩ ∧ ¬ LogVarintExact overlongVarint := by
  have hsum : Leb128.denotes overlongVarint = 2 ^ 64 := by decide
  have hdecode : Clone.decodeUvarint.run ⟨0, overlongVarint, []⟩ = .ok (0, ⟨10, [], []⟩) := rfl
  have hlog : Fs.readVarint.run overlongVarint = .ok (0, []) := rfl
  refine ⟨hsum, hdecode, hlog, fun h => ?_, fun h => ?_⟩
  · obtain ⟨code, hcode, -, hdenotes⟩ := h _ _ hdecode
    rw [List.append_nil] at hcode
    rw [← hcode, hsum] at hdenotes
    cases hdenotes
  · obtain ⟨code, hcode, hdenotes⟩ := h _ _ hlog
    rw [List.append_nil] at hcode
    rw [← hcode, hsum] at hdenotes
    cases hdenotes

end BoaIdb
