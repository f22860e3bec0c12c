import BoaIdb.Fs.Wal
import BoaIdb.Lib.Leb128
import Mathlib.Tactic.NormNum

/-!
The log codec reads back what it writes.

Integers, operations and frames each come back from their encoding followed by
anything, and a frame cut short is never taken for a frame.
-/

namespace BoaIdb.Fs

open ByteCodec

/-! ### Integers and byte strings -/

theorem groupWriter_writeVarint : Leb128.GroupWriter writeVarintLoop where
  last passes v h := by rw [writeVarintLoop, if_neg (not_not.mpr h)]
  next passes v h := by rw [writeVarintLoop, if_pos h]

theorem groupLoop_readVarint : Leb128.GroupLoop readVarintLoop where
  nil shift result := ⟨_, rfl⟩
  last result rest hshift hlast := by
    rw [readVarintLoop, if_neg (by omega)]
    exact if_pos hlast
  next result rest hshift hmore := by
    rw [readVarintLoop, if_neg (by omega)]
    exact if_neg (by omega)
  full result rest hshift hfull hmore := by
    rw [readVarintLoop, if_neg (by omega), if_neg (by omega)]
    cases rest with
    | nil => exact ⟨_, rfl⟩
    | cons b rest =>
        rw [readVarintLoop, if_pos hfull]
        exact ⟨_, rfl⟩

theorem parses_varint (v : UInt64) : Parses readVarint (writeVarint v) v := by
  intro rest
  have hloop : readVarintLoop 0 0 (writeVarint v ++ rest) = .ok (v.toNat, rest) :=
    groupLoop_readVarint.round_trip groupWriter_writeVarint v rest
  simp only [StateT.run, readVarint, hloop, Except.map, UInt64.ofNat_toNat]

theorem parses_bytes {bytes : Bytes} (h : bytes.length < 2 ^ 64) :
    Parses readBytes (writeBytes bytes) bytes := by
  refine (parses_varint _).bind (parses_take _ ?_)
  rw [UInt64.toNat_ofNat', Nat.mod_eq_of_lt h]

/-! ### Operations -/

/-- The byte strings of an operation, as long as they may be. -/
def WalOp.Fits : WalOp → Prop
  | .put _ key value => key.length < 2 ^ 64 ∧ value.length < 2 ^ 64
  | .delete _ key => key.length < 2 ^ 64
  | .clear _ => True
  | .indexPut _ idxKey primaryKey | .indexDelete _ idxKey primaryKey =>
      idxKey.length < 2 ^ 64 ∧ primaryKey.length < 2 ^ 64
  | .keyGenSet _ _ => True
  | .metaReplace bytes => bytes.length < 2 ^ 64

/-- The kind byte selects the body. -/
theorem parses_kind {kind : UInt8} {enc : Bytes} {op : WalOp}
    (h : Parses (decodeOpBody kind) enc op) : Parses decodeOp (kind :: enc) op :=
  (parses_take [kind] rfl).bind h

theorem parses_op {op : WalOp} (h : op.Fits) : Parses decodeOp (encodeOp op) op := by
  cases op with
  | put store key value =>
      exact parses_kind ((parses_varint store).bind
        ((parses_bytes h.1).bind ((parses_bytes h.2).map rfl)))
  | delete store key =>
      exact parses_kind ((parses_varint store).bind ((parses_bytes h).map rfl))
  | clear store => exact parses_kind ((parses_varint store).map rfl)
  | indexPut index idxKey primaryKey =>
      exact parses_kind ((parses_varint index).bind
        ((parses_bytes h.1).bind ((parses_bytes h.2).map rfl)))
  | indexDelete index idxKey primaryKey =>
      exact parses_kind ((parses_varint index).bind
        ((parses_bytes h.1).bind ((parses_bytes h.2).map rfl)))
  | keyGenSet store valueBits =>
      have hbits : ofLittleEndian (littleEndian 8 valueBits.toNat) = valueBits.toNat :=
        ofLittleEndian_littleEndian (by simpa using valueBits.toNat_lt)
      refine parses_kind ((parses_varint store).bind ((parses_take _ (by simp)).map ?_))
      rw [hbits, UInt64.ofNat_toNat]
  | metaReplace bytes => exact parses_kind ((parses_bytes h).map rfl)

theorem decodeOps_encodeOps {ops : List WalOp} (hlen : ops.length < 2 ^ 64)
    (hfits : ∀ op ∈ ops, op.Fits) : decodeOps (encodeOps ops) = .ok ops := by
  have hcount : (UInt64.ofNat ops.length).toNat = ops.length := by
    rw [UInt64.toNat_ofNat', Nat.mod_eq_of_lt hlen]
  have hparses : Parses (do
      let count ← readVarint
      times decodeOp count.toNat) (encodeOps ops) ops := by
    refine (parses_varint _).bind ?_
    rw [hcount]
    exact parses_times fun op hop => parses_op (hfits op hop)
  have hrun := hparses []
  rw [List.append_nil] at hrun
  rw [decodeOps, hrun]
  rfl

/-! ### What fits into a frame -/

theorem length_le_writeBytes (bytes : Bytes) : bytes.length ≤ (writeBytes bytes).length := by
  rw [writeBytes, List.length_append]
  exact Nat.le_add_left _ _

theorem encodeOp_ne_nil (op : WalOp) : 0 < (encodeOp op).length := by
  cases op <;> simp [encodeOp]

theorem fits_of_length {op : WalOp} (h : (encodeOp op).length < 2 ^ 64) : op.Fits := by
  cases op with
  | put store key value =>
      have hk := length_le_writeBytes key
      have hv := length_le_writeBytes value
      simp only [encodeOp, List.length_cons, List.length_append] at h
      exact ⟨by omega, by omega⟩
  | delete store key =>
      have hk := length_le_writeBytes key
      simp only [encodeOp, List.length_cons, List.length_append] at h
      exact (by omega : key.length < 2 ^ 64)
  | clear store => trivial
  | indexPut index idxKey primaryKey =>
      have hk := length_le_writeBytes idxKey
      have hp := length_le_writeBytes primaryKey
      simp only [encodeOp, List.length_cons, List.length_append] at h
      exact ⟨by omega, by omega⟩
  | indexDelete index idxKey primaryKey =>
      have hk := length_le_writeBytes idxKey
      have hp := length_le_writeBytes primaryKey
      simp only [encodeOp, List.length_cons, List.length_append] at h
      exact ⟨by omega, by omega⟩
  | keyGenSet store valueBits => trivial
  | metaReplace bytes =>
      have hb := length_le_writeBytes bytes
      simp only [encodeOp, List.length_cons] at h
      exact (by omega : bytes.length < 2 ^ 64)

theorem length_encodeOp_le {op : WalOp} {ops : List WalOp} (h : op ∈ ops) :
    (encodeOp op).length ≤ (encodeOps ops).length := by
  obtain ⟨before, after, rfl⟩ := List.append_of_mem h
  simp only [encodeOps, List.flatMap_append, List.flatMap_cons, List.length_append]
  omega

theorem length_ops_le (ops : List WalOp) : ops.length ≤ (encodeOps ops).length := by
  have hle : ops.length ≤ (ops.flatMap encodeOp).length := by
    induction ops with
    | nil => simp
    | cons op ops ih =>
        have := encodeOp_ne_nil op
        rw [List.flatMap_cons, List.length_append, List.length_cons]
        omega
  rw [encodeOps, List.length_append]
  omega

/-- A payload within the limit reads back. -/
theorem decodeOps_of_le {ops : List WalOp} (h : (encodeOps ops).length ≤ maxFramePayloadLimit) :
    decodeOps (encodeOps ops) = .ok ops := by
  have hlimit : maxFramePayloadLimit < 2 ^ 64 := by norm_num [maxFramePayloadLimit]
  refine decodeOps_encodeOps ?_ fun op hop => fits_of_length ?_
  · exact lt_of_le_of_lt ((length_ops_le ops).trans h) hlimit
  · exact lt_of_le_of_lt ((length_encodeOp_le hop).trans h) hlimit

/-! ### Frames -/

theorem length_frameBody (frame : WalFrame) :
    (frameBody frame).length = 17 + (encodeOps frame.ops).length := by
  simp [frameBody]
  omega

theorem length_of_encodeFrame {frame : WalFrame} {max : ℕ} {bytes : Bytes}
    (h : encodeFrameLimited frame max = .ok bytes) :
    bytes.length = 21 + (encodeOps frame.ops).length ∧ (encodeOps frame.ops).length ≤ max := by
  unfold encodeFrameLimited at h
  split at h
  · simp at h
  · next hle =>
    obtain rfl := Except.ok.inj h
    rw [List.length_append, length_frameBody, length_littleEndian]
    exact ⟨by omega, by omega⟩

/-- The header fields of an encoded frame, wherever it stands at the front. -/
theorem frame_fields (frame : WalFrame) (rest : Bytes) :
    let input := frameBody frame ++ rest
    input.take 4 = littleEndian 4 walMagic ∧
      (input.drop 4).take 4 = littleEndian 4 (encodeOps frame.ops).length ∧
      (input.drop 8).take 8 = littleEndian 8 frame.txnSeq.toNat ∧
      (input.drop 16).take 1 = [frame.flags] ∧
      (input.drop 17).take (encodeOps frame.ops).length = encodeOps frame.ops := by
  simp only [frameBody, List.append_assoc]
  have h4 (n : ℕ) : (littleEndian 4 n).length = 4 := length_littleEndian 4 n
  have h8 (n : ℕ) : (littleEndian 8 n).length = 8 := length_littleEndian 8 n
  refine ⟨?_, ?_, ?_, ?_, ?_⟩
  · rw [List.take_append_of_le_length (by simp), List.take_of_length_le (by simp)]
  · rw [List.drop_append_of_le_length (by simp), List.drop_of_length_le (by simp), List.nil_append,
      List.take_append_of_le_length (by simp), List.take_of_length_le (by simp)]
  · rw [show 8 = 4 + 4 from rfl, ← List.drop_drop, List.drop_left' (h4 _), List.drop_left' (h4 _),
      List.take_left' (h8 _)]
  · rw [show 16 = 4 + (4 + 8) from rfl, ← List.drop_drop, ← List.drop_drop, List.drop_left' (h4 _),
      List.drop_left' (h4 _), List.drop_left' (h8 _)]
    rfl
  · rw [show 17 = 4 + (4 + (8 + 1)) from rfl, ← List.drop_drop, ← List.drop_drop, ← List.drop_drop,
      List.drop_left' (h4 _), List.drop_left' (h4 _), List.drop_left' (h8 _)]
    simp

/-- An encoded frame reads back, whatever follows it. -/
theorem decodeFrame_encode {frame : WalFrame} {max : ℕ} {bytes : Bytes}
    (h : encodeFrameLimited frame max = .ok bytes) (hmax : max ≤ maxFramePayloadLimit)
    (rest : Bytes) : decodeFrame (bytes ++ rest) = .ok (some (frame, bytes.length)) := by
  obtain ⟨hlen, hle⟩ := length_of_encodeFrame h
  have hpayload := hle.trans hmax
  have hlimit : maxFramePayloadLimit < 256 ^ 4 := by norm_num [maxFramePayloadLimit]
  unfold encodeFrameLimited at h
  rw [if_neg (by omega)] at h
  obtain rfl := Except.ok.inj h
  rw [List.append_assoc]
  obtain ⟨hmagic, hplen, hseq, hflags, hops⟩ :=
    frame_fields frame (littleEndian 4 (crc32c (frameBody frame)).toNat ++ rest)
  have hbody : (frameBody frame).length = 4 + 4 + 8 + 1 + (encodeOps frame.ops).length := by
    rw [length_frameBody]
  have hmagic' : ofLittleEndian (littleEndian 4 walMagic) = walMagic :=
    ofLittleEndian_littleEndian (by norm_num [walMagic])
  have hplen' : ofLittleEndian (littleEndian 4 (encodeOps frame.ops).length) =
      (encodeOps frame.ops).length := ofLittleEndian_littleEndian (by omega)
  have hseq' :
      UInt64.ofNat (ofLittleEndian (littleEndian 8 frame.txnSeq.toNat)) = frame.txnSeq := by
    rw [ofLittleEndian_littleEndian (by simpa using frame.txnSeq.toNat_lt), UInt64.ofNat_toNat]
  have hcrc : ofLittleEndian (littleEndian 4 (crc32c (frameBody frame)).toNat) =
      (crc32c (frameBody frame)).toNat :=
    ofLittleEndian_littleEndian (by simpa using (crc32c (frameBody frame)).toNat_lt)
  unfold decodeFrame
  rw [if_neg (by simp [← List.length_eq_zero_iff, hbody]), if_neg (by simp [hbody]; omega), hmagic,
    hmagic', if_neg (by simp)]
  simp only [hplen, hplen']
  rw [if_neg (by omega), if_neg (by simp [hbody]), ← hbody, List.take_left,
    List.drop_left, List.take_left' (length_littleEndian 4 _), hcrc, if_neg (by simp), hseq, hseq',
    hflags, hops, decodeOps_of_le hpayload]
  simp [hbody]

/-- What decodes a frame is the frame's own bytes. -/
theorem decodeFrame_append {input : Bytes} {frame : WalFrame} {n : ℕ}
    (h : decodeFrame input = .ok (some (frame, n))) (rest : Bytes) :
    n ≤ input.length ∧ 0 < n ∧ decodeFrame (input ++ rest) = .ok (some (frame, n)) := by
  unfold decodeFrame at h
  simp only at h
  split_ifs at h with h1 h2 h3 h5 h6 h7
  all_goals try (simp at h; done)
  split at h
  · simp at h
  · next ops hops =>
    obtain ⟨rfl, rfl⟩ := Prod.mk.inj (Option.some.inj (Except.ok.inj h))
    rw [not_lt] at h2 h6
    refine ⟨by omega, by omega, ?_⟩
    have htake {k : ℕ} (hk : k ≤ input.length) : (input ++ rest).take k = input.take k :=
      List.take_append_of_le_length hk
    have hslice {j k : ℕ} (hjk : j + k ≤ input.length) :
        ((input ++ rest).drop j).take k = (input.drop j).take k := by
      rw [List.drop_append_of_le_length (by omega),
        List.take_append_of_le_length (by rw [List.length_drop]; omega)]
    unfold decodeFrame
    have hne : (input ++ rest).isEmpty = false := by
      cases input with
      | nil => simp at h1
      | cons _ _ => rfl
    rw [hne, if_neg (by simp), if_neg (by rw [List.length_append]; omega), htake (by omega),
      if_neg h3]
    simp only [hslice (show 4 + 4 ≤ input.length by omega)]
    rw [if_neg h5, if_neg (by rw [List.length_append]; omega), htake (by omega), hslice (by omega),
      if_neg h7, hslice (show 8 + 8 ≤ input.length by omega),
      hslice (show 16 + 1 ≤ input.length by omega), hslice (by omega)]
    simp only [hops]

/-- A frame cut short does not decode. -/
theorem decodeFrame_cut {frame : WalFrame} {max : ℕ} {bytes cut : Bytes}
    (h : encodeFrameLimited frame max = .ok bytes) (hmax : max ≤ maxFramePayloadLimit)
    (hcut : cut <+: bytes) (hne : cut ≠ bytes) : ∀ r, decodeFrame cut ≠ .ok (some r) := by
  rintro ⟨frame', n⟩ hdec
  obtain ⟨rest, rfl⟩ := hcut
  obtain ⟨hn, -, happ⟩ := decodeFrame_append hdec rest
  have hfull := decodeFrame_encode h hmax []
  rw [List.append_nil, happ] at hfull
  obtain ⟨-, rfl⟩ := Prod.mk.inj (Option.some.inj (Except.ok.inj hfull))
  rw [List.length_append] at hn
  have : rest = [] := List.length_eq_zero_iff.mp (by omega)
  simp [this] at hne

/-- A longer payload than the format allows is refused. -/
theorem decodeFrame_tooLarge {frame : WalFrame} {max : ℕ} {bytes : Bytes}
    (h : encodeFrameLimited frame max = .ok bytes)
    (hlong : maxFramePayloadLimit < (encodeOps frame.ops).length)
    (hfield : (encodeOps frame.ops).length < 256 ^ 4) (rest : Bytes) :
    decodeFrame (bytes ++ rest) = .error (.payloadTooLarge (encodeOps frame.ops).length) := by
  have hbody := length_frameBody frame
  rw [encodeFrameLimited] at h
  split at h
  next => cases h
  next =>
    cases h
    obtain ⟨hmagic, hplen, -⟩ :=
      frame_fields frame (littleEndian 4 (crc32c (frameBody frame)).toNat ++ rest)
    have hmagic' : ofLittleEndian (littleEndian 4 walMagic) = walMagic :=
      ofLittleEndian_littleEndian (by norm_num [walMagic])
    have hlen :
        (frameBody frame ++ (littleEndian 4 (crc32c (frameBody frame)).toNat ++ rest)).length =
        17 + (encodeOps frame.ops).length + (4 + rest.length) := by
      rw [List.length_append, List.length_append, hbody, length_littleEndian]
    have hne : ¬ (frameBody frame ++
        (littleEndian 4 (crc32c (frameBody frame)).toNat ++ rest)).isEmpty = true := by
      rw [List.isEmpty_iff, ← List.length_eq_zero_iff]
      omega
    rw [List.append_assoc, decodeFrame, if_neg hne, if_neg (by omega), hmagic, hmagic',
      if_neg (not_not.mpr rfl)]
    dsimp only
    rw [hplen, ofLittleEndian_littleEndian hfield, if_pos hlong]

end BoaIdb.Fs
