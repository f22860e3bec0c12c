import BoaIdb.Fs.WalRecovery
import BoaIdb.Lib.Faults

/-!
Transactions packed into frames.

The packer computes the lengths that the encoder writes, so every group it closes fits into a
frame, and only an operation that fits into no frame makes it fail.
-/

namespace BoaIdb.Fs

open ByteCodec

/-! ### Lengths -/

theorem length_writeVarintLoop (passes v : ℕ) (h : v < 128 ^ (passes + 1)) :
    (writeVarintLoop (passes + 1) v).length = varintLenLoop passes v := by
  induction passes generalizing v with
  | zero =>
      have hlast : ¬ v / 128 ≠ 0 := by
        rw [not_not]
        exact Nat.div_eq_of_lt (by simpa using h)
      rw [writeVarintLoop, if_neg hlast]
      rfl
  | succ passes ih =>
      rw [writeVarintLoop, varintLenLoop]
      by_cases hmore : 128 ≤ v
      · have hnext : v / 128 < 128 ^ (passes + 1) :=
          Nat.div_lt_of_lt_mul (by rwa [pow_succ, Nat.mul_comm] at h)
        rw [if_pos (Nat.div_pos hmore (by norm_num)).ne', if_pos hmore, List.length_cons,
          ih _ hnext]
      · have hlast : ¬ v / 128 ≠ 0 := by
          rw [not_not]
          exact Nat.div_eq_of_lt (Nat.lt_of_not_le hmore)
        rw [if_neg hlast, if_neg hmore, List.length_singleton]

/-- `varint_len` is the length that `write_varint` writes. -/
theorem length_writeVarint (v : UInt64) : (writeVarint v).length = varintLen v :=
  length_writeVarintLoop 9 v.toNat (lt_trans v.toNat_lt (by norm_num))

theorem length_writeBytes (bytes : Bytes) : (writeBytes bytes).length = bytesLen bytes := by
  rw [writeBytes, List.length_append, length_writeVarint, bytesLen]

/-- `op_encoded_len` is the length that `encode_op` writes. -/
theorem length_encodeOp (op : WalOp) : (encodeOp op).length = opEncodedLen op := by
  cases op <;>
    simp only [encodeOp, opEncodedLen, List.length_cons, List.length_append, length_writeVarint,
      length_writeBytes, length_littleEndian] <;>
    omega

/-- The length of a payload with this many operations, which take `len` bytes. -/
def payloadLen (count len : ℕ) : ℕ := len + varintLen (UInt64.ofNat count)

def opsLen (ops : List WalOp) : ℕ := (ops.map opEncodedLen).sum

@[simp] theorem opsLen_singleton (op : WalOp) : opsLen [op] = opEncodedLen op := by simp [opsLen]

@[simp] theorem opsLen_concat (ops : List WalOp) (op : WalOp) :
    opsLen (ops ++ [op]) = opsLen ops + opEncodedLen op := by simp [opsLen]

theorem length_encodeOps (ops : List WalOp) :
    (encodeOps ops).length = payloadLen ops.length (opsLen ops) := by
  have hsum : (ops.flatMap encodeOp).length = opsLen ops := by
    rw [List.length_flatMap, opsLen]
    simp only [length_encodeOp]
  rw [encodeOps, List.length_append, length_writeVarint, hsum, payloadLen, Nat.add_comm]

theorem varintLen_pos (v : UInt64) : 1 ≤ varintLen v := by
  rw [varintLen, varintLenLoop]
  split <;> omega

/-! ### Groups -/

/-- A group that the packer may close. -/
def Closable (max : ℕ) (group : List WalOp) : Prop :=
  group ≠ [] ∧ (encodeOps group).length ≤ max

/-- What the packer knows of the group it fills. -/
def Filling (max : ℕ) (current : List WalOp) (len : ℕ) : Prop :=
  current ≠ [] → Closable max current ∧ len = opsLen current

theorem filling_nil (max len : ℕ) : Filling max [] len := fun h => absurd rfl h

variable {max : ℕ}

theorem filling_alone {op : WalOp} (h : opEncodedLen op + 1 ≤ max) :
    Filling max [op] (opEncodedLen op) := by
  intro _
  refine ⟨⟨List.cons_ne_nil _ _, ?_⟩, (opsLen_singleton op).symm⟩
  rw [length_encodeOps, opsLen_singleton]
  exact h

theorem filling_joined {op : WalOp} {current : List WalOp} {len : ℕ} (hne : current ≠ [])
    (hfill : Filling max current len) (h : len + opEncodedLen op +
      varintLen (UInt64.ofNat (current.length + 1)) ≤ max) :
    Filling max (current ++ [op]) (len + opEncodedLen op) := by
  intro _
  have hlen := (hfill hne).2
  refine ⟨⟨by simp, ?_⟩, by rw [opsLen_concat, hlen]⟩
  rw [length_encodeOps, opsLen_concat, List.length_append, List.length_singleton, ← hlen]
  exact h

/-- When every operation fits alone, the packer ends, and what it closes fits. -/
theorem packOps_closable {ops current : List WalOp} {groups : List (List WalOp)} {len : ℕ}
    (hops : ∀ op ∈ ops, opEncodedLen op + 1 ≤ max) (hfill : Filling max current len)
    (hgroups : ∀ g ∈ groups, Closable max g) :
    ∃ gs, packOps max ops groups current len = .ok gs ∧ ∀ g ∈ gs, Closable max g := by
  induction ops generalizing groups current len with
  | nil =>
      rw [packOps]
      refine ⟨_, rfl, fun g hg => ?_⟩
      split at hg
      next => exact hgroups g hg
      next hne =>
        rcases List.mem_append.mp hg with hg | hg
        · exact hgroups g hg
        · rw [List.mem_singleton.mp hg]
          exact (hfill (by simpa using hne)).1
  | cons op ops ih =>
      have halone : ¬ max < opEncodedLen op + 1 := Nat.not_lt.mpr (hops op (.head _))
      have hrest : ∀ op ∈ ops, opEncodedLen op + 1 ≤ max := fun op hop => hops op (.tail _ hop)
      rw [packOps]
      split_ifs with hempty hjoin
      · exact ih hrest (filling_alone (Nat.not_lt.mp halone)) hgroups
      · exact ih hrest (filling_joined (by simpa using hempty) hfill hjoin) hgroups
      · refine ih hrest (filling_alone (Nat.not_lt.mp halone)) fun g hg => ?_
        rcases List.mem_append.mp hg with hg | hg
        · exact hgroups g hg
        · rw [List.mem_singleton.mp hg]
          exact (hfill (by simpa using hempty)).1

/-- An operation that fits into no frame makes the packer fail. -/
theorem packOps_fits {ops current : List WalOp} {groups gs : List (List WalOp)} {len : ℕ}
    (h : packOps max ops groups current len = .ok gs) {op : WalOp} (hop : op ∈ ops) :
    opEncodedLen op + 1 ≤ max := by
  induction ops generalizing groups current len with
  | nil => exact absurd hop List.not_mem_nil
  | cons op' ops ih =>
      rw [packOps] at h
      split_ifs at h with hempty halone hjoin halone
      · rcases List.mem_cons.mp hop with rfl | hop
        · omega
        · exact ih h hop
      · have hcount := varintLen_pos (UInt64.ofNat (current.length + 1))
        rcases List.mem_cons.mp hop with rfl | hop
        · omega
        · exact ih h hop
      · rcases List.mem_cons.mp hop with rfl | hop
        · omega
        · exact ih h hop

/-! ### Chains -/

theorem encodeFrames_ok {frames : List WalFrame}
    (h : ∀ frame ∈ frames, (encodeOps frame.ops).length ≤ max) :
    ∃ bs, encodeFrames max frames = .ok bs := by
  induction frames with
  | nil => exact ⟨[], rfl⟩
  | cons frame frames ih =>
      obtain ⟨bs, hbs⟩ := ih fun f hf => h f (.tail _ hf)
      have hframe : ¬ max < (encodeOps frame.ops).length := Nat.not_lt.mpr (h frame (.head _))
      rw [encodeFrames, encodeFrameLimited, if_neg hframe, hbs]
      exact ⟨_, rfl⟩

theorem mem_chainFrames {txnSeq : UInt64} {groups : List (List WalOp)} {frame : WalFrame}
    (h : frame ∈ chainFrames txnSeq groups) : frame.ops ∈ groups := by
  induction groups with
  | nil => exact absurd h List.not_mem_nil
  | cons group groups ih =>
      cases groups with
      | nil =>
          rw [List.mem_singleton.mp h]
          exact .head _
      | cons next groups =>
          rcases List.mem_cons.mp h with rfl | h
          · exact .head _
          · exact .tail _ (ih h)

/-- All frames but the last continue, and the last commits. -/
structure IsChain (txnSeq : UInt64) (frames : List WalFrame) : Prop where
  seq : ∀ frame ∈ frames, frame.txnSeq = txnSeq
  flags : ∃ (init : List WalFrame) (last : WalFrame), frames = init ++ [last] ∧
    (∀ frame ∈ init, frame.flags = flagContinues) ∧ last.flags = flagCommit

theorem isChain_chainFrames (txnSeq : UInt64) {groups : List (List WalOp)} (h : groups ≠ []) :
    IsChain txnSeq (chainFrames txnSeq groups) := by
  refine ⟨fun _ => chainFrames_txnSeq, ?_⟩
  induction groups with
  | nil => exact absurd rfl h
  | cons group groups ih =>
      cases groups with
      | nil => exact ⟨[], ⟨txnSeq, flagCommit, group⟩, rfl, nofun, rfl⟩
      | cons next groups =>
          obtain ⟨init, last, heq, hinit, hlast⟩ := ih (List.cons_ne_nil _ _)
          refine ⟨⟨txnSeq, flagContinues, group⟩ :: init, last, ?_, fun frame hframe => ?_, hlast⟩
          · rw [chainFrames, heq]
            · rfl
            · exact List.cons_ne_nil _ _
          · rcases List.mem_cons.mp hframe with rfl | hframe
            · rfl
            · exact hinit frame hframe

/-- The frames that a transaction is encoded to. -/
def txnFrames (txnSeq : UInt64) (ops : List WalOp) (max : ℕ) : Except CodecError (List WalFrame) :=
  (packOps max ops [] [] 0).map (chainFrames txnSeq)

theorem encodeTxn_eq {txnSeq : UInt64} {ops : List WalOp} (h : ops ≠ []) (max : ℕ) :
    encodeTxnFramesLimited txnSeq ops max = txnFrames txnSeq ops max >>= encodeFrames max := by
  rw [encodeTxnFramesLimited, if_neg (by simpa using h), txnFrames]
  cases packOps max ops [] [] 0 <;> rfl

theorem txnFrames_chain {txnSeq : UInt64} {ops : List WalOp} (hops : ops ≠ [])
    {frames : List WalFrame} (h : txnFrames txnSeq ops max = .ok frames) :
    ∃ groups, groups ≠ [] ∧ frames = chainFrames txnSeq groups ∧ groups.flatten = ops := by
  rw [txnFrames] at h
  cases hpack : packOps max ops [] [] 0 with
  | error e =>
      rw [hpack] at h
      cases h
  | ok groups =>
      rw [hpack] at h
      cases h
      have hflat : groups.flatten = ops := by simpa using packOps_flatten hpack
      refine ⟨groups, ?_, rfl, hflat⟩
      rintro rfl
      exact hops hflat.symm

/-- The recovery reads a whole chain. -/
theorem recover_chain {txnSeq : UInt64} {groups : List (List WalOp)} (hgroups : groups ≠ [])
    (hmax : max ≤ maxFramePayloadLimit) {bs : List Bytes}
    (h : encodeFrames max (chainFrames txnSeq groups) = .ok bs) :
    recoverCommittedFrames bs.flatten = ⟨chainFrames txnSeq groups, bs.flatten.length⟩ := by
  have hchain := recoverFrom_chain hmax groups hgroups h (s := .start) (.inl ⟨rfl, rfl⟩) []
  rw [List.append_nil, recoverFrom_nil] at hchain
  refine hchain.trans ?_
  simp [Scan.result, Scan.between, Scan.start]

/-- Only an operation that fits into no frame makes the encoder fail; what it returns otherwise is
one chain of frames within the limit, from which the operations are recovered. -/
theorem encodeTxn_framing (txnSeq : UInt64) {ops : List WalOp} (hops : ops ≠ [])
    (hmax : max ≤ maxFramePayloadLimit) :
    ((∃ e, encodeTxnFramesLimited txnSeq ops max = .error e) ↔
      ∃ op ∈ ops, max < (encodeOp op).length + 1) ∧
    ∀ bs, encodeTxnFramesLimited txnSeq ops max = .ok bs →
      ∃ frames, encodeFrames max frames = .ok bs ∧
        (∀ frame ∈ frames, (encodeOps frame.ops).length ≤ max) ∧ IsChain txnSeq frames ∧
        recoverCommittedFrames bs.flatten = ⟨frames, bs.flatten.length⟩ ∧
        frames.flatMap WalFrame.ops = ops := by
  constructor
  · rw [encodeTxn_eq hops]
    constructor
    · rintro ⟨e, he⟩
      by_contra hfits
      push Not at hfits
      obtain ⟨groups, hpack, hclosable⟩ := @packOps_closable max ops [] [] 0
        (fun op hop => length_encodeOp op ▸ hfits op hop) (filling_nil max 0) nofun
      obtain ⟨bs, hbs⟩ := @encodeFrames_ok max (chainFrames txnSeq groups)
        fun frame hframe => (hclosable _ (mem_chainFrames hframe)).2
      rw [txnFrames, hpack] at he
      exact absurd (hbs.symm.trans he) nofun
    · rintro ⟨op, hop, hlong⟩
      cases hpack : packOps max ops [] [] 0 with
      | error e =>
          rw [txnFrames, hpack]
          exact ⟨e, rfl⟩
      | ok groups =>
          have hfits := packOps_fits hpack hop
          rw [length_encodeOp] at hlong
          omega
  · intro bs h
    rw [encodeTxn_eq hops] at h
    obtain ⟨frames, hframes, hbs⟩ := Faults.bind_ok h
    obtain ⟨groups, hgroups, rfl, hflat⟩ := txnFrames_chain hops hframes
    exact ⟨_, hbs, fun frame hframe => length_of_encodeFrames hbs hframe,
      isChain_chainFrames txnSeq hgroups, recover_chain hgroups hmax hbs,
      (chainFrames_ops txnSeq groups).trans hflat⟩

/-- Two operations of two bytes, in frames of one each. -/
theorem encodeTxn_framing_split :
    ((∃ e, encodeTxnFramesLimited 1 [.clear 1, .clear 2] 4 = .error e) ↔
      ∃ op ∈ [WalOp.clear 1, .clear 2], 4 < (encodeOp op).length + 1) ∧
    ∀ bs, encodeTxnFramesLimited 1 [.clear 1, .clear 2] 4 = .ok bs →
      ∃ frames, encodeFrames 4 frames = .ok bs ∧
        (∀ frame ∈ frames, (encodeOps frame.ops).length ≤ 4) ∧ IsChain 1 frames ∧
        recoverCommittedFrames bs.flatten = ⟨frames, bs.flatten.length⟩ ∧
        frames.flatMap WalFrame.ops = [.clear 1, .clear 2] :=
  @encodeTxn_framing 4 1 [.clear 1, .clear 2] (List.cons_ne_nil _ _) (by decide)

end BoaIdb.Fs
