import BoaIdb.Fs.WalCodec
import Mathlib.Data.List.Infix

/-!
What the recovery scan returns.

A log is complete when the scan accepts all of it. Whatever is appended to a
complete log is scanned as if it stood alone; the encoding of a transaction is
recovered whole, and any shorter part of it not at all.
-/

namespace BoaIdb.Fs

open ByteCodec

/-- The scan over `input`, with as many passes as it can need. -/
def recoverFrom (input : Bytes) (s : Scan) : RecoveredWal :=
  recoverLoop input.length input s

/-! ### The scan, one frame at a time -/

/-- Every frame uses a byte, so passes beyond the length change nothing. -/
theorem recoverLoop_fuel (fuel fuel' : ℕ) (input : Bytes) (s : Scan) (h : input.length ≤ fuel)
    (h' : input.length ≤ fuel') : recoverLoop fuel input s = recoverLoop fuel' input s := by
  induction fuel generalizing fuel' input s with
  | zero =>
      obtain rfl := List.length_eq_zero_iff.mp (Nat.le_zero.mp h)
      cases fuel' <;> rfl
  | succ fuel ih =>
      cases fuel' with
      | zero =>
          obtain rfl := List.length_eq_zero_iff.mp (Nat.le_zero.mp h')
          rfl
      | succ fuel' =>
          rw [recoverLoop, recoverLoop]
          cases hd : decodeFrame input with
          | error e => rfl
          | ok r =>
              cases r with
              | none => rfl
              | some r =>
                  obtain ⟨frame, consumed⟩ := r
                  obtain ⟨hle, hpos, -⟩ := decodeFrame_append hd []
                  cases hf : s.frame frame consumed with
                  | none => simp only [hf]
                  | some s' =>
                      simp only [hf]
                      exact ih fuel' _ s' (by rw [List.length_drop]; omega)
                        (by rw [List.length_drop]; omega)

theorem recoverFrom_nil (s : Scan) : recoverFrom [] s = s.result := rfl

theorem recoverFrom_stop {input : Bytes} {s : Scan}
    (h : ∀ r, decodeFrame input ≠ .ok (some r)) : recoverFrom input s = s.result := by
  rw [recoverFrom]
  cases input.length with
  | zero => rfl
  | succ n =>
      rw [recoverLoop]
      cases hd : decodeFrame input with
      | error e => rfl
      | ok r =>
          cases r with
          | none => rfl
          | some r => exact absurd hd (h r)

theorem recoverFrom_frame {input : Bytes} {s : Scan} {frame : WalFrame} {consumed : ℕ}
    (h : decodeFrame input = .ok (some (frame, consumed))) :
    recoverFrom input s = match s.frame frame consumed with
      | some s' => recoverFrom (input.drop consumed) s'
      | none => s.result := by
  obtain ⟨hle, hpos, -⟩ := decodeFrame_append h []
  rw [recoverFrom]
  cases hlen : input.length with
  | zero => omega
  | succ n =>
      rw [recoverLoop]
      simp only [h]
      cases s.frame frame consumed with
      | none => rfl
      | some s' =>
          exact recoverLoop_fuel _ _ _ _ (by rw [List.length_drop]; omega) le_rfl

/-! ### Appending to a complete log -/

/-- The scan accepts every byte. -/
def Complete (wal : Bytes) : Prop :=
  (recoverCommittedFrames wal).validPrefixLen = wal.length

instance (wal : Bytes) : Decidable (Complete wal) := inferInstanceAs (Decidable (_ = _))

theorem complete_nil : Complete [] := rfl

/-- An open chain always starts behind the valid prefix. -/
structure Scan.Ok (s : Scan) : Prop where
  le : s.validPrefix ≤ s.offset
  closed : s.validPrefix = s.offset → s.pendingSeq = none
  idle : s.pendingSeq = none → s.pending = []

/-- A scan between transactions. -/
def Scan.between (offset : ℕ) (committed : List WalFrame) : Scan :=
  ⟨offset, committed, [], none, offset⟩

theorem Scan.between_ok (offset : ℕ) (committed : List WalFrame) :
    (Scan.between offset committed).Ok :=
  ⟨le_rfl, fun _ => rfl, fun _ => rfl⟩

theorem Scan.Ok.eq_between {s : Scan} (h : s.Ok) (heq : s.validPrefix = s.offset) :
    s = .between s.offset s.committed := by
  obtain ⟨offset, committed, pending, pendingSeq, validPrefix⟩ := s
  obtain rfl := h.closed heq
  obtain rfl := h.idle rfl
  simp only at heq
  rw [heq, Scan.between]

theorem Scan.Ok.frame {s s' : Scan} {frame : WalFrame} {consumed : ℕ} (h : s.Ok)
    (hpos : 0 < consumed) (hf : s.frame frame consumed = some s') :
    s'.Ok ∧ s'.offset = s.offset + consumed := by
  have hle := h.le
  unfold Scan.frame at hf
  simp only at hf
  split at hf
  · simp at hf
  · split at hf
    next hseq =>
      split at hf
      · obtain rfl := Option.some.inj hf
        exact ⟨⟨le_rfl, fun _ => hseq, fun _ => h.idle hseq⟩, rfl⟩
      · obtain rfl := Option.some.inj hf
        refine ⟨⟨by simp only; omega, fun heq => ?_, fun hno => by simp at hno⟩, rfl⟩
        simp only at heq
        omega
    next seq hseq =>
      split_ifs at hf
      · obtain rfl := Option.some.inj hf
        refine ⟨⟨by simp only; omega, fun heq => ?_, fun hno => by simp [hseq] at hno⟩, rfl⟩
        simp only at heq
        omega
      · obtain rfl := Option.some.inj hf
        exact ⟨⟨le_rfl, fun _ => rfl, fun _ => rfl⟩, rfl⟩

/-- When the scan accepts its whole input, what follows is scanned from there. -/
theorem recoverFrom_append {input : Bytes} {s : Scan} (hok : s.Ok)
    (hall : (recoverFrom input s).validPrefixLen = s.offset + input.length) (rest : Bytes) :
    recoverFrom (input ++ rest) s =
      recoverFrom rest (.between (s.offset + input.length) (recoverFrom input s).frames) := by
  induction hlen : input.length using Nat.strong_induction_on generalizing input s with
  | _ n ih =>
      by_cases hstop : ∀ r, decodeFrame input ≠ .ok (some r)
      · -- the scan stopped at once, so there was nothing to scan
        rw [recoverFrom_stop hstop] at hall ⊢
        have hle := hok.le
        have hzero : input.length = 0 := by
          simp only [Scan.result] at hall
          omega
        obtain rfl := List.length_eq_zero_iff.mp hzero
        have hclosed := hok.eq_between (by simpa [Scan.result] using hall)
        rw [← hlen, List.nil_append, hclosed]
        rfl
      · push Not at hstop
        obtain ⟨⟨frame, consumed⟩, hdec⟩ := hstop
        obtain ⟨hle, hpos, happ⟩ := decodeFrame_append hdec rest
        rw [recoverFrom_frame hdec] at hall
        rw [recoverFrom_frame happ, recoverFrom_frame hdec]
        cases hf : s.frame frame consumed with
        | none =>
            have := hok.le
            simp only [hf, Scan.result] at hall
            omega
        | some s' =>
            simp only [hf] at hall
            obtain ⟨hok', hoff⟩ := hok.frame hpos hf
            have hdrop : (input.drop consumed).length = input.length - consumed := List.length_drop
            have hsum : s'.offset + (input.drop consumed).length = s.offset + input.length := by
              omega
            simp only
            rw [List.drop_append_of_le_length hle,
              ih _ (by omega) hok' (by rw [hall, hsum]) rfl, hdrop, hoff, ← hlen,
              show s.offset + consumed + (input.length - consumed) =
                s.offset + input.length by omega]

/-- Where a scan starts, and what it has committed so far, only shifts its result. -/
def Scan.shift (s : Scan) (offset : ℕ) (committed : List WalFrame) : Scan :=
  ⟨offset + s.offset, committed ++ s.committed, s.pending, s.pendingSeq, offset + s.validPrefix⟩

theorem Scan.frame_shift (s : Scan) (offset : ℕ) (committed : List WalFrame) (frame : WalFrame)
    (consumed : ℕ) : (s.shift offset committed).frame frame consumed =
      (s.frame frame consumed).map (fun s' => s'.shift offset committed) := by
  unfold Scan.frame Scan.shift
  simp only
  by_cases hflags : frame.flags ≠ flagCommit ∧ frame.flags ≠ flagContinues
  · rw [if_pos hflags, if_pos hflags]
    rfl
  · rw [if_neg hflags, if_neg hflags]
    cases s.pendingSeq with
    | none =>
        simp only
        split_ifs <;> simp [Nat.add_assoc]
    | some seq =>
        simp only
        split_ifs <;> simp [Nat.add_assoc]

theorem recoverFrom_shift (input : Bytes) (s : Scan) (offset : ℕ) (committed : List WalFrame) :
    recoverFrom input (s.shift offset committed) =
      ⟨committed ++ (recoverFrom input s).frames,
        offset + (recoverFrom input s).validPrefixLen⟩ := by
  induction hlen : input.length using Nat.strong_induction_on generalizing input s with
  | _ n ih =>
      by_cases hstop : ∀ r, decodeFrame input ≠ .ok (some r)
      · rw [recoverFrom_stop hstop, recoverFrom_stop hstop]
        rfl
      · push Not at hstop
        obtain ⟨⟨frame, consumed⟩, hdec⟩ := hstop
        obtain ⟨hle, hpos, -⟩ := decodeFrame_append hdec []
        rw [recoverFrom_frame hdec, recoverFrom_frame hdec, Scan.frame_shift]
        cases s.frame frame consumed with
        | none => rfl
        | some s' => exact ih _ (by rw [List.length_drop]; omega) (input.drop consumed) s' rfl

theorem Scan.committed_frame {s s' : Scan} {frame : WalFrame} {consumed : ℕ}
    (h : s.frame frame consumed = some s') : s.committed <+: s'.committed := by
  unfold Scan.frame at h
  simp only at h
  split at h
  · cases h
  · cases hseq : s.pendingSeq with
    | none =>
        simp only [hseq] at h
        split at h <;> cases h
        · exact List.prefix_append _ _
        · exact List.prefix_rfl
    | some seq =>
        simp only [hseq] at h
        split_ifs at h <;> cases h
        · exact List.prefix_rfl
        · exact List.prefix_append _ _

/-- A scan only adds to what it has committed. -/
theorem committed_prefix (input : Bytes) (s : Scan) :
    s.committed <+: (recoverFrom input s).frames := by
  induction hlen : input.length using Nat.strong_induction_on generalizing input s with
  | _ n ih =>
      by_cases hstop : ∀ r, decodeFrame input ≠ .ok (some r)
      · rw [recoverFrom_stop hstop]
        exact List.prefix_rfl
      · push Not at hstop
        obtain ⟨⟨frame, consumed⟩, hdec⟩ := hstop
        obtain ⟨hle, hpos, -⟩ := decodeFrame_append hdec []
        rw [recoverFrom_frame hdec]
        cases hf : s.frame frame consumed with
        | none => exact List.prefix_rfl
        | some s' =>
            exact (Scan.committed_frame hf).trans
              (ih _ (by rw [List.length_drop]; omega) (input.drop consumed) s' rfl)

/-- What is recovered of a log stays in front when it grows. -/
theorem recoverFrom_prefix (input rest : Bytes) (s : Scan) :
    (recoverFrom input s).frames <+: (recoverFrom (input ++ rest) s).frames := by
  induction hlen : input.length using Nat.strong_induction_on generalizing input s with
  | _ n ih =>
      by_cases hstop : ∀ r, decodeFrame input ≠ .ok (some r)
      · rw [recoverFrom_stop hstop]
        exact committed_prefix _ s
      · push Not at hstop
        obtain ⟨⟨frame, consumed⟩, hdec⟩ := hstop
        obtain ⟨hle, hpos, happ⟩ := decodeFrame_append hdec rest
        rw [recoverFrom_frame hdec, recoverFrom_frame happ]
        cases s.frame frame consumed with
        | none => exact List.prefix_rfl
        | some s' =>
            simp only
            rw [List.drop_append_of_le_length hle]
            exact ih _ (by rw [List.length_drop]; omega) (input.drop consumed) s' rfl

/-- What is appended to a complete log is recovered as if it stood alone. -/
theorem recover_append {wal : Bytes} (h : Complete wal) (rest : Bytes) :
    recoverCommittedFrames (wal ++ rest) =
      ⟨(recoverCommittedFrames wal).frames ++ (recoverCommittedFrames rest).frames,
        wal.length + (recoverCommittedFrames rest).validPrefixLen⟩ := by
  have hall : (recoverFrom wal (.between 0 [])).validPrefixLen =
      (Scan.between 0 []).offset + wal.length := by
    rw [show (Scan.between 0 []).offset = 0 from rfl, Nat.zero_add]
    exact h
  have happ := recoverFrom_append (Scan.between_ok 0 []) hall rest
  have hshift := recoverFrom_shift rest (.between 0 []) wal.length
    (recoverFrom wal (.between 0 [])).frames
  have hbetween : (Scan.between 0 []).shift wal.length (recoverFrom wal (.between 0 [])).frames =
      .between ((Scan.between 0 []).offset + wal.length)
        (recoverFrom wal (.between 0 [])).frames := by
    simp [Scan.shift, Scan.between]
  rw [hbetween] at hshift
  exact happ.trans hshift

theorem Complete.append {wal rest : Bytes} (h : Complete wal) (h' : Complete rest) :
    Complete (wal ++ rest) := by
  rw [Complete, recover_append h, h', List.length_append]

/-! ### One transaction -/

/-- A scan that is about to read a chain, or has read part of it. -/
def Scan.InChain (s : Scan) (txnSeq : UInt64) : Prop :=
  s.pendingSeq = none ∧ s.pending = [] ∨ s.pendingSeq = some txnSeq

theorem flagCommit_ne_continues : flagCommit ≠ flagContinues := by decide

theorem Scan.frame_continues {s : Scan} {txnSeq : UInt64} (h : s.InChain txnSeq)
    (ops : List WalOp) (consumed : ℕ) :
    s.frame ⟨txnSeq, flagContinues, ops⟩ consumed =
      some ⟨s.offset + consumed, s.committed, s.pending ++ [⟨txnSeq, flagContinues, ops⟩],
        some txnSeq, s.validPrefix⟩ := by
  have hflag := flagCommit_ne_continues
  unfold Scan.frame
  rcases h with ⟨hseq, hpend⟩ | hseq
  · simp [hseq, hflag.symm]
  · simp [hseq]

theorem Scan.frame_commit {s : Scan} {txnSeq : UInt64} (h : s.InChain txnSeq)
    (ops : List WalOp) (consumed : ℕ) :
    s.frame ⟨txnSeq, flagCommit, ops⟩ consumed =
      some (.between (s.offset + consumed)
        (s.committed ++ (s.pending ++ [⟨txnSeq, flagCommit, ops⟩]))) := by
  have hflag := flagCommit_ne_continues
  unfold Scan.frame Scan.between
  rcases h with ⟨hseq, hpend⟩ | hseq
  · simp [hseq, hpend]
  · simp [hseq, hflag]

section Chain

variable {max : ℕ} {txnSeq : UInt64}

theorem encodeFrames_cons {frame : WalFrame} {frames : List WalFrame} {bs : List Bytes}
    (h : encodeFrames max (frame :: frames) = .ok bs) :
    ∃ b bs', encodeFrameLimited frame max = .ok b ∧ encodeFrames max frames = .ok bs' ∧
      bs = b :: bs' := by
  rw [encodeFrames] at h
  cases hb : encodeFrameLimited frame max with
  | error e => simp [hb, bind, Except.bind] at h
  | ok b =>
      cases hbs : encodeFrames max frames with
      | error e => simp [hb, hbs, bind, Except.bind] at h
      | ok bs' =>
          simp only [hb, hbs, bind, Except.bind, Except.ok.injEq] at h
          exact ⟨b, bs', rfl, rfl, h.symm⟩

/-- Every payload is one that the format allows: a frame has 21 bytes around it. -/
def ReadableFrames (bs : List Bytes) : Prop := ∀ b ∈ bs, b.length ≤ 21 + maxFramePayloadLimit

instance (bs : List Bytes) : Decidable (ReadableFrames bs) :=
  inferInstanceAs (Decidable (∀ b ∈ bs, _))

theorem readableFrames_nil : ReadableFrames [] := fun _ h => absurd h List.not_mem_nil

/-- Frames that are short enough are the same under another limit. -/
theorem encodeFrames_limit {limit : ℕ} {frames : List WalFrame} {bs : List Bytes}
    (h : encodeFrames max frames = .ok bs) (hlimit : ∀ b ∈ bs, b.length ≤ 21 + limit) :
    encodeFrames limit frames = .ok bs := by
  induction frames generalizing bs with
  | nil => exact h
  | cons frame frames ih =>
      obtain ⟨b, bs, hb, hbs, rfl⟩ := encodeFrames_cons h
      have hlen := (length_of_encodeFrame hb).1
      have hshort := hlimit b (.head _)
      have hframe : encodeFrameLimited frame limit = .ok b := by
        rw [encodeFrameLimited] at hb ⊢
        split at hb
        next => cases hb
        next =>
          rw [if_neg (by omega)]
          exact hb
      rw [encodeFrames, hframe, ih hbs fun b hb => hlimit b (.tail _ hb)]
      rfl

/-- The scan reads a chain to its end and commits it. -/
theorem recoverFrom_chain (hmax : max ≤ maxFramePayloadLimit) (groups : List (List WalOp))
    (hne : groups ≠ []) {bs : List Bytes}
    (h : encodeFrames max (chainFrames txnSeq groups) = .ok bs)
    {s : Scan} (hs : s.InChain txnSeq) (rest : Bytes) :
    recoverFrom (bs.flatten ++ rest) s =
      recoverFrom rest (.between (s.offset + bs.flatten.length)
        (s.committed ++ (s.pending ++ chainFrames txnSeq groups))) := by
  induction groups generalizing bs s with
  | nil => exact absurd rfl hne
  | cons group groups ih =>
      cases groups with
      | nil =>
          obtain ⟨b, bs', hb, hbs, rfl⟩ := encodeFrames_cons h
          obtain rfl : bs' = [] := (Except.ok.inj hbs).symm
          have hdec := decodeFrame_encode hb hmax rest
          rw [List.flatten_singleton, recoverFrom_frame hdec, Scan.frame_commit hs]
          simp only [List.drop_left]
          rfl
      | cons group' groups =>
          obtain ⟨b, bs', hb, hbs, rfl⟩ := encodeFrames_cons h
          have hdec := decodeFrame_encode hb hmax (bs'.flatten ++ rest)
          rw [List.flatten_cons, List.append_assoc, recoverFrom_frame hdec,
            Scan.frame_continues hs]
          simp only [List.drop_left]
          rw [ih (by simp) hbs (.inr rfl)]
          simp only [List.length_append, Nat.add_assoc, List.append_assoc]
          rfl

/-- A chain cut short commits nothing. -/
theorem recoverFrom_cut (hmax : max ≤ maxFramePayloadLimit) (groups : List (List WalOp))
    {bs : List Bytes} (h : encodeFrames max (chainFrames txnSeq groups) = .ok bs)
    {s : Scan} (hs : s.InChain txnSeq) {cut : Bytes} (hcut : cut <+: bs.flatten)
    (hne : cut ≠ bs.flatten) : recoverFrom cut s = s.result := by
  induction groups generalizing bs s cut with
  | nil =>
      obtain rfl := Except.ok.inj h
      exact absurd (List.prefix_nil.mp hcut) hne
  | cons group groups ih =>
      have hcons : ∃ frame frames, chainFrames txnSeq (group :: groups) = frame :: frames := by
        cases groups <;> exact ⟨_, _, rfl⟩
      obtain ⟨frame, frames, hchain⟩ := hcons
      rw [hchain] at h
      obtain ⟨b, bs', hb, hbs, rfl⟩ := encodeFrames_cons h
      rw [List.flatten_cons] at hcut hne
      -- the cut is behind the first frame, or within it
      by_cases hb' : b <+: cut
      · obtain ⟨cut', rfl⟩ := hb'
        rw [List.prefix_append_right_inj] at hcut
        have hne' : cut' ≠ bs'.flatten := fun heq => hne (by rw [heq])
        cases groups with
        | nil =>
            obtain ⟨-, rfl⟩ := List.cons.inj hchain
            obtain rfl : bs' = [] := (Except.ok.inj hbs).symm
            exact absurd (List.prefix_nil.mp hcut) hne'
        | cons group' groups =>
            obtain ⟨rfl, rfl⟩ := List.cons.inj hchain
            rw [recoverFrom_frame (decodeFrame_encode hb hmax cut'), Scan.frame_continues hs]
            simp only [List.drop_left]
            exact ih hbs (.inr rfl) hcut hne'
      · have hlen : cut.length ≤ b.length := by
          by_contra hlt
          exact hb' (List.prefix_of_prefix_length_le (List.prefix_append b _) hcut (by omega))
        have hshort := (List.isPrefix_append_of_length hlen).mp hcut
        refine recoverFrom_stop (decodeFrame_cut hb hmax hshort fun heq => ?_)
        exact hb' (heq ▸ List.prefix_refl _)

end Chain

/-! ### Packing keeps the operations -/

theorem packOps_flatten {max : ℕ} {ops current : List WalOp} {groups gs : List (List WalOp)}
    {len : ℕ} (h : packOps max ops groups current len = .ok gs) :
    gs.flatten = groups.flatten ++ (current ++ ops) := by
  induction ops generalizing groups current len with
  | nil =>
      rw [packOps] at h
      obtain rfl := Except.ok.inj h
      cases current <;> simp
  | cons op ops ih =>
      rw [packOps] at h
      split_ifs at h with hempty
      · rw [ih h, List.isEmpty_iff.mp hempty]
        simp
      · rw [ih h]
        simp
      · rw [ih h]
        simp

theorem chainFrames_ops (txnSeq : UInt64) (groups : List (List WalOp)) :
    (chainFrames txnSeq groups).flatMap WalFrame.ops = groups.flatten := by
  induction groups with
  | nil => rfl
  | cons group groups ih =>
      cases groups with
      | nil => simp [chainFrames]
      | cons group' groups => simpa [chainFrames] using ih

theorem chainFrames_txnSeq {txnSeq : UInt64} {groups : List (List WalOp)} {frame : WalFrame}
    (h : frame ∈ chainFrames txnSeq groups) : frame.txnSeq = txnSeq := by
  induction groups with
  | nil => simp [chainFrames] at h
  | cons group groups ih =>
      cases groups with
      | nil =>
          obtain rfl := List.mem_singleton.mp h
          rfl
      | cons group' groups =>
          rcases List.mem_cons.mp h with rfl | h
          · rfl
          · exact ih h

/-- What the log shows of a transaction's encoding: all of it, or nothing. -/
structure EncodesTxn (txnSeq : UInt64) (ops : List WalOp) (bs : List Bytes) : Prop where
  /-- The whole encoding is a complete log of the transaction's frames. -/
  whole : Complete bs.flatten ∧
    (recoverCommittedFrames bs.flatten).frames.flatMap WalFrame.ops = ops ∧
    (recoverCommittedFrames bs.flatten).frames ≠ [] ∧
    ∀ frame ∈ (recoverCommittedFrames bs.flatten).frames, frame.txnSeq = txnSeq
  /-- A part of it shows nothing. -/
  cut : ∀ cut, cut <+: bs.flatten → cut ≠ bs.flatten → recoverCommittedFrames cut = ⟨[], 0⟩

/-- The encoding of a transaction is a chain of its operations. -/
theorem encodeTxn_chain {txnSeq : UInt64} {ops : List WalOp} {max : ℕ} {bs : List Bytes}
    (hops : ops ≠ []) (h : encodeTxnFramesLimited txnSeq ops max = .ok bs) :
    ∃ groups, groups ≠ [] ∧ groups.flatten = ops ∧
      encodeFrames max (chainFrames txnSeq groups) = .ok bs := by
  unfold encodeTxnFramesLimited at h
  rw [if_neg (by simpa using hops)] at h
  cases hpack : packOps max ops [] [] 0 with
  | error e => simp [hpack, bind, Except.bind] at h
  | ok groups =>
      have hflat : groups.flatten = ops := by simpa using packOps_flatten hpack
      refine ⟨groups, ?_, hflat, by simpa [hpack, bind, Except.bind] using h⟩
      rintro rfl
      exact hops (by simpa using hflat.symm)

theorem encodesTxn {txnSeq : UInt64} {ops : List WalOp} {max : ℕ} {bs : List Bytes}
    (hops : ops ≠ []) (hread : ReadableFrames bs)
    (h : encodeTxnFramesLimited txnSeq ops max = .ok bs) : EncodesTxn txnSeq ops bs := by
  obtain ⟨groups, hne, hflat, henc⟩ := encodeTxn_chain hops h
  replace henc := encodeFrames_limit henc hread
  have hchain := recoverFrom_chain le_rfl groups hne henc (s := .start) (.inl ⟨rfl, rfl⟩) []
  rw [List.append_nil, recoverFrom_nil] at hchain
  have hrec : recoverCommittedFrames bs.flatten =
      ⟨chainFrames txnSeq groups, bs.flatten.length⟩ := by
    refine hchain.trans ?_
    simp [Scan.result, Scan.between, Scan.start]
  constructor
  case whole =>
      rw [Complete, hrec]
      refine ⟨rfl, (chainFrames_ops txnSeq groups).trans hflat, ?_, fun _ => chainFrames_txnSeq⟩
      cases groups with
      | nil => exact absurd rfl hne
      | cons group groups => cases groups <;> simp [chainFrames]
  case cut =>
      intro cut hcut hcutne
      exact recoverFrom_cut le_rfl groups henc (s := .start) (.inl ⟨rfl, rfl⟩) hcut hcutne

/-- The scan stops at a frame that the format does not allow, whatever follows. -/
theorem recoverFrom_unread {max : ℕ} (hmax : max < 256 ^ 4) {txnSeq : UInt64}
    {groups : List (List WalOp)} {bs : List Bytes}
    (h : encodeFrames max (chainFrames txnSeq groups) = .ok bs) (hread : ¬ ReadableFrames bs)
    {s : Scan} (hs : s.InChain txnSeq) (rest : Bytes) :
    recoverFrom (bs.flatten ++ rest) s = s.result := by
  induction groups generalizing bs s with
  | nil =>
      obtain rfl := Except.ok.inj h
      exact absurd readableFrames_nil hread
  | cons group groups ih =>
      have hcons : ∃ frame frames, chainFrames txnSeq (group :: groups) = frame :: frames := by
        cases groups <;> exact ⟨_, _, rfl⟩
      obtain ⟨frame, frames, hchain⟩ := hcons
      rw [hchain] at h
      obtain ⟨b, bs', hb, hbs, rfl⟩ := encodeFrames_cons h
      obtain ⟨hlen, hle⟩ := length_of_encodeFrame hb
      rw [List.flatten_cons, List.append_assoc]
      by_cases hlong : maxFramePayloadLimit < (encodeOps frame.ops).length
      · refine recoverFrom_stop fun r hr => ?_
        rw [decodeFrame_tooLarge hb hlong (hle.trans_lt hmax)] at hr
        cases hr
      · -- the head is read, so the frame in question is behind it
        have hb' : encodeFrameLimited frame maxFramePayloadLimit = .ok b := by
          rw [encodeFrameLimited] at hb ⊢
          rw [if_neg (by omega)] at hb
          rwa [if_neg hlong]
        have hread' : ¬ ReadableFrames bs' := fun hall => hread fun b' hmem => by
          rcases List.mem_cons.mp hmem with rfl | hmem
          · omega
          · exact hall b' hmem
        have hdec := decodeFrame_encode hb' le_rfl (bs'.flatten ++ rest)
        cases groups with
        | nil =>
            obtain ⟨-, rfl⟩ := List.cons.inj hchain
            obtain rfl : bs' = [] := (Except.ok.inj hbs).symm
            exact absurd readableFrames_nil hread'
        | cons group' groups =>
            obtain ⟨rfl, rfl⟩ := List.cons.inj hchain
            rw [recoverFrom_frame hdec, Scan.frame_continues hs]
            simp only [List.drop_left]
            exact ih hbs hread' (.inr rfl)

/-- Nothing is recovered of a transaction with such a frame, nor of what follows it. -/
theorem recover_unread {txnSeq : UInt64} {ops : List WalOp} {max : ℕ} {bs : List Bytes}
    (hmax : max < 256 ^ 4) (h : encodeTxnFramesLimited txnSeq ops max = .ok bs)
    (hread : ¬ ReadableFrames bs) (rest : Bytes) :
    recoverCommittedFrames (bs.flatten ++ rest) = ⟨[], 0⟩ := by
  by_cases hops : ops = []
  · rw [hops] at h
    obtain rfl : [] = bs := Except.ok.inj h
    exact absurd readableFrames_nil hread
  · obtain ⟨groups, -, -, henc⟩ := encodeTxn_chain hops h
    exact recoverFrom_unread hmax henc hread (s := .start) (.inl ⟨rfl, rfl⟩) rest

/-- The scan ends before these bytes do, and at the same place whatever is appended. -/
structure Closed (wal : Bytes) : Prop where
  unread : ∀ rest, recoverCommittedFrames (wal ++ rest) = recoverCommittedFrames wal
  short : (recoverCommittedFrames wal).validPrefixLen < wal.length

theorem Closed.append {wal : Bytes} (h : Closed wal) (more : Bytes) : Closed (wal ++ more) := by
  refine ⟨fun rest => ?_, ?_⟩
  · rw [List.append_assoc, h.unread, h.unread]
  · rw [h.unread, List.length_append]
    exact h.short.trans_le (Nat.le_add_right _ _)

/-- A log is closed by a frame that the format does not allow. -/
theorem Complete.closed {wal : Bytes} (h : Complete wal) {txnSeq : UInt64} {ops : List WalOp}
    {max : ℕ} {bs : List Bytes} (hmax : max < 256 ^ 4)
    (hframes : encodeTxnFramesLimited txnSeq ops max = .ok bs) (hread : ¬ ReadableFrames bs) :
    recoverCommittedFrames (wal ++ bs.flatten) = recoverCommittedFrames wal ∧
      Closed (wal ++ bs.flatten) := by
  have hstop (rest : Bytes) :
      recoverCommittedFrames (wal ++ (bs.flatten ++ rest)) = recoverCommittedFrames wal := by
    rw [recover_append h, recover_unread hmax hframes hread, List.append_nil, Nat.add_zero]
    exact congrArg (RecoveredWal.mk _) h.symm
  have hsame := hstop []
  rw [List.append_nil] at hsame
  refine ⟨hsame, fun rest => ?_, ?_⟩
  · rw [List.append_assoc, hstop, hsame]
  · have hpos : 0 < bs.flatten.length := by
      by_contra hzero
      refine hread fun b hb => ?_
      have hnil := List.eq_nil_of_length_eq_zero (Nat.eq_zero_of_not_pos hzero)
      rw [List.flatten_eq_nil_iff.mp hnil b hb]
      exact Nat.zero_le _
    rw [hsame, h, List.length_append]
    omega

/-- A transaction under a limit of the format is readable. -/
theorem readableFrames_of_le {txnSeq : UInt64} {ops : List WalOp} {max : ℕ} {bs : List Bytes}
    (hmax : max ≤ maxFramePayloadLimit) (h : encodeTxnFramesLimited txnSeq ops max = .ok bs) :
    ReadableFrames bs := by
  by_contra hread
  by_cases hops : ops = []
  · rw [hops] at h
    obtain rfl : [] = bs := Except.ok.inj h
    exact hread readableFrames_nil
  · obtain ⟨groups, hne, -, henc⟩ := encodeTxn_chain hops h
    have hlimit : maxFramePayloadLimit < 256 ^ 4 := by decide
    have hchain := recoverFrom_chain hmax groups hne henc (s := .start) (.inl ⟨rfl, rfl⟩) []
    rw [recoverFrom_unread (hmax.trans_lt hlimit) henc hread (.inl ⟨rfl, rfl⟩)] at hchain
    have hframes := congrArg RecoveredWal.frames hchain
    cases groups with
    | nil => exact hne rfl
    | cons group groups =>
        cases groups <;> simp [Scan.result, Scan.start, Scan.between, chainFrames, recoverFrom_nil]
          at hframes

theorem length_of_encodeFrames {max : ℕ} {frames : List WalFrame} {bs : List Bytes}
    (h : encodeFrames max frames = .ok bs) {frame : WalFrame} (hframe : frame ∈ frames) :
    (encodeOps frame.ops).length ≤ max := by
  induction frames generalizing bs with
  | nil => exact absurd hframe List.not_mem_nil
  | cons frame' frames ih =>
      rw [encodeFrames] at h
      cases hb : encodeFrameLimited frame' max with
      | error e => simp [hb, bind, Except.bind] at h
      | ok b =>
          cases hrest : encodeFrames max frames with
          | error e => simp [hb, hrest, bind, Except.bind] at h
          | ok rest =>
              rcases List.mem_cons.mp hframe with rfl | hframe
              · exact (length_of_encodeFrame hb).2
              · exact ih hrest hframe

/-- Every operation of an encoded transaction fits into a frame. -/
theorem length_of_encodeTxn {txnSeq : UInt64} {ops : List WalOp} {max : ℕ} {bs : List Bytes}
    (h : encodeTxnFramesLimited txnSeq ops max = .ok bs) {op : WalOp} (hop : op ∈ ops) :
    (encodeOp op).length ≤ max := by
  unfold encodeTxnFramesLimited at h
  rw [if_neg (by simpa using List.ne_nil_of_mem hop)] at h
  cases hpack : packOps max ops [] [] 0 with
  | error e => simp [hpack, bind, Except.bind] at h
  | ok groups =>
      have henc : encodeFrames max (chainFrames txnSeq groups) = .ok bs := by
        simpa [hpack, bind, Except.bind] using h
      have hflat : groups.flatten = ops := by simpa using packOps_flatten hpack
      have hmem : op ∈ (chainFrames txnSeq groups).flatMap WalFrame.ops := by
        rw [chainFrames_ops, hflat]
        exact hop
      obtain ⟨frame, hframe, hop⟩ := List.mem_flatMap.mp hmem
      exact (length_encodeOp_le hop).trans (length_of_encodeFrames henc hframe)

end BoaIdb.Fs
