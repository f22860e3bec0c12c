import BoaIdb.Fs.WalFraming

/-!
Logs that are cut, continued, or recovered again.

A log of encoded transactions is recovered up to the last one that lies wholly inside a cut.
What the recovery accepts of any bytes is a log that it accepts again.
-/

namespace BoaIdb.Fs

open ByteCodec Faults

/-! ### Encoded transactions -/

/-- A transaction, the frames it was packed into, and their bytes. -/
structure LoggedTxn where
  txnSeq : UInt64
  ops : List WalOp
  maxPayload : UInt32
  frames : List WalFrame
  bytes : List Bytes
  ops_ne : ops ≠ []
  framed : txnFrames txnSeq ops maxPayload.toNat = .ok frames
  encoded : encodeTxnFramesLimited txnSeq ops maxPayload.toNat = .ok bytes

namespace LoggedTxn

/-- What the transaction occupies in a log. -/
def image (t : LoggedTxn) : Bytes := t.bytes.flatten

/-- No payload is longer than the recovery accepts: a frame has 21 bytes around it. -/
def Readable (t : LoggedTxn) : Prop := ∀ b ∈ t.bytes, b.length ≤ 21 + maxFramePayloadLimit

/-- The transactions one after another. -/
def log (txns : List LoggedTxn) : Bytes := txns.flatMap image

@[simp] theorem log_nil : log [] = [] := rfl

@[simp] theorem log_cons (t : LoggedTxn) (txns : List LoggedTxn) :
    log (t :: txns) = t.image ++ log txns := List.flatMap_cons

/-- The transactions whose images lie wholly in the first `cut` bytes. -/
def within : ℕ → List LoggedTxn → List LoggedTxn
  | _, [] => []
  | cut, t :: txns =>
      if t.image.length ≤ cut then t :: within (cut - t.image.length) txns else []

end LoggedTxn

theorem exists_encodeFrame {max : ℕ} {frames : List WalFrame} {bs : List Bytes}
    (h : encodeFrames max frames = .ok bs) {b : Bytes} (hb : b ∈ bs) :
    ∃ frame ∈ frames, encodeFrameLimited frame max = .ok b := by
  induction frames generalizing bs with
  | nil =>
      cases h
      exact absurd hb List.not_mem_nil
  | cons frame frames ih =>
      obtain ⟨b', bs, hb', hbs, rfl⟩ := encodeFrames_cons h
      rcases List.mem_cons.mp hb with rfl | hb
      · exact ⟨frame, .head _, hb'⟩
      · obtain ⟨frame', hmem, hframe⟩ := ih hbs hb
        exact ⟨frame', .tail _ hmem, hframe⟩

namespace LoggedTxn

variable {t : LoggedTxn}

/-- Under a limit that the recovery shares, every transaction is readable. -/
theorem readable_of_le (h : t.maxPayload.toNat ≤ maxFramePayloadLimit) : t.Readable := by
  intro b hb
  have hencoded := t.encoded
  rw [encodeTxn_eq t.ops_ne, t.framed] at hencoded
  obtain ⟨frame, -, hframe⟩ := @exists_encodeFrame _ t.frames _ hencoded _ hb
  obtain ⟨hlen, hle⟩ := length_of_encodeFrame hframe
  omega

/-- A readable transaction is a chain under the limit of the recovery. -/
theorem Readable.chain (h : t.Readable) : ∃ groups, groups ≠ [] ∧
    t.frames = chainFrames t.txnSeq groups ∧
    encodeFrames maxFramePayloadLimit (chainFrames t.txnSeq groups) = .ok t.bytes := by
  obtain ⟨groups, hgroups, hframes, -⟩ := txnFrames_chain t.ops_ne t.framed
  have hencoded := t.encoded
  rw [encodeTxn_eq t.ops_ne, t.framed] at hencoded
  rw [hframes] at hencoded
  exact ⟨groups, hgroups, hframes, @encodeFrames_limit t.maxPayload.toNat _ _ _ hencoded h⟩

theorem Readable.recover (h : t.Readable) :
    recoverCommittedFrames t.image = ⟨t.frames, t.image.length⟩ := by
  obtain ⟨groups, hgroups, hframes, hencoded⟩ := h.chain
  rw [hframes]
  exact recover_chain hgroups le_rfl hencoded

theorem Readable.complete (h : t.Readable) : Complete t.image := by
  rw [Complete, h.recover]

theorem Readable.recover_append (h : t.Readable) (rest : Bytes) :
    recoverCommittedFrames (t.image ++ rest) =
      ⟨t.frames ++ (recoverCommittedFrames rest).frames,
        t.image.length + (recoverCommittedFrames rest).validPrefixLen⟩ := by
  rw [Fs.recover_append h.complete, h.recover]

/-- Of a transaction that is cut nothing is recovered. -/
theorem Readable.recover_cut (h : t.Readable) {cut : ℕ} (hcut : cut < t.image.length) :
    recoverCommittedFrames (t.image.take cut) = ⟨[], 0⟩ := by
  obtain ⟨groups, -, -, hencoded⟩ := h.chain
  refine recoverFrom_cut le_rfl groups hencoded (s := .start) (.inl ⟨rfl, rfl⟩)
    (List.take_prefix cut t.image) fun heq => ?_
  have hlen := congrArg List.length heq
  rw [List.length_take] at hlen
  exact absurd hlen (by rw [image] at hcut ⊢; omega)

/-- The recovery returns the transactions that lie inside the cut. -/
theorem recover_take {txns : List LoggedTxn} (h : ∀ t ∈ txns, t.Readable) (cut : ℕ) :
    recoverCommittedFrames ((log txns).take cut) =
      ⟨(within cut txns).flatMap frames, (log (within cut txns)).length⟩ := by
  induction txns generalizing cut with
  | nil =>
      rw [log_nil, List.take_nil]
      rfl
  | cons t txns ih =>
      have ht := h t (.head _)
      rw [log_cons, within]
      split
      next hle =>
        rw [List.take_append, List.take_of_length_le hle, ht.recover_append,
          ih fun t hmem => h t (.tail _ hmem)]
        rw [List.flatMap_cons, log_cons, List.length_append]
      next hgt =>
        rw [List.take_append_of_le_length (by omega), ht.recover_cut (by omega)]
        rfl

/-- Whatever follows a log, its own frames come first. -/
theorem frames_prefix {txns : List LoggedTxn} (h : ∀ t ∈ txns, t.Readable) (tail : Bytes) :
    txns.flatMap frames <+: (recoverCommittedFrames (log txns ++ tail)).frames := by
  induction txns with
  | nil => exact List.nil_prefix
  | cons t txns ih =>
      rw [log_cons, List.append_assoc, (h t (.head _)).recover_append, List.flatMap_cons,
        List.prefix_append_right_inj]
      exact ih fun t hmem => h t (.tail _ hmem)

end LoggedTxn

/-! ### The valid prefix alone -/

/-- A frame is decoded from any part that has its bytes. -/
theorem decodeFrame_take {input : Bytes} {frame : WalFrame} {n m : ℕ}
    (h : decodeFrame input = .ok (some (frame, n))) (hm : n ≤ m) :
    decodeFrame (input.take m) = .ok (some (frame, n)) := by
  unfold decodeFrame at h
  simp only at h
  split_ifs at h with h1 h2 h3 h5 h6 h7
  all_goals try (simp at h; done)
  split at h
  · simp at h
  · next ops hops =>
    obtain ⟨rfl, rfl⟩ := Prod.mk.inj (Option.some.inj (Except.ok.inj h))
    rw [not_lt] at h2 h6
    have hlen : (input.take m).length = min m input.length := List.length_take
    have htake {k : ℕ} (hk : k ≤ m) : (input.take m).take k = input.take k := by
      rw [List.take_take, min_eq_left hk]
    have hslice {j k : ℕ} (hjk : j + k ≤ m) :
        ((input.take m).drop j).take k = (input.drop j).take k := by
      rw [List.drop_take, List.take_take, min_eq_left (by omega)]
    have hne : ¬ (input.take m).isEmpty = true := by
      rw [List.isEmpty_iff, ← List.length_eq_zero_iff]
      omega
    unfold decodeFrame
    rw [if_neg hne, if_neg (by omega), htake (by omega), if_neg h3]
    simp only [hslice (show 4 + 4 ≤ m by omega)]
    rw [if_neg h5, if_neg (by omega), htake (by omega), hslice (by omega), if_neg h7,
      hslice (show 8 + 8 ≤ m by omega), hslice (show 16 + 1 ≤ m by omega), hslice (by omega)]
    simp only [hops]

/-- A frame either closes a transaction, or leaves what was committed. -/
theorem Scan.frame_committed {s s' : Scan} {frame : WalFrame} {consumed : ℕ}
    (h : s.frame frame consumed = some s') :
    s'.validPrefix = s'.offset ∨ s'.result = s.result := by
  unfold Scan.frame at h
  simp only at h
  split at h
  · simp at h
  · split at h <;> split_ifs at h <;> obtain rfl := Option.some.inj h
    all_goals first | exact .inl rfl | exact .inr rfl

/-- The scan commits nothing more, or the part up to what it accepts gives the same. -/
theorem recoverFrom_validPrefix (input : Bytes) {s : Scan} (hok : s.Ok) :
    recoverFrom input s = s.result ∨ s.offset < (recoverFrom input s).validPrefixLen ∧
      recoverFrom (input.take ((recoverFrom input s).validPrefixLen - s.offset)) s =
        recoverFrom input s := by
  induction hlen : input.length using Nat.strong_induction_on generalizing input s with
  | _ n ih =>
      by_cases hstop : ∀ r, decodeFrame input ≠ .ok (some r)
      · exact .inl (recoverFrom_stop hstop)
      · push Not at hstop
        obtain ⟨⟨frame, consumed⟩, hdec⟩ := hstop
        obtain ⟨hle, hpos, -⟩ := decodeFrame_append hdec []
        have hstep := recoverFrom_frame (s := s) hdec
        cases hf : s.frame frame consumed with
        | none =>
            rw [hf] at hstep
            exact .inl hstep
        | some s' =>
            rw [hf] at hstep
            dsimp only at hstep
            obtain ⟨hok', hoff⟩ := hok.frame hpos hf
            have hshort : (input.drop consumed).length < n := by
              rw [List.length_drop]
              omega
            -- the frame is read from every part that has it
            have htake {m : ℕ} (hm : consumed ≤ m) : recoverFrom (input.take m) s =
                recoverFrom ((input.drop consumed).take (m - consumed)) s' := by
              rw [recoverFrom_frame (decodeFrame_take hdec hm), hf, List.drop_take]
            rw [hstep]
            rcases ih _ hshort (input.drop consumed) hok' rfl with hrest | ⟨hlt, hrest⟩
            · rw [hrest]
              rcases Scan.frame_committed hf with hclosed | hopen
              · right
                have hvalid : s'.result.validPrefixLen = s.offset + consumed := hclosed.trans hoff
                rw [hvalid, htake (by omega)]
                refine ⟨by omega, ?_⟩
                rw [show s.offset + consumed - s.offset - consumed = 0 by omega]
                rfl
              · exact .inl hopen
            · right
              refine ⟨by omega, ?_⟩
              rw [htake (by omega)]
              rw [show (recoverFrom (input.drop consumed) s').validPrefixLen - s.offset - consumed =
                (recoverFrom (input.drop consumed) s').validPrefixLen - s'.offset by omega]
              exact hrest

theorem recover_validPrefix (buf : Bytes) :
    recoverCommittedFrames (buf.take (recoverCommittedFrames buf).validPrefixLen) =
      recoverCommittedFrames buf := by
  rcases recoverFrom_validPrefix buf (Scan.between_ok 0 []) with hnone | ⟨-, hsame⟩
  · have hnone : recoverCommittedFrames buf = ⟨[], 0⟩ := hnone
    rw [hnone]
    rfl
  · exact hsame

/-- What has been committed stays, whatever is scanned. -/
theorem committed_prefix_recoverFrom (input : Bytes) (s : Scan) :
    s.committed <+: (recoverFrom input s).frames := by
  induction hlen : input.length using Nat.strong_induction_on generalizing input s with
  | _ n ih =>
      by_cases hstop : ∀ r, decodeFrame input ≠ .ok (some r)
      · rw [recoverFrom_stop hstop]
        exact List.prefix_refl _
      · push Not at hstop
        obtain ⟨⟨frame, consumed⟩, hdec⟩ := hstop
        obtain ⟨hle, hpos, -⟩ := decodeFrame_append hdec []
        rw [recoverFrom_frame hdec]
        cases hf : s.frame frame consumed with
        | none => exact List.prefix_refl _
        | some s' =>
            have hstep : s.committed <+: s'.committed := by
              unfold Scan.frame at hf
              simp only at hf
              split at hf
              · simp at hf
              · split at hf <;> split_ifs at hf <;> obtain rfl := Option.some.inj hf
                all_goals first | exact List.prefix_refl _ | exact List.prefix_append _ _
            exact hstep.trans (ih _ (by rw [List.length_drop]; omega) (input.drop consumed) s' rfl)

/-- What is accepted stays accepted in front of more bytes. -/
theorem recoverFrom_frames_prefix (input rest : Bytes) (s : Scan) :
    (recoverFrom input s).frames <+: (recoverFrom (input ++ rest) s).frames := by
  induction hlen : input.length using Nat.strong_induction_on generalizing input s with
  | _ n ih =>
      by_cases hstop : ∀ r, decodeFrame input ≠ .ok (some r)
      · rw [recoverFrom_stop hstop]
        exact committed_prefix_recoverFrom _ s
      · push Not at hstop
        obtain ⟨⟨frame, consumed⟩, hdec⟩ := hstop
        obtain ⟨hle, hpos, happ⟩ := decodeFrame_append hdec rest
        rw [recoverFrom_frame hdec, recoverFrom_frame happ]
        cases hf : s.frame frame consumed with
        | none => exact List.prefix_refl _
        | some s' =>
            rw [List.drop_append_of_le_length hle]
            exact ih _ (by rw [List.length_drop]; omega) (input.drop consumed) s' rfl

theorem recover_frames_prefix (buf rest : Bytes) :
    (recoverCommittedFrames buf).frames <+: (recoverCommittedFrames (buf ++ rest)).frames :=
  recoverFrom_frames_prefix buf rest (.between 0 [])

/-! ### Logs -/

/-- A log that is cut, continued, or recovered from its valid prefix. -/
theorem wal_recovery {txns : List LoggedTxn} (h : ∀ t ∈ txns, t.Readable) :
    (∀ cut, recoverCommittedFrames ((LoggedTxn.log txns).take cut) =
      ⟨(LoggedTxn.within cut txns).flatMap LoggedTxn.frames,
        (LoggedTxn.log (LoggedTxn.within cut txns)).length⟩) ∧
    (∀ tail, txns.flatMap LoggedTxn.frames <+:
      (recoverCommittedFrames (LoggedTxn.log txns ++ tail)).frames) ∧
    ∀ buf, recoverCommittedFrames (buf.take (recoverCommittedFrames buf).validPrefixLen) =
      recoverCommittedFrames buf :=
  ⟨LoggedTxn.recover_take h, LoggedTxn.frames_prefix h, recover_validPrefix⟩

/-- Two operations under a limit of four bytes: a frame that continues, and one that commits. -/
def twoClears : LoggedTxn where
  txnSeq := 1
  ops := [.clear 1, .clear 2]
  maxPayload := 4
  frames := [⟨1, flagContinues, [.clear 1]⟩, ⟨1, flagCommit, [.clear 2]⟩]
  bytes := ((encodeTxnFramesLimited 1 [.clear 1, .clear 2] 4).toOption).getD []
  ops_ne := List.cons_ne_nil _ _
  framed := rfl
  encoded := by decide +kernel

theorem wal_recovery_split :
    (∀ cut, recoverCommittedFrames ((LoggedTxn.log [twoClears, twoClears]).take cut) =
      ⟨(LoggedTxn.within cut [twoClears, twoClears]).flatMap LoggedTxn.frames,
        (LoggedTxn.log (LoggedTxn.within cut [twoClears, twoClears])).length⟩) ∧
    (∀ tail, [twoClears, twoClears].flatMap LoggedTxn.frames <+:
      (recoverCommittedFrames (LoggedTxn.log [twoClears, twoClears] ++ tail)).frames) ∧
    ∀ buf, recoverCommittedFrames (buf.take (recoverCommittedFrames buf).validPrefixLen) =
      recoverCommittedFrames buf :=
  @wal_recovery [twoClears, twoClears] (by
    have hread : twoClears.Readable := by
      rw [LoggedTxn.Readable]
      decide +kernel
    simpa using hread)

/-- A transaction of one operation is one frame. -/
theorem exists_logged (txnSeq : UInt64) {op : WalOp} {max : UInt32}
    (h : opEncodedLen op + 1 ≤ max.toNat) : ∃ (t : LoggedTxn) (b : Bytes),
      t.frames = [⟨txnSeq, flagCommit, [op]⟩] ∧ t.bytes = [b] ∧
        encodeFrameLimited ⟨txnSeq, flagCommit, [op]⟩ max.toNat = .ok b := by
  have hpack : packOps max.toNat [op] [] [] 0 = .ok [[op]] := by
    rw [packOps, if_pos (show List.isEmpty [] = true from rfl), if_neg (Nat.not_lt.mpr h)]
    rfl
  have hframed : txnFrames txnSeq [op] max.toNat = .ok [⟨txnSeq, flagCommit, [op]⟩] := by
    rw [txnFrames, hpack]
    rfl
  have hlen : (encodeOps [op]).length ≤ max.toNat := by
    rw [length_encodeOps, opsLen_singleton]
    exact h
  obtain ⟨b, hb⟩ : ∃ b, encodeFrameLimited ⟨txnSeq, flagCommit, [op]⟩ max.toNat = .ok b := by
    rw [encodeFrameLimited, if_neg (Nat.not_lt.mpr hlen)]
    exact ⟨_, rfl⟩
  have hencoded : encodeTxnFramesLimited txnSeq [op] max.toNat = .ok [b] := by
    rw [encodeTxn_eq (List.cons_ne_nil _ _), hframed]
    show encodeFrames max.toNat [_] = _
    rw [encodeFrames, hb]
    rfl
  exact ⟨⟨txnSeq, [op], max, _, [b], List.cons_ne_nil _ _, hframed, hencoded⟩, b, rfl, rfl, hb⟩

/-- One record of 64 MiB, under a limit that the recovery does not share. -/
theorem readable_needed : ¬ ∀ (txns : List LoggedTxn) (cut : ℕ),
    recoverCommittedFrames ((LoggedTxn.log txns).take cut) =
      ⟨(LoggedTxn.within cut txns).flatMap LoggedTxn.frames,
        (LoggedTxn.log (LoggedTxn.within cut txns)).length⟩ := by
  intro h
  obtain ⟨value, hvalue⟩ : ∃ value : Bytes, value.length = maxFramePayloadLimit :=
    ⟨List.replicate maxFramePayloadLimit 0, List.length_replicate⟩
  have hbytes : bytesLen value = 4 + maxFramePayloadLimit := by
    rw [bytesLen, hvalue]
    rfl
  have hop : opEncodedLen (.put 1 [] value) = 7 + maxFramePayloadLimit := by
    rw [opEncodedLen, hbytes]
    show 1 + 1 + 1 + _ = _
    omega
  have hpayload : (encodeOps [.put 1 [] value]).length = 8 + maxFramePayloadLimit := by
    rw [length_encodeOps, opsLen_singleton, hop]
    show 7 + maxFramePayloadLimit + 1 = _
    omega
  obtain ⟨t, b, hframes, hbs, hb⟩ := @exists_logged 1 _ 0xFFFFFFFF
    (show opEncodedLen (.put 1 [] value) + 1 ≤ _ by rw [hop]; decide)
  have himage : t.image = b := by
    rw [LoggedTxn.image, hbs]
    exact List.flatten_singleton
  -- the recovery stops at the frame
  have hstop : recoverCommittedFrames b = ⟨[], 0⟩ := by
    have herror := decodeFrame_tooLarge hb (by rw [hpayload]; omega) (by rw [hpayload]; decide) []
    rw [List.append_nil] at herror
    refine recoverFrom_stop (s := .start) fun r hr => ?_
    rw [herror] at hr
    cases hr
  have hall := h [t] b.length
  rw [LoggedTxn.log_cons, LoggedTxn.log_nil, List.append_nil, himage, List.take_length, hstop,
    LoggedTxn.within, himage, if_pos le_rfl] at hall
  have hnone := congrArg RecoveredWal.frames hall
  rw [List.flatMap_cons, hframes] at hnone
  cases hnone

end BoaIdb.Fs
