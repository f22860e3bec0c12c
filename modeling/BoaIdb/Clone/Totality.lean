import BoaIdb.Clone.Visits

/-!
When decoding untrusted bytes returns.

A big integer and a buffer add the length that they announce to the offset before it is
compared with the input, and an array allocates the slots that it announces; every other length
is compared with the input first. A run stops without a result exactly when it enters one of the
former with a sum that is not a `usize`, or an array whose slots no allocation holds.
-/

namespace BoaIdb.Clone

open StreamReader

/-- The length that a big integer or a buffer announces behind its tag. -/
def announcedBy (tag : UInt8) : Decoder ℕ :=
  if tag = tagBigInt then do
    let _ ← readByte
    decodeUsize
  else if tag = tagArrayBuffer then do
    let _ ← decodeUsize
    decodeUsize
  else fail (.unknownTag tag)

/-- A length is announced here that ends behind the largest `usize`. -/
def Visit.LongField (w : Visit) : Prop :=
  ∃ len t, (readByte >>= announcedBy).run w.stream = .ok (len, t) ∧ usizeBound ≤ t.offset + len

/-- An array whose header passes its checks announces more slots than an allocation holds. -/
def Visit.HugeArray (env : CodecEnv) (limits : LimitConfig) (w : Visit) : Prop :=
  w.stream.input.head? = some tagArray ∧ ∃ length itemsCount t,
    (decodeArrayHeader limits).run w.opened = .ok ((length, itemsCount), t) ∧
      isizeBound ≤ length * env.slotSize

/-- The value that is entered here stops the run by a length of its own. -/
def Visit.Panics (env : CodecEnv) (limits : LimitConfig) (w : Visit) : Prop :=
  w.LongField ∨ w.HugeArray env limits

/-! ### The two unchecked lengths -/

section Overflows

variable {room : ℕ} {α β : Type} {d : Decoder α} {f : α → Decoder β} {s : Stream (List ScValue)}

theorem overflow_bind_iff (h : Plain room .overflow d) (hs : s.total < room) :
    (d >>= f).run s = .error .overflow ↔
      ∃ a t, d.run s = .ok (a, t) ∧ (f a).run t = .error .overflow := by
  constructor
  · intro hrun
    rcases run_bind_error hrun with hd | hf
    · exact absurd hd (h.never hs)
    · exact hf
  · rintro ⟨a, t, hd, hf⟩
    rw [run_bind_of_ok hd]
    exact hf

theorem overflow_before_iff (h : ∀ (room : ℕ) a, Plain room .overflow (f a)) :
    (d >>= f).run s = .error .overflow ↔ d.run s = .error .overflow := by
  constructor
  · intro hrun
    rcases run_bind_error hrun with hd | ⟨a, t, -, hf⟩
    · exact hd
    · exact absurd hf ((h (t.total + 1) a).never (Nat.lt_succ_self _))
  · exact run_bind_of_error

theorem overflow_readBytes_iff {n : ℕ} :
    (readBytes n).run s = .error .overflow ↔ usizeBound ≤ s.offset + n := by
  simp only [StateT.run, readBytes, takeBytes]
  split
  next h => exact ⟨fun _ => h, fun _ => rfl⟩
  next h =>
    refine ⟨fun hrun => ?_, fun h' => absurd h' h⟩
    split at hrun
    · cases hrun
    · cases hrun

/-- A length and then as many bytes: the sum with the offset is what can go wrong. -/
theorem overflow_field_iff {f : Bytes → Decoder β}
    (h : ∀ (room : ℕ) bytes, Plain room .overflow (f bytes)) :
    (decodeUsize >>= fun len => readBytes len >>= f).run s = .error .overflow ↔
      ∃ len t, decodeUsize.run s = .ok (len, t) ∧ usizeBound ≤ t.offset + len := by
  rw [overflow_bind_iff plain_decodeUsize (Nat.lt_succ_self s.total)]
  refine exists_congr fun len => exists_congr fun t => and_congr_right fun _ => ?_
  rw [overflow_before_iff h, overflow_readBytes_iff]

/-- A step before a length. -/
theorem exists_field_iff :
    (∃ a t, d.run s = .ok (a, t) ∧
        ∃ len u, decodeUsize.run t = .ok (len, u) ∧ usizeBound ≤ u.offset + len) ↔
      ∃ len u, (d >>= fun _ => decodeUsize).run s = .ok (len, u) ∧ usizeBound ≤ u.offset + len := by
  constructor
  · rintro ⟨a, t, hd, len, u, hlen, hlong⟩
    exact ⟨len, u, by rw [run_bind_of_ok hd]; exact hlen, hlong⟩
  · rintro ⟨len, u, hrun, hlong⟩
    obtain ⟨a, t, hd, hlen⟩ := run_bind_ok hrun
    exact ⟨a, t, hd, len, u, hlen, hlong⟩

theorem overflow_bigInt_iff (env : CodecEnv) :
    (decodeBigIntValue env >>= fun n => pure (ScValue.bigInt n)).run s = .error .overflow ↔
      ∃ len t, (announcedBy tagBigInt).run s = .ok (len, t) ∧ usizeBound ≤ t.offset + len := by
  rw [overflow_before_iff fun _ _ => plain_pure _]
  rw [show announcedBy tagBigInt = readByte >>= fun _ => decodeUsize from rfl]
  rw [← exists_field_iff, decodeBigIntValue,
    overflow_bind_iff plain_readByte (Nat.lt_succ_self s.total)]
  refine exists_congr fun signByte => exists_congr fun t => and_congr_right fun _ => ?_
  exact overflow_field_iff fun _ _ => (plain_pure _).ite <| (plain_pure _).ite plain_fail

theorem overflow_arrayBuffer_iff :
    decodeArrayBufferData.run s = .error .overflow ↔
      ∃ len t, (announcedBy tagArrayBuffer).run s = .ok (len, t) ∧ usizeBound ≤ t.offset + len := by
  rw [show announcedBy tagArrayBuffer = decodeUsize >>= fun _ => decodeUsize from rfl]
  rw [← exists_field_iff, decodeArrayBufferData,
    overflow_bind_iff plain_decodeUsize (Nat.lt_succ_self s.total)]
  refine exists_congr fun raw => exists_congr fun t => and_congr_right fun _ => ?_
  exact overflow_field_iff fun _ _ => plain_pure _

end Overflows

/-! ### Runs -/

section Runs

variable {env : CodecEnv} {limits : LimitConfig} {w : Visit} {tag : UInt8} {rest : Bytes}

theorem not_panics_nil (hs : w.stream.input = []) : ¬ w.Panics env limits := by
  rintro (⟨len, t, hrun, -⟩ | ⟨htag, -⟩)
  · obtain ⟨b, u, hbyte, -⟩ := run_bind_ok hrun
    simp only [StateT.run, readByte, hs] at hbyte
    cases hbyte
  · rw [hs] at htag
    cases htag

theorem not_hugeArray_other (hs : w.stream.input = tag :: rest) (harray : tag ≠ tagArray) :
    ¬ w.HugeArray env limits := by
  rintro ⟨htag, -⟩
  rw [hs] at htag
  exact harray (Option.some.inj htag)

theorem longField_iff (hs : w.stream.input = tag :: rest) :
    w.LongField ↔ ∃ len t,
      (announcedBy tag).run ⟨w.stream.offset + 1, rest, w.stream.kept⟩ = .ok (len, t) ∧
        usizeBound ≤ t.offset + len := by
  have hbyte : readByte.run w.stream = .ok (tag, ⟨w.stream.offset + 1, rest, w.stream.kept⟩) := by
    simp only [StateT.run, readByte, hs]
  rw [Visit.LongField, run_bind_of_ok hbyte]

theorem not_longField_other (hs : w.stream.input = tag :: rest) (hbig : tag ≠ tagBigInt)
    (hbuffer : tag ≠ tagArrayBuffer) : ¬ w.LongField := by
  rw [longField_iff hs, announcedBy, if_neg hbig, if_neg hbuffer]
  rintro ⟨len, t, hrun, -⟩
  cases hrun

/-- A value that owns no slot stops the run exactly by its own length. -/
theorem overflow_leaf_iff {levels : ℕ} (hs : w.stream.input = tag :: rest)
    (htag : isObjectTag tag = false) (htotal : w.stream.total < 2 ^ 63) :
    (decodeValueLevels env limits (levels + 1)).run w.stream = .error .overflow ↔
      w.Panics env limits := by
  have harray : tag ≠ tagArray := by
    rintro rfl
    cases htag
  rw [run_leaf hs, Visit.Panics, or_iff_left (not_hugeArray_other hs harray)]
  by_cases hbig : tag = tagBigInt
  · subst hbig
    rw [longField_iff hs, ← overflow_bigInt_iff env]
    rfl
  · have hbuffer : tag ≠ tagArrayBuffer := by
      rintro rfl
      cases htag
    have hplain : Plain (2 ^ 63) .overflow
        (decodeTagged env limits (decodeValueLevels env limits levels) tag) :=
      plain_decodeTagged env limits _ (by decide) htag fun h => absurd h hbig
    refine ⟨fun hrun => absurd hrun (hplain.never ?_), fun hlong =>
      absurd hlong (not_longField_other hs hbig hbuffer)⟩
    rw [Stream.total, hs, List.length_cons] at htotal
    show w.stream.offset + 1 + rest.length < 2 ^ 63
    omega

theorem opened_total (hs : w.stream.input = tag :: rest) : w.opened.total = w.stream.total := by
  rw [Stream.total, Stream.total, Visit.opened, hs, List.length_cons, List.tail_cons]
  exact (Nat.add_right_comm _ 1 _).trans rfl

theorem overflow_object {levels : ℕ} (hs : w.stream.input = tag :: rest)
    (htag : isObjectTag tag = true) :
    (decodeValueLevels env limits (levels + 1)).run w.stream = .error .overflow ↔
      (decodeBody (decodeValueLevels env limits levels) env limits tag).run w.opened =
        .error .overflow := by
  rw [run_object hs htag]
  cases (decodeBody (decodeValueLevels env limits levels) env limits tag).run w.opened with
  | error e => exact Iff.rfl
  | ok r => exact ⟨fun h => (by cases h), fun h => (by cases h)⟩

/-- An array stops by its slots, or by a value nested in it. -/
theorem overflow_array_iff {levels : ℕ} (hs : w.stream.input = tagArray :: rest)
    (htotal : w.opened.total < 2 ^ 63) :
    (decodeArrayValue (decodeValueLevels env limits levels) env limits).run w.opened =
        .error .overflow ↔
      w.HugeArray env limits ∨
        ∃ t ∈ arrayCalls (decodeValueLevels env limits levels) env limits w.opened,
          (decodeValueLevels env limits levels).run t = .error .overflow := by
  have hheader : Plain (2 ^ 63) .overflow (decodeArrayHeader limits) := plain_decodeArrayHeader
  have htag : w.stream.input.head? = some tagArray := by
    rw [hs]
    rfl
  rw [Visit.HugeArray, and_iff_right htag, decodeArrayValue, arrayCalls]
  cases hrun : (decodeArrayHeader limits).run w.opened with
  | error e =>
      rw [run_bind_of_error hrun, after, hrun]
      refine ⟨fun h => ?_, ?_⟩
      · obtain rfl := Except.error.inj h
        exact absurd hrun (hheader.never htotal)
      · rintro (⟨_, _, _, h, -⟩ | ⟨t, ht, -⟩)
        · cases h
        · cases ht
  | ok r =>
      obtain ⟨⟨length, itemsCount⟩, t⟩ := r
      rw [run_bind_of_ok hrun, after_of_ok hrun]
      dsimp only
      by_cases hslots : isizeBound ≤ length * env.slotSize
      · rw [if_pos hslots]
        exact iff_of_true rfl (.inl ⟨length, itemsCount, t, rfl, hslots⟩)
      · rw [if_neg hslots, if_neg hslots]
        have htraces : Traces (2 ^ 63) .overflow _ (decodeElements _ length itemsCount)
            (elementCalls (decodeValueLevels env limits levels) length itemsCount) :=
          traces_elements total_of_run (by decide) length itemsCount
        have hleft : t.total < 2 ^ 63 := by rwa [(hheader.skips hrun).total]
        constructor
        · exact fun h => .inr (htraces.blames hleft h)
        · rintro (⟨_, _, _, h, hslots'⟩ | ⟨u, hu, hcall⟩)
          · cases h
            exact absurd hslots' hslots
          · exact htraces.passes hu hcall

theorem decodeUsize_kept {s t : Stream (List ScValue)} {len : ℕ} (kept : List ScValue)
    (h : decodeUsize.run s = .ok (len, t)) :
    decodeUsize.run { s with kept := kept } = .ok (len, { t with kept := kept }) := by
  obtain ⟨v, u, hv, hlen⟩ := run_bind_ok h
  cases hlen
  simp only [StateT.run, decodeUvarint] at hv
  split at hv
  · cases hv
  next val rest hloop =>
    cases hv
    refine (run_bind_of_ok ?_).trans rfl
    simp only [StateT.run, decodeUvarint, hloop]

/-- What a buffer announces does not depend on the memo table. -/
theorem exists_long_kept (s : Stream (List ScValue)) (kept : List ScValue) :
    (∃ len t, (announcedBy tagArrayBuffer).run { s with kept := kept } = .ok (len, t) ∧
        usizeBound ≤ t.offset + len) ↔
      ∃ len t, (announcedBy tagArrayBuffer).run s = .ok (len, t) ∧ usizeBound ≤ t.offset + len := by
  have hkept {s t : Stream (List ScValue)} {len : ℕ} (kept : List ScValue)
      (h : (announcedBy tagArrayBuffer).run s = .ok (len, t)) :
      (announcedBy tagArrayBuffer).run { s with kept := kept } =
        .ok (len, { t with kept := kept }) := by
    obtain ⟨raw, u, hraw, hlen⟩ := run_bind_ok (d := decodeUsize) (f := fun _ => decodeUsize) h
    exact (run_bind_of_ok (decodeUsize_kept kept hraw)).trans (decodeUsize_kept kept hlen)
  constructor
  · rintro ⟨len, t, hrun, hlong⟩
    exact ⟨len, _, hkept (s := ⟨s.offset, s.input, kept⟩) s.kept hrun, hlong⟩
  · rintro ⟨len, t, hrun, hlong⟩
    exact ⟨len, _, hkept kept hrun, hlong⟩

theorem mem_nested_iff {levels : ℕ} (hs : w.stream.input = tag :: rest)
    (htag : isObjectTag tag = true) {u : Visit} : u ∈ nested env limits levels w ↔
      ∃ t ∈ bodyCalls (decodeValueLevels env limits levels) env limits tag w.opened,
        ⟨w.depth + 1, t, w.number :: w.within⟩ = u := by
  rw [nested_object hs htag, List.mem_map]

/-- What an object kind reads panics by a length of its own, or in a nested value. -/
theorem overflow_body_iff {levels : ℕ} (hs : w.stream.input = tag :: rest)
    (htag : isObjectTag tag = true) (htotal : w.opened.total < 2 ^ 63) :
    (decodeBody (decodeValueLevels env limits levels) env limits tag).run w.opened =
        .error .overflow ↔
      w.Panics env limits ∨
        ∃ t ∈ bodyCalls (decodeValueLevels env limits levels) env limits tag w.opened,
          (decodeValueLevels env limits levels).run t = .error .overflow := by
  have hbigInt : tag ≠ tagBigInt := by
    rintro rfl
    cases htag
  by_cases harray : tag = tagArray
  · subst harray
    have hshort : ¬ w.LongField := not_longField_other hs (by decide) (by decide)
    rw [Visit.Panics, or_iff_right hshort]
    exact overflow_array_iff hs htotal
  have hsmall : ¬ w.HugeArray env limits := not_hugeArray_other hs harray
  rw [Visit.Panics, or_iff_left hsmall]
  by_cases hbuffer : tag = tagArrayBuffer
  · subst hbuffer
    have hlong : w.LongField ↔ decodeArrayBufferData.run w.opened = .error .overflow := by
      rw [longField_iff hs, overflow_arrayBuffer_iff, Visit.opened, hs, List.tail_cons]
      exact (exists_long_kept ⟨w.stream.offset + 1, rest, w.stream.kept⟩ _).symm
    rw [hlong]
    refine ⟨Or.inl, fun h => h.resolve_right ?_⟩
    rintro ⟨t, ht, -⟩
    cases ht
  · have hshort : ¬ w.LongField := not_longField_other hs hbigInt hbuffer
    have htraces : Traces (2 ^ 63) .overflow _ (decodeBody _ env limits tag)
        (bodyCalls (decodeValueLevels env limits levels) env limits tag) :=
      traces_body total_of_run (by decide) env limits fun h => (h.elim harray hbuffer).elim
    rw [or_iff_right hshort]
    refine ⟨htraces.blames htotal, ?_⟩
    rintro ⟨t, ht, hcall⟩
    exact htraces.passes ht hcall

/-- A run panics exactly when it enters a value with too long a length. -/
theorem overflow_iff : ∀ {levels : ℕ} {w : Visit}, w.stream.total < 2 ^ 63 →
    ((decodeValueLevels env limits levels).run w.stream = .error .overflow ↔
      ∃ u ∈ visits env limits levels w, u.Panics env limits)
  | 0, w, _ => by
      refine ⟨fun h => (by cases h), ?_⟩
      rintro ⟨u, hu, -⟩
      cases hu
  | levels + 1, w, htotal => by
      rw [visits]
      simp only [List.mem_cons, exists_eq_or_imp]
      cases hs : w.stream.input with
      | nil =>
          have hnone : w.isObject = false := by
            rw [Visit.isObject, hs]
            rfl
          rw [run_empty hs, nested_leaf hnone]
          refine ⟨fun h => (by cases h), ?_⟩
          rintro (hlong | ⟨u, hu, -⟩)
          · exact absurd hlong (not_panics_nil hs)
          · cases hu
      | cons tag rest =>
          cases htag : isObjectTag tag with
          | false =>
              rw [nested_leaf ((isObject_of_cons hs).trans htag), overflow_leaf_iff hs htag htotal]
              refine ⟨Or.inl, fun h => h.resolve_right ?_⟩
              rintro ⟨u, hu, -⟩
              cases hu
          | true =>
              rw [overflow_object hs htag]
              have hopened : w.opened.total < 2 ^ 63 := by rwa [opened_total hs]
              -- each nested value has the same position and rest together
              have hnested {t : Stream (List ScValue)}
                  (ht : t ∈ bodyCalls (decodeValueLevels env limits levels) env limits tag
                    w.opened) :
                  (decodeValueLevels env limits levels).run t = .error .overflow ↔
                    ∃ u ∈ visits env limits levels ⟨w.depth + 1, t, w.number :: w.within⟩,
                      u.Panics env limits := by
                apply overflow_iff (w := ⟨w.depth + 1, t, w.number :: w.within⟩)
                obtain ⟨before, behind, hsplit⟩ := List.append_of_mem ht
                have htraces : Traces 0 .overflow _ (decodeBody _ env limits tag)
                    (bodyCalls (decodeValueLevels env limits levels) env limits tag) :=
                  traces_body total_of_run (by decide) env limits fun _ => rfl
                show t.total < 2 ^ 63
                rwa [(htraces.reaches hsplit).total total_of_run]
              have hbody : (decodeBody (decodeValueLevels env limits levels) env limits tag).run
                  w.opened = .error .overflow ↔ w.Panics env limits ∨
                    ∃ t ∈ bodyCalls (decodeValueLevels env limits levels) env limits tag w.opened,
                      (decodeValueLevels env limits levels).run t = .error .overflow :=
                overflow_body_iff hs htag hopened
              rw [hbody]
              refine or_congr_right ?_
              simp only [List.mem_flatMap, mem_nested_iff hs htag]
              constructor
              · rintro ⟨t, ht, hcall⟩
                obtain ⟨u, hu, hpanics⟩ := (hnested ht).mp hcall
                exact ⟨u, ⟨_, ⟨t, ht, rfl⟩, hu⟩, hpanics⟩
              · rintro ⟨u, ⟨v, ⟨t, ht, rfl⟩, hu⟩, hpanics⟩
                exact ⟨t, ht, (hnested ht).mpr ⟨u, hu, hpanics⟩⟩

end Runs

/-- Decoding returns a value or an error exactly when it enters no big integer and no buffer
whose length ends behind the largest `usize`, and no array whose slots no allocation holds; and it
never goes below the depth limit. A slice has less than `2 ^ 63` bytes. -/
theorem decodeScf_returns_iff (env : CodecEnv) (limits : LimitConfig) {data : Bytes}
    (hdata : data.length < 2 ^ 63) :
    ((∃ v, decodeScf env limits data = .ok v) ∨
      (∃ e, decodeScf env limits data = .error (.error e)) ↔
      ∀ w ∈ scfVisits env limits data, ¬ w.Panics env limits) ∧
    ∀ w ∈ scfVisits env limits data, w.depth ≤ limits.maxCloneDepth := by
  rw [scfVisits]
  by_cases hframed : Framed limits data
  · rw [if_pos hframed, decodeScf_framed env limits hframed]
    have hpayload : (scfPayload data).length ≤ data.length := by
      rw [scfPayload, List.length_drop, List.length_take]
      omega
    have htotal : (scfStart data).stream.total < 2 ^ 63 := by
      show 0 + (scfPayload data).length < 2 ^ 63
      omega
    have hresult : (scfStart data).result env limits =
        (decodeValueLevels env limits (limits.maxCloneDepth + 1)).run (scfStart data).stream := rfl
    have hiff := @overflow_iff env limits (limits.maxCloneDepth + 1) _ htotal
    rw [← hresult] at hiff
    constructor
    · cases hrun : (scfStart data).result env limits with
      | ok r =>
          rw [hrun] at hiff
          refine ⟨fun _ w hw hlong => ?_, fun _ => .inl ⟨r.1, rfl⟩⟩
          exact nomatch hiff.mpr ⟨w, hw, hlong⟩
      | error e =>
          rw [hrun] at hiff
          cases e with
          | overflow =>
              obtain ⟨w, hw, hlong⟩ := hiff.mp rfl
              refine ⟨?_, fun hno => absurd hlong (hno w hw)⟩
              rintro (⟨v, hv⟩ | ⟨e, he⟩)
              · cases hv
              · cases he
          | error e =>
              refine ⟨fun _ w hw hlong => ?_, fun _ => .inr ⟨e, rfl⟩⟩
              exact nomatch hiff.mpr ⟨w, hw, hlong⟩
    · intro w hw
      have hdepth := depth_of_visits hw
      rw [show (scfStart data).depth = 0 from rfl] at hdepth
      omega
  · rw [if_neg hframed]
    obtain ⟨e, he⟩ := decodeScf_not_framed env limits hframed
    exact ⟨⟨fun _ => nofun, fun _ => .inr ⟨e, he⟩⟩, nofun⟩

/-- An array of `2 ^ 62` slots, where the limit allows them. -/
def hugeArray : Bytes := [tagArray, 0x80, 0x80, 0x80, 0x80, 0x80, 0x80, 0x80, 0x80, 0x40, 0, 0]

example : decodeScf standardEnv { maxValueLen := 2 ^ 63 } (document hugeArray) =
    .error .overflow := by
  rw [decodeScf_document _ _ (by decide), if_neg (by decide)]
  rfl

/-- A big integer that announces as many bytes as a `u64` can count. -/
def longBigInt : Bytes :=
  [tagBigInt, 0, 0xFF, 0xFF, 0xFF, 0xFF, 0xFF, 0xFF, 0xFF, 0xFF, 0xFF, 0x01]

/-- At the default limits. -/
theorem decodeScf_returns_long :
    ((∃ v, decodeScf standardEnv {} (document longBigInt) = .ok v) ∨
        (∃ e, decodeScf standardEnv {} (document longBigInt) = .error (.error e)) ↔
      ∀ w ∈ scfVisits standardEnv {} (document longBigInt), ¬ w.Panics standardEnv {}) ∧
    ∀ w ∈ scfVisits standardEnv {} (document longBigInt),
      w.depth ≤ ({} : LimitConfig).maxCloneDepth :=
  decodeScf_returns_iff standardEnv {} (by
    show (ScfEncoder.new.buf ++ longBigInt ++ _).length < 2 ^ 63
    decide +kernel)

theorem long_bigInt_overflows : ¬ ∀ (env : CodecEnv) (limits : LimitConfig) (data : Bytes),
    data.length < 2 ^ 63 → decodeScf env limits data ≠ .error .overflow := by
  intro h
  refine h standardEnv {} (document longBigInt) (by
    show (ScfEncoder.new.buf ++ longBigInt ++ _).length < 2 ^ 63
    decide +kernel) ?_
  rw [decodeScf_document _ _ (by decide), if_neg (by decide)]
  rfl

end BoaIdb.Clone
