import BoaIdb.Clone.Nested
import BoaIdb.Clone.RoundTrip

/-!
The values that a run of the decoder enters.

`visits` follows the recursion of `decode_value_depth` and lists what it enters, each value
before those nested in it. The objects among them are thereby listed in the order in which
they reserve their slots.
-/

namespace BoaIdb.Clone

open StreamReader

/-- A value that is entered: its depth, where it starts, and the numbers of the objects around
it. -/
structure Visit where
  depth : ℕ
  stream : Stream (List ScValue)
  within : List ℕ

namespace Visit

/-- The number that an object gets here. -/
def number (w : Visit) : ℕ := w.stream.kept.length

def isObject (w : Visit) : Bool := w.stream.input.head?.any isObjectTag

/-- Behind the tag of an object, with its slot reserved. -/
def opened (w : Visit) : Stream (List ScValue) :=
  ⟨w.stream.offset + 1, w.stream.input.tail, w.stream.kept ++ [.undefined]⟩

/-- A value that the object here enters at `t`. -/
def child (w : Visit) (t : Stream (List ScValue)) : Visit :=
  ⟨w.depth + 1, t, w.number :: w.within⟩

/-- What `decode_value_depth` does here. -/
def result (env : CodecEnv) (limits : LimitConfig) (w : Visit) :
    Except DecodeFailure (ScValue × Stream (List ScValue)) :=
  (decodeValueDepth env limits w.depth).run w.stream

end Visit

section Visits

variable (env : CodecEnv) (limits : LimitConfig)

/-- The values that an object enters itself. -/
def nested (levels : ℕ) (w : Visit) : List Visit :=
  match w.stream.input with
  | [] => []
  | tag :: _ =>
      if isObjectTag tag then
        (bodyCalls (decodeValueLevels env limits levels) env limits tag w.opened).map fun t =>
          ⟨w.depth + 1, t, w.number :: w.within⟩
      else []

/-- All values that are entered from here; behind the last level nothing is read. -/
def visits : ℕ → Visit → List Visit
  | 0, _ => []
  | levels + 1, w => w :: (nested env limits levels w).flatMap (visits levels)

/-- What the header and the checksum enclose. -/
def scfPayload (data : Bytes) : Bytes := (data.take (data.length - 4)).drop 8

/-- The checks of `decode_scf` before it decodes the body. -/
def Framed (data : Bytes) : Prop :=
  13 ≤ data.length ∧ data.take 4 = scfMagic ∧ data[4]? = some scfVersion ∧
    UInt32.ofNat (ByteCodec.ofLittleEndian (data.drop (data.length - 4))) =
      crc32c (data.take (data.length - 4)) ∧
    data.length - 4 - 8 ≤ limits.maxValueLen

instance decidableFramed (data : Bytes) : Decidable (Framed limits data) :=
  inferInstanceAs (Decidable (_ ∧ _))

/-- Where the body starts. -/
def scfStart (data : Bytes) : Visit := ⟨0, ⟨0, scfPayload data, []⟩, []⟩

/-- The values that `decode_scf` enters, in order. -/
def scfVisits (data : Bytes) : List Visit :=
  if Framed limits data then visits env limits (limits.maxCloneDepth + 1) (scfStart data) else []

theorem decodeScf_framed {data : Bytes} (h : Framed limits data) :
    decodeScf env limits data = ((scfStart data).result env limits).map Prod.fst := by
  obtain ⟨hlength, hmagic, hversion, hcrc, hsize⟩ := h
  rw [decodeScf]
  rw [if_neg (by omega), if_neg (not_not.mpr hmagic), hversion]
  dsimp only
  rw [if_neg (not_not.mpr rfl), if_neg (by omega), if_neg (not_not.mpr hcrc), if_neg (by omega)]
  rfl

theorem decodeScf_not_framed {data : Bytes} (h : ¬ Framed limits data) :
    ∃ e, decodeScf env limits data = .error (.error e) := by
  rw [decodeScf]
  split
  · exact ⟨_, rfl⟩
  split
  · exact ⟨_, rfl⟩
  next hmagic =>
    split
    · exact ⟨_, rfl⟩
    next version hversion =>
      split
      · exact ⟨_, rfl⟩
      next hsame =>
        split
        · exact ⟨_, rfl⟩
        next hlength =>
          split
          · exact ⟨_, rfl⟩
          next hcrc =>
            split
            · exact ⟨_, rfl⟩
            next hsize =>
              refine absurd ⟨by omega, not_not.mp hmagic, ?_, not_not.mp hcrc, by omega⟩ h
              rw [hversion, not_not.mp hsame]

/-- The document around a body, with its checksum. -/
def document (body : Bytes) : Bytes := (ScfEncoder.new.push body).finish

theorem decodeScf_document {body : Bytes}
    (h : 1 ≤ body.length) : decodeScf env limits (document body) =
      if limits.maxValueLen < body.length then
        .error (.error (.valueTooLarge limits.maxValueLen body.length))
      else ((decodeValueDepth env limits 0).run ⟨0, body, []⟩).map Prod.fst :=
  decodeScf_finish rfl h

/-! ### One level -/

variable {env limits}

theorem decodeValueDepth_eq {levels depth : ℕ} (h : levels + depth = limits.maxCloneDepth + 1) :
    decodeValueDepth env limits depth = decodeValueLevels env limits levels := by
  rw [decodeValueDepth, ← h, Nat.add_sub_cancel]

theorem run_leaf {levels : ℕ} {s : Stream (List ScValue)} {tag : UInt8} {rest : Bytes}
    (hs : s.input = tag :: rest) :
    (decodeValueLevels env limits (levels + 1)).run s =
      (decodeTagged env limits (decodeValueLevels env limits levels) tag).run
        ⟨s.offset + 1, rest, s.kept⟩ := by
  obtain ⟨offset, input, kept⟩ := s
  subst hs
  rfl

theorem run_empty {levels : ℕ} {s : Stream (List ScValue)} (hs : s.input = []) :
    (decodeValueLevels env limits (levels + 1)).run s = .error (.error .unexpectedEof) := by
  obtain ⟨offset, input, kept⟩ := s
  subst hs
  rfl

theorem run_memoized (p : Decoder ScValue) (s : Stream (List ScValue)) :
    (memoized p).run s =
      (p.run { s with kept := s.kept ++ [.undefined] }).map fun r =>
        (r.1, { r.2 with kept := r.2.kept.set s.kept.length r.1 }) := by
  have hopen : (memoized p).run s =
      (p >>= fun value => modifyKept (fun table => table.set s.kept.length value) >>= fun _ =>
        pure value).run { s with kept := s.kept ++ [.undefined] } := rfl
  rw [hopen, StateT.run_bind]
  cases p.run { s with kept := s.kept ++ [.undefined] } with
  | error e => rfl
  | ok r => rfl

theorem run_object {levels : ℕ} {w : Visit} {tag : UInt8} {rest : Bytes}
    (hs : w.stream.input = tag :: rest) (htag : isObjectTag tag = true) :
    (decodeValueLevels env limits (levels + 1)).run w.stream =
      ((decodeBody (decodeValueLevels env limits levels) env limits tag).run w.opened).map fun r =>
        (r.1, { r.2 with kept := r.2.kept.set w.number r.1 }) := by
  rw [run_leaf hs, decodeTagged_object env limits _ htag, run_memoized]
  congr 1
  rw [Visit.opened, hs, List.tail_cons]

theorem nested_leaf {levels : ℕ} {w : Visit} (h : w.isObject = false) :
    nested env limits levels w = [] := by
  rw [nested]
  rw [Visit.isObject] at h
  split
  · rfl
  next tag rest hs =>
    rw [hs] at h
    exact if_neg (Bool.eq_false_iff.mp h)

theorem nested_object {levels : ℕ} {w : Visit} {tag : UInt8} {rest : Bytes}
    (hs : w.stream.input = tag :: rest) (htag : isObjectTag tag = true) :
    nested env limits levels w =
      (bodyCalls (decodeValueLevels env limits levels) env limits tag w.opened).map fun t =>
        ⟨w.depth + 1, t, w.number :: w.within⟩ := by
  rw [nested, hs]
  exact if_pos htag

theorem isObject_of_cons {w : Visit} {tag : UInt8} {rest : Bytes}
    (hs : w.stream.input = tag :: rest) :
    w.isObject = isObjectTag tag := by
  rw [Visit.isObject, hs]
  rfl

/-- Position and rest together stay what they are. -/
theorem total_of_run : ∀ {levels : ℕ} {s t : Stream (List ScValue)} {v : ScValue},
    (decodeValueLevels env limits levels).run s = .ok (v, t) → t.total = s.total
  | 0, s, t, v, h => by cases h
  | levels + 1, s, t, v, h => by
      cases hs : s.input with
      | nil =>
          rw [run_empty hs] at h
          cases h
      | cons tag rest =>
          have htotal : s.total = s.offset + 1 + rest.length := by
            rw [Stream.total, hs, List.length_cons]
            omega
          cases htag : isObjectTag tag with
          | false =>
              rw [run_leaf hs] at h
              have hleaf : Plain 0 .overflow
                  (decodeTagged env limits (decodeValueLevels env limits levels) tag) :=
                plain_decodeTagged env limits _ (by decide) htag fun _ => rfl
              rw [(hleaf.skips h).total, htotal]
              rfl
          | true =>
              let w : Visit := ⟨0, s, []⟩
              rw [show s = w.stream from rfl, run_object (w := w) hs htag] at h
              cases hbody : (decodeBody (decodeValueLevels env limits levels) env limits tag).run
                w.opened with
              | error e =>
                  rw [hbody] at h
                  cases h
              | ok r =>
                  rw [hbody] at h
                  cases h
                  have htraces : Traces 0 .overflow _ (decodeBody _ env limits tag)
                      (bodyCalls (decodeValueLevels env limits levels) env limits tag) :=
                    traces_body total_of_run (by decide) env limits fun _ => rfl
                  have hopened : w.opened.total = s.offset + 1 + rest.length := by
                    rw [Stream.total, Visit.opened, hs]
                    rfl
                  rw [htotal, ← hopened]
                  show r.2.total = w.opened.total
                  exact (htraces.ends hbody).total total_of_run

/-- Nothing is entered below the depth limit. -/
theorem depth_of_visits : ∀ {levels : ℕ} {w u : Visit}, u ∈ visits env limits levels w →
    u.depth < w.depth + levels
  | 0, w, u, h => by cases h
  | levels + 1, w, u, h => by
      rw [visits, List.mem_cons] at h
      rcases h with rfl | h
      · exact Nat.lt_add_of_pos_right (Nat.succ_pos levels)
      · obtain ⟨v, hv, hu⟩ := List.mem_flatMap.mp h
        have hdepth := depth_of_visits hu
        have hnext : v.depth = w.depth + 1 := by
          rw [nested] at hv
          split at hv
          · cases hv
          · split at hv
            · obtain ⟨t, -, rfl⟩ := List.mem_map.mp hv
              rfl
            · cases hv
        omega

end Visits

end BoaIdb.Clone
