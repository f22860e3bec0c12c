import BoaIdb.Clone.Decode
import BoaIdb.Lib.ReaderCalls

/-!
Where the decoder enters nested values.

An object kind reserves its memo slot, and what it reads behind its tag calls the decoder of
nested values on streams that are listed here, in the order in which they are entered.
-/

namespace BoaIdb.Clone

open StreamReader

/-! ### Readers without nested values -/

section Leaves

variable {room : ℕ} {e : ScError}

/-- An error of the decoder's own is no overflow. -/
theorem plain_fail {α : Type} : Plain room .overflow (fail e : Decoder α) :=
  plain_throw nofun

theorem plain_readByte : Plain room .overflow readByte := by
  constructor
  · rintro ⟨offset, input, kept⟩ t b h
    cases input with
    | nil => cases h
    | cons b' rest =>
        cases h
        exact ⟨rfl, (Nat.add_right_comm offset 1 rest.length).trans rfl, Nat.le_add_right _ _⟩
  · rintro ⟨offset, input, kept⟩ _ h
    cases input with
    | nil => cases h
    | cons b rest => cases h

theorem length_of_decodeUvarintLoop {input rest : Bytes} : ∀ {shift result val : ℕ},
    decodeUvarintLoop shift result input = .ok (val, rest) → rest.length ≤ input.length := by
  induction input with
  | nil =>
      intro shift result val h
      cases h
  | cons b input ih =>
      intro shift result val h
      rw [decodeUvarintLoop] at h
      split at h
      · cases h
        exact Nat.le_succ _
      · split at h
        · cases h
        · exact Nat.le_succ_of_le (ih h)

theorem plain_decodeUvarint : Plain room .overflow decodeUvarint := by
  constructor
  · intro s t v h
    simp only [StateT.run, decodeUvarint] at h
    split at h
    · cases h
    next val rest hloop =>
      cases h
      have hle := length_of_decodeUvarintLoop hloop
      refine ⟨rfl, ?_, Nat.le_add_right _ _⟩
      show s.offset + (s.input.length - rest.length) + rest.length = s.offset + s.input.length
      omega
  · intro s _ h
    simp only [StateT.run, decodeUvarint] at h
    split at h
    · cases h
    · cases h

theorem plain_decodeUsize : Plain room .overflow decodeUsize :=
  plain_decodeUvarint.bind fun _ => plain_pure _

/-- The header of an array makes no calls, whatever length it announces. -/
theorem plain_decodeArrayHeader {limits : LimitConfig} :
    Plain room .overflow (decodeArrayHeader limits) :=
  plain_decodeUsize.bind fun _ => plain_decodeUsize.bind fun _ =>
    plain_fail.ite <| plain_fail.ite <|
    plain_remaining.bind fun _ => plain_fail.ite (plain_pure _)

theorem plain_decodeIvarint : Plain room .overflow decodeIvarint :=
  plain_decodeUvarint.bind fun _ => plain_pure _

/-- A fixed number of bytes behind an offset that is not near the end of the numbers. -/
theorem plain_readBytes {n : ℕ} (h : room + n ≤ usizeBound) :
    Plain room .overflow (readBytes n) :=
  plain_takeBytes nofun h

/-- What leaves the state alone, whether it may overflow or not. -/
theorem skips_readBytes (n : ℕ) : Plain 0 .overflow (readBytes n) :=
  ⟨skips_takeBytes, fun h => absurd h (Nat.not_lt_zero _)⟩

theorem plain_readF64Le (h : room + 8 ≤ usizeBound) : Plain room .overflow readF64Le :=
  (plain_readBytes h).bind fun _ => plain_pure _

theorem plain_decodeUnits (h : room + 2 ≤ usizeBound) (msg : ℕ → String) :
    Plain room .overflow (decodeUnits msg) :=
  plain_decodeUsize.bind fun _ => plain_fail.ite <| plain_remaining.bind fun _ =>
    plain_fail.ite <| plain_repeatRead ((plain_readBytes h).bind fun _ => plain_pure _) _

theorem plain_decodeRegExpValue (h : room + 2 ≤ usizeBound) :
    Plain room .overflow decodeRegExpValue :=
  (plain_decodeUnits h _).bind fun _ => plain_decodeUvarint.bind fun _ =>
    plain_fail.ite (plain_pure _)

theorem plain_decodeMemoRef : Plain room .overflow decodeMemoRef := by
  refine plain_decodeUvarint.bind fun idx => ?_
  constructor
  · intro s t v h
    obtain ⟨memo, u, hkept, hmatch⟩ := run_bind_ok h
    cases hkept
    split at hmatch
    · cases hmatch
      exact Skips.refl _
    · cases hmatch
  · intro s _ h
    rcases run_bind_error h with hkept | ⟨memo, u, hkept, hmatch⟩
    · cases hkept
    · split at hmatch
      · cases hmatch
      · cases hmatch

/-- A big integer leaves the state alone, whatever length it announces. -/
theorem skips_decodeBigIntValue (env : CodecEnv) : Plain 0 .overflow (decodeBigIntValue env) :=
  plain_readByte.bind fun _ => plain_decodeUsize.bind fun _ => (skips_readBytes _).bind fun _ =>
    (plain_pure _).ite <| (plain_pure _).ite plain_fail

theorem skips_decodeArrayBufferData : Plain 0 .overflow decodeArrayBufferData :=
  plain_decodeUsize.bind fun _ => plain_decodeUsize.bind fun _ => (skips_readBytes _).bind fun _ =>
    plain_pure _

end Leaves

/-! ### The calls of each object kind -/

section Calls

variable (p : Decoder ScValue)

/-- The calls of what stands behind a checked count. -/
def checkedCalls (count : ℕ) (calls : Calls (List ScValue)) : Calls (List ScValue) :=
  after (remaining : Decoder ℕ) fun left => if left < count then fun _ => [] else calls

def itemCalls (length : ℕ) : ℕ → List (Option ScValue) → Calls (List ScValue)
  | 0, _ => fun _ => []
  | count + 1, elements =>
      after decodeUsize fun index =>
        if length ≤ index then fun _ => []
        else fun s => [s] ++ after p (fun val =>
          if (elements[index]?.getD none).isSome then fun _ => []
          else itemCalls length count (elements.set index (some val))) s

def propCalls : Calls (List ScValue) := after decodeStringUnits fun _ s => [s]

def pairCalls : Calls (List ScValue) := fun s => [s] ++ after p (fun _ t => [t]) s

def elementCalls (length itemsCount : ℕ) : Calls (List ScValue) := fun s =>
  itemCalls p length itemsCount (List.replicate length none) s ++
    after (decodeItems p length itemsCount (List.replicate length none)) (fun _ =>
      after decodeUsize fun extraCount =>
        checkedCalls extraCount (each (decodeProp p) propCalls extraCount)) s

def arrayCalls (env : CodecEnv) (limits : LimitConfig) : Calls (List ScValue) :=
  after (decodeArrayHeader limits) fun header =>
    if isizeBound ≤ header.1 * env.slotSize then fun _ => []
    else elementCalls p header.1 header.2

def objectCalls : Calls (List ScValue) :=
  after decodeUsize fun count => checkedCalls count (each (decodeProp p) propCalls count)

def mapCalls : Calls (List ScValue) :=
  after decodeUsize fun count => checkedCalls count (each (decodePair p) (pairCalls p) count)

def setCalls : Calls (List ScValue) :=
  after decodeUsize fun count => checkedCalls count (each p (fun s => [s]) count)

def optionalCalls (present : Bool) (calls : Calls (List ScValue)) : Calls (List ScValue) :=
  if present then calls else fun _ => []

def errorCalls : Calls (List ScValue) :=
  after readByte fun kindByte =>
    if (ScErrorKind.fromU8 kindByte).isSome then
      after readByte fun flags =>
        after (decodeOptional (flags &&& 1 ≠ 0) decodeStringUnits) fun _ s =>
          optionalCalls (flags &&& 2 ≠ 0) (fun t => [t]) s ++
            after (decodeOptional (flags &&& 2 ≠ 0) p)
              (fun _ => optionalCalls (flags &&& 4 ≠ 0) (setCalls p)) s
    else fun _ => []

def typedArrayCalls : Calls (List ScValue) :=
  after readByte fun kindByte =>
    if (ScTypedArrayKind.fromU8 kindByte).isSome then
      after decodeUvarint fun _ => after decodeUvarint fun _ s => [s]
    else fun _ => []

def dataViewCalls : Calls (List ScValue) :=
  after decodeUvarint fun _ => after decodeUvarint fun _ s => [s]

def boxedCalls : Calls (List ScValue) :=
  after readByte fun subtag => if boxedBig < subtag then fun _ => [] else fun s => [s]

/-- What an object kind reads between reserving its slot and filling it. -/
def decodeBody (env : CodecEnv) (limits : LimitConfig) (tag : UInt8) : Decoder ScValue :=
  if tag = tagArray then decodeArrayValue p env limits
  else if tag = tagObject then decodeObjectValue p
  else if tag = tagMap then decodeMapValue p
  else if tag = tagSet then decodeSetValue p
  else if tag = tagError then decodeErrorValue p
  else if tag = tagArrayBuffer then decodeArrayBufferData
  else if tag = tagTypedArray then decodeTypedArrayValue p
  else if tag = tagDataView then decodeDataViewValue p
  else decodeBoxedValue p

def bodyCalls (env : CodecEnv) (limits : LimitConfig) (tag : UInt8) : Calls (List ScValue) :=
  if tag = tagArray then arrayCalls p env limits
  else if tag = tagObject then objectCalls p
  else if tag = tagMap then mapCalls p
  else if tag = tagSet then setCalls p
  else if tag = tagError then errorCalls p
  else if tag = tagArrayBuffer then fun _ => []
  else if tag = tagTypedArray then typedArrayCalls
  else if tag = tagDataView then dataViewCalls
  else boxedCalls

end Calls

section Traces

variable {room : ℕ} {p : Decoder ScValue}

theorem traces_checked {α : Type} {count : ℕ} {next : Decoder α} {calls : Calls (List ScValue)}
    (h : Traces room .overflow p next calls) :
    Traces room .overflow p (checkCount count next) (checkedCalls count calls) :=
  Traces.behind plain_remaining fun _ => h.guarded nofun

variable (hp : ∀ {s t : Stream (List ScValue)} {v : ScValue}, p.run s = .ok (v, t) →
    t.total = s.total)
  (hroom : room + 2 ≤ usizeBound)

include hp in
theorem traces_items (length : ℕ) : ∀ (count : ℕ) (elements : List (Option ScValue)),
    Traces room .overflow p (decodeItems p length count elements)
      (itemCalls p length count elements)
  | 0, elements => traces_plain (plain_pure elements)
  | count + 1, elements =>
      Traces.behind plain_decodeUsize fun index => Traces.guarded nofun <|
        traces_call.bind hp fun val =>
          (traces_items length count (elements.set index (some val))).guarded nofun

include hp in
theorem traces_pair : Traces room .overflow p (decodePair p) (pairCalls p) :=
  traces_call.bind hp fun _ => traces_call.before hp fun _ => plain_pure _

include hp in
theorem traces_set : Traces room .overflow p (decodeSetValue p) (setCalls p) :=
  Traces.behind plain_decodeUsize fun count =>
    traces_checked ((traces_call.repeated hp count).before hp fun _ => plain_pure _)

include hp in
theorem traces_map : Traces room .overflow p (decodeMapValue p) (mapCalls p) :=
  Traces.behind plain_decodeUsize fun count =>
    traces_checked (((traces_pair hp).repeated hp count).before hp fun _ => plain_pure _)

include hp in
theorem traces_errors : Traces room .overflow p (decodeErrors p) (setCalls p) :=
  Traces.behind plain_decodeUsize fun count => traces_checked (traces_call.repeated hp count)

include hp in
theorem traces_optional {α : Type} {present : Bool} {q : Decoder α} {calls : Calls (List ScValue)}
    (h : Traces room .overflow p q calls) :
    Traces room .overflow p (decodeOptional present q) (optionalCalls present calls) := by
  cases present with
  | false => exact traces_plain (plain_pure none)
  | true => exact h.before hp fun _ => plain_pure _

include hp in
theorem traces_dataView : Traces room .overflow p (decodeDataViewValue p) dataViewCalls :=
  Traces.behind plain_decodeUvarint fun _ => Traces.behind plain_decodeUvarint fun _ =>
    traces_call.before hp fun _ => plain_pure _

include hp in
theorem traces_typedArray : Traces room .overflow p (decodeTypedArrayValue p) typedArrayCalls := by
  apply Traces.behind plain_readByte
  intro kindByte
  cases ScTypedArrayKind.fromU8 kindByte with
  | none => exact traces_plain plain_fail
  | some kind =>
      exact Traces.behind plain_decodeUvarint fun _ => Traces.behind plain_decodeUvarint fun _ =>
        traces_call.before hp fun _ => plain_pure _

include hp in
theorem traces_boxed : Traces room .overflow p (decodeBoxedValue p) boxedCalls := by
  refine Traces.behind plain_readByte fun subtag => Traces.guarded nofun ?_
  refine traces_call.before hp fun inner => ?_
  cases boxedOf subtag inner with
  | error e => exact plain_fail
  | ok value => exact plain_pure value

variable (hroom : room + 2 ≤ usizeBound)

include hp hroom

theorem traces_prop : Traces room .overflow p (decodeProp p) propCalls :=
  Traces.behind (plain_decodeUnits hroom _) fun _ => traces_call.before hp fun _ => plain_pure _

theorem traces_object : Traces room .overflow p (decodeObjectValue p) (objectCalls p) :=
  Traces.behind plain_decodeUsize fun count =>
    traces_checked (((traces_prop hp hroom).repeated hp count).before hp fun _ => plain_pure _)

theorem traces_elements (length itemsCount : ℕ) :
    Traces room .overflow p (decodeElements p length itemsCount)
      (elementCalls p length itemsCount) :=
  (traces_items hp length itemsCount _).bind hp fun _ =>
    Traces.behind plain_decodeUsize fun extraCount => traces_checked <|
      ((traces_prop hp hroom).repeated hp extraCount).before hp fun _ => plain_pure _

/-- An array, whether its slots can be allocated or not. -/
theorem traces_array (env : CodecEnv) (limits : LimitConfig) (hnone : room = 0) :
    Traces room .overflow p (decodeArrayValue p env limits) (arrayCalls p env limits) := by
  refine Traces.behind plain_decodeArrayHeader fun ⟨length, itemsCount⟩ => ?_
  dsimp only
  by_cases hslots : isizeBound ≤ length * env.slotSize
  · have hthrow : Plain room .overflow (throw .overflow : Decoder ScValue) :=
      ⟨fun h => (by cases h), fun h => absurd h (hnone ▸ Nat.not_lt_zero _)⟩
    rw [if_pos hslots, if_pos hslots]
    exact traces_plain hthrow
  · rw [if_neg hslots, if_neg hslots]
    exact traces_elements hp hroom length itemsCount

theorem traces_error : Traces room .overflow p (decodeErrorValue p) (errorCalls p) := by
  apply Traces.behind plain_readByte
  intro kindByte
  cases ScErrorKind.fromU8 kindByte with
  | none => exact traces_plain plain_fail
  | some kind =>
      refine Traces.behind plain_readByte fun flags => Traces.behind ?_ fun message => ?_
      · rw [decodeOptional]
        split
        · exact (plain_decodeUnits hroom _).bind fun _ => plain_pure _
        · exact plain_pure none
      · exact (traces_optional hp traces_call).bind hp fun _ =>
          (traces_optional hp (traces_errors hp)).before hp fun _ => plain_pure _

/-- Arrays and buffers are the kinds whose own length may stop the run. -/
theorem traces_body (env : CodecEnv) (limits : LimitConfig) {tag : UInt8}
    (hown : tag = tagArray ∨ tag = tagArrayBuffer → room = 0) :
    Traces room .overflow p (decodeBody p env limits tag) (bodyCalls p env limits tag) := by
  rw [decodeBody, bodyCalls]
  split
  next htag => exact traces_array hp hroom env limits (hown (.inl htag))
  split
  · exact traces_object hp hroom
  split
  · exact traces_map hp
  split
  · exact traces_set hp
  split
  · exact traces_error hp hroom
  split
  next htag =>
    rw [hown (.inr htag)]
    exact traces_plain skips_decodeArrayBufferData
  split
  · exact traces_typedArray hp
  split
  · exact traces_dataView hp
  · exact traces_boxed hp

end Traces

/-- The tags of the kinds that own a memo slot. -/
def isObjectTag (tag : UInt8) : Bool := tagArray ≤ tag && tag ≤ tagBoxed

theorem isObjectTag_cases {tag : UInt8} (h : isObjectTag tag = true) :
    tag = tagArray ∨ tag = tagObject ∨ tag = tagMap ∨ tag = tagSet ∨ tag = tagError ∨
      tag = tagArrayBuffer ∨ tag = tagTypedArray ∨ tag = tagDataView ∨ tag = tagBoxed := by
  have hall : ∀ n : Fin 256, isObjectTag (UInt8.ofNat n) = true →
      UInt8.ofNat n = tagArray ∨ UInt8.ofNat n = tagObject ∨ UInt8.ofNat n = tagMap ∨
        UInt8.ofNat n = tagSet ∨ UInt8.ofNat n = tagError ∨ UInt8.ofNat n = tagArrayBuffer ∨
        UInt8.ofNat n = tagTypedArray ∨ UInt8.ofNat n = tagDataView ∨ UInt8.ofNat n = tagBoxed := by
    decide +kernel
  have htag : UInt8.ofNat tag.toNat = tag := UInt8.ofNat_toNat
  have hthis := hall ⟨tag.toNat, tag.toNat_lt⟩
  rw [htag] at hthis
  exact hthis h

/-- Around what an object kind reads stand the reservation of its slot and the filling. -/
theorem decodeTagged_object (env : CodecEnv) (limits : LimitConfig) (p : Decoder ScValue)
    {tag : UInt8} (h : isObjectTag tag = true) :
    decodeTagged env limits p tag = memoized (decodeBody p env limits tag) := by
  rcases isObjectTag_cases h with rfl | rfl | rfl | rfl | rfl | rfl | rfl | rfl | rfl
  all_goals rfl

/-- The other kinds leave the state alone. -/
theorem plain_decodeTagged {room : ℕ} (env : CodecEnv) (limits : LimitConfig)
    (p : Decoder ScValue) (hroom : room + 8 ≤ usizeBound) {tag : UInt8}
    (h : isObjectTag tag = false)
    (hbig : tag = tagBigInt → room = 0) : Plain room .overflow (decodeTagged env limits p tag) := by
  have hother {other : UInt8} {d : Decoder ScValue} (hobject : isObjectTag other = true)
      (htag : tag = other) : Plain room .overflow d := by
    rw [htag, hobject] at h
    cases h
  -- undefined, null, false and true
  refine plain_ite (fun _ => plain_pure _) fun _ => plain_ite (fun _ => plain_pure _) fun _ =>
    plain_ite (fun _ => plain_pure _) fun _ => plain_ite (fun _ => plain_pure _) fun _ => ?_
  -- int32, double and string
  refine plain_ite (fun _ => plain_decodeIvarint.bind fun _ => plain_pure _) fun _ =>
    plain_ite (fun _ => (plain_readF64Le hroom).bind fun _ => plain_pure _) fun _ =>
    plain_ite (fun _ => (plain_decodeUnits (by omega) _).bind fun _ => plain_pure _) fun _ => ?_
  apply plain_ite
  · intro htag
    rw [hbig htag]
    exact (skips_decodeBigIntValue env).bind fun _ => plain_pure _
  intro _
  -- date and regexp
  refine plain_ite (fun _ => (plain_readF64Le hroom).bind fun _ => plain_pure _) fun _ =>
    plain_ite (fun _ => plain_decodeRegExpValue (by omega)) fun _ => ?_
  -- the object kinds
  refine plain_ite (hother rfl) fun _ => plain_ite (hother rfl) fun _ =>
    plain_ite (hother rfl) fun _ => plain_ite (hother rfl) fun _ => plain_ite (hother rfl) fun _ =>
    plain_ite (hother rfl) fun _ => plain_ite (hother rfl) fun _ => plain_ite (hother rfl) fun _ =>
    plain_ite (hother rfl) fun _ => ?_
  exact plain_ite (fun _ => plain_decodeMemoRef) fun _ => plain_ite (fun _ => plain_fail) fun _ =>
    plain_fail

end BoaIdb.Clone
