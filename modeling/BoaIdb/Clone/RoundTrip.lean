import BoaIdb.Clone.Written
import Mathlib.Data.Nat.Digits.Lemmas

/-!
Which values survive structured cloning.

The decoder checks three things that the encoder does not: the size of the whole payload,
the length of an array with its holes, and one more level of depth for a boxed primitive.
One value is read back as another: a buffer whose maximum has no successor. Every other
value that the encoder accepts comes back.
-/

namespace BoaIdb

open Clone StreamReader Faults

namespace Clone

variable {env : CodecEnv} {limits : LimitConfig}

open ScValue (Everywhere Bounded Intact Representable NoMemo scfSize keysSize indexSize
  length_le_sum_scfSize storedValues storedElements storedProps storedPairs storedCause storedErrors
  stored_eq_iff keys_storedProps)

/-! ### All kinds -/

theorem insertEntry_of_not_mem {entries : List (Utf16String × ScValue)} {key : Utf16String}
    (h : key ∉ entries.map Prod.fst) (val : ScValue) :
    insertEntry entries key val = entries ++ [(key, val)] := by
  induction entries with
  | nil => rfl
  | cons kv entries ih =>
      have hne : kv.1 ≠ key := fun heq => h (by simp [heq])
      have hnot : key ∉ entries.map Prod.fst := fun hmem => h (.tail _ hmem)
      rw [insertEntry, if_neg hne, ih hnot]
      rfl

/-- Entries with distinct keys are inserted in order. -/
theorem foldl_insertEntry {props : List (Utf16String × ScValue)} :
    ∀ {entries : List (Utf16String × ScValue)}, ((entries ++ props).map Prod.fst).Nodup →
      props.foldl (fun es kv => insertEntry es kv.1 kv.2) entries = entries ++ props := by
  induction props with
  | nil => simp
  | cons kv props ih =>
      intro entries h
      have hnot : kv.1 ∉ entries.map Prod.fst := by
        intro hmem
        rw [List.map_append, List.nodup_append] at h
        exact h.2.2 _ hmem _ (by simp) rfl
      have happend : entries ++ kv :: props = (entries ++ [kv]) ++ props := by simp
      rw [happend] at h
      rw [List.foldl_cons, insertEntry_of_not_mem hnot, ih h, happend]

section Kinds

variable {depth : ℕ} {enc enc' : ScfEncoder} {v : ScValue} {code : Bytes} {ok : Prop}

/-- A value without nested ones. -/
theorem written_leaf (hbuf : enc'.buf = enc.buf ++ code) (hdepth : depth ≤ limits.maxCloneDepth)
    (hchildren : v.children = [])
    (hsize : code.length = v.ownSize env) (hok : ok ↔ Bounded env limits depth v)
    (hreads : Reads usizeBound (decodeValueDepth env limits depth) code
      (depth ≤ limits.maxCloneDepth ∧ ok) (· = v.stored)) :
    Written enc enc' (decodeValueDepth env limits depth) (v.scfSize env)
      (Everywhere (Bounded env limits) depth v) (· = v.stored) := by
  refine ⟨code, hbuf, ?_, hreads.imp ?_ fun _ => id⟩
  · rw [ScValue.scfSize_eq, hchildren, hsize]
    rfl
  · rw [ScValue.everywhere_iff, hchildren, hok]
    simp [hdepth]

/-- A value whose encoder reserves a slot and writes `code` for what it holds. -/
theorem written_nested (tag : UInt8) (code : Bytes) {p : Decoder ScValue}
    (hdepth : depth ≤ limits.maxCloneDepth) (hbuf : enc'.buf = enc.buf ++ tag :: code)
    (hsize : code.length + 1 = v.scfSize env)
    (htag : decodeTagged env limits (decodeValueDepth env limits (depth + 1)) tag = memoized p)
    (hreads : Reads usizeBound p code ok (· = v.stored))
    (hok : ok ↔ Everywhere (Bounded env limits) depth v) :
    Written enc enc' (decodeValueDepth env limits depth) (v.scfSize env)
      (Everywhere (Bounded env limits) depth v) (· = v.stored) := by
  have hvalue : Reads usizeBound (decodeValueDepth env limits depth) (tag :: code)
      (depth ≤ limits.maxCloneDepth ∧ ok) (· = v.stored) :=
        reads_value (htag ▸ reads_memoized hreads)
  refine ⟨tag :: code, hbuf, hsize, hvalue.imp ?_ fun _ => id⟩
  rw [hok]
  exact and_iff_right hdepth

end Kinds

theorem reads_set {depth : ℕ} {values : List ScValue} {code : Bytes} {ok : Prop}
    (hlength : values.length ≤ code.length)
    (hreads : Reads usizeBound (repeatRead (decodeValueDepth env limits depth) values.length)
      code ok
      (· = storedValues values)) :
    Reads usizeBound (decodeSetValue (decodeValueDepth env limits depth))
      (encodeLen values.length ++ code) ok (· = ScValue.stored (.set values)) := by
  refine reads_of_lt fun hlt => ?_
  rw [List.length_append, usizeBound] at hlt
  refine (reads_decodeUsize (n := values.length) (by omega)).next ?_
  rintro _ rfl
  refine reads_checkCount hlength (hreads.andThen fun ws hws => ⟨_, rfl, ?_⟩)
  rw [hws, ScValue.stored]

theorem reads_map {depth : ℕ} {pairs : List (ScValue × ScValue)} {code : Bytes} {ok : Prop}
    (hlength : pairs.length ≤ code.length)
    (hreads : Reads usizeBound
      (repeatRead (decodePair (decodeValueDepth env limits depth)) pairs.length)
      code ok (· = storedPairs pairs)) :
    Reads usizeBound (decodeMapValue (decodeValueDepth env limits depth))
      (encodeLen pairs.length ++ code) ok (· = ScValue.stored (.map pairs)) := by
  refine reads_of_lt fun hlt => ?_
  rw [List.length_append, usizeBound] at hlt
  refine (reads_decodeUsize (n := pairs.length) (by omega)).next ?_
  rintro _ rfl
  refine reads_checkCount hlength (hreads.andThen fun ws hws => ⟨_, rfl, ?_⟩)
  rw [hws, ScValue.stored]

theorem reads_object {depth : ℕ} {entries : List (Utf16String × ScValue)} {code : Bytes} {ok : Prop}
    (hkeys : (entries.map Prod.fst).Nodup) (hlength : entries.length ≤ code.length)
    (hreads : Reads usizeBound
      (repeatRead (decodeProp (decodeValueDepth env limits depth)) entries.length)
      code ok (· = storedProps entries)) :
    Reads usizeBound (decodeObjectValue (decodeValueDepth env limits depth))
      (encodeLen entries.length ++ code) ok (· = ScValue.stored (.object entries)) := by
  refine reads_of_lt fun hlt => ?_
  rw [List.length_append, usizeBound] at hlt
  refine (reads_decodeUsize (n := entries.length) (by omega)).next ?_
  rintro _ rfl
  refine reads_checkCount hlength (hreads.andThen ?_)
  rintro _ rfl
  refine ⟨_, rfl, ?_⟩
  have hdistinct : (([] ++ storedProps entries).map Prod.fst).Nodup := by
    rw [List.nil_append, keys_storedProps]
    exact hkeys
  rw [foldl_insertEntry hdistinct, List.nil_append, ScValue.stored]

theorem reads_array {depth : ℕ} {elements : List (Option ScValue)}
    {extraProps : List (Utf16String × ScValue)} {items props : Bytes}
    {okItems okProps : Prop} (hslots : elements.length < 2 ^ 64)
    (hitemsLength : elements.reduceOption.length ≤ items.length)
    (hpropsLength : extraProps.length ≤ props.length)
    (hitems : Reads usizeBound (decodeItems (decodeValueDepth env limits depth) elements.length
      elements.reduceOption.length (List.replicate elements.length none)) items okItems
      (· = storedElements elements))
    (hprops : Reads usizeBound
      (repeatRead (decodeProp (decodeValueDepth env limits depth)) extraProps.length) props okProps
      (· = storedProps extraProps)) :
    Reads usizeBound (decodeArrayValue (decodeValueDepth env limits depth) env limits)
      (encodeLen elements.length ++ (encodeLen elements.reduceOption.length ++
        (items ++ (encodeLen extraProps.length ++ props))))
      (elements.length ≤ limits.maxValueLen ∧ elements.length * env.slotSize < isizeBound ∧
        okItems ∧ okProps)
      (· = ScValue.stored (.array elements extraProps)) := by
  rw [decodeArrayValue_eq]
  refine reads_of_lt fun hlt => ?_
  simp only [List.length_append, usizeBound] at hlt
  have hcount : elements.reduceOption.length ≤ elements.length :=
    List.reduceOption_length_le elements
  refine (reads_decodeUsize hslots).next ?_
  rintro _ rfl
  refine (reads_decodeUsize (n := elements.reduceOption.length) (by omega)).next ?_
  rintro _ rfl
  refine (Reads.guarded _ ?_).cast rfl (and_congr_left' not_lt)
  rw [if_neg (by omega)]
  refine reads_checkCount (by simp only [List.length_append]; omega) ?_
  refine (Reads.guarded _ (hitems.bind fun es hes => ?_)).cast rfl (and_congr_left' not_le)
  refine (reads_decodeUsize (n := extraProps.length) (by omega)).next ?_
  rintro _ rfl
  refine reads_checkCount hpropsLength (hprops.andThen fun ws hws => ⟨_, rfl, ?_⟩)
  rw [hes, hws, ScValue.stored]

theorem everywhere_single {P : ℕ → ScValue → Prop} {depth : ℕ} {v c : ScValue}
    (hchildren : v.children = [c]) (h : P depth v) :
    Everywhere P depth v ↔ Everywhere P (depth + 1) c := by
  rw [ScValue.everywhere_iff, hchildren, List.forall_mem_singleton]
  exact and_iff_right h

theorem reads_typedArray {depth : ℕ} {buffer : ScValue} {code : Bytes} {ok : Prop}
    (kind : ScTypedArrayKind) (byteOffset length : UInt64)
    (hreads : Reads usizeBound (decodeValueDepth env limits depth) code ok
      (· = buffer.stored)) :
    Reads usizeBound (decodeTypedArrayValue (decodeValueDepth env limits depth))
      ([kind.toU8] ++ (encodeUvarint byteOffset ++ (encodeUvarint length ++ code))) ok
      (· = ScValue.stored (.typedArray kind byteOffset length buffer)) := by
  refine (reads_readByte kind.toU8).next ?_
  rintro _ rfl
  rw [ScTypedArrayKind.fromU8_toU8]
  refine (reads_uvarint byteOffset).next ?_
  rintro _ rfl
  refine (reads_uvarint length).next ?_
  rintro _ rfl
  refine hreads.andThen fun w hw => ⟨_, rfl, ?_⟩
  rw [hw, ScValue.stored]

theorem reads_dataView {depth : ℕ} {buffer : ScValue} {code : Bytes} {ok : Prop}
    (byteOffset byteLength : UInt64)
    (hreads : Reads usizeBound (decodeValueDepth env limits depth) code ok
      (· = buffer.stored)) :
    Reads usizeBound (decodeDataViewValue (decodeValueDepth env limits depth))
      (encodeUvarint byteOffset ++ (encodeUvarint byteLength ++ code)) ok
      (· = ScValue.stored (.dataView byteOffset byteLength buffer)) := by
  refine (reads_uvarint byteOffset).next ?_
  rintro _ rfl
  refine (reads_uvarint byteLength).next ?_
  rintro _ rfl
  refine hreads.andThen fun w hw => ⟨_, rfl, ?_⟩
  rw [hw, ScValue.stored]

/-- Each flag of an error tells whether its field follows. -/
theorem errorFlags_bits (hasMessage hasCause hasErrors : Bool) :
    decide (errorFlags hasMessage hasCause hasErrors &&& 1 ≠ 0) = hasMessage ∧
      decide (errorFlags hasMessage hasCause hasErrors &&& 2 ≠ 0) = hasCause ∧
      decide (errorFlags hasMessage hasCause hasErrors &&& 4 ≠ 0) = hasErrors := by
  cases hasMessage <;> cases hasCause <;> cases hasErrors <;> decide

theorem reads_message (message : Option Utf16String) :
    Reads usizeBound (decodeOptional message.isSome decodeStringUnits)
      (message.elim [] encodeStringValue) True (· = message) := by
  cases message with
  | none => exact reads_pure rfl
  | some msg =>
      refine (reads_string msg).andThen ?_
      rintro _ rfl
      exact ⟨_, rfl, rfl⟩

theorem written_cause {depth : ℕ} {cause : Option ScValue} {enc enc' : ScfEncoder}
    (hreturns : ∀ c ∈ cause.toList, Returns env limits depth c)
    (h : encodeCause env limits depth enc cause = .ok enc') :
    Written enc enc' (decodeOptional cause.isSome (decodeValueDepth env limits depth))
      (cause.toList.map (scfSize env)).sum
      (∀ c ∈ cause.toList, Everywhere (Bounded env limits) depth c)
      (· = storedCause cause) := by
  cases cause with
  | none =>
      rw [encodeCause] at h
      cases h
      exact ⟨[], (List.append_nil _).symm, rfl,
        (reads_pure (by simp [storedCause])).cast rfl (by simp)⟩
  | some c =>
      rw [encodeCause] at h
      obtain ⟨code, hbuf, hsize, hreads⟩ := hreturns c (by simp) enc enc' h
      refine ⟨code, hbuf, by simp [hsize], ?_⟩
      refine (hreads.andThen (f := fun a => pure (some a)) fun w hw => ⟨some w, rfl, ?_⟩).cast rfl
        (by simp)
      rw [hw, storedCause]

theorem written_errors {depth : ℕ} {errors : Option (List ScValue)} {enc enc' : ScfEncoder}
    (hreturns : ∀ c ∈ errors.getD [], Returns env limits depth c)
    (h : encodeErrors env limits depth enc errors = .ok enc') :
    Written enc enc'
      (decodeOptional errors.isSome (decodeErrors (decodeValueDepth env limits depth)))
      ((errors.elim 0 fun es => (encodeLen es.length).length) +
        ((errors.getD []).map (scfSize env)).sum)
      (∀ c ∈ errors.getD [], Everywhere (Bounded env limits) depth c)
      (· = storedErrors errors) := by
  cases errors with
  | none =>
      rw [encodeErrors] at h
      cases h
      exact ⟨[], (List.append_nil _).symm, rfl,
        (reads_pure (by simp [storedErrors])).cast rfl (by simp)⟩
  | some es =>
      rw [encodeErrors] at h
      obtain ⟨code, hbuf, hsize, hreads⟩ := written_values es _ enc' hreturns h
      have hlength := length_le_sum_scfSize env es
      refine ⟨encodeLen es.length ++ code, by simp [hbuf, ScfEncoder.push], by simp [hsize], ?_⟩
      have herrors : Reads usizeBound (decodeErrors (decodeValueDepth env limits depth))
          (encodeLen es.length ++ code) (∀ c ∈ es, Everywhere (Bounded env limits) depth c)
          (· = storedValues es) := by
        refine reads_of_lt fun hlt => ?_
        rw [List.length_append, usizeBound] at hlt
        refine (reads_decodeUsize (n := es.length) (by omega)).next ?_
        rintro _ rfl
        exact reads_checkCount (by omega) hreads
      refine herrors.andThen (f := fun a => pure (some a)) fun w hw => ⟨some w, rfl, ?_⟩
      rw [hw, storedErrors]

theorem reads_error {depth : ℕ} {cause : Option ScValue} {errors : Option (List ScValue)}
    {code code' : Bytes} {ok ok' : Prop} (kind : ScErrorKind) (message : Option Utf16String)
    (hreads : Reads usizeBound (decodeOptional cause.isSome (decodeValueDepth env limits depth))
      code ok
      (· = storedCause cause))
    (hreads' : Reads usizeBound
      (decodeOptional errors.isSome (decodeErrors (decodeValueDepth env limits depth))) code' ok'
      (· = storedErrors errors)) :
    Reads usizeBound (decodeErrorValue (decodeValueDepth env limits depth))
      ([kind.toU8] ++ ([errorFlags message.isSome cause.isSome errors.isSome] ++
        (message.elim [] encodeStringValue ++ (code ++ code')))) (ok ∧ ok')
      (· = ScValue.stored (.error kind message cause errors)) := by
  obtain ⟨hfirst, hsecond, hthird⟩ := errorFlags_bits message.isSome cause.isSome errors.isSome
  refine (reads_readByte kind.toU8).next ?_
  rintro _ rfl
  rw [ScErrorKind.fromU8_toU8]
  refine (reads_readByte _).next ?_
  rintro _ rfl
  simp only [hfirst, hsecond, hthird]
  refine (reads_message message).next ?_
  rintro _ rfl
  refine hreads.bind fun c hc => hreads'.andThen fun es hes => ⟨_, rfl, ?_⟩
  rw [hc, hes, ScValue.stored]

theorem returns (henv : env.Lawful) (v : ScValue) : ∀ depth, Everywhere NoMemo depth v →
    Everywhere Representable depth v → Returns env limits depth v := by
  induction v using ScValue.induction with
  | step v ih =>
    intro depth hnoMemo hrepresentable enc enc' h
    obtain ⟨hmemo, hnoMemo'⟩ := ScValue.everywhere_iff.mp hnoMemo
    obtain ⟨hrep, hrepresentable'⟩ := ScValue.everywhere_iff.mp hrepresentable
    -- a value one level down is written, and read, one level deeper
    have hchildren : ∀ c ∈ v.children, Returns env limits (depth + 1) c := fun c hc =>
      ih c hc (depth + 1) (hnoMemo' c hc) (hrepresentable' c hc)
    unfold encodeWithDepth at h
    split at h
    next => cases h
    next hdepth =>
    split at h
    next => cases h
    next =>
    replace hdepth := not_lt.mp hdepth
    -- the kinds without children first; the containers read theirs by `hchildren`
    cases v with
    | undefined =>
        cases h
        refine written_leaf rfl hdepth rfl rfl (Iff.refl True) (reads_value ?_)
        exact reads_pure rfl
    | null =>
        cases h
        refine written_leaf rfl hdepth rfl rfl (Iff.refl True) (reads_value ?_)
        exact reads_pure rfl
    | boolean b =>
        cases h
        refine written_leaf rfl hdepth rfl rfl (Iff.refl True) ?_
        exact (reads_boolean depth b).imp (by simp) fun _ => id
    | number n =>
        cases h
        refine written_leaf rfl hdepth rfl rfl (Iff.refl True) ?_
        exact (reads_number depth n).imp (by simp) fun _ => id
    | bigInt n =>
        cases h
        refine written_leaf rfl hdepth rfl rfl (Iff.refl True) ?_
        exact (reads_bigIntValue henv depth n).imp (by simp) fun _ => id
    | string s =>
        cases h
        refine written_leaf rfl hdepth rfl rfl (Iff.refl True) ?_
        exact (reads_stringValue depth s).imp (by simp) fun _ => id
    | date d =>
        cases h
        refine written_leaf rfl hdepth rfl rfl (Iff.refl True) (reads_value ?_)
        change Reads usizeBound (readF64Le >>= _) _ _ _
        refine (reads_readF64Le d).andThen ?_
        rintro _ rfl
        exact ⟨_, rfl, rfl⟩
    | regExp pattern flags =>
        cases h
        refine written_leaf rfl hdepth rfl rfl (Iff.refl True) (reads_value ?_)
        exact (reads_decodeRegExpValue pattern flags).imp Iff.rfl fun _ => id
    | arrayBuffer data maxByteLength =>
        cases h
        refine written_leaf rfl hdepth rfl rfl (Iff.refl True)
          (reads_value ?_)
        exact reads_memoized (reads_decodeArrayBufferData data maxByteLength)
    | boxedBoolean b =>
        cases h
        refine written_leaf rfl hdepth rfl rfl Iff.rfl ?_
        exact (reads_boxed (by decide) rfl (reads_boolean (depth + 1) b)).imp Iff.rfl fun _ => id
    | boxedNumber n =>
        cases h
        refine written_leaf rfl hdepth rfl ?_ Iff.rfl
          ((reads_boxed (by decide) rfl (reads_number (depth + 1) n)).imp Iff.rfl fun _ => id)
        simp only [ScValue.ownSize, List.length_cons]
        omega
    | boxedString s =>
        cases h
        refine written_leaf rfl hdepth rfl ?_ Iff.rfl
          ((reads_boxed (by decide) rfl (reads_stringValue (depth + 1) s)).imp Iff.rfl fun _ => id)
        simp only [ScValue.ownSize, List.length_cons]
        omega
    | boxedBigInt n =>
        cases h
        refine written_leaf rfl hdepth rfl ?_ Iff.rfl
          ((reads_boxed (by decide) rfl (reads_bigIntValue henv (depth + 1) n)).imp Iff.rfl fun _ =>
            id)
        simp only [ScValue.ownSize, List.length_cons]
        omega
    | memoRef idx => exact hmemo.elim
    | array elements extraProps =>
        obtain ⟨enc₁, hitems, hprops⟩ := bind_ok h
        obtain ⟨items, hbuf, hsize, hreads⟩ := written_items elements 0 _ enc₁
          (by rw [Nat.zero_add]; exact hrep)
          (fun c hc => hchildren c (List.mem_append_left _ hc)) hitems
        obtain ⟨props, hbuf', hsize', hreads'⟩ := written_props extraProps _ enc'
          (fun kv hkv => hchildren kv.2 (List.mem_append_right _ (List.mem_map_of_mem hkv))) hprops
        have hitemsLength := length_le_sum_scfSize env elements.reduceOption
        have hpropsLength := length_le_sum_scfSize env (extraProps.map Prod.snd)
        rw [List.length_map] at hpropsLength
        -- the items are put into slots that are all holes before
        have hitems' : Reads usizeBound (decodeItems (decodeValueDepth env limits (depth + 1))
            elements.length elements.reduceOption.length (List.replicate elements.length none))
              items
            (∀ v ∈ elements.reduceOption, Everywhere (Bounded env limits) (depth + 1) v)
            (· = storedElements elements) := by
          have hnil := hreads [] rfl
          rw [Nat.zero_add, List.nil_append, List.nil_append] at hnil
          exact hnil
        refine written_nested tagArray (encodeLen elements.length ++
            (encodeLen elements.reduceOption.length ++
              (items ++ (encodeLen extraProps.length ++ props))))
          hdepth ?_ ?_ rfl (reads_array hrep (by omega) (by omega) hitems' hreads') ?_
        · simp [hbuf', hbuf, ScfEncoder.push, ScfEncoder.allocateMemo]
        · rw [ScValue.scfSize_eq]
          simp only [ScValue.ownSize, ScValue.children, List.length_append, List.map_append,
            List.sum_append, hsize, hsize']
          omega
        · rw [ScValue.everywhere_iff]
          simp only [Bounded, ScValue.children, List.forall_mem_append, and_assoc]
    | object entries =>
        obtain ⟨props, hbuf, hsize, hreads⟩ := written_props entries _ enc'
          (fun kv hkv => hchildren kv.2 (List.mem_map_of_mem hkv)) h
        have hlength := length_le_sum_scfSize env (entries.map Prod.snd)
        rw [List.length_map] at hlength
        refine written_nested tagObject (encodeLen entries.length ++ props)
          hdepth ?_ ?_ rfl (reads_object hrep (by omega) hreads) ?_
        · simp [hbuf, ScfEncoder.push, ScfEncoder.allocateMemo]
        · rw [ScValue.scfSize_eq]
          simp only [ScValue.ownSize, ScValue.children, List.length_append, hsize]
          omega
        · rw [ScValue.everywhere_iff]
          simp only [Bounded, ScValue.children, true_and]
    | map pairs =>
        obtain ⟨code, hbuf, hsize, hreads⟩ := written_pairs pairs _ enc' hchildren h
        have hlength : pairs.length ≤ code.length := by
          have hle := length_le_sum_scfSize env (pairs.flatMap fun kv => [kv.1, kv.2])
          have htwice : (pairs.flatMap fun kv => [kv.1, kv.2]).length = pairs.length * 2 := by
            simp [List.length_flatMap]
          omega
        refine written_nested tagMap (encodeLen pairs.length ++ code)
          hdepth ?_ ?_ rfl (reads_map hlength hreads) ?_
        · simp [hbuf, ScfEncoder.push, ScfEncoder.allocateMemo]
        · rw [ScValue.scfSize_eq]
          simp only [ScValue.ownSize, ScValue.children, List.length_append, hsize]
          omega
        · rw [ScValue.everywhere_iff]
          simp only [Bounded, ScValue.children, true_and]
    | set values =>
        obtain ⟨code, hbuf, hsize, hreads⟩ := written_values values _ enc' hchildren h
        have hlength := length_le_sum_scfSize env values
        refine written_nested tagSet (encodeLen values.length ++ code)
          hdepth ?_ ?_ rfl (reads_set (by omega) hreads) ?_
        · simp [hbuf, ScfEncoder.push, ScfEncoder.allocateMemo]
        · rw [ScValue.scfSize_eq]
          simp only [ScValue.ownSize, ScValue.children, List.length_append, hsize]
          omega
        · rw [ScValue.everywhere_iff]
          simp only [Bounded, ScValue.children, true_and]
    | error kind message cause errors =>
        obtain ⟨enc₁, hcause, herrors⟩ := bind_ok h
        obtain ⟨code, hbuf, hsize, hreads⟩ :=
          written_cause (fun c hc => hchildren c (List.mem_append_left _ hc)) hcause
        obtain ⟨code', hbuf', hsize', hreads'⟩ :=
          written_errors (fun c hc => hchildren c (List.mem_append_right _ hc)) herrors
        refine written_nested tagError
          ([kind.toU8] ++ ([errorFlags message.isSome cause.isSome errors.isSome] ++
            (message.elim [] encodeStringValue ++ (code ++ code'))))
          hdepth ?_ ?_ rfl (reads_error kind message hreads hreads') ?_
        · simp [hbuf', hbuf, ScfEncoder.push, ScfEncoder.allocateMemo]
        · have hmessage : (message.elim [] encodeStringValue).length =
              message.elim 0 fun msg => (encodeStringValue msg).length := by
            cases message <;> rfl
          rw [ScValue.scfSize_eq]
          simp only [ScValue.ownSize, ScValue.children, List.length_append, hsize, hsize', hmessage,
            List.length_cons, List.length_nil, List.map_append, List.sum_append]
          omega
        · rw [ScValue.everywhere_iff, ScValue.children, List.forall_mem_append]
          exact (and_iff_right trivial).symm
    | typedArray kind byteOffset length buffer =>
        obtain ⟨code, hbuf, hsize, hreads⟩ := hchildren buffer (by simp [ScValue.children]) _ enc' h
        refine written_nested tagTypedArray
          ([kind.toU8] ++ (encodeUvarint byteOffset ++ (encodeUvarint length ++ code)))
          hdepth ?_ ?_ rfl (reads_typedArray kind byteOffset length hreads) ?_
        · simp [hbuf, ScfEncoder.push, ScfEncoder.allocateMemo]
        · rw [ScValue.scfSize_eq]
          simp only [ScValue.ownSize, ScValue.children, List.length_append, hsize, List.length_cons,
            List.length_nil, List.map_cons, List.map_nil, List.sum_cons, List.sum_nil]
          omega
        · exact (everywhere_single rfl trivial).symm
    | dataView byteOffset byteLength buffer =>
        obtain ⟨code, hbuf, hsize, hreads⟩ := hchildren buffer (by simp [ScValue.children]) _ enc' h
        refine written_nested tagDataView
          (encodeUvarint byteOffset ++ (encodeUvarint byteLength ++ code))
          hdepth ?_ ?_ rfl (reads_dataView byteOffset byteLength hreads) ?_
        · simp [hbuf, ScfEncoder.push, ScfEncoder.allocateMemo]
        · rw [ScValue.scfSize_eq]
          simp only [ScValue.ownSize, ScValue.children, List.length_append, hsize,
            List.map_cons, List.map_nil, List.sum_cons, List.sum_nil]
          omega
        · exact (everywhere_single rfl trivial).symm

/-! ### Whole payloads -/

theorem decodeScf_finish {enc : ScfEncoder} {code : Bytes}
    (hbuf : enc.buf = ScfEncoder.new.buf ++ code)
    (hpos : 0 < code.length) :
    decodeScf env limits enc.finish =
      if limits.maxValueLen < code.length then
        .error (.error (.valueTooLarge limits.maxValueLen code.length))
      else ((decodeValueDepth env limits 0).run ⟨0, code, []⟩).map Prod.fst := by
  have hheader : ScfEncoder.new.buf = [0x49, 0x44, 0x42, 0x31, 2, 0, 0, 0] := rfl
  have hlength : enc.buf.length = 8 + code.length := by
    rw [hbuf, hheader, List.length_append]
    rfl
  have hfinish : enc.finish.length = 12 + code.length := by
    rw [ScfEncoder.finish, List.length_append, ByteCodec.length_littleEndian, hlength]
    omega
  have hend : enc.finish.length - 4 = enc.buf.length := by omega
  have htake : enc.finish.take enc.buf.length = enc.buf := List.take_left
  have hdrop : enc.finish.drop enc.buf.length = ByteCodec.littleEndian 4 (crc32c enc.buf).toNat :=
    List.drop_left
  have hchecksum : UInt32.ofNat (ByteCodec.ofLittleEndian
      (ByteCodec.littleEndian 4 (crc32c enc.buf).toNat)) = crc32c enc.buf := by
    rw [ByteCodec.ofLittleEndian_littleEndian
      (lt_of_lt_of_eq (crc32c enc.buf).toNat_lt (by norm_num)),
      UInt32.ofNat_toNat]
  have hmagic : enc.finish.take 4 = scfMagic := by
    rw [ScfEncoder.finish, hbuf, hheader]
    rfl
  have hversion : enc.finish[4]? = some scfVersion := by
    rw [ScfEncoder.finish, hbuf, hheader]
    rfl
  have hbody : enc.buf.drop 8 = code := by
    rw [hbuf, hheader]
    rfl
  unfold decodeScf
  simp only [hend, htake, hdrop, hchecksum, hmagic, hversion, hbody, ne_eq, not_true_eq_false,
    if_false]
  rw [if_neg (by omega), if_neg (by omega), hlength, Nat.add_sub_cancel_left]

/-- What the decoder needs beyond the acceptance of the encoder: the payload and the
arrays in it are no longer than `max_value_len`, no boxed primitive lies at the last
level, and no maximum of a buffer is the largest `usize`. -/
def RoundTrips (env : CodecEnv) (limits : LimitConfig) (v : ScValue) : Prop :=
  v.scfSize env ≤ limits.maxValueLen ∧
    Everywhere (fun depth w => Bounded env limits depth w ∧ Intact depth w) 0 v

/-- A value that was accepted is read back exactly when the decoder's checks hold. -/
theorem decodeScf_stored (henv : env.Lawful) (hlimit : limits.maxValueLen < 2 ^ 64) {v : ScValue}
    (hnoMemo : Everywhere NoMemo 0 v) (hrepresentable : Everywhere Representable 0 v) {b : Bytes}
    (h : encodeScf env limits v = .ok b) :
    (v.scfSize env ≤ limits.maxValueLen ∧ Everywhere (Bounded env limits) 0 v →
      decodeScf env limits b = .ok v.stored) ∧
    (¬ (v.scfSize env ≤ limits.maxValueLen ∧ Everywhere (Bounded env limits) 0 v) →
      ∃ e, decodeScf env limits b = .error e) := by
  obtain ⟨enc, hencode, hfinish⟩ := bind_ok h
  cases hfinish
  obtain ⟨code, hbuf, hsize, hreads⟩ := returns henv v 0 hnoMemo hrepresentable _ enc hencode
  have hpos := ScValue.scfSize_pos env v
  rw [decodeScf_finish hbuf (by omega), ← hsize]
  by_cases hlarge : limits.maxValueLen < code.length
  · rw [if_pos hlarge]
    exact ⟨fun hok => absurd hok.1 (by omega), fun _ => ⟨_, rfl⟩⟩
  · rw [if_neg hlarge]
    obtain ⟨haccept, hreject⟩ := hreads ⟨0, code, []⟩ [] (List.append_nil code).symm
      (by rw [usizeBound]; simp only; omega)
    refine ⟨fun hok => ?_, fun hbad => ?_⟩
    · obtain ⟨w, kept, hrun, hw⟩ := haccept hok.2
      rw [hrun, ← hw]
      rfl
    · obtain ⟨e, hrun⟩ := hreject fun hbounded => hbad ⟨by omega, hbounded⟩
      rw [hrun]
      exact ⟨e, rfl⟩

/-- A value that was accepted comes back exactly when it round-trips. -/
theorem decodeScf_encodeScf (henv : env.Lawful) (hlimit : limits.maxValueLen < 2 ^ 64) (v : ScValue)
    (hnoMemo : Everywhere NoMemo 0 v) (hrepresentable : Everywhere Representable 0 v) (b : Bytes)
    (h : encodeScf env limits v = .ok b) :
    decodeScf env limits b = .ok v ↔ RoundTrips env limits v := by
  obtain ⟨haccept, hreject⟩ := decodeScf_stored henv hlimit hnoMemo hrepresentable h
  rw [RoundTrips, ScValue.everywhere_and, ← stored_eq_iff v 0, ← and_assoc]
  by_cases hok : v.scfSize env ≤ limits.maxValueLen ∧ Everywhere (Bounded env limits) 0 v
  · rw [haccept hok, Except.ok.injEq]
    exact (and_iff_right hok).symm
  · obtain ⟨e, herror⟩ := hreject hok
    rw [herror]
    exact iff_of_false (fun h => by cases h) fun h => hok h.1

/-! ### Instances -/

/-- The digits of base 256, and one zero for zero. -/
def standardEnv : CodecEnv where
  toBytesLe n :=
    (if n < 0 then .minus else if n = 0 then .noSign else .plus,
      if n = 0 then [0] else (Nat.digits 256 n.natAbs).map UInt8.ofNat)
  fromBytesLe
    | .minus, bytes => -(ByteCodec.ofLittleEndian bytes : ℤ)
    | .noSign, _ => 0
    | .plus, bytes => ByteCodec.ofLittleEndian bytes
  slotSize := 72

theorem ofLittleEndian_digits {digits : List ℕ} (h : ∀ d ∈ digits, d < 256) :
    ByteCodec.ofLittleEndian (digits.map UInt8.ofNat) = Nat.ofDigits 256 digits := by
  induction digits with
  | nil => rfl
  | cons d digits ih =>
      have hrest := ih fun e he => h e (.tail _ he)
      unfold ByteCodec.ofLittleEndian at hrest ⊢
      rw [List.map_cons, List.foldr_cons, hrest, Nat.ofDigits_cons,
        UInt8.toNat_ofNat_of_lt' (h d (by simp))]

theorem standardEnv_lawful : standardEnv.Lawful where
  round_trip n := by
    have hmagnitude : ByteCodec.ofLittleEndian ((Nat.digits 256 n.natAbs).map UInt8.ofNat) =
        n.natAbs := by
      rw [ofLittleEndian_digits fun d hd =>
        Nat.digits_lt_base (by norm_num) hd, Nat.ofDigits_digits]
    rcases lt_trichotomy n 0 with hneg | hzero | hpos
    · simp only [standardEnv, if_pos hneg, if_neg hneg.ne, hmagnitude]
      omega
    · subst hzero
      rfl
    · simp only [standardEnv, if_neg hpos.not_gt, if_neg hpos.ne', hmagnitude]
      omega
  zero_plus n h := by
    simp only [standardEnv] at h ⊢
    split at h
    next => cases h
    next =>
      split at h
      next hzero =>
        rw [if_pos hzero, hzero]
        rfl
      next => cases h

/-- A boxed number inside a set, at the default limits. -/
theorem decodeScf_encodeScf_boxed :
    ∃ b, encodeScf standardEnv {} (.set [.boxedNumber 0x3FF8000000000000]) = .ok b ∧
      (decodeScf standardEnv {} b = .ok (.set [.boxedNumber 0x3FF8000000000000]) ↔
        RoundTrips standardEnv {} (.set [.boxedNumber 0x3FF8000000000000])) := by
  refine ⟨_, rfl, decodeScf_encodeScf standardEnv_lawful (by decide) _ ?_ ?_ _ rfl⟩
  all_goals
    refine ⟨trivial, fun c hc => ?_⟩
    obtain rfl := List.mem_singleton.mp hc
    exact ⟨trivial, fun c hc => nomatch hc⟩

/-- A string is only checked before it is written: this one is accepted and then too
large to be read. -/
theorem accepted_string_unreadable :
    ¬ ∀ (env : CodecEnv) (limits : LimitConfig) (v : ScValue) (b : Bytes), env.Lawful →
      limits.maxValueLen < 2 ^ 64 → Everywhere NoMemo 0 v → Everywhere Representable 0 v →
      encodeScf env limits v = .ok b → decodeScf env limits b = .ok v := by
  intro h
  let enc := ScfEncoder.new.push (encodeString [0x61, 0x62, 0x63, 0x64])
  have hbuf : enc.buf = ScfEncoder.new.buf ++ encodeString [0x61, 0x62, 0x63, 0x64] := rfl
  have hread := h standardEnv { maxValueLen := 8 } (.string [0x61, 0x62, 0x63, 0x64]) enc.finish
    standardEnv_lawful (by decide) ⟨trivial, fun c hc => nomatch hc⟩
    ⟨trivial, fun c hc => nomatch hc⟩ rfl
  rw [decodeScf_finish hbuf (by decide), if_pos (by decide)] at hread
  cases hread

end Clone

end BoaIdb
