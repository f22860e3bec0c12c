import BoaIdb.Clone.Conditions
import BoaIdb.Lib.Faults

/-!
What the encoder appends, as the decoder reads it.

`Written` holds for one call of an encoder: the bytes it appended, and the outcome of the
matching decoder on them. The loops over values, pairs, properties and items keep it.
-/

namespace BoaIdb

open Clone StreamReader Faults

namespace Clone

variable {env : CodecEnv} {limits : LimitConfig}

/-! ### One value -/

/-- A tag and what its decoder reads, while a level is left. -/
theorem reads_value {depth : ℕ} {tag : UInt8} {code : Bytes} {ok : Prop} {post : ScValue → Prop}
    (h : Reads usizeBound (decodeTagged env limits (decodeValueDepth env limits (depth + 1)) tag)
      code ok post) :
    Reads usizeBound (decodeValueDepth env limits depth) (tag :: code)
      (depth ≤ limits.maxCloneDepth ∧ ok) post := by
  by_cases hdepth : depth ≤ limits.maxCloneDepth
  · have hlevels :
        limits.maxCloneDepth + 1 - depth = limits.maxCloneDepth + 1 - (depth + 1) + 1 := by
      omega
    rw [decodeValueDepth, hlevels, decodeValueLevels]
    have hbind := (reads_readByte tag).bind (f := fun tag =>
      decodeTagged env limits (decodeValueDepth env limits (depth + 1)) tag) fun a ha => ha ▸ h
    exact hbind.cast rfl (by simp [hdepth])
  · have hlevels : limits.maxCloneDepth + 1 - depth = 0 := by omega
    rw [decodeValueDepth, hlevels, decodeValueLevels]
    exact (reads_throw _).cast rfl (by simp [hdepth])

theorem reads_leaf {depth : ℕ} {tag : UInt8} {code : Bytes} {post : ScValue → Prop}
    (h : Reads usizeBound (decodeTagged env limits (decodeValueDepth env limits (depth + 1)) tag)
      code True post) :
    Reads usizeBound (decodeValueDepth env limits depth) (tag :: code)
      (depth ≤ limits.maxCloneDepth) post :=
  (reads_value h).cast rfl (Iff.of_eq (and_true _))

theorem reads_boolean (depth : ℕ) (b : Bool) :
    Reads usizeBound (decodeValueDepth env limits depth) [if b then tagTrue else tagFalse]
      (depth ≤ limits.maxCloneDepth) (· = .boolean b) := by
  have hpure : decodeTagged env limits (decodeValueDepth env limits (depth + 1))
      (if b then tagTrue else tagFalse) = pure (.boolean b) := by cases b <;> rfl
  refine reads_leaf ?_
  rw [hpure]
  exact reads_pure rfl

theorem reads_number (depth : ℕ) (n : F64Bits) :
    Reads usizeBound (decodeValueDepth env limits depth) (encodeNumber n)
      (depth ≤ limits.maxCloneDepth) (· = .number n) := by
  unfold encodeNumber
  split
  next i hi =>
    refine reads_leaf ?_
    change Reads usizeBound (decodeIvarint >>= _) _ _ _
    refine (reads_ivarint _).andThen ?_
    rintro _ rfl
    have hrange := asInt32_range hi
    have htoInt : (Int64.ofInt i).toInt = i := Int64.toInt_ofInt_of_le (by omega) (by omega)
    exact ⟨_, rfl, by rw [htoInt, ofInt_of_asInt32 hi]⟩
  next =>
    refine reads_leaf ?_
    change Reads usizeBound (readF64Le >>= _) _ _ _
    refine (reads_readF64Le n).andThen ?_
    rintro _ rfl
    exact ⟨_, rfl, rfl⟩

theorem reads_stringValue (depth : ℕ) (s : Utf16String) :
    Reads usizeBound (decodeValueDepth env limits depth) (encodeString s)
      (depth ≤ limits.maxCloneDepth) (· = .string s) := by
  refine reads_leaf ?_
  change Reads usizeBound (decodeStringUnits >>= _) _ _ _
  refine (reads_string s).andThen ?_
  rintro _ rfl
  exact ⟨_, rfl, rfl⟩

theorem reads_bigIntValue (henv : env.Lawful) (depth : ℕ) (n : ℤ) :
    Reads usizeBound (decodeValueDepth env limits depth) (encodeBigInt env n)
      (depth ≤ limits.maxCloneDepth) (· = .bigInt n) := by
  change Reads usizeBound _ (tagBigInt :: (encodeBigInt env n).tail) _ _
  refine reads_leaf ?_
  change Reads usizeBound (decodeBigIntValue env >>= _) _ _ _
  refine (reads_decodeBigIntValue henv n).andThen ?_
  rintro _ rfl
  exact ⟨_, rfl, rfl⟩

/-- The slot of the memo table does not change what is read. -/
theorem reads_memoized {p : Decoder ScValue} {code : Bytes} {ok : Prop} {post : ScValue → Prop}
    (h : Reads usizeBound p code ok post) : Reads usizeBound (memoized p) code ok post := by
  refine reads_getKept.after fun memo _ => ?_
  refine (reads_modifyKept _).after fun _ _ => ?_
  refine h.last fun value hvalue => ?_
  exact (reads_modifyKept _).after fun _ _ => reads_pure hvalue

/-- A boxed primitive takes one more level than the encoder counts. -/
theorem reads_boxed {depth : ℕ} {subtag : UInt8} {code : Bytes} {inner value : ScValue}
    (hsubtag : ¬ boxedBig < subtag) (hboxed : boxedOf subtag inner = .ok value)
    (h : Reads usizeBound (decodeValueDepth env limits (depth + 1)) code
      (depth + 1 ≤ limits.maxCloneDepth) (· = inner)) :
    Reads usizeBound (decodeValueDepth env limits depth) (tagBoxed :: subtag :: code)
      (depth ≤ limits.maxCloneDepth ∧ depth < limits.maxCloneDepth) (· = value) := by
  refine reads_value ?_
  change Reads usizeBound (memoized (decodeBoxedValue _)) _ _ _
  refine reads_memoized ?_
  refine (reads_readByte subtag).next ?_
  rintro _ rfl
  rw [if_neg hsubtag]
  refine h.andThen ?_
  rintro _ rfl
  exact ⟨value, by rw [hboxed], rfl⟩

/-! ### Loops -/

open ScValue (Everywhere Bounded scfSize keysSize indexSize storedValues storedElements
  storedProps storedPairs)

/-- What an encoder appended, of `size` bytes, as `p` reads it. -/
def Written {α : Type} (enc enc' : ScfEncoder) (p : Decoder α) (size : ℕ) (ok : Prop)
    (post : α → Prop) : Prop :=
  ∃ code, enc'.buf = enc.buf ++ code ∧ code.length = size ∧ Reads usizeBound p code ok post

/-- A value is read back when the decoder's checks hold. -/
def Returns (env : CodecEnv) (limits : LimitConfig) (depth : ℕ) (v : ScValue) : Prop :=
  ∀ enc enc', encodeWithDepth env limits depth enc v = .ok enc' →
    Written enc enc' (decodeValueDepth env limits depth) (v.scfSize env)
      (Everywhere (Bounded env limits) depth v) (· = v.stored)

theorem written_values {depth : ℕ} : ∀ (values : List ScValue) (enc enc' : ScfEncoder),
    (∀ v ∈ values, Returns env limits depth v) →
    encodeValues env limits depth enc values = .ok enc' →
    Written enc enc' (repeatRead (decodeValueDepth env limits depth) values.length)
      (values.map (scfSize env)).sum (∀ v ∈ values, Everywhere (Bounded env limits) depth v)
      (· = storedValues values) := by
  intro values
  induction values with
  | nil =>
      intro enc enc' _ h
      rw [encodeValues] at h
      cases h
      exact ⟨[], (List.append_nil _).symm, rfl,
        (reads_pure (by simp [storedValues])).cast rfl (by simp)⟩
  | cons v values ih =>
      intro enc enc' hreturns h
      rw [encodeValues] at h
      obtain ⟨enc₁, hv, hrest⟩ := bind_ok h
      obtain ⟨code, hbuf, hsize, hreads⟩ := hreturns v (by simp) enc enc₁ hv
      obtain ⟨code', hbuf', hsize', hreads'⟩ :=
        ih enc₁ enc' (fun w hw => hreturns w (.tail _ hw)) hrest
      refine ⟨code ++ code', by rw [hbuf', hbuf, List.append_assoc], by simp [hsize, hsize'], ?_⟩
      refine (hreads.bind fun w hw => hreads'.andThen (f := fun ws => pure (w :: ws)) fun ws hws =>
        ⟨w :: ws, rfl, ?_⟩).cast rfl List.forall_mem_cons.symm
      rw [hw, hws, storedValues]

/-- The keys and values of a map, in the order of their encoding. -/
theorem written_pairs {depth : ℕ} : ∀ (pairs : List (ScValue × ScValue)) (enc enc' : ScfEncoder),
    (∀ v ∈ pairs.flatMap fun kv => [kv.1, kv.2], Returns env limits depth v) →
    encodePairs env limits depth enc pairs = .ok enc' →
    Written enc enc' (repeatRead (decodePair (decodeValueDepth env limits depth)) pairs.length)
      ((pairs.flatMap fun kv => [kv.1, kv.2]).map (scfSize env)).sum
      (∀ v ∈ pairs.flatMap fun kv => [kv.1, kv.2], Everywhere (Bounded env limits) depth v)
      (· = storedPairs pairs) := by
  intro pairs
  induction pairs with
  | nil =>
      intro enc enc' _ h
      rw [encodePairs] at h
      cases h
      exact ⟨[], (List.append_nil _).symm, rfl,
        (reads_pure (by simp [storedPairs])).cast rfl (by simp)⟩
  | cons kv pairs ih =>
      intro enc enc' hreturns h
      obtain ⟨k, v⟩ := kv
      rw [encodePairs] at h
      obtain ⟨enc₁, hk, h⟩ := bind_ok h
      obtain ⟨enc₂, hv, hrest⟩ := bind_ok h
      rw [List.flatMap_cons, List.forall_mem_append] at hreturns
      obtain ⟨code, hbuf, hsize, hreads⟩ := hreturns.1 k (by simp) enc enc₁ hk
      obtain ⟨code', hbuf', hsize', hreads'⟩ := hreturns.1 v (by simp) enc₁ enc₂ hv
      obtain ⟨code'', hbuf'', hsize'', hreads''⟩ := ih enc₂ enc' hreturns.2 hrest
      have hpair : Reads usizeBound (decodePair (decodeValueDepth env limits depth)) (code ++ code')
          (∀ w ∈ [k, v], Everywhere (Bounded env limits) depth w)
          (· = (k.stored, v.stored)) := by
        refine (hreads.bind fun a ha => hreads'.andThen fun b hb => ⟨(a, b), rfl, ?_⟩).cast rfl ?_
        · rw [ha, hb]
        · simp
      refine ⟨code ++ code' ++ code'', by simp [hbuf'', hbuf', hbuf], ?_, ?_⟩
      · simp only [List.flatMap_cons, List.map_append, List.sum_append, List.map_cons, List.map_nil,
          List.sum_cons, List.sum_nil, List.length_append, hsize, hsize', hsize'']
        omega
      refine (hpair.bind fun w hw => hreads''.andThen (f := fun ws => pure (w :: ws)) fun ws hws =>
        ⟨w :: ws, rfl, ?_⟩).cast rfl (by rw [List.flatMap_cons, List.forall_mem_append])
      rw [hw, hws, storedPairs]

theorem written_props {depth : ℕ} :
    ∀ (props : List (Utf16String × ScValue)) (enc enc' : ScfEncoder),
    (∀ kv ∈ props, Returns env limits depth kv.2) →
    encodeProps env limits depth enc props = .ok enc' →
    Written enc enc' (repeatRead (decodeProp (decodeValueDepth env limits depth)) props.length)
      (keysSize props + ((props.map Prod.snd).map (scfSize env)).sum)
      (∀ v ∈ props.map Prod.snd, Everywhere (Bounded env limits) depth v)
      (· = storedProps props) := by
  intro props
  induction props with
  | nil =>
      intro enc enc' _ h
      rw [encodeProps] at h
      cases h
      exact ⟨[], (List.append_nil _).symm, rfl,
        (reads_pure (by simp [storedProps])).cast rfl (by simp)⟩
  | cons kv props ih =>
      intro enc enc' hreturns h
      obtain ⟨key, val⟩ := kv
      rw [encodeProps] at h
      obtain ⟨enc₁, hval, hrest⟩ := bind_ok h
      obtain ⟨code, hbuf, hsize, hreads⟩ := hreturns (key, val) (by simp) _ enc₁ hval
      obtain ⟨code', hbuf', hsize', hreads'⟩ :=
        ih enc₁ enc' (fun w hw => hreturns w (.tail _ hw)) hrest
      have hprop : Reads usizeBound (decodeProp (decodeValueDepth env limits depth))
          (encodeStringValue key ++ code) (Everywhere (Bounded env limits) depth val)
          (· = (key, val.stored)) := by
        refine ((reads_string key).bind fun k hk => hreads.andThen fun w hw =>
          ⟨(k, w), rfl, ?_⟩).cast rfl (Iff.of_eq (true_and _))
        rw [hk, hw]
      refine ⟨encodeStringValue key ++ code ++ code', by simp [hbuf', hbuf, ScfEncoder.push],
        ?_, ?_⟩
      · simp only [keysSize, List.map_cons, List.sum_cons, List.length_append, hsize, hsize']
        omega
      refine (hprop.bind fun w hw => hreads'.andThen (f := fun ws => pure (w :: ws)) fun ws hws =>
        ⟨w :: ws, rfl, ?_⟩).cast rfl (by rw [List.map_cons, List.forall_mem_cons])
      rw [hw, hws, storedProps]

/-- The elements from index `i` on, which are read into places that are still holes. -/
theorem written_items {depth : ℕ} :
    ∀ (elements : List (Option ScValue)) (i : ℕ) (enc enc' : ScfEncoder),
    i + elements.length < 2 ^ 64 →
    (∀ v ∈ elements.reduceOption, Returns env limits depth v) →
    encodeItems env limits depth i enc elements = .ok enc' →
    ∃ code, enc'.buf = enc.buf ++ code ∧
      code.length = indexSize i elements + (elements.reduceOption.map (scfSize env)).sum ∧
      ∀ before : List (Option ScValue), before.length = i →
        Reads usizeBound
          (decodeItems (decodeValueDepth env limits depth) (i + elements.length)
            elements.reduceOption.length (before ++ List.replicate elements.length none))
          code (∀ v ∈ elements.reduceOption, Everywhere (Bounded env limits) depth v)
          (· = before ++ storedElements elements) := by
  intro elements
  induction elements with
  | nil =>
      intro i enc enc' _ _ h
      rw [encodeItems] at h
      cases h
      refine ⟨[], (List.append_nil _).symm, rfl, fun before _ => ?_⟩
      exact (reads_pure (by simp [storedElements])).cast rfl (by simp)
  | cons element elements ih =>
      intro i enc enc' hlength hreturns h
      have hshift : i + (element :: elements).length = i + 1 + elements.length := by
        rw [List.length_cons]
        omega
      rw [hshift] at hlength ⊢
      cases element with
      | none =>
          rw [encodeItems] at h
          obtain ⟨code, hbuf, hsize, hreads⟩ := ih (i + 1) enc enc' hlength hreturns h
          refine ⟨code, hbuf, hsize, fun before hbefore => ?_⟩
          -- the hole keeps the place as it was
          have hplace : before ++ List.replicate (none :: elements).length none =
              (before ++ [none]) ++ List.replicate elements.length (none : Option ScValue) := by
            rw [List.length_cons, List.replicate_succ, List.append_assoc]
            rfl
          rw [hplace]
          refine (hreads (before ++ [none]) (by simp [hbefore])).imp Iff.rfl ?_
          rintro _ rfl
          rw [storedElements, List.append_assoc, List.singleton_append]
      | some v =>
          rw [encodeItems] at h
          obtain ⟨enc₁, hv, hrest⟩ := bind_ok h
          obtain ⟨code, hbuf, hsize, hreads⟩ := hreturns v (by simp) _ enc₁ hv
          obtain ⟨code', hbuf', hsize', hreads'⟩ :=
            ih (i + 1) enc₁ enc' hlength (fun w hw => hreturns w (by simp [hw])) hrest
          refine ⟨encodeLen i ++ (code ++ code'), by simp [hbuf', hbuf, ScfEncoder.push], ?_, ?_⟩
          · simp only [indexSize, List.reduceOption_cons_of_some, List.map_cons, List.sum_cons,
              List.length_append, hsize, hsize']
            omega
          intro before hbefore
          rw [List.reduceOption_cons_of_some, List.length_cons, decodeItems]
          refine (reads_decodeUsize (n := i) (by omega)).next ?_
          rintro index rfl
          rw [if_neg (by omega)]
          refine (hreads.bind fun w hw => ?_).cast rfl List.forall_mem_cons.symm
          have hplace : (before ++ List.replicate (some v :: elements).length none)[index]?.getD
              (none : Option ScValue) = none := by
            simp [← hbefore, List.replicate_succ]
          have hset :
              (before ++ List.replicate (some v :: elements).length none).set index (some w) =
              (before ++ [some w]) ++ List.replicate elements.length (none : Option ScValue) := by
            simp [← hbefore, List.replicate_succ]
          rw [hplace, hset, if_neg (by simp)]
          refine (hreads' (before ++ [some w]) (by simp [hbefore])).imp Iff.rfl ?_
          rintro _ rfl
          rw [hw, storedElements, List.append_assoc, List.singleton_append]

end Clone

end BoaIdb
