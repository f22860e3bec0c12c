import BoaIdb.Clone.Visits

/-!
What the memo references of a document stand for.

Behind the objects entered so far the memo table has one slot each, in their order. The slot
of an object holds its complete value once it is decoded, and the placeholder until then. So
a reference from within an object to this object is the one that finds a placeholder.
-/

namespace BoaIdb.Clone

open StreamReader

/-- The objects among what is entered. -/
def objects (l : List Visit) : List Visit := l.filter Visit.isObject

theorem objects_append (l l' : List Visit) : objects (l ++ l') = objects l ++ objects l' :=
  List.filter_append ..

theorem objects_cons_of_isObject {w : Visit} (h : w.isObject = true) (l : List Visit) :
    objects (w :: l) = w :: objects l :=
  List.filter_cons_of_pos h

namespace Visit

variable (env : CodecEnv) (limits : LimitConfig)

/-- The value that is decoded here. -/
def decoded (w : Visit) : Option ScValue := (w.result env limits).toOption.map Prod.fst

/-- The complete value of an object. -/
def complete (w : Visit) : ScValue := (w.decoded env limits).getD .undefined

/-- The slot of an object while the objects with the numbers `within` are being decoded. -/
def slot (within : List ℕ) (w : Visit) : ScValue :=
  if w.number ∈ within then .undefined else w.complete env limits

/-- The number that a memo reference here names. -/
def refersTo (w : Visit) : Option ℕ :=
  match w.stream.input with
  | [] => none
  | tag :: rest =>
      if tag = tagMemoRef then
        match decodeUvarint.run ⟨w.stream.offset + 1, rest, w.stream.kept⟩ with
        | .ok (idx, _) => some idx.toNat
        | .error _ => none
      else none

end Visit

section Table

variable {env : CodecEnv} {limits : LimitConfig}

/-- What stands behind the tag of an object, and what it makes of it. -/
theorem object_of_isObject {w : Visit} (h : w.isObject = true) :
    ∃ tag rest, w.stream.input = tag :: rest ∧ isObjectTag tag = true := by
  cases hs : w.stream.input with
  | nil =>
      rw [Visit.isObject, hs] at h
      cases h
  | cons tag rest => exact ⟨tag, rest, rfl, (isObject_of_cons hs).symm.trans h⟩

theorem object_traces (levels : ℕ) (tag : UInt8) :
    Traces 0 .overflow (decodeValueLevels env limits levels)
      (decodeBody (decodeValueLevels env limits levels) env limits tag)
      (bodyCalls (decodeValueLevels env limits levels) env limits tag) :=
  traces_body total_of_run (by decide) env limits fun _ => rfl

/-- A value that owns no slot leaves the table alone. -/
theorem kept_of_leaf {levels : ℕ} {w : Visit} (h : w.isObject = false) {v : ScValue}
    {t : Stream (List ScValue)}
    (hrun : (decodeValueLevels env limits (levels + 1)).run w.stream = .ok (v, t)) :
    t.kept = w.stream.kept := by
  cases hs : w.stream.input with
  | nil =>
      rw [run_empty hs] at hrun
      cases hrun
  | cons tag rest =>
      rw [isObject_of_cons hs] at h
      rw [run_leaf hs] at hrun
      have hplain : Plain 0 .overflow
          (decodeTagged env limits (decodeValueLevels env limits levels) tag) :=
        plain_decodeTagged env limits _ (by decide) h fun _ => rfl
      exact (hplain.skips hrun).kept

theorem result_eq {levels : ℕ} {w : Visit} (h : levels + w.depth = limits.maxCloneDepth + 1) :
    w.result env limits = (decodeValueLevels env limits levels).run w.stream := by
  rw [Visit.result, decodeValueDepth_eq h]

variable (env limits) in
/-- The complete values of the objects that are entered from here. -/
def completes (levels : ℕ) (w : Visit) : List ScValue :=
  (objects (visits env limits levels w)).map (Visit.complete env limits)

theorem completes_flatMap (levels : ℕ) (w : Visit) (l : List (Stream (List ScValue))) :
    l.flatMap (fun t => completes env limits levels (w.child t)) =
      (objects ((l.map w.child).flatMap (visits env limits levels))).map
        (Visit.complete env limits) := by
  rw [objects, List.flatMap_map, List.filter_flatMap, List.map_flatMap]
  rfl

/-- A decoded value adds the complete values of the objects in it. -/
theorem kept_of_run : ∀ {levels : ℕ} {w : Visit} {v : ScValue} {t : Stream (List ScValue)},
    levels + w.depth = limits.maxCloneDepth + 1 →
    (decodeValueLevels env limits levels).run w.stream = .ok (v, t) →
    t.kept = w.stream.kept ++ completes env limits levels w
  | 0, w, v, t, _, hrun => by cases hrun
  | levels + 1, w, v, t, hdepth, hrun => by
      cases hobject : w.isObject with
      | false =>
          rw [kept_of_leaf hobject hrun, completes, visits, nested_leaf hobject, objects,
            List.filter_cons_of_neg (Bool.eq_false_iff.mp hobject)]
          exact (List.append_nil _).symm
      | true =>
          obtain ⟨tag, rest, hs, htag⟩ := object_of_isObject hobject
          have hcomplete : w.complete env limits = v := by
            rw [Visit.complete, Visit.decoded, result_eq hdepth, hrun]
            rfl
          rw [run_object hs htag] at hrun
          cases hbody : (decodeBody (decodeValueLevels env limits levels) env limits tag).run
            w.opened with
          | error e =>
              rw [hbody] at hrun
              cases hrun
          | ok r =>
              rw [hbody] at hrun
              cases hrun
              have hgrown := ((object_traces levels tag).ends hbody).kept fun u _ b v hcall =>
                kept_of_run (w := w.child u) (show levels + (w.depth + 1) = _ by omega) hcall
              have hall : completes env limits (levels + 1) w = w.complete env limits ::
                  (bodyCalls (decodeValueLevels env limits levels) env limits tag w.opened).flatMap
                    fun t => completes env limits levels (w.child t) := by
                rw [completes, visits, objects_cons_of_isObject hobject, nested_object hs htag,
                  List.map_cons, completes_flatMap]
                rfl
              rw [hall, hcomplete]
              show r.2.kept.set w.number r.1 = _
              -- the placeholder is the first slot behind those from before
              rw [hgrown, Visit.opened, List.append_assoc, List.singleton_append]
              rw [show w.number = w.stream.kept.length from rfl,
                List.set_append_right _ _ (Nat.le_refl _), Nat.sub_self]
              rfl

/-- Where a nested value is entered, the objects before it are complete. -/
theorem nested_split {levels : ℕ} {w x : Visit} {before behind : List Visit}
    (hdepth : levels + 1 + w.depth = limits.maxCloneDepth + 1)
    (h : nested env limits levels w = before ++ x :: behind) :
    w.isObject = true ∧ x.depth = w.depth + 1 ∧ x.within = w.number :: w.within ∧
      x.number = w.number + 1 + (objects (before.flatMap (visits env limits levels))).length ∧
      x.stream.kept = w.stream.kept ++ .undefined ::
        (objects (before.flatMap (visits env limits levels))).map (Visit.complete env limits) := by
  cases hobject : w.isObject with
  | false =>
      rw [nested_leaf hobject] at h
      simp at h
  | true =>
      obtain ⟨tag, rest, hs, htag⟩ := object_of_isObject hobject
      rw [nested_object hs htag] at h
      obtain ⟨l, l', hcalls, rfl, hx⟩ := List.map_eq_append_iff.mp h
      obtain ⟨t, l'', rfl, rfl, -⟩ := List.map_eq_cons_iff.mp hx
      have hkept := ((object_traces levels tag).reaches hcalls).kept fun u _ b v hcall =>
        kept_of_run (w := w.child u) (show levels + (w.depth + 1) = _ by omega) hcall
      rw [completes_flatMap, Visit.opened, List.append_assoc, List.singleton_append] at hkept
      have hnumber := congrArg List.length hkept
      rw [List.length_append, List.length_cons, List.length_map] at hnumber
      refine ⟨rfl, rfl, rfl, ?_, hkept⟩
      show t.kept.length = w.stream.kept.length + 1 + _
      rw [hnumber, Nat.add_assoc, Nat.add_comm 1]
      rfl

/-- An object gets as its number how many objects are entered before it. -/
theorem number_of_visits : ∀ {levels : ℕ} {w u : Visit} {before behind : List Visit},
    levels + w.depth = limits.maxCloneDepth + 1 →
    visits env limits levels w = before ++ u :: behind →
    u.number = w.number + (objects before).length
  | 0, w, u, before, behind, _, h => by simp [visits] at h
  | levels + 1, w, u, [], behind, _, h => by
      obtain ⟨rfl, -⟩ := List.cons.inj h
      rfl
  | levels + 1, w, u, v :: before, behind, hdepth, h => by
      obtain ⟨rfl, htail⟩ := List.cons.inj h
      obtain ⟨c, x, d, inner, outer, hnested, hx, rfl⟩ := flatMap_split htail
      obtain ⟨hobject, hxdepth, -, hxnumber, -⟩ := nested_split hdepth hnested
      have hnumber := number_of_visits (by omega) hx
      rw [hnumber, hxnumber, objects_cons_of_isObject hobject, objects_append, List.length_cons,
        List.length_append]
      omega

/-- An object that is done has a number between those of the objects around it and of the next. -/
theorem number_lt_of_done {levels : ℕ} {w x o : Visit} {c d : List Visit}
    (hdepth : levels + 1 + w.depth = limits.maxCloneDepth + 1)
    (hnested : nested env limits levels w = c ++ x :: d)
    (ho : o ∈ objects (c.flatMap (visits env limits levels))) :
    w.number < o.number ∧ o.number < x.number := by
  obtain ⟨hmem, hobject⟩ := List.mem_filter.mp ho
  obtain ⟨l, r, hsplit⟩ := List.append_of_mem hmem
  obtain ⟨hw, -, -, hxnumber, -⟩ := nested_split hdepth hnested
  have hvisits : visits env limits (levels + 1) w =
      (w :: l) ++ o :: (r ++ (x :: d).flatMap (visits env limits levels)) := by
    rw [visits, hnested, List.flatMap_append, hsplit, List.append_assoc]
    rfl
  have hnumber := number_of_visits hdepth hvisits
  rw [objects_cons_of_isObject hw, List.length_cons] at hnumber
  rw [hsplit, objects_append, objects_cons_of_isObject hobject, List.length_append,
    List.length_cons] at hxnumber
  omega

/-- The objects around a value are those around the start and some entered since. -/
theorem within_of_visits : ∀ {levels : ℕ} {w u : Visit},
    levels + w.depth = limits.maxCloneDepth + 1 → u ∈ visits env limits levels w →
    ∃ m, u.within = m ++ w.within ∧ ∀ i ∈ m, w.number ≤ i
  | 0, w, u, _, h => by cases h
  | levels + 1, w, u, hdepth, h => by
      rw [visits, List.mem_cons] at h
      rcases h with rfl | h
      · exact ⟨[], rfl, fun _ hi => absurd hi List.not_mem_nil⟩
      · obtain ⟨x, hx, hu⟩ := List.mem_flatMap.mp h
        obtain ⟨c, d, hsplit⟩ := List.append_of_mem hx
        obtain ⟨-, hxdepth, hxwithin, hxnumber, -⟩ := nested_split hdepth hsplit
        obtain ⟨m, hm, hle⟩ := within_of_visits (by omega) hu
        refine ⟨m ++ [w.number], by rw [hm, hxwithin, List.append_assoc]; rfl, ?_⟩
        intro i hi
        rcases List.mem_append.mp hi with hi | hi
        · have hxle := hle i hi
          omega
        · exact (List.mem_singleton.mp hi).ge

/-- The table at a value: placeholders for the objects around it, complete values for the others. -/
theorem table_of_visits : ∀ {levels : ℕ} {w u : Visit} {before behind : List Visit},
    levels + w.depth = limits.maxCloneDepth + 1 → (∀ i ∈ w.within, i < w.number) →
    visits env limits levels w = before ++ u :: behind →
    u.stream.kept = w.stream.kept ++ (objects before).map (Visit.slot env limits u.within)
  | 0, w, u, before, behind, _, _, h => by simp [visits] at h
  | levels + 1, w, u, [], behind, _, _, h => by
      obtain ⟨rfl, -⟩ := List.cons.inj h
      exact (List.append_nil _).symm
  | levels + 1, w, u, v :: before, behind, hdepth, hwithin, h => by
      obtain ⟨rfl, htail⟩ := List.cons.inj h
      obtain ⟨c, x, d, inner, outer, hnested, hx, rfl⟩ := flatMap_split htail
      obtain ⟨hobject, hxdepth, hxwithin, hxnumber, hkept⟩ := nested_split hdepth hnested
      have hxouter : ∀ i ∈ x.within, i < x.number := by
        rw [hxwithin]
        intro i hi
        rcases List.mem_cons.mp hi with rfl | hi
        · omega
        · have hlt := hwithin i hi
          omega
      have htable := table_of_visits (by omega) hxouter hx
      have hmem : u ∈ visits env limits levels x := by
        rw [hx]
        exact List.mem_append_right _ (.head _)
      obtain ⟨m, hm, hle⟩ := within_of_visits (by omega) hmem
      -- the object that is being decoded
      have hopen : w.slot env limits u.within = .undefined := by
        rw [Visit.slot, if_pos]
        rw [hm, hxwithin]
        exact List.mem_append_right _ (.head _)
      -- the objects that are done
      have hdone :
          (objects (c.flatMap (visits env limits levels))).map (Visit.slot env limits u.within) =
          (objects (c.flatMap (visits env limits levels))).map (Visit.complete env limits) := by
        apply List.map_congr_left
        intro o ho
        have hbefore := number_lt_of_done hdepth hnested ho
        rw [Visit.slot, if_neg]
        rw [hm, hxwithin]
        intro hi
        rcases List.mem_append.mp hi with hi | hi
        · have hxle := hle _ hi
          omega
        · rcases List.mem_cons.mp hi with hi | hi
          · omega
          · have hlt := hwithin _ hi
            omega
      rw [htable, hkept, objects_cons_of_isObject hobject, objects_append, List.map_cons,
        List.map_append, hopen, hdone, List.append_assoc, List.cons_append]

/-- A value that cannot be decoded stops the run with its error. -/
theorem failed_of_visits : ∀ {levels : ℕ} {w u : Visit} {e : DecodeFailure},
    levels + w.depth = limits.maxCloneDepth + 1 → u ∈ visits env limits levels w →
    u.result env limits = .error e → w.result env limits = .error e
  | 0, w, u, e, _, h, _ => by cases h
  | levels + 1, w, u, e, hdepth, h, hfails => by
      rw [visits, List.mem_cons] at h
      rcases h with rfl | h
      · exact hfails
      · obtain ⟨x, hx, hu⟩ := List.mem_flatMap.mp h
        obtain ⟨c, d, hsplit⟩ := List.append_of_mem hx
        obtain ⟨hobject, hxdepth, -, -, -⟩ := nested_split hdepth hsplit
        have hxfails := failed_of_visits (by omega) hu hfails
        obtain ⟨tag, rest, hs, htag⟩ := object_of_isObject hobject
        rw [nested_object hs htag] at hx
        obtain ⟨t, ht, rfl⟩ := List.mem_map.mp hx
        have hlevels : levels + (w.depth + 1) = limits.maxCloneDepth + 1 := by omega
        rw [result_eq (w := ⟨w.depth + 1, t, w.number :: w.within⟩) hlevels] at hxfails
        rw [result_eq hdepth, run_object hs htag, (object_traces levels tag).passes ht hxfails]
        rfl

/-! ### Complete values -/

/-- What a reader returns satisfies `post`. -/
def Produces (d : Decoder ScValue) (post : ScValue → Prop) : Prop :=
  ∀ (s t : Stream (List ScValue)) (v : ScValue), d.run s = .ok (v, t) → post v

theorem Produces.behind {α : Type} {d : Decoder α} {f : α → Decoder ScValue} {post : ScValue → Prop}
    (h : ∀ a, Produces (f a) post) : Produces (d >>= f) post := by
  intro s t v hrun
  obtain ⟨a, u, -, hf⟩ := run_bind_ok hrun
  exact h a u t v hf

theorem produces_pure {v : ScValue} {post : ScValue → Prop} (h : post v) :
    Produces (pure v) post := by
  intro s t u hrun
  cases hrun
  exact h

theorem produces_throw {e : DecodeFailure} {post : ScValue → Prop} : Produces (throw e) post := by
  intro s t v hrun
  cases hrun

theorem produces_fail {e : ScError} {post : ScValue → Prop} : Produces (fail e) post :=
  produces_throw

theorem Produces.ite {c : Prop} [Decidable c] {d d' : Decoder ScValue} {post : ScValue → Prop}
    (h : Produces d post) (h' : Produces d' post) : Produces (if c then d else d') post := by
  intro s t v hrun
  split at hrun
  · exact h s t v hrun
  · exact h' s t v hrun

theorem boxedOf_ne_undefined {subtag : UInt8} {inner v : ScValue}
    (h : boxedOf subtag inner = .ok v) :
    v ≠ .undefined := by
  rintro rfl
  unfold boxedOf at h
  split_ifs at h
  all_goals
    cases inner <;> cases h

/-- No object decodes to the placeholder. -/
theorem produces_body (p : Decoder ScValue) (limits : LimitConfig) (tag : UInt8) :
    Produces (decodeBody p env limits tag) (· ≠ .undefined) := by
  rw [decodeBody]
  refine Produces.ite ?array <| Produces.ite ?object <| Produces.ite ?map <| Produces.ite ?set <|
    Produces.ite ?error <| Produces.ite ?buffer <| Produces.ite ?typedArray <|
      Produces.ite ?view ?boxed
  case array =>
    refine .behind fun header => ?_
    obtain ⟨length, dense⟩ := header
    exact produces_throw.ite <| .behind fun _ => .behind fun _ =>
      .behind fun _ => produces_fail.ite <| .behind fun _ => produces_pure fun h => by cases h
  case object =>
    exact .behind fun _ => .behind fun _ => produces_fail.ite <| .behind fun _ =>
      produces_pure fun h => by cases h
  case map =>
    exact .behind fun _ => .behind fun _ => produces_fail.ite <| .behind fun _ =>
      produces_pure fun h => by cases h
  case set =>
    exact .behind fun _ => .behind fun _ => produces_fail.ite <| .behind fun _ =>
      produces_pure fun h => by cases h
  case error =>
    refine .behind fun kindByte => ?_
    cases ScErrorKind.fromU8 kindByte with
    | none => exact produces_fail
    | some kind =>
        exact .behind fun _ => .behind fun _ => .behind fun _ => .behind fun _ =>
          produces_pure fun h => by cases h
  case buffer =>
    exact .behind fun _ => .behind fun _ => .behind fun _ =>
      produces_pure fun h => by cases h
  case typedArray =>
    refine .behind fun kindByte => ?_
    cases ScTypedArrayKind.fromU8 kindByte with
    | none => exact produces_fail
    | some kind =>
        exact .behind fun _ => .behind fun _ => .behind fun _ =>
          produces_pure fun h => by cases h
  case view =>
    exact .behind fun _ => .behind fun _ => .behind fun _ =>
      produces_pure fun h => by cases h
  case boxed =>
    refine .behind fun subtag => produces_fail.ite <| .behind fun inner => ?_
    cases hboxed : boxedOf subtag inner with
    | error e => exact produces_fail
    | ok value => exact produces_pure (boxedOf_ne_undefined hboxed)

theorem complete_of_result {w : Visit} {v : ScValue} {t : Stream (List ScValue)}
    (h : w.result env limits = .ok (v, t)) :
    w.decoded env limits = some v ∧ w.complete env limits = v := by
  have hdecoded : w.decoded env limits = some v := by
    rw [Visit.decoded, h]
    rfl
  exact ⟨hdecoded, by rw [Visit.complete, hdecoded]; rfl⟩

theorem object_ne_undefined {w : Visit} {v : ScValue} {t : Stream (List ScValue)}
    (hobject : w.isObject = true) (h : w.result env limits = .ok (v, t)) : v ≠ .undefined := by
  obtain ⟨tag, rest, hs, htag⟩ := object_of_isObject hobject
  rw [Visit.result, decodeValueDepth] at h
  cases hlevels : limits.maxCloneDepth + 1 - w.depth with
  | zero =>
      rw [hlevels] at h
      cases h
  | succ levels =>
      rw [hlevels, run_object hs htag] at h
      cases hbody : (decodeBody (decodeValueLevels env limits levels) env limits tag).run
        w.opened with
      | error e =>
          rw [hbody] at h
          cases h
      | ok r =>
          rw [hbody] at h
          cases h
          exact produces_body _ limits tag _ _ _ hbody

/-! ### References -/

/-- A reference reads the slot that it names. -/
theorem result_of_refersTo {w : Visit} {i : ℕ} (hdepth : w.depth ≤ limits.maxCloneDepth)
    (h : w.refersTo = some i) :
    (∀ v, w.stream.kept[i]? = some v → ∃ t, w.result env limits = .ok (v, t)) ∧
    (w.stream.kept[i]? = none →
      w.result env limits = .error (.error (.invalidMemoRef (UInt64.ofNat i)))) := by
  obtain ⟨levels, hlevels⟩ : ∃ levels, limits.maxCloneDepth + 1 - w.depth = levels + 1 :=
    Nat.exists_eq_succ_of_ne_zero (by omega)
  rw [Visit.refersTo] at h
  split at h
  · cases h
  next tag rest hs =>
    split at h
    next htag =>
      subst htag
      split at h
      next idx t hidx =>
        cases h
        have hrun : w.result env limits =
            (decodeMemoRef).run ⟨w.stream.offset + 1, rest, w.stream.kept⟩ := by
          rw [Visit.result, decodeValueDepth, hlevels, run_leaf hs]
          rfl
        have hplain : Plain 0 .overflow decodeUvarint := plain_decodeUvarint
        have hkept : t.kept = w.stream.kept := (hplain.skips hidx).kept
        rw [hrun, decodeMemoRef, run_bind_of_ok hidx]
        constructor
        · intro v hv
          refine ⟨t, ?_⟩
          rw [← hkept] at hv
          exact (run_bind_of_ok rfl).trans (by rw [hv]; rfl)
        · intro hnone
          rw [← hkept] at hnone
          rw [UInt64.ofNat_toNat]
          exact (run_bind_of_ok rfl).trans (by rw [hnone]; rfl)
      · cases h
    · cases h

theorem objects_split {l : List Visit} {i : ℕ} {o : Visit} (h : (objects l)[i]? = some o) :
    ∃ before behind, l = before ++ o :: behind ∧ (objects before).length = i ∧
      o.isObject = true := by
  obtain ⟨hi, ho⟩ := List.getElem?_eq_some_iff.mp h
  have hsplit : l.filter Visit.isObject = (objects l).take i ++ o :: (objects l).drop (i + 1) := by
    rw [← ho, List.getElem_cons_drop, List.take_append_drop]
    rfl
  obtain ⟨l₁, l₂, rfl, hl₁, hl₂⟩ := List.filter_eq_append_iff.mp hsplit
  obtain ⟨m₁, m₂, rfl, hm₁, hobject, -⟩ := List.filter_eq_cons_iff.mp hl₂
  refine ⟨l₁ ++ m₁, m₂, (List.append_assoc ..).symm, ?_, hobject⟩
  have hnone : objects m₁ = [] := List.filter_eq_nil_iff.mpr hm₁
  rw [objects_append, hnone, List.append_nil]
  show (l₁.filter Visit.isObject).length = i
  rw [hl₁, List.length_take]
  omega

/-- The values that a run from the start of the body enters. -/
theorem start_visits {data : Bytes} {w : Visit}
    (hw : w ∈ visits env limits (limits.maxCloneDepth + 1) (scfStart data)) :
    ∃ before behind,
      visits env limits (limits.maxCloneDepth + 1) (scfStart data) = before ++ w :: behind ∧
      w.stream.kept = (objects before).map (Visit.slot env limits w.within) ∧
      w.depth ≤ limits.maxCloneDepth := by
  obtain ⟨before, behind, hsplit⟩ := List.append_of_mem hw
  have hdepth := depth_of_visits hw
  rw [show (scfStart data).depth = 0 from rfl] at hdepth
  refine ⟨before, behind, hsplit, ?_, by omega⟩
  exact table_of_visits rfl (fun _ hi => absurd hi List.not_mem_nil) hsplit

theorem number_of_object {data : Bytes} {i : ℕ} {o : Visit}
    (h : (objects (visits env limits (limits.maxCloneDepth + 1) (scfStart data)))[i]? = some o) :
    o.number = i := by
  obtain ⟨before, behind, hsplit, hlength, -⟩ := objects_split h
  rw [number_of_visits rfl hsplit, hlength]
  exact Nat.zero_add i

/-- In an accepted document a reference stands for the object that it names, or for the
placeholder of an object around it. -/
theorem reference_of_accepted {data : Bytes} {r : ScValue × Stream (List ScValue)} {w : Visit}
    {i : ℕ}
    (haccepted : (scfStart data).result env limits = .ok r)
    (hw : w ∈ visits env limits (limits.maxCloneDepth + 1) (scfStart data))
    (h : w.refersTo = some i) : ∃ o u,
      (objects (visits env limits (limits.maxCloneDepth + 1) (scfStart data)))[i]? = some o ∧
      o.decoded env limits = some u ∧ u ≠ .undefined ∧
      w.decoded env limits = some (if i ∈ w.within then .undefined else u) := by
  have hall {o : Visit} (ho : o ∈ visits env limits (limits.maxCloneDepth + 1) (scfStart data)) :
      ∃ u t, o.result env limits = .ok (u, t) := by
    cases hresult : o.result env limits with
    | error e =>
        rw [failed_of_visits rfl ho hresult] at haccepted
        cases haccepted
    | ok r => exact ⟨r.1, r.2, rfl⟩
  obtain ⟨before, behind, hsplit, hkept, hdepth⟩ := start_visits hw
  obtain ⟨hfound, hmissing⟩ := result_of_refersTo hdepth h
  cases hslot : w.stream.kept[i]? with
  | none =>
      obtain ⟨u, t, hok⟩ := hall hw
      rw [hmissing hslot] at hok
      cases hok
  | some x =>
      rw [hkept, List.getElem?_map, Option.map_eq_some_iff] at hslot
      obtain ⟨o, ho, rfl⟩ := hslot
      have hindex : (objects (visits env limits (limits.maxCloneDepth + 1) (scfStart data)))[i]? =
          some o := by
        rw [hsplit, objects_append,
          List.getElem?_append_left (List.getElem?_eq_some_iff.mp ho).1, ho]
      have hnumber := number_of_object hindex
      obtain ⟨before', behind', hsplit', -, hobject⟩ := objects_split hindex
      obtain ⟨u, t, hu⟩ := hall (o := o) (by
        rw [hsplit']
        exact List.mem_append_right _ (.head _))
      obtain ⟨hdecoded, hcomplete⟩ := complete_of_result hu
      refine ⟨o, u, hindex, hdecoded, object_ne_undefined hobject hu, ?_⟩
      obtain ⟨t', ht'⟩ := hfound (o.slot env limits w.within) (by
        rw [hkept, List.getElem?_map, ho]
        rfl)
      rw [(complete_of_result ht').1, Visit.slot, hnumber, hcomplete]

end Table

/-- For every document: the object that is entered `i`-th carries the number `i`; a reference
to a number that no object has yet makes the decoding fail; and when the decoding succeeds,
the references stand for the complete values of the objects that they name exactly when none
of them stands within the object that it names. -/
theorem memoRefs_complete_iff (env : CodecEnv) (limits : LimitConfig) (data : Bytes) :
    (∀ (i : ℕ) (o : Visit), (objects (scfVisits env limits data))[i]? = some o → o.number = i) ∧
    (∀ w ∈ scfVisits env limits data, ∀ i, w.refersTo = some i → w.number ≤ i →
      decodeScf env limits data = .error (.error (.invalidMemoRef (UInt64.ofNat i)))) ∧
    ∀ v, decodeScf env limits data = .ok v →
      ((∀ w ∈ scfVisits env limits data, ∀ i, w.refersTo = some i →
          ∃ (o : Visit) (u : ScValue), (objects (scfVisits env limits data))[i]? = some o ∧
            o.decoded env limits = some u ∧ w.decoded env limits = some u) ↔
        ∀ w ∈ scfVisits env limits data, ∀ i, w.refersTo = some i → i ∉ w.within) := by
  rw [scfVisits]
  by_cases hframed : Framed limits data
  · rw [if_pos hframed, decodeScf_framed env limits hframed]
    refine ⟨fun i o => number_of_object, ?_, ?_⟩
    · intro w hw i h hbeyond
      obtain ⟨before, behind, -, -, hdepth⟩ := start_visits hw
      have hmissing : w.result env limits = .error (.error (.invalidMemoRef (UInt64.ofNat i))) :=
        (result_of_refersTo hdepth h).2 (List.getElem?_eq_none hbeyond)
      rw [failed_of_visits rfl hw hmissing]
      rfl
    · intro v hv
      cases haccepted : (scfStart data).result env limits with
      | error e =>
          rw [haccepted] at hv
          cases hv
      | ok r =>
          constructor
          · intro hcomplete w hw i h hwithin
            obtain ⟨o, u, ho, hu, hne, hdecoded⟩ := reference_of_accepted haccepted hw h
            obtain ⟨o', u', ho', hu', hdecoded'⟩ := hcomplete w hw i h
            rw [hdecoded, if_pos hwithin] at hdecoded'
            rw [Option.some.inj (ho.symm.trans ho'), hu', ← hdecoded'] at hu
            exact hne (Option.some.inj hu).symm
          · intro houtside w hw i h
            obtain ⟨o, u, ho, hu, -, hdecoded⟩ := reference_of_accepted haccepted hw h
            rw [if_neg (houtside w hw i h)] at hdecoded
            exact ⟨o, u, ho, hu, hdecoded⟩
  · rw [if_neg hframed]
    obtain ⟨e, he⟩ := decodeScf_not_framed env limits hframed
    refine ⟨nofun, nofun, fun v hv => ?_⟩
    rw [he] at hv
    cases hv

/-- An array of one item, which refers to the array. -/
def selfReference : Bytes := [tagArray, 1, 1, 0, tagMemoRef, 0, 0]

theorem self_reference_undefined :
    ¬ ∀ (env : CodecEnv) (limits : LimitConfig) (data : Bytes) (v : ScValue),
      decodeScf env limits data = .ok v →
        ∀ w ∈ scfVisits env limits data, ∀ i, w.refersTo = some i →
          ∃ (o : Visit) (u : ScValue), (objects (scfVisits env limits data))[i]? = some o ∧
            o.decoded env limits = some u ∧ w.decoded env limits = some u := by
  intro h
  let array : Visit := ⟨0, ⟨0, selfReference, []⟩, []⟩
  let item : Visit := ⟨1, ⟨4, [tagMemoRef, 0, 0], [.undefined]⟩, [0]⟩
  have hvisits : scfVisits standardEnv {} (document selfReference) = [array, item] := by
    rw [scfVisits, if_pos (by decide +kernel)]
    rfl
  have hdecoded : decodeScf standardEnv {} (document selfReference) =
      .ok (.array [some .undefined] []) := by
    rw [decodeScf_document _ _ (by decide), if_neg (by decide)]
    rfl
  obtain ⟨o, u, ho, hu, hitem⟩ := h standardEnv {} _ _ hdecoded item (by
    rw [hvisits]
    exact .tail _ (.head _)) 0 rfl
  rw [hvisits] at ho
  have harray : array.decoded standardEnv {} = some (.array [some .undefined] []) := rfl
  have hundefined : item.decoded standardEnv {} = some .undefined := rfl
  obtain rfl : array = o := Option.some.inj ho
  rw [harray] at hu
  rw [hundefined] at hitem
  cases hu
  cases hitem

end BoaIdb.Clone
