import BoaIdb.Engine.KeyRoundTrip

/-!
The check that a key can be injected, the injection as it changes the value in place, and what
an injection leaves as it was.
-/

namespace BoaIdb

open Clone Faults

namespace KeyPath

/-! ### The check and the injection in place -/

/-- `can_inject_single`: the walk along the steps, which ends where an object would be created. -/
def canInjectSteps : List Utf16String → ScValue → Bool
  | [], _ => true
  | [_], .object _ => true
  | step :: steps, .object entries =>
      match entries.lookup step with
      | some v => canInjectSteps steps v
      | none => true
  | _ :: _, _ => false

def canInject (keyPath : KeyPath) (target : ScValue) : Bool :=
  match keyPath with
  | .empty => true
  | .single path => canInjectSteps (splitPathUnits path) target
  | .array _ => false

/-- `inject_single_path`: its result, and the target as it leaves it. An object that is missing
is in the target before the walk goes on. -/
def injectIntoSteps : List Utf16String → ScValue → Key → Except KeyPathError Unit × ScValue
  | [], target, _ => (.ok (), target)
  | [lastStep], .object entries, key =>
      (.ok (), .object (insertEntry entries lastStep (.fromKey key)))
  | step :: steps, .object entries, key =>
      let entries :=
        if (entries.lookup step).isSome then entries else insertEntry entries step (.object [])
      match entries.lookup step with
      | none => (.error (.invalidSyntax "Failed to access intermediate object"), .object entries)
      | some curr =>
          let (result, curr) := injectIntoSteps steps curr key
          (result, .object (insertEntry entries step curr))
  | _ :: _, target, _ => (.error .cannotInjectIntoPrimitive, target)

/-- `KeyPath::inject`. -/
def injectInto (keyPath : KeyPath) (target : ScValue) (key : Key) :
    Except KeyPathError Unit × ScValue :=
  match keyPath with
  | .empty => (.ok (), .fromKey key)
  | .single path => injectIntoSteps (splitPathUnits path) target key
  | .array _ => (.error (.invalidSyntax "Cannot inject into array key path"), target)

/-! ### Properties of an object -/

section Entries

variable {entries : List (Utf16String × ScValue)} {key step : Utf16String} {val : ScValue}

/-- A value that is put back where it was. -/
theorem insertEntry_lookup (h : entries.lookup key = some val) :
    insertEntry entries key val = entries := by
  induction entries with
  | nil => cases h
  | cons e entries ih =>
      obtain ⟨k, v⟩ := e
      rw [insertEntry]
      rw [List.lookup_cons] at h
      split
      · next heq =>
          subst heq
          rw [beq_self_eq_true] at h
          cases h
          rfl
      · next hne =>
          have hkey : (key == k) = false := beq_false_of_ne (Ne.symm hne)
          rw [hkey] at h
          rw [ih h]

theorem insertEntry_insertEntry (val' : ScValue) :
    insertEntry (insertEntry entries key val) key val' = insertEntry entries key val' := by
  induction entries with
  | nil => simp [insertEntry]
  | cons e entries ih =>
      obtain ⟨k, v⟩ := e
      rw [insertEntry, insertEntry]
      split
      · next h => rw [insertEntry, if_pos h]
      · next h => rw [insertEntry, if_neg h, ih]

theorem filter_insertEntry :
    (insertEntry entries key val).filter (fun kv => kv.1 ≠ key) =
      entries.filter fun kv => kv.1 ≠ key := by
  induction entries with
  | nil => simp [insertEntry]
  | cons e entries ih =>
      obtain ⟨k, v⟩ := e
      rw [insertEntry]
      split
      · next h => simp [h]
      · next h => rw [List.filter_cons_of_pos (by simpa using h),
          List.filter_cons_of_pos (by simpa using h), ih]

end Entries

/-! ### The injection in place -/

/-- A created object takes whatever the rest of the path puts into it. -/
theorem injectSteps_created (steps : List Utf16String) (key : Key) :
    ∃ v, injectSteps steps (.object []) key = .ok v := by
  induction steps with
  | nil => exact ⟨_, rfl⟩
  | cons step steps ih =>
      cases steps with
      | nil => exact ⟨_, rfl⟩
      | cons next steps =>
          obtain ⟨v, hv⟩ := ih
          refine ⟨.object (insertEntry [] step v), ?_⟩
          show (injectSteps (next :: steps) (.object []) key >>= _) = _
          rw [hv]
          rfl

/-- In place, a failure leaves the target: the walk fails before it has created anything. -/
theorem injectIntoSteps_eq (steps : List Utf16String) (target : ScValue) (key : Key) :
    injectIntoSteps steps target key =
      ((injectSteps steps target key).map fun _ => (),
        (injectSteps steps target key).toOption.getD target) := by
  induction steps generalizing target with
  | nil => rfl
  | cons step steps ih =>
      cases target with
      | object entries =>
          cases steps with
          | nil => rfl
          | cons next steps =>
              rw [injectIntoSteps, injectSteps]
              · cases hlookup : entries.lookup step with
                | some curr =>
                    simp only [Option.isSome_some, if_true, hlookup, ih curr, Option.getD_some]
                    cases hinner : injectSteps (next :: steps) curr key with
                    | error e =>
                        simp only [Except.map, Except.toOption, Option.getD_none]
                        rw [insertEntry_lookup hlookup]
                        rfl
                    | ok inner => rfl
                | none =>
                    obtain ⟨inner, hinner⟩ := injectSteps_created (next :: steps) key
                    simp only [Option.isSome_none, Bool.false_eq_true, if_false,
                      lookup_insertEntry, ih (.object []), Option.getD_none, hinner]
                    simp only [Except.map, Except.toOption, Option.getD_some,
                      insertEntry_insertEntry]
                    rfl
              · simp
              · simp
      | _ => cases steps <;> rfl

theorem injectInto_eq (keyPath : KeyPath) (target : ScValue) (key : Key) :
    keyPath.injectInto target key =
      ((keyPath.inject target key).map fun _ => (),
        (keyPath.inject target key).toOption.getD target) := by
  cases keyPath with
  | empty => rfl
  | single path => exact injectIntoSteps_eq (splitPathUnits path) target key
  | array paths => rfl

theorem canInjectSteps_iff (steps : List Utf16String) (target : ScValue) (key : Key) :
    canInjectSteps steps target = true ↔ ∃ v, injectSteps steps target key = .ok v := by
  induction steps generalizing target with
  | nil => exact ⟨fun _ => ⟨_, rfl⟩, fun _ => rfl⟩
  | cons step steps ih =>
      cases target with
      | object entries =>
          cases steps with
          | nil => exact ⟨fun _ => ⟨_, rfl⟩, fun _ => rfl⟩
          | cons next steps =>
              have hinner (curr : ScValue) : (∃ v, injectSteps (next :: steps) curr key = .ok v) ↔
                  ∃ v, (injectSteps (next :: steps) curr key >>= fun inner =>
                    .ok (ScValue.object (insertEntry entries step inner))) = Except.ok v := by
                constructor
                · rintro ⟨v, hv⟩
                  rw [hv]
                  exact ⟨_, rfl⟩
                · rintro ⟨v, hv⟩
                  obtain ⟨inner, hinner, -⟩ := bind_ok hv
                  exact ⟨inner, hinner⟩
              rw [canInjectSteps, injectSteps]
              · cases hlookup : entries.lookup step with
                | some curr => exact (ih curr).trans (hinner curr)
                | none =>
                    refine ⟨fun _ => ?_, fun _ => rfl⟩
                    exact (hinner (.object [])).mp (injectSteps_created (next :: steps) key)
              · simp
              · simp
      | _ =>
          cases steps with
          | nil => exact ⟨(fun h => by cases h), (fun ⟨_, h⟩ => by cases h)⟩
          | cons next steps => exact ⟨(fun h => by cases h), (fun ⟨_, h⟩ => by cases h)⟩

/-! ### What an injection leaves -/

/-- The properties of an object other than one are the same and in the same order; that one is
where it was, or behind the others if it was not there. -/
structure SameBut (step : Utf16String) (entries entries' : List (Utf16String × ScValue)) :
    Prop where
  others : entries'.filter (fun kv => kv.1 ≠ step) = entries.filter fun kv => kv.1 ≠ step
  order : entries'.map Prod.fst =
    if step ∈ entries.map Prod.fst then entries.map Prod.fst
    else entries.map Prod.fst ++ [step]

theorem sameBut_insertEntry (entries : List (Utf16String × ScValue)) (step : Utf16String)
    (val : ScValue) : SameBut step entries (insertEntry entries step val) :=
  ⟨filter_insertEntry, keys_insertEntry entries step val⟩

/-- Along the steps of a path only the property on the path differs at each object, and objects
that were not there hold nothing else. -/
structure OffPath (steps : List Utf16String) (target target' : ScValue) : Prop where
  kept : ∀ before step after entries, steps = before ++ step :: after →
    resolveSteps before target = some (.object entries) →
    ∃ entries', resolveSteps before target' = some (.object entries') ∧
      SameBut step entries entries'
  created : ∀ before step after, steps = before ++ step :: after →
    resolveSteps before target = none →
    ∃ val, resolveSteps before target' = some (.object [(step, val)])

/-- The property on the path is the one that was injected into. -/
theorem offPath_cons {step next : Utf16String} {steps : List Utf16String}
    {entries : List (Utf16String × ScValue)} {inner : ScValue}
    (h : OffPath (next :: steps) ((entries.lookup step).getD (.object [])) inner) :
    OffPath (step :: next :: steps) (.object entries)
      (.object (insertEntry entries step inner)) := by
  constructor
  · intro before s after entries₀ hsteps hbefore
    cases before with
    | nil =>
        obtain ⟨rfl, -⟩ := List.cons.inj hsteps
        cases hbefore
        exact ⟨_, rfl, sameBut_insertEntry entries step inner⟩
    | cons b before =>
        obtain ⟨rfl, hrest⟩ := List.cons.inj hsteps
        simp only [resolveSteps, lookup_insertEntry, Option.bind_some] at hbefore ⊢
        cases hlookup : entries.lookup step with
        | none =>
            rw [hlookup] at hbefore
            cases hbefore
        | some curr =>
            rw [hlookup] at hbefore h
            exact h.kept before s after entries₀ hrest hbefore
  · intro before s after hsteps hbefore
    cases before with
    | nil => cases hbefore
    | cons b before =>
        obtain ⟨rfl, hrest⟩ := List.cons.inj hsteps
        simp only [resolveSteps, lookup_insertEntry, Option.bind_some] at hbefore ⊢
        cases hlookup : entries.lookup step with
        | some curr =>
            rw [hlookup] at hbefore h
            exact h.created before s after hrest hbefore
        | none =>
            rw [hlookup] at h
            cases before with
            | cons b before => exact h.created (b :: before) s after hrest rfl
            | nil =>
                -- the object was created for this step
                obtain ⟨entries', hnew, hsame⟩ := h.kept [] s after [] hrest rfl
                rw [hnew]
                have hkeys : entries'.map Prod.fst = [s] := hsame.order
                obtain ⟨kv, rfl, rfl⟩ := List.map_eq_singleton_iff.mp hkeys
                exact ⟨kv.2, rfl⟩

theorem offPath_injectSteps {steps : List Utf16String} {target target' : ScValue} {key : Key}
    (h : injectSteps steps target key = .ok target') : OffPath steps target target' := by
  induction steps generalizing target target' with
  | nil =>
      exact ⟨fun before step after entries hsteps => absurd hsteps (by simp),
        fun before step after hsteps => absurd hsteps (by simp)⟩
  | cons step steps ih =>
      cases target with
      | object entries =>
          cases steps with
          | nil =>
              rw [← Except.ok.inj h]
              constructor
              · intro before s after entries₀ hsteps hbefore
                obtain ⟨rfl, hs⟩ : before = [] ∧ [step] = s :: after := by
                  cases before with
                  | nil => exact ⟨rfl, hsteps⟩
                  | cons b before => simp at hsteps
                obtain ⟨rfl, -⟩ := List.cons.inj hs
                cases hbefore
                exact ⟨_, rfl, sameBut_insertEntry entries step _⟩
              · intro before s after hsteps hbefore
                cases before with
                | nil => cases hbefore
                | cons b before => simp at hsteps
          | cons next steps =>
              obtain ⟨inner, hinner, hok⟩ := bind_ok h
              rw [← Except.ok.inj hok]
              exact offPath_cons (ih hinner)
      | _ => cases steps <;> cases h

/-! ### String key paths -/

/-- The key path of a string that is one, `parse_single` without its syntax check. -/
def ofString (path : Utf16String) : KeyPath := if path.isEmpty then .empty else .single path

/-- The steps of a string key path; the empty one is the value itself. -/
def stepsOf (path : Utf16String) : List Utf16String :=
  if path.isEmpty then [] else splitPathUnits path

/-- What an injection does that succeeds. -/
structure Injected (path : Utf16String) (target target' : ScValue) (key : Key) : Prop where
  extracted : (ofString path).extract target' = .ok (some key)
  offPath : OffPath (stepsOf path) target target'

/-- **Injection of a number** at a string key path: the check tells whether it succeeds, a
failure leaves the value, and a success puts the key at the path and touches nothing else. -/
theorem injectInto_number (path : Utf16String) (target : ScValue) (n : F64Bits)
    (hn : n.isNaN = false) :
    ((ofString path).canInject target = true ↔
        ((ofString path).injectInto target (.number n)).1 = .ok ()) ∧
      (((ofString path).injectInto target (.number n)).1 ≠ .ok () →
        ((ofString path).injectInto target (.number n)).2 = target) ∧
      (((ofString path).injectInto target (.number n)).1 = .ok () →
        Injected path target ((ofString path).injectInto target (.number n)).2 (.number n)) := by
  have hkey : (ScValue.fromKey (.number n)).toKey = .ok (some (.number n)) := by
    simp [ScValue.fromKey, ScValue.toKey, hn]
  rw [injectInto_eq]
  by_cases hempty : path.isEmpty = true
  · rw [ofString, if_pos hempty]
    refine ⟨⟨fun _ => rfl, fun _ => rfl⟩, fun h => absurd rfl h, fun _ => ?_⟩
    refine ⟨?_, ?_⟩
    · rw [ofString, if_pos hempty]
      exact hkey
    · rw [stepsOf, if_pos hempty]
      exact ⟨fun before step after entries hsteps => absurd hsteps (by simp),
        fun before step after hsteps => absurd hsteps (by simp)⟩
  · have hpath : ofString path = .single path := if_neg hempty
    have hcan := canInjectSteps_iff (splitPathUnits path) target (.number n)
    rw [hpath]
    show (canInjectSteps _ _ = true ↔ (Except.map _ (injectSteps _ _ _)) = _) ∧
      (Except.map _ (injectSteps _ _ _) ≠ _ → (injectSteps _ _ _).toOption.getD _ = _) ∧
      (Except.map _ (injectSteps _ _ _) = _ → Injected _ _ ((injectSteps _ _ _).toOption.getD _) _)
    rw [hcan]
    cases hinject : injectSteps (splitPathUnits path) target (.number n) with
    | error e =>
        refine ⟨⟨fun ⟨v, hv⟩ => ?_, fun h => ?_⟩, fun _ => rfl, fun h => ?_⟩
        · cases hv
        · cases h
        · cases h
    | ok target' =>
        refine ⟨⟨fun _ => rfl, fun _ => ⟨target', rfl⟩⟩, fun h => absurd rfl h, fun _ => ?_⟩
        refine ⟨?_, ?_⟩
        · rw [hpath]
          show extractSinglePath path target' = _
          rw [extractSinglePath, if_neg hempty,
            extractSteps_injectSteps (splitPathUnits_ne_nil path) hinject, hkey]
        · rw [stepsOf, if_neg hempty]
          exact offPath_injectSteps hinject

/-- Into `a.b` of an object without `a`. -/
theorem injectInto_number_nested :
    F64Bits.isNaN 0 = false ∧
      Injected [0x61, 0x2E, 0x62] (.object [([0x63], .null)])
        ((ofString [0x61, 0x2E, 0x62]).injectInto (.object [([0x63], .null)]) (.number 0)).2
        (.number 0) := by
  refine ⟨by decide, ?_⟩
  have hlaw := injectInto_number [0x61, 0x2E, 0x62] (.object [([0x63], .null)]) 0 (by decide)
  exact hlaw.2.2 (hlaw.1.mp (by decide))

end KeyPath

end BoaIdb
