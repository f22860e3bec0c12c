import BoaIdb.Engine.KeyPath

/-!
Keys of a multiEntry index against the key of a plain one.

Both walk the path with a loop of their own. Only the loop of plain extraction knows the
`length` of strings and arrays.
-/

namespace BoaIdb

open Clone

namespace KeyPath

/-- What the steps lead to, the `length` of a string or an array at the last of them included. -/
def evaluateSteps : List Utf16String → ScValue → Option ScValue
  | [], curr => some curr
  | step :: steps, .object entries => (entries.lookup step).bind (evaluateSteps steps)
  | step :: steps, .array elements _ =>
      if isLengthStep step && steps.isEmpty then some (.number (F64Bits.ofInt elements.length))
      else none
  | step :: steps, .string s =>
      if isLengthStep step && steps.isEmpty then some (.number (F64Bits.ofInt s.length)) else none
  | _ :: _, _ => none

/-- The value found at a path that is empty or single. -/
def evaluate (keyPath : KeyPath) (value : ScValue) : Option ScValue :=
  match keyPath with
  | .empty => some value
  | .single path => if path.isEmpty then some value else evaluateSteps (splitPathUnits path) value
  | .array _ => none

/-- Strings and arrays have the pseudo-property `length`. -/
def hasLength : ScValue → Bool
  | .string _ => true
  | .array _ _ => true
  | _ => false

/-- The last step is `length`, and the steps before it lead to a string or an array. -/
def stepsReadLength (steps : List Utf16String) (value : ScValue) : Bool :=
  steps.getLast?.any isLengthStep && (resolveSteps steps.dropLast value).any hasLength

def readsLength (path : Utf16String) (value : ScValue) : Bool :=
  stepsReadLength (splitPathUnits path) value

/-- Members that are keys. -/
def AllKeys (elements : List (Option ScValue)) : Prop :=
  ∀ element ∈ elements, ∃ v k, element = some v ∧ v.toKey = .ok (some k)

/-- The keys of a multiEntry index are those that plain extraction finds. -/
structure MultiEntryAgrees (keyPath : KeyPath) (value : ScValue) : Prop where
  /-- What is not an array has the same key, none or the same error. -/
  plain : (∀ elements extraProps, keyPath.evaluate value ≠ some (.array elements extraProps)) →
    keyPath.extractMultiEntry value = (keyPath.extract value).map Option.toList
  /-- An array of keys is the key that has them as its members. -/
  members : ∀ elements extraProps, keyPath.evaluate value = some (.array elements extraProps) →
    AllKeys elements → ∃ keys, keyPath.extractMultiEntry value = .ok keys ∧
      keyPath.extract value = .ok (some (.array keys))

/-! ### One walk -/

/-- How the loops end on the same steps and the same value. -/
inductive Walked (steps : List Utf16String) (v : ScValue) : Prop
  /-- All of them at a value. -/
  | value (w : ScValue) (hextract : extractSteps steps v = w.toKey)
      (hresolve : resolveSteps steps v = some w) (hevaluate : evaluateSteps steps v = some w)
      (hlength : stepsReadLength steps v = false)
  /-- All of them at nothing. -/
  | nothing (hextract : extractSteps steps v = .ok none) (hresolve : resolveSteps steps v = none)
      (hevaluate : evaluateSteps steps v = none) (hlength : stepsReadLength steps v = false)
  /-- At a `length`, which is not resolved. -/
  | length (n : F64Bits) (hextract : extractSteps steps v = .ok (some (.number n)))
      (hresolve : resolveSteps steps v = none)
      (hevaluate : evaluateSteps steps v = some (.number n))
      (hlength : stepsReadLength steps v = true)

theorem stepsReadLength_one (step : Utf16String) (v : ScValue) :
    stepsReadLength [step] v = (isLengthStep step && hasLength v) := rfl

theorem stepsReadLength_cons (step : Utf16String) {steps : List Utf16String} (hne : steps ≠ [])
    (v : ScValue) : stepsReadLength (step :: steps) v =
      (steps.getLast?.any isLengthStep &&
        (resolveSteps (step :: steps.dropLast) v).any hasLength) := by
  have hlast : (step :: steps).getLast? = steps.getLast? := by
    rw [List.getLast?_cons, List.getLast?_eq_some_getLast hne, Option.getD_some]
  rw [stepsReadLength, hlast, List.dropLast_cons_of_ne_nil hne]

theorem stepsReadLength_object (step : Utf16String) (steps : List Utf16String)
    (entries : List (Utf16String × ScValue)) : stepsReadLength (step :: steps) (.object entries) =
      (entries.lookup step).any (stepsReadLength steps) := by
  cases steps with
  | nil =>
      have hnone (w : ScValue) : stepsReadLength [] w = false := rfl
      have hobject : hasLength (.object entries) = false := rfl
      rw [stepsReadLength_one, hobject, Bool.and_false]
      cases entries.lookup step with
      | none => rfl
      | some w => exact (hnone w).symm
  | cons next steps =>
      rw [stepsReadLength_cons step (List.cons_ne_nil _ _), resolveSteps]
      cases entries.lookup step with
      | none => exact Bool.and_false _
      | some w => rfl

/-- At a string or an array the walk is over, with its `length` if that is the last step. -/
theorem walked_leaf {step : Utf16String} {steps : List Utf16String} {v : ScValue} {n : F64Bits}
    (hextract : extractSteps (step :: steps) v =
      .ok (if isLengthStep step && steps.isEmpty then some (.number n) else none))
    (hevaluate : evaluateSteps (step :: steps) v =
      if isLengthStep step && steps.isEmpty then some (.number n) else none)
    (hresolve : ∀ step' steps', resolveSteps (step' :: steps') v = none)
    (hhas : hasLength v = true) : Walked (step :: steps) v := by
  have hreads : stepsReadLength (step :: steps) v = (isLengthStep step && steps.isEmpty) := by
    cases steps with
    | nil => rw [stepsReadLength_one, hhas, List.isEmpty_nil]
    | cons next steps =>
        rw [stepsReadLength_cons step (List.cons_ne_nil _ _), hresolve, List.isEmpty_cons,
          Option.any_none, Bool.and_false, Bool.and_false]
  cases hlast : isLengthStep step && steps.isEmpty with
  | true =>
      rw [hlast] at hextract hevaluate hreads
      exact .length n hextract (hresolve _ _) hevaluate hreads
  | false =>
      rw [hlast] at hextract hevaluate hreads
      exact .nothing hextract (hresolve _ _) hevaluate hreads

/-- At other values nothing is found. -/
theorem walked_nothing {step : Utf16String} {steps : List Utf16String} {v : ScValue}
    (hextract : extractSteps (step :: steps) v = .ok none)
    (hevaluate : evaluateSteps (step :: steps) v = none)
    (hresolve : ∀ step' steps', resolveSteps (step' :: steps') v = none)
    (hhas : hasLength v = false) : Walked (step :: steps) v := by
  refine .nothing hextract (hresolve _ _) hevaluate ?_
  cases steps with
  | nil => rw [stepsReadLength_one, hhas, Bool.and_false]
  | cons next steps =>
      rw [stepsReadLength_cons step (List.cons_ne_nil _ _), hresolve, Option.any_none,
        Bool.and_false]

theorem walked (steps : List Utf16String) (v : ScValue) : Walked steps v := by
  induction steps generalizing v with
  | nil => exact .value v rfl rfl rfl rfl
  | cons step steps ih =>
      cases v with
      | object entries =>
          have hreads := stepsReadLength_object step steps entries
          cases hlookup : entries.lookup step with
          | none =>
              rw [hlookup] at hreads
              refine .nothing ?_ ?_ ?_ hreads
              · rw [extractSteps, hlookup]
              · rw [resolveSteps, hlookup, Option.bind_none]
              · rw [evaluateSteps, hlookup, Option.bind_none]
          | some w =>
              rw [hlookup, Option.any_some] at hreads
              have hextract : extractSteps (step :: steps) (.object entries) =
                  extractSteps steps w := by rw [extractSteps, hlookup]
              have hresolve : resolveSteps (step :: steps) (.object entries) =
                  resolveSteps steps w := by rw [resolveSteps, hlookup, Option.bind_some]
              have hevaluate : evaluateSteps (step :: steps) (.object entries) =
                  evaluateSteps steps w := by rw [evaluateSteps, hlookup, Option.bind_some]
              cases ih w with
              | value x hx hr he hl =>
                  exact .value x (hextract.trans hx) (hresolve.trans hr) (hevaluate.trans he)
                    (hreads.trans hl)
              | nothing hx hr he hl =>
                  exact .nothing (hextract.trans hx) (hresolve.trans hr) (hevaluate.trans he)
                    (hreads.trans hl)
              | length n hx hr he hl =>
                  exact .length n (hextract.trans hx) (hresolve.trans hr) (hevaluate.trans he)
                    (hreads.trans hl)
      | array elements extraProps => exact walked_leaf rfl rfl (fun _ _ => rfl) rfl
      | string s => exact walked_leaf rfl rfl (fun _ _ => rfl) rfl
      | _ => exact walked_nothing rfl rfl (fun _ _ => rfl) rfl

/-! ### Agreement -/

/-- Members that are keys are all kept, and none of them stops the array from being a key. -/
theorem keys_of_allKeys {elements : List (Option ScValue)} (h : AllKeys elements) :
    ScValue.elementKeys elements = .ok (some (elements.filterMap memberKey)) := by
  induction elements with
  | nil => rfl
  | cons element elements ih =>
      obtain ⟨v, k, rfl, hkey⟩ := h element (.head _)
      have hmember : memberKey (some v) = some k := by rw [memberKey, hkey]
      have hrest := ih fun e he => h e (.tail _ he)
      rw [ScValue.elementKeys, hkey, List.filterMap_cons, hmember]
      simp only [bind, Except.bind, hrest, Option.map_some]

/-- Loops that end at the same value agree on its keys. -/
theorem agrees_of_found {keyPath : KeyPath} {value w : ScValue}
    (hextract : keyPath.extract value = w.toKey) (hroot : keyPath.multiEntryRoot value = some w)
    (hevaluate : keyPath.evaluate value = some w) : MultiEntryAgrees keyPath value := by
  constructor
  · intro hnot
    rw [hextract, extractMultiEntry, hroot]
    cases w with
    | array elements extraProps => exact absurd hevaluate (hnot elements extraProps)
    | _ => rfl
  · intro elements extraProps hfound hkeys
    rw [hevaluate] at hfound
    cases hfound
    refine ⟨elements.filterMap memberKey, ?_, ?_⟩
    · rw [extractMultiEntry, hroot]
    · rw [hextract, ScValue.toKey, keys_of_allKeys hkeys]
      rfl

theorem agrees_of_nothing {keyPath : KeyPath} {value : ScValue}
    (hextract : keyPath.extract value = .ok none) (hroot : keyPath.multiEntryRoot value = none)
    (hevaluate : keyPath.evaluate value = none) : MultiEntryAgrees keyPath value := by
  constructor
  · intro _
    rw [hextract, extractMultiEntry, hroot]
    rfl
  · intro elements extraProps hfound
    rw [hevaluate] at hfound
    cases hfound

theorem not_agrees_of_length {keyPath : KeyPath} {value : ScValue} {n : F64Bits}
    (hextract : keyPath.extract value = .ok (some (.number n)))
    (hroot : keyPath.multiEntryRoot value = none)
    (hevaluate : keyPath.evaluate value = some (.number n)) : ¬ MultiEntryAgrees keyPath value := by
  intro h
  have hkeys := h.plain fun elements extraProps hfound => by
    rw [hevaluate] at hfound
    cases hfound
  rw [hextract, extractMultiEntry, hroot] at hkeys
  cases hkeys

theorem agrees_single_iff (path : Utf16String) (value : ScValue) :
    MultiEntryAgrees (.single path) value ↔ readsLength path value = false := by
  by_cases hempty : path.isEmpty = true
  · have hnil : path = [] := List.isEmpty_iff.mp hempty
    have hreads : readsLength path value = false := by
      rw [hnil]
      rfl
    refine iff_of_true (agrees_of_found (w := value) ?_ ?_ ?_) hreads
    · rw [extract, extractSinglePath, if_pos hempty]
    · rw [multiEntryRoot, resolveSinglePath, if_pos hempty]
    · rw [evaluate, if_pos hempty]
  · have hextract : extract (.single path) value = extractSteps (splitPathUnits path) value :=
      if_neg hempty
    have hroot : multiEntryRoot (.single path) value = resolveSteps (splitPathUnits path) value :=
      if_neg hempty
    have hevaluate : evaluate (.single path) value = evaluateSteps (splitPathUnits path) value :=
      if_neg hempty
    cases walked (splitPathUnits path) value with
    | value w hx hr he hl =>
        exact iff_of_true
          (agrees_of_found (hextract.trans hx) (hroot.trans hr) (hevaluate.trans he)) hl
    | nothing hx hr he hl =>
        exact iff_of_true
          (agrees_of_nothing (hextract.trans hx) (hroot.trans hr) (hevaluate.trans he)) hl
    | length n hx hr he hl =>
        have hnot := not_agrees_of_length (hextract.trans hx) (hroot.trans hr) (hevaluate.trans he)
        refine iff_of_false hnot fun hreads => ?_
        rw [readsLength, hl] at hreads
        cases hreads

/-- Extraction for a multiEntry index agrees with plain extraction under the empty path, and under
a single path unless the path ends in the `length` of a string or an array. -/
theorem multiEntry_agrees_iff (value : ScValue) : MultiEntryAgrees .empty value ∧
    ∀ path, MultiEntryAgrees (.single path) value ↔ readsLength path value = false :=
  ⟨agrees_of_found rfl rfl rfl, fun path => agrees_single_iff path value⟩

/-- `name.length`. -/
def nameLength : Utf16String := [0x6E, 0x61, 0x6D, 0x65, 0x2E, 0x6C, 0x65, 0x6E, 0x67, 0x74, 0x68]

/-- `{name: "ab"}`. -/
def named : ScValue := .object [([0x6E, 0x61, 0x6D, 0x65], .string [0x61, 0x62])]

/-- The length of the name is a key of a plain index and is missing in a multiEntry one. -/
theorem length_not_multiEntry :
    extract (.single nameLength) named = .ok (some (.number (F64Bits.ofInt 2))) ∧
    extractMultiEntry (.single nameLength) named = .ok [] ∧
    ¬ MultiEntryAgrees (.single nameLength) named := by
  have hsplit : splitPathUnits nameLength =
      [[0x6E, 0x61, 0x6D, 0x65], [0x6C, 0x65, 0x6E, 0x67, 0x74, 0x68]] := by decide
  have hextract : extract (.single nameLength) named = .ok (some (.number (F64Bits.ofInt 2))) := by
    rw [extract, extractSinglePath, hsplit]
    rfl
  have hroot : multiEntryRoot (.single nameLength) named = none := by
    rw [multiEntryRoot, resolveSinglePath, hsplit]
    rfl
  have hevaluate : evaluate (.single nameLength) named = some (.number (F64Bits.ofInt 2)) := by
    rw [evaluate, hsplit]
    rfl
  refine ⟨hextract, ?_, not_agrees_of_length hextract hroot hevaluate⟩
  rw [extractMultiEntry, hroot]

end KeyPath

end BoaIdb
