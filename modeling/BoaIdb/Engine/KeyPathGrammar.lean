import BoaIdb.Core.Utf16Lossy
import BoaIdb.Engine.Error

/-!
Which strings are key paths.

A key path from a script is converted to a string and then checked, so that an unpaired surrogate
is checked as the character that replaces it.
-/

namespace BoaIdb

open Utf16String

namespace KeyPath

/-! ### The check -/

/-- `unicode_id_start`. -/
def unicodeIdStart (c : Char) : Bool :=
  ('a' ≤ c && c ≤ 'z') || ('A' ≤ c && c ≤ 'Z') || ('\u00C0' ≤ c && c ≤ '\u00D6') ||
    ('\u00D8' ≤ c && c ≤ '\u00F6') || ('\u00F8' ≤ c && c ≤ '\u02FF') ||
    ('\u0370' ≤ c && c ≤ '\u037D') || ('\u037F' ≤ c && c ≤ '\u1FFF') ||
    ('\u2070' ≤ c && c ≤ '\u218F') || ('\u2C00' ≤ c && c ≤ '\u2FEF') ||
    ('\u3001' ≤ c && c ≤ '\uD7FF') || ('\uF900' ≤ c && c ≤ '\uFDCF') ||
    ('\uFDF0' ≤ c && c ≤ '\uFFFD') || (Char.ofNat 0x10000 ≤ c && c ≤ Char.ofNat 0xEFFFF)

/-- `unicode_id_continue`. -/
def unicodeIdContinue (c : Char) : Bool :=
  unicodeIdStart c || ('0' ≤ c && c ≤ '9') || ('\u0300' ≤ c && c ≤ '\u036F') ||
    ('\u1DC0' ≤ c && c ≤ '\u1DFF') || ('\u20D0' ≤ c && c ≤ '\u20FF') ||
    ('\uFE20' ≤ c && c ≤ '\uFE2F')

def isIdStart (c : Char) : Bool := c == '$' || c == '_' || unicodeIdStart c

def isIdContinue (c : Char) : Bool :=
  c == '$' || c == '_' || c == '\u200C' || c == '\u200D' || unicodeIdContinue c

/-- A character at the first place of an identifier, or at a later one. -/
def isIdentifierChar (first : Bool) (c : Char) : Bool :=
    if first then isIdStart c else isIdContinue c

/-- The loop of `validate_identifier_name`, over what `decode_unit` reads. -/
def validateChars : Bool → List (Option Char) → Except KeyPathError Unit
  | _, [] => .ok ()
  | _, none :: _ => .error (.invalidSyntax "Unpaired surrogate in identifier")
  | first, some c :: rest =>
      if isIdentifierChar first c then validateChars false rest
      else .error (.invalidSyntax ("Invalid character '" ++ c.toString ++ "' in identifier"))

def validateIdentifierName (units : Utf16String) : Except KeyPathError Unit :=
  if units.isEmpty then .error (.invalidSyntax "Empty identifier")
  else validateChars true (decodeUnits units)

/-- The loop of `validate_key_path_units`. -/
def validateParts : List Utf16String → Except KeyPathError Unit
  | [] => .ok ()
  | part :: parts =>
      if part.isEmpty then .error (.invalidSyntax "Empty identifier in key path")
      else do
        validateIdentifierName part
        validateParts parts

def validateKeyPathUnits (units : Utf16String) : Except KeyPathError Unit :=
  validateParts (splitPathUnits units)

def validateKeyPathStr (s : String) : Except KeyPathError Unit :=
  if s.isEmpty then .ok () else validateKeyPathUnits (ofString s)

/-- `KeyPath::parse_single`. -/
def parseSingle (s : String) : Except KeyPathError KeyPath :=
  if s.isEmpty then .ok .empty
  else do
    validateKeyPathStr s
    .ok (.single (ofString s))

/-- A `keyPath` argument, its members already converted to DOM strings. -/
inductive Argument
  | missing
  | text (s : Utf16String)
  | list (paths : List Utf16String)
  deriving DecidableEq, Repr

/-- A path is checked as the string that it is converted to. -/
def checkPath (path : Utf16String) : Except IdbError Unit :=
  match parseSingle path.toText with
  | .ok _ => .ok ()
  | .error e => .error (.syntaxError e.text)

/-- The loop over the members of a list. -/
def checkPaths : List Utf16String → Except IdbError Unit
  | [] => .ok ()
  | path :: paths => do
      checkPath path
      checkPaths paths

/-- `to_key_path_argument`. -/
def toKeyPathArgument : Argument → Except IdbError (Option KeyPath)
  | .missing => .ok none
  | .list paths =>
      if paths.isEmpty then .error (.syntaxError "KeyPath array cannot be empty")
      else do
        checkPaths paths
        .ok (some (.array paths))
  | .text s =>
      if s.isEmpty then .ok (some .empty)
      else do
        checkPath s
        .ok (some (.single s))

-- `a.b1`, a step that starts with a digit, an empty one
example : (toKeyPathArgument (.text [0x61, 0x2E, 0x62, 0x31])).toOption.isSome = true ∧
    (toKeyPathArgument (.text [0x31])).toOption.isSome = false ∧
    (toKeyPathArgument (.text [0x61, 0x2E])).toOption.isSome = false := by
  decide +kernel

/-! ### Splitting -/

section Lists

variable {α β : Type} [BEq α] [BEq β] {a : α} {xs part : List α}

/-- The head of a split is empty or starts as the list does. -/
theorem head_splitOn {rest : List (List α)} (h : xs.splitOn a = part :: rest) :
    part.head? = none ∨ part.head? = xs.head? := by
  cases xs with
  | nil =>
      rw [List.splitOn_nil] at h
      cases h
      exact .inl rfl
  | cons x xs =>
      rw [List.splitOn_cons_eq_if_modifyHead] at h
      split at h
      · cases h
        exact .inl rfl
      · obtain ⟨first, others, hsplit⟩ := List.exists_cons_of_ne_nil (List.splitOn_ne_nil a xs)
        rw [hsplit] at h
        cases h
        exact .inr rfl

variable [LawfulBEq α] [LawfulBEq β]

/-- Splitting commutes with a map that only sends the separator to the separator. -/
theorem splitOn_map (f : α → β) {b : β} (hf : ∀ x, f x = b ↔ x = a) (xs : List α) :
    (xs.map f).splitOn b = (xs.splitOn a).map (List.map f) := by
  induction xs with
  | nil => rfl
  | cons x xs ih =>
      rw [List.map_cons, List.splitOn_cons_eq_if_modifyHead, List.splitOn_cons_eq_if_modifyHead, ih]
      by_cases hx : x = a
      · rw [if_pos (beq_iff_eq.mpr ((hf x).mpr hx)), if_pos (beq_iff_eq.mpr hx)]
        rfl
      · rw [if_neg fun h => hx ((hf x).mp (beq_iff_eq.mp h)), if_neg fun h => hx (beq_iff_eq.mp h)]
        cases xs.splitOn a <;> rfl

/-- What is not a separator is in one of the parts. -/
theorem mem_splitOn_iff {x : α} (hx : x ≠ a) (xs : List α) :
    (∃ part ∈ xs.splitOn a, x ∈ part) ↔ x ∈ xs := by
  induction xs with
  | nil => simp
  | cons y ys ih =>
      rw [List.splitOn_cons_eq_if_modifyHead, List.mem_cons, ← ih]
      by_cases hy : y = a
      · rw [if_pos (beq_iff_eq.mpr hy)]
        have hxy : x ≠ y := fun h => hx (h.trans hy)
        simp [hxy]
      · rw [if_neg fun h => hy (beq_iff_eq.mp h)]
        obtain ⟨first, others, hsplit⟩ := List.exists_cons_of_ne_nil (List.splitOn_ne_nil a ys)
        simp [hsplit, or_assoc]

end Lists

/-- `.`. -/
def dot : Char := Char.ofNat (0x002E : UInt16).toNat

theorem eq_dot_iff {u : UInt16} (h : (isHigh u || isLow u) = false) :
    Char.ofNat u.toNat = dot ↔ u = 0x002E := by
  constructor
  · intro heq
    have hunits : encodeChar (Char.ofNat u.toNat) = encodeChar dot := congrArg encodeChar heq
    rw [encodeChar_ofNat h, dot, encodeChar_ofNat (by decide)] at hunits
    exact (List.cons.inj hunits).1
  · rintro rfl
    rfl

/-- The steps of a path are the parts of its characters. -/
theorem splitPathUnits_decode (units : Utf16String) :
    (splitPathUnits units).map decodeUnits = (decodeUnits units).splitOn (some dot) := by
  unfold splitPathUnits
  -- a dot is a unit of its own, never half of a pair
  induction units using unitsInduction with
  | nil => rfl
  | char u rest hchar ih =>
      rw [decodeUnits_char hchar, List.splitOn_cons_eq_if_modifyHead,
        List.splitOn_cons_eq_if_modifyHead, ← ih]
      obtain ⟨step, steps, hsplit⟩ := List.exists_cons_of_ne_nil (List.splitOn_ne_nil 0x002E rest)
      by_cases hu : u = 0x002E
      · have hdot := (eq_dot_iff hchar).mpr hu
        rw [if_pos (beq_iff_eq.mpr hu), if_pos (beq_iff_eq.mpr (congrArg some hdot))]
        rfl
      · have hdot : (some (Char.ofNat u.toNat) == some dot) = false :=
          beq_eq_false_iff_ne.mpr fun h => hu ((eq_dot_iff hchar).mp (Option.some.inj h))
        rw [if_neg fun h => hu (beq_iff_eq.mp h), hdot, if_neg Bool.false_ne_true, hsplit]
        simp only [List.modifyHead_cons, List.map_cons, decodeUnits_char hchar]
  | pair u v rest hu hv ih =>
      have hu' : (u == 0x002E) = false := by
        rw [beq_eq_false_iff_ne]
        rintro rfl
        cases hu
      have hv' : (v == 0x002E) = false := by
        rw [beq_eq_false_iff_ne]
        rintro rfl
        cases hv
      have hdot : (some (pairChar u v) == some dot) = false := by
        rw [beq_eq_false_iff_ne]
        intro heq
        have hunits := congrArg encodeChar (Option.some.inj heq)
        rw [encodeChar_pairChar hu hv, dot, encodeChar_ofNat (by decide)] at hunits
        cases hunits
      rw [decodeUnits_pair hu hv, List.splitOn_cons_eq_if_modifyHead, hu',
        List.splitOn_cons_eq_if_modifyHead, hv', List.splitOn_cons_eq_if_modifyHead, hdot, ← ih]
      obtain ⟨step, steps, hsplit⟩ := List.exists_cons_of_ne_nil (List.splitOn_ne_nil 0x002E rest)
      simp only [Bool.false_eq_true, if_false, hsplit, List.modifyHead_cons, List.map_cons,
        decodeUnits_pair hu hv]
  | alone u rest halone ih =>
      have hu : (u == 0x002E) = false := by
        rw [beq_eq_false_iff_ne]
        rintro rfl
        cases halone.1
      have hdot : ((none : Option Char) == some dot) = false := rfl
      rw [decodeUnits_alone halone, List.splitOn_cons_eq_if_modifyHead, hu,
        List.splitOn_cons_eq_if_modifyHead, hdot, ← ih]
      obtain ⟨step, steps, hsplit⟩ := List.exists_cons_of_ne_nil (List.splitOn_ne_nil 0x002E rest)
      have hstep : Alone u step := by
        refine ⟨halone.1, ?_⟩
        rcases head_splitOn hsplit with hhead | hhead
        · rw [hhead]
          exact Bool.and_false _
        · rw [hhead]
          exact halone.2
      simp only [Bool.false_eq_true, if_false, hsplit, List.modifyHead_cons, List.map_cons,
        decodeUnits_alone hstep]

/-! ### What is accepted -/

/-- Characters that make an identifier, unpaired surrogates aside. -/
def identifierBut : Bool → List (Option Char) → Bool
  | _, [] => true
  | first, c :: rest => c.all (isIdentifierChar first) && identifierBut false rest

theorem isIdentifierChar_replacement (first : Bool) :
    isIdentifierChar first replacement = true := by
  cases first <;> decide +kernel

theorem validateChars_iff (first : Bool) (cs : List (Option Char)) :
    validateChars first cs = .ok () ↔ none ∉ cs ∧ identifierBut first cs = true := by
  induction cs generalizing first with
  | nil => simp [validateChars, identifierBut]
  | cons c cs ih =>
      cases c with
      | none => simp [validateChars]
      | some c =>
          rw [validateChars, identifierBut, Option.all_some]
          cases isIdentifierChar first c with
          | true => simp [ih]
          | false => simp

/-- The replacement is a character of identifiers. -/
theorem identifierBut_replaced (first : Bool) (cs : List (Option Char)) :
    identifierBut first (cs.map fun c => some (c.getD replacement)) = identifierBut first cs := by
  induction cs generalizing first with
  | nil => rfl
  | cons c cs ih =>
      rw [List.map_cons, identifierBut, identifierBut, ih]
      cases c with
      | none =>
          rw [Option.getD_none, Option.all_some, isIdentifierChar_replacement, Option.all_none]
      | some c => rfl

theorem decodeUnits_eq_nil {units : Utf16String} : decodeUnits units = [] ↔ units = [] := by
  refine ⟨fun h => ?_, fun h => by rw [h]; rfl⟩
  cases units with
  | nil => rfl
  | cons u rest =>
      cases rest with
      | nil => cases h
      | cons v rest =>
          rw [decodeUnits, decodeWith] at h
          split at h <;> cases h

theorem validateIdentifierName_iff (step : Utf16String) : validateIdentifierName step = .ok () ↔
    decodeUnits step ≠ [] ∧ none ∉ decodeUnits step ∧
      identifierBut true (decodeUnits step) = true := by
  rw [← validateChars_iff, validateIdentifierName]
  cases step with
  | nil => simp [decodeUnits, decodeWith]
  | cons u rest => simp [decodeUnits_eq_nil]

theorem validateParts_iff (parts : List Utf16String) :
    validateParts parts = .ok () ↔ ∀ part ∈ parts, validateIdentifierName part = .ok () := by
  induction parts with
  | nil => simp [validateParts]
  | cons part parts ih =>
      rw [List.forall_mem_cons, ← ih, validateParts]
      cases part with
      | nil => simp [validateIdentifierName]
      | cons u rest =>
          rw [List.isEmpty_cons, if_neg Bool.false_ne_true]
          cases validateIdentifierName (u :: rest) with
          | error e => simp [bind, Except.bind]
          | ok _ => simp [bind, Except.bind]

/-- The check of a sequence of units, part by part. -/
theorem validateKeyPathUnits_iff (units : Utf16String) : validateKeyPathUnits units = .ok () ↔
    ∀ part ∈ (decodeUnits units).splitOn (some dot),
      part ≠ [] ∧ none ∉ part ∧ identifierBut true part = true := by
  rw [validateKeyPathUnits, validateParts_iff, ← splitPathUnits_decode, List.forall_mem_map]
  simp only [validateIdentifierName_iff]

/-- The steps are identifiers, unpaired surrogates aside. -/
def IdentifierSteps (units : Utf16String) : Prop :=
  ∀ step ∈ splitPathUnits units, step ≠ [] ∧ identifierBut true (decodeUnits step) = true

/-- Every step is an identifier. -/
def Grammar (units : Utf16String) : Prop :=
  ∀ step ∈ splitPathUnits units, validateIdentifierName step = .ok ()

theorem toText_isEmpty (units : Utf16String) : units.toText.isEmpty = units.isEmpty := by
  have hlist : units.toText.toList = [] ↔ units = [] := by
    rw [toText, String.toList_ofList, decodeLossy_eq, List.map_eq_nil_iff, decodeUnits_eq_nil]
  rw [Bool.eq_iff_iff, String.isEmpty_iff, List.isEmpty_iff, ← hlist, String.toList_eq_nil_iff]

theorem paired_iff_steps (units : Utf16String) :
    Paired units ↔ ∀ step ∈ splitPathUnits units, none ∉ decodeUnits step := by
  have hnone := mem_splitOn_iff (a := some dot) (x := none) (by simp) (decodeUnits units)
  rw [Paired, ← hnone, ← splitPathUnits_decode]
  simp

/-- The grammar holds when the steps are identifiers but for surrogates, and there are none
unpaired. -/
theorem grammar_iff (units : Utf16String) :
    Grammar units ↔ IdentifierSteps units ∧ Paired units := by
  rw [paired_iff_steps]
  constructor
  · intro h
    refine ⟨fun step hstep => ?_, fun step hstep => ?_⟩
    · obtain ⟨hne, -, hchars⟩ := (validateIdentifierName_iff step).mp (h step hstep)
      exact ⟨fun heq => hne (decodeUnits_eq_nil.mpr heq), hchars⟩
    · exact ((validateIdentifierName_iff step).mp (h step hstep)).2.1
  · rintro ⟨hsteps, hpaired⟩ step hstep
    obtain ⟨hne, hchars⟩ := hsteps step hstep
    exact (validateIdentifierName_iff step).mpr
      ⟨fun heq => hne (decodeUnits_eq_nil.mp heq), hpaired step hstep, hchars⟩

/-- The check of a string sees the replacements. -/
theorem validate_ofString_toText (units : Utf16String) :
    validateKeyPathUnits (ofString units.toText) = .ok () ↔ IdentifierSteps units := by
  have hsplit : ((decodeUnits units).map fun c => some (c.getD replacement)).splitOn (some dot) =
      ((splitPathUnits units).map decodeUnits).map
        (List.map fun c => some (c.getD replacement)) := by
    rw [splitPathUnits_decode]
    refine splitOn_map _ (fun c => ?_) _
    cases c with
    | none => exact iff_of_false (by decide) (by simp)
    | some c => rfl
  rw [validateKeyPathUnits_iff, decodeUnits_ofString_toText, hsplit, List.map_map,
    List.forall_mem_map]
  refine forall₂_congr fun step _ => ?_
  have hnone : none ∉ (decodeUnits step).map fun c => some (c.getD replacement) := by simp
  rw [Function.comp_apply, identifierBut_replaced]
  simp [hnone, decodeUnits_eq_nil]

theorem parseSingle_toText {units : Utf16String} (hne : units ≠ []) :
    parseSingle units.toText =
      (validateKeyPathUnits (ofString units.toText)).map fun _ =>
        .single (ofString units.toText) := by
  have hempty : units.toText.isEmpty = false := by
    rw [toText_isEmpty]
    exact List.isEmpty_eq_false_iff.mpr hne
  rw [parseSingle, validateKeyPathStr, hempty, if_neg Bool.false_ne_true, if_neg Bool.false_ne_true]
  cases validateKeyPathUnits (ofString units.toText) <;> rfl

theorem checkPath_iff (path : Utf16String) :
    checkPath path = .ok () ↔ path = [] ∨ IdentifierSteps path := by
  by_cases hne : path = []
  · rw [hne]
    exact iff_of_true rfl (.inl rfl)
  · rw [← validate_ofString_toText, checkPath, parseSingle_toText hne]
    cases validateKeyPathUnits (ofString path.toText) with
    | error e => exact iff_of_false (fun h => by cases h) (by simp [hne])
    | ok _ => exact iff_of_true rfl (.inr rfl)

theorem checkPaths_iff (paths : List Utf16String) :
    checkPaths paths = .ok () ↔ ∀ path ∈ paths, checkPath path = .ok () := by
  induction paths with
  | nil => simp [checkPaths]
  | cons path paths ih =>
      rw [List.forall_mem_cons, ← ih, checkPaths]
      cases checkPath path with
      | error e => simp [bind, Except.bind]
      | ok _ => simp [bind, Except.bind]

theorem accepted_text_iff {units : Utf16String} (hne : units ≠ []) (kp : Option KeyPath) :
    toKeyPathArgument (.text units) = .ok kp ↔ kp = some (.single units) ∧
      IdentifierSteps units := by
  have hchecked : checkPath units = .ok () ↔ IdentifierSteps units := by simp [checkPath_iff, hne]
  rw [← hchecked, toKeyPathArgument, if_neg (by simpa using hne)]
  cases checkPath units with
  | error e => simp [bind, Except.bind]
  | ok _ => simp [bind, Except.bind, eq_comm]

theorem accepted_list_iff (paths : List Utf16String) (kp : Option KeyPath) :
    toKeyPathArgument (.list paths) = .ok kp ↔
      kp = some (.array paths) ∧ paths ≠ [] ∧ ∀ path ∈ paths, checkPath path = .ok () := by
  rw [← checkPaths_iff, toKeyPathArgument]
  by_cases hne : paths = []
  · simp [hne]
  · rw [if_neg (by simpa using hne)]
    cases checkPaths paths with
    | error e => simp [bind, Except.bind]
    | ok _ => simp [bind, Except.bind, hne, eq_comm]

/-- A string key path, alone or in a list, is accepted only if its steps are identifiers. -/
structure OnlyGrammar (units : Utf16String) : Prop where
  text : ∀ kp, toKeyPathArgument (.text units) = .ok kp → Grammar units
  listed : ∀ paths kp, units ∈ paths → toKeyPathArgument (.list paths) = .ok kp → Grammar units

theorem onlyGrammar_iff {units : Utf16String} (hne : units ≠ []) :
    OnlyGrammar units ↔ Paired units ∨ ¬ IdentifierSteps units := by
  constructor
  · intro h
    by_cases hsteps : IdentifierSteps units
    · have haccepted := (accepted_text_iff hne (some (.single units))).mpr ⟨rfl, hsteps⟩
      exact .inl ((grammar_iff units).mp (h.text _ haccepted)).2
    · exact .inr hsteps
  · intro h
    have hgrammar (hsteps : IdentifierSteps units) : Grammar units :=
      (grammar_iff units).mpr ⟨hsteps, h.resolve_right (not_not.mpr hsteps)⟩
    refine ⟨fun kp haccepted => ?_, fun paths kp hmem haccepted => ?_⟩
    · exact hgrammar ((accepted_text_iff hne kp).mp haccepted).2
    · have hchecked := ((accepted_list_iff paths kp).mp haccepted).2.2 units hmem
      exact hgrammar (((checkPath_iff units).mp hchecked).resolve_left hne)

end KeyPath

end BoaIdb
