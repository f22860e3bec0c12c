import BoaIdb.Driver.CursorUpdate
import BoaIdb.Driver.SchemaOps
import BoaIdb.Engine.KeyPathInject

/-!
The check of `put` and `add` before a request is queued, against the key that the request gets
when it runs.

The check looks for a key in the value and never asks whether a generated one can be injected.
-/

namespace BoaIdb

open Clone Engine

namespace Driver

/-- The eager key validation of `put_impl`, over what the script's handle of the store holds. -/
def checkPut (keyPath : Option KeyPath) (autoIncrement : Bool) (value : ScValue)
    (key : Option Key) : Except IdbError Unit :=
  match keyPath, key with
  | some kp, some _ =>
      if kp = .empty then .ok ()
      else .error (.data "Cannot provide an explicit key when the store has a keyPath")
  | some kp, none =>
      if kp = .empty then
        match value.toKey with
        | .ok (some _) => .ok ()
        | .ok none =>
            if autoIncrement then .ok () else .error (.data "Value cannot be used as a key")
        | .error e =>
            if autoIncrement then .ok () else .error (.data ("Invalid key: " ++ e.text))
      else
        match kp.extract value with
        | .ok (some _) => .ok ()
        | .ok none =>
            if autoIncrement then .ok ()
            else .error
              (.data "Could not extract a key from the value and autoIncrement is disabled")
        | .error e => .error (.data ("Invalid inline key: " ++ e.text))
  | none, none =>
      if autoIncrement then .ok ()
      else .error (.data "No key provided and autoIncrement is disabled")
  | none, some _ => .ok ()

/-- The handle of a store holds its key path as the metadata has it, an omitted one as the empty
one. -/
def checkStorePut (store : StoreMeta) (value : ScValue) (key : Option Key) : Except IdbError Unit :=
  checkPut (some store.keyPath) store.autoIncrement value key

/-- A request is let through exactly when it gets a key. -/
def CheckAgrees (store : StoreMeta) (keygen : KeyGenerator) (value : ScValue)
    (key : Option Key) : Prop :=
  checkStorePut store value key = .ok () ↔ ∃ r, determineKey store keygen value key = .ok r

/-- A key that has to be generated and injected can be injected. -/
def Injectable (store : StoreMeta) (value : ScValue) (key : Option Key) : Prop :=
  key = none → store.keyPath ≠ .empty → store.autoIncrement = true →
    store.keyPath.extract value = .ok none → store.keyPath.canInject value = true

section Check

variable {store : StoreMeta} {keygen : KeyGenerator} {value : ScValue}

theorem canInject_iff (keyPath : KeyPath) (target : ScValue) (key : Key) :
    keyPath.canInject target = true ↔ ∃ v, keyPath.inject target key = .ok v := by
  cases keyPath with
  | empty => exact iff_of_true rfl ⟨_, rfl⟩
  | single path => exact KeyPath.canInjectSteps_iff _ _ _
  | array paths => exact iff_of_false (fun h => by cases h) (fun ⟨v, h⟩ => by cases h)

theorem generate_of_room (h : F64Bits.partialCmp keygen.current KeyGenerator.maxKey ≠ some .gt) :
    keygen.generate =
      .ok (keygen.current, { keygen with current := F64Bits.plusOne keygen.current }) :=
  if_neg h

/-- A given key is right for a store without a key path. -/
theorem checkAgrees_given (k : Key) : CheckAgrees store keygen value (some k) := by
  rw [CheckAgrees, checkStorePut, checkPut, determineKey]
  by_cases hempty : store.keyPath = .empty
  · rw [if_pos hempty, if_pos hempty]
    exact iff_of_true rfl ⟨_, rfl⟩
  · rw [if_neg hempty, if_neg hempty]
    refine iff_of_false (fun h => by cases h) ?_
    rintro ⟨r, h⟩
    cases h

/-- Without a key path the key is generated, or it is the value itself. -/
theorem checkAgrees_empty (hempty : store.keyPath = .empty)
    (hroom : F64Bits.partialCmp keygen.current KeyGenerator.maxKey ≠ some .gt) :
    CheckAgrees store keygen value none := by
  simp only [CheckAgrees, checkStorePut, checkPut, determineKey, if_pos hempty]
  cases hauto : store.autoIncrement with
  | true =>
      rw [generate_of_room hroom]
      refine iff_of_true ?_ ⟨_, rfl⟩
      split <;> rfl
  | false =>
      cases value.toKey with
      | error e =>
          refine iff_of_false (fun h => by cases h) ?_
          rintro ⟨r, h⟩
          cases h
      | ok k =>
          cases k with
          | none =>
              refine iff_of_false (fun h => by cases h) ?_
              rintro ⟨r, h⟩
              cases h
          | some k => exact iff_of_true rfl ⟨_, rfl⟩

/-- What the value holds at the key path decides, if it is a key or an error. -/
theorem checkAgrees_found (hpath : store.keyPath ≠ .empty)
    (hfound : store.keyPath.extract value ≠ .ok none) : CheckAgrees store keygen value none := by
  simp only [CheckAgrees, checkStorePut, checkPut, if_neg hpath]
  cases hextract : store.keyPath.extract value with
  | error e =>
      have herror : ∀ r, determineKey store keygen value none ≠ .ok r := by
        intro r h
        rw [determineKey, if_neg hpath, hextract] at h
        cases h
      refine iff_of_false (fun h => by cases h) ?_
      rintro ⟨r, h⟩
      exact herror r h
  | ok k =>
      cases k with
      | none => exact absurd hextract hfound
      | some k => exact iff_of_true rfl ⟨_, determineKey_inline hpath hextract⟩

/-- A value without the key is let through for its generated key, and gets it if that can be
injected. -/
theorem checkAgrees_absent (hpath : store.keyPath ≠ .empty)
    (habsent : store.keyPath.extract value = .ok none)
    (hroom : F64Bits.partialCmp keygen.current KeyGenerator.maxKey ≠ some .gt) :
    CheckAgrees store keygen value none ↔
      (store.autoIncrement = true → store.keyPath.canInject value = true) := by
  have hgets : (∃ r, determineKey store keygen value none = .ok r) ↔
      store.autoIncrement = true ∧ store.keyPath.canInject value = true := by
    constructor
    · rintro ⟨⟨key, generated, new⟩, h⟩
      obtain ⟨hauto, n, -, -, hinject⟩ := (determineKey_absent hpath habsent).mp h
      exact ⟨hauto, (canInject_iff _ _ _).mpr ⟨new, hinject⟩⟩
    · rintro ⟨hauto, hcan⟩
      obtain ⟨new, hinject⟩ := (canInject_iff _ _ (.number keygen.current)).mp hcan
      have h := (determineKey_absent hpath habsent).mpr
        ⟨hauto, _, generate_of_room hroom, rfl, hinject⟩
      exact ⟨_, h⟩
  have hchecked : checkStorePut store value none = .ok () ↔ store.autoIncrement = true := by
    simp only [checkStorePut, checkPut, if_neg hpath, habsent]
    cases store.autoIncrement with
    | true => exact iff_of_true rfl rfl
    | false => exact iff_of_false (fun h => by cases h) Bool.false_ne_true
  rw [CheckAgrees, hchecked, hgets]
  constructor
  · intro h hauto
    exact (h.mp hauto).2
  · intro h
    exact ⟨fun hauto => ⟨hauto, h hauto⟩, And.left⟩

end Check

/-- The check agrees with the run of the request if and only if a key that has to be generated and
injected can be injected. -/
theorem checkPut_agrees_iff (store : StoreMeta) (keygen : KeyGenerator) (value : ScValue)
    (key : Option Key)
    (hroom : F64Bits.partialCmp keygen.current KeyGenerator.maxKey ≠ some .gt) :
    CheckAgrees store keygen value key ↔ Injectable store value key := by
  cases key with
  | some k => exact iff_of_true (checkAgrees_given k) fun h => by cases h
  | none =>
      by_cases hempty : store.keyPath = .empty
      · exact iff_of_true (checkAgrees_empty hempty hroom) fun _ hpath => absurd hempty hpath
      · by_cases habsent : store.keyPath.extract value = .ok none
        · rw [checkAgrees_absent hempty habsent hroom]
          exact ⟨fun h _ _ hauto _ => h hauto, fun h hauto => h rfl hempty hauto habsent⟩
        · refine iff_of_true (checkAgrees_found hempty habsent) ?_
          exact fun _ _ _ h => absurd h habsent

/-- A store with the key path `a.b` and a generator. -/
def nestedKeys : StoreMeta :=
  ⟨1, [0x73], .single [0x61, 0x2E, 0x62], true, keyGenStart, [], false⟩

/-- `{a: 5}`. -/
def primitiveOnPath : ScValue := .object [([0x61], .number 0x4014000000000000)]

/-- `{}` gets a key, with a new generator. -/
theorem checkPut_agrees_iff_created :
    CheckAgrees nestedKeys (.new keyGenStart) (.object []) none :=
  (checkPut_agrees_iff nestedKeys (.new keyGenStart) (.object []) none (by decide)).mpr
    fun _ _ _ _ => by decide

/-- A definition that is admitted, and a value that is let through and then refused. -/
theorem uninjectable_let_through :
    checkAutoIncrement (some nestedKeys.keyPath) nestedKeys.autoIncrement = .ok () ∧
      F64Bits.partialCmp keyGenStart KeyGenerator.maxKey ≠ some .gt ∧
      checkStorePut nestedKeys primitiveOnPath none = .ok () ∧
      determineKey nestedKeys (.new keyGenStart) primitiveOnPath none =
        .error (.data "Failed to inject key into value: Cannot inject key into primitive value") ∧
      ¬ CheckAgrees nestedKeys (.new keyGenStart) primitiveOnPath none := by
  have hsplit : KeyPath.splitPathUnits [0x61, 0x2E, 0x62] = [[0x61], [0x62]] := by decide
  have hroom : F64Bits.partialCmp keyGenStart KeyGenerator.maxKey ≠ some .gt := by decide
  have hempty : nestedKeys.keyPath ≠ .empty := by decide
  have habsent : nestedKeys.keyPath.extract primitiveOnPath = .ok none := by
    show KeyPath.extractSteps (KeyPath.splitPathUnits _) _ = _
    rw [hsplit]
    rfl
  have hinject (key : Key) :
      nestedKeys.keyPath.inject primitiveOnPath key = .error .cannotInjectIntoPrimitive := by
    show KeyPath.injectSteps (KeyPath.splitPathUnits _) _ _ = _
    rw [hsplit]
    rfl
  have hchecked : checkStorePut nestedKeys primitiveOnPath none = .ok () := by
    rw [checkStorePut, checkPut, if_neg hempty, habsent]
    rfl
  have hrefused : determineKey nestedKeys (.new keyGenStart) primitiveOnPath none =
      .error (.data "Failed to inject key into value: Cannot inject key into primitive value") := by
    rw [determineKey, if_neg hempty, habsent, generate_of_room hroom]
    simp only [Except.mapError, bind, Except.bind, hinject]
    rfl
  refine ⟨rfl, hroom, hchecked, hrefused, fun h => ?_⟩
  obtain ⟨r, hr⟩ := h.mp hchecked
  rw [hrefused] at hr
  cases hr

end Driver

end BoaIdb
