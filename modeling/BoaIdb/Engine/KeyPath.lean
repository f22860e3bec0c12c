import BoaIdb.Clone.Written

/-!
Key paths: extraction of keys from values and injection of keys into them.

A path is split into its steps once, and a value is descended step by step.
-/

namespace BoaIdb

open Clone Faults

inductive KeyPathError
  | invalidSyntax (msg : String)
  | emptyArray
  | cannotInjectIntoPrimitive
  deriving DecidableEq, Repr

namespace KeyPath

/-- `split_path_units`: the steps between the units `U+002E`. -/
def splitPathUnits (units : Utf16String) : List Utf16String := units.splitOn 0x002E

/-- The step `length`. -/
def isLengthStep (step : Utf16String) : Bool :=
  step = [0x006C, 0x0065, 0x006E, 0x0067, 0x0074, 0x0068]

/-! ### Extraction -/

/-- The loop of `extract_single_path`. -/
def extractSteps : List Utf16String → ScValue → Except KeyError (Option Key)
  | [], curr => curr.toKey
  | step :: steps, .object entries =>
      match entries.lookup step with
      | some v => extractSteps steps v
      | none => .ok none
  | step :: steps, .array elements _ =>
      .ok (if isLengthStep step && steps.isEmpty then some (.number (F64Bits.ofInt elements.length))
        else none)
  | step :: steps, .string s =>
      .ok (if isLengthStep step && steps.isEmpty then some (.number (F64Bits.ofInt s.length))
        else none)
  | _ :: _, _ => .ok none

/-- The empty path means the value itself. -/
def extractSinglePath (path : Utf16String) (value : ScValue) : Except KeyError (Option Key) :=
  if path.isEmpty then value.toKey else extractSteps (splitPathUnits path) value

/-- The keys of the paths, up to the first that leads to none. -/
def extractPaths : List Utf16String → ScValue → Except KeyError (Option (List Key))
  | [], _ => .ok (some [])
  | path :: paths, value => do
      match ← extractSinglePath path value with
      | none => .ok none
      | some k =>
          let keys ← extractPaths paths value
          .ok (keys.map (k :: ·))

def extract (keyPath : KeyPath) (value : ScValue) : Except KeyError (Option Key) :=
  match keyPath with
  | .empty => value.toKey
  | .single path => extractSinglePath path value
  | .array paths => do
      let keys ← extractPaths paths value
      .ok (keys.map .array)

/-- The loop of `resolve_single_path`. -/
def resolveSteps : List Utf16String → ScValue → Option ScValue
  | [], curr => some curr
  | step :: steps, .object entries => (entries.lookup step).bind (resolveSteps steps)
  | _ :: _, _ => none

def resolveSinglePath (path : Utf16String) (value : ScValue) : Option ScValue :=
  if path.isEmpty then some value else resolveSteps (splitPathUnits path) value

/-- The value whose members a multiEntry index holds. -/
def multiEntryRoot (keyPath : KeyPath) (value : ScValue) : Option ScValue :=
  match keyPath with
  | .empty => some value
  | .single path => resolveSinglePath path value
  | .array _ => none

/-- The key of a member, if it is there and has one. -/
def memberKey (element : Option ScValue) : Option Key :=
  match element with
  | none => none
  | some v =>
      match v.toKey with
      | .ok k => k
      | .error _ => none

/-- Invalid members of an array are ignored. -/
def extractMultiEntry (keyPath : KeyPath) (value : ScValue) : Except KeyError (List Key) :=
  match keyPath.multiEntryRoot value with
  | none => .ok []
  | some (.array elements _) => .ok (elements.filterMap memberKey)
  | some raw => raw.toKey.map Option.toList

/-! ### Injection -/

/-- The loop of `inject_single_path`, which creates the objects that are missing. -/
def injectSteps : List Utf16String → ScValue → Key → Except KeyPathError ScValue
  | [], target, _ => .ok target
  | [lastStep], .object entries, key => .ok (.object (insertEntry entries lastStep (.fromKey key)))
  | step :: steps, .object entries, key => do
      let inner ← injectSteps steps ((entries.lookup step).getD (.object [])) key
      .ok (.object (insertEntry entries step inner))
  | _ :: _, _, _ => .error .cannotInjectIntoPrimitive

def inject (keyPath : KeyPath) (target : ScValue) (key : Key) : Except KeyPathError ScValue :=
  match keyPath with
  | .empty => .ok (.fromKey key)
  | .single path => injectSteps (splitPathUnits path) target key
  | .array _ => .error (.invalidSyntax "Cannot inject into array key path")

/-! ### Values that were stored

What is read back leads to the same keys. -/

end KeyPath

namespace ScValue

mutual

theorem toKey_stored (v : ScValue) : v.stored.toKey = v.toKey := by
  cases v with
  | array elements extraProps =>
      rw [stored, toKey, toKey, elementKeys_stored elements]
  | object entries => simp only [stored, toKey]
  | map pairs => simp only [stored, toKey]
  | set values => simp only [stored, toKey]
  | error kind message cause errors => simp only [stored, toKey, discriminant]
  | arrayBuffer data maxByteLength => simp only [stored, toKey, discriminant]
  | typedArray kind byteOffset length buffer => simp only [stored, toKey, discriminant]
  | dataView byteOffset byteLength buffer => simp only [stored, toKey, discriminant]
  | _ => simp only [stored]

theorem elementKeys_stored (elements : List (Option ScValue)) :
    elementKeys (storedElements elements) = elementKeys elements := by
  cases elements with
  | nil => rw [storedElements]
  | cons element elements =>
      cases element with
      | none => rw [storedElements, elementKeys, elementKeys]
      | some v =>
          rw [storedElements, elementKeys, elementKeys, toKey_stored v, elementKeys_stored elements]

end

theorem lookup_storedProps (props : List (Utf16String × ScValue)) (key : Utf16String) :
    (storedProps props).lookup key = (props.lookup key).map stored := by
  induction props with
  | nil => simp [storedProps]
  | cons kv props ih =>
      obtain ⟨k, v⟩ := kv
      rw [storedProps, List.lookup_cons, List.lookup_cons]
      cases key == k with
      | true => rfl
      | false => exact ih

theorem length_storedElements (elements : List (Option ScValue)) :
    (storedElements elements).length = elements.length := by
  induction elements with
  | nil => rw [storedElements]
  | cons element elements ih => cases element <;> simp [storedElements, ih]

end ScValue

namespace KeyPath

theorem extractSteps_stored (steps : List Utf16String) (v : ScValue) :
    extractSteps steps v.stored = extractSteps steps v := by
  induction steps generalizing v with
  | nil => rw [extractSteps, extractSteps, ScValue.toKey_stored]
  | cons step steps ih =>
      cases v with
      | object entries =>
          rw [ScValue.stored, extractSteps, extractSteps, ScValue.lookup_storedProps]
          cases entries.lookup step with
          | none => rfl
          | some w => exact ih w
      | array elements extraProps =>
          rw [ScValue.stored, extractSteps, extractSteps, ScValue.length_storedElements]
      | _ => simp only [ScValue.stored, extractSteps]

theorem extractSinglePath_stored (path : Utf16String) (v : ScValue) :
    extractSinglePath path v.stored = extractSinglePath path v := by
  rw [extractSinglePath, extractSinglePath, ScValue.toKey_stored, extractSteps_stored]

theorem extractPaths_stored (paths : List Utf16String) (v : ScValue) :
    extractPaths paths v.stored = extractPaths paths v := by
  induction paths with
  | nil => rw [extractPaths, extractPaths]
  | cons path paths ih => rw [extractPaths, extractPaths, extractSinglePath_stored, ih]

theorem extract_stored (keyPath : KeyPath) (v : ScValue) :
    keyPath.extract v.stored = keyPath.extract v := by
  cases keyPath with
  | empty => exact ScValue.toKey_stored v
  | single path => exact extractSinglePath_stored path v
  | array paths => rw [extract, extract, extractPaths_stored]

theorem resolveSteps_stored (steps : List Utf16String) (v : ScValue) :
    resolveSteps steps v.stored = (resolveSteps steps v).map ScValue.stored := by
  induction steps generalizing v with
  | nil => rfl
  | cons step steps ih =>
      cases v with
      | object entries =>
          rw [ScValue.stored, resolveSteps, resolveSteps, ScValue.lookup_storedProps]
          cases entries.lookup step with
          | none => rfl
          | some w => exact ih w
      | _ => simp [ScValue.stored, resolveSteps]

theorem multiEntryRoot_stored (keyPath : KeyPath) (v : ScValue) :
    keyPath.multiEntryRoot v.stored = (keyPath.multiEntryRoot v).map ScValue.stored := by
  cases keyPath with
  | empty => rfl
  | single path =>
      rw [multiEntryRoot, multiEntryRoot, resolveSinglePath, resolveSinglePath, resolveSteps_stored]
      split <;> rfl
  | array paths => rfl

theorem filterMap_memberKey_stored (elements : List (Option ScValue)) :
    (ScValue.storedElements elements).filterMap memberKey = elements.filterMap memberKey := by
  induction elements with
  | nil => rw [ScValue.storedElements]
  | cons element elements ih =>
      cases element with
      | none => rw [ScValue.storedElements, List.filterMap_cons, List.filterMap_cons, ih]
      | some v =>
          have hmember : memberKey (some v.stored) = memberKey (some v) := by
            simp only [memberKey, ScValue.toKey_stored]
          rw [ScValue.storedElements, List.filterMap_cons, List.filterMap_cons, hmember, ih]

theorem extractMultiEntry_stored (keyPath : KeyPath) (v : ScValue) :
    keyPath.extractMultiEntry v.stored = keyPath.extractMultiEntry v := by
  rw [extractMultiEntry, extractMultiEntry, multiEntryRoot_stored]
  cases keyPath.multiEntryRoot v with
  | none => rfl
  | some raw =>
      cases raw with
      | array elements extraProps =>
          simp only [Option.map_some, ScValue.stored, filterMap_memberKey_stored]
      | _ => simp only [Option.map_some, ScValue.stored, ScValue.toKey, ScValue.discriminant]

end KeyPath

/-! ### Values that may be stored -/

/-- What the types of the source and the converter of script values promise. -/
def ScValue.Promised (depth : ℕ) (w : ScValue) : Prop := NoMemo depth w ∧ Representable depth w

/-- The promise, for every nested value. -/
def ScValue.Storable (v : ScValue) : Prop := Everywhere Promised 0 v

theorem mem_insertEntry {entries : List (Utf16String × ScValue)} {key : Utf16String}
    {val : ScValue} {kv : Utf16String × ScValue} (h : kv ∈ insertEntry entries key val) :
    kv = (key, val) ∨ kv ∈ entries := by
  induction entries with
  | nil => exact .inl (List.mem_singleton.mp h)
  | cons e entries ih =>
      rw [insertEntry] at h
      split at h
      · next heq =>
          rcases List.mem_cons.mp h with rfl | h
          · exact .inl (by rw [heq])
          · exact .inr (.tail _ h)
      · rcases List.mem_cons.mp h with rfl | h
        · exact .inr (by simp)
        · rcases ih h with h | h
          · exact .inl h
          · exact .inr (.tail _ h)

namespace ScValue

variable {depth : ℕ} {entries : List (Utf16String × ScValue)}

/-- An object may be stored when its values may and its keys are distinct. -/
theorem everywhere_object : Everywhere Promised depth (.object entries) ↔
    (entries.map Prod.fst).Nodup ∧ ∀ kv ∈ entries, Everywhere Promised (depth + 1) kv.2 := by
  rw [everywhere_iff]
  simp only [Promised, NoMemo, Representable, children, List.forall_mem_map, true_and]

theorem everywhere_insertEntry {key : Utf16String} {val : ScValue}
    (h : Everywhere Promised depth (.object entries)) (hval : Everywhere Promised (depth + 1) val) :
    Everywhere Promised depth (.object (insertEntry entries key val)) := by
  obtain ⟨hnodup, hvalues⟩ := everywhere_object.mp h
  refine everywhere_object.mpr ⟨nodup_insertEntry hnodup, fun kv hkv => ?_⟩
  rcases mem_insertEntry hkv with rfl | hkv
  · exact hval
  · exact hvalues kv hkv

end ScValue

namespace KeyPath

/-- A number may be injected into whatever may be stored. -/
theorem everywhere_injectSteps {depth : ℕ} {steps : List Utf16String} {v v' : ScValue} {n : F64Bits}
    (hv : ScValue.Everywhere ScValue.Promised depth v)
    (h : injectSteps steps v (.number n) = .ok v') :
    ScValue.Everywhere ScValue.Promised depth v' := by
  induction steps generalizing v v' depth with
  | nil => exact Except.ok.inj h ▸ hv
  | cons step steps ih =>
      cases v with
      | object entries =>
          cases steps with
          | nil =>
              rw [← Except.ok.inj h]
              refine ScValue.everywhere_insertEntry hv ?_
              exact .intro ⟨trivial, trivial⟩ fun c hc => absurd hc List.not_mem_nil
          | cons next steps =>
              obtain ⟨inner, hinner, hok⟩ := bind_ok h
              rw [← Except.ok.inj hok]
              refine ScValue.everywhere_insertEntry hv (ih ?_ hinner)
              obtain ⟨hnodup, hvalues⟩ := ScValue.everywhere_object.mp hv
              cases hlookup : entries.lookup step with
              | none =>
                  exact ScValue.everywhere_object.mpr ⟨List.nodup_nil, fun kv hkv => by cases hkv⟩
              | some w =>
                  obtain ⟨kv, hkv, rfl⟩ : ∃ kv ∈ entries, kv.2 = w := by
                    obtain ⟨l, r, heq, -⟩ := List.lookup_eq_some_iff.mp hlookup
                    exact ⟨(step, w), by simp [heq], rfl⟩
                  exact hvalues kv hkv
      | _ => cases steps <;> cases h

theorem storable_inject {keyPath : KeyPath} {v v' : ScValue} {n : F64Bits} (hv : v.Storable)
    (h : keyPath.inject v (.number n) = .ok v') : v'.Storable := by
  cases keyPath with
  | empty =>
      rw [← Except.ok.inj h]
      exact .intro ⟨trivial, trivial⟩ fun c hc => absurd hc List.not_mem_nil
  | single path => exact everywhere_injectSteps hv h
  | array paths => cases h

end KeyPath

end BoaIdb
