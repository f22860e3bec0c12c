import BoaIdb.Clone.Leaves

/-!
Conditions on values: the size of their encoding, what the types of the source promise,
and the checks that only the decoder makes.
-/

namespace BoaIdb

open Clone

namespace ScValue

/-! ### Sizes -/

variable (env : CodecEnv)

/-- The bytes of the indexes before the elements that are not holes. -/
def indexSize : ℕ → List (Option ScValue) → ℕ
  | _, [] => 0
  | i, none :: elements => indexSize (i + 1) elements
  | i, some _ :: elements => (encodeLen i).length + indexSize (i + 1) elements

/-- The bytes of the keys before the values of properties. -/
def keysSize (props : List (Utf16String × ScValue)) : ℕ :=
  (props.map fun kv => (encodeStringValue kv.1).length).sum

/-- The bytes of a value apart from those of the values nested in it. -/
def ownSize : ScValue → ℕ
  | .undefined => 1
  | .null => 1
  | .boolean _ => 1
  | .number n => (encodeNumber n).length
  | .bigInt n => (encodeBigInt env n).length
  | .string s => (encodeString s).length
  | .date d => (encodeDate d).length
  | .regExp pattern flags => (encodeRegExp pattern flags).length
  | .array elements extraProps =>
      1 + ((encodeLen elements.length).length + (encodeLen elements.reduceOption.length).length) +
        indexSize 0 elements + (encodeLen extraProps.length).length + keysSize extraProps
  | .object entries => 1 + (encodeLen entries.length).length + keysSize entries
  | .map pairs => 1 + (encodeLen pairs.length).length
  | .set values => 1 + (encodeLen values.length).length
  | .error _ message _ errors =>
      3 + (message.elim 0 fun msg => (encodeStringValue msg).length) +
        errors.elim 0 fun es => (encodeLen es.length).length
  | .arrayBuffer data maxByteLength => (encodeArrayBuffer data maxByteLength).length
  | .typedArray _ byteOffset length _ =>
      2 + ((encodeUvarint byteOffset).length + (encodeUvarint length).length)
  | .dataView byteOffset byteLength _ =>
      1 + ((encodeUvarint byteOffset).length + (encodeUvarint byteLength).length)
  | .boxedBoolean _ => 3
  | .boxedNumber n => 2 + (encodeNumber n).length
  | .boxedString s => 2 + (encodeString s).length
  | .boxedBigInt n => 2 + (encodeBigInt env n).length
  | .memoRef idx => 1 + (encodeUvarint idx).length

/-- The bytes of the encoding of a value, without header and checksum. -/
def scfSize (v : ScValue) : ℕ :=
  v.ownSize env + (v.children.attach.map fun c => scfSize c.1).sum
termination_by sizeOf v
decreasing_by exact sizeOf_children c.2

theorem scfSize_eq (v : ScValue) :
    v.scfSize env = v.ownSize env + (v.children.map (scfSize env)).sum := by
  rw [scfSize, List.attach_map_val]

theorem ownSize_pos (v : ScValue) : 0 < v.ownSize env := by
  cases v with
  | number n =>
      simp only [ownSize, encodeNumber]
      split <;> exact Nat.succ_pos _
  | error kind message cause errors =>
      simp only [ownSize]
      omega
  | _ => simp [ownSize, encodeBigInt, encodeString, encodeDate, encodeRegExp, encodeArrayBuffer]

theorem scfSize_pos (v : ScValue) : 0 < v.scfSize env := by
  rw [scfSize_eq]
  exact Nat.add_pos_left (ownSize_pos env v) _

theorem length_le_sum_scfSize (values : List ScValue) :
    values.length ≤ (values.map (scfSize env)).sum := by
  induction values with
  | nil => exact Nat.zero_le _
  | cons v values ih =>
      have hpos := scfSize_pos env v
      simp only [List.length_cons, List.map_cons, List.sum_cons]
      omega

/-! ### What must hold of every nested value -/

/-- The types of the source: the length of a vector is a `usize`, and the keys of an
`IndexMap` are distinct. -/
def Representable (_ : ℕ) : ScValue → Prop
  | .array elements _ => elements.length < 2 ^ 64
  | .object entries => (entries.map Prod.fst).Nodup
  | _ => True

def NoMemo (_ : ℕ) : ScValue → Prop
  | .memoRef _ => False
  | _ => True

/-- The checks of the decoder that the encoder does not make. That the slots of an array can be
allocated holds of every vector in memory. -/
def Bounded (env : CodecEnv) (limits : LimitConfig) (depth : ℕ) : ScValue → Prop
  | .array elements _ =>
      elements.length ≤ limits.maxValueLen ∧ elements.length * env.slotSize < isizeBound
  | .boxedBoolean _ => depth < limits.maxCloneDepth
  | .boxedNumber _ => depth < limits.maxCloneDepth
  | .boxedString _ => depth < limits.maxCloneDepth
  | .boxedBigInt _ => depth < limits.maxCloneDepth
  | _ => True

/-- The maximum of a buffer has a successor. -/
def Intact (_ : ℕ) : ScValue → Prop
  | .arrayBuffer _ maxByteLength => MaxFits maxByteLength
  | _ => True

/-! ### What comes back

A value is read back as itself, but for the maximum of a buffer. -/

mutual

/-- The value that is read back. -/
def stored : ScValue → ScValue
  | .array elements extraProps => .array (storedElements elements) (storedProps extraProps)
  | .object entries => .object (storedProps entries)
  | .map pairs => .map (storedPairs pairs)
  | .set values => .set (storedValues values)
  | .error kind message cause errors =>
      .error kind message (storedCause cause) (storedErrors errors)
  | .arrayBuffer data maxByteLength => .arrayBuffer data (storedMax maxByteLength)
  | .typedArray kind byteOffset length buffer => .typedArray kind byteOffset length (stored buffer)
  | .dataView byteOffset byteLength buffer => .dataView byteOffset byteLength (stored buffer)
  | v => v

def storedValues : List ScValue → List ScValue
  | [] => []
  | v :: values => stored v :: storedValues values

def storedElements : List (Option ScValue) → List (Option ScValue)
  | [] => []
  | none :: elements => none :: storedElements elements
  | some v :: elements => some (stored v) :: storedElements elements

def storedProps : List (Utf16String × ScValue) → List (Utf16String × ScValue)
  | [] => []
  | (key, v) :: props => (key, stored v) :: storedProps props

def storedPairs : List (ScValue × ScValue) → List (ScValue × ScValue)
  | [] => []
  | (k, v) :: pairs => (stored k, stored v) :: storedPairs pairs

def storedCause : Option ScValue → Option ScValue
  | none => none
  | some c => some (stored c)

def storedErrors : Option (List ScValue) → Option (List ScValue)
  | none => none
  | some es => some (storedValues es)

end

theorem keys_storedProps (props : List (Utf16String × ScValue)) :
    (storedProps props).map Prod.fst = props.map Prod.fst := by
  induction props with
  | nil => rfl
  | cons kv props ih => rw [storedProps, List.map_cons, List.map_cons, ih]

theorem storedValues_eq_iff {values : List ScValue} :
    storedValues values = values ↔ ∀ c ∈ values, stored c = c := by
  induction values with
  | nil => simp [storedValues]
  | cons v values ih => rw [storedValues, List.cons_eq_cons, ih, List.forall_mem_cons]

theorem storedElements_eq_iff {elements : List (Option ScValue)} :
    storedElements elements = elements ↔ ∀ c ∈ elements.reduceOption, stored c = c := by
  induction elements with
  | nil => simp [storedElements]
  | cons element elements ih =>
      cases element with
      | none => simp [storedElements, ih]
      | some v => simp [storedElements, ih]

theorem storedProps_eq_iff {props : List (Utf16String × ScValue)} :
    storedProps props = props ↔ ∀ c ∈ props.map Prod.snd, stored c = c := by
  induction props with
  | nil => simp [storedProps]
  | cons kv props ih =>
      rw [storedProps, List.cons_eq_cons, ih, List.map_cons, List.forall_mem_cons, Prod.ext_iff]
      simp

theorem storedPairs_eq_iff {pairs : List (ScValue × ScValue)} :
    storedPairs pairs = pairs ↔ ∀ c ∈ pairs.flatMap fun kv => [kv.1, kv.2], stored c = c := by
  induction pairs with
  | nil => simp [storedPairs]
  | cons kv pairs ih =>
      rw [storedPairs, List.cons_eq_cons, ih, List.flatMap_cons, List.forall_mem_append,
        Prod.ext_iff]
      simp

theorem storedCause_eq_iff {cause : Option ScValue} :
    storedCause cause = cause ↔ ∀ c ∈ cause.toList, stored c = c := by
  cases cause <;> simp [storedCause]

theorem storedErrors_eq_iff {errors : Option (List ScValue)} :
    storedErrors errors = errors ↔ ∀ c ∈ errors.getD [], stored c = c := by
  cases errors <;> simp [storedErrors, storedValues_eq_iff]

/-- A value is read back as itself when nothing wraps around. -/
theorem stored_eq_iff (v : ScValue) : ∀ depth, v.stored = v ↔ Everywhere Intact depth v := by
  induction v using ScValue.induction with
  | step v ih =>
    intro depth
    rw [everywhere_iff, ← forall₂_congr fun c hc => ih c hc (depth + 1)]
    cases v with
    | array elements extraProps =>
        simp only [stored, array.injEq, storedElements_eq_iff, storedProps_eq_iff, Intact, children,
          List.forall_mem_append, true_and]
    | object entries =>
        simp only [stored, object.injEq, storedProps_eq_iff, Intact, children, true_and]
    | map pairs => simp only [stored, map.injEq, storedPairs_eq_iff, Intact, children, true_and]
    | set values => simp only [stored, set.injEq, storedValues_eq_iff, Intact, children, true_and]
    | error kind message cause errors =>
        simp only [stored, error.injEq, storedCause_eq_iff, storedErrors_eq_iff, Intact, children,
          List.forall_mem_append, true_and]
    | arrayBuffer data maxByteLength => simp [stored, storedMax_eq_iff, Intact, children]
    | typedArray kind byteOffset length buffer => simp [stored, Intact, children]
    | dataView byteOffset byteLength buffer => simp [stored, Intact, children]
    | _ => simp [stored, Intact, children]

end ScValue

end BoaIdb
