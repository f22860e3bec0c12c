import Mathlib.Data.List.Lex
import Mathlib.Data.Prod.Lex
import Mathlib.Order.Lattice

/-!
The protocol types shared by every backend: identifiers, transaction modes,
cursor directions, sources, encoded ranges, and the schema metadata.

Identifiers are the 64-bit integers of the source and encoded keys are byte
lists, compared byte by byte. A key generator is an IEEE double in the source;
only its bits are stored and compared here, so it is the 64-bit pattern.
-/

namespace BoaIdb

instance linearOrderUInt8 : LinearOrder UInt8 where
  le_refl := UInt8.le_refl
  le_trans _ _ _ := UInt8.le_trans
  lt_iff_le_not_ge _ _ := UInt8.lt_iff_le_and_ne.trans
    ⟨fun h => ⟨h.1, fun h' => h.2 (UInt8.le_antisymm h.1 h')⟩,
      fun h => ⟨h.1, fun h' => h.2 (h' ▸ UInt8.le_refl _)⟩⟩
  le_antisymm _ _ := UInt8.le_antisymm
  le_total := UInt8.le_total
  toDecidableLE := inferInstance
  toDecidableLT := inferInstance
  toDecidableEq := inferInstance

instance linearOrderUInt16 : LinearOrder UInt16 where
  le_refl := UInt16.le_refl
  le_trans _ _ _ := UInt16.le_trans
  lt_iff_le_not_ge _ _ := UInt16.lt_iff_le_and_ne.trans
    ⟨fun h => ⟨h.1, fun h' => h.2 (UInt16.le_antisymm h.1 h')⟩,
      fun h => ⟨h.1, fun h' => h.2 (h' ▸ UInt16.le_refl _)⟩⟩
  le_antisymm _ _ := UInt16.le_antisymm
  le_total := UInt16.le_total
  toDecidableLE := inferInstance
  toDecidableLT := inferInstance
  toDecidableEq := inferInstance

instance linearOrderUInt64 : LinearOrder UInt64 where
  le_refl := UInt64.le_refl
  le_trans _ _ _ := UInt64.le_trans
  lt_iff_le_not_ge _ _ := UInt64.lt_iff_le_and_ne.trans
    ⟨fun h => ⟨h.1, fun h' => h.2 (UInt64.le_antisymm h.1 h')⟩,
      fun h => ⟨h.1, fun h' => h.2 (h' ▸ UInt64.le_refl _)⟩⟩
  le_antisymm _ _ := UInt64.le_antisymm
  le_total := UInt64.le_total
  toDecidableLE := inferInstance
  toDecidableLT := inferInstance
  toDecidableEq := inferInstance

/-- `Vec<u8>`. -/
abbrev Bytes := List UInt8

/-- One proof for all lists of keys that are searched. -/
instance : LawfulBEq Bytes := List.instLawfulBEq

/-- One proof for all scopes that are searched. -/
instance lawfulBEq_uint64 : LawfulBEq UInt64 where
  eq_of_beq h := of_decide_eq_true h
  rfl := decide_eq_true rfl

/-- A byte as `{:#04x}` shows it. -/
def hexByte (b : UInt8) : String :=
  String.ofList ['0', 'x', Nat.digitChar (b.toNat / 16), Nat.digitChar (b.toNat % 16)]

abbrev StoreId := UInt64
abbrev IndexId := UInt64

/-- The bit pattern of an `f64`. -/
abbrev F64Bits := UInt64

inductive TxnMode
  | readOnly
  | readWrite
  | versionChange
  deriving DecidableEq, Repr

inductive Durability
  | default
  | strict
  | relaxed
  deriving DecidableEq, Repr

inductive Direction
  | next
  | nextUnique
  | prev
  | prevUnique
  deriving DecidableEq, Repr

def Direction.isUnique : Direction → Bool
  | .nextUnique | .prevUnique => true
  | .next | .prev => false

def Direction.isPrev : Direction → Bool
  | .prev | .prevUnique => true
  | .next | .nextUnique => false

/-- Source of a scan: an object store, or one of its indexes. -/
inductive SourceRef
  | store (id : StoreId)
  | index (store : StoreId) (index : IndexId)
  deriving DecidableEq, Repr

/-- The store of a source, whose scope is checked. -/
def SourceRef.storeId : SourceRef → StoreId
  | .store id => id
  | .index id _ => id

/-- Backend errors, with their texts. -/
inductive BackendError
  | constraint (msg : String)
  | notFound (msg : String)
  | invalidRange
  | locked
  | corrupted (msg : String)
  | io (msg : String)
  | quotaExceeded (needed available : ℕ)
  | internal (msg : String)
  deriving DecidableEq, Repr

/-- An encoded key range: each bound is `none` (unbounded) or the encoded key
with its `open` flag. -/
structure EncodedRange where
  lower : Option (Bytes × Bool)
  upper : Option (Bytes × Bool)
  deriving DecidableEq, Repr

namespace EncodedRange

def all : EncodedRange := ⟨none, none⟩

def only (key : Bytes) : EncodedRange := ⟨some (key, false), some (key, false)⟩

/-- The lower half of `contains`. -/
def aboveLower (r : EncodedRange) (key : Bytes) : Bool :=
  match r.lower with
  | none => true
  | some (lower, isOpen) => if isOpen then lower < key else lower ≤ key

/-- The upper half of `contains`. -/
def belowUpper (r : EncodedRange) (key : Bytes) : Bool :=
  match r.upper with
  | none => true
  | some (upper, isOpen) => if isOpen then key < upper else key ≤ upper

def contains (r : EncodedRange) (key : Bytes) : Bool :=
  r.aboveLower key && r.belowUpper key

end EncodedRange

/-- A sequence of UTF-16 code units. -/
abbrev Utf16String := List UInt16

inductive KeyPath
  | empty
  | single (path : Utf16String)
  | array (paths : List Utf16String)
  deriving DecidableEq, Repr

structure IndexMeta where
  id : IndexId
  storeId : StoreId
  name : Utf16String
  keyPath : KeyPath
  unique : Bool
  multiEntry : Bool
  deleted : Bool
  deriving DecidableEq, Repr

structure StoreMeta where
  id : StoreId
  name : Utf16String
  keyPath : KeyPath
  autoIncrement : Bool
  keyGen : F64Bits
  indexes : List IndexMeta
  deleted : Bool
  deriving DecidableEq, Repr

structure DatabaseMeta where
  name : Utf16String
  version : UInt64
  stores : List StoreMeta
  nextStoreId : StoreId
  nextIndexId : IndexId
  deriving DecidableEq, Repr

/-! ### Row keys -/

/-- `(StoreId, Vec<u8>)`: the key of a record row. -/
structure RecordKey where
  store : StoreId
  key : Bytes
  deriving DecidableEq, Repr

/-- `(IndexId, Vec<u8>, Vec<u8>)`: the key of an index row. -/
structure IndexKey where
  index : IndexId
  key : Bytes
  primaryKey : Bytes
  deriving DecidableEq, Repr

/-- Tuples compare component by component, from the left. -/
instance : LinearOrder RecordKey :=
  LinearOrder.lift' (fun k => toLex (k.store, k.key)) fun a b h => by
    cases a
    cases b
    simpa using h

instance : LinearOrder IndexKey :=
  LinearOrder.lift' (fun k => toLex (k.index, toLex (k.key, k.primaryKey))) fun a b h => by
    cases a
    cases b
    simpa using h

theorem RecordKey.lt_iff {a b : RecordKey} :
    a < b ↔ a.store < b.store ∨ a.store = b.store ∧ a.key < b.key :=
  Prod.Lex.toLex_lt_toLex

theorem RecordKey.le_iff {a b : RecordKey} :
    a ≤ b ↔ a.store < b.store ∨ a.store = b.store ∧ a.key ≤ b.key :=
  Prod.Lex.toLex_le_toLex

theorem IndexKey.lt_iff {a b : IndexKey} :
    a < b ↔ a.index < b.index ∨ a.index = b.index ∧
      (a.key < b.key ∨ a.key = b.key ∧ a.primaryKey < b.primaryKey) := by
  refine Prod.Lex.toLex_lt_toLex.trans ?_
  exact or_congr Iff.rfl (and_congr Iff.rfl Prod.Lex.toLex_lt_toLex)

theorem IndexKey.le_iff {a b : IndexKey} :
    a ≤ b ↔ a.index < b.index ∨ a.index = b.index ∧
      (a.key < b.key ∨ a.key = b.key ∧ a.primaryKey ≤ b.primaryKey) := by
  refine Prod.Lex.toLex_le_toLex.trans ?_
  exact or_congr Iff.rfl (and_congr Iff.rfl Prod.Lex.toLex_le_toLex)

end BoaIdb
