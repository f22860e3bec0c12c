import Mathlib.Data.List.Lex
import Mathlib.Data.List.Pairwise
import Mathlib.Order.Lattice

/-!
Finite maps kept in key order, with the two operations an ordered map offers
beyond a plain one: the first entry at or after a bound, and the last entry at
or before one.

A map is a list of entries in strictly increasing key order, and the order is a
field, so two maps are equal as soon as they answer every lookup alike.
-/

namespace OrdMap

variable {K V : Type*}

/-- One end of a key range. -/
inductive Bound (K : Type*)
  | included (k : K)
  | excluded (k : K)
  | unbounded
  deriving DecidableEq

section Bound

variable [LinearOrder K]

/-- The keys a bound admits when it is the lower end of a range. -/
def Bound.above : Bound K → K → Bool
  | .included b, k => b ≤ k
  | .excluded b, k => b < k
  | .unbounded, _ => true

/-- The keys a bound admits when it is the upper end of a range. -/
def Bound.below : Bound K → K → Bool
  | .included b, k => k ≤ b
  | .excluded b, k => k < b
  | .unbounded, _ => true

@[simp] theorem Bound.above_included (b k : K) : (Bound.included b).above k = decide (b ≤ k) := rfl

@[simp] theorem Bound.above_excluded (b k : K) : (Bound.excluded b).above k = decide (b < k) := rfl

@[simp] theorem Bound.above_unbounded (k : K) : (Bound.unbounded : Bound K).above k = true := rfl

@[simp] theorem Bound.below_included (b k : K) : (Bound.included b).below k = decide (k ≤ b) := rfl

@[simp] theorem Bound.below_excluded (b k : K) : (Bound.excluded b).below k = decide (k < b) := rfl

@[simp] theorem Bound.below_unbounded (k : K) : (Bound.unbounded : Bound K).below k = true := rfl

end Bound

/-- A finite map from `K` to `V` whose entries are in increasing key order. -/
structure OrderedMap (K V : Type*) [LinearOrder K] where
  entries : List (K × V)
  /-- Keys increase strictly, so no key occurs twice. -/
  sorted : entries.Pairwise (fun a b => a.1 < b.1)

namespace OrderedMap

variable [LinearOrder K]

instance [DecidableEq V] : DecidableEq (OrderedMap K V) := fun m n =>
  decidable_of_iff (m.entries = n.entries) ⟨fun h => by cases m; cases n; simpa using h, fun h =>
    h ▸ rfl⟩

def empty : OrderedMap K V := ⟨[], .nil⟩

def keys (m : OrderedMap K V) : List K := m.entries.map Prod.fst

def size (m : OrderedMap K V) : ℕ := m.entries.length

def get? (m : OrderedMap K V) (k : K) : Option V :=
  (m.entries.find? (fun e => e.1 = k)).map Prod.snd

def contains (m : OrderedMap K V) (k : K) : Bool := (m.get? k).isSome

/-- A change of every value. -/
def map {W : Type*} (f : V → W) (m : OrderedMap K V) : OrderedMap K W :=
  ⟨m.entries.map fun e => (e.1, f e.2), List.pairwise_map.mpr m.sorted⟩

/-! ### Lookup and membership -/

theorem get?_map {W : Type*} (f : V → W) (m : OrderedMap K V) (k : K) :
    (m.map f).get? k = (m.get? k).map f := by
  simp only [get?, map, List.find?_map, Option.map_map]
  rfl

theorem eq_of_mem {m : OrderedMap K V} {k : K} {v w : V}
    (hv : (k, v) ∈ m.entries) (hw : (k, w) ∈ m.entries) : v = w := by
  by_contra hne
  have hs := m.sorted
  rw [List.pairwise_iff_getElem] at hs
  obtain ⟨i, hi, hiv⟩ := List.mem_iff_getElem.mp hv
  obtain ⟨j, hj, hjw⟩ := List.mem_iff_getElem.mp hw
  rcases lt_trichotomy i j with hij | rfl | hij
  · have := hs i j hi hj hij
    simp [hiv, hjw] at this
  · exact hne (by simpa using congrArg Prod.snd (hiv.symm.trans hjw))
  · have := hs j i hj hi hij
    simp [hiv, hjw] at this

theorem get?_eq_some_iff {m : OrderedMap K V} {k : K} {v : V} :
    m.get? k = some v ↔ (k, v) ∈ m.entries := by
  constructor
  · intro h
    obtain ⟨⟨k', v'⟩, hf, rfl⟩ := Option.map_eq_some_iff.mp h
    have hk : k' = k := by simpa using List.find?_some hf
    exact hk ▸ List.mem_of_find?_eq_some hf
  · intro h
    have hsome : (m.entries.find? (fun e => e.1 = k)).isSome := by
      rw [List.find?_isSome]
      exact ⟨_, h, by simp⟩
    obtain ⟨⟨k', v'⟩, hf⟩ := Option.isSome_iff_exists.mp hsome
    have hk : k' = k := by simpa using List.find?_some hf
    subst hk
    rw [get?, hf, Option.map_some, eq_of_mem (List.mem_of_find?_eq_some hf) h]

theorem get?_eq_none_iff {m : OrderedMap K V} {k : K} :
    m.get? k = none ↔ ∀ v, (k, v) ∉ m.entries := by
  rw [Option.eq_none_iff_forall_ne_some]
  exact forall_congr' fun v => not_congr get?_eq_some_iff

theorem mem_keys_iff {m : OrderedMap K V} {k : K} : k ∈ m.keys ↔ ∃ v, m.get? k = some v := by
  simp only [keys, List.mem_map, Prod.exists, exists_and_right, exists_eq_right, get?_eq_some_iff]

theorem contains_iff {m : OrderedMap K V} {k : K} : m.contains k = true ↔ k ∈ m.keys := by
  rw [contains, Option.isSome_iff_exists, mem_keys_iff]

theorem keys_sorted (m : OrderedMap K V) : m.keys.Pairwise (· < ·) := by
  rw [keys, List.pairwise_map]
  exact m.sorted

theorem nodup_keys (m : OrderedMap K V) : m.keys.Nodup :=
  m.keys_sorted.imp fun h => h.ne

@[simp] theorem get?_empty (k : K) : (empty : OrderedMap K V).get? k = none := rfl

/-- Two lists in strictly increasing key order with the same members are equal. -/
theorem entries_ext {l l' : List (K × V)} (h : l.Pairwise (fun a b => a.1 < b.1))
    (h' : l'.Pairwise (fun a b => a.1 < b.1)) (hmem : ∀ e, e ∈ l ↔ e ∈ l') : l = l' := by
  have nodup {l : List (K × V)} (h : l.Pairwise (fun a b => a.1 < b.1)) : l.Nodup :=
    h.imp fun {a b} hab hEq => by
      subst hEq
      exact lt_irrefl _ hab
  have hperm : l.Perm l' := (List.perm_ext_iff_of_nodup (nodup h) (nodup h')).mpr hmem
  exact hperm.eq_of_pairwise (fun a b _ _ hab hba => absurd (hab.trans hba) (lt_irrefl _)) h h'

@[ext] theorem ext_get? {m n : OrderedMap K V} (h : ∀ k, m.get? k = n.get? k) : m = n := by
  have hent : m.entries = n.entries := entries_ext m.sorted n.sorted fun ⟨k, v⟩ => by
    rw [← get?_eq_some_iff, ← get?_eq_some_iff, h k]
  cases m; cases n; simpa using hent

/-! ### Insertion and removal -/

/-- Inserts or replaces an entry, keeping the order. -/
def insertEntry (k : K) (v : V) : List (K × V) → List (K × V)
  | [] => [(k, v)]
  | e :: es => if k < e.1 then (k, v) :: e :: es
      else if k = e.1 then (k, v) :: es
      else e :: insertEntry k v es

theorem mem_insertEntry {k : K} {v : V} {es : List (K × V)}
    (hs : es.Pairwise (fun a b => a.1 < b.1)) {e : K × V} :
    e ∈ insertEntry k v es ↔ e = (k, v) ∨ (e ∈ es ∧ e.1 ≠ k) := by
  induction es with
  | nil => simp [insertEntry]
  | cons x xs ih =>
      obtain ⟨hx, hxs⟩ := List.pairwise_cons.mp hs
      simp only [insertEntry]
      split
      next hlt =>
        simp only [List.mem_cons]
        constructor
        · rintro (h | rfl | h)
          · exact .inl h
          · exact .inr ⟨.inl rfl, hlt.ne'⟩
          · exact .inr ⟨.inr h, (hlt.trans (hx _ h)).ne'⟩
        · rintro (h | ⟨rfl | h, -⟩)
          · exact .inl h
          · exact .inr (.inl rfl)
          · exact .inr (.inr h)
      next hnlt =>
        split
        next heq =>
          subst heq
          simp only [List.mem_cons]
          constructor
          · rintro (h | h)
            · exact .inl h
            · exact .inr ⟨.inr h, (hx _ h).ne'⟩
          · rintro (h | ⟨rfl | h, hne⟩)
            · exact .inl h
            · exact absurd rfl hne
            · exact .inr h
        next hne =>
          simp only [List.mem_cons, ih hxs]
          constructor
          · rintro (rfl | h | ⟨h, hk⟩)
            · exact .inr ⟨.inl rfl, fun h => hne h.symm⟩
            · exact .inl h
            · exact .inr ⟨.inr h, hk⟩
          · rintro (h | ⟨rfl | h, hk⟩)
            · exact .inr (.inl h)
            · exact .inl rfl
            · exact .inr (.inr ⟨h, hk⟩)

theorem sorted_insertEntry {k : K} {v : V} {es : List (K × V)}
    (hs : es.Pairwise (fun a b => a.1 < b.1)) :
    (insertEntry k v es).Pairwise (fun a b => a.1 < b.1) := by
  induction es with
  | nil => simp [insertEntry]
  | cons x xs ih =>
      obtain ⟨hx, hxs⟩ := List.pairwise_cons.mp hs
      simp only [insertEntry]
      split
      next hlt =>
        refine List.pairwise_cons.mpr ⟨fun e he => ?_, hs⟩
        rcases List.mem_cons.mp he with rfl | he
        · exact hlt
        · exact hlt.trans (hx _ he)
      next hnlt =>
        split
        next heq => exact List.pairwise_cons.mpr ⟨fun e he => heq ▸ hx e he, hxs⟩
        next hne =>
          refine List.pairwise_cons.mpr ⟨fun e he => ?_, ih hxs⟩
          rcases (mem_insertEntry hxs).mp he with rfl | ⟨he, -⟩
          · exact lt_of_le_of_ne (not_lt.mp hnlt) (Ne.symm hne)
          · exact hx e he

def insert (m : OrderedMap K V) (k : K) (v : V) : OrderedMap K V :=
  ⟨insertEntry k v m.entries, sorted_insertEntry m.sorted⟩

def erase (m : OrderedMap K V) (k : K) : OrderedMap K V :=
  ⟨m.entries.filter (fun e => e.1 ≠ k), m.sorted.filter _⟩

theorem get?_insert (m : OrderedMap K V) (k : K) (v : V) (k' : K) :
    (m.insert k v).get? k' = if k' = k then some v else m.get? k' := by
  ext w
  rw [get?_eq_some_iff, insert, mem_insertEntry m.sorted]
  split
  next h => simp [h, eq_comm]
  next h => simp [h, get?_eq_some_iff]

theorem get?_erase (m : OrderedMap K V) (k k' : K) :
    (m.erase k).get? k' = if k' = k then none else m.get? k' := by
  ext w
  rw [get?_eq_some_iff, erase, List.mem_filter]
  split
  next h => simp [h]
  next h => simp [h, get?_eq_some_iff]

@[simp] theorem get?_insert_self (m : OrderedMap K V) (k : K) (v : V) :
    (m.insert k v).get? k = some v := by simp [get?_insert]

theorem get?_insert_of_ne (m : OrderedMap K V) {k k' : K} (v : V) (h : k' ≠ k) :
    (m.insert k v).get? k' = m.get? k' := by simp [get?_insert, h]

@[simp] theorem get?_erase_self (m : OrderedMap K V) (k : K) : (m.erase k).get? k = none := by
  simp [get?_erase]

theorem get?_erase_of_ne (m : OrderedMap K V) {k k' : K} (h : k' ≠ k) :
    (m.erase k).get? k' = m.get? k' := by simp [get?_erase, h]

theorem get?_foldl_erase (ks : List K) (m : OrderedMap K V) (k : K) :
    (ks.foldl OrderedMap.erase m).get? k = if k ∈ ks then none else m.get? k := by
  induction ks generalizing m with
  | nil => simp
  | cons k' ks ih =>
      rw [List.foldl_cons, ih, OrderedMap.get?_erase]
      by_cases hk : k = k' <;> simp [hk]

theorem contains_insert (m : OrderedMap K V) (k : K) (v : V) (k' : K) :
    (m.insert k v).contains k' = (decide (k' = k) || m.contains k') := by
  unfold contains
  rw [get?_insert]
  split
  next h => simp [h]
  next h => simp [h]

theorem contains_erase_of_ne (m : OrderedMap K V) {k k' : K} (h : k' ≠ k) :
    (m.erase k).contains k' = m.contains k' := by
  unfold contains
  rw [get?_erase_of_ne m h]

/-- A key above all others comes last. -/
theorem entries_insert_last {m : OrderedMap K V} {k : K} (v : V) (h : ∀ k' ∈ m.keys, k' < k) :
    (m.insert k v).entries = m.entries ++ [(k, v)] := by
  apply entries_ext (m.insert k v).sorted
  · rw [List.pairwise_append]
    refine ⟨m.sorted, List.pairwise_singleton _ _, fun e he e' he' => ?_⟩
    rw [List.mem_singleton.mp he']
    exact h e.1 (List.mem_map_of_mem he)
  · intro e
    rw [insert, mem_insertEntry m.sorted, List.mem_append, List.mem_singleton, or_comm]
    refine or_congr (and_iff_left_of_imp fun he heq => ?_) Iff.rfl
    exact absurd (h e.1 (List.mem_map_of_mem he)) (heq ▸ lt_irrefl _)

/-- A key that is there keeps its place. -/
theorem entries_insert_of_contains {m : OrderedMap K V} {k : K} (v : V) (h : m.contains k = true) :
    (m.insert k v).entries = m.entries.map fun e => if e.1 = k then (k, v) else e := by
  apply entries_ext (m.insert k v).sorted
  · rw [List.pairwise_map]
    refine m.sorted.imp fun {a b} hab => ?_
    have hkey (e : K × V) : (if e.1 = k then (k, v) else e).1 = e.1 := by
      split
      next he => exact he.symm
      next he => rfl
    rw [hkey, hkey]
    exact hab
  · intro e
    obtain ⟨w, hw⟩ := mem_keys_iff.mp (contains_iff.mp h)
    have hmem : (k, w) ∈ m.entries := get?_eq_some_iff.mp hw
    rw [insert, mem_insertEntry m.sorted, List.mem_map]
    constructor
    · rintro (rfl | ⟨he, hne⟩)
      · exact ⟨(k, w), hmem, if_pos rfl⟩
      · exact ⟨e, he, if_neg hne⟩
    · rintro ⟨e', he', rfl⟩
      split
      next => exact .inl rfl
      next hne => exact .inr ⟨he', hne⟩

/-- A map that differs at one key is restored by the old value. -/
theorem insert_restores {m m' : OrderedMap K V} {k : K} {v : V} (hold : m.get? k = some v)
    (hother : ∀ k', k' ≠ k → m'.get? k' = m.get? k') : m'.insert k v = m := by
  ext k' : 1
  rw [get?_insert]
  split
  · next h => rw [h, hold]
  · next h => exact hother k' h

theorem erase_restores {m m' : OrderedMap K V} {k : K} (hold : m.get? k = none)
    (hother : ∀ k', k' ≠ k → m'.get? k' = m.get? k') : m'.erase k = m := by
  ext k' : 1
  rw [get?_erase]
  split
  · next h => rw [h, hold]
  · next h => exact hother k' h

/-- The map that inserting one entry after the other builds. -/
def ofInserts (es : List (K × V)) : OrderedMap K V := es.foldl (fun m e => m.insert e.1 e.2) empty

theorem get?_foldl_insert {es : List (K × V)} (hnodup : (es.map Prod.fst).Nodup)
    (m : OrderedMap K V) (k : K) (v : V) :
    (es.foldl (fun m e => m.insert e.1 e.2) m).get? k = some v ↔
      (k, v) ∈ es ∨ k ∉ es.map Prod.fst ∧ m.get? k = some v := by
  induction es generalizing m with
  | nil => simp
  | cons e es ih =>
      obtain ⟨k', v'⟩ := e
      obtain ⟨hnew, hrest⟩ := List.nodup_cons.mp hnodup
      rw [List.foldl_cons, ih hrest, get?_insert]
      by_cases hk : k = k'
      · subst hk
        have hnot : (k, v) ∉ es := fun hmem => hnew (List.mem_map.mpr ⟨_, hmem, rfl⟩)
        simp [hnot, hnew, eq_comm]
      · simp [hk]

/-- The entries of a map build it, in whatever order they are inserted. -/
theorem ofInserts_of_perm {m : OrderedMap K V} {es : List (K × V)} (h : es.Perm m.entries) :
    ofInserts es = m := by
  have hnodup : (es.map Prod.fst).Nodup := (h.map Prod.fst).nodup_iff.mpr m.nodup_keys
  ext k v
  rw [ofInserts, get?_foldl_insert hnodup, get?_empty, h.mem_iff, ← get?_eq_some_iff]
  simp

/-- The entries that meet a condition. -/
def filter (m : OrderedMap K V) (p : K → V → Bool) : OrderedMap K V :=
  ⟨m.entries.filter (fun e => p e.1 e.2), m.sorted.filter _⟩

theorem get?_filter (m : OrderedMap K V) (p : K → V → Bool) (k : K) :
    (m.filter p).get? k = (m.get? k).filter (p k) := by
  ext v
  rw [get?_eq_some_iff, filter, List.mem_filter, Option.filter_eq_some_iff, get?_eq_some_iff]

/-! ### The ends of a range -/

/-- The first entry a lower bound admits: `range((b, Unbounded)).next()`. -/
def firstFrom (m : OrderedMap K V) (b : Bound K) : Option (K × V) :=
  m.entries.find? (fun e => b.above e.1)

/-- The last entry an upper bound admits: `range((Unbounded, b)).next_back()`. -/
def lastUpTo (m : OrderedMap K V) (b : Bound K) : Option (K × V) :=
  m.entries.reverse.find? (fun e => b.below e.1)

theorem firstFrom_eq (m : OrderedMap K V) (b : Bound K) :
    m.firstFrom b = (m.entries.filter (fun e => b.above e.1)).head? := by
  rw [firstFrom, List.head?_filter]

theorem lastUpTo_eq (m : OrderedMap K V) (b : Bound K) :
    m.lastUpTo b = (m.entries.filter (fun e => b.below e.1)).reverse.head? := by
  rw [lastUpTo, ← List.filter_reverse, List.head?_filter]

end OrderedMap

/-! ### Overlays

An overlay assigns some keys of a base map a new value or a tombstone. -/

section Overlay

variable {VB VO : Type*} [LinearOrder K]

/-- Applies one overlay entry: a value is inserted, a tombstone removes. -/
def applySlot (slot : VO → Option VB) (m : OrderedMap K VB) (e : K × VO) : OrderedMap K VB :=
  match slot e.2 with
  | some v => m.insert e.1 v
  | none => m.erase e.1

/-- The base with every overlay entry applied, in key order. -/
def OrderedMap.merge (slot : VO → Option VB) (base : OrderedMap K VB) (overlay : OrderedMap K VO) :
    OrderedMap K VB :=
  overlay.entries.foldl (applySlot slot) base

theorem get?_applySlot (slot : VO → Option VB) (m : OrderedMap K VB) (e : K × VO) (k : K) :
    (applySlot slot m e).get? k = if k = e.1 then slot e.2 else m.get? k := by
  unfold applySlot
  cases h : slot e.2 with
  | some v => rw [OrderedMap.get?_insert]
  | none => rw [OrderedMap.get?_erase]

theorem get?_foldl_applySlot (slot : VO → Option VB) (es : List (K × VO)) (k : K)
    (hs : es.Pairwise (fun a b => a.1 < b.1)) (m : OrderedMap K VB) :
    (es.foldl (applySlot slot) m).get? k =
      match (es.find? (fun e => e.1 = k)).map Prod.snd with
      | some o => slot o
      | none => m.get? k := by
  induction es generalizing m with
  | nil => rfl
  | cons e es ih =>
      obtain ⟨he, hs⟩ := List.pairwise_cons.mp hs
      rw [List.foldl_cons, ih hs, get?_applySlot]
      by_cases hk : e.1 = k
      · have hnone : es.find? (fun e => e.1 = k) = none := by
          rw [List.find?_eq_none]
          intro e' he'
          simpa [← hk] using (he e' he').ne'
        simp [hk, hnone]
      · simp [hk, Ne.symm hk]

/-- The overlay decides where it has an entry, the base everywhere else. -/
theorem OrderedMap.get?_merge (slot : VO → Option VB) (base : OrderedMap K VB)
    (overlay : OrderedMap K VO) (k : K) :
    (base.merge slot overlay).get? k =
      match overlay.get? k with
      | some o => slot o
      | none => base.get? k :=
  get?_foldl_applySlot slot overlay.entries k overlay.sorted base

end Overlay

end OrdMap
