import BoaIdb.Core.Types

/-!
The schema in the metadata of a database, and how the schema operations change it.
-/

namespace BoaIdb

/-- `1.0`: where a key generator starts. -/
def keyGenStart : F64Bits := 0x3FF0000000000000

def emptyMeta (name : Utf16String) : DatabaseMeta := ⟨name, 0, [], 1, 1⟩

/-- `iter_mut().find(p)` followed by an assignment: the first match is replaced. -/
def updateFirst {α : Type} (p : α → Bool) (f : α → α) : List α → List α
  | [] => []
  | a :: as => if p a then f a :: as else a :: updateFirst p f as

theorem map_updateFirst {α β : Type} {g : α → β} {p : α → Bool} {f : α → α} (as : List α)
    (h : ∀ a, g (f a) = g a) : (updateFirst p f as).map g = as.map g := by
  induction as with
  | nil => rfl
  | cons a as ih =>
      rw [updateFirst]
      split
      · rw [List.map_cons, List.map_cons, h]
      · rw [List.map_cons, List.map_cons, ih]

theorem mem_updateFirst {α : Type} {p : α → Bool} {f : α → α} {as : List α} {b : α}
    (h : b ∈ updateFirst p f as) : b ∈ as ∨ ∃ a ∈ as, b = f a := by
  induction as with
  | nil => exact absurd h List.not_mem_nil
  | cons a as ih =>
      rw [updateFirst] at h
      split at h
      · rcases List.mem_cons.mp h with rfl | h
        · exact .inr ⟨a, by simp, rfl⟩
        · exact .inl (.tail _ h)
      · rcases List.mem_cons.mp h with rfl | h
        · exact .inl (by simp)
        · rcases ih h with hb | ⟨a', ha', rfl⟩
          · exact .inl (.tail _ hb)
          · exact .inr ⟨a', .tail _ ha', rfl⟩

/-- A change of one store that leaves its id and its generator. -/
def editStore (id : StoreId) (f : StoreMeta → StoreMeta) (m : DatabaseMeta) : DatabaseMeta :=
  { m with stores := updateFirst (fun s => s.id = id) f m.stores }

/-- A change of one index of one store. -/
def editIndex (store : StoreId) (id : IndexId) (f : IndexMeta → IndexMeta) :
    DatabaseMeta → DatabaseMeta :=
  editStore store fun s => { s with indexes := updateFirst (fun i => i.id = id) f s.indexes }

/-- The metadata without its generator fields. -/
def schemaOf (m : DatabaseMeta) : DatabaseMeta :=
  { m with stores := m.stores.map (fun s => { s with keyGen := keyGenStart }) }

/-- The version and the stores with their indexes. -/
def DatabaseMeta.shape (m : DatabaseMeta) : UInt64 × List StoreMeta :=
  ((schemaOf m).version, (schemaOf m).stores)

end BoaIdb
