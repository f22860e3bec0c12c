import BoaIdb.Backend.Schema
import Mathlib.Data.List.Forall2

/-!
The live part of a schema, and two copies of one schema that are changed side by side.

Deleted stores and indexes stay in their lists, and a change is made at the first entry of an
id. A copy may still have some stores that the other one has deleted: those that are to go
when it is committed.
-/

namespace BoaIdb

/-! ### The first match -/

section UpdateFirst

variable {α β : Type} {p q live : α → Bool} {f g : α → α}

theorem updateFirst_append {as : List α} (bs : List α) (h : ∃ a ∈ as, p a = true) :
    updateFirst p f (as ++ bs) = updateFirst p f as ++ bs := by
  induction as with
  | nil =>
      obtain ⟨a, ha, -⟩ := h
      exact absurd ha List.not_mem_nil
  | cons a as ih =>
      rw [List.cons_append, updateFirst, updateFirst]
      split
      · rfl
      · rename_i hp
        obtain ⟨b, hb, hpb⟩ := h
        rcases List.mem_cons.mp hb with rfl | hb
        · exact absurd hpb hp
        · rw [ih ⟨b, hb, hpb⟩, List.cons_append]

theorem updateFirst_of_none {as : List α} (h : as.find? p = none) : updateFirst p f as = as := by
  induction as with
  | nil => rfl
  | cons a as ih =>
      rw [List.find?_cons] at h
      cases hp : p a with
      | true =>
          rw [hp] at h
          cases h
      | false =>
          rw [hp] at h
          rw [updateFirst, hp, if_neg Bool.false_ne_true, ih h]

/-- A search that a change does not disturb. -/
theorem map_find?_updateFirst {γ : Type} {k : α → γ} (as : List α) (hq : ∀ a, q (f a) = q a)
    (hk : ∀ a, k (f a) = k a) : ((updateFirst p f as).find? q).map k = (as.find? q).map k := by
  induction as with
  | nil => rfl
  | cons a as ih =>
      cases hp : p a <;> cases h : q a <;> simp [updateFirst, hp, h, hq, hk, ih]

/-- Two changes at the same place. -/
theorem updateFirst_updateFirst (as : List α) (hp : ∀ a, p (g a) = p a) :
    updateFirst p f (updateFirst p g as) = updateFirst p (fun a => f (g a)) as := by
  induction as with
  | nil => rfl
  | cons a as ih =>
      cases h : p a with
      | true => simp [updateFirst, h, hp]
      | false => simp [updateFirst, h, ih]

/-- Two changes that do not disturb each other. -/
theorem updateFirst_comm (as : List α) (hp : ∀ a, p (g a) = p a) (hq : ∀ a, q (f a) = q a)
    (hfg : ∀ a, f (g a) = g (f a)) :
    updateFirst p f (updateFirst q g as) = updateFirst q g (updateFirst p f as) := by
  induction as with
  | nil => rfl
  | cons a as ih =>
      cases h : p a <;> cases h' : q a <;> simp [updateFirst, h, h', hp, hq, hfg, ih]

/-- With one match at most, every match is changed. -/
theorem updateFirst_eq_map {as : List α} (h : as.Pairwise fun a b => ¬ (p a = true ∧ p b = true)) :
    updateFirst p f as = as.map fun a => if p a then f a else a := by
  induction as with
  | nil => rfl
  | cons a as ih =>
      obtain ⟨ha, has⟩ := List.pairwise_cons.mp h
      cases hp : p a with
      | false => simp [updateFirst, hp, ih has]
      | true =>
          have hrest : as.map (fun b => if p b then f b else b) = as := by
            conv_rhs => rw [← List.map_id as]
            apply List.map_congr_left
            intro b hb
            rw [if_neg fun hpb => ha b hb ⟨hp, hpb⟩, id]
          simp [updateFirst, hp, hrest]

/-- A change behind a map. -/
theorem map_updateFirst_comm {k : α → β} {q : β → Bool} {g : β → β} (as : List α)
    (hq : ∀ a, q (k a) = p a) (hk : ∀ a, k (f a) = g (k a)) :
    (updateFirst p f as).map k = updateFirst q g (as.map k) := by
  induction as with
  | nil => rfl
  | cons a as ih => cases h : p a <;> simp [updateFirst, h, hq, hk, ih]

/-- A change of entries that correspond. -/
theorem forall₂_updateFirst {R : α → β → Prop} {q : β → Bool} {g : β → β} {as : List α}
    {bs : List β} (hpq : ∀ a b, R a b → p a = q b) (h : List.Forall₂ R as bs)
    (hR : ∀ a b, as.find? p = some a → bs.find? q = some b → R a b → R (f a) (g b)) :
    List.Forall₂ R (updateFirst p f as) (updateFirst q g bs) := by
  induction h with
  | nil => exact .nil
  | @cons a b as bs hab h ih =>
      have hsame := hpq a b hab
      cases hp : p a with
      | true =>
          have hq : q b = true := hsame ▸ hp
          simp only [updateFirst, hp, hq, if_true]
          exact .cons (hR a b (by simp [hp]) (by simp [hq]) hab) h
      | false =>
          have hq : q b = false := hsame ▸ hp
          simp only [updateFirst, hp, hq, if_false, Bool.false_eq_true]
          refine .cons hab (ih fun a' b' ha hb hab' => hR a' b' ?_ ?_ hab')
          · simp [hp, ha]
          · simp [hq, hb]

/-! ### Under a filter -/

/-- A change of an entry that is left out and stays so is not seen. -/
theorem filter_updateFirst_hidden {as : List α} (hf : ∀ a, live a = false → live (f a) = false)
    (h : ∀ a, as.find? p = some a → live a = false) :
    (updateFirst p f as).filter live = as.filter live := by
  induction as with
  | nil => rfl
  | cons a as ih =>
      cases hp : p a with
      | true =>
          have ha : live a = false := h a (by simp [hp])
          simp [updateFirst, hp, ha, hf a ha]
      | false =>
          have hrest := ih fun b hb => h b (by simp [hp, hb])
          simp [updateFirst, hp, List.filter_cons, hrest]

/-- A change of the first entry that is seen, if no match before it is left out. -/
theorem filter_updateFirst_seen {as : List α} (hf : ∀ a, live (f a) = live a)
    (h : ∀ a, as.find? p = some a → live a = true) :
    (updateFirst p f as).filter live = updateFirst p f (as.filter live) := by
  induction as with
  | nil => rfl
  | cons a as ih =>
      cases hp : p a with
      | true =>
          have ha : live a = true := h a (by simp [hp])
          simp [updateFirst, hp, ha, hf]
      | false =>
          have hrest := ih fun b hb => h b (by simp [hp, hb])
          cases ha : live a <;> simp [updateFirst, hp, ha, hrest]

/-- The first entry that is seen goes out of sight. -/
theorem filter_updateFirst_erased {as : List α} (hf : ∀ a, live (f a) = false)
    (h : ∀ a, as.find? p = some a → live a = true) :
    (updateFirst p f as).filter live = (as.filter live).eraseP p := by
  induction as with
  | nil => rfl
  | cons a as ih =>
      cases hp : p a with
      | true =>
          have ha : live a = true := h a (by simp [hp])
          simp [updateFirst, hp, ha, hf]
      | false =>
          have hrest := ih fun b hb => h b (by simp [hp, hb])
          cases ha : live a <;> simp [updateFirst, hp, ha, hrest]

end UpdateFirst

/-! ### What is live -/

/-- The indexes that are not deleted. -/
def liveIndexes (indexes : List IndexMeta) : List IndexMeta := indexes.filter fun i => !i.deleted

namespace StoreMeta

def delete (s : StoreMeta) : StoreMeta := { s with deleted := true }

theorem id_delete (s : StoreMeta) : s.delete.id = s.id := rfl

def rename (name : Utf16String) (s : StoreMeta) : StoreMeta := { s with name := name }

def editIndexes (f : List IndexMeta → List IndexMeta) (s : StoreMeta) : StoreMeta :=
  { s with indexes := f s.indexes }

/-- A store with its live indexes; the value of its generator is left out. -/
def live (s : StoreMeta) : StoreMeta :=
  { s with keyGen := keyGenStart, indexes := liveIndexes s.indexes }

end StoreMeta

def liveStores (stores : List StoreMeta) : List StoreMeta :=
  (stores.filter fun s => !s.deleted).map StoreMeta.live

/-- A change of the first store with the id. -/
def updateStore (id : StoreId) (f : StoreMeta → StoreMeta) : List StoreMeta → List StoreMeta :=
  updateFirst (fun s => s.id = id) f

def findStoreById (id : StoreId) (stores : List StoreMeta) : Option StoreMeta :=
  stores.find? fun s => s.id = id

/-- The deletion of some stores. -/
def deleteStores (gone : List StoreId) (stores : List StoreMeta) : List StoreMeta :=
  gone.foldl (fun stores id => updateStore id StoreMeta.delete stores) stores

section DeleteStores

variable {gone : List StoreId} {id : StoreId} {f : StoreMeta → StoreMeta} {stores : List StoreMeta}

theorem mem_ids_updateStore (hf : ∀ s, (f s).id = s.id) (id' : StoreId) :
    (∃ s ∈ updateStore id f stores, s.id = id') ↔ ∃ s ∈ stores, s.id = id' := by
  have hids : (updateStore id f stores).map StoreMeta.id = stores.map StoreMeta.id :=
    map_updateFirst stores hf
  simpa using congrArg (id' ∈ ·) hids

/-- A change that leaves the ids and the flags may come before the deletions. -/
theorem deleteStores_updateStore (gone : List StoreId) (stores : List StoreMeta)
    (hid : ∀ s, (f s).id = s.id) (hdelete : ∀ s, (f s).delete = f s.delete) :
    deleteStores gone (updateStore id f stores) = updateStore id f (deleteStores gone stores) := by
  induction gone generalizing stores with
  | nil => rfl
  | cons gone rest ih =>
      have hcomm : updateStore gone StoreMeta.delete (updateStore id f stores) =
          updateStore id f (updateStore gone StoreMeta.delete stores) := by
        apply updateFirst_comm
        · intro s
          rw [hid]
        · intro s
          rfl
        · exact hdelete
      rw [deleteStores, List.foldl_cons, hcomm]
      exact ih _

theorem deleteStores_append (s : StoreMeta) (h : ∀ id ∈ gone, ∃ t ∈ stores, t.id = id) :
    deleteStores gone (stores ++ [s]) = deleteStores gone stores ++ [s] := by
  induction gone generalizing stores with
  | nil => rfl
  | cons id rest ih =>
      have hfirst : updateStore id StoreMeta.delete (stores ++ [s]) =
          updateStore id StoreMeta.delete stores ++ [s] :=
        updateFirst_append [s] (by simpa using h id (by simp))
      rw [deleteStores, List.foldl_cons, hfirst]
      exact ih fun id' hid' =>
        (mem_ids_updateStore StoreMeta.id_delete id').mpr (h id' (.tail _ hid'))

theorem deleteStores_concat (gone : List StoreId) (id : StoreId) (stores : List StoreMeta) :
    deleteStores (gone ++ [id]) stores =
      updateStore id StoreMeta.delete (deleteStores gone stores) :=
  List.foldl_concat _ _ _ _

/-- Where no two stores have the same id, those that are gone are marked. -/
theorem deleteStores_eq_map (gone : List StoreId) {stores : List StoreMeta}
    (h : stores.Pairwise fun s s' => s.id ≠ s'.id) :
    deleteStores gone stores = stores.map fun s => if s.id ∈ gone then s.delete else s := by
  induction gone generalizing stores with
  | nil => simp [deleteStores]
  | cons id rest ih =>
      have hone : stores.Pairwise fun s s' =>
          ¬ (decide (s.id = id) = true ∧ decide (s'.id = id) = true) := by
        refine h.imp fun hne => ?_
        rintro ⟨hs, hs'⟩
        exact hne ((of_decide_eq_true hs).trans (of_decide_eq_true hs').symm)
      have hid (s : StoreMeta) : (if s.id = id then s.delete else s).id = s.id := by
        split <;> rfl
      have hdistinct : (stores.map fun s => if s.id = id then s.delete else s).Pairwise
          fun s s' => s.id ≠ s'.id := by
        rw [List.pairwise_map]
        refine h.imp fun hne => ?_
        rwa [hid, hid]
      have hfirst : updateStore id StoreMeta.delete stores =
          stores.map fun s => if s.id = id then s.delete else s := by
        rw [updateStore, updateFirst_eq_map hone]
        simp only [decide_eq_true_eq]
      show deleteStores rest (updateStore id StoreMeta.delete stores) = _
      rw [hfirst, ih hdistinct, List.map_map]
      apply List.map_congr_left
      intro s _
      by_cases hs : s.id = id <;> simp [hs, StoreMeta.delete]

theorem mem_ids_deleteStores (id : StoreId) :
    (∃ s ∈ deleteStores gone stores, s.id = id) ↔ ∃ s ∈ stores, s.id = id := by
  induction gone generalizing stores with
  | nil => exact Iff.rfl
  | cons gone rest ih => exact ih.trans (mem_ids_updateStore StoreMeta.id_delete id)

/-- The deletions leave the indexes of a store. -/
theorem indexes_findStoreById_deleteStores (gone : List StoreId) (id : StoreId)
    (stores : List StoreMeta) :
    (findStoreById id (deleteStores gone stores)).map StoreMeta.indexes =
      (findStoreById id stores).map StoreMeta.indexes := by
  induction gone generalizing stores with
  | nil => rfl
  | cons gone rest ih =>
      exact (ih _).trans (map_find?_updateFirst stores (fun _ => rfl) fun _ => rfl)

end DeleteStores

/-- A store that is marked is no more seen than one that is not there. -/
theorem liveStores_map_delete (p : StoreMeta → Prop) [DecidablePred p] (stores : List StoreMeta) :
    liveStores (stores.map fun s => if p s then s.delete else s) =
      liveStores (stores.filter fun s => ¬ p s) := by
  unfold liveStores
  induction stores with
  | nil => rfl
  | cons s stores ih =>
      by_cases hs : p s
      · simpa [hs, StoreMeta.delete] using ih
      · cases hdeleted : s.deleted <;> simpa [hs, hdeleted] using ih

/-! ### Indexes

The change of an index is the same in two lists with the same live indexes, unless it meets a
deleted index in one of them and a live one in the other. -/

def updateIndex (id : IndexId) (f : IndexMeta → IndexMeta) : List IndexMeta → List IndexMeta :=
  updateFirst (fun i => i.id = id) f

namespace IndexMeta

def delete (i : IndexMeta) : IndexMeta := { i with deleted := true }

def rename (name : Utf16String) (i : IndexMeta) : IndexMeta := { i with name := name }

end IndexMeta

/-- The flag of the first index with an id, if there is one. -/
def indexState (id : IndexId) (indexes : List IndexMeta) : Option Bool :=
  (indexes.find? fun i => i.id = id).map IndexMeta.deleted

section Indexes

variable {id : IndexId} {mine theirs : List IndexMeta}

theorem find?_live {indexes : List IndexMeta} (h : indexState id indexes = some false)
    {i : IndexMeta}
    (hi : (indexes.find? fun i => i.id = id) = some i) : (!i.deleted) = true := by
  unfold indexState at h
  rw [hi] at h
  simpa using h

theorem find?_deleted {indexes : List IndexMeta} (h : indexState id indexes ≠ some false)
    {i : IndexMeta} (hi : (indexes.find? fun i => i.id = id) = some i) : (!i.deleted) = false := by
  unfold indexState at h
  rw [hi] at h
  simpa using h

theorem liveIndexes_rename (name : Utf16String) (h : liveIndexes mine = liveIndexes theirs)
    (hstate : indexState id mine = indexState id theirs) :
    liveIndexes (updateIndex id (IndexMeta.rename name) mine) =
      liveIndexes (updateIndex id (IndexMeta.rename name) theirs) := by
  have hflag (i : IndexMeta) : (!(i.rename name).deleted) = !i.deleted := rfl
  have hhidden (i : IndexMeta) (hi : (!i.deleted) = false) :
      (!(i.rename name).deleted) = false := hi
  unfold liveIndexes updateIndex at *
  by_cases hlive : indexState id mine = some false
  · rw [filter_updateFirst_seen hflag fun i => find?_live hlive,
      filter_updateFirst_seen hflag fun i => find?_live (hstate ▸ hlive), h]
  · rw [filter_updateFirst_hidden hhidden fun i => find?_deleted hlive,
      filter_updateFirst_hidden hhidden fun i => find?_deleted (hstate ▸ hlive), h]

theorem liveIndexes_delete (h : liveIndexes mine = liveIndexes theirs)
    (hstate : indexState id mine = indexState id theirs) :
    liveIndexes (updateIndex id IndexMeta.delete mine) =
      liveIndexes (updateIndex id IndexMeta.delete theirs) := by
  have hflag (i : IndexMeta) : (!i.delete.deleted) = false := rfl
  unfold liveIndexes updateIndex at *
  by_cases hlive : indexState id mine = some false
  · rw [filter_updateFirst_erased hflag fun i => find?_live hlive,
      filter_updateFirst_erased hflag fun i => find?_live (hstate ▸ hlive), h]
  · rw [filter_updateFirst_hidden (fun i _ => hflag i) fun i => find?_deleted hlive,
      filter_updateFirst_hidden (fun i _ => hflag i) fun i => find?_deleted (hstate ▸ hlive), h]

/-- An index that is marked is no more seen than one that is not there. -/
theorem liveIndexes_map_delete (p : IndexMeta → Prop) [DecidablePred p] (indexes : List IndexMeta) :
    liveIndexes (indexes.map fun i => if p i then i.delete else i) =
      liveIndexes (indexes.filter fun i => ¬ p i) := by
  unfold liveIndexes
  induction indexes with
  | nil => rfl
  | cons i indexes ih =>
      by_cases hi : p i
      · simpa [hi, IndexMeta.delete] using ih
      · cases hdeleted : i.deleted <;> simpa [hi, hdeleted] using ih

theorem liveIndexes_eq_self {indexes : List IndexMeta} (h : ∀ i ∈ indexes, i.deleted = false) :
    liveIndexes indexes = indexes :=
  List.filter_eq_self.mpr fun i hi => by rw [h i hi]; rfl

/-- A search that finds no deleted index first is one among the live indexes. -/
theorem indexState_liveIndexes {indexes : List IndexMeta} (h : indexState id indexes ≠ some true) :
    indexState id (liveIndexes indexes) = indexState id indexes := by
  induction indexes with
  | nil => rfl
  | cons i indexes ih =>
      unfold indexState liveIndexes at *
      by_cases hi : i.id = id
      · have hlive : i.deleted = false := by simpa [hi] using h
        simp [hi, hlive]
      · have hrest := ih (by simpa [hi] using h)
        cases hdeleted : i.deleted
        · simpa [hi, hdeleted] using hrest
        · simpa [hi, hdeleted] using hrest

theorem liveIndexes_append (indexes : List IndexMeta) (i : IndexMeta) :
    liveIndexes (indexes ++ [i]) = liveIndexes indexes ++ liveIndexes [i] :=
  List.filter_append _ _

end Indexes

/-! ### Two copies -/

/-- The same store in both copies; what a deleted one had is not compared. Where deleted indexes
stay in both, the lists of indexes are the same. -/
structure StoreMirror (marks : Bool) (m s : StoreMeta) : Prop where
  id : m.id = s.id
  deleted : m.deleted = s.deleted
  live : m.deleted = false → m.live = s.live
  indexes : marks = true → m.deleted = false → m.indexes = s.indexes

/-- The mirror has the stores of the other copy, with some of them deleted. -/
structure StoresMirror (marks : Bool) (gone : List StoreId) (mirror stores : List StoreMeta) :
    Prop where
  same : List.Forall₂ (StoreMirror marks) mirror (deleteStores gone stores)
  found : ∀ id ∈ gone, ∃ s ∈ stores, s.id = id

section StoreMirror

variable {marks : Bool} {m s : StoreMeta}

theorem StoreMirror.refl (s : StoreMeta) : StoreMirror marks s s :=
  ⟨rfl, rfl, fun _ => rfl, fun _ _ => rfl⟩

theorem StoreMirror.liveIndexes_eq (h : StoreMirror marks m s) (hlive : m.deleted = false) :
    liveIndexes m.indexes = liveIndexes s.indexes :=
  congrArg StoreMeta.indexes (h.live hlive)

/-- Changes of the indexes that agree on the live ones. -/
theorem StoreMirror.editIndexes {f g : List IndexMeta → List IndexMeta} (h : StoreMirror marks m s)
    (hlive : m.deleted = false → liveIndexes (f m.indexes) = liveIndexes (g s.indexes))
    (hall : marks = true → m.deleted = false → f m.indexes = g s.indexes) :
    StoreMirror marks (m.editIndexes f) (s.editIndexes g) := by
  refine ⟨h.id, h.deleted, fun hm => ?_, hall⟩
  calc (m.editIndexes f).live = { m.live with indexes := liveIndexes (f m.indexes) } := rfl
    _ = { s.live with indexes := liveIndexes (g s.indexes) } := by rw [h.live hm, hlive hm]

theorem StoreMirror.rename (h : StoreMirror marks m s) (name : Utf16String) :
    StoreMirror marks (m.rename name) (s.rename name) := by
  refine ⟨h.id, h.deleted, fun hm => ?_, h.indexes⟩
  show { m.live with name := name } = { s.live with name := name }
  rw [h.live hm]

theorem liveStores_of_forall₂ {mirror stores : List StoreMeta}
    (h : List.Forall₂ (StoreMirror marks) mirror stores) :
    liveStores mirror = liveStores stores := by
  induction h with
  | nil => rfl
  | @cons m s mirror stores hms h ih =>
      unfold liveStores at ih ⊢
      have hdeleted := hms.deleted
      cases hm : m.deleted with
      | true => simp [hm, ← hdeleted, ih]
      | false => simp [hm, ← hdeleted, ih, hms.live hm]

end StoreMirror

namespace StoresMirror

variable {marks : Bool} {gone : List StoreId} {mirror stores : List StoreMeta} {id : StoreId}

/-- The live stores of both copies are the same. -/
theorem live (h : StoresMirror marks gone mirror stores) :
    liveStores mirror = liveStores (deleteStores gone stores) := liveStores_of_forall₂ h.same

theorem ids (h : StoresMirror marks gone mirror stores) (id : StoreId) :
    (∃ m ∈ mirror, m.id = id) ↔ ∃ s ∈ stores, s.id = id := by
  have hids : mirror.map StoreMeta.id = (deleteStores gone stores).map StoreMeta.id := by
    rw [← List.forall₂_eq_eq_eq, List.forall₂_map_left_iff, List.forall₂_map_right_iff]
    exact h.same.imp fun _ _ hms => hms.id
  have hmem : (∃ m ∈ mirror, m.id = id) ↔ ∃ s ∈ deleteStores gone stores, s.id = id := by
    simpa using congrArg (id ∈ ·) hids
  exact hmem.trans (mem_ids_deleteStores id)

/-- A copy whose generators alone differ. -/
theorem start (h : List.Forall₂ (StoreMirror marks) mirror stores) :
    StoresMirror marks [] mirror stores :=
  ⟨h, fun _ h => absurd h List.not_mem_nil⟩

/-- A store that is new in both. -/
theorem create (h : StoresMirror marks gone mirror stores) (s : StoreMeta) :
    StoresMirror marks gone (mirror ++ [s]) (stores ++ [s]) := by
  refine ⟨?_, fun id hid => ?_⟩
  · rw [deleteStores_append s h.found]
    exact List.rel_append h.same (.cons (.refl s) .nil)
  · obtain ⟨t, ht, hid⟩ := h.found id hid
    exact ⟨t, List.mem_append_left _ ht, hid⟩

/-- A change of the store with an id in both. -/
theorem update {f g : StoreMeta → StoreMeta} (h : StoresMirror marks gone mirror stores)
    (hid : ∀ s, (g s).id = s.id) (hdelete : ∀ s, (g s).delete = g s.delete)
    (hfg : ∀ m s, findStoreById id mirror = some m →
      (∃ s' ∈ stores, s'.indexes = s.indexes) →
      StoreMirror marks m s → StoreMirror marks (f m) (g s)) :
    StoresMirror marks gone (updateStore id f mirror) (updateStore id g stores) := by
  refine ⟨?_, fun id' hid' => (mem_ids_updateStore hid id').mpr (h.found id' hid')⟩
  rw [deleteStores_updateStore gone stores hid hdelete]
  apply forall₂_updateFirst
  · intro m s hms
    rw [hms.id]
  · exact h.same
  · intro m s hm hs hms
    refine hfg m s hm ?_ hms
    have hindexes := indexes_findStoreById_deleteStores gone id stores
    rw [show findStoreById id _ = some s from hs] at hindexes
    obtain ⟨s', hs', hsame⟩ := Option.map_eq_some_iff.mp hindexes.symm
    exact ⟨s', List.mem_of_find?_eq_some hs', hsame⟩

/-- A store is deleted in the mirror; in the other copy it gives up its name, and is to go. -/
theorem delete (h : StoresMirror marks gone mirror stores) (name : Utf16String)
    (hfound : ∃ m ∈ mirror, m.id = id) :
    StoresMirror marks (gone ++ [id]) (updateStore id StoreMeta.delete mirror)
      (updateStore id (StoreMeta.rename name) stores) := by
  have hrename : ∀ s : StoreMeta, (s.rename name).id = s.id := fun _ => rfl
  refine ⟨?_, fun id' hid' => ?_⟩
  · rw [deleteStores_concat, deleteStores_updateStore gone stores hrename fun _ => rfl]
    have hsame : ∀ s : StoreMeta, decide ((s.rename name).id = id) = decide (s.id = id) :=
      fun _ => rfl
    unfold updateStore
    rw [updateFirst_updateFirst (deleteStores gone stores) hsame]
    apply forall₂_updateFirst
    · intro m s hms
      rw [hms.id]
    · exact h.same
    · intro m s _ _ hms
      exact ⟨hms.id, rfl, fun hm => Bool.noConfusion hm, fun _ hm => Bool.noConfusion hm⟩
  · rw [mem_ids_updateStore hrename]
    rcases List.mem_append.mp hid' with hid' | hid'
    · exact h.found id' hid'
    · rw [List.mem_singleton.mp hid']
      exact (h.ids id).mp hfound

end StoresMirror

end BoaIdb
