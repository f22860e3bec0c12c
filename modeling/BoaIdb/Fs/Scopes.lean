import BoaIdb.Fs.Effects

/-!
Transactions with disjoint scopes write different rows and generators, so each of
them is there in full behind all the others.
-/

namespace BoaIdb.Fs

open OrdMap

/-- The store that an index belongs to. -/
def indexStore (m : DatabaseMeta) (index : IndexId) : Option StoreId :=
  (m.stores.find? fun s => s.indexes.any fun i => i.id = index).map StoreMeta.id

namespace FsTxn

/-- Only the stores of the scope are written to, and their indexes. -/
structure InScope (t : FsTxn) : Prop where
  /-- `check_scope` in `put`, `delete` and `clear`. -/
  records : ∀ key, t.pendingRecords.get? key ≠ none → key.store ∈ t.scope
  indexEntries : ∀ key, t.pendingIndexEntries.get? key ≠ none →
    ∃ store ∈ t.scope, indexStore (schemaOf t.begun) key.index = some store
  generators : ∀ store, t.pendingKeyGenerators.get? store ≠ none → store ∈ t.scope

/-- Nothing is written by both transactions. -/
structure Apart (t u : FsTxn) : Prop where
  records : ∀ key, t.pendingRecords.get? key ≠ none → u.pendingRecords.get? key = none
  indexEntries : ∀ key, t.pendingIndexEntries.get? key ≠ none →
    u.pendingIndexEntries.get? key = none
  generators : ∀ store, t.pendingKeyGenerators.get? store ≠ none →
    u.pendingKeyGenerators.get? store = none

/-- Everything that the transaction wrote is what a database shows. -/
structure WrittenIn (t : FsTxn) (v : View) : Prop where
  records : ∀ key slot, t.pendingRecords.get? key = some slot → v.records.get? key = slot
  indexEntries : ∀ key present, t.pendingIndexEntries.get? key = some present →
    v.indexEntries.get? key = presentSlot present
  generators : ∀ store value, t.pendingKeyGenerators.get? store = some value →
    v.generator store = value

/-- Disjoint scopes over one schema. -/
theorem InScope.apart {t u : FsTxn} (ht : t.InScope) (hu : u.InScope)
    (hschema : schemaOf t.begun = schemaOf u.begun) (hdisjoint : t.scope.Disjoint u.scope) :
    t.Apart u where
  records key h := by
    by_contra hk
    exact hdisjoint (ht.records key h) (hu.records key hk)
  indexEntries key h := by
    by_contra hk
    obtain ⟨store, hstore, hindex⟩ := ht.indexEntries key h
    obtain ⟨store', hstore', hindex'⟩ := hu.indexEntries key hk
    rw [hschema, hindex'] at hindex
    obtain rfl := Option.some.inj hindex
    exact hdisjoint hstore hstore'
  generators store h := by
    by_contra hs
    exact hdisjoint (ht.generators store h) (hu.generators store hs)

theorem writtenIn_effect (t : FsTxn) (v : View) : t.WrittenIn (t.effect v) where
  records key slot h := by simp only [effect, OrderedMap.get?_merge, h, id]
  indexEntries key present h := by simp only [effect, OrderedMap.get?_merge, h]
  generators store value h := by simp only [effect, h, Option.getD_some]

/-- What one transaction wrote survives another that writes nothing of it. -/
theorem WrittenIn.effect {t u : FsTxn} {v : View} (h : t.WrittenIn v) (ha : t.Apart u) :
    t.WrittenIn (u.effect v) where
  records key slot hk := by
    have hnone := ha.records key (by simp [hk])
    simp only [FsTxn.effect, OrderedMap.get?_merge, hnone]
    exact h.records key slot hk
  indexEntries key present hk := by
    have hnone := ha.indexEntries key (by simp [hk])
    simp only [FsTxn.effect, OrderedMap.get?_merge, hnone]
    exact h.indexEntries key present hk
  generators store value hs := by
    have hnone := ha.generators store (by simp [hs])
    simp only [FsTxn.effect, hnone, Option.getD_none]
    exact h.generators store value hs

/-- One behind the other, each transaction is there in full. -/
theorem writtenIn_foldl {ts : List FsTxn} (h : ts.Pairwise Apart) (v : View) :
    ∀ t ∈ ts, t.WrittenIn (ts.foldl (fun v t => t.effect v) v) := by
  have hkept {t : FsTxn} (us : List FsTxn) (hus : ∀ u ∈ us, t.Apart u) {w : View}
      (hw : t.WrittenIn w) : t.WrittenIn (us.foldl (fun v t => t.effect v) w) := by
    induction us generalizing w with
    | nil => exact hw
    | cons u us ih =>
        exact ih (fun u' hu' => hus u' (.tail _ hu')) (hw.effect (hus u (by simp)))
  induction ts generalizing v with
  | nil => exact fun t ht => absurd ht List.not_mem_nil
  | cons t ts ih =>
      obtain ⟨hhead, htail⟩ := List.pairwise_cons.mp h
      intro t' ht'
      rcases List.mem_cons.mp ht' with rfl | ht'
      · exact hkept ts hhead (t'.writtenIn_effect v)
      · exact ih htail _ t' ht'

/-- The operations of several transactions are their effects, one behind the other. -/
theorem foldl_flatMap_ops {ts : List FsTxn} (h : ∀ t ∈ ts, t.PayloadMeta) (v : View) :
    (ts.flatMap ops).foldl View.apply v = ts.foldl (fun v t => t.effect v) v := by
  induction ts generalizing v with
  | nil => rfl
  | cons t ts ih =>
      rw [List.flatMap_cons, List.foldl_append, foldl_ops (h t (by simp)),
        ih fun t' ht' => h t' (.tail _ ht')]
      rfl

end FsTxn

end BoaIdb.Fs
