import BoaIdb.Backend.PendingView
import BoaIdb.Backend.Savepoints

/-!
What the undo logs of the pending changes restore.

Each change logs what undoes it, so what the rollbacks of the open levels restore stays the
same, and a level that is committed or rolled back leaves those of the outer levels.
-/

namespace BoaIdb.Pending

open OrdMap

variable {base : Rows} {p q : Pending}

/-- What is read through the pending changes. -/
def snapshot (base : Rows) (p : Pending) : Snapshot := ⟨p.view base, p.keyGenCurrent base⟩

/-- The same is read through both. -/
structure SameReads (base : Rows) (p q : Pending) : Prop where
  records : p.records = q.records
  indexEntries : p.indexEntries = q.indexEntries
  generator : p.keyGenCurrent base = q.keyGenCurrent base

theorem keyGenCurrent_congr (h : p.keyGenerators = q.keyGenerators) :
    p.keyGenCurrent base = q.keyGenCurrent base := by
  funext store
  simp only [keyGenCurrent, h]

theorem keyGenCurrent_insert (store : StoreId) (value : F64Bits) :
    { p with keyGenerators := p.keyGenerators.insert store value }.keyGenCurrent base =
      Function.update (p.keyGenCurrent base) store value := by
  funext other
  simp only [keyGenCurrent, OrderedMap.get?_insert, Function.update_apply]
  by_cases h : other = store
  · rw [if_pos h, if_pos h]
  · rw [if_neg h, if_neg h]

theorem sameReads_levels (p : Pending) (levels : List (List UndoOp)) :
    SameReads base p { p with undoStack := levels } :=
  ⟨rfl, rfl, rfl⟩

theorem SameReads.snapshot_eq (h : SameReads base p q) : p.snapshot base = q.snapshot base :=
  Snapshot.ext (view_congr h.records h.indexEntries) h.generator

theorem SameReads.undo (h : SameReads base p q) (op : UndoOp) :
    SameReads base (p.undo op) (q.undo op) := by
  obtain ⟨hrecords, hentries, hgenerator⟩ := h
  cases op with
  | restoreRecord key old =>
      cases old <;> simp only [Pending.undo] <;>
        exact ⟨by simp [hrecords], hentries, hgenerator⟩
  | restoreIndex key old =>
      cases old <;> simp only [Pending.undo] <;>
        exact ⟨hrecords, by simp [hentries], hgenerator⟩
  | restoreKeyGen store oldVal =>
      refine ⟨hrecords, hentries, ?_⟩
      simp only [Pending.undo, keyGenCurrent_insert, hgenerator]

theorem SameReads.foldl_undo (h : SameReads base p q) (ops : List UndoOp) :
    SameReads base (ops.foldl Pending.undo p) (ops.foldl Pending.undo q) := by
  induction ops generalizing p q with
  | nil => exact h
  | cons op ops ih => exact ih (h.undo op)

/-- What the rollbacks of the open levels restore, the innermost first. -/
def restored (base : Rows) : List (List UndoOp) → Pending → List Snapshot
  | [], _ => []
  | ops :: outer, p =>
      let before := ops.foldl undo p
      before.snapshot base :: restored base outer before

def saved (base : Rows) (p : Pending) : List Snapshot := restored base p.undoStack p

theorem restored_congr (h : SameReads base p q) (levels : List (List UndoOp)) :
    restored base levels p = restored base levels q := by
  induction levels generalizing p q with
  | nil => rfl
  | cons ops outer ih =>
      have hops := h.foldl_undo ops
      show _ :: _ = _ :: _
      rw [hops.snapshot_eq, ih hops]

theorem undoStack_undo (op : UndoOp) : (p.undo op).undoStack = p.undoStack := by
  cases op with
  | restoreRecord key old => cases old <;> rfl
  | restoreIndex key old => cases old <;> rfl
  | restoreKeyGen store oldVal => rfl

theorem undoStack_foldl_undo (ops : List UndoOp) :
    (ops.foldl undo p).undoStack = p.undoStack := by
  induction ops generalizing p with
  | nil => rfl
  | cons op ops ih => exact ih.trans (undoStack_undo op)

/-! ### Changes -/

/-- A change whose log entry undoes it. -/
theorem saved_logged {op : UndoOp} (hlog : q.undoStack = (p.log op).undoStack)
    (hundo : SameReads base (q.undo op) p) : q.saved base = p.saved base := by
  unfold saved
  cases hlevels : p.undoStack with
  | nil =>
      rw [hlog, log, hlevels]
      show restored base p.undoStack q = _
      rw [hlevels]
      rfl
  | cons ops outer =>
      rw [hlog, log, hlevels]
      -- the new entry comes first in the rollback
      exact restored_congr hundo (ops :: outer)

theorem saved_setRecord (key : RecordKey) (val : Option Bytes) :
    (p.setRecord key val).saved base = p.saved base := by
  have hother (k : RecordKey) (h : k ≠ key) :
      (p.setRecord key val).records.get? k = p.records.get? k := by
    rw [setRecord, OrderedMap.get?_insert_of_ne _ _ h, records_log]
  have hentries : (p.setRecord key val).indexEntries = p.indexEntries := indexEntries_log _
  have hgenerator : (p.setRecord key val).keyGenCurrent base = p.keyGenCurrent base :=
    keyGenCurrent_congr (keyGenerators_log _)
  refine saved_logged rfl ?_
  unfold pendingSlot
  cases hold : p.records.get? key with
  | none => exact ⟨OrderedMap.erase_restores hold hother, hentries, hgenerator⟩
  | some old => cases old <;> exact ⟨OrderedMap.insert_restores hold hother, hentries, hgenerator⟩

theorem saved_setIndexEntry (key : IndexKey) (existed : Bool) :
    (p.setIndexEntry key existed).saved base = p.saved base := by
  have hother (k : IndexKey) (h : k ≠ key) :
      (p.setIndexEntry key existed).indexEntries.get? k = p.indexEntries.get? k := by
    rw [setIndexEntry, OrderedMap.get?_insert_of_ne _ _ h, indexEntries_log]
  have hrecords : (p.setIndexEntry key existed).records = p.records := records_log _
  have hgenerator : (p.setIndexEntry key existed).keyGenCurrent base = p.keyGenCurrent base :=
    keyGenCurrent_congr (keyGenerators_log _)
  refine saved_logged rfl ?_
  cases hold : p.indexEntries.get? key with
  | none => exact ⟨hrecords, OrderedMap.erase_restores hold hother, hgenerator⟩
  | some old => exact ⟨hrecords, OrderedMap.insert_restores hold hother, hgenerator⟩

theorem generator_keyGenSet (store : StoreId) (value : F64Bits) :
    (p.keyGenSet base store value).keyGenCurrent base =
      Function.update (p.keyGenCurrent base) store value := by
  have hlog : (p.log (.restoreKeyGen store (p.keyGenCurrent base store))).keyGenCurrent base =
      p.keyGenCurrent base := keyGenCurrent_congr (keyGenerators_log _)
  rw [keyGenSet, keyGenCurrent_insert, hlog]

theorem saved_keyGenSet (store : StoreId) (value : F64Bits) :
    (p.keyGenSet base store value).saved base = p.saved base := by
  refine saved_logged rfl ⟨records_log _, indexEntries_log _, ?_⟩
  have hset : (p.keyGenSet base store value).keyGenCurrent base =
      Function.update (p.keyGenCurrent base) store value := generator_keyGenSet store value
  show { p.keyGenSet base store value with keyGenerators := _ }.keyGenCurrent base = _
  rw [keyGenCurrent_insert, hset, Function.update_idem, Function.update_eq_self]

theorem saved_dropPending (acc : Pending × ℕ) (key : RecordKey) :
    (dropPending acc key).1.saved base = acc.1.saved base := by
  unfold dropPending
  split
  · next val hold =>
      refine saved_logged rfl ⟨OrderedMap.insert_restores hold fun k h => ?_, indexEntries_log _,
        keyGenCurrent_congr (keyGenerators_log _)⟩
      rw [OrderedMap.get?_erase_of_ne _ h, records_log]
  · rfl

/-- What no step of a loop changes. -/
theorem foldl_kept {α β κ : Type} (proj : α → β) {step : α → κ → α}
    (h : ∀ a key, proj (step a key) = proj a) (keys : List κ) (a : α) :
    proj (keys.foldl step a) = proj a :=
  foldl_constant proj (fun b key _ => h b key) a

theorem saved_deleteRange (store : StoreId) (range : EncodedRange) :
    (p.deleteRange base store range).1.saved base = p.saved base := by
  unfold deleteRange
  rw [foldl_kept (fun acc : Pending × ℕ => acc.1.saved base) saved_dropPending,
    foldl_kept (fun acc : Pending × ℕ => acc.1.saved base) fun _ key => saved_setRecord key none]

theorem saved_clear (store : StoreId) : (p.clear base store).saved base = p.saved base :=
  foldl_kept (saved base) (fun _ key => saved_setRecord key none) _ p

theorem saved_indexDeleteByPrimary (index : IndexId) (pk : Bytes) :
    (p.indexDeleteByPrimary base index pk).saved base = p.saved base :=
  foldl_kept (saved base) (fun _ _ => saved_setIndexEntry _ false) _ p

theorem put_ok {quota : Pending → Except BackendError Unit} {key : RecordKey} {val : Bytes}
    {noOverwrite : Bool} (h : p.put base quota key val noOverwrite = .ok q) :
    q = p.setRecord key (some val) := by
  unfold put at h
  simp only at h
  split at h
  · cases h
  · split at h
    · cases h
    · exact (Except.ok.inj h).symm

theorem indexPut_ok {key : IndexKey} {unique : Bool} (h : p.indexPut base key unique = .ok q) :
    q = p.setIndexEntry key true := by
  unfold indexPut at h
  split at h
  · cases h
  · exact (Except.ok.inj h).symm

theorem saved_put {quota : Pending → Except BackendError Unit} {key : RecordKey} {val : Bytes}
    {noOverwrite : Bool} (h : p.put base quota key val noOverwrite = .ok q) :
    q.saved base = p.saved base := by
  rw [put_ok h]
  exact saved_setRecord key (some val)

theorem saved_indexPut {key : IndexKey} {unique : Bool} (h : p.indexPut base key unique = .ok q) :
    q.saved base = p.saved base := by
  rw [indexPut_ok h]
  exact saved_setIndexEntry key true

/-! ### Generators -/

theorem keyGenerators_setRecord (key : RecordKey) (val : Option Bytes) :
    (p.setRecord key val).keyGenerators = p.keyGenerators := keyGenerators_log _

theorem keyGenerators_setIndexEntry (key : IndexKey) (existed : Bool) :
    (p.setIndexEntry key existed).keyGenerators = p.keyGenerators := keyGenerators_log _

theorem keyGenerators_dropPending (acc : Pending × ℕ) (key : RecordKey) :
    (dropPending acc key).1.keyGenerators = acc.1.keyGenerators := by
  unfold dropPending
  split
  · exact keyGenerators_log _
  · rfl

theorem keyGenerators_deleteRange (store : StoreId) (range : EncodedRange) :
    (p.deleteRange base store range).1.keyGenerators = p.keyGenerators := by
  unfold deleteRange
  rw [foldl_kept (fun acc : Pending × ℕ => acc.1.keyGenerators) keyGenerators_dropPending,
    foldl_kept (fun acc : Pending × ℕ => acc.1.keyGenerators) fun _ key =>
      keyGenerators_setRecord key none]

theorem keyGenerators_clear (store : StoreId) :
    (p.clear base store).keyGenerators = p.keyGenerators :=
  foldl_kept keyGenerators (fun _ key => keyGenerators_setRecord key none) _ p

theorem keyGenerators_indexDeleteByPrimary (index : IndexId) (pk : Bytes) :
    (p.indexDeleteByPrimary base index pk).keyGenerators = p.keyGenerators :=
  foldl_kept keyGenerators (fun _ _ => keyGenerators_setIndexEntry _ false) _ p

theorem keyGenerators_put {quota : Pending → Except BackendError Unit} {key : RecordKey}
    {val : Bytes} {noOverwrite : Bool} (h : p.put base quota key val noOverwrite = .ok q) :
    q.keyGenerators = p.keyGenerators := by
  rw [put_ok h]
  exact keyGenerators_setRecord key (some val)

theorem keyGenerators_indexPut {key : IndexKey} {unique : Bool}
    (h : p.indexPut base key unique = .ok q) : q.keyGenerators = p.keyGenerators := by
  rw [indexPut_ok h]
  exact keyGenerators_setIndexEntry key true

/-! ### Levels -/

theorem saved_beginRequest : p.beginRequest.saved base = p.snapshot base :: p.saved base := by
  show _ :: _ = _ :: _
  exact congrArg₂ List.cons rfl (restored_congr (sameReads_levels p _) p.undoStack).symm

/-- Only without a level there is nothing to commit. -/
theorem commitRequest_error {e : BackendError} (h : p.commitRequest = .error e) :
    p.saved base = [] := by
  unfold commitRequest at h
  unfold saved
  split at h
  · next hlevels =>
      rw [hlevels]
      rfl
  · cases h
  · cases h

theorem saved_commitRequest (h : p.commitRequest = .ok q) :
    q.snapshot base = p.snapshot base ∧ ∃ w, p.saved base = w :: q.saved base := by
  unfold commitRequest at h
  unfold saved
  split at h
  · cases h
  · next hlevels =>
      cases h
      rw [hlevels]
      exact ⟨rfl, _, rfl⟩
  · next ops parent outer hlevels =>
      cases h
      rw [hlevels]
      refine ⟨rfl, _, congrArg₂ List.cons rfl ?_⟩
      -- the log of the inner level is undone before that of the outer one
      have hinner :=
        (sameReads_levels p ((ops ++ parent) :: outer) : SameReads base _ _).foldl_undo ops
      show _ = _ :: _
      rw [List.foldl_append]
      exact restored_congr hinner (parent :: outer)

theorem rollbackRequest_error {e : BackendError} (h : p.rollbackRequest = .error e) :
    p.saved base = [] := by
  unfold rollbackRequest at h
  unfold saved
  split at h
  · next hlevels =>
      rw [hlevels]
      rfl
  · cases h

theorem saved_rollbackRequest (h : p.rollbackRequest = .ok q) :
    p.saved base = q.snapshot base :: q.saved base := by
  unfold rollbackRequest at h
  unfold saved
  split at h
  · cases h
  · next ops outer hlevels =>
      cases h
      have hsame := (sameReads_levels p outer : SameReads base _ _).foldl_undo ops
      rw [undoStack_foldl_undo, hlevels]
      show _ :: _ = _ :: _
      rw [hsame.snapshot_eq, restored_congr hsame]

/-- A transaction that has logged nothing. -/
def Untouched (p : Pending) : Prop :=
  p.records = .empty ∧ p.indexEntries = .empty ∧ p.keyGenerators = .empty ∧
    ∀ ops ∈ p.undoStack, ops = []

theorem untouched_empty : Pending.empty.Untouched := ⟨rfl, rfl, rfl, fun _ h => by cases h⟩

theorem Untouched.beginRequest (h : p.Untouched) : p.beginRequest.Untouched :=
  ⟨h.1, h.2.1, h.2.2.1, fun _ hops => (List.mem_cons.mp hops).elim id (h.2.2.2 _)⟩

theorem Untouched.commitRequest (h : p.Untouched) (hcommit : p.commitRequest = .ok q) :
    q.Untouched := by
  obtain ⟨hrecords, hentries, hgenerators, hlogs⟩ := h
  unfold Pending.commitRequest at hcommit
  split at hcommit
  · cases hcommit
  · cases hcommit
    exact ⟨hrecords, hentries, hgenerators, fun _ h => by cases h⟩
  · next ops parent outer hlevels =>
      cases hcommit
      rw [hlevels] at hlogs
      refine ⟨hrecords, hentries, hgenerators, fun log hlog => ?_⟩
      rcases List.mem_cons.mp hlog with rfl | hlog
      · rw [hlogs ops (.head _), hlogs parent (.tail _ (.head _))]
        rfl
      · exact hlogs log (.tail _ (.tail _ hlog))

theorem Untouched.rollbackRequest (h : p.Untouched) (hrollback : p.rollbackRequest = .ok q) :
    q.Untouched := by
  obtain ⟨hrecords, hentries, hgenerators, hlogs⟩ := h
  unfold Pending.rollbackRequest at hrollback
  split at hrollback
  · cases hrollback
  · next ops outer hlevels =>
      cases hrollback
      rw [hlevels] at hlogs
      rw [hlogs ops (.head _)]
      exact ⟨hrecords, hentries, hgenerators, fun log hlog => hlogs log (.tail _ hlog)⟩

theorem Untouched.snapshot_eq (h : p.Untouched) :
    p.snapshot base = Pending.empty.snapshot base := by
  have hgenerators : p.keyGenerators = Pending.empty.keyGenerators := h.2.2.1
  exact Snapshot.ext (view_congr h.1 h.2.1) (keyGenCurrent_congr hgenerators)

/-! ### Commit -/

/-- The committed rows alone. -/
theorem view_empty_applyTo : Pending.empty.view (p.applyTo base) = p.view base := by
  refine View.ext (funext fun k => ?_) (funext fun k => propext ?_)
  · simp only [view, readRecord, applyTo, empty, OrderedMap.get?_empty, OrderedMap.get?_merge]
    cases p.records.get? k with
    | none => rfl
    | some slot => rfl
  · rw [show (Pending.empty.view (p.applyTo base)).entries k =
      ((p.applyTo base).indexEntries.contains k = true) from rfl, OrderedMap.contains_iff,
      OrderedMap.mem_keys_iff]
    simp only [view, indexEntryExists, applyTo, OrderedMap.get?_merge]
    cases p.indexEntries.get? k with
    | none =>
        show _ ↔ base.indexEntries.contains k = true
        rw [OrderedMap.contains_iff, OrderedMap.mem_keys_iff]
    | some existed => cases existed <;> simp [Cursor.indexSlot]

theorem generator_empty_applyTo :
    Pending.empty.keyGenCurrent (p.applyTo base) = p.keyGenCurrent base := by
  funext store
  simp only [keyGenCurrent, Rows.generator, applyTo, empty, OrderedMap.get?_empty,
    OrderedMap.get?_merge]
  cases p.keyGenerators.get? store <;> rfl

theorem snapshot_empty_applyTo : Pending.empty.snapshot (p.applyTo base) = p.snapshot base :=
  Snapshot.ext view_empty_applyTo generator_empty_applyTo

end BoaIdb.Pending
