import BoaIdb.Backend.PendingSavepoints

/-!
Backends that keep the changes of a transaction as pending changes over the committed rows.

It is enough to say what each operation does to the pending changes: the view, the generators
and the savepoints follow for every such backend.
-/

namespace BoaIdb

open Faults OrdMap

/-- The rows of a full walk of a cursor, which always ends. -/
def Cursor.visitRows {σ : Type} (c : Cursor) :
    Prog σ BackendError (List (Bytes × Bytes × Option Bytes)) :=
  match c.visit.run with
  | some (.ok rows) => pure rows
  | some (.error e) => Prog.throw e
  | none => fun s => (.stopped, s)

theorem Cursor.visitRows_eq {σ : Type} {c : Cursor} {rows : List (Bytes × Bytes × Option Bytes)}
    (h : c.visit = pure rows) : (c.visitRows : Prog σ BackendError _) = pure rows := by
  rw [visitRows, h]
  rfl

/-- A walk only reads. -/
theorem Cursor.visitRows_state {σ : Type} (c : Cursor) (s : σ) : (c.visitRows s).2 = s := by
  rw [visitRows]
  rcases c.visit.run with _ | _ | _ <;> rfl

/-- The walk of the cursor that a program opens. -/
theorem meets_visitRows {σ : Type} {s : σ} {opened : Prog σ BackendError Cursor}
    {maps : CursorMaps} {src : SourceRef} {range : EncodedRange} {dir : Direction} {keyOnly : Bool}
    {halt : Option BackendError → σ → Prop}
    (h : Meets (· = s) opened (fun c s' => s' = s ∧ c = Cursor.scan maps src range dir keyOnly)
      halt) :
    Meets (· = s) (opened >>= Cursor.visitRows)
      (fun rows s' => s' = s ∧ (Cursor.scan maps src range dir keyOnly).visit = pure rows)
        halt := by
  refine h.bind fun c => ?_
  rintro s' ⟨rfl, rfl⟩
  obtain ⟨rows, hvisit⟩ := Cursor.visit_total maps src range dir keyOnly
  rw [Cursor.visitRows_eq hvisit]
  exact ⟨rfl, hvisit⟩

/-- The committed rows, the mode, and the pending changes. -/
structure Overlay where
  rows : Rows
  mode : TxnMode
  pending : Pending

/-- A write that is not refused changes the pending changes alone. -/
def Writes {σ α : Type} (overlay : σ → Overlay) (s : σ) (op : Prog σ BackendError α)
    (change : Pending → Prop) : Prop :=
  Meets (· = s) op
    (fun _ s' => (overlay s).mode ≠ .readOnly ∧
      ∃ p, change p ∧ overlay s' = { overlay s with pending := p })
    (fun e s' => e.isSome ∧ s' = s)

/-- A backend whose transactions work on pending changes. -/
class PendingTxn (σ : Type) [BackendTxn σ] where
  overlay : σ → Overlay
  beginRequest (s : σ) :
    Meets (· = s) BackendTxn.beginRequest
      (fun _ s' => overlay s' = { overlay s with pending := (overlay s).pending.beginRequest })
      (fun _ _ => False)
  commitRequest (s : σ) :
    Meets (· = s) BackendTxn.commitRequest
      (fun _ s' => ∃ p, (overlay s).pending.commitRequest = .ok p ∧
        overlay s' = { overlay s with pending := p })
      (fun e s' => s' = s ∧ ∃ err, e = some err ∧ (overlay s).pending.commitRequest = .error err)
  rollbackRequest (s : σ) :
    Meets (· = s) BackendTxn.rollbackRequest
      (fun _ s' => ∃ p, (overlay s).pending.rollbackRequest = .ok p ∧
        overlay s' = { overlay s with pending := p })
      (fun e s' => s' = s ∧ ∃ err, e = some err ∧ (overlay s).pending.rollbackRequest = .error err)
  get (s : σ) (store : StoreId) (key : Bytes) :
    Meets (· = s) (BackendTxn.get store key)
      (fun r s' => s' = s ∧ r = (overlay s).pending.readRecord (overlay s).rows ⟨store, key⟩)
      (fun e s' => e.isSome ∧ s' = s)
  put (s : σ) (store : StoreId) (key val : Bytes) (noOverwrite : Bool) :
    Writes overlay s (BackendTxn.put store key val noOverwrite) fun p =>
      ∃ quota, (overlay s).pending.put (overlay s).rows quota ⟨store, key⟩ val noOverwrite = .ok p
  deleteRecord (s : σ) (store : StoreId) (key : Bytes) :
    Writes overlay s (BackendTxn.deleteRecord store key) fun p =>
      p = ((overlay s).pending.deleteRecord (overlay s).rows ⟨store, key⟩).1
  deleteRange (s : σ) (store : StoreId) (range : EncodedRange) :
    Writes overlay s (BackendTxn.deleteRange store range) fun p =>
      p = ((overlay s).pending.deleteRange (overlay s).rows store range).1
  clear (s : σ) (store : StoreId) :
    Writes overlay s (BackendTxn.clear store) fun p =>
      p = (overlay s).pending.clear (overlay s).rows store
  count (s : σ) (src : SourceRef) (range : EncodedRange) :
    Meets (· = s) (BackendTxn.count src range)
      (fun r s' => s' = s ∧ r = (overlay s).pending.count (overlay s).rows src range)
      (fun e s' => e.isSome ∧ s' = s)
  /-- In an upgrade every store is in scope. -/
  scanRows (s : σ) (src : SourceRef) (range : EncodedRange) (dir : Direction) (keyOnly : Bool) :
    Meets (· = s) (BackendTxn.scanRows src range dir keyOnly)
      (fun rows s' => s' = s ∧
        (Cursor.scan ((overlay s).pending.cursorMaps (overlay s).rows) src range dir
          keyOnly).visit = pure rows)
      (fun e s' => (e.isSome ∧ s' = s) ∧ (overlay s).mode ≠ .versionChange)
  keyGenCurrent (s : σ) (store : StoreId) :
    Meets (· = s) (BackendTxn.keyGenCurrent store)
      (fun r s' => s' = s ∧ r = (overlay s).pending.keyGenCurrent (overlay s).rows store)
      (fun _ _ => False)
  keyGenSet (s : σ) (store : StoreId) (value : F64Bits) :
    Writes overlay s (BackendTxn.keyGenSet store value) fun p =>
      p = (overlay s).pending.keyGenSet (overlay s).rows store value
  indexPut (s : σ) (index : IndexId) (idxKey primaryKey : Bytes) (unique : Bool) :
    Writes overlay s (BackendTxn.indexPut index idxKey primaryKey unique) fun p =>
      (overlay s).pending.indexPut (overlay s).rows ⟨index, idxKey, primaryKey⟩ unique = .ok p
  /-- A transaction that writes refuses an entry for its key alone. -/
  indexPut_refused (s : σ) (index : IndexId) (idxKey primaryKey : Bytes) (unique : Bool) :
    Meets (· = s) (BackendTxn.indexPut index idxKey primaryKey unique) (fun _ _ => True)
      (fun e _ => (overlay s).mode = .readOnly ∨ ∃ err, e = some err ∧
        (overlay s).pending.indexPut (overlay s).rows ⟨index, idxKey, primaryKey⟩ unique =
          .error err)
  indexDelete (s : σ) (index : IndexId) (idxKey primaryKey : Bytes) :
    Writes overlay s (BackendTxn.indexDelete index idxKey primaryKey) fun p =>
      p = (overlay s).pending.indexDelete ⟨index, idxKey, primaryKey⟩
  indexDeleteByPrimary (s : σ) (index : IndexId) (primaryKey : Bytes) :
    Writes overlay s (BackendTxn.indexDeleteByPrimary index primaryKey) fun p =>
      p = (overlay s).pending.indexDeleteByPrimary (overlay s).rows index primaryKey

namespace PendingTxn

variable {σ α : Type} [BackendTxn σ] [PendingTxn σ] {s : σ} {op : Prog σ BackendError α}
  {change : Pending → Prop}

def view (s : σ) : View := (overlay s).pending.view (overlay s).rows

def generator (s : σ) : StoreId → F64Bits := (overlay s).pending.keyGenCurrent (overlay s).rows

def saved (s : σ) : List Snapshot := (overlay s).pending.saved (overlay s).rows

def base (s : σ) : Snapshot := Pending.empty.snapshot (overlay s).rows

/-- A transaction that only reads has changed nothing and logged nothing. -/
def Valid (s : σ) : Prop := (overlay s).mode = .readOnly → (overlay s).pending.Untouched

/-- What a write does to anything that is read off the pending changes. -/
theorem meets_write (h : Writes overlay s op change) {post : σ → Prop}
    (hpost : ∀ s' p, change p → overlay s' = { overlay s with pending := p } → post s') :
    Meets (· = s) op (fun _ s' => post s') (fun e s' => e.isSome ∧ s' = s) :=
  Meets.mono h (fun _ h => h) (fun _ s' ⟨_, p, hp, hs'⟩ => hpost s' p hp hs') fun _ _ h => h

theorem keeps_write {inv : σ → Prop} {change : σ → Pending → Prop}
    (h : ∀ s, Writes overlay s op (change s))
    (hinv : ∀ s s' p, inv s → (overlay s).mode ≠ .readOnly → change s p →
      overlay s' = { overlay s with pending := p } → inv s') : Keeps inv op := by
  refine meets_of_forall fun s hs => Meets.mono (h s) (fun _ h => h) ?_ ?_
  · rintro _ s' ⟨hmode, p, hp, hs'⟩
    exact hinv s s' p hs hmode hp hs'
  · rintro _ _ ⟨hsome, rfl⟩
    exact ⟨hsome, hs⟩

omit [BackendTxn σ] [PendingTxn σ] in
theorem keeps_ask {inv : σ → Prop} {post : σ → α → Prop}
    (h : ∀ s, Meets (· = s) op (fun r s' => s' = s ∧ post s r) (fun e s' => e.isSome ∧ s' = s)) :
    Keeps inv op := by
  refine meets_of_forall fun s hs => (h s).mono (fun _ h => h) ?_ ?_
  · rintro _ _ ⟨rfl, -⟩
    exact hs
  · rintro _ _ ⟨hsome, rfl⟩
    exact ⟨hsome, hs⟩

theorem keeps_scanRows {inv : σ → Prop} (src : SourceRef) (range : EncodedRange) (dir : Direction)
    (keyOnly : Bool) : Keeps inv (BackendTxn.scanRows src range dir keyOnly : Prog σ _ _) :=
  keeps_ask fun s => (scanRows s src range dir keyOnly).mono (fun _ h => h) (fun _ _ h => h)
    fun _ _ h => h.1

theorem keeps_keyGenCurrent {inv : σ → Prop} (store : StoreId) :
    Keeps inv (BackendTxn.keyGenCurrent store : Prog σ _ _) :=
  keeps_ask fun s => (keyGenCurrent s store).mono (fun _ h => h) (fun _ _ h => h)
    fun _ _ h => h.elim

end PendingTxn

open PendingTxn

variable {σ : Type} [BackendTxn σ] [PendingTxn σ]

instance : LawfulTxn σ where
  view := view
  Upgrade s := (overlay s).mode = .versionChange
  get s store key := PendingTxn.get s store key
  put s store key val noOverwrite := meets_write (PendingTxn.put s store key val noOverwrite)
    fun s' p ⟨quota, hp⟩ hs' => by
      rw [view, hs']
      exact Pending.view_put hp
  deleteRecord s store key :=
    meets_write (PendingTxn.deleteRecord s store key) fun s' p hp hs' => by
    rw [view, hs', hp]
    exact Pending.view_setRecord _ none
  deleteRange s store range :=
    meets_write (PendingTxn.deleteRange s store range) fun s' p hp hs' => by
    rw [view, hs', hp]
    exact Pending.view_deleteRange store range
  clear s store := meets_write (PendingTxn.clear s store) fun s' p hp hs' => by
    rw [view, hs', hp]
    exact Pending.view_clear store
  scanRows s store range keyOnly := by
    refine (PendingTxn.scanRows s (.store store) range .next keyOnly).mono (fun _ h => h) ?_
      fun _ _ h => h.1
    rintro rows s' ⟨rfl, hvisit⟩
    obtain ⟨rows', hvisit', hrows⟩ := Pending.visit_store_next store range keyOnly
    have heq : (pure rows' : CursorResult _) = pure rows := hvisit'.symm.trans hvisit
    have hrun := congrArg ExceptT.run heq
    cases hrun
    exact ⟨rfl, hrows⟩
  keyGenSet s store value := meets_write (PendingTxn.keyGenSet s store value) fun s' p hp hs' => by
    rw [view, hs', hp]
    exact Pending.view_keyGenSet store value
  indexPut s index idxKey primaryKey unique := by
    refine meets_write (PendingTxn.indexPut s index idxKey primaryKey unique) fun s' p hp hs' => ?_
    obtain ⟨hfree, hview⟩ := Pending.view_indexPut hp
    refine ⟨hfree, ?_⟩
    rw [view, hs']
    exact hview
  indexDelete s index idxKey primaryKey :=
    meets_write (PendingTxn.indexDelete s index idxKey primaryKey) fun s' p hp hs' => by
      rw [view, hs', hp]
      exact Pending.view_setIndexEntry_false _
  indexDeleteByPrimary s index primaryKey :=
    meets_write (PendingTxn.indexDeleteByPrimary s index primaryKey) fun s' p hp hs' => by
      rw [view, hs', hp]
      exact Pending.view_indexDeleteByPrimary index primaryKey
  scanRows_upgrade s store range keyOnly hup := by
    refine (PendingTxn.scanRows s (.store store) range .next keyOnly).mono (fun _ h => h) ?_ ?_
    · rintro _ s' ⟨rfl, -⟩
      exact hup
    · rintro _ _ ⟨-, hmode⟩
      exact hmode hup
  indexPut_upgrade s index idxKey primaryKey unique hup := by
    refine (Meets.and (PendingTxn.indexPut s index idxKey primaryKey unique)
      (PendingTxn.indexPut_refused s index idxKey primaryKey unique)).mono (fun _ h => h) ?_ ?_
    · rintro _ s' ⟨⟨-, p, -, hs'⟩, -⟩
      rw [hs']
      exact hup
    · rintro e s' ⟨-, hmode | ⟨err, rfl, herr⟩⟩
      · rw [hup] at hmode
        cases hmode
      · exact Pending.refused_indexPut herr

namespace PendingTxn

/-- What every read keeps and every write of pending changes keeps. -/
theorem operationsKeep {inv : σ → Prop}
    (h : ∀ (s s' : σ) (p : Pending), inv s → (overlay s).mode ≠ .readOnly →
      p.saved (overlay s).rows = saved s → overlay s' = { overlay s with pending := p } → inv s') :
    OperationsKeep σ inv where
  get store key := keeps_ask fun s => PendingTxn.get s store key
  put store key value noOverwrite := keeps_write (PendingTxn.put · store key value noOverwrite)
    fun s s' p hs hmode ⟨_, hp⟩ => h s s' p hs hmode (Pending.saved_put hp)
  deleteRecord store key := keeps_write (PendingTxn.deleteRecord · store key)
    fun s s' p hs hmode hp => h s s' p hs hmode (by rw [hp]; exact Pending.saved_setRecord _ none)
  deleteRange store range := keeps_write (PendingTxn.deleteRange · store range)
    fun s s' p hs hmode hp =>
      h s s' p hs hmode (by rw [hp]; exact Pending.saved_deleteRange store range)
  clear store := keeps_write (PendingTxn.clear · store)
    fun s s' p hs hmode hp => h s s' p hs hmode (by rw [hp]; exact Pending.saved_clear store)
  count src range := keeps_ask fun s => PendingTxn.count s src range
  scanRows := keeps_scanRows
  keyGenCurrent := keeps_keyGenCurrent
  indexPut index idxKey primaryKey unique :=
    keeps_write (PendingTxn.indexPut · index idxKey primaryKey unique)
      fun s s' p hs hmode hp => h s s' p hs hmode (Pending.saved_indexPut hp)
  indexDelete index idxKey primaryKey :=
    keeps_write (PendingTxn.indexDelete · index idxKey primaryKey)
      fun s s' p hs hmode hp =>
        h s s' p hs hmode (by rw [hp]; exact Pending.saved_setIndexEntry _ false)
  indexDeleteByPrimary index primaryKey :=
    keeps_write (PendingTxn.indexDeleteByPrimary · index primaryKey)
      fun s s' p hs hmode hp => h s s' p hs hmode
        (by rw [hp]; exact Pending.saved_indexDeleteByPrimary index primaryKey)
  keyGenSet store value := keeps_write (PendingTxn.keyGenSet · store value)
    fun s s' p hs hmode hp =>
      h s s' p hs hmode (by rw [hp]; exact Pending.saved_keyGenSet store value)

theorem operations_valid : OperationsKeep σ Valid :=
  operationsKeep fun s s' p _ hmode _ hs' hread => by
    rw [hs'] at hread
    exact absurd hread hmode

theorem operations_keep (snapshots : List Snapshot) (w : Snapshot) :
    OperationsKeep σ fun s => saved s = snapshots ∧ base s = w := by
  refine operationsKeep ?_
  rintro s s' p ⟨rfl, rfl⟩ - hsaved hs'
  constructor
  · rw [saved, hs']
    exact hsaved
  · rw [base, hs']
    rfl

/-- A write that does not touch the generators. -/
theorem keeps_generator {α : Type} {op : Prog σ BackendError α} {change : σ → Pending → Prop}
    {g : StoreId → F64Bits} (h : ∀ s, Writes overlay s op (change s))
    (hgenerators : ∀ s p, change s p → p.keyGenerators = (overlay s).pending.keyGenerators) :
    Keeps (fun s : σ => generator s = g) op := by
  refine keeps_write h ?_
  rintro s s' p rfl - hp hs'
  rw [generator, hs']
  exact Pending.keyGenCurrent_congr (hgenerators s p hp)

theorem rows_keep_generator (g : StoreId → F64Bits) :
    RowOperationsKeep σ fun s => generator s = g where
  get store key := keeps_ask fun s => PendingTxn.get s store key
  put store key value noOverwrite := keeps_generator (PendingTxn.put · store key value noOverwrite)
    fun _ _ ⟨_, hp⟩ => Pending.keyGenerators_put hp
  deleteRecord store key := keeps_generator (PendingTxn.deleteRecord · store key) fun _ _ hp => by
    rw [hp]
    exact Pending.keyGenerators_setRecord _ none
  deleteRange store range := keeps_generator (PendingTxn.deleteRange · store range) fun _ _ hp => by
    rw [hp]
    exact Pending.keyGenerators_deleteRange store range
  clear store := keeps_generator (PendingTxn.clear · store) fun _ _ hp => by
    rw [hp]
    exact Pending.keyGenerators_clear store
  count src range := keeps_ask fun s => PendingTxn.count s src range
  scanRows := keeps_scanRows
  keyGenCurrent := keeps_keyGenCurrent
  indexPut index idxKey primaryKey unique :=
    keeps_generator (PendingTxn.indexPut · index idxKey primaryKey unique)
      fun _ _ => Pending.keyGenerators_indexPut
  indexDelete index idxKey primaryKey :=
    keeps_generator (PendingTxn.indexDelete · index idxKey primaryKey) fun _ _ hp => by
      rw [hp]
      exact Pending.keyGenerators_setIndexEntry _ false
  indexDeleteByPrimary index primaryKey :=
    keeps_generator (PendingTxn.indexDeleteByPrimary · index primaryKey) fun _ _ hp => by
      rw [hp]
      exact Pending.keyGenerators_indexDeleteByPrimary index primaryKey

end PendingTxn

instance : LawfulSavepoints σ where
  Valid := Valid
  generator := generator
  saved := saved
  base := base
  operations_valid := operations_valid
  operations_keep := operations_keep
  rows_keep_generator := rows_keep_generator
  keyGenCurrent := PendingTxn.keyGenCurrent
  keyGenSet_generator s store value := by
    refine (PendingTxn.keyGenSet s store value).mono (fun _ h => h) ?_ fun _ _ h => h
    rintro _ s' ⟨-, p, rfl, hs'⟩
    rw [generator, hs']
    exact Pending.generator_keyGenSet store value
  beginRequest s := by
    refine (PendingTxn.beginRequest s).mono (fun _ h => h) (fun _ s' hs' => ?_) fun _ _ h => h
    refine ⟨fun hvalid hmode => ?_, ?_, ?_, ?_⟩
    · rw [hs'] at hmode ⊢
      exact (hvalid hmode).beginRequest
    · show Snapshot.mk (view s') (generator s') = _
      rw [view, generator, hs']
      rfl
    · rw [saved, hs']
      exact Pending.saved_beginRequest
    · rw [base, hs']
      rfl
  commitRequest s := by
    refine (PendingTxn.commitRequest s).mono (fun _ h => h) ?_ ?_
    · rintro _ s' ⟨p, hp, hs'⟩
      obtain ⟨hsnapshot, w, hsaved⟩ := @Pending.saved_commitRequest (overlay s).rows _ _ hp
      refine ⟨fun hvalid hmode => ?_, ?_, ⟨w, ?_⟩, ?_⟩
      · rw [hs'] at hmode ⊢
        exact (hvalid hmode).commitRequest hp
      · show Snapshot.mk (view s') (generator s') = _
        rw [view, generator, hs']
        exact hsnapshot
      · show saved s = _
        rw [saved, saved, hs']
        exact hsaved
      · rw [base, hs']
        rfl
    · rintro _ s' ⟨rfl, err, rfl, herr⟩
      exact ⟨rfl, rfl, Pending.commitRequest_error herr⟩
  rollbackRequest s := by
    refine (PendingTxn.rollbackRequest s).mono (fun _ h => h) ?_ ?_
    · rintro _ s' ⟨p, hp, hs'⟩
      refine ⟨fun hvalid hmode => ?_, ?_, ?_⟩
      · rw [hs'] at hmode ⊢
        exact (hvalid hmode).rollbackRequest hp
      · show saved s = Snapshot.mk (view s') (generator s') :: saved s'
        rw [view, generator, saved, saved, hs']
        exact Pending.saved_rollbackRequest hp
      · rw [base, hs']
        rfl
    · rintro _ s' ⟨rfl, err, rfl, herr⟩
      exact ⟨rfl, rfl, Pending.rollbackRequest_error herr⟩

end BoaIdb
