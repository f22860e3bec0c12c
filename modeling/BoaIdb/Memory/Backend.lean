import BoaIdb.Backend.PendingTxn
import BoaIdb.Memory.Txn

/-!
A memory transaction as a backend of the engine, and that it works on pending changes.
-/

namespace BoaIdb

open Faults OrdMap

namespace Memory

/-- A transaction over the shared rows of its database. -/
structure Session where
  rows : Rows
  txn : MemoryTxn

namespace Session

/-- An operation of the transaction. -/
def onTxn (f : Rows → MemoryTxn → Except BackendError MemoryTxn) :
    Prog Session BackendError Unit :=
  Prog.call fun s => (f s.rows s.txn).map fun t => ((), { s with txn := t })

/-- An operation with a result. -/
def onTxnWith {α : Type} (f : Rows → MemoryTxn → Except BackendError (MemoryTxn × α)) :
    Prog Session BackendError α :=
  Prog.call fun s => (f s.rows s.txn).map fun r => (r.2, { s with txn := r.1 })

/-- A read of the transaction. -/
def askTxn {α : Type} (f : Rows → MemoryTxn → Except BackendError α) :
    Prog Session BackendError α :=
  Prog.call fun s => (f s.rows s.txn).map (·, s)

def overlay (s : Session) : Overlay := ⟨s.rows, s.txn.mode, s.txn.pending⟩

end Session

instance : BackendTxn Session where
  beginRequest := Session.onTxn fun _ t => .ok t.beginRequest
  commitRequest := Session.onTxn fun _ t => t.commitRequest
  rollbackRequest := Session.onTxn fun _ t => t.rollbackRequest
  put store key value noOverwrite := Session.onTxn fun base t =>
    t.put base store key value noOverwrite
  get store key := Session.askTxn fun base t => t.get base store key
  deleteRecord store key := Session.onTxnWith fun base t => t.deleteRecord base store key
  deleteRange store range := Session.onTxnWith fun base t => t.deleteRange base store range
  clear store := Session.onTxn fun base t => t.clear base store
  count src range := Session.askTxn fun base t => t.count base src range
  scanRows src range dir keyOnly := do
    let cursor ← Session.askTxn fun base t => t.scan base src range dir keyOnly
    cursor.visitRows
  keyGenCurrent store := Session.askTxn fun base t => .ok (t.keyGenCurrent base store)
  keyGenSet store value := Session.onTxn fun base t => t.keyGenSet base store value
  indexPut index idxKey primaryKey unique :=
    Session.onTxn fun base t => t.indexPut base index idxKey primaryKey unique
  indexDelete index idxKey primaryKey :=
    Session.onTxn fun _ t => t.indexDelete index idxKey primaryKey
  indexDeleteByPrimary index primaryKey :=
    Session.onTxn fun base t => t.indexDeleteByPrimary base index primaryKey

namespace Session

/-! ### Refusals

An operation that is not refused has passed its checks. -/

variable {s : Session}

theorem meets_onTxn {f : Rows → MemoryTxn → Except BackendError MemoryTxn}
    {post : Unit → Session → Prop} {halt : Option BackendError → Session → Prop}
    (hok : ∀ t, f s.rows s.txn = .ok t → post () { s with txn := t })
    (herror : ∀ e, f s.rows s.txn = .error e → halt (some e) s) :
    Meets (· = s) (onTxn f) post halt :=
  meets_call_map hok herror

theorem meets_onTxnWith {α : Type} {f : Rows → MemoryTxn → Except BackendError (MemoryTxn × α)}
    {post : α → Session → Prop} {halt : Option BackendError → Session → Prop}
    (hok : ∀ t a, f s.rows s.txn = .ok (t, a) → post a { s with txn := t })
    (herror : ∀ e, f s.rows s.txn = .error e → halt (some e) s) :
    Meets (· = s) (onTxnWith f) post halt :=
  meets_call_map (fun r h => hok r.1 r.2 h) herror

theorem meets_askTxn {α : Type} {f : Rows → MemoryTxn → Except BackendError α}
    {post : α → Session → Prop} {halt : Option BackendError → Session → Prop}
    (hok : ∀ a, f s.rows s.txn = .ok a → post a s)
    (herror : ∀ e, f s.rows s.txn = .error e → halt (some e) s) :
    Meets (· = s) (askTxn f) post halt :=
  meets_call_map hok herror

/-- A change of the pending changes behind its checks. -/
theorem writes_onTxn {f : Rows → MemoryTxn → Except BackendError MemoryTxn}
    {change : Pending → Prop}
    (h : ∀ t, f s.rows s.txn = .ok t → s.txn.checkReadwrite = .ok () ∧
      ∃ p, change p ∧ t = { s.txn with pending := p }) :
    Writes overlay s (onTxn f) change := by
  refine meets_onTxn (fun t ht => ?_) fun _ _ => ⟨rfl, rfl⟩
  obtain ⟨hmode, p, hp, rfl⟩ := h t ht
  exact ⟨MemoryTxn.writable hmode, p, hp, rfl⟩

theorem writes_onTxnWith {α : Type} {f : Rows → MemoryTxn → Except BackendError (MemoryTxn × α)}
    {change : Pending → Prop}
    (h : ∀ t a, f s.rows s.txn = .ok (t, a) → s.txn.checkReadwrite = .ok () ∧
      ∃ p, change p ∧ t = { s.txn with pending := p }) :
    Writes overlay s (onTxnWith f) change := by
  refine meets_onTxnWith (fun t a ht => ?_) fun _ _ => ⟨rfl, rfl⟩
  obtain ⟨hmode, p, hp, rfl⟩ := h t a ht
  exact ⟨MemoryTxn.writable hmode, p, hp, rfl⟩

end Session

instance : PendingTxn Session where
  overlay := Session.overlay
  beginRequest s := by
    refine Session.meets_onTxn (fun t h => ?_) fun e h => by cases h
    cases h
    rfl
  commitRequest s := by
    refine Session.meets_onTxn (fun t h => ?_) fun e h => ⟨rfl, e, rfl, ?_⟩
    · obtain ⟨p, hp, ht⟩ := bind_ok h
      cases ht
      exact ⟨p, hp, rfl⟩
    · exact bind_error h fun _ h => by cases h
  rollbackRequest s := by
    refine Session.meets_onTxn (fun t h => ?_) fun e h => ⟨rfl, e, rfl, ?_⟩
    · obtain ⟨p, hp, ht⟩ := bind_ok h
      cases ht
      exact ⟨p, hp, rfl⟩
    · exact bind_error h fun _ h => by cases h
  get s store key := by
    refine Session.meets_askTxn (fun r h => ?_) fun e _ => ⟨rfl, rfl⟩
    obtain ⟨_, -, hr⟩ := bind_ok h
    exact ⟨rfl, (Except.ok.inj hr).symm⟩
  put s store key val noOverwrite := Session.writes_onTxn fun t h => by
    obtain ⟨_, -, h⟩ := bind_ok h
    obtain ⟨_, hmode, h⟩ := bind_ok h
    obtain ⟨p, hp, ht⟩ := bind_ok h
    exact ⟨hmode, p, ⟨_, hp⟩, (Except.ok.inj ht).symm⟩
  deleteRecord s store key := Session.writes_onTxnWith fun t a h => by
    obtain ⟨_, -, h⟩ := bind_ok h
    obtain ⟨_, hmode, h⟩ := bind_ok h
    cases h
    exact ⟨hmode, _, rfl, rfl⟩
  deleteRange s store range := Session.writes_onTxnWith fun t a h => by
    obtain ⟨_, -, h⟩ := bind_ok h
    obtain ⟨_, hmode, h⟩ := bind_ok h
    cases h
    exact ⟨hmode, _, rfl, rfl⟩
  clear s store := Session.writes_onTxn fun t h => by
    obtain ⟨_, -, h⟩ := bind_ok h
    obtain ⟨_, hmode, h⟩ := bind_ok h
    cases h
    exact ⟨hmode, _, rfl, rfl⟩
  count s src range := by
    refine Session.meets_askTxn (fun r h => ?_) fun e _ => ⟨rfl, rfl⟩
    obtain ⟨_, -, hr⟩ := bind_ok h
    exact ⟨rfl, (Except.ok.inj hr).symm⟩
  scanRows s src range dir keyOnly := by
    refine meets_visitRows (Session.meets_askTxn (fun c h => ?_) fun e h =>
      ⟨⟨rfl, rfl⟩, fun hmode => ?_⟩)
    · obtain ⟨_, -, hc⟩ := bind_ok h
      exact ⟨rfl, (Except.ok.inj hc).symm⟩
    · have hscope : s.txn.checkScope src.storeId = .ok () := if_pos (.inl hmode)
      rw [MemoryTxn.scan, hscope] at h
      cases h
  keyGenCurrent s store := by
    refine Session.meets_askTxn (fun r h => ?_) fun e h => by cases h
    exact ⟨rfl, (Except.ok.inj h).symm⟩
  keyGenSet s store value := Session.writes_onTxn fun t h => by
    obtain ⟨_, hmode, h⟩ := bind_ok h
    cases h
    exact ⟨hmode, _, rfl, rfl⟩
  indexPut s index idxKey primaryKey unique := Session.writes_onTxn fun t h => by
    obtain ⟨_, hmode, h⟩ := bind_ok h
    obtain ⟨p, hp, ht⟩ := bind_ok h
    exact ⟨hmode, p, hp, (Except.ok.inj ht).symm⟩
  indexPut_refused s index idxKey primaryKey unique := by
    refine Session.meets_onTxn (fun _ _ => trivial) fun e h => ?_
    by_cases hmode : s.txn.mode = .readOnly
    · exact .inl hmode
    · have hcheck : s.txn.checkReadwrite = .ok () := if_neg hmode
      rw [MemoryTxn.indexPut, hcheck] at h
      exact .inr ⟨e, rfl, bind_error h fun _ h => by cases h⟩
  indexDelete s index idxKey primaryKey := Session.writes_onTxn fun t h => by
    obtain ⟨_, hmode, h⟩ := bind_ok h
    cases h
    exact ⟨hmode, _, rfl, rfl⟩
  indexDeleteByPrimary s index primaryKey := Session.writes_onTxn fun t h => by
    obtain ⟨_, hmode, h⟩ := bind_ok h
    cases h
    exact ⟨hmode, _, rfl, rfl⟩

/-- The committed rows of a database, which its handles and transactions share. -/
instance : LawfulDatabase Rows Session where
  committed rows := Pending.empty.snapshot rows
  Begins rows s := ∃ (d : MemoryDatabase) (mode : TxnMode) (scope : List StoreId),
    s = ⟨rows, d.begin mode scope⟩
  Commits s ok rows := ok = true ∧ ∃ storage : StorageState, storage.rows = s.rows ∧
    rows = (s.txn.commit storage).rows
  Aborts s rows := rows = s.rows
  begins := by
    rintro rows s ⟨d, mode, scope, rfl⟩
    exact ⟨fun _ => Pending.untouched_empty, rfl, rfl, rfl⟩
  commits_ok := by
    rintro s rows - ⟨-, storage, hrows, rfl⟩
    show Pending.empty.snapshot (s.txn.pending.applyTo storage.rows) = _
    rw [hrows]
    exact Pending.snapshot_empty_applyTo
  commits_err := by
    rintro s rows ⟨h, -⟩
    cases h
  aborts := by
    rintro s rows rfl
    rfl

end Memory

end BoaIdb
