import BoaIdb.Backend.PendingTxn
import BoaIdb.Fs.Runs

/-!
A filesystem transaction as a backend of the engine, and that it works on pending changes.

Its operations are those of the memory backend, with a limit on the number of records.
-/

namespace BoaIdb.Fs

open Faults OrdMap

/-- The committed maps of a state. -/
def DbState.rows (s : DbState) : Rows := ⟨s.records, s.indexEntries, s.keyGenerators⟩

/-- A transaction between its begin and its end: with the undo logs and the counts of its
operations, and over the session of its handle. -/
structure OpenTxn where
  session : Session
  txn : FsTxn
  undoStack : List (List UndoOp)
  /-- Net pending record inserts against committed storage. -/
  keyDelta : ℤ
  /-- `key_delta` at the begin of each open level, the innermost first. -/
  keyDeltaStack : List ℤ
  maxKeysInMemory : ℕ

/-- `FsDatabase::begin`. -/
def OpenTxn.begin (session : Session) (mode : TxnMode) (scope : List StoreId) (m : DatabaseMeta)
    (durability : Durability) (maxKeysInMemory : ℕ) : OpenTxn :=
  ⟨session, .begin mode scope m durability, [], 0, [], maxKeysInMemory⟩

namespace OpenTxn

def rows (s : OpenTxn) : Rows := s.session.state.rows

def pending (s : OpenTxn) : Pending :=
  ⟨s.txn.pendingRecords, s.txn.pendingIndexEntries, s.txn.pendingKeyGenerators, s.undoStack⟩

def withPending (s : OpenTxn) (p : Pending) : OpenTxn :=
  { s with
    txn := { s.txn with
      pendingRecords := p.records
      pendingIndexEntries := p.indexEntries
      pendingKeyGenerators := p.keyGenerators }
    undoStack := p.undoStack }

/-! ### Checks -/

/-- A versionchange transaction spans the whole database. -/
def checkScope (s : OpenTxn) (store : StoreId) : Except BackendError Unit :=
  if s.txn.mode = .versionChange ∨ store ∈ s.txn.scope then .ok ()
  else .error (.internal ("Store " ++ toString store ++ " not in transaction scope"))

def checkReadwrite (s : OpenTxn) : Except BackendError Unit :=
  if s.txn.mode = .readOnly then .error (.internal "Cannot write in a read-only transaction")
  else .ok ()

theorem writable {s : OpenTxn} (h : s.checkReadwrite = .ok ()) : s.txn.mode ≠ .readOnly := by
  intro hmode
  rw [checkReadwrite, if_pos hmode] at h
  cases h

/-- Adjusts the pending key delta for a record presence transition. -/
def applyRecordTransition (delta : ℤ) (before after : Bool) : ℤ :=
  if !before && after then delta + 1
  else if before && !after then delta - 1
  else delta

/-- Projected key count after inserting one brand-new record. -/
def projectedKeyCountForInsert (s : OpenTxn) : ℕ :=
  ((s.rows.records.entries.length : ℤ) + s.keyDelta + 1).toNat

def checkQuota (s : OpenTxn) : Except BackendError Unit :=
  let projected := s.projectedKeyCountForInsert
  if s.maxKeysInMemory < projected then .error (.quotaExceeded projected s.maxKeysInMemory)
  else .ok ()

/-! ### Savepoints -/

def beginRequest (s : OpenTxn) : OpenTxn :=
  { s.withPending s.pending.beginRequest with keyDeltaStack := s.keyDelta :: s.keyDeltaStack }

/-- The running delta is already current, only its snapshot is discarded. -/
def commitRequest (s : OpenTxn) : Except BackendError OpenTxn := do
  let p ← s.pending.commitRequest
  .ok { s.withPending p with keyDeltaStack := s.keyDeltaStack.tail }

def rollbackRequest (s : OpenTxn) : Except BackendError OpenTxn := do
  let p ← s.pending.rollbackRequest
  .ok { s.withPending p with
    keyDelta := s.keyDeltaStack.head?.getD s.keyDelta
    keyDeltaStack := s.keyDeltaStack.tail }

/-! ### Data operations -/

def put (s : OpenTxn) (store : StoreId) (key val : Bytes) (noOverwrite : Bool) :
    Except BackendError OpenTxn := do
  s.checkScope store
  s.checkReadwrite
  let existed := s.pending.recordExists s.rows ⟨store, key⟩
  let p ← s.pending.put s.rows (fun _ => s.checkQuota) ⟨store, key⟩ val noOverwrite
  .ok { s.withPending p with keyDelta := applyRecordTransition s.keyDelta existed true }

def get (s : OpenTxn) (store : StoreId) (key : Bytes) : Except BackendError (Option Bytes) := do
  s.checkScope store
  .ok (s.pending.readRecord s.rows ⟨store, key⟩)

def deleteRecord (s : OpenTxn) (store : StoreId) (key : Bytes) :
    Except BackendError (OpenTxn × Bool) := do
  s.checkScope store
  s.checkReadwrite
  let (p, existed) := s.pending.deleteRecord s.rows ⟨store, key⟩
  .ok ({ s.withPending p with keyDelta := applyRecordTransition s.keyDelta existed false }, existed)

/-- A step of the first loop of `delete_range`. -/
def sweepCounted (base : Rows) (acc : (Pending × ℕ) × ℤ) (key : RecordKey) :
    (Pending × ℕ) × ℤ :=
  (Pending.tombstone base acc.1 key,
    applyRecordTransition acc.2 (acc.1.1.readRecord base key).isSome false)

/-- A step of the second one. -/
def dropCounted (acc : (Pending × ℕ) × ℤ) (key : RecordKey) : (Pending × ℕ) × ℤ :=
  (Pending.dropPending acc.1 key,
    match acc.1.1.records.get? key with
    | some (some _) => applyRecordTransition acc.2 true false
    | _ => acc.2)

/-- Each step of the two loops adjusts the delta. -/
def deleteRange (s : OpenTxn) (store : StoreId) (range : EncodedRange) :
    Except BackendError (OpenTxn × ℕ) := do
  s.checkScope store
  s.checkReadwrite
  let keysInRange := s.rows.records.keys.filter
    (fun k => k.store = store ∧ range.contains k.key = true)
  let pendingKeys := s.pending.records.keys.filter
    (fun k => k.store = store ∧ range.contains k.key = true)
  let acc := (pendingKeys.filter (fun k => k ∉ keysInRange)).foldl dropCounted
    (keysInRange.foldl (sweepCounted s.rows) ((s.pending, 0), s.keyDelta))
  .ok ({ s.withPending acc.1.1 with keyDelta := acc.2 }, acc.1.2)

/-- The keys of the store, committed ones first; no key comes twice, so each is there or not as
it was before the loop. -/
def clear (s : OpenTxn) (store : StoreId) : Except BackendError OpenTxn := do
  s.checkScope store
  s.checkReadwrite
  let keys := s.rows.records.keys.filter (fun k => k.store = store)
  let pendingKeys := (s.pending.records.keys.filter (fun k => k.store = store)).filter (· ∉ keys)
  let before := (keys ++ pendingKeys).filter (s.pending.recordExists s.rows)
  .ok { s.withPending (s.pending.clear s.rows store) with keyDelta := s.keyDelta - before.length }

def count (s : OpenTxn) (src : SourceRef) (range : EncodedRange) : Except BackendError ℕ := do
  s.checkScope src.storeId
  .ok (s.pending.count s.rows src range)

def scan (s : OpenTxn) (src : SourceRef) (range : EncodedRange) (dir : Direction)
    (keyOnly : Bool) : Except BackendError Cursor := do
  s.checkScope src.storeId
  .ok (Cursor.scan (s.pending.cursorMaps s.rows) src range dir keyOnly)

def keyGenCurrent (s : OpenTxn) (store : StoreId) : F64Bits := s.pending.keyGenCurrent s.rows store

def keyGenSet (s : OpenTxn) (store : StoreId) (value : F64Bits) : Except BackendError OpenTxn := do
  s.checkReadwrite
  .ok (s.withPending (s.pending.keyGenSet s.rows store value))

def indexPut (s : OpenTxn) (index : IndexId) (idxKey primaryKey : Bytes) (unique : Bool) :
    Except BackendError OpenTxn := do
  s.checkReadwrite
  let p ← s.pending.indexPut s.rows ⟨index, idxKey, primaryKey⟩ unique
  .ok (s.withPending p)

def indexDelete (s : OpenTxn) (index : IndexId) (idxKey primaryKey : Bytes) :
    Except BackendError OpenTxn := do
  s.checkReadwrite
  .ok (s.withPending (s.pending.indexDelete ⟨index, idxKey, primaryKey⟩))

def indexDeleteByPrimary (s : OpenTxn) (index : IndexId) (primaryKey : Bytes) :
    Except BackendError OpenTxn := do
  s.checkReadwrite
  .ok (s.withPending (s.pending.indexDeleteByPrimary s.rows index primaryKey))

/-! ### The range loops -/

/-- A loop whose delta falls with each record that is counted. -/
theorem foldl_counted {step : (Pending × ℕ) × ℤ → RecordKey → (Pending × ℕ) × ℤ}
    {count : Pending × ℕ → RecordKey → Pending × ℕ}
    (hcount : ∀ acc key, (step acc key).1 = count acc.1 key)
    (hdelta : ∀ acc key, (step acc key).2 + (step acc key).1.2 = acc.2 + acc.1.2)
    (keys : List RecordKey) (acc : (Pending × ℕ) × ℤ) :
    keys.foldl step acc =
      (keys.foldl count acc.1, acc.2 + acc.1.2 - (keys.foldl count acc.1).2) := by
  induction keys generalizing acc with
  | nil => simp
  | cons key keys ih => rw [List.foldl_cons, List.foldl_cons, ih, hdelta, hcount]

theorem sweepCounted_delta {base : Rows} (acc : (Pending × ℕ) × ℤ) (key : RecordKey) :
    (sweepCounted base acc key).2 + (sweepCounted base acc key).1.2 = acc.2 + acc.1.2 := by
  unfold sweepCounted Pending.tombstone applyRecordTransition
  cases (acc.1.1.readRecord base key).isSome with
  | true =>
      simp only [if_true, Bool.not_true, Bool.not_false, Bool.and_self,
        Bool.false_eq_true, if_false]
      push_cast
      omega
  | false => simp

theorem dropCounted_delta (acc : (Pending × ℕ) × ℤ) (key : RecordKey) :
    (dropCounted acc key).2 + (dropCounted acc key).1.2 = acc.2 + acc.1.2 := by
  simp only [dropCounted, Pending.dropPending]
  cases acc.1.1.records.get? key with
  | none => rfl
  | some slot =>
      cases slot with
      | none => rfl
      | some val =>
          show acc.2 - 1 + ((acc.1.2 + 1 : ℕ) : ℤ) = _
          push_cast
          omega

/-- The delta falls by what the loops count. -/
theorem deleteRange_ok {s : OpenTxn} {store : StoreId} {range : EncodedRange} {r : OpenTxn × ℕ}
    (h : s.deleteRange store range = .ok r) :
    s.checkScope store = .ok () ∧ s.checkReadwrite = .ok () ∧
      r = ({ s.withPending (s.pending.deleteRange s.rows store range).1 with
        keyDelta := s.keyDelta - (s.pending.deleteRange s.rows store range).2 },
        (s.pending.deleteRange s.rows store range).2) := by
  have hdrop (acc : (Pending × ℕ) × ℤ) (key : RecordKey) :
      (dropCounted acc key).1 = Pending.dropPending acc.1 key := rfl
  have hsweep (acc : (Pending × ℕ) × ℤ) (key : RecordKey) :
      (sweepCounted s.rows acc key).1 = Pending.tombstone s.rows acc.1 key := rfl
  obtain ⟨⟨⟩, hscope, h⟩ := bind_ok h
  obtain ⟨⟨⟩, hmode, h⟩ := bind_ok h
  refine ⟨hscope, hmode, ?_⟩
  simp only [foldl_counted hdrop dropCounted_delta, foldl_counted hsweep sweepCounted_delta,
    Nat.cast_zero, add_zero, sub_add_cancel] at h
  exact (Except.ok.inj h).symm

/-! ### The backend -/

/-- An operation of the transaction. -/
def onTxn (f : OpenTxn → Except BackendError OpenTxn) : Prog OpenTxn BackendError Unit :=
  Prog.call fun s => (f s).map ((), ·)

/-- An operation with a result. -/
def onTxnWith {α : Type} (f : OpenTxn → Except BackendError (OpenTxn × α)) :
    Prog OpenTxn BackendError α :=
  Prog.call fun s => (f s).map fun r => (r.2, r.1)

/-- A read of the transaction. -/
def askTxn {α : Type} (f : OpenTxn → Except BackendError α) : Prog OpenTxn BackendError α :=
  Prog.call fun s => (f s).map (·, s)

def overlay (s : OpenTxn) : Overlay := ⟨s.rows, s.txn.mode, s.pending⟩

end OpenTxn

instance : BackendTxn OpenTxn where
  beginRequest := OpenTxn.onTxn fun s => .ok s.beginRequest
  commitRequest := OpenTxn.onTxn OpenTxn.commitRequest
  rollbackRequest := OpenTxn.onTxn OpenTxn.rollbackRequest
  put store key value noOverwrite := OpenTxn.onTxn (·.put store key value noOverwrite)
  get store key := OpenTxn.askTxn (·.get store key)
  deleteRecord store key := OpenTxn.onTxnWith (·.deleteRecord store key)
  deleteRange store range := OpenTxn.onTxnWith (·.deleteRange store range)
  clear store := OpenTxn.onTxn (·.clear store)
  count src range := OpenTxn.askTxn (·.count src range)
  scanRows src range dir keyOnly := do
    let cursor ← OpenTxn.askTxn (·.scan src range dir keyOnly)
    cursor.visitRows
  keyGenCurrent store := OpenTxn.askTxn fun s => .ok (s.keyGenCurrent store)
  keyGenSet store value := OpenTxn.onTxn (·.keyGenSet store value)
  indexPut index idxKey primaryKey unique :=
    OpenTxn.onTxn (·.indexPut index idxKey primaryKey unique)
  indexDelete index idxKey primaryKey := OpenTxn.onTxn (·.indexDelete index idxKey primaryKey)
  indexDeleteByPrimary index primaryKey := OpenTxn.onTxn (·.indexDeleteByPrimary index primaryKey)

namespace OpenTxn

variable {s : OpenTxn}

theorem meets_onTxn {f : OpenTxn → Except BackendError OpenTxn} {post : Unit → OpenTxn → Prop}
    {halt : Option BackendError → OpenTxn → Prop} (hok : ∀ s', f s = .ok s' → post () s')
    (herror : ∀ e, f s = .error e → halt (some e) s) : Meets (· = s) (onTxn f) post halt :=
  meets_call_map hok herror

theorem meets_askTxn {α : Type} {f : OpenTxn → Except BackendError α} {post : α → OpenTxn → Prop}
    {halt : Option BackendError → OpenTxn → Prop} (hok : ∀ a, f s = .ok a → post a s)
    (herror : ∀ e, f s = .error e → halt (some e) s) : Meets (· = s) (askTxn f) post halt :=
  meets_call_map hok herror

/-- A change of the pending changes behind its checks. -/
theorem writes_onTxn {f : OpenTxn → Except BackendError OpenTxn} {change : Pending → Prop}
    (h : ∀ s', f s = .ok s' → s.checkReadwrite = .ok () ∧
      ∃ p, change p ∧ overlay s' = { overlay s with pending := p }) :
    Writes overlay s (onTxn f) change := by
  refine meets_onTxn (fun s' hs' => ?_) fun _ _ => ⟨rfl, rfl⟩
  obtain ⟨hmode, hchange⟩ := h s' hs'
  exact ⟨writable hmode, hchange⟩

theorem writes_onTxnWith {α : Type} {f : OpenTxn → Except BackendError (OpenTxn × α)}
    {change : Pending → Prop}
    (h : ∀ r, f s = .ok r → s.checkReadwrite = .ok () ∧
      ∃ p, change p ∧ overlay r.1 = { overlay s with pending := p }) :
    Writes overlay s (onTxnWith f) change := by
  refine meets_call_map (fun r hr => ?_) fun _ _ => ⟨rfl, rfl⟩
  obtain ⟨hmode, hchange⟩ := h r hr
  exact ⟨writable hmode, hchange⟩

end OpenTxn

instance : PendingTxn OpenTxn where
  overlay := OpenTxn.overlay
  beginRequest s := by
    refine OpenTxn.meets_onTxn (fun s' h => ?_) fun e h => by cases h
    cases h
    rfl
  commitRequest s := by
    refine OpenTxn.meets_onTxn (fun s' h => ?_) fun e h => ⟨rfl, e, rfl, ?_⟩
    · obtain ⟨p, hp, hs'⟩ := bind_ok h
      cases hs'
      exact ⟨p, hp, rfl⟩
    · exact bind_error h fun _ h => by cases h
  rollbackRequest s := by
    refine OpenTxn.meets_onTxn (fun s' h => ?_) fun e h => ⟨rfl, e, rfl, ?_⟩
    · obtain ⟨p, hp, hs'⟩ := bind_ok h
      cases hs'
      exact ⟨p, hp, rfl⟩
    · exact bind_error h fun _ h => by cases h
  get s store key := by
    refine OpenTxn.meets_askTxn (fun r h => ?_) fun e _ => ⟨rfl, rfl⟩
    obtain ⟨_, -, hr⟩ := bind_ok h
    exact ⟨rfl, (Except.ok.inj hr).symm⟩
  put s store key val noOverwrite := OpenTxn.writes_onTxn fun s' h => by
    obtain ⟨_, -, h⟩ := bind_ok h
    obtain ⟨_, hmode, h⟩ := bind_ok h
    obtain ⟨p, hp, hs'⟩ := bind_ok h
    cases hs'
    exact ⟨hmode, p, ⟨_, hp⟩, rfl⟩
  deleteRecord s store key := OpenTxn.writes_onTxnWith fun r h => by
    obtain ⟨_, -, h⟩ := bind_ok h
    obtain ⟨_, hmode, h⟩ := bind_ok h
    cases h
    exact ⟨hmode, _, rfl, rfl⟩
  deleteRange s store range := OpenTxn.writes_onTxnWith fun r h => by
    obtain ⟨-, hmode, rfl⟩ := OpenTxn.deleteRange_ok h
    exact ⟨hmode, _, rfl, rfl⟩
  clear s store := OpenTxn.writes_onTxn fun s' h => by
    obtain ⟨_, -, h⟩ := bind_ok h
    obtain ⟨_, hmode, h⟩ := bind_ok h
    cases h
    exact ⟨hmode, _, rfl, rfl⟩
  count s src range := by
    refine OpenTxn.meets_askTxn (fun r h => ?_) fun e _ => ⟨rfl, rfl⟩
    obtain ⟨_, -, hr⟩ := bind_ok h
    exact ⟨rfl, (Except.ok.inj hr).symm⟩
  scanRows s src range dir keyOnly := by
    refine meets_visitRows (OpenTxn.meets_askTxn (fun c h => ?_) fun e h =>
      ⟨⟨rfl, rfl⟩, fun hmode => ?_⟩)
    · obtain ⟨_, -, hc⟩ := bind_ok h
      exact ⟨rfl, (Except.ok.inj hc).symm⟩
    · have hscope : s.checkScope src.storeId = .ok () := if_pos (.inl hmode)
      rw [OpenTxn.scan, hscope] at h
      cases h
  keyGenCurrent s store := by
    refine OpenTxn.meets_askTxn (fun r h => ?_) fun e h => by cases h
    exact ⟨rfl, (Except.ok.inj h).symm⟩
  keyGenSet s store value := OpenTxn.writes_onTxn fun s' h => by
    obtain ⟨_, hmode, h⟩ := bind_ok h
    cases h
    exact ⟨hmode, _, rfl, rfl⟩
  indexPut s index idxKey primaryKey unique := OpenTxn.writes_onTxn fun s' h => by
    obtain ⟨_, hmode, h⟩ := bind_ok h
    obtain ⟨p, hp, hs'⟩ := bind_ok h
    cases hs'
    exact ⟨hmode, p, hp, rfl⟩
  indexPut_refused s index idxKey primaryKey unique := by
    refine OpenTxn.meets_onTxn (fun _ _ => trivial) fun e h => ?_
    by_cases hmode : s.txn.mode = .readOnly
    · exact .inl hmode
    · have hcheck : s.checkReadwrite = .ok () := if_neg hmode
      rw [OpenTxn.indexPut, hcheck] at h
      exact .inr ⟨e, rfl, bind_error h fun _ h => by cases h⟩
  indexDelete s index idxKey primaryKey := OpenTxn.writes_onTxn fun s' h => by
    obtain ⟨_, hmode, h⟩ := bind_ok h
    cases h
    exact ⟨hmode, _, rfl, rfl⟩
  indexDeleteByPrimary s index primaryKey := OpenTxn.writes_onTxn fun s' h => by
    obtain ⟨_, hmode, h⟩ := bind_ok h
    cases h
    exact ⟨hmode, _, rfl, rfl⟩

/-! ### The database -/

/-- The rows behind a commit are the pending changes over those before. -/
theorem rows_committed (s : OpenTxn) (frames : List Bytes) :
    (s.txn.committed frames s.session.state).rows = s.pending.applyTo s.rows := by
  have hslot : FsTxn.presentSlot = Cursor.indexSlot := by
    funext present
    cases present <;> rfl
  unfold FsTxn.committed
  simp only
  split
  all_goals
    unfold DbState.rows FsTxn.applyPendingToState
    rw [hslot]
    rfl

/-- The handle of a filesystem database; what it has committed is what it holds in memory. -/
instance : LawfulDatabase Session OpenTxn where
  committed session := Pending.empty.snapshot session.state.rows
  Begins session s := ∃ mode scope m durability maxKeys,
    s = OpenTxn.begin session mode scope m durability maxKeys
  Commits s ok session := ∃ cfg f r, s.txn.commit cfg f s.session = (r, session) ∧
    match ok, r with
    | true, .done _ => True
    | false, .failed _ => True
    | _, _ => False
  Aborts s session := session = s.session
  begins := by
    rintro session s ⟨mode, scope, m, durability, maxKeys, rfl⟩
    exact ⟨fun _ => Pending.untouched_empty, rfl, rfl, rfl⟩
  commits_ok := by
    rintro s session hvalid ⟨cfg, f, r, hrun, hr⟩
    cases r with
    | failed e => exact hr.elim
    | stopped => exact hr.elim
    | done _ =>
        show Pending.empty.snapshot session.state.rows = s.pending.snapshot s.rows
        by_cases hmode : s.txn.mode = .readOnly
        · rw [FsTxn.commit, if_pos hmode] at hrun
          obtain rfl : s.session = session := congrArg Prod.snd hrun
          exact (hvalid hmode).snapshot_eq.symm
        · obtain ⟨frames, -, -, hrows⟩ :=
            kept_commit_done DbState.rows (fun _ _ => rfl) hmode hrun
          rw [hrows, rows_committed]
          exact Pending.snapshot_empty_applyTo
  commits_err := by
    rintro s session ⟨cfg, f, r, hrun, hr⟩
    cases r with
    | done _ => exact hr.elim
    | stopped => exact hr.elim
    | failed e =>
        obtain ⟨-, -, hstate⟩ := state_commit_failed hrun
        show Pending.empty.snapshot session.state.rows = Pending.empty.snapshot s.rows
        rw [hstate]
        rfl
  aborts := by
    rintro s session rfl
    rfl

end BoaIdb.Fs
