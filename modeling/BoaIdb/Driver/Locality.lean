import BoaIdb.Backend.Regions
import BoaIdb.Driver.ExecuteOp
import BoaIdb.Lib.Lockstep

/-!
Requests that stay inside the scope of their transaction.

A request on the stores of a region asks the backend for nothing else, so two backends that
answer alike in the region answer the request alike.
-/

namespace BoaIdb

open Clone Faults OrdMap

/-- A store of a region, with its indexes. -/
structure StoreMeta.Inside (g : Region) (store : StoreMeta) : Prop where
  scope : store.id ∈ g.scope
  owned : ∀ index ∈ store.indexes, g.owner index.id = store.id

theorem StoreMeta.Inside.index {g : Region} {store : StoreMeta} (h : store.Inside g)
    {index : IndexMeta} (hindex : index ∈ store.liveIndexes) : g.owner index.id ∈ g.scope := by
  rw [h.owned index (List.mem_of_mem_filter hindex)]
  exact h.scope

/-- Two backends of one kind whose operations in a region answer alike. -/
structure LocalTxn {σ : Type} [BackendTxn σ] (g : Region) (R : σ → σ → Prop) : Prop where
  beginRequest : Lockstep R BackendTxn.beginRequest BackendTxn.beginRequest
  commitRequest : Lockstep R BackendTxn.commitRequest BackendTxn.commitRequest
  rollbackRequest : Lockstep R BackendTxn.rollbackRequest BackendTxn.rollbackRequest
  put : ∀ store key val noOverwrite, Lockstep R (BackendTxn.put store key val noOverwrite)
    (BackendTxn.put store key val noOverwrite)
  get : ∀ store key, Lockstep R (BackendTxn.get store key) (BackendTxn.get store key)
  deleteRange : ∀ store range, Lockstep R (BackendTxn.deleteRange store range)
    (BackendTxn.deleteRange store range)
  clear : ∀ store, Lockstep R (BackendTxn.clear store) (BackendTxn.clear store)
  count : ∀ src, src.Inside g → ∀ range, Lockstep R (BackendTxn.count src range)
    (BackendTxn.count src range)
  scanRows : ∀ src, src.Inside g → ∀ range dir, src.bounded range dir = true → ∀ keyOnly,
    Lockstep R (BackendTxn.scanRows src range dir keyOnly)
      (BackendTxn.scanRows src range dir keyOnly)
  keyGenCurrent : ∀ store ∈ g.scope, Lockstep R (BackendTxn.keyGenCurrent store)
    (BackendTxn.keyGenCurrent store)
  keyGenSet : ∀ store ∈ g.scope, ∀ value, Lockstep R (BackendTxn.keyGenSet store value)
    (BackendTxn.keyGenSet store value)
  indexPut : ∀ index, g.owner index ∈ g.scope → ∀ idxKey primaryKey unique,
    Lockstep R (BackendTxn.indexPut index idxKey primaryKey unique)
      (BackendTxn.indexPut index idxKey primaryKey unique)
  indexDelete : ∀ index, g.owner index ∈ g.scope → ∀ idxKey primaryKey,
    Lockstep R (BackendTxn.indexDelete index idxKey primaryKey)
      (BackendTxn.indexDelete index idxKey primaryKey)
  indexDeleteByPrimary : ∀ index, g.owner index ∈ g.scope → ∀ primaryKey,
    Lockstep R (BackendTxn.indexDeleteByPrimary index primaryKey)
      (BackendTxn.indexDeleteByPrimary index primaryKey)

/-- A forward walk has a bound where it starts. -/
theorem bounded_next {src : SourceRef} {range : EncodedRange} : src.bounded range .next = true := by
  cases src <;> rfl

/-! ### The engine -/

namespace Engine

variable {σ : Type} [BackendTxn σ] {g : Region} {R : σ → σ → Prop} {env : CodecEnv}
  {limits : LimitConfig} {store : StoreMeta}

theorem local_syncIndex (h : LocalTxn g R) {index : IndexMeta} (hindex : g.owner index.id ∈ g.scope)
    (old : Option ScValue) (new : ScValue) (pk : Bytes) :
    Lockstep R (syncIndex limits index old new pk) (syncIndex limits index old new pk) := by
  refine (lockstep_lift _).bind fun oldKeys => (lockstep_lift _).bind fun newKeys => ?_
  refine (lockstep_forEach _ fun key _ => ?_).bind fun _ => lockstep_forEach _ fun key _ => ?_
  · exact (h.indexDelete index.id hindex key pk).mapErr _
  · exact (h.indexPut index.id hindex key pk index.unique).mapErr _

theorem local_put (h : LocalTxn g R) (hstore : store.Inside g) (keygen : KeyGenerator)
    (value : ScValue) (explicitKey : Option Key) (noOverwrite : Bool) :
    Lockstep R (put env limits store keygen value explicitKey noOverwrite)
      (put env limits store keygen value explicitKey noOverwrite) := by
  refine (lockstep_lift _).bind fun determined => ?_
  obtain ⟨key, keygen, value⟩ := determined
  refine (lockstep_lift _).bind fun encoded => ((h.get _ _).mapErr _).bind fun existing => ?_
  split
  · exact lockstep_throw _
  · refine (lockstep_lift _).bind fun old => ?_
    have hsync : Lockstep R (syncIndexesOnPut limits store old value key)
        (syncIndexesOnPut limits store old value key) :=
      (lockstep_lift _).bind fun pk => lockstep_forEach _ fun index hindex =>
        local_syncIndex h (hstore.index hindex) old value pk
    refine hsync.bind fun _ => (lockstep_lift _).bind fun bytes => ?_
    refine ((h.put _ _ _ _).mapErr _).bind fun _ => ?_
    exact ((h.keyGenSet store.id hstore.scope _).mapErr _).bind fun _ => lockstep_pure _

theorem local_collectRangeKeys (h : LocalTxn g R) {id : StoreId} (hid : id ∈ g.scope)
    (range : EncodedRange) : Lockstep R (collectRangeKeys id range) (collectRangeKeys id range) :=
  ((h.scanRows (.store id) hid range .next bounded_next true).mapErr _).bind fun _ =>
    lockstep_pure _

theorem local_deleteEntries (h : LocalTxn g R) (hstore : store.Inside g) (doomed : List Bytes) :
    Lockstep R (deleteEntries store doomed) (deleteEntries store doomed) :=
  lockstep_forEach _ fun pk _ => lockstep_forEach _ fun index hindex =>
    (h.indexDeleteByPrimary index.id (hstore.index hindex) pk).mapErr _

theorem local_delete (h : LocalTxn g R) (hstore : store.Inside g) (range : EncodedRange) :
    Lockstep R (delete store range) (delete store range) := by
  refine (local_collectRangeKeys h hstore.scope range).bind fun doomed => ?_
  refine ((h.deleteRange _ _).mapErr _).bind fun count => ?_
  exact (local_deleteEntries h hstore doomed).bind fun _ => lockstep_pure _

theorem local_clear (h : LocalTxn g R) (hstore : store.Inside g) :
    Lockstep R (clear store) (clear store) :=
  (local_collectRangeKeys h hstore.scope .all).bind fun doomed =>
    ((h.clear _).mapErr _).bind fun _ => local_deleteEntries h hstore doomed

end Engine

/-! ### The reads of the driver -/

namespace Driver

open Engine

section Reads

variable {σ : Type} [BackendTxn σ] {g : Region} {R : σ → σ → Prop} {env : CodecEnv}
  {limits : LimitConfig} {src : SourceRef} {range : RangeData}

theorem storeOf_inside (h : src.Inside g) : storeOf src ∈ g.scope := by
  cases src with
  | store id => exact h
  | index id idx => exact h.1

/-- A walk of script that goes forward, or starts at a bound. -/
def Bounded (limits : LimitConfig) (src : SourceRef) (range : RangeData) (direction : Direction) :
    Prop :=
  ∀ encoded, encodedRange limits range = .ok encoded → src.bounded encoded direction = true

/-- What follows on a computation may rely on its result. -/
theorem lockstep_bind_ok {α β : Type} {σ σ' ε : Type} {R : σ → σ' → Prop} {r : Except ε α}
    {k : α → Prog σ ε β} {k' : α → Prog σ' ε β} (h : ∀ a, r = .ok a → Lockstep R (k a) (k' a)) :
    Lockstep R (Prog.lift r >>= k) (Prog.lift r >>= k') := by
  cases r with
  | error e => exact fun _ _ hs => ⟨rfl, hs⟩
  | ok a => exact h a rfl

theorem local_scan (h : LocalTxn g R) (hsrc : src.Inside g) {encoded : EncodedRange}
    {direction : Direction} (hbounded : src.bounded encoded direction = true) (keyOnly : Bool) :
    Lockstep R ((BackendTxn.scanRows src encoded direction keyOnly).mapErr backendErr)
      ((BackendTxn.scanRows src encoded direction keyOnly).mapErr backendErr) :=
  (h.scanRows src hsrc encoded direction hbounded keyOnly).mapErr _

theorem local_materialize (h : LocalTxn g R) (hsrc : src.Inside g) {direction : Direction}
    (hbounded : Bounded limits src range direction) (keyOnly : Bool) :
    Lockstep R (materialize env limits src range direction keyOnly)
      (materialize env limits src range direction keyOnly) :=
  lockstep_bind_ok fun encoded hencoded =>
    (local_scan h hsrc (hbounded encoded hencoded) keyOnly).bind fun _ => lockstep_lift _

theorem local_firstValue (h : LocalTxn g R) (hsrc : src.Inside g) :
    Lockstep R (firstValue env limits src range) (firstValue env limits src range) := by
  refine (lockstep_lift _).bind fun encoded => ?_
  refine (local_scan h hsrc bounded_next true).bind fun rows => ?_
  cases rows with
  | nil => exact lockstep_pure _
  | cons row rows =>
      refine (lockstep_lift _).bind fun pk => (lockstep_lift _).bind fun bytes => ?_
      refine ((h.get _ _).mapErr _).bind fun found => ?_
      cases found with
      | none => exact lockstep_pure _
      | some bytes => exact (lockstep_lift _).bind fun _ => lockstep_pure _

theorem local_firstKey (h : LocalTxn g R) (hsrc : src.Inside g) :
    Lockstep R (firstKey limits src range) (firstKey limits src range) := by
  refine (lockstep_lift _).bind fun encoded => ?_
  refine (local_scan h hsrc bounded_next true).bind fun rows => ?_
  cases rows with
  | nil => exact lockstep_pure _
  | cons row rows => exact (lockstep_lift _).bind fun _ => lockstep_pure _

theorem local_collectKeys (h : LocalTxn g R) (hsrc : src.Inside g) (limit : Option ℕ) :
    Lockstep R (collectKeys limits src range limit) (collectKeys limits src range limit) :=
  (lockstep_lift _).bind fun _ => (local_scan h hsrc bounded_next true).bind fun _ =>
    lockstep_lift _

/-- Induction on the primary keys. -/
theorem local_takeValues (h : LocalTxn g R) (id : StoreId) (limit : Option ℕ) (pks : List Bytes)
    (out : List ScValue) (read : ℕ) :
    Lockstep R (takeValues env limits id limit pks out read)
      (takeValues env limits id limit pks out read) := by
  induction pks generalizing out read with
  | nil => exact lockstep_pure _
  | cons pk pks ih =>
      refine ((h.get _ _).mapErr _).bind fun found => ?_
      cases found with
      | none =>
          dsimp only
          split
          · exact lockstep_pure _
          · exact ih out read
      | some bytes =>
          refine (lockstep_lift _).bind fun value => ?_
          dsimp only
          split
          · exact lockstep_pure _
          · exact ih _ _

theorem local_collectValues (h : LocalTxn g R) (hsrc : src.Inside g) (limit : Option ℕ) :
    Lockstep R (collectValues env limits src range limit)
      (collectValues env limits src range limit) :=
  (lockstep_lift _).bind fun _ => (local_scan h hsrc bounded_next true).bind fun _ =>
    (lockstep_lift _).bind fun pks => local_takeValues h (storeOf src) limit pks [] 0

end Reads

/-! ### Transactions side by side -/

section Beside

variable {σ τ : Type} {g : Region} {R : σ → σ → Prop}

def TxnHandle.map (f : σ → τ) (t : TxnHandle σ) : TxnHandle τ :=
  ⟨t.finished, t.metadata, t.backend.map f, t.keygens, t.bytesRead, t.bytesWritten⟩

def OpState.map (f : σ → τ) (s : OpState σ) : OpState τ :=
  ⟨s.txn.map (TxnHandle.map f), s.cursors, s.nextCursorId⟩

/-- The stores of a database own their indexes. -/
def Owned (owner : IndexId → StoreId) (m : DatabaseMeta) : Prop :=
  ∀ store ∈ m.stores, ∀ index ∈ store.indexes, owner index.id = store.id

structure TxnHandle.Fit (g : Region) (P : σ → Prop) (t : TxnHandle σ) : Prop where
  owned : Owned g.owner t.metadata
  backend : ∀ b, t.backend = some b → P b

/-- A transaction of a region: its backend is, and its cursors are over sources of the region. -/
structure OpState.Fit (g : Region) (P : σ → Prop) (s : OpState σ) : Prop where
  txn : ∀ t, s.txn = some t → t.Fit g P
  cursors : ∀ id c, s.cursors.get? id = some c → c.source.Inside g

theorem OpState.map_map {υ : Type} (f : σ → τ) (f' : τ → υ) (s : OpState σ) :
    (s.map f).map f' = s.map fun b => f' (f b) := by
  obtain ⟨txn, cursors, next⟩ := s
  cases txn with
  | none => rfl
  | some t =>
      obtain ⟨finished, m, backend, keygens, bytesRead, written⟩ := t
      cases backend <;> rfl

/-- What becomes of the backend that is there decides. -/
theorem OpState.map_congr {P : σ → Prop} {s : OpState σ} (h : s.Fit g P) {f f' : σ → τ}
    (hf : ∀ b, P b → f b = f' b) : s.map f = s.map f' := by
  obtain ⟨txn, cursors, next⟩ := s
  cases txn with
  | none => rfl
  | some t =>
      obtain ⟨finished, m, backend, keygens, bytesRead, written⟩ := t
      cases backend with
      | none => rfl
      | some b =>
          have hb : f b = f' b := hf b ((h.txn _ rfl).backend b rfl)
          simp only [OpState.map, TxnHandle.map, Option.map_some, hb]

theorem OpState.Fit.map {P : σ → Prop} {Q : τ → Prop} {s : OpState σ} (h : s.Fit g P) {f : σ → τ}
    (hf : ∀ b, P b → Q (f b)) : (s.map f).Fit g Q := by
  refine ⟨fun t ht => ?_, h.cursors⟩
  obtain ⟨t₀, ht₀, rfl⟩ := Option.map_eq_some_iff.mp ht
  refine ⟨(h.txn t₀ ht₀).owned, fun b hb => ?_⟩
  obtain ⟨b₀, hb₀, rfl⟩ := Option.map_eq_some_iff.mp hb
  exact hf b₀ ((h.txn t₀ ht₀).backend b₀ hb₀)

/-- The same handle over two backends. -/
def TxnHandle.Beside (g : Region) (R : σ → σ → Prop) (t t' : TxnHandle σ) : Prop :=
  ∃ u : TxnHandle (σ × σ), u.Fit g (fun b => R b.1 b.2) ∧ t = u.map Prod.fst ∧ t' = u.map Prod.snd

/-- The same transaction over two backends. -/
def OpState.Beside (g : Region) (R : σ → σ → Prop) (s s' : OpState σ) : Prop :=
  ∃ u : OpState (σ × σ), u.Fit g (fun b => R b.1 b.2) ∧ s = u.map Prod.fst ∧ s' = u.map Prod.snd

theorem lockstep_onBackend {α : Type} {p p' : Prog σ IdbError α} (h : Lockstep R p p') :
    Lockstep (OpState.Beside g R) (onBackend p) (onBackend p') := by
  refine h.zoom ?_
  rintro _ _ ⟨⟨txn, cursors, next⟩, hfit, rfl, rfl⟩
  cases txn with
  | none => exact .inl ⟨.transactionInactive, rfl, rfl⟩
  | some t =>
      obtain ⟨finished, m, backend, keygens, bytesRead, written⟩ := t
      cases backend with
      | none => exact .inl ⟨.transactionInactive, rfl, rfl⟩
      | some b =>
          refine .inr ⟨b.1, b.2, rfl, rfl, (hfit.txn _ rfl).backend b rfl, fun c c' hc => ?_⟩
          refine ⟨⟨some ⟨finished, m, some (c, c'), keygens, bytesRead, written⟩, cursors, next⟩,
            ⟨fun t ht => ?_, hfit.cursors⟩, rfl, rfl⟩
          cases ht
          refine ⟨(hfit.txn _ rfl).owned, fun b hb => ?_⟩
          cases hb
          exact hc

theorem lockstep_onHandle {α : Type} {p p' : Prog (TxnHandle σ) IdbError α}
    (h : Lockstep (TxnHandle.Beside g R) p p') :
    Lockstep (OpState.Beside g R) (onHandle p) (onHandle p') := by
  refine h.zoom ?_
  rintro _ _ ⟨⟨txn, cursors, next⟩, hfit, rfl, rfl⟩
  cases txn with
  | none => exact .inl ⟨.transactionInactive, rfl, rfl⟩
  | some t =>
      refine .inr ⟨_, _, rfl, rfl, ⟨t, hfit.txn t rfl, rfl, rfl⟩, ?_⟩
      rintro _ _ ⟨u, hu, rfl, rfl⟩
      refine ⟨⟨some u, cursors, next⟩, ⟨fun t' ht' => ?_, hfit.cursors⟩, rfl, rfl⟩
      cases ht'
      exact hu

/-- A change of the generators. -/
theorem lockstep_keygens (f : OrderedMap StoreId KeyGenerator → OrderedMap StoreId KeyGenerator) :
    Lockstep (TxnHandle.Beside g R)
      (Prog.modify fun t => { t with keygens := f t.keygens } : Prog _ IdbError Unit)
      (Prog.modify fun t => { t with keygens := f t.keygens }) := by
  refine lockstep_modify ?_
  rintro _ _ ⟨u, hu, rfl, rfl⟩
  exact ⟨{ u with keygens := f u.keygens }, ⟨hu.owned, hu.backend⟩, rfl, rfl⟩

/-- What is read of a handle are its generators. -/
theorem lockstep_readHandle {β : Type} {k k' : TxnHandle σ → Prog (TxnHandle σ) IdbError β}
    (h : ∀ u : TxnHandle (σ × σ), u.Fit g (fun b => R b.1 b.2) →
      EndAlike (TxnHandle.Beside g R) (k (u.map Prod.fst) (u.map Prod.fst))
        (k' (u.map Prod.snd) (u.map Prod.snd))) :
    Lockstep (TxnHandle.Beside g R) (Prog.read >>= k) (Prog.read >>= k') := by
  refine lockstep_read ?_
  rintro _ _ ⟨u, hu, rfl, rfl⟩
  exact h u hu

theorem lockstep_readState {β : Type} {k k' : OpState σ → Prog (OpState σ) IdbError β}
    (h : ∀ u : OpState (σ × σ), u.Fit g (fun b => R b.1 b.2) →
      EndAlike (OpState.Beside g R) (k (u.map Prod.fst) (u.map Prod.fst))
        (k' (u.map Prod.snd) (u.map Prod.snd))) :
    Lockstep (OpState.Beside g R) (Prog.read >>= k) (Prog.read >>= k') := by
  refine lockstep_read ?_
  rintro _ _ ⟨u, hu, rfl, rfl⟩
  exact h u hu

theorem lockstep_modifyTxn (f : ∀ {τ : Type}, TxnHandle τ → TxnHandle τ)
    (hmap : ∀ {τ υ : Type} (φ : τ → υ) (t : TxnHandle τ), f (t.map φ) = (f t).map φ)
    (hfit : ∀ {τ : Type} {P : τ → Prop} {t : TxnHandle τ}, t.Fit g P → (f t).Fit g P) :
    Lockstep (OpState.Beside g R)
      (Prog.modify fun s => { s with txn := s.txn.map f } : Prog _ IdbError Unit)
      (Prog.modify fun s => { s with txn := s.txn.map f }) := by
  refine lockstep_modify ?_
  rintro _ _ ⟨⟨txn, cursors, next⟩, hu, rfl, rfl⟩
  refine ⟨⟨txn.map f, cursors, next⟩, ⟨fun t ht => ?_, hu.cursors⟩, ?_, ?_⟩
  · obtain ⟨t, rfl, rfl⟩ := Option.map_eq_some_iff.mp ht
    exact hfit (hu.txn t rfl)
  · cases txn with
    | none => rfl
    | some t => exact congrArg (fun t => OpState.mk (some t) cursors next) (hmap _ t)
  · cases txn with
    | none => rfl
    | some t => exact congrArg (fun t => OpState.mk (some t) cursors next) (hmap _ t)

theorem lockstep_addBytesRead (n : ℕ) :
    Lockstep (OpState.Beside g R) (addBytesRead n) (addBytesRead n) :=
  lockstep_modifyTxn (fun t => { t with bytesRead := t.bytesRead + n }) (fun _ _ => rfl)
    fun h => ⟨h.owned, h.backend⟩

theorem lockstep_addBytesWritten (n : ℕ) :
    Lockstep (OpState.Beside g R) (addBytesWritten n) (addBytesWritten n) :=
  lockstep_modifyTxn (fun t => { t with bytesWritten := t.bytesWritten + n }) (fun _ _ => rfl)
    fun h => ⟨h.owned, h.backend⟩

/-- What follows on the metadata may rely on their stores. -/
theorem lockstep_openMetadata {β : Type} {k k' : DatabaseMeta → Prog (OpState σ) IdbError β}
    (h : ∀ m, Owned g.owner m → Lockstep (OpState.Beside g R) (k m) (k' m)) :
    Lockstep (OpState.Beside g R) (openMetadata >>= k) (openMetadata >>= k') := by
  rintro _ _ ⟨⟨txn, cursors, next⟩, hfit, rfl, rfl⟩
  have hbeside : OpState.Beside g R (OpState.map Prod.fst ⟨txn, cursors, next⟩)
      (OpState.map Prod.snd ⟨txn, cursors, next⟩) := ⟨_, hfit, rfl, rfl⟩
  cases txn with
  | none => exact ⟨rfl, hbeside⟩
  | some t =>
      obtain ⟨finished, m, backend, keygens, bytesRead, written⟩ := t
      cases finished with
      | true => exact ⟨rfl, hbeside⟩
      | false => exact h m (hfit.txn _ rfl).owned _ _ hbeside

/-- What follows on a store that was found may rely on its indexes. -/
theorem lockstep_findStore {β : Type} {m : DatabaseMeta} (hm : Owned g.owner m) {id : StoreId}
    (hid : id ∈ g.scope) {k k' : StoreMeta → Prog (OpState σ) IdbError β}
    (h : ∀ store : StoreMeta, store.Inside g → Lockstep (OpState.Beside g R) (k store) (k' store)) :
    Lockstep (OpState.Beside g R) (Prog.lift (findStore m id) >>= k)
      (Prog.lift (findStore m id) >>= k') := by
  refine lockstep_bind_ok fun store hstore => h store ?_
  unfold findStore at hstore
  cases hfound : m.stores.find? fun store => store.id = id with
  | none =>
      rw [hfound] at hstore
      cases hstore
  | some found =>
      rw [hfound] at hstore
      cases hstore
      have heq : store.id = id := by simpa using List.find?_some hfound
      exact ⟨heq ▸ hid, hm store (List.mem_of_find?_eq_some hfound)⟩

/-- What follows on the row of a cursor may rely on its source. -/
theorem lockstep_cursorRow {β : Type} (cursorId : ℕ)
    {k k' : SourceRef × CursorRow → Prog (OpState σ) IdbError β}
    (h : ∀ r, r.1.Inside g → Lockstep (OpState.Beside g R) (k r) (k' r)) :
    Lockstep (OpState.Beside g R) (cursorRow cursorId >>= k) (cursorRow cursorId >>= k') := by
  rintro _ _ ⟨u, hfit, rfl, rfl⟩
  have hbeside : OpState.Beside g R (u.map Prod.fst) (u.map Prod.snd) := ⟨u, hfit, rfl, rfl⟩
  rcases hcursor : u.cursors.get? cursorId with _ | c
  · have hrow {τ : Type} (f : σ × σ → τ) : cursorRow cursorId (u.map f) =
        (.failed (.invalidState "cursor not found"), u.map f) := by
      refine Prog.bind_done (a := u.map f) rfl ?_
      rw [show (u.map f).cursors.get? cursorId = none from hcursor]
      rfl
    rw [Prog.bind_failed (hrow _), Prog.bind_failed (hrow _)]
    exact ⟨rfl, hbeside⟩
  · rcases hcurrent : c.current with _ | row
    · have hrow {τ : Type} (f : σ × σ → τ) : cursorRow cursorId (u.map f) =
          (.failed (.invalidState "cursor at end"), u.map f) := by
        refine Prog.bind_done (a := u.map f) rfl ?_
        rw [show (u.map f).cursors.get? cursorId = some c from hcursor]
        dsimp only
        rw [hcurrent]
        rfl
      rw [Prog.bind_failed (hrow _), Prog.bind_failed (hrow _)]
      exact ⟨rfl, hbeside⟩
    · have hrow {τ : Type} (f : σ × σ → τ) : cursorRow cursorId (u.map f) =
          (.done (c.source, row), u.map f) := by
        refine Prog.bind_done (a := u.map f) rfl ?_
        rw [show (u.map f).cursors.get? cursorId = some c from hcursor]
        dsimp only
        rw [hcurrent]
        rfl
      rw [Prog.bind_done (hrow _) rfl, Prog.bind_done (hrow _) rfl]
      exact h _ (hfit.cursors cursorId c hcursor) _ _ hbeside

theorem lockstep_insertCursor (id : ℕ) {c : CursorState} (hc : c.source.Inside g) :
    Lockstep (OpState.Beside g R)
      (Prog.modify fun s => { s with cursors := s.cursors.insert id c } : Prog _ IdbError Unit)
      (Prog.modify fun s => { s with cursors := s.cursors.insert id c }) := by
  refine lockstep_modify ?_
  rintro _ _ ⟨u, hu, rfl, rfl⟩
  refine ⟨{ u with cursors := u.cursors.insert id c }, ⟨hu.txn, fun id' c' hc' => ?_⟩, rfl, rfl⟩
  rw [OrderedMap.get?_insert] at hc'
  split at hc'
  · cases hc'
    exact hc
  · exact hu.cursors id' c' hc'

theorem lockstep_ifBackend {p p' : Prog σ IdbError Unit} (h : Lockstep R p p') :
    Lockstep (OpState.Beside g R) (ifBackend p) (ifBackend p') := by
  refine lockstep_readState fun u hu => ?_
  have hbeside : OpState.Beside g R (u.map Prod.fst) (u.map Prod.snd) := ⟨u, hu, rfl, rfl⟩
  obtain ⟨txn, cursors, next⟩ := u
  cases txn with
  | none => exact ⟨rfl, hbeside⟩
  | some t =>
      obtain ⟨finished, m, backend, keygens, bytesRead, written⟩ := t
      cases backend with
      | none => exact ⟨rfl, hbeside⟩
      | some b => exact lockstep_onBackend h _ _ hbeside

theorem lockstep_commitKeygen (id : StoreId) :
    Lockstep (TxnHandle.Beside g R) (commitKeygen id : Prog (TxnHandle σ) _ _)
      (commitKeygen id) := by
  refine lockstep_readHandle fun u hu => ?_
  have hbeside : TxnHandle.Beside g R (u.map Prod.fst) (u.map Prod.snd) := ⟨u, hu, rfl, rfl⟩
  dsimp only [TxnHandle.map]
  cases u.keygens.get? id with
  | none => exact ⟨rfl, hbeside⟩
  | some keygen =>
      exact ((lockstep_lift _).bind fun keygen =>
        lockstep_keygens fun keygens => keygens.insert id keygen) _ _ hbeside

end Beside

/-! ### Requests -/

section Requests

variable {σ : Type} [BackendTxn σ] {g : Region} {R : σ → σ → Prop} {env : CodecEnv}
  {limits : LimitConfig}

theorem local_putRecord (h : LocalTxn g R) {store : StoreMeta} (hstore : store.Inside g)
    (value : ScValue) (explicitKey : Option Key) (noOverwrite : Bool) :
    Lockstep (OpState.Beside g R) (putRecord env limits store value explicitKey noOverwrite)
      (putRecord env limits store value explicitKey noOverwrite) := by
  have hbase : Lockstep R (keygenBase store) (keygenBase store) := by
    refine (((h.keyGenCurrent store.id hstore.scope).mapErr _).attempt).bind fun found => ?_
    cases found <;> exact lockstep_pure _
  have hentry (base : F64Bits) : Lockstep (OpState.Beside g R) (keygenEntry store.id base)
      (keygenEntry store.id base) := by
    refine lockstep_onHandle (lockstep_readHandle fun u hu => ?_)
    have hbeside : TxnHandle.Beside g R (u.map Prod.fst) (u.map Prod.snd) := ⟨u, hu, rfl, rfl⟩
    dsimp only [TxnHandle.map]
    cases u.keygens.get? store.id with
    | some keygen => exact lockstep_pure keygen _ _ hbeside
    | none =>
        exact ((lockstep_keygens fun keygens => keygens.insert store.id _).bind fun _ =>
          lockstep_pure _) _ _ hbeside
  have hset (keygen : KeyGenerator) : Lockstep (OpState.Beside g R) (setKeygen store.id keygen)
      (setKeygen store.id keygen) :=
    lockstep_onHandle (lockstep_keygens fun keygens => keygens.insert store.id keygen)
  refine (lockstep_onBackend hbase).bind fun base => (hentry base).bind fun keygen => ?_
  refine (lockstep_onBackend (local_put h hstore _ _ _ _)).attempt.bind fun result => ?_
  cases result with
  | error e => exact (hset _).bind fun _ => lockstep_throw e
  | ok r => exact (hset _).bind fun _ => (lockstep_addBytesWritten _).bind fun _ => lockstep_pure _

theorem apply_source (c : CursorState) (action : CursorAction) :
    (c.apply action).source = c.source := by
  cases action with
  | «continue» key =>
      cases key with
      | none => rfl
      | some target => simp only [CursorState.apply]; split <;> rfl
  | _ => rfl

omit [BackendTxn σ] in
theorem local_cursorMove (cursorId : ℕ) (action : CursorAction) :
    Lockstep (OpState.Beside g R) (cursorMove cursorId action) (cursorMove cursorId action) := by
  refine lockstep_readState fun u hu => ?_
  have hbeside : OpState.Beside g R (u.map Prod.fst) (u.map Prod.snd) := ⟨u, hu, rfl, rfl⟩
  dsimp only [OpState.map]
  rcases hcursor : u.cursors.get? cursorId with _ | c
  · exact ⟨rfl, hbeside⟩
  · have hc : (c.apply action).source.Inside g := by
      rw [apply_source]
      exact hu.cursors cursorId c hcursor
    exact ((lockstep_insertCursor cursorId hc).bind fun _ => lockstep_pure _) _ _ hbeside

/-- A request that stays inside a region. -/
def PendingOp.Inside (limits : LimitConfig) (g : Region) : PendingOp → Prop
  | .get source _ | .count source _ | .getKey source _ | .getAll source _ _ _ => source.Inside g
  | .getAllRecords source range _ direction | .openCursor source range direction _ =>
      source.Inside g ∧ Bounded limits source range direction
  | .put store _ _ _ | .delete store _ | .clear store => store ∈ g.scope
  | .cursorOp _ _ => True

theorem local_executeOpInner (h : LocalTxn g R) (requestId : ℕ) {op : PendingOp}
    (hop : op.Inside limits g) :
    Lockstep (OpState.Beside g R) (executeOpInner env limits requestId op)
      (executeOpInner env limits requestId op) := by
  refine lockstep_openMetadata fun m hm => ?_
  cases op with
  | get source range =>
      refine (lockstep_onBackend (local_firstValue h hop)).bind fun r => ?_
      exact (lockstep_addBytesRead _).bind fun _ => lockstep_pure _
  | count source range =>
      refine (lockstep_lift _).bind fun encoded => ?_
      refine (lockstep_onBackend ((h.count source hop encoded).mapErr _)).bind fun count => ?_
      exact lockstep_pure _
  | getKey source range =>
      refine (lockstep_onBackend (local_firstKey h hop)).bind fun found => ?_
      cases found <;> exact lockstep_pure _
  | getAll source range limit keysOnly =>
      cases keysOnly with
      | true =>
          refine (lockstep_onBackend (local_collectKeys h hop limit)).bind fun keys => ?_
          exact lockstep_pure _
      | false =>
          refine (lockstep_onBackend (local_collectValues h hop limit)).bind fun r => ?_
          exact (lockstep_addBytesRead _).bind fun _ => lockstep_pure _
  | getAllRecords source range limit direction =>
      refine (lockstep_onBackend (local_materialize h hop.1 hop.2 false)).bind fun r => ?_
      exact (lockstep_addBytesRead _).bind fun _ => lockstep_pure _
  | put id value explicitKey noOverwrite =>
      exact lockstep_findStore hm hop fun store hstore => local_putRecord h hstore _ _ _
  | delete id range =>
      refine lockstep_findStore hm hop fun store hstore => (lockstep_lift _).bind fun encoded => ?_
      exact (lockstep_onBackend (local_delete h hstore encoded)).bind fun _ => lockstep_pure _
  | clear id =>
      refine lockstep_findStore hm hop fun store hstore => ?_
      exact (lockstep_onBackend (local_clear h hstore)).bind fun _ => lockstep_pure _
  | openCursor source range direction keyOnly =>
      have halloc : Lockstep (OpState.Beside g R) allocCursor allocCursor := by
        refine lockstep_readState fun u hu => ?_
        exact ⟨rfl, { u with nextCursorId := u.nextCursorId + 1 }, ⟨hu.txn, hu.cursors⟩, rfl, rfl⟩
      refine halloc.bind fun cursorId => ?_
      refine (lockstep_onBackend (local_materialize h hop.1 hop.2 keyOnly)).bind fun r => ?_
      refine (lockstep_addBytesRead _).bind fun _ => ?_
      exact (lockstep_insertCursor cursorId hop.1).bind fun _ => lockstep_pure _
  | cursorOp cursorId action =>
      cases action with
      | update value =>
          refine lockstep_cursorRow cursorId fun r hr => ?_
          refine lockstep_findStore hm (storeOf_inside hr) fun store hstore => ?_
          exact (lockstep_lift _).bind fun explicitKey => local_putRecord h hstore _ _ _
      | delete =>
          refine lockstep_cursorRow cursorId fun r hr => ?_
          refine lockstep_findStore hm (storeOf_inside hr) fun store hstore => ?_
          refine (lockstep_lift _).bind fun pk => ?_
          refine (lockstep_onBackend (local_delete h hstore (.only pk))).bind fun count => ?_
          exact lockstep_pure _
      | advance | «continue» | continuePrimaryKey => exact local_cursorMove cursorId _

/-- **A request that stays inside a region** is answered alike by backends that answer alike
there, and leaves them alike. -/
theorem local_executeOp (h : LocalTxn g R) (requestId : ℕ) {op : PendingOp}
    (hop : op.Inside limits g) :
    Lockstep (OpState.Beside g R) (executeOp env limits requestId op)
      (executeOp env limits requestId op) := by
  have hopen : Lockstep (OpState.Beside g R) (openSavepoints : Prog (OpState σ) _ _)
      openSavepoints :=
    (lockstep_onBackend (h.beginRequest.mapErr _)).bind fun _ =>
      lockstep_onHandle (lockstep_keygens _)
  have hcommit : Lockstep (OpState.Beside g R) (commitSavepoints : Prog (OpState σ) _ _)
      commitSavepoints := by
    refine (lockstep_ifBackend (h.commitRequest.mapErr _)).bind fun _ => lockstep_onHandle ?_
    refine lockstep_readHandle fun u hu => ?_
    exact lockstep_forEach u.keygens.keys (fun id _ => lockstep_commitKeygen id) _ _
      ⟨u, hu, rfl, rfl⟩
  have hrollback : Lockstep (OpState.Beside g R) (rollbackSavepoints : Prog (OpState σ) _ _)
      rollbackSavepoints :=
    (lockstep_ifBackend ((h.rollbackRequest.mapErr _).attempt.bind fun _ => lockstep_pure _)).bind
      fun _ => lockstep_onHandle (lockstep_keygens _)
  refine hopen.bind fun _ => (local_executeOpInner h requestId hop).attempt.bind fun result => ?_
  cases result with
  | ok result => exact hcommit.bind fun _ => lockstep_pure _
  | error e => exact hrollback.bind fun _ => lockstep_throw e

end Requests

end Driver

end BoaIdb
