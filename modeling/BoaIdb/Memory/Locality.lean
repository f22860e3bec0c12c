import BoaIdb.Backend.Regions
import BoaIdb.Lib.Lockstep

/-!
The operations of a memory transaction read and write inside its scope.

Run over committed rows that are the same in the scope they answer alike and leave the transaction
alike.
-/

namespace BoaIdb

open Faults OrdMap

namespace Memory

variable {schema : DatabaseMeta} {mode : TxnMode} {g : Region} {base base' : Rows}
  {t t' : MemoryTxn}

/-- A transaction of a scope; one that only reads has written nothing. -/
structure MemoryTxn.Fit (schema : DatabaseMeta) (mode : TxnMode) (g : Region) (t : MemoryTxn) :
    Prop where
  normal : mode ≠ .versionChange
  mode_eq : t.mode = mode
  scope_eq : t.scope = g.scope
  metadata_eq : t.metadata = schema
  inside : t.pending.Inside g
  untouched : mode = .readOnly → t.pending.Untouched

namespace MemoryTxn

theorem Fit.scope_iff (h : t.Fit schema mode g) {store : StoreId} :
    t.checkScope store = .ok () ↔ store ∈ g.scope := by
  unfold checkScope
  rw [h.mode_eq, h.scope_eq]
  split
  · next hin => exact ⟨fun _ => hin.resolve_left h.normal, fun _ => rfl⟩
  · next hout =>
      constructor
      · intro herror
        cases herror
      · exact fun hin => absurd (.inr hin) hout

/-- A write is behind its check. -/
theorem Fit.write (h : t.Fit schema mode g) (hcheck : t.checkReadwrite = .ok ()) {p : Pending}
    (hp : p.Inside g) : Fit schema mode g { t with pending := p } where
  normal := h.normal
  mode_eq := h.mode_eq
  scope_eq := h.scope_eq
  metadata_eq := h.metadata_eq
  inside := hp
  untouched hread := absurd (h.mode_eq.trans hread) (writable hcheck)

end MemoryTxn

namespace Session

/-- The same transaction over two lots of rows. -/
def Beside (schema : DatabaseMeta) (mode : TxnMode) (g : Region) (base base' : Rows)
    (s s' : Session) : Prop :=
  ∃ t : MemoryTxn, t.Fit schema mode g ∧ s = ⟨base, t⟩ ∧ s' = ⟨base', t⟩

theorem lockstep_onTxn {f : Rows → MemoryTxn → Except BackendError MemoryTxn}
    (h : ∀ t : MemoryTxn, t.Fit schema mode g → f base t = f base' t ∧
      ∀ t', f base t = .ok t' → t'.Fit schema mode g) :
    Lockstep (Beside schema mode g base base') (onTxn f) (onTxn f) := by
  refine lockstep_call ?_
  rintro _ _ ⟨t, hfit, rfl, rfl⟩
  obtain ⟨hsame, hkept⟩ := h t hfit
  dsimp only
  rw [← hsame]
  cases hrun : f base t with
  | error e => exact .inl ⟨e, rfl, rfl⟩
  | ok t' => exact .inr ⟨(), _, _, rfl, rfl, t', hkept t' hrun, rfl, rfl⟩

theorem lockstep_onTxnWith {α : Type} {f : Rows → MemoryTxn → Except BackendError (MemoryTxn × α)}
    (h : ∀ t : MemoryTxn, t.Fit schema mode g → f base t = f base' t ∧
      ∀ t' a, f base t = .ok (t', a) → t'.Fit schema mode g) :
    Lockstep (Beside schema mode g base base') (onTxnWith f) (onTxnWith f) := by
  refine lockstep_call ?_
  rintro _ _ ⟨t, hfit, rfl, rfl⟩
  obtain ⟨hsame, hkept⟩ := h t hfit
  dsimp only
  rw [← hsame]
  cases hrun : f base t with
  | error e => exact .inl ⟨e, rfl, rfl⟩
  | ok r => exact .inr ⟨r.2, _, _, rfl, rfl, r.1, hkept r.1 r.2 hrun, rfl, rfl⟩

theorem lockstep_askTxn {α : Type} {f : Rows → MemoryTxn → Except BackendError α}
    (h : ∀ t : MemoryTxn, t.Fit schema mode g → f base t = f base' t) :
    Lockstep (Beside schema mode g base base') (askTxn f) (askTxn f) := by
  refine lockstep_call ?_
  rintro _ _ ⟨t, hfit, rfl, rfl⟩
  dsimp only
  rw [← h t hfit]
  cases f base t with
  | error e => exact .inl ⟨e, rfl, rfl⟩
  | ok a => exact .inr ⟨a, _, _, rfl, rfl, t, hfit, rfl, rfl⟩

end Session

/-! ### Operations -/

section Operations

open MemoryTxn

/-- What follows on a check of the scope may rely on it. -/
theorem bind_scope {α : Type} (hfit : t.Fit schema mode g) {store : StoreId}
    {k k' : Unit → Except BackendError α} (h : store ∈ g.scope → k () = k' ()) :
    (t.checkScope store >>= k) = (t.checkScope store >>= k') := by
  cases hcheck : t.checkScope store with
  | error e => rfl
  | ok u => exact h (hfit.scope_iff.mp hcheck)

theorem bind_readwrite {α : Type} {k k' : Unit → Except BackendError α} (h : k () = k' ()) :
    (t.checkReadwrite >>= k) = (t.checkReadwrite >>= k') := by
  cases t.checkReadwrite with
  | error e => rfl
  | ok u => exact h

variable (h : Rows.Agree g base base')

theorem lockstep_beginRequest : Lockstep (Session.Beside schema mode g base base')
    BackendTxn.beginRequest BackendTxn.beginRequest := by
  refine Session.lockstep_onTxn fun t hfit => ⟨rfl, fun t' ht' => ?_⟩
  cases ht'
  exact ⟨hfit.normal, hfit.mode_eq, hfit.scope_eq, hfit.metadata_eq, hfit.inside.beginRequest,
    fun hread => (hfit.untouched hread).beginRequest⟩

theorem lockstep_commitRequest : Lockstep (Session.Beside schema mode g base base')
    BackendTxn.commitRequest BackendTxn.commitRequest := by
  refine Session.lockstep_onTxn fun t hfit => ⟨rfl, fun t' ht' => ?_⟩
  obtain ⟨p, hp, ht'⟩ := bind_ok ht'
  cases ht'
  exact ⟨hfit.normal, hfit.mode_eq, hfit.scope_eq, hfit.metadata_eq, hfit.inside.commitRequest hp,
    fun hread => (hfit.untouched hread).commitRequest hp⟩

theorem lockstep_rollbackRequest : Lockstep (Session.Beside schema mode g base base')
    BackendTxn.rollbackRequest BackendTxn.rollbackRequest := by
  refine Session.lockstep_onTxn fun t hfit => ⟨rfl, fun t' ht' => ?_⟩
  obtain ⟨p, hp, ht'⟩ := bind_ok ht'
  cases ht'
  exact ⟨hfit.normal, hfit.mode_eq, hfit.scope_eq, hfit.metadata_eq, hfit.inside.rollbackRequest hp,
    fun hread => (hfit.untouched hread).rollbackRequest hp⟩

include h

theorem lockstep_put (store : StoreId) (key val : Bytes) (noOverwrite : Bool) :
    Lockstep (Session.Beside schema mode g base base') (BackendTxn.put store key val noOverwrite)
      (BackendTxn.put store key val noOverwrite) := by
  refine Session.lockstep_onTxn fun t hfit => ⟨?_, fun t' ht' => ?_⟩
  · refine bind_scope hfit fun hstore => bind_readwrite ?_
    rw [Pending.put_agree h hstore]
  · obtain ⟨_, hscope, ht'⟩ := bind_ok ht'
    obtain ⟨_, hmode, ht'⟩ := bind_ok ht'
    obtain ⟨p, hp, ht'⟩ := bind_ok ht'
    cases ht'
    exact hfit.write hmode (hfit.inside.put (hfit.scope_iff.mp hscope) hp)

theorem lockstep_get (store : StoreId) (key : Bytes) :
    Lockstep (Session.Beside schema mode g base base') (BackendTxn.get store key)
      (BackendTxn.get store key) := by
  refine Session.lockstep_askTxn fun t hfit => bind_scope hfit fun hstore => ?_
  rw [Pending.readRecord_agree h hstore]

theorem lockstep_deleteRange (store : StoreId) (range : EncodedRange) :
    Lockstep (Session.Beside schema mode g base base') (BackendTxn.deleteRange store range)
      (BackendTxn.deleteRange store range) := by
  refine Session.lockstep_onTxnWith fun t hfit => ⟨?_, fun t' a ht' => ?_⟩
  · refine bind_scope hfit fun hstore => bind_readwrite ?_
    rw [Pending.deleteRange_agree h hstore]
  · obtain ⟨_, hscope, ht'⟩ := bind_ok ht'
    obtain ⟨_, hmode, ht'⟩ := bind_ok ht'
    cases ht'
    exact hfit.write hmode (hfit.inside.deleteRange (hfit.scope_iff.mp hscope) range)

theorem lockstep_clear (store : StoreId) :
    Lockstep (Session.Beside schema mode g base base') (BackendTxn.clear store)
      (BackendTxn.clear store) := by
  refine Session.lockstep_onTxn fun t hfit => ⟨?_, fun t' ht' => ?_⟩
  · refine bind_scope hfit fun hstore => bind_readwrite ?_
    rw [Pending.clear_agree h hstore]
  · obtain ⟨_, hscope, ht'⟩ := bind_ok ht'
    obtain ⟨_, hmode, ht'⟩ := bind_ok ht'
    cases ht'
    exact hfit.write hmode (hfit.inside.clear (hfit.scope_iff.mp hscope))

/-- An index whose store is not in the scope is refused with its store. -/
theorem lockstep_count {src : SourceRef} (hsrc : src.Inside g) (range : EncodedRange) :
    Lockstep (Session.Beside schema mode g base base') (BackendTxn.count src range)
      (BackendTxn.count src range) := by
  refine Session.lockstep_askTxn fun t hfit => bind_scope hfit fun _ => ?_
  rw [Pending.count_agree h hsrc]

/-- A walk that starts at a bound, or goes forward. -/
theorem lockstep_scanRows {src : SourceRef} (hsrc : src.Inside g) {range : EncodedRange}
    {dir : Direction} (hbounded : src.bounded range dir = true) (keyOnly : Bool) :
    Lockstep (Session.Beside schema mode g base base') (BackendTxn.scanRows src range dir keyOnly)
      (BackendTxn.scanRows src range dir keyOnly) := by
  rintro _ _ ⟨t, hfit, rfl, rfl⟩
  have hscope : t.checkScope src.storeId = .ok () := by
    refine hfit.scope_iff.mpr ?_
    cases src with
    | store id => exact hsrc
    | index id idx => exact hsrc.1
  have hrun (rows : Rows) : (BackendTxn.scanRows src range dir keyOnly : Prog Session _ _)
      ⟨rows, t⟩ = (.done ((t.pending.cursorMaps rows).rows src range dir keyOnly), ⟨rows, t⟩) := by
    have hscan : t.scan rows src range dir keyOnly =
        .ok (Cursor.scan (t.pending.cursorMaps rows) src range dir keyOnly) := by
      rw [MemoryTxn.scan, hscope]
      rfl
    have hask : Session.askTxn (fun base t => t.scan base src range dir keyOnly) ⟨rows, t⟩ =
        (.done (Cursor.scan (t.pending.cursorMaps rows) src range dir keyOnly), ⟨rows, t⟩) :=
      Prog.call_ok (by
        change ((t.scan rows src range dir keyOnly).map fun a => (a, (⟨rows, t⟩ : Session))) = _
        rw [hscan]
        rfl)
    refine Prog.bind_done hask ?_
    rw [Cursor.visitRows_eq (Pending.visit_bounded hbounded keyOnly)]
    rfl
  rw [hrun, hrun, Pending.rows_agree h hsrc]
  exact ⟨rfl, t, hfit, rfl, rfl⟩

theorem lockstep_keyGenCurrent {store : StoreId} (hstore : store ∈ g.scope) :
    Lockstep (Session.Beside schema mode g base base') (BackendTxn.keyGenCurrent store)
      (BackendTxn.keyGenCurrent store) := by
  refine Session.lockstep_askTxn fun t _ => ?_
  exact congrArg Except.ok (Pending.keyGenCurrent_agree h hstore)

theorem lockstep_keyGenSet {store : StoreId} (hstore : store ∈ g.scope) (value : F64Bits) :
    Lockstep (Session.Beside schema mode g base base') (BackendTxn.keyGenSet store value)
      (BackendTxn.keyGenSet store value) := by
  refine Session.lockstep_onTxn fun t hfit => ⟨bind_readwrite ?_, fun t' ht' => ?_⟩
  · rw [Pending.keyGenSet_agree h hstore]
  · obtain ⟨_, hmode, ht'⟩ := bind_ok ht'
    cases ht'
    exact hfit.write hmode (hfit.inside.keyGenSet hstore value)

theorem lockstep_indexPut {index : IndexId} (hindex : g.owner index ∈ g.scope)
    (idxKey primaryKey : Bytes) (unique : Bool) :
    Lockstep (Session.Beside schema mode g base base')
      (BackendTxn.indexPut index idxKey primaryKey unique)
      (BackendTxn.indexPut index idxKey primaryKey unique) := by
  refine Session.lockstep_onTxn fun t hfit => ⟨bind_readwrite ?_, fun t' ht' => ?_⟩
  · rw [Pending.indexPut_agree h (k := ⟨index, idxKey, primaryKey⟩) hindex]
  · obtain ⟨_, hmode, ht'⟩ := bind_ok ht'
    obtain ⟨p, hp, ht'⟩ := bind_ok ht'
    cases ht'
    exact hfit.write hmode (hfit.inside.indexPut hindex hp)

theorem lockstep_indexDeleteByPrimary {index : IndexId} (hindex : g.owner index ∈ g.scope)
    (primaryKey : Bytes) :
    Lockstep (Session.Beside schema mode g base base')
      (BackendTxn.indexDeleteByPrimary index primaryKey)
      (BackendTxn.indexDeleteByPrimary index primaryKey) := by
  refine Session.lockstep_onTxn fun t hfit => ⟨bind_readwrite ?_, fun t' ht' => ?_⟩
  · rw [Pending.indexDeleteByPrimary_agree h hindex]
  · obtain ⟨_, hmode, ht'⟩ := bind_ok ht'
    cases ht'
    exact hfit.write hmode (hfit.inside.indexDeleteByPrimary hindex primaryKey)

omit h in
theorem lockstep_indexDelete {index : IndexId} (hindex : g.owner index ∈ g.scope)
    (idxKey primaryKey : Bytes) :
    Lockstep (Session.Beside schema mode g base base')
      (BackendTxn.indexDelete index idxKey primaryKey)
      (BackendTxn.indexDelete index idxKey primaryKey) := by
  refine Session.lockstep_onTxn fun t hfit => ⟨rfl, fun t' ht' => ?_⟩
  obtain ⟨_, hmode, ht'⟩ := bind_ok ht'
  cases ht'
  exact hfit.write hmode (hfit.inside.setIndexEntry hindex false)

end Operations

end Memory

end BoaIdb
