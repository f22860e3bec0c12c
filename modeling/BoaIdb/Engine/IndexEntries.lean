import BoaIdb.Engine.StoreRuns

/-!
Index entries in every state of the store runs.

The entries of a primary key are those of the value that its record encodes, but for the time
between an operation that fails and the rollback of its request.
-/

namespace BoaIdb.Engine

open Clone Faults LawfulTxn Runs

/-- The entries of a primary key in the live indexes of a store are those of a value. -/
def EntriesOf (limits : LimitConfig) (store : StoreMeta) (w : View) (pk : Bytes)
    (v : Option ScValue) : Prop :=
  ∀ index ∈ store.liveIndexes, ∃ keys, keysOf limits index v = .ok keys ∧
    ∀ key, w.entries ⟨index.id, key, pk⟩ ↔ key ∈ keys

/-- The entries of every live index are derived from the records of its store. -/
structure Derived (env : CodecEnv) (limits : LimitConfig) (store : StoreMeta) (w : View) :
    Prop where
  absent {pk : Bytes} (h : w.records ⟨store.id, pk⟩ = none) : EntriesOf limits store w pk none
  /-- The value that was encoded. -/
  written {pk bytes : Bytes} (h : w.records ⟨store.id, pk⟩ = some bytes) :
    ∃ v, encodeScf env limits v = .ok bytes ∧ EntriesOf limits store w pk (some v)
  /-- The value that is read. -/
  read {pk bytes : Bytes} {v : ScValue} (h : w.records ⟨store.id, pk⟩ = some bytes)
    (hread : decodeScf env limits bytes = .ok v) : EntriesOf limits store w pk (some v)

variable {env : CodecEnv} {limits : LimitConfig} {schema : StoreSchema}

theorem derived_of_maintains (henv : env.Lawful) (hlimit : limits.maxValueLen < 2 ^ 64)
    {store : StoreMeta} {w : View} {values : Bytes → Option ScValue}
    (h : Maintains env limits store w values) : Derived env limits store w where
  absent {pk} hnone index hindex := by
    rcases h.records pk with ⟨-, hvalue⟩ | ⟨v, bytes, -, -, hrecord⟩
    · rw [← hvalue]
      exact h.entries index hindex pk
    · cases hnone.symm.trans hrecord
  written {pk bytes} hsome := by
    rcases h.records pk with ⟨hnone, -⟩ | ⟨v, bytes', hvalue, hencode, hrecord⟩
    · cases hnone.symm.trans hsome
    · obtain rfl : bytes' = bytes := Option.some.inj (hrecord.symm.trans hsome)
      refine ⟨v, hencode, fun index hindex => ?_⟩
      rw [← hvalue]
      exact h.entries index hindex pk
  read {pk bytes v} hsome hread index hindex := by
    have hold : oldValueOf env limits (.string []) (w.records ⟨store.id, pk⟩) = .ok (some v) := by
      rw [hsome, oldValueOf, hread]
    rw [keysOf_oldValue henv hlimit h hold index]
    exact h.entries index hindex pk

section Worlds

variable {δ σ : Type} [BackendTxn σ] [LawfulSavepoints σ] [LawfulDatabase δ σ]

/-- Entries are derived from the records, but for a spoiled transaction. -/
def TxnWorld.IndexesDerived (env : CodecEnv) (limits : LimitConfig) (schema : StoreSchema) :
    TxnWorld δ σ → Prop
  | .idle db => ∀ store ∈ schema.stores,
      Derived env limits store (LawfulDatabase.committed db).view
  | .running s false => ∀ store ∈ schema.stores, Derived env limits store (view s)
  | .running _ true => True

theorem InStep.derived (henv : env.Lawful) (hlimit : limits.maxValueLen < 2 ^ 64) {w : View}
    (h : InStep env limits schema w) : ∀ store ∈ schema.stores, Derived env limits store w := by
  obtain ⟨values, h⟩ := h
  exact fun store hstore => derived_of_maintains henv hlimit (h store hstore)

theorem derived_run (henv : env.Lawful) (hlimit : limits.maxValueLen < 2 ^ 64)
    {start w : TxnWorld δ σ} {taken : List (TxnWorld δ σ × TxnAct)}
    (hstart : start.Inv env limits schema)
    (h : Run (TxnWorld.Step env limits schema) start taken w) :
    w.IndexesDerived env limits schema := by
  have hinv : w.Inv env limits schema :=
    h.invariant hstart fun hinv hstep => TxnWorld.Inv.step henv hlimit hinv hstep
  cases w with
  | idle db => exact InStep.derived henv hlimit hinv
  | running s spoiled =>
      cases spoiled with
      | true => trivial
      | false => exact InStep.derived henv hlimit (Driven.inStep hinv rfl)

end Worlds

/-- **Index consistency**, on both backends. -/
theorem indexes_derived :
    (∀ (env : CodecEnv) (limits : LimitConfig) (schema : StoreSchema)
      (taken : List (TxnWorld Rows Memory.Session × TxnAct)) (w : TxnWorld Rows Memory.Session),
      env.Lawful → limits.maxValueLen < 2 ^ 64 →
      Run (TxnWorld.Step env limits schema) (.idle Rows.empty) taken w →
      w.IndexesDerived env limits schema) ∧
    ∀ (env : CodecEnv) (limits : LimitConfig) (schema : StoreSchema) (name : Utf16String)
      (taken : List (TxnWorld Fs.Session Fs.OpenTxn × TxnAct)) (w : TxnWorld Fs.Session Fs.OpenTxn),
      env.Lawful → limits.maxValueLen < 2 ^ 64 →
      Run (TxnWorld.Step env limits schema) (.idle (Fs.freshSession name)) taken w →
      w.IndexesDerived env limits schema :=
  ⟨fun env limits schema _ _ henv hlimit h =>
      derived_run henv hlimit (inv_start_memory env limits schema) h,
    fun env limits schema name _ _ henv hlimit h =>
      derived_run henv hlimit (inv_start_fs env limits schema name) h⟩

/-- One put and one that is refused, on either backend. -/
theorem indexes_derived_firstPut :
    (∃ w : TxnWorld Rows Memory.Session,
      w = .running (peopleRefused (peopleAdded peopleBegun)) false ∧
      (∃ taken, Run (TxnWorld.Step standardEnv shortKeys peopleSchema) (.idle Rows.empty) taken w) ∧
      w.IndexesDerived standardEnv shortKeys peopleSchema) ∧
    ∃ w : TxnWorld Fs.Session Fs.OpenTxn,
      w = .running (peopleRefused (peopleAdded peopleBegunFs)) false ∧
      (∃ taken, Run (TxnWorld.Step standardEnv shortKeys peopleSchema)
        (.idle (Fs.freshSession [])) taken w) ∧
      w.IndexesDerived standardEnv shortKeys peopleSchema := by
  obtain ⟨taken, hmemory⟩ := run_people_memory
  obtain ⟨taken', hfs⟩ := run_people_fs
  exact ⟨⟨_, rfl, ⟨taken, hmemory⟩, indexes_derived.1 standardEnv shortKeys peopleSchema _ _
      standardEnv_lawful (by decide) hmemory⟩,
    ⟨_, rfl, ⟨taken', hfs⟩, indexes_derived.2 standardEnv shortKeys peopleSchema [] _ _
      standardEnv_lawful (by decide) hfs⟩⟩

/-! ### Behind a failure -/

/-- The name is indexed before the email is refused. -/
theorem dangling_name : ¬ ∀ (env : CodecEnv) (limits : LimitConfig) (schema : StoreSchema)
    (taken : List (TxnWorld Rows Memory.Session × TxnAct)) (s : Memory.Session) (spoiled : Bool),
    env.Lawful → limits.maxValueLen < 2 ^ 64 →
    Run (TxnWorld.Step env limits schema) (.idle Rows.empty) taken (.running s spoiled) →
    ∀ store ∈ schema.stores, Derived env limits store (view s) := by
  intro h
  obtain ⟨taken, hrun⟩ := run_firstPut
  have hfailed : TxnWorld.Step standardEnv shortKeys peopleSchema (.running peopleTxn false)
      (.call people secondPut) _ := .failed (δ := Rows) (.head _) rfl
  have hderived := h standardEnv shortKeys peopleSchema _ _ _ standardEnv_lawful (by decide)
    (hrun.step hfailed) people (.head _)
  have hnone : (view (secondPut.run standardEnv shortKeys people peopleTxn).2).records
      ⟨1, Key.tagNumber :: Key.encodeF64Orderable 0x4000000000000000⟩ = none := rfl
  obtain ⟨keys, hkeys, hentries⟩ := hderived.absent hnone _ (.head _)
  obtain rfl := Except.ok.inj hkeys
  exact absurd ((hentries (Key.tagString :: Key.encodeStringCesu8 [0x62])).mp rfl) List.not_mem_nil

end BoaIdb.Engine
