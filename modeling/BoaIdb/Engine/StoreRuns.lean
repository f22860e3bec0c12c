import BoaIdb.Engine.Conflicts
import BoaIdb.Engine.Savepoints
import BoaIdb.Lib.Run

/-!
Transactions that are driven through the store operations.

Operations come inside requests that may nest. One that fails is followed by the rollback of
its request or by the end of the transaction, as the driver does it; until then the transaction
is spoiled.
-/

namespace BoaIdb.Engine

open Clone Faults LawfulTxn Runs

/-! ### Stores of one database -/

/-- The stores of a database. -/
structure StoreSchema where
  stores : List StoreMeta
  storeIds : (stores.map StoreMeta.id).Nodup
  /-- The ids of indexes are given once in a database. -/
  indexIds : (stores.flatMap fun store => store.liveIndexes.map IndexMeta.id).Nodup

namespace StoreSchema

variable {schema : StoreSchema} {store store' : StoreMeta} {index index' : IndexMeta}

theorem nodup_indexes (hstore : store ∈ schema.stores) :
    (store.liveIndexes.map IndexMeta.id).Nodup :=
  (List.nodup_flatMap.mp schema.indexIds).1 store hstore

/-- An index id tells the store and the index. -/
theorem index_unique (hstore : store ∈ schema.stores) (hstore' : store' ∈ schema.stores)
    (hindex : index ∈ store.liveIndexes) (hindex' : index' ∈ store'.liveIndexes)
    (hid : index.id = index'.id) : store = store' ∧ index = index' := by
  have hsame : store = store' := by
    by_contra hne
    have : Std.Symm (Function.onFun List.Disjoint fun store : StoreMeta =>
        store.liveIndexes.map IndexMeta.id) := ⟨fun _ _ h => List.Disjoint.symm h⟩
    have hdisjoint := (List.nodup_flatMap.mp schema.indexIds).2.forall hstore hstore' hne
    exact hdisjoint (List.mem_map_of_mem hindex) (hid ▸ List.mem_map_of_mem hindex')
  subst hsame
  exact ⟨rfl, List.inj_on_of_nodup_map (nodup_indexes hstore) hindex hindex' hid⟩

end StoreSchema

/-! ### Operations -/

/-- An operation of a store with its arguments. -/
inductive StoreCall
  | put (keygen : KeyGenerator) (value : ScValue) (explicitKey : Option Key) (noOverwrite : Bool)
  | delete (range : EncodedRange)
  | clear

/-- Its value is one that the converter makes. -/
def StoreCall.Storable : StoreCall → Prop
  | .put _ value _ _ => value.Storable
  | .delete _ => True
  | .clear => True

variable {σ : Type} [BackendTxn σ]

def StoreCall.run (env : CodecEnv) (limits : LimitConfig) (store : StoreMeta) :
    StoreCall → Prog σ IdbError Unit
  | .put keygen value explicitKey noOverwrite => do
      let _ ← Engine.put env limits store keygen value explicitKey noOverwrite
      pure ()
  | .delete range => do
      let _ ← Engine.delete store range
      pure ()
  | .clear => Engine.clear store

variable {env : CodecEnv} {limits : LimitConfig} {schema : StoreSchema}

theorem keeps_call {inv : σ → Prop} (h : OperationsKeep σ inv) (store : StoreMeta)
    (call : StoreCall) : Keeps inv (call.run env limits store : Prog σ IdbError Unit) := by
  cases call with
  | put keygen value explicitKey noOverwrite =>
      exact (keeps_put h keygen value explicitKey noOverwrite).bind fun _ => keeps_pure _
  | delete range => exact (keeps_delete h.toRowOperationsKeep range).bind fun _ => keeps_pure _
  | clear => exact keeps_clear h.toRowOperationsKeep

/-! ### One holder -/

/-- No key of a unique index has two holders. -/
def UniqueHeld (schema : StoreSchema) (w : View) : Prop :=
  ∀ store ∈ schema.stores, ∀ index ∈ store.liveIndexes, index.unique = true → w.OneHolder index.id

theorem UniqueHeld.anti {w w' : View} (h : UniqueHeld schema w)
    (hentries : ∀ k, w'.entries k → w.entries k) : UniqueHeld schema w' :=
  fun store hstore index hindex hunique key pk pk' hpk hpk' =>
    h store hstore index hindex hunique key pk pk' (hentries _ hpk) (hentries _ hpk')

/-- An entry that is not refused leaves one holder to each key. -/
theorem UniqueHeld.addEntry {w : View} (h : UniqueHeld schema w) {store : StoreMeta}
    {index : IndexMeta} (hstore : store ∈ schema.stores) (hindex : index ∈ store.liveIndexes)
    {key pk : Bytes} (hfree : ¬ (index.unique = true ∧ w.Taken ⟨index.id, key, pk⟩)) :
    UniqueHeld schema (w.addEntry ⟨index.id, key, pk⟩) := by
  intro store' hstore' index' hindex' hunique key' pk₁ pk₂ h₁ h₂
  have hold := h store' hstore' index' hindex' hunique
  -- the new entry and another one of its key
  have hnew {pk' : Bytes} (hid : index'.id = index.id) (hheld : w.entries ⟨index.id, key, pk'⟩) :
      pk' = pk := by
    obtain ⟨-, rfl⟩ := StoreSchema.index_unique hstore' hstore hindex' hindex hid
    by_cases hown : w.entries ⟨index'.id, key, pk⟩
    · exact hold key pk' pk hheld hown
    · exact absurd ⟨hunique, hown, pk', hheld⟩ hfree
  rcases h₁ with heq₁ | h₁
  · rcases h₂ with heq₂ | h₂
    · rw [IndexKey.mk.injEq] at heq₁ heq₂
      exact heq₁.2.2.trans heq₂.2.2.symm
    · rw [IndexKey.mk.injEq] at heq₁
      obtain ⟨hid, rfl, rfl⟩ := heq₁
      exact (hnew hid (hid ▸ h₂)).symm
  · rcases h₂ with heq₂ | h₂
    · rw [IndexKey.mk.injEq] at heq₂
      obtain ⟨hid, rfl, rfl⟩ := heq₂
      exact hnew hid (hid ▸ h₁)
    · exact hold key' pk₁ pk₂ h₁ h₂

section Unique

variable [LawfulTxn σ] {store : StoreMeta}

/-- A transaction whose unique indexes have one holder for each key. -/
abbrev UniqueIn (schema : StoreSchema) (s : σ) : Prop := UniqueHeld schema (view s)

/-- An operation that adds no entry. -/
theorem keeps_unique {α : Type} {p : Prog σ BackendError α}
    (h : ∀ s, Meets (· = s) p (fun _ s' => ∀ k, (view s').entries k → (view s).entries k)
      (fun e s' => e.isSome ∧ s' = s)) : Keeps (UniqueIn schema) p := by
  refine meets_of_forall fun s hs => (h s).mono (fun _ h => h) (fun _ _ hk => hs.anti hk) ?_
  rintro _ _ ⟨hsome, rfl⟩
  exact ⟨hsome, hs⟩

theorem keeps_unique_indexPut {index : IndexMeta} (hstore : store ∈ schema.stores)
    (hindex : index ∈ store.liveIndexes) (key pk : Bytes) :
    Keeps (UniqueIn schema) (BackendTxn.indexPut index.id key pk index.unique : Prog σ _ _) := by
  refine meets_of_forall fun s hs => ?_
  refine (LawfulTxn.indexPut s index.id key pk index.unique).mono (fun _ h => h) ?_ ?_
  · rintro _ s' ⟨hfree, hview⟩
    show UniqueHeld schema (view s')
    rw [hview]
    exact hs.addEntry hstore hindex hfree
  · rintro _ _ ⟨hsome, rfl⟩
    exact ⟨hsome, hs⟩

theorem keeps_unique_syncIndex {index : IndexMeta} (hstore : store ∈ schema.stores)
    (hindex : index ∈ store.liveIndexes) (old : Option ScValue) (new : ScValue) (pk : Bytes) :
    Keeps (UniqueIn schema) (syncIndex limits index old new pk : Prog σ _ _) := by
  refine (keeps_lift _).bind fun oldKeys => (keeps_lift _).bind fun newKeys => ?_
  refine (keeps_forEach (fun key => ?_) _).bind fun _ => keeps_forEach (fun key => ?_) _
  · refine (keeps_unique fun s => ?_).mapErr _
    refine (LawfulTxn.indexDelete s index.id key pk).mono (fun _ h => h) (fun _ s' hs' k hk => ?_)
      fun _ _ h => h
    rw [hs'] at hk
    exact hk.2
  · exact (keeps_unique_indexPut hstore hindex key pk).mapErr _

theorem keeps_unique_put (hstore : store ∈ schema.stores) (keygen : KeyGenerator) (value : ScValue)
    (explicitKey : Option Key) (noOverwrite : Bool) : Keeps (UniqueIn schema)
      (put env limits store keygen value explicitKey noOverwrite : Prog σ _ _) := by
  refine (keeps_lift _).bind fun determined => (keeps_lift _).bind fun pk => ?_
  refine ((keeps_unique fun s => ?_).mapErr _).bind fun existing => ?_
  · refine (LawfulTxn.get s store.id pk).mono (fun _ h => h) ?_ fun _ _ h => h
    rintro _ s' ⟨rfl, -⟩ k hk
    exact hk
  dsimp only
  split
  · exact keeps_throw _
  refine (keeps_lift _).bind fun old => Keeps.bind ?_ fun _ => ?_
  · refine (keeps_lift _).bind fun pk' => ?_
    -- every index of the loop is one of the store
    refine Meets.mono (meets_forEach (fun left s => (∀ index ∈ left, index ∈ store.liveIndexes) ∧
      UniqueIn schema s) (fun index left => Meets.of_imp fun hleft => ?_) store.liveIndexes)
        (fun s hs => ⟨fun _ h => h, hs⟩) (fun _ _ h => h.2) fun _ _ h => h
    refine Meets.mono (keeps_unique_syncIndex hstore (hleft index (.head _)) old determined.2.2 pk')
      (fun _ h => h) (fun _ _ hs => ⟨fun i hi => hleft i (.tail _ hi), hs⟩) fun _ _ h => h
  · refine (keeps_lift _).bind fun bytes => ?_
    refine ((keeps_unique fun s => ?_).mapErr _).bind fun _ =>
      ((keeps_unique fun s => ?_).mapErr _).bind fun _ => keeps_pure _
    · refine (LawfulTxn.put s store.id pk bytes noOverwrite).mono (fun _ h => h)
        (fun _ s' hs' k hk => ?_) fun _ _ h => h
      rwa [hs'] at hk
    · refine (LawfulTxn.keyGenSet s store.id _).mono (fun _ h => h) (fun _ s' hs' k hk => ?_)
        fun _ _ h => h
      rwa [hs'] at hk

theorem keeps_unique_collectRangeKeys (id : StoreId) (range : EncodedRange) :
    Keeps (UniqueIn schema) (collectRangeKeys id range : Prog σ _ _) := by
  refine ((keeps_unique fun s => ?_).mapErr _).bind fun _ => keeps_pure _
  refine (LawfulTxn.scanRows s id range true).mono (fun _ h => h) ?_ fun _ _ h => h
  rintro _ s' ⟨rfl, -⟩ k hk
  exact hk

theorem keeps_unique_deleteEntries (doomed : List Bytes) :
    Keeps (UniqueIn schema) (deleteEntries store doomed : Prog σ _ _) := by
  refine keeps_forEach (fun pk => keeps_forEach (fun index => ?_) _) _
  refine (keeps_unique fun s => ?_).mapErr _
  refine (LawfulTxn.indexDeleteByPrimary s index.id pk).mono (fun _ h => h)
    (fun _ s' hs' k hk => ?_) fun _ _ h => h
  rw [hs'] at hk
  exact hk.2

theorem keeps_unique_call (hstore : store ∈ schema.stores) (call : StoreCall) :
    Keeps (UniqueIn schema) (call.run env limits store : Prog σ IdbError Unit) := by
  cases call with
  | put keygen value explicitKey noOverwrite =>
      exact (keeps_unique_put hstore keygen value explicitKey noOverwrite).bind fun _ =>
        keeps_pure _
  | delete range =>
      refine Keeps.bind ((keeps_unique_collectRangeKeys store.id range).bind fun doomed => ?_)
        fun _ => keeps_pure _
      refine ((keeps_unique fun s => ?_).mapErr _).bind fun count =>
        (keeps_unique_deleteEntries doomed).bind fun _ => keeps_pure _
      refine (LawfulTxn.deleteRange s store.id range).mono (fun _ h => h) (fun _ s' hs' k hk => ?_)
        fun _ _ h => h
      rwa [hs'] at hk
  | clear =>
      refine (keeps_unique_collectRangeKeys store.id .all).bind fun doomed => ?_
      refine ((keeps_unique fun s => ?_).mapErr _).bind fun _ => keeps_unique_deleteEntries doomed
      refine (LawfulTxn.clear s store.id).mono (fun _ h => h) (fun _ s' hs' k hk => ?_)
        fun _ _ h => h
      rwa [hs'] at hk

end Unique

/-! ### All stores in step -/

/-- The records of every store and the entries of its live indexes are those of some values. -/
def InStep (env : CodecEnv) (limits : LimitConfig) (schema : StoreSchema) (w : View) : Prop :=
  ∃ values : StoreId → Bytes → Option ScValue, ∀ store ∈ schema.stores,
    Maintains env limits store w (values store.id)

theorem InStep.unique {w : View} (h : InStep env limits schema w) : UniqueHeld schema w := by
  obtain ⟨values, h⟩ := h
  exact fun store hstore => (h store hstore).oneHolder

theorem inStep_empty {w : View} (hrecords : ∀ k, w.records k = none)
    (hentries : ∀ k, ¬ w.entries k) :
    InStep env limits schema w := by
  refine ⟨fun _ _ => none, fun store _ => ⟨fun pk => .inl ⟨hrecords _, rfl⟩, fun index _ pk => ?_,
    fun index _ _ key pk pk' hpk _ => absurd hpk (hentries _), fun pk v hv => by cases hv⟩⟩
  refine ⟨[], rfl, fun key => iff_of_false (hentries _) List.not_mem_nil⟩

/-- A store whose rows are left alone. -/
theorem Maintains.framed {store : StoreMeta} {w w' : View} {values : Bytes → Option ScValue}
    (h : Maintains env limits store w values)
    (hrecords : ∀ pk, w'.records ⟨store.id, pk⟩ = w.records ⟨store.id, pk⟩)
    (hentries : ∀ index ∈ store.liveIndexes, ∀ key pk,
      w'.entries ⟨index.id, key, pk⟩ ↔ w.entries ⟨index.id, key, pk⟩) :
    Maintains env limits store w' values where
  records pk := by
    rw [hrecords]
    exact h.records pk
  entries index hindex pk := by
    obtain ⟨keys, hkeys, hown⟩ := h.entries index hindex pk
    exact ⟨keys, hkeys, fun key => (hentries index hindex key pk).trans (hown key)⟩
  oneHolder index hindex hunique key pk pk' hpk hpk' :=
    h.oneHolder index hindex hunique key pk pk' ((hentries index hindex key pk).mp hpk)
      ((hentries index hindex key pk').mp hpk')
  storable := h.storable

theorem InStep.changed {w w' : View} (h : InStep env limits schema w) {store : StoreMeta}
    (hstore : store ∈ schema.stores) {values : Bytes → Option ScValue}
    (hmaintains : Maintains env limits store w' values) (hframes : Frames store w w') :
    InStep env limits schema w' := by
  obtain ⟨before, h⟩ := h
  refine ⟨Function.update before store.id values, fun other hother => ?_⟩
  by_cases hid : other.id = store.id
  · obtain rfl : other = store :=
      List.inj_on_of_nodup_map schema.storeIds hother hstore hid
    rw [Function.update_self]
    exact hmaintains
  · rw [Function.update_of_ne hid]
    refine (h other hother).framed (fun pk => hframes.records _ hid) fun index hindex key pk => ?_
    refine hframes.entries _ fun hmem => ?_
    obtain ⟨index', hindex', heq⟩ := List.mem_map.mp hmem
    obtain ⟨rfl, -⟩ := StoreSchema.index_unique hother hstore hindex hindex' heq.symm
    exact hid rfl

theorem meets_call [LawfulTxn σ] (henv : env.Lawful) (hlimit : limits.maxValueLen < 2 ^ 64) {s : σ}
    (h : InStep env limits schema (view s)) {store : StoreMeta} (hstore : store ∈ schema.stores)
    {call : StoreCall} (hcall : call.Storable) :
    Meets (· = s) (call.run env limits store) (fun _ s' => InStep env limits schema (view s'))
      (fun e _ => e.isSome) := by
  have hstep := h
  obtain ⟨values, hvalues⟩ := h
  have hmaintains := hvalues store hstore
  cases call with
  | put keygen value explicitKey noOverwrite =>
      refine (meets_put henv hlimit (StoreSchema.nodup_indexes hstore) s hmaintains keygen hcall
        explicitKey noOverwrite).bind fun r => meets_pure ?_
      rintro s' ⟨pk, -, hafter, hframes⟩
      exact hstep.changed hstore hafter hframes
  | delete range =>
      refine (meets_delete s hmaintains range).bind fun r => meets_pure ?_
      rintro s' ⟨hafter, hframes⟩
      exact hstep.changed hstore hafter hframes
  | clear =>
      refine (meets_clear s hmaintains).mono (fun _ h => h) ?_ fun _ _ h => h
      rintro _ s' ⟨hafter, hframes⟩
      exact hstep.changed hstore hafter hframes

/-! ### Runs -/

/-- A database between its transactions, or an open transaction. -/
inductive TxnWorld (δ σ : Type)
  | idle (db : δ)
  /-- It is spoiled from an operation that fails to the rollback of the request. -/
  | running (txn : σ) (spoiled : Bool)

inductive TxnAct
  | begin
  | beginRequest
  | commitRequest
  | rollbackRequest
  | call (store : StoreMeta) (call : StoreCall)
  | commit
  | abort
  /-- Anything that leaves the committed rows alone. -/
  | between

section Worlds

variable {δ : Type} [LawfulSavepoints σ] [LawfulDatabase δ σ]

inductive TxnWorld.Step (env : CodecEnv) (limits : LimitConfig) (schema : StoreSchema) :
    TxnWorld δ σ → TxnAct → TxnWorld δ σ → Prop
  | begin {db : δ} {s : σ} (h : LawfulDatabase.Begins db s) :
      Step env limits schema (.idle db) .begin (.running s false)
  | beginRequest {s s' : σ} (h : BackendTxn.beginRequest s = (.done (), s')) :
      Step env limits schema (.running s false) .beginRequest (.running s' false)
  | commitRequest {s s' : σ} (h : BackendTxn.commitRequest s = (.done (), s')) :
      Step env limits schema (.running s false) .commitRequest (.running s' false)
  | rollbackRequest {s s' : σ} {spoiled : Bool}
      (h : BackendTxn.rollbackRequest s = (.done (), s')) :
      Step env limits schema (.running s spoiled) .rollbackRequest (.running s' false)
  | done {s s' : σ} {store : StoreMeta} {call : StoreCall} (hstore : store ∈ schema.stores)
      (hcall : call.Storable) (h : call.run env limits store s = (.done (), s')) :
      Step env limits schema (.running s false) (.call store call) (.running s' false)
  | failed {s s' : σ} {store : StoreMeta} {call : StoreCall} {e : IdbError}
      (hstore : store ∈ schema.stores) (h : call.run env limits store s = (.failed e, s')) :
      Step env limits schema (.running s false) (.call store call) (.running s' true)
  | commit {s : σ} {ok : Bool} {db : δ} (h : LawfulDatabase.Commits s ok db) :
      Step env limits schema (.running s false) .commit (.idle db)
  | abort {s : σ} {spoiled : Bool} {db : δ} (h : LawfulDatabase.Aborts s db) :
      Step env limits schema (.running s spoiled) .abort (.idle db)
  | between {db db' : δ}
      (h : LawfulDatabase.committed db' = LawfulDatabase.committed db) :
      Step env limits schema (.idle db) .between (.idle db')

/-- What holds of an open transaction. -/
structure Driven (env : CodecEnv) (limits : LimitConfig) (schema : StoreSchema) (s : σ)
    (spoiled : Bool) : Prop where
  valid : LawfulSavepoints.Valid s
  /-- What the rollbacks restore is in step. -/
  saved : ∀ w ∈ LawfulSavepoints.saved s, InStep env limits schema w.view
  base : InStep env limits schema (LawfulSavepoints.base s).view
  unique : UniqueIn schema s
  inStep : spoiled = false → InStep env limits schema (view s)

def TxnWorld.Inv (env : CodecEnv) (limits : LimitConfig) (schema : StoreSchema) :
    TxnWorld δ σ → Prop
  | .idle db => InStep env limits schema (LawfulDatabase.committed db).view
  | .running s spoiled => Driven env limits schema s spoiled

omit [LawfulDatabase δ σ] in
theorem Driven.call {s s' : σ} {store : StoreMeta} {call : StoreCall} {r : Exit IdbError Unit}
    (h : Driven env limits schema s false) (hstore : store ∈ schema.stores)
    (hrun : call.run env limits store s = (r, s'))
    (hstep : r = .done () → InStep env limits schema (view s')) (spoiled : Bool)
    (hspoiled : spoiled = false → r = .done ()) : Driven env limits schema s' spoiled := by
  have hsnapshots := (keeps_call (LawfulSavepoints.operations_keep _ _) store call).behind
    ⟨rfl, rfl⟩ hrun
  refine ⟨?_, ?_, ?_, ?_, fun hfine => hstep (hspoiled hfine)⟩
  · exact (keeps_call LawfulSavepoints.operations_valid store call).behind h.valid hrun
  · rw [hsnapshots.1]
    exact h.saved
  · rw [hsnapshots.2]
    exact h.base
  · exact (keeps_unique_call hstore call).behind h.unique hrun

theorem TxnWorld.Inv.step (henv : env.Lawful) (hlimit : limits.maxValueLen < 2 ^ 64)
    {w w' : TxnWorld δ σ} {a : TxnAct} (h : w.Inv env limits schema)
    (hstep : Step env limits schema w a w') : w'.Inv env limits schema := by
  -- the calls and the rollback move the rows, the requests what is saved
  cases hstep with
  | @begin db s hbegin =>
      obtain ⟨hvalid, hsnapshot, hsaved, hbase⟩ := LawfulDatabase.begins hbegin
      have hview : view s = (LawfulDatabase.committed db).view := congrArg Snapshot.view hsnapshot
      have hbegun : InStep env limits schema (view s) := by
        rw [hview]
        exact h
      refine ⟨hvalid, ?_, ?_, ?_, fun _ => ?_⟩
      · rw [hsaved]
        exact fun _ h => absurd h List.not_mem_nil
      · rw [hbase]
        exact h
      · exact hbegun.unique
      · exact hbegun
  | @beginRequest s s' hrun =>
      have hends := LawfulSavepoints.beginRequest s s rfl
      rw [hrun] at hends
      obtain ⟨hvalid, hsnapshot, hsaved, hbase⟩ := hends
      have hview : view s' = view s := congrArg Snapshot.view hsnapshot
      refine ⟨hvalid h.valid, ?_, ?_, ?_, fun _ => ?_⟩
      · rw [hsaved]
        intro w hw
        rcases List.mem_cons.mp hw with rfl | hw
        · exact h.inStep rfl
        · exact h.saved w hw
      · rw [hbase]
        exact h.base
      · show UniqueHeld schema (view s')
        rw [hview]
        exact h.unique
      · rw [hview]
        exact h.inStep rfl
  | @commitRequest s s' hrun =>
      have hends := LawfulSavepoints.commitRequest s s rfl
      rw [hrun] at hends
      obtain ⟨hvalid, hsnapshot, ⟨w, hsaved⟩, hbase⟩ := hends
      have hview : view s' = view s := congrArg Snapshot.view hsnapshot
      refine ⟨hvalid h.valid, fun w' hw' => h.saved w' ?_, ?_, ?_, fun _ => ?_⟩
      · rw [hsaved]
        exact .tail _ hw'
      · rw [hbase]
        exact h.base
      · show UniqueHeld schema (view s')
        rw [hview]
        exact h.unique
      · rw [hview]
        exact h.inStep rfl
  | @rollbackRequest s s' spoiled hrun =>
      have hends := LawfulSavepoints.rollbackRequest s s rfl
      rw [hrun] at hends
      obtain ⟨hvalid, hsaved, hbase⟩ := hends
      have hrestored : InStep env limits schema (view s') :=
        h.saved ⟨view s', LawfulSavepoints.generator s'⟩ (by rw [hsaved]; exact .head _)
      refine ⟨hvalid h.valid, fun w hw => h.saved w ?_, ?_, hrestored.unique, fun _ => hrestored⟩
      · rw [hsaved]
        exact .tail _ hw
      · rw [hbase]
        exact h.base
  | @done s s' store call hstore hcall hrun =>
      refine Driven.call h hstore hrun (fun _ => ?_) false fun _ => rfl
      have hends := meets_call henv hlimit (h.inStep rfl) hstore hcall s rfl
      rwa [hrun] at hends
  | failed hstore hrun =>
      exact Driven.call h hstore hrun (fun hdone => by cases hdone) true fun hfine => by cases hfine
  | @commit s ok db hcommit =>
      show InStep env limits schema (LawfulDatabase.committed db).view
      cases ok with
      | true =>
          rw [LawfulDatabase.commits_ok h.valid hcommit]
          exact h.inStep rfl
      | false =>
          rw [LawfulDatabase.commits_err hcommit]
          exact h.base
  | @abort s spoiled db habort =>
      show InStep env limits schema (LawfulDatabase.committed db).view
      rw [LawfulDatabase.aborts habort]
      exact h.base
  | @between db db' hsame =>
      show InStep env limits schema (LawfulDatabase.committed db').view
      rw [hsame]
      exact h

/-- Every key of a unique index has one holder. -/
def TxnWorld.Unique (schema : StoreSchema) : TxnWorld δ σ → Prop
  | .idle db => UniqueHeld schema (LawfulDatabase.committed db).view
  | .running s _ => UniqueIn schema s

theorem TxnWorld.Inv.unique {w : TxnWorld δ σ} (h : w.Inv env limits schema) : w.Unique schema := by
  cases w with
  | idle db => exact InStep.unique h
  | running s spoiled => exact Driven.unique h

section Puts

variable [LawfulRefusals σ]

/-- A put inside its request: it reports a constraint exactly for a conflict, and when it fails
the rollback of the request makes the state what it was. -/
def PutExact (env : CodecEnv) (limits : LimitConfig) (s : σ) (store : StoreMeta)
    (keygen : KeyGenerator) (value : ScValue) (explicitKey : Option Key) (noOverwrite : Bool) :
    Prop :=
  ∃ b, BackendTxn.beginRequest s = (.done (), b) ∧
    ∃ exit s', put env limits store keygen value explicitKey noOverwrite b = (exit, s') ∧
      ((∃ msg, exit = .failed (.constraint msg)) ↔
        PutConflict env limits store b keygen value explicitKey noOverwrite) ∧
      ∃ s'', BackendTxn.rollbackRequest s' = (.done (), s'') ∧ snapshot s'' = snapshot s ∧
        LawfulSavepoints.saved s'' = LawfulSavepoints.saved s

def TxnWorld.PutsExact (env : CodecEnv) (limits : LimitConfig) (schema : StoreSchema) :
    TxnWorld δ σ → Prop
  | .running s false => ∀ store ∈ schema.stores, ∀ keygen value explicitKey noOverwrite,
      PutExact env limits s store keygen value explicitKey noOverwrite
  | _ => True

omit [LawfulDatabase δ σ] in
theorem Driven.putExact (henv : env.Lawful) (hlimit : limits.maxValueLen < 2 ^ 64) {s : σ}
    (h : Driven env limits schema s false) {store : StoreMeta} (hstore : store ∈ schema.stores)
    (keygen : KeyGenerator) (value : ScValue) (explicitKey : Option Key) (noOverwrite : Bool) :
    PutExact env limits s store keygen value explicitKey noOverwrite := by
  have hbegin := LawfulSavepoints.beginRequest s s rfl
  rcases hbegun : BackendTxn.beginRequest s with ⟨_ | _ | _, b⟩
  · rw [hbegun] at hbegin
    obtain ⟨-, hsnapshot, hsaved, -⟩ := hbegin
    have hview : view b = view s := congrArg Snapshot.view hsnapshot
    obtain ⟨values, hvalues⟩ := h.inStep rfl
    rcases hrun : put env limits store keygen value explicitKey noOverwrite b with ⟨exit, s'⟩
    refine ⟨b, hbegun, exit, s', hrun, ?_, ?_⟩
    -- the reported constraint is the conflict
    · have hrefused := refused_put henv hlimit (StoreSchema.nodup_indexes hstore) b
        (hview ▸ hvalues store hstore) keygen value explicitKey noOverwrite b rfl
      rw [hrun] at hrefused
      cases exit with
      | done r =>
          refine iff_of_false ?_ hrefused
          rintro ⟨msg, hmsg⟩
          cases hmsg
      | failed e =>
          refine Iff.trans ?_ hrefused
          cases e with
          | constraint msg => exact iff_of_true ⟨msg, rfl⟩ rfl
          | _ =>
              refine iff_of_false ?_ Bool.false_ne_true
              rintro ⟨msg, hmsg⟩
              cases hmsg
      | stopped =>
          refine Iff.trans (iff_of_false ?_ Bool.false_ne_true) hrefused
          rintro ⟨msg, hmsg⟩
          cases hmsg
    · have hkept := (keeps_put (LawfulSavepoints.operations_keep _ _) keygen value explicitKey
        noOverwrite).behind ⟨rfl, rfl⟩ hrun
      have hrollback := LawfulSavepoints.rollbackRequest s' s' rfl
      -- the put leaves the snapshot of its request on top, for the rollback to take
      have hlevel : LawfulSavepoints.saved s' = snapshot s :: LawfulSavepoints.saved s :=
        hkept.1.trans hsaved
      rcases hrolled : BackendTxn.rollbackRequest s' with ⟨_ | _ | _, s''⟩
      · rw [hrolled] at hrollback
        obtain ⟨-, hrestored, -⟩ := hrollback
        rw [hlevel] at hrestored
        obtain ⟨hsame, hrest⟩ := List.cons.inj hrestored
        exact ⟨s'', rfl, hsame.symm, hrest.symm⟩
      · rw [hrolled] at hrollback
        cases hlevel.symm.trans hrollback.2.2
      · rw [hrolled] at hrollback
        cases hlevel.symm.trans hrollback.2.2
  · rw [hbegun] at hbegin
    exact hbegin.elim
  · rw [hbegun] at hbegin
    exact hbegin.elim

theorem TxnWorld.Inv.putsExact (henv : env.Lawful) (hlimit : limits.maxValueLen < 2 ^ 64)
    {w : TxnWorld δ σ} (h : w.Inv env limits schema) : w.PutsExact env limits schema := by
  cases w with
  | idle db => trivial
  | running s spoiled =>
      cases spoiled with
      | true => trivial
      | false =>
          intro store hstore keygen value explicitKey noOverwrite
          exact Driven.putExact henv hlimit h hstore keygen value explicitKey noOverwrite

theorem unique_run (henv : env.Lawful) (hlimit : limits.maxValueLen < 2 ^ 64)
    {start w : TxnWorld δ σ} {taken : List (TxnWorld δ σ × TxnAct)}
    (hstart : start.Inv env limits schema)
    (h : Run (TxnWorld.Step env limits schema) start taken w) :
    w.Unique schema ∧ w.PutsExact env limits schema := by
  have hinv : w.Inv env limits schema :=
    h.invariant hstart fun hinv hstep => TxnWorld.Inv.step henv hlimit hinv hstep
  exact ⟨hinv.unique, hinv.putsExact henv hlimit⟩

end Puts

end Worlds

theorem inv_start_memory (env : CodecEnv) (limits : LimitConfig) (schema : StoreSchema) :
    (.idle Rows.empty : TxnWorld Rows Memory.Session).Inv env limits schema := by
  show InStep env limits schema (LawfulDatabase.committed Rows.empty).view
  apply inStep_empty
  · intro k
    rfl
  · intro k h
    cases h

theorem inv_start_fs (env : CodecEnv) (limits : LimitConfig) (schema : StoreSchema)
    (name : Utf16String) :
    (.idle (Fs.freshSession name) : TxnWorld Fs.Session Fs.OpenTxn).Inv env limits schema := by
  show InStep env limits schema (LawfulDatabase.committed (Fs.freshSession name)).view
  apply inStep_empty
  · intro k
    rfl
  · intro k h
    cases h

/-- **Unique indexes**, on both backends: in every state that is reached through the store
operations each key has one holder, and each put reports a constraint exactly for a conflict. -/
theorem unique_indexes :
    (∀ (env : CodecEnv) (limits : LimitConfig) (schema : StoreSchema)
      (taken : List (TxnWorld Rows Memory.Session × TxnAct)) (w : TxnWorld Rows Memory.Session),
      env.Lawful → limits.maxValueLen < 2 ^ 64 →
      Run (TxnWorld.Step env limits schema) (.idle Rows.empty) taken w →
      w.Unique schema ∧ w.PutsExact env limits schema) ∧
    ∀ (env : CodecEnv) (limits : LimitConfig) (schema : StoreSchema) (name : Utf16String)
      (taken : List (TxnWorld Fs.Session Fs.OpenTxn × TxnAct)) (w : TxnWorld Fs.Session Fs.OpenTxn),
      env.Lawful → limits.maxValueLen < 2 ^ 64 →
      Run (TxnWorld.Step env limits schema) (.idle (Fs.freshSession name)) taken w →
      w.Unique schema ∧ w.PutsExact env limits schema :=
  ⟨fun env limits schema _ _ henv hlimit h =>
      unique_run henv hlimit (inv_start_memory env limits schema) h,
    fun env limits schema name _ _ henv hlimit h =>
      unique_run henv hlimit (inv_start_fs env limits schema name) h⟩

/-! ### A key that is too long -/

/-- A store with an index by name and a unique one by email. -/
def people : StoreMeta :=
  ⟨1, [], .empty, false, keyGenStart, [⟨1, 1, [], .single [0x6e], false, false, false⟩,
    ⟨2, 1, [], .single [0x65], true, false, false⟩], false⟩

def peopleSchema : StoreSchema := ⟨[people], by decide, by decide⟩

def shortKeys : LimitConfig := { maxKeyLen := 10 }

/-- Someone without a name, under the key 1. -/
def firstPut : StoreCall :=
  .put (.new keyGenStart) (.object [([0x65], .string [0x61])]) (some (.number keyGenStart)) false

theorem firstPut_storable : firstPut.Storable := by
  show ScValue.Storable (.object [([0x65], .string [0x61])])
  refine ScValue.everywhere_object.mpr ⟨by simp, fun kv hkv => ?_⟩
  obtain rfl := List.mem_singleton.mp hkv
  exact .intro ⟨trivial, trivial⟩ fun _ h => absurd h List.not_mem_nil

def peopleBegun : Memory.Session := ⟨.empty, .versionChange, [], emptyMeta [], .empty⟩

/-- The transaction behind the first put. -/
def peopleTxn : Memory.Session := (firstPut.run standardEnv shortKeys people peopleBegun).2

/-- Someone with the same email, and a name that is too long for a key. -/
def longName : ScValue :=
  .object [([0x6e], .string (List.replicate 20 0x61)), ([0x65], .string [0x61])]

theorem run_firstPut : ∃ taken, Run (TxnWorld.Step standardEnv shortKeys peopleSchema)
    (.idle Rows.empty) taken (.running peopleTxn false) :=
  ⟨_, (Run.start.step (.begin ⟨⟨emptyMeta []⟩, .versionChange, [], rfl⟩)).step
    (.done (.head _) firstPut_storable rfl)⟩

/-- A put whose email is taken is refused for its name. -/
theorem refused_for_data : ¬ ∀ (env : CodecEnv) (limits : LimitConfig) (schema : StoreSchema)
    (taken : List (TxnWorld Rows Memory.Session × TxnAct)) (s : Memory.Session),
    env.Lawful → limits.maxValueLen < 2 ^ 64 →
    Run (TxnWorld.Step env limits schema) (.idle Rows.empty) taken (.running s false) →
    ∀ store ∈ schema.stores, ∀ keygen value explicitKey noOverwrite b,
      BackendTxn.beginRequest s = (.done (), b) →
      ((∃ msg, (put env limits store keygen value explicitKey noOverwrite b).1 =
          .failed (.constraint msg)) ↔
        Exhausted store keygen value explicitKey ∨ ∃ key generated new pk,
          determineKey store keygen value explicitKey = .ok (key, generated, new) ∧
          encodeKey limits key = .ok pk ∧
            (noOverwrite = true ∧ (view b).records ⟨store.id, pk⟩ ≠ none ∨
              ∃ index ∈ store.liveIndexes, ∃ keys,
                indexKeysForValue limits index new = .ok keys ∧
                  Blocked (view b) pk index keys)) := by
  intro h
  obtain ⟨taken, hrun⟩ := run_firstPut
  obtain ⟨msg, hmsg⟩ := (h standardEnv shortKeys peopleSchema taken peopleTxn
    standardEnv_lawful (by decide) hrun people (.head _) (.new keyGenStart) longName
    (some (.number 0x4000000000000000)) false _ rfl).mpr
      (.inr ⟨_, _, _, _, rfl, rfl, .inr ⟨_, .tail _ (.head _), _, rfl, rfl, _, .head _,
        Key.tagNumber :: Key.encodeF64Orderable keyGenStart, by decide, rfl⟩⟩)
  cases hmsg

/-- Someone with a name of their own and the email of the first one, under the key 2. -/
def secondPut : StoreCall :=
  .put (.new keyGenStart) (.object [([0x6e], .string [0x62]), ([0x65], .string [0x61])])
    (some (.number 0x4000000000000000)) false

section People

variable {δ σ : Type} [BackendTxn σ]

/-- Behind a request that puts the first one. -/
def peopleAdded (s : σ) : σ :=
  (BackendTxn.commitRequest
    (firstPut.run standardEnv shortKeys people (BackendTxn.beginRequest s).2).2).2

/-- Behind a request whose put is refused and rolled back. -/
def peopleRefused (s : σ) : σ :=
  (BackendTxn.rollbackRequest
    (secondPut.run standardEnv shortKeys people (BackendTxn.beginRequest s).2).2).2

variable [LawfulSavepoints σ] [LawfulDatabase δ σ]

theorem run_people {db : δ} {s : σ} {msg : String} (hbegins : LawfulDatabase.Begins db s)
    (hbegin : (BackendTxn.beginRequest s).1 = .done ())
    (hput : (firstPut.run standardEnv shortKeys people (BackendTxn.beginRequest s).2).1 = .done ())
    (hcommit : (BackendTxn.commitRequest
      (firstPut.run standardEnv shortKeys people (BackendTxn.beginRequest s).2).2).1 = .done ())
    (hagain : (BackendTxn.beginRequest (peopleAdded s)).1 = .done ())
    (hrefused : (secondPut.run standardEnv shortKeys people
      (BackendTxn.beginRequest (peopleAdded s)).2).1 = .failed (.constraint msg))
    (hrollback : (BackendTxn.rollbackRequest (secondPut.run standardEnv shortKeys people
      (BackendTxn.beginRequest (peopleAdded s)).2).2).1 = .done ()) :
    ∃ taken, Run (TxnWorld.Step standardEnv shortKeys peopleSchema) (.idle db) taken
      (.running (peopleRefused (peopleAdded s)) false) :=
  ⟨_, ((((((Run.start.step (.begin hbegins)).step (.beginRequest (Prod.ext hbegin rfl))).step
    (.done (.head _) firstPut_storable (Prod.ext hput rfl))).step
    (.commitRequest (Prod.ext hcommit rfl))).step (.beginRequest (Prod.ext hagain rfl))).step
    (.failed (.head _) (Prod.ext hrefused rfl))).step (.rollbackRequest (Prod.ext hrollback rfl))⟩

end People

theorem run_people_memory : ∃ taken, Run (TxnWorld.Step standardEnv shortKeys peopleSchema)
    (.idle Rows.empty) taken (.running (peopleRefused (peopleAdded peopleBegun)) false) :=
  run_people ⟨⟨emptyMeta []⟩, .versionChange, [], rfl⟩ rfl rfl rfl rfl rfl rfl

def peopleBegunFs : Fs.OpenTxn :=
  .begin (Fs.freshSession []) .versionChange [] (emptyMeta []) .strict 8

theorem run_people_fs : ∃ taken, Run (TxnWorld.Step standardEnv shortKeys peopleSchema)
    (.idle (Fs.freshSession [])) taken
    (.running (peopleRefused (peopleAdded peopleBegunFs)) false) :=
  run_people ⟨_, _, _, _, _, rfl⟩ rfl rfl rfl rfl rfl rfl

/-- One put and one that is refused, on either backend. -/
theorem unique_firstPut :
    (∃ w : TxnWorld Rows Memory.Session,
      w = .running (peopleRefused (peopleAdded peopleBegun)) false ∧
      (∃ taken, Run (TxnWorld.Step standardEnv shortKeys peopleSchema) (.idle Rows.empty) taken w) ∧
      w.Unique peopleSchema ∧ w.PutsExact standardEnv shortKeys peopleSchema) ∧
    ∃ w : TxnWorld Fs.Session Fs.OpenTxn,
      w = .running (peopleRefused (peopleAdded peopleBegunFs)) false ∧
      (∃ taken, Run (TxnWorld.Step standardEnv shortKeys peopleSchema)
        (.idle (Fs.freshSession [])) taken w) ∧
      w.Unique peopleSchema ∧ w.PutsExact standardEnv shortKeys peopleSchema := by
  obtain ⟨taken, hmemory⟩ := run_people_memory
  obtain ⟨taken', hfs⟩ := run_people_fs
  exact ⟨⟨_, rfl, ⟨taken, hmemory⟩, unique_indexes.1 standardEnv shortKeys peopleSchema _ _
      standardEnv_lawful (by decide) hmemory⟩,
    ⟨_, rfl, ⟨taken', hfs⟩, unique_indexes.2 standardEnv shortKeys peopleSchema [] _ _
      standardEnv_lawful (by decide) hfs⟩⟩

end BoaIdb.Engine
