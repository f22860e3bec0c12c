import BoaIdb.Driver.BackfillShapes
import BoaIdb.Memory.Backend

/-!
The creation of an index behind the puts of its store, next to the same puts on a store that
has the index already.
-/

namespace BoaIdb

open Clone Engine Faults

/-- The store once the index is created. -/
def StoreMeta.withIndex (store : StoreMeta) (index : IndexMeta) : StoreMeta :=
  { store with indexes := store.indexes ++ [index] }

theorem StoreMeta.liveIndexes_withIndex (store : StoreMeta) {index : IndexMeta}
    (h : index.deleted = false) :
    (store.withIndex index).liveIndexes = store.liveIndexes ++ [index] := by
  simp [liveIndexes, withIndex, List.filter_append, h]

namespace Driver

open LawfulTxn

/-! ### Puts in a row -/

/-- The arguments of a put, or of an add. -/
structure PutCall where
  value : ScValue
  explicitKey : Option Key
  noOverwrite : Bool

section Puts

variable {σ : Type} [BackendTxn σ] (env : CodecEnv) (limits : LimitConfig) (store : StoreMeta)

/-- The keys and the values that were written. -/
def putAll : KeyGenerator → List PutCall → Prog σ IdbError (List (Key × ScValue))
  | _, [] => pure []
  | keygen, call :: calls => do
      let r ← put env limits store keygen call.value call.explicitKey call.noOverwrite
      let written ← putAll r.2.1 calls
      pure ((r.1.key, r.2.2) :: written)

/-- The same keys and values, which no index has a part in. -/
def determined (store : StoreMeta) : KeyGenerator → List PutCall →
    Except IdbError (List (Key × ScValue))
  | _, [] => .ok []
  | keygen, call :: calls => do
      let (key, generated, value) ← determineKey store keygen call.value call.explicitKey
      let written ← determined store (generated.possiblyUpdate (keyToF64 key)) calls
      .ok ((key, value) :: written)

end Puts

theorem determined_withIndex (store : StoreMeta) (index : IndexMeta) (keygen : KeyGenerator)
    (calls : List PutCall) :
    determined (store.withIndex index) keygen calls = determined store keygen calls := by
  induction calls generalizing keygen with
  | nil => rfl
  | cons call calls ih =>
      rw [determined, determined]
      simp only [ih]
      rfl

/-- A value takes the place of the one under its key. -/
def record (limits : LimitConfig) (values : Bytes → Option ScValue) (kv : Key × ScValue) :
    Bytes → Option ScValue :=
  match kv.1.encodeKey limits with
  | .ok pk => Function.update values pk (some kv.2)
  | .error _ => values

/-- The last value written under each encoded key. -/
def latest (limits : LimitConfig) (written : List (Key × ScValue)) : Bytes → Option ScValue :=
  written.foldl (record limits) fun _ => none

section Lawful

variable {σ : Type} [BackendTxn σ] [LawfulTxn σ] {env : CodecEnv} {limits : LimitConfig}
  {store : StoreMeta} {index : IndexMeta}

theorem meets_putAll (henv : env.Lawful) (hlimit : limits.maxValueLen < 2 ^ 64)
    (hnodup : (store.liveIndexes.map IndexMeta.id).Nodup) {calls : List PutCall}
    (hcalls : ∀ call ∈ calls, call.value.Storable) (keygen : KeyGenerator) (s : σ)
    {values : Bytes → Option ScValue} (h : Maintains env limits store (view s) values) :
    Meets (· = s) (putAll env limits store keygen calls)
      (fun written s' => determined store keygen calls = .ok written ∧
        Maintains env limits store (view s') (written.foldl (record limits) values))
      (fun e _ => e.isSome) := by
  induction calls generalizing keygen s values with
  | nil =>
      refine meets_pure fun s' hs => ?_
      rw [hs]
      exact ⟨rfl, h⟩
  | cons call calls ih =>
      refine (meets_put henv hlimit hnodup s h keygen (hcalls call (by simp)) call.explicitKey
        call.noOverwrite).bind fun r => meets_of_forall fun t ht => ?_
      obtain ⟨pk, ⟨⟨generated, hkey, hkeygen⟩, hpk⟩, hmaintains, -⟩ := ht
      have hvalues : record limits values (r.1.key, r.2.2) =
          Function.update values pk (some r.2.2) := by
        rw [record, mapError_ok hpk]
      rw [← hvalues] at hmaintains
      refine (ih (fun c hc => hcalls c (.tail _ hc)) r.2.1 t hmaintains).bind fun written => ?_
      refine meets_pure fun u hu => ⟨?_, hu.2⟩
      rw [determined, hkey]
      show (determined store (generated.possiblyUpdate (keyToF64 r.1.key)) calls >>= _) = _
      rw [← hkeygen, hu.1]
      rfl

/-! ### The index that is wanted -/

/-- The store has no record and its indexes have no entry. -/
structure Fresh (store : StoreMeta) (w : View) : Prop where
  records : ∀ pk, w.records ⟨store.id, pk⟩ = none
  entries : ∀ index ∈ store.liveIndexes, ∀ key pk, ¬ w.entries ⟨index.id, key, pk⟩

theorem Fresh.maintains {w : View} (h : Fresh store w) :
    Maintains env limits store w fun _ => none where
  records pk := .inl ⟨h.records pk, rfl⟩
  entries index hindex pk := ⟨[], rfl, fun key => by simp [h.entries index hindex key pk]⟩
  oneHolder index hindex _ key pk _ hheld _ := absurd hheld (h.entries index hindex key pk)
  storable _ _ hv := by cases hv

/-- The index key is one of the value under the primary key, as maintenance derives it. -/
def Holds (limits : LimitConfig) (index : IndexMeta) (values : Bytes → Option ScValue)
    (key pk : Bytes) : Prop :=
  ∃ v keys, values pk = some v ∧ indexKeysForValue limits index v = .ok keys ∧ key ∈ keys

/-- Two records hold one key of a unique index. -/
def Conflict (limits : LimitConfig) (index : IndexMeta) (values : Bytes → Option ScValue) : Prop :=
  index.unique = true ∧ ∃ key pk pk', pk' ≠ pk ∧ Holds limits index values key pk ∧
    Holds limits index values key pk'

/-- Maintenance derives keys from every value. -/
def Accepted (limits : LimitConfig) (index : IndexMeta) (values : Bytes → Option ScValue) : Prop :=
  ∀ pk v, values pk = some v → ∃ keys, indexKeysForValue limits index v = .ok keys

/-- A store in step with its values has no conflict, and an index has the keys of the values. -/
theorem indexed_of_maintains {w : View} {values : Bytes → Option ScValue}
    (h : Maintains env limits store w values) (hindex : index ∈ store.liveIndexes) :
    Accepted limits index values ∧ ¬ Conflict limits index values ∧
      ∀ key pk, w.entries ⟨index.id, key, pk⟩ ↔ Holds limits index values key pk := by
  have hentries (key pk : Bytes) :
      w.entries ⟨index.id, key, pk⟩ ↔ Holds limits index values key pk := by
    obtain ⟨keys, hkeys, hown⟩ := h.entries index hindex pk
    rw [hown]
    cases hvalue : values pk with
    | none =>
        rw [hvalue] at hkeys
        cases hkeys
        refine iff_of_false List.not_mem_nil ?_
        rintro ⟨v, _, hv, -⟩
        cases hvalue.symm.trans hv
    | some v =>
        rw [hvalue] at hkeys
        constructor
        · intro hmem
          exact ⟨v, keys, hvalue, hkeys, hmem⟩
        · rintro ⟨v', keys', hv', hkeys', hmem⟩
          cases hvalue.symm.trans hv'
          cases hkeys.symm.trans hkeys'
          exact hmem
  refine ⟨fun pk v hv => ?_, ?_, hentries⟩
  · obtain ⟨keys, hkeys, -⟩ := h.entries index hindex pk
    rw [hv] at hkeys
    exact ⟨keys, hkeys⟩
  · rintro ⟨hunique, key, pk, pk', hne, hholds, hholds'⟩
    exact hne (h.oneHolder index hindex hunique key pk' pk ((hentries key pk').mpr hholds')
      ((hentries key pk).mpr hholds))

/-! ### What the backfill derives of the records -/

/-- The index keys that the backfill derives of the records, in key order. -/
def derivedRows (env : CodecEnv) (limits : LimitConfig) (index : IndexMeta)
    (rows : List (Bytes × Bytes × Option Bytes)) : List Derived :=
  rows.flatMap (derivedRow env limits index.keyPath index.multiEntry)

theorem derivedRow_primaryKey {keyPath : KeyPath} {multiEntry : Bool}
    {row : Bytes × Bytes × Option Bytes} {key pk : Bytes}
    (h : .ok (key, pk) ∈ derivedRow env limits keyPath multiEntry row) : pk = row.2.1 := by
  rw [derivedRow] at h
  split at h
  · cases List.mem_singleton.mp h
  · exact (mem_derivedKeys.mp h).1

variable {w : View} {rows : List (Bytes × Bytes × Option Bytes)}

theorem row_iff (hrows : w.Lists store.id .all false rows) (row : Bytes × Bytes × Option Bytes) :
    row ∈ rows ↔ ∃ bytes, w.records ⟨store.id, row.1⟩ = some bytes ∧
      row = (row.1, row.1, some bytes) := by
  obtain ⟨key, pk, val⟩ := row
  rw [hrows.rows_iff]
  dsimp only
  constructor
  · rintro ⟨-, rfl, bytes, hbytes, rfl⟩
    exact ⟨bytes, hbytes, rfl⟩
  · rintro ⟨bytes, hbytes, heq⟩
    obtain ⟨rfl, rfl⟩ : pk = key ∧ val = some bytes := by simpa using heq
    exact ⟨rfl, rfl, bytes, hbytes, rfl⟩

theorem mem_derivedRows (hrows : w.Lists store.id .all false rows) (item : Derived) :
    item ∈ derivedRows env limits index rows ↔ ∃ pk bytes, w.records ⟨store.id, pk⟩ = some bytes ∧
      item ∈ derivedRow env limits index.keyPath index.multiEntry (pk, pk, some bytes) := by
  rw [derivedRows, List.mem_flatMap]
  constructor
  · rintro ⟨row, hrow, hitem⟩
    obtain ⟨bytes, hbytes, heq⟩ := (row_iff hrows row).mp hrow
    exact ⟨row.1, bytes, hbytes, heq ▸ hitem⟩
  · rintro ⟨pk, bytes, hbytes, hitem⟩
    exact ⟨_, (row_iff hrows (pk, pk, some bytes)).mpr ⟨bytes, hbytes, rfl⟩, hitem⟩

theorem mem_derivedRows_ok (hrows : w.Lists store.id .all false rows) (key pk : Bytes) :
    .ok (key, pk) ∈ derivedRows env limits index rows ↔
      ∃ bytes, w.records ⟨store.id, pk⟩ = some bytes ∧
        .ok (key, pk) ∈ derivedRow env limits index.keyPath index.multiEntry
          (pk, pk, some bytes) := by
  rw [mem_derivedRows hrows]
  constructor
  · rintro ⟨pk', bytes, hbytes, hitem⟩
    obtain rfl : pk = pk' := derivedRow_primaryKey hitem
    exact ⟨bytes, hbytes, hitem⟩
  · rintro ⟨bytes, hbytes, hitem⟩
    exact ⟨pk, bytes, hbytes, hitem⟩

section Records

variable {values : Bytes → Option ScValue}

/-- The records hold the values, and every value may be stored. -/
structure Encodes (env : CodecEnv) (limits : LimitConfig) (store : StoreMeta) (w : View)
    (values : Bytes → Option ScValue) : Prop where
  records : ∀ pk, w.records ⟨store.id, pk⟩ = none ∧ values pk = none ∨
    ∃ v bytes, values pk = some v ∧ encodeScf env limits v = .ok bytes ∧
      w.records ⟨store.id, pk⟩ = some bytes
  storable : ∀ pk v, values pk = some v → v.Storable

theorem Encodes.record (h : Encodes env limits store w values) {pk bytes : Bytes}
    (hbytes : w.records ⟨store.id, pk⟩ = some bytes) :
    ∃ v, values pk = some v ∧ encodeScf env limits v = .ok bytes ∧ v.Storable := by
  rcases h.records pk with ⟨hnone, -⟩ | ⟨v, bytes', hv, hencode, hrecord⟩
  · cases hnone.symm.trans hbytes
  · cases hrecord.symm.trans hbytes
    exact ⟨v, hv, hencode, h.storable pk v hv⟩

theorem Encodes.value (h : Encodes env limits store w values) {pk : Bytes} {v : ScValue}
    (hv : values pk = some v) :
    ∃ bytes, encodeScf env limits v = .ok bytes ∧ w.records ⟨store.id, pk⟩ = some bytes := by
  rcases h.records pk with ⟨-, hnone⟩ | ⟨v', bytes, hv', hencode, hrecord⟩
  · cases hnone.symm.trans hv
  · cases hv'.symm.trans hv
    exact ⟨bytes, hencode, hrecord⟩

/-- The derived keys are sound and those of maintenance, if and only if the two derivations
agree on every value. -/
theorem derivedRows_iff (henv : env.Lawful) (hlimit : limits.maxValueLen < 2 ^ 64)
    (hdefinition : checkDefinition index.keyPath index.multiEntry = .ok ())
    (h : Encodes env limits store w values) (hrows : w.Lists store.id .all false rows)
    (haccepted : Accepted limits index values) :
    (Sound (derivedRows env limits index rows) ∧ ∀ key pk,
      .ok (key, pk) ∈ derivedRows env limits index rows ↔ Holds limits index values key pk) ↔
    ∀ pk v, values pk = some v → Agrees env limits index v := by
  constructor
  · rintro ⟨hsound, hsame⟩ pk v hv
    obtain ⟨bytes, hencode, hrecord⟩ := h.value hv
    refine (mirrors_iff_agrees henv hlimit hdefinition (h.storable pk v hv) hencode pk).mp ⟨?_, ?_⟩
    · intro item hitem
      exact hsound item ((mem_derivedRows hrows item).mpr ⟨pk, bytes, hrecord, hitem⟩)
    · obtain ⟨keys, hkeys⟩ := haccepted pk v hv
      refine ⟨keys, hkeys, fun key pk' => ?_⟩
      -- what maintenance holds for one record is what its value gives
      have hrow : Holds limits index values key pk ↔ key ∈ keys := by
        constructor
        · rintro ⟨v', keys', hv', hkeys', hmem⟩
          cases hv.symm.trans hv'
          cases hkeys.symm.trans hkeys'
          exact hmem
        · exact fun hmem => ⟨v, keys, hv, hkeys, hmem⟩
      rw [← hrow, ← hsame, mem_derivedRows_ok hrows]
      constructor
      · intro hitem
        obtain rfl : pk' = pk := derivedRow_primaryKey hitem
        exact ⟨rfl, bytes, hrecord, hitem⟩
      · rintro ⟨rfl, bytes', hrecord', hitem⟩
        cases hrecord.symm.trans hrecord'
        exact hitem
  · intro hagrees
    have hmirrors {pk bytes : Bytes} (hrecord : w.records ⟨store.id, pk⟩ = some bytes) :
        ∃ v, values pk = some v ∧ Mirrors env limits index v pk
          (derivedRow env limits index.keyPath index.multiEntry (pk, pk, some bytes)) := by
      obtain ⟨v, hv, hencode, hstorable⟩ := h.record hrecord
      exact ⟨v, hv, (mirrors_iff_agrees henv hlimit hdefinition hstorable hencode pk).mpr
        (hagrees pk v hv)⟩
    refine ⟨fun item hitem => ?_, fun key pk => ?_⟩
    · obtain ⟨pk, bytes, hrecord, hitem⟩ := (mem_derivedRows hrows item).mp hitem
      obtain ⟨v, -, hmirrors⟩ := hmirrors hrecord
      exact hmirrors.sound item hitem
    · rw [mem_derivedRows_ok hrows]
      constructor
      · rintro ⟨bytes, hrecord, hitem⟩
        obtain ⟨v, hv, -, keys, hkeys, hsame⟩ := hmirrors hrecord
        exact ⟨v, keys, hv, hkeys, ((hsame key pk).mp hitem).2⟩
      · rintro ⟨v, keys, hv, hkeys, hmem⟩
        obtain ⟨bytes, -, hrecord⟩ := h.value hv
        obtain ⟨v', hv', -, keys', hkeys', hsame⟩ := hmirrors hrecord
        cases hv.symm.trans hv'
        cases hkeys.symm.trans hkeys'
        exact ⟨bytes, hrecord, (hsame key pk).mpr ⟨rfl, hmem⟩⟩

/-! ### How the creation ends -/

/-- `schema_create_index` behind its checks: the index is filled from the records. -/
def createIndex {σ : Type} [BackendTxn σ] (env : CodecEnv) (limits : LimitConfig)
    (store : StoreMeta) (index : IndexMeta) : Prog σ IdbError Unit :=
  backfillIndex env limits index.id store.id index.keyPath index.multiEntry index.unique

/-- The creation of an index without entries, in terms of what is derived of the records. -/
theorem meets_createIndex (env : CodecEnv) (limits : LimitConfig)
    (hrows : w.Lists store.id .all false rows) {t : σ} (hview : view t = w)
    (hup : Upgrade t) (hempty : ∀ key pk, ¬ w.entries ⟨index.id, key, pk⟩) :
    Meets (· = t) (createIndex env limits store index)
      (fun _ t' => Sound (derivedRows env limits index rows) ∧
        ¬ (index.unique = true ∧
          Clashes (fun _ _ => False) (derivedRows env limits index rows)) ∧
        ∀ key pk, (view t').entries ⟨index.id, key, pk⟩ ↔
          .ok (key, pk) ∈ derivedRows env limits index rows)
      (fun e _ => ((∃ msg, e = some (.constraint msg)) ↔ index.unique = true ∧
          Clashes (fun _ _ => False) (derivedRows env limits index rows)) ∧
        (¬ (index.unique = true ∧
            Clashes (fun _ _ => False) (derivedRows env limits index rows)) →
          ¬ Sound (derivedRows env limits index rows))) := by
  subst hview
  have hclashes : Clashes (held (view t) index.id) (derivedRows env limits index rows) ↔
      Clashes (fun _ _ => False) (derivedRows env limits index rows) :=
    clashes_congr (fun key pk => iff_of_false (hempty key pk) id) _
  refine (meets_backfillIndex store.id index.keyPath index.multiEntry t hup hempty).mono
    (fun _ h => h) (fun _ t' ht' => ?_) fun e _ he => ?_
  · obtain ⟨rows', hrows', hfilled⟩ := ht'
    obtain rfl := hrows.unique hrows'
    refine ⟨hfilled.sound, ?_, fun key pk => ?_⟩
    · rintro ⟨hunique, hclash⟩
      exact hfilled.noClash hunique (hclashes.mpr hclash)
    · rw [hfilled.entries, or_iff_left (hempty key pk)]
      exact and_iff_right rfl
  · obtain ⟨rows', hrows', hrefused⟩ := he
    obtain rfl := hrows.unique hrows'
    rw [← hclashes]
    exact ⟨hrefused.constraint_iff, hrefused.not_sound⟩

end Records

/-! ### The result -/

/-- The creation of the index is refused exactly for a conflict, and otherwise leaves the
entries that maintenance would hold. -/
structure CreatedAsMaintained (env : CodecEnv) (limits : LimitConfig) (store : StoreMeta)
    (index : IndexMeta) (values : Bytes → Option ScValue) (t : σ) : Prop where
  refused : (∃ msg t', createIndex env limits store index t = (.failed (.constraint msg), t')) ↔
    Conflict limits index values
  entries : Accepted limits index values → ¬ Conflict limits index values →
    ∃ t', createIndex env limits store index t = (.done (), t') ∧
      ∀ key pk, (view t').entries ⟨index.id, key, pk⟩ ↔ Holds limits index values key pk

/-- When the backfill does as maintenance: a key of two records is met before anything from
which no key can be derived, if and only if there is a conflict; and where there is none, the
two derivations agree on every value. -/
structure Derivable (env : CodecEnv) (limits : LimitConfig) (index : IndexMeta)
    (rows : List (Bytes × Bytes × Option Bytes)) (values : Bytes → Option ScValue) : Prop where
  clash : index.unique = true ∧ Clashes (fun _ _ => False) (derivedRows env limits index rows) ↔
    Conflict limits index values
  agrees : Accepted limits index values → ¬ Conflict limits index values →
    ∀ pk v, values pk = some v → Agrees env limits index v

theorem created_iff_derivable (henv : env.Lawful) (hlimit : limits.maxValueLen < 2 ^ 64)
    (hdefinition : checkDefinition index.keyPath index.multiEntry = .ok ())
    {values : Bytes → Option ScValue} {t : σ} (h : Encodes env limits store (view t) values)
    (hrows : (view t).Lists store.id .all false rows) (hup : Upgrade t)
    (hempty : ∀ key pk, ¬ (view t).entries ⟨index.id, key, pk⟩) :
    CreatedAsMaintained env limits store index values t ↔
      Derivable env limits index rows values := by
  have hends := meets_createIndex env limits hrows rfl hup hempty t rfl
  have hagrees := derivedRows_iff henv hlimit hdefinition h hrows
  -- an index that is not created, whatever stopped it
  have hunfinished (hdone : ∀ t', createIndex env limits store index t ≠ (.done (), t'))
      (hrefused :
        (∃ msg t', createIndex env limits store index t = (.failed (.constraint msg), t')) ↔
        index.unique = true ∧ Clashes (fun _ _ => False) (derivedRows env limits index rows))
      (hsound : ¬ (index.unique = true ∧
          Clashes (fun _ _ => False) (derivedRows env limits index rows)) →
        ¬ Sound (derivedRows env limits index rows)) :
      CreatedAsMaintained env limits store index values t ↔
        Derivable env limits index rows values := by
    constructor
    · intro hcreated
      refine ⟨hrefused.symm.trans hcreated.refused, fun haccepted hfree => ?_⟩
      obtain ⟨u, hu, -⟩ := hcreated.entries haccepted hfree
      exact absurd hu (hdone u)
    · intro hderivable
      refine ⟨hrefused.trans hderivable.clash, fun haccepted hfree => ?_⟩
      obtain ⟨hall, -⟩ := (hagrees haccepted).mpr (hderivable.agrees haccepted hfree)
      exact absurd hall (hsound fun hclash => hfree (hderivable.clash.mp hclash))
  rcases hrun : createIndex env limits store index t with ⟨_ | e | _, t'⟩
  · rw [hrun] at hends
    obtain ⟨hsound, hnone, hentries⟩ := hends
    have hrefused : ¬ ∃ msg t', createIndex env limits store index t =
        (.failed (.constraint msg), t') := by
      rintro ⟨msg, u, hu⟩
      cases hrun.symm.trans hu
    constructor
    · intro hcreated
      refine ⟨(iff_of_false hnone hrefused).trans hcreated.refused, fun haccepted hfree => ?_⟩
      obtain ⟨u, hu, hheld⟩ := hcreated.entries haccepted hfree
      obtain rfl : t' = u := congrArg Prod.snd (hrun.symm.trans hu)
      exact (hagrees haccepted).mp
        ⟨hsound, fun key pk => (hentries key pk).symm.trans (hheld key pk)⟩
    · intro hderivable
      refine ⟨(iff_of_false hrefused hnone).trans hderivable.clash, fun haccepted hfree => ?_⟩
      obtain ⟨-, hheld⟩ := (hagrees haccepted).mpr (hderivable.agrees haccepted hfree)
      exact ⟨t', hrun, fun key pk => (hentries key pk).trans (hheld key pk)⟩
  · rw [hrun] at hends
    obtain ⟨hconstraint, hsound⟩ := hends
    refine hunfinished (fun u hu => by cases hrun.symm.trans hu) ?_ hsound
    rw [← hconstraint, hrun]
    constructor
    · rintro ⟨msg, u, hu⟩
      cases hu
      exact ⟨msg, rfl⟩
    · rintro ⟨msg, he⟩
      cases he
      exact ⟨msg, t', rfl⟩
  · rw [hrun] at hends
    obtain ⟨hconstraint, hsound⟩ := hends
    refine hunfinished (fun u hu => by cases hrun.symm.trans hu) ?_ hsound
    rw [← hconstraint]
    refine iff_of_false ?_ ?_
    · rintro ⟨msg, u, hu⟩
      cases hrun.symm.trans hu
    · rintro ⟨msg, he⟩
      cases he

/-- For a store that was filled by puts, and the puts of the store that had the index. -/
theorem createIndex_iff (henv : env.Lawful) (hlimit : limits.maxValueLen < 2 ^ 64)
    (hlive : index.deleted = false)
    (hnodup : ((store.withIndex index).liveIndexes.map IndexMeta.id).Nodup)
    (hdefinition : checkDefinition index.keyPath index.multiEntry = .ok ())
    {calls : List PutCall} (hcalls : ∀ call ∈ calls, call.value.Storable) {keygen : KeyGenerator}
    {s₀ s₁ t : σ} {written : List (Key × ScValue)} (hfresh : Fresh store (view s₀))
    (hputs : putAll env limits store keygen calls s₀ = (.done written, s₁)) (hup : Upgrade t)
    (hrecords : ∀ pk, (view t).records ⟨store.id, pk⟩ = (view s₁).records ⟨store.id, pk⟩)
    (hempty : ∀ key pk, ¬ (view t).entries ⟨index.id, key, pk⟩)
    (hrows : (view t).Lists store.id .all false rows) :
    (CreatedAsMaintained env limits store index (latest limits written) t ↔
      Derivable env limits index rows (latest limits written)) ∧
    ∀ (s₀' : σ) (written' : List (Key × ScValue)) (s₂ : σ),
      Fresh (store.withIndex index) (view s₀') →
      putAll env limits (store.withIndex index) keygen calls s₀' = (.done written', s₂) →
      written' = written ∧ Accepted limits index (latest limits written) ∧
        ¬ Conflict limits index (latest limits written) ∧
        ∀ key pk, (view s₂).entries ⟨index.id, key, pk⟩ ↔
          Holds limits index (latest limits written) key pk := by
  have hlives := store.liveIndexes_withIndex hlive
  have hnodup₁ : (store.liveIndexes.map IndexMeta.id).Nodup := by
    rw [hlives, List.map_append] at hnodup
    exact (List.nodup_append.mp hnodup).1
  have hrun₁ := meets_putAll henv hlimit hnodup₁ hcalls keygen s₀ hfresh.maintains s₀ rfl
  rw [hputs] at hrun₁
  obtain ⟨hdetermined, hmaintains⟩ := hrun₁
  constructor
  · refine created_iff_derivable henv hlimit hdefinition ⟨fun pk => ?_, hmaintains.storable⟩ hrows
      hup hempty
    rw [hrecords]
    exact hmaintains.records pk
  · intro s₀' written' s₂ hfresh' hputs'
    have hrun₂ := meets_putAll henv hlimit hnodup hcalls keygen s₀' hfresh'.maintains s₀' rfl
    rw [hputs'] at hrun₂
    obtain ⟨hdetermined', hmaintains'⟩ := hrun₂
    rw [determined_withIndex, hdetermined] at hdetermined'
    obtain rfl : written = written' := Except.ok.inj hdetermined'
    exact ⟨rfl, indexed_of_maintains hmaintains' (by simp [hlives])⟩

end Lawful

/-! ### An invalid member -/

/-- A store with keys of its own, and an index of the members under `t`. -/
def notes : StoreMeta := ⟨1, [], .empty, false, keyGenStart, [], false⟩

def tags : IndexMeta := ⟨1, 1, [], .single [0x74], false, true, false⟩

/-- One record with the tags `"a"` and `true`. -/
def tagged : List PutCall :=
  [⟨.object [([0x74], .array [some (.string [0x61]), some (.boolean true)] [])],
    some (.number keyGenStart), false⟩]

theorem tagged_storable : ∀ call ∈ tagged, call.value.Storable := by
  intro call hcall
  obtain rfl := List.mem_singleton.mp hcall
  refine ScValue.everywhere_object.mpr ⟨by simp, fun kv hkv => ?_⟩
  obtain rfl := List.mem_singleton.mp hkv
  refine .intro ⟨trivial, by simp [ScValue.Representable]⟩ fun c hc => ?_
  rcases (by simpa [ScValue.children] using hc : c = .string [0x61] ∨ c = .boolean true) with
    rfl | rfl
  · exact .intro ⟨trivial, trivial⟩ fun _ h => absurd h List.not_mem_nil
  · exact .intro ⟨trivial, trivial⟩ fun _ h => absurd h List.not_mem_nil

/-- An upgrade of a database without records. -/
def upgrading : Memory.Session := ⟨.empty, .versionChange, [], emptyMeta [], .empty⟩

theorem fresh_upgrading (store : StoreMeta) : Fresh store (view upgrading) where
  records _ := rfl
  entries _ _ _ _ h := by cases h

/-- The rows of an upgrade can be listed. -/
theorem exists_lists {σ : Type} [BackendTxn σ] [LawfulTxn σ] {t : σ} (hup : Upgrade t)
    (store : StoreId) : ∃ rows, (view t).Lists store .all false rows := by
  have hscan := (LawfulTxn.scanRows t store .all false).and
    (LawfulTxn.scanRows_upgrade t store .all false hup) t rfl
  rcases hrun : BackendTxn.scanRows (.store store) .all .next false t with ⟨rows | _ | _, t'⟩
  · rw [hrun] at hscan
    exact ⟨rows, hscan.1.2⟩
  · rw [hrun] at hscan
    exact hscan.2.elim
  · rw [hrun] at hscan
    exact hscan.2.elim

/-- A record whose tags are strings. -/
def note (tags : List Utf16String) : ScValue :=
  .object [([0x74], .array (tags.map fun tag => some (.string tag)) [])]

theorem note_storable {tags : List Utf16String} (h : tags.length < 2 ^ 64) :
    (note tags).Storable := by
  refine ScValue.everywhere_object.mpr ⟨by simp, fun kv hkv => ?_⟩
  obtain rfl := List.mem_singleton.mp hkv
  refine .intro ⟨trivial, by simpa [ScValue.Representable] using h⟩ fun c hc => ?_
  obtain ⟨tag, -, rfl⟩ : ∃ tag, tag ∈ tags ∧ .string tag = c := by
    simpa [ScValue.children, List.reduceOption_mem_iff] using hc
  exact .intro ⟨trivial, trivial⟩ fun _ h => absurd h List.not_mem_nil

/-- Two records that share a tag; the second is written over. -/
def shared : List PutCall :=
  [⟨note [[0x61], [0x62]], some (.number keyGenStart), false⟩,
    ⟨note [[0x63]], some (.number 0x4000000000000000), false⟩,
    ⟨note [[0x62]], some (.number 0x4000000000000000), false⟩]

theorem shared_storable : ∀ call ∈ shared, call.value.Storable := by
  intro call hcall
  obtain rfl | rfl | rfl : call = ⟨note [[0x61], [0x62]], some (.number keyGenStart), false⟩ ∨
      call = ⟨note [[0x63]], some (.number 0x4000000000000000), false⟩ ∨
      call = ⟨note [[0x62]], some (.number 0x4000000000000000), false⟩ := by
    simpa [shared] using hcall
  · exact note_storable (by decide)
  · exact note_storable (by decide)
  · exact note_storable (by decide)

/-- How many values were written, when all puts succeeded. -/
def writtenCount : Exit IdbError (List (Key × ScValue)) → Option ℕ
  | .done written => some written.length
  | _ => none

theorem done_of_writtenCount {σ : Type} {r : Exit IdbError (List (Key × ScValue)) × σ} {n : ℕ}
    (h : writtenCount r.1 = some n) : ∃ written, r = (.done written, r.2) ∧ written.length = n := by
  rcases r with ⟨written | e | _, s⟩
  · exact ⟨written, rfl, Option.some.inj h⟩
  · cases h
  · cases h

theorem no_entries {s : Memory.Session} (hpending : s.txn.pending.indexEntries.entries = [])
    (hrows : s.rows.indexEntries.entries = []) (index : IndexId) (key pk : Bytes) :
    ¬ (view s).entries ⟨index, key, pk⟩ := by
  have hnone {V : Type} {m : OrdMap.OrderedMap IndexKey V} (h : m.entries = []) : m = .empty := by
    cases m
    cases h
    rfl
  show s.txn.pending.indexEntryExists s.rows ⟨index, key, pk⟩ ≠ true
  rw [Pending.indexEntryExists, hnone hpending, hnone hrows]
  exact Bool.false_ne_true

/-- The result for two records behind three puts. -/
theorem createIndex_iff_tagged : ∃ written s₁ s₂ rows,
    putAll standardEnv {} notes (.new keyGenStart) shared upgrading = (.done written, s₁) ∧
    putAll standardEnv {} (notes.withIndex tags) (.new keyGenStart) shared upgrading =
      (.done written, s₂) ∧
    written.length = 3 ∧ (view s₁).Lists notes.id .all false rows ∧
    (CreatedAsMaintained standardEnv {} notes tags (latest {} written) s₁ ↔
      Derivable standardEnv {} tags rows (latest {} written)) ∧
    ∀ key pk, (view s₂).entries ⟨tags.id, key, pk⟩ ↔ Holds {} tags (latest {} written) key pk := by
  let r := putAll standardEnv {} notes (.new keyGenStart) shared upgrading
  let r' := putAll standardEnv {} (notes.withIndex tags) (.new keyGenStart) shared upgrading
  obtain ⟨written, hputs, hlength⟩ := done_of_writtenCount (by decide +kernel :
    writtenCount r.1 = some 3)
  obtain ⟨written', hputs', -⟩ := done_of_writtenCount (by decide +kernel :
    writtenCount r'.1 = some 3)
  have hupgrade {s : Memory.Session} (h : s.txn.mode = .versionChange) : Upgrade s := h
  have hup : Upgrade r.2 := hupgrade (by decide +kernel)
  have hempty := no_entries (s := r.2) (by decide +kernel) (by decide +kernel) tags.id
  obtain ⟨rows, hrows⟩ := exists_lists hup notes.id
  obtain ⟨hiff, hwith⟩ := createIndex_iff standardEnv_lawful (by decide) rfl (by decide) rfl
    shared_storable (fresh_upgrading notes) hputs hup (fun _ => rfl) hempty hrows
  obtain ⟨rfl, -, -, hentries⟩ := hwith upgrading written' _ (fresh_upgrading _) hputs'
  exact ⟨written', _, _, rows, hputs, hputs', hlength, hrows, hiff, hentries⟩

/-- With the index in place the invalid tag is skipped, but the index cannot be created. -/
theorem createIndex_invalid_member : ∃ written s₁ s₂,
    putAll standardEnv {} notes (.new keyGenStart) tagged upgrading = (.done written, s₁) ∧
    putAll standardEnv {} (notes.withIndex tags) (.new keyGenStart) tagged upgrading =
      (.done written, s₂) ∧
    (∃ key pk, (view s₂).entries ⟨tags.id, key, pk⟩) ∧
    ¬ CreatedAsMaintained standardEnv {} notes tags (latest {} written) s₁ := by
  let v : ScValue := .object [([0x74], .array [some (.string [0x61]), some (.boolean true)] [])]
  obtain ⟨s₁, s₂, hputs, hputs', hup, hempty⟩ : ∃ s₁ s₂,
      putAll standardEnv {} notes (.new keyGenStart) tagged upgrading =
        (.done [(.number keyGenStart, v)], s₁) ∧
      putAll standardEnv {} (notes.withIndex tags) (.new keyGenStart) tagged upgrading =
        (.done [(.number keyGenStart, v)], s₂) ∧
      Upgrade s₁ ∧ ∀ key pk, ¬ (view s₁).entries ⟨tags.id, key, pk⟩ :=
    ⟨_, _, rfl, rfl, rfl, fun key pk h => by cases h⟩
  have hrun (store : StoreMeta) (hnodup : (store.liveIndexes.map IndexMeta.id).Nodup) :=
    meets_putAll standardEnv_lawful (by decide : ({} : LimitConfig).maxValueLen < 2 ^ 64) hnodup
      tagged_storable (.new keyGenStart) upgrading (fresh_upgrading store).maintains upgrading rfl
  have hwith := hrun (notes.withIndex tags) (by decide)
  have hwithout := hrun notes (by decide)
  rw [hputs'] at hwith
  rw [hputs] at hwithout
  obtain ⟨haccepted, hfree, hentries⟩ := indexed_of_maintains hwith.2 (by decide : tags ∈ _)
  have hencode : (Key.number keyGenStart).encodeKey {} =
      .ok (Key.tagNumber :: Key.encodeF64Orderable keyGenStart) := rfl
  have hvalue : [(Key.number keyGenStart, v)].foldl (record {}) (fun _ => none)
      (Key.tagNumber :: Key.encodeF64Orderable keyGenStart) = some v := by
    rw [List.foldl_cons, List.foldl_nil, record, hencode]
    exact Function.update_self _ _ _
  refine ⟨_, s₁, s₂, hputs, hputs', ?_, fun h => ?_⟩
  · have hkey : indexKeysForValue {} tags v = .ok [Key.tagString :: Key.encodeStringCesu8 [0x61]] :=
      rfl
    exact ⟨_, _, (hentries _ _).mpr ⟨v, _, hvalue, hkey, List.mem_singleton.mpr rfl⟩⟩
  · obtain ⟨rows, hrows⟩ := exists_lists hup notes.id
    have hderivable := (created_iff_derivable standardEnv_lawful (by decide) rfl
      ⟨hwithout.2.records, hwithout.2.storable⟩ hrows hup hempty).mp h
    rcases (hderivable.agrees haccepted hfree _ v hvalue).multi rfl with hall | ⟨hnone, -⟩
    · exact hall (some (.boolean true)) (by simp) rfl
    · cases hnone

end Driver

end BoaIdb
