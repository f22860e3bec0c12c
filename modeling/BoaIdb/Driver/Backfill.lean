import BoaIdb.Engine.Maintain

/-!
The backfill of a new index from the records of its store.

It derives the keys of a record in its own way: the value is decoded, its key extracted as
that of a plain index, and the members of an array key taken apart afterwards.
-/

namespace BoaIdb.Driver

open Clone Engine Faults

/-- `encode_key_err`. -/
def encodeKeyErr (e : KeyError) : IdbError := .data ("Key encoding failed: " ++ e.text)

/-- The check of `schema_create_index` on the definition of an index. -/
def checkDefinition (keyPath : KeyPath) (multiEntry : Bool) : Except IdbError Unit :=
  match keyPath with
  | .array _ =>
      if multiEntry then
        .error (.invalidAccess "multiEntry indexes cannot use an array keyPath")
      else .ok ()
  | _ => .ok ()

/-- The members of an array key, for a multiEntry index. -/
def expandKey (multiEntry : Bool) (idxKey : Key) : List Key :=
  match idxKey with
  | .array items => if multiEntry then items else [idxKey]
  | _ => [idxKey]

/-- The keys of one record. -/
def recordKeys (env : CodecEnv) (limits : LimitConfig) (keyPath : KeyPath) (multiEntry : Bool)
    (valueBytes : Bytes) : Except IdbError (List Key) := do
  let value ← (decodeScf env limits valueBytes).mapError fun e =>
    IdbError.notReadable ("Stored value is corrupt: " ++ e.text)
  let idxKey ← (keyPath.extract value).mapError KeyError.toIdb
  .ok (idxKey.elim [] (expandKey multiEntry))

section Backend

variable {σ : Type} [BackendTxn σ] (env : CodecEnv) (limits : LimitConfig) (index : IndexId)

/-- The loop over the keys of one record; `seen` has those that are in the index. -/
def backfillKeys (unique : Bool) (pkey : Bytes) : List Key → List Bytes → Prog σ IdbError Unit
  | [], _ => pure ()
  | key :: keys, seen => do
      let encoded ← Prog.lift ((key.encodeKey limits).mapError encodeKeyErr)
      if encoded ∈ seen then backfillKeys unique pkey keys seen
      else
        (BackendTxn.indexPut index encoded pkey unique).mapErr fun
          | .constraint msg => .constraint msg
          | other => .data ("Index backfill failed: " ++ other.text)
        backfillKeys unique pkey keys (seen ++ [encoded])

/-- `backfill_index`. -/
def backfillIndex (store : StoreId) (keyPath : KeyPath) (multiEntry unique : Bool) :
    Prog σ IdbError Unit := do
  let rows ← (BackendTxn.scanRows (.store store) .all .next false).mapErr backendErr
  Prog.forEach (fun row : Bytes × Bytes × Option Bytes => do
    let keys ← Prog.lift (recordKeys env limits keyPath multiEntry (row.2.2.getD []))
    backfillKeys limits index unique row.2.1 keys []) rows

end Backend

/-! ### What is derived

The rows as one list of index keys with their primary keys, in the order of the backfill; a
row or a key from which none can be derived is an error in its place. -/

/-- An index key with its primary key, or why there is none. -/
abbrev Derived := Except IdbError (Bytes × Bytes)

def derivedKeys (limits : LimitConfig) (pkey : Bytes) (keys : List Key) : List Derived :=
  keys.map fun key => ((key.encodeKey limits).mapError encodeKeyErr).map (·, pkey)

def derivedRow (env : CodecEnv) (limits : LimitConfig) (keyPath : KeyPath) (multiEntry : Bool)
    (row : Bytes × Bytes × Option Bytes) : List Derived :=
  match recordKeys env limits keyPath multiEntry (row.2.2.getD []) with
  | .error e => [.error e]
  | .ok keys => derivedKeys limits row.2.1 keys

/-- Some key is held by another primary key before an error is met; `held` are the entries
so far. -/
def Clashes (held : Bytes → Bytes → Prop) : List Derived → Prop
  | [] => False
  | .error _ :: _ => False
  | .ok (key, pk) :: items => (∃ pk', pk' ≠ pk ∧ held key pk') ∨
      Clashes (fun key' pk' => key' = key ∧ pk' = pk ∨ held key' pk') items

/-- No row and no key is an error. -/
def Sound (items : List Derived) : Prop := ∀ item ∈ items, ∃ entry, item = .ok entry

theorem clashes_congr {held held' : Bytes → Bytes → Prop} (h : ∀ key pk, held key pk ↔ held' key pk)
    (items : List Derived) : Clashes held items ↔ Clashes held' items := by
  rw [show held = held' from funext₂ fun key pk => propext (h key pk)]

/-! ### How the backfill ends -/

open LawfulTxn

/-- The entries of an index. -/
def held (w : View) (index : IndexId) (key pk : Bytes) : Prop := w.entries ⟨index, key, pk⟩

/-- All entries were derived and put, and a unique index has met no clash. -/
structure Filled (index : IndexId) (unique : Bool) (items : List Derived) (w w' : View) : Prop where
  sound : Sound items
  noClash : unique = true → ¬ Clashes (held w index) items
  records : w'.records = w.records
  entries : ∀ k, w'.entries k ↔
    k.index = index ∧ .ok (k.key, k.primaryKey) ∈ items ∨ w.entries k
  oneHolder : unique = true → w'.OneHolder index

/-- The error of a backfill: a clash in a unique index, or else that of a row or key. -/
def Refused (index : IndexId) (unique : Bool) (items : List Derived) (w : View)
    (e : Option IdbError) : Prop :=
  (unique = true ∧ Clashes (held w index) items) ∧ (∃ msg, e = some (.constraint msg)) ∨
    (¬ Sound items ∧ ¬ (unique = true ∧ Clashes (held w index) items)) ∧
      ∀ msg, e ≠ some (.constraint msg)

theorem Refused.constraint_iff {index : IndexId} {unique : Bool} {items : List Derived} {w : View}
    {e : Option IdbError} (h : Refused index unique items w e) :
    (∃ msg, e = some (.constraint msg)) ↔ unique = true ∧ Clashes (held w index) items := by
  rcases h with ⟨hclash, hmsg⟩ | ⟨⟨-, hnone⟩, hother⟩
  · exact iff_of_true hmsg hclash
  · exact iff_of_false (fun ⟨msg, he⟩ => hother msg he) hnone

/-- What is refused could not have been filled. -/
theorem Refused.not_sound {index : IndexId} {unique : Bool} {items : List Derived} {w : View}
    {e : Option IdbError} (h : Refused index unique items w e)
    (hnone : ¬ (unique = true ∧ Clashes (held w index) items)) : ¬ Sound items := by
  rcases h with ⟨hclash, -⟩ | ⟨⟨hsound, -⟩, -⟩
  · exact absurd hclash hnone
  · exact hsound

section Compose

variable {index : IndexId} {unique : Bool} {items items' : List Derived} {w w' w'' : View}
  {e : Option IdbError}

theorem sound_append : Sound (items ++ items') ↔ Sound items ∧ Sound items' :=
  List.forall_mem_append

/-- Behind entries that were all derived without a clash, the rest decides. -/
theorem clashes_append {entries : Bytes → Bytes → Prop} (hsound : Sound items)
    (hnone : ¬ Clashes entries items) : Clashes entries (items ++ items') ↔
      Clashes (fun key pk => .ok (key, pk) ∈ items ∨ entries key pk) items' := by
  induction items generalizing entries with
  | nil => exact clashes_congr (fun key pk => by simp) items'
  | cons item items ih =>
      obtain ⟨⟨key, pk⟩, rfl⟩ := hsound item (by simp)
      rw [Clashes] at hnone
      have hrest : ¬ Clashes (fun key' pk' => key' = key ∧ pk' = pk ∨ entries key' pk') items :=
        fun h => hnone (.inr h)
      rw [List.cons_append, Clashes, or_iff_right fun h => hnone (.inl h),
        ih (fun item h => hsound item (.tail _ h)) hrest]
      refine clashes_congr (fun key' pk' => ?_) items'
      simp only [List.mem_cons, Except.ok.injEq, Prod.mk.injEq]
      tauto

/-- What stops in front of the rest stops all the same. -/
theorem clashes_append_of_not_sound {entries : Bytes → Bytes → Prop} (hsound : ¬ Sound items) :
    Clashes entries (items ++ items') ↔ Clashes entries items := by
  induction items generalizing entries with
  | nil => exact absurd (fun item h => by cases h) hsound
  | cons item items ih =>
      cases item with
      | error err => exact Iff.rfl
      | ok entry =>
          obtain ⟨key, pk⟩ := entry
          have hrest : ¬ Sound items := by
            intro h
            refine hsound fun item hitem => ?_
            rcases List.mem_cons.mp hitem with rfl | hitem
            · exact ⟨_, rfl⟩
            · exact h item hitem
          rw [List.cons_append, Clashes, Clashes, ih hrest]

theorem clashes_append_left {entries : Bytes → Bytes → Prop} (h : Clashes entries items) :
    Clashes entries (items ++ items') := by
  induction items generalizing entries with
  | nil => exact h.elim
  | cons item items ih =>
      cases item with
      | error err => exact h.elim
      | ok entry => exact h.imp_right ih

theorem Filled.nil (hone : unique = true → w.OneHolder index) : Filled index unique [] w w where
  sound := fun _ h => by cases h
  noClash := fun _ h => h
  records := rfl
  entries := fun k => by simp
  oneHolder := hone

theorem Filled.append (h : Filled index unique items w w')
    (h' : Filled index unique items' w' w'') : Filled index unique (items ++ items') w w'' where
  sound := sound_append.mpr ⟨h.sound, h'.sound⟩
  noClash hunique := by
    rw [clashes_append h.sound (h.noClash hunique)]
    refine fun hclash => h'.noClash hunique ((clashes_congr (fun key pk => ?_) items').mp hclash)
    simp only [held, h.entries, true_and]
  records := h'.records.trans h.records
  entries k := by
    rw [h'.entries, h.entries, List.mem_append]
    tauto
  oneHolder := h'.oneHolder

theorem Refused.append_left (h : Refused index unique items w e) :
    Refused index unique (items ++ items') w e := by
  rcases h with ⟨⟨hunique, hclash⟩, he⟩ | ⟨⟨hsound, hnone⟩, he⟩
  · exact .inl ⟨⟨hunique, clashes_append_left hclash⟩, he⟩
  · refine .inr ⟨⟨fun h => hsound (sound_append.mp h).1, fun h => hnone ⟨h.1, ?_⟩⟩, he⟩
    exact (clashes_append_of_not_sound hsound).mp h.2

theorem Refused.append_right (h : Filled index unique items w w')
    (h' : Refused index unique items' w' e) : Refused index unique (items ++ items') w e := by
  have hclash : (unique = true ∧ Clashes (held w index) (items ++ items')) ↔
      (unique = true ∧ Clashes (held w' index) items') := by
    refine and_congr_right fun hunique => ?_
    rw [clashes_append h.sound (h.noClash hunique)]
    refine clashes_congr (fun key pk => ?_) items'
    simp only [held, h.entries, true_and]
  rw [Refused, hclash]
  refine h'.imp_right fun ⟨⟨hsound, hnone⟩, he⟩ => ⟨⟨fun hall => hsound (sound_append.mp hall).2,
    hnone⟩, he⟩

end Compose

/-- A record that cannot be read, or has no valid key, is no violation of a constraint. -/
theorem recordKeys_ne_constraint {env : CodecEnv} {limits : LimitConfig} {keyPath : KeyPath}
    {multiEntry : Bool} {valueBytes : Bytes} {e : IdbError}
    (h : recordKeys env limits keyPath multiEntry valueBytes = .error e) (msg : String) :
    e ≠ .constraint msg := by
  rintro rfl
  unfold recordKeys at h
  cases hvalue : decodeScf env limits valueBytes with
  | error err =>
      rw [hvalue] at h
      cases h
  | ok value =>
      rw [hvalue] at h
      change (keyPath.extract value).mapError KeyError.toIdb >>= _ = _ at h
      cases hkey : keyPath.extract value with
      | error err =>
          rw [hkey] at h
          cases h
      | ok key =>
          rw [hkey] at h
          cases h

section Loops

variable {σ : Type} [BackendTxn σ] [LawfulTxn σ] {env : CodecEnv} {limits : LimitConfig}
  {index : IndexId} {unique : Bool}

/-- A key is taken when it clashes with another primary key. -/
theorem taken_iff {w : View} {key pk : Bytes} (hone : w.OneHolder index) :
    w.Taken ⟨index, key, pk⟩ ↔ ∃ pk', pk' ≠ pk ∧ held w index key pk' := by
  constructor
  · rintro ⟨hnot, pk', hheld⟩
    exact ⟨pk', fun heq => hnot (heq ▸ hheld), hheld⟩
  · rintro ⟨pk', hne, hheld⟩
    exact ⟨fun hown => hne (hone key pk' pk hheld hown), pk', hheld⟩

/-- One entry. -/
theorem meets_putEntry (s : σ) (hup : Upgrade s) (hone : unique = true → (view s).OneHolder index)
    (key pkey : Bytes) :
    Meets (· = s) ((BackendTxn.indexPut index key pkey unique).mapErr fun
        | .constraint msg => IdbError.constraint msg
        | other => .data ("Index backfill failed: " ++ other.text))
      (fun _ s' => Upgrade s' ∧ Filled index unique [.ok (key, pkey)] (view s) (view s'))
      (fun e _ => Refused index unique [.ok (key, pkey)] (view s) e) := by
  have hput := (LawfulTxn.indexPut s index key pkey unique).and
    (indexPut_upgrade s index key pkey unique hup)
  have hclash (hunique : unique = true) : Clashes (held (view s) index) [.ok (key, pkey)] ↔
      (view s).Taken ⟨index, key, pkey⟩ := by
    rw [taken_iff (hone hunique), Clashes, Clashes, or_false]
  refine (hput.mono (fun _ h => h) (fun _ s' h => ?_) fun _ _ h => h).mapErr fun e s' h => ?_
  · obtain ⟨⟨hfree, hview⟩, hup'⟩ := h
    refine ⟨hup', ?_, fun hunique h => hfree ⟨hunique, (hclash hunique).mp h⟩, ?_, fun k => ?_,
      fun hunique => ?_⟩
    · intro item hitem
      exact ⟨_, List.mem_singleton.mp hitem⟩
    · rw [hview]
      rfl
    · obtain ⟨i, kk, kpk⟩ := k
      simp only [hview, View.addEntry, IndexKey.mk.injEq, List.mem_singleton, Except.ok.injEq,
        Prod.mk.injEq]
    · rw [hview]
      intro key' pk₁ pk₂ h₁ h₂
      simp only [View.addEntry, IndexKey.mk.injEq, true_and] at h₁ h₂
      -- a key that is put has no other holder
      have halone {pk' : Bytes} (h : (view s).entries ⟨index, key, pk'⟩) : pk' = pkey := by
        by_contra hne
        exact hfree ⟨hunique, (taken_iff (hone hunique)).mpr ⟨pk', hne, h⟩⟩
      rcases h₁ with ⟨rfl, rfl⟩ | h₁ <;> rcases h₂ with ⟨hkey, rfl⟩ | h₂
      · rfl
      · exact (halone h₂).symm
      · exact halone (hkey ▸ h₁)
      · exact hone hunique key' pk₁ pk₂ h₁ h₂
  · obtain ⟨-, htaken, msg, rfl⟩ := h
    exact .inl ⟨⟨htaken.1, (hclash htaken.1).mpr htaken.2⟩, msg, rfl⟩

/-- An entry that is there already may be skipped. -/
theorem filled_held {w : View} {key pk : Bytes} (hone : unique = true → w.OneHolder index)
    (hheld : held w index key pk) : Filled index unique [.ok (key, pk)] w w where
  sound item hitem := ⟨_, List.mem_singleton.mp hitem⟩
  noClash hunique h := by
    rcases h with ⟨pk', hne, hheld'⟩ | h
    · exact hne (hone hunique key pk' pk hheld' hheld)
    · exact h
  records := rfl
  entries k := by
    refine ⟨.inr, ?_⟩
    rintro (⟨hindex, hmem⟩ | h)
    · obtain ⟨i, kk, kpk⟩ := k
      obtain rfl : i = index := hindex
      cases List.mem_singleton.mp hmem
      exact hheld
    · exact h
  oneHolder := hone

/-- A key or a row that is an error stops the backfill. -/
theorem refused_error {w : View} {e : IdbError} (he : ∀ msg, e ≠ .constraint msg) :
    Refused index unique [.error e] w (some e) := by
  refine .inr ⟨⟨fun hsound => ?_, fun h => h.2⟩, fun msg h => he msg (Option.some.inj h)⟩
  obtain ⟨entry, h⟩ := hsound (.error e) (by simp)
  cases h

theorem meets_backfillKeys (pkey : Bytes) (keys : List Key) (seen : List Bytes) (s : σ)
    (hup : Upgrade s) (hone : unique = true → (view s).OneHolder index)
    (hseen : ∀ key ∈ seen, held (view s) index key pkey) :
    Meets (· = s) (backfillKeys limits index unique pkey keys seen)
      (fun _ s' => Upgrade s' ∧
        Filled index unique (derivedKeys limits pkey keys) (view s) (view s'))
      (fun e _ => Refused index unique (derivedKeys limits pkey keys) (view s) e) := by
  -- every key that was seen is held already
  induction keys generalizing seen s with
  | nil =>
      refine meets_pure fun s' hs => ?_
      rw [hs]
      exact ⟨hup, .nil hone⟩
  | cons key keys ih =>
      rw [backfillKeys]
      have hitems : derivedKeys limits pkey (key :: keys) =
          [((key.encodeKey limits).mapError encodeKeyErr).map (·, pkey)] ++
            derivedKeys limits pkey keys := rfl
      rw [hitems]
      cases hencode : (key.encodeKey limits).mapError encodeKeyErr with
      | error e =>
          rw [Prog.lift_error_bind]
          refine meets_throw fun _ _ => Refused.append_left (refused_error fun msg hmsg => ?_)
          cases hkey : key.encodeKey limits with
          | ok bytes =>
              rw [hkey] at hencode
              cases hencode
          | error err =>
              rw [hkey, hmsg] at hencode
              cases hencode
      | ok encoded =>
          rw [Prog.lift_ok_bind]
          split
          · next hmem =>
              have hfirst := filled_held hone (hseen encoded hmem)
              exact (ih seen s hup hone hseen).mono (fun _ h => h)
                (fun _ _ h => ⟨h.1, hfirst.append h.2⟩) fun _ _ h => .append_right hfirst h
          · refine (((meets_putEntry s hup hone encoded pkey).mono (fun _ h => h) (fun _ _ h => h)
              fun e _ h => h.append_left).bind fun _ => ?_)
            refine meets_of_forall fun t ht => ?_
            obtain ⟨hup', hfirst⟩ := ht
            have hseen' : ∀ key ∈ seen ++ [encoded], held (view t) index key pkey := by
              intro key' hkey'
              rw [held, hfirst.entries]
              rcases List.mem_append.mp hkey' with hkey' | hkey'
              · exact .inr (hseen key' hkey')
              · rw [List.mem_singleton.mp hkey']
                exact .inl ⟨rfl, by simp⟩
            exact (ih (seen ++ [encoded]) t hup' hfirst.oneHolder hseen').mono (fun _ h => h)
              (fun _ _ h => ⟨h.1, hfirst.append h.2⟩) fun _ _ h => .append_right hfirst h

/-- The backfill of an index without entries. -/
theorem meets_backfillIndex (store : StoreId) (keyPath : KeyPath) (multiEntry : Bool) (s : σ)
    (hup : Upgrade s) (hempty : ∀ key pk, ¬ held (view s) index key pk) :
    Meets (· = s) (backfillIndex env limits index store keyPath multiEntry unique)
      (fun _ s' => ∃ rows, (view s).Lists store .all false rows ∧
        Filled index unique (rows.flatMap (derivedRow env limits keyPath multiEntry)) (view s)
          (view s'))
      (fun e _ => ∃ rows, (view s).Lists store .all false rows ∧
        Refused index unique (rows.flatMap (derivedRow env limits keyPath multiEntry)) (view s)
          e) := by
  have hone : unique = true → (view s).OneHolder index :=
    fun _ key pk pk' h => absurd h (hempty key pk)
  have hscan := (LawfulTxn.scanRows s store .all false).and
    (scanRows_upgrade s store .all false hup)
  refine ((hscan.mono (fun _ h => h) (fun _ _ h => h) fun _ _ h => h.2).mapErr
    fun _ _ h => h.elim).bind fun rows => ?_
  rintro s' ⟨⟨rfl, hrows⟩, -⟩
  -- induction on the rows: each is refused, or its keys are added to what is there
  have hloop (rows : List (Bytes × Bytes × Option Bytes)) : ∀ t : σ, Upgrade t →
      (unique = true → (view t).OneHolder index) →
      Meets (· = t) (Prog.forEach (fun row : Bytes × Bytes × Option Bytes => do
          let keys ← Prog.lift (recordKeys env limits keyPath multiEntry (row.2.2.getD []))
          backfillKeys limits index unique row.2.1 keys []) rows)
        (fun _ t' => Filled index unique (rows.flatMap (derivedRow env limits keyPath multiEntry))
          (view t) (view t'))
        (fun e _ => Refused index unique (rows.flatMap (derivedRow env limits keyPath multiEntry))
          (view t) e) := by
    induction rows with
    | nil =>
        intro t _ hone
        refine meets_pure fun t' ht => ?_
        rw [ht]
        exact .nil hone
    | cons row rows ih =>
        intro t hup hone
        rw [List.flatMap_cons]
        have hrow : Meets (· = t) (do
            let keys ← Prog.lift (recordKeys env limits keyPath multiEntry (row.2.2.getD []))
            backfillKeys limits index unique row.2.1 keys [])
            (fun _ t' => Upgrade t' ∧
              Filled index unique (derivedRow env limits keyPath multiEntry row) (view t) (view t'))
            (fun e _ => Refused index unique (derivedRow env limits keyPath multiEntry row)
              (view t) e) := by
          unfold derivedRow
          cases hkeys : recordKeys env limits keyPath multiEntry (row.2.2.getD []) with
          | error e =>
              rw [Prog.lift_error_bind]
              exact meets_throw fun _ _ => refused_error (recordKeys_ne_constraint hkeys)
          | ok keys =>
              rw [Prog.lift_ok_bind]
              exact meets_backfillKeys row.2.1 keys [] t hup hone fun _ h => by cases h
        refine (hrow.mono (fun _ h => h) (fun _ _ h => h) fun _ _ h => h.append_left).bind
          fun _ => meets_of_forall fun t' ht' => ?_
        obtain ⟨hup', hfirst⟩ := ht'
        exact (ih t' hup' hfirst.oneHolder).mono (fun _ h => h) (fun _ _ h => hfirst.append h)
          fun _ _ h => .append_right hfirst h
  exact (hloop rows s' hup hone s' rfl).mono (fun _ _ h => ⟨rows, hrows, h⟩)
    fun _ _ h => ⟨rows, hrows, h⟩

end Loops

end BoaIdb.Driver
