import BoaIdb.Core.Utf16Lossy
import BoaIdb.Driver.SchemaMirror

/-!
Names of databases and of stores, from the script to where they are compared.

A name is escaped on its way in, except where a transaction is opened: there it is converted
lossily.
-/

namespace BoaIdb.Driver

open Faults Utf16String

/-! ### Conversions -/

section Names

variable (digit : ℕ → Char)

/-- The name under which `open` and `deleteDatabase` ask for a database. A storage holds one
database for each name. -/
def databaseName (name : Utf16String) : String := name.toEscaped digit

/-- The name that `createObjectStore`, `deleteObjectStore` and `objectStore` pass on. -/
def storeName (name : Utf16String) : String := name.toEscaped digit

/-- The store of a name that is given to `IDBDatabase.transaction`. -/
def scopedStore (m : DatabaseMeta) (name : Utf16String) : Option StoreMeta :=
  liveStoreNamed m (.ofString name.toText)

def resolveName (m : DatabaseMeta) (name : Utf16String) : Except IdbError StoreId :=
  (scopedStore m name).elim (.error (storeNotFound name.toText)) fun s => .ok s.id

/-- The scope of `IDBDatabase.transaction`. -/
def resolveScope (m : DatabaseMeta) (names : List Utf16String) : Except IdbError (List StoreId) :=
  if names.isEmpty then .error (.invalidAccess "Transaction scope must not be empty.")
  else names.mapM (resolveName m)

/-- What `IDBTransaction.objectStore` reads of a transaction; `stores` are the handles that it has
given out, by name. -/
structure TxnNames where
  finished : Bool
  mode : TxnMode
  scope : List StoreId
  metadata : DatabaseMeta
  stores : List (String × StoreId)

/-- `txn_store_id`. -/
def txnStoreId (t : TxnNames) (name : String) : Except IdbError StoreId :=
  if t.finished then .error .transactionInactive
  else
    ((t.metadata.stores.filter fun s => !s.deleted).filter fun s =>
      decide (t.mode = .versionChange) || t.scope.contains s.id).find?
        (fun s => decide (s.name = .ofString name)) |>.elim
      (.error (storeNotFound name)) fun s => .ok s.id

/-- `IDBTransaction.objectStore`, the store that the handle is of. -/
def objectStore (t : TxnNames) (name : Utf16String) : Except IdbError StoreId :=
  if t.finished then .error (.invalidState "The transaction is finished.")
  else
    match t.stores.lookup (storeName digit name) with
    | some id => .ok id
    | none =>
        match txnStoreId t (storeName digit name) with
        | .ok id => .ok id
        | .error _ =>
            .error (.notFound ("Object store '" ++ storeName digit name ++
              "' not found in transaction scope"))

/-! ### Stores created under a name -/

/-- The store is the live one with the name that `createObjectStore` makes of a script's name. -/
structure CreatedUnder (name : Utf16String) (m : DatabaseMeta) (store : StoreMeta) : Prop where
  mem : store ∈ m.stores
  live : store.deleted = false
  name : store.name = .ofString (storeName digit name)
  only : ∀ s ∈ m.stores, s.deleted = false → s.name = store.name → s = store

/-- Different names denote different databases. -/
def DatabasesApart (name : Utf16String) : Prop :=
  ∀ other, other ≠ name → databaseName digit other ≠ databaseName digit name

/-- Different names denote different stores of a database, by creation and in a scope. -/
structure StoresApart (name : Utf16String) : Prop where
  created : ∀ other, other ≠ name → ∀ m store, CreatedUnder digit name m store →
    ¬ CreatedUnder digit other m store
  inScope : ∀ other, other ≠ name → ∀ m store, scopedStore m name = some store →
    scopedStore m other ≠ some store

/-- A store that was created under a name is found under it. -/
structure Found (name : Utf16String) : Prop where
  inScope : ∀ m store, CreatedUnder digit name m store → resolveScope m [name] = .ok [store.id]
  returned : ∀ (t : TxnNames) (store : StoreMeta), CreatedUnder digit name t.metadata store →
    t.finished = false → t.mode = .versionChange ∨ store.id ∈ t.scope →
    (∀ id, t.stores.lookup (storeName digit name) = some id → id = store.id) →
    objectStore digit t name = .ok store.id

/-- What `createObjectStore` leaves is created under its name. -/
def Creates (name : Utf16String) : Prop :=
  ∀ {σ : Type} [SchemaTxn σ] [LawfulSchema σ] (h : UpgradeHandle σ) (b : σ), Tracks h b →
    ∀ (keyPath : Option KeyPath) (autoIncrement : Bool),
      Meets (· = some h) (schemaCreateStore (storeName digit name) keyPath autoIncrement)
        (fun store s => ∃ h', s = some h' ∧ CreatedUnder digit name h'.metadata store)
        fun _ => Unchanged h b

variable {digit}

/-! ### Lookups -/

section Lookups

variable {name other : Utf16String} {m : DatabaseMeta} {store : StoreMeta}

/-- The first live store of a name, when there is only one. -/
theorem find_only {stores : List StoreMeta} {p : StoreMeta → Bool} (hmem : store ∈ stores)
    (hp : p store = true) (honly : ∀ s ∈ stores, p s = true → s = store) :
    stores.find? p = some store := by
  cases hfind : stores.find? p with
  | none => exact absurd hp (by simpa using List.find?_eq_none.mp hfind store hmem)
  | some s => rw [honly s (List.mem_of_find?_eq_some hfind) (List.find?_some hfind)]

theorem CreatedUnder.liveStoreNamed (h : CreatedUnder digit name m store) :
    liveStoreNamed m (.ofString (storeName digit name)) = some store := by
  refine find_only h.mem (by simp [h.live, h.name]) fun s hs hp => ?_
  obtain ⟨hlive, hname⟩ := Bool.and_eq_true_iff.mp hp
  exact h.only s hs (by simpa using hlive) ((of_decide_eq_true hname).trans h.name.symm)

theorem CreatedUnder.txnStoreId {t : TxnNames} (h : CreatedUnder digit name t.metadata store)
    (hfinished : t.finished = false) (hscope : t.mode = .versionChange ∨ store.id ∈ t.scope) :
    txnStoreId t (storeName digit name) = .ok store.id := by
  rw [Driver.txnStoreId, hfinished, if_neg Bool.false_ne_true]
  have hfind : ((t.metadata.stores.filter fun s => !s.deleted).filter fun s =>
      decide (t.mode = .versionChange) || t.scope.contains s.id).find?
        (fun s => decide (s.name = .ofString (storeName digit name))) = some store := by
    refine find_only ?_ (by simp [h.name]) fun s hs hp => ?_
    · refine List.mem_filter.mpr ⟨List.mem_filter.mpr ⟨h.mem, by simp [h.live]⟩, ?_⟩
      rcases hscope with hmode | hmem
      · simp [hmode]
      · simp [hmem]
    · obtain ⟨hs, -⟩ := List.mem_filter.mp hs
      obtain ⟨hs, hlive⟩ := List.mem_filter.mp hs
      exact h.only s hs (by simpa using hlive) ((of_decide_eq_true hp).trans h.name.symm)
  rw [hfind]
  rfl

/-- `objectStore` looks for the name that `createObjectStore` gave. -/
theorem CreatedUnder.objectStore {t : TxnNames} (h : CreatedUnder digit name t.metadata store)
    (hfinished : t.finished = false) (hscope : t.mode = .versionChange ∨ store.id ∈ t.scope)
    (hhandles : ∀ id, t.stores.lookup (storeName digit name) = some id → id = store.id) :
    objectStore digit t name = .ok store.id := by
  rw [Driver.objectStore, hfinished, if_neg Bool.false_ne_true]
  cases hlookup : t.stores.lookup (storeName digit name) with
  | some id => rw [hhandles id hlookup]
  | none => rw [h.txnStoreId hfinished hscope]

end Lookups

/-- The new store is the only live one of its name. -/
theorem creates (name : Utf16String) : Creates digit name := by
  intro σ _ _ h b ht keyPath autoIncrement
  refine (meets_check ht _).bind fun _ => Meets.of_imp fun _ => ?_
  refine (meets_handle ht).bind fun h' => Meets.of_imp ?_
  rintro ⟨rfl, hlive⟩
  refine (meets_check ht _).bind fun _ => Meets.of_imp fun hfree => ?_
  refine (meets_change ht hlive (LawfulSchema.createStore b _ _ _)).bind fun id =>
    Meets.of_exists fun b' => Meets.of_imp ?_
  rintro ⟨-, -⟩
  have hedited : Meets (· = some (h'.withBackend b')) (editMetadata fun m => { m with
      nextStoreId := if m.nextStoreId ≤ id then id + 1 else m.nextStoreId
      stores := m.stores ++ [⟨id, .ofString (storeName digit name), keyPath.getD .empty,
        autoIncrement, keyGenStart, [], false⟩] }) _ (fun _ => Unchanged h' b) :=
    meets_editHandle (b := b') hlive rfl
  refine hedited.bind fun _ => ?_
  rintro s rfl
  refine ⟨_, rfl, List.mem_append_right _ (List.mem_singleton_self _), rfl, rfl, ?_⟩
  intro s hs hslive hsname
  rcases List.mem_append.mp hs with hs | hs
  · -- no live store had the name
    exfalso
    rw [checkStoreName] at hfree
    split at hfree
    · cases hfree
    · next hnone =>
        have hmissing := List.find?_eq_none.mp (Option.not_isSome_iff_eq_none.mp hnone) s hs
        simp [hslive, hsname] at hmissing
  · exact List.mem_singleton.mp hs

/-! ### Stores that are alone -/

/-- A database with one store. -/
def oneStore (name : Utf16String) : DatabaseMeta :=
  ⟨[], 1, [⟨1, name, .empty, false, keyGenStart, [], false⟩], 2, 1⟩

def onlyStore (name : Utf16String) : StoreMeta := ⟨1, name, .empty, false, keyGenStart, [], false⟩

theorem createdUnder_oneStore {name : Utf16String} {stored : Utf16String}
    (h : stored = .ofString (storeName digit name)) :
    CreatedUnder digit name (oneStore stored) (onlyStore stored) :=
  ⟨.head _, rfl, h, fun _ hs _ _ => List.mem_singleton.mp hs⟩

theorem scopedStore_oneStore {name stored : Utf16String} :
    scopedStore (oneStore stored) name =
      if stored = .ofString name.toText then some (onlyStore stored) else none := by
  rw [scopedStore, liveStoreNamed, oneStore, List.find?_cons, List.find?_nil]
  by_cases h : stored = .ofString name.toText
  · rw [if_pos h]
    simp [h, onlyStore]
  · rw [if_neg h]
    simp [h]

/-! ### When names are told apart -/

theorem createdApart_iff (name : Utf16String) :
    (∀ other, other ≠ name → ∀ m store, CreatedUnder digit name m store →
      ¬ CreatedUnder digit other m store) ↔ Paired name ∧ Unescaped digit name := by
  rw [← toEscaped_ne_iff]
  refine forall₂_congr fun other _ => ⟨fun h heq => ?_, fun h m store hname hother => ?_⟩
  · refine h _ _ (createdUnder_oneStore rfl) (createdUnder_oneStore ?_)
    exact congrArg Utf16String.ofString heq.symm
  · exact h (ofString_inj.mp (hother.name.symm.trans hname.name))

theorem scopedApart_iff (name : Utf16String) :
    (∀ other, other ≠ name → ∀ m store, scopedStore m name = some store →
      scopedStore m other ≠ some store) ↔ Paired name ∧ replacement ∉ decodeLossy name := by
  rw [← toText_ne_iff]
  refine forall₂_congr fun other _ => ⟨fun h heq => ?_, fun h m store hname hother => ?_⟩
  · refine h (oneStore (.ofString name.toText)) (onlyStore (.ofString name.toText)) ?_ ?_
    · rw [scopedStore_oneStore, if_pos rfl]
    · rw [scopedStore_oneStore, if_pos (congrArg Utf16String.ofString heq.symm)]
  · have hnamed (n : Utf16String) (hn : scopedStore m n = some store) :
        store.name = .ofString n.toText := by
      unfold scopedStore liveStoreNamed at hn
      have hfound := List.find?_some hn
      exact of_decide_eq_true (Bool.and_eq_true_iff.mp hfound).2
    exact h (ofString_inj.mp ((hnamed other hother).symm.trans (hnamed name hname)))

theorem found_iff (name : Utf16String) : Found digit name ↔ Paired name := by
  rw [← @toEscaped_eq_toText_iff digit]
  constructor
  · intro h
    have hresolve := h.inScope _ _ (createdUnder_oneStore rfl)
    by_contra hne
    have hnone : scopedStore (oneStore (.ofString (storeName digit name))) name = none := by
      rw [scopedStore_oneStore]
      exact if_neg fun heq => hne (ofString_inj.mp heq)
    rw [resolveScope, List.isEmpty_cons, if_neg Bool.false_ne_true, List.mapM_cons, resolveName,
      hnone] at hresolve
    cases hresolve
  · intro heq
    refine ⟨fun m store hcreated => ?_, fun t store hcreated => hcreated.objectStore⟩
    have hscoped : scopedStore m name = some store := by
      rw [scopedStore, ← heq]
      exact hcreated.liveStoreNamed
    rw [resolveScope, List.isEmpty_cons, if_neg Bool.false_ne_true, List.mapM_cons, resolveName,
      hscoped]
    rfl

/-- **Names**: which strings stay apart from all others as names of databases and of stores, and
which find the store again that was created under them by `createObjectStore`. -/
theorem names_iff (digit : ℕ → Char) (name : Utf16String) :
    (DatabasesApart digit name ↔ Paired name ∧ Unescaped digit name) ∧
      (StoresApart digit name ↔
        Paired name ∧ Unescaped digit name ∧ replacement ∉ decodeLossy name) ∧
      (Found digit name ↔ Paired name) ∧ Creates digit name := by
  refine ⟨toEscaped_ne_iff name, ?_, found_iff name, creates name⟩
  constructor
  · intro h
    obtain ⟨hpaired, hunescaped⟩ := (createdApart_iff name).mp h.created
    exact ⟨hpaired, hunescaped, ((scopedApart_iff name).mp h.inScope).2⟩
  · rintro ⟨hpaired, hunescaped, hreplacement⟩
    exact ⟨(createdApart_iff name).mpr ⟨hpaired, hunescaped⟩,
      (scopedApart_iff name).mpr ⟨hpaired, hreplacement⟩⟩

/-- `0123456789ABCDEF`. -/
def hexDigit (n : ℕ) : Char := (Nat.digitChar n).toUpper

/-- The six characters `\uD800`. -/
def escapedSurrogate : Utf16String := .ofString "\\uD800"

/-- An unpaired surrogate and its escape are one name, and a store that is created under the
surrogate is not found by a transaction. -/
theorem surrogate_name_confused :
    ([0xD800] : Utf16String) ≠ escapedSurrogate ∧
      databaseName hexDigit [0xD800] = databaseName hexDigit escapedSurrogate ∧
      CreatedUnder hexDigit [0xD800] (oneStore escapedSurrogate) (onlyStore escapedSurrogate) ∧
      CreatedUnder hexDigit escapedSurrogate (oneStore escapedSurrogate)
        (onlyStore escapedSurrogate) ∧
      resolveScope (oneStore escapedSurrogate) [[0xD800]] = .error (storeNotFound "\uFFFD") ∧
      ¬ DatabasesApart hexDigit [0xD800] ∧ ¬ StoresApart hexDigit [0xD800] ∧
      ¬ Found hexDigit [0xD800] := by
  have hne : ([0xD800] : Utf16String) ≠ escapedSurrogate := by decide
  have hname : databaseName hexDigit [0xD800] = "\\uD800" := by decide
  have hother : databaseName hexDigit escapedSurrogate = "\\uD800" := by decide
  have hcreated : CreatedUnder hexDigit [0xD800] (oneStore escapedSurrogate)
      (onlyStore escapedSurrogate) :=
        createdUnder_oneStore (congrArg Utf16String.ofString hname.symm)
  have hcreated' : CreatedUnder hexDigit escapedSurrogate (oneStore escapedSurrogate)
      (onlyStore escapedSurrogate) :=
        createdUnder_oneStore (congrArg Utf16String.ofString hother.symm)
  have hmissing : resolveScope (oneStore escapedSurrogate) [[0xD800]] =
      .error (storeNotFound "\uFFFD") := by decide
  refine ⟨hne, hname.trans hother.symm, hcreated, hcreated', hmissing, fun h => ?_, fun h => ?_,
    fun h => ?_⟩
  · exact h _ hne.symm (hother.trans hname.symm)
  · exact h.created _ hne.symm _ _ hcreated hcreated'
  · have hfound := h.inScope _ _ hcreated
    rw [hmissing] at hfound
    cases hfound

end Names

end BoaIdb.Driver
