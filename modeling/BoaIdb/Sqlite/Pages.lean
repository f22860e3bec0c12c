import BoaIdb.Sqlite.Seek

/-!
The pages of the SQLite cursor.

The rows of a query stand in the order of its columns. A page that resumes at a row therefore
selects the rows from there on, and with the rows that it leaves out it is the next piece of
the list that the query without a limit returns.
-/

namespace BoaIdb.Sqlite

open OrdMap CursorMaps

namespace SqliteCursor

variable {t : Tables} {c : SqliteCursor}

/-! ### The order of the rows -/

/-- The rows in the range, before a seek or an anchor selects among them. -/
def rangeRows (t : Tables) (c : SqliteCursor) : List QueryRow :=
  queryRows t { c with seekKey := none, seekPkey := none } none

/-- The predicate of a seek or an anchor. -/
def resumes (c : SqliteCursor) (anchor : Option (Bytes × Bytes)) (q : QueryRow) : Bool :=
  match c.kind with
  | .store _ => c.resumeStore anchor q.key
  | .index _ _ true => c.resumeGrouped anchor q.key
  | .index _ _ false => c.resumeIndex anchor q.key q.primaryKey

/-- The order of the rows: by key, and in a plain index by primary key under that. -/
def Before (c : SqliteCursor) (q q' : QueryRow) : Prop :=
  match c.kind with
  | .index _ _ false =>
      ahead c.orderDesc q.key q'.key = true ∨
        q.key = q'.key ∧ ahead c.orderDesc q.primaryKey q'.primaryKey = true
  | _ => ahead c.orderDesc q.key q'.key = true

theorem atOrPast_eq (c : SqliteCursor) (bound key : Bytes) :
    c.atOrPast bound key = reaches c.orderDesc bound key := by
  unfold SqliteCursor.atOrPast
  cases c.orderDesc with
  | true => exact Bool.eq_iff_iff.mpr (by simp [reaches_true])
  | false => exact Bool.eq_iff_iff.mpr (by simp [reaches_false])

theorem strictlyPast_eq (c : SqliteCursor) (bound key : Bytes) :
    c.strictlyPast bound key = ahead c.orderDesc bound key := by
  unfold SqliteCursor.strictlyPast ahead
  cases c.orderDesc <;> exact Bool.eq_iff_iff.mpr (by simp)

/-! Each shape of query, with what the anchor adds kept apart. -/

theorem queryRows_store {store : StoreId} (hkind : c.kind = .store store)
    (anchor : Option (Bytes × Bytes)) : queryRows t c anchor =
      (c.ordered (t.records.entries.filter fun e => decide (e.1.store = store) &&
        c.range.contains e.1.key && c.resumeStore anchor e.1.key)).map fun e =>
          c.columns e.1.key e.1.key e.2 := by
  rw [queryRows, hkind]

theorem queryRows_unique {store : StoreId} {index : IndexId}
    (hkind : c.kind = .index store index true) (anchor : Option (Bytes × Bytes)) :
    queryRows t c anchor =
      (c.ordered (groupMins (t.indexRecords.keys.filter fun k => decide (k.index = index) &&
        c.range.contains k.key && c.resumeGrouped anchor k.key))).filterMap (joined t c store) := by
  rw [queryRows, hkind]

theorem queryRows_plain {store : StoreId} {index : IndexId}
    (hkind : c.kind = .index store index false) (anchor : Option (Bytes × Bytes)) :
    queryRows t c anchor =
      (c.ordered (t.indexRecords.keys.filter fun k => decide (k.index = index) &&
        c.range.contains k.key && c.resumeIndex anchor k.key k.primaryKey)).filterMap
          (joined t c store) := by
  rw [queryRows, hkind]

theorem rangeRows_store {store : StoreId} (hkind : c.kind = .store store) : rangeRows t c =
      (c.ordered (t.records.entries.filter fun e => decide (e.1.store = store) &&
        c.range.contains e.1.key)).map fun e => c.columns e.1.key e.1.key e.2 := by
  have h : rangeRows t c = (c.ordered (t.records.entries.filter fun e =>
      decide (e.1.store = store) && c.range.contains e.1.key && true)).map fun e =>
        c.columns e.1.key e.1.key e.2 :=
    queryRows_store (c := { c with seekKey := none, seekPkey := none }) hkind none
  simpa only [Bool.and_true] using h

theorem rangeRows_unique {store : StoreId} {index : IndexId}
    (hkind : c.kind = .index store index true) : rangeRows t c =
      (c.ordered (groupMins (t.indexRecords.keys.filter fun k => decide (k.index = index) &&
        c.range.contains k.key))).filterMap (joined t c store) := by
  have h : rangeRows t c = (c.ordered (groupMins (t.indexRecords.keys.filter fun k =>
      decide (k.index = index) && c.range.contains k.key && true))).filterMap (joined t c store) :=
    queryRows_unique (c := { c with seekKey := none, seekPkey := none }) hkind none
  simpa only [Bool.and_true] using h

theorem rangeRows_plain {store : StoreId} {index : IndexId}
    (hkind : c.kind = .index store index false) : rangeRows t c =
      (c.ordered (t.indexRecords.keys.filter fun k => decide (k.index = index) &&
        c.range.contains k.key)).filterMap (joined t c store) := by
  have h : rangeRows t c = (c.ordered (t.indexRecords.keys.filter fun k =>
      decide (k.index = index) && c.range.contains k.key && true)).filterMap (joined t c store) :=
    queryRows_plain (c := { c with seekKey := none, seekPkey := none }) hkind none
  simpa only [Bool.and_true] using h

/-- A query selects rows of the range. -/
theorem queryRows_eq_filter (t : Tables) (c : SqliteCursor) (anchor : Option (Bytes × Bytes)) :
    queryRows t c anchor = (rangeRows t c).filter (c.resumes anchor) := by
  cases hkind : c.kind with
  | store store =>
      have hresumes (e : RecordKey × RecordRow) :
          c.resumes anchor (c.columns e.1.key e.1.key e.2) = c.resumeStore anchor e.1.key := by
        rw [resumes, hkind, (columns_row c _ _ e.2).1]
      rw [queryRows_store hkind, rangeRows_store hkind, List.filter_map, ← ordered_filter,
        List.filter_filter]
      simp only [Function.comp_def, hresumes, Bool.and_comm]
  | index store index unique =>
      cases unique with
      | true =>
          have hresumes : c.resumes anchor = fun q => c.resumeGrouped anchor q.key := by
            funext q
            rw [resumes, hkind]
          rw [queryRows_unique hkind, rangeRows_unique hkind, hresumes,
            ← filterMap_joined_filter (fun key _ => c.resumeGrouped anchor key), ← ordered_filter,
            ← groupMins_filter, List.filter_filter]
          simp only [Bool.and_comm]
      | false =>
          have hresumes : c.resumes anchor = fun q => c.resumeIndex anchor q.key q.primaryKey := by
            funext q
            rw [resumes, hkind]
          rw [queryRows_plain hkind, rangeRows_plain hkind, hresumes,
            ← filterMap_joined_filter (fun key pkey => c.resumeIndex anchor key pkey),
            ← ordered_filter, List.filter_filter]
          simp only [Bool.and_comm]

theorem ordered_pairwise {α K : Type} [LinearOrder K] (f : α → K) {l : List α}
    (h : l.Pairwise fun a b => f a < f b) :
    (c.ordered l).Pairwise fun a b => ahead c.orderDesc (f a) (f b) = true := by
  unfold ordered ahead
  cases c.orderDesc with
  | true =>
      simp only [if_true, decide_eq_true_eq]
      exact List.pairwise_reverse.mpr h
  | false =>
      simp only [Bool.false_eq_true, if_false, decide_eq_true_eq]
      exact h

theorem mem_ordered {α : Type} {l : List α} {a : α} : a ∈ c.ordered l ↔ a ∈ l := by
  unfold ordered
  split_ifs
  · exact List.mem_reverse
  · exact Iff.rfl

/-- The order of the joined rows of an index is that of its entries. -/
theorem joined_pairwise {store : StoreId} {l : List IndexKey} {r : IndexKey → IndexKey → Prop}
    {r' : QueryRow → QueryRow → Prop} (h : l.Pairwise r)
    (hr : ∀ k ∈ l, ∀ k' ∈ l, r k k' → ∀ q q', q.key = k.key → q.primaryKey = k.primaryKey →
      q'.key = k'.key → q'.primaryKey = k'.primaryKey → r' q q') :
    (l.filterMap (joined t c store)).Pairwise r' := by
  rw [List.pairwise_filterMap]
  refine h.imp_of_mem fun {k k'} hk hk' hkk' q hq q' hq' => ?_
  obtain ⟨hkey, hpkey⟩ := joined_row hq
  obtain ⟨hkey', hpkey'⟩ := joined_row hq'
  exact hr k hk k' hk' hkk' q q' hkey hpkey hkey' hpkey'

/-- The rows in the range are in order. -/
theorem rangeRows_pairwise (t : Tables) (c : SqliteCursor) : (rangeRows t c).Pairwise c.Before := by
  cases hkind : c.kind with
  | store store =>
      rw [rangeRows_store hkind, List.pairwise_map]
      have hsorted := ordered_pairwise (c := c) Prod.fst (t.records.sorted.filter fun e =>
        decide (e.1.store = store) && c.range.contains e.1.key)
      refine hsorted.imp_of_mem fun {a b} ha hb hab => ?_
      have hstore {e : RecordKey × RecordRow} (he : e ∈ c.ordered (t.records.entries.filter fun e =>
          decide (e.1.store = store) && c.range.contains e.1.key)) : e.1.store = store := by
        have hmem := (List.mem_filter.mp (mem_ordered.mp he)).2
        rw [Bool.and_eq_true] at hmem
        exact of_decide_eq_true hmem.1
      rw [Before, hkind]
      show ahead c.orderDesc (c.columns _ _ _).key (c.columns _ _ _).key = true
      rw [(columns_row c _ _ a.2).1, (columns_row c _ _ b.2).1]
      rwa [ahead_recordKey ((hstore ha).trans (hstore hb).symm)] at hab
  | index store index unique =>
      have hindex {k : IndexKey} (hk : k ∈ t.indexRecords.keys.filter fun k =>
          decide (k.index = index) && c.range.contains k.key) : k.index = index := by
        have hmem := (List.mem_filter.mp hk).2
        rw [Bool.and_eq_true] at hmem
        exact of_decide_eq_true hmem.1
      have hsorted := t.indexRecords.keys_sorted.filter fun k =>
        decide (k.index = index) && c.range.contains k.key
      cases unique with
      | true =>
          rw [rangeRows_unique hkind]
          refine joined_pairwise (ordered_pairwise id (hsorted.filter _)) ?_
          intro k hk k' hk' hkk' q q' hkey _ hkey' _
          obtain ⟨hk, hmin⟩ := Cursor.mem_groupMins.mp (mem_ordered.mp hk)
          obtain ⟨hk', hmin'⟩ := Cursor.mem_groupMins.mp (mem_ordered.mp hk')
          rw [Before, hkind]
          show ahead c.orderDesc q.key q'.key = true
          rw [hkey, hkey']
          rcases (ahead_indexKey ((hindex hk).trans (hindex hk').symm)).mp hkk' with h | ⟨h, hp⟩
          · exact h
          · -- the smallest members of one group are one
            have heq : k.primaryKey = k'.primaryKey :=
              le_antisymm (hmin k' hk' h.symm) (hmin' k hk h)
            have hp : ahead c.orderDesc k.primaryKey k'.primaryKey = true := hp
            rw [heq, ahead_irrefl] at hp
            cases hp
      | false =>
          rw [rangeRows_plain hkind]
          refine joined_pairwise (ordered_pairwise id hsorted) ?_
          intro k hk k' hk' hkk' q q' hkey hpkey hkey' hpkey'
          have hk := hindex (mem_ordered.mp hk)
          have hk' := hindex (mem_ordered.mp hk')
          rw [Before, hkind]
          show ahead c.orderDesc q.key q'.key = true ∨ _
          rw [hkey, hkey', hpkey, hpkey']
          exact (ahead_indexKey (hk.trans hk'.symm)).mp hkk'

/-! ### Where a page resumes -/

theorem ahead_asymm {K : Type} [LinearOrder K] {desc : Bool} {a b : K} (h : ahead desc a b = true) :
    ahead desc b a = false := by
  cases hba : ahead desc b a with
  | false => rfl
  | true => rw [← ahead_trans h hba, ahead_irrefl]

theorem reaches_ahead {K : Type} [LinearOrder K] {desc : Bool} {a b : K}
    (h : ahead desc a b = true) : reaches desc b a = false := by
  refine Bool.eq_false_iff.mpr fun hreach => ?_
  rcases reaches_iff.mp hreach with rfl | hba
  · rw [ahead_irrefl] at h
    cases h
  · rw [ahead_asymm h] at hba
    cases hba

theorem reaches_reaches {K : Type} [LinearOrder K] {desc : Bool} {a b d : K}
    (hab : reaches desc a b = true) (hbd : reaches desc b d = true) : reaches desc a d = true := by
  rcases reaches_iff.mp hbd with rfl | hbd
  · exact hab
  · exact reaches_trans hab hbd

theorem seekPredicate_mono {key pkey key' pkey' : Bytes} (h : c.seekPredicate key pkey = true)
    (hpast : ahead c.orderDesc key key' = true ∨ key = key' ∧
      reaches c.orderDesc pkey pkey' = true) :
    c.seekPredicate key' pkey' = true := by
  unfold seekPredicate at h ⊢
  cases hseek : c.seekKey with
  | none => rfl
  | some target =>
      cases hpkey : c.seekPkey with
      | none =>
          simp only [hseek, hpkey, atOrPast_eq] at h ⊢
          rcases hpast with hpast | ⟨rfl, -⟩
          · exact reaches_trans h hpast
          · exact h
      | some seekPkey =>
          simp only [hseek, hpkey, atOrPast_eq, strictlyPast_eq, Bool.or_eq_true, Bool.and_eq_true,
            decide_eq_true_eq] at h ⊢
          rcases h with h | ⟨rfl, h⟩
          · left
            rcases hpast with hpast | ⟨rfl, -⟩
            · exact ahead_trans h hpast
            · exact h
          · rcases hpast with hpast | ⟨rfl, hp⟩
            · exact .inl hpast
            · exact .inr ⟨rfl, reaches_reaches h hp⟩

/-- A row that a seek selects carries along all rows from it on. -/
theorem resumes_none_of_anchor {x y : QueryRow} (hx : c.resumes none x = true)
    (hy : c.resumes (some (x.key, x.primaryKey)) y = true) : c.resumes none y = true := by
  cases hkind : c.kind with
  | store store =>
      simp only [resumes, hkind] at hx hy ⊢
      have hy : c.atOrPast x.key y.key = true := hy
      rw [atOrPast_eq] at hy
      refine seekPredicate_mono hx ?_
      rcases reaches_iff.mp hy with heq | hahead
      · exact .inr ⟨heq, hy⟩
      · exact .inl hahead
  | index store index unique =>
      cases unique with
      | true =>
          simp only [resumes, hkind] at hx hy ⊢
          have hy : c.strictlyPast x.key y.key = true := hy
          rw [strictlyPast_eq] at hy
          have hx : c.seekKey.all (fun target => c.atOrPast target x.key) = true := hx
          show c.seekKey.all (fun target => c.atOrPast target y.key) = true
          cases hseek : c.seekKey with
          | none => rfl
          | some target =>
              rw [hseek, Option.all_some, atOrPast_eq] at hx
              rw [Option.all_some, atOrPast_eq]
              exact reaches_trans hx hy
      | false =>
          simp only [resumes, hkind] at hx hy ⊢
          have hy : (c.strictlyPast x.key y.key || (decide (y.key = x.key) &&
            c.atOrPast x.primaryKey y.primaryKey)) = true := hy
          rw [atOrPast_eq, strictlyPast_eq, Bool.or_eq_true, Bool.and_eq_true,
            decide_eq_true_eq] at hy
          exact seekPredicate_mono hx (hy.imp_right fun h => ⟨h.1.symm, h.2⟩)

theorem resumes_before {x y : QueryRow} (h : c.Before y x) :
    c.resumes (some (x.key, x.primaryKey)) y = false := by
  cases hkind : c.kind with
  | store store =>
      simp only [Before, hkind] at h
      simp only [resumes, hkind]
      show c.atOrPast x.key y.key = false
      rw [atOrPast_eq, reaches_ahead h]
  | index store index unique =>
      cases unique with
      | true =>
          simp only [Before, hkind] at h
          simp only [resumes, hkind]
          show c.strictlyPast x.key y.key = false
          rw [strictlyPast_eq, ahead_asymm h]
      | false =>
          simp only [Before, hkind] at h
          simp only [resumes, hkind]
          show (c.strictlyPast x.key y.key || (decide (y.key = x.key) &&
            c.atOrPast x.primaryKey y.primaryKey)) = false
          rw [atOrPast_eq, strictlyPast_eq]
          rcases h with h | ⟨hkey, h⟩
          · have hne : y.key ≠ x.key := by
              intro heq
              rw [heq, ahead_irrefl] at h
              cases h
            rw [ahead_asymm h, decide_eq_false hne]
            rfl
          · rw [hkey, ahead_irrefl, reaches_ahead h, Bool.and_false]
            rfl

theorem resumes_after {x y : QueryRow} (h : c.Before x y) :
    c.resumes (some (x.key, x.primaryKey)) y = true := by
  cases hkind : c.kind with
  | store store =>
      simp only [Before, hkind] at h
      simp only [resumes, hkind]
      show c.atOrPast x.key y.key = true
      rw [atOrPast_eq]
      exact reaches_iff.mpr (.inr h)
  | index store index unique =>
      cases unique with
      | true =>
          simp only [Before, hkind] at h
          simp only [resumes, hkind]
          show c.strictlyPast x.key y.key = true
          rwa [strictlyPast_eq]
      | false =>
          simp only [Before, hkind] at h
          simp only [resumes, hkind]
          show (c.strictlyPast x.key y.key || (decide (y.key = x.key) &&
            c.atOrPast x.primaryKey y.primaryKey)) = true
          rw [atOrPast_eq, strictlyPast_eq, Bool.or_eq_true, Bool.and_eq_true, decide_eq_true_eq]
          exact h.imp_right fun h => ⟨h.1.symm, reaches_iff.mpr (.inr h.2)⟩

/-- The anchor itself comes again, except under a grouping. -/
theorem resumes_self (c : SqliteCursor) (x : QueryRow) :
    c.resumes (some (x.key, x.primaryKey)) x = !c.grouped := by
  cases hkind : c.kind with
  | store store =>
      simp only [resumes, grouped, hkind]
      show c.atOrPast x.key x.key = true
      rw [atOrPast_eq]
      exact reaches_iff.mpr (.inl rfl)
  | index store index unique =>
      cases unique with
      | true =>
          simp only [resumes, grouped, hkind]
          show c.strictlyPast x.key x.key = false
          rw [strictlyPast_eq, ahead_irrefl]
      | false =>
          simp only [resumes, grouped, hkind]
          show (c.strictlyPast x.key x.key || (decide (x.key = x.key) &&
            c.atOrPast x.primaryKey x.primaryKey)) = true
          rw [atOrPast_eq, decide_eq_true rfl, reaches_iff.mpr (.inl rfl), Bool.and_true,
            Bool.or_true]

/-- A page that resumes at a row of the query selects its rows from there on. -/
theorem queryRows_resume {i : ℕ} {x : QueryRow} (hx : (queryRows t c none)[i]? = some x) :
    queryRows t c (some (x.key, x.primaryKey)) =
      (queryRows t c none).drop (if c.grouped then i + 1 else i) := by
  have hmem := List.mem_of_getElem? hx
  rw [queryRows_eq_filter, List.mem_filter] at hmem
  have hsorted : (queryRows t c none).Pairwise c.Before := by
    rw [queryRows_eq_filter]
    exact (rangeRows_pairwise t c).filter _
  have hnarrow : queryRows t c (some (x.key, x.primaryKey)) =
      (queryRows t c none).filter (c.resumes (some (x.key, x.primaryKey))) := by
    rw [queryRows_eq_filter, queryRows_eq_filter t c none, List.filter_filter]
    refine List.filter_congr fun y _ => ?_
    cases hy : c.resumes (some (x.key, x.primaryKey)) y with
    | false => rfl
    | true => rw [resumes_none_of_anchor hmem.2 hy]; rfl
  rw [hnarrow, OrderedMap.filter_eq_drop hsorted hx (fun y => resumes_before)
    (fun y => resumes_after),
    resumes_self]
  cases c.grouped <;> rfl

/-- No two rows of a query have the same keys. -/
theorem queryRows_distinct (t : Tables) (c : SqliteCursor) (anchor : Option (Bytes × Bytes)) :
    ((queryRows t c anchor).map fun q => (q.key, q.primaryKey)).Nodup := by
  have hsorted : (queryRows t c anchor).Pairwise c.Before := by
    rw [queryRows_eq_filter]
    exact (rangeRows_pairwise t c).filter _
  refine List.pairwise_map.mpr (hsorted.imp fun {a b} hab heq => ?_)
  obtain ⟨hkey, hpkey⟩ := Prod.mk.inj heq
  cases hkind : c.kind with
  | store store =>
      simp only [Before, hkind, hkey, ahead_irrefl] at hab
      cases hab
  | index store index unique =>
      cases unique with
      | true =>
          simp only [Before, hkind, hkey, ahead_irrefl] at hab
          cases hab
      | false =>
          simp only [Before, hkind, hkey, hpkey, ahead_irrefl] at hab
          simp at hab

/-- A scan of keys alone selects no value. -/
theorem queryRows_keyOnly {anchor : Option (Bytes × Bytes)} {q : QueryRow} (h : c.keyOnly = true)
    (hq : q ∈ queryRows t c anchor) : q.value = none ∧ q.ext = none := by
  have hcolumns (key pkey : Bytes) (row : RecordRow) :
      (c.columns key pkey row).value = none ∧ (c.columns key pkey row).ext = none := by
    rw [columns, if_pos h]
    exact ⟨rfl, rfl⟩
  have hjoined {store : StoreId} {l : List IndexKey} (hq : q ∈ l.filterMap (joined t c store)) :
      q.value = none ∧ q.ext = none := by
    obtain ⟨k, -, hk⟩ := List.mem_filterMap.mp hq
    obtain ⟨row, -, rfl⟩ := Option.map_eq_some_iff.mp hk
    exact hcolumns _ _ row
  cases hkind : c.kind with
  | store store =>
      rw [queryRows_store hkind] at hq
      obtain ⟨e, -, rfl⟩ := List.mem_map.mp hq
      exact hcolumns _ _ e.2
  | index store index unique =>
      cases unique with
      | true =>
          rw [queryRows_unique hkind] at hq
          exact hjoined hq
      | false =>
          rw [queryRows_plain hkind] at hq
          exact hjoined hq

theorem length_ordered {α : Type} (l : List α) : (c.ordered l).length = l.length := by
  unfold ordered
  split_ifs
  · exact List.length_reverse
  · rfl

theorem length_queryRows_le (t : Tables) (c : SqliteCursor) (anchor : Option (Bytes × Bytes)) :
    (queryRows t c anchor).length ≤ t.records.size + t.indexRecords.size := by
  have hindex {store : StoreId} {l : List IndexKey} (h : l.length ≤ t.indexRecords.size) :
      ((c.ordered l).filterMap (joined t c store)).length ≤
        t.records.size + t.indexRecords.size := by
    have hle := List.length_filterMap_le (joined t c store) (c.ordered l)
    rw [length_ordered] at hle
    omega
  have hkeys (p : IndexKey → Bool) :
      (t.indexRecords.keys.filter p).length ≤ t.indexRecords.size := by
    refine (List.length_filter_le _ _).trans ?_
    exact (List.length_map _).le
  cases hkind : c.kind with
  | store store =>
      rw [queryRows_store hkind, List.length_map, length_ordered]
      exact (List.length_filter_le _ _).trans (Nat.le_add_right _ _)
  | index store index unique =>
      cases unique with
      | true =>
          rw [queryRows_unique hkind]
          exact hindex ((List.length_filter_le _ _).trans (hkeys _))
      | false =>
          rw [queryRows_plain hkind]
          exact hindex (hkeys _)

end SqliteCursor

end BoaIdb.Sqlite
