import BoaIdb.Cursor.Seek
import BoaIdb.Sqlite.Cursor

/-!
Where a seek leaves the cursor of the SQLite backend, and how that compares with the merge
cursor over the same rows.
-/

namespace BoaIdb.Sqlite

open OrdMap CursorMaps

namespace SqliteCursor

variable (sha256 : Bytes → Bytes)

/-- A cursor that was opened so, wherever it stands. -/
structure Scans (s : SqliteCursor) (src : SourceRef) (range : EncodedRange) (dir : Direction)
    (keyOnly : Bool) : Prop where
  kind : s.kind = (SqliteCursor.open src range dir keyOnly).kind
  range : s.range = range
  orderDesc : s.orderDesc = dir.isPrev
  keyOnly : s.keyOnly = keyOnly

/-- The rows of a scan in the order of its direction. -/
def allRows (t : Tables) (src : SourceRef) (range : EncodedRange) (dir : Direction)
    (keyOnly : Bool) : List QueryRow :=
  queryRows t (SqliteCursor.open src range dir keyOnly) none

/-- What a caller reads of a row, with the value from its file if it has one. -/
def content (files : BlobFiles) (row : QueryRow) :
    Except BackendError (Bytes × Bytes × Option Bytes) :=
  match row.value, row.ext with
  | some v, _ => .ok (row.key, row.primaryKey, some v)
  | none, some path =>
      (BlobFiles.read sha256 files path).map fun data => (row.key, row.primaryKey, some data)
  | none, none => .ok (row.key, row.primaryKey, none)

/-- A scan of the tables shows these rows. -/
def Shows (t : Tables) (files : BlobFiles) (src : SourceRef) (range : EncodedRange)
    (dir : Direction) (keyOnly : Bool) (rows : List (Bytes × Bytes × Option Bytes)) : Prop :=
  List.Forall₂ (fun q r => content sha256 files q = .ok r) (allRows t src range dir keyOnly) rows

/-- The next row, or the end. -/
def Lands (result : CursorM (Bool × SqliteCursor)) : Option (Bytes × Bytes × Option Bytes) → Prop
  | some r => ∃ s', result = .ok (true, s') ∧ s'.exhausted = false ∧ s'.row = r
  | none => ∃ s', result = .ok (false, s') ∧ s'.exhausted = true

/-! ### The query of a seek -/

/-- A query row at or past the target. -/
def rowAtOrPast (desc : Bool) (target : CursorSeek) (q : QueryRow) : Bool :=
  BoaIdb.atOrPast desc target (q.key, q.primaryKey, none)

variable {t : Tables} {s : SqliteCursor} {src : SourceRef} {range : EncodedRange}
  {dir : Direction} {keyOnly : Bool} {target : CursorSeek}

theorem atOrPast_rewound (s : SqliteCursor) (target : CursorSeek) (bound key : Bytes) :
    (s.rewound target).atOrPast bound key = reaches s.orderDesc bound key := by
  show s.atOrPast bound key = _
  unfold SqliteCursor.atOrPast
  cases s.orderDesc with
  | true => exact Bool.eq_iff_iff.mpr (by simp [reaches_true])
  | false => exact Bool.eq_iff_iff.mpr (by simp [reaches_false])

theorem strictlyPast_rewound (s : SqliteCursor) (target : CursorSeek) (bound key : Bytes) :
    (s.rewound target).strictlyPast bound key = ahead s.orderDesc bound key := by
  show s.strictlyPast bound key = _
  unfold SqliteCursor.strictlyPast ahead
  cases s.orderDesc <;> exact Bool.eq_iff_iff.mpr (by simp)

theorem seekPredicate_rewound (s : SqliteCursor) (target : CursorSeek) (key pkey : Bytes) :
    (s.rewound target).seekPredicate key pkey =
      BoaIdb.atOrPast s.orderDesc target (key, pkey, none) := by
  cases target with
  | first => rfl
  | key k => exact atOrPast_rewound s (.key k) k key
  | keyAndPrimaryKey k p =>
      show ((s.rewound (.keyAndPrimaryKey k p)).strictlyPast k key || (decide (key = k) &&
        (s.rewound (.keyAndPrimaryKey k p)).atOrPast p pkey)) = _
      rw [strictlyPast_rewound, atOrPast_rewound, BoaIdb.atOrPast]
      simp only [eq_comm]

theorem ordered_filter {α : Type} (s : SqliteCursor) (p : α → Bool) (l : List α) :
    s.ordered (l.filter p) = (s.ordered l).filter p := by
  unfold ordered
  split_ifs
  · exact (List.filter_reverse ..).symm
  · rfl

/-- A condition on keys alone keeps or drops whole groups. -/
theorem groupMins_filter (p : Bytes → Bool) (l : List IndexKey) :
    groupMins (l.filter fun k => p k.key) = (groupMins l).filter fun k => p k.key := by
  unfold groupMins
  rw [List.filter_filter, List.filter_filter]
  refine List.filter_congr fun k _ => Bool.eq_iff_iff.mpr ?_
  simp only [Bool.and_eq_true, decide_eq_true_eq, List.mem_filter]
  constructor
  · rintro ⟨hmin, hp⟩
    exact ⟨hp, fun k' hk' hkey => hmin k' ⟨hk', hkey ▸ hp⟩ hkey⟩
  · rintro ⟨hp, hmin⟩
    exact ⟨fun k' hk' hkey => hmin k' hk'.1 hkey, hp⟩

theorem columns_row (s : SqliteCursor) (key pkey : Bytes) (row : RecordRow) :
    (s.columns key pkey row).key = key ∧ (s.columns key pkey row).primaryKey = pkey := by
  unfold columns
  split_ifs <;> exact ⟨rfl, rfl⟩

theorem joined_row {store : StoreId} {k : IndexKey} {q : QueryRow}
    (h : joined t s store k = some q) : q.key = k.key ∧ q.primaryKey = k.primaryKey := by
  obtain ⟨row, -, rfl⟩ := Option.map_eq_some_iff.mp h
  exact columns_row s _ _ row

theorem filterMap_joined_filter {store : StoreId} (p : Bytes → Bytes → Bool) (l : List IndexKey) :
    (l.filter fun k => p k.key k.primaryKey).filterMap (joined t s store) =
      (l.filterMap (joined t s store)).filter fun q => p q.key q.primaryKey := by
  induction l with
  | nil => rfl
  | cons k l ih =>
      rw [List.filter_cons]
      cases hj : joined t s store k with
      | none =>
          rw [List.filterMap_cons_none hj, ← ih]
          split_ifs
          · exact List.filterMap_cons_none hj
          · rfl
      | some q =>
          obtain ⟨hk, hp⟩ := joined_row hj
          rw [List.filterMap_cons_some hj, List.filter_cons, hk, hp, ← ih]
          split_ifs
          · exact List.filterMap_cons_some hj
          · rfl

theorem rewound_eq (hs : s.Scans src range dir keyOnly) (target : CursorSeek) :
    s.rewound target = (SqliteCursor.open src range dir keyOnly).rewound target := by
  obtain ⟨hkind, rfl, horder, rfl⟩ := hs
  unfold rewound
  rw [hkind, horder]
  rfl

/-- The query of a seek selects, of all rows, those at or past the target. -/
theorem queryRows_rewound (hs : s.Scans src range dir keyOnly) (htarget : target.Addresses dir) :
    queryRows t (s.rewound target) none =
      (allRows t src range dir keyOnly).filter (rowAtOrPast dir.isPrev target) := by
  rw [rewound_eq hs]
  let c := SqliteCursor.open src range dir keyOnly
  have hseek (key pkey : Bytes) : (c.rewound target).seekPredicate key pkey =
      BoaIdb.atOrPast dir.isPrev target (key, pkey, none) := seekPredicate_rewound c target key pkey
  unfold allRows
  cases src with
  | store store =>
      show ((c.rewound target).ordered (t.records.entries.filter fun e =>
          decide (e.1.store = store) && range.contains e.1.key &&
            (c.rewound target).seekPredicate e.1.key e.1.key)).map _ =
        ((c.ordered (t.records.entries.filter fun e =>
          decide (e.1.store = store) && range.contains e.1.key && true)).map fun e =>
            c.columns e.1.key e.1.key e.2).filter _
      have hrow (e : RecordKey × RecordRow) :
          rowAtOrPast dir.isPrev target (c.columns e.1.key e.1.key e.2) =
            BoaIdb.atOrPast dir.isPrev target (e.1.key, e.1.key, none) := by
        rw [rowAtOrPast, (columns_row c _ _ e.2).1, (columns_row c _ _ e.2).2]
      rw [List.filter_map, ← ordered_filter, List.filter_filter]
      simp only [hseek, Function.comp_def, hrow, Bool.and_true]
      show (c.ordered _).map _ = (c.ordered _).map _
      simp only [Bool.and_comm]
      rfl
  | index store index =>
      cases hu : dir.isUnique with
      | false =>
          have hkind : c.kind = .index store index false := by simp [c, SqliteCursor.open, hu]
          have hkind' : (c.rewound target).kind = .index store index false := hkind
          have hall : queryRows t c none = (c.ordered (t.indexRecords.keys.filter fun k =>
              decide (k.index = index) && range.contains k.key && true)).filterMap
                (joined t c store) := by
            rw [queryRows, hkind]
            rfl
          have hquery : queryRows t (c.rewound target) none =
              (c.ordered (t.indexRecords.keys.filter fun k => decide (k.index = index) &&
                range.contains k.key &&
                  (c.rewound target).seekPredicate k.key k.primaryKey)).filterMap
                  (joined t c store) := by
            rw [queryRows, hkind']
            rfl
          show queryRows t (c.rewound target) none = (queryRows t c none).filter _
          have hrow (q : QueryRow) : rowAtOrPast dir.isPrev target q =
              BoaIdb.atOrPast dir.isPrev target (q.key, q.primaryKey, none) := rfl
          rw [hall, hquery, List.filter_congr fun q _ => hrow q, ← filterMap_joined_filter
            (fun key pkey => BoaIdb.atOrPast dir.isPrev target (key, pkey, none)), ← ordered_filter,
            List.filter_filter]
          simp only [hseek, Bool.true_and, Bool.and_comm]
      | true =>
          -- a group is kept or dropped as a whole
          obtain ⟨p, hp⟩ : ∃ p : Bytes → Bool, ∀ key pkey,
              BoaIdb.atOrPast dir.isPrev target (key, pkey, none) = p key ∧
                (c.rewound target).resumeGrouped none key = p key := by
            cases target with
            | first => exact htarget.elim
            | key k =>
                exact ⟨fun key => reaches dir.isPrev k key, fun key _ =>
                  ⟨rfl, atOrPast_rewound c (.key k) k key⟩⟩
            | keyAndPrimaryKey k p => exact Bool.noConfusion (htarget.symm.trans hu)
          have hkind : c.kind = .index store index true := by simp [c, SqliteCursor.open, hu]
          have hkind' : (c.rewound target).kind = .index store index true := hkind
          have hall :
              queryRows t c none = (c.ordered (groupMins (t.indexRecords.keys.filter fun k =>
              decide (k.index = index) && range.contains k.key && true))).filterMap
                (joined t c store) := by
            rw [queryRows, hkind]
            rfl
          have hquery : queryRows t (c.rewound target) none =
              (c.ordered (groupMins (t.indexRecords.keys.filter fun k => decide (k.index = index) &&
                range.contains k.key && (c.rewound target).resumeGrouped none k.key))).filterMap
                  (joined t c store) := by
            rw [queryRows, hkind']
            rfl
          have hrow (q : QueryRow) : rowAtOrPast dir.isPrev target q = p q.key := (hp _ _).1
          show queryRows t (c.rewound target) none = (queryRows t c none).filter _
          rw [hall, hquery, List.filter_congr fun q _ => hrow q,
            ← filterMap_joined_filter (fun key _ => p key), ← ordered_filter, ← groupMins_filter,
            List.filter_filter]
          have hresume (key : Bytes) : (c.rewound target).resumeGrouped none key = p key :=
            (hp key []).2
          simp only [hresume, Bool.true_and, Bool.and_comm]

/-! ### The first page -/

theorem noteAppended_eq (s : SqliteCursor) (key pkey : Bytes) :
    ∃ anchor anchorEq, s.noteAppended key pkey = { s with anchor, anchorEq } := by
  unfold noteAppended
  split_ifs
  · exact ⟨_, _, rfl⟩
  · exact ⟨_, _, rfl⟩

/-- With no row to leave out, a page appends all its rows. -/
theorem appendRows_all (anchor : Option (Bytes × Bytes)) (grouped : Bool) (rows : List QueryRow)
    (added : Bool) (s : SqliteCursor) :
    ∃ anchor' anchorEq, appendRows anchor grouped rows 0 added s =
      (added || !rows.isEmpty, { s with
        buffer := s.buffer ++ rows.map fun q => ⟨q.key, q.primaryKey, entryValue q⟩
        anchor := anchor'
        anchorEq }) := by
  induction rows generalizing added s with
  | nil => exact ⟨s.anchor, s.anchorEq, by simp [appendRows]⟩
  | cons q rows ih =>
      obtain ⟨a, n, hnote⟩ := s.noteAppended_eq q.key q.primaryKey
      rw [appendRows, if_neg (by simp)]
      simp only [hnote]
      obtain ⟨a', n', hrest⟩ := ih true
        { s with
          buffer := s.buffer ++ [⟨q.key, q.primaryKey, entryValue q⟩], anchor := a, anchorEq := n }
      exact ⟨a', n', by rw [hrest]; simp⟩

/-- The page of a seek holds the first rows of its query. -/
theorem fetchNextPage_rewound (t : Tables) (s : SqliteCursor) (target : CursorSeek) :
    ∃ anchor anchorEq, fetchNextPage t (s.rewound target) =
      .ok (!(queryRows t (s.rewound target) none).isEmpty, { s.rewound target with
        buffer := ((queryRows t (s.rewound target) none).take pageSize).map fun q =>
          ⟨q.key, q.primaryKey, entryValue q⟩
        exhausted := (queryRows t (s.rewound target) none).isEmpty
        anchor
        anchorEq }) := by
  have hskip : (if (s.rewound target).grouped then 0 else (s.rewound target).anchorEq) = 0 :=
    ite_self _
  have hempty : (query t (s.rewound target) (s.rewound target).anchor).isEmpty =
      (queryRows t (s.rewound target) none).isEmpty := by
    show ((queryRows t (s.rewound target) none).take pageSize).isEmpty = _
    cases queryRows t (s.rewound target) none <;> rfl
  obtain ⟨a, n, hrows⟩ := appendRows_all (s.rewound target).anchor (s.rewound target).grouped
    (query t (s.rewound target) (s.rewound target).anchor) false (s.rewound target)
  refine ⟨a, n, ?_⟩
  unfold fetchNextPage
  simp only [hskip, hrows, hempty, Bool.false_or]
  cases hr : (queryRows t (s.rewound target) none).isEmpty with
  | true =>
      rw [if_neg (by simp [rewound])]
      rfl
  | false =>
      rw [if_neg (by simp [rewound])]
      rfl

/-- The head of a buffer that starts under the cursor. -/
theorem materializeCurrent_head {files : BlobFiles} {q : QueryRow} {rest : List CursorEntry}
    {r : Bytes × Bytes × Option Bytes} (hlive : s.exhausted = false) (hpos : s.pos = 0)
    (hstart : s.bufStart = 0) (hbuffer : s.buffer = ⟨q.key, q.primaryKey, entryValue q⟩ :: rest)
    (hcontent : content sha256 files q = .ok r)
    (hkeyOnly : s.keyOnly = true → q.value = none ∧ q.ext = none) :
    ∃ s', materializeCurrent sha256 files s = .ok s' ∧ s'.exhausted = false ∧ s'.row = r := by
  obtain ⟨kind, range, seekKey, seekPkey, orderDesc, keyOnly, buffer, bufStart, pos, exhausted,
    anchor, anchorEq⟩ := s
  obtain ⟨key, pkey, value, ext⟩ := q
  simp only at hlive hpos hstart hbuffer hkeyOnly
  subst hlive hpos hstart hbuffer
  cases keyOnly with
  | true =>
      obtain ⟨rfl, rfl⟩ := hkeyOnly rfl
      cases hcontent
      exact ⟨_, rfl, rfl, rfl⟩
  | false =>
      cases value with
      | some v =>
          cases hcontent
          exact ⟨_, rfl, rfl, rfl⟩
      | none =>
          cases ext with
          | none =>
              cases hcontent
              exact ⟨_, rfl, rfl, rfl⟩
          | some path =>
              have hcontent : (BlobFiles.read sha256 files path).map
                  (fun data => (key, pkey, some data)) = .ok r := hcontent
              cases hread : BlobFiles.read sha256 files path with
              | error e =>
                  rw [hread] at hcontent
                  cases hcontent
              | ok data =>
                  rw [hread] at hcontent
                  cases hcontent
                  refine ⟨⟨kind, range, seekKey, seekPkey, orderDesc, false,
                    ⟨key, pkey, .external path (some data)⟩ :: rest, 0, 0, false, anchor, anchorEq⟩,
                    ?_, rfl, rfl⟩
                  simp [materializeCurrent, hread, entryValue]

theorem content_row {files : BlobFiles} {q : QueryRow} {r : Bytes × Bytes × Option Bytes}
    (h : content sha256 files q = .ok r) : r.1 = q.key ∧ r.2.1 = q.primaryKey := by
  obtain ⟨key, pkey, value, ext⟩ := q
  cases value with
  | some v =>
      cases h
      exact ⟨rfl, rfl⟩
  | none =>
      cases ext with
      | none =>
          cases h
          exact ⟨rfl, rfl⟩
      | some path =>
          have h : (BlobFiles.read sha256 files path).map (fun data => (key, pkey, some data)) =
              .ok r := h
          cases hread : BlobFiles.read sha256 files path with
          | error e =>
              rw [hread] at h
              cases h
          | ok data =>
              rw [hread] at h
              cases h
              exact ⟨rfl, rfl⟩

/-- The first match of the query is that of the rows it shows. -/
theorem find?_content {files : BlobFiles} {l : List QueryRow}
    {rows : List (Bytes × Bytes × Option Bytes)}
    (h : List.Forall₂ (fun q r => content sha256 files q = .ok r) l rows) (desc : Bool)
    (target : CursorSeek) :
    (l.filter (rowAtOrPast desc target) = [] ∧ rows.find? (BoaIdb.atOrPast desc target) = none) ∨
      ∃ q rest r, l.filter (rowAtOrPast desc target) = q :: rest ∧
        content sha256 files q = .ok r ∧ rows.find? (BoaIdb.atOrPast desc target) = some r := by
  induction h with
  | nil => exact .inl ⟨rfl, rfl⟩
  | @cons q r l rows hq _ ih =>
      obtain ⟨hkey, hpkey⟩ := content_row sha256 hq
      have hmatch : rowAtOrPast desc target q = BoaIdb.atOrPast desc target r := by
        rw [rowAtOrPast, ← hkey, ← hpkey]
        cases target <;> rfl
      rw [List.filter_cons, List.find?_cons, hmatch]
      cases BoaIdb.atOrPast desc target r with
      | true => exact .inr ⟨q, _, r, rfl, hq, rfl⟩
      | false => exact ih

/-- A scan of keys alone selects no value. -/
theorem allRows_keyOnly {q : QueryRow} (h : q ∈ allRows t src range dir true) :
    q.value = none ∧ q.ext = none := by
  have hjoined {store : StoreId} {l : List IndexKey}
      (h : q ∈ l.filterMap (joined t (SqliteCursor.open src range dir true) store)) :
      q.value = none ∧ q.ext = none := by
    obtain ⟨k, -, hk⟩ := List.mem_filterMap.mp h
    obtain ⟨row, -, rfl⟩ := Option.map_eq_some_iff.mp hk
    exact ⟨rfl, rfl⟩
  unfold allRows queryRows at h
  split at h
  · obtain ⟨e, -, rfl⟩ := List.mem_map.mp h
    exact ⟨rfl, rfl⟩
  · exact hjoined h
  · exact hjoined h

/-- A seek lands on the first row at or past the target. -/
theorem seek_lands {files : BlobFiles} {rows : List (Bytes × Bytes × Option Bytes)}
    (hs : s.Scans src range dir keyOnly) (htarget : target.Addresses dir)
    (hrows : Shows sha256 t files src range dir keyOnly rows) :
    Lands (seek sha256 t files s target) (rows.find? (BoaIdb.atOrPast dir.isPrev target)) := by
  obtain ⟨a, n, hpage⟩ := fetchNextPage_rewound t s target
  have hquery := queryRows_rewound (t := t) hs htarget
  unfold seek
  rw [hpage, hquery]
  rcases find?_content sha256 hrows dir.isPrev target with
    ⟨hnone, hfind⟩ | ⟨q, rest, r, hq, hr, hfind⟩
  · rw [hnone, hfind]
    exact ⟨_, rfl, rfl⟩
  · rw [hq, hfind]
    have hmem : q ∈ allRows t src range dir keyOnly :=
      (List.mem_filter.mp (hq ▸ List.mem_cons_self : q ∈ _)).1
    obtain ⟨s', hs', hlive, hrow⟩ := materializeCurrent_head sha256 (s := { s.rewound target with
        buffer := ((q :: rest).take pageSize).map fun q => ⟨q.key, q.primaryKey, entryValue q⟩
        exhausted := (q :: rest).isEmpty
        anchor := a
        anchorEq := n }) (q := q) rfl rfl rfl rfl hr fun hk => by
      have hk : keyOnly = true := hs.keyOnly.symm.trans hk
      exact allRows_keyOnly (hk ▸ hmem)
    refine ⟨s', ?_, hlive, hrow⟩
    show (materializeCurrent sha256 files _ >>= fun c => Except.ok (true, c)) = _
    rw [hs']
    rfl

end SqliteCursor

/-! ### The three backends -/

/-- **Seek positions.** The merge cursor of the memory and the filesystem backend lands on the
first row at or past a target, and the cursor of SQLite on the same one over the same rows,
exactly when the floor of the merge cursor lets through what the target asks for. -/
theorem seek_position_iff {maps : CursorMaps} {src : SourceRef} {range : EncodedRange}
    {dir : Direction} {keyOnly : Bool} {c : Cursor} {target : CursorSeek}
    (hc : c.Scans maps src range dir keyOnly) (htarget : target.Addresses dir) :
    (Cursor.Lands (c.seek target) (maps.firstAtOrPast src range dir keyOnly target) ∧
      ∀ (sha256 : Bytes → Bytes) (t : Tables) (files : BlobFiles) (s : SqliteCursor),
        s.Scans src range dir keyOnly →
        SqliteCursor.Shows sha256 t files src range dir keyOnly
          (maps.rows src range dir keyOnly) →
        SqliteCursor.Lands (SqliteCursor.seek sha256 t files s target)
          (maps.firstAtOrPast src range dir keyOnly target)) ↔
      maps.FloorExact src range dir keyOnly target := by
  refine Iff.trans ?_ (Cursor.seek_lands_iff hc htarget)
  constructor
  · intro h
    exact h.1
  · intro h
    exact ⟨h, fun sha256 t files s hs hrows => SqliteCursor.seek_lands sha256 hs htarget hrows⟩

/-- An index with two groups, the first of two rows. -/
def twoGroups : CursorMaps where
  records := OrderedMap.empty.insert ⟨1, [1]⟩ [10] |>.insert ⟨1, [2]⟩ [20]
  index := OrderedMap.empty.insert ⟨1, [5], [1]⟩ () |>.insert ⟨1, [5], [2]⟩ ()
    |>.insert ⟨1, [7], [1]⟩ ()
  pendingRecords := .empty
  pendingIndex := .empty

/-- The tables with the same rows. -/
def twoGroupTables : Tables := { Tables.empty [] with
  records := OrderedMap.empty.insert ⟨1, [1]⟩ ⟨some [10], none⟩ |>.insert ⟨1, [2]⟩ ⟨some [20], none⟩
  indexRecords := OrderedMap.empty.insert ⟨1, [5], [1]⟩ () |>.insert ⟨1, [5], [2]⟩ ()
    |>.insert ⟨1, [7], [1]⟩ () }

theorem shows_twoGroups : SqliteCursor.Shows id twoGroupTables .empty (.index 1 1) .all .prev false
    (twoGroups.rows (.index 1 1) .all .prev false) :=
  .cons rfl (.cons rfl (.cons rfl .nil))

/-- Backwards from between the groups. -/
theorem seek_position_between :
    Cursor.Lands ((Cursor.scan twoGroups (.index 1 1) .all .prev false).seek (.key [6]))
        (some ([5], [2], some [20])) ∧
      SqliteCursor.Lands (SqliteCursor.seek id twoGroupTables .empty
        (SqliteCursor.open (.index 1 1) .all .prev false) (.key [6]))
          (some ([5], [2], some [20])) := by
  have hfloor : twoGroups.FloorExact (.index 1 1) .all .prev false (.key [6]) := by
    intro store index _ _ r hr hkey
    have hr : r ∈ [([7], [1], some [10]), ([5], [2], some [20]), ([5], [1], some [10])] := hr
    simp only [List.mem_cons, List.not_mem_nil, or_false] at hr
    rcases hr with rfl | rfl | rfl <;> cases hkey
  have htarget : (CursorSeek.key [6]).Addresses .prev := trivial
  have h := (seek_position_iff (Cursor.scans_scan twoGroups (.index 1 1) .all .prev false)
    htarget).mpr hfloor
  exact ⟨h.1, h.2 id twoGroupTables .empty _ ⟨rfl, rfl, rfl, rfl⟩ shows_twoGroups⟩

/-- Backwards to the key of a group, the whole group is passed over; a store takes no notice of
a primary key. -/
theorem seek_position_missed :
    (¬ Cursor.Lands ((Cursor.scan twoGroups (.index 1 1) .all .prev false).seek (.key [5]))
        (twoGroups.firstAtOrPast (.index 1 1) .all .prev false (.key [5])) ∧
      SqliteCursor.Lands (SqliteCursor.seek id twoGroupTables .empty
        (SqliteCursor.open (.index 1 1) .all .prev false) (.key [5]))
        (twoGroups.firstAtOrPast (.index 1 1) .all .prev false (.key [5]))) ∧
    ¬ Cursor.Lands ((Cursor.scan twoGroups (.store 1) .all .next false).seek
        (.keyAndPrimaryKey [1] [2]))
      (twoGroups.firstAtOrPast (.store 1) .all .next false (.keyAndPrimaryKey [1] [2])) := by
  refine ⟨⟨fun h => ?_, ?_⟩, fun h => ?_⟩
  · have hend : Cursor.Lands
        ((Cursor.scan twoGroups (.index 1 1) .all .prev false).seek (.key [5])) none :=
          ⟨_, rfl, rfl⟩
    have hrow : twoGroups.firstAtOrPast (.index 1 1) .all .prev false (.key [5]) =
        some ([5], [2], some [20]) := rfl
    have heq := hend.unique h
    rw [hrow] at heq
    cases heq
  · exact SqliteCursor.seek_lands id ⟨rfl, rfl, rfl, rfl⟩ trivial shows_twoGroups
  · have hfirst : Cursor.Lands ((Cursor.scan twoGroups (.store 1) .all .next false).seek
        (.keyAndPrimaryKey [1] [2])) (some ([1], [1], some [10])) := ⟨_, rfl, rfl, rfl⟩
    have hrow : twoGroups.firstAtOrPast (.store 1) .all .next false (.keyAndPrimaryKey [1] [2]) =
        some ([2], [2], some [20]) := rfl
    have heq := hfirst.unique h
    rw [hrow] at heq
    cases heq

end BoaIdb.Sqlite
