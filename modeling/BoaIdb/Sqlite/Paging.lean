import BoaIdb.Sqlite.Pages

/-!
The SQLite cursor against the plain list of its rows.

The buffer is a window of the list: it starts at the row `buf_start` and ends with the rows
that were fetched. Each page extends it, and a page that makes it long drops the rows before
the position. The position may then lie behind the page, and the drain is out of range.
-/

namespace BoaIdb.Sqlite

namespace SqliteCursor

variable (sha256 : Bytes → Bytes)

abbrev Row := Bytes × Bytes × Option Bytes

/-! ### The plain list -/

/-- The row at a position of the list, or the end. -/
def plainRow (files : BlobFiles) (rows : List QueryRow) (pos : ℕ) : CursorM (Option Row) :=
  match rows[pos]? with
  | none => .ok none
  | some q =>
      match content sha256 files q with
      | .ok r => .ok (some r)
      | .error e => .error (.failed e)

/-- The rows that steps from a position of the list land on. -/
def plainSteps (files : BlobFiles) (rows : List QueryRow) : ℕ → List ℕ → CursorM (List (Option Row))
  | _, [] => .ok []
  | pos, count :: counts => do
      let row ← plainRow sha256 files rows (pos + count)
      let rest ← plainSteps files rows (pos + count) counts
      .ok (row :: rest)

/-- A seek and steps in the list. -/
def plainWalk (files : BlobFiles) (rows : List QueryRow) (counts : List ℕ) :
    CursorM (List (Option Row)) := do
  let row ← plainRow sha256 files rows 0
  let rest ← plainSteps sha256 files rows 0 counts
  .ok (row :: rest)

/-! ### The cursor -/

/-- What a caller sees behind a call. -/
def seen (result : Bool × SqliteCursor) : Option Row :=
  if result.1 then some result.2.row else none

/-- The rows that steps of the cursor land on. -/
def walkSteps (t : Tables) (files : BlobFiles) : SqliteCursor → List ℕ → CursorM (List (Option Row))
  | _, [] => .ok []
  | c, count :: counts => do
      let result ← step sha256 t files c count
      let rest ← walkSteps t files result.2 counts
      .ok (seen result :: rest)

/-- A seek and steps of the cursor. -/
def walk (t : Tables) (files : BlobFiles) (c : SqliteCursor) (target : CursorSeek)
    (counts : List ℕ) : CursorM (List (Option Row)) := do
  let result ← seek sha256 t files c target
  let rest ← walkSteps sha256 t files result.2 counts
  .ok (seen result :: rest)

/-- How many rows were fetched since the seek. -/
def filled (c : SqliteCursor) : ℕ := c.bufStart + c.buffer.length

/-- How many rows a page adds; the anchor comes again except under a grouping. -/
def pageGain (c : SqliteCursor) : ℕ := if c.grouped then pageSize else pageSize - 1

/-- How many rows of `total` are fetched after some more pages. -/
def pageEnd (c : SqliteCursor) (total pages : ℕ) : ℕ := min (c.filled + pages * c.pageGain) total

/-- A page fills the buffer beyond 512 rows and still ends before the position. -/
def Overruns (c : SqliteCursor) (total pos : ℕ) : Prop :=
  ∃ pages, 0 < pages ∧ c.bufStart + 512 < c.pageEnd total pages ∧ c.pageEnd total pages < pos

/-- A step from here ends within the page that fills the buffer beyond 512 rows, if there is one. -/
def StepWithin (c : SqliteCursor) (total count : ℕ) : Prop :=
  c.exhausted = false → ¬ c.Overruns total (c.pos + count)

def StepsWithin (t : Tables) (files : BlobFiles) (total : ℕ) : SqliteCursor → List ℕ → Prop
  | _, [] => True
  | c, count :: counts => c.StepWithin total count ∧
      ∀ result, step sha256 t files c count = .ok result → StepsWithin t files total result.2 counts

/-- Every step after the seek, from the state in which it is made. -/
def WalkWithin (t : Tables) (files : BlobFiles) (c : SqliteCursor) (target : CursorSeek)
    (counts : List ℕ) : Prop :=
  ∀ result, seek sha256 t files c target = .ok result →
    StepsWithin sha256 t files (queryRows t (c.rewound target) none).length result.2 counts

/-! ### The window -/

def keys (q : QueryRow) : Bytes × Bytes := (q.key, q.primaryKey)

def toEntry (q : QueryRow) : CursorEntry := ⟨q.key, q.primaryKey, entryValue q⟩

/-- An entry of the buffer for a row, with the bytes of its file or without. -/
structure Holds (files : BlobFiles) (q : QueryRow) (e : CursorEntry) : Prop where
  key : e.key = q.key
  primaryKey : e.primaryKey = q.primaryKey
  value : e.value = entryValue q ∨ ∃ path data, q.value = none ∧ q.ext = some path ∧
    BlobFiles.read sha256 files path = .ok data ∧ e.value = .external path (some data)

/-- The buffer is a window of the list, up to the rows that were fetched. -/
structure Paged (t : Tables) (files : BlobFiles) (rows : List QueryRow) (c : SqliteCursor) :
    Prop where
  /-- A page that resumes at a row of the list continues it. -/
  resume : ∀ (i : ℕ) (x : QueryRow), rows[i]? = some x →
    queryRows t c (some (keys x)) = rows.drop (if c.grouped then i + 1 else i)
  distinct : (rows.map keys).Nodup
  keyOnly : c.keyOnly = true → ∀ q ∈ rows, q.value = none ∧ q.ext = none
  buffered : ∀ i e, c.buffer[i]? = some e →
    ∃ q, rows[c.bufStart + i]? = some q ∧ Holds sha256 files q e
  /-- The anchor is the last row that was fetched. -/
  anchor : ∃ m x, c.filled = m + 1 ∧ rows[m]? = some x ∧ c.anchor = some (keys x)
  anchorEq : c.anchorEq = 1
  live : c.exhausted = false

/-- The cursor stands on a row of its buffer. -/
structure Stands (t : Tables) (files : BlobFiles) (rows : List QueryRow) (c : SqliteCursor)
    (pos : ℕ) : Prop where
  paged : Paged sha256 t files rows c
  pos_eq : c.pos = pos
  start_le : c.bufStart ≤ pos
  lt_filled : pos < c.filled

variable {sha256} {t : Tables} {files : BlobFiles} {rows : List QueryRow} {c : SqliteCursor}

theorem Paged.filled_le (h : Paged sha256 t files rows c) : c.filled ≤ rows.length := by
  obtain ⟨m, x, hm, hx, -⟩ := h.anchor
  have hlt := (List.getElem?_eq_some_iff.mp hx).1
  omega

/-- What a resumed query selects depends on how the cursor was opened only. -/
theorem queryRows_shape {c' : SqliteCursor} (hkind : c'.kind = c.kind) (hrange : c'.range = c.range)
    (horder : c'.orderDesc = c.orderDesc) (hkeys : c'.keyOnly = c.keyOnly) (a : Bytes × Bytes) :
    queryRows t c' (some a) = queryRows t c (some a) := by
  obtain ⟨kind, range, seekKey, seekPkey, orderDesc, keyOnly, buffer, bufStart, pos, exhausted,
    eq, n⟩ := c
  obtain ⟨kind', range', seekKey', seekPkey', orderDesc', keyOnly', buffer', bufStart', pos',
    exhausted', eq', n'⟩ := c'
  simp only at hkind hrange horder hkeys
  subst hkind hrange horder hkeys
  cases kind' with
  | store store => rfl
  | index store index unique => cases unique <;> rfl

/-! ### Pages -/

/-- A page without a row to leave out, whose rows are new. -/
theorem appendRows_fresh (anchor : Option (Bytes × Bytes)) (grouped : Bool) :
    ∀ (page : List QueryRow) (added : Bool) (c : SqliteCursor),
      (c.anchor.toList ++ page.map keys).Nodup →
      appendRows anchor grouped page 0 added c = (added || !page.isEmpty, { c with
        buffer := c.buffer ++ page.map toEntry
        anchor := (page.getLast?.map keys).or c.anchor
        anchorEq := if page.isEmpty then c.anchorEq else 1 })
  | [], added, c, _ => by
      have hadded : (added || !([] : List QueryRow).isEmpty) = added := Bool.or_false added
      rw [appendRows, hadded, List.map_nil, List.append_nil]
      rfl
  | q :: page, added, c, hnew => by
      have hne : c.anchor ≠ some (q.key, q.primaryKey) := by
        intro heq
        rw [heq] at hnew
        exact (List.nodup_cons.mp hnew).1 (.head _)
      have hrest : (keys q :: page.map keys).Nodup := (List.nodup_append.mp hnew).2.1
      have ih := appendRows_fresh anchor grouped page true
        { c with buffer := c.buffer ++ [toEntry q], anchor := some (keys q), anchorEq := 1 } hrest
      rw [appendRows, if_neg fun h => absurd h.1 (Nat.lt_irrefl 0), noteAppended, if_neg hne]
      refine ih.trans ?_
      cases page with
      | nil => simp [keys, toEntry]
      | cons q' page =>
          have hlast :
              (q' :: page).getLast? = some ((q' :: page).getLast (List.cons_ne_nil q' page)) :=
            List.getLast?_eq_some_getLast _
          rw [List.getLast?_cons_cons, hlast]
          simp [toEntry]

/-- The rows of the next page that are not there yet. -/
def newRows (c : SqliteCursor) (rows : List QueryRow) : List QueryRow :=
  (rows.drop c.filled).take c.pageGain

/-- The cursor with the next page behind its buffer. -/
def extended (c : SqliteCursor) (rows : List QueryRow) : SqliteCursor :=
  { c with
    buffer := c.buffer ++ (c.newRows rows).map toEntry
    anchor := ((c.newRows rows).getLast?.map keys).or c.anchor
    anchorEq := if (c.newRows rows).isEmpty then c.anchorEq else 1 }

theorem length_newRows (c : SqliteCursor) (rows : List QueryRow) :
    (c.newRows rows).length = min c.pageGain (rows.length - c.filled) := by
  rw [newRows, List.length_take, List.length_drop]

theorem newRows_getElem? {i : ℕ} {q : QueryRow} (h : (c.newRows rows)[i]? = some q) :
    rows[c.filled + i]? = some q := by
  rw [newRows, List.getElem?_take] at h
  split at h
  · rwa [List.getElem?_drop] at h
  · cases h

theorem appendRows_paged (h : Paged sha256 t files rows c) :
    appendRows c.anchor c.grouped (query t c c.anchor) (if c.grouped then 0 else c.anchorEq)
      false c =
      (!(c.newRows rows).isEmpty, c.extended rows) := by
  obtain ⟨m, x, hm, hx, hanchor⟩ := h.anchor
  have hsplit : rows.drop m = x :: rows.drop c.filled := by
    rw [hm]
    exact (List.drop_eq_getElem?_toList_append ..).trans (by rw [hx]; rfl)
  have hnew : (c.anchor.toList ++ (c.newRows rows).map keys).Nodup := by
    have hdistinct := h.distinct.sublist ((List.drop_sublist m rows).map keys)
    rw [hsplit] at hdistinct
    rw [hanchor]
    exact hdistinct.sublist (((List.take_sublist c.pageGain _).map keys).cons_cons _)
  have hfresh := appendRows_fresh c.anchor c.grouped (c.newRows rows) false c hnew
  rw [Bool.false_or] at hfresh
  rw [query, hanchor, h.resume m x hx, ← hanchor]
  cases hgrouped : c.grouped with
  | true =>
      have hpage : c.newRows rows = (rows.drop (m + 1)).take pageSize := by
        rw [newRows, pageGain, hgrouped, hm]
        rfl
      rw [if_pos rfl, if_pos rfl, ← hpage, ← hgrouped]
      exact hfresh
  | false =>
      have hpage : c.newRows rows = (rows.drop c.filled).take (pageSize - 1) := by
        rw [newRows, pageGain, hgrouped]
        rfl
      have htake : (rows.drop m).take pageSize = x :: c.newRows rows := by
        rw [hsplit, hpage]
        rfl
      rw [if_neg Bool.false_ne_true, if_neg Bool.false_ne_true, htake, h.anchorEq, appendRows]
      rw [hgrouped] at hfresh
      rw [if_pos ⟨Nat.one_pos, by rw [hanchor]; simp [anchorIsEqual, keys]⟩]
      exact hfresh

theorem pageGain_pos (c : SqliteCursor) : 0 < c.pageGain := by
  rw [pageGain]
  split_ifs
  · decide
  · decide

theorem holds_toEntry (q : QueryRow) : Holds sha256 files q (toEntry q) := ⟨rfl, rfl, .inl rfl⟩

theorem filled_extended (h : Paged sha256 t files rows c) :
    (c.extended rows).filled = c.pageEnd rows.length 1 := by
  have hle := h.filled_le
  have hnew := length_newRows c rows
  have hlength : (c.extended rows).buffer.length = c.buffer.length + (c.newRows rows).length := by
    rw [extended, List.length_append, List.length_map]
  rw [pageEnd, Nat.one_mul]
  have hfilled : c.filled = c.bufStart + c.buffer.length := rfl
  show c.bufStart + (c.extended rows).buffer.length = _
  omega

/-- The next page continues the window. -/
theorem extended_paged (h : Paged sha256 t files rows c) :
    Paged sha256 t files rows (c.extended rows) where
  resume i x hx := (queryRows_shape rfl rfl rfl rfl _).trans (h.resume i x hx)
  distinct := h.distinct
  keyOnly := h.keyOnly
  buffered i e he := by
    -- an entry of the buffer, or one of the new page
    rcases Nat.lt_or_ge i c.buffer.length with hi | hi
    · have he : (c.buffer ++ (c.newRows rows).map toEntry)[i]? = some e := he
      rw [List.getElem?_append_left hi] at he
      exact h.buffered i e he
    · have he : (c.buffer ++ (c.newRows rows).map toEntry)[i]? = some e := he
      rw [List.getElem?_append_right hi, List.getElem?_map, Option.map_eq_some_iff] at he
      obtain ⟨q, hq, rfl⟩ := he
      refine ⟨q, ?_, holds_toEntry q⟩
      show rows[c.bufStart + i]? = some q
      rw [← newRows_getElem? hq, filled]
      congr 1
      omega
  anchor := by
    obtain ⟨m, x, hm, hx, hanchor⟩ := h.anchor
    cases hnew : (c.newRows rows).getLast? with
    | none =>
        have hnil : c.newRows rows = [] := List.getLast?_eq_none_iff.mp hnew
        refine ⟨m, x, ?_, hx, ?_⟩
        · show c.bufStart + (c.buffer ++ (c.newRows rows).map toEntry).length = m + 1
          rw [hnil, List.map_nil, List.append_nil]
          exact hm
        · show ((c.newRows rows).getLast?.map keys).or c.anchor = _
          rw [hnew, hanchor]
          rfl
    | some last =>
        have hlength := length_newRows c rows
        have hpos : 0 < (c.newRows rows).length := by
          rw [List.length_pos_iff]
          rintro hnil
          rw [hnil] at hnew
          cases hnew
        refine ⟨c.filled + (c.newRows rows).length - 1, last, ?_, ?_, ?_⟩
        · show c.bufStart + (c.buffer ++ (c.newRows rows).map toEntry).length = _
          rw [List.length_append, List.length_map, filled]
          omega
        · rw [List.getLast?_eq_getElem?] at hnew
          rw [← newRows_getElem? hnew]
          congr 1
          omega
        · show ((c.newRows rows).getLast?.map keys).or c.anchor = _
          rw [hnew]
          rfl
  anchorEq := by
    show (if (c.newRows rows).isEmpty then c.anchorEq else 1) = 1
    split_ifs
    · exact h.anchorEq
    · rfl
  live := h.live

/-- The window may lose the rows before the position. -/
theorem dropped_paged (h : Paged sha256 t files rows c) (hstart : c.bufStart ≤ c.pos)
    (hend : c.pos ≤ c.filled) : Paged sha256 t files rows
      { c with buffer := c.buffer.drop (c.pos - c.bufStart), bufStart := c.pos } where
  resume i x hx := (queryRows_shape rfl rfl rfl rfl _).trans (h.resume i x hx)
  distinct := h.distinct
  keyOnly := h.keyOnly
  buffered i e he := by
    have he : (c.buffer.drop (c.pos - c.bufStart))[i]? = some e := he
    rw [List.getElem?_drop] at he
    obtain ⟨q, hq, hholds⟩ := h.buffered _ e he
    refine ⟨q, ?_, hholds⟩
    rw [← hq]
    show rows[c.pos + i]? = _
    congr 1
    omega
  anchor := by
    obtain ⟨m, x, hm, hx, hanchor⟩ := h.anchor
    refine ⟨m, x, ?_, hx, hanchor⟩
    have hfilled : c.filled = c.bufStart + c.buffer.length := rfl
    show c.pos + (c.buffer.drop (c.pos - c.bufStart)).length = m + 1
    rw [List.length_drop]
    omega
  anchorEq := h.anchorEq
  live := h.live

/-- The next page: with the drain out of range, without a new row, or with the window extended. -/
theorem fetchNextPage_paged (h : Paged sha256 t files rows c) (hstart : c.bufStart ≤ c.pos) :
    (c.bufStart + 512 < c.pageEnd rows.length 1 → c.pageEnd rows.length 1 < c.pos →
      fetchNextPage t c = .error .panicked) ∧
    (¬ (c.bufStart + 512 < c.pageEnd rows.length 1 ∧ c.pageEnd rows.length 1 < c.pos) →
      (c.filled = rows.length → ∃ c', fetchNextPage t c = .ok (false, c')) ∧
      (c.filled < rows.length → ∃ c', fetchNextPage t c = .ok (true, c') ∧
        Paged sha256 t files rows c' ∧ c'.pos = c.pos ∧ c'.filled = c.pageEnd rows.length 1 ∧
        c'.pageGain = c.pageGain ∧ (c'.bufStart = c.bufStart ∨
          c'.bufStart = c.pos ∧ c.pos ≤ c.pageEnd rows.length 1))) := by
  have hextended := extended_paged h
  have hfilled := filled_extended h
  have hbuffer : c.bufStart + (c.extended rows).buffer.length = c.pageEnd rows.length 1 := hfilled
  have hgain := pageGain_pos c
  have hlength := length_newRows c rows
  have hle := h.filled_le
  -- the drain asks for `512` rows in the buffer and a position `256` behind its start
  have hfetch : fetchNextPage t c =
      if 512 < (c.extended rows).buffer.length ∧ c.bufStart + 256 < c.pos then
        if (c.extended rows).buffer.length < c.pos - c.bufStart then .error .panicked
        else .ok (!(c.newRows rows).isEmpty, { (if (!(c.newRows rows).isEmpty) = true then
          c.extended rows else { c.extended rows with exhausted := true }) with
            buffer := (c.extended rows).buffer.drop (c.pos - c.bufStart), bufStart := c.pos })
      else .ok (!(c.newRows rows).isEmpty, if (!(c.newRows rows).isEmpty) = true then
        c.extended rows else { c.extended rows with exhausted := true }) := by
    rw [fetchNextPage]
    simp only [appendRows_paged h]
    cases (c.newRows rows).isEmpty <;> rfl
  rw [hfetch]
  constructor
  · intro hlong hbehind
    rw [if_pos ⟨by omega, by omega⟩, if_pos (by omega)]
  intro hwithin
  constructor
  · intro hall
    have hnone : (c.newRows rows).isEmpty = true :=
      List.isEmpty_iff_length_eq_zero.mpr (by omega)
    rw [hnone]
    by_cases hlong : 512 < (c.extended rows).buffer.length ∧ c.bufStart + 256 < c.pos
    · rw [if_pos hlong, if_neg (by omega)]
      exact ⟨_, rfl⟩
    · rw [if_neg hlong]
      exact ⟨_, rfl⟩
  · intro hmore
    have hsome : (c.newRows rows).isEmpty = false := by
      rw [Bool.eq_false_iff, Ne, List.isEmpty_iff_length_eq_zero]
      omega
    rw [hsome]
    by_cases hlong : 512 < (c.extended rows).buffer.length ∧ c.bufStart + 256 < c.pos
    · have hpos : c.pos ≤ (c.extended rows).filled := by omega
      rw [if_pos hlong, if_neg (by omega)]
      refine ⟨_, rfl, dropped_paged hextended hstart hpos, rfl, ?_, rfl, .inr ⟨rfl, by omega⟩⟩
      show c.pos + ((c.extended rows).buffer.drop (c.pos - c.bufStart)).length = _
      rw [List.length_drop]
      omega
    · rw [if_neg hlong]
      exact ⟨_, rfl, hextended, rfl, hfilled, rfl, .inl rfl⟩

/-! ### The loop over the pages -/

theorem pageEnd_le_pageEnd (c : SqliteCursor) (total : ℕ) {pages : ℕ} (h : 0 < pages) :
    c.pageEnd total 1 ≤ c.pageEnd total pages := by
  have hmul : 1 * c.pageGain ≤ pages * c.pageGain := Nat.mul_le_mul_right _ h
  rw [pageEnd, pageEnd]
  omega

theorem not_overruns {total pos : ℕ} (h : pos ≤ c.pageEnd total 1) : ¬ c.Overruns total pos := by
  rintro ⟨pages, hpages, -, hbehind⟩
  have hle := pageEnd_le_pageEnd c total hpages
  omega

/-- The pages behind the first are those of the cursor that has fetched it. -/
theorem overruns_next {c' : SqliteCursor} {total pos : ℕ} (hstart : c'.bufStart = c.bufStart)
    (hfilled : c'.filled = c.pageEnd total 1) (hgain : c'.pageGain = c.pageGain)
    (hfirst : ¬ (c.bufStart + 512 < c.pageEnd total 1 ∧ c.pageEnd total 1 < pos)) :
    c.Overruns total pos ↔ c'.Overruns total pos := by
  have hshift (pages : ℕ) : c'.pageEnd total pages = c.pageEnd total (pages + 1) := by
    rw [pageEnd, hfilled, hgain, pageEnd, pageEnd, Nat.one_mul, Nat.succ_mul]
    omega
  constructor
  · rintro ⟨pages, hpages, hlong, hbehind⟩
    obtain ⟨n, rfl⟩ : ∃ n, pages = n + 1 := ⟨pages - 1, by omega⟩
    rcases Nat.eq_zero_or_pos n with rfl | hn
    · exact absurd ⟨hlong, hbehind⟩ hfirst
    · exact ⟨n, hn, by rw [hshift, hstart]; exact hlong, by rw [hshift]; exact hbehind⟩
  · rintro ⟨pages, -, hlong, hbehind⟩
    rw [hshift] at hlong hbehind
    rw [hstart] at hlong
    exact ⟨pages + 1, Nat.succ_pos pages, hlong, hbehind⟩

theorem ensureLoop_paged : ∀ {fuel : ℕ} {c : SqliteCursor}, Paged sha256 t files rows c →
    c.bufStart ≤ c.pos → rows.length + 1 < fuel + c.filled →
    (c.Overruns rows.length c.pos → ensureLoop t c.pos fuel c = .error .panicked) ∧
    (¬ c.Overruns rows.length c.pos →
      (c.pos < rows.length → ∃ c', ensureLoop t c.pos fuel c = .ok (true, c') ∧
        Stands sha256 t files rows c' c.pos) ∧
      (rows.length ≤ c.pos → ∃ c', ensureLoop t c.pos fuel c = .ok (false, c')))
  | 0, c, h, _, hfuel => by
      have hle := h.filled_le
      omega
  | fuel + 1, c, h, hstart, hfuel => by
      have hle := h.filled_le
      have hgain := pageGain_pos c
      have hend : c.pageEnd rows.length 1 = min (c.filled + c.pageGain) rows.length := by
        rw [pageEnd, Nat.one_mul]
      rw [ensureLoop]
      by_cases hin : c.pos < c.bufStart + c.buffer.length
      · -- the row is there
        have hin' : c.pos < c.filled := hin
        rw [if_pos hin]
        refine ⟨fun hover => absurd hover (not_overruns (by omega)), fun _ =>
          ⟨fun _ => ?_, fun _ => ?_⟩⟩
        · exact ⟨c, rfl, h, rfl, hstart, hin⟩
        · omega
      · have hin' : c.filled ≤ c.pos := Nat.not_lt.mp hin
        rw [if_neg hin]
        obtain ⟨hpanics, hfetches⟩ := fetchNextPage_paged h hstart
        by_cases hfirst : c.bufStart + 512 < c.pageEnd rows.length 1 ∧
          c.pageEnd rows.length 1 < c.pos
        · rw [hpanics hfirst.1 hfirst.2]
          exact ⟨fun _ => rfl, fun hwithin => absurd ⟨1, Nat.one_pos, hfirst⟩ hwithin⟩
        · obtain ⟨hends, hextends⟩ := hfetches hfirst
          rcases Nat.eq_or_lt_of_le hle with hall | hmore
          · -- no row is left
            obtain ⟨c', hc'⟩ := hends hall
            clear hpanics hfetches hends hextends
            rw [hc']
            refine ⟨?_, fun _ => ⟨fun _ => by omega, fun _ => ⟨c', rfl⟩⟩⟩
            rintro ⟨pages, -, hlong, hbehind⟩
            have hlast : c.pageEnd rows.length pages = rows.length := by
              rw [pageEnd]
              omega
            omega
          · obtain ⟨c', hc', hpaged, hpos, hfilled, hgain', hstart'⟩ := hextends hmore
            clear hpanics hfetches hends hextends
            have hiff : c.Overruns rows.length c.pos ↔ c'.Overruns rows.length c.pos := by
              rcases hstart' with hsame | ⟨-, hle'⟩
              · exact overruns_next hsame hfilled hgain' hfirst
              · refine iff_of_false (not_overruns hle') (not_overruns ?_)
                rw [pageEnd, hfilled]
                omega
            have hbound : c'.bufStart ≤ c'.pos := by omega
            have hfuel' : rows.length + 1 < fuel + c'.filled := by omega
            have hnext := ensureLoop_paged hpaged hbound hfuel'
            rw [hpos] at hnext
            rw [hc', hiff]
            exact hnext

/-! ### The row under the cursor -/

/-- The bytes that an entry shows. -/
def shown : EntryValue → Option Bytes
  | .inline v => some v
  | .external _ cached => cached
  | .none => none

/-- What a caller reads of a row of the list, whether its file was read before or not. -/
theorem content_of_holds {q : QueryRow} {e : CursorEntry} (h : Holds sha256 files q e) :
    (∃ path, q.value = none ∧ q.ext = some path ∧ e.value = .external path none) ∨
    (∀ path, e.value ≠ .external path none) ∧
      content sha256 files q = .ok (e.key, e.primaryKey, shown e.value) := by
  obtain ⟨key, pkey, value, ext⟩ := q
  obtain ⟨ekey, epkey, evalue⟩ := e
  obtain ⟨hkey, hpkey, hvalue⟩ := h
  simp only at hkey hpkey hvalue
  subst hkey hpkey
  rcases hvalue with rfl | ⟨path, data, rfl, rfl, hread, rfl⟩
  · cases value with
    | some v => exact .inr ⟨fun path heq => (by cases heq), rfl⟩
    | none =>
        cases ext with
        | none => exact .inr ⟨fun path heq => (by cases heq), rfl⟩
        | some path => exact .inl ⟨path, rfl, rfl, rfl⟩
  · refine .inr ⟨fun path' heq => (by cases heq), ?_⟩
    show (BlobFiles.read sha256 files path).map _ = _
    rw [hread]
    rfl

/-- The window with an entry read or dropped. -/
theorem Paged.update (h : Paged sha256 t files rows c) {buffer : List CursorEntry}
    (hlength : buffer.length = c.buffer.length)
    (hholds : ∀ (i : ℕ) (e : CursorEntry), buffer[i]? = some e →
      ∃ q, rows[c.bufStart + i]? = some q ∧ Holds sha256 files q e) :
    Paged sha256 t files rows { c with buffer } where
  resume i x hx := (queryRows_shape rfl rfl rfl rfl _).trans (h.resume i x hx)
  distinct := h.distinct
  keyOnly := h.keyOnly
  buffered := hholds
  anchor := by
    obtain ⟨m, x, hm, hx, hanchor⟩ := h.anchor
    refine ⟨m, x, ?_, hx, hanchor⟩
    show c.bufStart + buffer.length = m + 1
    rw [hlength]
    exact hm
  anchorEq := h.anchorEq
  live := h.live

theorem row_of_entry {e : CursorEntry} (hlive : c.exhausted = false) (hstart : c.bufStart ≤ c.pos)
    (he : c.buffer[c.pos - c.bufStart]? = some e) :
    c.row = (e.key, e.primaryKey, if c.keyOnly then none else shown e.value) := by
  have hcurrent : c.current = some e := by
    rw [current, hlive, if_neg Bool.false_ne_true, if_neg (Nat.not_lt.mpr hstart), he]
  rw [row, currentKey, currentPrimaryKey, currentValue, hcurrent]
  cases c.keyOnly with
  | true => rfl
  | false => cases hvalue : e.value <;> simp [hvalue, shown]

/-- A value of the row before is dropped. -/
def released (e : CursorEntry) : CursorEntry :=
  match e.value with
  | .external path _ => { e with value := .external path none }
  | _ => e

theorem Holds.released {q : QueryRow} {e : CursorEntry} (h : Holds sha256 files q e) :
    Holds sha256 files q (SqliteCursor.released e) := by
  obtain ⟨ekey, epkey, evalue⟩ := e
  cases evalue with
  | none => exact h
  | inline v => exact h
  | external path cached =>
      refine ⟨h.key, h.primaryKey, .inl ?_⟩
      rcases h.value with hvalue | ⟨path', data, hnone, hext, -, hvalue⟩
      · have hvalue : EntryValue.external path cached = entryValue q := hvalue
        show EntryValue.external path none = entryValue q
        obtain ⟨key, pkey, value, ext⟩ := q
        cases value with
        | some v => cases hvalue
        | none =>
            cases ext with
            | none => cases hvalue
            | some path' =>
                cases hvalue
                rfl
      · have hvalue : EntryValue.external path cached = .external path' (some data) := hvalue
        cases hvalue
        show EntryValue.external path none = entryValue q
        rw [entryValue, hnone, hext]

/-- The cursor with the row before its position released. -/
def releasedBefore (c : SqliteCursor) : SqliteCursor :=
  if c.bufStart < c.pos then
    { c with buffer := c.buffer.modify (c.pos - 1 - c.bufStart) released }
  else c

theorem releasedBefore_paged (h : Paged sha256 t files rows c) :
    Paged sha256 t files rows c.releasedBefore ∧ c.releasedBefore.pos = c.pos ∧
      c.releasedBefore.bufStart = c.bufStart ∧ c.releasedBefore.keyOnly = c.keyOnly ∧
      c.releasedBefore.buffer.length = c.buffer.length := by
  rw [releasedBefore]
  split_ifs
  · have hlength : (c.buffer.modify (c.pos - 1 - c.bufStart) released).length = c.buffer.length :=
      List.length_modify ..
    refine ⟨h.update hlength fun i e he => ?_, rfl, rfl, rfl, hlength⟩
    rw [List.getElem?_modify] at he
    cases hi : c.buffer[i]? with
    | none =>
        rw [hi] at he
        cases he
    | some e' =>
        obtain ⟨q, hq, hholds⟩ := h.buffered i e' hi
        rw [hi] at he
        have he : (if c.pos - 1 - c.bufStart = i then released e' else e') = e := Option.some.inj he
        refine ⟨q, hq, ?_⟩
        rw [← he]
        split_ifs
        · exact hholds.released
        · exact hholds
  · exact ⟨h, rfl, rfl, rfl, rfl⟩

theorem materializeCurrent_eq (hlive : c.exhausted = false) (hvalues : c.keyOnly = false)
    {e : CursorEntry} (he : c.releasedBefore.buffer[c.pos - c.bufStart]? = some e)
    (hpos : c.releasedBefore.pos = c.pos) (hstart : c.releasedBefore.bufStart = c.bufStart) :
    (∀ path, e.value = .external path none →
      (∀ err, BlobFiles.read sha256 files path = .error err →
        materializeCurrent sha256 files c = .error (.failed err)) ∧
      ∀ data, BlobFiles.read sha256 files path = .ok data →
        materializeCurrent sha256 files c = .ok { c.releasedBefore with
          buffer := c.releasedBefore.buffer.set (c.pos - c.bufStart)
            { e with value := .external path (some data) } }) ∧
    ((∀ path, e.value ≠ .external path none) →
      materializeCurrent sha256 files c = .ok c.releasedBefore) := by
  obtain ⟨key, pkey, value⟩ := e
  unfold materializeCurrent
  rw [if_neg (by simp [hvalues, hlive])]
  dsimp only
  generalize hreleased : (if c.bufStart < c.pos then _ else c) = c'
  obtain rfl : c.releasedBefore = c' := hreleased
  rw [hpos, hstart, he]
  constructor
  · rintro path rfl
    refine ⟨fun err herr => ?_, fun data hdata => ?_⟩
    · simp only [herr]
    · simp only [hdata]
  · intro hother
    cases value with
    | none => rfl
    | inline v => rfl
    | external path cached =>
        cases cached with
        | none => exact absurd rfl (hother path)
        | some data => rfl

/-- The row under the cursor is read from its file where it has one. -/
theorem materializeCurrent_paged {pos : ℕ} (hstands : Stands sha256 t files rows c pos)
    {q : QueryRow} (hq : rows[pos]? = some q) :
    (∀ r, content sha256 files q = .ok r → ∃ c', materializeCurrent sha256 files c = .ok c' ∧
      Stands sha256 t files rows c' pos ∧ c'.row = r) ∧
    ∀ e, content sha256 files q = .error e →
      materializeCurrent sha256 files c = .error (.failed e) := by
  obtain ⟨h, rfl, hstart, hin⟩ := hstands
  obtain ⟨hpaged, hpos, hsame, hkeys, hlength⟩ := releasedBefore_paged h
  have hidx : c.pos - c.bufStart < c.releasedBefore.buffer.length := by
    have hfilled : c.filled = c.bufStart + c.buffer.length := rfl
    omega
  obtain ⟨e, he⟩ : ∃ e, c.releasedBefore.buffer[c.pos - c.bufStart]? = some e :=
    ⟨_, List.getElem?_eq_getElem hidx⟩
  have hholds : Holds sha256 files q e := by
    obtain ⟨q', hq', hholds⟩ := hpaged.buffered _ e he
    rw [hsame, Nat.add_sub_cancel' hstart, hq] at hq'
    rwa [Option.some.inj hq']
  -- a key cursor leaves its rows as they are
  cases hvalues : c.keyOnly with
  | true =>
      obtain ⟨hnone, hext⟩ := h.keyOnly hvalues q (List.mem_of_getElem? hq)
      have hrun : materializeCurrent sha256 files c = .ok c := by
        rw [materializeCurrent, hvalues]
        rfl
      have hcontent : content sha256 files q = .ok (q.key, q.primaryKey, none) := by
        rw [content, hnone, hext]
      obtain ⟨e', he'⟩ : ∃ e', c.buffer[c.pos - c.bufStart]? = some e' :=
        ⟨_, List.getElem?_eq_getElem (hlength ▸ hidx)⟩
      obtain ⟨q', hq', hholds'⟩ := h.buffered _ e' he'
      rw [Nat.add_sub_cancel' hstart, hq] at hq'
      obtain rfl := Option.some.inj hq'
      rw [hcontent]
      refine ⟨fun r hr => ⟨c, hrun, ⟨h, rfl, hstart, hin⟩, ?_⟩, fun err herr => (by cases herr)⟩
      rw [row_of_entry h.live hstart he', hvalues, hholds'.key, hholds'.primaryKey]
      exact Except.ok.inj hr
  | false =>
      obtain ⟨hexternal, hother⟩ :=
        @materializeCurrent_eq sha256 files c h.live hvalues e he hpos hsame
      -- the value is in its file, or in the buffer already
      rcases content_of_holds hholds with ⟨path, hnone, hext, hvalue⟩ | ⟨hvalue, hcontent⟩
      · obtain ⟨hfails, hreads⟩ := hexternal path hvalue
        have hcontent : content sha256 files q =
            (BlobFiles.read sha256 files path).map fun data =>
            (q.key, q.primaryKey, some data) := by
          rw [content, hnone, hext]
        cases hread : BlobFiles.read sha256 files path with
        | error err =>
            rw [hcontent, hread]
            refine ⟨fun r hr => (by cases hr), fun err' herr => ?_⟩
            cases herr
            exact hfails err hread
        | ok data =>
            rw [hcontent, hread]
            refine ⟨fun r hr => ⟨_, hreads data hread, ⟨?_, hpos, ?_, ?_⟩, ?_⟩,
              fun err herr => (by cases herr)⟩
            · refine hpaged.update (List.length_set ..) fun i e' he' => ?_
              rw [List.getElem?_set] at he'
              split at he'
              next hi =>
                subst hi
                obtain rfl := Option.some.inj he'
                refine ⟨q, ?_, hholds.key, hholds.primaryKey,
                  .inr ⟨path, data, hnone, hext, hread, rfl⟩⟩
                rw [hsame, Nat.add_sub_cancel' hstart, hq]
              next => exact hpaged.buffered i e' he'
            · show c.releasedBefore.bufStart ≤ c.pos
              omega
            · show c.pos < c.releasedBefore.bufStart + (c.releasedBefore.buffer.set _ _).length
              rw [List.length_set]
              omega
            · let c' : SqliteCursor := { c.releasedBefore with
                buffer := c.releasedBefore.buffer.set (c.pos - c.bufStart)
                  { e with value := .external path (some data) } }
              have hentry : c'.buffer[c'.pos - c'.bufStart]? =
                  some { e with value := .external path (some data) } := by
                show (c.releasedBefore.buffer.set _ _)[c.releasedBefore.pos -
                  c.releasedBefore.bufStart]? = _
                rw [hpos, hsame, List.getElem?_set_self hidx]
              have hbound : c'.bufStart ≤ c'.pos := by
                show c.releasedBefore.bufStart ≤ c.releasedBefore.pos
                omega
              refine (row_of_entry (c := c') hpaged.live hbound hentry).trans ?_
              cases hr
              show (e.key, e.primaryKey, if c.releasedBefore.keyOnly then none else some data) = _
              rw [hkeys, hvalues, hholds.key, hholds.primaryKey]
              rfl
      · rw [hcontent]
        have hfilled : c.pos < c.releasedBefore.filled := by
          show c.pos < c.releasedBefore.bufStart + c.releasedBefore.buffer.length
          omega
        refine ⟨fun r hr => ⟨_, hother hvalue, ⟨hpaged, hpos, by omega, hfilled⟩, ?_⟩,
          fun err herr => (by cases herr)⟩
        rw [row_of_entry hpaged.live (by omega) (by rw [hpos, hsame]; exact he), hkeys, hvalues]
        exact Except.ok.inj hr

/-! ### Steps -/

/-- A step lands on the row of the list, or its drain is out of range. -/
theorem step_paged {pos : ℕ} (hstands : Stands sha256 t files rows c pos)
    (hsize : rows.length ≤ t.records.size + t.indexRecords.size) (count : ℕ) :
    (c.Overruns rows.length (pos + count) → step sha256 t files c count = .error .panicked) ∧
    (¬ c.Overruns rows.length (pos + count) →
      (rows.length ≤ pos + count → ∃ c', step sha256 t files c count = .ok (false, c') ∧
        c'.exhausted = true) ∧
      ∀ q, rows[pos + count]? = some q →
        (∀ r, content sha256 files q = .ok r → ∃ c', step sha256 t files c count = .ok (true, c') ∧
          Stands sha256 t files rows c' (pos + count) ∧ c'.row = r) ∧
        ∀ e, content sha256 files q = .error e →
          step sha256 t files c count = .error (.failed e)) := by
  obtain ⟨h, rfl, hstart, -⟩ := hstands
  have hmoved : Paged sha256 t files rows { c with pos := c.pos + count } := {
    resume := fun i x hx => (queryRows_shape rfl rfl rfl rfl _).trans (h.resume i x hx)
    distinct := h.distinct
    keyOnly := h.keyOnly
    buffered := h.buffered
    anchor := h.anchor
    anchorEq := h.anchorEq
    live := h.live }
  have hfuel : rows.length + 1 < t.records.size + t.indexRecords.size + 2 +
      SqliteCursor.filled { c with pos := c.pos + count } := by
    omega
  obtain ⟨hpanics, hlands⟩ := ensureLoop_paged (c := { c with pos := c.pos + count }) hmoved
    (show c.bufStart ≤ c.pos + count by omega) hfuel
  -- a step is the refill up to the new position, and then the row's file
  have hstep : step sha256 t files c count =
      (ensureLoop t (c.pos + count) (t.records.size + t.indexRecords.size + 2)
        { c with pos := c.pos + count }).bind fun r =>
          if r.1 then (materializeCurrent sha256 files r.2).bind fun c' => .ok (true, c')
          else .ok (false, { r.2 with exhausted := true }) := by
    have hlive : ¬ c.exhausted = true := by
      rw [h.live]
      exact Bool.false_ne_true
    have hensure : ensure t { c with pos := c.pos + count } (c.pos + count) =
        ensureLoop t (c.pos + count) (t.records.size + t.indexRecords.size + 2)
          { c with pos := c.pos + count } := by
      rw [ensure]
      exact if_neg hlive
    rw [step, if_neg hlive]
    show (ensure t { c with pos := c.pos + count } (c.pos + count)).bind _ = _
    rw [hensure]
    rfl
  have hpanics : c.Overruns rows.length (c.pos + count) → ensureLoop t (c.pos + count)
      (t.records.size + t.indexRecords.size + 2) { c with pos := c.pos + count } =
        .error .panicked := hpanics
  constructor
  · intro hover
    rw [hstep, hpanics hover]
    rfl
  intro hwithin
  obtain ⟨hfound, hended⟩ := hlands hwithin
  constructor
  · intro hend
    obtain ⟨c', hc'⟩ := hended hend
    have hc' : ensureLoop t (c.pos + count) (t.records.size + t.indexRecords.size + 2)
      { c with pos := c.pos + count } = .ok (false, c') := hc'
    rw [hstep, hc']
    exact ⟨_, rfl, rfl⟩
  · intro q hq
    obtain ⟨c', hc', hstands⟩ := hfound (List.getElem?_eq_some_iff.mp hq).1
    have hc' : ensureLoop t (c.pos + count) (t.records.size + t.indexRecords.size + 2)
      { c with pos := c.pos + count } = .ok (true, c') := hc'
    have hstands : Stands sha256 t files rows c' (c.pos + count) := hstands
    obtain ⟨hreads, hfails⟩ := materializeCurrent_paged hstands hq
    rw [hstep, hc']
    constructor
    · intro r hr
      obtain ⟨c'', hrun, hshown⟩ := hreads r hr
      refine ⟨c'', ?_, hshown⟩
      show (materializeCurrent sha256 files c').bind _ = _
      rw [hrun]
      rfl
    · intro e he
      show (materializeCurrent sha256 files c').bind _ = _
      rw [hfails e he]
      rfl

/-- A cursor that has come to its end stays there. -/
theorem walkSteps_ended (hended : c.exhausted = true) (counts : List ℕ) :
    walkSteps sha256 t files c counts = .ok (counts.map fun _ => none) := by
  induction counts with
  | nil => rfl
  | cons count counts ih =>
      have hstep : step sha256 t files c count = .ok (false, c) := by
        rw [step, if_pos hended]
      rw [walkSteps, hstep]
      show (walkSteps sha256 t files c counts).bind _ = _
      rw [ih]
      rfl

theorem plainSteps_ended {pos : ℕ} (h : rows.length ≤ pos) (counts : List ℕ) :
    plainSteps sha256 files rows pos counts = .ok (counts.map fun _ => none) := by
  induction counts generalizing pos with
  | nil => rfl
  | cons count counts ih =>
      have hrow : plainRow sha256 files rows (pos + count) = .ok none := by
        rw [plainRow, List.getElem?_eq_none (by omega)]
      rw [plainSteps, hrow, ih (by omega)]
      rfl

theorem stepsWithin_ended {total : ℕ} (hended : c.exhausted = true) (counts : List ℕ) :
    StepsWithin sha256 t files total c counts := by
  induction counts with
  | nil => trivial
  | cons count counts ih =>
      refine ⟨fun hlive =>
        absurd (hended.symm.trans hlive) Bool.true_eq_false.mp, fun result hresult => ?_⟩
      rw [step, if_pos hended] at hresult
      cases hresult
      exact ih

theorem plainRow_ne_panicked (pos : ℕ) : plainRow sha256 files rows pos ≠ .error .panicked := by
  rw [plainRow]
  split
  · intro h
    cases h
  · split
    · intro h
      cases h
    · intro h
      cases h

theorem bind_ne_panicked {α β : Type} {x : CursorM α} {f : α → CursorM β}
    (hx : x ≠ .error .panicked) (hf : ∀ a, f a ≠ .error .panicked) :
    x.bind f ≠ .error .panicked := by
  cases x with
  | error e =>
      intro h
      exact hx (congrArg Except.error (Except.error.inj h))
  | ok a => exact hf a

theorem plainSteps_ne_panicked (counts : List ℕ) :
    ∀ pos, plainSteps sha256 files rows pos counts ≠ .error .panicked := by
  induction counts with
  | nil =>
      intro pos h
      cases h
  | cons count counts ih =>
      intro pos
      refine bind_ne_panicked (plainRow_ne_panicked _) fun row => ?_
      refine bind_ne_panicked (ih _) fun rest h => ?_
      cases h

theorem plainWalk_ne_panicked (counts : List ℕ) :
    plainWalk sha256 files rows counts ≠ .error .panicked := by
  refine bind_ne_panicked (plainRow_ne_panicked _) fun row => ?_
  refine bind_ne_panicked (plainSteps_ne_panicked counts _) fun rest h => ?_
  cases h

theorem bind_cons_iff {α : Type} {x y : CursorM (List α)} (a : α) :
    (x.bind fun rest => Except.ok (a :: rest)) = (y.bind fun rest => Except.ok (a :: rest)) ↔
      x = y := by
  constructor
  · intro h
    cases x with
    | error e =>
        cases y with
        | error e' => exact congrArg Except.error (Except.error.inj h)
        | ok l' => cases h
    | ok l =>
        cases y with
        | error e' => cases h
        | ok l' => exact congrArg Except.ok (List.cons.inj (Except.ok.inj h)).2
  · rintro rfl
    rfl

/-- The steps of a cursor that shows a row are those in the list, as long as every drain is in
range; and the first that is not panics. -/
theorem walkSteps_paged (hsize : rows.length ≤ t.records.size + t.indexRecords.size) :
    ∀ {counts : List ℕ} {c : SqliteCursor} {pos : ℕ}, Stands sha256 t files rows c pos →
      (walkSteps sha256 t files c counts = plainSteps sha256 files rows pos counts ↔
        StepsWithin sha256 t files rows.length c counts)
  | [], c, pos, _ => iff_of_true rfl trivial
  | count :: counts, c, pos, hstands => by
      obtain ⟨hpanics, hlands⟩ := step_paged hstands hsize count
      have hwalk : walkSteps sha256 t files c (count :: counts) =
          (step sha256 t files c count).bind fun result =>
            (walkSteps sha256 t files result.2 counts).bind fun rest =>
              .ok (seen result :: rest) := rfl
      have hplain : plainSteps sha256 files rows pos (count :: counts) =
          (plainRow sha256 files rows (pos + count)).bind fun row =>
            (plainSteps sha256 files rows (pos + count) counts).bind fun rest =>
              .ok (row :: rest) := rfl
      -- an overrun panics here, and a plain walk never does
      by_cases hover : c.Overruns rows.length (pos + count)
      · have hpanicked : walkSteps sha256 t files c (count :: counts) = .error .panicked := by
          rw [hwalk, hpanics hover]
          rfl
        rw [hpanicked]
        refine iff_of_false (fun heq => plainSteps_ne_panicked _ _ heq.symm) fun hwithin => ?_
        exact hwithin.1 hstands.paged.live (hstands.pos_eq ▸ hover)
      · obtain ⟨hended, hfound⟩ := hlands hover
        rw [hwalk, hplain]
        cases hq : rows[pos + count]? with
        | none =>
            -- behind the last row both report the end from now on
            have hend := List.getElem?_eq_none_iff.mp hq
            obtain ⟨c', hc', hexhausted⟩ := hended hend
            have hrow : plainRow sha256 files rows (pos + count) = .ok none := by
              rw [plainRow, hq]
            rw [hc', hrow]
            refine iff_of_true ?_ ⟨fun _ => hstands.pos_eq ▸ hover, fun result hresult => ?_⟩
            · show (walkSteps sha256 t files c' counts).bind _ =
                (plainSteps sha256 files rows (pos + count) counts).bind _
              rw [walkSteps_ended hexhausted, plainSteps_ended hend]
              rfl
            · rw [hc'] at hresult
              cases hresult
              exact stepsWithin_ended hexhausted counts
        | some q =>
            obtain ⟨hreads, hfails⟩ := hfound q hq
            cases hcontent : content sha256 files q with
            | error e =>
                have hrow : plainRow sha256 files rows (pos + count) = .error (.failed e) := by
                  rw [plainRow, hq]
                  simp only [hcontent]
                rw [hfails e hcontent, hrow]
                refine iff_of_true rfl ⟨fun _ => hstands.pos_eq ▸ hover, fun result hresult => ?_⟩
                rw [hfails e hcontent] at hresult
                cases hresult
            | ok r =>
                obtain ⟨c', hc', hstands', hseen⟩ := hreads r hcontent
                have hrow : plainRow sha256 files rows (pos + count) = .ok (some r) := by
                  rw [plainRow, hq]
                  simp only [hcontent]
                rw [hc', hrow]
                show (walkSteps sha256 t files c' counts).bind (fun rest =>
                    Except.ok (some c'.row :: rest)) =
                  (plainSteps sha256 files rows (pos + count) counts).bind _ ↔ _
                rw [hseen, bind_cons_iff, walkSteps_paged hsize hstands']
                constructor
                · intro hrest
                  refine ⟨fun _ => hstands.pos_eq ▸ hover, fun result hresult => ?_⟩
                  rw [hc'] at hresult
                  cases hresult
                  exact hrest
                · intro hall
                  exact hall.2 _ hc'

/-! ### The first page -/

variable {target : CursorSeek}

/-- The cursor with the first page in its buffer. -/
def firstPage (c : SqliteCursor) (target : CursorSeek) (rows : List QueryRow) : SqliteCursor :=
  { c.rewound target with
    buffer := (rows.take pageSize).map toEntry
    anchor := (rows.take pageSize).getLast?.map keys
    anchorEq := 1 }

theorem firstPage_paged (hrows : rows = queryRows t (c.rewound target) none) (hsome : rows ≠ []) :
    Paged sha256 t files rows (c.firstPage target rows) where
  resume i x hx := by
    subst hrows
    exact (queryRows_shape rfl rfl rfl rfl _).trans (queryRows_resume hx)
  distinct := by
    subst hrows
    exact queryRows_distinct t _ none
  keyOnly hkeys q hq := by
    subst hrows
    have hkeys : (c.rewound target).keyOnly = true := hkeys
    exact queryRows_keyOnly hkeys hq
  buffered i e he := by
    have he : ((rows.take pageSize).map toEntry)[i]? = some e := he
    rw [List.getElem?_map, Option.map_eq_some_iff] at he
    obtain ⟨q, hq, rfl⟩ := he
    rw [List.getElem?_take] at hq
    split at hq
    · refine ⟨q, ?_, holds_toEntry q⟩
      show rows[0 + i]? = some q
      rw [Nat.zero_add, hq]
    · cases hq
  anchor := by
    have hlength : (rows.take pageSize).length = min pageSize rows.length := List.length_take
    have hpos : 0 < rows.length := List.length_pos_iff.mpr hsome
    have hpage : pageSize = 128 := rfl
    have hne : rows.take pageSize ≠ [] := List.ne_nil_of_length_pos (by omega)
    have hlast : (rows.take pageSize).getLast? = some ((rows.take pageSize).getLast hne) :=
      List.getLast?_eq_some_getLast _
    refine ⟨min pageSize rows.length - 1, (rows.take pageSize).getLast hne, ?_, ?_, ?_⟩
    · show 0 + ((rows.take pageSize).map toEntry).length = _
      rw [List.length_map]
      omega
    · rw [List.getLast?_eq_getElem?, List.getElem?_take, if_pos (by omega), hlength] at hlast
      exact hlast
    · show (rows.take pageSize).getLast?.map keys = _
      rw [hlast]
      rfl
  anchorEq := rfl
  live := rfl

theorem fetchNextPage_first (hrows : rows = queryRows t (c.rewound target) none) :
    (rows = [] → ∃ c', fetchNextPage t (c.rewound target) = .ok (false, c') ∧ c'.exhausted = true) ∧
    (rows ≠ [] → fetchNextPage t (c.rewound target) = .ok (true, c.firstPage target rows)) := by
  have hskip : (if (c.rewound target).grouped then 0 else (c.rewound target).anchorEq) = 0 :=
    ite_self _
  have hnew : ((c.rewound target).anchor.toList ++ (rows.take pageSize).map keys).Nodup := by
    have hdistinct := queryRows_distinct t (c.rewound target) none
    rw [← hrows] at hdistinct
    exact hdistinct.sublist ((List.take_sublist pageSize rows).map keys)
  have happend := appendRows_fresh (c.rewound target).anchor (c.rewound target).grouped
    (rows.take pageSize) false (c.rewound target) hnew
  have hquery : query t (c.rewound target) (c.rewound target).anchor = rows.take pageSize := by
    rw [hrows]
    rfl
  have hshort : ¬ (512 < ((rows.take pageSize).map toEntry).length ∧
      (c.rewound target).bufStart + 256 < (c.rewound target).pos) := by
    rintro ⟨-, hpos⟩
    exact absurd hpos (Nat.not_lt_zero _)
  constructor
  · rintro rfl
    rw [fetchNextPage]
    simp only [hskip, hquery, happend]
    exact ⟨_, rfl, rfl⟩
  · intro hsome
    obtain ⟨q, rest, rfl⟩ := List.exists_cons_of_ne_nil hsome
    rw [fetchNextPage]
    simp only [hskip, hquery, happend]
    have hfalse : ((q :: rest).take pageSize).isEmpty = false := rfl
    have hanchor : (((q :: rest).take pageSize).getLast?.map keys).or (c.rewound target).anchor =
        ((q :: rest).take pageSize).getLast?.map keys := Option.or_none
    simp only [hfalse, hanchor]
    exact if_neg hshort

/-- What the steps after a seek start from. -/
theorem seek_paged (hrows : rows = queryRows t (c.rewound target) none) :
    (rows = [] → ∃ c', seek sha256 t files c target = .ok (false, c') ∧ c'.exhausted = true) ∧
    ∀ q, rows[0]? = some q →
      (∀ r, content sha256 files q = .ok r → ∃ c', seek sha256 t files c target = .ok (true, c') ∧
        Stands sha256 t files rows c' 0 ∧ c'.row = r) ∧
      ∀ e, content sha256 files q = .error e →
        seek sha256 t files c target = .error (.failed e) := by
  obtain ⟨hempty, hfirst⟩ := fetchNextPage_first hrows
  constructor
  · intro hnil
    obtain ⟨c', hc', hexhausted⟩ := hempty hnil
    rw [seek, hc']
    exact ⟨c', rfl, hexhausted⟩
  · intro q hq
    have hsome : rows ≠ [] := by
      rintro rfl
      cases hq
    have hpaged : Paged sha256 t files rows (c.firstPage target rows) := firstPage_paged hrows hsome
    have hin : 0 < (c.firstPage target rows).filled := by
      show 0 < 0 + ((rows.take pageSize).map toEntry).length
      have hpos := List.length_pos_iff.mpr hsome
      have hpage : pageSize = 128 := rfl
      rw [List.length_map, List.length_take]
      omega
    obtain ⟨hreads, hfails⟩ := materializeCurrent_paged ⟨hpaged, rfl, Nat.le_refl 0, hin⟩ hq
    have hseek : seek sha256 t files c target =
        (materializeCurrent sha256 files (c.firstPage target rows)).bind fun c' =>
          .ok (true, c') := by
      rw [seek, hfirst hsome]
      rfl
    rw [hseek]
    constructor
    · intro r hr
      obtain ⟨c', hrun, hshown⟩ := hreads r hr
      exact ⟨c', by rw [hrun]; rfl, hshown⟩
    · intro e he
      rw [hfails e he]
      rfl

/-! ### Runs -/

theorem walk_iff (sha256 : Bytes → Bytes) (t : Tables) (files : BlobFiles) (c : SqliteCursor)
    (target : CursorSeek) (counts : List ℕ) :
    walk sha256 t files c target counts =
        plainWalk sha256 files (queryRows t (c.rewound target) none) counts ↔
      WalkWithin sha256 t files c target counts := by
  obtain ⟨hempty, hfound⟩ := @seek_paged sha256 t files _ c target rfl
  have hsize := length_queryRows_le t (c.rewound target) none
  have hwalk : walk sha256 t files c target counts =
      (seek sha256 t files c target).bind fun result =>
        (walkSteps sha256 t files result.2 counts).bind fun rest =>
          .ok (seen result :: rest) := rfl
  have hplain : plainWalk sha256 files (queryRows t (c.rewound target) none) counts =
      (plainRow sha256 files (queryRows t (c.rewound target) none) 0).bind fun row =>
        (plainSteps sha256 files (queryRows t (c.rewound target) none) 0 counts).bind fun rest =>
          .ok (row :: rest) := rfl
  rw [hwalk, hplain, WalkWithin]
  cases hq : (queryRows t (c.rewound target) none)[0]? with
  | none =>
      -- without a row neither can overrun
      have hnil : queryRows t (c.rewound target) none = [] :=
        List.length_eq_zero_iff.mp (Nat.le_zero.mp (List.getElem?_eq_none_iff.mp hq))
      obtain ⟨c', hc', hexhausted⟩ := hempty hnil
      rw [hc', hnil]
      refine iff_of_true ?_ fun result hresult => ?_
      · show (walkSteps sha256 t files c' counts).bind _ =
          (plainSteps sha256 files [] 0 counts).bind _
        rw [walkSteps_ended hexhausted, plainSteps_ended (Nat.le_refl 0)]
        rfl
      · cases hresult
        exact stepsWithin_ended hexhausted counts
  | some q =>
      obtain ⟨hreads, hfails⟩ := hfound q hq
      cases hcontent : content sha256 files q with
      | error e =>
          have hrow : plainRow sha256 files (queryRows t (c.rewound target) none) 0 =
              .error (.failed e) := by
            rw [plainRow, hq]
            simp only [hcontent]
          rw [hfails e hcontent, hrow]
          refine iff_of_true rfl fun result hresult => ?_
          cases hresult
      | ok r =>
          obtain ⟨c', hc', hstands, hseen⟩ := hreads r hcontent
          have hrow : plainRow sha256 files (queryRows t (c.rewound target) none) 0 =
              .ok (some r) := by
            rw [plainRow, hq]
            simp only [hcontent]
          rw [hc', hrow]
          show (walkSteps sha256 t files c' counts).bind (fun rest =>
              Except.ok (some c'.row :: rest)) = (plainSteps sha256 files _ 0 counts).bind _ ↔ _
          rw [hseen, bind_cons_iff, walkSteps_paged hsize hstands]
          constructor
          · intro hrest result hresult
            cases hresult
            exact hrest
          · intro hall
            exact hall _ rfl

/-- A step within its page, and then the steps from where it lands. -/
theorem stepsWithin_cons (hsize : rows.length ≤ t.records.size + t.indexRecords.size)
    {pos count : ℕ}
    {counts : List ℕ} (hstands : Stands sha256 t files rows c pos)
    (hwithin : ¬ c.Overruns rows.length (pos + count))
    (hrest : ∀ c', step sha256 t files c count = .ok (true, c') →
      Stands sha256 t files rows c' (pos + count) →
        StepsWithin sha256 t files rows.length c' counts) :
    StepsWithin sha256 t files rows.length c (count :: counts) := by
  obtain ⟨-, hlands⟩ := step_paged hstands hsize count
  obtain ⟨hended, hfound⟩ := hlands hwithin
  refine ⟨fun _ => hstands.pos_eq ▸ hwithin, fun result hresult => ?_⟩
  cases hq : rows[pos + count]? with
  | none =>
      obtain ⟨c', hc', hexhausted⟩ := hended (List.getElem?_eq_none_iff.mp hq)
      rw [hc'] at hresult
      cases hresult
      exact stepsWithin_ended hexhausted counts
  | some q =>
      obtain ⟨hreads, hfails⟩ := hfound q hq
      cases hcontent : content sha256 files q with
      | error e =>
          rw [hfails e hcontent] at hresult
          cases hresult
      | ok r =>
          obtain ⟨c', hc', hstands', -⟩ := hreads r hcontent
          have hnext := hrest c' hc' hstands'
          rw [hc'] at hresult
          cases hresult
          exact hnext

/-- Steps that return are within their pages. -/
theorem stepsWithin_of_ok (hsize : rows.length ≤ t.records.size + t.indexRecords.size) :
    ∀ {counts : List ℕ} {c : SqliteCursor} {pos : ℕ} {rs : List (Option Row)},
      Stands sha256 t files rows c pos → walkSteps sha256 t files c counts = .ok rs →
      StepsWithin sha256 t files rows.length c counts
  | [], c, pos, rs, _, _ => trivial
  | count :: counts, c, pos, rs, hstands, h => by
      have h : (step sha256 t files c count).bind (fun result =>
          (walkSteps sha256 t files result.2 counts).bind fun rest =>
            .ok (seen result :: rest)) = .ok rs := h
      refine stepsWithin_cons hsize hstands (fun hover => ?_) fun c' hc' hstands' => ?_
      · rw [(step_paged hstands hsize count).1 hover] at h
        cases h
      · rw [hc'] at h
        cases hrest : walkSteps sha256 t files c' counts with
        | error e =>
            have h : (walkSteps sha256 t files c' counts).bind (fun rest =>
              .ok (seen (true, c') :: rest)) = .ok rs := h
            rw [hrest] at h
            cases h
        | ok rest => exact stepsWithin_of_ok hsize hstands' hrest

/-- Steps to the next row are within their pages. -/
theorem stepsWithin_unit (hsize : rows.length ≤ t.records.size + t.indexRecords.size) :
    ∀ {counts : List ℕ} {c : SqliteCursor} {pos : ℕ}, Stands sha256 t files rows c pos →
      (∀ count ∈ counts, count ≤ 1) → StepsWithin sha256 t files rows.length c counts
  | [], c, pos, _, _ => trivial
  | count :: counts, c, pos, hstands, h => by
      have hle := hstands.paged.filled_le
      have hlt := hstands.lt_filled
      have hone := h count (.head _)
      refine stepsWithin_cons hsize hstands (not_overruns ?_) fun c' _ hstands' =>
        stepsWithin_unit hsize hstands' fun n hn => h n (.tail _ hn)
      rw [pageEnd]
      omega

/-- How far steps go. -/
def distance : List ℕ → ℕ
  | [] => 0
  | count :: counts => count + distance counts

theorem plainSteps_last : ∀ {counts : List ℕ} {pos : ℕ} {row : Option Row} {rs : List (Option Row)},
    plainRow sha256 files rows pos = .ok row → plainSteps sha256 files rows pos counts = .ok rs →
    ∃ last, (row :: rs).getLast? = some last ∧
      plainRow sha256 files rows (pos + distance counts) = .ok last
  | [], pos, row, rs, hrow, h => by
      cases h
      exact ⟨row, rfl, hrow⟩
  | count :: counts, pos, row, rs, hrow, h => by
      have h : (plainRow sha256 files rows (pos + count)).bind (fun row =>
          (plainSteps sha256 files rows (pos + count) counts).bind fun rest =>
            .ok (row :: rest)) = .ok rs := h
      cases hnext : plainRow sha256 files rows (pos + count) with
      | error e =>
          rw [hnext] at h
          cases h
      | ok next =>
          rw [hnext] at h
          have h : (plainSteps sha256 files rows (pos + count) counts).bind (fun rest =>
            .ok (next :: rest)) = .ok rs := h
          cases hrest : plainSteps sha256 files rows (pos + count) counts with
          | error e =>
              rw [hrest] at h
              cases h
          | ok rest =>
              rw [hrest] at h
              cases h
              obtain ⟨last, hlast, hplain⟩ := plainSteps_last hnext hrest
              refine ⟨last, ?_, ?_⟩
              · rw [List.getLast?_cons_cons]
                exact hlast
              · rw [distance, ← Nat.add_assoc]
                exact hplain

/-- The last row of a walk is that at the sum of its steps. -/
theorem plainWalk_last {counts : List ℕ} {rs : List (Option Row)}
    (h : plainWalk sha256 files rows counts = .ok rs) :
    ∃ last, rs.getLast? = some last ∧ plainRow sha256 files rows (distance counts) = .ok last := by
  have h : (plainRow sha256 files rows 0).bind (fun row =>
      (plainSteps sha256 files rows 0 counts).bind fun rest => .ok (row :: rest)) = .ok rs := h
  cases hrow : plainRow sha256 files rows 0 with
  | error e =>
      rw [hrow] at h
      cases h
  | ok row =>
      rw [hrow] at h
      have h : (plainSteps sha256 files rows 0 counts).bind (fun rest => .ok (row :: rest)) =
        .ok rs := h
      cases hrest : plainSteps sha256 files rows 0 counts with
      | error e =>
          rw [hrest] at h
          cases h
      | ok rest =>
          rw [hrest] at h
          cases h
          have hlast := plainSteps_last hrow hrest
          rwa [Nat.zero_add] at hlast

/-- The first row of a seek that returns, or its end. -/
theorem stands_of_seek {result : Bool × SqliteCursor}
    (h : seek sha256 t files c target = .ok result) : result.2.exhausted = true ∨
      Stands sha256 t files (queryRows t (c.rewound target) none) result.2 0 := by
  obtain ⟨hempty, hfound⟩ := @seek_paged sha256 t files _ c target rfl
  cases hq : (queryRows t (c.rewound target) none)[0]? with
  | none =>
      have hnil : queryRows t (c.rewound target) none = [] :=
        List.length_eq_zero_iff.mp (Nat.le_zero.mp (List.getElem?_eq_none_iff.mp hq))
      obtain ⟨c', hc', hexhausted⟩ := hempty hnil
      rw [hc'] at h
      cases h
      exact .inl hexhausted
  | some q =>
      obtain ⟨hreads, hfails⟩ := hfound q hq
      cases hcontent : content sha256 files q with
      | error e =>
          rw [hfails e hcontent] at h
          cases h
      | ok r =>
          obtain ⟨c', hc', hstands, -⟩ := hreads r hcontent
          rw [hc'] at h
          cases h
          exact .inr hstands

theorem walkWithin_of_ok {counts : List ℕ} {rs : List (Option Row)}
    (h : walk sha256 t files c target counts = .ok rs) :
    WalkWithin sha256 t files c target counts := by
  intro result hresult
  have hwalk : walk sha256 t files c target counts =
      (seek sha256 t files c target).bind fun result =>
        (walkSteps sha256 t files result.2 counts).bind fun rest =>
          .ok (seen result :: rest) := rfl
  rw [hwalk, hresult] at h
  rcases stands_of_seek hresult with hended | hstands
  · exact stepsWithin_ended hended counts
  cases hrest : walkSteps sha256 t files result.2 counts with
  | error e =>
      have h : (walkSteps sha256 t files result.2 counts).bind
        (fun rest => .ok (seen result :: rest)) = .ok rs := h
      rw [hrest] at h
      cases h
  | ok rest => exact stepsWithin_of_ok (length_queryRows_le t _ none) hstands hrest

theorem walkWithin_unit {counts : List ℕ} (h : ∀ count ∈ counts, count ≤ 1) :
    WalkWithin sha256 t files c target counts := by
  intro result hresult
  rcases stands_of_seek hresult with hended | hstands
  · exact stepsWithin_ended hended counts
  · exact stepsWithin_unit (length_queryRows_le t _ none) hstands h

/-- Walks that return and move equally far end on the same row. -/
theorem walk_last {counts counts' : List ℕ} {rs rs' : List (Option Row)}
    (hsum : distance counts' = distance counts) (h : walk sha256 t files c target counts = .ok rs)
    (h' : walk sha256 t files c target counts' = .ok rs') : rs.getLast? = rs'.getLast? := by
  have hplain := (walk_iff ..).mpr (walkWithin_of_ok h)
  have hplain' := (walk_iff ..).mpr (walkWithin_of_ok h')
  obtain ⟨last, hlast, hrow⟩ := plainWalk_last (hplain.symm.trans h)
  obtain ⟨last', hlast', hrow'⟩ := plainWalk_last (hplain'.symm.trans h')
  rw [hsum, hrow] at hrow'
  rw [hlast, hlast', Except.ok.inj hrow']

/-- The rows of a walk are those of the plain list, and not a panic, exactly if no step lands
behind the page that makes the buffer long. Steps by one never do, and a long step that returns
lands where shorter ones with the same sum do. -/
theorem paging_invisible_iff (sha256 : Bytes → Bytes) (t : Tables) (files : BlobFiles)
    (c : SqliteCursor) (target : CursorSeek) (counts : List ℕ) :
    (walk sha256 t files c target counts =
        plainWalk sha256 files (queryRows t (c.rewound target) none) counts ↔
      WalkWithin sha256 t files c target counts) ∧
    ((∀ count ∈ counts, count ≤ 1) → walk sha256 t files c target counts =
      plainWalk sha256 files (queryRows t (c.rewound target) none) counts) ∧
    ∀ (counts' : List ℕ) (rs rs' : List (Option Row)), distance counts' = distance counts →
      walk sha256 t files c target counts = .ok rs →
      walk sha256 t files c target counts' = .ok rs' → rs.getLast? = rs'.getLast? :=
  ⟨walk_iff .., fun h => (walk_iff ..).mpr (walkWithin_unit h),
    fun _ _ _ hsum h h' => walk_last hsum h h'⟩

/-! ### A step behind the last page -/

theorem replicate_lt_replicate : ∀ {n m : ℕ}, n < m →
    (List.replicate n 0 : Bytes) < List.replicate m 0
  | 0, _ + 1, _ => List.nil_lt_cons ..
  | _ + 1, _ + 1, h => List.cons_lt_cons_iff.mpr
      (.inr ⟨rfl, replicate_lt_replicate (Nat.lt_of_succ_lt_succ h)⟩)

/-- The records of `longStore`. -/
def longRecords : List (RecordKey × RecordRow) :=
  (List.range 513).map fun n => (⟨1, List.replicate n 0⟩, ⟨none, none⟩)

theorem sorted_longRecords : longRecords.Pairwise fun a b => a.1 < b.1 := by
  rw [longRecords, List.pairwise_map]
  refine List.pairwise_lt_range.imp fun h => ?_
  exact RecordKey.lt_iff.mpr (.inr ⟨rfl, replicate_lt_replicate h⟩)

/-- A store with one row more than a buffer keeps. -/
def longStore : Tables :=
  { Tables.empty [] with records := ⟨longRecords, sorted_longRecords⟩ }

def keyCursor : SqliteCursor := SqliteCursor.open (.store 1) .all .next true

theorem queryRows_keyCursor (t : Tables) : queryRows t (keyCursor.rewound .first) none =
    (t.records.entries.filter fun e => decide (e.1.store = 1) && true && true).map fun e =>
      ⟨e.1.key, e.1.key, none, none⟩ := rfl

theorem length_longStore : (queryRows longStore (keyCursor.rewound .first) none).length = 513 := by
  have hrecords : longStore.records.entries = longRecords := by rw [longStore]
  have hall :
      longRecords.filter (fun e => decide (e.1.store = 1) && true && true) = longRecords := by
    rw [List.filter_eq_self]
    intro e he
    obtain ⟨n, -, rfl⟩ := List.mem_map.mp he
    rfl
  rw [queryRows_keyCursor, hrecords, hall, List.length_map, longRecords, List.length_map,
    List.length_range]

/-- A step over all 513 rows panics with the fifth page. -/
theorem long_walk_panics (sha256 : Bytes → Bytes) :
    walk sha256 longStore .empty keyCursor .first [514] = .error .panicked := by
  have hlength := length_longStore
  have hsize := length_queryRows_le longStore (keyCursor.rewound .first) none
  have hsome : queryRows longStore (keyCursor.rewound .first) none ≠ [] :=
    List.ne_nil_of_length_pos (by omega)
  obtain ⟨rows, hrows⟩ : ∃ rows, rows = queryRows longStore (keyCursor.rewound .first) none :=
    ⟨_, rfl⟩
  rw [← hrows] at hlength hsize hsome
  have hfilled : (keyCursor.firstPage .first rows).filled = 128 := by
    show 0 + ((rows.take pageSize).map toEntry).length = 128
    rw [List.length_map, List.length_take, hlength]
    rfl
  have hstands : Stands sha256 longStore .empty rows (keyCursor.firstPage .first rows) 0 :=
    ⟨firstPage_paged hrows hsome, rfl, Nat.le_refl 0, by omega⟩
  have hover : (keyCursor.firstPage .first rows).Overruns rows.length (0 + 514) := by
    have hend : (keyCursor.firstPage .first rows).pageEnd rows.length 4 = 513 := by
      rw [pageEnd, hfilled, hlength]
      rfl
    have hlong : 0 + 512 < 513 := by decide
    exact ⟨4, by decide, by rw [hend]; exact hlong, by rw [hend]; decide⟩
  have hpanics := (step_paged hstands hsize 514).1 hover
  have hseek : seek sha256 longStore .empty keyCursor .first =
      .ok (true, keyCursor.firstPage .first rows) := by
    rw [seek, (fetchNextPage_first hrows).2 hsome]
    rfl
  rw [walk, hseek]
  have hsteps : walkSteps sha256 longStore .empty (keyCursor.firstPage .first rows) [514] =
      .error .panicked := by
    rw [walkSteps, hpanics]
    rfl
  simp only [bind, Except.bind, hsteps]

theorem long_step_not_plain :
    ¬ ∀ (sha256 : Bytes → Bytes) (t : Tables) (files : BlobFiles) (c : SqliteCursor)
      (target : CursorSeek) (counts : List ℕ), (∀ count ∈ counts, 1 ≤ count) →
      walk sha256 t files c target counts =
        plainWalk sha256 files (queryRows t (c.rewound target) none) counts := by
  intro h
  have hplain := h id longStore .empty keyCursor .first [514] (by decide)
  rw [long_walk_panics] at hplain
  exact plainWalk_ne_panicked [514] hplain.symm

end SqliteCursor

end BoaIdb.Sqlite
