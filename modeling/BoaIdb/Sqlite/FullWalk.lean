import BoaIdb.Sqlite.Paging

/-!
A full walk of the SQLite cursor.

A step by one never runs past a page, so a walk that ends has shown every row of its query.
-/

namespace BoaIdb.Sqlite.SqliteCursor

open OrdMap CursorMaps

variable {sha256 : Bytes → Bytes} {t : Tables} {files : BlobFiles} {rows : List QueryRow}
  {c : SqliteCursor} {src : SourceRef} {range : EncodedRange} {dir : Direction} {keyOnly : Bool}

/-- A row of the query that a caller reads so. -/
def Reads (sha256 : Bytes → Bytes) (files : BlobFiles) (q : QueryRow) (r : Row) : Prop :=
  content sha256 files q = .ok r

/-- What is collected from a row of the list on is the rest of the list. -/
theorem collect_rows (hsize : rows.length ≤ t.records.size + t.indexRecords.size) {fuel pos : ℕ}
    {shown : List Row} {q : QueryRow} (hstands : Stands sha256 t files rows c pos)
    (hq : rows[pos]? = some q) (hrow : Reads sha256 files q c.row)
    (h : collect sha256 t files fuel c = .ok shown) :
    List.Forall₂ (Reads sha256 files) (rows.drop pos) shown := by
  induction fuel generalizing c pos shown q with
  | zero => cases h
  | succ fuel ih =>
      obtain ⟨hlt, hget⟩ := List.getElem?_eq_some_iff.mp hq
      have hdrop : rows.drop pos = q :: rows.drop (pos + 1) := by
        rw [List.drop_eq_getElem_cons hlt, hget]
      have hwithin : ¬ c.Overruns rows.length (pos + 1) := by
        have hfilled := hstands.lt_filled
        have hle := hstands.paged.filled_le
        refine not_overruns ?_
        rw [pageEnd]
        have hgain := pageGain_pos c
        omega
      obtain ⟨hended, hfound⟩ := (step_paged hstands hsize 1).2 hwithin
      have h : (step sha256 t files c 1).bind (fun result =>
          if result.1 then (collect sha256 t files fuel result.2).bind fun rest =>
            .ok (c.row :: rest)
          else .ok [c.row]) = .ok shown := h
      rw [hdrop]
      cases hnext : rows[pos + 1]? with
      | none =>
          have hend : rows.length ≤ pos + 1 := List.getElem?_eq_none_iff.mp hnext
          obtain ⟨c', hc', -⟩ := hended hend
          rw [hc'] at h
          cases h
          rw [List.drop_eq_nil_of_le hend]
          exact .cons hrow .nil
      | some q' =>
          obtain ⟨hreads, hfails⟩ := hfound q' hnext
          cases hcontent : content sha256 files q' with
          | error e =>
              rw [hfails e hcontent] at h
              cases h
          | ok r =>
              obtain ⟨c', hc', hstands', hrow'⟩ := hreads r hcontent
              rw [hc'] at h
              have h : (collect sha256 t files fuel c').bind
                (fun rest => Except.ok (c.row :: rest)) = .ok shown := h
              cases hrest : collect sha256 t files fuel c' with
              | error e =>
                  rw [hrest] at h
                  cases h
              | ok rest =>
                  rw [hrest] at h
                  cases h
                  have hread : Reads sha256 files q' c'.row := by
                    rw [Reads, hcontent, hrow']
                  exact .cons hrow (ih hstands' hnext hread hrest)

/-- A full walk that ends shows the rows of its query. -/
theorem visit_shows {shown : List Row}
    (h : (SqliteCursor.open src range dir keyOnly).visit sha256 t files = .ok shown) :
    Shows sha256 t files src range dir keyOnly shown := by
  have hall : allRows t src range dir keyOnly =
      queryRows t ((SqliteCursor.open src range dir keyOnly).rewound .first) none := rfl
  obtain ⟨hempty, hfirst⟩ := @seek_paged sha256 t files _ _ .first hall
  have h : (seek sha256 t files (SqliteCursor.open src range dir keyOnly) .first).bind
      (fun result => if result.1 then
          collect sha256 t files (t.records.size + t.indexRecords.size + 1) result.2
        else .ok []) = .ok shown := h
  rw [Shows]
  cases hq : (allRows t src range dir keyOnly)[0]? with
  | none =>
      have hnil : allRows t src range dir keyOnly = [] :=
        List.length_eq_zero_iff.mp (Nat.le_zero.mp (List.getElem?_eq_none_iff.mp hq))
      obtain ⟨c', hc', -⟩ := hempty hnil
      rw [hc'] at h
      cases h
      rw [hnil]
      exact .nil
  | some q =>
      obtain ⟨hreads, hfails⟩ := hfirst q hq
      cases hcontent : content sha256 files q with
      | error e =>
          rw [hfails e hcontent] at h
          cases h
      | ok r =>
          obtain ⟨c', hc', hstands, hrow⟩ := hreads r hcontent
          rw [hc'] at h
          have hread : Reads sha256 files q c'.row := by
            rw [Reads, hcontent, hrow]
          exact collect_rows (length_queryRows_le t _ none) hstands hq hread h

theorem filterMap_content {l : List QueryRow} {shown : List Row}
    (h : List.Forall₂ (Reads sha256 files) l shown) :
    l.filterMap (fun q => (content sha256 files q).toOption) = shown := by
  induction h with
  | nil => rfl
  | @cons q r l shown hq _ ih =>
      have hcontent : (content sha256 files q).toOption = some r := by
        rw [show content sha256 files q = .ok r from hq]
        rfl
      simp only [List.filterMap_cons, hcontent, ih]

/-- The rows of a scan are in the order of its direction. -/
theorem allRows_pairwise (t : Tables) (src : SourceRef) (range : EncodedRange) (dir : Direction)
    (keyOnly : Bool) : (allRows t src range dir keyOnly).Pairwise
      (SqliteCursor.open src range dir keyOnly).Before :=
  rangeRows_pairwise t (SqliteCursor.open src range dir keyOnly)

end BoaIdb.Sqlite.SqliteCursor
