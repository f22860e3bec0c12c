import BoaIdb.Backend.PendingTxn
import BoaIdb.Core.KeyCanonical
import BoaIdb.Driver.CursorMoves
import BoaIdb.Sqlite.FullWalk
import BoaIdb.Sqlite.Txn

/-!
What a cursor of script has read when it is opened.

A walk that reaches every row of its source reads them in the order of the cursor. Where their
keys are well spelled, that order is the one in which script compares keys, and each row of the
list is followed by what the source holds past it.
-/

namespace BoaIdb

open Faults OrdMap

/-! ### The order of rows -/

/-- A row that a cursor meets behind another; a unique walk leaves a whole group behind. -/
def RowPast (dir : Direction) (r r' : Bytes × Bytes × Option Bytes) : Prop :=
  ahead dir.isPrev r.1 r'.1 = true ∨
    dir.isUnique = false ∧ r.1 = r'.1 ∧ ahead dir.isPrev r.2.1 r'.2.1 = true

theorem RowPast.asymm {dir : Direction} {r r' : Bytes × Bytes × Option Bytes}
    (h : RowPast dir r r') : ¬ RowPast dir r' r := by
  have hkeys {a b : Bytes} (hab : ahead dir.isPrev a b = true) : ahead dir.isPrev b a = false :=
    Sqlite.SqliteCursor.ahead_asymm hab
  rcases h with h | ⟨-, hkey, h⟩
  · rintro (h' | ⟨-, hkey', -⟩)
    · rw [hkeys h] at h'
      cases h'
    · rw [hkey', ahead_irrefl] at h
      cases h
  · rintro (h' | ⟨-, -, h'⟩)
    · rw [hkey, ahead_irrefl] at h'
      cases h'
    · rw [hkeys h] at h'
      cases h'

/-- The merged rows of a source are in the order of its cursor. -/
theorem CursorMaps.rows_rowPast (maps : CursorMaps) (src : SourceRef) (range : EncodedRange)
    (dir : Direction) (keyOnly : Bool) :
    (maps.rows src range dir keyOnly).Pairwise (RowPast dir) := by
  cases src with
  | store store =>
      rw [rows, List.pairwise_map]
      refine (Cursor.storeKeys_pairwise maps store range _).imp_of_mem fun {a b} ha hb hab => ?_
      have hstore := (Cursor.mem_storeKeys.mp ha).2.1.trans (Cursor.mem_storeKeys.mp hb).2.1.symm
      rw [ahead_recordKey hstore] at hab
      exact .inl hab
  | index store index =>
      rw [rows, List.pairwise_map]
      cases hunique : dir.isUnique with
      | true =>
          exact (Cursor.groupMins_pairwise maps index range _).imp fun hab => .inl hab
      | false =>
          refine (Cursor.indexKeys_pairwise maps index range _).imp_of_mem fun {a b} ha hb hab => ?_
          have hindex :=
            (Cursor.mem_indexKeys.mp ha).2.1.trans (Cursor.mem_indexKeys.mp hb).2.1.symm
          rcases (ahead_indexKey hindex).mp hab with h | ⟨hkey, h⟩
          · exact .inl h
          · exact .inr ⟨hunique, hkey, h⟩

/-- So are the rows of the tables. -/
theorem Sqlite.SqliteCursor.content_rowPast (sha256 : Bytes → Bytes) (t : Tables)
    (files : BlobFiles) (src : SourceRef) (range : EncodedRange) (dir : Direction)
    (keyOnly : Bool) :
    ((allRows t src range dir keyOnly).filterMap fun q =>
      (content sha256 files q).toOption).Pairwise
      (RowPast dir) := by
  have hread {q : QueryRow} {r : Row} (h : (content sha256 files q).toOption = some r) :
      r.1 = q.key ∧ r.2.1 = q.primaryKey := by
    cases hcontent : content sha256 files q with
    | error e =>
        rw [hcontent] at h
        cases h
    | ok row =>
        rw [hcontent] at h
        cases h
        exact content_row sha256 hcontent
  rw [List.pairwise_filterMap]
  refine (allRows_pairwise t src range dir keyOnly).imp fun {q q'} hbefore r hr r' hr' => ?_
  obtain ⟨hkey, hpkey⟩ := hread hr
  obtain ⟨hkey', hpkey'⟩ := hread hr'
  rw [RowPast, hkey, hkey', hpkey, hpkey']
  cases src with
  | store store => exact .inl hbefore
  | index store index =>
      have hkind : (SqliteCursor.open (.index store index) range dir keyOnly).kind =
        .index store index dir.isUnique := rfl
      rw [Before, hkind] at hbefore
      cases hunique : dir.isUnique with
      | true =>
          rw [hunique] at hbefore
          exact .inl hbefore
      | false =>
          rw [hunique] at hbefore
          exact hbefore.imp id fun h => ⟨rfl, h⟩

namespace Driver

open Clone Engine OrderedCode

/-! ### Sources -/

/-- A backend whose sources have contents. -/
class SourceTxn (σ : Type) where
  /-- The rows of a source in a range, in the order of a direction. -/
  content : σ → SourceRef → EncodedRange → Direction → Bool → List (Bytes × Bytes × Option Bytes)
  /-- A full walk meets all of them. -/
  Reaches : σ → SourceRef → EncodedRange → Direction → Prop

/-- The merged rows of the committed and the pending maps. -/
instance sourceTxn_pending {σ : Type} [BackendTxn σ] [PendingTxn σ] : SourceTxn σ where
  content s src range dir keyOnly :=
    ((PendingTxn.overlay s).pending.cursorMaps (PendingTxn.overlay s).rows).rows src range dir
      keyOnly
  Reaches s src range dir :=
    ((PendingTxn.overlay s).pending.cursorMaps (PendingTxn.overlay s).rows).ReachesRows src
      range dir

/-- The rows of the tables. -/
instance sourceTxn_sqlite (sha256 : Bytes → Bytes) : SourceTxn (Sqlite.SqliteTxn sha256) where
  content t src range dir keyOnly :=
    (Sqlite.SqliteCursor.allRows t.tables src range dir keyOnly).filterMap fun q =>
      (Sqlite.SqliteCursor.content sha256 t.files q).toOption
  Reaches _ _ _ _ := True

section Sources

variable {σ : Type} [SourceTxn σ]

/-- The sources hold the same, and are walked alike. -/
structure SameSources (b b' : σ) : Prop where
  content : SourceTxn.content b' = SourceTxn.content b
  reaches : SourceTxn.Reaches b' = SourceTxn.Reaches b

theorem SameSources.refl (b : σ) : SameSources b b := ⟨rfl, rfl⟩

theorem SameSources.trans {b b' b'' : σ} (h : SameSources b b') (h' : SameSources b' b'') :
    SameSources b b'' :=
  ⟨h'.content.trans h.content, h'.reaches.trans h.reaches⟩

/-- A backend whose savepoints and scans leave its sources alone, and whose walks read them. -/
class LawfulSource (σ : Type) [BackendTxn σ] [SourceTxn σ] : Prop where
  beginRequest (b : σ) : Meets (· = b) BackendTxn.beginRequest
    (fun _ => SameSources b) fun _ => SameSources b
  commitRequest (b : σ) : Meets (· = b) BackendTxn.commitRequest
    (fun _ => SameSources b) fun _ => SameSources b
  scanRows (b : σ) (src : SourceRef) (range : EncodedRange) (dir : Direction) (keyOnly : Bool) :
    Meets (· = b) (BackendTxn.scanRows src range dir keyOnly)
      (fun rows b' => SameSources b b' ∧ (SourceTxn.Reaches b src range dir →
        rows = SourceTxn.content b src range dir keyOnly))
      fun _ => SameSources b
  ordered (b : σ) (src : SourceRef) (range : EncodedRange) (dir : Direction) (keyOnly : Bool) :
    (SourceTxn.content b src range dir keyOnly).Pairwise (RowPast dir)

end Sources

instance lawfulSource_pending {σ : Type} [BackendTxn σ] [PendingTxn σ] : LawfulSource σ where
  beginRequest b := (PendingTxn.beginRequest b).mono (fun _ h => h)
    (fun _ b' hb' => ⟨by funext; simp only [SourceTxn.content, hb']; rfl,
      by funext; simp only [SourceTxn.Reaches, hb']; rfl⟩)
    fun _ _ h => h.elim
  commitRequest b := by
    refine (PendingTxn.commitRequest b).mono (fun _ h => h) ?_ ?_
    · rintro _ b' ⟨p, hp, hb'⟩
      have hmaps : p.cursorMaps (PendingTxn.overlay b).rows =
          (PendingTxn.overlay b).pending.cursorMaps (PendingTxn.overlay b).rows := by
        unfold Pending.commitRequest at hp
        split at hp
        · cases hp
        · cases hp
          rfl
        · cases hp
          rfl
      constructor
      · funext src range dir keyOnly
        simp only [SourceTxn.content, hb', hmaps]
      · funext src range dir
        simp only [SourceTxn.Reaches, hb', hmaps]
    · rintro _ b' ⟨rfl, -⟩
      exact .refl _
  scanRows b src range dir keyOnly := by
    refine (PendingTxn.scanRows b src range dir keyOnly).mono (fun _ h => h) ?_ ?_
    · rintro rows b' ⟨rfl, hvisit⟩
      refine ⟨.refl _, fun hreach => ?_⟩
      have hall := Cursor.visit_of_reaches hreach keyOnly
      exact Except.ok.inj (Option.some.inj (hvisit.symm.trans hall))
    · rintro _ b' ⟨⟨-, rfl⟩, -⟩
      exact .refl _
  ordered b src range dir keyOnly := CursorMaps.rows_rowPast _ src range dir keyOnly

instance lawfulSource_sqlite (sha256 : Bytes → Bytes) :
    LawfulSource (Sqlite.SqliteTxn sha256) where
  beginRequest b := meets_modify fun t ht => ht ▸ ⟨rfl, rfl⟩
  commitRequest b := by
    show Meets _ Sqlite.SqliteTxn.commitRequest _ _
    unfold Sqlite.SqliteTxn.commitRequest
    refine meets_read ?_
    rintro t rfl
    cases t.savepoints with
    | nil => exact meets_throw fun _ ht => ht ▸ .refl _
    | cons _ rest => exact meets_modify fun _ ht => ht ▸ ⟨rfl, rfl⟩
  scanRows b src range dir keyOnly := by
    have hcheck :
        Meets (· = b) (Sqlite.SqliteTxn.checkSrcScope src : Sqlite.SqliteTxn.Op sha256 Unit)
        (fun _ t => t = b) fun _ => SameSources b := by
      cases src
      all_goals
        refine meets_read ?_
        rintro t rfl
        split
        · exact meets_pure fun _ ht => ht
        · exact meets_throw fun _ ht => ht ▸ .refl _
    refine hcheck.bind fun _ => meets_read ?_
    rintro t rfl
    rcases hvisit : (Sqlite.SqliteCursor.open src range dir keyOnly).visit sha256 t.tables
      t.files with
      stop | rows
    · cases stop with
      | failed e => exact meets_throw fun _ ht => ht ▸ .refl _
      | panicked | unfinished =>
          rintro _ rfl
          exact .refl _
    · exact meets_pure fun _ ht => ⟨ht ▸ .refl _, fun _ =>
        (Sqlite.SqliteCursor.filterMap_content (Sqlite.SqliteCursor.visit_shows hvisit)).symm⟩
  ordered b src range dir keyOnly :=
    Sqlite.SqliteCursor.content_rowPast sha256 b.tables b.files src range dir keyOnly

/-! ### Rows as script sees them -/

section Rows

variable {env : CodecEnv} {limits : LimitConfig} {keyOnly : Bool}
  {row row' : Bytes × Bytes × Option Bytes} {r r' : CursorRow}

variable (env limits keyOnly) in
/-- A row as script sees it. -/
def cursorRowOf (row : Bytes × Bytes × Option Bytes) : Option CursorRow :=
  (decodeRows env limits keyOnly [row]).toOption.bind fun r => r.1.head?

/-- In a list in which each member comes strictly before the later ones, those past a member are
the rest of the list. -/
theorem filter_eq_drop {α : Type} {p : α → α → Bool} {l : List α} (hself : ∀ a ∈ l, p a a = false)
    (hl : l.Pairwise fun a b => p a b = true ∧ p b a = false) {n : ℕ} {a : α} (h : l[n]? = some a) :
    l.filter (p a) = l.drop (n + 1) := by
  induction l generalizing n with
  | nil => cases h
  | cons b l ih =>
      obtain ⟨hb, hl⟩ := List.pairwise_cons.mp hl
      cases n with
      | zero =>
          obtain rfl : b = a := Option.some.inj h
          have hall : l.filter (p b) = l := List.filter_eq_self.mpr fun c hc => (hb c hc).1
          rw [List.filter_cons_of_neg (by simp [hself b (.head _)]), hall]
          rfl
      | succ n =>
          have ha : l[n]? = some a := h
          have hbehind := (hb a (List.mem_of_getElem? ha)).2
          rw [List.filter_cons_of_neg (by simp [hbehind])]
          exact ih (fun c hc => hself c (.tail _ hc)) hl ha

end Rows

/-! ### The opening of a cursor -/

section Opening

variable {σ : Type} [BackendTxn σ] [SourceTxn σ] (env : CodecEnv) (limits : LimitConfig)

variable {env limits} {b : σ} {x : OrderedMap ℕ CursorState × ℕ}

/-- The backend is there, with the sources as they were. -/
def KeepsSources (b : σ) (s : OpState σ) : Prop := ∃ b', s.backend = .ok b' ∧ SameSources b b'

variable (env limits b) in
/-- These are the rows of the source, as script sees them, if a walk reaches them. -/
def ReadWhole (source : SourceRef) (range : RangeData) (direction : Direction) (keyOnly : Bool)
    (rows : List CursorRow) : Prop :=
  ∃ encoded, encodedRange limits range = .ok encoded ∧
    (SourceTxn.Reaches b source encoded direction →
      rows = (SourceTxn.content b source encoded direction keyOnly).filterMap
        (cursorRowOf env limits keyOnly))

variable [LawfulSource σ]

variable (env limits b x) in
/-- What an opening that has not failed leaves behind. -/
def Opened (source : SourceRef) (range : RangeData) (direction : Direction) (keyOnly : Bool)
    (s : OpState σ) : Prop :=
  KeepsSources b s ∧ ∃ c, s.cursors = x.1.insert x.2 c ∧ c.source = source ∧
    c.direction = direction ∧ c.keyOnly = keyOnly ∧
    ReadWhole env limits b source range direction keyOnly c.rows

end Opening

end Driver

end BoaIdb
