import BoaIdb.Cursor.Rows
import BoaIdb.Sqlite.Blob

/-!
The cursor of the SQLite backend.

Rows are fetched in pages. A page resumes at the last row that was fetched, and a seek asks
again from the start with a predicate of its own.
-/

namespace BoaIdb.Sqlite

open OrdMap

/-- How a cursor operation ends early. -/
inductive CursorStop
  | failed (e : BackendError)
  /-- A range past the end of the buffer is drained. -/
  | panicked
  /-- The model's fuel ran out. -/
  | unfinished
  deriving DecidableEq, Repr

abbrev CursorM := Except CursorStop

/-- Rows fetched per page. -/
def pageSize : ℕ := 128

/-- Value slot of a buffered row. -/
inductive EntryValue
  | none
  | inline (value : Bytes)
  /-- The bytes are read when the cursor stands on the row. -/
  | external (path : BlobPath) (cached : Option Bytes)
  deriving DecidableEq, Repr

structure CursorEntry where
  key : Bytes
  primaryKey : Bytes
  value : EntryValue
  deriving DecidableEq, Repr

/-- The selected columns of a row: key, primary key, `value` and `ext`. -/
structure QueryRow where
  key : Bytes
  primaryKey : Bytes
  value : Option Bytes
  ext : Option BlobPath
  deriving DecidableEq, Repr

structure SqliteCursor where
  kind : CursorKind
  range : EncodedRange
  /-- Seek target; its predicates are on the first page only. -/
  seekKey : Option Bytes
  seekPkey : Option Bytes
  orderDesc : Bool
  keyOnly : Bool
  buffer : List CursorEntry
  /-- Absolute offset of the first buffered row. -/
  bufStart : ℕ
  pos : ℕ
  exhausted : Bool
  /-- `anchor_key` and `anchor_pkey`, which are set together. -/
  anchor : Option (Bytes × Bytes)
  /-- Rows equal to the anchor that are represented already. -/
  anchorEq : ℕ

/-- `open_store` and `open_index`. -/
def SqliteCursor.open (src : SourceRef) (range : EncodedRange) (dir : Direction) (keyOnly : Bool) :
    SqliteCursor where
  kind := match src with
    | .store store => .store store
    | .index store index => .index store index dir.isUnique
  range
  seekKey := none
  seekPkey := none
  orderDesc := dir.isPrev
  keyOnly
  buffer := []
  bufStart := 0
  pos := 0
  exhausted := false
  anchor := none
  anchorEq := 0

namespace SqliteCursor

/-! ### Queries -/

/-- `key <= ?` or `key >= ?`, by the direction. -/
def atOrPast (c : SqliteCursor) (target key : Bytes) : Bool :=
  if c.orderDesc then key ≤ target else target ≤ key

/-- `key < ?` or `key > ?`. -/
def strictlyPast (c : SqliteCursor) (target key : Bytes) : Bool :=
  if c.orderDesc then key < target else target < key

/-- `append_seek`. -/
def seekPredicate (c : SqliteCursor) (key pkey : Bytes) : Bool :=
  match c.seekKey with
  | none => true
  | some target =>
      match c.seekPkey with
      | some seekPkey =>
          c.strictlyPast target key || (decide (key = target) && c.atOrPast seekPkey pkey)
      | none => c.atOrPast target key

/-- `append_resume_store`. -/
def resumeStore (c : SqliteCursor) (anchor : Option (Bytes × Bytes)) (key : Bytes) : Bool :=
  match anchor with
  | some (anchorKey, _) => c.atOrPast anchorKey key
  | none => c.seekPredicate key key

/-- `append_resume_index`: a row value compares component by component. -/
def resumeIndex (c : SqliteCursor) (anchor : Option (Bytes × Bytes)) (key pkey : Bytes) : Bool :=
  match anchor with
  | some (anchorKey, anchorPkey) =>
      c.strictlyPast anchorKey key || (decide (key = anchorKey) && c.atOrPast anchorPkey pkey)
  | none => c.seekPredicate key pkey

/-- `append_resume_grouped`. -/
def resumeGrouped (c : SqliteCursor) (anchor : Option (Bytes × Bytes)) (key : Bytes) : Bool :=
  match anchor with
  | some (anchorKey, _) => c.strictlyPast anchorKey key
  | none => c.seekKey.all fun target => c.atOrPast target key

/-- `ORDER BY`, of rows in table order. -/
def ordered {α : Type} (c : SqliteCursor) (rows : List α) : List α :=
  if c.orderDesc then rows.reverse else rows

/-- The columns that are selected of a record. -/
def columns (c : SqliteCursor) (key pkey : Bytes) (row : RecordRow) : QueryRow :=
  if c.keyOnly then ⟨key, pkey, none, none⟩ else ⟨key, pkey, row.value, row.ext⟩

/-- An index entry joined with its record. -/
def joined (t : Tables) (c : SqliteCursor) (store : StoreId) (k : IndexKey) : Option QueryRow :=
  (t.records.get? ⟨store, k.primaryKey⟩).map (c.columns k.key k.primaryKey)

/-- The rows of the cursor's query without its limit. -/
def queryRows (t : Tables) (c : SqliteCursor) (anchor : Option (Bytes × Bytes)) : List QueryRow :=
  match c.kind with
  | .store store =>
      let rows := t.records.entries.filter fun e =>
        decide (e.1.store = store) && c.range.contains e.1.key && c.resumeStore anchor e.1.key
      (c.ordered rows).map fun e => c.columns e.1.key e.1.key e.2
  | .index store index true =>
      let entries := t.indexRecords.keys.filter fun k =>
        decide (k.index = index) && c.range.contains k.key && c.resumeGrouped anchor k.key
      (c.ordered (CursorMaps.groupMins entries)).filterMap (joined t c store)
  | .index store index false =>
      let entries := t.indexRecords.keys.filter fun k =>
        decide (k.index = index) && c.range.contains k.key && c.resumeIndex anchor k.key
          k.primaryKey
      (c.ordered entries).filterMap (joined t c store)

/-- `build_query`, run. -/
def query (t : Tables) (c : SqliteCursor) (anchor : Option (Bytes × Bytes)) : List QueryRow :=
  (queryRows t c anchor).take pageSize

/-! ### Pages -/

def noteAppended (c : SqliteCursor) (key pkey : Bytes) : SqliteCursor :=
  if c.anchor = some (key, pkey) then { c with anchorEq := c.anchorEq + 1 }
  else { c with anchor := some (key, pkey), anchorEq := 1 }

def anchorIsEqual (anchor : Option (Bytes × Bytes)) (grouped : Bool) (key pkey : Bytes) : Bool :=
  match anchor with
  | none => false
  | some (anchorKey, anchorPkey) =>
      if grouped then key = anchorKey else key = anchorKey && pkey = anchorPkey

def entryValue (row : QueryRow) : EntryValue :=
  match row.value, row.ext with
  | some v, _ => .inline v
  | none, some path => .external path none
  | none, none => .none

/-- The loop over the rows of a page: `skip` rows that equal the anchor are left out. -/
def appendRows (anchor : Option (Bytes × Bytes)) (grouped : Bool) :
    List QueryRow → ℕ → Bool → SqliteCursor → Bool × SqliteCursor
  | [], _, added, c => (added, c)
  | row :: rows, skip, added, c =>
      if 0 < skip ∧ anchorIsEqual anchor grouped row.key row.primaryKey = true then
        appendRows anchor grouped rows (skip - 1) added c
      else
        let c := c.noteAppended row.key row.primaryKey
        appendRows anchor grouped rows skip true
          { c with buffer := c.buffer ++ [⟨row.key, row.primaryKey, entryValue row⟩] }

def grouped (c : SqliteCursor) : Bool :=
  match c.kind with
  | .index _ _ unique => unique
  | .store _ => false

/-- Fetches the next page at the end of the buffer; whether rows were added. -/
def fetchNextPage (t : Tables) (c : SqliteCursor) : CursorM (Bool × SqliteCursor) :=
  let skip := if c.grouped then 0 else c.anchorEq
  let (added, c) := appendRows c.anchor c.grouped (query t c c.anchor) skip false c
  let c := if added then c else { c with exhausted := true }
  -- drop the prefix that was consumed
  if 512 < c.buffer.length ∧ c.bufStart + 256 < c.pos then
    if c.buffer.length < c.pos - c.bufStart then .error .panicked
    else .ok (added, { c with buffer := c.buffer.drop (c.pos - c.bufStart), bufStart := c.pos })
  else .ok (added, c)

variable (sha256 : Bytes → Bytes)

/-- The value of the row under the cursor, read from its file if it has one; that of the row
before is dropped. -/
def materializeCurrent (files : BlobFiles) (c : SqliteCursor) : CursorM SqliteCursor :=
  if c.keyOnly || c.exhausted then .ok c
  else
    let drop (entry : CursorEntry) : CursorEntry :=
      match entry.value with
      | .external path _ => { entry with value := .external path none }
      | _ => entry
    let c := if c.bufStart < c.pos then
        { c with buffer := c.buffer.modify (c.pos - 1 - c.bufStart) drop }
      else c
    let idx := c.pos - c.bufStart
    match c.buffer[idx]? with
    | none => .ok c
    | some entry =>
        match entry.value with
        | .external path none =>
            match BlobFiles.read sha256 files path with
            | .error e => .error (.failed e)
            | .ok data =>
                .ok { c with
                  buffer := c.buffer.set idx { entry with value := .external path (some data) } }
        | _ => .ok c

/-- Fetches pages until the row at an absolute position is buffered. -/
def ensureLoop (t : Tables) (idx : ℕ) : ℕ → SqliteCursor → CursorM (Bool × SqliteCursor)
  | 0, _ => .error .unfinished
  | fuel + 1, c =>
      if idx < c.bufStart + c.buffer.length then .ok (true, c)
      else do
        let (added, c) ← fetchNextPage t c
        if added then ensureLoop t idx fuel c else .ok (false, c)

def ensure (t : Tables) (c : SqliteCursor) (idx : ℕ) : CursorM (Bool × SqliteCursor) :=
  if c.exhausted then .ok (false, c)
  else ensureLoop t idx (t.records.size + t.indexRecords.size + 2) c

/-! ### The cursor -/

/-- The cursor before the first page of a seek. -/
def rewound (c : SqliteCursor) (target : CursorSeek) : SqliteCursor :=
  { c with
    seekKey := match target with
      | .first => none
      | .key key => some key
      | .keyAndPrimaryKey key _ => some key
    seekPkey := match target with
      | .keyAndPrimaryKey _ pkey => some pkey
      | _ => none
    buffer := []
    bufStart := 0
    pos := 0
    exhausted := false
    anchor := none
    anchorEq := 0 }

def seek (t : Tables) (files : BlobFiles) (c : SqliteCursor) (target : CursorSeek) :
    CursorM (Bool × SqliteCursor) := do
  let (added, c) ← fetchNextPage t (c.rewound target)
  if added then
    let c ← materializeCurrent sha256 files c
    .ok (true, c)
  else .ok (false, c)

def step (t : Tables) (files : BlobFiles) (c : SqliteCursor) (count : ℕ) :
    CursorM (Bool × SqliteCursor) :=
  if c.exhausted then .ok (false, c)
  else do
    let c := { c with pos := c.pos + count }
    let (found, c) ← ensure t c c.pos
    if found then
      let c ← materializeCurrent sha256 files c
      .ok (true, c)
    else .ok (false, { c with exhausted := true })

/-- The buffered row under the cursor. -/
def current (c : SqliteCursor) : Option CursorEntry :=
  if c.exhausted then none else if c.pos < c.bufStart then none else c.buffer[c.pos - c.bufStart]?

def currentKey (c : SqliteCursor) : Bytes := (c.current.map CursorEntry.key).getD []

def currentPrimaryKey (c : SqliteCursor) : Bytes := (c.current.map CursorEntry.primaryKey).getD []

def currentValue (c : SqliteCursor) : Option Bytes :=
  if c.keyOnly then none
  else c.current.bind fun entry =>
    match entry.value with
    | .inline v => some v
    | .external _ cached => cached
    | .none => none

/-! ### A full walk -/

/-- What a caller reads at the current row. -/
def row (c : SqliteCursor) : Bytes × Bytes × Option Bytes :=
  (c.currentKey, c.currentPrimaryKey, c.currentValue)

/-- The rows from the current one on, stepping by one until the cursor ends. -/
def collect (t : Tables) (files : BlobFiles) :
    ℕ → SqliteCursor → CursorM (List (Bytes × Bytes × Option Bytes))
  | 0, _ => .error .unfinished
  | fuel + 1, c => do
      let (more, c') ← step sha256 t files c 1
      if more then
        let rows ← collect t files fuel c'
        .ok (c.row :: rows)
      else .ok [c.row]

/-- Seeks to the first row and steps by one until the cursor ends. -/
def visit (t : Tables) (files : BlobFiles) (c : SqliteCursor) :
    CursorM (List (Bytes × Bytes × Option Bytes)) := do
  let (found, c) ← seek sha256 t files c .first
  if found then collect sha256 t files (t.records.size + t.indexRecords.size + 1) c
  else .ok []

end SqliteCursor

end BoaIdb.Sqlite
