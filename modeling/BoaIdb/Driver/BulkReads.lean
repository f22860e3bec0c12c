import BoaIdb.Cursor.Completeness
import BoaIdb.Driver.ExecuteOp

/-!
Point and bulk reads, call by call into the backend, against the rows of a cursor.

A read sees what the backend answers to each seek and each step, so an error may come in the
middle of a walk.
-/

namespace BoaIdb.Driver

open Clone Engine Faults

/-! ### The backend, as a read sees it -/

/-- The bytes of a row: its key, its primary key, its value. -/
abbrev RawRow := Bytes × Bytes × Option Bytes

/-- What a backend cursor answers to the seek of its first row and the single steps behind it. -/
inductive Walk
  | failed (e : BackendError)
  | ended
  | row (row : RawRow) (rest : Walk)

namespace Walk

/-- The answer to the seek or the step that is due, with the row it leads to. -/
def next : Walk → Except BackendError (Option (RawRow × Walk))
  | failed e => .error e
  | ended => .ok none
  | row r rest => .ok (some (r, rest))

/-- A walk without errors. -/
def ofRows : List RawRow → Walk
  | [] => ended
  | r :: rows => row r (ofRows rows)

end Walk

/-- What a transaction's backend answers to reads. -/
structure Reader where
  scan : SourceRef → EncodedRange → Direction → Bool → Except BackendError Walk
  get : StoreId → Bytes → Except BackendError (Option Bytes)

/-- Programs that note whether a call into the backend has failed. -/
abbrev Reading (α : Type) := Prog Bool IdbError α

def ask {α : Type} (answer : Except BackendError α) : Reading α := fun noted =>
  match answer with
  | .ok a => (.done a, noted)
  | .error e => (.failed (backendErr e), true)

/-! ### Reads -/

section Loops

variable (env : CodecEnv) (limits : LimitConfig)

/-- The loops that keep one thing for each row, up to a limit. -/
def rowsLoop {α : Type} (f : RawRow → Except IdbError α) (limit : Option ℕ) :
    Walk → List α → Reading (List α)
  | .failed e, _ => ask (.error e)
  | .ended, out => pure out
  | .row row rest, out => do
      let a ← Prog.lift (f row)
      let out := out ++ [a]
      if limitReached limit out.length then pure out else rowsLoop f limit rest out

/-- The loop of `materialize`. -/
def materializeLoop (keyOnly : Bool) : Walk → List CursorRow → ℕ → Reading (List CursorRow × ℕ)
  | .failed e, _, _ => ask (.error e)
  | .ended, rows, read => pure (rows, read)
  | .row row rest, rows, read => do
      let key ← Prog.lift (decodeKey row.1)
      let pk ← Prog.lift (decodeKey row.2.1)
      let value ← Prog.lift (if keyOnly then .ok none else row.2.2.mapM (decodeValue env limits))
      materializeLoop keyOnly rest (rows ++ [⟨key, pk, value⟩])
        (read + if keyOnly then 0 else (row.2.2.map List.length).getD 0)

end Loops

namespace Reader

variable (env : CodecEnv) (limits : LimitConfig) (r : Reader)

/-- `materialize`. -/
def materialize (source : SourceRef) (range : RangeData) (direction : Direction) (keyOnly : Bool) :
    Reading (List CursorRow × ℕ) := do
  let encoded ← Prog.lift (encodedRange limits range)
  let cursor ← ask (r.scan source encoded direction keyOnly)
  materializeLoop env limits keyOnly cursor [] 0

/-- `first_value`. -/
def firstValue (source : SourceRef) (range : RangeData) : Reading (Option ScValue × ℕ) := do
  let encoded ← Prog.lift (encodedRange limits range)
  let cursor ← ask (r.scan source encoded .next true)
  -- a seek that fails counts as one that finds nothing
  match ← (ask cursor.next).attempt with
  | .ok (some (row, _)) => do
      let pk ← Prog.lift (decodeKey row.2.1)
      let pkBytes ← Prog.lift (encKey limits pk)
      match ← ask (r.get (storeOf source) pkBytes) with
      | some bytes => do
          let value ← Prog.lift (decodeValue env limits bytes)
          pure (some value, bytes.length)
      | none => pure (none, 0)
  | _ => pure (none, 0)

/-- `first_key`. -/
def firstKey (source : SourceRef) (range : RangeData) : Reading (Option Key) := do
  let encoded ← Prog.lift (encodedRange limits range)
  let cursor ← ask (r.scan source encoded .next true)
  match ← (ask cursor.next).attempt with
  | .ok (some (row, _)) => do
      let key ← Prog.lift (decodeKey row.2.1)
      pure (some key)
  | _ => pure none

/-- `collect_keys`. -/
def collectKeys (source : SourceRef) (range : RangeData) (limit : Option ℕ) :
    Reading (List Key) := do
  let encoded ← Prog.lift (encodedRange limits range)
  let cursor ← ask (r.scan source encoded .next true)
  rowsLoop (fun row => decodeKey row.2.1) limit cursor []

/-- The second loop of `collect_values`. -/
def valuesLoop (store : StoreId) (limit : Option ℕ) :
    List Bytes → List ScValue → ℕ → Reading (List ScValue × ℕ)
  | [], out, read => pure (out, read)
  | pk :: pks, out, read => do
      match ← ask (r.get store pk) with
      | some bytes => do
          let value ← Prog.lift (decodeValue env limits bytes)
          let out := out ++ [value]
          if limitReached limit out.length then pure (out, read + bytes.length)
          else valuesLoop store limit pks out (read + bytes.length)
      | none =>
          if limitReached limit out.length then pure (out, read)
          else valuesLoop store limit pks out read

/-- `collect_values`. -/
def collectValues (source : SourceRef) (range : RangeData) (limit : Option ℕ) :
    Reading (List ScValue × ℕ) := do
  let encoded ← Prog.lift (encodedRange limits range)
  let cursor ← ask (r.scan source encoded .next true)
  let pks ← rowsLoop (fun row => decodeKey row.2.1 >>= encKey limits) limit cursor []
  valuesLoop env limits r (storeOf source) limit pks [] 0

end Reader

/-! ### Requests -/

/-- A parsed call of the `getAll` family. -/
structure GetAllArgs where
  range : RangeData
  limit : Option ℕ
  direction : Direction

/-- `(query, count)`, or one options object. -/
inductive GetAllCall
  | arguments (query : RangeData) (count : Option ℕ)
  | options (query : Option RangeData) (count : Option ℕ) (direction : Option Direction)

/-- `parse_count`: zero is no limit. -/
def parseCount : Option ℕ → Option ℕ
  | none => none
  | some count => if count = 0 then none else some count

/-- `parse_get_all_args`, behind the conversions of its members. -/
def parseGetAllArgs : GetAllCall → GetAllArgs
  | .arguments query count => ⟨query, parseCount count, .next⟩
  | .options query count direction => ⟨query.getD .all, parseCount count, direction.getD .next⟩

/-- The reads that script can ask a store or an index for. -/
inductive ReadCall
  | get (query : RangeData)
  | getKey (query : RangeData)
  | getAll (call : GetAllCall)
  | getAllKeys (call : GetAllCall)
  | getAllRecords (call : GetAllCall)

namespace ReadCall

/-- The operation that is queued; that of `getAll` and `getAllKeys` has no direction. -/
def op (source : SourceRef) : ReadCall → PendingOp
  | get query => .get source query
  | getKey query => .getKey source query
  | getAll call => .getAll source (parseGetAllArgs call).range (parseGetAllArgs call).limit false
  | getAllKeys call => .getAll source (parseGetAllArgs call).range (parseGetAllArgs call).limit true
  | getAllRecords call => .getAllRecords source (parseGetAllArgs call).range
      (parseGetAllArgs call).limit (parseGetAllArgs call).direction

/-- The query and the direction that the caller asked for; `get` and `getKey` have none. -/
def range : ReadCall → RangeData
  | get query | getKey query => query
  | getAll call | getAllKeys call | getAllRecords call => (parseGetAllArgs call).range

def direction : ReadCall → Direction
  | get _ | getKey _ => .next
  | getAll call | getAllKeys call | getAllRecords call => (parseGetAllArgs call).direction

end ReadCall

/-- The first rows of a call. -/
def GetAllArgs.first {α : Type} (args : GetAllArgs) (l : List α) : List α :=
  args.limit.elim l fun n => l.take n

/-- `execute_op_inner` for reads. -/
def Reader.execute (env : CodecEnv) (limits : LimitConfig) (r : Reader) (source : SourceRef) :
    ReadCall → Reading RawOutcome
  | .get query => do
      let (value, _) ← r.firstValue env limits source query
      pure (.value value)
  | .getKey query => do
      match ← r.firstKey limits source query with
      | some key => pure (.key key)
      | none => pure (.value none)
  | .getAll call => do
      let (values, _) ← r.collectValues env limits source (parseGetAllArgs call).range
        (parseGetAllArgs call).limit
      pure (.values values)
  | .getAllKeys call => do
      let keys ← r.collectKeys limits source (parseGetAllArgs call).range
        (parseGetAllArgs call).limit
      pure (.keys keys)
  | .getAllRecords call => do
      let (rows, _) ← r.materialize env limits source (parseGetAllArgs call).range
        (parseGetAllArgs call).direction false
      pure (.records ((parseGetAllArgs call).limit.elim rows fun n => rows.take n))

/-! ### What a read has to return -/

section Spec

variable (env : CodecEnv) (limits : LimitConfig) (r : Reader) (source : SourceRef)

/-- A row as a scan shows it. -/
def shown (keyOnly : Bool) (row : RawRow) : RawRow :=
  (row.1, row.2.1, if keyOnly then none else row.2.2)

/-- The backend answers without errors: its scans walk these rows, and a lookup of a primary key
finds the value of the row. -/
structure Reader.Serves (encoded : EncodedRange) (rows : Direction → List RawRow) : Prop where
  scan : ∀ direction keyOnly, r.scan source encoded direction keyOnly =
    .ok (.ofRows ((rows direction).map (shown keyOnly)))
  get : ∀ direction, ∀ row ∈ rows direction, r.get (storeOf source) row.2.1 = .ok row.2.2
  /-- Primary keys were encoded by the engine. -/
  keys : ∀ direction, ∀ row ∈ rows direction, ∃ pk, decodeKey row.2.1 = .ok pk ∧
    encKey limits pk = .ok row.2.1

/-- The rows of a cursor. -/
def cursorRows (rows : List RawRow) : Except IdbError (List CursorRow) :=
  (decodeRows env limits false rows).map Prod.fst

/-- The outcome of a read whose cursor visits these rows. -/
def ReadCall.Returns (rows : List CursorRow) : ReadCall → Exit IdbError RawOutcome → Prop
  | .get _, exit => exit = .done (.value (rows.head?.bind CursorRow.value))
  | .getKey _, exit => exit = .done (rows.head?.elim (.value none) fun row => .key row.primaryKey)
  | .getAll call, exit => ∃ values, exit = .done (.values values) ∧
      values.map some = ((parseGetAllArgs call).first rows).map CursorRow.value
  | .getAllKeys call, exit =>
      exit = .done (.keys (((parseGetAllArgs call).first rows).map CursorRow.primaryKey))
  | .getAllRecords call, exit => exit = .done (.records ((parseGetAllArgs call).first rows))

/-- A read agrees with the cursor of its direction, and reports the errors of the backend. -/
structure Follows (call : ReadCall) : Prop where
  rows : ∀ encoded rows visited, encodedRange limits call.range = .ok encoded →
    r.Serves limits source encoded rows →
      cursorRows env limits (rows call.direction) = .ok visited →
    call.Returns visited (r.execute env limits source call false).1
  errors : (r.execute env limits source call false).2 = true →
    ∃ e, (r.execute env limits source call false).1 = .failed e

/-- The values under some rows, where there are any. -/
def storedValues (rows : List RawRow) : Except IdbError (List ScValue) :=
  (rows.filterMap fun row => row.2.2).mapM (decodeValue env limits)

/-- The seek to the first row does not fail. -/
def SeekSucceeds (query : RangeData) : Prop :=
  ∀ encoded e, encodedRange limits query = .ok encoded →
    r.scan source encoded .next true ≠ .ok (.failed e)

/-- Where a read follows its cursor: nothing hides an error, and a direction that was asked for
makes no difference to what is read. -/
def ReadCall.Sound : ReadCall → Prop
  | .get query => SeekSucceeds limits r source query
  | .getKey query => SeekSucceeds limits r source query
  | .getAll call => ∀ encoded rows visited,
      encodedRange limits (parseGetAllArgs call).range = .ok encoded →
      r.Serves limits source encoded rows →
      cursorRows env limits (rows (parseGetAllArgs call).direction) = .ok visited →
      (∀ row ∈ (parseGetAllArgs call).first visited, row.value ≠ none) ∧
        ((parseGetAllArgs call).direction = .next ∨
          storedValues env limits ((parseGetAllArgs call).first (rows .next)) =
            .ok (((parseGetAllArgs call).first visited).filterMap CursorRow.value))
  | .getAllKeys call => ∀ encoded rows visited,
      encodedRange limits (parseGetAllArgs call).range = .ok encoded →
      r.Serves limits source encoded rows →
      cursorRows env limits (rows (parseGetAllArgs call).direction) = .ok visited →
      (parseGetAllArgs call).direction = .next ∨
        ((parseGetAllArgs call).first (rows .next)).mapM (fun row => decodeKey row.2.1) =
          .ok (((parseGetAllArgs call).first visited).map CursorRow.primaryKey)
  | .getAllRecords _ => True

end Spec

/-! ### Loops over rows -/

section Rows

variable {env : CodecEnv} {limits : LimitConfig} {r : Reader} {source : SourceRef}

theorem limitReached_iff {limit : Option ℕ} {count : ℕ} :
    limitReached limit count = true ↔ ∃ n, limit = some n ∧ n ≤ count := by
  cases limit <;> simp [limitReached]

/-- What a loop with a limit has kept, when it starts with some results already. -/
def kept {α : Type} (limit : Option ℕ) (had : ℕ) (l : List α) : List α :=
  limit.elim l fun n => l.take (n - had)

theorem kept_zero {α : Type} (args : GetAllArgs) (l : List α) :
    kept args.limit 0 l = args.first l := by
  cases h : args.limit <;> simp [kept, GetAllArgs.first, h]

theorem kept_cons {α : Type} {limit : Option ℕ} {had : ℕ} (a : α) (l : List α)
    (h : limitReached limit had = false) : kept limit had (a :: l) =
      a :: if limitReached limit (had + 1) then [] else kept limit (had + 1) l := by
  cases limit with
  | none => rfl
  | some n =>
      have hlt : had < n := by simpa [limitReached] using h
      obtain ⟨m, hm⟩ : ∃ m, n - had = m + 1 := ⟨n - had - 1, by omega⟩
      have hrest : n - (had + 1) = m := by omega
      have hreached : limitReached (some n) (had + 1) = decide (m = 0) := by
        rw [limitReached, Option.any_some, decide_eq_decide]
        omega
      simp only [kept, Option.elim_some, hm, hrest, List.take_succ_cons, hreached]
      by_cases hzero : m = 0
      · rw [hzero]
        rfl
      · rw [decide_eq_false hzero]
        rfl

theorem rowsLoop_ofRows {α : Type} {f : RawRow → Except IdbError α} {limit : Option ℕ}
    {noted : Bool} :
    ∀ {rows : List RawRow} {as : List α} (out : List α),
      List.Forall₂ (fun row a => f row = .ok a) rows as → limitReached limit out.length = false →
      rowsLoop f limit (.ofRows rows) out noted = (.done (out ++ kept limit out.length as), noted)
  | _, _, out, .nil, _ => by
      have hnil : kept limit out.length ([] : List α) = [] := by cases limit <;> simp [kept]
      rw [hnil, List.append_nil]
      rfl
  | _, _, out, @List.Forall₂.cons _ _ _ row a rows as hrow hrest, hlimit => by
      have hlength : (out ++ [a]).length = out.length + 1 := by simp
      show (Prog.lift (f row) >>= fun a => _) noted = _
      rw [hrow, Prog.lift_ok_bind, kept_cons a as hlimit, ← hlength]
      show (if limitReached limit (out ++ [a]).length then pure (out ++ [a])
        else rowsLoop f limit (.ofRows rows) (out ++ [a])) noted = _
      split
      · next hreached =>
          rfl
      · next hreached =>
          rw [rowsLoop_ofRows (out ++ [a]) hrest (by simpa using hreached), List.append_assoc]
          rfl

/-- A row and what a cursor makes of it. -/
structure Decoded (env : CodecEnv) (limits : LimitConfig) (raw : RawRow) (row : CursorRow) :
    Prop where
  key : decodeKey raw.1 = .ok row.key
  primaryKey : decodeKey raw.2.1 = .ok row.primaryKey
  value : raw.2.2.mapM (decodeValue env limits) = .ok row.value

theorem decodeRows_ok : ∀ {rows : List RawRow} {visited : List CursorRow} {read : ℕ},
    decodeRows env limits false rows = .ok (visited, read) →
      List.Forall₂ (Decoded env limits) rows visited
  | [], _, _, h => by
      cases h
      exact .nil
  | row :: rows, visited, read, h => by
      obtain ⟨key, hkey, h⟩ := bind_ok h
      obtain ⟨pk, hpk, h⟩ := bind_ok h
      obtain ⟨value, hvalue, h⟩ := bind_ok h
      obtain ⟨rest, hrest, h⟩ := bind_ok h
      cases h
      exact .cons ⟨hkey, hpk, hvalue⟩ (decodeRows_ok hrest)

theorem cursorRows_ok {rows : List RawRow} {visited : List CursorRow}
    (h : cursorRows env limits rows = .ok visited) :
    List.Forall₂ (Decoded env limits) rows visited := by
  obtain ⟨⟨visited', read⟩, hrows, rfl⟩ := map_ok h
  exact decodeRows_ok hrows

theorem materializeLoop_ofRows {noted : Bool} : ∀ {rows : List RawRow} {visited : List CursorRow}
    (out : List CursorRow) (read : ℕ), List.Forall₂ (Decoded env limits) rows visited →
    ∃ total, materializeLoop env limits false (.ofRows rows) out read noted =
      (.done (out ++ visited, total), noted)
  | _, _, out, read, .nil => ⟨read, by rw [List.append_nil]; rfl⟩
  | _, _, out, read, @List.Forall₂.cons _ _ _ raw row rows visited hrow hrest => by
      obtain ⟨total, htotal⟩ := @materializeLoop_ofRows noted _ _ (out ++ [row])
        (read + (raw.2.2.map List.length).getD 0) hrest
      refine ⟨total, ?_⟩
      show (Prog.lift (decodeKey raw.1) >>= fun key => Prog.lift (decodeKey raw.2.1) >>= fun pk =>
        Prog.lift (raw.2.2.mapM (decodeValue env limits)) >>= fun value =>
          materializeLoop env limits false (.ofRows rows) (out ++ [⟨key, pk, value⟩])
            (read + (raw.2.2.map List.length).getD 0)) noted = _
      rw [hrow.key, Prog.lift_ok_bind, hrow.primaryKey, Prog.lift_ok_bind, hrow.value,
        Prog.lift_ok_bind]
      show materializeLoop env limits false (.ofRows rows) (out ++ [row]) _ noted = _
      rw [htotal, List.append_assoc]
      rfl

theorem storedValues_nil : storedValues env limits [] = .ok [] := rfl

theorem storedValues_none {raw : RawRow} {rows : List RawRow} (h : raw.2.2 = none) :
    storedValues env limits (raw :: rows) = storedValues env limits rows := by
  rw [storedValues, List.filterMap_cons, h]
  rfl

theorem storedValues_some {raw : RawRow} {rows : List RawRow} {bytes : Bytes}
    (h : raw.2.2 = some bytes) : storedValues env limits (raw :: rows) =
      decodeValue env limits bytes >>= fun value =>
        storedValues env limits rows >>= fun values => .ok (value :: values) := by
  rw [storedValues, List.filterMap_cons, h]
  exact List.mapM_cons

/-- The values of decoded rows are the stored ones. -/
theorem storedValues_decoded : ∀ {rows : List RawRow} {visited : List CursorRow},
    List.Forall₂ (Decoded env limits) rows visited →
      storedValues env limits rows = .ok (visited.filterMap CursorRow.value)
  | _, _, .nil => rfl
  | _, _, @List.Forall₂.cons _ _ _ raw row rows visited hrow hrest => by
      have ih := storedValues_decoded hrest
      have hvalue := hrow.value
      rw [List.filterMap_cons]
      cases hraw : raw.2.2 with
      | none =>
          rw [hraw] at hvalue
          have hnone : row.value = none := (Except.ok.inj hvalue).symm
          rw [hnone, storedValues_none hraw, ih]
      | some bytes =>
          rw [hraw] at hvalue
          obtain ⟨v, hv, hsome⟩ :=
            map_ok (show (decodeValue env limits bytes).map some = _ from hvalue)
          rw [← hsome, storedValues_some hraw, hv, ih]
          rfl

theorem valuesLoop_none {store : StoreId} {limit : Option ℕ} {pk : Bytes}
    (h : r.get store pk = .ok none)
    (pks : List Bytes) (out : List ScValue) (read : ℕ) :
    r.valuesLoop env limits store limit (pk :: pks) out read =
      if limitReached limit out.length then pure (out, read)
      else r.valuesLoop env limits store limit pks out read := by
  rw [Reader.valuesLoop, h]
  rfl

theorem valuesLoop_some {store : StoreId} {limit : Option ℕ} {pk bytes : Bytes}
    (h : r.get store pk = .ok (some bytes)) (pks : List Bytes) (out : List ScValue) (read : ℕ) :
    r.valuesLoop env limits store limit (pk :: pks) out read =
      Prog.lift (decodeValue env limits bytes) >>= fun value =>
        if limitReached limit (out ++ [value]).length then
          pure (out ++ [value], read + bytes.length)
        else r.valuesLoop env limits store limit pks (out ++ [value]) (read + bytes.length) := by
  rw [Reader.valuesLoop, h]
  rfl

/-- The lookups give the stored values; the limit is not passed. -/
theorem valuesLoop_rows {store : StoreId} {limit : Option ℕ} {noted : Bool} :
    ∀ {rows : List RawRow} (out : List ScValue) (read : ℕ),
      (∀ row ∈ rows, r.get store row.2.1 = .ok row.2.2) →
      (∀ n, limit = some n → out.length + rows.length ≤ n) →
      (∀ values, storedValues env limits rows = .ok values → ∃ total,
        r.valuesLoop env limits store limit (rows.map fun row => row.2.1) out read noted =
          (.done (out ++ values, total), noted)) ∧
      ∀ e, storedValues env limits rows = .error e →
        r.valuesLoop env limits store limit (rows.map fun row => row.2.1) out read noted =
          (.failed e, noted)
  | [], out, read, _, _ => by
      refine ⟨fun values h => ⟨read, ?_⟩, fun e h => ?_⟩
      · obtain rfl : [] = values := Except.ok.inj (storedValues_nil.symm.trans h)
        rw [List.append_nil]
        rfl
      · cases h
  | raw :: rows, out, read, hget, hlimit => by
      have hhead := hget raw (.head _)
      have hrest := fun row hrow => hget row (.tail _ hrow)
      have hbehind {out' : List ScValue} (hlength : out'.length ≤ out.length + 1) (n : ℕ)
          (hn : limit = some n) : out'.length + rows.length ≤ n := by
        have hroom := hlimit n hn
        rw [List.length_cons] at hroom
        omega
      -- the limit is reached behind the last row at the earliest
      have hcontinue {out' : List ScValue} (hlength : out'.length ≤ out.length + 1) (read' : ℕ) :
          (if limitReached limit out'.length then pure (out', read')
            else r.valuesLoop env limits store limit (rows.map fun row => row.2.1) out' read') =
          r.valuesLoop env limits store limit (rows.map fun row => row.2.1) out' read' := by
        split
        · next hreached =>
            obtain ⟨n, hn, hle⟩ := limitReached_iff.mp hreached
            have hroom := hbehind hlength n hn
            rw [List.eq_nil_of_length_eq_zero (show rows.length = 0 by omega)]
            rfl
        · rfl
      rw [List.map_cons]
      cases hraw : raw.2.2 with
      | none =>
          rw [hraw] at hhead
          rw [valuesLoop_none hhead, hcontinue (Nat.le_succ _), storedValues_none hraw]
          exact valuesLoop_rows out read hrest (hbehind (Nat.le_succ _))
      | some bytes =>
          rw [hraw] at hhead
          rw [valuesLoop_some hhead, storedValues_some hraw]
          cases hdecode : decodeValue env limits bytes with
          | error e =>
              refine ⟨fun values h => ?_, fun e' h => ?_⟩
              · cases h
              · cases h
                rfl
          | ok v =>
              have hlength : (out ++ [v]).length ≤ out.length + 1 := by simp
              obtain ⟨hok, herror⟩ := valuesLoop_rows (out ++ [v]) (read + bytes.length) hrest
                (hbehind hlength)
              rw [Prog.lift_ok_bind, hcontinue hlength]
              refine ⟨fun values h => ?_, fun e h => ?_⟩
              · obtain ⟨values', hvalues', hcons⟩ :=
                  bind_ok (show (storedValues env limits rows >>= fun values =>
                    .ok (v :: values)) = .ok values from h)
                cases hcons
                obtain ⟨total, htotal⟩ := hok values' hvalues'
                refine ⟨total, ?_⟩
                rw [htotal, List.append_assoc]
                rfl
              · exact herror e (bind_error (show (storedValues env limits rows >>= fun values =>
                  .ok (v :: values)) = .error e from h) fun _ h => by cases h)

/-! ### Reads of a backend without errors -/

theorem limitReached_parse (call : GetAllCall) :
    limitReached (parseGetAllArgs call).limit 0 = false := by
  have hcount (count : Option ℕ) : limitReached (parseCount count) 0 = false := by
    cases count with
    | none => rfl
    | some n =>
        rw [parseCount]
        split
        · rfl
        · next hn => simpa [limitReached] using hn
  cases call <;> exact hcount _

theorem first_map {α β : Type} (args : GetAllArgs) (f : α → β) (l : List α) :
    args.first (l.map f) = (args.first l).map f := by
  cases h : args.limit <;> simp [GetAllArgs.first, h]

theorem mem_first {α : Type} {args : GetAllArgs} {l : List α} {a : α} (h : a ∈ args.first l) :
    a ∈ l := by
  cases hlimit : args.limit with
  | none => simpa [GetAllArgs.first, hlimit] using h
  | some n => exact List.mem_of_mem_take (by simpa [GetAllArgs.first, hlimit] using h)

theorem length_first {α : Type} {args : GetAllArgs} {l : List α} {n : ℕ} (h : args.limit = some n) :
    (args.first l).length ≤ n := by
  simp [GetAllArgs.first, h]

theorem forall₂_first {α β : Type} {R : α → β → Prop} {as : List α} {bs : List β}
    (args : GetAllArgs) (h : List.Forall₂ R as bs) :
    List.Forall₂ R (args.first as) (args.first bs) := by
  cases hlimit : args.limit with
  | none => simpa [GetAllArgs.first, hlimit] using h
  | some n => simpa [GetAllArgs.first, hlimit] using List.forall₂_take n h

variable {encoded : EncodedRange} {rows : Direction → List RawRow} {query : RangeData}
  {noted : Bool}

/-- What is kept of the rows of a key-only scan. -/
theorem rowsLoop_keyOnly {α : Type} {f : RawRow → Except IdbError α} {rows : List RawRow}
    {as : List α}
    (call : GetAllCall) (hf : List.Forall₂ (fun row a => f (shown true row) = .ok a) rows as) :
    rowsLoop f (parseGetAllArgs call).limit (.ofRows (rows.map (shown true))) [] noted =
      (.done ((parseGetAllArgs call).first as), noted) := by
  have hall : List.Forall₂ (fun row a => f row = .ok a) (rows.map (shown true)) as :=
    List.forall₂_map_left_iff.mpr hf
  rw [rowsLoop_ofRows [] hall (limitReached_parse call), List.nil_append, List.length_nil,
    kept_zero]

theorem exists_forall₂ {α β : Type} {R : α → β → Prop} : ∀ {l : List α}, (∀ a ∈ l, ∃ b, R a b) →
    ∃ bs, List.Forall₂ R l bs
  | [], _ => ⟨[], .nil⟩
  | a :: l, h => by
      obtain ⟨b, hb⟩ := h a (.head _)
      obtain ⟨bs, hbs⟩ := exists_forall₂ fun a ha => h a (.tail _ ha)
      exact ⟨b :: bs, .cons hb hbs⟩

theorem mapM_ok {α β : Type} {f : α → Except IdbError β} : ∀ {as : List α} {bs : List β},
    List.Forall₂ (fun a b => f a = .ok b) as bs → as.mapM f = .ok bs
  | _, _, .nil => rfl
  | _, _, .cons hab hrest => by
      rw [List.mapM_cons, hab, mapM_ok hrest]
      rfl

theorem ask_ok {α : Type} (a : α) (noted : Bool) : ask (.ok a) noted = (.done a, noted) := rfl

theorem Reader.Serves.collectValues (h : r.Serves limits source encoded rows) (call : GetAllCall)
    (hencoded : encodedRange limits (parseGetAllArgs call).range = .ok encoded) :
    r.collectValues env limits source (parseGetAllArgs call).range (parseGetAllArgs call).limit
      noted =
      r.valuesLoop env limits (storeOf source) (parseGetAllArgs call).limit
        (((parseGetAllArgs call).first (rows .next)).map fun row => row.2.1) [] 0 noted := by
  have hpks : rowsLoop (fun row => decodeKey row.2.1 >>= encKey limits) (parseGetAllArgs call).limit
      (.ofRows ((rows .next).map (shown true))) [] noted =
        (.done (((parseGetAllArgs call).first (rows .next)).map fun row => row.2.1), noted) := by
    rw [← first_map]
    refine rowsLoop_keyOnly call (List.forall₂_map_right_iff.mpr (List.forall₂_same.mpr ?_))
    intro row hrow
    obtain ⟨pk, hdecode, hencode⟩ := h.keys .next row hrow
    show (decodeKey row.2.1 >>= encKey limits) = _
    rw [hdecode]
    exact hencode
  rw [Reader.collectValues, hencoded, Prog.lift_ok_bind, h.scan]
  exact Prog.bind_done (ask_ok _ noted) (Prog.bind_done hpks rfl)

theorem Reader.Serves.getAll (h : r.Serves limits source encoded rows) (call : GetAllCall)
    (hencoded : encodedRange limits (parseGetAllArgs call).range = .ok encoded) :
    (∀ values, storedValues env limits ((parseGetAllArgs call).first (rows .next)) = .ok values →
      r.execute env limits source (.getAll call) noted = (.done (.values values), noted)) ∧
    ∀ e, storedValues env limits ((parseGetAllArgs call).first (rows .next)) = .error e →
      r.execute env limits source (.getAll call) noted = (.failed e, noted) := by
  obtain ⟨hok, herror⟩ :=
    @valuesLoop_rows env limits r (storeOf source) (parseGetAllArgs call).limit
    noted ((parseGetAllArgs call).first (rows .next)) [] 0
    (fun row hrow => h.get .next row (mem_first hrow)) fun n hn => by
      rw [List.length_nil, Nat.zero_add]
      exact length_first hn
  refine ⟨fun values hvalues => ?_, fun e he => ?_⟩
  · obtain ⟨total, htotal⟩ := hok values hvalues
    exact Prog.bind_done ((h.collectValues call hencoded).trans htotal) rfl
  · exact Prog.bind_failed ((h.collectValues call hencoded).trans (herror e he))

theorem Reader.Serves.getAllKeys (h : r.Serves limits source encoded rows) (call : GetAllCall)
    (hencoded : encodedRange limits (parseGetAllArgs call).range = .ok encoded) :
    ∃ keys, ((parseGetAllArgs call).first (rows .next)).mapM (fun row => decodeKey row.2.1) =
      .ok keys ∧
      r.execute env limits source (.getAllKeys call) noted = (.done (.keys keys), noted) := by
  obtain ⟨keys, hkeys⟩ : ∃ keys, List.Forall₂ (fun row k => decodeKey (shown true row).2.1 = .ok k)
      (rows .next) keys := by
    refine exists_forall₂ fun row hrow => ?_
    obtain ⟨pk, hdecode, -⟩ := h.keys .next row hrow
    exact ⟨pk, hdecode⟩
  refine ⟨(parseGetAllArgs call).first keys, mapM_ok (forall₂_first _ hkeys), ?_⟩
  have hcollect : r.collectKeys limits source (parseGetAllArgs call).range
      (parseGetAllArgs call).limit noted = (.done ((parseGetAllArgs call).first keys), noted) := by
    rw [Reader.collectKeys, hencoded, Prog.lift_ok_bind, h.scan]
    exact Prog.bind_done (ask_ok _ noted)
      (@rowsLoop_keyOnly noted _ (fun row => decodeKey row.2.1) _ _ call hkeys)
  exact Prog.bind_done hcollect rfl

theorem Reader.Serves.getAllRecords (h : r.Serves limits source encoded rows) (call : GetAllCall)
    (hencoded : encodedRange limits (parseGetAllArgs call).range = .ok encoded)
    {visited : List CursorRow}
    (hvisited : cursorRows env limits (rows (parseGetAllArgs call).direction) = .ok visited) :
    r.execute env limits source (.getAllRecords call) noted =
      (.done (.records ((parseGetAllArgs call).first visited)), noted) := by
  obtain ⟨total, htotal⟩ :=
    @materializeLoop_ofRows env limits noted _ _ [] 0 (cursorRows_ok hvisited)
  have hrows : (rows (parseGetAllArgs call).direction).map (shown false) =
      rows (parseGetAllArgs call).direction := List.map_id _
  have hmaterialize : r.materialize env limits source (parseGetAllArgs call).range
      (parseGetAllArgs call).direction false noted = (.done (visited, total), noted) := by
    rw [Reader.materialize, hencoded, Prog.lift_ok_bind, h.scan, hrows]
    exact Prog.bind_done (ask_ok _ noted) htotal
  exact Prog.bind_done hmaterialize rfl

theorem attempt_ask_ok {α : Type} (a : α) (noted : Bool) :
    (ask (.ok a)).attempt noted = (.done (.ok a), noted) := rfl

theorem Reader.Serves.firstValue (h : r.Serves limits source encoded rows)
    (hencoded : encodedRange limits query = .ok encoded) {visited : List CursorRow}
    (hvisited : cursorRows env limits (rows .next) = .ok visited) :
    r.execute env limits source (.get query) noted =
      (.done (.value (visited.head?.bind CursorRow.value)), noted) := by
  obtain ⟨read, hfirst⟩ : ∃ read, r.firstValue env limits source query noted =
      (.done (visited.head?.bind CursorRow.value, read), noted) := by
    have hdecoded := cursorRows_ok hvisited
    have hget := h.get .next
    have hkeys := h.keys .next
    rw [Reader.firstValue, hencoded, Prog.lift_ok_bind, h.scan]
    generalize rows .next = l at hdecoded hget hkeys
    cases hdecoded with
    | nil =>
        exact ⟨0, Prog.bind_done (ask_ok _ noted) (Prog.bind_done (attempt_ask_ok _ noted) rfl)⟩
    | @cons raw row l visited hrow hrest =>
        obtain ⟨pk, hdecode, hencode⟩ := hkeys raw (.head _)
        have hlookup := hget raw (.head _)
        have hvalue := hrow.value
        have hpk : decodeKey (shown true raw).2.1 = .ok pk := hdecode
        cases hraw : raw.2.2 with
        | none =>
            rw [hraw] at hlookup hvalue
            have hnone : row.value = none := (Except.ok.inj hvalue).symm
            refine ⟨0, Prog.bind_done (ask_ok _ noted) (Prog.bind_done (attempt_ask_ok _ noted) ?_)⟩
            dsimp only
            rw [hpk, Prog.lift_ok_bind, hencode, Prog.lift_ok_bind, hlookup]
            rw [List.head?_cons, Option.bind_some, hnone]
            rfl
        | some bytes =>
            rw [hraw] at hlookup hvalue
            obtain ⟨v, hv, hsome⟩ :=
              map_ok (show (decodeValue env limits bytes).map some = _ from hvalue)
            refine ⟨bytes.length,
              Prog.bind_done (ask_ok _ noted) (Prog.bind_done (attempt_ask_ok _ noted) ?_)⟩
            dsimp only
            rw [hpk, Prog.lift_ok_bind, hencode, Prog.lift_ok_bind, hlookup]
            refine Prog.bind_done (ask_ok _ noted) ?_
            dsimp only
            rw [hv, List.head?_cons, Option.bind_some, ← hsome]
            rfl
  exact Prog.bind_done hfirst rfl

theorem Reader.Serves.firstKey (h : r.Serves limits source encoded rows)
    (hencoded : encodedRange limits query = .ok encoded) {visited : List CursorRow}
    (hvisited : cursorRows env limits (rows .next) = .ok visited) :
    r.execute env limits source (.getKey query) noted =
      (.done (visited.head?.elim (.value none) fun row => .key row.primaryKey), noted) := by
  have hfirst : r.firstKey limits source query noted =
      (.done (visited.head?.map CursorRow.primaryKey), noted) := by
    have hdecoded := cursorRows_ok hvisited
    rw [Reader.firstKey, hencoded, Prog.lift_ok_bind, h.scan]
    generalize rows .next = l at hdecoded
    cases hdecoded with
    | nil => exact Prog.bind_done (ask_ok _ noted) (Prog.bind_done (attempt_ask_ok _ noted) rfl)
    | @cons raw row l visited hrow hrest =>
        have hpk : decodeKey (shown true raw).2.1 = .ok row.primaryKey := hrow.primaryKey
        refine Prog.bind_done (ask_ok _ noted) (Prog.bind_done (attempt_ask_ok _ noted) ?_)
        dsimp only
        rw [hpk]
        rfl
  refine Prog.bind_done hfirst ?_
  cases visited <;> rfl

/-! ### Errors of the backend -/

/-- An error of the backend ends the program. -/
def Reports {α : Type} (p : Reading α) : Prop :=
  Meets (· = false) p (fun _ noted => noted = false) fun e _ => e.isSome

theorem reports_pure {α : Type} (a : α) : Reports (pure a : Reading α) := meets_pure fun _ h => h

theorem reports_lift {α : Type} (x : Except IdbError α) : Reports (Prog.lift x) :=
  meets_lift (fun _ _ _ h => h) fun _ _ _ _ => rfl

theorem reports_ask {α : Type} (answer : Except BackendError α) : Reports (ask answer) := by
  rintro noted rfl
  cases answer with
  | ok a => exact (rfl : false = false)
  | error e => exact (rfl : (some (backendErr e)).isSome = true)

theorem Reports.bind {α β : Type} {p : Reading α} {k : α → Reading β} (h : Reports p)
    (h' : ∀ a, Reports (k a)) : Reports (p >>= k) := Meets.bind h h'

theorem reports_rowsLoop {α : Type} (f : RawRow → Except IdbError α) (limit : Option ℕ) :
    ∀ (cursor : Walk) (out : List α), Reports (rowsLoop f limit cursor out)
  | .failed _, _ => reports_ask _
  | .ended, out => reports_pure out
  | .row row rest, out => by
      refine (reports_lift (f row)).bind fun a => ?_
      dsimp only
      split
      · exact reports_pure _
      · exact reports_rowsLoop f limit rest _

theorem reports_materializeLoop (keyOnly : Bool) :
    ∀ (cursor : Walk) (rows : List CursorRow) (read : ℕ),
    Reports (materializeLoop env limits keyOnly cursor rows read)
  | .failed _, _, _ => reports_ask _
  | .ended, _, _ => reports_pure _
  | .row _ rest, _, _ =>
      (reports_lift _).bind fun _ => (reports_lift _).bind fun _ => (reports_lift _).bind fun _ =>
        reports_materializeLoop keyOnly rest _ _

theorem reports_valuesLoop (store : StoreId) (limit : Option ℕ) : ∀ (pks : List Bytes)
    (out : List ScValue) (read : ℕ), Reports (r.valuesLoop env limits store limit pks out read)
  | [], _, _ => reports_pure _
  | pk :: pks, out, read => by
      refine (reports_ask (r.get store pk)).bind fun found => ?_
      cases found with
      | none =>
          dsimp only
          split
          · exact reports_pure _
          · exact reports_valuesLoop store limit pks _ _
      | some bytes =>
          refine (reports_lift _).bind fun value => ?_
          dsimp only
          split
          · exact reports_pure _
          · exact reports_valuesLoop store limit pks _ _

/-- The first seek of a read, when it does not fail. -/
theorem reports_seek {α : Type} (h : SeekSucceeds limits r source query)
    (k : Except IdbError (Option (RawRow × Walk)) → Reading α) (hk : ∀ found, Reports (k found)) :
    Reports (Prog.lift (encodedRange limits query) >>= fun encoded =>
      ask (r.scan source encoded .next true) >>= fun cursor =>
        (ask cursor.next).attempt >>= k) := by
  refine (meets_lift_self false _).bind fun encoded => Meets.of_imp fun hencoded => ?_
  cases hscan : r.scan source encoded .next true with
  | error e =>
      rintro noted rfl
      exact (rfl : (some (backendErr e)).isSome = true)
  | ok cursor =>
      cases cursor with
      | failed e => exact absurd hscan (h encoded e hencoded)
      | ended => exact hk _
      | row row rest => exact hk _

theorem reports_get (h : SeekSucceeds limits r source query) :
    Reports (r.execute env limits source (.get query)) := by
  have hfirst : Reports (r.firstValue env limits source query) := by
    refine reports_seek h _ fun found => ?_
    split
    · refine (reports_lift _).bind fun pk => (reports_lift _).bind fun pkBytes =>
        (reports_ask _).bind fun value => ?_
      split
      · exact (reports_lift _).bind fun v => reports_pure _
      · exact reports_pure _
    · exact reports_pure _
  exact hfirst.bind fun _ => reports_pure _

theorem reports_getKey (h : SeekSucceeds limits r source query) :
    Reports (r.execute env limits source (.getKey query)) := by
  have hfirst : Reports (r.firstKey limits source query) := by
    refine reports_seek h _ fun found => ?_
    split
    · exact (reports_lift _).bind fun key => reports_pure _
    · exact reports_pure _
  refine hfirst.bind fun key => ?_
  split
  · exact reports_pure _
  · exact reports_pure _

theorem reports_getAll (call : GetAllCall) :
    Reports (r.execute env limits source (.getAll call)) := by
  have hcollect : Reports (r.collectValues env limits source (parseGetAllArgs call).range
      (parseGetAllArgs call).limit) :=
    (reports_lift _).bind fun _ => (reports_ask _).bind fun cursor =>
      (reports_rowsLoop _ _ cursor []).bind fun pks => reports_valuesLoop _ _ pks [] 0
  exact hcollect.bind fun _ => reports_pure _

theorem reports_getAllKeys (call : GetAllCall) :
    Reports (r.execute env limits source (.getAllKeys call)) := by
  have hcollect : Reports (r.collectKeys limits source (parseGetAllArgs call).range
      (parseGetAllArgs call).limit) :=
    (reports_lift _).bind fun _ => (reports_ask _).bind fun cursor => reports_rowsLoop _ _ cursor []
  exact hcollect.bind fun _ => reports_pure _

theorem reports_getAllRecords (call : GetAllCall) :
    Reports (r.execute env limits source (.getAllRecords call)) := by
  have hmaterialize : Reports (r.materialize env limits source (parseGetAllArgs call).range
      (parseGetAllArgs call).direction false) :=
    (reports_lift _).bind fun _ => (reports_ask _).bind fun cursor =>
      reports_materializeLoop false cursor [] 0
  exact hmaterialize.bind fun _ => reports_pure _

theorem Reports.failed {α : Type} {p : Reading α} (h : Reports p) (hnoted : (p false).2 = true) :
    ∃ e, (p false).1 = .failed e := by
  have hends := h false rfl
  rcases hp : p false with ⟨exit, noted⟩
  rw [hp] at hends hnoted
  obtain rfl : noted = true := hnoted
  cases exit with
  | done a => exact absurd hends Bool.noConfusion
  | failed e => exact ⟨e, rfl⟩
  | stopped => exact absurd hends Bool.noConfusion

/-! ### Where reads follow their cursors -/

/-- A seek that fails is reported as a record that is not there. -/
theorem seek_hidden {encoded : EncodedRange} {e : BackendError}
    (hencoded : encodedRange limits query = .ok encoded)
    (hscan : r.scan source encoded .next true = .ok (.failed e)) :
    r.execute env limits source (.get query) false = (.done (.value none), true) ∧
      r.execute env limits source (.getKey query) false = (.done (.value none), true) := by
  have hseek : (ask (Walk.failed e).next).attempt false =
      ((.done (.error (backendErr e)), true) : Exit IdbError _ × Bool) := rfl
  constructor
  · have hfirst : r.firstValue env limits source query false = (.done (none, 0), true) := by
      rw [Reader.firstValue, hencoded, Prog.lift_ok_bind, hscan]
      exact Prog.bind_done (ask_ok _ false) (Prog.bind_done hseek rfl)
    exact Prog.bind_done hfirst rfl
  · have hfirst : r.firstKey limits source query false = (.done none, true) := by
      rw [Reader.firstKey, hencoded, Prog.lift_ok_bind, hscan]
      exact Prog.bind_done (ask_ok _ false) (Prog.bind_done hseek rfl)
    exact Prog.bind_done hfirst rfl

theorem seekSucceeds_of_errors (call : ReadCall) (hcall : call = .get query ∨ call = .getKey query)
    (h : Follows env limits r source call) : SeekSucceeds limits r source query := by
  intro encoded e hencoded hscan
  obtain ⟨hget, hgetKey⟩ := @seek_hidden env limits r source query encoded e hencoded hscan
  rcases hcall with rfl | rfl
  · obtain ⟨e', he'⟩ := h.errors (congrArg Prod.snd hget)
    cases (congrArg Prod.fst hget).symm.trans he'
  · obtain ⟨e', he'⟩ := h.errors (congrArg Prod.snd hgetKey)
    cases (congrArg Prod.fst hgetKey).symm.trans he'

/-- Values that are all there. -/
theorem map_value_eq {visited : List CursorRow} (h : ∀ row ∈ visited, row.value ≠ none) :
    (visited.filterMap CursorRow.value).map some = visited.map CursorRow.value := by
  induction visited with
  | nil => rfl
  | cons row visited ih =>
      have hrest := ih fun row hrow => h row (.tail _ hrow)
      cases hvalue : row.value with
      | none => exact absurd hvalue (h row (.head _))
      | some v =>
          rw [List.filterMap_cons, hvalue, List.map_cons, List.map_cons, hvalue]
          exact congrArg _ hrest

theorem getAll_returns_iff (call : GetAllCall) {visited : List CursorRow}
    (hencoded : encodedRange limits (parseGetAllArgs call).range = .ok encoded)
    (hserves : r.Serves limits source encoded rows)
    (hvisited : cursorRows env limits (rows (parseGetAllArgs call).direction) = .ok visited) :
    (ReadCall.getAll call).Returns visited (r.execute env limits source (.getAll call) false).1 ↔
      (∀ row ∈ (parseGetAllArgs call).first visited, row.value ≠ none) ∧
        ((parseGetAllArgs call).direction = .next ∨
          storedValues env limits ((parseGetAllArgs call).first (rows .next)) =
            .ok (((parseGetAllArgs call).first visited).filterMap CursorRow.value)) := by
  obtain ⟨hok, herror⟩ := @Reader.Serves.getAll env limits r source encoded rows false hserves call
    hencoded
  constructor
  · rintro ⟨values, hdone, hvalues⟩
    have hthere (row : CursorRow) (hrow : row ∈ (parseGetAllArgs call).first visited) :
        row.value ≠ none := by
      intro hnone
      have hmem : row.value ∈ values.map some := by
        rw [hvalues]
        exact List.mem_map_of_mem hrow
      rw [hnone] at hmem
      obtain ⟨v, -, hv⟩ := List.mem_map.mp hmem
      cases hv
    refine ⟨hthere, .inr ?_⟩
    have hsame : values = ((parseGetAllArgs call).first visited).filterMap CursorRow.value :=
      List.map_injective_iff.mpr (Option.some_injective _)
        (hvalues.trans (map_value_eq hthere).symm)
    rw [← hsame]
    cases hstored : storedValues env limits ((parseGetAllArgs call).first (rows .next)) with
    | error e => cases (congrArg Prod.fst (herror e hstored)).symm.trans hdone
    | ok values' =>
        cases (congrArg Prod.fst (hok values' hstored)).symm.trans hdone
        rfl
  · rintro ⟨hthere, hsame⟩
    have hstored : storedValues env limits ((parseGetAllArgs call).first (rows .next)) =
        .ok (((parseGetAllArgs call).first visited).filterMap CursorRow.value) := by
      rcases hsame with hnext | hstored
      · rw [hnext] at hvisited
        exact storedValues_decoded (forall₂_first _ (cursorRows_ok hvisited))
      · exact hstored
    exact ⟨_, congrArg Prod.fst (hok _ hstored), map_value_eq hthere⟩

theorem getAllKeys_returns_iff (call : GetAllCall) {visited : List CursorRow}
    (hencoded : encodedRange limits (parseGetAllArgs call).range = .ok encoded)
    (hserves : r.Serves limits source encoded rows)
    (hvisited : cursorRows env limits (rows (parseGetAllArgs call).direction) = .ok visited) :
    (ReadCall.getAllKeys call).Returns visited
        (r.execute env limits source (.getAllKeys call) false).1 ↔
      (parseGetAllArgs call).direction = .next ∨
        ((parseGetAllArgs call).first (rows .next)).mapM (fun row => decodeKey row.2.1) =
          .ok (((parseGetAllArgs call).first visited).map CursorRow.primaryKey) := by
  obtain ⟨keys, hkeys, hdone⟩ := @Reader.Serves.getAllKeys env limits r source encoded rows false
    hserves call hencoded
  rw [hkeys, hdone]
  constructor
  · intro h
    cases h
    exact .inr rfl
  · intro h
    have hsame : keys = ((parseGetAllArgs call).first visited).map CursorRow.primaryKey := by
      rcases h with hnext | hsame
      · rw [hnext] at hvisited
        have hdecoded := forall₂_first (parseGetAllArgs call) (cursorRows_ok hvisited)
        have hpks :
            ((parseGetAllArgs call).first (rows .next)).mapM (fun row => decodeKey row.2.1) =
            .ok (((parseGetAllArgs call).first visited).map CursorRow.primaryKey) :=
          mapM_ok (List.forall₂_map_right_iff.mpr (hdecoded.imp fun _ _ h => h.primaryKey))
        exact Except.ok.inj (hkeys.symm.trans hpks)
      · exact Except.ok.inj hsame
    rw [hsame]
    rfl

end Rows

/-- A read agrees with its cursor and reports the errors of the backend exactly when its first seek
does not fail (for one row), or the dropped direction makes no difference and every row has its
record (for many). -/
theorem follows_iff (env : CodecEnv) (limits : LimitConfig) (r : Reader) (source : SourceRef)
    (call : ReadCall) : Follows env limits r source call ↔ call.Sound env limits r source := by
  cases call with
  | get query =>
      refine ⟨seekSucceeds_of_errors _ (.inl rfl), fun h => ⟨?_, (reports_get h).failed⟩⟩
      intro encoded rows visited hencoded hserves hvisited
      exact congrArg Prod.fst (hserves.firstValue hencoded hvisited)
  | getKey query =>
      refine ⟨seekSucceeds_of_errors _ (.inr rfl), fun h => ⟨?_, (reports_getKey h).failed⟩⟩
      intro encoded rows visited hencoded hserves hvisited
      exact congrArg Prod.fst (hserves.firstKey hencoded hvisited)
  | getAll call =>
      constructor
      · intro h encoded rows visited hencoded hserves hvisited
        exact (getAll_returns_iff call hencoded hserves hvisited).mp
          (h.rows encoded rows visited hencoded hserves hvisited)
      · intro h
        refine ⟨fun encoded rows visited hencoded hserves hvisited =>
          ?_, (reports_getAll call).failed⟩
        exact (getAll_returns_iff call hencoded hserves hvisited).mpr
          (h encoded rows visited hencoded hserves hvisited)
  | getAllKeys call =>
      constructor
      · intro h encoded rows visited hencoded hserves hvisited
        exact (getAllKeys_returns_iff call hencoded hserves hvisited).mp
          (h.rows encoded rows visited hencoded hserves hvisited)
      · intro h
        refine ⟨fun encoded rows visited hencoded hserves hvisited => ?_,
          (reports_getAllKeys call).failed⟩
        exact (getAllKeys_returns_iff call hencoded hserves hvisited).mpr
          (h encoded rows visited hencoded hserves hvisited)
  | getAllRecords call =>
      refine iff_of_true ⟨fun encoded rows visited hencoded hserves hvisited => ?_,
        (reports_getAllRecords call).failed⟩ trivial
      exact congrArg Prod.fst (hserves.getAllRecords call hencoded hvisited)

end BoaIdb.Driver
