import BoaIdb.Backend.PendingTxn
import BoaIdb.Driver.BulkReads
import BoaIdb.Memory.Backend

/-!
The answers of the backends to reads, and the operations of the driver over them.
-/

namespace BoaIdb.Driver

open Clone Engine Faults OrdMap

/-! ### A backend as it stands -/

section Answers

variable {σ : Type} [BackendTxn σ]

/-- An answer; a backend whose process ends gives none, which stands here as an error. -/
def answered {α : Type} : Exit BackendError α → Except BackendError α
  | .done a => .ok a
  | .failed e => .error e
  | .stopped => .error (.internal "stopped")

def readerOf (s : σ) : Reader where
  scan source range direction keyOnly :=
    (answered (BackendTxn.scanRows source range direction keyOnly s).1).map Walk.ofRows
  get store key := answered (BackendTxn.get store key s).1

/-- Reads leave the backend as it is, and alive. -/
structure Quiet (s : σ) : Prop where
  scan : ∀ source range direction keyOnly,
    (BackendTxn.scanRows source range direction keyOnly s).2 = s ∧
      (BackendTxn.scanRows source range direction keyOnly s).1 ≠ .stopped
  get : ∀ store key, (BackendTxn.get store key s).2 = s ∧ (BackendTxn.get store key s).1 ≠ .stopped

omit [BackendTxn σ] in
theorem quiet_of_meets {α : Type} {p : Prog σ BackendError α} {s : σ} {post : α → Prop}
    (h : Meets (· = s) p (fun a s' => s' = s ∧ post a) fun e s' => e.isSome ∧ s' = s) :
    (p s).2 = s ∧ (p s).1 ≠ .stopped := by
  have hends := h s rfl
  rcases hp : p s with ⟨exit, s'⟩
  rw [hp] at hends
  cases exit with
  | done a => exact ⟨hends.1, nofun⟩
  | failed e => exact ⟨hends.2, nofun⟩
  | stopped => cases hends.1

theorem quiet_pending [PendingTxn σ] (s : σ) : Quiet s :=
  ⟨fun source range direction keyOnly => quiet_of_meets
      ((PendingTxn.scanRows s source range direction keyOnly).mono (fun _ h => h) (fun _ _ h => h)
        fun _ _ h => h.1),
    fun store key => quiet_of_meets (PendingTxn.get s store key)⟩

/-! ### Reads over the backend and over its answers -/

/-- A program on the backend and one over its answers end alike, and nothing is changed. -/
structure Alike {α : Type} (s : σ) (p : Prog σ IdbError α) (q : Reading α) : Prop where
  exit : ∀ noted, (p s).1 = (q noted).1
  state : (p s).2 = s
  live : (p s).1 ≠ .stopped

variable {α β : Type} {s : σ} {env : CodecEnv} {limits : LimitConfig}

omit [BackendTxn σ] in
theorem alike_pure (a : α) : Alike s (pure a) (pure a) := ⟨fun _ => rfl, rfl, nofun⟩

omit [BackendTxn σ] in
theorem alike_throw (e : IdbError) : Alike s (Prog.throw e : Prog σ IdbError α) (Prog.throw e) :=
  ⟨fun _ => rfl, rfl, nofun⟩

omit [BackendTxn σ] in
theorem Alike.bind {p : Prog σ IdbError α} {q : Reading α} {k : α → Prog σ IdbError β}
    {l : α → Reading β} (h : Alike s p q) (h' : ∀ a, Alike s (k a) (l a)) :
    Alike s (p >>= k) (q >>= l) := by
  obtain ⟨hexit, hstate, hlive⟩ := h
  rcases hp : p s with ⟨exit, s'⟩
  rw [hp] at hexit hstate hlive
  obtain rfl : s' = s := hstate
  cases exit with
  | done a =>
      have hleft : (p >>= k) s' = k a s' := Prog.bind_done hp rfl
      obtain ⟨hexit', hstate', hlive'⟩ := h' a
      refine ⟨fun noted => ?_, ?_, ?_⟩
      · rcases hq : q noted with ⟨exit, noted'⟩
        have hsame := hexit noted
        rw [hq] at hsame
        obtain rfl : Exit.done a = exit := hsame
        rw [hleft, Prog.bind_done hq rfl]
        exact hexit' noted'
      · rw [hleft]
        exact hstate'
      · rw [hleft]
        exact hlive'
  | failed e =>
      have hleft : (p >>= k) s' = (.failed e, s') := Prog.bind_failed hp
      refine ⟨fun noted => ?_, ?_, ?_⟩
      · rcases hq : q noted with ⟨exit, noted'⟩
        have hsame := hexit noted
        rw [hq] at hsame
        obtain rfl : Exit.failed e = exit := hsame
        rw [hleft, Prog.bind_failed hq]
      · rw [hleft]
      · rw [hleft]
        exact nofun
  | stopped => exact absurd rfl hlive

omit [BackendTxn σ] in
/-- A result that is not there ends both. -/
theorem Alike.lift {k : α → Prog σ IdbError β} {l : α → Reading β} (x : Except IdbError α)
    (h : ∀ a, x = .ok a → Alike s (k a) (l a)) :
    Alike s (Prog.lift x >>= k) (Prog.lift x >>= l) := by
  cases x with
  | error e => exact alike_throw e
  | ok a => exact h a rfl

omit [BackendTxn σ] in
/-- An operation that leaves the backend alone, against its answer. -/
theorem alike_ask {p : Prog σ BackendError α} (hquiet : (p s).2 = s ∧ (p s).1 ≠ .stopped) :
    Alike s (p.mapErr backendErr) (ask (answered (p s).1)) := by
  obtain ⟨hstate, hlive⟩ := hquiet
  rcases hp : p s with ⟨exit, s'⟩
  rw [hp] at hstate hlive
  obtain rfl : s' = s := hstate
  cases exit with
  | done a =>
      have hmap : p.mapErr backendErr s' = (.done a, s') := by rw [Prog.mapErr, hp]
      exact ⟨fun _ => congrArg Prod.fst hmap, congrArg Prod.snd hmap, by rw [hmap]; exact nofun⟩
  | failed e =>
      have hmap : p.mapErr backendErr s' = (.failed (backendErr e), s') := by rw [Prog.mapErr, hp]
      exact ⟨fun _ => congrArg Prod.fst hmap, congrArg Prod.snd hmap, by rw [hmap]; exact nofun⟩
  | stopped => exact absurd rfl hlive

theorem Alike.scan (hquiet : Quiet s) {source : SourceRef} {range : EncodedRange}
    {direction : Direction} {keyOnly : Bool}
    {k : List (Bytes × Bytes × Option Bytes) → Prog σ IdbError β} {l : Walk → Reading β}
    (h : ∀ rows, Alike s (k rows) (l (.ofRows rows))) :
    Alike s ((BackendTxn.scanRows source range direction keyOnly).mapErr backendErr >>= k)
      (ask ((readerOf s).scan source range direction keyOnly) >>= l) := by
  have hask : (ask ((readerOf s).scan source range direction keyOnly) >>= l) =
      (ask (answered (BackendTxn.scanRows source range direction keyOnly s).1) >>= fun rows =>
        l (.ofRows rows)) := by
    show (ask ((answered (BackendTxn.scanRows source range direction keyOnly s).1).map
      Walk.ofRows) >>=
      l) = _
    cases answered (BackendTxn.scanRows source range direction keyOnly s).1 <;> rfl
  rw [hask]
  exact (alike_ask (hquiet.scan source range direction keyOnly)).bind h

omit [BackendTxn σ] in
/-- A loop over rows, against the one that asks for them one after the other. -/
theorem alike_take {α : Type} {f : RawRow → Except IdbError α} {limit : Option ℕ}
    {take : List RawRow → List α → Except IdbError (List α)} (hnil : ∀ out, take [] out = .ok out)
    (hcons : ∀ row rows out, take (row :: rows) out = f row >>= fun a =>
      if limitReached limit (out ++ [a]).length then .ok (out ++ [a]) else take rows (out ++ [a])) :
    ∀ (rows : List RawRow) (out : List α),
      Alike s (Prog.lift (take rows out)) (rowsLoop f limit (.ofRows rows) out)
  | [], out => by
      rw [hnil]
      exact alike_pure out
  | row :: rows, out => by
      cases hrow : f row with
      | error e =>
          have hright : rowsLoop f limit (.ofRows (row :: rows)) out = Prog.throw e := by
            rw [Walk.ofRows, rowsLoop, hrow]
            rfl
          rw [hcons, hrow, hright]
          exact alike_throw e
      | ok a =>
          have hright : rowsLoop f limit (.ofRows (row :: rows)) out =
              if limitReached limit (out ++ [a]).length then pure (out ++ [a])
              else rowsLoop f limit (.ofRows rows) (out ++ [a]) := by
            rw [Walk.ofRows, rowsLoop, hrow]
            rfl
          rw [hcons, hrow, hright]
          show Alike s (Prog.lift (if limitReached limit (out ++ [a]).length then .ok (out ++ [a])
            else take rows (out ++ [a]))) _
          split
          · exact alike_pure _
          · exact alike_take hnil hcons rows _

omit [BackendTxn σ] in
theorem alike_takeKeys (limit : Option ℕ) (rows : List RawRow) (out : List Key) :
    Alike s (Prog.lift (takeKeys limit rows out))
      (rowsLoop (fun row => decodeKey row.2.1) limit (.ofRows rows) out) :=
  alike_take (fun _ => rfl) (fun _ _ _ => rfl) rows out

omit [BackendTxn σ] in
theorem alike_takePrimaryKeys (limit : Option ℕ) (rows : List RawRow) (out : List Bytes) :
    Alike s (Prog.lift (takePrimaryKeys limits limit rows out))
      (rowsLoop (fun row => decodeKey row.2.1 >>= encKey limits) limit (.ofRows rows) out) := by
  refine alike_take (fun _ => rfl) (fun row rows out => ?_) rows out
  rw [takePrimaryKeys]
  cases decodeKey row.2.1 <;> rfl

theorem alike_takeValues (hquiet : Quiet s) (store : StoreId) (limit : Option ℕ) :
    ∀ (pks : List Bytes) (out : List ScValue) (read : ℕ),
      Alike s (takeValues env limits store limit pks out read)
        ((readerOf s).valuesLoop env limits store limit pks out read)
  | [], out, read => alike_pure _
  | pk :: pks, out, read => by
      refine (alike_ask (hquiet.get store pk)).bind fun found => ?_
      cases found with
      | none =>
          dsimp only
          split
          · exact alike_pure _
          · exact alike_takeValues hquiet store limit pks _ _
      | some bytes =>
          refine Alike.lift _ fun value _ => ?_
          dsimp only
          split
          · exact alike_pure _
          · exact alike_takeValues hquiet store limit pks _ _

omit [BackendTxn σ] in
theorem alike_decodeRows (keyOnly : Bool) :
    ∀ (rows : List RawRow) (out : List CursorRow) (read : ℕ),
    Alike s (Prog.lift ((decodeRows env limits keyOnly rows).map fun r => (out ++ r.1, read + r.2)))
      (materializeLoop env limits keyOnly (.ofRows rows) out read)
  | [], out, read => by
      have hleft : (decodeRows env limits keyOnly []).map (fun r => (out ++ r.1, read + r.2)) =
          .ok (out, read) := by
        rw [decodeRows]
        show Except.ok (out ++ [], read + 0) = _
        rw [List.append_nil, Nat.add_zero]
      rw [hleft]
      exact alike_pure _
  | row :: rows, out, read => by
      rw [decodeRows_cons, Walk.ofRows, materializeLoop]
      cases hkey : decodeKey row.1 with
      | error e => exact alike_throw e
      | ok key =>
          cases hpk : decodeKey row.2.1 with
          | error e => exact alike_throw e
          | ok pk =>
              generalize hv : (if keyOnly then Except.ok none
                else row.2.2.mapM (decodeValue env limits)) = v
              cases v with
              | error e => exact alike_throw e
              | ok value =>
                  have ih := alike_decodeRows keyOnly rows (out ++ [⟨key, pk, value⟩])
                    (read + if keyOnly then 0 else (row.2.2.map List.length).getD 0)
                  have hleft : (decodeRows env limits keyOnly rows >>= fun rest =>
                      Except.ok (⟨key, pk, value⟩ :: rest.1,
                        (if keyOnly then 0 else (row.2.2.map List.length).getD 0) + rest.2)).map
                        (fun r => (out ++ r.1, read + r.2)) =
                      (decodeRows env limits keyOnly rows).map fun r =>
                        ((out ++ [⟨key, pk, value⟩]) ++ r.1,
                          (read + if keyOnly then 0
                            else (row.2.2.map List.length).getD 0) + r.2) := by
                    cases decodeRows env limits keyOnly rows with
                    | error e => rfl
                    | ok r =>
                        refine congrArg Except.ok (Prod.ext ?_ (Nat.add_assoc _ _ _).symm)
                        exact (List.append_assoc out [⟨key, pk, value⟩] r.1).symm
                  rw [← hleft] at ih
                  exact ih

variable {source : SourceRef} {range : RangeData}

theorem alike_materialize (hquiet : Quiet s) (direction : Direction) (keyOnly : Bool) :
    Alike s (materialize env limits source range direction keyOnly)
      ((readerOf s).materialize env limits source range direction keyOnly) := by
  refine Alike.lift _ fun encoded _ => Alike.scan hquiet fun rows => ?_
  have hrows := @alike_decodeRows σ s env limits keyOnly rows [] 0
  have hsame : (decodeRows env limits keyOnly rows).map (fun r => ([] ++ r.1, 0 + r.2)) =
      decodeRows env limits keyOnly rows := by
    cases decodeRows env limits keyOnly rows with
    | error e => rfl
    | ok r =>
        show Except.ok ([] ++ r.1, 0 + r.2) = _
        rw [List.nil_append, Nat.zero_add]
  rw [hsame] at hrows
  exact hrows

theorem alike_collectKeys (hquiet : Quiet s) (limit : Option ℕ) :
    Alike s (collectKeys limits source range limit)
      ((readerOf s).collectKeys limits source range limit) :=
  Alike.lift _ fun _ _ => Alike.scan hquiet fun rows => alike_takeKeys limit rows []

theorem alike_collectValues (hquiet : Quiet s) (limit : Option ℕ) :
    Alike s (collectValues env limits source range limit)
      ((readerOf s).collectValues env limits source range limit) :=
  Alike.lift _ fun _ _ => Alike.scan hquiet fun rows =>
    (alike_takePrimaryKeys limit rows []).bind fun pks =>
      alike_takeValues hquiet (storeOf source) limit pks [] 0

/-- What a walk without errors answers to the first seek. -/
theorem attempt_seek {rows : List RawRow} {β : Type}
    (k : Except IdbError (Option (RawRow × Walk)) → Reading β) :
    ((ask (Walk.ofRows rows).next).attempt >>= k) = k (.ok (rows.head?.map fun row =>
      (row, .ofRows rows.tail))) := by
  cases rows <;> rfl

theorem alike_firstKey (hquiet : Quiet s) : Alike s (firstKey limits source range)
    ((readerOf s).firstKey limits source range) := by
  refine Alike.lift _ fun encoded _ => Alike.scan hquiet fun rows => ?_
  rw [attempt_seek]
  cases rows with
  | nil => exact alike_pure _
  | cons row rows => exact Alike.lift _ fun key _ => alike_pure _

theorem alike_firstValue (hquiet : Quiet s) : Alike s (firstValue env limits source range)
    ((readerOf s).firstValue env limits source range) := by
  refine Alike.lift _ fun encoded _ => Alike.scan hquiet fun rows => ?_
  rw [attempt_seek]
  cases rows with
  | nil => exact alike_pure _
  | cons row rows =>
      refine Alike.lift _ fun pk _ => Alike.lift _ fun pkBytes _ => ?_
      refine (alike_ask (hquiet.get (storeOf source) pkBytes)).bind fun found => ?_
      cases found with
      | none => exact alike_pure _
      | some bytes => exact Alike.lift _ fun value _ => alike_pure _

/-! ### The operations of the driver -/

/-- The end of a read as that of its operation. -/
def outcomeOf : Exit IdbError RawOutcome → Exit IdbError OpExec
  | .done out => .done (.outcome out)
  | .failed e => .failed e
  | .stopped => .stopped

variable {b : σ} {state : OpState σ} {t : TxnHandle σ}

omit [BackendTxn σ] in
theorem onBackend_alike {p : Prog σ IdbError α} {q : Reading α} (ht : state.txn = some t)
    (hb : t.backend = some b) (h : Alike b p q) {k : α → Prog (OpState σ) IdbError OpExec}
    (f : α → RawOutcome) (hk : ∀ a s', (k a s').1 = .done (.outcome (f a))) (noted : Bool) :
    ((onBackend p >>= k) state).1 = outcomeOf ((q >>= fun a => pure (f a)) noted).1 := by
  have hbackend : state.backend = .ok b := by
    rw [OpState.backend, OpState.handle, ht]
    show t.backend.elim _ _ = _
    rw [hb]
    rfl
  have hzoom : onBackend p state = ((p b).1, state.setBackend (p b).2) := by
    unfold onBackend Prog.zoom
    rw [hbackend]
  have hexit := h.exit noted
  rcases hp : p b with ⟨exit, b'⟩
  rcases hq : q noted with ⟨exit', noted'⟩
  rw [hp, hq] at hexit
  obtain rfl : exit = exit' := hexit
  rw [hp] at hzoom
  cases exit with
  | done a =>
      rw [Prog.bind_done hzoom rfl, Prog.bind_done hq rfl]
      exact hk a _
  | failed e =>
      rw [Prog.bind_failed hzoom, Prog.bind_failed hq]
      rfl
  | stopped => exact absurd (congrArg Prod.fst hp) h.live

/-- A read of script ends as it does over the answers of its transaction's backend. -/
theorem executeOpInner_read [PendingTxn σ] (ht : state.txn = some t) (hopen : t.finished = false)
    (hb : t.backend = some b) (requestId : ℕ) (source : SourceRef) (call : ReadCall)
    (noted : Bool) :
    (executeOpInner env limits requestId (call.op source) state).1 =
      outcomeOf ((readerOf b).execute env limits source call noted).1 := by
  have hquiet := quiet_pending b
  have hmetadata : openMetadata state = (.done t.metadata, state) := by
    refine Prog.bind_done (a := state) rfl ?_
    rw [ht]
    dsimp only
    rw [hopen]
    rfl
  cases call with
  | get query =>
      rw [ReadCall.op, executeOpInner, Prog.bind_done hmetadata rfl]
      exact onBackend_alike ht hb (alike_firstValue hquiet) (fun r => .value r.1)
        (fun _ _ => rfl) noted
  | getKey query =>
      have hkey : (readerOf b).execute env limits source (.getKey query) =
          (readerOf b).firstKey limits source query >>= fun found =>
            pure (found.elim (.value none) RawOutcome.key) := by
        refine congrArg (_ >>= ·) (funext fun found => ?_)
        cases found <;> rfl
      rw [ReadCall.op, executeOpInner, Prog.bind_done hmetadata rfl, hkey]
      refine onBackend_alike ht hb (alike_firstKey hquiet) _ (fun found s' => ?_) noted
      cases found <;> rfl
  | getAll call =>
      rw [ReadCall.op, executeOpInner, Prog.bind_done hmetadata rfl]
      exact onBackend_alike ht hb (alike_collectValues hquiet _) (fun r => .values r.1)
        (fun _ _ => rfl) noted
  | getAllKeys call =>
      rw [ReadCall.op, executeOpInner, Prog.bind_done hmetadata rfl]
      exact onBackend_alike ht hb (alike_collectKeys hquiet _) .keys (fun _ _ => rfl) noted
  | getAllRecords call =>
      rw [ReadCall.op, executeOpInner, Prog.bind_done hmetadata rfl]
      exact onBackend_alike ht hb (alike_materialize hquiet _ false)
        (fun r => .records ((parseGetAllArgs call).limit.elim r.1 fun n => r.1.take n))
        (fun _ _ => rfl) noted

end Answers

/-! ### Backends that answer without errors -/

/-- A merge cursor walks the same rows with values and without, and a value is that of the
record. -/
theorem exists_visited (maps : CursorMaps) (source : SourceRef) (range : EncodedRange)
    (direction : Direction) : ∃ rows : List RawRow,
      (∀ keyOnly, (Cursor.scan maps source range direction keyOnly).visit =
        pure (rows.map (shown keyOnly))) ∧
      ∀ row ∈ rows, row.2.2 = maps.mergedRecords.get? ⟨storeOf source, row.2.1⟩ := by
  have hshown (keyOnly : Bool) (store : StoreId) (ks : List (Bytes × Bytes)) :
      ks.map (fun k => (k.1, k.2, maps.value keyOnly ⟨store, k.2⟩)) =
        (ks.map fun k => (k.1, k.2, maps.mergedRecords.get? ⟨store, k.2⟩)).map (shown keyOnly) := by
    rw [List.map_map]
    rfl
  have hvalue (store : StoreId) (ks : List (Bytes × Bytes)) :
      ∀ row ∈ ks.map (fun k => (k.1, k.2, maps.mergedRecords.get? ⟨store, k.2⟩)),
        row.2.2 = maps.mergedRecords.get? ⟨store, row.2.1⟩ := by
    intro row hrow
    obtain ⟨k, -, rfl⟩ := List.mem_map.mp hrow
    rfl
  cases source with
  | store store =>
      let ks := (maps.storeKeys store range direction.isPrev).filter
        (maps.recordReached range direction.isPrev)
      have hstore (k : RecordKey) (hk : k ∈ ks) : k.store = store :=
        (Cursor.mem_storeKeys.mp (List.mem_of_mem_filter hk)).2.1
      refine ⟨_, fun keyOnly => ?_, hvalue store (ks.map fun k => (k.key, k.key))⟩
      rw [← hshown, List.map_map]
      refine Cursor.visit_store.trans (congrArg pure (List.map_congr_left fun k hk => ?_))
      rw [← hstore k hk]
      rfl
  | index store index =>
      cases hunique : direction.isUnique with
      | true =>
          let ks := (CursorMaps.groupMins (maps.indexKeys index range direction.isPrev)).dropWhile
            fun t => !maps.groupReached range direction.isPrev t
          refine ⟨_, fun keyOnly => ?_, hvalue store (ks.map fun k => (k.key, k.primaryKey))⟩
          rw [← hshown, List.map_map]
          exact Cursor.visit_unique hunique
      | false =>
          let ks := (maps.indexKeys index range direction.isPrev).filter
            (maps.entryReached range direction.isPrev)
          refine ⟨_, fun keyOnly => ?_, hvalue store (ks.map fun k => (k.key, k.primaryKey))⟩
          rw [← hshown, List.map_map]
          exact Cursor.visit_index hunique

/-- The memory and the filesystem backend serve every source that they do not refuse, if their
primary keys were encoded by the engine. -/
theorem serves_pending {σ : Type} [BackendTxn σ] [PendingTxn σ] {limits : LimitConfig} (s : σ)
    (source : SourceRef) (encoded : EncodedRange)
    (hscan : ∀ direction keyOnly, ∃ rows,
      (BackendTxn.scanRows source encoded direction keyOnly s).1 = .done rows)
    (hget : ∀ key, ∃ value, (BackendTxn.get (storeOf source) key s).1 = .done value) :
    ∃ rows : Direction → List RawRow,
      (∀ direction, ∀ row ∈ rows direction, ∃ pk, decodeKey row.2.1 = .ok pk ∧
        encKey limits pk = .ok row.2.1) →
      (readerOf s).Serves limits source encoded rows := by
  let maps := (PendingTxn.overlay s).pending.cursorMaps (PendingTxn.overlay s).rows
  choose rows hvisit hvalue using exists_visited maps source encoded
  refine ⟨rows, fun hkeys => ⟨fun direction keyOnly => ?_, fun direction row hrow => ?_, hkeys⟩⟩
  · obtain ⟨walked, hwalked⟩ := hscan direction keyOnly
    have hends := PendingTxn.scanRows s source encoded direction keyOnly s rfl
    rcases hrun : BackendTxn.scanRows source encoded direction keyOnly s with ⟨exit, s'⟩
    rw [hrun] at hends hwalked
    obtain rfl : exit = .done walked := hwalked
    have hsame : walked = (rows direction).map (shown keyOnly) :=
      Except.ok.inj (Option.some.inj (hends.2.symm.trans (hvisit direction keyOnly)))
    show (answered (BackendTxn.scanRows source encoded direction keyOnly s).1).map Walk.ofRows = _
    rw [hrun, ← hsame]
    rfl
  · obtain ⟨value, hfound⟩ := hget row.2.1
    have hends := PendingTxn.get s (storeOf source) row.2.1 s rfl
    rcases hrun : BackendTxn.get (storeOf source) row.2.1 s with ⟨exit, s'⟩
    rw [hrun] at hends hfound
    obtain rfl : exit = .done value := hfound
    have hread : (PendingTxn.overlay s).pending.readRecord (PendingTxn.overlay s).rows
        ⟨storeOf source, row.2.1⟩ = maps.mergedRecords.get? ⟨storeOf source, row.2.1⟩ :=
      (Cursor.readMerged_eq (Cursor.scan maps (.store 0) .all .next true) _)
    show answered (BackendTxn.get (storeOf source) row.2.1 s).1 = _
    rw [hrun, hvalue direction row hrow, ← hread, ← hends.2]
    rfl

/-! ### A direction that is dropped -/

/-- Null, as it is stored. -/
def nullBytes : Bytes := [73, 68, 66, 49, 2, 0, 0, 0, 1, 181, 115, 71, 159]

/-- The keys 1 and 2, as they are stored. -/
def oneBytes : Bytes := Key.tagNumber :: Key.encodeF64Orderable 0x3FF0000000000000

def twoBytes : Bytes := Key.tagNumber :: Key.encodeF64Orderable 0x4000000000000000

/-- A store with two records, each null. -/
def twoRecords : Memory.Session where
  rows :=
    { records := (OrderedMap.empty.insert ⟨1, oneBytes⟩ nullBytes).insert ⟨1, twoBytes⟩ nullBytes
      indexEntries := .empty
      keyGenerators := .empty }
  txn := ⟨.versionChange, [], emptyMeta [], .empty⟩

/-- Its rows, forwards and backwards. -/
def twoRows (direction : Direction) : List RawRow :=
  if direction.isPrev then
    [(twoBytes, twoBytes, some nullBytes), (oneBytes, oneBytes, some nullBytes)]
  else [(oneBytes, oneBytes, some nullBytes), (twoBytes, twoBytes, some nullBytes)]

theorem serves_twoRecords : (readerOf twoRecords).Serves {} (.store 1) .all twoRows := by
  have hrow (direction : Direction) (row : RawRow) (h : row ∈ twoRows direction) :
      row = (oneBytes, oneBytes, some nullBytes) ∨ row = (twoBytes, twoBytes, some nullBytes) := by
    rw [twoRows] at h
    split at h
    · simpa [or_comm] using h
    · simpa using h
  refine ⟨fun direction keyOnly => ?_, fun direction row h => ?_, fun direction row h => ?_⟩
  · cases direction <;> cases keyOnly <;> rfl
  · rcases hrow direction row h with rfl | rfl <;> rfl
  · rcases hrow direction row h with rfl | rfl
    · exact ⟨.number 0x3FF0000000000000, rfl, rfl⟩
    · exact ⟨.number 0x4000000000000000, rfl, rfl⟩

/-- `getAllKeys({direction: "prev"})` answers forwards. -/
theorem getAllKeys_forwards : ¬ ∀ (env : CodecEnv) (limits : LimitConfig) (s : Memory.Session)
    (source : SourceRef) (call : ReadCall), Follows env limits (readerOf s) source call := by
  intro h
  have hvisited : cursorRows standardEnv {} (twoRows .prev) =
      .ok [⟨.number 0x4000000000000000, .number 0x4000000000000000, some .null⟩,
        ⟨.number 0x3FF0000000000000, .number 0x3FF0000000000000, some .null⟩] := rfl
  have hreturns := (h standardEnv {} twoRecords (.store 1)
    (.getAllKeys (.options none none (some .prev)))).rows .all twoRows _ rfl serves_twoRecords
      hvisited
  rcases (getAllKeys_returns_iff _ rfl serves_twoRecords hvisited).mp hreturns with hnext | hsame
  · cases hnext
  · cases hsame

end BoaIdb.Driver
