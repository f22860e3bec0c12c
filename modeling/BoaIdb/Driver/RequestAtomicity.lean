import BoaIdb.Driver.Savepoints
import BoaIdb.Fs.Backend
import BoaIdb.Lib.Run
import BoaIdb.Memory.Backend

/-!
An operation is executed as a whole or not at all.

The generators in memory are held to those of the backend at the ends of every request, through
a whole sequence of operations.
-/

namespace BoaIdb.Driver

open Clone Engine Faults OrdMap Runs

variable {σ : Type} [BackendTxn σ] [LawfulSavepoints σ] {env : CodecEnv} {limits : LimitConfig}
  {w : Snapshot} {outer : List Snapshot}

/-! ### The ends of a request -/

/-- Between requests: each generator has the value of the backend and nothing saved. -/
def OpState.InTune (s : OpState σ) : Prop :=
  ∀ t b, s.txn = some t → t.backend = some b → ∀ id keygen, t.keygens.get? id = some keygen →
    keygen.current = LawfulSavepoints.generator b id ∧ keygen.saveStack = []

/-- What is read of the transaction. -/
def OpState.reads (s : OpState σ) : Option Snapshot := (s.txn.bind TxnHandle.backend).map snapshot

/-- The generators behind the begin of a request. -/
theorem restorable_begun {t : TxnHandle σ} {b b' : σ} {keygens : OrderedMap StoreId KeyGenerator}
    (hkeygens : ∀ id keygen, keygens.get? id = some keygen →
      keygen.current = LawfulSavepoints.generator b id ∧ keygen.saveStack = [])
    (hsnapshot : snapshot b' = snapshot b)
    (hsaved : LawfulSavepoints.saved b' = snapshot b :: LawfulSavepoints.saved b)
    (ht : t.keygens = keygens.map KeyGenerator.beginRequest) :
    Restorable (snapshot b) (LawfulSavepoints.saved b) t b' ∧ Unmoved (snapshot b) t b' := by
  have hgenerator : LawfulSavepoints.generator b' = LawfulSavepoints.generator b :=
    congrArg Snapshot.generator hsnapshot
  have hbegun {id : StoreId} {keygen : KeyGenerator} (hget : t.keygens.get? id = some keygen) :
      keygen.current = LawfulSavepoints.generator b id ∧
        keygen.saveStack = [LawfulSavepoints.generator b id] := by
    rw [ht, OrderedMap.get?_map] at hget
    obtain ⟨before, hbefore, rfl⟩ := Option.map_eq_some_iff.mp hget
    obtain ⟨hcurrent, hstack⟩ := hkeygens id before hbefore
    refine ⟨hcurrent, ?_⟩
    show before.current :: before.saveStack = _
    rw [hcurrent, hstack]
  refine ⟨⟨hsaved, fun id keygen hget => (hbegun hget).2⟩, fun id keygen hget => ?_, hgenerator⟩
  rw [hgenerator]
  exact (hbegun hget).1

theorem meets_openSavepoints {s : OpState σ} {t : TxnHandle σ} {b : σ} (hs : s.InTune)
    (ht : s.txn = some t) (hb : t.backend = some b) :
    Meets (· = s) openSavepoints
      (fun _ => Within (snapshot b) (LawfulSavepoints.saved b) (Unmoved (snapshot b)))
      (fun _ _ => False) := by
  have hbegin : Meets (· = b) (BackendTxn.beginRequest.mapErr backendErr)
      (fun _ b' => snapshot b' = snapshot b ∧
        LawfulSavepoints.saved b' = snapshot b :: LawfulSavepoints.saved b)
      (fun _ _ => False) := by
    refine ((LawfulSavepoints.beginRequest b).mono (fun _ h => h) ?_ fun _ _ h => h).mapErr
      fun _ _ h => h
    rintro _ b' ⟨-, hsnapshot, hsaved, -⟩
    exact ⟨hsnapshot, hsaved⟩
  refine ((meets_onBackend ht hb hbegin).mono (fun _ h => h) (fun _ _ h => h) ?_).bind fun _ => ?_
  · rintro _ _ ⟨_, h, -⟩
    exact h
  refine meets_of_forall fun s' hs' => ?_
  obtain ⟨b', ⟨hsnapshot, hsaved⟩, ht'⟩ := hs'
  have hkeygens : Meets (· = ({ t with backend := some b' } : TxnHandle σ))
      (Prog.modify fun t => { t with keygens := t.keygens.map KeyGenerator.beginRequest } :
        Prog (TxnHandle σ) IdbError Unit)
      (fun _ t' => t'.backend = some b' ∧ t'.keygens = t.keygens.map KeyGenerator.beginRequest)
      (fun _ _ => False) := meets_modify fun t' ht' => by
    rw [ht']
    exact ⟨rfl, rfl⟩
  refine (meets_onHandle ht' hkeygens).mono (fun _ h => h) ?_ ?_
  · rintro _ s'' ⟨t', ⟨hb', hmap⟩, hs''⟩
    obtain ⟨hrestorable, hunmoved⟩ := restorable_begun (hs t b ht hb) hsnapshot hsaved hmap
    exact ⟨t', b', hs'', hb', hrestorable, hunmoved⟩
  · rintro _ _ ⟨_, h, -⟩
    exact h

/-- Each generator is popped once, in whatever order they come. -/
theorem meets_commitKeygens {t : TxnHandle σ} {b : σ} (hb : t.backend = some b)
    (hlevel : Level t b)
    (hstack : ∀ id keygen, t.keygens.get? id = some keygen → ∃ v, keygen.saveStack = [v]) :
    Meets (· = t) (Prog.forEach commitKeygen t.keygens.keys)
      (fun _ t' => t'.backend = some b ∧ ∀ id keygen, t'.keygens.get? id = some keygen →
        keygen.current = LawfulSavepoints.generator b id ∧ keygen.saveStack = [])
      (fun _ _ => False) := by
  -- the generators that are left still have their savepoint
  let inv (left : List StoreId) (t' : TxnHandle σ) : Prop :=
    left.Nodup ∧ t'.backend = some b ∧ ∀ id keygen, t'.keygens.get? id = some keygen →
      keygen.current = LawfulSavepoints.generator b id ∧
        if id ∈ left then ∃ v, keygen.saveStack = [v] else keygen.saveStack = []
  have hpass (id : StoreId) (left : List StoreId) :
      Meets (inv (id :: left)) (commitKeygen id) (fun _ => inv left) fun _ _ => False := by
    refine meets_read fun t' hinv => ?_
    obtain ⟨hnodup, hb', hkeygens⟩ := hinv
    obtain ⟨hnew, hnodup'⟩ := List.nodup_cons.mp hnodup
    have hother {other : StoreId} {keygen : KeyGenerator} (hne : other ≠ id)
        (hget : t'.keygens.get? other = some keygen) :
        keygen.current = LawfulSavepoints.generator b other ∧
          if other ∈ left then ∃ v, keygen.saveStack = [v] else keygen.saveStack = [] := by
      simpa only [List.mem_cons, hne, false_or] using hkeygens other keygen hget
    split
    · next hnone =>
        refine meets_pure ?_
        rintro _ rfl
        refine ⟨hnodup', hb', fun other keygen hget => hother ?_ hget⟩
        rintro rfl
        rw [hnone] at hget
        cases hget
    · next keygen hkeygen =>
        obtain ⟨hcurrent, hsaved⟩ := hkeygens id keygen hkeygen
        rw [if_pos List.mem_cons_self] at hsaved
        obtain ⟨v, hv⟩ := hsaved
        have hpop : keygen.commitRequest = .ok { keygen with saveStack := [] } := by
          rw [KeyGenerator.commitRequest, hv]
        rw [hpop, Prog.lift_ok_bind]
        refine meets_modify ?_
        rintro _ rfl
        refine ⟨hnodup', hb', fun other keygen' hget => ?_⟩
        rw [OrderedMap.get?_insert] at hget
        by_cases hid : other = id
        · rw [if_pos hid] at hget
          cases hget
          rw [hid, if_neg hnew]
          exact ⟨hcurrent, rfl⟩
        · rw [if_neg hid] at hget
          exact hother hid hget
  have hstart : inv t.keygens.keys t := by
    refine ⟨(t.keygens.keys_sorted).imp ne_of_lt, hb, fun id keygen hget => ?_⟩
    rw [if_pos (OrderedMap.mem_keys_iff.mpr ⟨keygen, hget⟩)]
    exact ⟨hlevel id keygen hget, hstack id keygen hget⟩
  refine (meets_forEach inv hpass t.keygens.keys).mono ?_ ?_ fun _ _ h => h
  · rintro _ rfl
    exact hstart
  · rintro _ t' ⟨-, hb', hkeygens⟩
    refine ⟨hb', fun id keygen hget => ?_⟩
    have hkeygen := hkeygens id keygen hget
    rwa [if_neg List.not_mem_nil] at hkeygen

omit [BackendTxn σ] [LawfulSavepoints σ] in
theorem meets_ifBackend {s : OpState σ} {t : TxnHandle σ} {b : σ} {p : Prog σ IdbError Unit}
    {post : Unit → OpState σ → Prop} {halt : Option IdbError → OpState σ → Prop}
    (ht : s.txn = some t) (hb : t.backend = some b) (h : Meets (· = s) (onBackend p) post halt) :
    Meets (· = s) (ifBackend p) post halt := by
  refine meets_read fun s' hs' => ?_
  obtain rfl : s' = s := hs'
  rw [handle_eq ht, Prog.lift_ok_bind, hb]
  exact h

theorem meets_commitSavepoints :
    Meets (Within w outer Level) commitSavepoints (fun _ s => s.InTune (σ := σ))
      (fun _ _ => False) := by
  refine meets_of_forall fun s hs => ?_
  obtain ⟨t, b, ht, hb, hrestorable, hlevel⟩ := hs
  have hcommit : Meets (· = b) (BackendTxn.commitRequest.mapErr backendErr)
      (fun _ b' => snapshot b' = snapshot b) (fun _ _ => False) := by
    refine ((LawfulSavepoints.commitRequest b).mono (fun _ h => h) ?_ ?_).mapErr fun _ _ h => h
    · rintro _ b' ⟨-, hsnapshot, -⟩
      exact hsnapshot
    · rintro _ _ ⟨-, -, hnone⟩
      rw [hrestorable.saved] at hnone
      cases hnone
  refine ((meets_ifBackend ht hb (meets_onBackend ht hb hcommit)).mono (fun _ h => h)
    (fun _ _ h => h) ?_).bind fun _ => ?_
  · rintro _ _ ⟨_, h, -⟩
    exact h
  refine meets_of_forall fun s' hs' => ?_
  obtain ⟨b', hsnapshot, ht'⟩ := hs'
  -- the generators in memory are those of the backend, which the commit leaves alone
  have hlevel' : Level { t with backend := some b' } b' := fun id keygen hget => by
    have hgenerator : LawfulSavepoints.generator b' = LawfulSavepoints.generator b :=
      congrArg Snapshot.generator hsnapshot
    rw [hgenerator]
    exact hlevel id keygen hget
  have hkeygens : Meets (· = ({ t with backend := some b' } : TxnHandle σ)) (do
      let t ← Prog.read
      Prog.forEach commitKeygen t.keygens.keys : Prog (TxnHandle σ) IdbError Unit)
      (fun _ t' => t'.backend = some b' ∧ ∀ id keygen, t'.keygens.get? id = some keygen →
        keygen.current = LawfulSavepoints.generator b' id ∧ keygen.saveStack = [])
      (fun _ _ => False) := by
    refine meets_read fun t' h => ?_
    obtain rfl : t' = { t with backend := some b' } := h
    exact meets_commitKeygens rfl hlevel' fun id keygen hget =>
      ⟨_, hrestorable.stack id keygen hget⟩
  refine (meets_onHandle ht' hkeygens).mono (fun _ h => h) ?_ ?_
  · rintro _ s'' ⟨t', ⟨hb', hall⟩, hs''⟩ t₁ b₁ ht₁ hb₁
    rw [hs''] at ht₁
    obtain rfl := Option.some.inj ht₁
    rw [hb'] at hb₁
    obtain rfl := Option.some.inj hb₁
    exact hall
  · rintro _ _ ⟨_, h, -⟩
    exact h

theorem meets_rollbackSavepoints :
    Meets (Within w outer fun _ _ => True) rollbackSavepoints
      (fun _ s => s.InTune (σ := σ) ∧ s.reads = some w) (fun _ _ => False) := by
  refine meets_of_forall fun s hs => ?_
  obtain ⟨t, b, ht, hb, hrestorable, -⟩ := hs
  have hrollback : Meets (· = b) (do
      let _ ← (BackendTxn.rollbackRequest.mapErr backendErr).attempt
      pure () : Prog σ IdbError Unit)
      (fun _ b' => snapshot b' = w) (fun _ _ => False) := by
    -- the snapshot that is restored is the one that `openSavepoints` took
    have hcall : Meets (· = b) (BackendTxn.rollbackRequest.mapErr backendErr)
        (fun _ b' => snapshot b' = w) (fun _ _ => False) := by
      refine ((LawfulSavepoints.rollbackRequest b).mono (fun _ h => h) ?_ ?_).mapErr fun _ _ h => h
      · rintro _ b' ⟨-, hsaved, -⟩
        rw [hrestorable.saved] at hsaved
        exact (List.cons.inj hsaved).1.symm
      · rintro _ _ ⟨-, -, hnone⟩
        rw [hrestorable.saved] at hnone
        cases hnone
    refine (hcall.attempt.mono (fun _ h => h) (fun _ _ h => h) fun _ _ h => h.2).bind fun r => ?_
    cases r with
    | ok _ => exact meets_pure fun _ h => h
    | error _ => exact fun _ h => h.elim
  refine ((meets_ifBackend ht hb (meets_onBackend ht hb hrollback)).mono (fun _ h => h)
    (fun _ _ h => h) ?_).bind fun _ => ?_
  · rintro _ _ ⟨_, h, -⟩
    exact h
  refine meets_of_forall fun s' hs' => ?_
  obtain ⟨b', hsnapshot, ht'⟩ := hs'
  have hkeygens : Meets (· = ({ t with backend := some b' } : TxnHandle σ))
      (Prog.modify fun t => { t with keygens := t.keygens.map rolledBack } :
        Prog (TxnHandle σ) IdbError Unit)
      (fun _ t' => t'.backend = some b' ∧ t'.keygens = t.keygens.map rolledBack)
      (fun _ _ => False) := meets_modify fun t' h => by
    rw [h]
    exact ⟨rfl, rfl⟩
  refine (meets_onHandle ht' hkeygens).mono (fun _ h => h) ?_ ?_
  · rintro _ s'' ⟨t', ⟨hb', hmap⟩, hs''⟩
    constructor
    · intro t₁ b₁ ht₁ hb₁ id keygen hget
      rw [hs''] at ht₁
      obtain rfl := Option.some.inj ht₁
      rw [hb'] at hb₁
      obtain rfl := Option.some.inj hb₁
      rw [hmap, OrderedMap.get?_map] at hget
      obtain ⟨before, hbefore, rfl⟩ := Option.map_eq_some_iff.mp hget
      have hsaved := hrestorable.stack id before hbefore
      rw [rolledBack, KeyGenerator.rollbackRequest, hsaved]
      exact ⟨congrFun (congrArg Snapshot.generator hsnapshot).symm id, rfl⟩
    · show (s''.txn.bind TxnHandle.backend).map snapshot = some w
      rw [hs'']
      show t'.backend.map snapshot = some w
      rw [hb']
      exact congrArg some hsnapshot
  · rintro _ _ ⟨_, h, -⟩
    exact h

/-! ### Sequences of operations -/

/-- Behind an operation the generators are in tune, and one that fails has changed nothing. -/
theorem meets_executeOp {s : OpState σ} (hs : s.InTune) (requestId : ℕ) (op : PendingOp) :
    Meets (· = s) (executeOp env limits requestId op) (fun _ s' => s'.InTune)
      (fun e s' => e.isSome ∧ s'.InTune ∧ s'.reads = s.reads) := by
  -- without a backend the request does not begin
  have hmissing (hnone : s.backend = .error .transactionInactive) :
      Meets (· = s) (executeOp env limits requestId op) (fun _ s' => s'.InTune)
        (fun e s' => e.isSome ∧ s'.InTune ∧ s'.reads = s.reads) := by
    have hbegin : Meets (· = s) (openSavepoints : Prog (OpState σ) IdbError Unit)
        (fun _ _ => False) (fun e s' => e.isSome ∧ s' = s) := by
      refine (meets_zoom_missing hnone).bind fun _ => ?_
      exact fun _ h => h.elim
    refine (hbegin.mono (fun _ h => h) (fun _ _ h => h) ?_).bind fun _ => fun _ h => h.elim
    rintro e s' ⟨hsome, rfl⟩
    exact ⟨hsome, hs, rfl⟩
  cases ht : s.txn with
  | none =>
      apply hmissing
      rw [OpState.backend, OpState.handle, ht]
      rfl
  | some t =>
      cases hb : t.backend with
      | none =>
          apply hmissing
          rw [OpState.backend, handle_eq ht]
          show t.backend.elim _ _ = _
          rw [hb]
          rfl
      | some b =>
          have hreads : s.reads = some (snapshot b) := by
            show (s.txn.bind TxnHandle.backend).map snapshot = _
            rw [ht]
            show t.backend.map snapshot = _
            rw [hb]
            rfl
          refine ((meets_openSavepoints hs ht hb).mono (fun _ h => h) (fun _ _ h => h)
            fun _ _ h => h.elim).bind fun _ => ?_
          refine ((meets_executeOpInner requestId op).attempt.mono (fun _ h => h)
            (fun _ _ h => h) fun _ _ h => by cases h.2.1).bind fun r => ?_
          cases r with
          | ok result =>
              exact (meets_commitSavepoints.mono (fun _ h => h) (fun _ _ h => h)
                fun _ _ h => h.elim).bind fun _ => meets_pure fun _ h => h
          | error e =>
              refine (meets_rollbackSavepoints.mono (fun _ h => h.2) (fun _ _ h => h)
                fun _ _ h => h.elim).bind fun _ => meets_throw ?_
              rintro s' ⟨htune, hrestored⟩
              exact ⟨rfl, htune, hrestored.trans hreads.symm⟩

/-- A transaction none of whose stores has a generator in memory yet, as it is made. -/
def OpState.Begun (s : OpState σ) : Prop := ∀ t, s.txn = some t → t.keygens = .empty

/-- Every generator in memory has the value that the backend reports for its store, and nothing
saved. -/
def OpState.Synced (s : OpState σ) : Prop :=
  ∀ t b, s.txn = some t → t.backend = some b → ∀ id keygen, t.keygens.get? id = some keygen →
    (BackendTxn.keyGenCurrent id b).1 = .done keygen.current ∧ keygen.saveStack = []

/-- What happens between the operations of a transaction is none of its generators' business. -/
def SameGenerators (s s' : OpState σ) : Prop :=
  ∀ t' b', s'.txn = some t' → t'.backend = some b' → t'.keygens = .empty ∨
    ∃ t b, s.txn = some t ∧ t.backend = some b ∧ t'.keygens = t.keygens ∧
      LawfulSavepoints.generator b' = LawfulSavepoints.generator b

variable (env limits) in
/-- A step of the driver, as one transaction sees it: an operation of its own, or anything that
leaves its generators alone. -/
inductive OpStep : OpState σ → Option (ℕ × PendingOp) → OpState σ → Prop
  | execute (s : OpState σ) (requestId : ℕ) (op : PendingOp) :
      OpStep s (some (requestId, op)) (executeOp env limits requestId op s).2
  | between {s s' : OpState σ} (h : SameGenerators s s') : OpStep s none s'

variable (env limits) in
/-- The operation ends with the generators as the backend has them, and if it fails, with all
that is read of the transaction as it was. -/
def Atomic : OpState σ → Option (ℕ × PendingOp) → Prop
  | s, some (requestId, op) =>
      (executeOp env limits requestId op s).2.Synced ∧
        (executeOp env limits requestId op s).1 ≠ .stopped ∧
        ∀ e, (executeOp env limits requestId op s).1 = .failed e →
          (executeOp env limits requestId op s).2.reads = s.reads
  | _, none => True

section Runs

variable {s s' : OpState σ} {a : Option (ℕ × PendingOp)}

theorem OpState.Begun.inTune (h : s.Begun) : s.InTune := by
  intro t b ht _ id keygen hget
  rw [h t ht, OrderedMap.get?_empty] at hget
  cases hget

theorem OpState.InTune.synced (h : s.InTune) : s.Synced := by
  intro t b ht hb id keygen hget
  obtain ⟨hcurrent, hstack⟩ := h t b ht hb id keygen hget
  refine ⟨?_, hstack⟩
  have hread := LawfulSavepoints.keyGenCurrent b id b rfl
  rcases hrun : BackendTxn.keyGenCurrent id b with ⟨_ | _ | _, b'⟩
  · rw [hrun] at hread
    rw [hcurrent]
    exact congrArg Exit.done hread.2
  · rw [hrun] at hread
    exact hread.elim
  · rw [hrun] at hread
    exact hread.elim

theorem OpState.InTune.executeOp (h : s.InTune) (requestId : ℕ) (op : PendingOp) :
    (executeOp env limits requestId op s).2.InTune ∧
      Atomic env limits s (some (requestId, op)) := by
  have hends : Ends (fun _ s' => s'.InTune)
      (fun e s' => e.isSome ∧ s'.InTune ∧ s'.reads = s.reads)
      (Driver.executeOp env limits requestId op s) := meets_executeOp h requestId op s rfl
  show _ ∧ OpState.Synced _ ∧ _ ∧ _
  rcases hrun : Driver.executeOp env limits requestId op s with ⟨_ | e | _, s'⟩
  · rw [hrun] at hends
    exact ⟨hends, hends.synced, nofun, nofun⟩
  · rw [hrun] at hends
    exact ⟨hends.2.1, hends.2.1.synced, nofun, fun _ _ => hends.2.2⟩
  · rw [hrun] at hends
    cases hends.1

theorem OpState.InTune.step (h : s.InTune) (hstep : OpStep env limits s a s') : s'.InTune := by
  cases hstep with
  | execute requestId op => exact (h.executeOp requestId op).1
  | between hsame =>
      intro t' b' ht' hb' id keygen hget
      rcases hsame t' b' ht' hb' with hempty | ⟨t, b, ht, hb, hkeygens, hgenerator⟩
      · rw [hempty, OrderedMap.get?_empty] at hget
        cases hget
      · rw [hkeygens] at hget
        rw [hgenerator]
        exact h t b ht hb id keygen hget

theorem OpState.InTune.atomic (h : s.InTune) (hstep : OpStep env limits s a s') :
    Atomic env limits s a := by
  cases hstep with
  | execute requestId op => exact (h.executeOp requestId op).2
  | between hsame => trivial

theorem atomic_run {taken : List (OpState σ × Option (ℕ × PendingOp))} (hbegun : s.Begun)
    (h : Run (OpStep env limits) s taken s') : EachStep (Atomic env limits) taken := by
  induction h with
  | start => exact eachStep_nil
  | step h hstep ih =>
      exact eachStep_append.mpr ⟨ih, (h.invariant hbegun.inTune .step).atomic hstep⟩

end Runs

/-- **Requests are atomic through the driver**, on both backends: in every sequence of operations
of a transaction. -/
theorem executeOp_atomic :
    (∀ (env : CodecEnv) (limits : LimitConfig) (s s' : OpState Memory.Session)
      (taken : List (OpState Memory.Session × Option (ℕ × PendingOp))), s.Begun →
      Run (OpStep env limits) s taken s' → EachStep (Atomic env limits) taken) ∧
    ∀ (env : CodecEnv) (limits : LimitConfig) (s s' : OpState Fs.OpenTxn)
      (taken : List (OpState Fs.OpenTxn × Option (ℕ × PendingOp))), s.Begun →
      Run (OpStep env limits) s taken s' → EachStep (Atomic env limits) taken :=
  ⟨fun _ _ _ _ _ hbegun h => atomic_run hbegun h, fun _ _ _ _ _ hbegun h => atomic_run hbegun h⟩

/-- A put that fails for want of its store, behind one that may succeed. -/
def twoPuts : List (Option (ℕ × PendingOp)) :=
  [some (1, .put 1 .null none false), some (2, .put 2 .null none false)]

/-- A transaction that has just been started. -/
def started (b : σ) : OpState σ :=
  ⟨some ⟨false, { emptyMeta [] with stores := [⟨1, [], .empty, true, keyGenStart, [], false⟩] },
    some b,
    .empty, 0, 0⟩, .empty, 1⟩

omit [BackendTxn σ] [LawfulSavepoints σ] in
theorem begun_started (b : σ) : (started b).Begun := by
  rintro t ⟨⟩
  rfl

theorem run_twoPuts (s : OpState σ) :
    ∃ taken s', Run (OpStep standardEnv {} : OpState σ → _ → _ → Prop) s taken s' ∧
      taken.map Prod.snd = twoPuts :=
  ⟨_, _, (Run.start.step (.execute _ _ _)).step (.execute _ _ _), rfl⟩

theorem executeOp_atomic_puts :
    (∃ taken s', taken.map Prod.snd = twoPuts ∧
      Run (OpStep standardEnv {})
        (started (⟨.empty, .versionChange, [], emptyMeta [], .empty⟩ : Memory.Session)) taken s' ∧
      EachStep (Atomic standardEnv {}) taken) ∧
    ∃ taken s', taken.map Prod.snd = twoPuts ∧
      Run (OpStep standardEnv {})
        (started (Fs.OpenTxn.begin (Fs.freshSession []) .versionChange [] (emptyMeta []) .strict 8))
        taken s' ∧
      EachStep (Atomic standardEnv {}) taken := by
  obtain ⟨taken, s', hrun, hops⟩ := run_twoPuts
    (started (⟨.empty, .versionChange, [], emptyMeta [], .empty⟩ : Memory.Session))
  obtain ⟨taken', t', hrun', hops'⟩ := run_twoPuts
    (started (Fs.OpenTxn.begin (Fs.freshSession []) .versionChange [] (emptyMeta []) .strict 8))
  exact ⟨⟨taken, s', hops, hrun, executeOp_atomic.1 _ _ _ _ _ (begun_started _) hrun⟩,
    taken', t', hops', hrun', executeOp_atomic.2 _ _ _ _ _ (begun_started _) hrun'⟩

end BoaIdb.Driver
