import BoaIdb.Driver.ExecuteOp
import BoaIdb.Engine.Savepoints

/-!
What holds inside a request.

The backend and the generators in memory both have one level open that restores what was there
at its begin: the backend keeps it in its undo logs, and each generator on its own stack. Every
operation keeps this up, whether it fails or not.
-/

namespace BoaIdb.Driver

open Clone Engine Faults OrdMap

variable {σ : Type} [BackendTxn σ] {env : CodecEnv} {limits : LimitConfig}

/-! ### Reads

What the operations that leave the generators alone keep, the reads keep. -/

section Reads

variable {inv : σ → Prop}

theorem keeps_materialize (h : RowOperationsKeep σ inv) (source : SourceRef) (range : RangeData)
    (direction : Direction) (keyOnly : Bool) :
    Keeps inv (materialize env limits source range direction keyOnly : Prog σ _ _) :=
  (keeps_lift _).bind fun encoded =>
    ((h.scanRows source encoded direction keyOnly).mapErr _).bind fun _ => keeps_lift _

theorem keeps_firstValue (h : RowOperationsKeep σ inv) (source : SourceRef) (range : RangeData) :
    Keeps inv (firstValue env limits source range : Prog σ _ _) := by
  refine (keeps_lift _).bind fun encoded =>
    ((h.scanRows source encoded .next true).mapErr _).bind fun rows => ?_
  cases rows with
  | nil => exact keeps_pure _
  | cons row rows =>
      refine (keeps_lift _).bind fun pk => (keeps_lift _).bind fun pkBytes => ?_
      refine ((h.get (storeOf source) pkBytes).mapErr _).bind fun found => ?_
      cases found with
      | none => exact keeps_pure _
      | some bytes => exact (keeps_lift _).bind fun _ => keeps_pure _

theorem keeps_firstKey (h : RowOperationsKeep σ inv) (source : SourceRef) (range : RangeData) :
    Keeps inv (firstKey limits source range : Prog σ _ _) := by
  refine (keeps_lift _).bind fun encoded =>
    ((h.scanRows source encoded .next true).mapErr _).bind fun rows => ?_
  cases rows with
  | nil => exact keeps_pure _
  | cons row rows => exact (keeps_lift _).bind fun _ => keeps_pure _

theorem keeps_collectKeys (h : RowOperationsKeep σ inv) (source : SourceRef) (range : RangeData)
    (limit : Option ℕ) : Keeps inv (collectKeys limits source range limit : Prog σ _ _) :=
  (keeps_lift _).bind fun encoded =>
    ((h.scanRows source encoded .next true).mapErr _).bind fun _ => keeps_lift _

theorem keeps_takeValues (h : RowOperationsKeep σ inv) (store : StoreId) (limit : Option ℕ)
    (pks : List Bytes) (out : List ScValue) (read : ℕ) :
    Keeps inv (takeValues env limits store limit pks out read : Prog σ _ _) := by
  induction pks generalizing out read with
  | nil => exact keeps_pure _
  | cons pk pks ih =>
      refine ((h.get store pk).mapErr _).bind fun found => ?_
      cases found with
      | none =>
          dsimp only
          split
          · exact keeps_pure _
          · exact ih _ _
      | some bytes =>
          refine (keeps_lift _).bind fun value => ?_
          dsimp only
          split
          · exact keeps_pure _
          · exact ih _ _

theorem keeps_collectValues (h : RowOperationsKeep σ inv) (source : SourceRef)
    (range : RangeData) (limit : Option ℕ) :
    Keeps inv (collectValues env limits source range limit : Prog σ _ _) :=
  (keeps_lift _).bind fun encoded =>
    ((h.scanRows source encoded .next true).mapErr _).bind fun _ =>
      (keeps_lift _).bind fun _ => keeps_takeValues h _ _ _ _ _

end Reads

/-! ### Savepoints in step -/

variable [LawfulSavepoints σ]

/-- Inside a request: what was read at its begin is restored by the backend, and each generator
has its value of then saved. -/
structure Restorable (w : Snapshot) (outer : List Snapshot) (t : TxnHandle σ) (b : σ) : Prop where
  saved : LawfulSavepoints.saved b = w :: outer
  stack : ∀ id keygen, t.keygens.get? id = some keygen → keygen.saveStack = [w.generator id]

/-- The generators are those of the backend. -/
def Level (t : TxnHandle σ) (b : σ) : Prop :=
  ∀ id keygen, t.keygens.get? id = some keygen →
    keygen.current = LawfulSavepoints.generator b id

/-- A state inside a request, with what is known besides. -/
def Within (w : Snapshot) (outer : List Snapshot) (inv : TxnHandle σ → σ → Prop) (s : OpState σ) :
    Prop :=
  ∃ t b, s.txn = some t ∧ t.backend = some b ∧ Restorable w outer t b ∧ inv t b

theorem Within.weaken {w : Snapshot} {outer : List Snapshot} {inv inv' : TxnHandle σ → σ → Prop}
    {s : OpState σ} (h : Within w outer inv s) (himp : ∀ t b, inv t b → inv' t b) :
    Within w outer inv' s := by
  obtain ⟨t, b, ht, hb, hrestorable, hinv⟩ := h
  exact ⟨t, b, ht, hb, hrestorable, himp t b hinv⟩

/-! ### Programs on a part -/

section Parts

omit [BackendTxn σ] [LawfulSavepoints σ]

variable {α : Type} {s : OpState σ} {t : TxnHandle σ} {b : σ}

theorem handle_eq (ht : s.txn = some t) : s.handle = .ok t := by
  rw [OpState.handle, ht]

theorem backend_eq (ht : s.txn = some t) (hb : t.backend = some b) : s.backend = .ok b := by
  rw [OpState.backend, handle_eq ht]
  show t.backend.elim _ _ = _
  rw [hb]
  rfl

theorem setBackend_txn (ht : s.txn = some t) (b : σ) :
    (s.setBackend b).txn = some { t with backend := some b } := by
  show s.txn.map _ = _
  rw [ht]
  rfl

/-- A program on the backend leaves all else alone. -/
theorem meets_onBackend {p : Prog σ IdbError α} {post : α → σ → Prop}
    {halt : Option IdbError → σ → Prop} (ht : s.txn = some t) (hb : t.backend = some b)
    (h : Meets (· = b) p post halt) :
    Meets (· = s) (onBackend p)
      (fun a s' => ∃ b', post a b' ∧ s'.txn = some { t with backend := some b' })
      (fun e s' => ∃ b', halt e b' ∧ s'.txn = some { t with backend := some b' }) := by
  refine (meets_zoom (backend_eq ht hb) h).mono (fun _ h => h) ?_ ?_
  · rintro a s' ⟨b', hpost, rfl⟩
    exact ⟨b', hpost, setBackend_txn ht b'⟩
  · rintro e s' ⟨b', hhalt, rfl⟩
    exact ⟨b', hhalt, setBackend_txn ht b'⟩

theorem meets_onHandle {p : Prog (TxnHandle σ) IdbError α} {post : α → TxnHandle σ → Prop}
    {halt : Option IdbError → TxnHandle σ → Prop} (ht : s.txn = some t)
    (h : Meets (· = t) p post halt) :
    Meets (· = s) (onHandle p) (fun a s' => ∃ t', post a t' ∧ s'.txn = some t')
      (fun e s' => ∃ t', halt e t' ∧ s'.txn = some t') := by
  refine (meets_zoom (handle_eq ht) h).mono (fun _ h => h) ?_ ?_
  · rintro a s' ⟨t', hpost, rfl⟩
    exact ⟨t', hpost, rfl⟩
  · rintro e s' ⟨t', hhalt, rfl⟩
    exact ⟨t', hhalt, rfl⟩

end Parts

/-! ### Harmless operations -/

variable {w : Snapshot} {outer : List Snapshot}

/-- A program of operations that leave the generators alone. -/
def Harmless {α : Type} (p : Prog σ IdbError α) : Prop :=
  ∀ inv : σ → Prop, RowOperationsKeep σ inv → Keeps inv p

theorem Harmless.onBackend {α : Type} {p : Prog σ IdbError α} (h : Harmless p) :
    Keeps (Within w outer Level) (onBackend p) := by
  refine meets_of_forall fun s hs => ?_
  obtain ⟨t, b, ht, hb, hrestorable, hlevel⟩ := hs
  have hsaved : Keeps (fun b' => LawfulSavepoints.saved b' = LawfulSavepoints.saved b ∧
      LawfulSavepoints.base b' = LawfulSavepoints.base b) p :=
    h _ (LawfulSavepoints.operations_keep _ _).toRowOperationsKeep
  have hgenerator : Keeps
      (fun b' => LawfulSavepoints.generator b' = LawfulSavepoints.generator b) p :=
    h _ (LawfulSavepoints.rows_keep_generator _)
  have hwithin {s' : OpState σ} {b' : σ}
      (hb' : LawfulSavepoints.saved b' = LawfulSavepoints.saved b)
      (hgen : LawfulSavepoints.generator b' = LawfulSavepoints.generator b)
      (hs' : s'.txn = some { t with backend := some b' }) : Within w outer Level s' := by
    refine ⟨_, b', hs', rfl, ⟨hb'.trans hrestorable.saved, hrestorable.stack⟩, ?_⟩
    intro id keygen hkeygen
    rw [hgen]
    exact hlevel id keygen hkeygen
  refine (meets_onBackend ht hb ((hsaved.at ⟨rfl, rfl⟩).and (hgenerator.at rfl))).mono
    (fun _ h => h) ?_ ?_
  · rintro _ s' ⟨b', ⟨⟨hb', -⟩, hgen⟩, hs'⟩
    exact hwithin hb' hgen hs'
  · rintro e s' ⟨b', ⟨⟨hsome, hb', -⟩, -, hgen⟩, hs'⟩
    exact ⟨hsome, hwithin hb' hgen hs'⟩

theorem keeps_addBytes {inv : TxnHandle σ → σ → Prop} {edit : TxnHandle σ → TxnHandle σ}
    (hbackend : ∀ t, (edit t).backend = t.backend) (hkeygens : ∀ t, (edit t).keygens = t.keygens)
    (hinv : ∀ t b, inv t b → inv (edit t) b) :
    Keeps (Within w outer inv)
      (Prog.modify fun s => { s with txn := s.txn.map edit } : Prog (OpState σ) IdbError Unit) := by
  refine keeps_modify ?_
  rintro s ⟨t, b, ht, hb, hrestorable, hs⟩
  refine ⟨edit t, b, ?_, (hbackend t).trans hb, ⟨hrestorable.saved, ?_⟩, hinv t b hs⟩
  · show s.txn.map edit = _
    rw [ht]
    rfl
  · rw [hkeygens]
    exact hrestorable.stack

theorem keeps_addBytesRead (n : ℕ) :
    Keeps (Within w outer Level) (addBytesRead n : Prog (OpState σ) IdbError Unit) :=
  keeps_addBytes (fun _ => rfl) (fun _ => rfl) fun _ _ h => h

theorem keeps_addBytesWritten (n : ℕ) :
    Keeps (Within w outer Level) (addBytesWritten n : Prog (OpState σ) IdbError Unit) :=
  keeps_addBytes (fun _ => rfl) (fun _ => rfl) fun _ _ h => h

section Untouched

omit [BackendTxn σ] [LawfulSavepoints σ]

variable {inv : OpState σ → Prop}

theorem keeps_openMetadata : Keeps inv (openMetadata : Prog (OpState σ) IdbError _) := by
  refine keeps_read fun s _ => ?_
  split
  · exact keeps_throw _
  · split
    · exact keeps_throw _
    · exact keeps_pure _

theorem keeps_cursorRow (cursorId : ℕ) :
    Keeps inv (cursorRow cursorId : Prog (OpState σ) IdbError _) := by
  refine keeps_read fun s _ => ?_
  split
  · exact keeps_throw _
  · split
    · exact keeps_throw _
    · exact keeps_pure _

end Untouched

/-- A change of the cursors. -/
theorem keeps_cursors {inv : TxnHandle σ → σ → Prop} {f : OpState σ → OpState σ}
    (h : ∀ s, (f s).txn = s.txn) :
    Keeps (Within w outer inv) (Prog.modify f : Prog (OpState σ) IdbError Unit) :=
  keeps_modify fun s ⟨t, b, ht, hs⟩ => ⟨t, b, (h s).trans ht, hs⟩

/-! ### Puts -/

/-- At the begin of a request, when nothing has happened yet. -/
def Unmoved (w : Snapshot) (t : TxnHandle σ) (b : σ) : Prop :=
  Level t b ∧ LawfulSavepoints.generator b = w.generator

theorem meets_keygenBase (store : StoreMeta) (b : σ) :
    Meets (· = b) (keygenBase store)
      (fun r b' => b' = b ∧ r = LawfulSavepoints.generator b store.id) fun _ _ => False := by
  have hcurrent : Meets (· = b) ((BackendTxn.keyGenCurrent store.id).mapErr backendErr)
      (fun r b' => b' = b ∧ r = LawfulSavepoints.generator b store.id) fun _ _ => False :=
    (LawfulSavepoints.keyGenCurrent b store.id).mapErr fun _ _ h => h
  refine (hcurrent.attempt.mono (fun _ h => h) (fun _ _ h => h) fun _ _ h => h.2).bind fun r => ?_
  cases r with
  | ok value => exact meets_pure fun _ h => h
  | error e => exact fun _ h => h.elim

/-- The generator of the store is there, as the backend has it. -/
theorem meets_keygenEntry {s : OpState σ} {t : TxnHandle σ} {b : σ} (store : StoreId)
    (ht : s.txn = some t) (hb : t.backend = some b) (hrestorable : Restorable w outer t b)
    (hunmoved : Unmoved w t b) :
    Meets (· = s) (keygenEntry store (LawfulSavepoints.generator b store))
      (fun keygen s' => ∃ t', s'.txn = some t' ∧ t'.backend = some b ∧ Restorable w outer t' b ∧
        Level t' b ∧ t'.keygens.get? store = some keygen)
      fun _ _ => False := by
  have hentry : Meets (· = t) (TxnHandle.entry store (LawfulSavepoints.generator b store))
      (fun keygen t' => t'.backend = some b ∧ Restorable w outer t' b ∧ Level t' b ∧
        t'.keygens.get? store = some keygen) (fun _ _ => False) := by
    refine meets_read fun t' h => ?_
    obtain rfl : t' = t := h
    split
    · next keygen hkeygen =>
        refine meets_pure ?_
        rintro _ rfl
        exact ⟨hb, hrestorable, hunmoved.1, hkeygen⟩
    · refine Meets.bind (meets_modify ?_) fun _ => meets_pure fun _ h => h
      rintro _ rfl
      refine ⟨hb, ⟨hrestorable.saved, ?_⟩, ?_, OrderedMap.get?_insert_self _ _ _⟩
      · intro id keygen hget
        rw [OrderedMap.get?_insert] at hget
        split at hget
        · next hid =>
            cases hget
            rw [hid, ← hunmoved.2]
            rfl
        · exact hrestorable.stack id keygen hget
      · intro id keygen hget
        rw [OrderedMap.get?_insert] at hget
        split at hget
        · next hid =>
            cases hget
            rw [hid]
            rfl
        · exact hunmoved.1 id keygen hget
  refine (meets_onHandle ht hentry).mono (fun _ h => h) ?_ ?_
  · rintro keygen s' ⟨t', ⟨hb', hrest, hlevel, hget⟩, hs'⟩
    exact ⟨t', hs', hb', hrest, hlevel, hget⟩
  · rintro _ _ ⟨_, h, -⟩
    exact h

theorem saveStack_generatorBehind (store : StoreMeta) (keygen : KeyGenerator) (value : ScValue)
    (explicitKey : Option Key) :
    (generatorBehind store keygen value explicitKey).saveStack = keygen.saveStack := by
  unfold generatorBehind
  extract_lets generates
  cases generates with
  | false => rfl
  | true =>
      rw [if_pos rfl]
      split
      · next hgenerate => exact saveStack_generate hgenerate
      · rfl

/-- Another value for one generator. -/
theorem meets_setKeygen {s : OpState σ} {t : TxnHandle σ} {b : σ} {store : StoreId}
    {keygen : KeyGenerator} {inv : TxnHandle σ → σ → Prop} (ht : s.txn = some t)
    (hb : t.backend = some b) (hrestorable : Restorable w outer t b)
    (hstack : keygen.saveStack = [w.generator store])
    (hinv : inv { t with keygens := t.keygens.insert store keygen } b) :
    Meets (· = s) (setKeygen store keygen) (fun _ => Within w outer inv) fun _ _ => False := by
  have hset : Meets (· = t)
      (Prog.modify fun t => { t with keygens := t.keygens.insert store keygen } :
        Prog (TxnHandle σ) IdbError Unit)
      (fun _ t' => t' = { t with keygens := t.keygens.insert store keygen }) fun _ _ => False :=
    meets_modify fun t' ht' => by rw [ht']
  refine (meets_onHandle ht hset).mono (fun _ h => h) ?_ ?_
  · rintro _ s' ⟨_, rfl, hs'⟩
    refine ⟨_, b, hs', hb, ⟨hrestorable.saved, fun id keygen' hget => ?_⟩, hinv⟩
    rw [OrderedMap.get?_insert] at hget
    split at hget
    · next hid =>
        cases hget
        rw [hid]
        exact hstack
    · exact hrestorable.stack id keygen' hget
  · rintro _ _ ⟨_, h, -⟩
    exact h

/-- What a put does to the backend of a transaction. -/
theorem meets_backendPut {s : OpState σ} {t : TxnHandle σ} {b : σ} (store : StoreMeta)
    (keygen : KeyGenerator) (value : ScValue) (explicitKey : Option Key) (noOverwrite : Bool)
    (ht : s.txn = some t) (hb : t.backend = some b) (hrestorable : Restorable w outer t b) :
    Meets (· = s) (onBackend (put env limits store keygen value explicitKey noOverwrite))
      (fun r s' => r.2.1.saveStack = keygen.saveStack ∧ ∃ b',
        s'.txn = some { t with backend := some b' } ∧
          Restorable w outer { t with backend := some b' } b' ∧ LawfulSavepoints.generator b' =
            Function.update (LawfulSavepoints.generator b) store.id r.2.1.current)
      (fun e s' => e.isSome ∧ ∃ b', s'.txn = some { t with backend := some b' } ∧
        Restorable w outer { t with backend := some b' } b') := by
  have hkeeps : Keeps (fun b' => LawfulSavepoints.saved b' = LawfulSavepoints.saved b ∧
        LawfulSavepoints.base b' = LawfulSavepoints.base b)
      (put env limits store keygen value explicitKey noOverwrite : Prog σ _ _) :=
    keeps_put (LawfulSavepoints.operations_keep _ _) keygen value explicitKey noOverwrite
  have hgenerator : Meets (· = b) (put env limits store keygen value explicitKey noOverwrite) _ _ :=
    generator_put b keygen value explicitKey noOverwrite
  refine (meets_onBackend ht hb (hgenerator.and (hkeeps.at ⟨rfl, rfl⟩))).mono (fun _ h => h) ?_ ?_
  · rintro r s' ⟨b', ⟨⟨hgen, hstack⟩, hsaved, -⟩, hs'⟩
    exact ⟨hstack, b', hs', ⟨hsaved.trans hrestorable.saved, hrestorable.stack⟩, hgen⟩
  · rintro e s' ⟨b', ⟨hsome, -, hsaved, -⟩, hs'⟩
    exact ⟨hsome, b', hs', hsaved.trans hrestorable.saved, hrestorable.stack⟩

/-- A put settles the generator in memory where the backend has it. -/
theorem meets_putRecord (store : StoreMeta) (value : ScValue) (explicitKey : Option Key)
    (noOverwrite : Bool) :
    Meets (Within w outer (Unmoved w)) (putRecord env limits store value explicitKey noOverwrite)
      (fun _ => Within w outer (Level (σ := σ)))
      (fun e s => e.isSome ∧ Within w outer (fun _ _ => True) s) := by
  refine meets_of_forall fun s hs => ?_
  obtain ⟨t, b, ht, hb, hrestorable, hunmoved⟩ := hs
  have hbase : Meets (· = s) (onBackend (keygenBase store))
      (fun r s' => r = LawfulSavepoints.generator b store.id ∧
        s'.txn = some { t with backend := some b })
      (fun e s' => e.isSome ∧ Within w outer (fun _ _ => True) s') := by
    refine (meets_onBackend ht hb (meets_keygenBase store b)).mono (fun _ h => h) ?_ ?_
    · rintro r s' ⟨b', ⟨rfl, hr⟩, hs'⟩
      exact ⟨hr, hs'⟩
    · rintro _ _ ⟨_, h, -⟩
      exact h.elim
  refine hbase.bind fun base => Meets.of_imp ?_
  rintro rfl
  refine meets_of_forall fun s₁ hs₁ => ?_
  have hrest₁ : Restorable w outer { t with backend := some b } b :=
    ⟨hrestorable.saved, hrestorable.stack⟩
  refine ((meets_keygenEntry store.id hs₁ rfl hrest₁ hunmoved).mono (fun _ h => h) (fun _ _ h => h)
    fun _ _ h => h.elim).bind fun keygen => ?_
  refine meets_of_forall fun s₂ hs₂ => ?_
  obtain ⟨t₂, ht₂, hb₂, hrest₂, hlevel₂, hkeygen⟩ := hs₂
  have hstack := hrest₂.stack store.id keygen hkeygen
  -- the generator moves even when the put fails, and then the backend does not know
  refine ((meets_backendPut store keygen value explicitKey noOverwrite ht₂ hb₂ hrest₂).attempt.mono
    (fun _ h => h) (fun _ _ h => h) ?_).bind fun r => ?_
  · rintro e s' ⟨-, hnone, -⟩
    cases hnone
  refine meets_of_forall fun s₃ hs₃ => ?_
  cases r with
  | error e =>
      obtain ⟨-, b', hs', hrest'⟩ := hs₃
      have hbehind := (saveStack_generatorBehind store keygen value explicitKey).trans hstack
      have hset : Meets (· = s₃) _ (fun _ => Within w outer fun _ _ => True) fun _ _ => False :=
        meets_setKeygen hs' rfl hrest' hbehind trivial
      refine (hset.mono (fun _ h => h) (fun _ _ h => h) fun _ _ h => h.elim).bind fun _ => ?_
      exact meets_throw fun _ h => ⟨rfl, h⟩
  | ok r =>
      obtain ⟨result, keygen', value'⟩ := r
      obtain ⟨hstack', b', hs', hrest', hgen⟩ := hs₃
      have hlevel' : Level { { t₂ with backend := some b' } with
          keygens := t₂.keygens.insert store.id keygen' } b' := by
        intro id other hget
        rw [hgen, Function.update_apply]
        rw [OrderedMap.get?_insert] at hget
        by_cases hid : id = store.id
        · rw [if_pos hid] at hget ⊢
          cases hget
          rfl
        · rw [if_neg hid] at hget ⊢
          exact hlevel₂ id other hget
      refine ((meets_setKeygen hs' rfl hrest' (hstack'.trans hstack) hlevel').mono (fun _ h => h)
        (fun _ _ h => h) fun _ _ h => h.elim).bind fun _ => ?_
      have hbytes : Keeps (Within w outer Level) _ :=
        keeps_addBytesWritten (σ := σ) result.valueBytes
      refine (hbytes.mono (fun _ h => h) (fun _ _ h => h) ?_).bind fun _ => meets_pure fun _ h => h
      exact fun _ _ h => ⟨h.1, h.2.weaken fun _ _ _ => trivial⟩

/-! ### One operation -/

/-- A harmless part of an operation. -/
theorem Meets.settled {α : Type} {p : Prog (OpState σ) IdbError α}
    (h : Keeps (Within w outer Level) p) :
    Meets (Within w outer (Unmoved w)) p (fun _ => Within w outer Level)
      (fun e s => e.isSome ∧ Within w outer (fun _ _ => True) s) :=
  Meets.mono h (fun _ h => h.weaken fun _ _ h => h.1) (fun _ _ h => h)
    fun _ _ h => ⟨h.1, h.2.weaken fun _ _ _ => trivial⟩

theorem keeps_cursorMove (cursorId : ℕ) (action : CursorAction) :
    Keeps (Within w outer Level)
      (cursorMove cursorId action : Prog (OpState σ) IdbError OpExec) := by
  refine keeps_read fun s _ => ?_
  split
  · exact keeps_throw _
  · exact Keeps.bind (keeps_cursors fun _ => rfl) fun _ => keeps_pure _

theorem keeps_cursorDelete (m : DatabaseMeta) (cursorId : ℕ) :
    Keeps (Within w outer Level)
      (cursorDelete limits m cursorId : Prog (OpState σ) IdbError OpExec) := by
  refine (keeps_cursorRow cursorId).bind fun found => ?_
  refine (keeps_lift _).bind fun store => (keeps_lift _).bind fun pk => ?_
  exact (Harmless.onBackend fun _ h => keeps_delete h _).bind fun _ => keeps_pure _

theorem meets_cursorUpdate (m : DatabaseMeta) (cursorId : ℕ) (value : ScValue) :
    Meets (Within w outer (Unmoved w)) (cursorUpdate env limits m cursorId value)
      (fun _ => Within w outer (Level (σ := σ)))
      (fun e s => e.isSome ∧ Within w outer (fun _ _ => True) s) := by
  have hunmoved {α : Type} {p : Prog (OpState σ) IdbError α}
      (h : Keeps (Within w outer (Unmoved w)) p) :
      Meets (Within w outer (Unmoved w)) p (fun _ => Within w outer (Unmoved w))
        (fun e s => e.isSome ∧ Within w outer (fun _ _ => True) s) :=
    Meets.mono h (fun _ h => h) (fun _ _ h => h) fun _ _ h => ⟨h.1, h.2.weaken fun _ _ _ => trivial⟩
  refine (hunmoved (keeps_cursorRow cursorId)).bind fun found => ?_
  refine (hunmoved (keeps_lift _)).bind fun store =>
    (hunmoved (keeps_lift _)).bind fun explicitKey => ?_
  exact meets_putRecord store value explicitKey false

/-- Behind an operation the backend still restores what was there before it; behind one that
succeeds the generators are level. -/
theorem meets_executeOpInner (requestId : ℕ) (op : PendingOp) :
    Meets (Within w outer (Unmoved w)) (executeOpInner env limits requestId op)
      (fun _ => Within w outer (Level (σ := σ)))
      (fun e s => e.isSome ∧ Within w outer (fun _ _ => True) s) := by
  have hunmoved {α : Type} {p : Prog (OpState σ) IdbError α}
      (h : Keeps (Within w outer (Unmoved w)) p) :
      Meets (Within w outer (Unmoved w)) p (fun _ => Within w outer (Unmoved w))
        (fun e s => e.isSome ∧ Within w outer (fun _ _ => True) s) :=
    Meets.mono h (fun _ h => h) (fun _ _ h => h) fun _ _ h => ⟨h.1, h.2.weaken fun _ _ _ => trivial⟩
  refine (hunmoved keeps_openMetadata).bind fun m => ?_
  -- only the operations that put a record move a generator
  cases op with
  | get source range =>
      refine Meets.settled
        (Keeps.bind (Harmless.onBackend fun _ h => keeps_firstValue h _ _) fun r => ?_)
      exact (keeps_addBytesRead _).bind fun _ => keeps_pure _
  | count source range =>
      refine Meets.settled ((keeps_lift _).bind fun encoded => Keeps.bind ?_ fun _ => keeps_pure _)
      exact Harmless.onBackend fun _ h => (h.count source encoded).mapErr _
  | getKey source range =>
      refine Meets.settled
        (Keeps.bind (Harmless.onBackend fun _ h => keeps_firstKey h _ _) fun r => ?_)
      cases r with
      | none => exact keeps_pure _
      | some key => exact keeps_pure _
  | getAll source range limit keysOnly =>
      cases keysOnly with
      | true =>
          refine Meets.settled (Keeps.bind ?_ fun _ => keeps_pure _)
          exact Harmless.onBackend fun _ h => keeps_collectKeys h _ _ _
      | false =>
          refine Meets.settled (Keeps.bind ?_ fun r => ?_)
          · exact Harmless.onBackend fun _ h => keeps_collectValues h _ _ _
          · exact (keeps_addBytesRead _).bind fun _ => keeps_pure _
  | getAllRecords source range limit direction =>
      refine Meets.settled (Keeps.bind ?_ fun r => ?_)
      · exact Harmless.onBackend fun _ h => keeps_materialize h _ _ _ _
      · exact (keeps_addBytesRead _).bind fun _ => keeps_pure _
  | put id value explicitKey noOverwrite =>
      exact (hunmoved (keeps_lift _)).bind fun store =>
        meets_putRecord store value explicitKey noOverwrite
  | delete id range =>
      refine Meets.settled ((keeps_lift _).bind fun store => (keeps_lift _).bind fun encoded => ?_)
      exact Keeps.bind (Harmless.onBackend fun _ h => keeps_delete h _) fun _ => keeps_pure _
  | clear id =>
      refine Meets.settled ((keeps_lift _).bind fun store => ?_)
      exact Keeps.bind (Harmless.onBackend fun _ h => keeps_clear h) fun _ => keeps_pure _
  | openCursor source range direction keyOnly =>
      refine Meets.settled (Keeps.bind ?_ fun cursorId => Keeps.bind ?_ fun r => ?_)
      · exact keeps_read fun s _ => Keeps.bind (keeps_cursors fun _ => rfl) fun _ => keeps_pure _
      · exact Harmless.onBackend fun _ h => keeps_materialize h _ _ _ _
      · exact (keeps_addBytesRead _).bind fun _ =>
          Keeps.bind (keeps_cursors fun _ => rfl) fun _ => keeps_pure _
  | cursorOp cursorId action =>
      cases action with
      | update value => exact meets_cursorUpdate m cursorId value
      | delete => exact Meets.settled (keeps_cursorDelete m cursorId)
      | advance n => exact Meets.settled (keeps_cursorMove cursorId _)
      | «continue» key => exact Meets.settled (keeps_cursorMove cursorId _)
      | continuePrimaryKey key primaryKey => exact Meets.settled (keeps_cursorMove cursorId _)

end BoaIdb.Driver
