import BoaIdb.Memory.Txn
import BoaIdb.Lib.Run

/-!
The committed schema of a memory database over runs of its handles.

Every commit puts the whole metadata of its transaction in the place of the committed
one, and a transaction has that of its handle, read when the handle was opened. A handle
that outlives an upgrade brings the old schema back.
-/

namespace BoaIdb.Memory

open OrdMap Runs

/-- One database with its open handles and its transactions in flight. -/
structure World where
  state : StorageState
  handles : List MemoryDatabase
  active : List MemoryTxn
  /-- The version, the stores and the indexes that the last upgrade committed. -/
  upgraded : UInt64 × List StoreMeta

inductive Action
  | openHandle
  | begin (d : MemoryDatabase) (mode : TxnMode) (scope : List StoreId)
  | schemaOp (t t' : MemoryTxn)
  /-- Any data operations and savepoints. -/
  | dataOp (t t' : MemoryTxn)
  | commit (t : MemoryTxn)
  | abort (t : MemoryTxn)

inductive Step (name : Utf16String) : World → Action → World → Prop
  | openHandle {w : World} :
      Step name w .openHandle { w with
        state := (openDatabase name w.state).2
        handles := (openDatabase name w.state).1 :: w.handles }
  | begin {w : World} {d : MemoryDatabase} {mode : TxnMode} {scope : List StoreId}
      (hd : d ∈ w.handles) :
      Step name w (.begin d mode scope) { w with active := w.active ++ [d.begin mode scope] }
  | schemaOp {w : World} {t t' : MemoryTxn} {op : String} {f : DatabaseMeta → DatabaseMeta}
      (before after : List MemoryTxn) (hactive : w.active = before ++ t :: after)
      (hname : ∀ m, (f m).name = m.name) (hop : t.schemaOp op f = .ok t') :
      Step name w (.schemaOp t t') { w with active := before ++ t' :: after }
  | dataOp {w : World} {t t' : MemoryTxn} (before after : List MemoryTxn)
      (hactive : w.active = before ++ t :: after) (hmode : t'.mode = t.mode)
      (hmeta : t'.metadata = t.metadata) :
      Step name w (.dataOp t t') { w with active := before ++ t' :: after }
  | commit {w : World} {t : MemoryTxn} (before after : List MemoryTxn)
      (hactive : w.active = before ++ t :: after) :
      Step name w (.commit t) ⟨t.commit w.state, w.handles, before ++ after,
        if t.mode = .versionChange then t.metadata.shape else w.upgraded⟩
  | abort {w : World} {t : MemoryTxn} (before after : List MemoryTxn)
      (hactive : w.active = before ++ t :: after) :
      Step name w (.abort t) { w with active := before ++ after }

/-- The committed version, stores and indexes. -/
def StorageState.shape (name : Utf16String) (s : StorageState) : Option (UInt64 × List StoreMeta) :=
  (s.databases.get? name).map DatabaseMeta.shape

/-- The committed schema is that of the last upgrade. -/
def World.Current (name : Utf16String) (w : World) : Prop := w.state.shape name = some w.upgraded

/-- A commit outside an upgrade finds the schema that its handle was opened with. -/
def Action.KeepsSchema (name : Utf16String) (w : World) : Action → Prop
  | .commit t => t.mode ≠ .versionChange → w.state.shape name = some t.metadata.shape
  | _ => True

/-- A database before its first handle. -/
structure World.Start (name : Utf16String) (w : World) : Prop where
  handles : w.handles = []
  active : w.active = []
  current : w.Current name
  named : ∀ m, w.state.databases.get? name = some m → m.name = name

/-- Handles and transactions know the database under its name. -/
structure World.Named (name : Utf16String) (w : World) : Prop where
  handles : ∀ d ∈ w.handles, d.metadata.name = name
  active : ∀ t ∈ w.active, t.metadata.name = name
  committed : ∀ m, w.state.databases.get? name = some m → m.name = name

section Steps

variable {name : Utf16String} {w w' : World} {a : Action}

theorem World.Start.allNamed (h : w.Start name) : w.Named name where
  handles _ hd := absurd (h.handles ▸ hd) List.not_mem_nil
  active _ ht := absurd (h.active ▸ ht) List.not_mem_nil
  committed := h.named

/-- A transaction in flight is replaced by one of the same name. -/
theorem named_replace {before after : List MemoryTxn} {t t' : MemoryTxn}
    (h : ∀ u ∈ before ++ t :: after, u.metadata.name = name)
    (hname : t'.metadata.name = t.metadata.name) :
    ∀ u ∈ before ++ t' :: after, u.metadata.name = name := by
  intro u hu
  have ht : t.metadata.name = name := h t (by simp)
  rcases List.mem_append.mp hu with hu | hu
  · exact h u (List.mem_append_left _ hu)
  · rcases List.mem_cons.mp hu with rfl | hu
    · exact hname.trans ht
    · exact h u (List.mem_append_right _ (.tail _ hu))

theorem named_remove {before after : List MemoryTxn} {t : MemoryTxn}
    (h : ∀ u ∈ before ++ t :: after, u.metadata.name = name) :
    ∀ u ∈ before ++ after, u.metadata.name = name := by
  intro u hu
  rcases List.mem_append.mp hu with hu | hu
  · exact h u (List.mem_append_left _ hu)
  · exact h u (List.mem_append_right _ (.tail _ hu))

/-- Opening a handle copies the committed metadata, or creates the database. -/
theorem openDatabase_spec (name : Utf16String) (s : StorageState) :
    (openDatabase name s).2.databases.get? name = some (openDatabase name s).1.metadata := by
  unfold openDatabase
  cases h : s.databases.get? name with
  | some m => exact h
  | none => exact OrderedMap.get?_insert_self _ _ _

theorem openDatabase_of_some {s : StorageState} {m : DatabaseMeta}
    (h : s.databases.get? name = some m) : openDatabase name s = (⟨m⟩, s) := by
  rw [openDatabase, h]

theorem schemaOp_ok {t t' : MemoryTxn} {op : String} {f : DatabaseMeta → DatabaseMeta}
    (h : t.schemaOp op f = .ok t') :
    t.mode = .versionChange ∧ t' = { t with metadata := f t.metadata } := by
  unfold MemoryTxn.schemaOp at h
  split at h
  · cases h
  · rename_i hmode
    exact ⟨not_not.mp hmode, (Except.ok.inj h).symm⟩

theorem World.Named.step (h : w.Named name) (hstep : Step name w a w') : w'.Named name := by
  cases hstep with
  | openHandle =>
      have hname (m : DatabaseMeta)
          (hm : (openDatabase name w.state).2.databases.get? name = some m) :
          m.name = name := by
        unfold openDatabase at hm
        cases hget : w.state.databases.get? name with
        | some m' =>
            rw [hget] at hm
            exact h.committed m hm
        | none =>
            rw [hget, OrderedMap.get?_insert_self] at hm
            rw [← Option.some.inj hm]
            rfl
      refine ⟨fun d hd => ?_, h.active, hname⟩
      rcases List.mem_cons.mp hd with rfl | hd
      · exact hname _ (openDatabase_spec name w.state)
      · exact h.handles d hd
  | @begin d mode scope hd =>
      refine ⟨h.handles, fun t ht => ?_, h.committed⟩
      rcases List.mem_append.mp ht with ht | ht
      · exact h.active t ht
      · rw [List.mem_singleton.mp ht]
        exact h.handles d hd
  | schemaOp before after hactive hname hop =>
      obtain ⟨-, rfl⟩ := schemaOp_ok hop
      exact ⟨h.handles, named_replace (hactive ▸ h.active) (hname _), h.committed⟩
  | dataOp before after hactive hmode hmeta =>
      exact ⟨h.handles, named_replace (hactive ▸ h.active) (congrArg DatabaseMeta.name hmeta),
        h.committed⟩
  | @commit t before after hactive =>
      have hactive' := hactive ▸ h.active
      have ht : t.metadata.name = name := hactive' t (by simp)
      refine ⟨h.handles, named_remove hactive', fun m hm => ?_⟩
      rw [MemoryTxn.commit, ht, OrderedMap.get?_insert_self] at hm
      rw [← Option.some.inj hm]
      exact ht
  | abort before after hactive =>
      exact ⟨h.handles, named_remove (hactive ▸ h.active), h.committed⟩

/-- A step keeps the schema of the last upgrade exactly if it is no commit over another
schema. -/
theorem current_step_iff (h : w.Named name) (hcurrent : w.Current name)
    (hstep : Step name w a w') : w'.Current name ↔ a.KeepsSchema name w := by
  cases hstep with
  | openHandle =>
      obtain ⟨m, hm, -⟩ := Option.map_eq_some_iff.mp hcurrent
      rw [openDatabase_of_some hm]
      exact iff_of_true hcurrent trivial
  | begin hd => exact iff_of_true hcurrent trivial
  | schemaOp before after hactive hname hop => exact iff_of_true hcurrent trivial
  | dataOp before after hactive hmode hmeta => exact iff_of_true hcurrent trivial
  | abort before after hactive => exact iff_of_true hcurrent trivial
  | @commit t before after hactive =>
      have ht : t.metadata.name = name := h.active t (by simp [hactive])
      have hafter : (t.commit w.state).shape name = some t.metadata.shape := by
        rw [StorageState.shape, MemoryTxn.commit, ht, OrderedMap.get?_insert_self]
        rfl
      rw [World.Current, Action.KeepsSchema, hafter, hcurrent]
      by_cases hmode : t.mode = .versionChange
      · simp [hmode]
      · simp only [hmode, if_false, ne_eq, not_false_eq_true, forall_const]
        exact eq_comm

end Steps

/-- The committed schema is that of the last upgrade throughout a run exactly if every
commit outside an upgrade finds the schema that its handle was opened with. -/
theorem World.Start.throughout_iff {name : Utf16String} {w₀ w : World}
    {taken : List (World × Action)} (hstart : w₀.Start name) (h : Run (Step name) w₀ taken w) :
    Throughout (World.Current name) taken w ↔
      EachStep (fun w a => Action.KeepsSchema name w a) taken :=
  h.throughout_iff hstart.allNamed (fun hnamed hstep => hnamed.step hstep) hstart.current
    fun hnamed hcurrent hstep => current_step_iff hnamed hcurrent hstep

/-! ### A handle that outlives an upgrade -/

/-- An empty database before its first handle. -/
def fresh : World := ⟨⟨OrderedMap.empty.insert [] (emptyMeta []), .empty⟩, [], [], (0, [])⟩

def onlyHandle : MemoryDatabase := ⟨emptyMeta []⟩

def upgrade : MemoryTxn := onlyHandle.begin .versionChange []

/-- The upgrade has set the version. -/
def versioned : MemoryTxn := { upgrade with metadata := { emptyMeta [] with version := 1 } }

def reader : MemoryTxn := onlyHandle.begin .readOnly []

/-- The world of the handle with one transaction in flight. -/
def during (s : StorageState) (t : MemoryTxn) (shape : UInt64 × List StoreMeta) : World :=
  ⟨s, [onlyHandle], [t], shape⟩

def opened : World := { fresh with handles := [onlyHandle] }

def behindUpgrade : World := ⟨versioned.commit fresh.state, [onlyHandle], [], (1, [])⟩

def behindReader : World := ⟨reader.commit behindUpgrade.state, [onlyHandle], [], (1, [])⟩

/-- The handle upgrades the database to version 1, then reads from it. -/
def staleRun : List (World × Action) :=
  [(fresh, .openHandle), (opened, .begin onlyHandle .versionChange []),
    (during fresh.state upgrade (0, []), .schemaOp upgrade versioned),
    (during fresh.state versioned (0, []), .commit versioned),
    (behindUpgrade, .begin onlyHandle .readOnly []),
    (during behindUpgrade.state reader (1, []), .commit reader)]

theorem start_fresh : fresh.Start [] :=
  ⟨rfl, rfl, rfl, fun m hm => by rw [← Option.some.inj hm]; rfl⟩

theorem run_staleRun : Run (Step []) fresh staleRun behindReader := by
  have hopened : Run (Step []) fresh _ opened := Run.start.step .openHandle
  have hbegun : Run (Step []) fresh _ (during fresh.state upgrade (0, [])) :=
    hopened.step (.begin (List.mem_singleton.mpr rfl))
  have hop : upgrade.schemaOp "set_version" (fun m => { m with version := 1 }) = .ok versioned :=
    rfl
  have hset : Run (Step []) fresh _ (during fresh.state versioned (0, [])) :=
    hbegun.step (.schemaOp (f := fun m => { m with version := 1 }) [] [] rfl (fun _ => rfl) hop)
  have hupgraded : Run (Step []) fresh _ behindUpgrade := hset.step (.commit [] [] rfl)
  have hreader : Run (Step []) fresh _ (during behindUpgrade.state reader (1, [])) :=
    hupgraded.step (.begin (List.mem_singleton.mpr rfl))
  exact hreader.step (.commit [] [] rfl)

/-- The read-only commit has put version 0 back. -/
theorem not_current_behindReader : ¬ behindReader.Current [] := by
  intro h
  have hold : behindReader.state.shape [] = some (0, []) := rfl
  rw [World.Current, hold] at h
  cases h

end BoaIdb.Memory
