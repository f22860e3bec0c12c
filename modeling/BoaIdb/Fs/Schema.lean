import BoaIdb.Fs.Runs
import BoaIdb.Lib.Run
import BoaIdb.Memory.Schema

/-!
The committed schema of a filesystem database over runs of one handle.

A begin reads the committed metadata again and a read-only commit writes nothing, so only
a readwrite transaction that was begun before an upgrade and commits behind it brings the
old schema back. With the memory backend next to it: what both of them need.
-/

namespace BoaIdb.Fs

open OrdMap Faults Runs

/-- A handle with its transactions in flight; here an upgrade need not be alone. -/
structure SchemaWorld where
  session : Session
  active : List FsTxn
  /-- The version, the stores and the indexes that the last upgrade committed. -/
  upgraded : UInt64 × List StoreMeta

inductive SchemaAction
  | begin (mode : TxnMode) (scope : List StoreId) (durability : Durability)
  /-- Any operations of a transaction between its begin and its end. -/
  | edit (t t' : FsTxn)
  | commit (t : FsTxn) (f : CommitFaults)
  | abort (t : FsTxn)

inductive SchemaStep (cfg : FsConfig) : SchemaWorld → SchemaAction → SchemaWorld → Prop
  | begin {w : SchemaWorld} {mode : TxnMode} {scope : List StoreId} {durability : Durability}
      {m : DatabaseMeta} (hm : w.session.state.metadata = some m) :
      SchemaStep cfg w (.begin mode scope durability)
        { w with active := w.active ++ [FsTxn.begin mode scope m durability] }
  | edit {w : SchemaWorld} {t t' : FsTxn} (before after : List FsTxn)
      (hactive : w.active = before ++ t :: after) (hmode : t'.mode = t.mode)
      (hbegun : t'.begun = t.begun) :
      SchemaStep cfg w (.edit t t') { w with active := before ++ t' :: after }
  | commitOk {w : SchemaWorld} {t : FsTxn} {f : CommitFaults} {s : Session}
      (before after : List FsTxn) (hactive : w.active = before ++ t :: after)
      (hrun : t.commit cfg f w.session = (.done (), s)) :
      SchemaStep cfg w (.commit t f) ⟨s, before ++ after,
        if t.mode = .versionChange then t.metadata.shape else w.upgraded⟩
  | commitErr {w : SchemaWorld} {t : FsTxn} {f : CommitFaults} {s : Session} {e : BackendError}
      (before after : List FsTxn) (hactive : w.active = before ++ t :: after)
      (hrun : t.commit cfg f w.session = (.failed e, s)) :
      SchemaStep cfg w (.commit t f) ⟨s, before ++ after, w.upgraded⟩
  | abort {w : SchemaWorld} {t : FsTxn} (before after : List FsTxn)
      (hactive : w.active = before ++ t :: after) :
      SchemaStep cfg w (.abort t) { w with active := before ++ after }

/-- The committed version, stores and indexes. -/
def DbState.shape (s : DbState) : Option (UInt64 × List StoreMeta) :=
  s.metadata.map DatabaseMeta.shape

/-- The committed schema is that of the last upgrade. -/
def SchemaWorld.Current (w : SchemaWorld) : Prop := w.session.state.shape = some w.upgraded

/-- A readwrite commit that no fault stops finds the schema that it began with. -/
def SchemaAction.KeepsSchema (cfg : FsConfig) (w : SchemaWorld) : SchemaAction → Prop
  | .commit t f => t.mode = .readWrite →
      (∃ frames, t.frames cfg w.session = .ok frames ∧ f.Lands t frames) →
      w.session.state.shape = some t.begun.shape
  | _ => True

/-- A handle before its first transaction. -/
structure SchemaWorld.Start (w : SchemaWorld) : Prop where
  active : w.active = []
  current : w.Current

theorem shape_commitMeta (t : FsTxn) : t.commitMeta.shape = t.metadata.shape := by
  unfold DatabaseMeta.shape
  rw [FsTxn.schemaOf_commitMeta]

/-- A step keeps the schema of the last upgrade exactly if it is no readwrite commit over
another schema. -/
theorem current_schemaStep_iff {cfg : FsConfig} {w w' : SchemaWorld} {a : SchemaAction}
    (hcurrent : w.Current) (hstep : SchemaStep cfg w a w') :
    w'.Current ↔ a.KeepsSchema cfg w := by
  cases hstep with
  | begin hm => exact iff_of_true hcurrent trivial
  | edit before after hactive hmode hbegun => exact iff_of_true hcurrent trivial
  | abort before after hactive => exact iff_of_true hcurrent trivial
  | @commitOk t f s before after hactive hrun =>
      by_cases hro : t.mode = .readOnly
      · rw [FsTxn.commit, if_pos hro] at hrun
        obtain rfl : w.session = s := congrArg Prod.snd hrun
        refine iff_of_true ?_ fun hrw => ?_
        · simpa [SchemaWorld.Current, hro] using hcurrent
        · rw [hro] at hrw
          cases hrw
      · obtain ⟨hlands, hmeta⟩ := metadata_commit_done hro hrun
        have hafter : s.state.shape = some t.metadata.shape := by
          rw [DbState.shape, hmeta, Option.map_some, shape_commitMeta]
        rw [SchemaWorld.Current, SchemaAction.KeepsSchema, hafter, hcurrent]
        by_cases hvc : t.mode = .versionChange
        · simp [hvc]
        · have hrw : t.mode = .readWrite := by
            cases hmode : t.mode
            · exact absurd hmode hro
            · rfl
            · exact absurd hmode hvc
          have hclean : t.metadata = t.begun := t.clean (t.guarded hvc)
          rw [hclean, if_neg hvc]
          exact ⟨fun h _ _ => h.symm, fun h => (h hrw hlands).symm⟩
  | commitErr before after hactive hrun =>
      obtain ⟨-, hlands, hstate⟩ := state_commit_failed hrun
      refine iff_of_true ?_ fun _ h => absurd h hlands
      rw [SchemaWorld.Current, hstate]
      exact hcurrent

theorem SchemaWorld.Start.throughout_iff {cfg : FsConfig} {w₀ w : SchemaWorld}
    {taken : List (SchemaWorld × SchemaAction)} (hstart : w₀.Start)
    (h : Run (SchemaStep cfg) w₀ taken w) :
    Throughout SchemaWorld.Current taken w ↔
      EachStep (fun w a => SchemaAction.KeepsSchema cfg w a) taken :=
  have hkeep {w w' : SchemaWorld} {a : SchemaAction} (_ : True) (_ : SchemaStep cfg w a w') :
      True := trivial
  h.throughout_iff trivial hkeep hstart.current
    fun _ hcurrent hstep => current_schemaStep_iff hcurrent hstep

/-! ### Both backends -/

/-- **The committed schema is that of the last upgrade exactly as long as no other commit
finds a schema that it did not begin with.** On the memory backend a transaction begins
with the schema of its handle, and a read-only commit counts as well. -/
theorem schema_throughout_iff (name : Utf16String) (cfg : FsConfig) :
    (∀ (w₀ w : Memory.World) (taken : List (Memory.World × Memory.Action)),
      w₀.Start name → Run (Memory.Step name) w₀ taken w →
        (Throughout (Memory.World.Current name) taken w ↔
          EachStep (fun w a => Memory.Action.KeepsSchema name w a) taken)) ∧
    ∀ (w₀ w : SchemaWorld) (taken : List (SchemaWorld × SchemaAction)),
      w₀.Start → Run (SchemaStep cfg) w₀ taken w →
        (Throughout SchemaWorld.Current taken w ↔
          EachStep (fun w a => SchemaAction.KeepsSchema cfg w a) taken) :=
  ⟨fun _ _ _ hstart h => hstart.throughout_iff h, fun _ _ _ hstart h => hstart.throughout_iff h⟩

/-- A readwrite transaction that begins before the upgrade to version 1 and writes nothing. -/
def bystander : FsTxn := FsTxn.begin .readWrite [] (emptyMeta []) .relaxed

/-- The upgrade, as it begins. -/
def upgradeBegun : FsTxn := FsTxn.begin .versionChange [] (emptyMeta []) .strict

def freshWorld (active : List FsTxn) : SchemaWorld := ⟨freshSession [], active, (0, [])⟩

def behindUpgrade : SchemaWorld :=
  ⟨(strictUpgrade.commit defaultConfig {} (freshSession [])).2, [bystander], (1, [])⟩

def behindBystander : SchemaWorld :=
  ⟨(bystander.commit defaultConfig {} behindUpgrade.session).2, [], (1, [])⟩

/-- The two begin, the upgrade commits, then the other one. -/
def overtakenRun : List (SchemaWorld × SchemaAction) :=
  [(freshWorld [], .begin .readWrite [] .relaxed),
    (freshWorld [bystander], .begin .versionChange [] .strict),
    (freshWorld [bystander, upgradeBegun], .edit upgradeBegun strictUpgrade),
    (freshWorld [bystander, strictUpgrade], .commit strictUpgrade {}),
    (behindUpgrade, .commit bystander {})]

theorem start_freshWorld : (freshWorld []).Start := ⟨rfl, rfl⟩

theorem run_overtakenRun :
    Run (SchemaStep defaultConfig) (freshWorld []) overtakenRun behindBystander := by
  have hfirst : Run (SchemaStep defaultConfig) (freshWorld []) _ (freshWorld [bystander]) :=
    Run.start.step (.begin rfl)
  have hsecond : Run (SchemaStep defaultConfig) (freshWorld []) _
      (freshWorld [bystander, upgradeBegun]) := hfirst.step (.begin rfl)
  have hset : Run (SchemaStep defaultConfig) (freshWorld []) _
      (freshWorld [bystander, strictUpgrade]) := hsecond.step (.edit [_] [] rfl rfl rfl)
  have hupgraded : Run (SchemaStep defaultConfig) (freshWorld []) _ behindUpgrade :=
    hset.step (.commitOk (t := strictUpgrade) (f := {}) [bystander] [] rfl (Prod.ext rfl rfl))
  exact hupgraded.step (.commitOk (t := bystander) (f := {}) [] [] rfl (Prod.ext rfl rfl))

/-- The two runs, each with what it needs to keep the schema. -/
theorem schema_throughout_iff_stale :
    (Throughout (Memory.World.Current []) Memory.staleRun Memory.behindReader ↔
      EachStep (fun w a => Memory.Action.KeepsSchema [] w a) Memory.staleRun) ∧
    (Throughout SchemaWorld.Current overtakenRun behindBystander ↔
      EachStep (fun w a => SchemaAction.KeepsSchema defaultConfig w a) overtakenRun) :=
  ⟨(schema_throughout_iff [] defaultConfig).1 _ _ _ Memory.start_fresh Memory.run_staleRun,
    (schema_throughout_iff [] defaultConfig).2 _ _ _ start_freshWorld run_overtakenRun⟩

/-- On the memory backend the read-only commit behind the upgrade, on the filesystem the
readwrite commit begun before it, brings version 0 back. -/
theorem schema_reverted :
    (Memory.fresh.Start [] ∧ Run (Memory.Step []) Memory.fresh Memory.staleRun Memory.behindReader ∧
      ¬ Memory.behindReader.Current []) ∧
    (freshWorld []).Start ∧
      Run (SchemaStep defaultConfig) (freshWorld []) overtakenRun behindBystander ∧
      ¬ behindBystander.Current := by
  refine ⟨⟨Memory.start_fresh, Memory.run_staleRun, Memory.not_current_behindReader⟩,
    start_freshWorld, run_overtakenRun, fun h => ?_⟩
  have hold : behindBystander.session.state.shape = some (0, []) := rfl
  rw [SchemaWorld.Current, hold] at h
  cases h

end BoaIdb.Fs
