import BoaIdb.Backend.Schema
import BoaIdb.Fs.Meta
import BoaIdb.Fs.Wal
import BoaIdb.Lib.OrderedMap

/-!
The in-memory state of an open filesystem database, and the replay of log
operations onto it.

A file sequence number grows by one with a compaction and is a natural number
here; the transaction sequence is read back from frames and keeps its 64 bits.
-/

namespace BoaIdb.Fs

open OrdMap

/-- `u64::saturating_add(1)`. -/
def saturatingSucc (n : UInt64) : UInt64 := if n = 0xFFFFFFFFFFFFFFFF then n else n + 1

/-- Mutable database state held in memory while the database is open. -/
structure DbState where
  metadata : Option DatabaseMeta
  records : OrderedMap RecordKey Bytes
  indexEntries : OrderedMap IndexKey Unit
  keyGenerators : OrderedMap StoreId F64Bits
  nextTxnSeq : UInt64
  manifestSeq : ℕ
  walSeq : ℕ
  walBytesSinceCompact : ℕ
  walFramesSinceCompact : ℕ
  /-- The sequence numbers of the live segment files. -/
  segments : List ℕ
  deriving DecidableEq

/-- `DbState::default`. -/
def DbState.default : DbState :=
  ⟨none, .empty, .empty, .empty, 1, 1, 1, 0, 0, []⟩

/-- Durable manifest pointing at the live segments and the active log. -/
structure ManifestData where
  manifestSeq : ℕ
  walSeq : ℕ
  segments : List ℕ
  deriving DecidableEq, Repr

/-- The generation of the files that this state believes to be published. -/
def DbState.tip (s : DbState) : ManifestData := ⟨s.manifestSeq, s.walSeq, s.segments⟩

/-- Writes a generator value into the metadata of its store. -/
def setKeyGen (m : DatabaseMeta) (store : StoreId) (value : F64Bits) : DatabaseMeta :=
  { m with stores :=
    updateFirst (fun s => s.id = store) (fun s => { s with keyGen := value }) m.stores }

/-! ### Replaying the log -/

/-- All records of a store. -/
def clearStore (records : OrderedMap RecordKey Bytes) (store : StoreId) :
    OrderedMap RecordKey Bytes :=
  (records.keys.filter (fun k => k.store = store)).foldl OrderedMap.erase records

def applyOp (s : DbState) : WalOp → Except BackendError DbState
  | .put store key value => .ok { s with records := s.records.insert ⟨store, key⟩ value }
  | .delete store key => .ok { s with records := s.records.erase ⟨store, key⟩ }
  | .clear store => .ok { s with records := clearStore s.records store }
  | .indexPut index idxKey primaryKey =>
      .ok { s with indexEntries := s.indexEntries.insert ⟨index, idxKey, primaryKey⟩ () }
  | .indexDelete index idxKey primaryKey =>
      .ok { s with indexEntries := s.indexEntries.erase ⟨index, idxKey, primaryKey⟩ }
  | .keyGenSet store valueBits =>
      .ok { s with
        keyGenerators := s.keyGenerators.insert store valueBits
        metadata := s.metadata.map (fun m => setKeyGen m store valueBits) }
  | .metaReplace bytes => do
      let m ← decodeMeta bytes
      .ok { s with metadata := some m }

def applyOps : DbState → List WalOp → Except BackendError DbState
  | s, [] => .ok s
  | s, op :: ops => do
      let s ← applyOp s op
      applyOps s ops

/-- Applies committed frames; the sequence moves past every frame's. -/
def applyFrames : DbState → List WalFrame → Except BackendError DbState
  | s, [] => .ok s
  | s, frame :: frames => do
      let s ← applyOps s frame.ops
      applyFrames { s with nextTxnSeq := max s.nextTxnSeq (saturatingSucc frame.txnSeq) } frames

/-! ### The logical database

What script can observe: records, index entries, generators as `key_gen_current`
reads them, and the schema. The generator fields inside the metadata only seed the
generators of a store on open, so the schema leaves them out. -/

structure View where
  records : OrderedMap RecordKey Bytes
  indexEntries : OrderedMap IndexKey Unit
  generator : StoreId → F64Bits
  schema : Option DatabaseMeta

@[ext] theorem View.ext {v w : View} (hr : v.records = w.records)
    (hi : v.indexEntries = w.indexEntries) (hg : ∀ store, v.generator store = w.generator store)
    (hs : v.schema = w.schema) : v = w := by
  cases v
  cases w
  simp only [mk.injEq]
  exact ⟨hr, hi, funext hg, hs⟩

/-- `key_gen_current`, outside a transaction. -/
def DbState.generator (s : DbState) (store : StoreId) : F64Bits :=
  (s.keyGenerators.get? store).getD keyGenStart

def DbState.view (s : DbState) : View :=
  ⟨s.records, s.indexEntries, s.generator, s.metadata.map schemaOf⟩

/-- The effect of a log operation on the logical database. -/
def View.apply (v : View) : WalOp → View
  | .put store key value => { v with records := v.records.insert ⟨store, key⟩ value }
  | .delete store key => { v with records := v.records.erase ⟨store, key⟩ }
  | .clear store => { v with records := clearStore v.records store }
  | .indexPut index idxKey primaryKey =>
      { v with indexEntries := v.indexEntries.insert ⟨index, idxKey, primaryKey⟩ () }
  | .indexDelete index idxKey primaryKey =>
      { v with indexEntries := v.indexEntries.erase ⟨index, idxKey, primaryKey⟩ }
  | .keyGenSet store valueBits =>
      { v with generator := Function.update v.generator store valueBits }
  | .metaReplace bytes =>
      match decodeMeta bytes with
      | .ok m => { v with schema := some (schemaOf m) }
      | .error _ => v

/-- An operation whose metadata, if it carries any, can be decoded. -/
def WalOp.Decodes : WalOp → Prop
  | .metaReplace bytes => ∃ m, decodeMeta bytes = .ok m
  | _ => True

@[simp] theorem schemaOf_setKeyGen (m : DatabaseMeta) (store : StoreId) (value : F64Bits) :
    schemaOf (setKeyGen m store value) = schemaOf m := by
  simp only [schemaOf, setKeyGen, DatabaseMeta.mk.injEq, true_and, and_true]
  exact map_updateFirst m.stores fun s => rfl

/-- The entry of a store in the generator map, through an operation. -/
def WalOp.onGenerator (store : StoreId) (entry : Option F64Bits) : WalOp → Option F64Bits
  | .keyGenSet store' valueBits => if store' = store then some valueBits else entry
  | _ => entry

/-- Replaying operations that decode succeeds and acts as on the view; the files
believed live stay the same. -/
structure Replays (s : DbState) (ops : List WalOp) (s' : DbState) : Prop where
  view : s'.view = ops.foldl View.apply s.view
  generators : ∀ store, s'.keyGenerators.get? store =
    ops.foldl (WalOp.onGenerator store) (s.keyGenerators.get? store)
  tip : s'.tip = s.tip
  named : s.metadata.isSome → s'.metadata.isSome

theorem Replays.refl (s : DbState) : Replays s [] s := ⟨rfl, fun _ => rfl, rfl, id⟩

theorem Replays.trans {s s₁ s₂ : DbState} {ops ops' : List WalOp} (h : Replays s ops s₁)
    (h' : Replays s₁ ops' s₂) : Replays s (ops ++ ops') s₂ where
  view := by rw [h'.view, h.view, List.foldl_append]
  generators store := by rw [h'.generators, h.generators, List.foldl_append]
  tip := h'.tip.trans h.tip
  named hs := h'.named (h.named hs)

theorem applyOp_ok {s : DbState} {op : WalOp} (h : op.Decodes) :
    ∃ s', applyOp s op = .ok s' ∧ Replays s [op] s' := by
  cases op with
  | keyGenSet store valueBits =>
      refine ⟨_, rfl, ⟨?_, fun store' => ?_, rfl, by simp⟩⟩
      · refine View.ext rfl rfl (fun store' => ?_) ?_
        · simp only [DbState.view, DbState.generator, List.foldl_cons, List.foldl_nil, View.apply,
            OrderedMap.get?_insert]
          by_cases hstore : store' = store
          · simp [hstore]
          · simp [hstore, Function.update_of_ne, DbState.generator]
        · simp only [DbState.view, List.foldl_cons, List.foldl_nil, View.apply, Option.map_map]
          exact congrArg (Option.map · s.metadata) (funext fun m => schemaOf_setKeyGen m _ _)
      · simp only [OrderedMap.get?_insert, List.foldl_cons, List.foldl_nil, WalOp.onGenerator,
          eq_comm]
  | metaReplace bytes =>
      obtain ⟨m, hm⟩ := h
      refine ⟨{ s with metadata := some m }, by simp [applyOp, hm, bind, Except.bind],
        ⟨?_, fun _ => rfl, rfl, fun _ => rfl⟩⟩
      refine View.ext ?_ ?_ (fun store => ?_) ?_
      all_goals simp [DbState.view, View.apply, hm, DbState.generator]
  | _ => exact ⟨_, rfl, ⟨rfl, fun _ => rfl, rfl, id⟩⟩

theorem applyOps_ok {s : DbState} {ops : List WalOp} (h : ∀ op ∈ ops, op.Decodes) :
    ∃ s', applyOps s ops = .ok s' ∧ Replays s ops s' := by
  induction ops generalizing s with
  | nil => exact ⟨s, rfl, .refl s⟩
  | cons op ops ih =>
      obtain ⟨s₁, hop, h₁⟩ := applyOp_ok (s := s) (h op (by simp))
      obtain ⟨s₂, hops, h₂⟩ := ih (s := s₁) fun op' hop' => h op' (.tail _ hop')
      exact ⟨s₂, by simp [applyOps, hop, bind, Except.bind, hops], h₁.trans h₂⟩

theorem applyFrames_ok {s : DbState} {frames : List WalFrame}
    (h : ∀ op ∈ frames.flatMap WalFrame.ops, op.Decodes) :
    ∃ s', applyFrames s frames = .ok s' ∧ Replays s (frames.flatMap WalFrame.ops) s' := by
  induction frames generalizing s with
  | nil => exact ⟨s, rfl, .refl s⟩
  | cons frame frames ih =>
      rw [List.flatMap_cons] at h ⊢
      have hfirst : ∀ op ∈ frame.ops, op.Decodes := fun op hop => h op (List.mem_append_left _ hop)
      obtain ⟨s₁, hops, h₁⟩ := applyOps_ok (s := s) hfirst
      obtain ⟨s₂, hframes, h₂⟩ := ih
        (s := { s₁ with nextTxnSeq := max s₁.nextTxnSeq (saturatingSucc frame.txnSeq) })
        fun op hop => h op (List.mem_append_right _ hop)
      refine ⟨s₂, by simp [applyFrames, hops, bind, Except.bind, hframes], h₁.trans ?_⟩
      exact ⟨h₂.view, h₂.generators, h₂.tip, h₂.named⟩

/-- A replay that succeeds has decoded every metadata. -/
theorem decodes_of_applyOps {s s' : DbState} {ops : List WalOp} (h : applyOps s ops = .ok s') :
    ∀ op ∈ ops, op.Decodes := by
  induction ops generalizing s with
  | nil => exact fun op hop => absurd hop List.not_mem_nil
  | cons op ops ih =>
      rw [applyOps] at h
      obtain ⟨s₁, hop, hops⟩ : ∃ s₁, applyOp s op = .ok s₁ ∧ applyOps s₁ ops = .ok s' := by
        cases hop : applyOp s op with
        | error e => simp [hop, bind, Except.bind] at h
        | ok s₁ => exact ⟨s₁, rfl, by simpa [hop, bind, Except.bind] using h⟩
      intro op' hop'
      rcases List.mem_cons.mp hop' with rfl | hop'
      · cases op' with
        | metaReplace bytes =>
            cases hm : decodeMeta bytes with
            | error e => simp [applyOp, hm, bind, Except.bind] at hop
            | ok m => exact ⟨m, hm⟩
        | _ => trivial
      · exact ih hops op' hop'

theorem decodes_of_applyFrames {s s' : DbState} {frames : List WalFrame}
    (h : applyFrames s frames = .ok s') : ∀ op ∈ frames.flatMap WalFrame.ops, op.Decodes := by
  induction frames generalizing s with
  | nil => exact fun op hop => absurd hop List.not_mem_nil
  | cons frame frames ih =>
      rw [applyFrames] at h
      cases hops : applyOps s frame.ops with
      | error e => simp [hops, bind, Except.bind] at h
      | ok s₁ =>
          intro op hop
          rw [List.flatMap_cons] at hop
          rcases List.mem_append.mp hop with hop | hop
          · exact decodes_of_applyOps hops op hop
          · exact ih (by simpa [hops, bind, Except.bind] using h) op hop

end BoaIdb.Fs
