import BoaIdb.Fs.Txn
import Mathlib.Tactic.NormNum

/-!
What a log does to the logical database.

Records and index entries only depend on the operations and on what was there; a
generator, and the schema, are the last value an operation gives them, or what was
there if none does. The operations of a transaction together lay its pending maps
over the committed ones.
-/

namespace BoaIdb.Fs

open OrdMap

/-! ### The last value given -/

/-- No operation moves the generator of a store. -/
def LeavesGenerator (store : StoreId) (ops : List WalOp) : Prop :=
  ∀ valueBits, .keyGenSet store valueBits ∉ ops

/-- No operation replaces the metadata. -/
def LeavesSchema (ops : List WalOp) : Prop := ∀ bytes, .metaReplace bytes ∉ ops

theorem foldl_onGenerator (store : StoreId) (ops : List WalOp) (entry : Option F64Bits) :
    ops.foldl (WalOp.onGenerator store) entry =
      (ops.foldl (WalOp.onGenerator store) none).or entry := by
  induction ops generalizing entry with
  | nil => simp
  | cons op ops ih =>
      rw [List.foldl_cons, List.foldl_cons, ih, ih (WalOp.onGenerator store none op)]
      cases op with
      | keyGenSet store' valueBits =>
          simp only [WalOp.onGenerator]
          split
          · cases ops.foldl (WalOp.onGenerator store) none <;> rfl
          · simp
      | _ => simp [WalOp.onGenerator]

theorem foldl_onGenerator_eq_none_iff {store : StoreId} {ops : List WalOp} :
    ops.foldl (WalOp.onGenerator store) none = none ↔ LeavesGenerator store ops := by
  induction ops with
  | nil => simp [LeavesGenerator]
  | cons op ops ih =>
      rw [List.foldl_cons, foldl_onGenerator, Option.or_eq_none_iff, ih]
      simp only [LeavesGenerator, List.mem_cons, not_or, forall_and]
      rw [and_comm]
      refine and_congr ?_ Iff.rfl
      cases op with
      | keyGenSet store' valueBits => simp [WalOp.onGenerator, eq_comm]
      | _ => simp [WalOp.onGenerator]

/-- The schema, through an operation. -/
def WalOp.onSchema (schema : Option DatabaseMeta) : WalOp → Option DatabaseMeta
  | .metaReplace bytes =>
      match decodeMeta bytes with
      | .ok m => some (schemaOf m)
      | .error _ => schema
  | _ => schema

theorem foldl_onSchema (ops : List WalOp) (schema : Option DatabaseMeta) :
    ops.foldl WalOp.onSchema schema = (ops.foldl WalOp.onSchema none).or schema := by
  induction ops generalizing schema with
  | nil => simp
  | cons op ops ih =>
      rw [List.foldl_cons, List.foldl_cons, ih, ih (WalOp.onSchema none op)]
      cases op with
      | metaReplace bytes =>
          simp only [WalOp.onSchema]
          split
          · cases ops.foldl WalOp.onSchema none <;> rfl
          · simp
      | _ => simp [WalOp.onSchema]

theorem foldl_onSchema_eq_none_iff {ops : List WalOp} (h : ∀ op ∈ ops, op.Decodes) :
    ops.foldl WalOp.onSchema none = none ↔ LeavesSchema ops := by
  induction ops with
  | nil => simp [LeavesSchema]
  | cons op ops ih =>
      rw [List.foldl_cons, foldl_onSchema, Option.or_eq_none_iff,
        ih fun op' hop' => h op' (.tail _ hop')]
      simp only [LeavesSchema, List.mem_cons, not_or, forall_and]
      rw [and_comm]
      refine and_congr ?_ Iff.rfl
      cases op with
      | metaReplace bytes =>
          obtain ⟨m, hm⟩ := h (.metaReplace bytes) (by simp)
          simp [WalOp.onSchema, hm]
      | _ => simp [WalOp.onSchema]

theorem generator_foldl (v : View) (ops : List WalOp) (store : StoreId) :
    (ops.foldl View.apply v).generator store =
      (ops.foldl (WalOp.onGenerator store) none).getD (v.generator store) := by
  induction ops generalizing v with
  | nil => rfl
  | cons op ops ih =>
      rw [List.foldl_cons, ih, List.foldl_cons,
        foldl_onGenerator store ops (WalOp.onGenerator store none op)]
      cases ops.foldl (WalOp.onGenerator store) none with
      | some value => rfl
      | none =>
          cases op with
          | keyGenSet store' valueBits =>
              by_cases h : store' = store
              · simp [View.apply, WalOp.onGenerator, h]
              · simp [View.apply, WalOp.onGenerator, h, Function.update_of_ne (Ne.symm h)]
          | metaReplace bytes =>
              simp only [View.apply, WalOp.onGenerator]
              split <;> rfl
          | _ => rfl

theorem schema_foldl (v : View) (ops : List WalOp) :
    (ops.foldl View.apply v).schema = (ops.foldl WalOp.onSchema none).or v.schema := by
  induction ops generalizing v with
  | nil => simp
  | cons op ops ih =>
      rw [List.foldl_cons, ih, List.foldl_cons, foldl_onSchema ops (WalOp.onSchema none op),
        Option.or_assoc]
      congr 1
      cases op with
      | metaReplace bytes =>
          cases hm : decodeMeta bytes <;> simp [View.apply, WalOp.onSchema, hm]
      | _ => simp [View.apply, WalOp.onSchema]

/-- Records and index entries, through operations. -/
theorem rows_foldl {v w : View} (hr : v.records = w.records) (hi : v.indexEntries = w.indexEntries)
    (ops : List WalOp) : (ops.foldl View.apply v).records = (ops.foldl View.apply w).records ∧
      (ops.foldl View.apply v).indexEntries = (ops.foldl View.apply w).indexEntries := by
  induction ops generalizing v w with
  | nil => exact ⟨hr, hi⟩
  | cons op ops ih =>
      rw [List.foldl_cons, List.foldl_cons]
      refine ih ?_ ?_
      all_goals
        cases op with
        | metaReplace bytes =>
            simp only [View.apply]
            split <;> assumption
        | _ => simp [View.apply, hr, hi]

/-- A log hides all but the rows of what is under it, as far as it gives values. -/
theorem foldl_apply_eq_iff {v w : View} (hr : v.records = w.records)
    (hi : v.indexEntries = w.indexEntries) {ops : List WalOp} (h : ∀ op ∈ ops, op.Decodes) :
    ops.foldl View.apply v = ops.foldl View.apply w ↔
      (∀ store, LeavesGenerator store ops → v.generator store = w.generator store) ∧
      (LeavesSchema ops → v.schema = w.schema) := by
  constructor
  · intro heq
    refine ⟨fun store hl => ?_, fun hl => ?_⟩
    · have hg := congrFun (congrArg View.generator heq) store
      rw [generator_foldl, generator_foldl, foldl_onGenerator_eq_none_iff.mpr hl] at hg
      exact hg
    · have hs := congrArg View.schema heq
      rw [schema_foldl, schema_foldl, (foldl_onSchema_eq_none_iff h).mpr hl] at hs
      simpa using hs
  · rintro ⟨hg, hs⟩
    obtain ⟨hr', hi'⟩ := rows_foldl hr hi ops
    refine View.ext hr' hi' (fun store => ?_) ?_
    · rw [generator_foldl, generator_foldl]
      cases hl : ops.foldl (WalOp.onGenerator store) none with
      | some value => rfl
      | none => exact hg store (foldl_onGenerator_eq_none_iff.mp hl)
    · rw [schema_foldl, schema_foldl]
      cases hl : ops.foldl WalOp.onSchema none with
      | some m => rfl
      | none => simpa using hs ((foldl_onSchema_eq_none_iff h).mp hl)

/-- What a log hides of `u`, measured at what it shows over `w`. -/
theorem foldl_apply_eq_iff_hidden {u v w : View} (hr : u.records = w.records)
    (hi : u.indexEntries = w.indexEntries) {ops : List WalOp} (h : ∀ op ∈ ops, op.Decodes)
    (hv : ops.foldl View.apply w = v) : ops.foldl View.apply u = v ↔
      (∀ store, LeavesGenerator store ops → u.generator store = v.generator store) ∧
      (LeavesSchema ops → u.schema = v.schema) := by
  subst hv
  rw [foldl_apply_eq_iff hr hi h]
  refine and_congr (forall_congr' fun store => forall_congr' fun hl => ?_)
    (forall_congr' fun hl => ?_)
  · rw [generator_foldl, foldl_onGenerator_eq_none_iff.mpr hl]
    rfl
  · rw [schema_foldl, (foldl_onSchema_eq_none_iff h).mpr hl]
    rfl

/-! ### Operations applied again -/

theorem get?_clearStore (records : OrderedMap RecordKey Bytes) (store : StoreId)
    (key : RecordKey) : (clearStore records store).get? key =
      if key.store = store then none else records.get? key := by
  rw [clearStore, OrderedMap.get?_foldl_erase]
  by_cases hstore : key.store = store
  · rw [if_pos hstore]
    split
    · rfl
    · rename_i hnot
      rw [List.mem_filter, not_and] at hnot
      by_contra hsome
      exact hnot (OrderedMap.mem_keys_iff.mpr (Option.ne_none_iff_exists'.mp hsome))
        (by simpa using hstore)
  · rw [if_neg hstore, if_neg (by simp [hstore])]

/-- What an operation gives a record, if it gives it anything. -/
def WalOp.givesRecord (key : RecordKey) : WalOp → Option (Option Bytes)
  | .put store key' value => if key = ⟨store, key'⟩ then some (some value) else none
  | .delete store key' => if key = ⟨store, key'⟩ then some none else none
  | .clear store => if key.store = store then some none else none
  | _ => none

/-- What an operation gives an index entry. -/
def WalOp.givesEntry (key : IndexKey) : WalOp → Option (Option Unit)
  | .indexPut index idxKey primaryKey =>
      if key = ⟨index, idxKey, primaryKey⟩ then some (some ()) else none
  | .indexDelete index idxKey primaryKey =>
      if key = ⟨index, idxKey, primaryKey⟩ then some none else none
  | _ => none

theorem records_apply (v : View) (op : WalOp) (key : RecordKey) :
    (v.apply op).records.get? key = (op.givesRecord key).getD (v.records.get? key) := by
  cases op with
  | put store key' value =>
      simp only [View.apply, WalOp.givesRecord, OrderedMap.get?_insert]
      split <;> rfl
  | delete store key' =>
      simp only [View.apply, WalOp.givesRecord, OrderedMap.get?_erase]
      split <;> rfl
  | clear store =>
      simp only [View.apply, WalOp.givesRecord, get?_clearStore]
      split <;> rfl
  | metaReplace bytes =>
      simp only [View.apply, WalOp.givesRecord]
      split <;> rfl
  | _ => rfl

theorem entries_apply (v : View) (op : WalOp) (key : IndexKey) :
    (v.apply op).indexEntries.get? key = (op.givesEntry key).getD (v.indexEntries.get? key) := by
  cases op with
  | indexPut index idxKey primaryKey =>
      simp only [View.apply, WalOp.givesEntry, OrderedMap.get?_insert]
      split <;> rfl
  | indexDelete index idxKey primaryKey =>
      simp only [View.apply, WalOp.givesEntry, OrderedMap.get?_erase]
      split <;> rfl
  | metaReplace bytes =>
      simp only [View.apply, WalOp.givesEntry]
      split <;> rfl
  | _ => rfl

/-- Reading one place through operations, each of which sets it or leaves it: the last setting
counts, or what was there. -/
theorem exists_last {β : Type} {read : View → β} {gives : WalOp → Option β}
    (h : ∀ v op, read (v.apply op) = (gives op).getD (read v)) (ops : List WalOp) :
    ∃ last : Option β, ∀ v, read (ops.foldl View.apply v) = last.getD (read v) := by
  induction ops with
  | nil => exact ⟨none, fun _ => rfl⟩
  | cons op ops ih =>
      obtain ⟨last, hlast⟩ := ih
      refine ⟨last.or (gives op), fun v => ?_⟩
      rw [List.foldl_cons, hlast, h]
      cases last <;> rfl

/-- Operations that were applied change nothing when they are applied again. -/
theorem foldl_apply_again (v : View) (ops : List WalOp) :
    ops.foldl View.apply (ops.foldl View.apply v) = ops.foldl View.apply v := by
  have hagain {β : Type} {read : View → β} {gives : WalOp → Option β}
      (h : ∀ v op, read (v.apply op) = (gives op).getD (read v)) :
      read (ops.foldl View.apply (ops.foldl View.apply v)) = read (ops.foldl View.apply v) := by
    obtain ⟨last, hlast⟩ := exists_last h ops
    rw [hlast, hlast v]
    cases last <;> rfl
  refine View.ext (OrderedMap.ext_get? fun key => ?_) (OrderedMap.ext_get? fun key => ?_)
    (fun store => ?_) ?_
  · exact @hagain _ (fun v => v.records.get? key) _ fun v op => records_apply v op key
  · exact @hagain _ (fun v => v.indexEntries.get? key) _ fun v op => entries_apply v op key
  · rw [generator_foldl, generator_foldl]
    cases ops.foldl (WalOp.onGenerator store) none <;> rfl
  · rw [schema_foldl, schema_foldl]
    cases ops.foldl WalOp.onSchema none <;> rfl
/-! ### The operations of a transaction -/

namespace FsTxn

/-- The logical database with the pending changes of a transaction. -/
def effect (t : FsTxn) (v : View) : View where
  records := v.records.merge id t.pendingRecords
  indexEntries := v.indexEntries.merge presentSlot t.pendingIndexEntries
  generator := fun store => (t.pendingKeyGenerators.get? store).getD (v.generator store)
  schema := if t.metaDirty then some (schemaOf t.metadata) else v.schema

theorem foldl_recordOp (v : View) (es : List (RecordKey × Option Bytes)) :
    (es.map recordOp).foldl View.apply v =
      { v with records := es.foldl (applySlot id) v.records } := by
  induction es generalizing v with
  | nil => rfl
  | cons e es ih =>
      rw [List.map_cons, List.foldl_cons, ih]
      obtain ⟨k, _ | value⟩ := e <;> rfl

theorem foldl_indexOp (v : View) (es : List (IndexKey × Bool)) :
    (es.map indexOp).foldl View.apply v =
      { v with indexEntries := es.foldl (applySlot presentSlot) v.indexEntries } := by
  induction es generalizing v with
  | nil => rfl
  | cons e es ih =>
      rw [List.map_cons, List.foldl_cons, ih]
      obtain ⟨k, _ | _⟩ := e <;> rfl

/-- The generator map, through the operations of the pending generators. -/
theorem foldl_keyGenSet (store : StoreId) (es : List (StoreId × F64Bits))
    (g : OrderedMap StoreId F64Bits) :
    (es.map (fun e => WalOp.keyGenSet e.1 e.2)).foldl (WalOp.onGenerator store) (g.get? store) =
      (es.foldl (applySlot some) g).get? store := by
  induction es generalizing g with
  | nil => rfl
  | cons e es ih =>
      rw [List.map_cons, List.foldl_cons, List.foldl_cons, ← ih]
      congr 1
      rw [get?_applySlot]
      by_cases h : store = e.1
      · simp [WalOp.onGenerator, h]
      · simp [WalOp.onGenerator, h, Ne.symm h]

/-- Generator operations only move generators. -/
theorem frame_foldl_keyGenSet (v : View) (es : List (StoreId × F64Bits)) :
    let w := (es.map (fun e => WalOp.keyGenSet e.1 e.2)).foldl View.apply v
    w.records = v.records ∧ w.indexEntries = v.indexEntries ∧ w.schema = v.schema := by
  induction es generalizing v with
  | nil => exact ⟨rfl, rfl, rfl⟩
  | cons e es ih => exact ih (v.apply (.keyGenSet e.1 e.2))

theorem schemaOf_foldl_setKeyGen (es : List (StoreId × F64Bits)) (m : DatabaseMeta) :
    schemaOf (es.foldl (fun m e => setKeyGen m e.1 e.2) m) = schemaOf m := by
  induction es generalizing m with
  | nil => rfl
  | cons e es ih => rw [List.foldl_cons, ih, schemaOf_setKeyGen]

theorem schemaOf_commitMeta (t : FsTxn) : schemaOf t.commitMeta = schemaOf t.metadata :=
  schemaOf_foldl_setKeyGen _ _

/-- The payload decodes to the metadata that was committed. -/
def PayloadMeta (t : FsTxn) : Prop :=
  t.metaDirty = true → decodeMeta (encodeMeta t.commitMeta) = .ok t.commitMeta

/-- A payload that was packed into frames carries metadata that reads back. -/
theorem payloadMeta_of_encode {t : FsTxn} {cfg : FsConfig} {txnSeq : UInt64} {bs : List Bytes}
    (h : encodeTxnFramesLimited txnSeq t.ops cfg.maxFramePayload = .ok bs) : t.PayloadMeta := by
  intro hdirty
  have hmem : WalOp.metaReplace (encodeMeta t.commitMeta) ∈ t.ops := by
    rw [ops, buildCommitPayload, hdirty]
    simp
  have hlen := (length_of_encodeTxn h hmem).trans_lt cfg.fits
  have hbytes := length_le_writeBytes (encodeMeta t.commitMeta)
  rw [encodeOp, List.length_cons] at hlen
  exact decodeMeta_encodeMeta (by omega)

theorem decodes_dataOps {t : FsTxn} {op : WalOp} (h : op ∈ t.dataOps) : op.Decodes := by
  simp only [dataOps, List.mem_append, List.mem_map] at h
  rcases h with ⟨⟨k, _ | value⟩, -, rfl⟩ | ⟨⟨k, _ | _⟩, -, rfl⟩ | ⟨e, -, rfl⟩
  all_goals trivial

theorem decodes_ops {t : FsTxn} (h : t.PayloadMeta) : ∀ op ∈ t.ops, op.Decodes := by
  intro op hop
  rcases List.mem_append.mp hop with hop | hop
  · exact decodes_dataOps hop
  · split at hop
    next hdirty =>
      obtain rfl := List.mem_singleton.mp hop
      exact ⟨_, h hdirty⟩
    next => exact absurd hop List.not_mem_nil

/-- The operations of a transaction lay its pending changes over the view. -/
theorem foldl_ops {t : FsTxn} (h : t.PayloadMeta) (v : View) :
    t.ops.foldl View.apply v = t.effect v := by
  have hdata : t.dataOps.foldl View.apply v = { t.effect v with schema := v.schema } := by
    rw [dataOps, List.foldl_append, List.foldl_append, foldl_recordOp, foldl_indexOp]
    obtain ⟨hr, hi, hs⟩ := frame_foldl_keyGenSet
      { v with
        records := v.records.merge id t.pendingRecords
        indexEntries := v.indexEntries.merge presentSlot t.pendingIndexEntries }
      t.pendingKeyGenerators.entries
    refine View.ext hr hi (fun store => ?_) hs
    have hg := foldl_keyGenSet store t.pendingKeyGenerators.entries .empty
    have hm := OrderedMap.get?_merge some (.empty : OrderedMap StoreId F64Bits)
      t.pendingKeyGenerators store
    rw [OrderedMap.merge] at hm
    rw [OrderedMap.get?_empty] at hg
    rw [generator_foldl, hg, hm]
    cases h : t.pendingKeyGenerators.get? store <;> simp [effect, h]
  rw [ops, buildCommitPayload, List.foldl_append, hdata]
  cases hdirty : t.metaDirty with
  | false =>
      simp only [Bool.false_eq_true, if_false, List.foldl_nil]
      exact View.ext rfl rfl (fun _ => rfl) (by simp [effect, hdirty])
  | true =>
      simp only [if_true, List.foldl_cons, List.foldl_nil, View.apply, h hdirty,
        schemaOf_commitMeta]
      exact View.ext rfl rfl (fun _ => rfl) (by simp [effect, hdirty])

theorem foldl_onGenerator_of_leaves {store : StoreId} {ops : List WalOp}
    (h : LeavesGenerator store ops) (entry : Option F64Bits) :
    ops.foldl (WalOp.onGenerator store) entry = entry := by
  rw [foldl_onGenerator, foldl_onGenerator_eq_none_iff.mpr h, Option.none_or]

/-- The generator map under the pending one is the generator map through the operations. -/
theorem foldl_onGenerator_ops (t : FsTxn) (store : StoreId) (g : OrderedMap StoreId F64Bits) :
    t.ops.foldl (WalOp.onGenerator store) (g.get? store) =
      (g.merge some t.pendingKeyGenerators).get? store := by
  have hrecords : LeavesGenerator store (t.pendingRecords.entries.map recordOp) := by
    intro value hmem
    obtain ⟨⟨k, _ | v⟩, -, h⟩ := List.mem_map.mp hmem <;> cases h
  have hindex : LeavesGenerator store (t.pendingIndexEntries.entries.map indexOp) := by
    intro value hmem
    obtain ⟨⟨k, _ | _⟩, -, h⟩ := List.mem_map.mp hmem <;> cases h
  have hmeta : LeavesGenerator store
      (if t.metaDirty then [.metaReplace (encodeMeta t.commitMeta)] else []) := by
    intro value hmem
    split at hmem <;> simp at hmem
  rw [ops, buildCommitPayload, dataOps, List.foldl_append, List.foldl_append, List.foldl_append,
    foldl_onGenerator_of_leaves hmeta, foldl_onGenerator_of_leaves hrecords,
    foldl_onGenerator_of_leaves hindex, foldl_keyGenSet]
  rfl

/-- Every pending change is what the view has already. -/
structure ChangesNothing (t : FsTxn) (v : View) : Prop where
  records : ∀ k slot, t.pendingRecords.get? k = some slot → v.records.get? k = slot
  indexEntries : ∀ k present, t.pendingIndexEntries.get? k = some present →
    v.indexEntries.get? k = presentSlot present
  generators : ∀ store value, t.pendingKeyGenerators.get? store = some value →
    v.generator store = value
  schema : t.metaDirty = true → v.schema = some (schemaOf t.metadata)

theorem effect_eq_iff {t : FsTxn} {v : View} : t.effect v = v ↔ t.ChangesNothing v := by
  constructor
  · intro heq
    refine ⟨fun k slot hslot => ?_, fun k present hp => ?_, fun store value hvalue => ?_,
      fun hdirty => ?_⟩
    · have hk := congrArg (fun w => w.records.get? k) heq
      simp only [effect, OrderedMap.get?_merge, hslot] at hk
      exact hk.symm
    · have hk := congrArg (fun w => w.indexEntries.get? k) heq
      simp only [effect, OrderedMap.get?_merge, hp] at hk
      exact hk.symm
    · have hk := congrArg (fun w => w.generator store) heq
      simp only [effect, hvalue, Option.getD_some] at hk
      exact hk.symm
    · have hk := congrArg View.schema heq
      simp only [effect, hdirty, if_true] at hk
      exact hk.symm
  · intro h
    refine View.ext (OrderedMap.ext_get? fun k => ?_) (OrderedMap.ext_get? fun k => ?_)
      (fun store => ?_) ?_
    · simp only [effect, OrderedMap.get?_merge]
      cases hk : t.pendingRecords.get? k with
      | none => rfl
      | some slot => exact (h.records k slot hk).symm
    · simp only [effect, OrderedMap.get?_merge]
      cases hk : t.pendingIndexEntries.get? k with
      | none => rfl
      | some present => exact (h.indexEntries k present hk).symm
    · simp only [effect]
      cases hk : t.pendingKeyGenerators.get? store with
      | none => rfl
      | some value => exact (h.generators store value hk).symm
    · simp only [effect]
      split
      next hdirty => exact (h.schema hdirty).symm
      next => rfl

end FsTxn

end BoaIdb.Fs
