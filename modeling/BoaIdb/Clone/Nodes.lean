import BoaIdb.Clone.Nested
import BoaIdb.Lib.ReaderYields

/-!
The nodes of a value, and what each object kind makes of the values that it reads.

For every object kind the nodes of the result are told from those of the values that its calls
gave, and the calls stand behind input of their own where they fill a slot or a property.
-/

namespace BoaIdb

open Clone StreamReader

namespace ScValue

/-- The nodes of a value apart from those of the values nested in it: itself, its slots and
properties, and its bytes. -/
def ownNodes : ScValue → ℕ
  | .array elements extraProps => 1 + elements.length + extraProps.length
  | .object entries => 1 + entries.length
  | .arrayBuffer data _ => 1 + data.length
  | _ => 1

/-- The nodes of a value, those of a repeated value as often as it stands in it. -/
def nodes (v : ScValue) : ℕ :=
  v.ownNodes + (v.children.attach.map fun c => nodes c.1).sum
termination_by sizeOf v
decreasing_by exact sizeOf_children c.2

theorem nodes_eq (v : ScValue) : v.nodes = v.ownNodes + (v.children.map nodes).sum := by
  rw [nodes, List.attach_map_val]

theorem nodes_pos (v : ScValue) : 0 < v.nodes := by
  have hown : 0 < v.ownNodes := by
    cases v <;> simp only [ownNodes] <;> omega
  rw [nodes_eq]
  omega

end ScValue

namespace Clone

open ScValue (nodes nodes_eq nodes_pos)

/-! ### What the headers claim -/

/-- The number that a reader gives on a stream. -/
def announced (d : Decoder ℕ) (s : Stream (List ScValue)) : ℕ :=
  match d.run s with
  | .ok (n, _) => n
  | .error _ => 0

/-- The slots of an array without an item. -/
def holes : Decoder ℕ := do
  let length ← decodeUsize
  let itemsCount ← decodeUsize
  pure (length - itemsCount)

/-- The bytes of a buffer. -/
def bufferBytes : Decoder ℕ := do
  let _ ← decodeUsize
  decodeUsize

/-- The nodes that a memo reference brings besides its own. -/
def repeats : Decoder ℕ := do
  let idx ← decodeUvarint
  let memo ← getKept
  pure (memo[idx.toNat]?.elim 0 fun value => value.nodes - 1)

/-- The keys of the properties of an object. -/
def objectKeys (p : Decoder ScValue) : Decoder (List Utf16String) := do
  let count ← decodeUsize
  let props ← repeatRead (decodeProp p) count
  pure (props.map Prod.fst)

/-- The members whose key does not come again. -/
def lastOf {κ α : Type} [DecidableEq κ] : List κ → List α → List α
  | key :: keys, a :: as => if key ∈ keys then lastOf keys as else a :: lastOf keys as
  | _, _ => []

/-! ### Every call stands behind input -/

theorem length_lt_of_decodeUvarintLoop {input rest : Bytes} {shift result val : ℕ}
    (h : decodeUvarintLoop shift result input = .ok (val, rest)) : rest.length < input.length := by
  cases input with
  | nil => cases h
  | cons b input =>
      rw [decodeUvarintLoop] at h
      split at h
      · cases h
        exact Nat.lt_succ_self _
      · split at h
        · cases h
        · exact Nat.lt_succ_of_le (length_of_decodeUvarintLoop h)

theorem advances_decodeUvarint : Advances 1 decodeUvarint := by
  constructor
  intro s t v h
  simp only [StateT.run, decodeUvarint] at h
  split at h
  · cases h
  next val rest hloop =>
    cases h
    have hlt := length_lt_of_decodeUvarintLoop hloop
    show s.offset + 1 ≤ s.offset + (s.input.length - rest.length)
    omega

theorem advances_decodeUsize : Advances 1 decodeUsize :=
  advances_decodeUvarint.bind fun _ => advances_pure _

theorem advances_readByte : Advances 1 readByte := by
  constructor
  rintro ⟨offset, input, kept⟩ t b h
  cases input with
  | nil => cases h
  | cons b' rest =>
      cases h
      exact Nat.le_refl _

theorem advances_decodeStringUnits : Advances 1 decodeStringUnits := by
  have hunits (len : ℕ) : Plain 0 .overflow
      (if usizeBound ≤ len * 2 then fail (.corruptedPayload s!"String length overflows: {len}")
        else do
          let left ← remaining
          if left < len * 2 then fail .unexpectedEof else repeatRead readUnit len) :=
    plain_fail.ite <| plain_remaining.bind fun left => plain_fail.ite <|
      plain_repeatRead ((skips_readBytes 2).bind fun _ => plain_pure _) len
  exact advances_decodeUsize.bind fun len => (hunits len).advances

/-! ### The last of each key -/

section LastOf

variable {κ α β : Type} [DecidableEq κ]

theorem lastOf_map (f : α → β) : ∀ (keys : List κ) (l : List α),
    lastOf keys (l.map f) = (lastOf keys l).map f
  | [], l => rfl
  | key :: keys, [] => rfl
  | key :: keys, a :: l => by
      rw [List.map_cons, lastOf, lastOf, lastOf_map f keys l]
      split
      · rfl
      · rw [List.map_cons]

theorem lastOf_sublist : ∀ (keys : List κ) (l : List α), (lastOf keys l).Sublist l
  | [], l => List.nil_sublist l
  | key :: keys, [] => List.nil_sublist []
  | key :: keys, a :: l => by
      rw [lastOf]
      split
      · exact (lastOf_sublist keys l).cons a
      · exact (lastOf_sublist keys l).cons_cons a

end LastOf

/-! ### Nodes of what the loops build -/

theorem sum_succ {α : Type} (f : α → ℕ) (l : List α) :
    (l.map fun a => 1 + f a).sum = l.length + (l.map f).sum := by
  rw [List.sum_map_add, List.map_const', List.sum_replicate_nat, Nat.mul_one]

/-- An entry takes the place of the one with its key. -/
theorem sum_insertEntry (f : ScValue → ℕ) (keep : Utf16String → Bool) (key : Utf16String)
    (val : ScValue) {entries : List (Utf16String × ScValue)} (h : (entries.map Prod.fst).Nodup) :
    (((insertEntry entries key val).filter fun kv => keep kv.1).map fun kv => f kv.2).sum =
      ((entries.filter fun kv => keep kv.1 && kv.1 != key).map fun kv => f kv.2).sum +
        if keep key then f val else 0 := by
  induction entries with
  | nil => cases hkeep : keep key <;> simp [insertEntry, hkeep]
  | cons kv entries ih =>
      obtain ⟨k, v⟩ := kv
      obtain ⟨hnot, hrest⟩ := List.nodup_cons.mp h
      rw [insertEntry]
      by_cases hkey : k = key
      · subst hkey
        have hother : (entries.filter fun kv => keep kv.1 && kv.1 != k) =
            entries.filter fun kv => keep kv.1 := by
          refine List.filter_congr fun kv hkv => ?_
          have hmem : kv.1 ∈ entries.map Prod.fst := List.mem_map_of_mem hkv
          have hne : kv.1 ≠ k := fun heq => hnot (heq ▸ hmem)
          simp [hne]
        rw [if_pos rfl, List.filter_cons, List.filter_cons]
        cases hkeep : keep k <;> simp [hother, Nat.add_comm]
      · rw [if_neg hkey, List.filter_cons, List.filter_cons]
        have hne : (k != key) = true := bne_iff_ne.mpr hkey
        cases hkeep : keep k with
        | false => simpa using ih hrest
        | true =>
            simp only [hne, Bool.and_self, if_true, List.map_cons, List.sum_cons, ih hrest]
            omega

/-- The entries that an object ends with are the last of each key. -/
theorem sum_foldl_insertEntry {f : ScValue → ℕ} : ∀ {props entries : List (Utf16String × ScValue)},
    (entries.map Prod.fst).Nodup →
    ((props.foldl (fun entries kv => insertEntry entries kv.1 kv.2) entries).map fun kv =>
      f kv.2).sum =
      ((entries.filter fun kv => !(props.map Prod.fst).contains kv.1).map fun kv => f kv.2).sum +
        ((lastOf (props.map Prod.fst) (props.map Prod.snd)).map f).sum
  | [], entries, h => by simp [lastOf]
  | (key, val) :: props, entries, h => by
      rw [List.foldl_cons, sum_foldl_insertEntry (nodup_insertEntry h),
        sum_insertEntry f (fun k => !(props.map Prod.fst).contains k) key val h, List.map_cons,
        List.map_cons, lastOf]
      have hfilter : (entries.filter fun kv => !(key :: props.map Prod.fst).contains kv.1) =
          entries.filter fun kv => !(props.map Prod.fst).contains kv.1 && kv.1 != key := by
        refine List.filter_congr fun kv _ => ?_
        rw [List.contains_cons, Bool.not_or, Bool.and_comm]
        rfl
      rw [hfilter]
      by_cases hmem : key ∈ props.map Prod.fst
      · rw [if_pos hmem, if_neg (by simpa using hmem), Nat.add_zero]
      · rw [if_neg hmem, if_pos (by simpa using hmem), List.map_cons, List.sum_cons, Nat.add_assoc]

/-- A value that is put into a hole adds its nodes. -/
theorem sum_set_hole (f : ScValue → ℕ) (val : ScValue) :
    ∀ {elements : List (Option ScValue)} {index : ℕ}, index < elements.length →
      elements[index]?.getD none = none →
    ((elements.set index (some val)).reduceOption.map f).sum =
      (elements.reduceOption.map f).sum + f val
  | [], index, hlt, _ => absurd hlt (Nat.not_lt_zero _)
  | element :: elements, 0, _, hhole => by
      obtain rfl : element = none := hhole
      simp [Nat.add_comm]
  | none :: elements, index + 1, hlt, hhole => by
      have ih := sum_set_hole f val (Nat.lt_of_succ_lt_succ hlt) (by simpa using hhole)
      simpa using ih
  | some w :: elements, index + 1, hlt, hhole => by
      have ih := sum_set_hole f val (Nat.lt_of_succ_lt_succ hlt) (by simpa using hhole)
      simp [ih, Nat.add_assoc]

/-! ### What the calls of each object kind come to -/

section Bodies

variable {p : Decoder ScValue}

theorem collects_checked {α : Type} {gap count : ℕ} {next : Decoder α}
    {calls : Calls (List ScValue)}
    {post : α → List ScValue → Prop} (h : Collects p gap 0 next calls post) :
    Collects p gap 0 (checkCount count next) (checkedCalls count calls) post :=
  Collects.behind advances_remaining (Nat.le_refl _) fun _ => Collects.guarded fun _ => h

theorem run_checkCount_ok {α : Type} {count : ℕ} {next : Decoder α} {s : Stream (List ScValue)}
    {r : α × Stream (List ScValue)} (h : (checkCount count next).run s = .ok r) :
    next.run s = .ok r := by
  obtain ⟨left, u, hleft, h⟩ := run_bind_ok (b := r.1) (t := r.2) h
  cases hleft
  split at h
  · cases h
  · exact h

theorem checkedCalls_of_ok {α : Type} {count : ℕ} {next : Decoder α} {calls : Calls (List ScValue)}
    {s : Stream (List ScValue)} {r : α × Stream (List ScValue)}
    (h : (checkCount count next).run s = .ok r) : checkedCalls count calls s = calls s := by
  obtain ⟨left, u, hleft, h⟩ := run_bind_ok (b := r.1) (t := r.2) h
  rw [checkedCalls, after_of_ok hleft]
  cases hleft
  split at h
  · cases h
  next hle => rw [if_neg hle]

theorem collects_items (length : ℕ) : ∀ (count : ℕ) (elements : List (Option ScValue)),
    elements.length = length →
    Collects p 1 0 (decodeItems p length count elements) (itemCalls p length count elements)
      fun elements' bs => bs.length = count ∧ elements'.length = length ∧
        (elements'.reduceOption.map nodes).sum =
          (elements.reduceOption.map nodes).sum + (bs.map nodes).sum
  | 0, elements, hlength => collects_pure ⟨rfl, hlength, rfl⟩
  | count + 1, elements, hlength => by
      refine Collects.behind advances_decodeUsize (Nat.le_refl _) fun index => ?_
      refine Collects.guarded fun hindex => ?_
      refine collects_call.bind fun val bs hbs => ?_
      refine Collects.guarded fun hfree => ?_
      have hset : (elements.set index (some val)).length = length := by
        rw [List.length_set, hlength]
      refine (collects_items length count _ hset).imp ?_
      rintro elements' bs' ⟨hcount, hlength', hsum⟩
      have hhole : elements[index]?.getD none = none := by simpa using hfree
      rw [hbs, List.singleton_append]
      refine ⟨by rw [List.length_cons, hcount], hlength', ?_⟩
      rw [hsum, sum_set_hole nodes val (by omega) hhole, List.map_cons, List.sum_cons,
        Nat.add_assoc]

theorem collects_prop : Collects p 1 0 (decodeProp p) propCalls fun kv bs => bs = [kv.2] :=
  Collects.behind advances_decodeStringUnits (Nat.le_refl _) fun _ =>
    collects_call.before fun _ _ hbs => collects_pure (by rw [hbs]; rfl)

theorem collects_pair : Collects p 0 0 (decodePair p) (pairCalls p) fun kv bs =>
    bs = [kv.1, kv.2] :=
  collects_call.bind fun _ _ hk => collects_call.before fun _ _ hv =>
    collects_pure (by rw [hk, hv]; rfl)

theorem collects_set : Collects p 0 0 (decodeSetValue p) (setCalls p) fun v bs =>
    v.nodes = 1 + (bs.map nodes).sum :=
  Collects.behind advances_decodeUsize (Nat.zero_le _) fun count => collects_checked <|
    ((collects_call.repeated count).before fun values bs hbs => collects_pure (by
      rw [nodes_eq, hbs, List.flatMap_singleton', List.append_nil]
      rfl))

theorem collects_map : Collects p 0 0 (decodeMapValue p) (mapCalls p) fun v bs =>
    v.nodes = 1 + (bs.map nodes).sum :=
  Collects.behind advances_decodeUsize (Nat.zero_le _) fun count => collects_checked <|
    ((collects_pair.repeated count).before fun pairs bs hbs => collects_pure (by
      rw [nodes_eq, hbs, List.append_nil]
      rfl))

theorem collects_errors : Collects p 0 0 (decodeErrors p) (setCalls p) fun values bs =>
    bs = values :=
  Collects.behind advances_decodeUsize (Nat.zero_le _) fun count => collects_checked <|
    (collects_call.repeated count).imp fun values bs hbs => by
      rw [hbs, List.flatMap_singleton']

theorem collects_optional {α : Type} {present : Bool} {q : Decoder α} {calls : Calls (List ScValue)}
    {vals : α → List ScValue} (h : Collects p 0 0 q calls fun a bs => bs = vals a) :
    Collects p 0 0 (decodeOptional present q) (optionalCalls present calls) fun found bs =>
      bs = found.elim [] vals := by
  cases present with
  | false => exact collects_pure rfl
  | true =>
      exact h.before fun a bs hbs => collects_pure (by rw [hbs, List.append_nil]; rfl)

theorem collects_error : Collects p 0 0 (decodeErrorValue p) (errorCalls p) fun v bs =>
    v.nodes = 1 + (bs.map nodes).sum := by
  refine Collects.behind advances_readByte (Nat.zero_le _) fun kindByte => ?_
  cases ScErrorKind.fromU8 kindByte with
  | none => exact collects_throw
  | some kind =>
      refine Collects.behind advances_readByte (Nat.zero_le _) fun flags => ?_
      have hmessage : Advances 0 (decodeOptional (flags &&& 1 ≠ 0) decodeStringUnits) := by
        rw [decodeOptional]
        split
        · exact (advances_decodeStringUnits.bind fun _ => advances_pure _).weaken (Nat.zero_le _)
        · exact advances_pure none
      refine Collects.behind hmessage (Nat.zero_le _) fun message => ?_
      have hcause : Collects p 0 0 (decodeOptional (flags &&& 2 ≠ 0) p)
          (optionalCalls (flags &&& 2 ≠ 0) fun t => [t]) fun found bs =>
            bs = found.elim [] fun value => [value] :=
        collects_optional collects_call
      refine hcause.bind fun cause bs hbs => ?_
      refine (collects_optional collects_errors).before fun errors bs' hbs' => collects_pure ?_
      have hchildren : (ScValue.error kind message cause errors).children = bs ++ bs' := by
        rw [hbs, hbs']
        cases cause <;> cases errors <;> rfl
      rw [nodes_eq, hchildren, List.append_nil]
      rfl

theorem collects_typedArray : Collects p 0 0 (decodeTypedArrayValue p) typedArrayCalls fun v bs =>
    v.nodes = 1 + (bs.map nodes).sum := by
  refine Collects.behind advances_readByte (Nat.zero_le _) fun kindByte => ?_
  cases ScTypedArrayKind.fromU8 kindByte with
  | none => exact collects_throw
  | some kind =>
      refine Collects.behind advances_decodeUvarint (Nat.zero_le _) fun byteOffset => ?_
      refine Collects.behind advances_decodeUvarint (Nat.zero_le _) fun length => ?_
      refine collects_call.before fun buffer bs hbs => collects_pure ?_
      rw [nodes_eq, hbs]
      rfl

theorem collects_dataView : Collects p 0 0 (decodeDataViewValue p) dataViewCalls fun v bs =>
    v.nodes = 1 + (bs.map nodes).sum := by
  refine Collects.behind advances_decodeUvarint (Nat.zero_le _) fun byteOffset => ?_
  refine Collects.behind advances_decodeUvarint (Nat.zero_le _) fun byteLength => ?_
  refine collects_call.before fun buffer bs hbs => collects_pure ?_
  rw [nodes_eq, hbs]
  rfl

theorem nodes_boxedOf {subtag : UInt8} {inner value : ScValue}
    (h : boxedOf subtag inner = .ok value) :
    value.nodes = 1 := by
  have hbox : value.children = [] ∧ value.ownNodes = 1 := by
    unfold boxedOf at h
    split at h
    · cases inner <;> cases h
      exact ⟨rfl, rfl⟩
    split at h
    · cases inner <;> cases h
      exact ⟨rfl, rfl⟩
    split at h
    · cases inner <;> cases h
      exact ⟨rfl, rfl⟩
    · cases inner <;> cases h
      exact ⟨rfl, rfl⟩
  rw [nodes_eq, hbox.1, hbox.2]
  rfl

theorem collects_boxed : Collects p 0 0 (decodeBoxedValue p) boxedCalls fun v _ => v.nodes = 1 := by
  refine Collects.behind advances_readByte (Nat.zero_le _) fun subtag =>
    Collects.guarded fun _ => ?_
  refine collects_call.before fun inner bs _ => ?_
  cases hboxed : boxedOf subtag inner with
  | error e => exact collects_throw
  | ok value => exact collects_pure (nodes_boxedOf hboxed)

/-- The header of an array that passes its checks. -/
theorem run_decodeArrayHeader {limits : LimitConfig} {s t : Stream (List ScValue)}
    {length itemsCount : ℕ} (h : (decodeArrayHeader limits).run s = .ok ((length, itemsCount), t)) :
    ∃ u, decodeUsize.run s = .ok (length, u) ∧ decodeUsize.run u = .ok (itemsCount, t) ∧
      itemsCount ≤ length := by
  obtain ⟨length', u, hlength, h⟩ := run_bind_ok h
  obtain ⟨itemsCount', w, hcount, h⟩ := run_bind_ok h
  split at h
  · cases h
  split at h
  · cases h
  next hle =>
    have hpure := run_checkCount_ok h
    cases hpure
    exact ⟨u, hlength, hcount, not_lt.mp hle⟩

/-- An array has a slot for each item and for each hole. -/
theorem collects_array {limits : LimitConfig} {s t : Stream (List ScValue)} {v : ScValue}
    (h : (decodeArrayValue p env limits).run s = .ok (v, t)) :
    ∃ bs, Yields p 1 s.offset (arrayCalls p env limits s) bs t.offset ∧
      v.nodes = 1 + bs.length + announced holes s + (bs.map nodes).sum := by
  obtain ⟨⟨length, itemsCount⟩, w, hheader, h⟩ := run_bind_ok h
  obtain ⟨u, hlength, hcount, hle⟩ := run_decodeArrayHeader hheader
  have hholes : announced holes s = length - itemsCount := by
    rw [announced, holes, run_bind_of_ok hlength, run_bind_of_ok hcount]
    rfl
  have hstart : s.offset + 0 ≤ w.offset := by
    have hfirst := advances_decodeUsize.offset hlength
    have hsecond := advances_decodeUsize.offset hcount
    omega
  rw [arrayCalls, after_of_ok hheader]
  rw [hholes]
  apply Collects.gives ?_ h hstart
  refine Collects.guarded fun _ => ?_
  have hitems := collects_items (p := p) length itemsCount (List.replicate length none)
    List.length_replicate
  refine hitems.bind fun elements bs hbs => ?_
  refine Collects.behind advances_decodeUsize (Nat.zero_le _) fun extraCount => collects_checked ?_
  refine (collects_prop.repeated extraCount).before fun extraProps bs' hbs' => collects_pure ?_
  obtain ⟨hcount, hlength, hsum⟩ := hbs
  have hnone : (List.replicate length (none : Option ScValue)).reduceOption = [] :=
    List.reduceOption_replicate_none
  have hprops : bs' = extraProps.map Prod.snd := by
    rw [hbs']
    exact List.flatMap_pure_eq_map Prod.snd extraProps
  have hchildren : ((ScValue.array elements extraProps).children.map nodes).sum =
      (bs.map nodes).sum + (bs'.map nodes).sum := by
    rw [ScValue.children, List.map_append, List.sum_append, hsum, hnone, hprops]
    rw [List.map_nil, List.sum_nil, Nat.zero_add]
  have hextra : bs'.length = extraProps.length := by rw [hprops, List.length_map]
  have hown : (ScValue.array elements extraProps).ownNodes = 1 + length + extraProps.length := by
    rw [ScValue.ownNodes, hlength]
  rw [nodes_eq, hown, hchildren, List.append_nil, List.map_append, List.sum_append,
    List.length_append]
  omega

/-- An object keeps the last of each key. -/
theorem collects_object {s t : Stream (List ScValue)} {v : ScValue}
    (h : (decodeObjectValue p).run s = .ok (v, t)) :
    ∃ keys u bs, (objectKeys p).run s = .ok (keys, u) ∧
      Yields p 1 s.offset (objectCalls p s) bs t.offset ∧
      v.nodes = 1 + ((lastOf keys bs).map fun b => 1 + b.nodes).sum := by
  obtain ⟨count, u, hcount, h⟩ := run_bind_ok h
  obtain ⟨props, w, hprops, hpure⟩ := run_bind_ok (run_checkCount_ok h)
  cases hpure
  have hkeys : (objectKeys p).run s = .ok (props.map Prod.fst, t) := by
    rw [objectKeys, run_bind_of_ok hcount, run_bind_of_ok hprops]
    rfl
  have hstart : s.offset + 0 ≤ u.offset :=
    (advances_decodeUsize.weaken (Nat.zero_le 1)).offset hcount
  obtain ⟨bs, hyields, hbs⟩ := (collects_prop.repeated count).gives hprops hstart
  have hvals : bs = props.map Prod.snd := by
    rw [hbs]
    exact List.flatMap_pure_eq_map Prod.snd props
  refine ⟨props.map Prod.fst, t, bs, hkeys, ?_, ?_⟩
  · rwa [objectCalls, after_of_ok hcount, checkedCalls_of_ok h]
  · have hsum := @sum_foldl_insertEntry (fun b => 1 + nodes b) props [] List.nodup_nil
    rw [List.filter_nil, List.map_nil, List.sum_nil, Nat.zero_add] at hsum
    rw [hvals, ← hsum, sum_succ, nodes_eq]
    rw [ScValue.ownNodes, ScValue.children, List.map_map, Nat.add_assoc]
    rfl

theorem collects_buffer {s t : Stream (List ScValue)} {v : ScValue}
    (h : decodeArrayBufferData.run s = .ok (v, t)) :
    v.nodes = 1 + announced bufferBytes s ∧ s.offset + announced bufferBytes s ≤ t.offset := by
  obtain ⟨raw, u, hraw, h⟩ := run_bind_ok h
  obtain ⟨byteLen, w, hlen, h⟩ := run_bind_ok h
  obtain ⟨data, x, hdata, hpure⟩ := run_bind_ok h
  cases hpure
  have hclaim : announced bufferBytes s = byteLen := by
    rw [announced, bufferBytes, run_bind_of_ok hraw, hlen]
  have hlength : data.length = byteLen := by
    exact length_of_takeBytes hdata
  rw [hclaim, nodes_eq]
  refine ⟨by rw [ScValue.ownNodes, hlength]; rfl, ?_⟩
  have hfirst := advances_decodeUsize.offset hraw
  have hsecond := advances_decodeUsize.offset hlen
  have hthird := advances_takeBytes.offset hdata
  omega

end Bodies

/-! ### The leaves -/

section Leaves

variable {env : CodecEnv} {limits : LimitConfig} {p : Decoder ScValue}
  {s t : Stream (List ScValue)} {v : ScValue}

theorem nodes_of_leaf (hchildren : v.children = []) (hown : v.ownNodes = 1) : v.nodes = 1 := by
  rw [nodes_eq, hchildren, hown]
  rfl

/-- What is read is one node. -/
structure Single (d : Decoder ScValue) : Prop where
  nodes : ∀ {s t : Stream (List ScValue)} {v : ScValue}, d.run s = .ok (v, t) → v.nodes = 1

theorem single_pure (hchildren : v.children = []) (hown : v.ownNodes = 1) :
    Single (pure v : Decoder ScValue) := by
  constructor
  intro s t w h
  cases h
  exact nodes_of_leaf hchildren hown

theorem single_fail {e : ScError} : Single (fail e) := by
  constructor
  intro s t w h
  cases h

theorem single_bind {α : Type} {d : Decoder α} {f : α → Decoder ScValue} (h : ∀ a, Single (f a)) :
    Single (d >>= f) := by
  constructor
  intro s t w hrun
  obtain ⟨a, u, -, hf⟩ := run_bind_ok hrun
  exact (h a).nodes hf

theorem single_ite {c : Prop} [Decidable c] {d d' : Decoder ScValue} (h : c → Single d)
    (h' : ¬ c → Single d') : Single (if c then d else d') := by
  by_cases hc : c
  · rw [if_pos hc]
    exact h hc
  · rw [if_neg hc]
    exact h' hc

/-- A tag without a slot, other than a memo reference, is a value of one node. -/
theorem single_decodeTagged {tag : UInt8} (hobject : isObjectTag tag = false)
    (hmemo : tag ≠ tagMemoRef) : Single (decodeTagged env limits p tag) := by
  have hother {other : UInt8} {d : Decoder ScValue} (hslot : isObjectTag other = true)
      (htag : tag = other) : Single d := by
    rw [htag, hslot] at hobject
    cases hobject
  -- undefined, null, false and true
  refine single_ite (fun _ => single_pure rfl rfl) fun _ =>
    single_ite (fun _ => single_pure rfl rfl)
    fun _ => single_ite (fun _ => single_pure rfl rfl) fun _ =>
    single_ite (fun _ => single_pure rfl rfl) fun _ => ?_
  -- int32, double, string, bigint and date
  refine single_ite (fun _ => single_bind fun _ => single_pure rfl rfl) fun _ =>
    single_ite (fun _ => single_bind fun _ => single_pure rfl rfl) fun _ =>
    single_ite (fun _ => single_bind fun _ => single_pure rfl rfl) fun _ =>
    single_ite (fun _ => single_bind fun _ => single_pure rfl rfl) fun _ =>
    single_ite (fun _ => single_bind fun _ => single_pure rfl rfl) fun _ => ?_
  -- regexp
  refine single_ite (fun _ => single_bind fun _ => single_bind fun _ =>
    single_ite (fun _ => single_fail) fun _ => single_pure rfl rfl) fun _ => ?_
  -- the object kinds
  refine single_ite (hother rfl) fun _ => single_ite (hother rfl) fun _ =>
    single_ite (hother rfl) fun _ => single_ite (hother rfl) fun _ =>
      single_ite (hother rfl) fun _ =>
    single_ite (hother rfl) fun _ => single_ite (hother rfl) fun _ =>
      single_ite (hother rfl) fun _ =>
    single_ite (hother rfl) fun _ => ?_
  exact single_ite (fun htag => absurd htag hmemo) fun _ =>
    single_ite (fun _ => single_fail) fun _ =>
    single_fail

/-- A memo reference is the node of its entry and the others that this brings. -/
theorem nodes_decodeMemoRef (h : decodeMemoRef.run s = .ok (v, t)) :
    v.nodes = 1 + announced repeats s := by
  obtain ⟨idx, u, hidx, h⟩ := run_bind_ok h
  obtain ⟨memo, w, hmemo, h⟩ := run_bind_ok h
  cases hentry : memo[idx.toNat]? with
  | none =>
      rw [hentry] at h
      cases h
  | some value =>
      rw [hentry] at h
      cases h
      have hbrings : announced repeats s = v.nodes - 1 := by
        rw [announced, repeats, run_bind_of_ok hidx, run_bind_of_ok hmemo, hentry]
        rfl
      have hpos := nodes_pos v
      omega

end Leaves

end Clone

end BoaIdb
