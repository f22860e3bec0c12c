import BoaIdb.Clone.MemoAlignment
import BoaIdb.Clone.Nodes

/-!
How many nodes the decoder makes of its input.

A node that is read from the input takes a byte of it. The nodes that take none come from two
places: the slots that an array claims without an item for them, and the values that a memo
reference repeats. `paid` and `unpaid` follow the visits of a run and count both sorts, in what
is left of the values at the end.
-/

namespace BoaIdb

open Clone StreamReader

namespace Clone

open ScValue (nodes nodes_eq nodes_pos)

/-! ### Counting along the visits -/

namespace Visit

def tag (w : Visit) : Option UInt8 := w.stream.input.head?

/-- Behind the tag, with the memo table as it is. -/
def behindTag (w : Visit) : Stream (List ScValue) :=
  ⟨w.stream.offset + 1, w.stream.input.tail, w.stream.kept⟩

end Visit

section Counts

variable (env : CodecEnv) (limits : LimitConfig)

/-- The keys that are read for an object. -/
def keysRead (levels : ℕ) (w : Visit) : List Utf16String :=
  match (objectKeys (decodeValueLevels env limits levels)).run w.opened with
  | .ok (keys, _) => keys
  | .error _ => []

/-- The values entered from here that stand in the result: a later property of an object takes
the place of one with its key, and a boxed primitive is no value of its own. -/
def standing (levels : ℕ) (w : Visit) : List Visit :=
  if w.tag = some tagObject then lastOf (keysRead env limits levels w) (nested env limits levels w)
  else if w.tag = some tagBoxed then []
  else nested env limits levels w

/-- The nodes that input was read for: the value, its items and properties, and its bytes. -/
def ownPaid (levels : ℕ) (w : Visit) : ℕ :=
  if w.tag = some tagArray ∨ w.tag = some tagObject then 1 + (standing env limits levels w).length
  else if w.tag = some tagArrayBuffer then 1 + announced bufferBytes w.opened
  else 1

/-- The nodes that no input was read for. -/
def ownUnpaid (w : Visit) : ℕ :=
  if w.tag = some tagArray then announced holes w.opened
  else if w.tag = some tagMemoRef then announced repeats w.behindTag
  else 0

/-- The nodes with input of their own, in all values that stand in the result. -/
def paid : ℕ → Visit → ℕ
  | 0, _ => 0
  | levels + 1, w =>
      ownPaid env limits levels w + ((standing env limits levels w).map (paid levels)).sum

/-- The nodes without input of their own. -/
def unpaid : ℕ → Visit → ℕ
  | 0, _ => 0
  | levels + 1, w => ownUnpaid w + ((standing env limits levels w).map (unpaid levels)).sum

/-- The nodes of a document with input of their own. -/
def scfPaid (data : Bytes) : ℕ := paid env limits (limits.maxCloneDepth + 1) (scfStart data)

/-- The nodes of a document that arrays claim as holes and memo references repeat. -/
def scfUnpaid (data : Bytes) : ℕ := unpaid env limits (limits.maxCloneDepth + 1) (scfStart data)

/-- The slots that an array claims here without an item for them. -/
def Visit.holes (w : Visit) : ℕ := if w.tag = some tagArray then announced Clone.holes w.opened
    else 0

/-- The holes that all arrays of a document claim together. -/
def scfHoles (data : Bytes) : ℕ := ((scfVisits env limits data).map Visit.holes).sum

/-- Every memo reference that is read refers to an object that it stands in. -/
def OpenReferences (data : Bytes) : Prop :=
  ∀ w ∈ scfVisits env limits data, ∀ i, w.refersTo = some i → i ∈ w.within

end Counts

/-! ### A whole run -/

section Runs

variable {env : CodecEnv} {limits : LimitConfig}

/-- The value read at a visit has the nodes that were counted along it, and no fewer bytes were
read than were paid with. -/
structure Reckoned (env : CodecEnv) (limits : LimitConfig) (levels : ℕ) (w : Visit) (v : ScValue)
    (t : Stream (List ScValue)) : Prop where
  nodes : v.nodes = paid env limits levels w + unpaid env limits levels w
  bytes : w.stream.offset + paid env limits levels w ≤ t.offset

theorem nested_eq {levels : ℕ} {w : Visit} {tag : UInt8} {rest : Bytes}
    (hs : w.stream.input = tag :: rest) (htag : isObjectTag tag = true) :
    nested env limits levels w =
      (bodyCalls (decodeValueLevels env limits levels) env limits tag w.opened).map w.child :=
  nested_object hs htag

theorem tag_eq {w : Visit} {tag : UInt8} {rest : Bytes} (hs : w.stream.input = tag :: rest) :
    w.tag = some tag := by
  rw [Visit.tag, hs]
  rfl

/-- The counts at the calls of a visit. -/
structure Tallied (env : CodecEnv) (limits : LimitConfig) (levels gap start stop : ℕ)
    (inner : List Visit) (bs : List ScValue) : Prop where
  nodes : bs.map nodes = inner.map fun u => paid env limits levels u + unpaid env limits levels u
  bytes : start + (inner.map fun u => gap + paid env limits levels u).sum ≤ stop

theorem tallied {levels gap start stop : ℕ} {w : Visit} {calls : List (Stream (List ScValue))}
    {bs : List ScValue}
    (ih : ∀ {w : Visit} {v : ScValue} {t : Stream (List ScValue)},
      (decodeValueLevels env limits levels).run w.stream = .ok (v, t) →
        Reckoned env limits levels w v t)
    (h : Yields (decodeValueLevels env limits levels) gap start calls bs stop) :
    Tallied env limits levels gap start stop (calls.map w.child) bs := by
  constructor
  · rw [List.map_map]
    exact h.measured fun hrun => (ih (w := w.child _) hrun).nodes
  · rw [List.map_map]
    exact h.spends fun hrun => (ih (w := w.child _) hrun).bytes

theorem reckoned_of_sums {levels : ℕ} {w : Visit} {v : ScValue} {t : Stream (List ScValue)}
    (hnodes : v.nodes = ownPaid env limits levels w + ownUnpaid w +
      ((standing env limits levels w).map fun u =>
        paid env limits levels u + unpaid env limits levels u).sum)
    (hbytes : w.stream.offset + ownPaid env limits levels w +
      ((standing env limits levels w).map (paid env limits levels)).sum ≤ t.offset) :
    Reckoned env limits (levels + 1) w v t := by
  rw [List.sum_map_add] at hnodes
  constructor
  · rw [paid, unpaid, hnodes]
    omega
  · rw [paid]
    omega

section Kinds

variable {levels : ℕ} {w : Visit} {rest : Bytes} {v : ScValue} {t : Stream (List ScValue)}
  (ih : ∀ {w : Visit} {v : ScValue} {t : Stream (List ScValue)},
    (decodeValueLevels env limits levels).run w.stream = .ok (v, t) →
      Reckoned env limits levels w v t)

include ih

/-- The kinds whose nested values all stand in the result, with no other nodes. -/
theorem reckoned_nested {tag : UInt8} {d : Decoder ScValue} {calls : Calls (List ScValue)}
    (hs : w.stream.input = tag :: rest) (htag : isObjectTag tag = true)
    (hcollects : Collects (decodeValueLevels env limits levels) 0 0 d calls fun v bs =>
      v.nodes = 1 + (bs.map nodes).sum)
    (hcalls : bodyCalls (decodeValueLevels env limits levels) env limits tag = calls)
    (hkind : tag ≠ tagArray ∧ tag ≠ tagObject ∧ tag ≠ tagArrayBuffer ∧ tag ≠ tagBoxed ∧
      tag ≠ tagMemoRef)
    (h : d.run w.opened = .ok (v, t)) : Reckoned env limits (levels + 1) w v t := by
  obtain ⟨harray, hobject, hbuffer, hboxed, hmemo⟩ := hkind
  have hw := tag_eq hs
  have hpaid : ownPaid env limits levels w = 1 := by
    simp [ownPaid, hw, harray, hobject, hbuffer]
  have hunpaid : ownUnpaid w = 0 := by
    simp [ownUnpaid, hw, harray, hmemo]
  have hstanding : standing env limits levels w = (calls w.opened).map w.child := by
    simp [standing, hw, hobject, hboxed, nested_eq hs htag, hcalls]
  obtain ⟨bs, hyields, hnodes⟩ := hcollects.gives h (Nat.le_refl _)
  have htally := tallied (w := w) ih hyields
  rw [← hstanding] at htally
  apply reckoned_of_sums
  · rw [hnodes, htally.nodes, hpaid, hunpaid]
  · have hbytes := htally.bytes
    simp only [Nat.zero_add] at hbytes
    rw [hpaid]
    exact hbytes

/-- An array has a slot for each item, and the holes. -/
theorem reckoned_array (hs : w.stream.input = tagArray :: rest)
    (h : (decodeArrayValue (decodeValueLevels env limits levels) env limits).run w.opened =
      .ok (v, t)) :
    Reckoned env limits (levels + 1) w v t := by
  have hw := tag_eq hs
  obtain ⟨bs, hyields, hnodes⟩ := collects_array h
  have hstanding : standing env limits levels w =
      (arrayCalls (decodeValueLevels env limits levels) env limits w.opened).map w.child := by
    rw [standing, hw, if_neg (by decide), if_neg (by decide), nested_eq hs rfl]
    rfl
  have hpaid : ownPaid env limits levels w = 1 + bs.length := by
    rw [ownPaid, hw, if_pos (.inl rfl), hstanding, List.length_map, hyields.length]
  have hunpaid : ownUnpaid w = announced holes w.opened := by
    rw [ownUnpaid, hw, if_pos rfl]
  have htally := tallied (w := w) ih hyields
  rw [← hstanding] at htally
  apply reckoned_of_sums
  · rw [hnodes, htally.nodes, hpaid, hunpaid]
  · have hbytes := htally.bytes
    have hlength : (standing env limits levels w).length = bs.length := by
      rw [hstanding, List.length_map, hyields.length]
    have hopened : w.opened.offset = w.stream.offset + 1 := rfl
    rw [sum_succ] at hbytes
    omega

/-- An object has the last property of each key. -/
theorem reckoned_object (hs : w.stream.input = tagObject :: rest)
    (h : (decodeObjectValue (decodeValueLevels env limits levels)).run w.opened = .ok (v, t)) :
    Reckoned env limits (levels + 1) w v t := by
  have hw := tag_eq hs
  obtain ⟨keys, u, bs, hkeys, hyields, hnodes⟩ := collects_object h
  have htally := tallied (w := w) ih hyields
  have hread : keysRead env limits levels w = keys := by
    rw [keysRead, hkeys]
  have hstanding : standing env limits levels w = lastOf keys
      ((objectCalls (decodeValueLevels env limits levels) w.opened).map w.child) := by
    rw [standing, hw, if_pos rfl, hread, nested_eq hs rfl]
    rfl
  have hpaid : ownPaid env limits levels w = 1 + (standing env limits levels w).length := by
    rw [ownPaid, hw, if_pos (.inr rfl)]
  have hunpaid : ownUnpaid w = 0 := by
    rw [ownUnpaid, hw, if_neg (by decide), if_neg (by decide)]
  -- of the entries with one name the last stays
  have hsum : ((lastOf keys bs).map nodes).sum = ((standing env limits levels w).map fun u =>
      paid env limits levels u + unpaid env limits levels u).sum := by
    rw [← lastOf_map, htally.nodes, lastOf_map, hstanding]
  have hlength : (lastOf keys bs).length = (standing env limits levels w).length := by
    have hcount := congrArg List.length (lastOf_map nodes keys bs)
    rw [htally.nodes, lastOf_map, List.length_map, List.length_map] at hcount
    rw [hstanding, ← hcount]
  apply reckoned_of_sums
  · rw [hnodes, sum_succ, hsum, hlength, hpaid, hunpaid]
    omega
  · have hbytes := htally.bytes
    have hlast := lastOf_sublist keys
      ((objectCalls (decodeValueLevels env limits levels) w.opened).map w.child)
    have hsub := (hlast.map fun u => 1 + paid env limits levels u).sum_le_sum fun n _ =>
      Nat.zero_le n
    have hopened : w.opened.offset = w.stream.offset + 1 := rfl
    rw [← hstanding, sum_succ] at hsub
    omega

/-- A box is one node with its primitive. -/
theorem reckoned_boxed (hs : w.stream.input = tagBoxed :: rest)
    (h : (decodeBoxedValue (decodeValueLevels env limits levels)).run w.opened = .ok (v, t)) :
    Reckoned env limits (levels + 1) w v t := by
  have hw := tag_eq hs
  obtain ⟨bs, hyields, hnodes⟩ := collects_boxed.gives h (Nat.le_refl _)
  have hpaid : ownPaid env limits levels w = 1 := by
    rw [ownPaid, hw, if_neg (by decide), if_neg (by decide)]
  have hunpaid : ownUnpaid w = 0 := by
    rw [ownUnpaid, hw, if_neg (by decide), if_neg (by decide)]
  have hstanding : standing env limits levels w = [] := by
    rw [standing, hw, if_neg (by decide), if_pos rfl]
  have hbytes := (tallied (w := w) ih hyields).bytes
  have hopened : w.opened.offset = w.stream.offset + 1 := rfl
  apply reckoned_of_sums
  · rw [hnodes, hpaid, hunpaid, hstanding]
    rfl
  · rw [hpaid, hstanding, List.map_nil, List.sum_nil]
    omega

omit ih in
/-- A buffer has its bytes. -/
theorem reckoned_buffer (hs : w.stream.input = tagArrayBuffer :: rest)
    (h : decodeArrayBufferData.run w.opened = .ok (v, t)) :
    Reckoned env limits (levels + 1) w v t := by
  have hw := tag_eq hs
  obtain ⟨hnodes, hbytes⟩ := collects_buffer h
  have hpaid : ownPaid env limits levels w = 1 + announced bufferBytes w.opened := by
    rw [ownPaid, hw, if_neg (by decide), if_pos rfl]
  have hunpaid : ownUnpaid w = 0 := by
    rw [ownUnpaid, hw, if_neg (by decide), if_neg (by decide)]
  have hstanding : standing env limits levels w = [] := by
    rw [standing, hw, if_neg (by decide), if_neg (by decide), nested_eq hs rfl]
    rfl
  have hopened : w.opened.offset = w.stream.offset + 1 := rfl
  apply reckoned_of_sums
  · rw [hnodes, hpaid, hunpaid, hstanding]
    rfl
  · rw [hpaid, hstanding, List.map_nil, List.sum_nil]
    omega

/-- What an object kind reads. -/
theorem reckoned_body {tag : UInt8} (hs : w.stream.input = tag :: rest)
    (htag : isObjectTag tag = true)
    (h : (decodeBody (decodeValueLevels env limits levels) env limits tag).run w.opened =
      .ok (v, t)) :
    Reckoned env limits (levels + 1) w v t := by
  rcases isObjectTag_cases htag with rfl | rfl | rfl | rfl | rfl | rfl | rfl | rfl | rfl
  · exact reckoned_array ih hs h
  · exact reckoned_object ih hs h
  · exact reckoned_nested ih hs rfl collects_map rfl (by decide) h
  · exact reckoned_nested ih hs rfl collects_set rfl (by decide) h
  · exact reckoned_nested ih hs rfl collects_error rfl (by decide) h
  · exact reckoned_buffer hs h
  · exact reckoned_nested ih hs rfl collects_typedArray rfl (by decide) h
  · exact reckoned_nested ih hs rfl collects_dataView rfl (by decide) h
  · exact reckoned_boxed ih hs h

end Kinds

theorem reckoned_leaf {levels : ℕ} {w : Visit} {tag : UInt8} {rest : Bytes} {p : Decoder ScValue}
    {v : ScValue} {t : Stream (List ScValue)} (hs : w.stream.input = tag :: rest)
    (htag : isObjectTag tag = false)
    (h : (decodeTagged env limits p tag).run ⟨w.stream.offset + 1, rest, w.stream.kept⟩ =
      .ok (v, t)) :
    Reckoned env limits (levels + 1) w v t := by
  have hw := tag_eq hs
  have hne (other : UInt8) (hslot : isObjectTag other = true) : tag ≠ other := by
    rintro rfl
    rw [hslot] at htag
    cases htag
  have harray := hne tagArray rfl
  have hobject := hne tagObject rfl
  have hbuffer := hne tagArrayBuffer rfl
  have hboxed := hne tagBoxed rfl
  have hpaid : ownPaid env limits levels w = 1 := by
    simp [ownPaid, hw, harray, hobject, hbuffer]
  have hstanding : standing env limits levels w = [] := by
    simp [standing, hw, hobject, hboxed, nested_leaf, isObject_of_cons hs, htag]
  have hplain : Plain 0 .overflow (decodeTagged env limits p tag) :=
    plain_decodeTagged env limits p (by decide) htag fun _ => rfl
  have hskips := hplain.skips h
  -- a reference repeats the nodes of its object; any other leaf is one node
  have hnodes : v.nodes = 1 + ownUnpaid w := by
    by_cases hmemo : tag = tagMemoRef
    · subst hmemo
      have hbehind : w.behindTag = ⟨w.stream.offset + 1, rest, w.stream.kept⟩ := by
        rw [Visit.behindTag, hs, List.tail_cons]
      rw [ownUnpaid, hw, if_neg (by decide), if_pos rfl, hbehind]
      exact nodes_decodeMemoRef h
    · have hunpaid : ownUnpaid w = 0 := by
        simp [ownUnpaid, hw, harray, hmemo]
      rw [hunpaid]
      exact (single_decodeTagged htag hmemo).nodes h
  apply reckoned_of_sums
  · rw [hnodes, hpaid, hstanding]
    rfl
  · rw [hpaid, hstanding, List.map_nil, List.sum_nil]
    exact hskips.offset

/-- The nodes of what is read at a visit, by the recursion of the decoder. -/
theorem reckoned : ∀ {levels : ℕ} {w : Visit} {v : ScValue} {t : Stream (List ScValue)},
    (decodeValueLevels env limits levels).run w.stream = .ok (v, t) →
      Reckoned env limits levels w v t
  | 0, w, v, t, h => by cases h
  | levels + 1, w, v, t, h => by
      cases hs : w.stream.input with
      | nil =>
          rw [run_empty hs] at h
          cases h
      | cons tag rest =>
          have hw := tag_eq hs
          cases htag : isObjectTag tag with
          | true =>
              rw [run_object hs htag] at h
              cases hbody :
                  (decodeBody (decodeValueLevels env limits levels) env limits tag).run
                    w.opened with
              | error e =>
                  rw [hbody] at h
                  cases h
              | ok r =>
                  rw [hbody] at h
                  cases h
                  obtain ⟨hnodes, hbytes⟩ := reckoned_body reckoned hs htag hbody
                  exact ⟨hnodes, hbytes⟩
          | false =>
              rw [run_leaf hs] at h
              exact reckoned_leaf hs htag h

theorem framed_of_ok {data : Bytes} {v : ScValue} (h : decodeScf env limits data = .ok v) :
    Framed limits data := by
  by_contra hnot
  obtain ⟨e, herror⟩ := decodeScf_not_framed env limits hnot
  rw [herror] at h
  cases h

/-- A document has the nodes that are counted for it. -/
theorem nodes_decodeScf {data : Bytes} {v : ScValue} (h : decodeScf env limits data = .ok v) :
    v.nodes = scfPaid env limits data + scfUnpaid env limits data ∧
      scfPaid env limits data ≤ data.length := by
  rw [decodeScf_framed env limits (framed_of_ok h)] at h
  cases hrun : (scfStart data).result env limits with
  | error e =>
      rw [hrun] at h
      cases h
  | ok r =>
      rw [hrun] at h
      cases h
      rw [Visit.result, scfStart, decodeValueDepth, Nat.sub_zero] at hrun
      obtain ⟨hnodes, hbytes⟩ := reckoned (w := scfStart data) hrun
      refine ⟨hnodes, ?_⟩
      have htotal : r.2.total = (scfStart data).stream.total := total_of_run hrun
      have hpayload : (scfPayload data).length ≤ data.length := by
        rw [scfPayload, List.length_drop, List.length_take]
        omega
      have hend : r.2.offset ≤ r.2.total := Nat.le_add_right _ _
      have hstart : (scfStart data).stream.total = (scfPayload data).length := Nat.zero_add _
      rw [scfPaid]
      omega

theorem standing_sublist (env : CodecEnv) (limits : LimitConfig) (levels : ℕ) (w : Visit) :
    (standing env limits levels w).Sublist (nested env limits levels w) := by
  rw [standing]
  split
  · exact lastOf_sublist _ _
  · split
    · exact List.nil_sublist _
    · exact List.Sublist.refl _

theorem unpaid_le_visits (env : CodecEnv) (limits : LimitConfig) : ∀ (levels : ℕ) (w : Visit),
    unpaid env limits levels w ≤ ((visits env limits levels w).map ownUnpaid).sum
  | 0, w => Nat.le_refl 0
  | levels + 1, w => by
      have hkept :=
        ((standing_sublist env limits levels w).map (unpaid env limits levels)).sum_le_sum
        fun n _ => Nat.zero_le n
      have hbelow : ((nested env limits levels w).map (unpaid env limits levels)).sum ≤
          ((nested env limits levels w).map fun u =>
            ((visits env limits levels u).map ownUnpaid).sum).sum :=
        List.sum_le_sum fun u _ => unpaid_le_visits env limits levels u
      rw [unpaid, visits, List.map_cons, List.sum_cons, List.map_flatMap, List.flatMap_def,
        List.sum_flatten, List.map_map]
      exact Nat.add_le_add_left (hkept.trans hbelow) _

/-- Whatever an accepted document enters, its nodes are at most its bytes and what the arrays and
memo references among the values entered bring besides. -/
theorem nodes_le_visits {data : Bytes} {v : ScValue} (h : decodeScf env limits data = .ok v) :
    v.nodes ≤ data.length + ((scfVisits env limits data).map ownUnpaid).sum := by
  obtain ⟨hnodes, hpaid⟩ := nodes_decodeScf h
  have hvisits : scfVisits env limits data =
      visits env limits (limits.maxCloneDepth + 1) (scfStart data) :=
    if_pos (framed_of_ok h)
  have hunpaid := unpaid_le_visits env limits (limits.maxCloneDepth + 1) (scfStart data)
  rw [hvisits, hnodes, scfUnpaid]
  omega

/-! ### Documents without the two gaps -/

/-- A reference to an object around it brings the placeholder, which is one node. -/
theorem repeats_of_within {data : Bytes} {w : Visit}
    (hw : w ∈ visits env limits (limits.maxCloneDepth + 1) (scfStart data))
    (hopen : ∀ i, w.refersTo = some i → i ∈ w.within) (htag : w.tag = some tagMemoRef) :
    announced repeats w.behindTag = 0 := by
  obtain ⟨before, behind, hsplit, hkept, -⟩ := start_visits hw
  obtain ⟨rest, hs⟩ : ∃ rest, w.stream.input = tagMemoRef :: rest := by
    cases hs : w.stream.input with
    | nil =>
        rw [Visit.tag, hs] at htag
        cases htag
    | cons tag rest =>
        rw [tag_eq hs] at htag
        exact ⟨rest, by rw [Option.some.inj htag]⟩
  have hbehind : w.behindTag = ⟨w.stream.offset + 1, rest, w.stream.kept⟩ := by
    rw [Visit.behindTag, hs, List.tail_cons]
  rw [announced, repeats, hbehind]
  cases hidx : decodeUvarint.run ⟨w.stream.offset + 1, rest, w.stream.kept⟩ with
  | error e => rw [run_bind_of_error hidx]
  | ok r =>
      obtain ⟨idx, t⟩ := r
      have hrefers : w.refersTo = some idx.toNat := by
        rw [Visit.refersTo, hs]
        dsimp only
        rw [if_pos rfl, hidx]
      have hplain : Plain 0 .overflow decodeUvarint := plain_decodeUvarint
      have hsame : t.kept = w.stream.kept := (hplain.skips hidx).kept
      rw [run_bind_of_ok hidx]
      show (t.kept[idx.toNat]?.elim 0 fun value => value.nodes - 1) = 0
      rw [hsame, hkept, List.getElem?_map]
      cases ho : (objects before)[idx.toNat]? with
      | none => rfl
      | some o =>
          have hnumber : o.number = idx.toNat := by
            refine @number_of_object env limits data _ _ ?_
            rw [hsplit, objects_append,
              List.getElem?_append_left (List.getElem?_eq_some_iff.mp ho).1, ho]
          -- the object is still open, so its slot holds the placeholder
          have hslot : o.slot env limits w.within = .undefined := by
            rw [Visit.slot, hnumber, if_pos (hopen _ hrefers)]
          show ScValue.nodes (o.slot env limits w.within) - 1 = 0
          rw [hslot, nodes_eq]
          rfl

/-- **The decoder does not amplify** a document whose memo references all refer to objects around
them and whose arrays claim no more holes together than one alone may; and it does amplify one in
which the holes and the repeated nodes come to more than its length and the limit. -/
theorem nodes_le_of_holes {data : Bytes} {v : ScValue} (h : decodeScf env limits data = .ok v) :
    (OpenReferences env limits data ∧ scfHoles env limits data ≤ limits.maxValueLen →
      v.nodes ≤ data.length + limits.maxValueLen) ∧
    (data.length + limits.maxValueLen < scfUnpaid env limits data →
      data.length + limits.maxValueLen < v.nodes) := by
  obtain ⟨hnodes, hpaid⟩ := nodes_decodeScf h
  refine ⟨?_, by omega⟩
  rintro ⟨hopen, hholes⟩
  have hbound := nodes_le_visits h
  have hvisits : scfVisits env limits data =
      visits env limits (limits.maxCloneDepth + 1) (scfStart data) :=
    if_pos (framed_of_ok h)
  have hown : (scfVisits env limits data).map ownUnpaid =
      (scfVisits env limits data).map Visit.holes := by
    refine List.map_congr_left fun w hw => ?_
    rw [ownUnpaid, Visit.holes]
    split
    · rfl
    · split
      next htag => exact repeats_of_within (hvisits ▸ hw) (hopen w hw) htag
      next => rfl
  rw [hown] at hbound
  rw [scfHoles] at hholes
  omega

/-- A set of an array of two holes and of a reference to the set. -/
def sparseDocument : Bytes := document [tagSet, 2, tagArray, 2, 0, 0, tagMemoRef, 0]

theorem nodes_le_of_holes_sparse :
    ∃ v, decodeScf standardEnv {} sparseDocument = .ok v ∧
      v.nodes ≤ sparseDocument.length + ({} : LimitConfig).maxValueLen := by
  have hdecoded : decodeScf standardEnv {} sparseDocument =
      .ok (.set [.array [none, none] [], .undefined]) := by
    rw [sparseDocument, decodeScf_document standardEnv {} (by decide), if_neg (by decide)]
    rfl
  have hopen : (scfVisits standardEnv {} sparseDocument).all
      (fun w => w.refersTo.all fun i => decide (i ∈ w.within)) = true := by
    decide +kernel
  refine ⟨_, hdecoded, (nodes_le_of_holes hdecoded).1 ⟨fun w hw i hi => ?_, ?_⟩⟩
  · have hwithin := List.all_eq_true.mp hopen w hw
    rw [hi] at hwithin
    simpa using hwithin
  · decide +kernel

end Runs

/-! ### Sparse arrays -/

section Sparse

variable {p : Decoder ScValue} {env : CodecEnv} {limits : LimitConfig}
  {s u w x y : Stream (List ScValue)}

/-- An array without further properties. -/
theorem run_array {levels length itemsCount : ℕ} {rest : Bytes} {elements : List (Option ScValue)}
    (hs : s.input = tagArray :: rest)
    (hlength : decodeUsize.run ⟨s.offset + 1, rest, s.kept ++ [.undefined]⟩ = .ok (length, u))
    (hcount : decodeUsize.run u = .ok (itemsCount, w))
    (hlimit : length ≤ limits.maxValueLen) (hslots : length * env.slotSize < isizeBound)
    (hle : itemsCount ≤ length) (hleft : itemsCount ≤ w.input.length)
    (hitems : (decodeItems (decodeValueLevels env limits levels) length itemsCount
      (List.replicate length none)).run w = .ok (elements, x))
    (hextra : decodeUsize.run x = .ok (0, y)) :
    (decodeValueLevels env limits (levels + 1)).run s =
      .ok (.array elements [],
        { y with kept := y.kept.set s.kept.length (.array elements []) }) := by
  have hchecked {α : Type} {count : ℕ} {next : Decoder α} {t : Stream (List ScValue)}
      (h : count ≤ t.input.length) : (checkCount count next).run t = next.run t := by
    show (if t.input.length < count then fail _ else next).run t = next.run t
    rw [if_neg (by omega)]
  have hbody : (decodeArrayValue (decodeValueLevels env limits levels) env limits).run
      ⟨s.offset + 1, rest, s.kept ++ [.undefined]⟩ = .ok (.array elements [], y) := by
    rw [decodeArrayValue_eq, run_bind_of_ok hlength, run_bind_of_ok hcount, if_neg (by omega),
      if_neg (by omega), hchecked hleft, if_neg (by omega), decodeElements, run_bind_of_ok hitems,
      run_bind_of_ok hextra, hchecked (Nat.zero_le _)]
    rfl
  rw [run_leaf hs, decodeTagged_object env limits _ (show isObjectTag tagArray = true from rfl),
    run_memoized]
  show ((decodeArrayValue (decodeValueLevels env limits levels) env limits).run _).map _ = _
  rw [hbody]
  rfl

/-- One item, at the first slot. -/
theorem run_firstItem {length : ℕ} {value : ScValue} (hpos : 0 < length)
    (hindex : decodeUsize.run s = .ok (0, u)) (hvalue : p.run u = .ok (value, w)) :
    (decodeItems p length 1 (List.replicate length none)).run s =
      .ok ((List.replicate length none).set 0 (some value), w) := by
  have hfree : ¬ ((List.replicate length (none : Option ScValue))[0]?.getD none).isSome = true := by
    rw [List.getElem?_replicate, if_pos hpos]
    exact Bool.false_ne_true
  rw [decodeItems, run_bind_of_ok hindex, if_neg (by omega), run_bind_of_ok hvalue, if_neg hfree]
  rfl

/-- An array of holes. -/
theorem nodes_holes (n : ℕ) : (ScValue.array (List.replicate n none) []).nodes = 1 + n := by
  have hnone : (List.replicate n (none : Option ScValue)).reduceOption = [] :=
    List.reduceOption_replicate_none
  rw [nodes_eq, ScValue.children, hnone, ScValue.ownNodes, List.length_replicate]
  rfl

/-- An array with one item and holes. -/
theorem nodes_firstItem {n : ℕ} (hpos : 0 < n) (value : ScValue) :
    (ScValue.array ((List.replicate n none).set 0 (some value)) []).nodes =
      1 + n + value.nodes := by
  have hnone : (List.replicate n (none : Option ScValue)).reduceOption = [] :=
    List.reduceOption_replicate_none
  have hhole : (List.replicate n (none : Option ScValue))[0]?.getD none = none := by
    rw [List.getElem?_replicate, if_pos hpos]
    rfl
  have hsum := sum_set_hole nodes value (by rwa [List.length_replicate]) hhole
  rw [hnone] at hsum
  rw [nodes_eq, ScValue.children, List.map_nil, List.append_nil, hsum, ScValue.ownNodes,
    List.length_set, List.length_replicate, List.map_nil, List.sum_nil, List.length_nil]
  omega

end Sparse

/-- An array of 2^26 slots, and in the first of them another one. -/
def nestedHoles : Bytes :=
  [tagArray, 0x80, 0x80, 0x80, 0x20, 1, 0, tagArray, 0x80, 0x80, 0x80, 0x20, 0, 0, 0]

/-- `n` slots, and in the first of them `n` holes. -/
def nestedArrays (n : ℕ) : ScValue :=
  .array ((List.replicate n none).set 0 (some (.array (List.replicate n none) []))) []

theorem nodes_nestedArrays {n : ℕ} (hpos : 0 < n) : (nestedArrays n).nodes = 2 * n + 2 := by
  rw [nestedArrays, nodes_firstItem hpos, nodes_holes]
  omega

theorem decodeScf_nestedHoles :
    decodeScf standardEnv {} (document nestedHoles) = .ok (nestedArrays 67108864) := by
  have hinner := @run_array standardEnv {}
    ⟨7, [tagArray, 0x80, 0x80, 0x80, 0x20, 0, 0, 0], [.undefined]⟩ _ _ _ _ 511 67108864 0 _
    (List.replicate 67108864 none) rfl rfl rfl (Nat.le_refl _) (by decide) (Nat.zero_le _)
    (Nat.zero_le _) rfl rfl
  have houter := @run_array standardEnv {} ⟨0, nestedHoles, []⟩ _ _ _ _ 512 67108864 1 _
    _ rfl rfl rfl (Nat.le_refl _) (by decide) (by decide) (by decide)
    (run_firstItem (by decide) rfl hinner) rfl
  rw [decodeScf_document standardEnv {} (by decide), if_neg (by decide)]
  show ((decodeValueLevels standardEnv {} (512 + 1)).run ⟨0, nestedHoles, []⟩).map Prod.fst = _
  rw [houter]
  rfl

/-- At the default limits a document of 27 bytes has more than 2^27 nodes: the limit is one of
each array alone. -/
theorem sparse_document_amplified :
    ¬ ∀ (env : CodecEnv) (limits : LimitConfig) (data : Bytes) (v : ScValue), env.Lawful →
      decodeScf env limits data = .ok v → v.nodes ≤ data.length + limits.maxValueLen := by
  intro h
  have hle := h standardEnv {} (document nestedHoles) (nestedArrays 67108864)
    standardEnv_lawful decodeScf_nestedHoles
  rw [nodes_nestedArrays (by decide)] at hle
  exact absurd hle (by decide)

end Clone

end BoaIdb
