import BoaIdb.Driver.Backfill

/-!
For which values the backfill derives the keys that maintenance derives.

Both read the same key for a plain index, but the backfill reports a value that is no key as
an error. For a multiEntry index maintenance looks for the value at the end of the path and
takes its valid members, while the backfill wants a key there, members and all.
-/

namespace BoaIdb

open Clone Engine Faults

namespace KeyPath

/-! ### Members -/

theorem filterMap_memberKey {elements : List (Option ScValue)} {keys : List Key}
    (h : ScValue.elementKeys elements = .ok (some keys)) :
    elements.filterMap memberKey = keys ∧ ∀ element ∈ elements, memberKey element ≠ none := by
  induction elements generalizing keys with
  | nil =>
      rw [ScValue.elementKeys] at h
      cases h
      exact ⟨rfl, fun _ h => by cases h⟩
  | cons element elements ih =>
      cases element with
      | none =>
          rw [ScValue.elementKeys] at h
          cases h
      | some v =>
          rw [ScValue.elementKeys] at h
          obtain ⟨key, hkey, h⟩ := bind_ok h
          cases key with
          | none => cases h
          | some k =>
              obtain ⟨rest, hrest, h⟩ := bind_ok h
              cases rest with
              | none => cases h
              | some ks =>
                  cases h
                  have hmember : memberKey (some v) = some k := by rw [memberKey, hkey]
                  obtain ⟨hkeys, hall⟩ := ih hrest
                  refine ⟨by rw [List.filterMap_cons_some hmember, hkeys], fun element helement =>
                    ?_⟩
                  rcases List.mem_cons.mp helement with rfl | helement
                  · rw [hmember]
                    exact Option.some_ne_none k
                  · exact hall element helement

/-- The elements are a key when each of them has one. -/
theorem elementKeys_of_members {elements : List (Option ScValue)}
    (h : ∀ element ∈ elements, memberKey element ≠ none) :
    ScValue.elementKeys elements = .ok (some (elements.filterMap memberKey)) := by
  induction elements with
  | nil => rw [ScValue.elementKeys, List.filterMap_nil]
  | cons element elements ih =>
      have hrest := ih fun e he => h e (.tail _ he)
      have hfirst := h element (by simp)
      cases element with
      | none => exact absurd rfl hfirst
      | some v =>
          rw [ScValue.elementKeys]
          cases hkey : v.toKey with
          | error e => exact absurd (by rw [memberKey, hkey]) hfirst
          | ok key =>
              have hmember : memberKey (some v) = key := by rw [memberKey, hkey]
              cases key with
              | none => exact absurd hmember hfirst
              | some k =>
                  rw [List.filterMap_cons_some hmember]
                  simp only [bind, Except.bind, hrest, Option.map_some]

/-! ### The end of a path -/

theorem extractSteps_of_resolve {steps : List Utf16String} {v raw : ScValue}
    (h : resolveSteps steps v = some raw) : extractSteps steps v = raw.toKey := by
  induction steps generalizing v with
  | nil =>
      rw [extractSteps]
      cases h
      rfl
  | cons step steps ih =>
      cases v with
      | object entries =>
          rw [resolveSteps] at h
          obtain ⟨w, hw, h⟩ := Option.bind_eq_some_iff.mp h
          rw [extractSteps, hw]
          exact ih h
      | _ => cases h

/-- Without a value at its end a path leads to no key, or to the length of an array or a
string. -/
theorem extractSteps_of_unresolved {steps : List Utf16String} {v : ScValue}
    (h : resolveSteps steps v = none) :
    extractSteps steps v = .ok none ∨ ∃ n, extractSteps steps v = .ok (some (.number n)) := by
  induction steps generalizing v with
  | nil => cases h
  | cons step steps ih =>
      cases v with
      | object entries =>
          rw [resolveSteps] at h
          rw [extractSteps]
          cases hw : entries.lookup step with
          | none => exact .inl rfl
          | some w =>
              rw [hw] at h
              exact ih h
      | array elements extraProps =>
          rw [extractSteps]
          split
          · exact .inr ⟨_, rfl⟩
          · exact .inl rfl
      | string s =>
          rw [extractSteps]
          split
          · exact .inr ⟨_, rfl⟩
          · exact .inl rfl
      | _ => exact .inl (by rw [extractSteps] <;> simp)

theorem extract_of_root {keyPath : KeyPath} {v raw : ScValue}
    (h : keyPath.multiEntryRoot v = some raw) : keyPath.extract v = raw.toKey := by
  cases keyPath with
  | empty =>
      cases h
      rfl
  | single path =>
      rw [multiEntryRoot, resolveSinglePath] at h
      rw [extract, extractSinglePath]
      split at h
      · next hempty =>
          cases h
          rw [if_pos hempty]
      · next hpath =>
          rw [if_neg hpath]
          exact extractSteps_of_resolve h
  | array paths => cases h

theorem extract_of_no_root {keyPath : KeyPath} {v : ScValue}
    (hdefinition : Driver.checkDefinition keyPath true = .ok ())
    (h : keyPath.multiEntryRoot v = none) :
    keyPath.extract v = .ok none ∨ ∃ n, keyPath.extract v = .ok (some (.number n)) := by
  cases keyPath with
  | empty => cases h
  | single path =>
      rw [multiEntryRoot, resolveSinglePath] at h
      rw [extract, extractSinglePath]
      split at h
      · cases h
      · next hpath =>
          rw [if_neg hpath]
          exact extractSteps_of_unresolved h
  | array paths => cases hdefinition

end KeyPath

namespace Driver

open KeyPath

variable {env : CodecEnv} {limits : LimitConfig} {index : IndexMeta} {v : ScValue}

/-! ### Shapes -/

/-- The decoder takes back what the encoder accepted. -/
def Readable (env : CodecEnv) (limits : LimitConfig) (v : ScValue) : Prop :=
  v.scfSize env ≤ limits.maxValueLen ∧ ScValue.Everywhere (ScValue.Bounded env limits) 0 v

/-- The value at the end of a multiEntry path: an array with a key in each place, or without
any valid member and with a hole before the first that is no key; no array; or nothing, and
then the path asks for no length. -/
def PlainMembers (keyPath : KeyPath) (v : ScValue) : Prop :=
  match keyPath.multiEntryRoot v with
  | none => keyPath.extract v = .ok none
  | some (.array elements _) => (∀ element ∈ elements, memberKey element ≠ none) ∨
      elements.filterMap memberKey = [] ∧ ScValue.elementKeys elements = .ok none
  | some _ => True

/-- The values that a backfill treats like maintenance does. -/
structure Agrees (env : CodecEnv) (limits : LimitConfig) (index : IndexMeta) (v : ScValue) :
    Prop where
  readable : Readable env limits v
  /-- Maintenance accepts the value. -/
  accepted : ∃ keys, indexKeysForValue limits index v = .ok keys
  /-- The path of a plain index does not lead to a value that is no key. -/
  plain : index.multiEntry = false → ∀ e, index.keyPath.extract v ≠ .error e
  multi : index.multiEntry = true → PlainMembers index.keyPath v

/-! ### Encodings -/

theorem derivedKeys_sound {pk : Bytes} {keys : List Key} : Sound (derivedKeys limits pk keys) ↔
    ∀ k ∈ keys, ∃ bytes, k.encodeKey limits = .ok bytes := by
  rw [Sound, derivedKeys, List.forall_mem_map]
  refine forall₂_congr fun k _ => ?_
  cases k.encodeKey limits with
  | ok bytes => exact iff_of_true ⟨(bytes, pk), rfl⟩ ⟨bytes, rfl⟩
  | error e => exact iff_of_false (fun ⟨_, h⟩ => by cases h) fun ⟨_, h⟩ => by cases h

theorem mem_derivedKeys {pk pk' bytes : Bytes} {keys : List Key} :
    .ok (bytes, pk') ∈ derivedKeys limits pk keys ↔
      pk' = pk ∧ ∃ k ∈ keys, k.encodeKey limits = .ok bytes := by
  rw [derivedKeys, List.mem_map]
  constructor
  · rintro ⟨k, hk, h⟩
    obtain ⟨encoded, hencoded, heq⟩ := map_ok h
    cases heq
    exact ⟨rfl, k, hk, mapError_ok hencoded⟩
  · rintro ⟨rfl, k, hk, h⟩
    exact ⟨k, hk, by rw [h]; rfl⟩

theorem recordKeys_of_decoded {valueBytes : Bytes} {keyPath : KeyPath} {multiEntry : Bool}
    (h : decodeScf env limits valueBytes = .ok v) :
    recordKeys env limits keyPath multiEntry valueBytes =
      ((keyPath.extract v).mapError KeyError.toIdb).map (·.elim [] (expandKey multiEntry)) := by
  rw [recordKeys, h]
  rfl

/-- The derivation of a record: an error, or the encodings of the keys. -/
theorem derivedRow_eq (henv : env.Lawful) (hlimit : limits.maxValueLen < 2 ^ 64)
    (hv : v.Storable) {bytes : Bytes} (hbytes : encodeScf env limits v = .ok bytes) (pk : Bytes)
    (keyPath : KeyPath) (multiEntry : Bool) :
    (∃ idxKey, Readable env limits v ∧ keyPath.extract v = .ok idxKey ∧
      derivedRow env limits keyPath multiEntry (pk, pk, some bytes) =
        derivedKeys limits pk (idxKey.elim [] (expandKey multiEntry))) ∨
    ∃ e, (Readable env limits v → ∃ e', keyPath.extract v = .error e') ∧
      derivedRow env limits keyPath multiEntry (pk, pk, some bytes) = [.error e] := by
  obtain ⟨hnoMemo, hrepresentable⟩ := ScValue.everywhere_and.mp hv
  obtain ⟨hreads, hfails⟩ := decodeScf_stored henv hlimit hnoMemo hrepresentable hbytes
  rw [derivedRow, Option.getD_some]
  by_cases hok : Readable env limits v
  · rw [recordKeys_of_decoded (hreads hok), KeyPath.extract_stored]
    cases hextract : keyPath.extract v with
    | ok idxKey => exact .inl ⟨idxKey, hok, rfl, rfl⟩
    | error e => exact .inr ⟨e.toIdb, fun _ => ⟨e, rfl⟩, rfl⟩
  · obtain ⟨e, he⟩ := hfails hok
    rw [recordKeys, he]
    exact .inr ⟨_, fun h => absurd h hok, rfl⟩

/-! ### Both derivations of one record -/

/-- What the backfill derives of a record is what maintenance holds for its value. -/
structure Mirrors (env : CodecEnv) (limits : LimitConfig) (index : IndexMeta) (v : ScValue)
    (pk : Bytes) (row : List Derived) : Prop where
  sound : Sound row
  same : ∃ keys, indexKeysForValue limits index v = .ok keys ∧
    ∀ key pk', .ok (key, pk') ∈ row ↔ pk' = pk ∧ key ∈ keys

theorem mirrors_derivedKeys {pk : Bytes} {keys : List Key} {encoded : List Bytes}
    (h : indexKeysForValue limits index v = .ok encoded)
    (hencoded : encodeDistinct limits keys [] = .ok encoded) :
    Mirrors env limits index v pk (derivedKeys limits pk keys) := by
  obtain ⟨hall, hmem⟩ := encodeDistinct_ok hencoded
  refine ⟨derivedKeys_sound.mpr hall, encoded, h, fun key pk' => ?_⟩
  rw [mem_derivedKeys, hmem]
  simp only [List.not_mem_nil, false_or]

theorem expandKey_of_not_array {k : Key} (hk : ∀ items, k ≠ .array items) (multiEntry : Bool) :
    expandKey multiEntry k = [k] := by
  cases k with
  | array items => exact absurd rfl (hk items)
  | _ => rfl

theorem toKey_ne_array {raw : ScValue} {k : Key}
    (hraw : ∀ elements props, raw ≠ .array elements props)
    (h : raw.toKey = .ok (some k)) (items : List Key) : k ≠ .array items := by
  rintro rfl
  cases raw with
  | array elements props => exact hraw elements props rfl
  | number n =>
      rw [ScValue.toKey] at h
      split at h <;> cases h
  | date d =>
      rw [ScValue.toKey] at h
      split at h <;> cases h
  | _ => simp [ScValue.toKey] at h

/-- The keys of the two derivations, before they are encoded. -/
theorem expanded_of_agrees {idxKey : Option Key} (h : Agrees env limits index v)
    (hextract : index.keyPath.extract v = .ok idxKey) : ∃ encoded,
      indexKeysForValue limits index v = .ok encoded ∧
      encodeDistinct limits (idxKey.elim [] (expandKey index.multiEntry)) [] = .ok encoded := by
  obtain ⟨encoded, hencoded⟩ := h.accepted
  refine ⟨encoded, hencoded, ?_⟩
  rw [indexKeysForValue] at hencoded
  cases hmulti : index.multiEntry with
  | false =>
      rw [hmulti, if_neg Bool.false_ne_true, hextract] at hencoded
      cases idxKey with
      | none => exact hencoded
      | some k => cases k <;> exact hencoded
  | true =>
      rw [hmulti, if_pos rfl] at hencoded
      obtain ⟨keys, hkeys, hencoded⟩ := bind_ok hencoded
      have hkeys := mapError_ok hkeys
      have hplain := h.multi hmulti
      rw [PlainMembers] at hplain
      rw [extractMultiEntry] at hkeys
      suffices hsame : idxKey.elim [] (expandKey true) = keys by rw [hsame]; exact hencoded
      cases hroot : index.keyPath.multiEntryRoot v with
      | none =>
          rw [hroot] at hkeys hplain
          cases hkeys
          cases hplain.symm.trans hextract
          rfl
      | some raw =>
          rw [extract_of_root hroot] at hextract
          rw [hroot] at hkeys hplain
          -- the two treat an array differently, and everything else alike
          by_cases hraw : ∃ elements props, raw = .array elements props
          · obtain ⟨elements, props, rfl⟩ := hraw
            cases hkeys
            rw [ScValue.toKey] at hextract
            rcases hplain with hall | ⟨hnone, hkeys⟩
            · rw [elementKeys_of_members hall] at hextract
              cases hextract
              rfl
            · rw [hkeys] at hextract
              cases hextract
              exact hnone.symm
          · push Not at hraw
            have hkeys : raw.toKey.map Option.toList = .ok keys := by
              cases raw <;> first | exact hkeys | exact absurd rfl (hraw _ _)
            rw [hextract] at hkeys
            cases hkeys
            cases idxKey with
            | none => rfl
            | some k => exact expandKey_of_not_array (toKey_ne_array hraw hextract) true

/-- A path at whose end the derivations differ gives itself away. -/
theorem plainMembers_of_mirrors {idxKey : Option Key} {pk : Bytes}
    (hdefinition : checkDefinition index.keyPath true = .ok ()) (hmulti : index.multiEntry = true)
    (hextract : index.keyPath.extract v = .ok idxKey)
    (h : Mirrors env limits index v pk (derivedKeys limits pk (idxKey.elim [] (expandKey true)))) :
    PlainMembers index.keyPath v := by
  obtain ⟨hsound, encoded, hencoded, hsame⟩ := h
  rw [indexKeysForValue, if_pos hmulti] at hencoded
  obtain ⟨keys, hkeys, hencoded⟩ := bind_ok hencoded
  have hkeys := mapError_ok hkeys
  obtain ⟨hall, hmem⟩ := encodeDistinct_ok hencoded
  rw [extractMultiEntry] at hkeys
  rw [PlainMembers]
  cases hroot : index.keyPath.multiEntryRoot v with
  | none =>
      rw [hroot] at hkeys
      cases hkeys
      cases hencoded
      rcases extract_of_no_root hdefinition hroot with hnone | ⟨n, hnumber⟩
      · exact hnone
      · -- a length is a key of the backfill alone
        cases hextract.symm.trans hnumber
        obtain ⟨bytes, hbytes⟩ := derivedKeys_sound.mp hsound (.number n) (by simp [expandKey])
        have hin :=
          (hsame bytes pk).mp (mem_derivedKeys.mpr ⟨rfl, .number n, by simp [expandKey], hbytes⟩)
        exact absurd hin.2 List.not_mem_nil
  | some raw =>
      rw [extract_of_root hroot] at hextract
      rw [hroot] at hkeys
      cases raw with
      | array elements props =>
          cases hkeys
          rw [ScValue.toKey] at hextract
          obtain ⟨members, hmembers, hextract⟩ := bind_ok hextract
          cases members with
          | some ks => exact .inl (filterMap_memberKey hmembers).2
          | none =>
              cases hextract
              refine .inr ⟨?_, hmembers⟩
              refine List.eq_nil_iff_forall_not_mem.mpr fun k hk => ?_
              obtain ⟨bytes, hbytes⟩ := hall k hk
              have hin := (hsame bytes pk).mpr ⟨rfl, (hmem bytes).mpr (.inr ⟨k, hk, hbytes⟩)⟩
              exact absurd hin List.not_mem_nil
      | _ => trivial

/-- A value that agrees has a key, or none, at the end of the path of the backfill. -/
theorem Agrees.extract_ne_error (h : Agrees env limits index v) (e : KeyError) :
    index.keyPath.extract v ≠ .error e := by
  intro herror
  cases hmulti : index.multiEntry with
  | false => exact h.plain hmulti e herror
  | true =>
      have hplain := h.multi hmulti
      obtain ⟨encoded, hencoded⟩ := h.accepted
      rw [indexKeysForValue, if_pos hmulti] at hencoded
      obtain ⟨keys, hkeys, -⟩ := bind_ok hencoded
      have hkeys := mapError_ok hkeys
      rw [extractMultiEntry] at hkeys
      rw [PlainMembers] at hplain
      cases hroot : index.keyPath.multiEntryRoot v with
      | none =>
          rw [hroot] at hplain
          cases hplain.symm.trans herror
      | some raw =>
          rw [extract_of_root hroot] at herror
          rw [hroot] at hplain hkeys
          cases raw with
          | array elements props =>
              rw [ScValue.toKey] at herror
              rcases hplain with hall | ⟨-, hnone⟩
              · rw [elementKeys_of_members hall] at herror
                cases herror
              · rw [hnone] at herror
                cases herror
          | _ =>
              have hkeys : Except.map Option.toList _ = Except.ok keys := hkeys
              rw [herror] at hkeys
              cases hkeys

theorem mirrors_iff_agrees (henv : env.Lawful) (hlimit : limits.maxValueLen < 2 ^ 64)
    (hdefinition : checkDefinition index.keyPath index.multiEntry = .ok ()) (hv : v.Storable)
    {bytes : Bytes} (hbytes : encodeScf env limits v = .ok bytes) (pk : Bytes) :
    Mirrors env limits index v pk
      (derivedRow env limits index.keyPath index.multiEntry (pk, pk, some bytes)) ↔
    Agrees env limits index v := by
  rcases derivedRow_eq henv hlimit hv hbytes pk index.keyPath index.multiEntry with
    ⟨idxKey, hreadable, hextract, hrow⟩ | ⟨e, hreadable, hrow⟩
  · rw [hrow]
    constructor
    · intro h
      obtain ⟨keys, hkeys, -⟩ := h.same
      refine ⟨hreadable, ⟨keys, hkeys⟩, fun _ e he => ?_, fun hmulti => ?_⟩
      · cases he.symm.trans hextract
      · rw [hmulti] at h hdefinition
        exact plainMembers_of_mirrors hdefinition hmulti hextract h
    · intro h
      obtain ⟨encoded, hencoded, hsame⟩ := expanded_of_agrees h hextract
      exact mirrors_derivedKeys hencoded hsame
  · rw [hrow]
    constructor
    · intro h
      obtain ⟨entry, hentry⟩ := h.sound (.error e) (by simp)
      cases hentry
    · intro h
      obtain ⟨e', he'⟩ := hreadable h.readable
      exact absurd he' (h.extract_ne_error e')

end Driver

end BoaIdb
