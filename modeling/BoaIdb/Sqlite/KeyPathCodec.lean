import BoaIdb.Engine.KeyPathGrammar
import BoaIdb.Lib.ByteCodec
import Mathlib.Tactic.NormNum

/-!
Key paths in the tables of the SQLite backend.

A string key path goes through a string on its way back; the members of a list do not.
-/

namespace BoaIdb.Sqlite

open ByteCodec Utf16String KeyPath Faults

/-- UTF-16LE. -/
def unitBytes (units : Utf16String) : Bytes := units.flatMap fun u => littleEndian 2 u.toNat

/-- `as u32` keeps the low bytes of a length. -/
def encodePaths (paths : List Utf16String) : Bytes :=
  paths.flatMap fun p => littleEndian 4 (unitBytes p).length ++ unitBytes p

/-- `encode_key_path`. -/
def encodeKeyPath : KeyPath → Option Bytes
  | .empty => none
  | .single s => some (1 :: unitBytes s)
  | .array paths => some (2 :: encodePaths paths)

/-- `chunks_exact(2)` over `u16::from_le_bytes`. -/
def chunkUnits : Bytes → Utf16String
  | low :: high :: rest => UInt16.ofNat (ofLittleEndian [low, high]) :: chunkUnits rest
  | _ => []

def decodeUtf16le (bytes : Bytes) : Except BackendError Utf16String :=
  if bytes.length % 2 ≠ 0 then .error (.corrupted "Odd-length UTF-16 data")
  else .ok (chunkUnits bytes)

/-- A key path that is not one is corrupted data. -/
def parseStored (s : String) : Except BackendError KeyPath :=
  (parseSingle s).mapError fun e => .corrupted ("Invalid key path: " ++ e.text)

/-- The loop of `bytes_to_key_path` over a list. -/
def decodePaths (rest : Bytes) : Except BackendError (List Utf16String) :=
  if _hempty : rest = [] then .ok []
  else if _hlength : rest.length < 4 then
    .error (.corrupted "Invalid array key path (truncated length)")
  else
    let byteLen := ofLittleEndian (rest.take 4)
    if (rest.drop 4).length < byteLen then
      .error (.corrupted "Invalid array key path (truncated data)")
    else do
      let path ← decodeUtf16le ((rest.drop 4).take byteLen)
      let _ ← parseStored path.toText
      let paths ← decodePaths ((rest.drop 4).drop byteLen)
      .ok (path :: paths)
termination_by rest.length
decreasing_by
  simp only [List.length_drop]
  omega

def bytesToKeyPath : Bytes → Except BackendError KeyPath
  | [] => .ok .empty
  | tag :: rest =>
      if tag = 1 then do
        let units ← decodeUtf16le rest
        parseStored units.toText
      else if tag = 2 then do
        let paths ← decodePaths rest
        .ok (.array paths)
      else .error (.corrupted ("Unknown key path tag: " ++ toString tag.toNat))

/-- The column of a store may be `NULL`. -/
def loadStoreKeyPath : Option Bytes → Except BackendError KeyPath
  | none => .ok .empty
  | some bytes => bytesToKeyPath bytes

/-- The column of an index may not, so that an empty key path is an empty blob. -/
def indexKeyPathBytes (kp : KeyPath) : Bytes := (encodeKeyPath kp).getD []

/-! ### Units -/

theorem ofLittleEndian_lt (bytes : Bytes) : ofLittleEndian bytes < 256 ^ bytes.length := by
  induction bytes with
  | nil => exact Nat.one_pos
  | cons b bytes ih =>
      have hb := b.toNat_lt
      have hcons : ofLittleEndian (b :: bytes) = b.toNat + 256 * ofLittleEndian bytes := rfl
      rw [hcons, List.length_cons, pow_succ]
      omega

theorem unitBytes_cons (u : UInt16) (units : Utf16String) :
    unitBytes (u :: units) =
      UInt8.ofNat u.toNat :: UInt8.ofNat (u.toNat / 256) :: unitBytes units :=
  rfl

theorem length_unitBytes (units : Utf16String) : (unitBytes units).length = 2 * units.length := by
  induction units with
  | nil => rfl
  | cons u units ih =>
      rw [unitBytes_cons, List.length_cons, List.length_cons, List.length_cons, ih]
      ring

theorem chunkUnits_unitBytes (units : Utf16String) : chunkUnits (unitBytes units) = units := by
  induction units with
  | nil => rfl
  | cons u units ih =>
      have hunit : ofLittleEndian (littleEndian 2 u.toNat) = u.toNat :=
        ofLittleEndian_littleEndian (by simpa using u.toNat_lt)
      have hbytes :
          littleEndian 2 u.toNat = [UInt8.ofNat u.toNat, UInt8.ofNat (u.toNat / 256)] := rfl
      rw [unitBytes_cons, chunkUnits, ih, ← hbytes, hunit, UInt16.ofNat_toNat]

theorem length_chunkUnits : ∀ bytes : Bytes, 2 * (chunkUnits bytes).length ≤ bytes.length
  | [] => Nat.le_refl _
  | [_] => Nat.zero_le _
  | low :: high :: rest => by
      have h := length_chunkUnits rest
      rw [chunkUnits, List.length_cons, List.length_cons, List.length_cons]
      omega

theorem decodeUtf16le_unitBytes (units : Utf16String) :
    decodeUtf16le (unitBytes units) = .ok units := by
  rw [decodeUtf16le, if_neg (by rw [length_unitBytes]; omega), chunkUnits_unitBytes]

/-! ### Lists -/

/-- A member whose length in bytes fits its field. -/
def LengthFits (path : Utf16String) : Prop := path.length < 2 ^ 31

/-- A member is read back in front of the others. -/
theorem decodePaths_member {path : Utf16String} (rest : Bytes) (hfits : LengthFits path)
    (hchecked : checkPath path = .ok ()) :
    decodePaths (littleEndian 4 (unitBytes path).length ++ unitBytes path ++ rest) =
      (decodePaths rest).map (path :: ·) := by
  have hlength : (unitBytes path).length < 256 ^ 4 := by
    rw [length_unitBytes]
    unfold LengthFits at hfits
    omega
  have hfour := length_littleEndian 4 (unitBytes path).length
  have htake : (littleEndian 4 (unitBytes path).length ++ unitBytes path ++ rest).take 4 =
      littleEndian 4 (unitBytes path).length := by
    rw [List.append_assoc, List.take_append_of_le_length (by omega),
      List.take_of_length_le (by omega)]
  have hdrop : (littleEndian 4 (unitBytes path).length ++ unitBytes path ++ rest).drop 4 =
      unitBytes path ++ rest := by
    rw [List.append_assoc, List.drop_left' hfour]
  have hparsed : ∃ kp, parseStored path.toText = .ok kp := by
    rw [checkPath] at hchecked
    rw [parseStored]
    cases hparse : parseSingle path.toText with
    | error e =>
        rw [hparse] at hchecked
        cases hchecked
    | ok kp => exact ⟨kp, rfl⟩
  obtain ⟨kp, hkp⟩ := hparsed
  have hne : littleEndian 4 (unitBytes path).length ++ unitBytes path ++ rest ≠ [] := by
    intro h
    have := congrArg List.length h
    simp at this
  have hlong : ¬ (littleEndian 4 (unitBytes path).length ++ unitBytes path ++ rest).length < 4 := by
    simp
  rw [decodePaths, dif_neg hne, dif_neg hlong]
  simp only [htake, hdrop, ofLittleEndian_littleEndian hlength, List.take_left, List.drop_left]
  rw [if_neg (by simp), decodeUtf16le_unitBytes]
  simp only [bind, Except.bind, hkp]
  cases decodePaths rest <;> rfl

theorem decodePaths_encodePaths {paths : List Utf16String} (hfits : ∀ p ∈ paths, LengthFits p)
    (hchecked : ∀ p ∈ paths, checkPath p = .ok ()) :
    decodePaths (encodePaths paths) = .ok paths := by
  induction paths with
  | nil =>
      show decodePaths [] = _
      rw [decodePaths, dif_pos rfl]
  | cons path paths ih =>
      have hcons : encodePaths (path :: paths) =
          littleEndian 4 (unitBytes path).length ++ unitBytes path ++ encodePaths paths := rfl
      rw [hcons, decodePaths_member _ (hfits path (.head _)) (hchecked path (.head _)),
        ih (fun p hp => hfits p (.tail _ hp)) fun p hp => hchecked p (.tail _ hp)]
      rfl

/-- What is read from a list has lengths that fit their fields. -/
theorem lengthFits_of_decodePaths (rest : Bytes) : ∀ {paths}, decodePaths rest = .ok paths →
    ∀ p ∈ paths, LengthFits p := by
  induction rest using decodePaths.induct with
  | case1 =>
      intro paths h
      rw [decodePaths, dif_pos rfl] at h
      cases h
      exact fun p hp => by cases hp
  | case2 rest hempty hlength =>
      intro paths h
      rw [decodePaths, dif_neg hempty, dif_pos hlength] at h
      cases h
  | case3 rest hempty hlength byteLen =>
      rename_i hshort
      intro paths h
      rw [decodePaths, dif_neg hempty, dif_neg hlength] at h
      dsimp only at h
      rw [if_pos hshort] at h
      cases h
  | case4 rest hempty hlength byteLen =>
      rename_i hlong ih
      intro paths h
      rw [decodePaths, dif_neg hempty, dif_neg hlength] at h
      dsimp only at h
      rw [if_neg hlong] at h
      obtain ⟨path, hpath, h⟩ := bind_ok h
      obtain ⟨kp, -, h⟩ := bind_ok h
      obtain ⟨tail, htail, h⟩ := bind_ok h
      cases h
      refine List.forall_mem_cons.mpr ⟨?_, ih htail⟩
      have hfield := ofLittleEndian_lt (rest.take 4)
      have hpow : 256 ^ (rest.take 4).length ≤ 256 ^ 4 :=
        Nat.pow_le_pow_right (by norm_num) (List.length_take_le 4 rest)
      rw [decodeUtf16le] at hpath
      split at hpath
      · cases hpath
      · cases hpath
        have hunits := length_chunkUnits ((rest.drop 4).take (ofLittleEndian (rest.take 4)))
        have htake := List.length_take_le (ofLittleEndian (rest.take 4)) (rest.drop 4)
        unfold LengthFits
        omega

/-! ### What survives -/

/-- A key path is the same when it is read back, from a store and from an index. -/
structure Survives (kp : KeyPath) : Prop where
  store : loadStoreKeyPath (encodeKeyPath kp) = .ok kp
  index : bytesToKeyPath (indexKeyPathBytes kp) = .ok kp

/-- A string without unpaired surrogates, or a list of strings shorter than `2 ^ 31` units. -/
def StorageSafe : KeyPath → Prop
  | .empty => True
  | .single s => Paired s
  | .array paths => ∀ p ∈ paths, LengthFits p

theorem survives_of_some {kp : KeyPath} {bytes : Bytes} (h : encodeKeyPath kp = some bytes) :
    Survives kp ↔ bytesToKeyPath bytes = .ok kp := by
  have hindex : indexKeyPathBytes kp = bytes := by rw [indexKeyPathBytes, h, Option.getD_some]
  constructor
  · intro hs
    rw [← hindex]
    exact hs.index
  · intro hread
    refine ⟨?_, ?_⟩
    · rw [h]
      exact hread
    · rw [hindex]
      exact hread

theorem survives_empty : Survives .empty := ⟨rfl, rfl⟩

theorem survives_single_iff {s : Utf16String} (hne : s ≠ []) (hsteps : IdentifierSteps s) :
    Survives (.single s) ↔ Paired s := by
  have hvalid := (validate_ofString_toText s).mpr hsteps
  have hread : bytesToKeyPath (1 :: unitBytes s) = .ok (.single (ofString s.toText)) := by
    rw [bytesToKeyPath, if_pos rfl, decodeUtf16le_unitBytes]
    show parseStored s.toText = _
    rw [parseStored, parseSingle_toText hne, hvalid]
    rfl
  have hinj : (Except.ok (.single (ofString s.toText)) : Except BackendError KeyPath) =
      .ok (.single s) ↔ ofString s.toText = s := by
    simp
  rw [survives_of_some rfl, hread, hinj, ofString_toText_eq_iff]

theorem survives_array_iff {paths : List Utf16String}
    (hchecked : ∀ p ∈ paths, checkPath p = .ok ()) :
    Survives (.array paths) ↔ ∀ p ∈ paths, LengthFits p := by
  have hread : bytesToKeyPath (2 :: encodePaths paths) =
      (decodePaths (encodePaths paths)).map .array := by
    rw [bytesToKeyPath, if_neg (by decide), if_pos rfl]
    cases decodePaths (encodePaths paths) <;> rfl
  rw [survives_of_some rfl, hread]
  constructor
  · intro h
    cases hdecode : decodePaths (encodePaths paths) with
    | error e =>
        rw [hdecode] at h
        cases h
    | ok paths' =>
        rw [hdecode] at h
        have heq : paths' = paths := KeyPath.array.inj (Except.ok.inj h)
        rw [← heq]
        exact lengthFits_of_decodePaths _ hdecode
  · intro hfits
    rw [decodePaths_encodePaths hfits hchecked]
    rfl

/-- An accepted key path survives if and only if it is safe. -/
theorem survives_iff {arg : Argument} {kp : KeyPath} (h : toKeyPathArgument arg = .ok (some kp)) :
    Survives kp ↔ StorageSafe kp := by
  cases arg with
  | missing => cases h
  | text s =>
      by_cases hne : s = []
      · rw [hne] at h
        cases h
        exact iff_of_true survives_empty trivial
      · obtain ⟨heq, hsteps⟩ := (accepted_text_iff hne _).mp h
        cases heq
        exact survives_single_iff hne hsteps
  | list paths =>
      obtain ⟨heq, -, hchecked⟩ := (accepted_list_iff paths _).mp h
      cases heq
      exact survives_array_iff hchecked

/-- **Key paths**: a string is accepted only by the grammar, and an accepted key path survives its
storage, exactly when no unpaired surrogate is taken for the character that replaces it. -/
theorem keyPaths_iff {units : Utf16String} (hne : units ≠ []) {arg : Argument} {kp : KeyPath}
    (haccepted : toKeyPathArgument arg = .ok (some kp)) :
    (OnlyGrammar units ↔ Paired units ∨ ¬ IdentifierSteps units) ∧ (Survives kp ↔ StorageSafe kp) :=
  ⟨onlyGrammar_iff hne, survives_iff haccepted⟩

/-- `a.b`, and a list of `a` and the empty path. -/
theorem keyPaths_iff_list : OnlyGrammar [0x61, 0x2E, 0x62] ∧ Survives (.array [[0x61], []]) := by
  have haccepted : toKeyPathArgument (.list [[0x61], []]) = .ok (some (.array [[0x61], []])) := by
    decide +kernel
  have h := @keyPaths_iff [0x61, 0x2E, 0x62] (List.cons_ne_nil _ _) _ _ haccepted
  refine ⟨h.1.mpr (.inl (by decide)), h.2.mpr ?_⟩
  intro p hp
  rcases List.mem_cons.mp hp with rfl | hp
  · exact (by norm_num : 1 < 2 ^ 31)
  · rw [List.mem_singleton.mp hp]
    exact (by norm_num : 0 < 2 ^ 31)

/-- An unpaired surrogate is a key path, and another one when it is read back. -/
theorem surrogate_key_path :
    toKeyPathArgument (.text [0xD800]) = .ok (some (.single [0xD800])) ∧
      validateIdentifierName [0xD800] =
        .error (.invalidSyntax "Unpaired surrogate in identifier") ∧
      loadStoreKeyPath (encodeKeyPath (.single [0xD800])) = .ok (.single [0xFFFD]) ∧
      ¬ OnlyGrammar [0xD800] ∧ ¬ Survives (.single [0xD800]) := by
  have haccepted : toKeyPathArgument (.text [0xD800]) = .ok (some (.single [0xD800])) := by
    decide +kernel
  have hread : loadStoreKeyPath (encodeKeyPath (.single [0xD800])) = .ok (.single [0xFFFD]) := by
    decide +kernel
  have hname : validateIdentifierName [0xD800] =
      .error (.invalidSyntax "Unpaired surrogate in identifier") := rfl
  refine ⟨haccepted, hname, hread, fun h => ?_, fun h => ?_⟩
  · have hstep := h.text _ haccepted [0xD800] (by decide)
    rw [hname] at hstep
    cases hstep
  · have hstore := h.store
    rw [hread] at hstore
    exact absurd hstore (by decide)

end BoaIdb.Sqlite
