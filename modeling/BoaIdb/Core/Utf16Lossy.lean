import BoaIdb.Core.Utf16
import Mathlib.Data.List.Basic
import Mathlib.Tactic.Set

/-!
What a conversion to a string keeps of a sequence of UTF-16 code units.

A string has no unpaired surrogates, so that the way there and back is the identity on the
sequences without them and on no others.
-/

namespace BoaIdb.Utf16String

/-- The character of a surrogate pair. -/
def pairChar (u v : UInt16) : Char :=
  Char.ofNat (0x10000 + (u.toNat - 0xD800) * 0x400 + (v.toNat - 0xDC00))

/-- `char::decode_utf16`, with something of its own for an unpaired surrogate. -/
def decodeWith {α : Type} (alone : UInt16 → α) (char : Char → α) : Utf16String → List α
  | [] => []
  | [u] => [if isHigh u || isLow u then alone u else char (Char.ofNat u.toNat)]
  | u :: v :: rest =>
      if isHigh u && isLow v then char (pairChar u v) :: decodeWith alone char rest
      else (if isHigh u || isLow u then alone u else char (Char.ofNat u.toNat)) ::
        decodeWith alone char (v :: rest)

/-- The characters of a sequence, `none` for an unpaired surrogate. -/
def decodeUnits : Utf16String → List (Option Char) := decodeWith (fun _ => none) some

/-- No surrogate stands alone. -/
def Paired (u : Utf16String) : Prop := none ∉ decodeUnits u

instance (u : Utf16String) : Decidable (Paired u) := inferInstanceAs (Decidable (¬ _))

/-- U+FFFD, for what has no character. -/
def replacement : Char := Char.ofNat 0xFFFD

section Units

variable {u v : UInt16} {rest : Utf16String}

theorem isHigh_iff : isHigh u = true ↔ 0xD800 ≤ u.toNat ∧ u.toNat < 0xDC00 := by
  simp [isHigh, UInt16.le_iff_toNat_le, UInt16.lt_iff_toNat_lt]

theorem isLow_iff : isLow u = true ↔ 0xDC00 ≤ u.toNat ∧ u.toNat < 0xE000 := by
  simp [isLow, UInt16.le_iff_toNat_le, UInt16.lt_iff_toNat_lt]

variable {α : Type} {alone : UInt16 → α} {char : Char → α}

theorem decodeWith_char (h : (isHigh u || isLow u) = false) (rest : Utf16String) :
    decodeWith alone char (u :: rest) =
      char (Char.ofNat u.toNat) :: decodeWith alone char rest := by
  cases rest with
  | nil => simp [decodeWith, h]
  | cons v rest =>
      have hhigh : isHigh u = false := (Bool.or_eq_false_iff.mp h).1
      rw [decodeWith, hhigh, Bool.false_and, if_neg Bool.false_ne_true, ← hhigh, h,
        if_neg Bool.false_ne_true]

theorem decodeWith_pair (hu : isHigh u = true) (hv : isLow v = true) (rest : Utf16String) :
    decodeWith alone char (u :: v :: rest) = char (pairChar u v) :: decodeWith alone char rest := by
  rw [decodeWith, hu, hv]
  rfl

/-- A surrogate is alone when no other half follows. -/
def Alone (u : UInt16) (rest : Utf16String) : Prop :=
  (isHigh u || isLow u) = true ∧ (isHigh u && (rest.head?.any isLow)) = false

theorem decodeWith_alone (h : Alone u rest) :
    decodeWith alone char (u :: rest) = alone u :: decodeWith alone char rest := by
  obtain ⟨hsurrogate, halone⟩ := h
  cases rest with
  | nil => simp [decodeWith, hsurrogate]
  | cons v rest =>
      rw [List.head?_cons, Option.any_some] at halone
      rw [decodeWith, halone, if_neg Bool.false_ne_true, hsurrogate, if_pos rfl]

theorem decodeUnits_char (h : (isHigh u || isLow u) = false) (rest : Utf16String) :
    decodeUnits (u :: rest) = some (Char.ofNat u.toNat) :: decodeUnits rest :=
      decodeWith_char h rest

theorem decodeUnits_pair (hu : isHigh u = true) (hv : isLow v = true) (rest : Utf16String) :
    decodeUnits (u :: v :: rest) = some (pairChar u v) :: decodeUnits rest :=
  decodeWith_pair hu hv rest

theorem decodeUnits_alone (h : Alone u rest) :
    decodeUnits (u :: rest) = none :: decodeUnits rest := decodeWith_alone h

end Units

/-- By the characters of a sequence and its unpaired surrogates. -/
theorem unitsInduction {motive : Utf16String → Prop} (nil : motive [])
    (char : ∀ u rest, (isHigh u || isLow u) = false → motive rest → motive (u :: rest))
    (pair : ∀ u v rest, isHigh u = true → isLow v = true → motive rest → motive (u :: v :: rest))
    (alone : ∀ u rest, Alone u rest → motive rest → motive (u :: rest)) : ∀ u, motive u
  | [] => nil
  | [u] => by
      cases h : isHigh u || isLow u with
      | false => exact char u [] h nil
      | true => exact alone u [] ⟨h, Bool.and_false _⟩ nil
  | u :: v :: rest => by
      have htail := unitsInduction nil char pair alone (v :: rest)
      cases h : isHigh u || isLow u with
      | false => exact char u _ h htail
      | true =>
          cases hpair : isHigh u && isLow v with
          | false => exact alone u _ ⟨h, hpair⟩ htail
          | true =>
              obtain ⟨hu, hv⟩ := Bool.and_eq_true_iff.mp hpair
              exact pair u v rest hu hv (unitsInduction nil char pair alone rest)

/-- A lossy conversion replaces the unpaired surrogates. -/
theorem decodeLossy_eq : ∀ u : Utf16String,
    decodeLossy u = (decodeUnits u).map (Option.getD · replacement)
  | [] => rfl
  | [u] => by
      rw [decodeLossy, decodeUnits, decodeWith]
      split <;> rfl
  | u :: v :: rest => by
      have hrest := decodeLossy_eq rest
      have htail := decodeLossy_eq (v :: rest)
      rw [decodeUnits] at hrest htail
      rw [decodeLossy, decodeUnits, decodeWith]
      split
      · rw [hrest, List.map_cons, Option.getD_some, pairChar]
      · rw [List.map_cons, ← htail]
        split <;> rfl

/-! ### Characters and their units -/

theorem toNat_highBase : (0xD800 : UInt32).toNat = 0xD800 := rfl

theorem toNat_lowBase : (0xDC00 : UInt32).toNat = 0xDC00 := rfl

theorem toNat_halves : (0x400 : UInt32).toNat = 0x400 := rfl

theorem toNat_planes : (0x10000 : UInt32).toNat = 0x10000 := rfl

theorem toNat_ofNat {n : ℕ} (h : n.isValidChar) : (Char.ofNat n).toNat = n := by
  rw [Char.ofNat, dif_pos h]
  rfl

/-- Outside the surrogates a unit is a character. -/
theorem encodeChar_ofNat {u : UInt16} (h : (isHigh u || isLow u) = false) :
    encodeChar (Char.ofNat u.toNat) = [u] := by
  obtain ⟨hhigh, hlow⟩ := Bool.or_eq_false_iff.mp h
  have hnot : ¬ (0xD800 ≤ u.toNat ∧ u.toNat < 0xE000) := by
    intro hin
    by_cases hbelow : u.toNat < 0xDC00
    · rw [isHigh_iff.mpr ⟨hin.1, hbelow⟩] at hhigh
      cases hhigh
    · rw [isLow_iff.mpr ⟨by omega, hin.2⟩] at hlow
      cases hlow
  have hlt := u.toNat_lt
  have hvalid : u.toNat.isValidChar := by
    simp only [Nat.isValidChar]
    omega
  have hval : (Char.ofNat u.toNat).val.toNat = u.toNat := toNat_ofNat hvalid
  have hsmall : (Char.ofNat u.toNat).val < 0x10000 := by
    rw [UInt32.lt_iff_toNat_lt, hval]
    exact hlt
  rw [encodeChar, if_pos hsmall]
  congr 1
  apply UInt16.toNat_inj.mp
  rw [UInt32.toNat_toUInt16, hval]
  omega

theorem encodeChar_pairChar {u v : UInt16} (hu : isHigh u = true) (hv : isLow v = true) :
    encodeChar (pairChar u v) = [u, v] := by
  have hhigh := isHigh_iff.mp hu
  have hlow := isLow_iff.mp hv
  have hvalid : (0x10000 + (u.toNat - 0xD800) * 0x400 + (v.toNat - 0xDC00)).isValidChar := by
    simp only [Nat.isValidChar]
    omega
  have hval : (pairChar u v).val.toNat =
      0x10000 + (u.toNat - 0xD800) * 0x400 + (v.toNat - 0xDC00) := toNat_ofNat hvalid
  have hlarge : ¬ (pairChar u v).val < 0x10000 := by
    rw [UInt32.lt_iff_toNat_lt, hval, toNat_planes]
    omega
  have hoffset : ((pairChar u v).val - 0x10000).toNat =
      (u.toNat - 0xD800) * 0x400 + (v.toNat - 0xDC00) := by
    have hle : 0x10000 ≤ (pairChar u v).val := by
      rw [UInt32.le_iff_toNat_le, hval, toNat_planes]
      omega
    rw [UInt32.toNat_sub_of_le _ _ hle, hval, toNat_planes]
    omega
  rw [encodeChar, if_neg hlarge]
  refine List.cons_eq_cons.mpr ⟨?_, List.cons_eq_cons.mpr ⟨?_, rfl⟩⟩
  · apply UInt16.toNat_inj.mp
    rw [UInt32.toNat_toUInt16, UInt32.toNat_add, UInt32.toNat_div, hoffset, toNat_highBase,
      toNat_halves]
    omega
  · apply UInt16.toNat_inj.mp
    rw [UInt32.toNat_toUInt16, UInt32.toNat_add, UInt32.toNat_mod, hoffset, toNat_lowBase,
      toNat_halves]
    omega

/-- The units of a character are read as that character. -/
theorem decodeWith_encodeChar {α : Type} {alone : UInt16 → α} {char : Char → α} (c : Char)
    (rest : Utf16String) :
    decodeWith alone char (encodeChar c ++ rest) = char c :: decodeWith alone char rest := by
  have hvalid : c.val.toNat < 0xD800 ∨ 0xDFFF < c.val.toNat ∧ c.val.toNat < 0x110000 := c.valid
  by_cases hsmall : c.val < 0x10000
  · have hlt : c.val.toNat < 65536 := UInt32.lt_iff_toNat_lt.mp hsmall
    have hunit : c.val.toUInt16.toNat = c.val.toNat := by
      rw [UInt32.toNat_toUInt16]
      omega
    have hchar : (isHigh c.val.toUInt16 || isLow c.val.toUInt16) = false := by
      rw [Bool.or_eq_false_iff, ← Bool.not_eq_true, ← Bool.not_eq_true, isHigh_iff, isLow_iff,
        hunit]
      omega
    rw [encodeChar, if_pos hsmall, List.singleton_append, decodeWith_char hchar, hunit]
    exact congrArg (char · :: _) (Char.ofNat_toNat c)
  · have hge : 65536 ≤ c.val.toNat := by
      rw [UInt32.lt_iff_toNat_lt] at hsmall
      exact Nat.not_lt.mp hsmall
    have hoffset : (c.val - 0x10000).toNat = c.val.toNat - 65536 :=
      UInt32.toNat_sub_of_le _ _ (UInt32.le_iff_toNat_le.mpr hge)
    have hu : (0xD800 + (c.val - 0x10000) / 0x400).toUInt16.toNat =
        0xD800 + (c.val.toNat - 65536) / 1024 := by
      rw [UInt32.toNat_toUInt16, UInt32.toNat_add, UInt32.toNat_div, hoffset, toNat_highBase,
        toNat_halves]
      omega
    have hv : (0xDC00 + (c.val - 0x10000) % 0x400).toUInt16.toNat =
        0xDC00 + (c.val.toNat - 65536) % 1024 := by
      rw [UInt32.toNat_toUInt16, UInt32.toNat_add, UInt32.toNat_mod, hoffset, toNat_lowBase,
        toNat_halves]
      omega
    have hpair : pairChar (0xD800 + (c.val - 0x10000) / 0x400).toUInt16
        (0xDC00 + (c.val - 0x10000) % 0x400).toUInt16 = c := by
      rw [pairChar, hu, hv]
      conv_rhs => rw [← Char.ofNat_toNat c]
      have hnat : c.toNat = c.val.toNat := rfl
      rw [hnat]
      exact congrArg Char.ofNat (by omega)
    rw [encodeChar, if_neg hsmall]
    show decodeWith alone char (_ :: _ :: rest) = _
    rw [decodeWith_pair (isHigh_iff.mpr (by omega)) (isLow_iff.mpr (by omega)), hpair]

/-- A string is read as its characters, whatever follows. -/
theorem decodeWith_ofChars {α : Type} {alone : UInt16 → α} {char : Char → α} (cs : List Char)
    (rest : Utf16String) : decodeWith alone char (cs.flatMap encodeChar ++ rest) =
      cs.map char ++ decodeWith alone char rest := by
  induction cs with
  | nil => rfl
  | cons c cs ih =>
      rw [List.flatMap_cons, List.append_assoc, decodeWith_encodeChar, ih, List.map_cons,
        List.cons_append]

theorem decodeUnits_ofChars (cs : List Char) :
    decodeUnits (cs.flatMap encodeChar) = cs.map some := by
  have h : decodeUnits (cs.flatMap encodeChar ++ []) = cs.map some ++ [] := decodeWith_ofChars cs []
  rwa [List.append_nil, List.append_nil] at h

/-- A sequence is the units of its characters if it has no unpaired surrogates. -/
theorem ofChars_of_decodeUnits {u : Utf16String} (h : Paired u) :
    ((decodeUnits u).map (Option.getD · replacement)).flatMap encodeChar = u := by
  unfold Paired at h
  induction u using unitsInduction with
  | nil => rfl
  | char u rest hchar ih =>
      rw [decodeUnits_char hchar] at h ⊢
      rw [List.map_cons, List.flatMap_cons, Option.getD_some, encodeChar_ofNat hchar,
        ih fun hmem => h (.tail _ hmem)]
      rfl
  | pair u v rest hu hv ih =>
      rw [decodeUnits_pair hu hv] at h ⊢
      rw [List.map_cons, List.flatMap_cons, Option.getD_some, encodeChar_pairChar hu hv,
        ih fun hmem => h (.tail _ hmem)]
      rfl
  | alone u rest halone ih =>
      rw [decodeUnits_alone halone] at h
      exact absurd (.head _) h

/-! ### There and back -/

theorem ofString_toText (u : Utf16String) :
    ofString (toText u) = ((decodeUnits u).map (Option.getD · replacement)).flatMap encodeChar := by
  rw [ofString, toText, String.toList_ofList, decodeLossy_eq]

/-- What comes back is read as the same characters, with the replacement for `none`. -/
theorem decodeUnits_ofString_toText (u : Utf16String) :
    decodeUnits (ofString (toText u)) =
      (decodeUnits u).map fun c => some (c.getD replacement) := by
  rw [ofString_toText, decodeUnits_ofChars, List.map_map]
  rfl

theorem ofString_toText_eq_iff (u : Utf16String) : ofString (toText u) = u ↔ Paired u := by
  constructor
  · intro h hnone
    rw [← h, decodeUnits_ofString_toText] at hnone
    obtain ⟨c, -, hc⟩ := List.mem_map.mp hnone
    cases hc
  · intro h
    rw [ofString_toText, ofChars_of_decodeUnits h]

theorem paired_ofString (s : String) : Paired (ofString s) := by
  intro hnone
  rw [ofString, decodeUnits_ofChars] at hnone
  obtain ⟨c, -, hc⟩ := List.mem_map.mp hnone
  cases hc

theorem toText_ofString (s : String) : toText (ofString s) = s := by
  have hchars : decodeLossy (ofString s) = s.toList := by
    rw [decodeLossy_eq, ofString, decodeUnits_ofChars, List.map_map]
    exact List.map_id _
  rw [toText, hchars, String.ofList_toList]

theorem ofString_inj {s t : String} : ofString s = ofString t ↔ s = t := by
  refine ⟨fun h => ?_, congrArg ofString⟩
  rw [← toText_ofString s, h, toText_ofString]

/-- Sequences without unpaired surrogates are told apart. -/
theorem toText_inj {u v : Utf16String} (hu : Paired u) (hv : Paired v) :
    toText u = toText v ↔ u = v := by
  refine ⟨fun h => ?_, congrArg toText⟩
  rw [← (ofString_toText_eq_iff u).mpr hu, h, (ofString_toText_eq_iff v).mpr hv]

theorem toText_eq_iff {u v : Utf16String} : toText u = toText v ↔ decodeLossy u = decodeLossy v :=
  ⟨fun h => String.ofList_injective h, congrArg String.ofList⟩

/-! ### Surrogates between characters -/

/-- What follows an unpaired surrogate may be any character. -/
theorem alone_ofChars {x : UInt16} (hx : (isHigh x || isLow x) = true) (cs : List Char) :
    Alone x (cs.flatMap encodeChar) := by
  refine ⟨hx, ?_⟩
  cases hlow : (cs.flatMap encodeChar).head?.any isLow with
  | false => exact Bool.and_false _
  | true =>
      -- a character does not start with the second half of a pair
      have hread := decodeUnits_ofChars cs
      cases hunits : cs.flatMap encodeChar with
      | nil =>
          rw [hunits] at hlow
          cases hlow
      | cons y rest =>
          rw [hunits] at hlow hread
          have hy : isLow y = true := hlow
          have hhigh : isHigh y = false := by
            rw [← Bool.not_eq_true, isHigh_iff]
            have := isLow_iff.mp hy
            omega
          have hyalone : Alone y rest := ⟨by rw [hy, Bool.or_true], by rw [hhigh, Bool.false_and]⟩
          rw [decodeUnits_alone hyalone] at hread
          cases cs with
          | nil => cases hread
          | cons c cs => cases hread

/-- Characters around an unpaired surrogate. -/
def around (before : List Char) (x : UInt16) (after : List Char) : Utf16String :=
  before.flatMap encodeChar ++ x :: after.flatMap encodeChar

theorem decodeWith_around {α : Type} {alone : UInt16 → α} {char : Char → α} {x : UInt16}
    (hx : (isHigh x || isLow x) = true) (before after : List Char) :
    decodeWith alone char (around before x after) =
      before.map char ++ alone x :: after.map char := by
  have hafter : decodeWith alone char (after.flatMap encodeChar ++ []) = after.map char ++ [] :=
    decodeWith_ofChars after []
  rw [List.append_nil, List.append_nil] at hafter
  rw [around, decodeWith_ofChars, decodeWith_alone (alone_ofChars hx after), hafter]

theorem not_paired_around {x : UInt16} (hx : (isHigh x || isLow x) = true)
    (before after : List Char) : ¬ Paired (around before x after) := by
  rw [Paired, decodeUnits, decodeWith_around hx]
  simp

/-- A lossy conversion confuses exactly the sequences with a replacement or an unpaired
surrogate. -/
theorem toText_ne_iff (u : Utf16String) : (∀ v, v ≠ u → toText v ≠ toText u) ↔
    Paired u ∧ replacement ∉ decodeLossy u := by
  constructor
  · intro h
    have hpaired : Paired u := by
      by_contra hnot
      have hne : ofString (toText u) ≠ u := fun heq => hnot ((ofString_toText_eq_iff u).mp heq)
      exact h _ hne (toText_ofString _)
    refine ⟨hpaired, fun hmem => ?_⟩
    obtain ⟨before, after, hsplit⟩ := List.append_of_mem hmem
    have hne : around before 0xD800 after ≠ u := fun heq =>
      not_paired_around (by decide) before after (heq ▸ hpaired)
    refine h _ hne (toText_eq_iff.mpr ?_)
    have hchars (cs : List Char) : (cs.map some).map (Option.getD · replacement) = cs := by
      rw [List.map_map]
      exact List.map_id cs
    rw [decodeLossy_eq, decodeUnits, decodeWith_around (by decide), hsplit, List.map_append,
      List.map_cons, hchars, hchars, Option.getD_none]
  · rintro ⟨hpaired, hnot⟩ v hne heq
    have hv : ¬ Paired v := fun hv => hne ((toText_inj hv hpaired).mp heq)
    refine hnot ?_
    rw [← toText_eq_iff.mp heq, decodeLossy_eq]
    exact List.mem_map.mpr ⟨none, not_not.mp hv, rfl⟩

/-! ### Escapes -/

section Escapes

variable (digit : ℕ → Char)

/-- The `\uXXXX` of a unit, in digits of base 16. -/
def escapeUnit (u : UInt16) : List Char :=
  ['\\', 'u', digit (u.toNat / 4096), digit (u.toNat / 256 % 16), digit (u.toNat / 16 % 16),
    digit (u.toNat % 16)]

def escapedChars (u : Utf16String) : List Char :=
  (decodeWith (escapeUnit digit) ([·]) u).flatten

/-- `to_std_string_escaped`: an unpaired surrogate is written as its escape. -/
def toEscaped (u : Utf16String) : String := String.ofList (escapedChars digit u)

/-- No escape of a surrogate stands among the characters. -/
def Unescaped (u : Utf16String) : Prop :=
  ∀ x, (isHigh x || isLow x) = true → ¬ escapeUnit digit x <:+: decodeLossy u

variable {digit}

theorem flatten_singletons (cs : List Char) : (cs.map ([·])).flatten = cs := by
  induction cs with
  | nil => rfl
  | cons c cs ih => rw [List.map_cons, List.flatten_cons, ih, List.singleton_append]

theorem escapedChars_around {x : UInt16} (hx : (isHigh x || isLow x) = true)
    (before after : List Char) :
    escapedChars digit (around before x after) = before ++ escapeUnit digit x ++ after := by
  rw [escapedChars, decodeWith_around hx, List.flatten_append, List.flatten_cons,
    flatten_singletons, flatten_singletons, List.append_assoc]

/-- The length tells how many surrogates are escaped. -/
theorem length_escapedChars (u : Utf16String) : (escapedChars digit u).length =
    (decodeLossy u).length + 5 * (decodeUnits u).count none := by
  rw [decodeLossy_eq, List.length_map]
  induction u using unitsInduction with
  | nil => rfl
  | char u rest hchar ih =>
      rw [escapedChars, decodeWith_char hchar, decodeUnits_char hchar]
      rw [escapedChars] at ih
      simp only [List.flatten_cons, List.length_append, List.length_cons, List.length_nil, ih,
        List.count_cons_of_ne (Option.some_ne_none _)]
      omega
  | pair u v rest hu hv ih =>
      rw [escapedChars, decodeWith_pair hu hv, decodeUnits_pair hu hv]
      rw [escapedChars] at ih
      simp only [List.flatten_cons, List.length_append, List.length_cons, List.length_nil, ih,
        List.count_cons_of_ne (Option.some_ne_none _)]
      omega
  | alone u rest halone ih =>
      rw [escapedChars, decodeWith_alone halone, decodeUnits_alone halone]
      rw [escapedChars] at ih
      have hsix : (escapeUnit digit u).length = 6 := rfl
      simp only [List.flatten_cons, List.length_append, List.length_cons, ih, hsix,
        List.count_cons_self]
      omega

/-- The escaped text is the lossy one when nothing is escaped. -/
theorem escapedChars_eq_iff (u : Utf16String) :
    escapedChars digit u = decodeLossy u ↔ Paired u := by
  constructor
  · intro h hnone
    have hlength := @length_escapedChars digit u
    have hcount := List.count_pos_iff.mpr hnone
    rw [h] at hlength
    omega
  · intro h
    have hchars : (decodeLossy u).flatMap encodeChar = u := by
      rw [decodeLossy_eq]
      exact ofChars_of_decodeUnits h
    have hall : ∀ cs : List Char, escapedChars digit (cs.flatMap encodeChar) = cs := by
      intro cs
      have hread : decodeWith (escapeUnit digit) ([·]) (cs.flatMap encodeChar ++ []) =
          cs.map ([·]) ++ [] := decodeWith_ofChars cs []
      rw [List.append_nil, List.append_nil] at hread
      rw [escapedChars, hread, flatten_singletons]
    conv_lhs => rw [← hchars]
    exact hall _

theorem toEscaped_eq_toText_iff (u : Utf16String) : toEscaped digit u = toText u ↔ Paired u := by
  rw [← @escapedChars_eq_iff digit]
  exact ⟨fun h => String.ofList_injective h, congrArg String.ofList⟩

/-- An unpaired surrogate leaves its escape. -/
theorem escape_of_not_paired {u : Utf16String} (h : ¬ Paired u) :
    ∃ x, (isHigh x || isLow x) = true ∧ escapeUnit digit x <:+: escapedChars digit u := by
  rw [Paired, not_not] at h
  induction u using unitsInduction with
  | nil => cases h
  | char u rest hchar ih =>
      rw [decodeUnits_char hchar] at h
      obtain ⟨x, hx, hinfix⟩ := ih (List.mem_of_ne_of_mem (Option.some_ne_none _).symm h)
      refine ⟨x, hx, ?_⟩
      rw [escapedChars, decodeWith_char hchar, List.flatten_cons]
      exact hinfix.trans (List.suffix_append _ _).isInfix
  | pair u v rest hu hv ih =>
      rw [decodeUnits_pair hu hv] at h
      obtain ⟨x, hx, hinfix⟩ := ih (List.mem_of_ne_of_mem (Option.some_ne_none _).symm h)
      refine ⟨x, hx, ?_⟩
      rw [escapedChars, decodeWith_pair hu hv, List.flatten_cons]
      exact hinfix.trans (List.suffix_append _ _).isInfix
  | alone u rest halone ih =>
      refine ⟨u, halone.1, ?_⟩
      rw [escapedChars, decodeWith_alone halone, List.flatten_cons]
      exact (List.prefix_append _ _).isInfix

/-- Escaping confuses exactly the sequences with an unpaired surrogate or an escape of one. -/
theorem toEscaped_ne_iff (u : Utf16String) : (∀ v, v ≠ u → toEscaped digit v ≠ toEscaped digit u) ↔
    Paired u ∧ Unescaped digit u := by
  constructor
  · intro h
    have hpaired : Paired u := by
      by_contra hnot
      have hpaired' := paired_ofString (toEscaped digit u)
      have hne : ofString (toEscaped digit u) ≠ u := fun heq => hnot (heq ▸ hpaired')
      refine h _ hne ?_
      rw [(toEscaped_eq_toText_iff _).mpr hpaired', toText_ofString]
    refine ⟨hpaired, fun x hx hinfix => ?_⟩
    obtain ⟨before, after, hsplit⟩ := hinfix
    have hne : around before x after ≠ u := fun heq =>
      not_paired_around hx before after (heq ▸ hpaired)
    refine h _ hne (congrArg String.ofList ?_)
    rw [escapedChars_around hx, hsplit, (escapedChars_eq_iff u).mpr hpaired]
  · rintro ⟨hpaired, hunescaped⟩ v hne heq
    have hchars : escapedChars digit v = decodeLossy u := by
      rw [← (@escapedChars_eq_iff digit u).mpr hpaired]
      exact String.ofList_injective heq
    by_cases hv : Paired v
    · refine hne ((toText_inj hv hpaired).mp (toText_eq_iff.mpr ?_))
      rw [← hchars, (escapedChars_eq_iff v).mpr hv]
    · obtain ⟨x, hx, hinfix⟩ := @escape_of_not_paired digit v hv
      rw [hchars] at hinfix
      exact hunescaped x hx hinfix

end Escapes

end BoaIdb.Utf16String
