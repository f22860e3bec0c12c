import Mathlib.Algebra.Order.Ring.Nat
import Mathlib.Data.Nat.Bitwise
import Mathlib.Tactic.NormNum
import Mathlib.Tactic.Ring

/-!
Numbers in groups of seven bits, least significant group first.

The facts that a loop over the groups needs: a group that is shifted into place adds to
what was read before, and the rest of the number stays below the width of the result.
-/

namespace Leb128

variable {v shift result : ℕ}

/-- Below the width, a group fills bits that are still zero. -/
theorem or_group (hresult : result < 2 ^ shift) (hwidth : v * 2 ^ shift < 2 ^ 64) :
    result ||| (((v % 128) <<< shift) % 2 ^ 64) = result + (v % 128) * 2 ^ shift := by
  have hle : (v % 128) * 2 ^ shift ≤ v * 2 ^ shift := Nat.mul_le_mul_right _ (Nat.mod_le v 128)
  rw [Nat.shiftLeft_eq, Nat.mod_eq_of_lt (by omega), Nat.or_comm, Nat.mul_comm,
    ← Nat.two_pow_add_eq_or_of_lt hresult, Nat.add_comm]

theorem next_result_lt (hresult : result < 2 ^ shift) :
    result + v % 128 * 2 ^ shift < 2 ^ (shift + 7) := by
  calc result + v % 128 * 2 ^ shift < 2 ^ shift + 127 * 2 ^ shift :=
        Nat.add_lt_add_of_lt_of_le hresult (Nat.mul_le_mul_right _ (by omega))
    _ = 2 ^ (shift + 7) := by rw [pow_add]; ring

/-! ### Exact sums

A reader that fills a 64-bit number group by group returns the exact sum of the groups up to a
multiple of `2 ^ 64`; the tenth group is the only one that can reach beyond the width. -/

/-- The exact sum of the groups. -/
def denotes : List UInt8 → ℕ
  | [] => 0
  | b :: code => b.toNat % 128 + 128 * denotes code

theorem denotes_append (code code' : List UInt8) :
    denotes (code ++ code') = denotes code + 128 ^ code.length * denotes code' := by
  induction code with
  | nil => simp [denotes]
  | cons b code ih =>
      rw [List.cons_append, denotes, denotes, ih, List.length_cons, pow_succ]
      ring

theorem denotes_lt (code : List UInt8) : denotes code < 128 ^ code.length := by
  induction code with
  | nil => exact Nat.one_pos
  | cons b code ih =>
      have hgroup : b.toNat % 128 < 128 := Nat.mod_lt _ (by norm_num)
      rw [denotes, List.length_cons, pow_succ]
      omega

/-- Bytes behind which another one follows. -/
def Continues (more : List UInt8) : Prop := ∀ b ∈ more, 128 ≤ b.toNat

/-- A tenth byte that ends a number is zero or one. -/
def TenthFits (input : List UInt8) : Prop :=
  ∀ b, input[9]? = some b → Continues (input.take 9) → b.toNat < 128 → b.toNat < 2

/-- Up to ten groups make a number below the width when the tenth is zero or one. -/
theorem denotes_lt_iff {more : List UInt8} {last : UInt8} (hlength : more.length ≤ 9)
    (hlast : last.toNat < 128) :
    denotes (more ++ [last]) < 2 ^ 64 ↔ (more.length = 9 → last.toNat < 2) := by
  have hsum : denotes (more ++ [last]) = denotes more + 128 ^ more.length * last.toNat := by
    rw [denotes_append, denotes, denotes, Nat.mod_eq_of_lt hlast, Nat.mul_zero, Nat.add_zero]
  have hmore := denotes_lt more
  rw [hsum]
  by_cases hnine : more.length = 9
  · rw [hnine] at hmore ⊢
    have hpow : (128 : ℕ) ^ 9 = 2 ^ 63 := by norm_num
    rw [hpow] at hmore ⊢
    constructor
    · intro h _
      omega
    · intro h
      have hbit := h rfl
      omega
  · have hall : denotes more + 128 ^ more.length * last.toNat < 128 ^ 9 := by
      calc denotes more + 128 ^ more.length * last.toNat
          < 128 ^ more.length + 128 ^ more.length * 127 :=
            Nat.add_lt_add_of_lt_of_le hmore (Nat.mul_le_mul_left _ (by omega))
        _ = 128 ^ (more.length + 1) := by rw [pow_succ]; ring
        _ ≤ 128 ^ 9 := Nat.pow_le_pow_right (by norm_num) (by omega)
    have hpow : (128 : ℕ) ^ 9 ≤ 2 ^ 64 := by norm_num
    exact iff_of_true (by omega) fun h => absurd h hnine

/-- A group in its place, up to the width. -/
theorem or_group_mod (g : ℕ) (hresult : result < 2 ^ shift) (hshift : shift < 64) :
    result ||| ((g <<< shift) % 2 ^ 64) = (result + g * 2 ^ shift) % 2 ^ 64 := by
  have hsplit : (2 : ℕ) ^ 64 = 2 ^ (64 - shift) * 2 ^ shift := by
    rw [← pow_add]
    congr 1
    omega
  have hgroup : (g <<< shift) % 2 ^ 64 = 2 ^ shift * (g % 2 ^ (64 - shift)) := by
    rw [Nat.shiftLeft_eq, hsplit, Nat.mul_mod_mul_right, Nat.mul_comm]
  have hfits : result + 2 ^ shift * (g % 2 ^ (64 - shift)) < 2 ^ 64 := by
    have hlow : g % 2 ^ (64 - shift) + 1 ≤ 2 ^ (64 - shift) := Nat.mod_lt _ (by positivity)
    calc result + 2 ^ shift * (g % 2 ^ (64 - shift))
        < 2 ^ shift + 2 ^ shift * (g % 2 ^ (64 - shift)) := by omega
      _ = 2 ^ shift * (g % 2 ^ (64 - shift) + 1) := by ring
      _ ≤ 2 ^ shift * 2 ^ (64 - shift) := Nat.mul_le_mul_left _ hlow
      _ = 2 ^ 64 := by rw [hsplit, Nat.mul_comm]
  rw [Nat.add_mod, ← Nat.shiftLeft_eq, hgroup, Nat.or_comm, ← Nat.two_pow_add_eq_or_of_lt hresult,
    Nat.add_comm, Nat.mod_eq_of_lt (show result < 2 ^ 64 by omega), Nat.mod_eq_of_lt hfits]

/-- A loop that fills a 64-bit number, `shift` being the place of the next group. -/
structure GroupLoop {ε : Type} (loop : ℕ → ℕ → List UInt8 → Except ε (ℕ × List UInt8)) : Prop where
  /-- Input that ends inside a number is refused. -/
  nil : ∀ shift result, ∃ e, loop shift result [] = .error e
  /-- A byte below 128 is the last group. -/
  last : ∀ {shift : ℕ} {b : UInt8} (result : ℕ) (rest : List UInt8), shift < 64 → b.toNat < 128 →
    loop shift result (b :: rest) = .ok (result ||| (((b.toNat % 128) <<< shift) % 2 ^ 64), rest)
  /-- Behind another byte there is a place for the next group. -/
  next : ∀ {shift : ℕ} {b : UInt8} (result : ℕ) (rest : List UInt8), shift + 7 < 64 →
    128 ≤ b.toNat →
    loop shift result (b :: rest) =
      loop (shift + 7) (result ||| (((b.toNat % 128) <<< shift) % 2 ^ 64)) rest
  /-- Or there is none. -/
  full : ∀ {shift : ℕ} {b : UInt8} (result : ℕ) (rest : List UInt8), shift < 64 →
    64 ≤ shift + 7 → 128 ≤ b.toNat → ∃ e, loop shift result (b :: rest) = .error e

section Loops

variable {ε : Type} {loop : ℕ → ℕ → List UInt8 → Except ε (ℕ × List UInt8)}

/-- Groups that fit are read as their sum, up to the width. -/
theorem GroupLoop.reads (h : GroupLoop loop) {last : UInt8} (rest : List UInt8)
    (hlast : last.toNat < 128) : ∀ {more : List UInt8} {shift result : ℕ}, Continues more →
    shift + 7 * more.length < 64 → result < 2 ^ shift →
    loop shift result (more ++ last :: rest) =
      .ok ((result + denotes (more ++ [last]) * 2 ^ shift) % 2 ^ 64, rest)
  | [], shift, result, _, hshift, hresult => by
      have hgroup : denotes [last] = last.toNat % 128 := Nat.add_zero _
      rw [List.nil_append, List.nil_append, h.last result rest (by simpa using hshift) hlast,
        or_group_mod _ hresult (by simpa using hshift), hgroup]
  | b :: more, shift, result, hmore, hshift, hresult => by
      rw [List.length_cons] at hshift
      have hfits : b.toNat % 128 * 2 ^ shift < 2 ^ 64 := by
        calc b.toNat % 128 * 2 ^ shift ≤ 128 * 2 ^ shift := Nat.mul_le_mul_right _ (by omega)
          _ = 2 ^ (shift + 7) := by rw [pow_add]; ring
          _ < 2 ^ 64 := Nat.pow_lt_pow_right (by norm_num) (by omega)
      have hgroup := or_group hresult hfits
      rw [Nat.mod_mod] at hgroup
      rw [List.cons_append, h.next result _ (by omega) (hmore b (.head _)), hgroup,
        GroupLoop.reads h rest hlast (fun c hc => hmore c (.tail _ hc)) (by omega)
          (next_result_lt hresult), List.cons_append, denotes]
      congr 3
      rw [pow_add]
      ring

/-- What is read is a number of groups that fit. -/
theorem GroupLoop.groups (h : GroupLoop loop) : ∀ {input : List UInt8} {shift result val : ℕ}
    {rest : List UInt8}, shift < 64 → loop shift result input = .ok (val, rest) →
    ∃ more last, input = more ++ last :: rest ∧ Continues more ∧ last.toNat < 128 ∧
      shift + 7 * more.length < 64
  | [], shift, result, val, rest, _, hread => by
      obtain ⟨e, herror⟩ := h.nil shift result
      rw [herror] at hread
      cases hread
  | b :: input, shift, result, val, rest, hshift, hread => by
      by_cases hlast : b.toNat < 128
      · rw [h.last result input hshift hlast] at hread
        cases hread
        exact ⟨[], b, rfl, nofun, hlast, by simpa using hshift⟩
      · by_cases hnext : shift + 7 < 64
        · rw [h.next result input hnext (by omega)] at hread
          obtain ⟨more, last, rfl, hmore, hend, hlength⟩ := GroupLoop.groups h hnext hread
          refine ⟨b :: more, last, rfl, ?_, hend, by rw [List.length_cons]; omega⟩
          intro c hc
          rcases List.mem_cons.mp hc with rfl | hc
          · omega
          · exact hmore c hc
        · obtain ⟨e, herror⟩ := h.full result input hshift (by omega) (show 128 ≤ b.toNat by omega)
          rw [herror] at hread
          cases hread

/-- What is read fits the width. -/
theorem GroupLoop.val_lt (h : GroupLoop loop) {input rest : List UInt8} {val : ℕ}
    (hread : loop 0 0 input = .ok (val, rest)) : val < 2 ^ 64 := by
  obtain ⟨more, last, rfl, hmore, hlast, hlength⟩ := h.groups (by norm_num) hread
  have hsum : loop 0 0 (more ++ last :: rest) =
      .ok ((0 + denotes (more ++ [last]) * 2 ^ 0) % 2 ^ 64, rest) :=
    h.reads rest hlast hmore hlength (by norm_num)
  rw [hread] at hsum
  cases hsum
  exact Nat.mod_lt _ (by norm_num)

/-- An input that is read is read as the exact sum of its groups. -/
def Exact (loop : ℕ → ℕ → List UInt8 → Except ε (ℕ × List UInt8)) (input : List UInt8) : Prop :=
  ∀ val rest, loop 0 0 input = .ok (val, rest) →
    ∃ code, input = code ++ rest ∧ denotes code = val ∧ val < 2 ^ 64

theorem GroupLoop.exact_iff (h : GroupLoop loop) (input : List UInt8) :
    Exact loop input ↔ TenthFits input := by
  constructor
  · intro hexact b hb hmore hend
    have hlength : 9 < input.length := (List.getElem?_eq_some_iff.mp hb).1
    have hnine : (input.take 9).length = 9 := by rw [List.length_take]; omega
    have hsplit : input = input.take 9 ++ b :: input.drop 10 := by
      conv_lhs => rw [← List.take_append_drop 9 input]
      rw [List.drop_eq_getElem_cons hlength]
      congr 2
      exact (List.getElem?_eq_some_iff.mp hb).2
    have hread : loop 0 0 (input.take 9 ++ b :: input.drop 10) =
        .ok ((0 + denotes (input.take 9 ++ [b]) * 2 ^ 0) % 2 ^ 64, input.drop 10) :=
      h.reads (input.drop 10) hend hmore (by omega) (by norm_num)
    rw [← hsplit] at hread
    obtain ⟨code, hcode, hdenotes, hlt⟩ := hexact _ _ hread
    have heq : code = input.take 9 ++ [b] := by
      have hboth : code ++ input.drop 10 = (input.take 9 ++ [b]) ++ input.drop 10 := by
        rw [← hcode, List.append_assoc, List.singleton_append, ← hsplit]
      exact List.append_cancel_right hboth
    rw [← hdenotes, heq] at hlt
    exact (denotes_lt_iff hnine.le hend).mp hlt hnine
  · intro hfits val rest hread
    obtain ⟨more, last, rfl, hmore, hend, hlength⟩ := h.groups (by norm_num) hread
    have hsum : loop 0 0 (more ++ last :: rest) =
        .ok ((0 + denotes (more ++ [last]) * 2 ^ 0) % 2 ^ 64, rest) :=
      h.reads rest hend hmore hlength (by norm_num)
    have hlt : denotes (more ++ [last]) < 2 ^ 64 := by
      refine (denotes_lt_iff (by omega) hend).mpr fun hnine => hfits last ?_ ?_ hend
      · rw [← hnine, List.getElem?_append_right (Nat.le_refl _), Nat.sub_self]
        rfl
      · rw [← hnine, List.take_left]
        exact hmore
    rw [hread, pow_zero, mul_one, zero_add, Nat.mod_eq_of_lt hlt] at hsum
    cases hsum
    exact ⟨more ++ [last], by rw [List.append_assoc, List.singleton_append], rfl, hlt⟩

/-! ### Writers -/

/-- A loop that writes a number in groups, in at most so many passes. -/
structure GroupWriter (write : ℕ → ℕ → List UInt8) : Prop where
  last : ∀ passes {v}, v / 128 = 0 → write (passes + 1) v = [UInt8.ofNat (v % 128)]
  next : ∀ passes {v}, v / 128 ≠ 0 →
    write (passes + 1) v = UInt8.ofNat (v % 128 + 128) :: write passes (v / 128)

/-- What is written are the groups of the number. -/
theorem GroupWriter.groups {write : ℕ → ℕ → List UInt8} (h : GroupWriter write) :
    ∀ {passes v : ℕ}, v < 128 ^ (passes + 1) → ∃ more last, write (passes + 1) v = more ++ [last] ∧
      Continues more ∧ last.toNat < 128 ∧ more.length ≤ passes ∧ denotes (more ++ [last]) = v
  | passes, v, hv => by
      by_cases hlast : v / 128 = 0
      · have hsmall : v < 128 := Nat.lt_of_div_eq_zero (by norm_num) hlast
        have hbyte : (UInt8.ofNat (v % 128)).toNat = v := by
          rw [UInt8.toNat_ofNat', Nat.mod_eq_of_lt hsmall]
          omega
        refine ⟨[], _, h.last passes hlast, nofun, by omega, Nat.zero_le _, ?_⟩
        rw [List.nil_append, denotes, denotes, hbyte]
        omega
      · have hbyte : (UInt8.ofNat (v % 128 + 128)).toNat = v % 128 + 128 := by
          rw [UInt8.toNat_ofNat']
          omega
        cases passes with
        | zero =>
            have hsmall : v < 128 := by simpa using hv
            exact absurd (Nat.div_eq_of_lt hsmall) hlast
        | succ passes =>
            have hrest : v / 128 < 128 ^ (passes + 1) := by
              rw [pow_succ] at hv
              exact Nat.div_lt_of_lt_mul (by omega)
            obtain ⟨more, last, hwrite, hmore, hend, hlength, hsum⟩ := GroupWriter.groups h hrest
            refine ⟨UInt8.ofNat (v % 128 + 128) :: more, last, ?_, ?_, hend, ?_, ?_⟩
            · rw [h.next (passes + 1) hlast, hwrite, List.cons_append]
            · intro c hc
              rcases List.mem_cons.mp hc with rfl | hc
              · omega
              · exact hmore c hc
            · rw [List.length_cons]
              omega
            · rw [List.cons_append, denotes, hsum, hbyte]
              omega

/-- A 64-bit number is read back from its groups, whatever follows them. -/
theorem GroupLoop.round_trip (h : GroupLoop loop) {write : ℕ → ℕ → List UInt8}
    (hwrite : GroupWriter write) (v : UInt64) (rest : List UInt8) :
    loop 0 0 (write 10 v.toNat ++ rest) = .ok (v.toNat, rest) := by
  have hv : v.toNat < 128 ^ (9 + 1) := lt_trans v.toNat_lt (by norm_num)
  obtain ⟨more, last, hcode, hmore, hend, hlength, hsum⟩ := hwrite.groups hv
  have hread : loop 0 0 (more ++ last :: rest) =
      .ok ((0 + denotes (more ++ [last]) * 2 ^ 0) % 2 ^ 64, rest) :=
    h.reads rest hend hmore (by omega) (by norm_num)
  rw [hcode, List.append_assoc, List.singleton_append, hread, hsum, pow_zero, mul_one, zero_add,
    Nat.mod_eq_of_lt v.toNat_lt]

end Loops

end Leb128
