import Mathlib.Data.List.Lex
import Mathlib.Order.Compare
import Mathlib.Tactic.NormNum
import BoaIdb.Lib.ByteCodec

/-!
Order-preserving codes.

Two words agree with an ordering when, whatever follows them, they compare by that
ordering first and by what follows next. Such words concatenate, so a code is shown
to preserve an order field by field and item by item.
-/

namespace OrderedCode

section Words

variable {σ : Type} {c : σ → σ → Ordering}

/-- Followed by anything, the words compare as `o` and then as what follows. -/
def Agrees (c : σ → σ → Ordering) (o : Ordering) (x y : List σ) : Prop :=
  ∀ rest rest', (x ++ rest).compareLex c (y ++ rest') = o.then (rest.compareLex c rest')

theorem Agrees.compareLex_eq {o : Ordering} {x y : List σ} (h : Agrees c o x y) :
    x.compareLex c y = o := by
  have hnil := h [] []
  rw [List.append_nil, List.append_nil] at hnil
  rw [hnil]
  cases o <;> rfl

theorem Agrees.nil : Agrees c .eq [] [] := fun _ _ => rfl

theorem agrees_symbol (a b : σ) : Agrees c (c a b) [a] [b] :=
  fun _ _ => List.compareLex_cons_cons

theorem Agrees.append {o o' : Ordering} {x x' y y' : List σ} (h : Agrees c o x y)
    (h' : Agrees c o' x' y') : Agrees c (o.then o') (x ++ x') (y ++ y') := by
  intro rest rest'
  rw [List.append_assoc, List.append_assoc, h, h', Ordering.then_assoc]

theorem agrees_cons {o : Ordering} {x y : List σ} (a b : σ) (h : Agrees c o x y) :
    Agrees c ((c a b).then o) (a :: x) (b :: y) :=
  (agrees_symbol a b).append h

/-- Different first symbols decide. -/
theorem agrees_of_lt {a b : σ} (h : c a b = .lt) (x y : List σ) :
    Agrees c .lt (a :: x) (b :: y) := by
  intro rest rest'
  rw [List.cons_append, List.cons_append, List.compareLex_cons_cons, h]
  rfl

section Reflexive

variable [Std.ReflCmp c]

/-- A common first symbol does not matter. -/
theorem Agrees.cons {o : Ordering} {x y : List σ} (a : σ) (h : Agrees c o x y) :
    Agrees c o (a :: x) (a :: y) := by
  have hself : c a a = .eq := Std.ReflCmp.compare_self
  have hcons := agrees_cons a a h
  rwa [hself] at hcons

theorem agrees_self (x : List σ) : Agrees c .eq x x := by
  induction x with
  | nil => exact .nil
  | cons a x ih => exact ih.cons a

end Reflexive

section Oriented

variable [Std.OrientedCmp c]

theorem compareLex_swap (x y : List σ) : (x.compareLex c y).swap = y.compareLex c x := by
  induction x generalizing y with
  | nil => cases y <;> rfl
  | cons a x ih =>
      cases y with
      | nil => rfl
      | cons b y =>
          have hswap : c b a = (c a b).swap := Std.OrientedCmp.eq_swap
          rw [List.compareLex_cons_cons, List.compareLex_cons_cons, Ordering.swap_then, ih, hswap]

theorem Agrees.swap {o : Ordering} {x y : List σ} (h : Agrees c o x y) : Agrees c o.swap y x := by
  intro rest rest'
  rw [← compareLex_swap, h, Ordering.swap_then, compareLex_swap]

end Oriented

end Words

section Items

variable {α σ : Type} {c : σ → σ → Ordering} [Std.OrientedCmp c] {ord : α → α → Ordering}
  {enc : α → List σ} {terminator : List σ}

/-- Items one after the other, behind them a word that is smaller than any of them. -/
theorem agrees_items (as bs : List α)
    (hitems : ∀ a ∈ as, ∀ b ∈ bs, Agrees c (ord a b) (enc a) (enc b))
    (hfirst : ∀ a, a ∈ as ∨ a ∈ bs → Agrees c .lt terminator (enc a)) :
    Agrees c (as.compareLex ord bs) (as.flatMap enc ++ terminator)
      (bs.flatMap enc ++ terminator) := by
  have hlt {b : α} {bs : List α} (h : Agrees c .lt terminator (enc b)) :
      Agrees c .lt terminator ((b :: bs).flatMap enc ++ terminator) := by
    intro rest rest'
    rw [List.flatMap_cons, List.append_assoc, List.append_assoc, h]
    rfl
  induction as generalizing bs with
  | nil =>
      cases bs with
      | nil => exact agrees_self _
      | cons b bs => exact hlt (hfirst b (.inr (by simp)))
  | cons a as ih =>
      cases bs with
      | nil => exact (hlt (hfirst a (.inl (by simp)))).swap
      | cons b bs =>
          have hhead := hitems a (by simp) b (by simp)
          have htail := ih bs (fun a' ha' b' hb' => hitems a' (.tail _ ha') b' (.tail _ hb'))
            fun x hx => hfirst x (hx.imp (.tail _) (.tail _))
          rw [List.compareLex_cons_cons, List.flatMap_cons, List.flatMap_cons, List.append_assoc,
            List.append_assoc]
          exact hhead.append htail

end Items

section Linear

variable {σ : Type} [LinearOrder σ]

instance orientedCmp_cmp : Std.OrientedCmp (cmp : σ → σ → Ordering) where
  eq_swap := (cmp_swap _ _).symm

theorem compareLex_eq_lt_iff (x y : List σ) : x.compareLex cmp y = .lt ↔ x < y := by
  induction x generalizing y with
  | nil => cases y <;> simp [List.compareLex]
  | cons a x ih =>
      cases y with
      | nil => simp [List.compareLex]
      | cons b y =>
          rw [List.compareLex_cons_cons, List.cons_lt_cons_iff, Ordering.then_eq_lt, ih,
            cmp_eq_lt_iff, cmp_eq_eq_iff]

end Linear

section BigEndian

theorem cmp_ofNat {m n : ℕ} (hm : m < 256) (hn : n < 256) :
    cmp (UInt8.ofNat m) (UInt8.ofNat n) = cmp m n := by
  have hlt {m n : ℕ} (hm : m < 256) (hn : n < 256) : UInt8.ofNat m < UInt8.ofNat n ↔ m < n := by
    rw [UInt8.lt_iff_toNat_lt, UInt8.toNat_ofNat_of_lt' hm, UInt8.toNat_ofNat_of_lt' hn]
  simp only [cmp, cmpUsing, hlt hm hn, hlt hn hm]

/-- Quotients decide, then remainders. -/
theorem cmp_div_mod (m n k : ℕ) : (cmp (m / k) (n / k)).then (cmp (m % k) (n % k)) = cmp m n := by
  rcases lt_trichotomy (m / k) (n / k) with h | h | h
  · have hlt : m < n := lt_of_not_ge fun hle => (Nat.div_le_div_right hle).not_gt h
    rw [(cmp_eq_lt_iff _ _).mpr h, (cmp_eq_lt_iff m n).mpr hlt]
    rfl
  · have hm := Nat.div_add_mod m k
    have hn := Nat.div_add_mod n k
    rw [← h] at hn
    have hadd : cmp m n = cmp (m % k) (n % k) := by
      conv_lhs => rw [← hm, ← hn]
      exact cmp_add_left _ _ _
    rw [h, cmp_self_eq_eq, hadd]
    rfl
  · have hlt : n < m := lt_of_not_ge fun hle => (Nat.div_le_div_right hle).not_gt h
    rw [(cmp_eq_gt_iff _ _).mpr h, (cmp_eq_gt_iff m n).mpr hlt]
    rfl

/-- Big-endian numbers of one width. -/
theorem agrees_bigEndian {width m n : ℕ} (hm : m < 256 ^ width) (hn : n < 256 ^ width) :
    OrderedCode.Agrees cmp (cmp m n) (ByteCodec.bigEndian width m)
      (ByteCodec.bigEndian width n) := by
  induction width generalizing m n with
  | zero =>
      obtain rfl : m = 0 := by simpa using hm
      obtain rfl : n = 0 := by simpa using hn
      exact .nil
  | succ width ih =>
      have hpos : 0 < 256 ^ width := Nat.pow_pos (by norm_num)
      rw [pow_succ] at hm hn
      have hq := cmp_ofNat (Nat.div_lt_of_lt_mul hm) (Nat.div_lt_of_lt_mul hn)
      have hcons := agrees_cons (UInt8.ofNat (m / 256 ^ width)) (UInt8.ofNat (n / 256 ^ width))
        (ih (Nat.mod_lt m hpos) (Nat.mod_lt n hpos))
      rwa [hq, cmp_div_mod] at hcons

end BigEndian

end OrderedCode
