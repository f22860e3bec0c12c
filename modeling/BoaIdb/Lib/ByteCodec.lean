import Mathlib.Data.List.Basic
import Mathlib.Tactic.Ring

/-!
Byte codecs: little- and big-endian integers, and parsers that consume a prefix of their
input and leave the rest.

`Parses p enc a` says that on input starting with `enc` the parser `p` returns `a`
and leaves whatever follows. It composes along `>>=`, so a decoder written in
`do` notation is verified field by field against its encoder.
-/

namespace ByteCodec

/-! ### Little-endian integers -/

/-- The `width` low bytes of `n`, least significant first. -/
def littleEndian : ℕ → ℕ → List UInt8
  | 0, _ => []
  | width + 1, n => UInt8.ofNat n :: littleEndian width (n / 256)

/-- The number these bytes denote, least significant first. -/
def ofLittleEndian (bytes : List UInt8) : ℕ :=
  bytes.foldr (fun b n => b.toNat + 256 * n) 0

@[simp] theorem length_littleEndian (width n : ℕ) : (littleEndian width n).length = width := by
  induction width generalizing n with
  | zero => rfl
  | succ width ih => simp [littleEndian, ih]

theorem ofLittleEndian_littleEndian {width n : ℕ} (h : n < 256 ^ width) :
    ofLittleEndian (littleEndian width n) = n := by
  induction width generalizing n with
  | zero => simpa [littleEndian, ofLittleEndian, eq_comm] using h
  | succ width ih =>
      have hq : n / 256 < 256 ^ width := by
        rw [pow_succ] at h
        exact Nat.div_lt_of_lt_mul (by omega)
      have hrest := ih hq
      unfold ofLittleEndian at hrest ⊢
      rw [littleEndian, List.foldr_cons, hrest, UInt8.toNat_ofNat']
      omega

/-- The `width` low bytes of `n`, most significant first. -/
def bigEndian : ℕ → ℕ → List UInt8
  | 0, _ => []
  | width + 1, n => UInt8.ofNat (n / 256 ^ width) :: bigEndian width (n % 256 ^ width)

/-- The number these bytes denote, most significant first. -/
def ofBigEndian (bytes : List UInt8) : ℕ :=
  bytes.foldl (fun n b => 256 * n + b.toNat) 0

@[simp] theorem length_bigEndian (width n : ℕ) : (bigEndian width n).length = width := by
  induction width generalizing n with
  | zero => rfl
  | succ width ih => simp [bigEndian, ih]

theorem ofBigEndian_bigEndian {width n : ℕ} (h : n < 256 ^ width) :
    ofBigEndian (bigEndian width n) = n := by
  have hfrom (acc : ℕ) : (bigEndian width n).foldl (fun n b => 256 * n + b.toNat) acc =
      acc * 256 ^ width + n := by
    induction width generalizing n acc with
    | zero =>
        have hzero : n = 0 := by simpa using h
        simp [bigEndian, hzero]
    | succ width ih =>
        have hpos : 0 < 256 ^ width := Nat.pow_pos (by norm_num)
        have hdigit : n / 256 ^ width < 256 := Nat.div_lt_of_lt_mul (by rwa [pow_succ] at h)
        have hsplit := Nat.div_add_mod n (256 ^ width)
        rw [bigEndian, List.foldl_cons, ih (Nat.mod_lt n hpos), UInt8.toNat_ofNat_of_lt' hdigit,
          pow_succ]
        calc (256 * acc + n / 256 ^ width) * 256 ^ width + n % 256 ^ width
            = acc * (256 ^ width * 256) + (256 ^ width * (n / 256 ^ width) + n % 256 ^ width) :=
              by ring
          _ = acc * (256 ^ width * 256) + n := by rw [hsplit]
  rw [ofBigEndian, hfrom, Nat.zero_mul, Nat.zero_add]

theorem ofBigEndian_cons (b : UInt8) (bytes : List UInt8) :
    ofBigEndian (b :: bytes) = b.toNat * 256 ^ bytes.length + ofBigEndian bytes := by
  have hfrom (acc : ℕ) : bytes.foldl (fun n b => 256 * n + b.toNat) acc =
      acc * 256 ^ bytes.length + ofBigEndian bytes := by
    induction bytes generalizing acc with
    | nil => simp [ofBigEndian]
    | cons c bytes ih =>
        have hhead := ih (256 * 0 + c.toNat)
        rw [ofBigEndian, List.foldl_cons, List.foldl_cons, ih, hhead, List.length_cons, pow_succ]
        ring
  rw [ofBigEndian, List.foldl_cons, hfrom, Nat.mul_zero, Nat.zero_add]

theorem ofBigEndian_lt (bytes : List UInt8) : ofBigEndian bytes < 256 ^ bytes.length := by
  induction bytes with
  | nil => exact Nat.one_pos
  | cons b bytes ih =>
      have hdigit : b.toNat * 256 ^ bytes.length ≤ 255 * 256 ^ bytes.length :=
        Nat.mul_le_mul_right _ (Nat.le_of_lt_succ b.toNat_lt)
      rw [ofBigEndian_cons, List.length_cons, pow_succ]
      omega

theorem bigEndian_ofBigEndian (bytes : List UInt8) :
    bigEndian bytes.length (ofBigEndian bytes) = bytes := by
  induction bytes with
  | nil => rfl
  | cons b bytes ih =>
      have hlt := ofBigEndian_lt bytes
      have hpos : 0 < 256 ^ bytes.length := Nat.pow_pos (by norm_num)
      have hdigit : (b.toNat * 256 ^ bytes.length + ofBigEndian bytes) / 256 ^ bytes.length =
          b.toNat := by
        rw [Nat.mul_comm, Nat.mul_add_div hpos, Nat.div_eq_of_lt hlt, Nat.add_zero]
      have hrest : (b.toNat * 256 ^ bytes.length + ofBigEndian bytes) % 256 ^ bytes.length =
          ofBigEndian bytes := by
        rw [Nat.mul_comm, Nat.mul_add_mod, Nat.mod_eq_of_lt hlt]
      rw [ofBigEndian_cons, List.length_cons, bigEndian, hdigit, hrest, ih, UInt8.ofNat_toNat]

/-! ### Parsers -/

/-- A parser returns a value and the input it has not consumed. -/
abbrev Parser (ε : Type) (α : Type) := StateT (List UInt8) (Except ε) α

section Parser

variable {ε α β : Type}

/-- Takes exactly `n` bytes. -/
def take (n : ℕ) (short : ε) : Parser ε (List UInt8) := fun input =>
  if input.length < n then .error short else .ok (input.take n, input.drop n)

/-- Runs a parser `n` times. -/
def times (p : Parser ε α) : ℕ → Parser ε (List α)
  | 0 => pure []
  | n + 1 => do
      let a ← p
      let as ← times p n
      pure (a :: as)

/-- On `enc` followed by anything, `p` returns `a` and leaves what follows. -/
def Parses (p : Parser ε α) (enc : List UInt8) (a : α) : Prop :=
  ∀ rest, p.run (enc ++ rest) = .ok (a, rest)

theorem Parses.pure (a : α) : Parses (pure a : Parser ε α) [] a := fun _ => rfl

theorem Parses.bind {p : Parser ε α} {f : α → Parser ε β} {enc enc' : List UInt8} {a : α} {b : β}
    (h : Parses p enc a) (h' : Parses (f a) enc' b) : Parses (p >>= f) (enc ++ enc') b := by
  intro rest
  rw [List.append_assoc, StateT.run_bind, h (enc' ++ rest)]
  exact h' rest

/-- A last step that consumes nothing. -/
theorem Parses.map {p : Parser ε α} {f : α → Parser ε β} {enc : List UInt8} {a : α} {b : β}
    (h : Parses p enc a) (h' : f a = Pure.pure b) : Parses (p >>= f) enc b := by
  have hb : Parses (f a) [] b := h' ▸ Parses.pure b
  simpa using h.bind hb

theorem parses_take {n : ℕ} {short : ε} (bytes : List UInt8) (h : bytes.length = n) :
    Parses (take n short) bytes bytes := by
  intro rest
  subst h
  simp [take, StateT.run]

/-- An unsigned integer of `width` bytes. -/
theorem parses_littleEndian {width n : ℕ} {short : ε} (h : n < 256 ^ width) :
    Parses (take width short >>= fun bytes => pure (ofLittleEndian bytes))
      (littleEndian width n) n := by
  refine (parses_take _ (length_littleEndian width n)).map ?_
  rw [ofLittleEndian_littleEndian h]

theorem parses_uint64 {short : ε} (n : UInt64) :
    Parses ((take 8 short >>= fun bytes => pure (ofLittleEndian bytes)) >>=
      fun n => pure (UInt64.ofNat n)) (littleEndian 8 n.toNat) n := by
  refine (parses_littleEndian (by simpa using n.toNat_lt)).map ?_
  rw [UInt64.ofNat_toNat]

theorem parses_times {p : Parser ε α} {enc : α → List UInt8} {as : List α}
    (h : ∀ a ∈ as, Parses p (enc a) a) : Parses (times p as.length) (as.flatMap enc) as := by
  induction as with
  | nil => exact Parses.pure []
  | cons a as ih =>
      rw [List.flatMap_cons]
      exact (h a (by simp)).bind ((ih fun b hb => h b (.tail _ hb)).map rfl)

end Parser

end ByteCodec
