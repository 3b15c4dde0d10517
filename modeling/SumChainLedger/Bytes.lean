import Mathlib.Data.Nat.Digits

/-!
# Byte strings and fixed-width words

The few byte-level operations the C sources share: `memcpy` into a buffer at an offset,
the little-endian value of a byte string (the wire form of every `u64` field of a
transaction), and the fact that OR-ing a shifted byte into lower bits that are still zero
is addition, which turns the code's `|`/`<<` word assembly into arithmetic.

Bytes are `UInt8`; `uint32_t` and `uint64_t` values are `BitVec 32` and `BitVec 64`, whose
`toNat` lemmas carry the wrap-around of the C operators.
-/

namespace SumChainLedger

/-! ## `memcpy` at an offset -/

/-- `memcpy(&dst[off], src, len(src))`: the elements of `src` written into `dst` from
index `off` on, one after the other. -/
def memcpyAt {α : Type} (dst : List α) (off : Nat) : List α → List α
  | [] => dst
  | x :: xs => memcpyAt (dst.set off x) (off + 1) xs

@[simp] theorem memcpyAt_nil {α : Type} (dst : List α) (off : Nat) :
    memcpyAt dst off [] = dst := rfl

@[simp] theorem memcpyAt_cons {α : Type} (dst : List α) (off : Nat) (x : α) (xs : List α) :
    memcpyAt dst off (x :: xs) = memcpyAt (dst.set off x) (off + 1) xs := rfl

@[simp] theorem length_memcpyAt {α : Type} (dst : List α) (off : Nat) (src : List α) :
    (memcpyAt dst off src).length = dst.length := by
  induction src generalizing dst off with
  | nil => rfl
  | cons x xs ih => simp [ih]

theorem memcpyAt_append {α : Type} (dst : List α) (off : Nat) (xs ys : List α) :
    memcpyAt dst off (xs ++ ys) = memcpyAt (memcpyAt dst off xs) (off + xs.length) ys := by
  induction xs generalizing dst off with
  | nil => rfl
  | cons x xs ih => simp only [List.cons_append, memcpyAt_cons, ih, List.length_cons]; ac_rfl

/-- In bounds, `memcpy` replaces the slice `[off, off + len(src))` by `src`. -/
theorem memcpyAt_eq {α : Type} {dst : List α} {off : Nat} {src : List α}
    (h : off + src.length ≤ dst.length) :
    memcpyAt dst off src = dst.take off ++ src ++ dst.drop (off + src.length) := by
  induction src generalizing dst off with
  | nil => simp
  | cons x xs ih =>
    simp only [List.length_cons] at h
    rw [memcpyAt_cons, ih (by simp; omega), List.drop_set_of_lt _ _ (by omega),
      List.set_eq_take_append_cons_drop, if_pos (by omega)]
    have : off + 1 - min off dst.length = 1 := by omega
    simp [List.take_append_eq_append_take, List.take_take, Nat.add_comm, Nat.add_left_comm, this]

/-- The first `len(src)` elements after a `memcpy` at offset `0` are `src`. -/
theorem take_memcpyAt_zero {α : Type} {dst src : List α} (h : src.length ≤ dst.length) :
    (memcpyAt dst 0 src).take src.length = src := by
  rw [memcpyAt_eq (by simpa using h)]
  simp

/-! ## Little-endian values -/

/-- The natural number a little-endian byte string denotes. -/
def leValue : List UInt8 → Nat
  | [] => 0
  | b :: bs => b.toNat + 256 * leValue bs

/-- The `w` little-endian bytes of `n`; bits above `8 * w` are dropped. -/
def leBytes : Nat → Nat → List UInt8
  | 0, _ => []
  | w + 1, n => UInt8.ofNat n :: leBytes w (n / 256)

@[simp] theorem leValue_nil : leValue [] = 0 := rfl

@[simp] theorem leValue_cons (b : UInt8) (bs : List UInt8) :
    leValue (b :: bs) = b.toNat + 256 * leValue bs := rfl

@[simp] theorem length_leBytes (w n : Nat) : (leBytes w n).length = w := by
  induction w generalizing n with
  | zero => rfl
  | succ w ih => simp [leBytes, ih]

theorem UInt8.toNat_ofNat_mod (n : Nat) : (UInt8.ofNat n).toNat = n % 256 := by
  simp [UInt8.ofNat, UInt8.toNat]

theorem UInt8.toNat_add_ofNat (a : UInt8) (n : Nat) :
    (a + UInt8.ofNat n).toNat = (a.toNat + n) % 256 := by
  simp [UInt8.add_def, UInt8.ofNat, UInt8.toNat, BitVec.toNat_add]

theorem leValue_lt (bs : List UInt8) : leValue bs < 256 ^ bs.length := by
  induction bs with
  | nil => simp
  | cons b bs ih =>
    have hb : b.toNat < 256 := b.toNat_lt_size
    rw [leValue_cons, List.length_cons, pow_succ]
    omega

theorem leValue_leBytes (w n : Nat) : leValue (leBytes w n) = n % 256 ^ w := by
  induction w generalizing n with
  | zero => simp [leBytes, Nat.mod_one]
  | succ w ih =>
    rw [leBytes, leValue_cons, ih, UInt8.toNat_ofNat_mod, pow_succ', Nat.mod_mul]

/-- The natural number a big-endian byte string denotes. -/
def beValue : List UInt8 → Nat
  | [] => 0
  | b :: bs => b.toNat * 256 ^ bs.length + beValue bs

@[simp] theorem beValue_nil : beValue [] = 0 := rfl

@[simp] theorem beValue_cons (b : UInt8) (bs : List UInt8) :
    beValue (b :: bs) = b.toNat * 256 ^ bs.length + beValue bs := rfl

theorem beValue_lt (bs : List UInt8) : beValue bs < 256 ^ bs.length := by
  induction bs with
  | nil => simp
  | cons b bs ih =>
    have hb : b.toNat * 256 ^ bs.length ≤ 255 * 256 ^ bs.length :=
      Nat.mul_le_mul_right _ (by have : b.toNat < 256 := b.toNat_lt_size; omega)
    rw [beValue_cons, List.length_cons, pow_succ]
    omega

/-- Big-endian bytes are the base-256 digits read from the last one. -/
theorem beValue_eq_ofDigits (bs : List UInt8) :
    beValue bs = Nat.ofDigits 256 (bs.reverse.map UInt8.toNat) := by
  induction bs with
  | nil => rfl
  | cons b bs ih =>
    rw [beValue_cons, List.reverse_cons, List.map_append, Nat.ofDigits_append, ← ih,
      List.length_map, List.length_reverse, List.map_singleton, Nat.ofDigits_singleton]
    ring

/-! ## Word assembly -/

/-- OR-ing a value below `2 ^ k` with a multiple of `2 ^ k` adds them. -/
theorem lor_eq_add_of_lt {m k : Nat} (n : Nat) (hm : m < 2 ^ k) :
    m ||| 2 ^ k * n = 2 ^ k * n + m := by
  apply Nat.eq_of_testBit_eq
  intro j
  rw [Nat.testBit_or, Nat.testBit_mul_pow_two_add n hm, Nat.testBit_mul_pow_two]
  by_cases hj : j < k
  · simp [hj]
  · have : m.testBit j = false :=
      Nat.testBit_lt_two_pow (lt_of_lt_of_le hm (Nat.pow_le_pow_right (by omega) (by omega)))
    simp [hj, this]
    omega

/-- `acc | ((uintW_t)b << k)` with `acc < 2^k` and the byte fitting above `k`. -/
theorem toNat_or_shiftLeft {w k : Nat} {acc : BitVec w} (b : UInt8)
    (hacc : acc.toNat < 2 ^ k) (hk : k + 8 ≤ w) :
    (acc ||| BitVec.ofNat w b.toNat <<< k).toNat = acc.toNat + 2 ^ k * b.toNat := by
  have hb : b.toNat < 256 := b.toNat_lt_size
  have hfit : b.toNat * 2 ^ k < 2 ^ w :=
    calc b.toNat * 2 ^ k < 2 ^ 8 * 2 ^ k := Nat.mul_lt_mul_of_pos_right hb (by positivity)
      _ = 2 ^ (k + 8) := by rw [← pow_add, Nat.add_comm]
      _ ≤ 2 ^ w := Nat.pow_le_pow_right (by omega) hk
  have hbw : b.toNat < 2 ^ w := lt_of_le_of_lt (Nat.le_mul_of_pos_right _ (by positivity)) hfit
  rw [BitVec.toNat_or, BitVec.toNat_shiftLeft, BitVec.toNat_ofNat, Nat.mod_eq_of_lt hbw,
    Nat.shiftLeft_eq, Nat.mod_eq_of_lt hfit, Nat.mul_comm, lor_eq_add_of_lt _ hacc, Nat.add_comm]

end SumChainLedger
