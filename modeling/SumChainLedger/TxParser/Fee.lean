import SumChainLedger.TxParser.Defs

/-!
# The 128-bit fee

`tx_parser_compute_fee` multiplies two `u64` values through four 32x32-bit partial products.
The middle sum `lo_hi + hi_lo` and the low word `lo_lo + (mid << 32)` may each wrap once;
the code detects both wraps by comparing the sum with an operand. This module shows that
the detection is exact, so `(fee_high, fee_low)` is the full product:

* `toNat_carry` — `(x + y < x) ? 1 : 0` is the carry out of `x + y`;
* `carryCombine_toNat` — the carry-propagating combination of the partial products;
* `txParserComputeFee_exact`, `txParserComputeFee_feeOverflow` — the product and the flag;
* `txParserComputeFee_correct` — both, as the module's result.
-/

namespace SumChainLedger

/-- Widening two 32-bit halves before multiplying never wraps. -/
theorem toNat_mul_setWidth (x y : BitVec 32) :
    (x.setWidth 64 * y.setWidth 64).toNat = x.toNat * y.toNat := by
  have hx := x.isLt
  have hy := y.isLt
  have hxy : x.toNat * y.toNat < 2 ^ 64 :=
    calc x.toNat * y.toNat < 2 ^ 32 * 2 ^ 32 := Nat.mul_lt_mul'' hx hy
      _ = 2 ^ 64 := by norm_num
  have ex : x.toNat % 2 ^ 64 = x.toNat := Nat.mod_eq_of_lt (by omega)
  have ey : y.toNat % 2 ^ 64 = y.toNat := Nat.mod_eq_of_lt (by omega)
  rw [BitVec.toNat_mul, BitVec.toNat_setWidth, BitVec.toNat_setWidth, ex, ey,
    Nat.mod_eq_of_lt hxy]

/-- The C idiom `(x + y < x) ? 1 : 0` computes the carry out of the 64-bit sum. -/
theorem toNat_carry (x y : BitVec 64) :
    (if x + y < x then (1 : BitVec 64) else 0).toNat = (x.toNat + y.toNat) / 2 ^ 64 := by
  have hx := x.isLt
  have hy := y.isLt
  split <;> rename_i h <;> rw [BitVec.lt_def, BitVec.toNat_add] at h <;> simp <;> omega

/-- The combination step of `tx_parser_compute_fee`: with `mid = p2 + p3`, the words
`p1 + (mid << 32)` and `p4 + (mid >> 32) + (carry_mid << 32) + carry_lo` are the low and
high halves of `p4 * 2^64 + (p2 + p3) * 2^32 + p1`, whenever that value fits in 128 bits. -/
theorem carryCombine_toNat (p1 p2 p3 p4 : BitVec 64)
    (hbound : p4.toNat * 2 ^ 64 + (p2.toNat + p3.toNat) * 2 ^ 32 + p1.toNat < 2 ^ 128) :
    (p4 + (p2 + p3) >>> 32 + ((if p2 + p3 < p2 then (1 : BitVec 64) else 0) <<< 32) +
        (if p1 + (p2 + p3) <<< 32 < p1 then (1 : BitVec 64) else 0)).toNat * 2 ^ 64 +
      (p1 + (p2 + p3) <<< 32).toNat =
    p4.toNat * 2 ^ 64 + (p2.toNat + p3.toNat) * 2 ^ 32 + p1.toNat := by
  simp only [BitVec.toNat_add, BitVec.toNat_shiftLeft, BitVec.toNat_ushiftRight, toNat_carry,
    Nat.shiftLeft_eq, Nat.shiftRight_eq_div_pow]
  have := p1.isLt
  have := p2.isLt
  have := p3.isLt
  have := p4.isLt
  omega

/-- Schoolbook multiplication on 32-bit halves. -/
theorem mul_eq_halves {A B : Nat} (hA : A < 2 ^ 64) (hB : B < 2 ^ 64) :
    A / 2 ^ 32 % 2 ^ 32 * (B / 2 ^ 32 % 2 ^ 32) * 2 ^ 64 +
        (A % 2 ^ 32 * (B / 2 ^ 32 % 2 ^ 32) + A / 2 ^ 32 % 2 ^ 32 * (B % 2 ^ 32)) * 2 ^ 32 +
      A % 2 ^ 32 * (B % 2 ^ 32) = A * B := by
  have ha : A / 2 ^ 32 % 2 ^ 32 = A / 2 ^ 32 := Nat.mod_eq_of_lt (by omega)
  have hb : B / 2 ^ 32 % 2 ^ 32 = B / 2 ^ 32 := Nat.mod_eq_of_lt (by omega)
  rw [ha, hb]
  conv_rhs => rw [← Nat.div_add_mod A (2 ^ 32), ← Nat.div_add_mod B (2 ^ 32)]
  ring

theorem txParserComputeFee_exact (p : TxParsed) :
    (txParserComputeFee p).feeHigh.toNat * 2 ^ 64 + (txParserComputeFee p).feeLow.toNat =
      p.gasPrice.toNat * p.gasLimit.toNat := by
  have hA := p.gasPrice.isLt
  have hB := p.gasLimit.isLt
  have hAB : p.gasPrice.toNat * p.gasLimit.toNat < 2 ^ 128 :=
    calc p.gasPrice.toNat * p.gasLimit.toNat < 2 ^ 64 * 2 ^ 64 := Nat.mul_lt_mul'' hA hB
      _ = 2 ^ 128 := by norm_num
  simp only [txParserComputeFee]
  rw [carryCombine_toNat]
  all_goals simp only [toNat_mul_setWidth, BitVec.toNat_setWidth, BitVec.toNat_ushiftRight,
    Nat.shiftRight_eq_div_pow, mul_eq_halves hA hB]
  exact hAB

theorem txParserComputeFee_feeOverflow (p : TxParsed) :
    (txParserComputeFee p).feeOverflow = true ↔
      2 ^ 64 ≤ p.gasPrice.toNat * p.gasLimit.toNat := by
  have hexact := txParserComputeFee_exact p
  have hlo := (txParserComputeFee p).feeLow.isLt
  have hflag : (txParserComputeFee p).feeOverflow = ((txParserComputeFee p).feeHigh != 0) := rfl
  have h0 : (0 : BitVec 64).toNat = 0 := rfl
  rw [hflag, bne_iff_ne, ne_eq, BitVec.toNat_eq, h0]
  omega

/-- `tx_parser_compute_fee` stores the exact 128-bit product and flags exactly the
products that do not fit in 64 bits. -/
theorem txParserComputeFee_correct (p : TxParsed) :
    (txParserComputeFee p).feeHigh.toNat * 2 ^ 64 + (txParserComputeFee p).feeLow.toNat =
        p.gasPrice.toNat * p.gasLimit.toNat ∧
      ((txParserComputeFee p).feeOverflow = true ↔
        2 ^ 64 ≤ p.gasPrice.toNat * p.gasLimit.toNat) :=
  ⟨txParserComputeFee_exact p, txParserComputeFee_feeOverflow p⟩

/-- Without overflow the high word is zero and the low word is the product. -/
theorem txParserComputeFee_of_not_overflow {p : TxParsed}
    (h : (txParserComputeFee p).feeOverflow = false) :
    (txParserComputeFee p).feeHigh = 0 ∧
      (txParserComputeFee p).feeLow.toNat = p.gasPrice.toNat * p.gasLimit.toNat := by
  have hexact := txParserComputeFee_exact p
  have hlo := (txParserComputeFee p).feeLow.isLt
  have hflag : (txParserComputeFee p).feeOverflow = ((txParserComputeFee p).feeHigh != 0) := rfl
  rw [hflag, bne_eq_false_iff_eq] at h
  have h0 : (0 : BitVec 64).toNat = 0 := rfl
  rw [h, h0, zero_mul, zero_add] at hexact
  exact ⟨h, hexact⟩

end SumChainLedger
