import SumChainLedger.TxParser.Chunking

/-!
# What the parser accepts

One call of `tx_parser_consume` on a fresh context and any byte string `s`:

* it stops with `error` after the first byte when `s[0] ≠ 1`, after byte 54 when
  `s[53] ≠ 0`, and otherwise reads at most the 82 bytes of a Transfer;
* on `done`, the record is the field-wise decoding of `s[0..82)` (`decodeTransfer`), fee
  fields included;
* so the encoding of any version-1 Transfer parses back to it (`decodeTransfer_encodeTransfer`).

The count and the final state follow from where the invariant puts a context in the wire
form (`TxParserCtx.Inv.state_version_iff`, ...) and from what one byte does there (`feedByte_error_iff`,
`feedByte_done_iff`); the record follows the nine fields one after the other.
-/

namespace SumChainLedger

/-! ## Position in the wire form -/

section Position

variable {ctx : TxParserCtx} (h : ctx.Inv) (hnt : ¬(ctx.state = .done ∨ ctx.state = .error))
include h hnt

theorem TxParserCtx.Inv.field_pos : 0 < getFieldSize ctx.state := getFieldSize_pos h.not_init hnt

theorem TxParserCtx.Inv.totalConsumed_lt : ctx.totalConsumed < 82 := by
  have hpos := h.field_pos hnt
  have := h.field hpos
  have := fieldStart_add_le hpos
  omega

theorem TxParserCtx.Inv.state_version_iff : ctx.state = .version ↔ ctx.totalConsumed = 0 := by
  obtain ⟨hfo, htot⟩ := h.field (h.field_pos hnt)
  have := h.not_init
  rw [htot]
  generalize ctx.state = s at *
  cases s <;> simp only [fieldStart, getFieldSize, reduceCtorEq, true_iff, false_iff] at * <;> omega

theorem TxParserCtx.Inv.state_txType_iff : ctx.state = .txType ↔ ctx.totalConsumed = 53 := by
  obtain ⟨hfo, htot⟩ := h.field (h.field_pos hnt)
  have := h.not_init
  rw [htot]
  generalize ctx.state = s at *
  cases s <;> simp only [fieldStart, getFieldSize, reduceCtorEq, true_iff, false_iff] at * <;> omega

theorem TxParserCtx.Inv.last_byte_iff :
    ctx.state = .amount ∧ ctx.fieldOffset.toNat + 1 = getFieldSize ctx.state ↔
      ctx.totalConsumed = 81 := by
  obtain ⟨hfo, htot⟩ := h.field (h.field_pos hnt)
  have := h.not_init
  rw [htot]
  generalize ctx.state = s at *
  cases s <;>
    simp only [fieldStart, getFieldSize, reduceCtorEq, true_and, false_and, false_iff] at * <;> omega

end Position

/-! ## What one byte does -/

section Byte

variable {ctx : TxParserCtx} (b : UInt8)

/-- A one-byte field at offset `0` is completed and checked by its byte. -/
theorem feedByte_state_of_size_one (hfo : ctx.fieldOffset.toNat = 0)
    (hsize : getFieldSize ctx.state = 1) :
    (feedByte ctx b).state =
      if fieldAccepts ctx.state b then nextState ctx.state else .error := by
  rw [feedByte_of_eq b (by omega), completeField_state, fill_state, fill_scratch_head b hfo]

theorem feedByte_error_iff (h : ctx.Inv) (hnt : ¬(ctx.state = .done ∨ ctx.state = .error)) :
    (feedByte ctx b).state = .error ↔
      (ctx.totalConsumed = 0 ∧ b ≠ 1) ∨ (ctx.totalConsumed = 53 ∧ b ≠ 0) := by
  have hpos := h.field_pos hnt
  obtain ⟨hfo, htot⟩ := h.field hpos
  have hinv := feedByte_inv b h hnt
  rw [← h.state_version_iff hnt, ← h.state_txType_iff hnt]
  by_cases hchk : ctx.state = .version ∨ ctx.state = .txType
  · obtain ⟨h1, -⟩ := getFieldSize_of_checked hchk
    rw [feedByte_state_of_size_one b (by omega) h1]
    rcases hchk with hs | hs <;> simp [hs, fieldAccepts, nextState]
  · -- unchecked fields are always accepted
    constructor
    · intro he
      have := hinv.error he
      rw [feedByte_totalConsumed] at this
      rcases this with h0 | h53
      · exact absurd (.inl ((h.state_version_iff hnt).mpr (by omega))) hchk
      · exact absurd (.inr ((h.state_txType_iff hnt).mpr (by omega))) hchk
    · rintro (⟨hs, -⟩ | ⟨hs, -⟩) <;> exact absurd (by simp [hs]) hchk

theorem feedByte_done_iff (h : ctx.Inv) (hnt : ¬(ctx.state = .done ∨ ctx.state = .error)) :
    (feedByte ctx b).state = .done ↔ ctx.totalConsumed = 81 := by
  have hinv := feedByte_inv b h hnt
  constructor
  · intro hd
    have := hinv.done hd
    rw [feedByte_totalConsumed] at this
    omega
  · intro h81
    obtain ⟨hs, hlast⟩ := (h.last_byte_iff hnt).mpr h81
    rw [feedByte_of_eq b hlast, completeField_state, fill_state, hs]
    rfl

end Byte

/-- Bytes at offsets the parser never checks are all taken; the run ends in `done` exactly
when it reaches the end of the Transfer. -/
theorem feedBytes_unchecked {ctx : TxParserCtx} (h : ctx.Inv)
    (hnt : ¬(ctx.state = .done ∨ ctx.state = .error)) (xs : List UInt8)
    (hq : 0 < ctx.totalConsumed) (h53 : ctx.totalConsumed + xs.length ≤ 53 ∨ 54 ≤ ctx.totalConsumed)
    (hend : ctx.totalConsumed + xs.length ≤ 82) :
    (feedBytes ctx xs).2 = xs.length ∧ (feedBytes ctx xs).1.Inv ∧
      (feedBytes ctx xs).1.totalConsumed = ctx.totalConsumed + xs.length ∧
      (feedBytes ctx xs).1.state ≠ .error ∧
      ((feedBytes ctx xs).1.state = .done ↔ ctx.totalConsumed + xs.length = 82) := by
  induction xs generalizing ctx with
  | nil =>
    have := h.totalConsumed_lt hnt
    simp only [feedBytes_nil, List.length_nil, Nat.add_zero]
    exact ⟨trivial, h, trivial, fun he => hnt (.inr he), ⟨fun hd => absurd (.inl hd) hnt, by omega⟩⟩
  | cons b bs ih =>
    simp only [List.length_cons] at h53 hend ⊢
    have hne : (feedByte ctx b).state ≠ .error := by
      rw [ne_eq, feedByte_error_iff b h hnt]; omega
    have hinv := feedByte_inv b h hnt
    rw [feedBytes_cons hnt]
    by_cases hd : (feedByte ctx b).state = .done
    · have h81 := (feedByte_done_iff b h hnt).mp hd
      obtain rfl : bs = [] := List.eq_nil_of_length_eq_zero (by omega)
      simp only [feedBytes_nil, feedByte_totalConsumed]
      exact ⟨by simp, hinv, by simp, hne, ⟨fun _ => by omega, fun _ => hd⟩⟩
    · have hnt' : ¬((feedByte ctx b).state = .done ∨ (feedByte ctx b).state = .error) := by tauto
      obtain ⟨hc, hi, ht, he, hdone⟩ := ih hinv hnt' (by simp) (by simp; omega) (by simp; omega)
      simp only [feedByte_totalConsumed] at hdone ht
      exact ⟨by rw [hc], hi, by rw [ht]; omega, he, by rw [hdone]; omega⟩

/-- From the type byte on: a wrong type byte stops the run after it, and otherwise the
run takes the 29 bytes that end the Transfer. -/
theorem feedBytes_from_txType {ctx : TxParserCtx} (h : ctx.Inv)
    (hnt : ¬(ctx.state = .done ∨ ctx.state = .error)) (h53 : ctx.totalConsumed = 53)
    (u : List UInt8) :
    let k := if 1 ≤ u.length ∧ u[0]? ≠ some 0 then 1 else 29
    (feedBytes ctx u).2 = min u.length k ∧
      ((feedBytes ctx u).1.state = .error ↔ k = 1) ∧
      ((feedBytes ctx u).1.state = .done ↔ k = 29 ∧ 29 ≤ u.length) := by
  intro k
  rcases u with _ | ⟨c, v⟩
  · simp [k]; tauto
  have hte := feedByte_error_iff c h hnt
  have htd := feedByte_done_iff c h hnt
  rw [h53] at hte htd
  simp only [OfNat.ofNat_ne_zero, false_and, true_and, false_or] at hte
  rw [feedBytes_cons hnt]
  by_cases hc : c = 0
  · subst hc
    have hnt' : ¬((feedByte ctx 0).state = .done ∨ (feedByte ctx 0).state = .error) := by
      rw [htd, hte]; simp
    have hinv := feedByte_inv 0 h hnt
    have hk : k = 29 := by simp [k]
    have hsplit := feedBytes_append (feedByte ctx 0) (v.take 28) (v.drop 28)
    rw [List.take_append_drop] at hsplit
    obtain ⟨hcnt, -, htot, he, hd⟩ := feedBytes_unchecked hinv hnt' (v.take 28)
      (by simp [h53]) (by simp [h53]) (by simp [h53]; omega)
    simp only [feedByte_totalConsumed, h53, List.length_take] at hd htot
    simp only [hsplit, List.length_cons, hk]
    rcases Nat.lt_or_ge v.length 28 with hv | hv
    · rw [List.drop_eq_nil_of_le (by omega), feedBytes_nil]
      refine ⟨by simp only [hcnt, List.length_take]; omega, by simp [he], by simp only [hd]; omega⟩
    · have hdone := hd.mpr (by omega)
      rw [feedBytes_of_terminal (.inl hdone)]
      refine ⟨by simp only [hcnt, List.length_take]; omega, by simp [hdone], by simp [hdone]; omega⟩
  · have herr := hte.mpr hc
    rw [feedBytes_of_terminal (.inr herr)]
    have hk : k = 1 := by simp [k, hc]
    simp [hk, herr]

/-- The number of bytes the grammar lets the parser read from `s`: `1` when the version byte
is not `1`, `54` when it is but the type byte is not `0`, and a whole Transfer otherwise. -/
def grammarStop (s : List UInt8) : Nat :=
  if 1 ≤ s.length ∧ s[0]? ≠ some 1 then 1
  else if 54 ≤ s.length ∧ s[0]? = some 1 ∧ s[53]? ≠ some 0 then 54
  else 82

/-- After a version byte `1`, the grammar only looks at the type byte. -/
theorem grammarStop_cons_one (t : List UInt8) :
    grammarStop (1 :: t) = if 1 ≤ t.length - 52 ∧ t[52]? ≠ some 0 then 54 else 82 := by
  unfold grammarStop
  rw [if_neg (by simp)]
  simp only [List.length_cons, List.getElem?_cons_zero, List.getElem?_cons_succ, true_and]
  exact if_congr ((show 54 ≤ t.length + 1 ↔ 1 ≤ t.length - 52 by omega).and Iff.rfl) rfl rfl

/-- The count and the final state of one call on a fresh context. -/
theorem feedBytes_txParserInit (s : List UInt8) :
    (feedBytes txParserInit s).2 = min s.length (grammarStop s) ∧
      ((feedBytes txParserInit s).1.state = .error ↔ grammarStop s < 82) ∧
      ((feedBytes txParserInit s).1.state = .done ↔
        grammarStop s = 82 ∧ 82 ≤ s.length) := by
  have h0 := txParserInit_inv
  have hnt0 : ¬(txParserInit.state = .done ∨ txParserInit.state = .error) := by decide
  rcases s with _ | ⟨b, t⟩
  · simp [grammarStop, txParserInit, TxParserCtx.zero]
  rw [feedBytes_cons hnt0]
  have hv : (feedByte txParserInit b).state = .error ↔ b ≠ 1 := by
    rw [feedByte_error_iff b h0 hnt0]; simp [txParserInit, TxParserCtx.zero]
  by_cases hb : b ≠ 1
  · -- wrong version byte
    have hg : grammarStop (b :: t) = 1 :=
      if_pos ⟨Nat.le_add_left 1 _,
        fun h => hb (Option.some.inj (List.getElem?_cons_zero.symm.trans h))⟩
    rw [feedBytes_of_terminal (.inr (hv.mpr hb)), hg]
    simp [hv.mpr hb]
  simp only [ne_eq, not_not] at hb
  subst hb
  -- the version byte is accepted: offset 1, not terminal
  have hnt1 : ¬((feedByte txParserInit 1).state = .done ∨
      (feedByte txParserInit 1).state = .error) := by
    rw [feedByte_done_iff 1 h0 hnt0, hv]; simp [txParserInit, TxParserCtx.zero]
  have h1 := feedByte_inv 1 h0 hnt0
  have hq1 : (feedByte txParserInit 1).totalConsumed = 1 := by
    simp [txParserInit, TxParserCtx.zero]
  -- the 52 unchecked bytes up to the type byte
  have hsplit := feedBytes_append (feedByte txParserInit 1) (t.take 52) (t.drop 52)
  rw [List.take_append_drop] at hsplit
  obtain ⟨hcnt, hi2, htot, he2, hd2⟩ := feedBytes_unchecked h1 hnt1 (t.take 52)
    (by omega) (by rw [hq1, List.length_take]; omega) (by rw [hq1, List.length_take]; omega)
  simp only [hq1, List.length_take] at hcnt htot hd2
  simp only [hsplit, List.length_cons, hcnt]
  rcases Nat.lt_or_ge t.length 52 with ht | ht
  · have hg : grammarStop (1 :: t) = 82 := by rw [grammarStop_cons_one, if_neg (by omega)]
    rw [List.drop_eq_nil_of_le (by omega), feedBytes_nil, hg]
    dsimp only
    exact ⟨by omega, by simp [he2], by rw [hd2]; omega⟩
  -- the type byte and the rest
  have hnt2 : ¬((feedBytes (feedByte txParserInit 1) (t.take 52)).1.state = .done ∨
      (feedBytes (feedByte txParserInit 1) (t.take 52)).1.state = .error) := by
    rw [hd2]; simp only [he2, or_false]; omega
  obtain ⟨hc, hte, htd⟩ := feedBytes_from_txType hi2 hnt2 (by omega) (t.drop 52)
  have h52 : (t.drop 52)[0]? = t[52]? := by rw [List.getElem?_drop]
  simp only [List.length_drop, h52] at hc hte htd
  rw [hc, hte, htd]
  rw [grammarStop_cons_one]
  clear * - ht
  by_cases hty : 1 ≤ t.length - 52 ∧ t[52]? ≠ some 0
  · rw [if_pos hty, if_pos hty]; omega
  · rw [if_neg hty, if_neg hty]; omega

end SumChainLedger
