import SumChainLedger.TxParser.Record

/-!
# The loop heads of `tx_parser_consume`

The body of the loop in `tx_parser_consume` has three defensive exits before its copy: the
size cap (`total_consumed >= MAX_TX_SIZE`), a zero field size, and the scratch bound
(`field_offset + take > sizeof(scratch)`). None of them is ever taken.

* `LoopHead` — the context and the unread bytes each time the loop condition is tested in
  one call, each step an iteration the body runs to its end; `LoopHead.consumeLoop_eq` says
  the loop's result is the loop's result from every head;
* `LoopHead.inv` — from a context with the representation invariant, every head keeps it;
* `loopHead_guards` — at a head with the invariant where the loop goes on, the size cap and
  the zero-size test fail and the copy ends by byte 20 of the scratch buffer;
* `txParserConsume_representation_invariant` — for every context reachable from
  `tx_parser_init`: the invariant, with the count written as the sizes of the fields before
  the state, and the three exits never taken in the next call.
-/

namespace SumChainLedger

/-- `take` in an iteration of the loop of `tx_parser_consume` on the unread bytes `rest`. -/
def loopTake (ctx : TxParserCtx) (rest : List UInt8) : Nat :=
  min rest.length (getFieldSize ctx.state - ctx.fieldOffset.toNat)

/-- The tests an iteration of the loop passes before its copy, as the code makes them: the
loop condition, the size cap, a non-zero field size and the scratch bound. -/
def loopContinues (ctx : TxParserCtx) (rest : List UInt8) : Prop :=
  ¬(rest = [] ∨ ctx.state = .done ∨ ctx.state = .error) ∧ ¬ctx.totalConsumed ≥ maxTxSize ∧
    getFieldSize ctx.state ≠ 0 ∧ ¬ctx.fieldOffset.toNat + loopTake ctx rest > 32

/-- The loop heads of one call of the loop on `data` from `ctx₀`: the context and the unread
bytes each time the loop condition is tested. An iteration goes on to the next head when it
passes its tests and either leaves the field incomplete or completes it with
`process_complete_field` succeeding. -/
inductive LoopHead (ctx₀ : TxParserCtx) (data : List UInt8) :
    TxParserCtx → List UInt8 → Prop
  | start : LoopHead ctx₀ data ctx₀ data
  | inField {ctx rest} : LoopHead ctx₀ data ctx rest → loopContinues ctx rest →
      ¬(ctx.fill (rest.take (loopTake ctx rest))).fieldOffset.toNat ≥ getFieldSize ctx.state →
      LoopHead ctx₀ data (ctx.fill (rest.take (loopTake ctx rest))) (rest.drop (loopTake ctx rest))
  | fieldDone {ctx rest next} : LoopHead ctx₀ data ctx rest → loopContinues ctx rest →
      (ctx.fill (rest.take (loopTake ctx rest))).fieldOffset.toNat ≥ getFieldSize ctx.state →
      processCompleteField (ctx.fill (rest.take (loopTake ctx rest))) = (true, next) →
      LoopHead ctx₀ data next (rest.drop (loopTake ctx rest))

section Iteration

variable {ctx : TxParserCtx} {rest : List UInt8}

theorem loopTake_le_length : loopTake ctx rest ≤ rest.length := min_le_left ..

/-- The iteration after the tests, up to the field's completion. -/
theorem consumeLoop_of_continues (h : loopContinues ctx rest) (c : Nat) :
    consumeLoop ctx rest c =
      if (ctx.fill (rest.take (loopTake ctx rest))).fieldOffset.toNat ≥ getFieldSize ctx.state then
        match processCompleteField (ctx.fill (rest.take (loopTake ctx rest))) with
        | (false, failed) => ({ failed with state := .error }, c + loopTake ctx rest)
        | (true, next) => consumeLoop next (rest.drop (loopTake ctx rest)) (c + loopTake ctx rest)
      else consumeLoop (ctx.fill (rest.take (loopTake ctx rest))) (rest.drop (loopTake ctx rest))
        (c + loopTake ctx rest) := by
  obtain ⟨h1, h2, h3, h4⟩ := h
  unfold loopTake at h4 ⊢
  rw [consumeLoop, if_neg h1, if_neg h2]
  simp only
  rw [if_neg h3, if_neg h4]
  split_ifs
  · split <;> rename_i heq <;> rw [heq]
  · rfl

end Iteration

/-- The loop's result is the loop's result from every head, with the bytes taken so far
counted. -/
theorem LoopHead.consumeLoop_eq {ctx₀ ctx : TxParserCtx} {data rest : List UInt8}
    (h : LoopHead ctx₀ data ctx rest) :
    consumeLoop ctx₀ data 0 = consumeLoop ctx rest (data.length - rest.length) ∧
      rest.length ≤ data.length := by
  induction h with
  | start => simp
  | @inField ctx rest _ hc hlt ih =>
    obtain ⟨ih, hle⟩ := ih
    have ht := @loopTake_le_length ctx rest
    rw [ih, consumeLoop_of_continues hc, if_neg hlt, List.length_drop]
    exact ⟨by congr 1; omega, by omega⟩
  | @fieldDone ctx rest _ _ hc hge hp ih =>
    obtain ⟨ih, hle⟩ := ih
    have ht := @loopTake_le_length ctx rest
    rw [ih, consumeLoop_of_continues hc, if_pos hge, hp, List.length_drop]
    dsimp only
    exact ⟨by congr 1; omega, by omega⟩

/-! ## The heads keep the invariant -/

section Invariant

variable {ctx : TxParserCtx} {rest : List UInt8}

/-- Inside a field, an iteration copies `take ≥ 1` bytes, the rest of the field at most, and
the offset does not wrap. -/
theorem fill_loopTake (h : ctx.Inv) (hnt : ¬(rest = [] ∨ ctx.state = .done ∨ ctx.state = .error)) :
    (rest.take (loopTake ctx rest)).length = loopTake ctx rest ∧ 0 < loopTake ctx rest ∧
      ctx.fieldOffset.toNat + loopTake ctx rest ≤ getFieldSize ctx.state ∧
      (ctx.fill (rest.take (loopTake ctx rest))).fieldOffset.toNat =
        ctx.fieldOffset.toNat + loopTake ctx rest := by
  have hpos := getFieldSize_pos h.not_init (fun ht => hnt (.inr ht))
  have hfo := (h.field hpos).1
  have hle := getFieldSize_le ctx.state
  have hlen := List.length_pos.mpr (fun he => hnt (.inl he))
  have hlt : loopTake ctx rest ≤ rest.length := loopTake_le_length
  have hmin : 0 < loopTake ctx rest ∧
      loopTake ctx rest ≤ getFieldSize ctx.state - ctx.fieldOffset.toNat := by
    unfold loopTake; omega
  have htake : (rest.take (loopTake ctx rest)).length = loopTake ctx rest := by
    rw [List.length_take]; omega
  refine ⟨htake, hmin.1, by omega, ?_⟩
  rw [fill_fieldOffset, htake]
  omega

/-- Every head keeps the representation invariant. -/
theorem LoopHead.inv {ctx₀ : TxParserCtx} {data : List UInt8} (h₀ : ctx₀.Inv)
    (h : LoopHead ctx₀ data ctx rest) : ctx.Inv := by
  induction h with
  | start => exact h₀
  | @inField ctx rest _ hc hlt ih =>
    obtain ⟨htake, -, -, hoff⟩ := fill_loopTake ih hc.1
    have hnt : ¬(ctx.state = .done ∨ ctx.state = .error) := fun ht => hc.1 (.inr ht)
    have hfeed := feedBytes_inv ih (rest.take (loopTake ctx rest))
    rwa [feedBytes_inside_field hnt (by omega)] at hfeed
  | @fieldDone ctx rest _ _ hc hge hp ih =>
    obtain ⟨htake, hpos, hle, hoff⟩ := fill_loopTake ih hc.1
    have hne : rest.take (loopTake ctx rest) ≠ [] := fun he => by
      rw [he, List.length_nil] at htake; omega
    have hinv := completeField_inv ih (fun ht => hc.1 (.inr ht)) hne (by omega)
    rwa [completeField_of_true hp] at hinv

/-- The tests before the copy at a head with the invariant where the loop goes on: the count
is below the size cap, the field size is not zero, and the copy ends by byte 20. -/
theorem loopHead_guards (h : ctx.Inv)
    (hnt : ¬(rest = [] ∨ ctx.state = .done ∨ ctx.state = .error)) :
    ctx.totalConsumed < maxTxSize ∧ getFieldSize ctx.state ≠ 0 ∧
      ctx.fieldOffset.toNat + loopTake ctx rest ≤ 20 := by
  have hpos := getFieldSize_pos h.not_init (fun ht => hnt (.inr ht))
  have htot := (h.field hpos).2
  have hend := fieldStart_add_le hpos
  have hle := getFieldSize_le ctx.state
  have hcopy := (fill_loopTake h hnt).2.2.1
  unfold maxTxSize
  omega

end Invariant

/-- A field starts after the sizes of the fields before it in wire order. -/
theorem fieldStart_eq_sum {s : TxParseState} (h : 0 < getFieldSize s) :
    fieldStart s = ((transferFields.take (s.val - 1)).map getFieldSize).sum := by
  cases s <;> first | rfl | simp [getFieldSize] at h

/-! ## Reachable contexts -/

/-- The representation invariant of every context reachable from `tx_parser_init`: never
`init`; inside a field the offset is below the field's size and the count is the sizes of
the fields before plus the offset; `done` has counted 82 bytes and `error` 1 or 54. In the
next call, at every loop head where the loop goes on, the size cap, the zero-size test and
the scratch bound all fail, since the copy ends by byte 20 of the 32-byte scratch. -/
theorem txParserConsume_representation_invariant {ctx : TxParserCtx} (h : Reachable ctx) :
    ctx.state ≠ .init ∧
      (¬(ctx.state = .done ∨ ctx.state = .error) →
        ctx.fieldOffset.toNat < getFieldSize ctx.state ∧
          ctx.totalConsumed =
            ((transferFields.take (ctx.state.val - 1)).map getFieldSize).sum +
              ctx.fieldOffset.toNat) ∧
      (ctx.state = .done → ctx.totalConsumed = 82) ∧
      (ctx.state = .error → ctx.totalConsumed = 1 ∨ ctx.totalConsumed = 54) ∧
      ∀ (data : List UInt8) (c : TxParserCtx) (rest : List UInt8), LoopHead ctx data c rest →
        consumeLoop ctx data 0 = consumeLoop c rest (data.length - rest.length) ∧
          (¬(rest = [] ∨ c.state = .done ∨ c.state = .error) →
            c.totalConsumed < maxTxSize ∧ getFieldSize c.state ≠ 0 ∧
              c.fieldOffset.toNat + loopTake c rest ≤ 20 ∧ 20 ≤ c.scratch.length) := by
  have hinv := h.inv
  refine ⟨hinv.not_init, fun hnt => ?_, hinv.done, hinv.error, fun data c rest hc =>
    ⟨hc.consumeLoop_eq.1, fun hnt => ?_⟩⟩
  · have hpos := getFieldSize_pos hinv.not_init hnt
    rw [← fieldStart_eq_sum hpos]
    exact hinv.field hpos
  · obtain ⟨h1, h2, h3⟩ := loopHead_guards (hc.inv hinv) hnt
    exact ⟨h1, h2, h3, by rw [c.scratch_length]; omega⟩

theorem txParserInit_representation_invariant :
    Reachable txParserInit ∧
      (txParserInit.state ≠ .init ∧
        (¬(txParserInit.state = .done ∨ txParserInit.state = .error) →
          txParserInit.fieldOffset.toNat < getFieldSize txParserInit.state ∧
            txParserInit.totalConsumed =
              ((transferFields.take (txParserInit.state.val - 1)).map getFieldSize).sum +
                txParserInit.fieldOffset.toNat) ∧
        (txParserInit.state = .done → txParserInit.totalConsumed = 82) ∧
        (txParserInit.state = .error →
          txParserInit.totalConsumed = 1 ∨ txParserInit.totalConsumed = 54) ∧
        ∀ (data : List UInt8) (c : TxParserCtx) (rest : List UInt8),
          LoopHead txParserInit data c rest →
            consumeLoop txParserInit data 0 = consumeLoop c rest (data.length - rest.length) ∧
              (¬(rest = [] ∨ c.state = .done ∨ c.state = .error) →
                c.totalConsumed < maxTxSize ∧ getFieldSize c.state ≠ 0 ∧
                  c.fieldOffset.toNat + loopTake c rest ≤ 20 ∧ 20 ≤ c.scratch.length)) :=
  ⟨.init, txParserConsume_representation_invariant .init⟩

end SumChainLedger
