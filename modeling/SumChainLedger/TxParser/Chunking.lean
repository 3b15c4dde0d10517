import SumChainLedger.TxParser.Stream

/-!
# Chunk boundaries do not matter

`tx_parser_consume` may be called on any split of a transaction. Because on reachable
contexts it is the byte machine (`txParserConsume_eq_feedBytes`), and the byte machine
composes over concatenation (`feedBytes_append`), two calls on `a` and `b` leave the
same context as one call on `a ++ b`, and their counts add up: `txParserConsume_chunking`.
The scratch buffer, the partial record and the counter all agree, including when a field
straddles the boundary or the first call already reached `done` or `error`.
-/

namespace SumChainLedger

/-- A caller feeding `chunks` in order: the final context and the sum of the counts. -/
def consumeChunks : TxParserCtx → List (List UInt8) → TxParserCtx × Nat
  | ctx, [] => (ctx, 0)
  | ctx, chunk :: chunks =>
    let r := txParserConsume ctx chunk
    let rs := consumeChunks r.1 chunks
    (rs.1, r.2 + rs.2)

theorem txParserConsume_nil {ctx : TxParserCtx} (h : ctx.Inv) : txParserConsume ctx [] = (ctx, 0) := by
  rw [txParserConsume_eq_feedBytes h, feedBytes_nil]

/-- Two calls are one call on the concatenation. -/
theorem txParserConsume_append {ctx : TxParserCtx} (h : ctx.Inv) (a b : List UInt8) :
    txParserConsume ctx (a ++ b) =
      ((txParserConsume (txParserConsume ctx a).1 b).1,
        (txParserConsume ctx a).2 + (txParserConsume (txParserConsume ctx a).1 b).2) := by
  have ha : (txParserConsume ctx a).1.Inv := by
    rw [txParserConsume_eq_feedBytes h]; exact feedBytes_inv h a
  rw [txParserConsume_eq_feedBytes ha, txParserConsume_eq_feedBytes h,
    txParserConsume_eq_feedBytes h, feedBytes_append]

theorem consumeChunks_eq {ctx : TxParserCtx} (h : Reachable ctx) (chunks : List (List UInt8)) :
    consumeChunks ctx chunks = txParserConsume ctx chunks.flatten := by
  induction chunks generalizing ctx with
  | nil => simp [consumeChunks, txParserConsume_nil h.inv]
  | cons chunk chunks ih =>
    rw [consumeChunks, List.flatten_cons, txParserConsume_append h.inv, ih (.consume chunk h)]

/-- From any reachable context, consuming `a` and then `b` leaves the same context as
consuming `a ++ b` and the two counts add up to the one count; hence feeding any
partition of an input, empty chunks included, gives the one-shot context and count. -/
theorem txParserConsume_chunking {ctx : TxParserCtx} (h : Reachable ctx) :
    (∀ a b : List UInt8,
      (txParserConsume (txParserConsume ctx a).1 b).1 = (txParserConsume ctx (a ++ b)).1 ∧
        (txParserConsume ctx a).2 + (txParserConsume (txParserConsume ctx a).1 b).2 =
          (txParserConsume ctx (a ++ b)).2) ∧
    ∀ chunks : List (List UInt8), consumeChunks ctx chunks = txParserConsume ctx chunks.flatten :=
  ⟨fun a b => by rw [txParserConsume_append h.inv]; exact ⟨rfl, rfl⟩, consumeChunks_eq h⟩

theorem txParserConsume_chunking_from_init :
    Reachable txParserInit ∧
      (∀ a b : List UInt8,
        (txParserConsume (txParserConsume txParserInit a).1 b).1 =
            (txParserConsume txParserInit (a ++ b)).1 ∧
          (txParserConsume txParserInit a).2 +
              (txParserConsume (txParserConsume txParserInit a).1 b).2 =
            (txParserConsume txParserInit (a ++ b)).2) ∧
      ∀ chunks : List (List UInt8),
        consumeChunks txParserInit chunks = txParserConsume txParserInit chunks.flatten :=
  ⟨.init, txParserConsume_chunking .init⟩

end SumChainLedger
