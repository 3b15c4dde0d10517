import SumChainLedger.Bytes

/-!
# The streaming transaction parser

`tx_parser.c` as a state-passing model. A context holds the current field (`state`), the
offset inside it, a 32-byte scratch buffer the field's bytes are copied into, the record
decoded so far and a running byte count. `txParserConsume` is the loop of
`tx_parser_consume`: each iteration copies as many bytes as the current field still needs
(or as are left), and a completed field is decoded by `processCompleteField`.

Transaction wire form (all integers little-endian):

| field | bytes |  | field | bytes |
|---|---|---|---|---|
| version | 1 | | gas_limit | 8 |
| chain_id | 8 | | tx_type | 1 |
| sender | 20 | | recipient | 20 |
| nonce | 8 | | amount | 8 |
| gas_price | 8 | | | |

`size_t` counters are natural numbers; the `uint8_t` field offset wraps as in C.
-/

namespace SumChainLedger

/-- `MAX_TX_SIZE`. -/
def maxTxSize : Nat := 8192

/-- `tx_parse_state_t`. -/
inductive TxParseState
  | init
  | version
  | chainId
  | sender
  | nonce
  | gasPrice
  | gasLimit
  | txType
  | recipient
  | amount
  | done
  | error
  deriving DecidableEq, Repr

/-- The C enumerator value of a state (`TX_PARSE_STATE_INIT = 0`). -/
def TxParseState.val : TxParseState → Nat
  | .init => 0
  | .version => 1
  | .chainId => 2
  | .sender => 3
  | .nonce => 4
  | .gasPrice => 5
  | .gasLimit => 6
  | .txType => 7
  | .recipient => 8
  | .amount => 9
  | .done => 10
  | .error => 11

/-- `tx_parsed_t`. The two `uint8_t[ADDRESS_LEN]` arrays are lists of exactly 20 bytes. -/
structure TxParsed where
  version : UInt8
  chainId : BitVec 64
  sender : List UInt8
  sender_length : sender.length = 20
  nonce : BitVec 64
  gasPrice : BitVec 64
  gasLimit : BitVec 64
  txType : UInt8
  recipient : List UInt8
  recipient_length : recipient.length = 20
  amount : BitVec 64
  feeOverflow : Bool
  feeLow : BitVec 64
  feeHigh : BitVec 64
  deriving DecidableEq

/-- A `tx_parsed_t` of all-zero bytes. -/
def TxParsed.zero : TxParsed where
  version := 0
  chainId := 0
  sender := List.replicate 20 0
  sender_length := List.length_replicate 20 0
  nonce := 0
  gasPrice := 0
  gasLimit := 0
  txType := 0
  recipient := List.replicate 20 0
  recipient_length := List.length_replicate 20 0
  amount := 0
  feeOverflow := false
  feeLow := 0
  feeHigh := 0

/-- `tx_parser_ctx_t`; `scratch` is the `uint8_t[32]` buffer. -/
structure TxParserCtx where
  state : TxParseState
  fieldOffset : UInt8
  scratch : List UInt8
  scratch_length : scratch.length = 32
  parsed : TxParsed
  totalConsumed : Nat
  deriving DecidableEq

/-- A `tx_parser_ctx_t` of all-zero bytes (its state is `TX_PARSE_STATE_INIT`). -/
def TxParserCtx.zero : TxParserCtx where
  state := .init
  fieldOffset := 0
  scratch := List.replicate 32 0
  scratch_length := List.length_replicate 32 0
  parsed := TxParsed.zero
  totalConsumed := 0

/-- `tx_parser_init`: zero the context and start at the version byte. -/
def txParserInit : TxParserCtx := { TxParserCtx.zero with state := .version }

/-- `get_field_size`. -/
def getFieldSize : TxParseState → Nat
  | .version => 1
  | .chainId => 8
  | .sender => 20
  | .nonce => 8
  | .gasPrice => 8
  | .gasLimit => 8
  | .txType => 1
  | .recipient => 20
  | .amount => 8
  | _ => 0

/-- `read_u64_le`: the first eight bytes of `buf`, least significant first. -/
def readU64Le (buf : List UInt8) : BitVec 64 :=
  let b (i : Nat) : BitVec 64 := BitVec.ofNat 64 (buf.getD i 0).toNat
  b 0 ||| b 1 <<< 8 ||| b 2 <<< 16 ||| b 3 <<< 24 ||| b 4 <<< 32 ||| b 5 <<< 40 |||
    b 6 <<< 48 ||| b 7 <<< 56

/-- `tx_parser_compute_fee`: the 128-bit product `gas_price * gas_limit` from four
32x32-bit partial products, with the two carries the C code detects by comparison. -/
def txParserComputeFee (parsed : TxParsed) : TxParsed :=
  let a := parsed.gasPrice
  let b := parsed.gasLimit
  let aLo : BitVec 32 := a.setWidth 32
  let aHi : BitVec 32 := (a >>> 32).setWidth 32
  let bLo : BitVec 32 := b.setWidth 32
  let bHi : BitVec 32 := (b >>> 32).setWidth 32
  let loLo : BitVec 64 := aLo.setWidth 64 * bLo.setWidth 64
  let loHi : BitVec 64 := aLo.setWidth 64 * bHi.setWidth 64
  let hiLo : BitVec 64 := aHi.setWidth 64 * bLo.setWidth 64
  let hiHi : BitVec 64 := aHi.setWidth 64 * bHi.setWidth 64
  let mid := loHi + hiLo
  let carryFromMid : BitVec 64 := if mid < loHi then 1 else 0
  let resultLo := loLo + (mid <<< 32)
  let carryToHi : BitVec 64 := if resultLo < loLo then 1 else 0
  let resultHi := hiHi + (mid >>> 32) + (carryFromMid <<< 32) + carryToHi
  { parsed with feeLow := resultLo, feeHigh := resultHi, feeOverflow := resultHi != 0 }

/-- `process_complete_field`: decode the field held in `scratch`, move to the next state and
reset the offset. The Boolean is the C return value; on `false` the context carries the
writes made before the check (the rejected version or type byte). -/
def processCompleteField (ctx : TxParserCtx) : Bool × TxParserCtx :=
  let p := ctx.parsed
  have take20 : (ctx.scratch.take 20).length = 20 := by simp [ctx.scratch_length]
  let next (p : TxParsed) (state : TxParseState) : Bool × TxParserCtx :=
    (true, { ctx with parsed := p, state := state, fieldOffset := 0 })
  match ctx.state with
  | .version =>
    let p := { p with version := ctx.scratch.getD 0 0 }
    if p.version ≠ 1 then (false, { ctx with parsed := p }) else next p .chainId
  | .chainId => next { p with chainId := readU64Le ctx.scratch } .sender
  | .sender => next { p with sender := ctx.scratch.take 20, sender_length := take20 } .nonce
  | .nonce => next { p with nonce := readU64Le ctx.scratch } .gasPrice
  | .gasPrice => next { p with gasPrice := readU64Le ctx.scratch } .gasLimit
  | .gasLimit => next { p with gasLimit := readU64Le ctx.scratch } .txType
  | .txType =>
    let p := { p with txType := ctx.scratch.getD 0 0 }
    if p.txType = 0 then next p .recipient else (false, { ctx with parsed := p })
  | .recipient =>
    next { p with recipient := ctx.scratch.take 20, recipient_length := take20 } .amount
  | .amount => next (txParserComputeFee { p with amount := readU64Le ctx.scratch }) .done
  | _ => (false, ctx)

theorem processCompleteField_val {ctx ctx' : TxParserCtx}
    (h : processCompleteField ctx = (true, ctx')) :
    ctx'.state.val = ctx.state.val + 1 ∧ ctx.state.val < 10 := by
  rcases ctx with ⟨state, fo, sc, hsc, p, tc⟩
  cases state <;> simp only [processCompleteField] at h <;>
    first
    | (split at h <;> cases h <;> simp [TxParseState.val])
    | (cases h; simp [TxParseState.val])
    | cases h

/-- The copy step of one iteration of the loop in `tx_parser_consume`: `xs` is copied into
`scratch` at the field offset, and both counters advance by its length. -/
def TxParserCtx.fill (ctx : TxParserCtx) (xs : List UInt8) : TxParserCtx :=
  { ctx with
    scratch := memcpyAt ctx.scratch ctx.fieldOffset.toNat xs
    scratch_length := (length_memcpyAt ..).trans ctx.scratch_length
    fieldOffset := ctx.fieldOffset + UInt8.ofNat xs.length
    totalConsumed := ctx.totalConsumed + xs.length }

/-- The `while` loop of `tx_parser_consume`, on the bytes `rest` not yet consumed;
`consumed` counts the bytes already taken from this call's input. -/
def consumeLoop (ctx : TxParserCtx) (rest : List UInt8) (consumed : Nat) :
    TxParserCtx × Nat :=
  if rest = [] ∨ ctx.state = .done ∨ ctx.state = .error then (ctx, consumed)
  else if ctx.totalConsumed ≥ maxTxSize then ({ ctx with state := .error }, consumed)
  else
    let fieldSize := getFieldSize ctx.state
    if fieldSize = 0 then ({ ctx with state := .error }, consumed)
    else
      let needed := fieldSize - ctx.fieldOffset.toNat
      let available := rest.length
      let take := min available needed
      if ctx.fieldOffset.toNat + take > 32 then ({ ctx with state := .error }, consumed)
      else
        let filled := ctx.fill (rest.take take)
        if filled.fieldOffset.toNat ≥ fieldSize then
          match h : processCompleteField filled with
          | (false, failed) => ({ failed with state := .error }, consumed + take)
          | (true, next) => consumeLoop next (rest.drop take) (consumed + take)
        else consumeLoop filled (rest.drop take) (consumed + take)
termination_by rest.length * 16 + (12 - ctx.state.val)
decreasing_by
  all_goals simp_wf
  · obtain ⟨h1, h2⟩ := processCompleteField_val h
    have : next.state.val = ctx.state.val + 1 ∧ ctx.state.val < 10 := ⟨h1, h2⟩
    omega
  · rename_i hne _ _ _ hlt
    have hfo : (ctx.fieldOffset + UInt8.ofNat (List.take (min rest.length
        (getFieldSize ctx.state - ctx.fieldOffset.toNat)) rest).length).toNat <
          getFieldSize ctx.state := by
      simpa [filled, fieldSize, take, needed, available, TxParserCtx.fill] using hlt
    rw [UInt8.toNat_add_ofNat, List.length_take] at hfo
    have : ctx.fieldOffset.toNat < 256 := ctx.fieldOffset.toNat_lt_size
    have : rest ≠ [] := fun h => hne (Or.inl h)
    have := List.length_pos.mpr this
    omega

/-- `tx_parser_consume`: returns the updated context and the number of bytes absorbed. -/
def txParserConsume (ctx : TxParserCtx) (data : List UInt8) : TxParserCtx × Nat :=
  if ctx.state = .done ∨ ctx.state = .error then (ctx, 0)
  else consumeLoop ctx data 0

/-- `tx_parser_is_done`. -/
def txParserIsDone (ctx : TxParserCtx) : Bool := ctx.state = .done

/-- `tx_parser_has_error`. -/
def txParserHasError (ctx : TxParserCtx) : Bool := ctx.state = .error

end SumChainLedger
