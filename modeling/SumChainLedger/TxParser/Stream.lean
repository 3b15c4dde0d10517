import SumChainLedger.TxParser.Fee

/-!
# The parser one byte at a time

`tx_parser_consume` copies up to a whole field per loop iteration. Its meaning is simpler
one byte at a time: `feedByte` copies a single byte and processes the field when it is
complete, and `feedBytes` feeds a list until the context is `done` or `error`.

* `processCompleteField_fst`, `_state`, `_fieldOffset`, ... — what a field completion does to
  each component, stated once;
* `TxParserCtx.Inv` and `feedByte_inv` — the representation invariant of the contexts
  `tx_parser_init` and `tx_parser_consume` produce, and its step lemma;
* `txParserConsume_eq_feedBytes` — on such contexts, the chunked loop is the byte machine;
* `Reachable` and `Reachable.inv` — every context reachable from `tx_parser_init`
  satisfies the invariant.
-/

namespace SumChainLedger

/-! ## The byte machine -/

/-- Whether a completed field is accepted; only the version and type bytes are checked. -/
def fieldAccepts : TxParseState → UInt8 → Bool
  | .version, b => b = 1
  | .txType, b => b = 0
  | .init, _ => false
  | .done, _ => false
  | .error, _ => false
  | _, _ => true

/-- The state that follows an accepted field. -/
def nextState : TxParseState → TxParseState
  | .version => .chainId
  | .chainId => .sender
  | .sender => .nonce
  | .nonce => .gasPrice
  | .gasPrice => .gasLimit
  | .gasLimit => .txType
  | .txType => .recipient
  | .recipient => .amount
  | .amount => .done
  | s => s

/-- A field completion as the loop of `tx_parser_consume` handles it: the processed
context, or the context in `error` when the field is rejected. -/
def completeField (filled : TxParserCtx) : TxParserCtx :=
  match processCompleteField filled with
  | (false, failed) => { failed with state := .error }
  | (true, next) => next

/-- One byte of the current field: copied, counted, and the field processed once it is
complete. -/
def feedByte (ctx : TxParserCtx) (b : UInt8) : TxParserCtx :=
  let filled := ctx.fill [b]
  if filled.fieldOffset.toNat ≥ getFieldSize ctx.state then completeField filled else filled

/-- Bytes fed one at a time until the context is `done` or `error`; the count is the
number of bytes taken. -/
def feedBytes : TxParserCtx → List UInt8 → TxParserCtx × Nat
  | ctx, [] => (ctx, 0)
  | ctx, b :: bs =>
    if ctx.state = .done ∨ ctx.state = .error then (ctx, 0)
    else
      let r := feedBytes (feedByte ctx b) bs
      (r.1, r.2 + 1)

@[simp] theorem feedBytes_nil (ctx : TxParserCtx) : feedBytes ctx [] = (ctx, 0) := rfl

theorem feedBytes_of_terminal {ctx : TxParserCtx} (h : ctx.state = .done ∨ ctx.state = .error)
    (xs : List UInt8) : feedBytes ctx xs = (ctx, 0) := by
  cases xs <;> simp [feedBytes, h]

theorem feedBytes_cons {ctx : TxParserCtx} (h : ¬(ctx.state = .done ∨ ctx.state = .error))
    (b : UInt8) (bs : List UInt8) :
    feedBytes ctx (b :: bs) =
      ((feedBytes (feedByte ctx b) bs).1, (feedBytes (feedByte ctx b) bs).2 + 1) := by
  simp [feedBytes, h]

/-- Feeding `xs ++ ys` is feeding `xs`, then `ys` from where it stopped. -/
theorem feedBytes_append (ctx : TxParserCtx) (xs ys : List UInt8) :
    feedBytes ctx (xs ++ ys) =
      ((feedBytes (feedBytes ctx xs).1 ys).1,
        (feedBytes ctx xs).2 + (feedBytes (feedBytes ctx xs).1 ys).2) := by
  induction xs generalizing ctx with
  | nil => simp
  | cons b bs ih =>
    by_cases h : ctx.state = .done ∨ ctx.state = .error
    · simp [feedBytes_of_terminal h]
    · rw [List.cons_append, feedBytes_cons h, feedBytes_cons h, ih]
      simp only [Prod.mk.injEq, true_and]
      omega

/-! ## What a field completion does -/

section Process

variable (ctx : TxParserCtx)

/-- What a field completion does, stated once: it decides by `fieldAccepts`, may rewrite the
record, and on acceptance moves to the next state with the offset reset. -/
theorem processCompleteField_cases : ∃ p : TxParsed,
    processCompleteField ctx =
      if fieldAccepts ctx.state (ctx.scratch.getD 0 0) then
        (true, { ctx with parsed := p, state := nextState ctx.state, fieldOffset := 0 })
      else (false, { ctx with parsed := p }) := by
  rcases ctx with ⟨state, fo, sc, hsc, p, tc⟩
  cases state <;> simp only [processCompleteField, fieldAccepts, nextState, decide_eq_true_eq,
    ite_not, Bool.false_eq_true, if_true, if_false] <;> exact ⟨_, rfl⟩

theorem processCompleteField_fst :
    (processCompleteField ctx).1 = fieldAccepts ctx.state (ctx.scratch.getD 0 0) := by
  obtain ⟨p, hp⟩ := processCompleteField_cases ctx
  rw [hp]; cases fieldAccepts ctx.state (ctx.scratch.getD 0 0) <;> rfl

theorem processCompleteField_state :
    (processCompleteField ctx).2.state =
      if fieldAccepts ctx.state (ctx.scratch.getD 0 0) then nextState ctx.state
      else ctx.state := by
  obtain ⟨p, hp⟩ := processCompleteField_cases ctx
  rw [hp]; cases fieldAccepts ctx.state (ctx.scratch.getD 0 0) <;> rfl

theorem processCompleteField_fieldOffset :
    (processCompleteField ctx).2.fieldOffset =
      if fieldAccepts ctx.state (ctx.scratch.getD 0 0) then 0 else ctx.fieldOffset := by
  obtain ⟨p, hp⟩ := processCompleteField_cases ctx
  rw [hp]; cases fieldAccepts ctx.state (ctx.scratch.getD 0 0) <;> rfl

@[simp] theorem processCompleteField_scratch :
    (processCompleteField ctx).2.scratch = ctx.scratch := by
  obtain ⟨p, hp⟩ := processCompleteField_cases ctx
  rw [hp]; cases fieldAccepts ctx.state (ctx.scratch.getD 0 0) <;> rfl

@[simp] theorem processCompleteField_totalConsumed :
    (processCompleteField ctx).2.totalConsumed = ctx.totalConsumed := by
  obtain ⟨p, hp⟩ := processCompleteField_cases ctx
  rw [hp]; cases fieldAccepts ctx.state (ctx.scratch.getD 0 0) <;> rfl

end Process

theorem completeField_of_false {filled failed : TxParserCtx}
    (h : processCompleteField filled = (false, failed)) :
    completeField filled = { failed with state := .error } := by
  simp [completeField, h]

theorem completeField_of_true {filled next : TxParserCtx}
    (h : processCompleteField filled = (true, next)) : completeField filled = next := by
  simp [completeField, h]

theorem completeField_state (filled : TxParserCtx) :
    (completeField filled).state =
      if fieldAccepts filled.state (filled.scratch.getD 0 0) then nextState filled.state
      else .error := by
  unfold completeField
  have h1 := processCompleteField_fst filled
  have h2 := processCompleteField_state filled
  split <;> rename_i heq <;> rw [heq] at h1 h2 <;> simp_all

@[simp] theorem completeField_totalConsumed (filled : TxParserCtx) :
    (completeField filled).totalConsumed = filled.totalConsumed := by
  unfold completeField
  have h := processCompleteField_totalConsumed filled
  split <;> rename_i heq <;> rw [heq] at h <;> exact h

theorem completeField_fieldOffset (filled : TxParserCtx)
    (h : fieldAccepts filled.state (filled.scratch.getD 0 0) = true) :
    (completeField filled).fieldOffset = 0 := by
  unfold completeField
  have h1 := processCompleteField_fst filled
  have h2 := processCompleteField_fieldOffset filled
  split <;> rename_i heq <;> rw [heq] at h1 h2 <;> simp_all

/-! ## `fill` -/

@[simp] theorem fill_state (ctx : TxParserCtx) (xs : List UInt8) :
    (ctx.fill xs).state = ctx.state := rfl

@[simp] theorem fill_totalConsumed (ctx : TxParserCtx) (xs : List UInt8) :
    (ctx.fill xs).totalConsumed = ctx.totalConsumed + xs.length := rfl

@[simp] theorem fill_scratch (ctx : TxParserCtx) (xs : List UInt8) :
    (ctx.fill xs).scratch = memcpyAt ctx.scratch ctx.fieldOffset.toNat xs := rfl

theorem fill_fieldOffset (ctx : TxParserCtx) (xs : List UInt8) :
    (ctx.fill xs).fieldOffset.toNat = (ctx.fieldOffset.toNat + xs.length) % 256 :=
  UInt8.toNat_add_ofNat _ _

theorem fill_fill {ctx : TxParserCtx} {xs : List UInt8} (h : ctx.fieldOffset.toNat + xs.length < 256)
    (ys : List UInt8) : (ctx.fill xs).fill ys = ctx.fill (xs ++ ys) := by
  have hfo : ((ctx.fill xs).fill ys).fieldOffset = (ctx.fill (xs ++ ys)).fieldOffset := by
    apply UInt8.toNat.inj
    rw [fill_fieldOffset, fill_fieldOffset, fill_fieldOffset, List.length_append]
    omega
  have hoff : (ctx.fill xs).fieldOffset.toNat = ctx.fieldOffset.toNat + xs.length := by
    rw [fill_fieldOffset, Nat.mod_eq_of_lt h]
  rcases ctx with ⟨state, fo, sc, hsc, p, tc⟩
  simp only [TxParserCtx.fill] at hfo hoff ⊢
  simp only [TxParserCtx.mk.injEq, hfo, hoff, List.length_append, memcpyAt_append, true_and]
  omega

/-! ## The representation invariant -/

/-- Offset in the wire form of the first byte of a state's field; `82` past the amount. -/
def fieldStart : TxParseState → Nat
  | .version => 0
  | .chainId => 1
  | .sender => 9
  | .nonce => 29
  | .gasPrice => 37
  | .gasLimit => 45
  | .txType => 53
  | .recipient => 54
  | .amount => 74
  | _ => 82

/-- The shape of every context that `tx_parser_init` and `tx_parser_consume` produce: inside
a field the offset is below the field's size and the count is the field's start plus the
offset; `done` has counted a whole Transfer; `error` stopped at the version or type byte. -/
structure TxParserCtx.Inv (ctx : TxParserCtx) : Prop where
  not_init : ctx.state ≠ .init
  done : ctx.state = .done → ctx.totalConsumed = 82
  error : ctx.state = .error → ctx.totalConsumed = 1 ∨ ctx.totalConsumed = 54
  field : 0 < getFieldSize ctx.state →
    ctx.fieldOffset.toNat < getFieldSize ctx.state ∧
      ctx.totalConsumed = fieldStart ctx.state + ctx.fieldOffset.toNat

section Table

variable {s : TxParseState}

theorem getFieldSize_pos (h0 : s ≠ .init) (h : ¬(s = .done ∨ s = .error)) :
    0 < getFieldSize s := by
  cases s <;> simp_all [getFieldSize]

theorem getFieldSize_le (s : TxParseState) : getFieldSize s ≤ 20 := by
  cases s <;> simp [getFieldSize]

theorem ne_of_getFieldSize_pos (h : 0 < getFieldSize s) :
    s ≠ .init ∧ s ≠ .done ∧ s ≠ .error := by
  cases s <;> simp_all [getFieldSize]

theorem nextState_ne (h : 0 < getFieldSize s) : nextState s ≠ .init ∧ nextState s ≠ .error := by
  cases s <;> simp_all [getFieldSize, nextState]

theorem fieldStart_nextState (h : 0 < getFieldSize s) :
    fieldStart (nextState s) = fieldStart s + getFieldSize s := by
  cases s <;> simp_all [getFieldSize, nextState, fieldStart]

theorem checked_of_not_fieldAccepts {b : UInt8} (h : 0 < getFieldSize s)
    (hb : fieldAccepts s b = false) :
    (s = .version ∧ b ≠ 1) ∨ (s = .txType ∧ b ≠ 0) := by
  cases s <;> simp_all [getFieldSize, fieldAccepts]

theorem fieldStart_add_le (h : 0 < getFieldSize s) : fieldStart s + getFieldSize s ≤ 82 := by
  cases s <;> simp_all [getFieldSize, fieldStart]

theorem getFieldSize_of_checked (h : s = .version ∨ s = .txType) :
    getFieldSize s = 1 ∧ (fieldStart s = 0 ∨ fieldStart s = 53) := by
  rcases h with rfl | rfl <;> simp [getFieldSize, fieldStart]

end Table

theorem TxParserCtx.Inv.terminal_or_field {ctx : TxParserCtx} (h : ctx.Inv) :
    ctx.state = .done ∨ ctx.state = .error ∨ 0 < getFieldSize ctx.state := by
  by_cases ht : ctx.state = .done ∨ ctx.state = .error
  · rcases ht with ht | ht <;> simp [ht]
  · exact .inr (.inr (getFieldSize_pos h.not_init ht))

theorem txParserInit_inv : txParserInit.Inv where
  not_init := by decide
  done := by decide
  error := by decide
  field := fun _ => by decide

/-! ## One byte -/

section Byte

variable {ctx : TxParserCtx} (b : UInt8)

theorem feedByte_of_lt (hfo : ctx.fieldOffset.toNat + 1 < getFieldSize ctx.state) :
    feedByte ctx b = ctx.fill [b] := by
  have := getFieldSize_le ctx.state
  have h : (ctx.fill [b]).fieldOffset.toNat = ctx.fieldOffset.toNat + 1 := by
    rw [fill_fieldOffset]; simp; omega
  simp only [feedByte, h]
  rw [if_neg (by omega)]

theorem feedByte_of_eq (hfo : ctx.fieldOffset.toNat + 1 = getFieldSize ctx.state) :
    feedByte ctx b = completeField (ctx.fill [b]) := by
  have := getFieldSize_le ctx.state
  have h : (ctx.fill [b]).fieldOffset.toNat = ctx.fieldOffset.toNat + 1 := by
    rw [fill_fieldOffset]; simp; omega
  simp only [feedByte, h]
  rw [if_pos (by omega)]

@[simp] theorem feedByte_totalConsumed :
    (feedByte ctx b).totalConsumed = ctx.totalConsumed + 1 := by
  simp only [feedByte]
  split <;> simp

/-- The byte a one-byte field starts with is the byte just copied. -/
theorem fill_scratch_head (hctx : ctx.fieldOffset.toNat = 0) :
    (ctx.fill [b]).scratch.getD 0 0 = b := by
  have := ctx.scratch_length
  simp [hctx, List.getD_eq_getElem?_getD]
  cases hs : ctx.scratch <;> simp_all

/-- One byte keeps the invariant. -/
theorem feedByte_inv (h : ctx.Inv) (hnt : ¬(ctx.state = .done ∨ ctx.state = .error)) :
    (feedByte ctx b).Inv := by
  have hpos := getFieldSize_pos h.not_init hnt
  obtain ⟨hfo, htot⟩ := h.field hpos
  obtain ⟨hni, hnd, hne⟩ := ne_of_getFieldSize_pos hpos
  have hle := getFieldSize_le ctx.state
  have hoff : (ctx.fill [b]).fieldOffset.toNat = ctx.fieldOffset.toNat + 1 := by
    rw [fill_fieldOffset]; simp; omega
  have htot' : (feedByte ctx b).totalConsumed = fieldStart ctx.state + ctx.fieldOffset.toNat + 1 := by
    simp [htot]
  rcases Nat.lt_or_ge (ctx.fieldOffset.toNat + 1) (getFieldSize ctx.state) with hlt | hge
  · -- inside the field
    have hc := feedByte_of_lt b hlt
    refine ⟨by simpa [hc] using hni, fun hd => absurd (by simpa [hc] using hd) hnd,
      fun he => absurd (by simpa [hc] using he) hne, fun _ => ?_⟩
    rw [htot', hc, hoff, fill_state]
    omega
  · -- the field is complete
    have hc := feedByte_of_eq b (show ctx.fieldOffset.toNat + 1 = getFieldSize ctx.state by omega)
    have hst := completeField_state (ctx.fill [b])
    rw [fill_state] at hst
    cases hacc : fieldAccepts ctx.state ((ctx.fill [b]).scratch.getD 0 0)
    · -- rejected: only the one-byte version and type fields check their byte
      rw [hacc, if_neg (by simp)] at hst
      obtain ⟨h1, h0 | h53⟩ := getFieldSize_of_checked <|
        (checked_of_not_fieldAccepts hpos hacc).imp And.left And.left
      all_goals refine ⟨by simp [hc, hst], by simp [hc, hst], fun _ => by omega,
        fun hp => by simp [hc, hst, getFieldSize] at hp⟩
    · -- accepted: the next field starts where this one ends
      rw [hacc, if_pos rfl] at hst
      have hfo0 := completeField_fieldOffset (ctx.fill [b]) (by simpa using hacc)
      have hstart := fieldStart_nextState hpos
      obtain ⟨hn1, hn2⟩ := nextState_ne hpos
      refine ⟨by simp [hc, hst, hn1], fun hd => ?_, fun he => absurd (by simpa [hc, hst] using he) hn2,
        fun hp => ?_⟩
      · rw [hc, hst] at hd
        rw [hd] at hstart
        have : fieldStart .done = 82 := rfl
        omega
      · rw [htot', hc, hst, hfo0] at *
        simp only [UInt8.toNat_zero, Nat.add_zero]
        exact ⟨hp, by omega⟩

end Byte

theorem feedBytes_inv {ctx : TxParserCtx} (h : ctx.Inv) (xs : List UInt8) :
    (feedBytes ctx xs).1.Inv := by
  induction xs generalizing ctx with
  | nil => exact h
  | cons b bs ih =>
    by_cases ht : ctx.state = .done ∨ ctx.state = .error
    · rw [feedBytes_of_terminal ht]; exact h
    · rw [feedBytes_cons ht]; exact ih (feedByte_inv b h ht)

/-! ## Whole fields -/

theorem fill_nil (ctx : TxParserCtx) : ctx.fill [] = ctx := by
  have hfo : (ctx.fill []).fieldOffset = ctx.fieldOffset :=
    UInt8.toNat.inj (by
      rw [fill_fieldOffset]; simp [Nat.mod_eq_of_lt (show _ < 256 from UInt8.toNat_lt_size _)])
  rcases ctx with ⟨state, fo, sc, hsc, p, tc⟩
  simp only [TxParserCtx.fill, List.length_nil, memcpyAt_nil, Nat.add_zero] at hfo ⊢
  rw [hfo]

/-- Bytes that do not complete the field are only copied and counted. -/
theorem feedBytes_inside_field {ctx : TxParserCtx} (hnt : ¬(ctx.state = .done ∨ ctx.state = .error))
    {xs : List UInt8} (hxs : ctx.fieldOffset.toNat + xs.length < getFieldSize ctx.state) :
    feedBytes ctx xs = (ctx.fill xs, xs.length) := by
  induction xs generalizing ctx with
  | nil => simp [fill_nil]
  | cons b bs ih =>
    have hle := getFieldSize_le ctx.state
    simp only [List.length_cons] at hxs
    have hoff : (ctx.fill [b]).fieldOffset.toNat = ctx.fieldOffset.toNat + 1 := by
      rw [fill_fieldOffset]; simp; omega
    rw [feedBytes_cons hnt, feedByte_of_lt b (by omega),
      ih (by simpa using hnt) (by rw [hoff, fill_state]; omega),
      fill_fill (by simp; omega)]
    simp

/-- Bytes that complete the field: the field is processed, and the rest is fed to the
context that follows it. -/
theorem feedBytes_complete {ctx : TxParserCtx} (hnt : ¬(ctx.state = .done ∨ ctx.state = .error))
    {xs : List UInt8} (hne : xs ≠ [])
    (hxs : ctx.fieldOffset.toNat + xs.length = getFieldSize ctx.state) (ys : List UInt8) :
    feedBytes ctx (xs ++ ys) =
      ((feedBytes (completeField (ctx.fill xs)) ys).1,
        xs.length + (feedBytes (completeField (ctx.fill xs)) ys).2) := by
  have hle := getFieldSize_le ctx.state
  obtain ⟨init, last, rfl⟩ := List.eq_nil_or_concat' xs |>.resolve_left hne
  simp only [List.length_append, List.length_singleton] at hxs
  have hinit := @feedBytes_inside_field ctx hnt init (by omega)
  have hoff : (ctx.fill init).fieldOffset.toNat = ctx.fieldOffset.toNat + init.length := by
    rw [fill_fieldOffset]; omega
  have hlast := @feedByte_of_eq (ctx.fill init) last (by rw [hoff, fill_state]; omega)
  rw [List.append_assoc, List.singleton_append, feedBytes_append, hinit,
    feedBytes_cons (by simpa using hnt), hlast, fill_fill (by omega)]
  simp only [List.length_append, List.length_singleton, Prod.mk.injEq, true_and]
  omega

/-- The field a context reaches by completing its current field keeps the invariant. -/
theorem completeField_inv {ctx : TxParserCtx} (h : ctx.Inv)
    (hnt : ¬(ctx.state = .done ∨ ctx.state = .error)) {xs : List UInt8} (hne : xs ≠ [])
    (hxs : ctx.fieldOffset.toNat + xs.length = getFieldSize ctx.state) :
    (completeField (ctx.fill xs)).Inv := by
  have := feedBytes_inv h (xs ++ [])
  rwa [feedBytes_complete hnt hne hxs, feedBytes_nil] at this

/-! ## The loop of `tx_parser_consume` -/

/-- On a context with the invariant, the chunked loop of `tx_parser_consume` is the byte
machine: same context, same count. -/
theorem consumeLoop_eq {ctx : TxParserCtx} (h : ctx.Inv) (rest : List UInt8) (c : Nat) :
    consumeLoop ctx rest c = ((feedBytes ctx rest).1, c + (feedBytes ctx rest).2) := by
  obtain ⟨n, hn⟩ : ∃ n, rest.length ≤ n := ⟨_, le_refl _⟩
  induction n generalizing ctx rest c with
  | zero =>
    rw [List.length_eq_zero.mp (Nat.le_zero.mp hn), consumeLoop]
    simp
  | succ n ih =>
    rw [consumeLoop]
    by_cases ht : ctx.state = .done ∨ ctx.state = .error
    · rw [if_pos (Or.inr ht), feedBytes_of_terminal ht]
      simp
    by_cases hr : rest = []
    · subst hr
      simp
    rw [if_neg (by tauto)]
    have hpos := getFieldSize_pos h.not_init ht
    obtain ⟨hfo, htot⟩ := h.field hpos
    have hle := getFieldSize_le ctx.state
    have hend := fieldStart_add_le hpos
    have hlen := List.length_pos.mpr hr
    rw [if_neg (by unfold maxTxSize; omega)]
    simp only
    rw [if_neg (by omega), if_neg (by omega)]
    rcases Nat.lt_or_ge rest.length (getFieldSize ctx.state - ctx.fieldOffset.toNat)
      with hlt | hge
    · -- the input ends inside the field
      rw [min_eq_left hlt.le, List.take_length, List.drop_length]
      have hoff : (ctx.fill rest).fieldOffset.toNat = ctx.fieldOffset.toNat + rest.length := by
        rw [fill_fieldOffset]; omega
      rw [if_neg (by omega), consumeLoop, if_pos (Or.inl rfl),
        feedBytes_inside_field ht (by omega)]
    · -- the field completes
      rw [min_eq_right hge]
      set t := getFieldSize ctx.state - ctx.fieldOffset.toNat
      have htake : (rest.take t).length = t := by simp; omega
      have hne : rest.take t ≠ [] := by
        intro he; rw [he] at htake; simp at htake; omega
      have hxs : ctx.fieldOffset.toNat + (rest.take t).length = getFieldSize ctx.state := by
        omega
      have hoff : (ctx.fill (rest.take t)).fieldOffset.toNat = getFieldSize ctx.state := by
        rw [fill_fieldOffset]; omega
      have hfeed := feedBytes_complete ht hne hxs (rest.drop t)
      rw [List.take_append_drop] at hfeed
      rw [if_pos (by omega), hfeed, htake]
      have hinv := completeField_inv h ht hne hxs
      split
      · rename_i failed heq
        rw [completeField_of_false heq, feedBytes_of_terminal (Or.inr rfl)]
        simp
      · rename_i next heq
        rw [completeField_of_true heq] at hinv ⊢
        rw [ih hinv _ _ (by simp; omega)]
        simp only [Prod.mk.injEq, true_and]
        omega

/-- On a context with the invariant, `tx_parser_consume` is the byte machine. -/
theorem txParserConsume_eq_feedBytes {ctx : TxParserCtx} (h : ctx.Inv) (data : List UInt8) :
    txParserConsume ctx data = feedBytes ctx data := by
  unfold txParserConsume
  split
  · rename_i ht; rw [feedBytes_of_terminal ht]
  · rw [consumeLoop_eq h]; simp

/-- The contexts a caller can hold: `tx_parser_init`, then any number of
`tx_parser_consume` calls. -/
inductive Reachable : TxParserCtx → Prop
  | init : Reachable txParserInit
  | consume {ctx : TxParserCtx} (data : List UInt8) :
      Reachable ctx → Reachable (txParserConsume ctx data).1

theorem Reachable.inv {ctx : TxParserCtx} (h : Reachable ctx) : ctx.Inv := by
  induction h with
  | init => exact txParserInit_inv
  | consume data _ ih => rw [txParserConsume_eq_feedBytes ih]; exact feedBytes_inv ih data

end SumChainLedger
