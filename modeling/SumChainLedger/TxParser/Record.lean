import SumChainLedger.TxParser.Grammar

/-!
# The parsed record

What a completed parse stores, field by field.

* `decodeTransfer` — the field-wise decoding of `s[0..82)`, with the fee set by
  `tx_parser_compute_fee`; `encodeTransfer` — the 82-byte wire form of a record;
* `readU64Le_append` — `read_u64_le` is the little-endian value of the eight bytes it reads;
* `processCompleteField_fill_parsed` — `process_complete_field` on a field copied to the start
  of the scratch buffer stores what `storeField` says;
* `feedBytes_parsed` — by induction over the fields still to read, a run that reaches `done`
  has stored every field of its input;
* `txParserConsume_grammar` — one call on a fresh context accepts exactly the Transfer grammar,
  and an encoded record parses back to itself with its fee recomputed.
-/

namespace SumChainLedger

/-! ## Little-endian words -/

/-- The value of a little-endian byte string as a `uint64_t`. -/
def leWord (xs : List UInt8) : BitVec 64 := BitVec.ofNat 64 (leValue xs)

/-- `acc | b₀ << k | b₁ << (k + 8) | ...`, the shape of the expression in `read_u64_le`. -/
def orBytes (acc : BitVec 64) : List UInt8 → Nat → BitVec 64
  | [], _ => acc
  | b :: bs, k => orBytes (acc ||| BitVec.ofNat 64 b.toNat <<< k) bs (k + 8)

theorem toNat_orBytes {acc : BitVec 64} {k : Nat} (bs : List UInt8) (hacc : acc.toNat < 2 ^ k)
    (hk : k + 8 * bs.length ≤ 64) :
    (orBytes acc bs k).toNat = acc.toNat + 2 ^ k * leValue bs := by
  induction bs generalizing acc k with
  | nil => simp [orBytes]
  | cons b bs ih =>
    simp only [List.length_cons] at hk
    have hstep := toNat_or_shiftLeft b hacc (by omega)
    have hb : 2 ^ k * b.toNat ≤ 2 ^ k * 255 :=
      Nat.mul_le_mul_left _ (by have : b.toNat < 256 := b.toNat_lt_size; omega)
    have hpow : 2 ^ (k + 8) = 2 ^ k * 256 := by rw [Nat.pow_add]
    rw [orBytes, ih (by rw [hstep, hpow]; omega) (by omega), hstep, hpow, leValue_cons]
    ring

theorem readU64Le_eq_orBytes (buf : List UInt8) :
    readU64Le buf = orBytes (BitVec.ofNat 64 (buf.getD 0 0).toNat)
      [buf.getD 1 0, buf.getD 2 0, buf.getD 3 0, buf.getD 4 0, buf.getD 5 0, buf.getD 6 0,
        buf.getD 7 0] 8 := rfl

/-- `read_u64_le` reads the little-endian value of the first eight bytes. -/
theorem readU64Le_append (xs ys : List UInt8) (h : xs.length = 8) :
    readU64Le (xs ++ ys) = leWord xs := by
  match xs, h with
  | [b0, b1, b2, b3, b4, b5, b6, b7], _ =>
    have h0 : b0.toNat < 256 := b0.toNat_lt_size
    have hv : leValue [b0, b1, b2, b3, b4, b5, b6, b7] < 2 ^ 64 :=
      calc leValue [b0, b1, b2, b3, b4, b5, b6, b7] < 256 ^ 8 := leValue_lt _
        _ = 2 ^ 64 := by norm_num
    apply BitVec.eq_of_toNat_eq
    simp only [readU64Le_eq_orBytes, List.cons_append, List.getD_cons_zero, List.getD_cons_succ]
    rw [toNat_orBytes _ (by rw [BitVec.toNat_ofNat]; omega) (by simp), leWord,
      BitVec.toNat_ofNat, BitVec.toNat_ofNat, Nat.mod_eq_of_lt hv,
      Nat.mod_eq_of_lt (show b0.toNat < 2 ^ 64 by omega)]
    simp [leValue_cons]

theorem toNat_leWord {xs : List UInt8} (h : xs.length = 8) : (leWord xs).toNat = leValue xs := by
  have hlt := leValue_lt xs
  rw [h] at hlt
  rw [leWord, BitVec.toNat_ofNat, Nat.mod_eq_of_lt (lt_of_lt_of_le hlt (by norm_num))]

theorem leWord_leBytes (x : BitVec 64) : leWord (leBytes 8 x.toNat) = x := by
  apply BitVec.eq_of_toNat_eq
  rw [leWord, BitVec.toNat_ofNat, leValue_leBytes, Nat.mod_mod_of_dvd _ (by norm_num),
    Nat.mod_eq_of_lt x.isLt]

/-! ## Field-wise decoding -/

/-- `n` bytes of `s` from offset `i`, zero-padded. -/
def slice (s : List UInt8) (i n : Nat) : List UInt8 := (s.drop i).takeD n 0

/-- The field-wise decoding of `s[0..82)`, each field read from its fixed offset, with the
fee fields set by `tx_parser_compute_fee`. -/
def decodeTransfer (s : List UInt8) : TxParsed :=
  txParserComputeFee
    { version := s.getD 0 0
      chainId := leWord (slice s 1 8)
      sender := slice s 9 20
      sender_length := List.takeD_length ..
      nonce := leWord (slice s 29 8)
      gasPrice := leWord (slice s 37 8)
      gasLimit := leWord (slice s 45 8)
      txType := s.getD 53 0
      recipient := slice s 54 20
      recipient_length := List.takeD_length ..
      amount := leWord (slice s 74 8)
      feeOverflow := false
      feeLow := 0
      feeHigh := 0 }

theorem decodeTransfer_version (s : List UInt8) : (decodeTransfer s).version = s.getD 0 0 := rfl

theorem decodeTransfer_txType (s : List UInt8) : (decodeTransfer s).txType = s.getD 53 0 := rfl

theorem decodeTransfer_chainId (s : List UInt8) :
    (decodeTransfer s).chainId = leWord (slice s 1 8) := rfl

theorem decodeTransfer_sender (s : List UInt8) : (decodeTransfer s).sender = slice s 9 20 := rfl

theorem decodeTransfer_nonce (s : List UInt8) : (decodeTransfer s).nonce = leWord (slice s 29 8) :=
  rfl

theorem decodeTransfer_recipient (s : List UInt8) :
    (decodeTransfer s).recipient = slice s 54 20 := rfl

theorem decodeTransfer_amount (s : List UInt8) :
    (decodeTransfer s).amount = leWord (slice s 74 8) := rfl

theorem length_slice (s : List UInt8) (i n : Nat) : (slice s i n).length = n :=
  List.takeD_length ..

/-- The fee of a decoded Transfer is the product of its gas price and gas limit, flagged
when it needs more than 64 bits. -/
theorem decodeTransfer_fee (s : List UInt8) :
    ((decodeTransfer s).feeOverflow = true ↔
        2 ^ 64 ≤ leValue (slice s 37 8) * leValue (slice s 45 8)) ∧
      ((decodeTransfer s).feeOverflow = false → (decodeTransfer s).feeHigh = 0 ∧
        (decodeTransfer s).feeLow.toNat = leValue (slice s 37 8) * leValue (slice s 45 8)) := by
  have hgp := toNat_leWord (length_slice s 37 8)
  have hgl := toNat_leWord (length_slice s 45 8)
  refine ⟨?_, fun h => ?_⟩
  · rw [← hgp, ← hgl]
    exact txParserComputeFee_feeOverflow _
  · rw [← hgp, ← hgl]
    exact txParserComputeFee_of_not_overflow h

/-- The 82-byte wire form of a record. -/
def encodeTransfer (r : TxParsed) : List UInt8 :=
  [r.version] ++ leBytes 8 r.chainId.toNat ++ r.sender ++ leBytes 8 r.nonce.toNat ++
    leBytes 8 r.gasPrice.toNat ++ leBytes 8 r.gasLimit.toNat ++ [r.txType] ++ r.recipient ++
    leBytes 8 r.amount.toNat

@[simp]
theorem length_encodeTransfer (r : TxParsed) : (encodeTransfer r).length = 82 := by
  simp [encodeTransfer, r.sender_length, r.recipient_length]

/-- How the bytes `s` from the start of field `f` are stored: the first byte of a one-byte
field, the little-endian value of a word, the first 20 bytes of an address. The amount
completes the record, so it also sets the fee. -/
def storeField (f : TxParseState) (s : List UInt8) (p : TxParsed) : TxParsed :=
  match f with
  | .version => { p with version := s.getD 0 0 }
  | .chainId => { p with chainId := leWord (s.takeD 8 0) }
  | .sender => { p with sender := s.takeD 20 0, sender_length := List.takeD_length .. }
  | .nonce => { p with nonce := leWord (s.takeD 8 0) }
  | .gasPrice => { p with gasPrice := leWord (s.takeD 8 0) }
  | .gasLimit => { p with gasLimit := leWord (s.takeD 8 0) }
  | .txType => { p with txType := s.getD 0 0 }
  | .recipient => { p with recipient := s.takeD 20 0, recipient_length := List.takeD_length .. }
  | .amount => txParserComputeFee { p with amount := leWord (s.takeD 8 0) }
  | _ => p

theorem takeD_of_length {xs : List UInt8} {n : Nat} (h : xs.length = n) : xs.takeD n 0 = xs := by
  rw [List.takeD_eq_take _ h.ge, ← h, List.take_length]

theorem getD_zero_append {xs : List UInt8} (h : 0 < xs.length) (ys : List UInt8) :
    (xs ++ ys).getD 0 0 = xs.getD 0 0 := by
  obtain ⟨x, xs', rfl⟩ := List.exists_cons_of_length_pos h
  rfl

/-- A field reads only its own bytes. -/
theorem storeField_append (f : TxParseState) {xs : List UInt8} (h : xs.length = getFieldSize f)
    (ys : List UInt8) (p : TxParsed) : storeField f (xs ++ ys) p = storeField f xs p := by
  have hd : ∀ n, xs.length = n → (xs ++ ys).takeD n 0 = xs.takeD n 0 := fun n hn => by
    rw [List.takeD_left' hn, takeD_of_length hn]
  have hg : 0 < xs.length → (xs ++ ys).getD 0 0 = xs.getD 0 0 := fun h => getD_zero_append h ys
  cases f <;> simp only [getFieldSize] at h <;> simp only [storeField]
  all_goals first | simp only [hd _ h] | simp only [hg (by omega)]

/-- The fields of a Transfer in wire order. -/
def transferFields : List TxParseState :=
  [.version, .chainId, .sender, .nonce, .gasPrice, .gasLimit, .txType, .recipient, .amount]

/-- The fields still to read in state `st`. -/
def fieldsFrom (st : TxParseState) : List TxParseState := transferFields.drop (st.val - 1)

theorem fieldsFrom_of_pos {st : TxParseState} (h : 0 < getFieldSize st) :
    fieldsFrom st = st :: fieldsFrom (nextState st) := by
  cases st <;> simp_all [getFieldSize] <;> rfl

/-- The record after reading the fields `fs` one after the other from `s`. -/
def readFields : List TxParseState → List UInt8 → TxParsed → TxParsed
  | [], _, p => p
  | f :: fs, s, p => readFields fs (s.drop (getFieldSize f)) (storeField f s p)

theorem readFields_cons_append {f : TxParseState} {xs : List UInt8}
    (h : xs.length = getFieldSize f) (fs : List TxParseState) (ys : List UInt8) (p : TxParsed) :
    readFields (f :: fs) (xs ++ ys) p = readFields fs ys (storeField f xs p) := by
  rw [readFields, List.drop_left' h, storeField_append f h]

theorem readFields_transferFields (s : List UInt8) :
    readFields transferFields s TxParsed.zero = decodeTransfer s := by
  have h53 : (s.drop 53).getD 0 0 = s.getD 53 0 := by
    simp [List.getD_eq_getElem?_getD]
  simp only [readFields, transferFields, storeField, getFieldSize, List.drop_drop, h53]
  rfl

theorem decodeTransfer_encodeTransfer (r : TxParsed) :
    decodeTransfer (encodeTransfer r) = txParserComputeFee r := by
  rw [← readFields_transferFields, encodeTransfer]
  simp (disch := simp [getFieldSize, r.sender_length, r.recipient_length]) only
    [List.append_assoc, transferFields, readFields_cons_append]
  rcases r with ⟨v, c, snd, hs, n, gp, gl, t, rcp, hr, a, fo, fl, fh⟩
  simp only [readFields, storeField, List.getD_cons_zero, takeD_of_length hs,
    takeD_of_length hr, takeD_of_length (length_leBytes ..), leWord_leBytes, TxParsed.zero]
  rfl

/-! ## What a completed parse stores -/

theorem completeField_parsed (filled : TxParserCtx) :
    (completeField filled).parsed = (processCompleteField filled).2.parsed := by
  unfold completeField
  split <;> simp_all

/-- A completed field at the start of the scratch buffer is stored as `storeField` says. -/
theorem processCompleteField_parsed {c : TxParserCtx} {xs rest : List UInt8}
    (hsc : c.scratch = xs ++ rest) (hxs : xs.length = getFieldSize c.state) :
    (processCompleteField c).2.parsed = storeField c.state xs c.parsed := by
  rcases c with ⟨state, fo, sc, hsc0, p, tc⟩
  simp only at hsc hxs
  subst hsc
  have h8 : xs.length = 8 → readU64Le (xs ++ rest) = leWord (xs.takeD 8 0) := fun h8 => by
    rw [readU64Le_append _ _ h8, takeD_of_length h8]
  have h20 : xs.length = 20 → (xs ++ rest).take 20 = xs.takeD 20 0 := fun h20 => by
    rw [List.take_left' h20, takeD_of_length h20]
  have hg : 0 < xs.length → (xs ++ rest).getD 0 0 = xs.getD 0 0 := fun h => getD_zero_append h rest
  cases state <;> simp only [getFieldSize] at hxs <;> simp only [processCompleteField, storeField]
  all_goals first
    | (split <;> simp only [hg (by omega)])
    | simp only [h8 hxs]
    | simp only [h20 hxs]

/-- A field copied to the start of the scratch buffer is stored as `storeField` says; the
bytes after it do not matter. -/
theorem processCompleteField_fill_parsed {ctx : TxParserCtx} (hfo : ctx.fieldOffset.toNat = 0)
    {xs : List UInt8} (hxs : xs.length = getFieldSize ctx.state) (ys : List UInt8) :
    (processCompleteField (ctx.fill xs)).2.parsed = storeField ctx.state (xs ++ ys) ctx.parsed := by
  have hle := getFieldSize_le ctx.state
  have hsc : (ctx.fill xs).scratch = xs ++ ctx.scratch.drop xs.length := by
    rw [fill_scratch, hfo, memcpyAt_eq (by rw [ctx.scratch_length]; omega)]
    simp
  rw [storeField_append _ hxs, processCompleteField_parsed hsc hxs]
  rfl

/-- A run that reaches `done` from the start of a field has stored, one after the other,
every field still to read. -/
theorem feedBytes_parsed {ctx : TxParserCtx} (h : ctx.Inv) (hfo : ctx.fieldOffset.toNat = 0)
    (s : List UInt8) (hd : (feedBytes ctx s).1.state = .done) :
    (feedBytes ctx s).1.parsed = readFields (fieldsFrom ctx.state) s ctx.parsed := by
  generalize hfs : fieldsFrom ctx.state = fs
  induction fs generalizing ctx s with
  | nil =>
    by_cases hnt : ctx.state = .done ∨ ctx.state = .error
    · rw [feedBytes_of_terminal hnt]; rfl
    · rw [fieldsFrom_of_pos (h.field_pos hnt)] at hfs
      exact absurd hfs (List.cons_ne_nil _ _)
  | cons f fs ih =>
    by_cases hnt : ctx.state = .done ∨ ctx.state = .error
    · rw [feedBytes_of_terminal hnt] at hd
      rw [hd] at hfs
      exact absurd hfs (List.cons_ne_nil _ _).symm
    have hpos := h.field_pos hnt
    rw [fieldsFrom_of_pos hpos, List.cons.injEq] at hfs
    obtain ⟨rfl, hfs⟩ := hfs
    -- the whole field is in `s`, or the run would stop inside it
    have hlen : getFieldSize ctx.state ≤ s.length := by
      by_contra hlt
      rw [feedBytes_inside_field hnt (by omega), fill_state] at hd
      exact hnt (.inl hd)
    have hsplit := List.take_append_drop (getFieldSize ctx.state) s
    have hxs : (s.take (getFieldSize ctx.state)).length = getFieldSize ctx.state := by simp [hlen]
    have hne : s.take (getFieldSize ctx.state) ≠ [] := List.ne_nil_of_length_pos (by omega)
    rw [← hsplit, feedBytes_complete hnt hne (by omega)] at hd ⊢
    -- the field was accepted, or the run would stop in `error`
    have hacc : fieldAccepts ctx.state ((ctx.fill (s.take (getFieldSize ctx.state))).scratch.getD 0 0) := by
      by_contra hrej
      rw [feedBytes_of_terminal (.inr (by rw [completeField_state, fill_state, if_neg hrej]))] at hd
      rw [completeField_state, fill_state, if_neg hrej] at hd
      exact absurd hd (by decide)
    have hnext := completeField_inv h hnt hne (by omega)
    have hfo' : (completeField (ctx.fill (s.take (getFieldSize ctx.state)))).fieldOffset.toNat = 0 := by
      rw [completeField_fieldOffset _ hacc]; rfl
    rw [ih hnext hfo' _ hd (by rw [completeField_state, fill_state, if_pos hacc, hfs]),
      completeField_parsed, processCompleteField_fill_parsed hfo hxs, hsplit]
    rfl

theorem getElem?_eq_some_getD {s : List UInt8} {i : Nat} (h : i < s.length) :
    s[i]? = some (s.getD i 0) := by
  simp [List.getD_eq_getElem?_getD, h]

/-- A completed parse from a fresh context holds the field-wise decoding of its input. -/
theorem txParserConsume_parsed {s : List UInt8}
    (hd : (txParserConsume txParserInit s).1.state = .done) :
    (txParserConsume txParserInit s).1.parsed = decodeTransfer s := by
  rw [txParserConsume_eq_feedBytes txParserInit_inv] at hd ⊢
  rw [feedBytes_parsed txParserInit_inv rfl s hd, ← readFields_transferFields]
  rfl

/-- 82 bytes with version byte `1` and type byte `0` parse to the end. -/
theorem txParserConsume_done {s : List UInt8} (hlen : s.length = 82) (h0 : s.getD 0 0 = 1)
    (h53 : s.getD 53 0 = 0) : (txParserConsume txParserInit s).1.state = .done := by
  have hg : grammarStop s = 82 := by
    rw [grammarStop, getElem?_eq_some_getD (by omega), getElem?_eq_some_getD (by omega), h0, h53]
    simp
  rw [txParserConsume_eq_feedBytes txParserInit_inv]
  exact (feedBytes_txParserInit s).2.2.mpr ⟨hg, by omega⟩

/-- One call of `tx_parser_consume` on a fresh context accepts exactly the Transfer grammar:
it reads `min |s| (grammarStop s)` bytes and stops in `error` exactly on a wrong version or
type byte, in `done` exactly when a whole Transfer was read, and otherwise inside a field; a
completed record is the field-wise decoding of `s[0..82)`; and every version-1, type-0
record parses back from its encoding, with its fee fields recomputed. -/
theorem txParserConsume_grammar (s : List UInt8) :
    (txParserConsume txParserInit s).2 = min s.length (grammarStop s) ∧
    ((txParserConsume txParserInit s).1.state = .error ↔ grammarStop s < 82) ∧
    ((txParserConsume txParserInit s).1.state = .done ↔ grammarStop s = 82 ∧ 82 ≤ s.length) ∧
    (grammarStop s = 82 → s.length < 82 →
      0 < getFieldSize (txParserConsume txParserInit s).1.state) ∧
    ((txParserConsume txParserInit s).1.state = .done →
      (txParserConsume txParserInit s).1.parsed = decodeTransfer s) ∧
    ∀ r : TxParsed, r.version = 1 → r.txType = 0 →
      (txParserConsume txParserInit (encodeTransfer r)).1.state = .done ∧
        (txParserConsume txParserInit (encodeTransfer r)).1.parsed = txParserComputeFee r := by
  have hrun := txParserConsume_eq_feedBytes txParserInit_inv
  obtain ⟨hc, he, hd⟩ := feedBytes_txParserInit s
  refine ⟨hrun s ▸ hc, hrun s ▸ he, hrun s ▸ hd, fun hg hlt => ?_, txParserConsume_parsed,
    fun r hv ht => ?_⟩
  · -- neither terminal: the invariant puts the context inside a field
    rw [hrun]
    rcases (feedBytes_inv txParserInit_inv s).terminal_or_field with h | h | h
    · exact absurd (hd.mp h).2 (by omega)
    · exact absurd (he.mp h) (by omega)
    · exact h
  · -- the encoding carries its version and type bytes where the grammar looks for them
    have hdec := decodeTransfer_encodeTransfer r
    have h0 : (encodeTransfer r).getD 0 0 = 1 := by
      rw [← decodeTransfer_version, hdec, ← hv]; rfl
    have h53 : (encodeTransfer r).getD 53 0 = 0 := by
      rw [← decodeTransfer_txType, hdec, ← ht]; rfl
    have hdone := txParserConsume_done (length_encodeTransfer r) h0 h53
    exact ⟨hdone, by rw [txParserConsume_parsed hdone, hdec]⟩

end SumChainLedger
