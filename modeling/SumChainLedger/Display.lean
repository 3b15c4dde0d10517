import SumChainLedger.Base58
import SumChainLedger.TxParser.Record

/-!
# Display strings

`tx_display.c`: the decimal, fee and address formatters and `tx_display_format`, which writes
the six strings of a `tx_display_t`. A formatter takes the caller's buffer and returns it as
the call leaves it, with the C return value.

* `formatU64Decimal_eq` — `format_u64_decimal` writes the canonical decimal text when it fits;
* `feeDigitsRev_zero_high` — with a zero high word, the 128-bit loop of `format_fee` is the
  64-bit digit loop;
* `txDisplayFormat_eq` — when the fee formatter succeeds, `tx_display_format` succeeds and
  every other buffer holds its field's text;
* `txDisplayFormat_transfer` — the display of a parsed Transfer;
* `formatFee_wraps` — the 128-bit branch of `format_fee` loses the carry of
  `hi_rem * 6 + lo` and shows `2 ^ 64 - 1` for the fee `2 ^ 65 - 1`.
-/

namespace SumChainLedger

/-! ## C strings in buffers -/

/-- `'0' + d`. -/
def digitChar (d : Nat) : Char := Char.ofNat (48 + d)

/-- The buffer holds the C string `s`: its characters and then a terminator, inside the
buffer. -/
def HoldsString (buf s : List Char) : Prop :=
  s.length < buf.length ∧ buf.take (s.length + 1) = s ++ [nulChar]

instance (buf s : List Char) : Decidable (HoldsString buf s) := by
  unfold HoldsString; infer_instance

/-- The C string a buffer starts with, as `strlen` sees it. -/
def cString (buf : List Char) : List Char := buf.takeWhile (· != nulChar)

theorem holdsString_memcpyAt {buf s : List Char} (h : s.length < buf.length) :
    HoldsString (memcpyAt buf 0 (s ++ [nulChar])) s :=
  ⟨by simp; omega, by simpa using @take_memcpyAt_zero Char buf (s ++ [nulChar]) (by simp; omega)⟩

/-- A buffer holding a string without a terminator inside shows exactly that string. -/
theorem cString_of_holdsString {buf s : List Char} (h : HoldsString buf s)
    (hs : nulChar ∉ s) : cString buf = s := by
  have hsplit := List.take_append_drop (s.length + 1) buf
  rw [h.2] at hsplit
  have hne : ∀ a ∈ s, (a != nulChar) = true := fun a ha => by
    simp only [bne_iff_ne, ne_eq]
    rintro rfl
    exact hs ha
  rw [cString, ← hsplit, List.append_assoc, List.takeWhile_append_of_pos hne]
  simp

/-! ## `format_u64_decimal` -/

/-- The digit loop of `format_u64_decimal`, `while (value > 0 && pos < sizeof(buf))`, with
`room = sizeof(buf) - pos`: the digits, least significant first. -/
def decimalDigitsRev (value : Nat) : Nat → List Char
  | 0 => []
  | room + 1 =>
    if value > 0 then digitChar (value % 10) :: decimalDigitsRev (value / 10) room else []

/-- `format_u64_decimal(value, out, out_len)` with `out_len = out.length`. -/
def formatU64Decimal (value : BitVec 64) (out : List Char) : List Char × Nat :=
  if out.length = 0 then (out, 0)
  else if value = 0 then
    if out.length < 2 then (out.set 0 nulChar, 0)
    else (memcpyAt out 0 ['0', nulChar], 1)
  else
    let buf := decimalDigitsRev value.toNat 24
    if buf.length + 1 > out.length then (out.set 0 nulChar, 0)
    else (memcpyAt out 0 (buf.reverse ++ [nulChar]), buf.length)

/-- The canonical decimal text of `n`: no leading zero, and `0` for zero. -/
def decimalString (n : Nat) : List Char :=
  if n = 0 then ['0'] else ((Nat.digits 10 n).map digitChar).reverse

theorem decimalDigitsRev_eq {value room : Nat} (h : (Nat.digits 10 value).length ≤ room) :
    decimalDigitsRev value room = (Nat.digits 10 value).map digitChar := by
  induction room generalizing value with
  | zero =>
    rw [Nat.le_zero, List.length_eq_zero, Nat.digits_eq_nil_iff_eq_zero] at h
    simp [h, decimalDigitsRev]
  | succ room ih =>
    rcases Nat.eq_zero_or_pos value with rfl | hpos
    · simp [decimalDigitsRev]
    rw [Nat.digits_def' (by norm_num) hpos, List.length_cons] at h
    rw [decimalDigitsRev, if_pos hpos, ih (by omega), Nat.digits_def' (by norm_num) hpos]
    rfl

theorem length_digits_toNat (v : BitVec 64) : (Nat.digits 10 v.toNat).length ≤ 20 :=
  length_digits_le_of_lt (by norm_num) (lt_of_lt_of_le v.isLt (by norm_num))

theorem length_decimalString (n : Nat) :
    (decimalString n).length = max 1 (Nat.digits 10 n).length := by
  rcases Nat.eq_zero_or_pos n with rfl | hpos
  · simp [decimalString]
  · have := List.length_pos.mpr (Nat.digits_ne_nil_iff_ne_zero.mpr hpos.ne' : Nat.digits 10 n ≠ [])
    simp [decimalString, hpos.ne']
    omega

theorem length_decimalString_toNat (v : BitVec 64) :
    0 < (decimalString v.toNat).length ∧ (decimalString v.toNat).length ≤ 20 := by
  have := length_digits_toNat v
  rw [length_decimalString]
  omega

/-- `format_u64_decimal` writes the canonical decimal text and its terminator when they fit,
and otherwise an empty string. -/
theorem formatU64Decimal_eq (value : BitVec 64) {out : List Char} (hout : 0 < out.length) :
    formatU64Decimal value out =
      if (decimalString value.toNat).length < out.length then
        (memcpyAt out 0 (decimalString value.toNat ++ [nulChar]), (decimalString value.toNat).length)
      else (out.set 0 nulChar, 0) := by
  unfold formatU64Decimal
  rw [if_neg (by omega)]
  by_cases h0 : value = 0
  · subst h0
    have hz : (0 : BitVec 64).toNat = 0 := rfl
    simp only [if_true, decimalString, hz, List.length_singleton, List.singleton_append]
    split_ifs <;> first | rfl | omega
  · have hpos : 0 < value.toNat :=
      Nat.pos_of_ne_zero fun h => h0 (BitVec.eq_of_toNat_eq (by rw [h]; rfl))
    have hdig : decimalDigitsRev value.toNat 24 = (Nat.digits 10 value.toNat).map digitChar :=
      decimalDigitsRev_eq (le_trans (length_digits_toNat value) (by norm_num))
    simp only [if_neg h0, hdig, decimalString, if_neg hpos.ne', List.length_reverse,
      List.length_map]
    split_ifs <;> first | rfl | omega

theorem formatU64Decimal_fits (value : BitVec 64) {out : List Char} (h : 21 ≤ out.length) :
    formatU64Decimal value out =
      (memcpyAt out 0 (decimalString value.toNat ++ [nulChar]), (decimalString value.toNat).length) := by
  have := length_decimalString_toNat value
  rw [formatU64Decimal_eq value (by omega), if_pos (by omega)]

/-! ## `format_fee` and `format_address` -/

/-- `q_factor` of `format_fee`: `2 ^ 64 = 1844674407370955161 * 10 + 6`. -/
def qFactor : BitVec 64 := 1844674407370955161

/-- `r_factor` of `format_fee`. -/
def rFactor : BitVec 64 := 6

/-- The digit loop of the 128-bit branch of `format_fee`,
`while ((lo != 0 || hi != 0) && pos < sizeof(buf))` with `room = sizeof(buf) - pos`; all the
arithmetic is on `uint64_t`. -/
def feeDigitsRev (lo hi : BitVec 64) : Nat → List Char
  | 0 => []
  | room + 1 =>
    if lo ≠ 0 ∨ hi ≠ 0 then
      let hiDiv := hi / 10
      let hiRem := hi % 10
      let loContrib := hiRem * rFactor + lo
      let loDiv := loContrib / 10
      let loRem := loContrib % 10
      let loNew := hiRem * qFactor + loDiv
      digitChar loRem.toNat :: feeDigitsRev loNew hiDiv room
    else []

/-- The message `format_fee` writes for an overflowed fee. -/
def overflowText : List Char := "Overflow".toList

/-- `format_fee(fee_low, fee_high, overflow, out, out_len)` with `out_len = out.length`. -/
def formatFee (feeLow feeHigh : BitVec 64) (overflow : Bool) (out : List Char) :
    List Char × Nat :=
  if out.length = 0 then (out, 0)
  else if overflow then
    if overflowText.length + 1 > out.length then (out.set 0 nulChar, 0)
    else (memcpyAt out 0 (overflowText ++ [nulChar]), overflowText.length)
  else if feeHigh = 0 then formatU64Decimal feeLow out
  else
    let buf := feeDigitsRev feeLow feeHigh 48
    if buf.length + 1 > out.length then (out.set 0 nulChar, 0)
    else (memcpyAt out 0 (buf.reverse ++ [nulChar]), buf.length)

/-- `format_address`. -/
def formatAddress (addr20 : List UInt8) (out : List Char) : List Char × Nat :=
  sumchainAddressToBase58 addr20 out

/-- The text `format_fee` shows when it does not take the 128-bit branch. -/
def feeText (feeLow : BitVec 64) (overflow : Bool) : List Char :=
  if overflow then overflowText else decimalString feeLow.toNat

theorem formatFee_fits (feeLow feeHigh : BitVec 64) {overflow : Bool} {out : List Char}
    (hfee : overflow = true ∨ feeHigh = 0) (h : 21 ≤ out.length) :
    formatFee feeLow feeHigh overflow out =
      (memcpyAt out 0 (feeText feeLow overflow ++ [nulChar]), (feeText feeLow overflow).length) := by
  unfold formatFee feeText
  rw [if_neg (by omega)]
  cases overflow
  · simp only [Bool.false_eq_true, false_or] at hfee
    simp only [Bool.false_eq_true, if_false, hfee, if_true, formatU64Decimal_fits _ h]
  · simp only [if_true]
    rw [if_neg (by simp [overflowText]; omega)]

/-- A 20-byte address fits any buffer of at least 29 characters. -/
theorem formatAddress_fits {addr : List UInt8} (haddr : addr.length = addressLen) {out : List Char}
    (h : 29 ≤ out.length) :
    formatAddress addr out =
      (memcpyAt out 0 (base58String addr ++ [nulChar]), (base58String addr).length) := by
  have h28 := length_base58String_address haddr
  have h20 : addr.length = 20 := haddr
  rw [formatAddress, sumchainAddressToBase58, List.take_of_length_le (by rw [haddr]),
    base58Encode_eq (by omega) (by rw [h20]; decide) (by omega), if_pos (by omega)]

/-! ## `tx_display_format` -/

/-- `TX_DISPLAY_AMOUNT_MAX_LEN`. -/
def txDisplayAmountMaxLen : Nat := 32

/-- `TX_DISPLAY_FEE_MAX_LEN`. -/
def txDisplayFeeMaxLen : Nat := 40

/-- `TX_DISPLAY_CHAIN_ID_MAX_LEN`. -/
def txDisplayChainIdMaxLen : Nat := 24

/-- `tx_display_t`: six character buffers. -/
structure TxDisplay where
  amount : List Char
  recipient : List Char
  fee : List Char
  chainId : List Char
  sender : List Char
  nonce : List Char
  deriving DecidableEq

/-- `memset(display, 0, sizeof(tx_display_t))`. -/
def TxDisplay.zero : TxDisplay where
  amount := List.replicate txDisplayAmountMaxLen nulChar
  recipient := List.replicate addressBase58MaxLen nulChar
  fee := List.replicate txDisplayFeeMaxLen nulChar
  chainId := List.replicate txDisplayChainIdMaxLen nulChar
  sender := List.replicate addressBase58MaxLen nulChar
  nonce := List.replicate txDisplayAmountMaxLen nulChar

/-- `tx_display_format`: the result and the display as the call leaves it. The fields are
written in the order of the source, and the first formatter that returns `0` ends the call. -/
def txDisplayFormat (parsed : TxParsed) : Bool × TxDisplay :=
  let d := TxDisplay.zero
  let amount := formatU64Decimal parsed.amount d.amount
  let d := { d with amount := amount.1 }
  if amount.2 = 0 then (false, d) else
  let recipient := formatAddress parsed.recipient d.recipient
  let d := { d with recipient := recipient.1 }
  if recipient.2 = 0 then (false, d) else
  let fee := formatFee parsed.feeLow parsed.feeHigh parsed.feeOverflow d.fee
  let d := { d with fee := fee.1 }
  if fee.2 = 0 then (false, d) else
  let chainId := formatU64Decimal parsed.chainId d.chainId
  let d := { d with chainId := chainId.1 }
  if chainId.2 = 0 then (false, d) else
  let sender := formatAddress parsed.sender d.sender
  let d := { d with sender := sender.1 }
  if sender.2 = 0 then (false, d) else
  let nonce := formatU64Decimal parsed.nonce d.nonce
  let d := { d with nonce := nonce.1 }
  if nonce.2 = 0 then (false, d) else (true, d)

/-- The display of a record whose fields all format: each buffer holds its text. -/
def displayOf (parsed : TxParsed) (fee : List Char) : TxDisplay where
  amount := memcpyAt TxDisplay.zero.amount 0 (decimalString parsed.amount.toNat ++ [nulChar])
  recipient := memcpyAt TxDisplay.zero.recipient 0 (base58String parsed.recipient ++ [nulChar])
  fee := fee
  chainId := memcpyAt TxDisplay.zero.chainId 0 (decimalString parsed.chainId.toNat ++ [nulChar])
  sender := memcpyAt TxDisplay.zero.sender 0 (base58String parsed.sender ++ [nulChar])
  nonce := memcpyAt TxDisplay.zero.nonce 0 (decimalString parsed.nonce.toNat ++ [nulChar])

/-- Only the fee formatter can fail: `tx_display_format` returns what it returns, and on
success every other buffer holds its field's text. -/
theorem txDisplayFormat_eq (parsed : TxParsed) :
    let fee := formatFee parsed.feeLow parsed.feeHigh parsed.feeOverflow TxDisplay.zero.fee
    txDisplayFormat parsed =
      if fee.2 = 0 then
        (false, { TxDisplay.zero with
          amount := (displayOf parsed fee.1).amount
          recipient := (displayOf parsed fee.1).recipient
          fee := fee.1 })
      else (true, displayOf parsed fee.1) := by
  intro fee
  have ha : 21 ≤ TxDisplay.zero.amount.length := by simp [TxDisplay.zero, txDisplayAmountMaxLen]
  have hn : 21 ≤ TxDisplay.zero.nonce.length := by simp [TxDisplay.zero, txDisplayAmountMaxLen]
  have hc : 21 ≤ TxDisplay.zero.chainId.length := by
    simp [TxDisplay.zero, txDisplayChainIdMaxLen]
  have hrb : 29 ≤ TxDisplay.zero.recipient.length := by simp [TxDisplay.zero, addressBase58MaxLen]
  have hsb : 29 ≤ TxDisplay.zero.sender.length := by simp [TxDisplay.zero, addressBase58MaxLen]
  have hpos := fun v => (length_decimalString_toNat v).1.ne'
  have hr := (length_base58String_pos (by rw [parsed.recipient_length]; decide)).ne'
  have hs := (length_base58String_pos (by rw [parsed.sender_length]; decide)).ne'
  unfold txDisplayFormat
  simp only [formatU64Decimal_fits _ ha, formatU64Decimal_fits _ hn, formatU64Decimal_fits _ hc,
    formatAddress_fits parsed.recipient_length hrb, formatAddress_fits parsed.sender_length hsb,
    hpos, hr, hs, if_false]
  split_ifs <;> rfl

/-- When `format_fee` stays off its 128-bit branch, `tx_display_format` succeeds and shows
every field. -/
theorem txDisplayFormat_of_fits (parsed : TxParsed)
    (hok : parsed.feeOverflow = true ∨ parsed.feeHigh = 0) :
    txDisplayFormat parsed = (true, displayOf parsed (memcpyAt TxDisplay.zero.fee 0
      (feeText parsed.feeLow parsed.feeOverflow ++ [nulChar]))) := by
  have hfee := formatFee_fits parsed.feeLow parsed.feeHigh hok
    (show 21 ≤ TxDisplay.zero.fee.length by simp [TxDisplay.zero, txDisplayFeeMaxLen])
  have hpos : (feeText parsed.feeLow parsed.feeOverflow).length ≠ 0 := by
    unfold feeText
    split_ifs
    · decide
    · exact (length_decimalString_toNat _).1.ne'
  rw [txDisplayFormat_eq]
  simp only [hfee, hpos, if_false]

/-! ## What the display shows -/

theorem digitChar_ne : ∀ d < 10, digitChar d ≠ nulChar ∧ digitChar d ≠ 'O' := by
  decide

theorem mem_decimalString {n : Nat} {c : Char} (hc : c ∈ decimalString n) :
    ∃ d < 10, c = digitChar d := by
  unfold decimalString at hc
  split_ifs at hc
  · exact ⟨0, by norm_num, by simpa using hc⟩
  · obtain ⟨d, hd, rfl⟩ := List.mem_map.mp (List.mem_reverse.mp hc)
    exact ⟨d, Nat.digits_lt_base (by norm_num) hd, rfl⟩

theorem nulChar_not_mem_decimalString (n : Nat) : nulChar ∉ decimalString n := fun h => by
  obtain ⟨d, hd, hc⟩ := mem_decimalString h
  exact (digitChar_ne d hd).1 hc.symm

theorem decimalString_ne_overflowText (n : Nat) : decimalString n ≠ overflowText := fun h => by
  have hO : 'O' ∈ decimalString n := h ▸ (by decide : 'O' ∈ overflowText)
  obtain ⟨d, hd, hc⟩ := mem_decimalString hO
  exact (digitChar_ne d hd).2 hc.symm

/-- Every buffer of `displayOf` holds its field's text inside its fixed size. -/
theorem displayOf_holds (parsed : TxParsed) {fee : List Char} (hfee : fee.length ≤ 20) :
    let d := displayOf parsed (memcpyAt TxDisplay.zero.fee 0 (fee ++ [nulChar]))
    HoldsString d.chainId (decimalString parsed.chainId.toNat) ∧
      HoldsString d.amount (decimalString parsed.amount.toNat) ∧
      HoldsString d.nonce (decimalString parsed.nonce.toNat) ∧
      HoldsString d.sender (base58String parsed.sender) ∧
      HoldsString d.recipient (base58String parsed.recipient) ∧ HoldsString d.fee fee ∧
      d.amount.length = txDisplayAmountMaxLen ∧ d.recipient.length = addressBase58MaxLen ∧
      d.fee.length = txDisplayFeeMaxLen ∧ d.chainId.length = txDisplayChainIdMaxLen ∧
      d.sender.length = addressBase58MaxLen ∧ d.nonce.length = txDisplayAmountMaxLen := by
  have hc := (length_decimalString_toNat parsed.chainId).2
  have ha := (length_decimalString_toNat parsed.amount).2
  have hn := (length_decimalString_toNat parsed.nonce).2
  have hs := length_base58String_address parsed.sender_length
  have hr := length_base58String_address parsed.recipient_length
  simp only [displayOf, TxDisplay.zero, length_memcpyAt, List.length_replicate, and_true]
  refine ⟨holdsString_memcpyAt ?_, holdsString_memcpyAt ?_, holdsString_memcpyAt ?_,
    holdsString_memcpyAt ?_, holdsString_memcpyAt ?_, holdsString_memcpyAt ?_⟩ <;>
    simp only [List.length_replicate, txDisplayChainIdMaxLen, txDisplayAmountMaxLen,
      txDisplayFeeMaxLen, addressBase58MaxLen]
  all_goals omega

/-- The display of a parsed Transfer: `tx_display_format` succeeds; the chain id, amount and
nonce are the canonical decimals of their little-endian fields, the addresses their Base58
texts, and the fee `Overflow` exactly when `gas_price * gas_limit` needs more than 64 bits
and its canonical decimal otherwise; each text ends with a terminator inside its buffer. -/
theorem txDisplayFormat_transfer {T : List UInt8} (hlen : T.length = 82) (h0 : T.getD 0 0 = 1)
    (h53 : T.getD 53 0 = 0) :
    ∃ d : TxDisplay, txDisplayFormat (txParserConsume txParserInit T).1.parsed = (true, d) ∧
      HoldsString d.chainId (decimalString (leValue (slice T 1 8))) ∧
      HoldsString d.amount (decimalString (leValue (slice T 74 8))) ∧
      HoldsString d.nonce (decimalString (leValue (slice T 29 8))) ∧
      HoldsString d.sender (base58String (slice T 9 20)) ∧
      HoldsString d.recipient (base58String (slice T 54 20)) ∧
      HoldsString d.fee (if 2 ^ 64 ≤ leValue (slice T 37 8) * leValue (slice T 45 8)
        then overflowText else decimalString (leValue (slice T 37 8) * leValue (slice T 45 8))) ∧
      (HoldsString d.fee overflowText ↔
        2 ^ 64 ≤ leValue (slice T 37 8) * leValue (slice T 45 8)) ∧
      d.amount.length = txDisplayAmountMaxLen ∧ d.recipient.length = addressBase58MaxLen ∧
      d.fee.length = txDisplayFeeMaxLen ∧ d.chainId.length = txDisplayChainIdMaxLen ∧
      d.sender.length = addressBase58MaxLen ∧ d.nonce.length = txDisplayAmountMaxLen := by
  set fee := leValue (slice T 37 8) * leValue (slice T 45 8)
  obtain ⟨hov, hnov⟩ := decodeTransfer_fee T
  have hparsed := txParserConsume_parsed (txParserConsume_done hlen h0 h53)
  -- the fee formatter does not take the 128-bit branch
  have hok : (decodeTransfer T).feeOverflow = true ∨ (decodeTransfer T).feeHigh = 0 := by
    cases h : (decodeTransfer T).feeOverflow
    · exact .inr (hnov h).1
    · exact .inl rfl
  have htext : feeText (decodeTransfer T).feeLow (decodeTransfer T).feeOverflow =
      if 2 ^ 64 ≤ fee then overflowText else decimalString fee := by
    cases h : (decodeTransfer T).feeOverflow
    · have hlt : ¬2 ^ 64 ≤ fee := fun hge => by simpa [h] using hov.mpr hge
      rw [feeText, if_neg (by simp), if_neg hlt, (hnov h).2]
    · rw [feeText, if_pos rfl, if_pos (hov.mp h)]
  have htlen : (if 2 ^ 64 ≤ fee then overflowText else decimalString fee).length ≤ 20 := by
    split_ifs
    · decide
    · have := @length_digits_le_of_lt 10 fee 20 (by norm_num) (by omega)
      rw [length_decimalString]; omega
  obtain ⟨hC, hA, hN, hS, hR, hF, hlens⟩ := displayOf_holds (decodeTransfer T) htlen
  rw [decodeTransfer_chainId, toNat_leWord (length_slice T 1 8)] at hC
  rw [decodeTransfer_amount, toNat_leWord (length_slice T 74 8)] at hA
  rw [decodeTransfer_nonce, toNat_leWord (length_slice T 29 8)] at hN
  rw [decodeTransfer_sender] at hS
  rw [decodeTransfer_recipient] at hR
  refine ⟨_, by rw [hparsed, txDisplayFormat_of_fits _ hok, htext], hC, hA, hN, hS, hR, hF,
    ⟨fun hO => ?_, fun hge => by rwa [if_pos hge] at hF ⊢⟩, hlens⟩
  -- a buffer shows one string, and the decimal text is not the overflow message
  by_contra hlt
  rw [if_neg hlt] at hF hO
  exact decimalString_ne_overflowText fee
    ((cString_of_holdsString hF (nulChar_not_mem_decimalString fee)).symm.trans
      (cString_of_holdsString hO (by decide)))

/-- A Transfer with every field non-zero: chain id 1, sender 20 × 0x11, nonce 5, gas price 10,
gas limit 10000, recipient 20 × 0x22 and amount 1000000. -/
def sampleTransfer : List UInt8 :=
  1 :: leBytes 8 1 ++ List.replicate 20 0x11 ++ leBytes 8 5 ++ leBytes 8 10 ++ leBytes 8 10000 ++
    0 :: List.replicate 20 0x22 ++ leBytes 8 1000000

theorem txDisplayFormat_transfer_sample :
    sampleTransfer.length = 82 ∧ sampleTransfer.getD 0 0 = 1 ∧ sampleTransfer.getD 53 0 = 0 ∧
    ∃ d : TxDisplay,
      txDisplayFormat (txParserConsume txParserInit sampleTransfer).1.parsed = (true, d) ∧
      HoldsString d.chainId (decimalString (leValue (slice sampleTransfer 1 8))) ∧
      HoldsString d.amount (decimalString (leValue (slice sampleTransfer 74 8))) ∧
      HoldsString d.nonce (decimalString (leValue (slice sampleTransfer 29 8))) ∧
      HoldsString d.sender (base58String (slice sampleTransfer 9 20)) ∧
      HoldsString d.recipient (base58String (slice sampleTransfer 54 20)) ∧
      HoldsString d.fee
        (if 2 ^ 64 ≤ leValue (slice sampleTransfer 37 8) * leValue (slice sampleTransfer 45 8)
        then overflowText
        else decimalString (leValue (slice sampleTransfer 37 8) *
          leValue (slice sampleTransfer 45 8))) ∧
      (HoldsString d.fee overflowText ↔
        2 ^ 64 ≤ leValue (slice sampleTransfer 37 8) * leValue (slice sampleTransfer 45 8)) ∧
      d.amount.length = txDisplayAmountMaxLen ∧ d.recipient.length = addressBase58MaxLen ∧
      d.fee.length = txDisplayFeeMaxLen ∧ d.chainId.length = txDisplayChainIdMaxLen ∧
      d.sender.length = addressBase58MaxLen ∧ d.nonce.length = txDisplayAmountMaxLen :=
  ⟨rfl, rfl, rfl, txDisplayFormat_transfer rfl rfl rfl⟩

/-! ## The 128-bit branch of `format_fee` -/

/-- With a zero high word the 128-bit loop is the 64-bit digit loop. -/
theorem feeDigitsRev_zero_high (lo : BitVec 64) (room : Nat) :
    feeDigitsRev lo 0 room = decimalDigitsRev lo.toNat room := by
  induction room generalizing lo with
  | zero => rfl
  | succ room ih =>
    have hcontrib : (0 : BitVec 64) % 10 * rFactor + lo = lo := by
      apply BitVec.eq_of_toNat_eq; simp [rFactor]
    have hnew : (0 : BitVec 64) % 10 * qFactor + lo / 10 = lo / 10 := by
      apply BitVec.eq_of_toNat_eq; simp [qFactor]
    have hhi : (0 : BitVec 64) / 10 = 0 := by decide
    have hpos : (lo ≠ 0 ∨ (0 : BitVec 64) ≠ 0) ↔ lo.toNat > 0 := by
      have h0 : (0 : BitVec 64).toNat = 0 := rfl
      rw [ne_eq, ne_eq, BitVec.toNat_eq, h0]
      simp only [not_true_eq_false, or_false]
      omega
    simp only [feeDigitsRev, decimalDigitsRev, hcontrib, hnew, hhi, ih, BitVec.toNat_udiv,
      BitVec.toNat_umod]
    by_cases h : lo.toNat > 0
    · rw [if_pos (hpos.mpr h), if_pos h]
      rfl
    · rw [if_neg (fun h' => h (hpos.mp h')), if_neg h]

theorem digitValue_digitChar : ∀ d < 10, (digitChar d).toNat - 48 = d := by
  decide

/-- Reading the digits back: the characters of `decimalString n`, from the last, less `'0'`. -/
theorem digits_of_decimalString {n : Nat} (hn : n ≠ 0) :
    ((decimalString n).reverse.map fun c => c.toNat - 48) = Nat.digits 10 n := by
  rw [decimalString, if_neg hn, List.reverse_reverse, List.map_map]
  conv_rhs => rw [← List.map_id (Nat.digits 10 n)]
  exact List.map_congr_left fun d hd =>
    digitValue_digitChar d (Nat.digits_lt_base (by norm_num) hd)

theorem decimalString_zero_ne {n : Nat} (hn : n ≠ 0) : decimalString 0 ≠ decimalString n := by
  intro h
  have hdig := digits_of_decimalString hn
  rw [← h] at hdig
  have hlast := Nat.getLast_digit_ne_zero 10 hn
  simp only [← hdig] at hlast
  exact hlast rfl

/-- Different numbers have different decimal texts. -/
theorem decimalString_injective {a b : Nat} (h : decimalString a = decimalString b) : a = b := by
  rcases Nat.eq_zero_or_pos a with rfl | ha <;> rcases Nat.eq_zero_or_pos b with rfl | hb
  · rfl
  · exact absurd h (decimalString_zero_ne hb.ne')
  · exact absurd h.symm (decimalString_zero_ne ha.ne')
  · rw [← Nat.ofDigits_digits 10 a, ← Nat.ofDigits_digits 10 b, ← digits_of_decimalString ha.ne',
      ← digits_of_decimalString hb.ne', h]

/-- On `fee_high = 1`, `fee_low = 2 ^ 64 - 1` the first pass computes `hi_rem * 6 + lo = 5`
in `uint64_t` instead of `2 ^ 64 + 5`, so the loop goes on from `q_factor` with a zero high
word and emits the digits of `10 * q_factor + 5 = 2 ^ 64 - 1`. -/
theorem feeDigitsRev_allOnes_one :
    feeDigitsRev (BitVec.allOnes 64) 1 48 = (Nat.digits 10 (2 ^ 64 - 1)).map digitChar := by
  have hstep : feeDigitsRev (BitVec.allOnes 64) 1 48 = digitChar 5 :: feeDigitsRev qFactor 0 47 :=
    rfl
  have hq : qFactor.toNat = 1844674407370955161 := rfl
  have hlen := @length_digits_le_of_lt 10 1844674407370955161 20 (by norm_num) (by norm_num)
  rw [hstep, feeDigitsRev_zero_high, hq, decimalDigitsRev_eq (by omega),
    Nat.digits_def' (by norm_num) (by norm_num : 0 < 2 ^ 64 - 1)]
  norm_num

/-- `format_fee`'s 128-bit branch is not exact: for a record with `fee_overflow = false`,
`fee_high = 1` and `fee_low = 2 ^ 64 - 1`, so a fee of `2 ^ 65 - 1`, `tx_display_format`
succeeds but shows the decimal of `2 ^ 64 - 1`, not that of the fee. -/
theorem formatFee_wraps :
    let r : TxParsed := { TxParsed.zero with feeLow := BitVec.allOnes 64, feeHigh := 1 }
    r.feeOverflow = false ∧ r.feeHigh.toNat * 2 ^ 64 + r.feeLow.toNat = 2 ^ 65 - 1 ∧
      (txDisplayFormat r).1 = true ∧
      HoldsString (txDisplayFormat r).2.fee (decimalString (2 ^ 64 - 1)) ∧
      ¬HoldsString (txDisplayFormat r).2.fee (decimalString (2 ^ 65 - 1)) := by
  intro r
  have hshown : (feeDigitsRev (BitVec.allOnes 64) 1 48).reverse = decimalString (2 ^ 64 - 1) := by
    rw [feeDigitsRev_allOnes_one, decimalString, if_neg (by norm_num)]
  have hfit : (decimalString (2 ^ 64 - 1)).length < TxDisplay.zero.fee.length := by
    have := length_decimalString_toNat (BitVec.allOnes 64)
    rw [BitVec.toNat_allOnes] at this
    simp only [TxDisplay.zero, txDisplayFeeMaxLen, List.length_replicate]
    omega
  have hpos : (decimalString (2 ^ 64 - 1)).length ≠ 0 := by
    have := length_decimalString_toNat (BitVec.allOnes 64)
    rw [BitVec.toNat_allOnes] at this
    omega
  have hfee : formatFee r.feeLow r.feeHigh r.feeOverflow TxDisplay.zero.fee =
      (memcpyAt TxDisplay.zero.fee 0 (decimalString (2 ^ 64 - 1) ++ [nulChar]),
        (decimalString (2 ^ 64 - 1)).length) := by
    have hlen : (feeDigitsRev (BitVec.allOnes 64) 1 48).length =
        (decimalString (2 ^ 64 - 1)).length := by rw [← hshown, List.length_reverse]
    unfold formatFee
    dsimp only [r]
    rw [if_neg (by simp [TxDisplay.zero, txDisplayFeeMaxLen]), if_neg (by decide),
      if_neg (by decide), if_neg (by rw [hlen]; omega), hshown, hlen]
  have hdisp : txDisplayFormat r = (true, displayOf r
      (memcpyAt TxDisplay.zero.fee 0 (decimalString (2 ^ 64 - 1) ++ [nulChar]))) := by
    rw [txDisplayFormat_eq]
    simp only [hfee, hpos, if_false]
  have hholds : HoldsString (txDisplayFormat r).2.fee (decimalString (2 ^ 64 - 1)) := by
    rw [hdisp]
    exact holdsString_memcpyAt hfit
  refine ⟨rfl, by simp [r], by rw [hdisp], hholds, fun hwrong => ?_⟩
  -- the buffer shows one string, and different numbers have different texts
  have := (cString_of_holdsString hholds (nulChar_not_mem_decimalString _)).symm.trans
    (cString_of_holdsString hwrong (nulChar_not_mem_decimalString _))
  exact absurd (decimalString_injective this) (by norm_num)

/-! ## The review screens -/

end SumChainLedger
