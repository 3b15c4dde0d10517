import SumChainLedger.Bytes

/-!
# Base58

`base58_encode` of `address.c`. Leading zero bytes become `1`s; the rest of the input is
divided by 58 in place, again and again, in a scratch buffer, and the remainders, least
significant first, are written out in reverse through `BASE58_ALPHABET`.

* `divmod58_spec` — one pass of the inner loop is long division by 58;
* `base58Loop_eq` — the outer loop emits the base-58 digits of the value, least significant
  first, and never overflows while the digits fit;
* `base58Encode_eq` — for inputs of 1 to 32 bytes, the call writes the standard Base58 text
  (`base58String`) and its terminator when the buffer holds them, and fails otherwise;
* `base58Decode_base58String` — standard decoding inverts the text;
* `length_base58String_address` — a 20-byte address takes at most 28 symbols.
-/

namespace SumChainLedger

/-- The C string terminator. -/
def nulChar : Char := Char.ofNat 0

/-- `BASE58_ALPHABET` (Bitcoin order, without `0`, `O`, `I` and `l`). -/
def base58Alphabet : List Char :=
  "123456789ABCDEFGHJKLMNPQRSTUVWXYZabcdefghijkmnopqrstuvwxyz".toList

/-- `BASE58_ALPHABET[d]`. -/
def base58Char (d : Nat) : Char := base58Alphabet.getD d nulChar

/-- `MAX_INPUT_LEN`. -/
def maxInputLen : Nat := 32

/-- `MAX_B58_LEN`. -/
def maxB58Len : Nat := 45

/-- One pass of the inner `for` loop of `base58_encode` over `buf[start..in_len)`: the
`uint32_t` carry takes in the next byte, the byte becomes `(uint8_t)(carry / 58)` and the
carry `carry % 58`. Returns the rewritten bytes and the last carry. -/
def divmod58 : List UInt8 → Nat → List UInt8 × Nat
  | [], carry => ([], carry)
  | b :: bs, carry =>
    let carry := (carry * 256 + b.toNat) % 2 ^ 32
    let rest := divmod58 bs (carry % 58)
    (UInt8.ofNat (carry / 58) :: rest.1, rest.2)

/-- The outer `while (start < in_len)` loop of `base58_encode`: `cur` is `buf[start..in_len)`
and `b58Rev` is `b58_rev[0..b58_len)`; `none` is the overflow exit. -/
def base58Loop (cur : List UInt8) (b58Rev : List Char) : Option (List Char) :=
  if cur = [] then some b58Rev
  else
    let pass := divmod58 cur 0
    if b58Rev.length ≥ maxB58Len then none
    else base58Loop (pass.1.dropWhile (· == 0)) (b58Rev ++ [base58Char pass.2])
termination_by maxB58Len - b58Rev.length
decreasing_by simp_wf; omega

/-- The body of the outer loop on its head `(buf[start..in_len), b58_rev)`: a pass of the inner
loop, the remainder's symbol appended, and `start` moved past the quotient's leading zero
bytes. -/
def base58Step (head : List UInt8 × List Char) : List UInt8 × List Char :=
  ((divmod58 head.1 0).1.dropWhile (· == 0), head.2 ++ [base58Char (divmod58 head.1 0).2])

/-- The number of leading zero bytes, as the first `while` loop of `base58_encode` counts them. -/
def leadingZeros (input : List UInt8) : Nat := (input.takeWhile (· == 0)).length

/-- `base58_encode(in, in_len, out, out_len)` with `out_len = out.length`: the buffer after
the call and the return value. -/
def base58Encode (input : List UInt8) (out : List Char) : List Char × Nat :=
  if out.length = 0 then (out, 0)
  else if input.length = 0 then (out.set 0 nulChar, 0)
  else if input.length > maxInputLen then (out.set 0 nulChar, 0)
  else
    let zeros := leadingZeros input
    match base58Loop (input.drop zeros) [] with
    | none => (out.set 0 nulChar, 0)
    | some b58Rev =>
      let totalLen := zeros + b58Rev.length
      if totalLen + 1 > out.length then (out.set 0 nulChar, 0)
      else (memcpyAt out 0 (List.replicate zeros '1' ++ b58Rev.reverse ++ [nulChar]), totalLen)

/-- `ADDRESS_LEN`. -/
def addressLen : Nat := 20

/-- `ADDRESS_BASE58_MAX_LEN`. -/
def addressBase58MaxLen : Nat := 35

/-- `sumchain_address_to_base58`: the `ADDRESS_LEN` bytes of the address in Base58. -/
def sumchainAddressToBase58 (addr20 : List UInt8) (out : List Char) : List Char × Nat :=
  base58Encode (addr20.take addressLen) out

/-! ## The standard encoding -/

/-- The standard Base58 text of a byte string: a `1` per leading zero byte, then the base-58
digits of its big-endian value, most significant first, through the alphabet. -/
def base58String (input : List UInt8) : List Char :=
  List.replicate (leadingZeros input) '1' ++
    ((Nat.digits 58 (beValue input)).map base58Char).reverse

/-- The digit a character stands for. -/
def base58Value (c : Char) : Option Nat := base58Alphabet.indexOf? c

/-- Standard Base58 decoding: a zero byte per leading `1`, then the big-endian bytes of the
value the other characters denote. -/
def base58Decode (s : List Char) : Option (List UInt8) :=
  let ones := (s.takeWhile (· == '1')).length
  ((s.drop ones).mapM base58Value).map fun ds =>
    List.replicate ones 0 ++
      ((Nat.digits 256 (Nat.ofDigits 58 ds.reverse)).map UInt8.ofNat).reverse

/-! ## The alphabet -/

/-- The alphabet has 58 distinct characters. -/
theorem base58Alphabet_nodup : base58Alphabet.Nodup :=
  List.Nodup.of_map Char.toNat (by decide)

theorem base58Value_base58Char : ∀ d < 58, base58Value (base58Char d) = some d := by
  intro d hd
  have hlen : d < base58Alphabet.length := hd
  rw [base58Value, base58Char, List.getD_eq_getElem?_getD, List.getElem?_eq_getElem hlen,
    Option.getD_some, List.indexOf?, List.findIdx?_eq_some_iff_getElem]
  refine ⟨hlen, by simp, fun j hj => ?_⟩
  rw [beq_iff_eq, base58Alphabet_nodup.getElem_inj_iff]
  omega

theorem base58Char_eq_one_iff {d : Nat} (hd : d < 58) : base58Char d = '1' ↔ d = 0 := by
  constructor
  · intro h
    have := base58Value_base58Char d hd
    rw [h] at this
    exact (Option.some.inj ((base58Value_base58Char 0 (by norm_num)).symm.trans this)).symm
  · rintro rfl
    rfl

/-- The standard text has no terminator inside: `strlen` sees all of it. -/
theorem nulChar_not_mem_base58String (input : List UInt8) : nulChar ∉ base58String input := by
  have hnul : base58Value nulChar = none := by decide
  have hchar : ∀ d < 58, base58Char d ≠ nulChar := fun d hd h => by
    simpa [h, hnul] using base58Value_base58Char d hd
  simp only [base58String, List.mem_append, List.mem_replicate, List.mem_reverse, List.mem_map,
    not_or, not_and, not_exists]
  exact ⟨fun _ h => absurd h (by decide), fun d hd => hchar d (Nat.digits_lt_base (by norm_num) hd)⟩

/-! ## Leading zeros -/

theorem beValue_dropWhile (l : List UInt8) : beValue (l.dropWhile (· == 0)) = beValue l := by
  induction l with
  | nil => rfl
  | cons b bs ih =>
    by_cases hb : b = 0
    · subst hb
      rw [List.dropWhile_cons_of_pos (by decide), ih]
      simp
    · rw [List.dropWhile_cons_of_neg (by simpa using hb)]

theorem head?_dropWhile_ne_zero (l : List UInt8) : (l.dropWhile (· == 0)).head? ≠ some 0 := by
  have := List.head?_dropWhile_not (· == (0 : UInt8)) l
  intro h
  rw [h] at this
  simp at this

theorem beValue_pos {l : List UInt8} (hne : l ≠ []) (hhead : l.head? ≠ some 0) :
    0 < beValue l := by
  obtain ⟨b, bs, rfl⟩ := List.exists_cons_of_ne_nil hne
  have hb : b.toNat ≠ 0 := fun h => hhead (by rw [UInt8.toNat.inj (show b.toNat = (0 : UInt8).toNat from h)]; rfl)
  rw [beValue_cons]
  have := Nat.pos_pow_of_pos bs.length (show 0 < 256 by norm_num)
  have := Nat.mul_pos (Nat.pos_of_ne_zero hb) this
  omega

theorem drop_leadingZeros (input : List UInt8) :
    input.drop (leadingZeros input) = input.dropWhile (· == 0) := by
  rw [leadingZeros]
  nth_rewrite 2 [← List.takeWhile_append_dropWhile (· == 0) input]
  exact List.drop_left _ _

theorem takeWhile_eq_replicate (input : List UInt8) :
    input.takeWhile (· == 0) = List.replicate (leadingZeros input) 0 := by
  rw [List.eq_replicate_iff]
  exact ⟨rfl, fun b hb => by simpa using List.mem_takeWhile_imp hb⟩

theorem beValue_drop_leadingZeros (input : List UInt8) :
    beValue (input.drop (leadingZeros input)) = beValue input := by
  rw [drop_leadingZeros, beValue_dropWhile]

/-! ## Long division -/

/-- One pass of the inner loop divides the big-endian value, with the incoming carry as its
top digit, by 58: the carry stays below 58 and the quotient keeps the length. -/
theorem divmod58_spec (l : List UInt8) {c : Nat} (hc : c < 58) :
    c * 256 ^ l.length + beValue l = 58 * beValue (divmod58 l c).1 + (divmod58 l c).2 ∧
      (divmod58 l c).2 < 58 ∧ (divmod58 l c).1.length = l.length := by
  induction l generalizing c with
  | nil => simp [divmod58]; omega
  | cons b bs ih =>
    have hb : b.toNat < 256 := b.toNat_lt_size
    have hfit : (c * 256 + b.toNat) % 2 ^ 32 = c * 256 + b.toNat := Nat.mod_eq_of_lt (by omega)
    obtain ⟨hval, hr, hlen⟩ := ih (Nat.mod_lt (c * 256 + b.toNat) (by norm_num))
    have hq : (UInt8.ofNat ((c * 256 + b.toNat) / 58)).toNat = (c * 256 + b.toNat) / 58 := by
      rw [UInt8.toNat_ofNat_mod]; omega
    simp only [divmod58, hfit, beValue_cons, hq, List.length_cons, hlen]
    refine ⟨?_, hr, trivial⟩
    have hsplit := Nat.div_add_mod (c * 256 + b.toNat) 58
    calc c * 256 ^ (bs.length + 1) + (b.toNat * 256 ^ bs.length + beValue bs)
        = (c * 256 + b.toNat) * 256 ^ bs.length + beValue bs := by ring
      _ = 58 * ((c * 256 + b.toNat) / 58 * 256 ^ bs.length) +
            ((c * 256 + b.toNat) % 58 * 256 ^ bs.length + beValue bs) := by
          conv_lhs => rw [← hsplit]
          ring
      _ = _ := by rw [hval]; ring

/-- The carry a pass holds after `i` bytes is the one entering byte `i`: below 58, so
`carry * 256 + buf[i]` stays below `58 * 256`, the `uint32_t` never wraps, and the quotient
byte `carry / 58` is stored without truncation. -/
theorem divmod58_getD (l : List UInt8) {c : Nat} (hc : c < 58) {i : Nat} (hi : i < l.length) :
    (divmod58 (l.take i) c).2 * 256 + (l.getD i 0).toNat < 58 * 256 ∧
      ((divmod58 l c).1.getD i 0).toNat =
        ((divmod58 (l.take i) c).2 * 256 + (l.getD i 0).toNat) / 58 := by
  induction l generalizing c i with
  | nil => exact absurd hi (Nat.not_lt_zero _)
  | cons b bs ih =>
    have hb : b.toNat < 256 := b.toNat_lt_size
    have hfit : (c * 256 + b.toNat) % 2 ^ 32 = c * 256 + b.toNat := Nat.mod_eq_of_lt (by omega)
    cases i with
    | zero =>
      simp only [List.take_zero, divmod58, List.getD_cons_zero, hfit, UInt8.toNat_ofNat_mod]
      omega
    | succ i =>
      simp only [List.take_succ_cons, divmod58, List.getD_cons_succ, hfit]
      exact ih (Nat.mod_lt _ (by norm_num)) (by simpa using hi)

/-! ## The outer loop -/

/-- From a buffer without a leading zero, the loop emits the base-58 digits of its value,
least significant first, as long as they fit in the scratch array. -/
theorem base58Loop_eq {cur : List UInt8} {b58Rev : List Char} (hcur : cur.head? ≠ some 0)
    (hroom : b58Rev.length + (Nat.digits 58 (beValue cur)).length ≤ maxB58Len) :
    base58Loop cur b58Rev = some (b58Rev ++ (Nat.digits 58 (beValue cur)).map base58Char) := by
  induction cur, b58Rev using base58Loop.induct with
  | case1 b58Rev =>
    rw [base58Loop]
    simp
  | case2 cur b58Rev hne hfull =>
    have hpos := beValue_pos hne hcur
    rw [Nat.digits_def' (by norm_num) hpos, List.length_cons] at hroom
    omega
  | case3 cur b58Rev hne pass hroom' ih =>
    unfold pass at ih
    have hpos := beValue_pos hne hcur
    obtain ⟨hval, hr, -⟩ := divmod58_spec cur (show 0 < 58 by norm_num)
    simp only [zero_mul, zero_add] at hval
    have hdig : Nat.digits 58 (beValue cur) =
        (divmod58 cur 0).2 :: Nat.digits 58 (beValue (divmod58 cur 0).1) := by
      rw [Nat.digits_def' (by norm_num) hpos]
      congr 2 <;> omega
    rw [hdig, List.length_cons] at hroom
    rw [base58Loop, if_neg hne, if_neg hroom', ih (head?_dropWhile_ne_zero _)
      (by rw [beValue_dropWhile, List.length_append, List.length_singleton]; omega),
      beValue_dropWhile, hdig]
    simp

theorem base58Loop_eq_step (cur : List UInt8) (b58Rev : List Char) :
    base58Loop cur b58Rev =
      if cur = [] then some b58Rev
      else if b58Rev.length ≥ maxB58Len then none
      else base58Loop (base58Step (cur, b58Rev)).1 (base58Step (cur, b58Rev)).2 := by
  rw [base58Loop]; rfl

/-- From a buffer without a leading zero byte, `k` iterations of the body, up to the number of
digits, leave a buffer without a leading zero byte holding the value divided by `58 ^ k`, and
append the `k` lowest base-58 digits. -/
theorem base58Step_iterate {cur : List UInt8} (hcur : cur.head? ≠ some 0) (b58Rev : List Char)
    {k : Nat} (hk : k ≤ (Nat.digits 58 (beValue cur)).length) :
    (base58Step^[k] (cur, b58Rev)).1.head? ≠ some 0 ∧
      beValue (base58Step^[k] (cur, b58Rev)).1 = beValue cur / 58 ^ k ∧
      (base58Step^[k] (cur, b58Rev)).2 =
        b58Rev ++ ((Nat.digits 58 (beValue cur)).take k).map base58Char := by
  induction k generalizing cur b58Rev with
  | zero => simp [hcur]
  | succ k ih =>
    have hpos : 0 < beValue cur := Nat.pos_of_ne_zero fun h => by simp [h] at hk
    obtain ⟨hval, hr, -⟩ := divmod58_spec cur (show 0 < 58 by norm_num)
    simp only [zero_mul, zero_add] at hval
    have hq : beValue ((divmod58 cur 0).1.dropWhile (· == 0)) = beValue cur / 58 := by
      rw [beValue_dropWhile]; omega
    have hdig : Nat.digits 58 (beValue cur) =
        (divmod58 cur 0).2 :: Nat.digits 58 (beValue cur / 58) := by
      rw [Nat.digits_def' (by norm_num) hpos]; congr 1; omega
    rw [hdig, List.length_cons] at hk
    have hstep : base58Step (cur, b58Rev) = ((divmod58 cur 0).1.dropWhile (· == 0),
        b58Rev ++ [base58Char (divmod58 cur 0).2]) := rfl
    obtain ⟨hh, hv, hs⟩ := ih (head?_dropWhile_ne_zero _) (b58Rev ++ [base58Char (divmod58 cur 0).2])
      (by rw [hq]; omega)
    rw [Function.iterate_succ_apply, hstep]
    refine ⟨hh, by rw [hv, hq, Nat.div_div_eq_div_mul, ← pow_succ'], ?_⟩
    rw [hs, hq, hdig, List.take_succ_cons, List.map_cons, List.append_assoc, List.singleton_append]

/-! ## The whole call -/

theorem length_digits_le_of_lt {b n k : Nat} (hb : 1 < b) (h : n < b ^ k) :
    (Nat.digits b n).length ≤ k := by
  rcases Nat.eq_zero_or_pos n with rfl | hn
  · simp
  have : b ^ (Nat.digits b n).length < b ^ (k + 1) :=
    calc b ^ (Nat.digits b n).length ≤ b * n := Nat.base_pow_length_digits_le b n hb hn.ne'
      _ < b * b ^ k := Nat.mul_lt_mul_of_pos_left h (by omega)
      _ = b ^ (k + 1) := (pow_succ' b k).symm
  have := (Nat.pow_lt_pow_iff_right hb).mp this
  omega

/-- At most 32 bytes have at most 44 base-58 digits: `256 ^ 32 ≤ 58 ^ 44`. -/
theorem length_digits_beValue_le {input : List UInt8} (h : input.length ≤ maxInputLen) :
    (Nat.digits 58 (beValue input)).length ≤ 44 := by
  apply length_digits_le_of_lt (by norm_num)
  calc beValue input < 256 ^ input.length := beValue_lt input
    _ ≤ 256 ^ 32 := Nat.pow_le_pow_right (by norm_num) h
    _ ≤ 58 ^ 44 := by norm_num

/-- A buffer without a leading zero byte is empty exactly when its value is zero. -/
theorem eq_nil_iff_beValue_eq_zero {l : List UInt8} (hl : l.head? ≠ some 0) :
    l = [] ↔ beValue l = 0 :=
  ⟨fun h => by rw [h]; rfl, fun h => by_contra fun hne => (beValue_pos hne hl).ne' h⟩

/-- The buffer the iterates reach is empty exactly after as many iterations as there are
digits. -/
theorem base58Step_iterate_eq_nil {cur : List UInt8} (hcur : cur.head? ≠ some 0)
    (b58Rev : List Char) {k : Nat} (hk : k ≤ (Nat.digits 58 (beValue cur)).length) :
    (base58Step^[k] (cur, b58Rev)).1 = [] ↔ k = (Nat.digits 58 (beValue cur)).length := by
  obtain ⟨hh, hv, -⟩ := base58Step_iterate hcur b58Rev hk
  rw [eq_nil_iff_beValue_eq_zero hh, hv, Nat.div_eq_zero_iff (by positivity)]
  constructor
  · exact fun h => le_antisymm hk (length_digits_le_of_lt (by norm_num) h)
  · rintro rfl; exact Nat.lt_base_pow_length_digits (by norm_num)

/-- The loop goes through the iterates of its body: up to the number of digits, the call from
`(cur, b58_rev)` is the call from the `k`-th iterate. -/
theorem base58Loop_iterate {cur : List UInt8} (hcur : cur.head? ≠ some 0) (b58Rev : List Char)
    (hroom : b58Rev.length + (Nat.digits 58 (beValue cur)).length ≤ maxB58Len) {k : Nat}
    (hk : k ≤ (Nat.digits 58 (beValue cur)).length) :
    base58Loop cur b58Rev =
      base58Loop (base58Step^[k] (cur, b58Rev)).1 (base58Step^[k] (cur, b58Rev)).2 := by
  induction k with
  | zero => rfl
  | succ k ih =>
    have hne : (base58Step^[k] (cur, b58Rev)).1 ≠ [] := fun h =>
      absurd ((base58Step_iterate_eq_nil hcur b58Rev (k := k) (by omega)).mp h) (by omega)
    have hlen : (base58Step^[k] (cur, b58Rev)).2.length = b58Rev.length + k := by
      rw [(base58Step_iterate hcur b58Rev (k := k) (by omega)).2.2]
      simp only [List.length_append, List.length_map, List.length_take]
      omega
    rw [ih (by omega), base58Loop_eq_step, if_neg hne, if_neg (by omega), Prod.mk.eta,
      ← Function.iterate_succ_apply' base58Step]

@[simp]
theorem length_base58String (input : List UInt8) :
    (base58String input).length = leadingZeros input + (Nat.digits 58 (beValue input)).length := by
  simp [base58String]

/-- On at most 32 bytes the outer loop runs once per digit and never overflows. -/
theorem base58Loop_drop_leadingZeros {input : List UInt8} (hmax : input.length ≤ maxInputLen) :
    base58Loop (input.drop (leadingZeros input)) [] =
      some ((Nat.digits 58 (beValue input)).map base58Char) := by
  have hdig := length_digits_beValue_le hmax
  rw [base58Loop_eq (by rw [drop_leadingZeros]; exact head?_dropWhile_ne_zero input)
    (by rw [beValue_drop_leadingZeros]; simp [maxB58Len]; omega), beValue_drop_leadingZeros]
  rfl

/-- A non-empty input has a non-empty text. -/
theorem length_base58String_pos {input : List UInt8} (hin : 0 < input.length) :
    0 < (base58String input).length := by
  rw [length_base58String]
  by_contra h0
  have hz : leadingZeros input = 0 := by omega
  have hv : beValue input = 0 :=
    Nat.digits_eq_nil_iff_eq_zero.mp (List.eq_nil_of_length_eq_zero
      (show (Nat.digits 58 (beValue input)).length = 0 by omega))
  have hpos := @beValue_pos (input.drop (leadingZeros input))
    (by rw [hz, List.drop_zero]; exact List.ne_nil_of_length_pos hin)
    (by rw [drop_leadingZeros]; exact head?_dropWhile_ne_zero input)
  rw [beValue_drop_leadingZeros] at hpos
  omega

/-- For 1 to 32 input bytes and a non-empty buffer, `base58_encode` writes the standard text
and its terminator when they fit, and otherwise writes an empty string and returns `0`. -/
theorem base58Encode_eq {input : List UInt8} {out : List Char} (hin : 0 < input.length)
    (hmax : input.length ≤ maxInputLen) (hout : 0 < out.length) :
    base58Encode input out =
      if (base58String input).length + 1 ≤ out.length then
        (memcpyAt out 0 (base58String input ++ [nulChar]), (base58String input).length)
      else (out.set 0 nulChar, 0) := by
  have hloop := base58Loop_drop_leadingZeros hmax
  unfold base58Encode
  rw [if_neg (by omega), if_neg (by omega), if_neg (by omega)]
  dsimp only
  rw [hloop]
  simp only [base58String, List.append_assoc, List.length_append, List.length_replicate,
    List.length_reverse, List.length_map]
  split_ifs <;> first | rfl | omega

/-! ## Decoding -/

theorem mapM_base58Value (ds : List Nat) (h : ∀ d ∈ ds, d < 58) :
    (ds.map base58Char).mapM base58Value = some ds := by
  induction ds with
  | nil => rfl
  | cons d ds ih =>
    simp only [List.map_cons, List.mapM_cons, base58Value_base58Char d (h d (by simp)),
      ih (fun e he => h e (by simp [he]))]
    rfl

theorem takeWhile_one_digits (n : Nat) :
    (((Nat.digits 58 n).map base58Char).reverse.takeWhile (· == '1')) = [] := by
  rcases Nat.eq_zero_or_pos n with rfl | hn
  · simp
  -- the most significant digit is not zero, so its character is not `1`
  have hne : Nat.digits 58 n ≠ [] := Nat.digits_ne_nil_iff_ne_zero.mpr hn.ne'
  have hlast := Nat.getLast_digit_ne_zero 58 hn.ne'
  have hlt := Nat.digits_lt_base (by norm_num) (List.getLast_mem hne)
  rw [← List.dropLast_append_getLast hne, List.map_append, List.reverse_append]
  simp only [List.map_cons, List.map_nil, List.reverse_cons, List.reverse_nil, List.nil_append,
    List.singleton_append, List.takeWhile_cons, beq_iff_eq, base58Char_eq_one_iff hlt, hlast,
    ite_false]

/-- Big-endian bytes without a leading zero are the base-256 digits of their value. -/
theorem beBytes_beValue {l : List UInt8} (hl : l.head? ≠ some 0) :
    ((Nat.digits 256 (beValue l)).map UInt8.ofNat).reverse = l := by
  have hdig : Nat.digits 256 (beValue l) = l.reverse.map UInt8.toNat := by
    rw [beValue_eq_ofDigits]
    apply Nat.digits_ofDigits _ (by norm_num)
    · intro x hx
      obtain ⟨b, -, rfl⟩ := List.mem_map.mp hx
      exact b.toNat_lt_size
    · intro hne
      rw [List.getLast_map, List.getLast_reverse]
      intro h0
      apply hl
      rw [List.head?_eq_head (by simpa using hne), UInt8.toNat.inj (show _ = (0 : UInt8).toNat from h0)]
  rw [hdig, List.map_map]
  have hid : (UInt8.ofNat ∘ UInt8.toNat) = id := by
    funext b
    apply UInt8.toNat.inj
    simp [UInt8.toNat_ofNat_mod, Nat.mod_eq_of_lt (show _ < 256 from b.toNat_lt_size)]
  rw [hid, List.map_id, List.reverse_reverse]

theorem drop_base58String (input : List UInt8) :
    (base58String input).drop (leadingZeros input) =
      ((Nat.digits 58 (beValue input)).map base58Char).reverse :=
  List.drop_left' (List.length_replicate _ _)

/-- Standard decoding gives back every byte string from its text. -/
theorem base58Decode_base58String (input : List UInt8) :
    base58Decode (base58String input) = some input := by
  have hones : ((base58String input).takeWhile (· == '1')).length = leadingZeros input := by
    rw [base58String, List.takeWhile_append_of_pos (by simp), takeWhile_one_digits]
    simp
  have hdig : ∀ d ∈ (Nat.digits 58 (beValue input)).reverse, d < 58 :=
    fun d hd => Nat.digits_lt_base (by norm_num) (List.mem_reverse.mp hd)
  rw [base58Decode, hones, drop_base58String, ← List.map_reverse, mapM_base58Value _ hdig, Option.map_some',
    List.reverse_reverse, Nat.ofDigits_digits, ← beValue_drop_leadingZeros,
    beBytes_beValue (by rw [drop_leadingZeros]; exact head?_dropWhile_ne_zero input),
    ← takeWhile_eq_replicate, drop_leadingZeros, List.takeWhile_append_dropWhile]

/-- A 20-byte address takes at most 28 symbols: its `z` leading zeros are `z` symbols and the
other `20 - z` bytes have at most `28 - z` digits, as `256 ^ m ≤ 58 ^ (8 + m)` for `m ≤ 20`. -/
theorem length_base58String_address {addr : List UInt8} (h : addr.length = addressLen) :
    (base58String addr).length ≤ 28 := by
  have hz : leadingZeros addr ≤ addr.length := (List.takeWhile_prefix _).length_le
  have hm : (addr.drop (leadingZeros addr)).length = 20 - leadingZeros addr := by
    simp [h, addressLen]
  have hbound : ∀ m ≤ 20, 256 ^ m ≤ 58 ^ (8 + m) := by decide
  have hdig : (Nat.digits 58 (beValue addr)).length ≤ 8 + (20 - leadingZeros addr) := by
    apply length_digits_le_of_lt (by norm_num)
    calc beValue addr = beValue (addr.drop (leadingZeros addr)) :=
          (beValue_drop_leadingZeros addr).symm
      _ < 256 ^ (20 - leadingZeros addr) := hm ▸ beValue_lt _
      _ ≤ 58 ^ (8 + (20 - leadingZeros addr)) := hbound _ (by omega)
  rw [length_base58String]
  simp only [h, addressLen] at hz
  omega

/-! ## The encoder is standard Base58 -/

/-- `base58_encode` is the standard Base58 encoding: on 1 to 32 bytes and a non-empty buffer
it succeeds exactly when the text and its terminator fit, then writes `z` `1`s, the digits
of the value most significant first and a terminator, and returns their number; the text
decodes back; the overflow exit is never taken; and a 20-byte address always fits the
35-byte buffer. -/
theorem base58Encode_standard {input : List UInt8} {out : List Char} (hin : 0 < input.length)
    (hmax : input.length ≤ maxInputLen) (hout : 0 < out.length) :
    ((base58Encode input out).2 ≠ 0 ↔
        leadingZeros input + (Nat.digits 58 (beValue input)).length + 1 ≤ out.length) ∧
      (leadingZeros input + (Nat.digits 58 (beValue input)).length + 1 ≤ out.length →
        (base58Encode input out).2 = leadingZeros input + (Nat.digits 58 (beValue input)).length ∧
          (base58Encode input out).1.take ((base58Encode input out).2 + 1) =
            base58String input ++ [nulChar]) ∧
      base58Decode (base58String input) = some input ∧
      base58Loop (input.drop (leadingZeros input)) [] ≠ none ∧
      ∀ addr : List UInt8, addr.length = addressLen →
        (base58String addr).length ≤ 28 ∧
          ∀ buf : List Char, buf.length = addressBase58MaxLen →
            (sumchainAddressToBase58 addr buf).2 ≠ 0 := by
  have hpos := length_base58String_pos hin
  have hlen := length_base58String input
  rw [base58Encode_eq hin hmax hout]
  refine ⟨?_, fun hfit => ?_, base58Decode_base58String input, ?_, fun addr haddr => ?_⟩
  · split_ifs with hfit <;> simp only [ne_eq, not_true_eq_false, false_iff] <;> omega
  · rw [if_pos (by omega)]
    refine ⟨by omega, ?_⟩
    have := @take_memcpyAt_zero Char out (base58String input ++ [nulChar]) (by simp; omega)
    simpa using this
  · rw [base58Loop_drop_leadingZeros hmax]
    exact Option.some_ne_none _
  · have h28 := length_base58String_address haddr
    refine ⟨h28, fun buf hbuf => ?_⟩
    have haddr' : addr.length = 20 := haddr
    have hbuf' : buf.length = 35 := hbuf
    rw [sumchainAddressToBase58, List.take_of_length_le (by rw [haddr]),
      base58Encode_eq (by omega) (by rw [haddr']; decide) (by omega),
      if_pos (by omega)]
    exact (length_base58String_pos (by omega)).ne'

theorem base58Encode_standard_at_boundary :
    let input : List UInt8 := [0, 58]
    let out := List.replicate 4 nulChar
    0 < input.length ∧ input.length ≤ maxInputLen ∧ 0 < out.length ∧
    (((base58Encode input out).2 ≠ 0 ↔
        leadingZeros input + (Nat.digits 58 (beValue input)).length + 1 ≤ out.length) ∧
      (leadingZeros input + (Nat.digits 58 (beValue input)).length + 1 ≤ out.length →
        (base58Encode input out).2 = leadingZeros input + (Nat.digits 58 (beValue input)).length ∧
          (base58Encode input out).1.take ((base58Encode input out).2 + 1) =
            base58String input ++ [nulChar]) ∧
      base58Decode (base58String input) = some input ∧
      base58Loop (input.drop (leadingZeros input)) [] ≠ none ∧
      ∀ addr : List UInt8, addr.length = addressLen →
        (base58String addr).length ≤ 28 ∧
          ∀ buf : List Char, buf.length = addressBase58MaxLen →
            (sumchainAddressToBase58 addr buf).2 ≠ 0) :=
  ⟨by decide, by decide, by decide, base58Encode_standard (by decide) (by decide) (by decide)⟩

/-! ## The division, pass by pass -/

/-- Base58 long division, step by step, on a scratch buffer of at most 32 bytes. Every pass of
the inner loop from a start index below the length keeps `carry * 256 + buf[i]` below
`58 * 256`, so each quotient byte `carry / 58` is stored exactly; it ends with a carry below
58; and it divides the big-endian value of `buf[start..)` by 58 with that carry as remainder.
Skipping the quotient's leading zero bytes keeps its value. From the input's leading zeros
on, the outer loop goes through the iterates of its body, which emit the digits of the value
least significant first, and its buffer empties after exactly as many iterations as there
are digits. -/
theorem base58Encode_long_division (buf : List UInt8) (hn : buf.length ≤ maxInputLen) :
    (∀ s < buf.length,
      (∀ i < (buf.drop s).length,
          (divmod58 ((buf.drop s).take i) 0).2 * 256 + ((buf.drop s).getD i 0).toNat < 58 * 256 ∧
          ((divmod58 (buf.drop s) 0).1.getD i 0).toNat =
            ((divmod58 ((buf.drop s).take i) 0).2 * 256 + ((buf.drop s).getD i 0).toNat) / 58) ∧
        (divmod58 (buf.drop s) 0).2 < 58 ∧
        beValue (buf.drop s) =
          58 * beValue (divmod58 (buf.drop s) 0).1 + (divmod58 (buf.drop s) 0).2 ∧
        beValue ((divmod58 (buf.drop s) 0).1.dropWhile (· == 0)) =
          beValue (divmod58 (buf.drop s) 0).1) ∧
    ∀ k ≤ (Nat.digits 58 (beValue buf)).length,
      base58Loop (buf.drop (leadingZeros buf)) [] =
          base58Loop (base58Step^[k] (buf.drop (leadingZeros buf), [])).1
            (base58Step^[k] (buf.drop (leadingZeros buf), [])).2 ∧
        (base58Step^[k] (buf.drop (leadingZeros buf), [])).2 =
          ((Nat.digits 58 (beValue buf)).take k).map base58Char ∧
        ((base58Step^[k] (buf.drop (leadingZeros buf), [])).1 = [] ↔
          k = (Nat.digits 58 (beValue buf)).length) := by
  have hcur : (buf.drop (leadingZeros buf)).head? ≠ some 0 := by
    rw [drop_leadingZeros]; exact head?_dropWhile_ne_zero buf
  have hdig := length_digits_beValue_le hn
  refine ⟨fun s _ => ?_, fun k hk => ?_⟩
  · obtain ⟨hval, hr, -⟩ := divmod58_spec (buf.drop s) (show 0 < 58 by norm_num)
    exact ⟨fun i hi => divmod58_getD _ (by norm_num) hi, hr, by simpa using hval,
      beValue_dropWhile _⟩
  · rw [← beValue_drop_leadingZeros buf] at hk hdig ⊢
    exact ⟨base58Loop_iterate hcur [] (by simp [maxB58Len]; omega) hk,
      by simpa using (base58Step_iterate hcur [] hk).2.2, base58Step_iterate_eq_nil hcur [] hk⟩

theorem base58Encode_long_division_two_bytes :
    let buf : List UInt8 := [0, 255]
    buf.length ≤ maxInputLen ∧
      (∀ s < buf.length,
        (∀ i < (buf.drop s).length,
            (divmod58 ((buf.drop s).take i) 0).2 * 256 + ((buf.drop s).getD i 0).toNat < 58 * 256 ∧
            ((divmod58 (buf.drop s) 0).1.getD i 0).toNat =
              ((divmod58 ((buf.drop s).take i) 0).2 * 256 + ((buf.drop s).getD i 0).toNat) / 58) ∧
          (divmod58 (buf.drop s) 0).2 < 58 ∧
          beValue (buf.drop s) =
            58 * beValue (divmod58 (buf.drop s) 0).1 + (divmod58 (buf.drop s) 0).2 ∧
          beValue ((divmod58 (buf.drop s) 0).1.dropWhile (· == 0)) =
            beValue (divmod58 (buf.drop s) 0).1) ∧
      ∀ k ≤ (Nat.digits 58 (beValue buf)).length,
        base58Loop (buf.drop (leadingZeros buf)) [] =
            base58Loop (base58Step^[k] (buf.drop (leadingZeros buf), [])).1
              (base58Step^[k] (buf.drop (leadingZeros buf), [])).2 ∧
          (base58Step^[k] (buf.drop (leadingZeros buf), [])).2 =
            ((Nat.digits 58 (beValue buf)).take k).map base58Char ∧
          ((base58Step^[k] (buf.drop (leadingZeros buf), [])).1 = [] ↔
            k = (Nat.digits 58 (beValue buf)).length) :=
  ⟨by decide, base58Encode_long_division [0, 255] (by decide)⟩

end SumChainLedger
