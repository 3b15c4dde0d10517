import SumChainLedger.Base58

/-!
# Derivation paths, the hash wrapper and the key primitives

`crypto.c`, `crypto/sum_blake3.c` and the address derivation of `address.c`.

* `cryptoParsePath` reads a count byte and that many big-endian `uint32_t` components into a
  `bip32_path_t`; `cryptoValidatePath` accepts 1 to 10 components, all hardened. The parser
  reads back the encoding `encodePath` of 1 to 10 components followed by anything
  (`cryptoParsePath_encodePath`).
* The BLAKE3 library is a parameter `Blake3`, known by the 32-byte digest of an input. The
  wrapper's context is the input absorbed since `sum_blake3_init` with the `initialized`
  guard; finalizing a context gives the digest of what it absorbed, so the one-shot
  `sum_blake3_hash` is the digest of its input (`sumBlake3Hash_eq`).
* The key primitives of the device SDK are a parameter `KeyDevice`. They see a path only
  through its first `length` components, as `os_perso_derive_node_bip32_seed_key` is called
  on `(path->path, path->length)`; `hostKeyDevice` is the host build's stub.
-/

namespace SumChainLedger

/-! ## Sizes -/

/-- `MAX_BIP32_PATH_LEN`. -/
def maxBip32PathLen : Nat := 10

/-- `PUBKEY_LEN`. -/
def pubkeyLen : Nat := 32

/-- `SIGNATURE_LEN`. -/
def signatureLen : Nat := 64

/-- `HASH_LEN`. -/
def hashLen : Nat := 32

/-- `n` bytes of zero, what `SECURE_ZEROIZE` leaves in a buffer of `n` bytes. -/
def zeroBytes (n : Nat) : List UInt8 := List.replicate n 0

@[simp] theorem length_zeroBytes (n : Nat) : (zeroBytes n).length = n := List.length_replicate ..

/-! ## Derivation paths -/

/-- `bip32_path_t`: a component count and ten `uint32_t` slots. -/
structure Bip32Path where
  length : UInt8
  path : List (BitVec 32)
  path_length : path.length = maxBip32PathLen
  deriving DecidableEq

/-- A `bip32_path_t` of all-zero bytes. -/
def Bip32Path.zero : Bip32Path := ⟨0, List.replicate maxBip32PathLen 0, List.length_replicate ..⟩

/-- The components a path denotes, `path[0..length)`. -/
def Bip32Path.components (p : Bip32Path) : List (BitVec 32) := p.path.take p.length.toNat

/-- The component read of `crypto_parse_path`: `p[0] << 24 | p[1] << 16 | p[2] << 8 | p[3]`. -/
def readU32Be (p : List UInt8) : BitVec 32 :=
  let b (i : Nat) : BitVec 32 := BitVec.ofNat 32 (p.getD i 0).toNat
  b 0 <<< 24 ||| b 1 <<< 16 ||| b 2 <<< 8 ||| b 3

/-- `crypto_parse_path(data, data_len, path)`: the number of bytes read (`0` on failure) and
the path as the call leaves it. Component `i` is read from `data[1 + 4i ..]`; the slots past
the count keep what they held. -/
def cryptoParsePath (data : List UInt8) (dataLen : Nat) (path : Bip32Path) : Nat × Bip32Path :=
  if dataLen < 1 then (0, path) else
  let len := data.getD 0 0
  if len = 0 ∨ maxBip32PathLen < len.toNat then (0, path) else
  let required := 1 + len.toNat * 4
  if dataLen < required then (0, path) else
  (required,
    { length := len
      path := path.path.mapIdx fun i c =>
        if i < len.toNat then readU32Be (data.drop (1 + i * 4)) else c
      path_length := List.length_mapIdx.trans path.path_length })

/-- Bit 31, the hardened flag of a component. -/
def hardened (c : BitVec 32) : Bool := c &&& 0x80000000#32 != 0

/-- `crypto_validate_path`: 1 to `MAX_BIP32_PATH_LEN` components, each hardened. -/
def cryptoValidatePath (path : Bip32Path) : Bool :=
  if path.length = 0 ∨ maxBip32PathLen < path.length.toNat then false
  else path.components.all hardened

/-! ## The wire form of a path -/

/-- The four big-endian bytes of a component. -/
def be32 (c : BitVec 32) : List UInt8 :=
  [UInt8.ofNat (c.toNat / 2 ^ 24), UInt8.ofNat (c.toNat / 2 ^ 16), UInt8.ofNat (c.toNat / 2 ^ 8),
    UInt8.ofNat c.toNat]

/-- The wire form of a derivation path: the count byte, then each component big-endian. -/
def encodePath (cs : List (BitVec 32)) : List UInt8 := UInt8.ofNat cs.length :: cs.flatMap be32

@[simp] theorem length_be32 (c : BitVec 32) : (be32 c).length = 4 := rfl

theorem length_flatMap_be32 (cs : List (BitVec 32)) : (cs.flatMap be32).length = cs.length * 4 := by
  induction cs with
  | nil => rfl
  | cons c cs ih => simp only [List.flatMap_cons, List.length_append, length_be32, ih,
      List.length_cons]; ring

theorem length_encodePath (cs : List (BitVec 32)) :
    (encodePath cs).length = 1 + cs.length * 4 := by
  rw [encodePath, List.length_cons, length_flatMap_be32, Nat.add_comm]

theorem or_rev4 {w : Nat} (a b c d : BitVec w) : a ||| b ||| c ||| d = d ||| c ||| b ||| a := by
  ac_rfl

/-- The value of the word `readU32Be` assembles is the big-endian value of its four bytes. -/
theorem toNat_readU32Be (b0 b1 b2 b3 : UInt8) (rest : List UInt8) :
    (readU32Be (b0 :: b1 :: b2 :: b3 :: rest)).toNat = beValue [b0, b1, b2, b3] := by
  have hb (b : UInt8) : b.toNat < 2 ^ 8 := b.toNat_lt_size
  have h3 : (BitVec.ofNat 32 b3.toNat).toNat < 2 ^ 8 := by
    rw [BitVec.toNat_ofNat]; have := hb b3; omega
  have s1 := toNat_or_shiftLeft b2 h3 (by norm_num)
  have s2 := @toNat_or_shiftLeft 32 16 _ b1 (by rw [s1]; have := hb b2; omega) (by norm_num)
  have s3 := @toNat_or_shiftLeft 32 24 _ b0
    (by rw [s2, s1]; have := hb b1; have := hb b2; omega) (by norm_num)
  show (BitVec.ofNat 32 b0.toNat <<< 24 ||| BitVec.ofNat 32 b1.toNat <<< 16 |||
    BitVec.ofNat 32 b2.toNat <<< 8 ||| BitVec.ofNat 32 b3.toNat).toNat = _
  rw [or_rev4, s3, s2, s1, BitVec.toNat_ofNat, Nat.mod_eq_of_lt (by have := hb b3; omega)]
  simp only [beValue_cons, beValue_nil, List.length_cons, List.length_nil]
  ring

/-- Reading back the bytes of a component gives the component. -/
theorem readU32Be_be32 (c : BitVec 32) (rest : List UInt8) : readU32Be (be32 c ++ rest) = c := by
  apply BitVec.eq_of_toNat_eq
  have hc := c.isLt
  rw [be32, List.cons_append, List.cons_append, List.cons_append, List.cons_append,
    List.nil_append, toNat_readU32Be]
  simp only [beValue_cons, beValue_nil, List.length_cons, List.length_nil, UInt8.toNat_ofNat_mod]
  -- each byte is the previous quotient's remainder
  have h16 : c.toNat / 2 ^ 8 / 2 ^ 8 = c.toNat / 2 ^ 16 := Nat.div_div_eq_div_mul ..
  have h24 : c.toNat / 2 ^ 16 / 2 ^ 8 = c.toNat / 2 ^ 24 := Nat.div_div_eq_div_mul ..
  rw [← h24, ← h16]
  omega

/-- Dropping `i` components' worth of bytes drops `i` components. -/
theorem drop_flatMap_be32 (cs : List (BitVec 32)) (i : Nat) :
    (cs.flatMap be32).drop (i * 4) = (cs.drop i).flatMap be32 := by
  induction cs generalizing i with
  | nil => simp
  | cons c cs ih =>
    cases i with
    | zero => simp
    | succ i =>
      rw [List.flatMap_cons, List.drop_succ_cons, ← ih i, Nat.succ_mul,
        List.drop_append_eq_append_drop]
      simp [Nat.add_sub_cancel]

/-- When its three checks pass, `crypto_parse_path` reads `1 + 4 * len` bytes and stores the
`len` components read from `data[1 + 4i ..]`, with `len` as the path's length. -/
theorem cryptoParsePath_of_checks {data : List UInt8} {dataLen : Nat} (path : Bip32Path)
    (h0 : data.getD 0 0 ≠ 0) (h10 : (data.getD 0 0).toNat ≤ maxBip32PathLen)
    (hreq : 1 + (data.getD 0 0).toNat * 4 ≤ dataLen) :
    (cryptoParsePath data dataLen path).1 = 1 + (data.getD 0 0).toNat * 4 ∧
      (cryptoParsePath data dataLen path).2.length = data.getD 0 0 ∧
      (cryptoParsePath data dataLen path).2.components =
        (List.range (data.getD 0 0).toNat).map fun i => readU32Be (data.drop (1 + i * 4)) := by
  unfold maxBip32PathLen at h10
  unfold cryptoParsePath
  rw [if_neg (by omega), if_neg (not_or.mpr ⟨h0, by unfold maxBip32PathLen; omega⟩),
    if_neg (by omega)]
  have hlen : ((path.path.mapIdx fun i c => if i < (data.getD 0 0).toNat then
      readU32Be (data.drop (1 + i * 4)) else c).take (data.getD 0 0).toNat).length =
        (data.getD 0 0).toNat := by
    rw [List.length_take, List.length_mapIdx, path.path_length, maxBip32PathLen]; omega
  refine ⟨rfl, rfl, List.ext_getElem (by rw [Bip32Path.components, hlen, List.length_map,
    List.length_range]) fun i hi _ => ?_⟩
  simp only [Bip32Path.components] at hi
  rw [hlen] at hi
  simp only [Bip32Path.components, List.getElem_take, List.getElem_mapIdx, List.getElem_map,
    List.getElem_range, if_pos hi]

/-- `crypto_parse_path` reads back an encoded path of 1 to 10 components, whatever follows it
and whatever the path buffer held: it returns the encoding's length, and the components it
stores are the encoded ones, as many as its length says. -/
theorem cryptoParsePath_encodePath {cs : List (BitVec 32)} (h1 : 0 < cs.length)
    (h10 : cs.length ≤ maxBip32PathLen) (rest : List UInt8) (path : Bip32Path) :
    (cryptoParsePath (encodePath cs ++ rest) (encodePath cs ++ rest).length path).1 =
        1 + cs.length * 4 ∧
      (cryptoParsePath (encodePath cs ++ rest) (encodePath cs ++ rest).length path).2.length.toNat =
        cs.length ∧
      (cryptoParsePath (encodePath cs ++ rest) (encodePath cs ++ rest).length path).2.components =
        cs := by
  have hlen : ((encodePath cs ++ rest).getD 0 0).toNat = cs.length := by
    show (UInt8.ofNat cs.length).toNat = _
    rw [UInt8.toNat_ofNat_mod]; simp only [maxBip32PathLen] at h10; omega
  have hne : (encodePath cs ++ rest).getD 0 0 ≠ 0 := fun h => by
    rw [h] at hlen; simp at hlen; omega
  obtain ⟨hn, hl, hc⟩ := @cryptoParsePath_of_checks (encodePath cs ++ rest)
    (encodePath cs ++ rest).length path hne (by omega)
    (by rw [hlen, List.length_append, length_encodePath]; omega)
  refine ⟨by rw [hn, hlen], by rw [hl, hlen], ?_⟩
  rw [hc, hlen]
  refine List.ext_getElem (by simp) fun i hi _ => ?_
  have hi' : i < cs.length := by simpa using hi
  rw [List.getElem_map, List.getElem_range, encodePath, List.cons_append, Nat.add_comm,
    List.drop_succ_cons, List.drop_append_of_le_length (by rw [length_flatMap_be32]; omega),
    drop_flatMap_be32, List.drop_eq_getElem_cons hi', List.flatMap_cons, List.append_assoc,
    readU32Be_be32]

/-- `crypto_parse_path` never reports more bytes than it is given. -/
theorem cryptoParsePath_le (data : List UInt8) (dataLen : Nat) (path : Bip32Path) :
    (cryptoParsePath data dataLen path).1 ≤ dataLen := by
  unfold cryptoParsePath
  dsimp only
  split_ifs <;> omega

/-- On a non-empty buffer, `crypto_parse_path` fails exactly when the count byte is `0` or
above 10, or the buffer is shorter than the count asks. -/
theorem cryptoParsePath_eq_zero_iff {data : List UInt8} {dataLen : Nat} (path : Bip32Path)
    (h1 : 1 ≤ dataLen) :
    (cryptoParsePath data dataLen path).1 = 0 ↔
      data.getD 0 0 = 0 ∨ maxBip32PathLen < (data.getD 0 0).toNat ∨
        dataLen < 1 + 4 * (data.getD 0 0).toNat := by
  unfold cryptoParsePath
  dsimp only
  rw [if_neg (by omega)]
  by_cases hc : data.getD 0 0 = 0 ∨ maxBip32PathLen < (data.getD 0 0).toNat
  · rw [if_pos hc]; exact ⟨fun _ => hc.elim .inl (.inr ∘ .inl), fun _ => rfl⟩
  rw [if_neg hc]
  by_cases hr : dataLen < 1 + (data.getD 0 0).toNat * 4
  · rw [if_pos hr]; exact ⟨fun _ => .inr (.inr (by omega)), fun _ => rfl⟩
  rw [if_neg hr]
  refine ⟨fun h => absurd h (by simp), fun h => ?_⟩
  rcases h with h | h | h
  · exact absurd (.inl h) hc
  · exact absurd (.inr h) hc
  · omega

/-- A component read from at least four bytes is the big-endian value of the first four. -/
theorem toNat_readU32Be_take {p : List UInt8} (h : 4 ≤ p.length) :
    (readU32Be p).toNat = beValue (p.take 4) := by
  rcases p with _ | ⟨b0, _ | ⟨b1, _ | ⟨b2, _ | ⟨b3, rest⟩⟩⟩⟩
  all_goals first | (simp at h; done) | skip
  exact toNat_readU32Be b0 b1 b2 b3 rest

/-- When its checks pass, `crypto_parse_path` stores as `path[i]` the big-endian value of
`data[1 + 4i .. 5 + 4i)`. -/
theorem cryptoParsePath_path_getD {data : List UInt8} (path : Bip32Path)
    (h0 : data.getD 0 0 ≠ 0) (h10 : (data.getD 0 0).toNat ≤ maxBip32PathLen)
    (hreq : 1 + (data.getD 0 0).toNat * 4 ≤ data.length) {i : Nat}
    (hi : i < (data.getD 0 0).toNat) :
    ((cryptoParsePath data data.length path).2.path.getD i 0).toNat =
      beValue ((data.drop (1 + 4 * i)).take 4) := by
  obtain ⟨-, hl, hc⟩ := cryptoParsePath_of_checks path h0 h10 hreq
  have hget : (cryptoParsePath data data.length path).2.path.getD i 0 =
      (cryptoParsePath data data.length path).2.components.getD i 0 := by
    rw [Bip32Path.components, hl, List.getD_eq_getElem?_getD, List.getD_eq_getElem?_getD,
      List.getElem?_take_of_lt hi]
  rw [hget, hc, List.getD_eq_getElem?_getD, List.getElem?_map, List.getElem?_range hi,
    Option.map_some', Option.getD_some, toNat_readU32Be_take (by simp; omega), Nat.mul_comm]

/-- A component read from four bytes writes back as those bytes. -/
theorem be32_readU32Be {p : List UInt8} (h : 4 ≤ p.length) : be32 (readU32Be p) = p.take 4 := by
  rcases p with _ | ⟨b0, _ | ⟨b1, _ | ⟨b2, _ | ⟨b3, rest⟩⟩⟩⟩
  iterate 4 exact absurd h (by simp)
  have hv := toNat_readU32Be b0 b1 b2 b3 rest
  have : b1.toNat < 256 := b1.toNat_lt_size
  have : b2.toNat < 256 := b2.toNat_lt_size
  have : b3.toNat < 256 := b3.toNat_lt_size
  simp only [beValue_cons, beValue_nil, List.length_cons, List.length_nil] at hv
  simp only [be32, hv, List.take_succ_cons, List.take_zero, List.cons.injEq, and_true]
  refine ⟨?_, ?_, ?_, ?_⟩ <;> apply UInt8.toNat.inj <;> rw [UInt8.toNat_ofNat_mod] <;> omega

/-- The components `crypto_parse_path` reads write back as the bytes they were read from. -/
theorem flatMap_be32_readU32Be {data : List UInt8} {n : Nat} (h : 1 + n * 4 ≤ data.length) :
    ((List.range n).map fun i => readU32Be (data.drop (1 + i * 4))).flatMap be32 =
      (data.drop 1).take (n * 4) := by
  induction n with
  | zero => rfl
  | succ n ih =>
    rw [List.range_succ, List.map_append, List.flatMap_append, ih (by omega), List.map_singleton,
      List.flatMap_singleton, be32_readU32Be (by simp; omega), Nat.succ_mul, List.take_add,
      List.drop_drop]

/-- When `crypto_parse_path` succeeds, the bytes it reports are the wire encoding of the path
it stores. -/
theorem cryptoParsePath_encode_components {data : List UInt8} (path : Bip32Path)
    (h : (cryptoParsePath data data.length path).1 ≠ 0) :
    encodePath (cryptoParsePath data data.length path).2.components =
      data.take (cryptoParsePath data data.length path).1 := by
  have h1 : 1 ≤ data.length :=
    Nat.pos_of_ne_zero fun hl => h (by rw [cryptoParsePath, if_pos (by omega)])
  have hchk := mt (cryptoParsePath_eq_zero_iff path h1).mpr h
  push_neg at hchk
  obtain ⟨h0, h10, hreq⟩ := hchk
  obtain ⟨hn, -, hc⟩ := @cryptoParsePath_of_checks data data.length path h0 h10 (by omega)
  rw [hn, hc, encodePath, List.length_map, List.length_range,
    flatMap_be32_readU32Be (by omega)]
  rcases data with _ | ⟨d0, ds⟩
  · exact absurd h1 (by simp)
  · rw [Nat.add_comm, List.take_succ_cons]
    simp [UInt8.ofNat, UInt8.toNat]

/-- `crypto_validate_path` accepts exactly the paths of 1 to 10 components, all hardened. -/
theorem cryptoValidatePath_iff (p : Bip32Path) :
    cryptoValidatePath p = true ↔
      0 < p.length.toNat ∧ p.length.toNat ≤ maxBip32PathLen ∧
        ∀ c ∈ p.components, hardened c = true := by
  have h0 : p.length = 0 ↔ p.length.toNat = 0 :=
    ⟨fun h => by simp [h], fun h => UInt8.toNat.inj (by simpa using h)⟩
  unfold cryptoValidatePath maxBip32PathLen
  by_cases h : p.length.toNat = 0 ∨ 10 < p.length.toNat
  · rw [if_pos (by rwa [h0])]
    exact ⟨fun h' => absurd h' Bool.false_ne_true, fun ⟨_, _, _⟩ => by omega⟩
  · rw [if_neg (by rwa [h0]), List.all_eq_true]
    exact ⟨fun h' => ⟨by omega, by omega, h'⟩, fun h' => h'.2.2⟩

/-! ## The BLAKE3 wrapper -/

/-- The BLAKE3 library under `sum_blake3.c`, known by the 32-byte digest of an input. -/
structure Blake3 where
  digest : List UInt8 → List UInt8
  digest_length : ∀ xs, (digest xs).length = hashLen

/-- `sum_blake3_ctx_t`: the library hasher, represented by the bytes absorbed since
`blake3_hasher_init`, and the wrapper's `initialized` guard. -/
structure SumBlake3Ctx where
  input : List UInt8
  initialized : Bool
  deriving DecidableEq

/-- A context of all-zero bytes. -/
def SumBlake3Ctx.zero : SumBlake3Ctx := ⟨[], false⟩

/-- `sum_blake3_init`: a fresh hasher, marked initialized. -/
def sumBlake3Init : SumBlake3Ctx := ⟨[], true⟩

/-- `sum_blake3_update`: absorb `input`; ignored before `sum_blake3_init`. -/
def sumBlake3Update (ctx : SumBlake3Ctx) (input : List UInt8) : SumBlake3Ctx :=
  if ctx.initialized then { ctx with input := ctx.input ++ input } else ctx

/-- `sum_blake3_finalize32`: the context, no longer initialized, and `out32` as the call
leaves it; an uninitialized context writes nothing. -/
def sumBlake3Finalize32 (H : Blake3) (ctx : SumBlake3Ctx) (out32 : List UInt8) :
    SumBlake3Ctx × List UInt8 :=
  if ctx.initialized then ({ ctx with initialized := false }, H.digest ctx.input) else (ctx, out32)

/-- `sum_blake3_hash`: init, one update and finalize into `out32` (the local context it then
zeroizes is not seen again). -/
def sumBlake3Hash (H : Blake3) (input : List UInt8) (out32 : List UInt8) : List UInt8 :=
  (sumBlake3Finalize32 H (sumBlake3Update sumBlake3Init input) out32).2

theorem sumBlake3Hash_eq (H : Blake3) (input out32 : List UInt8) :
    sumBlake3Hash H input out32 = H.digest input := by
  simp [sumBlake3Hash, sumBlake3Finalize32, sumBlake3Update, sumBlake3Init]

theorem length_sumBlake3Finalize32 (H : Blake3) (ctx : SumBlake3Ctx) {out32 : List UInt8}
    (h : out32.length = hashLen) : (sumBlake3Finalize32 H ctx out32).2.length = hashLen := by
  unfold sumBlake3Finalize32
  split
  · exact H.digest_length _
  · exact h

/-! ## The key primitives -/

/-- The key primitives of the device SDK behind `crypto.c`, each returning the C result and
the output buffer as the call leaves it. Both see a path only through its components. -/
structure KeyDevice where
  derivePubkey : List (BitVec 32) → Bool × List UInt8
  derivePubkey_length : ∀ cs, (derivePubkey cs).2.length = pubkeyLen
  signHash : List (BitVec 32) → List UInt8 → Bool × List UInt8
  signHash_length : ∀ cs hash, (signHash cs hash).2.length = signatureLen

/-- `crypto_derive_pubkey(path, pubkey32)`. -/
def cryptoDerivePubkey (dev : KeyDevice) (path : Bip32Path) : Bool × List UInt8 :=
  dev.derivePubkey path.components

/-- `crypto_sign_hash(path, hash32, sig64)`. -/
def cryptoSignHash (dev : KeyDevice) (path : Bip32Path) (hash32 : List UInt8) :
    Bool × List UInt8 :=
  dev.signHash path.components hash32

/-- The host build of `crypto.c`: a key of `0x42` bytes and a signature of `0xAA` bytes. -/
def hostKeyDevice : KeyDevice where
  derivePubkey _ := (true, List.replicate pubkeyLen 0x42)
  derivePubkey_length _ := List.length_replicate ..
  signHash _ _ := (true, List.replicate signatureLen 0xAA)
  signHash_length _ _ := List.length_replicate ..

/-- A digest that is constant zero, for running the model. -/
def zeroBlake3 : Blake3 := ⟨fun _ => zeroBytes hashLen, fun _ => length_zeroBytes _⟩

/-- The path m/44'. -/
def hostPath : Bip32Path := ⟨1, 0x8000002C#32 :: List.replicate 9 0, rfl⟩

/-! ## Addresses -/

/-- `sumchain_address_bytes_from_pubkey`: bytes `[12, 32)` of the BLAKE3 hash of the key
(written into a local buffer, taken here as zeroed). -/
def sumchainAddressBytesFromPubkey (H : Blake3) (pubkey32 : List UInt8) : List UInt8 :=
  ((sumBlake3Hash H pubkey32 (zeroBytes hashLen)).drop 12).take addressLen

/-- `sumchain_get_address_for_path(path, display, out_str, out_str_len)` with
`out_str_len = out_str.length`: validate the path, derive the key, hash it to the address
bytes and write their Base58 text. The source does not use `display`. -/
def sumchainGetAddressForPath (H : Blake3) (dev : KeyDevice) (path : Bip32Path)
    (outStr : List Char) : Bool × List Char :=
  if outStr.length < addressBase58MaxLen then (false, outStr) else
  if !cryptoValidatePath path then (false, outStr) else
  let pubkey := cryptoDerivePubkey dev path
  if !pubkey.1 then (false, outStr) else
  let encoded := sumchainAddressToBase58 (sumchainAddressBytesFromPubkey H pubkey.2) outStr
  if encoded.2 = 0 then (false, encoded.1) else (true, encoded.1)

theorem length_sumchainAddressBytesFromPubkey (H : Blake3) (pubkey32 : List UInt8) :
    (sumchainAddressBytesFromPubkey H pubkey32).length = addressLen := by
  simp [sumchainAddressBytesFromPubkey, sumBlake3Hash_eq, H.digest_length, hashLen, addressLen]

theorem length_base58Encode (input : List UInt8) (out : List Char) :
    (base58Encode input out).1.length = out.length := by
  unfold base58Encode
  split_ifs <;> try simp
  split
  · simp
  · split_ifs <;> simp

theorem length_sumchainGetAddressForPath (H : Blake3) (dev : KeyDevice) (path : Bip32Path)
    (outStr : List Char) : (sumchainGetAddressForPath H dev path outStr).2.length =
      outStr.length := by
  unfold sumchainGetAddressForPath sumchainAddressToBase58
  dsimp only
  split_ifs <;> simp [length_base58Encode]

/-- For a valid path whose key derives, the address text is written: the Base58 text of
bytes `[12, 32)` of the key's hash, with its terminator. -/
theorem sumchainGetAddressForPath_eq {H : Blake3} {dev : KeyDevice} {path : Bip32Path}
    {outStr : List Char} (hlen : outStr.length = addressBase58MaxLen)
    (hv : cryptoValidatePath path = true) (hk : (cryptoDerivePubkey dev path).1 = true) :
    sumchainGetAddressForPath H dev path outStr =
      (true, memcpyAt outStr 0
        (base58String (sumchainAddressBytesFromPubkey H (cryptoDerivePubkey dev path).2) ++
          [nulChar])) := by
  have haddr := length_sumchainAddressBytesFromPubkey H (cryptoDerivePubkey dev path).2
  have hfit := length_base58String_address haddr
  have hpos := @length_base58String_pos
    (sumchainAddressBytesFromPubkey H (cryptoDerivePubkey dev path).2) (by simp [haddr, addressLen])
  have hfits : (base58String (sumchainAddressBytesFromPubkey H
      (cryptoDerivePubkey dev path).2)).length + 1 ≤ outStr.length := by
    rw [hlen, addressBase58MaxLen]; omega
  unfold sumchainGetAddressForPath sumchainAddressToBase58
  dsimp only
  rw [if_neg (by rw [hlen]; omega), if_neg (by simp [hv]), if_neg (by simp [hk]),
    List.take_of_length_le (by rw [haddr]), base58Encode_eq (by simp [haddr, addressLen])
      (by simp [haddr, addressLen, maxInputLen]) (by simp [hlen, addressBase58MaxLen]),
    if_pos hfits]
  simp only [hpos.ne', if_false]

end SumChainLedger
