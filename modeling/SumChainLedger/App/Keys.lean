import SumChainLedger.App.Session

/-!
# Paths on the wire and the key commands

`crypto_parse_path` decodes its wire format exactly (`cryptoParsePath_exact`): it fails on a
bad count byte or a short buffer, and otherwise stores the count and the big-endian words;
the encoding of a path reads back as that path, and in `handle_sign_tx` the bytes after the
path are exactly what follows the encoding. Together with `crypto_validate_path`, the checks
accept exactly the data that starts with the wire form of a valid path, and the bytes they
take are the wire form of the path stored (`chunkPath_accepts_encodings`).

`GET_PUBLIC_KEY` and `GET_ADDRESS` on the wire form of a valid path, followed by anything.
Both read the path back as `handle_sign_tx` does (`chunkPath_encodePath`); the first returns
the key the device derives for it, and the second the Base58 text of the address of that same
key, as `strlen` sees the NUL-terminated `G_state.address_str`. On any data the two commands
fail alike (`getAddress_agrees_with_getPublicKey`): the address buffer always fits the text.
-/

namespace SumChainLedger

/-! ## The path wire format -/

/-- The path wire format decodes exactly. On a buffer `d` of `L ≥ 1` bytes,
`crypto_parse_path` returns `0` exactly when the count byte `d[0]` is `0` or above 10 or
`L < 1 + 4 * d[0]`; otherwise it returns `1 + 4 * d[0] ≤ L`, stores `d[0]` as the length and
as `path[i]` the big-endian word at `d[1 + 4i .. 5 + 4i)`. So the encoding of 1 to 10
components followed by any `t` reads back as those components and the encoding's length.
In `handle_sign_tx` the path never takes more than `lc` bytes, so `lc - path_bytes` does not
wrap and counts the bytes after the path, which for such an encoding are exactly `t`. -/
theorem cryptoParsePath_exact :
    (∀ (d : List UInt8) (path : Bip32Path), 1 ≤ d.length →
      ((cryptoParsePath d d.length path).1 = 0 ↔
          d.getD 0 0 = 0 ∨ maxBip32PathLen < (d.getD 0 0).toNat ∨
            d.length < 1 + 4 * (d.getD 0 0).toNat) ∧
        ((cryptoParsePath d d.length path).1 ≠ 0 →
          (cryptoParsePath d d.length path).1 = 1 + 4 * (d.getD 0 0).toNat ∧
            1 + 4 * (d.getD 0 0).toNat ≤ d.length ∧
            (cryptoParsePath d d.length path).2.length = d.getD 0 0 ∧
            ∀ i < (d.getD 0 0).toNat, ((cryptoParsePath d d.length path).2.path.getD i 0).toNat =
              beValue ((d.drop (1 + 4 * i)).take 4))) ∧
    (∀ (cs : List (BitVec 32)) (t : List UInt8) (path : Bip32Path),
      0 < cs.length → cs.length ≤ maxBip32PathLen →
        (cryptoParsePath (encodePath cs ++ t) (encodePath cs ++ t).length path).1 =
            (encodePath cs).length ∧
          (cryptoParsePath (encodePath cs ++ t) (encodePath cs ++ t).length path).2.length.toNat =
            cs.length ∧
          (cryptoParsePath (encodePath cs ++ t) (encodePath cs ++ t).length path).2.components =
            cs) ∧
    (∀ apdu : Apdu, (chunkPath apdu).1 ≤ apdu.lc.toNat ∧
      ((apdu.data.drop (chunkPath apdu).1).length : Int) = apdu.lc.toNat - (chunkPath apdu).1) ∧
    ∀ (apdu : Apdu) (cs : List (BitVec 32)) (t : List UInt8),
      0 < cs.length → cs.length ≤ maxBip32PathLen → apdu.data = encodePath cs ++ t →
        (chunkPath apdu).1 = (encodePath cs).length ∧ apdu.data.drop (chunkPath apdu).1 = t := by
  refine ⟨fun d path h1 => ?_, fun cs t path h1 h10 => ?_, fun apdu => ?_,
    fun apdu cs t h1 h10 hdata => ?_⟩
  · have hz := @cryptoParsePath_eq_zero_iff d d.length path h1
    refine ⟨hz, fun hne => ?_⟩
    have hchk := mt hz.mpr hne
    push_neg at hchk
    obtain ⟨h0, h10, hreq⟩ := hchk
    obtain ⟨hn, hl, -⟩ := @cryptoParsePath_of_checks d d.length path h0 h10 (by omega)
    exact ⟨by rw [hn]; ring, hreq, hl, fun i hi => cryptoParsePath_path_getD path h0 h10
      (by omega) hi⟩
  · obtain ⟨hn, hl, hc⟩ := cryptoParsePath_encodePath h1 h10 t path
    exact ⟨by rw [hn, length_encodePath], hl, hc⟩
  · have hle : (chunkPath apdu).1 ≤ apdu.lc.toNat := cryptoParsePath_le ..
    rw [List.length_drop, apdu.data_length]
    exact ⟨hle, by omega⟩
  · have hlc : apdu.lc.toNat = (encodePath cs ++ t).length := by
      rw [← apdu.data_length, hdata]
    have hn : (chunkPath apdu).1 = (encodePath cs).length := by
      rw [chunkPath, hlc, hdata, (cryptoParsePath_encodePath h1 h10 t Bip32Path.zero).1,
        length_encodePath]
    exact ⟨hn, by rw [hn, hdata, List.drop_left]⟩

/-- What the path checks accept. The checks `GET_PUBLIC_KEY`, `GET_ADDRESS` and a first
`SIGN_TX` chunk make on the path (`crypto_parse_path` takes bytes, `crypto_validate_path`
passes) succeed exactly on data that starts with the wire form of 1 to 10 hardened
components; and whenever the parse takes bytes, they are the wire form of the path it stores,
so no two wire forms are read as one path. -/
theorem chunkPath_accepts_encodings (apdu : Apdu) :
    ((chunkPath apdu).1 ≠ 0 ∧ cryptoValidatePath (chunkPath apdu).2 = true ↔
      ∃ (cs : List (BitVec 32)) (t : List UInt8), 0 < cs.length ∧
        cs.length ≤ maxBip32PathLen ∧ (∀ c ∈ cs, hardened c = true) ∧
          apdu.data = encodePath cs ++ t) ∧
    ((chunkPath apdu).1 ≠ 0 →
      apdu.data.take (chunkPath apdu).1 = encodePath (chunkPath apdu).2.components) := by
  rw [chunkPath, ← apdu.data_length]
  refine ⟨⟨fun ⟨hn, hv⟩ => ?_, fun ⟨cs, t, h1, h10, hh, hdata⟩ => ?_⟩,
    fun hn => (cryptoParsePath_encode_components _ hn).symm⟩
  · obtain ⟨hl1, hl10, hh⟩ := (cryptoValidatePath_iff _).mp hv
    have hlen : (cryptoParsePath apdu.data apdu.data.length Bip32Path.zero).2.components.length =
        (cryptoParsePath apdu.data apdu.data.length Bip32Path.zero).2.length.toNat := by
      rw [Bip32Path.components, List.length_take, Bip32Path.path_length]
      exact Nat.min_eq_left hl10
    refine ⟨_, apdu.data.drop (cryptoParsePath apdu.data apdu.data.length Bip32Path.zero).1,
      hlen ▸ hl1, hlen ▸ hl10, hh, ?_⟩
    rw [cryptoParsePath_encode_components _ hn, List.take_append_drop]
  · obtain ⟨hn, hl, hc⟩ := cryptoParsePath_encodePath h1 h10 t Bip32Path.zero
    rw [hdata]
    exact ⟨by rw [hn]; omega, (cryptoValidatePath_iff _).mpr
      ⟨hl ▸ h1, hl ▸ h10, by rw [hc]; exact hh⟩⟩

/-! ## The key commands -/

section Keys

variable (dev : KeyDevice) {apdu : Apdu} {p : Bip32Path} (hp : cryptoValidatePath p = true)
  {rest : List UInt8} (hdata : apdu.data = encodePath p.components ++ rest)

include hp hdata

/-- The checks both commands make on the path pass. -/
theorem keyCommand_checks :
    ¬apdu.lc < 1 ∧ (chunkPath apdu).1 ≠ 0 ∧ cryptoValidatePath (chunkPath apdu).2 = true ∧
      cryptoDerivePubkey dev (chunkPath apdu).2 = cryptoDerivePubkey dev p := by
  obtain ⟨hn, hv, hc⟩ := chunkPath_encodePath hp hdata
  have hlc : 0 < apdu.lc.toNat := by
    rw [← apdu.data_length, hdata, List.length_append, length_encodePath]; omega
  refine ⟨fun h => ?_, by omega, hv, by rw [cryptoDerivePubkey, hc, cryptoDerivePubkey]⟩
  rw [(UInt8.lt_one_iff _).mp h] at hlc
  exact absurd hlc (by decide)

/-- `GET_PUBLIC_KEY` on the wire form of a valid path: `0x9000` with the derived key, when the
derivation succeeds. -/
theorem handleGetPublicKey_encodePath (hk : (cryptoDerivePubkey dev p).1 = true)
    (st : AppState) :
    (handleGetPublicKey dev apdu st).1 = ⟨swOk, (cryptoDerivePubkey dev p).2⟩ := by
  obtain ⟨hlc, hn, hv, hder⟩ := keyCommand_checks dev hp hdata
  unfold chunkPath at hn hv hder
  unfold handleGetPublicKey
  simp only [if_neg hlc, if_neg hn, hv, hder, hk, Bool.not_true, Bool.false_eq_true, if_false]

/-- `GET_ADDRESS` on the wire form of a valid path: `0x9000` with the Base58 text of the
address of the derived key, when the derivation succeeds. -/
theorem handleGetAddress_encodePath (H : Blake3) (hk : (cryptoDerivePubkey dev p).1 = true)
    (st : AppState) :
    (handleGetAddress H dev apdu st).1 =
      ⟨swOk, (base58String (sumchainAddressBytesFromPubkey H (cryptoDerivePubkey dev p).2)).map
        fun c => UInt8.ofNat c.toNat⟩ := by
  obtain ⟨hlc, hn, hv, hder⟩ := keyCommand_checks dev hp hdata
  have haddr := sumchainGetAddressForPath_eq (H := H) st.addressStr_length hv (hder ▸ hk)
  rw [hder] at haddr
  have hlen := length_base58String_address
    (length_sumchainAddressBytesFromPubkey H (cryptoDerivePubkey dev p).2)
  have hstr := cString_of_holdsString
    (holdsString_memcpyAt (s := base58String (sumchainAddressBytesFromPubkey H
      (cryptoDerivePubkey dev p).2)) (by rw [st.addressStr_length]; unfold addressBase58MaxLen; omega))
    (nulChar_not_mem_base58String _)
  unfold chunkPath at hn hv haddr
  unfold handleGetAddress
  simp only [if_neg hlc, if_neg hn, hv, haddr, Bool.not_true, Bool.false_eq_true, if_false, hstr]

end Keys

/-- `GET_ADDRESS` names the key `GET_PUBLIC_KEY` returns: from any states, on the same data,
the wire form of a valid path followed by anything, with the key derivation succeeding, the
first answers `0x9000` with the derived key and the second `0x9000` with the Base58 text of
bytes 12 to 32 of that key's BLAKE3 digest. -/
theorem getAddress_names_public_key (H : Blake3) (dev : KeyDevice) {apdu : Apdu}
    {p : Bip32Path} (hp : cryptoValidatePath p = true) {rest : List UInt8}
    (hdata : apdu.data = encodePath p.components ++ rest)
    (hk : (cryptoDerivePubkey dev p).1 = true) (st st' : AppState) :
    (handleGetPublicKey dev apdu st).1 = ⟨swOk, (cryptoDerivePubkey dev p).2⟩ ∧
      (handleGetAddress H dev apdu st').1 =
        ⟨swOk, (base58String (((sumBlake3Hash H (cryptoDerivePubkey dev p).2
          (zeroBytes hashLen)).drop 12).take addressLen)).map fun c => UInt8.ofNat c.toNat⟩ :=
  ⟨handleGetPublicKey_encodePath dev hp hdata hk st,
    handleGetAddress_encodePath dev hp hdata H hk st'⟩

/-- `GET_ADDRESS` for m/44'. -/
def hostGetAddress : Apdu :=
  ⟨claSumchain, insGetAddress, 0, 0, 5, encodePath hostPath.components, by decide⟩

theorem getAddress_names_public_key_host :
    (handleGetPublicKey hostKeyDevice hostGetAddress powerOn).1 =
        ⟨swOk, (cryptoDerivePubkey hostKeyDevice hostPath).2⟩ ∧
      (handleGetAddress zeroBlake3 hostKeyDevice hostGetAddress powerOn).1 =
        ⟨swOk, (base58String (((sumBlake3Hash zeroBlake3 (cryptoDerivePubkey hostKeyDevice hostPath).2
          (zeroBytes hashLen)).drop 12).take addressLen)).map fun c => UInt8.ofNat c.toNat⟩ :=
  getAddress_names_public_key zeroBlake3 hostKeyDevice (by decide) (List.append_nil _).symm rfl
    powerOn powerOn

/-! ## `GET_ADDRESS` against `GET_PUBLIC_KEY` on any data -/

/-- `sumchain_get_address_for_path` into a buffer of `ADDRESS_BASE58_MAX_LEN` characters on a
valid path: it succeeds exactly when the key derives, and then writes the address text. -/
theorem sumchainGetAddressForPath_of_valid (H : Blake3) (dev : KeyDevice) {path : Bip32Path}
    {outStr : List Char} (hlen : outStr.length = addressBase58MaxLen)
    (hv : cryptoValidatePath path = true) :
    sumchainGetAddressForPath H dev path outStr =
      if (cryptoDerivePubkey dev path).1 then
        (true, memcpyAt outStr 0 (base58String
          (sumchainAddressBytesFromPubkey H (cryptoDerivePubkey dev path).2) ++ [nulChar]))
      else (false, outStr) := by
  cases hk : (cryptoDerivePubkey dev path).1
  · simp [sumchainGetAddressForPath, hlen, hv, hk]
  · rw [if_pos rfl, sumchainGetAddressForPath_eq hlen hv hk]

/-- The address text written into `G_state.address_str` reads back, up to its terminator, as
the Base58 text of the address. -/
theorem cString_addressText (H : Blake3) (pubkey : List UInt8) {outStr : List Char}
    (hlen : outStr.length = addressBase58MaxLen) :
    cString (memcpyAt outStr 0
      (base58String (sumchainAddressBytesFromPubkey H pubkey) ++ [nulChar])) =
      base58String (sumchainAddressBytesFromPubkey H pubkey) := by
  have hfit := length_base58String_address (length_sumchainAddressBytesFromPubkey H pubkey)
  exact cString_of_holdsString (holdsString_memcpyAt (by rw [hlen, addressBase58MaxLen]; omega))
    (nulChar_not_mem_base58String _)

/-- `GET_ADDRESS` fails exactly where `GET_PUBLIC_KEY` fails, with the same status word, from
any states and on any data: the address buffer is never too small and the Base58 step never
fails. When they succeed, `GET_ADDRESS` answers the Base58 text of the address of the key
`GET_PUBLIC_KEY` answers. -/
theorem getAddress_agrees_with_getPublicKey (H : Blake3) (dev : KeyDevice) (apdu : Apdu)
    (st st' : AppState) :
    (handleGetAddress H dev apdu st').1.sw = (handleGetPublicKey dev apdu st).1.sw ∧
      ((handleGetPublicKey dev apdu st).1.sw = swOk →
        (handleGetAddress H dev apdu st').1.response =
          (base58String (sumchainAddressBytesFromPubkey H
            (handleGetPublicKey dev apdu st).1.response)).map fun c => UInt8.ofNat c.toNat) := by
  unfold handleGetAddress handleGetPublicKey
  dsimp only
  by_cases h1 : apdu.lc < 1
  · rw [if_pos h1, if_pos h1]; exact ⟨rfl, fun h => absurd h (by decide : swWrongLength ≠ swOk)⟩
  rw [if_neg h1, if_neg h1]
  by_cases h2 : (cryptoParsePath apdu.data apdu.lc.toNat Bip32Path.zero).1 = 0
  · rw [if_pos h2, if_pos h2]; exact ⟨rfl, fun h => absurd h (by decide : swInvalidPath ≠ swOk)⟩
  rw [if_neg h2, if_neg h2]
  by_cases hv : cryptoValidatePath (cryptoParsePath apdu.data apdu.lc.toNat Bip32Path.zero).2
  · simp only [sumchainGetAddressForPath_of_valid H dev st'.addressStr_length hv]
    by_cases hk : (cryptoDerivePubkey dev
        (cryptoParsePath apdu.data apdu.lc.toNat Bip32Path.zero).2).1 = true
    · simp only [hv, hk, Bool.not_true, if_true, if_false, Bool.false_eq_true,
        cString_addressText H _ st'.addressStr_length, and_self, implies_true]
    · simp only [hv, hk, Bool.not_true, Bool.not_false, if_true, if_false, Bool.false_eq_true,
        true_and]
      exact fun h => absurd h (by decide : swInternalError ≠ swOk)
  · simp only [hv, Bool.not_false, if_true, true_and]
    exact fun h => absurd h (by decide : swInvalidPath ≠ swOk)

end SumChainLedger
