import SumChainLedger.App.Handlers

/-!
# The signing session refines a two-state machine

The abstract session is `idle` or `streaming path B`, with `B` the transaction bytes received
so far (`SessionSpec`). `specSign` is what one `INS_SIGN_TX` command does to it; a first chunk
starts over whatever the state. The code keeps for `streaming path B` the session
`streamingSession path B`: hash context absorbing `B`, parser after `B`, counter `|B|`.

* `signFeed_streaming` — the shared size/hash/parse block extends `B` exactly when the result
  is still a prefix of a Transfer, and otherwise zeroizes the session with `0x6F01`;
* `signFinalize_streaming` — the last-chunk part answers as `specFinalize`, and leaves the
  signature buffer alone, zeroized, or holding the output of a key primitive that failed on
  the session's path and bytes (`SigningFailed`);
* `handleSignTx_step`, `apduDispatch_not_sign` — one dispatch is one step of the abstract
  machine on signing commands, with that effect on the signature buffer, and leaves the
  session and the two buffers alone otherwise;
* `runApdus_corr` — by induction over runs, every state reached from power-on is the image of
  the abstract state, with `G_state.hash` zeroed.
-/

namespace SumChainLedger

/-! ## Field lemmas -/

@[simp] theorem resetSignSession_signSession (st : AppState) :
    st.resetSignSession.signSession = SignSession.zero := rfl

@[simp] theorem resetSignSession_hash (st : AppState) : st.resetSignSession.hash = st.hash := rfl

theorem txParserHasError_iff (ctx : TxParserCtx) :
    txParserHasError ctx = true ↔ ctx.state = .error := by
  simp [txParserHasError]

theorem txParserIsDone_iff (ctx : TxParserCtx) :
    txParserIsDone ctx = true ↔ ctx.state = .done := by
  simp [txParserIsDone]

/-! ## Prefixes of a Transfer -/

/-- Bytes a complete Transfer can still extend: at most 82 of them, with version byte `1` and
type byte `0` where present. -/
def TransferPrefix (B : List UInt8) : Prop :=
  B.length ≤ 82 ∧ (0 < B.length → B.getD 0 0 = 1) ∧ (53 < B.length → B.getD 53 0 = 0)

instance : DecidablePred TransferPrefix := fun _ => inferInstanceAs (Decidable (_ ∧ _ ∧ _))

/-- The fee a Transfer's bytes ask for: `gas_price * gas_limit`. -/
def transferFee (B : List UInt8) : Nat := leValue (slice B 37 8) * leValue (slice B 45 8)

theorem grammarStop_le (s : List UInt8) : grammarStop s ≤ 82 := by
  unfold grammarStop; split_ifs <;> omega

/-- A Transfer prefix is what the grammar reads to the end, at most 82 bytes long. -/
theorem transferPrefix_iff (B : List UInt8) :
    TransferPrefix B ↔ grammarStop B = 82 ∧ B.length ≤ 82 := by
  constructor
  · rintro ⟨hl, hv, ht⟩
    refine ⟨?_, hl⟩
    rw [grammarStop, if_neg, if_neg]
    · rintro ⟨h54, -, hne⟩
      exact hne (by rw [getElem?_eq_some_getD (by omega), ht (by omega)])
    · rintro ⟨h1, hne⟩
      exact hne (by rw [getElem?_eq_some_getD (by omega), hv (by omega)])
  · rintro ⟨hg, hl⟩
    have hv : 0 < B.length → B.getD 0 0 = 1 := fun h => by
      by_contra hne
      rw [grammarStop, if_pos ⟨h, by rw [getElem?_eq_some_getD h]; simpa using hne⟩] at hg
      omega
    refine ⟨hl, hv, fun h => ?_⟩
    by_contra hne
    have h0 : B[0]? = some 1 := by rw [getElem?_eq_some_getD (by omega), hv (by omega)]
    rw [grammarStop, if_neg (fun ⟨_, h'⟩ => h' h0),
      if_pos ⟨by omega, h0, by rw [getElem?_eq_some_getD h]; simpa using hne⟩] at hg
    omega

/-- On a fresh context every byte counts once. -/
theorem feedBytes_totalConsumed (ctx : TxParserCtx) (xs : List UInt8) :
    (feedBytes ctx xs).1.totalConsumed = ctx.totalConsumed + (feedBytes ctx xs).2 := by
  induction xs generalizing ctx with
  | nil => simp
  | cons b bs ih =>
    by_cases h : ctx.state = .done ∨ ctx.state = .error
    · simp [feedBytes_of_terminal h]
    · rw [feedBytes_cons h, ih, feedByte_totalConsumed]; omega

/-- The count of one call on a fresh context, and its final state, through the grammar. -/
theorem txParserConsume_txParserInit (s : List UInt8) :
    (txParserConsume txParserInit s).2 = min s.length (grammarStop s) ∧
      (txParserConsume txParserInit s).1.totalConsumed = min s.length (grammarStop s) ∧
      ((txParserConsume txParserInit s).1.state = .error ↔ grammarStop s < 82) ∧
      ((txParserConsume txParserInit s).1.state = .done ↔ grammarStop s = 82 ∧ 82 ≤ s.length) := by
  rw [txParserConsume_eq_feedBytes txParserInit_inv]
  obtain ⟨hc, he, hd⟩ := feedBytes_txParserInit s
  refine ⟨hc, ?_, he, hd⟩
  rw [feedBytes_totalConsumed, hc, show txParserInit.totalConsumed = 0 from rfl, Nat.zero_add]

/-- After a Transfer prefix the parser has taken every byte and is not in error. -/
theorem txParserConsume_transferPrefix {B : List UInt8} (hB : TransferPrefix B) :
    (txParserConsume txParserInit B).2 = B.length ∧
      (txParserConsume txParserInit B).1.totalConsumed = B.length ∧
      (txParserConsume txParserInit B).1.state ≠ .error ∧
      (txParserIsDone (txParserConsume txParserInit B).1 = true ↔ B.length = 82) := by
  obtain ⟨hg, hl⟩ := (transferPrefix_iff B).mp hB
  obtain ⟨hc, ht, he, hd⟩ := txParserConsume_txParserInit B
  rw [hg] at hc ht he hd
  refine ⟨by omega, by omega, fun h => absurd (he.mp h) (by omega), ?_⟩
  rw [txParserIsDone_iff, hd]
  omega

/-- More bytes after a Transfer prefix: the parser ends where one call on the whole input
ends, and it takes all of them without error exactly when the whole is still a prefix. -/
theorem txParserConsume_extend {B : List UInt8} (hB : TransferPrefix B) (c : List UInt8) :
    (txParserConsume (txParserConsume txParserInit B).1 c).1 =
        (txParserConsume txParserInit (B ++ c)).1 ∧
      ((txParserConsume (txParserConsume txParserInit B).1 c).2 = c.length ∧
        txParserHasError (txParserConsume (txParserConsume txParserInit B).1 c).1 = false ↔
          TransferPrefix (B ++ c)) := by
  have happ := txParserConsume_append txParserInit_inv B c
  have hcount := congrArg Prod.snd happ
  have hctx := congrArg Prod.fst happ
  dsimp only at hcount hctx
  obtain ⟨hB1, -, -, -⟩ := txParserConsume_transferPrefix hB
  obtain ⟨hc, -, he, -⟩ := txParserConsume_txParserInit (B ++ c)
  have hle := grammarStop_le (B ++ c)
  rw [← hctx, transferPrefix_iff, Bool.eq_false_iff, ne_eq, txParserHasError_iff, he]
  refine ⟨rfl, ?_⟩
  rw [hB1, hc, List.length_append] at hcount
  rw [List.length_append]
  omega

/-! ## The abstract session -/

/-- The spec's signing session: none open, or a path and the transaction bytes so far. -/
inductive SessionSpec
  | idle
  | streaming (path : Bip32Path) (bytes : List UInt8)
  deriving DecidableEq

/-- A streaming session holds a valid path and a Transfer prefix. -/
def SessionSpec.Valid : SessionSpec → Prop
  | .idle => True
  | .streaming path B => cryptoValidatePath path = true ∧ TransferPrefix B

/-- The path a first chunk carries, read as `handle_sign_tx` reads it into the reset session:
the bytes taken and the path. -/
def chunkPath (apdu : Apdu) : Nat × Bip32Path :=
  cryptoParsePath apdu.data apdu.lc.toNat Bip32Path.zero

/-- `chunkPath` on a first chunk carrying the encoding of a valid path: it takes the
encoding's bytes, and the path it stores has that path's length and components. -/
theorem chunkPath_encodePath {apdu : Apdu} {p : Bip32Path} (hp : cryptoValidatePath p = true)
    {c0 : List UInt8} (hdata : apdu.data = encodePath p.components ++ c0) :
    (chunkPath apdu).1 = 1 + p.components.length * 4 ∧
      cryptoValidatePath (chunkPath apdu).2 = true ∧
      (chunkPath apdu).2.components = p.components := by
  obtain ⟨h1, h10, hh⟩ := (cryptoValidatePath_iff p).mp hp
  have hlen : p.components.length = p.length.toNat := by
    rw [Bip32Path.components, List.length_take, p.path_length]
    exact Nat.min_eq_left h10
  have hlc : apdu.lc.toNat = (encodePath p.components ++ c0).length := by
    rw [← apdu.data_length, hdata]
  obtain ⟨hn, hl, hc⟩ := cryptoParsePath_encodePath (hlen ▸ h1) (hlen ▸ h10) c0 Bip32Path.zero
  rw [chunkPath, hlc, hdata]
  refine ⟨hn, (cryptoValidatePath_iff _).mpr ⟨?_, ?_, ?_⟩, hc⟩
  · rw [hl, hlen]; exact h1
  · rw [hl, hlen]; exact h10
  · rw [hc]; exact hh

/-- What the last chunk answers for a path and the bytes `B` of the transaction: `B` must be a
whole Transfer, its fee must fit in 64 bits, and the user must approve its display; then the
reply is the signature of the digest of `B` if the key primitive succeeds. -/
def specFinalize (H : Blake3) (env : Env) (path : Bip32Path) (B : List UInt8) : Reply :=
  if B.length ≠ 82 then ⟨swTxParseError, []⟩
  else if 2 ^ 64 ≤ transferFee B then ⟨swTxOverflow, []⟩
  else if env.showApproval (txDisplayFormat (decodeTransfer B)).2 ≠ .approved then
    ⟨swUserRejected, []⟩
  else if (cryptoSignHash env.toKeyDevice path (H.digest B)).1 then
    ⟨swOk, (cryptoSignHash env.toKeyDevice path (H.digest B)).2⟩
  else ⟨swInternalError, []⟩

/-- Bytes `B` arrive for `path`: they must still be a Transfer prefix; on a last chunk the
session ends with `specFinalize`, otherwise it goes on. -/
def specAccept (H : Blake3) (env : Env) (isMore : Bool) (path : Bip32Path) (B : List UInt8) :
    Reply × SessionSpec :=
  if ¬TransferPrefix B then (⟨swTxParseError, []⟩, .idle)
  else if isMore then (⟨swOk, []⟩, .streaming path B)
  else (specFinalize H env path B, .idle)

/-- One `INS_SIGN_TX` command on the abstract session: bad P1/P2 ends it; a first chunk
starts over from its path and the bytes after it; a continuation needs an open session and
appends its data. -/
def specSign (H : Blake3) (env : Env) (apdu : Apdu) (s : SessionSpec) : Reply × SessionSpec :=
  if (apdu.p1 ≠ p1FirstChunk ∧ apdu.p1 ≠ p1MoreChunk) ∨
      (apdu.p2 ≠ p2LastChunk ∧ apdu.p2 ≠ p2MoreChunks) then (⟨swInvalidP1P2, []⟩, .idle)
  else if apdu.p1 = p1FirstChunk then
    if apdu.lc = 0 then (⟨swWrongLength, []⟩, .idle)
    else if (chunkPath apdu).1 = 0 ∨ cryptoValidatePath (chunkPath apdu).2 = false then
      (⟨swInvalidPath, []⟩, .idle)
    else
      specAccept H env (apdu.p2 == p2MoreChunks) (chunkPath apdu).2
        (apdu.data.drop (chunkPath apdu).1)
  else
    match s with
    | .idle => (⟨swSessionError, []⟩, .idle)
    | .streaming path B => specAccept H env (apdu.p2 == p2MoreChunks) path (B ++ apdu.data)

/-! ## The concrete image of the abstract session -/

/-- The session the code keeps while streaming `B` for `path`. -/
def streamingSession (path : Bip32Path) (B : List UInt8) (last : Bool) : SignSession where
  initialized := true
  path := path
  txHashCtx := ⟨B, true⟩
  parser := (txParserConsume txParserInit B).1
  totalReceived := B.length
  lastChunkReceived := last

/-- The session the code keeps for an abstract one. -/
def SessionSpec.toSignSession : SessionSpec → SignSession
  | .idle => SignSession.zero
  | .streaming path B => streamingSession path B false

/-- The shared block on a streaming session: it extends `B` by the chunk exactly when the
result is still a Transfer prefix, and otherwise zeroizes the session with `0x6F01`. The size
check never fires, as `|B| ≤ 82` and a chunk has at most 255 bytes. -/
theorem signFeed_streaming (path : Bip32Path) {B : List UInt8} (last : Bool)
    (hB : TransferPrefix B) {c : List UInt8} (hc : c.length < 256) :
    signFeed (streamingSession path B last) c =
      if TransferPrefix (B ++ c) then (none, streamingSession path (B ++ c) last)
      else (some swTxParseError, SignSession.zero) := by
  unfold signFeed
  rcases Nat.eq_zero_or_pos c.length with h0 | hpos
  · rw [List.length_eq_zero.mp h0, List.append_nil, if_pos hB]; rfl
  have hsize : ¬maxTxSize < (streamingSession path B last).totalReceived + c.length := by
    have := hB.1; simp only [streamingSession, maxTxSize]; omega
  obtain ⟨hctx, hiff⟩ := txParserConsume_extend hB c
  rw [if_pos hpos, if_neg hsize]
  dsimp only [streamingSession]
  by_cases hT : TransferPrefix (B ++ c)
  · obtain ⟨hn, he⟩ := hiff.mpr hT
    rw [if_pos hT, if_neg (by rw [hn, he]; simp), hctx]
    simp [sumBlake3Update]
  · rw [if_neg hT, if_pos]
    by_contra hne
    push_neg at hne
    exact hT (hiff.mp ⟨hne.1, Bool.eq_false_iff.mpr hne.2⟩)

theorem UInt8.lt_one_iff (x : UInt8) : x < 1 ↔ x = 0 := by
  rw [UInt8.lt_def, BitVec.lt_def]
  exact ⟨fun h => UInt8.toNat.inj (by simp at h ⊢; exact h), by rintro rfl; decide⟩

/-- A first chunk: `0x6700` without data, `0x6A81` for a malformed or unhardened path, and
otherwise a fresh streaming session over the bytes after the path, if they are a Transfer
prefix. -/
theorem signFirstChunk_eq (apdu : Apdu) (isMore : Bool) :
    signFirstChunk apdu isMore =
      if apdu.lc = 0 then (some swWrongLength, SignSession.zero)
      else if (chunkPath apdu).1 = 0 ∨ cryptoValidatePath (chunkPath apdu).2 = false then
        (some swInvalidPath, SignSession.zero)
      else if TransferPrefix (apdu.data.drop (chunkPath apdu).1) then
        (none, streamingSession (chunkPath apdu).2 (apdu.data.drop (chunkPath apdu).1) !isMore)
      else (some swTxParseError, SignSession.zero) := by
  have hfresh : (⟨true, (chunkPath apdu).2, sumBlake3Init, txParserInit, 0, !isMore⟩ :
      SignSession) = streamingSession (chunkPath apdu).2 [] !isMore := by
    simp [streamingSession, txParserConsume_nil txParserInit_inv, sumBlake3Init]
  have hc : (apdu.data.drop (chunkPath apdu).1).length < 256 := by
    have : apdu.lc.toNat < 256 := apdu.lc.toNat_lt_size; rw [List.length_drop, apdu.data_length]; omega
  have hpath : cryptoParsePath apdu.data apdu.lc.toNat Bip32Path.zero = chunkPath apdu := rfl
  simp only [signFirstChunk, show SignSession.zero.path = Bip32Path.zero from rfl, hpath]
  by_cases h0 : apdu.lc = 0
  · rw [if_pos ((UInt8.lt_one_iff _).mpr h0), if_pos h0]
  rw [if_neg (mt (UInt8.lt_one_iff _).mp h0), if_neg h0]
  by_cases hp : (chunkPath apdu).1 = 0
  · rw [if_pos hp, if_pos (.inl hp)]
  rw [if_neg hp]
  by_cases hv : cryptoValidatePath (chunkPath apdu).2 = false
  · rw [if_pos (by simp [hv]), if_pos (.inr hv)]
  rw [if_neg (by simpa using hv), if_neg (by tauto), hfresh,
    signFeed_streaming _ _ (by decide) hc, List.nil_append]

/-- A continuation on a streaming session appends its data, if the bytes stay a Transfer
prefix; the branch for a continuation after the last chunk is not taken. -/
theorem signContinuation_streaming (apdu : Apdu) (isMore : Bool) (path : Bip32Path)
    {B : List UInt8} (hB : TransferPrefix B) :
    signContinuation apdu isMore (streamingSession path B false) =
      if TransferPrefix (B ++ apdu.data) then
        (none, streamingSession path (B ++ apdu.data) !isMore)
      else (some swTxParseError, SignSession.zero) :=
  signFeed_streaming path _ hB (by rw [apdu.data_length]; exact UInt8.toNat_lt_size _)

/-- What a failed signing leaves behind: the bytes `B` of the session are a whole Transfer
(version 1, transfer type 0) whose fee fits in 64 bits and whose display the user approved, so
the last chunk called `crypto_sign_hash` under `path` on the one-shot digest of `B`; the call
failed, and `sig` is what it left in its output buffer. -/
structure SigningFailed (H : Blake3) (env : Env) (path : Bip32Path) (B sig : List UInt8) :
    Prop where
  length : B.length = 82
  version : B.getD 0 0 = 1
  txType : B.getD 53 0 = 0
  fee_fits : transferFee B < 2 ^ 64
  approved :
    env.showApproval (txDisplayFormat (txParserConsume txParserInit B).1.parsed).2 = .approved
  failed : cryptoSignHash env.toKeyDevice path (sumBlake3Hash H B (zeroBytes hashLen)) =
    (false, sig)

/-- The last chunk of a streaming session answers as `specFinalize`, and leaves the session
and `G_state.hash` zeroized. `G_state.signature` keeps its bytes unless the key primitive is
called: a signature is zeroized, and a failed call leaves its output there. -/
theorem signFinalize_streaming (H : Blake3) (env : Env) {st : AppState} {path : Bip32Path}
    {B : List UInt8} (hB : TransferPrefix B) (hs : st.signSession = streamingSession path B true)
    (hh : st.hash = zeroBytes hashLen) :
    (signFinalize H env st).1 = specFinalize H env path B ∧
      (signFinalize H env st).2.signSession = SignSession.zero ∧
      (signFinalize H env st).2.hash = zeroBytes hashLen ∧
      ((signFinalize H env st).2.signature = st.signature ∨
        (signFinalize H env st).2.signature = zeroBytes signatureLen ∨
        ((signFinalize H env st).1 = ⟨swInternalError, []⟩ ∧
          SigningFailed H env path B (signFinalize H env st).2.signature)) := by
  obtain ⟨-, -, -, hdone⟩ := txParserConsume_transferPrefix hB
  unfold signFinalize specFinalize
  simp only [hs, streamingSession]
  by_cases hl : B.length = 82
  swap
  · rw [Bool.eq_false_iff.mpr (mt hdone.mp hl), if_pos (by decide), if_pos hl]
    exact ⟨rfl, rfl, hh, .inl rfl⟩
  have hd : (txParserConsume txParserInit B).1.state = .done :=
    (txParserIsDone_iff _).mp (hdone.mpr hl)
  obtain ⟨hov, hnov⟩ := decodeTransfer_fee B
  have hok : (decodeTransfer B).feeOverflow = true ∨ (decodeTransfer B).feeHigh = 0 := by
    cases h : (decodeTransfer B).feeOverflow
    · exact .inr (hnov h).1
    · exact .inl rfl
  obtain ⟨d, hdisp⟩ : ∃ d, txDisplayFormat (decodeTransfer B) = (true, d) :=
    ⟨_, txDisplayFormat_of_fits _ hok⟩
  rw [hdone.mpr hl, if_neg (show ¬(!true) = true by decide),
    if_neg (show ¬B.length ≠ 82 from not_not.mpr hl), txParserConsume_parsed hd, hdisp,
    if_neg (show ¬(!(true, d).1) = true by simp)]
  by_cases hf : 2 ^ 64 ≤ transferFee B
  · rw [if_pos (hov.mpr hf), if_pos hf]
    exact ⟨rfl, rfl, hh, .inl rfl⟩
  rw [if_neg (show ¬(decodeTransfer B).feeOverflow = true from mt hov.mp hf), if_neg hf]
  by_cases ha : env.showApproval d = .approved
  swap
  · rw [if_pos ha, if_pos ha]
    exact ⟨rfl, rfl, hh, .inl rfl⟩
  rw [if_neg (not_not.mpr ha), if_neg (not_not.mpr ha)]
  have hfin : sumBlake3Finalize32 H ⟨B, true⟩ st.hash = (⟨B, false⟩, H.digest B) := rfl
  simp only [hfin]
  by_cases hsig : (cryptoSignHash env.toKeyDevice path (H.digest B)).1 = true
  · rw [if_pos hsig, hsig, if_neg (by decide)]
    exact ⟨rfl, rfl, rfl, .inr (.inl rfl)⟩
  · rw [if_neg hsig, Bool.eq_false_iff.mpr hsig, if_pos (by decide)]
    -- the call was made on the session's path and the digest of its bytes, and failed
    refine ⟨rfl, rfl, rfl, .inr (.inr ⟨rfl, hl, hB.2.1 (by omega), hB.2.2 (by omega),
      not_le.mp hf, by rw [txParserConsume_parsed hd, hdisp]; exact ha, ?_⟩)⟩
    rw [sumBlake3Hash_eq]
    exact Prod.ext (Bool.eq_false_iff.mpr hsig) rfl

/-! ## One command -/

/-- The code's state represents the abstract session `a`: its session is the image of `a`, and
`G_state.hash` is zero. -/
structure Corr (st : AppState) (a : SessionSpec) : Prop where
  session : st.signSession = a.toSignSession
  hash : st.hash = zeroBytes hashLen
  valid : a.Valid

theorem corr_powerOn : Corr powerOn .idle := ⟨rfl, rfl, trivial⟩

/-- The end of a chunk that extends a session to `B`: the abstract `specAccept`. Only a last
chunk touches `G_state.signature`, as `signFinalize_streaming` says. -/
theorem signAfterChunk_accept (H : Blake3) (env : Env) {st : AppState}
    (hh : st.hash = zeroBytes hashLen) {path : Bip32Path} (hp : cryptoValidatePath path = true)
    (isMore : Bool) (B : List UInt8) {chunk : Option UInt16 × SignSession}
    (hchunk : chunk = if TransferPrefix B then (none, streamingSession path B !isMore)
      else (some swTxParseError, SignSession.zero)) :
    (signAfterChunk H env isMore chunk st).1 = (specAccept H env isMore path B).1 ∧
      Corr (signAfterChunk H env isMore chunk st).2 (specAccept H env isMore path B).2 ∧
      ((signAfterChunk H env isMore chunk st).2.signature = st.signature ∨
        (signAfterChunk H env isMore chunk st).2.signature = zeroBytes signatureLen ∨
        (isMore = false ∧ (signAfterChunk H env isMore chunk st).1 = ⟨swInternalError, []⟩ ∧
          SigningFailed H env path B (signAfterChunk H env isMore chunk st).2.signature)) := by
  subst hchunk
  unfold specAccept
  by_cases hB : TransferPrefix B
  · rw [if_pos hB, if_neg (not_not.mpr hB)]
    cases isMore
    · obtain ⟨h1, h2, h3, h4⟩ := @signFinalize_streaming H env
        { st with signSession := streamingSession path B true } path B hB rfl hh
      exact ⟨h1, ⟨h2, h3, trivial⟩, h4.imp_right (Or.imp_right fun h => ⟨rfl, h⟩)⟩
    · exact ⟨rfl, ⟨rfl, hh, hp, hB⟩, .inl rfl⟩
  · rw [if_neg hB, if_pos hB]
    exact ⟨rfl, ⟨rfl, hh, trivial⟩, .inl rfl⟩

/-- A chunk the checks let through on to a last-chunk finalization has P2 = 0x00. -/
theorem p2_last_of_beq {apdu : Apdu} (hp2 : apdu.p2 ≠ p2LastChunk → apdu.p2 = p2MoreChunks)
    (h : (apdu.p2 == p2MoreChunks) = false) : apdu.p2 = p2LastChunk :=
  Decidable.byContradiction fun hne => by simp [hp2 hne] at h

/-- One `INS_SIGN_TX` command is one step of the abstract machine. It leaves
`G_state.signature` as it was, or zeroizes it, or it is a last chunk answered `0x6F00` whose
key primitive failed on the path and bytes of the session it closes, leaving its output there:
the bytes after the path of a first chunk, or an open session's bytes and the chunk's data. -/
theorem handleSignTx_step (H : Blake3) (env : Env) (apdu : Apdu) {st : AppState}
    {a : SessionSpec} (h : Corr st a) :
    (handleSignTx H env apdu st).1 = (specSign H env apdu a).1 ∧
      Corr (handleSignTx H env apdu st).2 (specSign H env apdu a).2 ∧
      ((handleSignTx H env apdu st).2.signature = st.signature ∨
        (handleSignTx H env apdu st).2.signature = zeroBytes signatureLen ∨
        (apdu.p2 = p2LastChunk ∧ (handleSignTx H env apdu st).1 = ⟨swInternalError, []⟩ ∧
          ∃ path B, ((apdu.p1 = p1FirstChunk ∧ path = (chunkPath apdu).2 ∧
              B = apdu.data.drop (chunkPath apdu).1) ∨
            (apdu.p1 = p1MoreChunk ∧ ∃ B₀, a = .streaming path B₀ ∧ B = B₀ ++ apdu.data)) ∧
            SigningFailed H env path B (handleSignTx H env apdu st).2.signature)) := by
  unfold handleSignTx specSign
  by_cases hbad : (apdu.p1 ≠ p1FirstChunk ∧ apdu.p1 ≠ p1MoreChunk) ∨
      (apdu.p2 ≠ p2LastChunk ∧ apdu.p2 ≠ p2MoreChunks)
  · rw [if_pos hbad]
    rcases hbad with hbad | hbad
    · rw [if_pos hbad]; exact ⟨rfl, ⟨rfl, h.hash, trivial⟩, .inl rfl⟩
    · by_cases h1 : apdu.p1 ≠ p1FirstChunk ∧ apdu.p1 ≠ p1MoreChunk
      · rw [if_pos h1]; exact ⟨rfl, ⟨rfl, h.hash, trivial⟩, .inl rfl⟩
      · rw [if_neg h1, if_pos hbad]; exact ⟨rfl, ⟨rfl, h.hash, trivial⟩, .inl rfl⟩
  rw [if_neg hbad]
  push_neg at hbad
  rw [if_neg (fun h' => absurd (hbad.1 h'.1) h'.2), if_neg (fun h' => absurd (hbad.2 h'.1) h'.2)]
  dsimp only
  by_cases hfirst : apdu.p1 = p1FirstChunk
  · rw [if_pos (by simp [hfirst]), if_pos hfirst, signFirstChunk_eq]
    by_cases h0 : apdu.lc = 0
    · rw [if_pos h0, if_pos h0]; exact ⟨rfl, ⟨rfl, h.hash, trivial⟩, .inl rfl⟩
    rw [if_neg h0, if_neg h0]
    by_cases hp : (chunkPath apdu).1 = 0 ∨ cryptoValidatePath (chunkPath apdu).2 = false
    · rw [if_pos hp, if_pos hp]; exact ⟨rfl, ⟨rfl, h.hash, trivial⟩, .inl rfl⟩
    rw [if_neg hp, if_neg hp]
    push_neg at hp
    obtain ⟨h1, h2, h3⟩ := signAfterChunk_accept H env h.hash (by simpa using hp.2)
      (apdu.p2 == p2MoreChunks) (apdu.data.drop (chunkPath apdu).1) rfl
    exact ⟨h1, h2, h3.imp_right (Or.imp_right fun ⟨hm, hr, hf⟩ =>
      ⟨p2_last_of_beq hbad.2 hm, hr, _, _, .inl ⟨hfirst, rfl, rfl⟩, hf⟩)⟩
  · rw [if_neg (by simp [hfirst]), if_neg hfirst]
    obtain ⟨hs, hh, hv⟩ := h
    cases a with
    | idle => rw [hs]; exact ⟨rfl, ⟨rfl, hh, trivial⟩, .inl rfl⟩
    | streaming path B =>
      rw [hs, SessionSpec.toSignSession, signContinuation_streaming apdu _ path hv.2]
      obtain ⟨h1, h2, h3⟩ := signAfterChunk_accept H env hh hv.1 (apdu.p2 == p2MoreChunks)
        (B ++ apdu.data) rfl
      exact ⟨h1, h2, h3.imp_right (Or.imp_right fun ⟨hm, hr, hf⟩ =>
        ⟨p2_last_of_beq hbad.2 hm, hr, _, _, .inr ⟨hbad.1 hfirst, B, rfl, rfl⟩, hf⟩)⟩

/-- A signing command reaches `handle_sign_tx`. -/
theorem apduDispatch_of_isSign (H : Blake3) (env : Env) {apdu : Apdu}
    (hsign : apdu.isSign = true) (st : AppState) :
    apduDispatch H env apdu st = handleSignTx H env apdu st := by
  simp only [Apdu.isSign, Bool.and_eq_true, beq_iff_eq] at hsign
  unfold apduDispatch
  rw [if_neg (not_not.mpr hsign.1)]
  simp only [hsign.2, insGetVersion, insGetAppName, insGetPublicKey, insGetAddress, insSignTx]
  rfl

/-- A signing command: one step of the abstract machine. -/
theorem apduDispatch_sign (H : Blake3) (env : Env) {apdu : Apdu} (hsign : apdu.isSign = true)
    {st : AppState} {a : SessionSpec} (h : Corr st a) :
    (apduDispatch H env apdu st).1 = (specSign H env apdu a).1 ∧
      Corr (apduDispatch H env apdu st).2 (specSign H env apdu a).2 := by
  rw [apduDispatch_of_isSign H env hsign]
  exact ⟨(handleSignTx_step H env apdu h).1, (handleSignTx_step H env apdu h).2.1⟩

theorem handleGetPublicKey_frame (dev : KeyDevice) (apdu : Apdu) (st : AppState) :
    (handleGetPublicKey dev apdu st).2.signSession = st.signSession ∧
      (handleGetPublicKey dev apdu st).2.hash = st.hash ∧
      (handleGetPublicKey dev apdu st).2.signature = st.signature ∧
      (handleGetPublicKey dev apdu st).1.sw ≠ swTxTooLarge := by
  unfold handleGetPublicKey
  dsimp only
  split_ifs <;> exact ⟨rfl, rfl, rfl, by dsimp only; decide⟩

theorem handleGetAddress_frame (H : Blake3) (dev : KeyDevice) (apdu : Apdu) (st : AppState) :
    (handleGetAddress H dev apdu st).2.signSession = st.signSession ∧
      (handleGetAddress H dev apdu st).2.hash = st.hash ∧
      (handleGetAddress H dev apdu st).2.signature = st.signature ∧
      (handleGetAddress H dev apdu st).1.sw ≠ swTxTooLarge := by
  unfold handleGetAddress
  dsimp only
  split_ifs <;> exact ⟨rfl, rfl, rfl, by dsimp only; decide⟩

/-- Any other command leaves the session, `G_state.hash` and `G_state.signature` as they
were, and is not answered `SW_TX_TOO_LARGE`. -/
theorem apduDispatch_not_sign (H : Blake3) (env : Env) {apdu : Apdu}
    (hsign : apdu.isSign = false) (st : AppState) :
    (apduDispatch H env apdu st).2.signSession = st.signSession ∧
      (apduDispatch H env apdu st).2.hash = st.hash ∧
      (apduDispatch H env apdu st).2.signature = st.signature ∧
      (apduDispatch H env apdu st).1.sw ≠ swTxTooLarge := by
  simp only [Apdu.isSign, Bool.and_eq_false_iff, beq_eq_false_iff_ne] at hsign
  have hother : ∀ {r : Reply}, r.sw ≠ swTxTooLarge →
      (r, st).2.signSession = st.signSession ∧ (r, st).2.hash = st.hash ∧
        (r, st).2.signature = st.signature ∧ (r, st).1.sw ≠ swTxTooLarge :=
    fun h => ⟨rfl, rfl, rfl, h⟩
  unfold apduDispatch
  by_cases hcla : apdu.cla ≠ claSumchain
  · rw [if_pos hcla]; exact hother (by decide)
  rw [if_neg hcla]
  by_cases h0 : apdu.ins = insGetVersion
  · rw [if_pos h0]; exact hother (by decide)
  rw [if_neg h0]
  by_cases h1 : apdu.ins = insGetAppName
  · rw [if_pos h1]; exact hother (by decide)
  rw [if_neg h1]
  by_cases h2 : apdu.ins = insGetPublicKey
  · rw [if_pos h2]; exact handleGetPublicKey_frame _ _ _
  rw [if_neg h2]
  by_cases h3 : apdu.ins = insGetAddress
  · rw [if_pos h3]; exact handleGetAddress_frame _ _ _ _
  rw [if_neg h3, if_neg (hsign.resolve_left (not_not.mpr (not_not.mp hcla)))]
  exact hother (by decide)

theorem specFinalize_sw_ne (H : Blake3) (env : Env) (path : Bip32Path) (B : List UInt8) :
    (specFinalize H env path B).sw ≠ swTxTooLarge := by
  unfold specFinalize
  split_ifs <;> dsimp only <;> decide

/-- The abstract machine never answers `SW_TX_TOO_LARGE`. -/
theorem specSign_sw_ne (H : Blake3) (env : Env) (apdu : Apdu) (a : SessionSpec) :
    (specSign H env apdu a).1.sw ≠ swTxTooLarge := by
  have hacc (isMore : Bool) (path : Bip32Path) (B : List UInt8) :
      (specAccept H env isMore path B).1.sw ≠ swTxTooLarge := by
    unfold specAccept
    split_ifs <;> first | exact specFinalize_sw_ne H env path B | (dsimp only; decide)
  unfold specSign
  split_ifs <;> first | (dsimp only; decide) | exact hacc _ _ _ | skip
  split <;> first | (dsimp only; decide) | exact hacc _ _ _

/-! ## Runs -/

/-- The abstract machine over a command sequence: signing commands step it and are answered
by it; other commands leave it alone. -/
def specRun (H : Blake3) : SessionSpec → List (Env × Apdu) → SessionSpec × List Reply
  | s, [] => (s, [])
  | s, (env, apdu) :: cmds =>
    if apdu.isSign then
      let r := specSign H env apdu s
      let rest := specRun H r.2 cmds
      (rest.1, r.1 :: rest.2)
    else specRun H s cmds

/-- The replies to the signing commands of a transcript, in order. -/
def signReplies (t : List (Apdu × Reply)) : List Reply :=
  t.filterMap fun x => if x.1.isSign then some x.2 else none

/-- From a state representing `a`, a run of the code represents the abstract run and gives
the signing commands the abstract replies; no command is answered `SW_TX_TOO_LARGE`. -/
theorem runApdus_corr (H : Blake3) {st : AppState} {a : SessionSpec} (h : Corr st a)
    (cmds : List (Env × Apdu)) :
    Corr (runApdus H st cmds).1 (specRun H a cmds).1 ∧
      signReplies (runApdus H st cmds).2 = (specRun H a cmds).2 ∧
      ∀ x ∈ (runApdus H st cmds).2, x.2.sw ≠ swTxTooLarge := by
  induction cmds generalizing st a with
  | nil => exact ⟨h, rfl, by simp [runApdus]⟩
  | cons c cmds ih =>
    obtain ⟨env, apdu⟩ := c
    cases hs : apdu.isSign
    · obtain ⟨hss, hsh, -, hsw0⟩ := apduDispatch_not_sign H env hs st
      obtain ⟨hc, hr, hsw⟩ := ih (⟨hss.trans h.session, hsh.trans h.hash, h.valid⟩ :
        Corr (apduDispatch H env apdu st).2 a)
      refine ⟨by simpa [specRun, hs] using hc, ?_, ?_⟩
      · simpa [runApdus, specRun, signReplies, hs] using hr
      · simp only [runApdus, List.mem_cons, forall_eq_or_imp]
        exact ⟨hsw0, hsw⟩
    · obtain ⟨hr1, hc1⟩ := apduDispatch_sign H env hs h
      obtain ⟨hc, hr, hsw⟩ := ih hc1
      refine ⟨by simpa [specRun, hs] using hc, ?_, ?_⟩
      · simp only [runApdus, specRun, signReplies, hs, if_true, List.filterMap_cons] at hr ⊢
        rw [hr1, hr]
      · simp only [runApdus, List.mem_cons, forall_eq_or_imp]
        exact ⟨hr1 ▸ specSign_sw_ne H env apdu a, hsw⟩

/-- `handle_sign_tx`, reached through `apdu_dispatch`, refines the abstract session machine:
over every command sequence from power-on, with any other commands in between and any
behaviour of the device, the signing commands get the abstract machine's replies, and the
session the code ends with is the image of the abstract one. -/
theorem handleSignTx_refines (H : Blake3) (cmds : List (Env × Apdu)) :
    signReplies (runApdus H powerOn cmds).2 = (specRun H .idle cmds).2 ∧
      (runApdus H powerOn cmds).1.signSession = (specRun H .idle cmds).1.toSignSession := by
  obtain ⟨hc, hr, -⟩ := runApdus_corr H corr_powerOn cmds
  exact ⟨hr, hc.session⟩

/-- A first chunk while a session streams is not answered `0x6F03`: the code starts the
session over. From power-on, a first chunk carrying only the path `44'` with P2 = 0x80 opens a
session, and the same chunk sent again is answered `0x9000`. -/
theorem firstChunk_while_streaming :
    (runApdus zeroBlake3 powerOn
        [(hostEnv, ⟨0xE0, 0x04, 0x00, 0x80, 5, [1, 0x80, 0, 0, 0x2C], rfl⟩)]).1.signSession.initialized =
      true ∧
    (runApdus zeroBlake3 powerOn
        [(hostEnv, ⟨0xE0, 0x04, 0x00, 0x80, 5, [1, 0x80, 0, 0, 0x2C], rfl⟩),
          (hostEnv, ⟨0xE0, 0x04, 0x00, 0x80, 5, [1, 0x80, 0, 0, 0x2C], rfl⟩)]).2.map Prod.snd =
      [⟨swOk, []⟩, ⟨swOk, []⟩] := by
  constructor <;> rfl

/-! ## Session hygiene -/

/-- Whether an abstract session is open. -/
def SessionSpec.isStreaming : SessionSpec → Bool
  | .idle => false
  | .streaming _ _ => true

/-- The session the code keeps while a transaction streams in. The hash has absorbed exactly
the bytes the parser consumed: the parser is one call on the hash's input, that call takes all
of it, and it is as long as the session's count. -/
structure SessionStreaming (s : SignSession) : Prop where
  initialized : s.initialized = true
  not_last : s.lastChunkReceived = false
  path_valid : cryptoValidatePath s.path = true
  parser_ok : s.parser.state ≠ .error
  consumed : s.parser.totalConsumed = s.totalReceived
  total_le : s.totalReceived ≤ 82
  hash_initialized : s.txHashCtx.initialized = true
  hash_input : s.parser = (txParserConsume txParserInit s.txHashCtx.input).1
  hash_consumed : (txParserConsume txParserInit s.txHashCtx.input).2 = s.txHashCtx.input.length
  hash_length : s.txHashCtx.input.length = s.totalReceived

theorem sessionStreaming_toSignSession {a : SessionSpec} (hv : a.Valid) (hs : a.isStreaming) :
    SessionStreaming a.toSignSession := by
  cases a with
  | idle => cases hs
  | streaming path B =>
    obtain ⟨hB, hB1, he, -⟩ := txParserConsume_transferPrefix hv.2
    exact ⟨rfl, rfl, hv.1, he, hB1, hv.2.1, rfl, rfl, hB, rfl⟩

theorem specAccept_isStreaming (H : Blake3) (env : Env) (isMore : Bool) (path : Bip32Path)
    (B : List UInt8) : (specAccept H env isMore path B).2.isStreaming =
      (isMore && (specAccept H env isMore path B).1.sw == swOk) := by
  unfold specAccept
  by_cases hB : TransferPrefix B
  · rw [if_neg (not_not.mpr hB)]
    cases isMore <;> simp [SessionSpec.isStreaming]
  · rw [if_pos hB]
    cases isMore <;> rfl

/-- A signing command leaves a session open exactly when it is a `P2 = 0x80` chunk answered
`0x9000`. -/
theorem specSign_isStreaming (H : Blake3) (env : Env) (apdu : Apdu) (a : SessionSpec) :
    (specSign H env apdu a).2.isStreaming =
      (apdu.p2 == p2MoreChunks && (specSign H env apdu a).1.sw == swOk) := by
  unfold specSign
  split_ifs
  · simp [SessionSpec.isStreaming, swInvalidP1P2, swOk]
  · simp [SessionSpec.isStreaming, swWrongLength, swOk]
  · simp [SessionSpec.isStreaming, swInvalidPath, swOk]
  · exact specAccept_isStreaming ..
  · split
    · simp [SessionSpec.isStreaming, swSessionError, swOk]
    · exact specAccept_isStreaming ..

/-- Whether the last signing command of a transcript was a `P2 = 0x80` chunk answered
`0x9000`. -/
def lastSignStreams (t : List (Apdu × Reply)) : Bool :=
  ((t.filter fun x => x.1.isSign).getLast?).elim false
    fun x => x.1.p2 == p2MoreChunks && x.2.sw == swOk

/-- Along a run, the abstract session is open exactly when the last signing command was a
`P2 = 0x80` chunk answered `0x9000` (or, with no signing command, when it was open before). -/
theorem specRun_isStreaming (H : Blake3) {st : AppState} {a : SessionSpec} (h : Corr st a)
    (cmds : List (Env × Apdu)) :
    (specRun H a cmds).1.isStreaming =
      (((runApdus H st cmds).2.filter fun x => x.1.isSign).getLast?).elim a.isStreaming
        fun x => x.1.p2 == p2MoreChunks && x.2.sw == swOk := by
  induction cmds generalizing st a with
  | nil => rfl
  | cons c cmds ih =>
    obtain ⟨env, apdu⟩ := c
    cases hs : apdu.isSign
    · obtain ⟨hss, hsh, -⟩ := apduDispatch_not_sign H env hs st
      have := ih (⟨hss.trans h.session, hsh.trans h.hash, h.valid⟩ :
        Corr (apduDispatch H env apdu st).2 a)
      simpa [specRun, runApdus, hs] using this
    · obtain ⟨hr1, hc1⟩ := apduDispatch_sign H env hs h
      have := ih hc1
      simp only [specRun, runApdus, hs, if_true, List.filter_cons, List.getLast?_cons] at this ⊢
      rw [this]
      cases (List.filter (fun x => x.1.isSign) (runApdus H (apduDispatch H env apdu st).2 cmds).2).getLast? with
      | none => simp [specSign_isStreaming, hr1]
      | some y => rfl

/-- Session hygiene: after every command of every sequence from power-on, whatever the
device does, `G_state.hash` is zero; the session is streaming (initialized, not past its last
chunk, a valid path, a parser not in error whose count is the session's, an initialized hash
whose input is exactly the bytes the parser consumed) when the last signing command was a
`P2 = 0x80` chunk answered `0x9000`, and all-zero otherwise; no command is answered
`SW_TX_TOO_LARGE`; the session is never past its last chunk; and other commands leave it
alone. -/
theorem runApdus_session_hygiene (H : Blake3) (cmds : List (Env × Apdu)) :
    (runApdus H powerOn cmds).1.hash = zeroBytes hashLen ∧
      (lastSignStreams (runApdus H powerOn cmds).2 = true →
        SessionStreaming (runApdus H powerOn cmds).1.signSession) ∧
      (lastSignStreams (runApdus H powerOn cmds).2 = false →
        (runApdus H powerOn cmds).1.signSession = SignSession.zero) ∧
      (∀ x ∈ (runApdus H powerOn cmds).2, x.2.sw ≠ swTxTooLarge) ∧
      (runApdus H powerOn cmds).1.signSession.lastChunkReceived = false ∧
      ∀ (env : Env) (apdu : Apdu), apdu.isSign = false →
        (apduDispatch H env apdu (runApdus H powerOn cmds).1).2.signSession =
          (runApdus H powerOn cmds).1.signSession := by
  obtain ⟨hc, -, hsw⟩ := runApdus_corr H corr_powerOn cmds
  have hstr := specRun_isStreaming H corr_powerOn cmds
  rw [SessionSpec.isStreaming, ← lastSignStreams] at hstr
  refine ⟨hc.hash, fun hl => ?_, fun hl => ?_, hsw, ?_,
    fun env apdu hs => (apduDispatch_not_sign H env hs _).1⟩
  · rw [hc.session]
    exact sessionStreaming_toSignSession hc.valid (hstr.trans hl)
  · rw [hc.session]
    cases ha : (specRun H .idle cmds).1 with
    | idle => rfl
    | streaming => rw [ha, hl] at hstr; cases hstr
  · rw [hc.session]
    cases (specRun H .idle cmds).1 <;> rfl

end SumChainLedger
