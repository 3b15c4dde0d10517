import SumChainLedger.Crypto
import SumChainLedger.Display

/-!
# The APDU dispatcher and the signing session

`apdu_handlers.c` over the global state of `globals.h`, as state-passing functions: every
handler takes the APDU and `G_app_state` and returns its reply (status word and the bytes
written at `*tx`) with the state it leaves.

What the device supplies during one command is a parameter `Env`: the key primitives and the
user's answer to the approval flow `tx_display_show_approval` on the display it is shown.
The BLAKE3 library is the parameter `H`.

`handleSignTx` follows the source block by block: the P1/P2 checks, the first-chunk branch
(`signFirstChunk`) or the continuation branch (`signContinuation`), both ending in the shared
size/hash/parse block (`signFeed`), then, on the last chunk, `signFinalize`: parse complete,
display formatted, fee checked, user approved, hash finalized, signed. An early return after
`reset_sign_session` is `some sw` from the chunk branches.
-/

namespace SumChainLedger

/-! ## Protocol constants -/

/-- `CLA_SUMCHAIN`. -/
def claSumchain : UInt8 := 0xE0

/-- `INS_GET_VERSION`. -/
def insGetVersion : UInt8 := 0x00

/-- `INS_GET_APP_NAME`. -/
def insGetAppName : UInt8 := 0x01

/-- `INS_GET_PUBLIC_KEY`. -/
def insGetPublicKey : UInt8 := 0x02

/-- `INS_GET_ADDRESS`. -/
def insGetAddress : UInt8 := 0x03

/-- `INS_SIGN_TX`. -/
def insSignTx : UInt8 := 0x04

/-- `P1_FIRST_CHUNK`. -/
def p1FirstChunk : UInt8 := 0x00

/-- `P1_MORE_CHUNK`. -/
def p1MoreChunk : UInt8 := 0x80

/-- `P2_LAST_CHUNK`. -/
def p2LastChunk : UInt8 := 0x00

/-- `P2_MORE_CHUNKS`. -/
def p2MoreChunks : UInt8 := 0x80

/-- `SW_OK`. -/
def swOk : UInt16 := 0x9000

/-- `SW_USER_REJECTED`. -/
def swUserRejected : UInt16 := 0x6985

/-- `SW_INVALID_PATH`. -/
def swInvalidPath : UInt16 := 0x6A81

/-- `SW_INVALID_P1P2`. -/
def swInvalidP1P2 : UInt16 := 0x6B00

/-- `SW_INS_NOT_SUPPORTED`. -/
def swInsNotSupported : UInt16 := 0x6D00

/-- `SW_CLA_NOT_SUPPORTED`. -/
def swClaNotSupported : UInt16 := 0x6E00

/-- `SW_WRONG_LENGTH`. -/
def swWrongLength : UInt16 := 0x6700

/-- `SW_INTERNAL_ERROR`. -/
def swInternalError : UInt16 := 0x6F00

/-- `SW_TX_PARSE_ERROR`. -/
def swTxParseError : UInt16 := 0x6F01

/-- `SW_TX_OVERFLOW`. -/
def swTxOverflow : UInt16 := 0x6F02

/-- `SW_SESSION_ERROR`. -/
def swSessionError : UInt16 := 0x6F03

/-- `SW_TX_TOO_LARGE`. -/
def swTxTooLarge : UInt16 := 0x6F04

/-- `APPVERSION_MAJOR`, `APPVERSION_MINOR`, `APPVERSION_PATCH`. -/
def appVersion : List UInt8 := [1, 0, 0]

/-- `APP_NAME`. -/
def appName : String := "SUM Chain"

/-! ## Collaborators, state and commands -/

/-- `ui_result_t`. -/
inductive UiResult
  | none
  | approved
  | rejected
  deriving DecidableEq, Repr

/-- What the device does during one command: the key primitives, and the answer of
`tx_display_show_approval` on the display it is shown. -/
structure Env extends KeyDevice where
  showApproval : TxDisplay → UiResult

/-- The host build: the stub key primitives, and an approval flow that approves. -/
def hostEnv : Env := { hostKeyDevice with showApproval := fun _ => .approved }

/-- `tx_display_show_approval` of the device build: it stores `UI_RESULT_NONE`, refuses a fee
shown as `Overflow`, starts the review flow and returns the stored result. The flow's Approve
and Reject steps store theirs from the event loop, after the call has returned. -/
def txDisplayShowApproval (display : TxDisplay) : UiResult :=
  if display.fee.take 8 = overflowText then .rejected else .none

/-- The device build, with key primitives `dev`. -/
def deviceEnv (dev : KeyDevice) : Env := { dev with showApproval := txDisplayShowApproval }

/-- `sign_session_t`. -/
structure SignSession where
  initialized : Bool
  path : Bip32Path
  txHashCtx : SumBlake3Ctx
  parser : TxParserCtx
  totalReceived : Nat
  lastChunkReceived : Bool
  deriving DecidableEq

/-- A `sign_session_t` of all-zero bytes. -/
def SignSession.zero : SignSession :=
  ⟨false, Bip32Path.zero, SumBlake3Ctx.zero, TxParserCtx.zero, 0, false⟩

/-- `app_state_t`, with the buffers the handlers use and their sizes. -/
structure AppState where
  signSession : SignSession
  pubkey : List UInt8
  pubkey_length : pubkey.length = pubkeyLen
  addressStr : List Char
  addressStr_length : addressStr.length = addressBase58MaxLen
  hash : List UInt8
  hash_length : hash.length = hashLen
  signature : List UInt8
  signature_length : signature.length = signatureLen

/-- `G_app_state` as loaded: all-zero bytes. -/
def AppState.zero : AppState where
  signSession := SignSession.zero
  pubkey := zeroBytes pubkeyLen
  pubkey_length := length_zeroBytes _
  addressStr := List.replicate addressBase58MaxLen nulChar
  addressStr_length := List.length_replicate ..
  hash := zeroBytes hashLen
  hash_length := length_zeroBytes _
  signature := zeroBytes signatureLen
  signature_length := length_zeroBytes _

/-- `reset_sign_session`: zeroize the session, then clear `initialized`. -/
def AppState.resetSignSession (st : AppState) : AppState :=
  { st with signSession := { SignSession.zero with initialized := false } }

/-- The state `app_main` starts from: `reset_sign_session` on the zeroed global. -/
def powerOn : AppState := AppState.zero.resetSignSession

/-- `apdu_t`: the header, `lc`, and the `lc` data bytes. -/
structure Apdu where
  cla : UInt8
  ins : UInt8
  p1 : UInt8
  p2 : UInt8
  lc : UInt8
  data : List UInt8
  data_length : data.length = lc.toNat
  deriving DecidableEq

/-- A command's status word and the bytes it wrote at `*tx`. -/
structure Reply where
  sw : UInt16
  response : List UInt8
  deriving DecidableEq, Repr

/-! ## The read-only commands -/

/-- `handle_get_version`. -/
def handleGetVersion (st : AppState) : Reply × AppState := (⟨swOk, appVersion⟩, st)

/-- `handle_get_app_name`: the bytes of `APP_NAME` without its terminator. -/
def handleGetAppName (st : AppState) : Reply × AppState :=
  (⟨swOk, appName.toList.map fun c => UInt8.ofNat c.toNat⟩, st)

/-- `handle_get_public_key`. The path is a local whose slots past the count are never read;
they are taken as zero. -/
def handleGetPublicKey (dev : KeyDevice) (apdu : Apdu) (st : AppState) : Reply × AppState :=
  if apdu.lc < 1 then (⟨swWrongLength, []⟩, st) else
  let parsed := cryptoParsePath apdu.data apdu.lc.toNat Bip32Path.zero
  if parsed.1 = 0 then (⟨swInvalidPath, []⟩, st) else
  if !cryptoValidatePath parsed.2 then (⟨swInvalidPath, []⟩, st) else
  let key := cryptoDerivePubkey dev parsed.2
  let st := { st with pubkey := key.2, pubkey_length := dev.derivePubkey_length _ }
  if !key.1 then (⟨swInternalError, []⟩, st) else (⟨swOk, st.pubkey⟩, st)

/-- `handle_get_address`: the address text written to `G_state.address_str`, returned up to
its terminator. -/
def handleGetAddress (H : Blake3) (dev : KeyDevice) (apdu : Apdu) (st : AppState) :
    Reply × AppState :=
  if apdu.lc < 1 then (⟨swWrongLength, []⟩, st) else
  let parsed := cryptoParsePath apdu.data apdu.lc.toNat Bip32Path.zero
  if parsed.1 = 0 then (⟨swInvalidPath, []⟩, st) else
  if !cryptoValidatePath parsed.2 then (⟨swInvalidPath, []⟩, st) else
  let addr := sumchainGetAddressForPath H dev parsed.2 st.addressStr
  let st := { st with
    addressStr := addr.2
    addressStr_length := (length_sumchainGetAddressForPath ..).trans st.addressStr_length }
  if !addr.1 then (⟨swInternalError, []⟩, st)
  else (⟨swOk, (cString st.addressStr).map fun c => UInt8.ofNat c.toNat⟩, st)

/-! ## `handle_sign_tx` -/

/-- The block both chunk kinds run on their transaction bytes: the `MAX_TX_SIZE` check, then
the bytes go to the hash and to the parser, which must take all of them without error. -/
def signFeed (session : SignSession) (txData : List UInt8) : Option UInt16 × SignSession :=
  if 0 < txData.length then
    if maxTxSize < session.totalReceived + txData.length then (some swTxTooLarge, SignSession.zero)
    else
      let txHashCtx := sumBlake3Update session.txHashCtx txData
      let consumed := txParserConsume session.parser txData
      if consumed.2 ≠ txData.length ∨ txParserHasError consumed.1 then
        (some swTxParseError, SignSession.zero)
      else
        (none, { session with
          txHashCtx := txHashCtx
          parser := consumed.1
          totalReceived := session.totalReceived + txData.length })
  else (none, session)

/-- The first-chunk branch, on the reset session: read and check the path, start a fresh
hash and parser, and feed them the bytes after the path. -/
def signFirstChunk (apdu : Apdu) (isMore : Bool) : Option UInt16 × SignSession :=
  let session := SignSession.zero
  if apdu.lc < 1 then (some swWrongLength, session) else
  let parsed := cryptoParsePath apdu.data apdu.lc.toNat session.path
  if parsed.1 = 0 then (some swInvalidPath, SignSession.zero) else
  let session := { session with path := parsed.2 }
  if !cryptoValidatePath session.path then (some swInvalidPath, SignSession.zero) else
  let session := { session with
    txHashCtx := sumBlake3Init
    parser := txParserInit
    initialized := true
    totalReceived := 0
    lastChunkReceived := !isMore }
  signFeed session (apdu.data.drop parsed.1)

/-- The continuation branch: a session must be open and not past its last chunk. -/
def signContinuation (apdu : Apdu) (isMore : Bool) (session : SignSession) :
    Option UInt16 × SignSession :=
  if !session.initialized then (some swSessionError, session) else
  if session.lastChunkReceived then (some swSessionError, SignSession.zero) else
  signFeed { session with lastChunkReceived := !isMore } apdu.data

/-- The last-chunk part: the parse must be complete and its display formatted, the fee must
fit in 64 bits and the user must approve; then the hash is finalized into `G_state.hash` and
signed, and the hash, the signature and the session are zeroized. -/
def signFinalize (H : Blake3) (env : Env) (st : AppState) : Reply × AppState :=
  let session := st.signSession
  if !txParserIsDone session.parser then (⟨swTxParseError, []⟩, st.resetSignSession) else
  let parsed := session.parser.parsed
  let display := txDisplayFormat parsed
  if !display.1 then (⟨swInternalError, []⟩, st.resetSignSession) else
  if parsed.feeOverflow then (⟨swTxOverflow, []⟩, st.resetSignSession) else
  if env.showApproval display.2 ≠ .approved then (⟨swUserRejected, []⟩, st.resetSignSession)
  else
  let fin := sumBlake3Finalize32 H session.txHashCtx st.hash
  let st := { st with
    signSession := { session with txHashCtx := fin.1 }
    hash := fin.2
    hash_length := length_sumBlake3Finalize32 H _ st.hash_length }
  let sig := cryptoSignHash env.toKeyDevice session.path st.hash
  let st := { st with signature := sig.2, signature_length := env.signHash_length _ _ }
  if !sig.1 then
    (⟨swInternalError, []⟩,
      { st with hash := zeroBytes hashLen, hash_length := length_zeroBytes _ }.resetSignSession)
  else
    (⟨swOk, st.signature⟩,
      { st with
        hash := zeroBytes hashLen
        hash_length := length_zeroBytes _
        signature := zeroBytes signatureLen
        signature_length := length_zeroBytes _ }.resetSignSession)

/-- The end of `handle_sign_tx` after a chunk branch: its early return, or on the last chunk
`signFinalize`, or `0x9000` with no data while more chunks are expected. -/
def signAfterChunk (H : Blake3) (env : Env) (isMore : Bool) (chunk : Option UInt16 × SignSession)
    (st : AppState) : Reply × AppState :=
  let st := { st with signSession := chunk.2 }
  match chunk.1 with
  | some sw => (⟨sw, []⟩, st)
  | none => if !isMore then signFinalize H env st else (⟨swOk, []⟩, st)

/-- `handle_sign_tx`. -/
def handleSignTx (H : Blake3) (env : Env) (apdu : Apdu) (st : AppState) : Reply × AppState :=
  let isFirst := apdu.p1 == p1FirstChunk
  let isMore := apdu.p2 == p2MoreChunks
  if apdu.p1 ≠ p1FirstChunk ∧ apdu.p1 ≠ p1MoreChunk then
    (⟨swInvalidP1P2, []⟩, st.resetSignSession) else
  if apdu.p2 ≠ p2LastChunk ∧ apdu.p2 ≠ p2MoreChunks then
    (⟨swInvalidP1P2, []⟩, st.resetSignSession) else
  let chunk := if isFirst then signFirstChunk apdu isMore
    else signContinuation apdu isMore st.signSession
  signAfterChunk H env isMore chunk st

/-! ## Dispatch -/

/-- `apdu_dispatch`. -/
def apduDispatch (H : Blake3) (env : Env) (apdu : Apdu) (st : AppState) : Reply × AppState :=
  if apdu.cla ≠ claSumchain then (⟨swClaNotSupported, []⟩, st) else
  if apdu.ins = insGetVersion then handleGetVersion st else
  if apdu.ins = insGetAppName then handleGetAppName st else
  if apdu.ins = insGetPublicKey then handleGetPublicKey env.toKeyDevice apdu st else
  if apdu.ins = insGetAddress then handleGetAddress H env.toKeyDevice apdu st else
  if apdu.ins = insSignTx then handleSignTx H env apdu st else
  (⟨swInsNotSupported, []⟩, st)

/-- `app_main`'s loop from `st`: each command is dispatched with the device's behaviour during
it; the transcript pairs every command with its reply. -/
def runApdus (H : Blake3) : AppState → List (Env × Apdu) → AppState × List (Apdu × Reply)
  | st, [] => (st, [])
  | st, (env, apdu) :: cmds =>
    let r := apduDispatch H env apdu st
    let rest := runApdus H r.2 cmds
    (rest.1, (apdu, r.1) :: rest.2)

/-- A command that reaches `handle_sign_tx`. -/
def Apdu.isSign (apdu : Apdu) : Bool := apdu.cla == claSumchain && apdu.ins == insSignTx

/-- A command that reaches `handle_sign_tx` as a first chunk (P1 = 0x00). -/
def Apdu.isFirstChunk (apdu : Apdu) : Bool := apdu.isSign && apdu.p1 == p1FirstChunk

end SumChainLedger
