import SumChainLedger.App.Handlers

/-!
# `app_main`: frames on the wire

`app_main` reads each command from the bytes `io_exchange` left in `G_io_apdu_buffer`,
dispatches it, and sends back what the handler wrote at the start of the buffer followed by
the status word. The handlers write their response only after they have read the command's
data, so the data and the response are modelled apart.

* `frameCommand` — the frames `app_main` accepts are exactly the header alone, or the header
  and `Lc` followed by at least `Lc` bytes; it reads the standard encoding back, ignoring
  anything after the data (`frameCommand_accepts_encodings`);
* `apduDispatch_wellFormed` — every reply `apdu_dispatch` returns, from any state, carries one of
  `globals.h`'s status words, all of the form `0x6xxx` or `0x9000`, so the remapping in
  `CATCH_OTHER` is never applied (`appExchange_reply`); only `SW_OK` comes with data, and no
  response is longer than a signature (`runFrames_replies_wellFormed`);
* `runFrames_refines` — the loop over raw buffers is `runApdus` over the commands the framing
  accepts: a rejected buffer is answered `0x6700` and changes nothing.
-/

namespace SumChainLedger

/-! ## Reading a frame -/

/-- The command `app_main` builds from the `rx` received bytes at the start of
`G_io_apdu_buffer`, or `none` when it throws `SW_WRONG_LENGTH`: fewer than 4 bytes, or `Lc`
announcing more data than was received. The handlers read `Lc` bytes of data. -/
def frameCommand (rx : List UInt8) : Option Apdu :=
  if rx.length < 4 then none else
  let cla := rx.getD 0 0
  let ins := rx.getD 1 0
  let p1 := rx.getD 2 0
  let p2 := rx.getD 3 0
  if rx.length > 4 then
    let lc := rx.getD 4 0
    if h : rx.length < 5 + lc.toNat then none
    else some ⟨cla, ins, p1, p2, lc, (rx.drop 5).take lc.toNat, by simp; omega⟩
  else some ⟨cla, ins, p1, p2, 0, [], rfl⟩

/-- The standard short encoding of a command: the header, `Lc`, then the data. -/
def Apdu.bytes (apdu : Apdu) : List UInt8 :=
  [apdu.cla, apdu.ins, apdu.p1, apdu.p2, apdu.lc] ++ apdu.data

theorem length_apduBytes (apdu : Apdu) : apdu.bytes.length = 5 + apdu.lc.toNat := by
  simp [Apdu.bytes, apdu.data_length]; omega

theorem frameCommand_eq_none {rx : List UInt8} :
    frameCommand rx = none ↔
      rx.length < 4 ∨ (4 < rx.length ∧ rx.length < 5 + (rx.getD 4 0).toNat) := by
  unfold frameCommand
  dsimp only
  by_cases h4 : rx.length < 4
  · rw [if_pos h4]; exact iff_of_true rfl (.inl h4)
  rw [if_neg h4]
  by_cases h5 : rx.length > 4
  · rw [if_pos h5]
    by_cases h6 : rx.length < 5 + (rx.getD 4 0).toNat
    · rw [dif_pos h6]; exact iff_of_true rfl (.inr ⟨h5, h6⟩)
    · rw [dif_neg h6]; exact iff_of_false (Option.some_ne_none _) (by omega)
  · rw [if_neg h5]; exact iff_of_false (Option.some_ne_none _) (by omega)

/-- An encoded command reads back as itself, whatever follows it. -/
theorem frameCommand_bytes_append (apdu : Apdu) (extra : List UInt8) :
    frameCommand (apdu.bytes ++ extra) = some apdu := by
  have hlen := length_apduBytes apdu
  have hd := apdu.data_length
  rcases apdu with ⟨cla, ins, p1, p2, lc, data, hdata⟩
  simp only [Apdu.bytes] at hlen hd ⊢
  unfold frameCommand
  simp only [List.cons_append, List.nil_append, List.length_cons, List.length_append,
    List.getD_cons_zero, List.getD_cons_succ, List.drop_succ_cons, List.drop_zero,
    List.take_left' hd]
  rw [if_neg (by omega), if_pos (by omega), dif_neg (by omega)]

/-- What an accepted frame is: the encoding of the command it yields followed by ignored
bytes, or, for a command with no `Lc`, its four header bytes. -/
theorem frameCommand_some {rx : List UInt8} {apdu : Apdu} (h : frameCommand rx = some apdu) :
    rx = apdu.bytes ++ rx.drop (5 + apdu.lc.toNat) ∨
      (rx = apdu.bytes.take 4 ∧ apdu.lc = 0 ∧ apdu.data = []) := by
  match rx, h with
  | c0 :: c1 :: c2 :: c3 :: l :: t, h =>
    -- header, `Lc` and at least `Lc` bytes
    left
    unfold frameCommand at h
    simp only [List.length_cons, List.getD_cons_zero, List.getD_cons_succ] at h
    rw [if_neg (by omega), if_pos (by omega)] at h
    split at h
    · cases h
    · cases h
      have hdrop : (c0 :: c1 :: c2 :: c3 :: l :: t).drop (5 + l.toNat) = t.drop l.toNat := by
        rw [← List.drop_drop]; rfl
      simp [Apdu.bytes, hdrop]
  | [c0, c1, c2, c3], h =>
    -- the header alone
    right
    have h4 : frameCommand [c0, c1, c2, c3] = some ⟨c0, c1, c2, c3, 0, [], rfl⟩ := rfl
    rw [h4] at h
    cases h
    exact ⟨rfl, rfl, rfl⟩
  | [], h | [_], h | [_, _], h | [_, _, _], h =>
    exact absurd ((frameCommand_eq_none.mpr (.inl (by simp))).symm.trans h) (by simp)

/-! ## Status words -/

/-- The status words of `globals.h` that the handlers return. -/
def statusWords : List UInt16 :=
  [swOk, swUserRejected, swInvalidPath, swInvalidP1P2, swInsNotSupported, swClaNotSupported,
    swWrongLength, swInternalError, swTxParseError, swTxOverflow, swSessionError, swTxTooLarge]

/-- `CATCH_OTHER` in `app_main`: the status word sent for a thrown value `e`. -/
def catchStatus (e : UInt16) : UInt16 :=
  if e &&& 0xF000 = 0x6000 ∨ e &&& 0xF000 = 0x9000 then e else 0x6800 ||| (e &&& 0x7FF)

/-- The two bytes `FINALLY` appends after the response: `sw >> 8`, then `sw & 0xFF`, each
stored into a `uint8_t`. -/
def swBytes (sw : UInt16) : List UInt8 :=
  [UInt8.ofNat (sw.toNat >>> 8), UInt8.ofNat (sw.toNat &&& 0xFF)]

theorem catchStatus_statusWords : ∀ sw ∈ statusWords, catchStatus sw = sw := by decide

/-- What every reply of `apdu_dispatch` satisfies: its status word is one of `globals.h`'s, no
response is longer than a signature, and only `SW_OK` comes with data. With its two status
bytes such a reply fits in `G_io_apdu_buffer`. -/
def Reply.WellFormed (r : Reply) : Prop :=
  r.sw ∈ statusWords ∧ r.response.length ≤ signatureLen ∧ (r.response ≠ [] → r.sw = swOk)

instance : DecidablePred Reply.WellFormed := fun r => by unfold Reply.WellFormed; infer_instance

theorem Reply.wellFormed_error {sw : UInt16} (h : sw ∈ statusWords) : Reply.WellFormed ⟨sw, []⟩ :=
  ⟨h, Nat.zero_le _, fun h' => absurd rfl h'⟩

theorem Reply.wellFormed_ok {data : List UInt8} (h : data.length ≤ signatureLen) :
    Reply.WellFormed ⟨swOk, data⟩ :=
  ⟨show swOk ∈ statusWords by decide, h, fun _ => rfl⟩

/-- An error branch of a handler: a well-formed reply whichever way the test goes. -/
theorem Reply.wellFormed_ite {c : Prop} [Decidable c] {sw : UInt16} {s : AppState}
    {r : Reply × AppState} (hsw : sw ∈ statusWords) (hr : r.1.WellFormed) :
    (if c then (⟨sw, []⟩, s) else r).1.WellFormed := by
  split
  · exact Reply.wellFormed_error hsw
  · exact hr

/-- The status word goes out high byte first. -/
theorem swBytes_toNat (sw : UInt16) :
    (swBytes sw).map UInt8.toNat = [sw.toNat / 256, sw.toNat % 256] := by
  have hsw : sw.toNat < 65536 := sw.toNat_lt_size
  have hmask : sw.toNat &&& 0xFF = sw.toNat % 2 ^ 8 := Nat.and_pow_two_sub_one_eq_mod _ 8
  simp only [swBytes, List.map_cons, List.map_nil, UInt8.toNat_ofNat_mod, hmask,
    Nat.shiftRight_eq_div_pow, List.cons.injEq, and_true]
  omega

/-! ## What one command answers -/

section Handlers

variable {sw : UInt16}

theorem signFeed_sw {session : SignSession} {txData : List UInt8}
    (h : (signFeed session txData).1 = some sw) : sw ∈ statusWords := by
  unfold signFeed at h
  dsimp only at h
  split_ifs at h <;> cases h <;> decide

theorem signFirstChunk_sw {apdu : Apdu} {isMore : Bool}
    (h : (signFirstChunk apdu isMore).1 = some sw) : sw ∈ statusWords := by
  unfold signFirstChunk at h
  dsimp only at h
  split_ifs at h <;> first | (cases h; decide) | exact signFeed_sw h

theorem signContinuation_sw {apdu : Apdu} {isMore : Bool} {session : SignSession}
    (h : (signContinuation apdu isMore session).1 = some sw) : sw ∈ statusWords := by
  unfold signContinuation at h
  split_ifs at h <;> first | (cases h; decide) | exact signFeed_sw h

/-- The last chunk answers with the signature or an error. -/
theorem signFinalize_wellFormed (H : Blake3) (env : Env) (st : AppState) :
    (signFinalize H env st).1.WellFormed := by
  unfold signFinalize
  exact Reply.wellFormed_ite (by decide) <| Reply.wellFormed_ite (by decide) <|
    Reply.wellFormed_ite (by decide) <| Reply.wellFormed_ite (by decide) <|
    Reply.wellFormed_ite (by decide) (Reply.wellFormed_ok (env.signHash_length _ _).le)

theorem signAfterChunk_wellFormed (H : Blake3) (env : Env) (isMore : Bool)
    {chunk : Option UInt16 × SignSession} (hc : ∀ sw, chunk.1 = some sw → sw ∈ statusWords)
    (st : AppState) : (signAfterChunk H env isMore chunk st).1.WellFormed := by
  unfold signAfterChunk
  split
  · exact Reply.wellFormed_error (hc _ ‹_›)
  · split_ifs
    · exact signFinalize_wellFormed H env _
    · exact Reply.wellFormed_ok (Nat.zero_le _)

theorem handleSignTx_wellFormed (H : Blake3) (env : Env) (apdu : Apdu) (st : AppState) :
    (handleSignTx H env apdu st).1.WellFormed := by
  unfold handleSignTx
  refine Reply.wellFormed_ite (by decide) <| Reply.wellFormed_ite (by decide) <|
    signAfterChunk_wellFormed H env _ (fun _ h => ?_) st
  split at h
  · exact signFirstChunk_sw h
  · exact signContinuation_sw h

/-- `GET_PUBLIC_KEY` answers with the 32-byte key or an error. -/
theorem handleGetPublicKey_wellFormed (dev : KeyDevice) (apdu : Apdu) (st : AppState) :
    (handleGetPublicKey dev apdu st).1.WellFormed := by
  unfold handleGetPublicKey
  exact Reply.wellFormed_ite (by decide) <| Reply.wellFormed_ite (by decide) <|
    Reply.wellFormed_ite (by decide) <| Reply.wellFormed_ite (by decide) <|
    Reply.wellFormed_ok ((dev.derivePubkey_length _).trans_le (by decide))

/-- `GET_ADDRESS` answers with the address text, shorter than its buffer, or an error. -/
theorem handleGetAddress_wellFormed (H : Blake3) (dev : KeyDevice) (apdu : Apdu)
    (st : AppState) : (handleGetAddress H dev apdu st).1.WellFormed := by
  unfold handleGetAddress
  refine Reply.wellFormed_ite (by decide) <| Reply.wellFormed_ite (by decide) <|
    Reply.wellFormed_ite (by decide) <| Reply.wellFormed_ite (by decide) <|
    Reply.wellFormed_ok ?_
  rw [List.length_map]
  refine (List.takeWhile_sublist _).length_le.trans ?_
  rw [length_sumchainGetAddressForPath, st.addressStr_length]
  decide

end Handlers

/-- What `apdu_dispatch` answers: a CLA or INS error with the state unchanged, or what one of
the handlers answers. -/
theorem apduDispatch_cases (H : Blake3) (env : Env) (apdu : Apdu) (st : AppState) :
    apduDispatch H env apdu st = (⟨swClaNotSupported, []⟩, st) ∨
      apduDispatch H env apdu st = (⟨swInsNotSupported, []⟩, st) ∨
      apduDispatch H env apdu st = handleGetVersion st ∨
      apduDispatch H env apdu st = handleGetAppName st ∨
      apduDispatch H env apdu st = handleGetPublicKey env.toKeyDevice apdu st ∨
      apduDispatch H env apdu st = handleGetAddress H env.toKeyDevice apdu st ∨
      apduDispatch H env apdu st = handleSignTx H env apdu st := by
  unfold apduDispatch
  by_cases hc : apdu.cla ≠ claSumchain
  · exact .inl (if_pos hc)
  rw [if_neg hc]
  by_cases h0 : apdu.ins = insGetVersion
  · exact .inr (.inr (.inl (if_pos h0)))
  rw [if_neg h0]
  by_cases h1 : apdu.ins = insGetAppName
  · exact .inr (.inr (.inr (.inl (if_pos h1))))
  rw [if_neg h1]
  by_cases h2 : apdu.ins = insGetPublicKey
  · exact .inr (.inr (.inr (.inr (.inl (if_pos h2)))))
  rw [if_neg h2]
  by_cases h3 : apdu.ins = insGetAddress
  · exact .inr (.inr (.inr (.inr (.inr (.inl (if_pos h3))))))
  rw [if_neg h3]
  by_cases h4 : apdu.ins = insSignTx
  · exact .inr (.inr (.inr (.inr (.inr (.inr (if_pos h4))))))
  exact .inr (.inl (if_neg h4))

/-- Every reply `apdu_dispatch` returns, from any state, is well formed. -/
theorem apduDispatch_wellFormed (H : Blake3) (env : Env) (apdu : Apdu) (st : AppState) :
    (apduDispatch H env apdu st).1.WellFormed := by
  rcases apduDispatch_cases H env apdu st with h | h | h | h | h | h | h <;> rw [h]
  iterate 2 exact Reply.wellFormed_error (by decide)
  iterate 2 exact Reply.wellFormed_ok (by decide)
  · exact handleGetPublicKey_wellFormed ..
  · exact handleGetAddress_wellFormed ..
  · exact handleSignTx_wellFormed ..

/-- Every status word `apdu_dispatch` returns, from any state, is one of `globals.h`'s. -/
theorem apduDispatch_sw_mem (H : Blake3) (env : Env) (apdu : Apdu) (st : AppState) :
    (apduDispatch H env apdu st).1.sw ∈ statusWords :=
  (apduDispatch_wellFormed H env apdu st).1

/-! ## One exchange and the loop -/

/-- One pass of `app_main`'s loop on the received bytes `rx`: the bytes it sends back (what the
handler wrote at the start of `G_io_apdu_buffer`, then the status word) and the state after.
A rejected frame throws `SW_WRONG_LENGTH` with `tx = 0`, before any dispatch. -/
def appExchange (H : Blake3) (env : Env) (st : AppState) (rx : List UInt8) :
    List UInt8 × AppState :=
  match frameCommand rx with
  | none => (swBytes (catchStatus swWrongLength), st)
  | some apdu =>
    let r := apduDispatch H env apdu st
    (r.1.response ++ swBytes (catchStatus r.1.sw), r.2)

/-- `app_main`'s loop from `st` over received buffers, each with the device's behaviour during
its exchange: the state after, and the bytes sent back for each buffer. -/
def runFrames (H : Blake3) : AppState → List (Env × List UInt8) → AppState × List (List UInt8)
  | st, [] => (st, [])
  | st, (env, rx) :: frames =>
    let r := appExchange H env st rx
    let rest := runFrames H r.2 frames
    (rest.1, r.1 :: rest.2)

/-- The bytes that carry a reply: the response, then the status word. -/
def Reply.bytes (r : Reply) : List UInt8 := r.response ++ swBytes r.sw

/-- The commands the loop dispatches: the accepted frames in order, each with the device's
behaviour during its exchange. -/
def acceptedCommands (frames : List (Env × List UInt8)) : List (Env × Apdu) :=
  frames.filterMap fun f => (frameCommand f.2).map fun apdu => (f.1, apdu)

theorem appExchange_of_none {rx : List UInt8} (h : frameCommand rx = none) (H : Blake3)
    (env : Env) (st : AppState) : appExchange H env st rx = ([0x67, 0x00], st) := by
  rw [appExchange, h]; rfl

theorem appExchange_of_some {rx : List UInt8} {apdu : Apdu} (h : frameCommand rx = some apdu)
    (H : Blake3) (env : Env) (st : AppState) :
    appExchange H env st rx =
      ((apduDispatch H env apdu st).1.bytes, (apduDispatch H env apdu st).2) := by
  rw [appExchange, h]
  dsimp only
  rw [catchStatus_statusWords _ (apduDispatch_sw_mem H env apdu st)]
  rfl

theorem runFrames_cons (H : Blake3) (st : AppState) (env : Env) (rx : List UInt8)
    (frames : List (Env × List UInt8)) :
    runFrames H st ((env, rx) :: frames) =
      ((runFrames H (appExchange H env st rx).2 frames).1,
        (appExchange H env st rx).1 :: (runFrames H (appExchange H env st rx).2 frames).2) := rfl

/-- One exchange sends a well-formed reply: the rejected frame's `SW_WRONG_LENGTH`, or the
dispatcher's reply. -/
theorem appExchange_wellFormed (H : Blake3) (env : Env) (st : AppState) (rx : List UInt8) :
    ∃ r : Reply, r.WellFormed ∧ (appExchange H env st rx).1 = r.bytes := by
  cases h : frameCommand rx with
  | none => exact ⟨⟨swWrongLength, []⟩, by decide, by rw [appExchange_of_none h]; rfl⟩
  | some apdu => exact ⟨_, apduDispatch_wellFormed H env apdu st, by rw [appExchange_of_some h]⟩

/-! ## What the wire carries -/

/-- `app_main` accepts a received buffer exactly when it holds the four header bytes and, if
it has a fifth byte `Lc`, at least `Lc` bytes after it. The encoding of any command followed by
any bytes reads back as that command, and every accepted buffer is the encoding of the command
read followed by ignored bytes, or a bare header read as a command with no data. -/
theorem frameCommand_accepts_encodings :
    (∀ rx : List UInt8, (frameCommand rx).isSome = true ↔
      4 ≤ rx.length ∧ (4 < rx.length → 5 + (rx.getD 4 0).toNat ≤ rx.length)) ∧
    (∀ (apdu : Apdu) (extra : List UInt8), frameCommand (apdu.bytes ++ extra) = some apdu) ∧
    ∀ (rx : List UInt8) (apdu : Apdu), frameCommand rx = some apdu →
      rx = apdu.bytes ++ rx.drop (5 + apdu.lc.toNat) ∨
        (rx = apdu.bytes.take 4 ∧ apdu.lc = 0 ∧ apdu.data = []) :=
  ⟨fun rx => by rw [Option.isSome_iff_ne_none, Ne, frameCommand_eq_none]; omega,
    frameCommand_bytes_append, fun _ _ => frameCommand_some⟩

/-- One exchange, from any state: a rejected buffer is answered `0x67 0x00` and leaves the
state as it was; an accepted one is answered with the handler's response followed by the
dispatcher's status word, which is one of `globals.h`'s and passes `CATCH_OTHER` unchanged.
The status word goes out high byte first. -/
theorem appExchange_reply (H : Blake3) (env : Env) (st : AppState) (rx : List UInt8) :
    (frameCommand rx = none → appExchange H env st rx = ([0x67, 0x00], st)) ∧
      (∀ apdu, frameCommand rx = some apdu →
        appExchange H env st rx =
            ((apduDispatch H env apdu st).1.bytes, (apduDispatch H env apdu st).2) ∧
          (apduDispatch H env apdu st).1.sw ∈ statusWords) ∧
      ∀ sw : UInt16, (swBytes sw).map UInt8.toNat = [sw.toNat / 256, sw.toNat % 256] :=
  ⟨fun h => appExchange_of_none h H env st,
    fun apdu h => ⟨appExchange_of_some h H env st, apduDispatch_sw_mem H env apdu st⟩,
    swBytes_toNat⟩

/-- The loop over raw buffers is `runApdus` over the commands the framing accepts: from any
state, it ends in the state `runApdus` ends in, answers each buffer once, answers the accepted
ones, in order, with the bytes of `runApdus`'s replies, and every rejected one with
`0x67 0x00`. -/
theorem runFrames_refines (H : Blake3) (st : AppState) (frames : List (Env × List UInt8)) :
    (runFrames H st frames).1 = (runApdus H st (acceptedCommands frames)).1 ∧
      (runFrames H st frames).2.length = frames.length ∧
      (frames.zip (runFrames H st frames).2).filterMap
          (fun p => (frameCommand p.1.2).map fun _ => p.2) =
        (runApdus H st (acceptedCommands frames)).2.map (fun x => x.2.bytes) ∧
      ∀ p ∈ frames.zip (runFrames H st frames).2, frameCommand p.1.2 = none →
        p.2 = [0x67, 0x00] := by
  induction frames generalizing st with
  | nil => exact ⟨rfl, rfl, rfl, by simp [runFrames]⟩
  | cons f frames ih =>
    obtain ⟨env, rx⟩ := f
    rw [runFrames_cons]
    cases h : frameCommand rx with
    | none =>
      -- rejected: answered `0x6700`, nothing dispatched
      have hacc : acceptedCommands ((env, rx) :: frames) = acceptedCommands frames := by
        simp [acceptedCommands, h]
      obtain ⟨h1, h2, h3, h4⟩ := ih st
      rw [appExchange_of_none h, hacc]
      refine ⟨h1, by simp [h2], by simpa [h] using h3, fun p hp hn => ?_⟩
      rcases List.mem_cons.mp hp with rfl | hp
      · rfl
      · exact h4 p hp hn
    | some apdu =>
      -- accepted: one dispatch
      have hacc : acceptedCommands ((env, rx) :: frames) =
          (env, apdu) :: acceptedCommands frames := by
        simp [acceptedCommands, h]
      obtain ⟨h1, h2, h3, h4⟩ := ih (apduDispatch H env apdu st).2
      rw [appExchange_of_some h, hacc]
      refine ⟨h1, by simp [h2], by simpa [h, runApdus] using h3, fun p hp hn => ?_⟩
      rcases List.mem_cons.mp hp with rfl | hp
      · simp [h] at hn
      · exact h4 p hp hn

/-- Every buffer `app_main` sends, along any run from any state, is a response of at most
`SIGNATURE_LEN` bytes followed by the two bytes of a status word of `globals.h`, and only
`SW_OK` comes with data: the buffers sent are the bytes of well-formed replies, so with its
status word no reply exceeds 66 bytes. -/
theorem runFrames_replies_wellFormed (H : Blake3) (st : AppState)
    (frames : List (Env × List UInt8)) :
    ∃ rs : List Reply, (∀ r ∈ rs, r.WellFormed) ∧
      (runFrames H st frames).2 = rs.map Reply.bytes := by
  induction frames generalizing st with
  | nil => exact ⟨[], fun _ => by simp, rfl⟩
  | cons f frames ih =>
    obtain ⟨env, rx⟩ := f
    obtain ⟨r, hr, heq⟩ := appExchange_wellFormed H env st rx
    obtain ⟨rs, hrs, hmap⟩ := ih (appExchange H env st rx).2
    exact ⟨r :: rs, List.forall_mem_cons.mpr ⟨hr, hrs⟩, by rw [runFrames_cons, heq, hmap]; rfl⟩

end SumChainLedger
