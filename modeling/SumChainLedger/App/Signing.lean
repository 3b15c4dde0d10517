import SumChainLedger.App.Session

/-!
# What is signed

Three consequences of the refinement in `Session`, stated over the code's runs.

* `runApdus_signature_approved` — a signing command answered `0x9000` with data is a last
  chunk, and the data is the signature, by the path of the most recent first chunk, of the
  digest of the bytes sent since (that chunk's bytes after the path, then each continuation's
  data): a whole Transfer with a 64-bit fee whose display the user approved. Every signing
  command since that first chunk was answered `0x9000` with nothing.
* `runApdus_signs_any_split` — from any reachable state, a valid path and a Transfer sent as a
  first chunk and continuations, split anywhere, get `0x9000` on every chunk and the signature
  of the Transfer's digest on the last.
* `runApdus_buffers_cleared` — no run leaves a message hash in `G_state`, and the signature
  buffer ends zero unless a command of the run was a last chunk whose key primitive failed on
  the path and bytes of the session it closed; the buffer then holds that call's output.

The first two go through `specSign_inv`, everything one signing command can do to the
abstract session; the first and the third through the history invariant `runApdus_history`
relating the abstract session to the transcript, and `lastSession_accept`, the session a
signing command closes.
-/

namespace SumChainLedger

/-! ## Reachable states and transcripts -/

/-- The states `app_main` can be in: power-on, then any dispatched commands. -/
inductive AppReachable (H : Blake3) : AppState → Prop
  | powerOn : AppReachable H powerOn
  | dispatch {st : AppState} (env : Env) (apdu : Apdu) :
      AppReachable H st → AppReachable H (apduDispatch H env apdu st).2

theorem AppReachable.corr {H : Blake3} {st : AppState} (h : AppReachable H st) :
    ∃ a, Corr st a := by
  induction h with
  | powerOn => exact ⟨_, corr_powerOn⟩
  | dispatch env apdu _ ih =>
    obtain ⟨a, ha⟩ := ih
    cases hs : apdu.isSign
    · obtain ⟨hss, hsh, -⟩ := apduDispatch_not_sign H env hs _
      exact ⟨a, hss.trans ha.session, hsh.trans ha.hash, ha.valid⟩
    · exact ⟨_, (apduDispatch_sign H env hs ha).2⟩

theorem runApdus_append (H : Blake3) (st : AppState) (cmds : List (Env × Apdu)) (env : Env)
    (apdu : Apdu) :
    runApdus H st (cmds ++ [(env, apdu)]) =
      ((apduDispatch H env apdu (runApdus H st cmds).1).2,
        (runApdus H st cmds).2 ++ [(apdu, (apduDispatch H env apdu (runApdus H st cmds).1).1)]) := by
  induction cmds generalizing st with
  | nil => rfl
  | cons c cmds ih => simp [runApdus, ih]

theorem specRun_append (H : Blake3) (s : SessionSpec) (cmds : List (Env × Apdu)) (env : Env)
    (apdu : Apdu) :
    specRun H s (cmds ++ [(env, apdu)]) =
      if apdu.isSign then
        ((specSign H env apdu (specRun H s cmds).1).2,
          (specRun H s cmds).2 ++ [(specSign H env apdu (specRun H s cmds).1).1])
      else specRun H s cmds := by
  induction cmds generalizing s with
  | nil => cases h : apdu.isSign <;> simp [specRun, h]
  | cons c cmds ih =>
    obtain ⟨e, a⟩ := c
    cases ha : a.isSign <;> cases h : apdu.isSign <;> simp [specRun, ha, h, ih]

/-- The commands of a transcript are the commands sent. -/
theorem runApdus_fst (H : Blake3) (st : AppState) (cmds : List (Env × Apdu)) :
    (runApdus H st cmds).2.map Prod.fst = cmds.map Prod.snd := by
  induction cmds generalizing st with
  | nil => rfl
  | cons c cmds ih => simp [runApdus, ih]

/-! ## One signing command, inverted -/

/-- Everything one signing command can do to the abstract session: end it with an error
status and no data, or take bytes `B` for a valid path — the bytes after the path of a first
chunk, or an open session's bytes followed by a continuation's data — and go on as
`specAccept`. -/
theorem specSign_inv (H : Blake3) (env : Env) (apdu : Apdu) (a : SessionSpec) (hv : a.Valid) :
    (∃ sw, sw ≠ swOk ∧ specSign H env apdu a = (⟨sw, []⟩, .idle)) ∨
      ∃ path B, cryptoValidatePath path = true ∧
        (apdu.p2 = p2LastChunk ∨ apdu.p2 = p2MoreChunks) ∧
        ((apdu.p1 = p1FirstChunk ∧ path = (chunkPath apdu).2 ∧
            B = apdu.data.drop (chunkPath apdu).1) ∨
          (apdu.p1 = p1MoreChunk ∧ ∃ B₀, a = .streaming path B₀ ∧ B = B₀ ++ apdu.data)) ∧
        specSign H env apdu a = specAccept H env (apdu.p2 == p2MoreChunks) path B := by
  unfold specSign
  by_cases hbad : (apdu.p1 ≠ p1FirstChunk ∧ apdu.p1 ≠ p1MoreChunk) ∨
      (apdu.p2 ≠ p2LastChunk ∧ apdu.p2 ≠ p2MoreChunks)
  · exact .inl ⟨_, by decide, if_pos hbad⟩
  rw [if_neg hbad]
  push_neg at hbad
  have hp2 : apdu.p2 = p2LastChunk ∨ apdu.p2 = p2MoreChunks := by
    by_cases h : apdu.p2 = p2LastChunk
    · exact .inl h
    · exact .inr (hbad.2 h)
  by_cases hfirst : apdu.p1 = p1FirstChunk
  · rw [if_pos hfirst]
    by_cases h0 : apdu.lc = 0
    · exact .inl ⟨_, by decide, if_pos h0⟩
    rw [if_neg h0]
    by_cases hp : (chunkPath apdu).1 = 0 ∨ cryptoValidatePath (chunkPath apdu).2 = false
    · exact .inl ⟨_, by decide, if_pos hp⟩
    rw [if_neg hp]
    push_neg at hp
    exact .inr ⟨_, _, by simpa using hp.2, hp2, .inl ⟨hfirst, rfl, rfl⟩, rfl⟩
  · rw [if_neg hfirst]
    cases a with
    | idle => exact .inl ⟨_, by decide, rfl⟩
    | streaming path B₀ =>
      exact .inr ⟨_, _, hv.1, hp2, .inr ⟨hbad.1 hfirst, B₀, rfl, rfl⟩, rfl⟩

/-- A last chunk answered `0x9000`: a whole Transfer with a 64-bit fee, approved by the user,
and the reply's data is what the key primitive returned. -/
theorem specFinalize_ok {H : Blake3} {env : Env} {path : Bip32Path} {B : List UInt8}
    (h : (specFinalize H env path B).sw = swOk) :
    B.length = 82 ∧ transferFee B < 2 ^ 64 ∧
      env.showApproval (txDisplayFormat (decodeTransfer B)).2 = .approved ∧
      cryptoSignHash env.toKeyDevice path (H.digest B) =
        (true, (specFinalize H env path B).response) := by
  unfold specFinalize at h ⊢
  split_ifs at h ⊢ with h1 h2 h3 h4 <;> first | exact absurd h (by decide) | skip
  exact ⟨not_not.mp h1, not_le.mp h2, not_not.mp h3, Prod.ext h4 rfl⟩

/-! ## The session a transcript describes -/

/-- The signing session a transcript ends in, read off its commands: the most recent first
chunk with its reply, and the signing commands after it with theirs. -/
def lastSession : List (Apdu × Reply) → Option ((Apdu × Reply) × List (Apdu × Reply))
  | [] => none
  | x :: t =>
    match lastSession t with
    | some s => some s
    | none => if x.1.isFirstChunk then some (x, t.filter fun y => y.1.isSign) else none

/-- The transaction bytes of a session: the first chunk's bytes after the path, then the
data of every later signing command. -/
def sessionBytes (first : Apdu) (rest : List (Apdu × Reply)) : List UInt8 :=
  first.data.drop (chunkPath first).1 ++ (rest.map fun y => y.1.data).flatten

theorem lastSession_append (t : List (Apdu × Reply)) (x : Apdu × Reply) :
    lastSession (t ++ [x]) =
      if x.1.isFirstChunk then some (x, [])
      else (lastSession t).map fun s => (s.1, if x.1.isSign then s.2 ++ [x] else s.2) := by
  induction t with
  | nil => cases h : x.1.isFirstChunk <;> simp [lastSession, h]
  | cons y t ih =>
    rw [List.cons_append, lastSession, ih, lastSession]
    cases hx : x.1.isFirstChunk
    · cases hl : lastSession t with
      | some s => simp
      | none =>
        cases hy : y.1.isFirstChunk
        · simp
        · cases hs : x.1.isSign <;> simp [List.filter_append, hs]
    · simp

theorem sessionBytes_append (first : Apdu) (rest : List (Apdu × Reply)) (x : Apdu × Reply) :
    sessionBytes first (rest ++ [x]) = sessionBytes first rest ++ x.1.data := by
  simp [sessionBytes]

/-- What the transcript says about an open abstract session: its path is the most recent
first chunk's, its bytes are the session's bytes, every signing command of the session was
answered `0x9000` with nothing, and all but the first were continuations. -/
def SessionHistory (t : List (Apdu × Reply)) : SessionSpec → Prop
  | .idle => True
  | .streaming path B =>
    ∃ first rest, lastSession t = some (first, rest) ∧ path = (chunkPath first.1).2 ∧
      B = sessionBytes first.1 rest ∧ (∀ x ∈ first :: rest, x.2 = ⟨swOk, []⟩) ∧
      ∀ x ∈ rest, x.1.p1 = p1MoreChunk

/-- A signing command that takes bytes `B` for `path` from a session the transcript describes
ends the transcript's last session: begun by a first chunk with that path, continued by
continuations answered `0x9000` with nothing, and with bytes `B`. -/
theorem lastSession_accept {t : List (Apdu × Reply)} {a : SessionSpec} (hh : SessionHistory t a)
    {apdu : Apdu} (hsign : apdu.isSign = true) {path : Bip32Path} {B : List UInt8}
    (hcase : (apdu.p1 = p1FirstChunk ∧ path = (chunkPath apdu).2 ∧
        B = apdu.data.drop (chunkPath apdu).1) ∨
      (apdu.p1 = p1MoreChunk ∧ ∃ B₀, a = .streaming path B₀ ∧ B = B₀ ++ apdu.data))
    (reply : Reply) :
    ∃ first rest, lastSession (t ++ [(apdu, reply)]) = some (first, rest) ∧
      (first :: rest).getLast? = some (apdu, reply) ∧ (∀ x ∈ rest, x.1.p1 = p1MoreChunk) ∧
      (∀ x ∈ (first :: rest).dropLast, x.2 = ⟨swOk, []⟩) ∧
      path = (chunkPath first.1).2 ∧ B = sessionBytes first.1 rest := by
  rcases hcase with ⟨hp1, rfl, rfl⟩ | ⟨hp1, B₀, rfl, rfl⟩
  · refine ⟨(apdu, reply), [], ?_, rfl, fun _ h => absurd h (List.not_mem_nil _),
      fun _ h => absurd h (List.not_mem_nil _), rfl, by simp [sessionBytes]⟩
    rw [lastSession_append, if_pos (by simp [Apdu.isFirstChunk, hsign, hp1])]
  · obtain ⟨first, rest, hl, hpath, hbytes, hok, hp⟩ := hh
    refine ⟨first, rest ++ [(apdu, reply)], ?_, by rw [← List.cons_append, List.getLast?_concat],
      fun x hx => ?_, by rw [← List.cons_append, List.dropLast_concat]; exact hok, hpath,
      by rw [sessionBytes_append, hbytes]⟩
    · rw [lastSession_append, if_neg (by simp [Apdu.isFirstChunk, hp1, p1MoreChunk,
        p1FirstChunk]), hl]
      simp [hsign]
    · rcases List.mem_append.mp hx with hx | hx
      · exact hp x hx
      · rw [List.mem_singleton.mp hx]; exact hp1

/-- Along every run from power-on, the code represents the abstract session, and the
abstract session is the one the transcript describes. -/
theorem runApdus_history (H : Blake3) (cmds : List (Env × Apdu)) :
    Corr (runApdus H powerOn cmds).1 (specRun H .idle cmds).1 ∧
      SessionHistory (runApdus H powerOn cmds).2 (specRun H .idle cmds).1 := by
  induction cmds using List.reverseRecOn with
  | nil => exact ⟨corr_powerOn, trivial⟩
  | append_singleton cmds c ih =>
    obtain ⟨env, apdu⟩ := c
    obtain ⟨hc, hh⟩ := ih
    rw [runApdus_append, specRun_append]
    cases hs : apdu.isSign
    · obtain ⟨hss, hsh, -⟩ := apduDispatch_not_sign H env hs (runApdus H powerOn cmds).1
      refine ⟨⟨hss.trans hc.session, hsh.trans hc.hash, hc.valid⟩, ?_⟩
      have hnf : apdu.isFirstChunk = false := by simp [Apdu.isFirstChunk, hs]
      rw [if_neg (by simp)]
      cases ha : (specRun H .idle cmds).1 with
      | idle => trivial
      | streaming path B =>
        rw [ha] at hh
        obtain ⟨first, rest, hl, hrest⟩ := hh
        refine ⟨first, rest, ?_, hrest⟩
        rw [lastSession_append, hnf, hl]
        simp [hs]
    · obtain ⟨hr, hc'⟩ := apduDispatch_sign H env hs hc
      rw [if_pos rfl]
      refine ⟨hc', ?_⟩
      rcases specSign_inv H env apdu _ hc.valid with ⟨sw, -, heq⟩ | ⟨path, B, -, -, hcase, heq⟩
      · rw [heq]; trivial
      rw [heq] at hr ⊢
      unfold specAccept at hr ⊢
      by_cases hB : TransferPrefix B
      swap
      · rw [if_pos hB]; trivial
      rw [if_neg (not_not.mpr hB)] at hr ⊢
      cases hm : (apdu.p2 == p2MoreChunks)
      · rw [if_neg Bool.false_ne_true]; trivial
      rw [if_pos hm] at hr
      rw [if_pos rfl]
      dsimp only at hr ⊢
      rw [hr]
      obtain ⟨first, rest, hl, hlast, hp, hok, hpath, hbytes⟩ :=
        lastSession_accept hh hs hcase ⟨swOk, []⟩
      refine ⟨first, rest, hl, hpath, hbytes, fun x hx => ?_, hp⟩
      rw [← List.dropLast_append_getLast? _ hlast] at hx
      rcases List.mem_append.mp hx with hx | hx
      · exact hok x hx
      · rw [List.mem_singleton.mp hx]

/-! ## What a signature certifies -/

/-- What a signature reply certifies about the bytes `B` of its session: a whole Transfer
(version 1, transfer type 0) whose fee fits in 64 bits, whose display the user approved, and
whose one-shot digest the key primitive signed under `path`, giving `response`. -/
structure ApprovedTransfer (H : Blake3) (env : Env) (path : Bip32Path) (B response : List UInt8) :
    Prop where
  length : B.length = 82
  version : B.getD 0 0 = 1
  txType : B.getD 53 0 = 0
  fee_fits : transferFee B < 2 ^ 64
  approved :
    env.showApproval (txDisplayFormat (txParserConsume txParserInit B).1.parsed).2 = .approved
  signed : cryptoSignHash env.toKeyDevice path (sumBlake3Hash H B (zeroBytes hashLen)) =
    (true, response)

/-- Bytes accepted with `0x9000` and data: a last chunk, and the data is a signature of an
approved Transfer. -/
theorem specAccept_signature {H : Blake3} {env : Env} {isMore : Bool} {path : Bip32Path}
    {B : List UInt8} (hok : (specAccept H env isMore path B).1.sw = swOk)
    (hne : (specAccept H env isMore path B).1.response ≠ []) :
    isMore = false ∧ ApprovedTransfer H env path B (specAccept H env isMore path B).1.response := by
  unfold specAccept at hok hne ⊢
  by_cases hB : TransferPrefix B
  swap
  · rw [if_pos hB] at hne; exact absurd rfl hne
  rw [if_neg (not_not.mpr hB)] at hok hne ⊢
  cases isMore with
  | true => rw [if_pos rfl] at hne; exact absurd rfl hne
  | false =>
    rw [if_neg Bool.false_ne_true] at hok ⊢
    obtain ⟨hlen, hfee, happ, hsig⟩ := specFinalize_ok hok
    have h0 := hB.2.1 (by omega)
    have h53 := hB.2.2 (by omega)
    refine ⟨rfl, hlen, h0, h53, hfee, ?_, ?_⟩
    · rwa [txParserConsume_parsed (txParserConsume_done hlen h0 h53)]
    · rwa [sumBlake3Hash_eq]

/-- What you sign is what you approved: along every run from power-on, a signing command
answered `0x9000` with data is a last chunk (P2 = 0x00) that ends the session opened by the
most recent first chunk; every earlier command of that session is a continuation answered
`0x9000` with nothing; and the data is the signature, by that first chunk's path, of the
one-shot digest of the session's bytes, an approved Transfer. -/
theorem runApdus_signature_approved (H : Blake3) (cmds : List (Env × Apdu)) (env : Env)
    (apdu : Apdu) (reply : Reply) (hsign : apdu.isSign = true)
    (hrun : (apduDispatch H env apdu (runApdus H powerOn cmds).1).1 = reply)
    (hok : reply.sw = swOk) (hne : reply.response ≠ []) :
    apdu.p2 = p2LastChunk ∧
      ∃ first rest, lastSession (runApdus H powerOn (cmds ++ [(env, apdu)])).2 = some (first, rest) ∧
        (first :: rest).getLast? = some (apdu, reply) ∧ (∀ x ∈ rest, x.1.p1 = p1MoreChunk) ∧
        (∀ x ∈ (first :: rest).dropLast, x.2 = ⟨swOk, []⟩) ∧
        ApprovedTransfer H env (chunkPath first.1).2 (sessionBytes first.1 rest) reply.response := by
  obtain ⟨hc, hh⟩ := runApdus_history H cmds
  rw [runApdus_append, hrun]
  rw [(apduDispatch_sign H env hsign hc).1] at hrun
  rcases specSign_inv H env apdu _ hc.valid with ⟨sw, -, heq⟩ | ⟨path, B, -, hp2, hcase, heq⟩
  · rw [heq] at hrun; rw [← hrun] at hne; exact absurd rfl hne
  rw [heq] at hrun
  rw [← hrun] at hok hne
  obtain ⟨hmore, happ⟩ := specAccept_signature hok hne
  rw [hrun] at happ
  obtain ⟨first, rest, hl, hlast, hp, hok', rfl, rfl⟩ := lastSession_accept hh hsign hcase reply
  exact ⟨hp2.resolve_right fun h => by simp [h] at hmore, first, rest, hl, hlast, hp, hok', happ⟩

/-- The Transfer with every field zero. -/
def zeroTransfer : List UInt8 := 1 :: List.replicate 52 0 ++ 0 :: List.replicate 28 0

/-- A single last first chunk: path m/44' and the zero Transfer. -/
def hostSignChunk : Apdu :=
  ⟨claSumchain, insSignTx, p1FirstChunk, p2LastChunk, 87, encodePath [0x8000002C#32] ++ zeroTransfer,
    by decide⟩

theorem hostSignChunk_signature_approved :
    hostSignChunk.isSign = true ∧
      (apduDispatch zeroBlake3 hostEnv hostSignChunk (runApdus zeroBlake3 powerOn []).1).1 =
        ⟨swOk, List.replicate signatureLen 0xAA⟩ ∧
      (⟨swOk, List.replicate signatureLen 0xAA⟩ : Reply).sw = swOk ∧
      (⟨swOk, List.replicate signatureLen 0xAA⟩ : Reply).response ≠ [] ∧
      (hostSignChunk.p2 = p2LastChunk ∧
        ∃ first rest, lastSession (runApdus zeroBlake3 powerOn ([] ++ [(hostEnv, hostSignChunk)])).2 =
            some (first, rest) ∧
          (first :: rest).getLast? = some (hostSignChunk, ⟨swOk, List.replicate signatureLen 0xAA⟩) ∧
          (∀ x ∈ rest, x.1.p1 = p1MoreChunk) ∧
          (∀ x ∈ (first :: rest).dropLast, x.2 = ⟨swOk, []⟩) ∧
          ApprovedTransfer zeroBlake3 hostEnv (chunkPath first.1).2 (sessionBytes first.1 rest)
            (List.replicate signatureLen 0xAA)) :=
  have hsign : hostSignChunk.isSign = true := rfl
  have hrun : (apduDispatch zeroBlake3 hostEnv hostSignChunk (runApdus zeroBlake3 powerOn []).1).1 =
      ⟨swOk, List.replicate signatureLen 0xAA⟩ :=
    (apduDispatch_sign zeroBlake3 hostEnv hsign corr_powerOn).1.trans (by decide)
  have hne : List.replicate signatureLen (0xAA : UInt8) ≠ [] := by decide
  ⟨hsign, hrun, rfl, hne,
    runApdus_signature_approved zeroBlake3 [] hostEnv hostSignChunk _ hsign hrun rfl hne⟩

/-- `GET_VERSION` from power-on: `0x9000` with the three version bytes, from a command that
is not `INS_SIGN_TX`. -/
theorem getVersion_answers_data :
    (apduDispatch zeroBlake3 hostEnv ⟨claSumchain, insGetVersion, 0, 0, 0, [], rfl⟩ powerOn).1 =
      ⟨swOk, [1, 0, 0]⟩ ∧ insGetVersion ≠ insSignTx :=
  ⟨rfl, by decide⟩

/-! ## What a failed signature leaves -/

/-- What one command does to `G_state.signature` along a run from power-on: it keeps it,
zeroizes it, or it is a last chunk answered `0x6F00` that closes the transcript's last
session, and what it leaves is the output of the key primitive's failed call on that
session's path and bytes. -/
theorem runApdus_signature_step (H : Blake3) (cmds : List (Env × Apdu)) (env : Env)
    (apdu : Apdu) :
    (apduDispatch H env apdu (runApdus H powerOn cmds).1).2.signature =
        (runApdus H powerOn cmds).1.signature ∨
      (apduDispatch H env apdu (runApdus H powerOn cmds).1).2.signature =
        zeroBytes signatureLen ∨
      (apdu.p2 = p2LastChunk ∧
        (apduDispatch H env apdu (runApdus H powerOn cmds).1).1 = ⟨swInternalError, []⟩ ∧
        ∃ first rest,
          lastSession (runApdus H powerOn (cmds ++ [(env, apdu)])).2 = some (first, rest) ∧
          (first :: rest).getLast? = some (apdu, ⟨swInternalError, []⟩) ∧
          SigningFailed H env (chunkPath first.1).2 (sessionBytes first.1 rest)
            (apduDispatch H env apdu (runApdus H powerOn cmds).1).2.signature) := by
  obtain ⟨hc, hh⟩ := runApdus_history H cmds
  cases hs : apdu.isSign
  · exact .inl (apduDispatch_not_sign H env hs _).2.2.1
  rw [runApdus_append, apduDispatch_of_isSign H env hs]
  refine (handleSignTx_step H env apdu hc).2.2.imp_right
    (Or.imp_right fun ⟨hp2, hr, path, B, hcase, hf⟩ => ⟨hp2, hr, ?_⟩)
  obtain ⟨first, rest, hl, hlast, -, -, rfl, rfl⟩ := lastSession_accept hh hs hcase _
  exact ⟨first, rest, hl, hr ▸ hlast, hf⟩

/-- Along every run from power-on, whatever the commands and the key primitives do,
`G_state.hash` ends all zero, and `G_state.signature` ends all zero unless some command of the
run was a last chunk answered `0x6F00` whose call to the key primitive, on the path and bytes
of the session it closed, failed: the signature is then that call's output, which the failure
branch of `handle_sign_tx` leaves in place. -/
theorem runApdus_buffers_cleared (H : Blake3) (cmds : List (Env × Apdu)) :
    (runApdus H powerOn cmds).1.hash = zeroBytes hashLen ∧
      ((runApdus H powerOn cmds).1.signature = zeroBytes signatureLen ∨
        ∃ pre env apdu post, cmds = pre ++ (env, apdu) :: post ∧ apdu.p2 = p2LastChunk ∧
          (apduDispatch H env apdu (runApdus H powerOn pre).1).1 = ⟨swInternalError, []⟩ ∧
          ∃ first rest,
            lastSession (runApdus H powerOn (pre ++ [(env, apdu)])).2 = some (first, rest) ∧
            (first :: rest).getLast? = some (apdu, ⟨swInternalError, []⟩) ∧
            SigningFailed H env (chunkPath first.1).2 (sessionBytes first.1 rest)
              (runApdus H powerOn cmds).1.signature) := by
  refine ⟨(runApdus_history H cmds).1.hash, ?_⟩
  induction cmds using List.reverseRecOn with
  | nil => exact .inl rfl
  | append_singleton cmds c ih =>
    obtain ⟨env, apdu⟩ := c
    rw [runApdus_append]
    rcases runApdus_signature_step H cmds env apdu with hkeep | hzero | ⟨hp2, hr, hfail⟩
    · rw [hkeep]
      exact ih.imp_right fun ⟨pre, env', apdu', post, hcmds, hrest⟩ =>
        ⟨pre, env', apdu', post ++ [(env, apdu)], by rw [hcmds]; simp, hrest⟩
    · exact .inl hzero
    · exact .inr ⟨cmds, env, apdu, [], rfl, hp2, hr, hfail⟩

/-! ## Every split signs -/

/-- A prefix of a Transfer prefix is one. -/
theorem transferPrefix_of_append {B C : List UInt8} (h : TransferPrefix (B ++ C)) :
    TransferPrefix B := by
  obtain ⟨hl, hv, ht⟩ := h
  rw [List.length_append] at hl hv ht
  have hget {i : Nat} (hi : i < B.length) : (B ++ C).getD i 0 = B.getD i 0 := by
    rw [List.getD_eq_getElem?_getD, List.getElem?_append_left hi, ← List.getD_eq_getElem?_getD]
  exact ⟨by omega, fun h0 => hget h0 ▸ hv (by omega), fun h53 => hget h53 ▸ ht (by omega)⟩

/-- The P2 bytes of a command sequence that streams and then ends are each `0x00` or `0x80`. -/
theorem p2_of_mem_streamEnd {x : UInt8} {n : Nat}
    (h : x ∈ List.replicate n p2MoreChunks ++ [p2LastChunk]) :
    x = p2LastChunk ∨ x = p2MoreChunks := by
  rcases List.mem_append.mp h with h | h
  · exact .inr (List.mem_replicate.mp h).2
  · exact .inl (List.mem_singleton.mp h)

section Steps

variable (H : Blake3) (env : Env)

theorem specAccept_more {path : Bip32Path} {B : List UInt8} (hB : TransferPrefix B) :
    specAccept H env true path B = (⟨swOk, []⟩, .streaming path B) := by
  rw [specAccept, if_neg (not_not.mpr hB), if_pos rfl]

theorem specAccept_last {path : Bip32Path} {B : List UInt8} (hB : TransferPrefix B) :
    specAccept H env false path B = (specFinalize H env path B, .idle) := by
  rw [specAccept, if_neg (not_not.mpr hB), if_neg Bool.false_ne_true]

/-- The last chunk of an approved Transfer with a 64-bit fee, when the key primitive succeeds:
`0x9000` with the signature. -/
theorem specFinalize_approved {path : Bip32Path} {T : List UInt8} (hT : T.length = 82)
    (hfee : transferFee T < 2 ^ 64)
    (happ : env.showApproval (txDisplayFormat (decodeTransfer T)).2 = .approved)
    (hkey : (cryptoSignHash env.toKeyDevice path (H.digest T)).1 = true) :
    specFinalize H env path T = ⟨swOk, (cryptoSignHash env.toKeyDevice path (H.digest T)).2⟩ := by
  rw [specFinalize, if_neg (not_not.mpr hT), if_neg (not_le.mpr hfee),
    if_neg (not_not.mpr happ), if_pos hkey]

/-- A continuation with P2 `0x00` or `0x80` appends its data to an open session. -/
theorem specSign_continuation {apdu : Apdu} (hp1 : apdu.p1 = p1MoreChunk)
    (hp2 : apdu.p2 = p2LastChunk ∨ apdu.p2 = p2MoreChunks) (path : Bip32Path) (B : List UInt8) :
    specSign H env apdu (.streaming path B) =
      specAccept H env (apdu.p2 == p2MoreChunks) path (B ++ apdu.data) := by
  unfold specSign
  rw [if_neg (by rw [hp1]; rintro (⟨-, h⟩ | ⟨h, h'⟩) <;> simp_all), if_neg (by rw [hp1]; decide)]

/-- A first chunk whose path reads back valid starts over, in any state, from the bytes after
the path. -/
theorem specSign_firstChunk {apdu : Apdu} (hfirst : apdu.isFirstChunk = true)
    (hp2 : apdu.p2 = p2LastChunk ∨ apdu.p2 = p2MoreChunks) (h0 : apdu.lc ≠ 0)
    (hpath : (chunkPath apdu).1 ≠ 0) (hv : cryptoValidatePath (chunkPath apdu).2 = true)
    (s : SessionSpec) :
    specSign H env apdu s =
      specAccept H env (apdu.p2 == p2MoreChunks) (chunkPath apdu).2
        (apdu.data.drop (chunkPath apdu).1) := by
  have hp1 : apdu.p1 = p1FirstChunk := by
    simp only [Apdu.isFirstChunk, Bool.and_eq_true, beq_iff_eq] at hfirst; exact hfirst.2
  unfold specSign
  rw [if_neg (by rw [hp1]; rintro (⟨h, -⟩ | ⟨h, h'⟩) <;> simp_all), if_pos hp1,
    if_neg h0, if_neg (by simp [hpath, hv])]

theorem specRun_cons_of_isSign {apdu : Apdu} (h : apdu.isSign = true) (s : SessionSpec)
    (cmds : List (Env × Apdu)) :
    (specRun H s ((env, apdu) :: cmds)).2 =
      (specSign H env apdu s).1 :: (specRun H (specSign H env apdu s).2 cmds).2 := by
  simp [specRun, h]

/-- Bytes `B₀` accepted under P2 `p2₀`, then continuations completing them to the Transfer `T`,
with P2 = 0x80 on every command but the last: each command but the last is answered `0x9000`
with nothing, and the last ends the session with `specFinalize` on `T`. -/
theorem specAccept_continuations {path : Bip32Path} {T : List UInt8} (hT : TransferPrefix T)
    (conts : List Apdu) (hconts : ∀ a ∈ conts, a.isSign = true ∧ a.p1 = p1MoreChunk) :
    ∀ (B₀ : List UInt8) (p2₀ : UInt8),
      p2₀ :: conts.map Apdu.p2 = List.replicate conts.length p2MoreChunks ++ [p2LastChunk] →
      B₀ ++ (conts.map Apdu.data).flatten = T →
      (specAccept H env (p2₀ == p2MoreChunks) path B₀).1 ::
          (specRun H (specAccept H env (p2₀ == p2MoreChunks) path B₀).2
            (conts.map fun a => (env, a))).2 =
        List.replicate conts.length ⟨swOk, []⟩ ++ [specFinalize H env path T] := by
  induction conts with
  | nil =>
    intro B₀ p2₀ hp2 hB
    obtain rfl : p2₀ = p2LastChunk := by simpa using hp2
    obtain rfl : B₀ = T := by simpa using hB
    rw [show (p2LastChunk == p2MoreChunks) = false from rfl, specAccept_last H env hT]
    rfl
  | cons c conts ih =>
    intro B₀ p2₀ hp2 hB
    obtain ⟨hcs, hc1⟩ := hconts c (List.mem_cons_self _ _)
    simp only [List.map_cons, List.length_cons, List.replicate_succ, List.cons_append,
      List.cons.injEq] at hp2
    obtain ⟨rfl, hp2⟩ := hp2
    have hc2 := p2_of_mem_streamEnd (hp2 ▸ List.mem_cons_self _ _)
    rw [List.map_cons, List.flatten_cons, ← List.append_assoc] at hB
    have hB₀ : TransferPrefix B₀ := transferPrefix_of_append (transferPrefix_of_append (hB ▸ hT))
    rw [show (p2MoreChunks == p2MoreChunks) = true from rfl, specAccept_more H env hB₀,
      List.map_cons, specRun_cons_of_isSign H env hcs, specSign_continuation H env hc1 hc2,
      ih (fun a ha => hconts a (List.mem_cons_of_mem _ ha)) _ _ hp2 hB]
    rfl

end Steps

/-- The signing commands of a transcript made only of them are all its replies. -/
theorem signReplies_of_isSign {t : List (Apdu × Reply)} (h : ∀ x ∈ t, x.1.isSign = true) :
    signReplies t = t.map Prod.snd := by
  induction t with
  | nil => rfl
  | cons x t ih =>
    rw [signReplies, List.filterMap_cons, if_pos (h x (List.mem_cons_self _ _))]
    exact congrArg _ (ih fun y hy => h y (List.mem_cons_of_mem _ hy))

/-- Every valid transaction can be signed under every chunking, with the same result: from any
reachable state, a valid path and a Transfer `T` with a 64-bit fee, sent as a first chunk
carrying the path's encoding and `c0`, then continuations, with P2 = 0x80 on all but the last
command, `T` split anywhere among them, while the user approves `T` and the key primitive
succeeds: every command but the last is answered `0x9000` with nothing, and the last `0x9000`
with the signature of the digest of `T` under the path. -/
theorem runApdus_signs_any_split (H : Blake3) {st : AppState} (hst : AppReachable H st)
    (env : Env) {p : Bip32Path} (hp : cryptoValidatePath p = true) {T : List UInt8}
    (hT : T.length = 82) (h0 : T.getD 0 0 = 1) (h53 : T.getD 53 0 = 0)
    (hfee : transferFee T < 2 ^ 64)
    (happ : env.showApproval (txDisplayFormat (txParserConsume txParserInit T).1.parsed).2 =
      .approved)
    (hkey : (cryptoSignHash env.toKeyDevice p (sumBlake3Hash H T (zeroBytes hashLen))).1 = true)
    (first : Apdu) (conts : List Apdu) (c0 : List UInt8) (hfirst : first.isFirstChunk = true)
    (hdata : first.data = encodePath p.components ++ c0)
    (hconts : ∀ a ∈ conts, a.isSign = true ∧ a.p1 = p1MoreChunk)
    (hp2 : (first :: conts).map Apdu.p2 =
      List.replicate conts.length p2MoreChunks ++ [p2LastChunk])
    (hsplit : c0 ++ (conts.map Apdu.data).flatten = T) :
    (runApdus H st ((first :: conts).map fun a => (env, a))).2.map Prod.snd =
      List.replicate conts.length ⟨swOk, []⟩ ++
        [⟨swOk, (cryptoSignHash env.toKeyDevice p (sumBlake3Hash H T (zeroBytes hashLen))).2⟩] := by
  obtain ⟨a, hc⟩ := hst.corr
  have hsign : first.isSign = true := by
    simp only [Apdu.isFirstChunk, Bool.and_eq_true] at hfirst; exact hfirst.1
  have hall : ∀ x ∈ (runApdus H st ((first :: conts).map fun a => (env, a))).2,
      x.1.isSign = true := fun x hx => by
    have hx' := List.mem_map_of_mem Prod.fst hx
    rw [runApdus_fst, List.map_map] at hx'
    rcases List.mem_cons.mp (List.map_id (first :: conts) ▸ hx') with h | h
    · rw [h]; exact hsign
    · exact (hconts _ h).1
  obtain ⟨-, hrep, -⟩ := runApdus_corr H hc ((first :: conts).map fun a => (env, a))
  rw [← signReplies_of_isSign hall, hrep]
  obtain ⟨hpl, hv, hpc⟩ := chunkPath_encodePath hp hdata
  have hdrop : first.data.drop (chunkPath first).1 = c0 := by
    rw [hdata, hpl, List.drop_left' (length_encodePath _)]
  have hlc : first.lc ≠ 0 := fun h => by
    have := first.data_length
    rw [hdata, h, List.length_append, length_encodePath] at this
    simp at this
  have hTp : TransferPrefix T := ⟨hT.le, fun _ => h0, fun _ => h53⟩
  have hsig : cryptoSignHash env.toKeyDevice (chunkPath first).2 (H.digest T) =
      cryptoSignHash env.toKeyDevice p (H.digest T) := by
    simp only [cryptoSignHash, hpc]
  rw [txParserConsume_parsed (txParserConsume_done hT h0 h53)] at happ
  rw [sumBlake3Hash_eq] at hkey ⊢
  have hf2 := p2_of_mem_streamEnd (hp2 ▸ List.mem_map_of_mem Apdu.p2 (List.mem_cons_self _ _))
  rw [List.map_cons, specRun_cons_of_isSign H env hsign,
    specSign_firstChunk H env hfirst hf2 hlc (by rw [hpl]; omega) hv, hdrop,
    specAccept_continuations H env hTp conts hconts c0 first.p2 hp2 hsplit,
    specFinalize_approved H env hT hfee happ (hsig ▸ hkey), hsig]

/-- A first chunk with P2 = 0x80: path m/44' and the first 20 bytes of a Transfer. -/
def hostOpenChunk : Apdu :=
  ⟨claSumchain, insSignTx, p1FirstChunk, p2MoreChunks, 25,
    encodePath [0x8000002C#32] ++ sampleTransfer.take 20, by decide⟩

/-- The sample Transfer split over three commands: a first chunk carrying path m/44' and the
first 40 bytes, then continuations of 30 and 12 bytes. -/
def hostSplitChunks : List Apdu :=
  [⟨claSumchain, insSignTx, p1FirstChunk, p2MoreChunks, 45,
      encodePath [0x8000002C#32] ++ sampleTransfer.take 40, by decide⟩,
    ⟨claSumchain, insSignTx, p1MoreChunk, p2MoreChunks, 30, (sampleTransfer.drop 40).take 30,
      by decide⟩,
    ⟨claSumchain, insSignTx, p1MoreChunk, p2LastChunk, 12, sampleTransfer.drop 70, by decide⟩]

/-- The split sample Transfer, sent while another session is open. -/
theorem hostSplitChunks_sign :
    (runApdus zeroBlake3 (apduDispatch zeroBlake3 hostEnv hostOpenChunk powerOn).2
        (hostSplitChunks.map fun a => (hostEnv, a))).2.map Prod.snd =
      List.replicate 2 ⟨swOk, []⟩ ++
        [⟨swOk, (cryptoSignHash hostEnv.toKeyDevice hostPath
          (sumBlake3Hash zeroBlake3 sampleTransfer (zeroBytes hashLen))).2⟩] :=
  @runApdus_signs_any_split zeroBlake3 _ (.dispatch hostEnv hostOpenChunk .powerOn) hostEnv
    hostPath (by decide) sampleTransfer rfl rfl rfl (by decide) rfl rfl
    (hostSplitChunks.head (List.cons_ne_nil _ _)) hostSplitChunks.tail (sampleTransfer.take 40)
    rfl rfl (by decide) rfl rfl

/-! ## The device build never signs -/

/-- A signing command answers with data only from `specFinalize`, after an approval. -/
theorem specSign_response_approved {H : Blake3} {env : Env} {apdu : Apdu} {a : SessionSpec}
    (h : (specSign H env apdu a).1.response ≠ []) : ∃ d, env.showApproval d = .approved := by
  have hfin (path : Bip32Path) (B : List UInt8) (hne : (specFinalize H env path B).response ≠ []) :
      ∃ d, env.showApproval d = .approved :=
    ⟨(txDisplayFormat (decodeTransfer B)).2, by_contra fun hno =>
      hne (by rw [specFinalize, if_pos hno]; split_ifs <;> rfl)⟩
  have hacc (isMore : Bool) (path : Bip32Path) (B : List UInt8)
      (hne : (specAccept H env isMore path B).1.response ≠ []) :
      ∃ d, env.showApproval d = .approved := by
    unfold specAccept at hne
    split_ifs at hne <;> first | exact absurd rfl hne | exact hfin _ _ hne
  unfold specSign at h
  repeat' split at h
  all_goals first | exact absurd (by with_reducible rfl) h | exact hacc _ _ _ h

theorem txDisplayShowApproval_ne_approved (d : TxDisplay) : txDisplayShowApproval d ≠ .approved := by
  unfold txDisplayShowApproval; split <;> decide

/-- With no approval possible, the abstract machine answers every command with no data. -/
theorem specRun_response_nil (H : Blake3) (cmds : List (Env × Apdu))
    (hno : ∀ c ∈ cmds, ∀ d, c.1.showApproval d ≠ .approved) (s : SessionSpec) :
    ∀ r ∈ (specRun H s cmds).2, r.response = [] := by
  induction cmds generalizing s with
  | nil => exact fun r hr => absurd hr (List.not_mem_nil r)
  | cons c cmds ih =>
    obtain ⟨env, apdu⟩ := c
    have ih' := ih (fun c hc => hno c (List.mem_cons_of_mem _ hc))
    cases hs : apdu.isSign
    · simpa [specRun, hs] using ih' s
    · rw [specRun_cons_of_isSign H env hs]
      rintro r (_ | ⟨_, hr⟩)
      · by_contra hne
        obtain ⟨d, hd⟩ := specSign_response_approved hne
        exact hno _ (List.mem_cons_self _ _) d hd
      · exact ih' _ r hr

/-- The device build never returns a signature: `tx_display_show_approval` returns before the
user can answer, with `UI_RESULT_NONE` or, for an `Overflow` fee, `UI_RESULT_REJECTED`. Along
every run from power-on in which every command runs on the device build, whatever its key
primitives do, every `INS_SIGN_TX` command is answered with no data. -/
theorem runApdus_device_never_signs (H : Blake3) (cmds : List (Env × Apdu))
    (hdev : ∀ c ∈ cmds, c.1.showApproval = txDisplayShowApproval) :
    ∀ x ∈ (runApdus H powerOn cmds).2, x.1.isSign = true → x.2.response = [] := by
  intro x hx hs
  obtain ⟨-, hrep, -⟩ := runApdus_corr H corr_powerOn cmds
  have hmem : x.2 ∈ signReplies (runApdus H powerOn cmds).2 :=
    List.mem_filterMap.mpr ⟨x, hx, by rw [if_pos hs]⟩
  rw [hrep] at hmem
  refine specRun_response_nil H cmds (fun c hc d => ?_) .idle _ hmem
  rw [hdev c hc]
  exact txDisplayShowApproval_ne_approved d

/-- The zero Transfer in one chunk on the device build: its transcript entry carries no data. -/
theorem hostSignChunk_device_never_signs :
    ((hostSignChunk, (apduDispatch zeroBlake3 (deviceEnv hostKeyDevice) hostSignChunk powerOn).1) :
      Apdu × Reply).2.response = [] :=
  runApdus_device_never_signs zeroBlake3 [(deviceEnv hostKeyDevice, hostSignChunk)]
    (List.forall_mem_singleton.mpr rfl)
    (hostSignChunk, (apduDispatch zeroBlake3 (deviceEnv hostKeyDevice) hostSignChunk powerOn).1)
    (List.mem_singleton_self _) (show hostSignChunk.isSign = true from rfl)

end SumChainLedger
