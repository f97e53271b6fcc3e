import Mathlib.Logic.Function.Basic
import WslDrive.Agent.Session
import WslDrive.Core.RoundTrip
import WslDrive.Lib.Exec

/-!
# The mutual handshake

Any number of client connections and server sessions share one token and talk through a network
that an adversary controls: it sees every message, and it decides which frame reaches whom and
when.  It may put anything into a frame except a proof for the shared token that no honest party
has sent; this is what `Derivable` says.  Nonces are whatever the random source returned.

Along a run the system keeps a history of what the parties did, latest first.

* `Handshake.Inv` — every entry of the history is justified by an older one;
* `Handshake.Greeted` — a client run uses no nonce but the one it was started with;
* `Handshake.mutual_agreement` — a session is authenticated only for a pair of nonces for which a
  client has checked a server proof and then sent its own, and a client proves itself or connects
  only for its own nonce and a server nonce for which a server sent its proof.
-/

namespace WslDrive

namespace Handshake

open Proto Auth

/-- A hash function in the symbolic model: distinct inputs have distinct digests, none empty. -/
structure SymbolicHash where
  hash : Bytes → Bytes
  injective : Function.Injective hash
  nonempty : ∀ b, hash b ≠ []

/-! ### The connecting client -/

/-- Where a call of `RemoteRoot::connect` with a token stands. -/
inductive Phase where
  | idle
  /-- `Hello` was sent with this nonce. -/
  | greeting (clientNonce : Bytes)
  /-- The proof of the agent was right, and `Auth` was sent. -/
  | proving (clientNonce serverNonce : Bytes)
  | connected (clientNonce serverNonce : Bytes)
  | failed (err : Errc)
  deriving DecidableEq, Repr

variable (hash : Bytes → Bytes) (token agent : Bytes)

/-- `connect` up to its first request: the next phase and the message sent. -/
def connectStart (nonce : Bytes) : Phase × Option Hello :=
  if nonce = [] then (.failed .ioError, none)
  else (.greeting nonce, some { agent, nonce })

/-- `connect` from the reply to one of its requests to the next request or to its end. -/
def connectReply (phase : Phase) (reply : Except Errc Frame) : Phase × Option Hello :=
  match phase, reply with
  | .greeting _, .error e => (.failed e, none)
  | .greeting clientNonce, .ok f =>
    if MsgType.ofCode f.header.type ≠ some .helloAck then (.failed .protocolError, none)
    else
      match readHello.run f.payload with
      | .error e _ => (.failed e, none)
      | .ok ack _ =>
        let expected := authProof hash token clientNonce ack.nonce true
        if !constantTimeEqual ack.proof expected then (.failed .unauthorized, none)
        else (.proving clientNonce ack.nonce,
          some { proof := authProof hash token clientNonce ack.nonce false })
  | .proving _ _, .error e => (.failed e, none)
  | .proving clientNonce serverNonce, .ok f =>
    if MsgType.ofCode f.header.type ≠ some .ok then (.failed .unauthorized, none)
    else (.connected clientNonce serverNonce, none)
  | phase, _ => (phase, none)

/-! ### The system -/

/-- What the parties did. -/
inductive Entry where
  /-- Session `i` sent the server proof for a pair of nonces. -/
  | serverProof (i : ℕ) (cn sn : Bytes)
  /-- Client run `j` found the server proof for the pair right. -/
  | clientChecked (j : ℕ) (cn sn : Bytes)
  /-- Client run `j` sent the client proof for the pair, in an `Auth` frame. -/
  | clientProof (j : ℕ) (cn sn : Bytes)
  /-- Session `i` became authenticated with this pair as its nonces. -/
  | serverAuthed (i : ℕ) (cn sn : Bytes)
  /-- `connect` succeeded in client run `j`. -/
  | connected (j : ℕ) (cn sn : Bytes)
  deriving DecidableEq, Repr

/-- All sessions and all client runs, with what was sent and what happened. -/
structure Sys where
  server : ℕ → Session.State
  client : ℕ → Phase
  /-- The handshake messages that honest parties have sent. -/
  wire : List Hello
  history : List Entry

/-- What can happen next; the network chooses. -/
inductive Action where
  /-- Client run `j` starts, with a nonce from its random source. -/
  | connect (j : ℕ) (nonce : Bytes)
  /-- Client run `j` gets a reply, or none in time. -/
  | reply (j : ℕ) (reply : Except Errc Frame)
  /-- Session `i` gets a frame, or none. -/
  | deliver (i : ℕ) (e : Session.Event)

/-- The adversary can make the frame: a proof for the token in it has been on the wire. -/
def Derivable (wire : List Hello) (f : Frame) : Prop :=
  ∀ msg rest, readHello.run f.payload = .ok msg rest →
    ∀ cn sn dir, msg.proof = authProof hash token cn sn dir → ∃ m ∈ wire, m.proof = msg.proof

/-- What a session's replies put on the wire. -/
def acks (out : List Session.Output) : List Hello :=
  out.filterMap fun
    | .reply _ (.helloAck msg) => some msg
    | _ => none

/-- What a session did in a step from `s` to `s'` with output `out`. -/
def sessionEntries (i : ℕ) (s s' : Session.State) (out : List Session.Output) : List Entry :=
  (if s'.authed && !s.authed then [.serverAuthed i s.hs.clientNonce s.hs.serverNonce] else []) ++
    (acks out).map fun msg => .serverProof i s'.hs.clientNonce msg.nonce

/-- What a client run did in a step from `p` to `p'`. -/
def clientEntries (j : ℕ) : Phase → Phase → List Entry
  | .greeting _, .proving cn sn => [.clientProof j cn sn, .clientChecked j cn sn]
  | .proving _ _, .connected cn sn => [.connected j cn sn]
  | _, _ => []

/-- Client run `j` goes on to its next phase. -/
def clientStep (sys : Sys) (j : ℕ) (next : Phase × Option Hello) : Sys where
  server := sys.server
  client := Function.update sys.client j next.1
  wire := next.2.toList ++ sys.wire
  history := clientEntries j (sys.client j) next.1 ++ sys.history

/-- Session `i` goes on to its next state. -/
def serverStep (sys : Sys) (i : ℕ) (next : Session.State × List Session.Output) : Sys where
  server := Function.update sys.server i next.1
  client := sys.client
  wire := acks next.2 ++ sys.wire
  history := sessionEntries i (sys.server i) next.1 next.2 ++ sys.history

/-- Every session has just been started and no client run has begun. -/
def initial : Sys where
  server := fun _ => (Session.start token false true).1
  client := fun _ => .idle
  wire := []
  history := []

/-- A step.  The network delivers what it can derive from what was sent. -/
inductive Step : Sys → Action → Sys → Prop
  | connect {sys : Sys} {j : ℕ} {nonce : Bytes} : sys.client j = .idle →
      Step sys (.connect j nonce) (clientStep sys j (connectStart agent nonce))
  | reply {sys : Sys} {j : ℕ} {reply : Except Errc Frame} :
      (∀ f, reply = .ok f → Derivable hash token sys.wire f) →
      Step sys (.reply j reply) (clientStep sys j (connectReply hash token (sys.client j) reply))
  | deliver {sys : Sys} {i : ℕ} {e : Session.Event} :
      (∀ f env, e = .frame f env → Derivable hash token sys.wire f) →
      Step sys (.deliver i e)
        (serverStep sys i (Session.step hash token agent (sys.server i) e))

/-- The sessions and client runs of one token. -/
def system : TransSys Sys Action where
  init sys := sys = initial token
  step := Step hash token agent

/-! ### The invariant -/

/-- What must be older than an entry of the history. -/
def Justified : Entry → List Entry → Prop
  | .serverProof _ _ _, _ => True
  | .clientChecked _ cn sn, older => ∃ i, .serverProof i cn sn ∈ older
  | .clientProof j cn sn, older => .clientChecked j cn sn ∈ older
  | .serverAuthed _ cn sn, older => ∃ j, .clientProof j cn sn ∈ older
  | .connected j cn sn, older => .clientProof j cn sn ∈ older

/-- Every entry is justified by what is older. -/
def AllJustified : List Entry → Prop
  | [] => True
  | e :: older => Justified e older ∧ AllJustified older

/-- What a message on the wire says about the history. -/
def Honest (history : List Entry) (m : Hello) : Prop :=
  m.proof = [] ∨ ∃ cn sn,
    (m.proof = authProof hash token cn sn true ∧ ∃ i, .serverProof i cn sn ∈ history) ∨
    (m.proof = authProof hash token cn sn false ∧ ∃ j, .clientProof j cn sn ∈ history)

/-- What the phase of client run `j` says about the history. -/
def PhaseOk (history : List Entry) (j : ℕ) : Phase → Prop
  | .proving cn sn => .clientProof j cn sn ∈ history
  | .connected cn sn => .connected j cn sn ∈ history
  | _ => True

/-- The invariant: what the history says has a reason in it. -/
structure Inv (sys : Sys) : Prop where
  justified : AllJustified sys.history
  wire : ∀ m ∈ sys.wire, Honest hash token sys.history m
  phase : ∀ j, PhaseOk sys.history j (sys.client j)
  authed : ∀ i, (sys.server i).authed = true → ∃ cn sn, .serverAuthed i cn sn ∈ sys.history

/-- The nonce a client run uses. -/
def Phase.nonce? : Phase → Option Bytes
  | .greeting cn | .proving cn _ | .connected cn _ => some cn
  | .idle | .failed _ => none

/-- After the actions `as`, client run `j` has used no nonce but the one it was started with. -/
structure Greeted (as : List Action) (sys : Sys) (j : ℕ) : Prop where
  idle : sys.client j = .idle → ∀ nonce, .connect j nonce ∉ as
  once : ∀ n n', .connect j n ∈ as → .connect j n' ∈ as → n = n'
  phase : ∀ cn ∈ (sys.client j).nonce?, .connect j cn ∈ as
  proof : ∀ cn sn, .clientProof j cn sn ∈ sys.history → .connect j cn ∈ as

variable {hash token agent} {sys : Sys}

theorem AllJustified.of_append {newer older : List Entry} {e : Entry}
    (h : AllJustified (newer ++ e :: older)) : Justified e older ∧ AllJustified older := by
  induction newer with
  | nil => exact h
  | cons _ _ ih => exact ih h.2

theorem AllJustified.of_mem {history : List Entry} (h : AllJustified history) {e : Entry}
    (he : e ∈ history) : ∃ older, (∃ newer, history = newer ++ e :: older) ∧ Justified e older ∧
      AllJustified older := by
  obtain ⟨newer, older, rfl⟩ := List.append_of_mem he
  exact ⟨older, ⟨newer, rfl⟩, h.of_append⟩

theorem Honest.mono {history : List Entry} {m : Hello} (h : Honest hash token history m)
    (new : List Entry) : Honest hash token (new ++ history) m := by
  rcases h with h | ⟨cn, sn, ⟨h, i, hi⟩ | ⟨h, j, hj⟩⟩
  · exact .inl h
  · exact .inr ⟨cn, sn, .inl ⟨h, i, List.mem_append_right _ hi⟩⟩
  · exact .inr ⟨cn, sn, .inr ⟨h, j, List.mem_append_right _ hj⟩⟩

theorem PhaseOk.mono {history : List Entry} {j : ℕ} {p : Phase} (h : PhaseOk history j p)
    (new : List Entry) : PhaseOk (new ++ history) j p := by
  cases p with
  | proving cn sn => exact List.mem_append_right _ h
  | connected cn sn => exact List.mem_append_right _ h
  | idle => trivial
  | greeting cn => trivial
  | failed e => trivial

section Proofs

variable {H : SymbolicHash}

/-- A proof for the token in a frame the adversary can make was sent by an honest party. -/
theorem Derivable.sent (hinv : Inv H.hash token sys) {f : Frame}
    (h : Derivable H.hash token sys.wire f) {msg : Hello} {rest : Bytes}
    (hread : readHello.run f.payload = .ok msg rest) {cn sn : Bytes} {dir : Bool}
    (hproof : msg.proof = authProof H.hash token cn sn dir) :
    if dir then ∃ i, .serverProof i cn sn ∈ sys.history
      else ∃ j, .clientProof j cn sn ∈ sys.history := by
  obtain ⟨m, hm, hmp⟩ := h msg rest hread cn sn dir hproof
  rw [hproof] at hmp
  -- Injectivity: the message on the wire was made for this direction and these nonces.
  rcases hinv.wire m hm with h0 | ⟨cn', sn', ⟨hp, hi⟩ | ⟨hp, hj⟩⟩
  · exact absurd (hmp.symm.trans h0) (H.nonempty _)
  · obtain ⟨rfl, -, rfl, rfl⟩ := authProof_injective H.injective (hmp.symm.trans hp)
    exact hi
  · obtain ⟨rfl, -, rfl, rfl⟩ := authProof_injective H.injective (hmp.symm.trans hp)
    exact hj

theorem inv_initial (htoken : token ≠ []) : Inv hash token (initial token) where
  justified := trivial
  wire m hm := by simp [initial] at hm
  phase j := trivial
  authed i h := by simp [initial, Session.start, htoken] at h

/-- A step of a client run: what it adds to the history is justified, its message is honest, and
its phase says what it should. -/
theorem Inv.clientStep (hinv : Inv hash token sys) (j : ℕ) (next : Phase × Option Hello)
    (hjust : AllJustified (clientEntries j (sys.client j) next.1 ++ sys.history))
    (hsent : ∀ m ∈ next.2, Honest hash token
      (clientEntries j (sys.client j) next.1 ++ sys.history) m)
    (hphase : PhaseOk (clientEntries j (sys.client j) next.1 ++ sys.history) j next.1) :
    Inv hash token (clientStep sys j next) where
  justified := hjust
  wire m hm := by
    rcases List.mem_append.1 hm with hm | hm
    · exact hsent m (by simpa using hm)
    · exact (hinv.wire m hm).mono _
  phase k := by
    by_cases hk : k = j
    · subst hk
      simpa [Handshake.clientStep] using hphase
    · simpa [Handshake.clientStep, hk] using (hinv.phase k).mono _
  authed i hi := by
    obtain ⟨cn, sn, h⟩ := hinv.authed i hi
    exact ⟨cn, sn, List.mem_append_right _ h⟩

theorem Inv.connect (hinv : Inv hash token sys) {j : ℕ} (hidle : sys.client j = .idle)
    (nonce : Bytes) : Inv hash token (Handshake.clientStep sys j (connectStart agent nonce)) := by
  have hnone : ∀ p, clientEntries j (sys.client j) p = [] := by simp [hidle, clientEntries]
  apply hinv.clientStep
  · simpa [hnone] using hinv.justified
  · intro m hm
    unfold connectStart at hm
    split_ifs at hm
    · simp at hm
    · obtain rfl : _ = m := by simpa using hm
      exact .inl rfl
  · unfold connectStart
    split_ifs <;> trivial

theorem connectReply_cases (hash : Bytes → Bytes) (token : Bytes) (p : Phase)
    (reply : Except Errc Frame) :
    (∃ cn f ack rest, p = .greeting cn ∧ reply = .ok f ∧ readHello.run f.payload = .ok ack rest ∧
      ack.proof = authProof hash token cn ack.nonce true ∧
      connectReply hash token p reply = (.proving cn ack.nonce,
        some { proof := authProof hash token cn ack.nonce false })) ∨
    (∃ cn sn, p = .proving cn sn ∧ connectReply hash token p reply = (.connected cn sn, none)) ∨
    ((connectReply hash token p reply).2 = none ∧
      ((∃ e, (connectReply hash token p reply).1 = .failed e) ∨
        (connectReply hash token p reply).1 = p)) := by
  cases p with
  | idle => exact .inr (.inr ⟨rfl, .inr rfl⟩)
  | connected cn sn => exact .inr (.inr ⟨rfl, .inr rfl⟩)
  | failed e => exact .inr (.inr ⟨rfl, .inr rfl⟩)
  | proving cn sn =>
    cases reply with
    | error e => exact .inr (.inr ⟨rfl, .inl ⟨e, rfl⟩⟩)
    | ok f =>
      by_cases ht : MsgType.ofCode f.header.type = some .ok
      · exact .inr (.inl ⟨cn, sn, rfl, by simp [connectReply, ht]⟩)
      · exact .inr (.inr (by simp [connectReply, ht]))
  | greeting cn =>
    cases reply with
    | error e => exact .inr (.inr ⟨rfl, .inl ⟨e, rfl⟩⟩)
    | ok f =>
      by_cases ht : MsgType.ofCode f.header.type = some .helloAck
      · cases hr : readHello.run f.payload with
        | error e rest => exact .inr (.inr (by simp [connectReply, ht, hr]))
        | ok ack rest =>
          by_cases hp : ack.proof = authProof hash token cn ack.nonce true
          · have hct := (constantTimeEqual_iff _ _).2 hp
            exact .inl ⟨cn, f, ack, rest, rfl, rfl, hr, hp, by simp [connectReply, ht, hr, hct]⟩
          · have hct := mt (constantTimeEqual_iff _ _).1 hp
            exact .inr (.inr (by simp [connectReply, ht, hr, hct]))
      · exact .inr (.inr (by simp [connectReply, ht]))

theorem Inv.reply (hinv : Inv H.hash token sys) (j : ℕ) {reply : Except Errc Frame}
    (hder : ∀ f, reply = .ok f → Derivable H.hash token sys.wire f) :
    Inv H.hash token
      (Handshake.clientStep sys j (connectReply H.hash token (sys.client j) reply)) := by
  rcases connectReply_cases H.hash token (sys.client j) reply with
    ⟨cn, f, ack, rest, hp, hrep, hread, hproof, hnext⟩ | ⟨cn, sn, hp, hnext⟩ | ⟨hnone, hnext⟩
  · -- The proof of the agent was right: some session has sent it, and the run sends its own.
    have hsent := (hder f hrep).sent hinv hread hproof
    rw [hnext]
    apply hinv.clientStep
    · simp only [hp, clientEntries, List.cons_append, List.nil_append]
      exact ⟨List.mem_cons_self, by simpa [Justified] using hsent, hinv.justified⟩
    · intro m hm
      obtain rfl : _ = m := by simpa using hm
      exact .inr ⟨cn, ack.nonce, .inr ⟨rfl, j, by simp [hp, clientEntries]⟩⟩
    · simp [hp, clientEntries, PhaseOk]
  · have hphase := hinv.phase j
    rw [hp] at hphase
    rw [hnext]
    apply hinv.clientStep
    · simp only [hp, clientEntries, List.cons_append, List.nil_append]
      exact ⟨hphase, hinv.justified⟩
    · simp
    · simp [hp, clientEntries, PhaseOk]
  · have hentries : clientEntries j (sys.client j)
        (connectReply H.hash token (sys.client j) reply).1 = [] := by
      rcases hnext with ⟨e, he⟩ | he <;> rw [he] <;> cases sys.client j <;> rfl
    apply hinv.clientStep
    · simpa [hentries] using hinv.justified
    · simp [hnone]
    · rw [hentries]
      rcases hnext with ⟨e, he⟩ | he
      · rw [he]
        trivial
      · rw [he]
        exact hinv.phase j

theorem Inv.deliver (htoken : token ≠ []) (hinv : Inv H.hash token sys) (i : ℕ)
    {e : Session.Event} (hder : ∀ f env, e = .frame f env → Derivable H.hash token sys.wire f) :
    Inv H.hash token
      (serverStep sys i (Session.step H.hash token agent (sys.server i) e)) := by
  set s := sys.server i with hs
  set next := Session.step H.hash token agent s e with hnext
  have hacks : ∀ m ∈ acks next.2,
      m.proof = authProof H.hash token next.1.hs.clientNonce m.nonce true := by
    intro m hm
    obtain ⟨o, ho, hom⟩ := List.mem_filterMap.1 hm
    obtain ⟨id, rfl⟩ : ∃ id, o = .reply id (.helloAck m) := by
      cases o with
      | joined => cases hom
      | reply id r => cases r <;> cases hom; exact ⟨id, rfl⟩
    rcases Session.step_cases s e with ⟨f, env, -, -, -, hhs, hmem⟩ | ⟨-, -, herr⟩
    · rw [hnext, hhs]
      exact Session.handle_helloAck htoken (hmem id _ ho)
    · obtain ⟨code, detail, h⟩ := herr id _ ho
      cases h
  have hauth : next.1.authed = true → s.authed = false →
      ∃ j, .clientProof j s.hs.clientNonce s.hs.serverNonce ∈ sys.history := by
    intro h1 h2
    rcases Session.step_cases s e with ⟨f, env, he, -, ha, -⟩ | ⟨ha, -⟩
    · rw [hnext, ha, h2] at h1
      obtain ⟨msg, rest, hread, hproof⟩ := Session.proof_of_authed htoken h1
      simpa using (hder f env he).sent hinv hread hproof
    · rw [hnext, ha, h2] at h1
      cases h1
  have hproofs : AllJustified
      ((acks next.2).map (fun m => .serverProof i next.1.hs.clientNonce m.nonce) ++
        sys.history) := by
    induction acks next.2 with
    | nil => exact hinv.justified
    | cons m ms ih => exact ⟨trivial, ih⟩
  refine ⟨?_, fun m hm => ?_, fun j => (hinv.phase j).mono _, fun k hk => ?_⟩
  · simp only [serverStep, sessionEntries, ← hs, List.append_assoc]
    split_ifs with hnew
    · obtain ⟨h1, h2⟩ := Bool.and_eq_true_iff.1 hnew
      obtain ⟨j, hj⟩ := hauth h1 (by simpa using h2)
      exact ⟨⟨j, by simp [hj]⟩, hproofs⟩
    · exact hproofs
  · rcases List.mem_append.1 hm with hm | hm
    · refine .inr ⟨_, m.nonce, .inl ⟨hacks m hm, i, ?_⟩⟩
      simp only [serverStep, sessionEntries, List.append_assoc]
      exact List.mem_append_right _ (List.mem_append_left _ (List.mem_map.2 ⟨m, hm, rfl⟩))
    · exact (hinv.wire m hm).mono _
  · by_cases hki : k = i ∧ s.authed = false
    · obtain ⟨rfl, ha⟩ := hki
      have hk' : next.1.authed = true := by simpa [serverStep] using hk
      exact ⟨s.hs.clientNonce, s.hs.serverNonce,
        by simp [serverStep, sessionEntries, ← hs, hk', ha]⟩
    · have hold : (sys.server k).authed = true := by
        by_cases hk' : k = i
        · subst hk'
          simpa [hs] using fun h => hki ⟨rfl, h⟩
        · simpa [serverStep, hk'] using hk
      obtain ⟨cn, sn, h⟩ := hinv.authed k hold
      exact ⟨cn, sn, List.mem_append_right _ h⟩

/-- What a reply leaves of a run's nonce, and which nonce the proof it sends is for. -/
theorem connectReply_nonce (hash : Bytes → Bytes) (token : Bytes) (p : Phase)
    (reply : Except Errc Frame) :
    (∀ cn ∈ (connectReply hash token p reply).1.nonce?, cn ∈ p.nonce?) ∧
    ((connectReply hash token p reply).1 = .idle → p = .idle) ∧
    ∀ j k cn sn, .clientProof j cn sn ∈ clientEntries k p (connectReply hash token p reply).1 →
      j = k ∧ cn ∈ p.nonce? := by
  rcases connectReply_cases hash token p reply with
    ⟨cn, f, ack, rest, rfl, -, -, -, hnext⟩ | ⟨cn, sn, rfl, hnext⟩ | ⟨-, ⟨e, hnext⟩ | hnext⟩
  · rw [hnext]
    simp +contextual [Phase.nonce?, clientEntries]
  · rw [hnext]
    simp [Phase.nonce?, clientEntries]
  · rw [hnext]
    cases p <;> simp [Phase.nonce?, clientEntries]
  · rw [hnext]
    cases p <;> simp [Phase.nonce?, clientEntries]

theorem clientProof_notMem_sessionEntries (i j : ℕ) (s s' : Session.State)
    (out : List Session.Output) (cn sn : Bytes) :
    .clientProof j cn sn ∉ sessionEntries i s s' out := by
  unfold sessionEntries
  split_ifs <;> simp

theorem Greeted.of_nonce {as : List Action} {a : Action} {sys' : Sys} {j : ℕ}
    (h : Greeted as sys j) (ha : ∀ n, a ≠ .connect j n)
    (hidle : sys'.client j = .idle → sys.client j = .idle)
    (hnonce : ∀ cn ∈ (sys'.client j).nonce?, cn ∈ (sys.client j).nonce?)
    (hproof : ∀ cn sn, .clientProof j cn sn ∈ sys'.history →
      .clientProof j cn sn ∈ sys.history ∨ cn ∈ (sys.client j).nonce?) :
    Greeted (as ++ [a]) sys' j := by
  have hmem : ∀ n, .connect j n ∈ as ++ [a] ↔ .connect j n ∈ as := by
    intro n
    simp [(ha n).symm]
  refine ⟨fun hi n => ?_, fun n n' hn hn' => ?_, fun cn hcn => ?_, fun cn sn hp => ?_⟩
  · rw [hmem]
    exact h.idle (hidle hi) n
  · rw [hmem] at hn hn'
    exact h.once n n' hn hn'
  · exact (hmem cn).2 (h.phase cn (hnonce cn hcn))
  · exact (hmem cn).2 ((hproof cn sn hp).elim (h.proof cn sn) (h.phase cn))

theorem Greeted.step {as : List Action} {a : Action} {sys' : Sys} {j : ℕ}
    (h : Greeted as sys j) (hstep : Step hash token agent sys a sys') :
    Greeted (as ++ [a]) sys' j := by
  cases hstep with
  | @connect k nonce hidle =>
    by_cases hk : k = j
    · -- The run starts: until now it had no nonce, and no proof was sent.
      subst hk
      have hmem : ∀ n, .connect k n ∈ as ++ [.connect k nonce] ↔ n = nonce := by
        simp [h.idle hidle]
      refine ⟨fun hi => ?_, fun n n' hn hn' => ?_, fun cn hcn => ?_, fun cn sn hp => ?_⟩
      · unfold connectStart at hi
        split_ifs at hi <;> simp [clientStep] at hi
      · rw [(hmem n).1 hn, (hmem n').1 hn']
      · rw [hmem]
        unfold connectStart at hcn
        split_ifs at hcn
        · simp [clientStep, Phase.nonce?] at hcn
        · simpa [clientStep, Phase.nonce?, eq_comm] using hcn
      · have hp : .clientProof k cn sn ∈ sys.history := by
          simpa [clientStep, hidle, clientEntries] using hp
        exact absurd (h.proof cn sn hp) (h.idle hidle cn)
    · have hk' : j ≠ k := Ne.symm hk
      refine h.of_nonce (by simp [hk]) ?_ ?_ fun cn sn hp => .inl ?_
      · simp [clientStep, hk']
      · simp [clientStep, hk']
      · simpa [clientStep, hidle, clientEntries] using hp
  | @reply k reply hder =>
    obtain ⟨hnonce, hidle, hproof⟩ := connectReply_nonce hash token (sys.client k) reply
    by_cases hk : k = j
    · subst hk
      refine h.of_nonce (by simp) (by simpa [clientStep] using hidle)
        (by simpa [clientStep] using hnonce) fun cn sn hp => ?_
      exact (List.mem_append.1 hp).symm.imp_right fun hp => (hproof k k cn sn hp).2
    · have hk' : j ≠ k := Ne.symm hk
      refine h.of_nonce (by simp) ?_ ?_ fun cn sn hp => .inl ?_
      · simp [clientStep, hk']
      · simp [clientStep, hk']
      · exact (List.mem_append.1 hp).resolve_left fun hp => hk' (hproof j k cn sn hp).1
  | @deliver i e hder =>
    refine h.of_nonce (by simp) id (fun _ => id) fun cn sn hp => .inl ?_
    exact (List.mem_append.1 hp).resolve_left (clientProof_notMem_sessionEntries i j _ _ _ cn sn)

theorem inv_of_exec (htoken : token ≠ []) {as : List Action}
    (h : (system H.hash token agent).Exec as sys) : Inv H.hash token sys := by
  refine h.invariant ?_ ?_
  · rintro _ rfl
    exact inv_initial htoken
  · rintro sys a sys' hinv hstep -
    cases hstep with
    | connect hidle => exact hinv.connect hidle _
    | reply hder => exact hinv.reply _ hder
    | deliver hder => exact hinv.deliver htoken _ hder

theorem greeted_of_exec {as : List Action} (h : (system hash token agent).Exec as sys) (j : ℕ) :
    Greeted as sys j := by
  induction h with
  | start h =>
    obtain rfl := h
    exact ⟨fun _ _ => List.not_mem_nil, fun _ _ h => absurd h List.not_mem_nil,
      fun _ h => absurd h (by simp [initial, Phase.nonce?]), fun _ _ h => absurd h List.not_mem_nil⟩
  | next _ hstep _ ih => exact ih.step hstep

/-- **Mutual agreement.**  In every run of clients and sessions that share a token:
* an authenticated session became so with a pair of nonces for which, before, some client run
  sent its proof, and that run had checked a server proof for the same pair before;
* a client run that sent its proof, or connected, did so for the one nonce it was started with and
  a server nonce for which some session had sent the server proof before. -/
theorem mutual_agreement (htoken : token ≠ []) {as : List Action}
    (h : (system H.hash token agent).Exec as sys) :
    (∀ i, (sys.server i).authed = true → ∃ cn sn older,
      (∃ newer, sys.history = newer ++ .serverAuthed i cn sn :: older) ∧
      ∃ j oldest, (∃ mid, older = mid ++ .clientProof j cn sn :: oldest) ∧
        .clientChecked j cn sn ∈ oldest) ∧
    (∀ j cn sn, (.clientProof j cn sn ∈ sys.history ∨ sys.client j = .connected cn sn) →
      (∀ nonce, .connect j nonce ∈ as ↔ nonce = cn) ∧
      ∃ older, (∃ newer, sys.history = newer ++ .clientProof j cn sn :: older) ∧
        ∃ i, .serverProof i cn sn ∈ older) := by
  have hinv := inv_of_exec htoken h
  constructor
  · intro i hi
    obtain ⟨cn, sn, hmem⟩ := hinv.authed i hi
    obtain ⟨older, hold, ⟨j, hj⟩, hjust⟩ := hinv.justified.of_mem hmem
    obtain ⟨oldest, hmid, hchecked, -⟩ := hjust.of_mem hj
    exact ⟨cn, sn, older, hold, j, oldest, hmid, hchecked⟩
  · intro j cn sn hj
    have hmem : .clientProof j cn sn ∈ sys.history := by
      rcases hj with hj | hj
      · exact hj
      · have hphase := hinv.phase j
        rw [hj] at hphase
        obtain ⟨older, ⟨newer, hnew⟩, hproof, -⟩ := hinv.justified.of_mem hphase
        simp only [Justified] at hproof
        rw [hnew]
        exact List.mem_append_right _ (List.mem_cons_of_mem _ hproof)
    have hgreeted := greeted_of_exec h j
    have hstart := hgreeted.proof cn sn hmem
    refine ⟨fun nonce => ⟨fun hn => hgreeted.once _ _ hn hstart, fun hn => hn ▸ hstart⟩, ?_⟩
    obtain ⟨older, hold, hchecked, hjust⟩ := hinv.justified.of_mem hmem
    obtain ⟨oldest, ⟨mid, rfl⟩, ⟨i, hi⟩, -⟩ := hjust.of_mem hchecked
    exact ⟨_, hold, i, List.mem_append_right _ (List.mem_cons_of_mem _ hi)⟩

theorem derivable_of_sent {wire : List Hello} {t : MsgType} {m : Hello} (hm : m ∈ wire)
    (hh : m.Honest) : Derivable hash token wire ⟨⟨t.code, 0, 0, 0⟩, writeHello m⟩ := by
  intro msg rest hread cn sn dir hproof
  have hm' := reads_hello hh []
  rw [List.append_nil, hread] at hm'
  cases hm'
  exact ⟨m, hm, rfl⟩

/-- Both parties of an undisturbed handshake accept. -/
theorem mutual_agreement_undisturbed :
    let H : SymbolicHash := ⟨fun b => 1 :: b, List.cons_injective, fun _ => List.cons_ne_nil _ _⟩
    ∃ as sys, (system H.hash [3] []).Exec as sys ∧ (sys.server 0).authed = true ∧
      sys.client 0 = .connected [1] [2] ∧
      (∀ nonce, .connect 0 nonce ∈ as ↔ nonce = [1]) ∧
      ∃ older, (∃ newer, sys.history = newer ++ .clientProof 0 [1] [2] :: older) ∧
        ∃ i, .serverProof i [1] [2] ∈ older := by
  intro H
  let hello : Hello := { nonce := [1] }
  let ack : Hello := { capabilities := 1, nonce := [2], proof := authProof H.hash [3] [1] [2] true }
  let auth : Hello := { proof := authProof H.hash [3] [1] [2] false }
  let env : Session.Env := { nonce := [2] }
  let frame (t : MsgType) (m : Hello) : Frame := ⟨⟨t.code, 0, 0, 0⟩, writeHello m⟩
  have hsize : ∀ dir, Sized (authProof H.hash [3] [1] [2] dir) := by
    intro dir
    cases dir <;> simp [Sized, authProof, H, proofInput, feed, decimal, bytes]
  have hh : hello.Honest := ⟨by simp [Sized, hello], by simp [Sized, hello], by simp [Sized, hello]⟩
  have ha : ack.Honest := ⟨by simp [Sized, ack], by simp [Sized, ack], hsize true⟩
  have hu : auth.Honest := ⟨by simp [Sized, auth], by simp [Sized, auth], hsize false⟩
  have read : ∀ {m : Hello}, m.Honest → readHello.run (writeHello m) = .ok m [] := fun h => by
    simpa using reads_hello h []
  -- The two frames of the session and the two replies of the client run, one after the other.
  let s1 : Session.State := ⟨false, false, ⟨[1], [2], true⟩, true⟩
  let s2 : Session.State := ⟨true, true, ⟨[1], [2], true⟩, true⟩
  have hs1 : Session.step H.hash [3] [] (Session.start [3] false true).1
      (.frame (frame .hello hello) env) = (s1, [.reply 0 (.helloAck ack)]) := by
    have ht : MsgType.ofCode MsgType.hello.code = some .hello := by decide
    simp [Session.step, Session.start, Session.handle, Session.handleHello, frame, ht, read hh,
      hello, env, ack, s1, kVersion]
  have hs2 : Session.step H.hash [3] [] s1 (.frame (frame .auth auth) env) =
      (s2, [.reply 0 .ok, .joined]) := by
    have ht : MsgType.ofCode MsgType.auth.code = some .auth := by decide
    have hct := (constantTimeEqual_iff auth.proof (authProof H.hash [3] [1] [2] false)).2 rfl
    simp [Session.step, Session.handle, Session.handleAuth, frame, ht, read hu, env, s1, s2, hct]
  have hc1 : connectReply H.hash [3] (.greeting [1]) (.ok (frame .helloAck ack)) =
      (.proving [1] [2], some auth) := by
    have ht : MsgType.ofCode MsgType.helloAck.code = some .helloAck := by decide
    have hct := (constantTimeEqual_iff ack.proof (authProof H.hash [3] [1] [2] true)).2 rfl
    simp [connectReply, frame, ht, read ha, hct, auth, ack]
  have hc2 : connectReply H.hash [3] (.proving [1] [2]) (.ok (frame .ok hello)) =
      (.connected [1] [2], none) := by decide
  let y1 := clientStep (initial [3]) 0 (.greeting [1], some hello)
  let y2 := serverStep y1 0 (s1, [.reply 0 (.helloAck ack)])
  let y3 := clientStep y2 0 (.proving [1] [2], some auth)
  let y4 := serverStep y3 0 (s2, [.reply 0 .ok, .joined])
  let y5 := clientStep y4 0 (.connected [1] [2], none)
  have h1 : Step H.hash [3] [] (initial [3]) (.connect 0 [1]) y1 := .connect rfl
  have h2 : Step H.hash [3] [] y1 (.deliver 0 (.frame (frame .hello hello) env)) y2 := by
    simp only [y2, ← hs1]
    refine .deliver fun f e h => ?_
    cases h
    exact derivable_of_sent (by simp [y1, clientStep]) hh
  have h3 : Step H.hash [3] [] y2 (.reply 0 (.ok (frame .helloAck ack))) y3 := by
    simp only [y3, ← hc1]
    refine .reply fun f h => ?_
    cases h
    exact derivable_of_sent (by simp [y2, serverStep, acks]) ha
  have h4 : Step H.hash [3] [] y3 (.deliver 0 (.frame (frame .auth auth) env)) y4 := by
    simp only [y4, ← hs2]
    refine .deliver fun f e h => ?_
    cases h
    exact derivable_of_sent (by simp [y3, clientStep]) hu
  have h5 : Step H.hash [3] [] y4 (.reply 0 (.ok (frame .ok hello))) y5 := by
    simp only [y5, ← hc2]
    refine .reply fun f h => ?_
    cases h
    exact derivable_of_sent (by simp [y4, y3, y2, y1, serverStep, clientStep, acks]) hh
  have h0 : (system H.hash [3] []).Exec [] (initial [3]) := .start rfl
  have hexec := ((((h0.next h1 trivial).next h2 trivial).next h3 trivial).next h4 trivial).next h5
    trivial
  exact ⟨_, y5, hexec, rfl, rfl,
    (mutual_agreement (by decide) hexec).2 0 [1] [2] (.inr rfl)⟩

end Proofs

end Handshake

end WslDrive
