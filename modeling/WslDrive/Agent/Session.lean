import WslDrive.Core.AuthToken
import WslDrive.Core.Protocol

/-!
# Sessions of the serving agent

`RootServer::serve` runs one session: it receives frames, hands them to `RootServer::handle`, and
adds the channel to the broadcast set once the session is authenticated.  What the surroundings
decide (fresh nonces, whether a send or a request handler succeeds, whether the server is
stopping) comes with each event.

* `Session.run_inv` — what the state of a running session says about the frames received so far;
* `Session.serve_gate` — nothing is served, and no broadcast is received, without an `Auth` frame
  that answers the latest `Hello`, and the session ends at the first frame that should end it.
-/

namespace WslDrive

open Proto Auth

namespace Session

/-- `Handshake`: what a session remembers between `Hello` and `Auth`. -/
structure Handshake where
  clientNonce : Bytes := []
  serverNonce : Bytes := []
  greeted : Bool := false
  deriving DecidableEq, Repr

/-- What a session sends for a request, or does on its behalf. -/
inductive Reply where
  | error (code : Errc) (detail : String)
  | helloAck (msg : Hello)
  | ok
  | pong
  | snapshot
  | read
  | readMany
  | readlink
  | mutation (type : MsgType)
  deriving DecidableEq, Repr

/-- The reply carries something of the served tree, changes it, or answers a ping. -/
def Reply.serves : Reply → Bool
  | .pong | .snapshot | .read | .readMany | .readlink | .mutation _ => true
  | .error _ _ | .helloAck _ | .ok => false

/-- What a session does towards its channel. -/
inductive Output where
  | reply (requestId : UInt64) (reply : Reply)
  /-- The channel joins the peers that receive broadcasts. -/
  | joined
  deriving DecidableEq, Repr

/-- What the surroundings decide while a frame is handled. -/
structure Env where
  /-- What `generate_auth_nonce` returns; empty without a source of entropy. -/
  nonce : Bytes
  watching : Bool := true
  /-- The result of sending a reply. -/
  send : Except Errc Unit := .ok ()
  /-- The result of the handler of a snapshot, read or mutation request. -/
  handler : Except Errc Unit := .ok ()
  /-- `add_peer` succeeds: the server is not stopping. -/
  addPeer : Bool := true

/-- How `handle` leaves the session. -/
structure Handled where
  result : Except Errc Unit
  authed : Bool
  hs : Handshake
  replies : List Reply

section Handle

variable (hash : Bytes → Bytes) (token agent : Bytes)

/-- The `Hello` branch of `handle`. -/
def handleHello (payload : Bytes) (env : Env) (authed : Bool) (hs : Handshake) : Handled :=
  match readHello.run payload with
  | .error e _ => ⟨.error e, authed, hs, []⟩
  | .ok hello _ =>
    if hello.protocolVersion ≠ UInt32.ofNat kVersion then
      ⟨.error .unsupportedVersion, authed, hs,
        [.error .unsupportedVersion "protocol version mismatch"]⟩
    else
      let capabilities := if env.watching then 1 else 0
      let hs := { hs with clientNonce := hello.nonce }
      if token = [] then
        ⟨env.send, true, hs, [.helloAck { capabilities, agent }]⟩
      else if hs.clientNonce = [] then
        ⟨.error .unauthorized, authed, hs, [.error .unauthorized "authentication failed"]⟩
      else
        let hs := { hs with serverNonce := env.nonce }
        if hs.serverNonce = [] then
          ⟨.error .ioError, authed, hs, [.error .ioError "no entropy source for the handshake"]⟩
        else
          let proof := authProof hash token hs.clientNonce hs.serverNonce true
          ⟨env.send, authed, { hs with greeted := true },
            [.helloAck { capabilities, agent, nonce := hs.serverNonce, proof }]⟩

/-- The `Auth` branch of `handle`. -/
def handleAuth (payload : Bytes) (env : Env) (authed : Bool) (hs : Handshake) : Handled :=
  if !hs.greeted then
    ⟨.error .unauthorized, authed, hs, [.error .unauthorized "Auth before Hello"]⟩
  else
    match readHello.run payload with
    | .error e _ => ⟨.error e, authed, hs, []⟩
    | .ok msg _ =>
      let expected := authProof hash token hs.clientNonce hs.serverNonce false
      if !constantTimeEqual msg.proof expected then
        ⟨.error .unauthorized, authed, hs, [.error .unauthorized "authentication failed"]⟩
      else
        ⟨env.send, true, hs, [.ok]⟩

/-- `RootServer::handle`. -/
def handle (f : Frame) (env : Env) (authed : Bool) (hs : Handshake) : Handled :=
  let type := MsgType.ofCode f.header.type
  if type ≠ some .hello ∧ type ≠ some .auth ∧ authed = false then
    ⟨.error .unauthorized, authed, hs, [.error .unauthorized "authenticate first"]⟩
  else
    match type with
    | some .hello => handleHello hash token agent f.payload env authed hs
    | some .auth => handleAuth hash token f.payload env authed hs
    | some .ping => ⟨env.send, authed, hs, [.pong]⟩
    | some .snapshotRequest => ⟨env.handler, authed, hs, [.snapshot]⟩
    | some .readRequest => ⟨env.handler, authed, hs, [.read]⟩
    | some .readManyRequest => ⟨env.handler, authed, hs, [.readMany]⟩
    | some .readlinkRequest => ⟨env.handler, authed, hs, [.readlink]⟩
    | some .writeRequest => ⟨env.handler, authed, hs, [.mutation .writeRequest]⟩
    | some .createRequest => ⟨env.handler, authed, hs, [.mutation .createRequest]⟩
    | some .mkdirRequest => ⟨env.handler, authed, hs, [.mutation .mkdirRequest]⟩
    | some .unlinkRequest => ⟨env.handler, authed, hs, [.mutation .unlinkRequest]⟩
    | some .rmdirRequest => ⟨env.handler, authed, hs, [.mutation .rmdirRequest]⟩
    | some .renameRequest => ⟨env.handler, authed, hs, [.mutation .renameRequest]⟩
    | some .truncateRequest => ⟨env.handler, authed, hs, [.mutation .truncateRequest]⟩
    | _ => ⟨env.send, authed, hs, [.error .protocolError "unexpected message type"]⟩

end Handle

/-! ### The session loop -/

/-- What one round of the loop of `serve` gets from `receive`. -/
inductive Event where
  | frame (f : Frame) (env : Env)
  /-- Nothing arrived; the server may be stopping and the handshake deadline may have passed. -/
  | timeout (stopping pastDeadline : Bool)
  /-- Any other failure to receive. -/
  | failed

/-- The local variables of `serve`; `running` is false once the loop has been left. -/
structure State where
  authed : Bool
  registered : Bool := false
  hs : Handshake := {}
  running : Bool := true

/-- Leaving `serve` removes the channel from the peers. -/
def State.close (s : State) : State := { s with registered := false, running := false }

variable (hash : Bytes → Bytes) (token agent : Bytes)

/-- `serve` up to its loop. -/
def start (stopping addPeer : Bool) : State × List Output :=
  let s : State := { authed := token.isEmpty }
  if stopping then (s.close, [])
  else if s.authed then
    if addPeer then ({ s with registered := true }, [.joined]) else (s.close, [])
  else (s, [])

/-- One round of the loop of `serve`. -/
def step (s : State) (e : Event) : State × List Output :=
  if !s.running then (s, [])
  else
    match e with
    | .failed => (s.close, [])
    | .timeout stopping pastDeadline =>
      if stopping then (s.close, [])
      else if !s.authed && pastDeadline then
        (s.close, [.reply 0 (.error .timeout "handshake timeout")])
      else (s, [])
    | .frame f env =>
      let h := handle hash token agent f env s.authed s.hs
      let out := h.replies.map (.reply f.header.requestId)
      let s := { s with authed := h.authed, hs := h.hs }
      match h.result with
      | .error _ => (s.close, out)
      | .ok () =>
        if s.authed && !s.registered then
          if env.addPeer then ({ s with registered := true }, out ++ [.joined])
          else (s.close, out)
        else (s, out)

/-- The state of a session after the rounds `es`. -/
def run (stopping addPeer : Bool) (es : List Event) : State :=
  es.foldl (fun s e => (step hash token agent s e).1) (start token stopping addPeer).1

/-! ### What the frames say -/

/-- The nonces of the latest `Hello` among the events: the one it carries and the one generated
for it. -/
def latestHello (es : List Event) : Option (Bytes × Bytes) :=
  es.foldl (fun latest e =>
    match e with
    | .frame f env =>
      if MsgType.ofCode f.header.type = some .hello then
        match readHello.run f.payload with
        | .ok hello _ => some (hello.nonce, env.nonce)
        | .error _ _ => latest
      else latest
    | _ => latest) none

/-- `e` is an `Auth` frame with the proof for the nonces of the latest `Hello` before it. -/
def Matches (before : List Event) (e : Event) : Prop :=
  ∃ f env msg rest cn sn, e = .frame f env ∧ MsgType.ofCode f.header.type = some .auth ∧
    readHello.run f.payload = .ok msg rest ∧ latestHello before = some (cn, sn) ∧
    msg.proof = authProof hash token cn sn false

/-- Some `Auth` frame among the events matched. -/
def Authenticated (es : List Event) : Prop :=
  ∃ before e after, es = before ++ e :: after ∧ Matches hash token before e

variable {hash token agent}

theorem latestHello_concat (es : List Event) (e : Event) :
    latestHello (es ++ [e]) =
      match e with
      | .frame f env =>
        if MsgType.ofCode f.header.type = some .hello then
          match readHello.run f.payload with
          | .ok hello _ => some (hello.nonce, env.nonce)
          | .error _ _ => latestHello es
        else latestHello es
      | _ => latestHello es := by
  rw [latestHello, List.foldl_append]
  rfl

theorem Authenticated.concat {es : List Event} (h : Authenticated hash token es) (e : Event) :
    Authenticated hash token (es ++ [e]) := by
  obtain ⟨before, a, after, rfl, hm⟩ := h
  exact ⟨before, a, after ++ [e], by simp, hm⟩

theorem Matches.authenticated {es : List Event} {e : Event} (h : Matches hash token es e) :
    Authenticated hash token (es ++ [e]) :=
  ⟨es, e, [], rfl, h⟩

/-! ### What handling a frame does -/

section Handle

variable {payload : Bytes} {env : Env} {authed : Bool} {hs : Handshake} {f : Frame}

theorem handleHello_of_ok (htoken : token ≠ [])
    (h : (handleHello hash token agent payload env authed hs).result = .ok ()) :
    ∃ hello rest, readHello.run payload = .ok hello rest ∧
      (handleHello hash token agent payload env authed hs).authed = authed ∧
      (handleHello hash token agent payload env authed hs).hs = ⟨hello.nonce, env.nonce, true⟩ := by
  unfold handleHello at h ⊢
  cases hr : readHello.run payload with
  | error e rest => simp [hr] at h
  | ok hello rest =>
    simp only [hr, htoken, if_false] at h ⊢
    split_ifs at h ⊢ with h1 h2 h3 <;> exact ⟨hello, rest, rfl, rfl, rfl⟩

theorem handleHello_serves {r : Reply}
    (h : r ∈ (handleHello hash token agent payload env authed hs).replies) : r.serves = false := by
  unfold handleHello at h
  cases hr : readHello.run payload with
  | error e rest => simp [hr] at h
  | ok hello rest =>
    simp only [hr] at h
    split_ifs at h <;> obtain rfl := List.mem_singleton.1 h <;> rfl

theorem handleAuth_of_ok (h : (handleAuth hash token payload env authed hs).result = .ok ()) :
    hs.greeted = true ∧ ∃ msg rest, readHello.run payload = .ok msg rest ∧
      msg.proof = authProof hash token hs.clientNonce hs.serverNonce false ∧
      (handleAuth hash token payload env authed hs).authed = true ∧
      (handleAuth hash token payload env authed hs).hs = hs := by
  unfold handleAuth at h ⊢
  cases hg : hs.greeted with
  | false => simp [hg] at h
  | true =>
    cases hr : readHello.run payload with
    | error e rest => simp [hg, hr] at h
    | ok msg rest =>
      simp only [hg, hr, Bool.not_true, Bool.false_eq_true, if_false] at h ⊢
      split_ifs at h ⊢ with hp
      rw [Bool.not_eq_true, Bool.not_eq_false', constantTimeEqual_iff] at hp
      exact ⟨trivial, msg, rest, rfl, hp, rfl, rfl⟩

theorem handleAuth_serves {r : Reply}
    (h : r ∈ (handleAuth hash token payload env authed hs).replies) : r.serves = false := by
  unfold handleAuth at h
  split_ifs at h with hg
  · obtain rfl := List.mem_singleton.1 h
    rfl
  · cases hr : readHello.run payload with
    | error e rest => simp [hr] at h
    | ok msg rest =>
      simp only [hr] at h
      split_ifs at h <;> obtain rfl := List.mem_singleton.1 h <;> rfl

theorem handle_hello (ht : MsgType.ofCode f.header.type = some .hello) :
    handle hash token agent f env authed hs =
      handleHello hash token agent f.payload env authed hs := by
  simp [handle, ht]

theorem handle_auth (ht : MsgType.ofCode f.header.type = some .auth) :
    handle hash token agent f env authed hs = handleAuth hash token f.payload env authed hs := by
  simp [handle, ht]

theorem handle_unauthed (h1 : MsgType.ofCode f.header.type ≠ some .hello)
    (h2 : MsgType.ofCode f.header.type ≠ some .auth) :
    handle hash token agent f env false hs =
      ⟨.error .unauthorized, false, hs, [.error .unauthorized "authenticate first"]⟩ := by
  simp [handle, h1, h2]

/-- Requests change neither the authentication nor the handshake of a session. -/
theorem handle_authed (h1 : MsgType.ofCode f.header.type ≠ some .hello)
    (h2 : MsgType.ofCode f.header.type ≠ some .auth) :
    (handle hash token agent f env true hs).authed = true ∧
      (handle hash token agent f env true hs).hs = hs := by
  unfold handle
  generalize MsgType.ofCode f.header.type = type at h1 h2
  simp only [Bool.true_eq_false, and_false, if_false]
  split <;> simp_all

theorem handle_authed_of_authed : (handle hash token agent f env true hs).authed = true := by
  by_cases h1 : MsgType.ofCode f.header.type = some .hello
  · rw [handle_hello h1, handleHello]
    cases readHello.run f.payload with
    | error e rest => rfl
    | ok hello rest => dsimp only; split_ifs <;> rfl
  · by_cases h2 : MsgType.ofCode f.header.type = some .auth
    · rw [handle_auth h2, handleAuth]
      cases readHello.run f.payload with
      | error e rest => dsimp only; split_ifs <;> rfl
      | ok msg rest => dsimp only; split_ifs <;> rfl
    · exact (handle_authed h1 h2).1

theorem handle_helloAck (htoken : token ≠ []) {msg : Hello}
    (h : .helloAck msg ∈ (handle hash token agent f env authed hs).replies) :
    msg.proof = authProof hash token (handle hash token agent f env authed hs).hs.clientNonce
      msg.nonce true := by
  by_cases h1 : MsgType.ofCode f.header.type = some .hello
  · rw [handle_hello h1] at h ⊢
    unfold handleHello at h ⊢
    cases hr : readHello.run f.payload with
    | error e rest => simp [hr] at h
    | ok hello rest =>
      simp only [hr, htoken, if_false] at h ⊢
      split_ifs at h ⊢ <;> simp_all
  · by_cases h2 : MsgType.ofCode f.header.type = some .auth
    · rw [handle_auth h2] at h
      unfold handleAuth at h
      cases hr : readHello.run f.payload with
      | error e rest => simp only [hr] at h; split_ifs at h <;> simp at h
      | ok msg rest => simp only [hr] at h; split_ifs at h <;> simp at h
    · unfold handle at h
      generalize MsgType.ofCode f.header.type = type at h1 h2 h
      dsimp only at h
      split_ifs at h
      · simp at h
      · split at h <;> simp_all

/-- A session becomes authenticated only by the client proof for its nonces. -/
theorem proof_of_authed (htoken : token ≠ [])
    (h : (handle hash token agent f env false hs).authed = true) :
    ∃ msg rest, readHello.run f.payload = .ok msg rest ∧
      msg.proof = authProof hash token hs.clientNonce hs.serverNonce false := by
  by_cases h1 : MsgType.ofCode f.header.type = some .hello
  · rw [handle_hello h1] at h
    unfold handleHello at h
    cases hr : readHello.run f.payload with
    | error e rest => simp [hr] at h
    | ok hello rest =>
      simp only [hr, htoken, if_false] at h
      split_ifs at h
  · by_cases h2 : MsgType.ofCode f.header.type = some .auth
    · rw [handle_auth h2] at h
      unfold handleAuth at h
      cases hr : readHello.run f.payload with
      | error e rest => simp only [hr] at h; split_ifs at h
      | ok msg rest =>
        simp only [hr] at h
        split_ifs at h with hg hp
        rw [Bool.not_eq_true, Bool.not_eq_false', constantTimeEqual_iff] at hp
        exact ⟨msg, rest, rfl, hp⟩
    · simp [handle_unauthed h1 h2] at h

theorem authed_of_serves {r : Reply} (h : r ∈ (handle hash token agent f env authed hs).replies)
    (hr : r.serves = true) : authed = true := by
  by_cases h1 : MsgType.ofCode f.header.type = some .hello
  · rw [handle_hello h1] at h
    simp [handleHello_serves h] at hr
  · by_cases h2 : MsgType.ofCode f.header.type = some .auth
    · rw [handle_auth h2] at h
      simp [handleAuth_serves h] at hr
    · cases authed with
      | true => rfl
      | false =>
        rw [handle_unauthed h1 h2] at h
        obtain rfl := List.mem_singleton.1 h
        simp [Reply.serves] at hr

end Handle

/-! ### The invariant of a session -/

/-- What the state of a session says about the events so far. -/
structure Inv (hash : Bytes → Bytes) (token : Bytes) (es : List Event) (s : State) : Prop where
  latest : s.running = true → latestHello es =
    if s.hs.greeted then some (s.hs.clientNonce, s.hs.serverNonce) else none
  authed : s.running = true → s.authed = true → Authenticated hash token es
  registered : s.registered = true → s.running = true ∧ s.authed = true

theorem Inv.close {es : List Event} (s : State) : Inv hash token es s.close where
  latest h := by simp [State.close] at h
  authed h := by simp [State.close] at h
  registered h := by simp [State.close] at h

theorem Inv.frame (htoken : token ≠ []) {es : List Event} {s : State} (h : Inv hash token es s)
    (hrun : s.running = true) {f : Frame} {env : Env}
    (hok : (handle hash token agent f env s.authed s.hs).result = .ok ()) (registered : Bool)
    (hreg : registered = true → (handle hash token agent f env s.authed s.hs).authed = true) :
    Inv hash token (es ++ [.frame f env])
      { authed := (handle hash token agent f env s.authed s.hs).authed, registered,
        hs := (handle hash token agent f env s.authed s.hs).hs, running := true } := by
  by_cases h1 : MsgType.ofCode f.header.type = some .hello
  · rw [handle_hello h1] at hok hreg ⊢
    obtain ⟨hello, rest, hr, ha, hhs⟩ := handleHello_of_ok htoken hok
    refine ⟨fun _ => ?_, fun _ ha' => ?_, fun hr => ⟨rfl, hreg hr⟩⟩
    · simp [latestHello_concat, h1, hr, hhs]
    · exact (h.authed hrun (ha ▸ ha')).concat _
  · have hlatest : latestHello (es ++ [.frame f env]) = latestHello es := by
      simp [latestHello_concat, h1]
    by_cases h2 : MsgType.ofCode f.header.type = some .auth
    · rw [handle_auth h2] at hok hreg ⊢
      obtain ⟨hg, msg, rest, hr, hproof, -, hhs⟩ := handleAuth_of_ok hok
      refine ⟨fun _ => ?_, fun _ _ => ?_, fun hr => ⟨rfl, hreg hr⟩⟩
      · simpa only [hlatest, hhs] using h.latest hrun
      · have hl := h.latest hrun
        rw [if_pos hg] at hl
        exact Matches.authenticated ⟨f, env, msg, rest, _, _, rfl, h2, hr, hl, hproof⟩
    · cases hs : s.authed with
      | false =>
        rw [hs, handle_unauthed h1 h2] at hok
        cases hok
      | true =>
        rw [hs] at hreg
        have hhs : (handle hash token agent f env true s.hs).hs = s.hs := (handle_authed h1 h2).2
        refine ⟨fun _ => ?_, fun _ _ => ?_, fun hr => ⟨rfl, hreg hr⟩⟩
        · simpa only [hlatest, hhs] using h.latest hrun
        · exact (h.authed hrun hs).concat _

theorem Inv.step (htoken : token ≠ []) {es : List Event} {s : State} (h : Inv hash token es s)
    (e : Event) : Inv hash token (es ++ [e]) (step hash token agent s e).1 := by
  obtain ⟨authed, registered, hs, running⟩ := s
  cases running with
  | false =>
    have hreg : registered ≠ true := fun hr => by simpa using (h.registered hr).1
    exact ⟨by simp [Session.step], by simp [Session.step], fun hr => absurd hr hreg⟩
  | true =>
    have hskip (hl : latestHello (es ++ [e]) = latestHello es) :
        Inv hash token (es ++ [e]) ⟨authed, registered, hs, true⟩ :=
      ⟨fun hr => hl ▸ h.latest hr, fun hr ha => (h.authed hr ha).concat e, h.registered⟩
    unfold Session.step
    simp only [Bool.not_true, Bool.false_eq_true, if_false]
    cases e with
    | failed => exact Inv.close _
    | timeout stopping pastDeadline =>
      dsimp only
      split_ifs
      · exact Inv.close _
      · exact Inv.close _
      · exact hskip (latestHello_concat _ _)
    | frame f env =>
      dsimp only
      cases hres : (handle hash token agent f env authed hs).result with
      | error err => exact Inv.close _
      | ok u =>
        have hframe := h.frame htoken rfl hres
        dsimp only
        split_ifs with hjoin hpeer
        · -- The session has just been authenticated, so it joins the peers.
          exact hframe true fun _ => (Bool.and_eq_true_iff.1 hjoin).1
        · exact Inv.close _
        · refine hframe registered fun hr => ?_
          obtain rfl : authed = true := (h.registered hr).2
          exact handle_authed_of_authed

theorem start_inv (htoken : token ≠ []) (stopping addPeer : Bool) :
    Inv hash token [] (start token stopping addPeer).1 := by
  have hempty : token.isEmpty = false := by simpa using htoken
  unfold start
  simp only [hempty, Bool.false_eq_true, if_false]
  split_ifs
  · exact Inv.close _
  · exact ⟨fun _ => rfl, fun _ h => by simp at h, fun h => by simp at h⟩

/-- **The invariant holds throughout a session.** -/
theorem run_inv (htoken : token ≠ []) (stopping addPeer : Bool) (es : List Event) :
    Inv hash token es (run hash token agent stopping addPeer es) := by
  induction es using List.reverseRecOn with
  | nil => exact start_inv htoken stopping addPeer
  | append_singleton es e ih =>
    rw [run, List.foldl_append]
    exact ih.step htoken e

/-! ### The gate -/

/-- A frame that fails to be handled ends the session, as does any event once it has ended. -/
theorem step_running_of_error {s : State} {f : Frame} {env : Env} (err : Errc)
    (h : s.running = true → (handle hash token agent f env s.authed s.hs).result = .error err) :
    (step hash token agent s (.frame f env)).1.running = false := by
  cases hrun : s.running with
  | false => simp [step, hrun]
  | true => simp [step, hrun, h hrun, State.close]

/-- What a round can do: handle a frame, or nothing but report an error. -/
theorem step_cases (s : State) (e : Event) :
    (∃ f env, e = .frame f env ∧ s.running = true ∧
      (step hash token agent s e).1.authed = (handle hash token agent f env s.authed s.hs).authed ∧
      (step hash token agent s e).1.hs = (handle hash token agent f env s.authed s.hs).hs ∧
      ∀ id r, .reply id r ∈ (step hash token agent s e).2 →
        r ∈ (handle hash token agent f env s.authed s.hs).replies) ∨
    ((step hash token agent s e).1.authed = s.authed ∧ (step hash token agent s e).1.hs = s.hs ∧
      ∀ id r, .reply id r ∈ (step hash token agent s e).2 →
        ∃ code detail, r = .error code detail) := by
  cases hrun : s.running with
  | false => exact .inr (by simp [step, hrun])
  | true =>
    cases e with
    | failed => exact .inr (by simp [step, hrun, State.close])
    | timeout stopping pastDeadline =>
      right
      simp only [step, hrun, Bool.not_true, Bool.false_eq_true, if_false]
      split_ifs <;> simp [State.close]
    | frame f env =>
      left
      refine ⟨f, env, rfl, rfl, ?_⟩
      simp only [step, hrun, Bool.not_true, Bool.false_eq_true, if_false]
      cases (handle hash token agent f env s.authed s.hs).result with
      | error err => simpa [State.close] using fun _ _ h _ => h
      | ok u => dsimp only; split_ifs <;> simpa [State.close] using fun _ _ h _ => h

theorem authed_of_step_serves {s : State} {e : Event} {id : UInt64} {r : Reply}
    (h : .reply id r ∈ (step hash token agent s e).2) (hr : r.serves = true) :
    s.running = true ∧ s.authed = true := by
  rcases step_cases s e with ⟨f, env, -, hrun, -, -, hmem⟩ | ⟨-, -, herr⟩
  · exact ⟨hrun, authed_of_serves (hmem id r h) hr⟩
  · obtain ⟨code, detail, rfl⟩ := herr id r h
    simp [Reply.serves] at hr

/-- **The authentication gate.**  With a token, a request is served, and the channel is among the
peers, only after a matching `Auth`; and the session ends, for good, at an `Auth` that does not
match and at any other request before a matching one. -/
theorem serve_gate (htoken : token ≠ []) (stopping addPeer : Bool) (es : List Event) (e : Event) :
    let s := run hash token agent stopping addPeer es
    let r := step hash token agent s e
    (∀ id reply, .reply id reply ∈ r.2 → reply.serves = true → Authenticated hash token es) ∧
    (r.1.registered = true → Authenticated hash token (es ++ [e])) ∧
    (s.running = false → r.1.running = false ∧ r.2 = []) ∧
    (∀ f env, e = .frame f env →
      (MsgType.ofCode f.header.type = some .auth → ¬ Matches hash token es e →
        r.1.running = false) ∧
      (MsgType.ofCode f.header.type ≠ some .hello → MsgType.ofCode f.header.type ≠ some .auth →
        ¬ Authenticated hash token es → r.1.running = false)) := by
  intro s r
  have hinv : Inv hash token es s := run_inv htoken stopping addPeer es
  refine ⟨fun id reply h hs => ?_, fun hreg => ?_, fun hrun => ?_, ?_⟩
  · obtain ⟨hrun, ha⟩ := authed_of_step_serves h hs
    exact hinv.authed hrun ha
  · obtain ⟨hrun, ha⟩ := (hinv.step htoken e).registered hreg
    exact (hinv.step htoken e).authed hrun ha
  · simp [r, step, hrun]
  · rintro f env rfl
    constructor
    · intro ht hno
      cases hres : (handle hash token agent f env s.authed s.hs).result with
      | error err => exact step_running_of_error err fun _ => hres
      | ok u =>
        rw [handle_auth ht] at hres
        obtain ⟨hg, msg, rest, hread, hproof, -⟩ := handleAuth_of_ok hres
        cases hrun : s.running with
        | false => simp [r, step, hrun]
        | true =>
          have hl := hinv.latest hrun
          rw [if_pos hg] at hl
          exact absurd ⟨f, env, msg, rest, _, _, rfl, ht, hread, hl, hproof⟩ hno
    · intro h1 h2 hno
      refine step_running_of_error .unauthorized fun hrun => ?_
      have ha : s.authed = false := by
        rw [← Bool.not_eq_true]
        exact fun ha => hno (hinv.authed hrun ha)
      rw [ha, handle_unauthed h1 h2]

/-- A session of three frames, served at the third. -/
theorem serve_gate_ping :
    let frame (t : MsgType) (payload : Bytes) : Event :=
      .frame ⟨⟨t.code, 0, 0, 7⟩, payload⟩ { nonce := [9] }
    let es := [frame .hello (writeHello { nonce := [1] }),
      frame .auth (writeHello { proof := [5] })]
    let r := step (fun _ => [5]) [3] [] (run (fun _ => [5]) [3] [] false true es) (frame .ping [])
    .reply 7 .pong ∈ r.2 ∧ Authenticated (fun _ => [5]) [3] es := by
  intro frame es r
  have hpong : .reply 7 .pong ∈ r.2 := by decide
  exact ⟨hpong, (serve_gate (by decide) false true es (frame .ping [])).1 7 .pong hpong rfl⟩

end Session

end WslDrive
