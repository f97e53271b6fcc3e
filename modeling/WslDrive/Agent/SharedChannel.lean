import WslDrive.Lib.Exec
import WslDrive.Net.FrameChannel

/-!
# Two threads on one channel

The session thread of a peer answers its requests, and the flusher broadcasts invalidations to it,
on the same channel.  A call that sends holds the channel's mutex for the whole loop of `send_all`,
and releases it whether the loop succeeded or not.  Every call of `::send` is a step of its own.

* `tearing` — a run in which a whole frame follows a part of another one;
* `Orderly` — no call begins once another one failed half-way, as long as the channel is open;
* `intact_of_orderly` — then the stream is always the beginning of a sequence of frames that the
  threads sent, and the peer receives the first of these frames and no others.
-/

namespace WslDrive

open Proto Socket FrameChannel

namespace SharedChannel

/-- The threads that send on a channel. -/
inductive Thread where
  | session
  | flusher
  deriving DecidableEq, Repr

/-- Where the session thread is. -/
inductive Session where
  /-- In the loop of `serve`: in `receive` or in a handler. -/
  | serving
  /-- In a call that sends a reply, or a part of a snapshot that is still being scanned. -/
  | sending (snapshot : Bool)
  /-- A part of a snapshot was not sent, and the scan goes on to its end. -/
  | scanning
  /-- Out of the loop. -/
  | leaving
  /-- Waiting for the broadcasts that may still use the channel. -/
  | deregistered
  | gone
  deriving DecidableEq, Repr

/-- Where the flusher is. -/
inductive Flusher where
  | idle
  /-- `broadcast` has copied the list of peers, with this one in it. -/
  | broadcasting (m : Message)
  | sending
  /-- `send_raw` has returned `Timeout`. -/
  | timedOut
  | sent
  deriving DecidableEq, Repr

/-- The thread that holds `send_mu_`, its call, and what `send_all` has still to send. -/
structure Holder where
  thread : Thread
  call : SendCall
  rest : Bytes
  deriving DecidableEq, Repr

/-- A channel with its two senders. -/
structure State where
  /-- The bytes on the stream. -/
  put : Bytes := []
  /-- The channel was shut down. -/
  shut : Bool := false
  /-- The channel is among the peers. -/
  registered : Bool := false
  holder : Option Holder := none
  session : Session := .serving
  flusher : Flusher := .idle
  /-- The calls that took the mutex, in their order. -/
  calls : List SendCall := []
  /-- A call failed when a part of its bytes was on the stream. -/
  torn : Bool := false
  deriving DecidableEq, Repr

/-- The steps of the two threads. -/
inductive Step where
  /-- `add_peer`. -/
  | register
  /-- The session thread sends. -/
  | reply (call : SendCall) (snapshot : Bool)
  /-- The scan of a snapshot that was not sent ends, with an error to report or without one. -/
  | scanEnds (report : Option SendCall)
  /-- The session thread leaves the loop of `serve`. -/
  | leave
  | deregister
  | finish
  /-- The flusher copies the list of peers. -/
  | broadcast (m : Message)
  | flusherSends
  /-- `::send` returns to the thread that holds the mutex. -/
  | answer (a : SendAnswer)
  /-- `send_all` has sent everything. -/
  | done
  /-- The flusher shuts down the peer that timed out. -/
  | shutdownPeer
  | broadcastEnds
  /-- `RootServer::stop` shuts down the peers. -/
  | stop
  deriving DecidableEq, Repr

instance (c : SendCall) : Decidable c.Fits := inferInstanceAs (Decidable (_ ≤ _))

/-- A call takes the mutex, once it is free. -/
def lock (s : State) (thread : Thread) (call : SendCall) : Option State :=
  if s.holder = none then
    some { s with holder := some ⟨thread, call, call.wire⟩, calls := s.calls ++ [call] }
  else none

/-- The session thread after a call. -/
def Session.after (snapshot : Bool) (r : Except Errc Unit) : Session :=
  match r with
  | .ok () => .serving
  | .error _ => if snapshot then .scanning else .leaving

/-- The flusher after a call. -/
def Flusher.after (r : Except Errc Unit) : Flusher :=
  match r with
  | .error .timeout => .timedOut
  | _ => .sent

/-- The session thread calls, or is refused. -/
def sessionCall (s : State) (call : SendCall) (snapshot : Bool) : Option State :=
  if call.Fits then lock { s with session := .sending snapshot } .session call
  else some { s with session := .after snapshot (.error .tooLarge) }

/-- A call returns and releases the mutex. -/
def release (s : State) (h : Holder) (r : Except Errc Unit) : State :=
  let s := { s with holder := none }
  match h.thread with
  | .session =>
    match s.session with
    | .sending snapshot => { s with session := .after snapshot r }
    | _ => s
  | .flusher => { s with flusher := .after r }

/-- One step, if it is possible. -/
def next (s : State) : Step → Option State
  | .register =>
    if s.session = .serving ∧ s.registered = false then some { s with registered := true } else none
  | .reply call snapshot => if s.session = .serving then sessionCall s call snapshot else none
  | .scanEnds none => if s.session = .scanning then some { s with session := .leaving } else none
  | .scanEnds (some call) => if s.session = .scanning then sessionCall s call false else none
  | .leave => if s.session = .serving then some { s with session := .leaving } else none
  | .deregister =>
    if s.session = .leaving then some { s with session := .deregistered, registered := false }
    else none
  | .finish =>
    if s.session = .deregistered ∧ s.flusher = .idle then some { s with session := .gone } else none
  | .broadcast m =>
    if s.flusher = .idle ∧ s.registered = true then some { s with flusher := .broadcasting m }
    else none
  | .flusherSends =>
    match s.flusher with
    | .broadcasting m =>
      if (SendCall.sendRaw [m]).Fits then
        lock { s with flusher := .sending } .flusher (.sendRaw [m])
      else some { s with flusher := .after (.error .tooLarge) }
    | _ => none
  | .answer a =>
    match s.holder with
    | none => none
    | some h =>
      if h.rest = [] then none
      else
        match a with
        | .sent n =>
          -- nothing gets through a socket that was shut down
          if s.shut = true then none
          else some { s with
            put := s.put ++ h.rest.take n
            holder := some { h with rest := h.rest.drop n } }
        | .interrupted => some s
        | .failed e =>
          some { release s h (.error e.errc) with
            torn := s.torn || h.rest.length < h.call.wire.length }
  | .done =>
    match s.holder with
    | none => none
    | some h => if h.rest = [] then some (release s h (.ok ())) else none
  | .shutdownPeer =>
    if s.flusher = .timedOut then some { s with flusher := .sent, shut := true } else none
  | .broadcastEnds => if s.flusher = .sent then some { s with flusher := .idle } else none
  | .stop => if s.registered = true then some { s with shut := true } else none

/-- The threads on a new channel. -/
def system : TransSys State Step := .ofNext (· = {}) next

/-- The step takes the mutex. -/
def Step.sends : Step → Bool
  | .reply .. | .scanEnds (some _) | .flusherSends => true
  | _ => false

/-- No call begins once another one failed half-way, unless the channel was shut down. -/
def Orderly (s : State) (step : Step) : Prop :=
  step.sends = true → s.torn = true → s.shut = true

instance (s : State) (step : Step) : Decidable (Orderly s step) :=
  inferInstanceAs (Decidable (_ → _))

theorem release_same (s : State) (h : Holder) (r : Except Errc Unit) :
    (release s h r).put = s.put ∧ (release s h r).calls = s.calls ∧
      (release s h r).holder = none ∧ (release s h r).torn = s.torn ∧
      (release s h r).shut = s.shut := by
  rw [release]
  cases h.thread with
  | session => cases s.session <;> exact ⟨rfl, rfl, rfl, rfl, rfl⟩
  | flusher => exact ⟨rfl, rfl, rfl, rfl, rfl⟩

theorem next_sent {s : State} {h : Holder} (hh : s.holder = some h) (hopen : s.shut = false)
    (hrest : h.rest ≠ []) (n : ℕ) : next s (.answer (.sent n)) = some { s with
      put := s.put ++ h.rest.take n
      holder := some { h with rest := h.rest.drop n } } := by
  simp [next, hh, hrest, hopen]

theorem next_done {s : State} {h : Holder} (hh : s.holder = some h) (hrest : h.rest = []) :
    next s .done = some (release s h (.ok ())) := by
  simp [next, hh, hrest]

/-- Some steps of the system lead to a state in which the call has returned and has put `out` on
the stream. -/
def Returns (s : State) (out : Bytes) : Prop :=
  ∃ (steps : List Step) (s' : State), steps.foldlM next s = some s' ∧ s'.holder = none ∧
    s'.put = s.put ++ out

theorem returns_done {s : State} {h : Holder} (hh : s.holder = some h) (hrest : h.rest = []) :
    Returns s [] := by
  obtain ⟨hput, -, hholder, -⟩ := release_same s h (.ok ())
  refine ⟨[.done], _, by rw [List.foldlM_cons, next_done hh hrest]; rfl, hholder, ?_⟩
  rw [hput, List.append_nil]

theorem Returns.cons {s s₁ : State} {a : Step} {out more : Bytes} (hstep : next s a = some s₁)
    (hput : s₁.put = s.put ++ out) (h : Returns s₁ more) : Returns s (out ++ more) := by
  obtain ⟨steps, s', hsteps, hholder, hput'⟩ := h
  refine ⟨a :: steps, s', ?_, hholder, by rw [hput', hput, List.append_assoc]⟩
  rw [List.foldlM_cons, hstep]
  exact hsteps

/-- **The steps of one call are those of `send_all`**: they put the same bytes on the stream and
release the mutex. -/
theorem sendAll_steps (answers : List SendAnswer) {s : State} {h : Holder}
    (hh : s.holder = some h) (hopen : s.shut = false) :
    Returns s (sendAll answers h.rest).2.1 := by
  induction answers generalizing s h with
  | nil =>
    by_cases hrest : h.rest = []
    · rw [hrest]
      exact returns_done hh hrest
    have hreturn := returns_done (s := { s with
      put := s.put ++ h.rest.take h.rest.length
      holder := some { h with rest := h.rest.drop h.rest.length } }) rfl List.drop_length
    rw [sendAll, ← List.append_nil h.rest]
    refine .cons (next_sent hh hopen hrest h.rest.length) ?_ hreturn
    rw [List.take_length]
  | cons answer answers ih =>
    by_cases hrest : h.rest = []
    · have hput : (sendAll (answer :: answers) h.rest).2.1 = [] := by
        cases answer <;> simp [sendAll, hrest]
      rw [hput]
      exact returns_done hh hrest
    cases answer with
    | sent n =>
      rw [sendAll, if_neg hrest]
      exact .cons (next_sent hh hopen hrest n) rfl
        (ih (s := { s with
          put := s.put ++ h.rest.take n
          holder := some { h with rest := h.rest.drop n } }) rfl hopen)
    | interrupted =>
      rw [sendAll, if_neg hrest, ← List.nil_append (sendAll answers h.rest).2.1]
      exact .cons (a := .answer .interrupted) (by simp [next, hh, hrest]) (List.append_nil _).symm
        (ih hh hopen)
    | failed e =>
      obtain ⟨hput, -, hholder, -⟩ := release_same s h (.error e.errc)
      rw [sendAll, if_neg hrest]
      refine ⟨[.answer (.failed e)], { release s h (.error e.errc) with
        torn := s.torn || h.rest.length < h.call.wire.length }, ?_, hholder, ?_⟩
      · simp [next, hh, hrest]
      · exact hput.trans (List.append_nil _).symm

/-! ### The stream -/

/-- The bytes of calls one after the other. -/
def wires (cs : List SendCall) : Bytes := cs.flatMap SendCall.wire

/-- The stream is the beginning of a sequence of calls that were made; if no call failed half-way
it is a sequence of calls, but for the one that is going on. -/
structure Intact (s : State) : Prop where
  fits : ∀ c ∈ s.calls, c.Fits
  starts : ∃ cs, cs.Sublist s.calls ∧ s.put <+: wires cs
  whole : s.torn = false → s.holder = none → ∃ cs, cs.Sublist s.calls ∧ s.put = wires cs
  going : s.torn = false → ∀ h, s.holder = some h → ∃ cs part,
    (cs ++ [h.call]).Sublist s.calls ∧ s.put = wires cs ++ part ∧ part ++ h.rest = h.call.wire
  free : s.torn = true → s.holder = none ∨ s.shut = true

namespace Intact

variable {s s' : State}

theorem of_same (hi : Intact s) (hput : s'.put = s.put) (hcalls : s'.calls = s.calls)
    (hholder : s'.holder = s.holder) (htorn : s'.torn = s.torn)
    (hshut : s.shut = true → s'.shut = true) : Intact s' where
  fits := by rw [hcalls]; exact hi.fits
  starts := by rw [hcalls, hput]; exact hi.starts
  whole := by rw [hcalls, hput, hholder, htorn]; exact hi.whole
  going := by rw [hcalls, hput, hholder, htorn]; exact hi.going
  free := by
    rw [hholder, htorn]
    exact fun ht => (hi.free ht).imp_right hshut

theorem wires_concat (cs : List SendCall) (c : SendCall) :
    wires (cs ++ [c]) = wires cs ++ c.wire := by
  simp [wires]

theorem lock (hi : Intact s) {thread : Thread} {call : SendCall} (hfits : call.Fits)
    (hok : s.torn = true → s.shut = true) (hlock : lock s thread call = some s') : Intact s' := by
  rw [SharedChannel.lock] at hlock
  split_ifs at hlock with hfree
  cases hlock
  refine ⟨fun c hc => ?_, ?_, (fun _ hnone => nomatch hnone), fun ht h hh => ?_,
    fun ht => .inr (hok ht)⟩
  · rcases List.mem_append.1 hc with hc | hc
    · exact hi.fits c hc
    · rw [List.mem_singleton.1 hc]
      exact hfits
  · obtain ⟨cs, hcs, hput⟩ := hi.starts
    exact ⟨cs, hcs.trans (List.sublist_append_left _ _), hput⟩
  · cases hh
    obtain ⟨cs, hcs, hput⟩ := hi.whole ht hfree
    exact ⟨cs, [], hcs.append (List.Sublist.refl _), by rw [List.append_nil]; exact hput, rfl⟩

theorem sent (hi : Intact s) {h : Holder} (hh : s.holder = some h) (hopen : s.shut = false)
    (n : ℕ) : Intact { s with
      put := s.put ++ h.rest.take n
      holder := some { h with rest := h.rest.drop n } } := by
  have htorn : s.torn = false := by
    by_contra ht
    rcases hi.free (by simpa using ht) with hnone | hshut
    · rw [hh] at hnone
      cases hnone
    · rw [hopen] at hshut
      cases hshut
  obtain ⟨cs, part, hcs, hput, hpart⟩ := hi.going htorn h hh
  have hmore : (part ++ h.rest.take n) ++ h.rest.drop n = h.call.wire := by
    rw [List.append_assoc, List.take_append_drop, hpart]
  have hput' : s.put ++ h.rest.take n = wires cs ++ (part ++ h.rest.take n) := by
    rw [hput, List.append_assoc]
  refine ⟨hi.fits, ⟨_, hcs, ?_⟩, (fun _ hnone => nomatch hnone), fun _ h' hh' => ?_,
    fun ht => absurd ht (by simp [htorn])⟩
  · rw [hput', wires_concat]
    exact (List.prefix_append_right_inj _).2 ⟨_, hmore⟩
  · cases hh'
    exact ⟨cs, _, hcs, hput', hmore⟩

theorem release (hi : Intact s) {h : Holder} (hh : s.holder = some h)
    (hput : s'.put = s.put) (hcalls : s'.calls = s.calls) (hholder : s'.holder = none)
    (htorn : s'.torn = s.torn ∧ h.rest = [] ∨
      s'.torn = (s.torn || decide (h.rest.length < h.call.wire.length))) : Intact s' := by
  refine ⟨by rw [hcalls]; exact hi.fits, by rw [hcalls, hput]; exact hi.starts, fun ht _ => ?_,
    fun _ h' hh' => ?_, fun _ => .inl hholder⟩
  · have hs : s.torn = false := by
      rcases htorn with ⟨heq, -⟩ | heq
      · rw [← heq, ht]
      · rw [ht] at heq
        exact (Bool.or_eq_false_iff.1 heq.symm).1
    obtain ⟨cs, part, hcs, hput', hpart⟩ := hi.going hs h hh
    rw [hcalls, hput, hput']
    -- Either everything was sent, or nothing.
    have hends : h.rest = [] ∨ part = [] := by
      rcases htorn with ⟨-, hnil⟩ | heq
      · exact .inl hnil
      · rw [ht, hs, Bool.false_or] at heq
        have hle := of_decide_eq_false heq.symm
        have hlen := congrArg List.length hpart
        rw [List.length_append] at hlen
        exact .inr (List.length_eq_zero_iff.1 (by omega))
    rcases hends with hnil | hnil
    · rw [hnil, List.append_nil] at hpart
      exact ⟨_, hcs, by rw [wires_concat, hpart]⟩
    · exact ⟨cs, (List.sublist_append_left _ _).trans hcs, by rw [hnil, List.append_nil]⟩
  · rw [hholder] at hh'
    cases hh'

theorem sessionCall (hi : Intact s) {call : SendCall} {snapshot : Bool}
    (hok : s.torn = true → s.shut = true) (hs : sessionCall s call snapshot = some s') :
    Intact s' := by
  rw [SharedChannel.sessionCall] at hs
  split_ifs at hs with hfits
  · have hi' : Intact { s with session := .sending snapshot } :=
      hi.of_same rfl rfl rfl rfl fun h => h
    exact hi'.lock hfits hok hs
  · cases hs
    exact hi.of_same rfl rfl rfl rfl fun h => h

theorem step (hi : Intact s) {a : Step} (hs : next s a = some s') (hok : Orderly s a) :
    Intact s' := by
  cases a with
  | reply call snapshot =>
    rw [next] at hs
    split_ifs at hs
    exact hi.sessionCall (hok rfl) hs
  | scanEnds report =>
    cases report with
    | none =>
      rw [next] at hs
      split_ifs at hs
      cases hs
      exact hi.of_same rfl rfl rfl rfl fun h => h
    | some call =>
      rw [next] at hs
      split_ifs at hs
      exact hi.sessionCall (hok rfl) hs
  | flusherSends =>
    rw [next] at hs
    split at hs
    · have hi' : Intact { s with flusher := .sending } := hi.of_same rfl rfl rfl rfl fun h => h
      split_ifs at hs with hfits
      · exact hi'.lock hfits (hok rfl) hs
      · cases hs
        exact hi.of_same rfl rfl rfl rfl fun h => h
    · cases hs
  | answer a =>
    rw [next] at hs
    split at hs
    · cases hs
    · next h hh =>
      by_cases hrest : h.rest = []
      · rw [if_pos hrest] at hs
        cases hs
      rw [if_neg hrest] at hs
      cases a with
      | sent n =>
        dsimp only at hs
        split_ifs at hs with hshut
        cases hs
        exact hi.sent hh (by simpa using hshut) n
      | interrupted =>
        cases hs
        exact hi
      | failed e =>
        cases hs
        obtain ⟨hput, hcalls, hholder, -, -⟩ := release_same s h (.error e.errc)
        exact hi.release hh hput hcalls hholder (.inr rfl)
  | done =>
    rw [next] at hs
    split at hs
    · cases hs
    · next h hh =>
      split_ifs at hs with hrest
      cases hs
      obtain ⟨hput, hcalls, hholder, htorn, -⟩ := release_same s h (.ok ())
      exact hi.release hh hput hcalls hholder (.inl ⟨htorn, hrest⟩)
  | shutdownPeer | stop =>
    rw [next] at hs
    split_ifs at hs
    cases hs
    exact hi.of_same rfl rfl rfl rfl fun _ => rfl
  | register | leave | deregister | finish | broadcast m | broadcastEnds =>
    rw [next] at hs
    split_ifs at hs
    cases hs
    exact hi.of_same rfl rfl rfl rfl fun h => h

end Intact

/-! ### The result -/

theorem wires_eq (cs : List SendCall) :
    wires cs = (cs.flatMap SendCall.messages).flatMap Message.wire := by
  rw [wires, List.flatMap_assoc]
  rfl

/-- **The frames on a shared channel stay whole** in every run in which no call begins on an open
channel after another call failed half-way: the stream is the beginning of a sequence of frames
that the threads sent, and a peer receives the first of these frames and no others. -/
theorem intact_of_orderly {steps : List Step} {s : State} (h : system.ExecWith Orderly steps s) :
    ∃ cs : List SendCall, cs.Sublist s.calls ∧
      s.put <+: (cs.flatMap SendCall.messages).flatMap Message.wire ∧
      ∀ rx : FrameChannel, rx.Ready → stream rx.arrivals <+: s.put → ∀ n,
        (receives n rx).1.filterMap Except.toOption <+:
          (cs.flatMap SendCall.messages).map Message.frame := by
  have hi : Intact s := h.invariant (I := Intact)
    (by
      rintro s rfl
      exact ⟨nofun, ⟨[], List.Sublist.refl _, List.nil_prefix⟩,
        fun _ _ => ⟨[], List.Sublist.refl _, rfl⟩, (fun _ h hh => nomatch hh),
        (fun ht => nomatch ht)⟩)
    fun s a s' hi hs hok => hi.step hs hok
  obtain ⟨cs, hcs, hput⟩ := hi.starts
  rw [wires_eq] at hput
  refine ⟨cs, hcs, hput, fun rx hrx hpre n =>
    receives_prefix hrx (fun m hm => ?_) (hpre.trans hput) n⟩
  obtain ⟨c, hc, hmc⟩ := List.mem_flatMap.1 hm
  exact (hi.fits c (hcs.subset hc)).payload_le hmc

/-- The flusher's frame fails before its first byte, and the session thread sends a part of its
own. -/
theorem intact_of_orderly_untouched :
    ∃ s, system.ExecWith Orderly
        [.register, .broadcast { type := 5, payload := [] }, .flusherSends,
          .answer (.failed .other), .reply (.send { type := 10, payload := [] }) false,
          .answer (.sent 7)] s ∧ s.put.length = 7 ∧
      ∃ cs : List SendCall, cs.Sublist s.calls ∧
        s.put <+: (cs.flatMap SendCall.messages).flatMap Message.wire := by
  have hput : (List.foldlM (fun s a => if Orderly s a then next s a else none) ({} : State)
      [.register, .broadcast { type := 5, payload := [] }, .flusherSends,
        .answer (.failed .other), .reply (.send { type := 10, payload := [] }) false,
        .answer (.sent 7)]).map (fun s => s.put.length) = some 7 := by decide
  obtain ⟨s, hs, hlen⟩ := Option.map_eq_some_iff.1 hput
  have hexec : system.ExecWith Orderly _ s := TransSys.execWith_ofNext rfl hs
  obtain ⟨cs, hcs, hpre, -⟩ := intact_of_orderly hexec
  exact ⟨s, hexec, hlen, cs, hcs, hpre⟩

/-- A reply of the session thread. -/
def answerFrame : Message := { type := 7, requestId := 1, payload := bytes "contents" }

/-- A broadcast of the flusher. -/
def noticeFrame : Message := { type := 5, payload := bytes "notice" }

/-- What the peer makes of the two. -/
def mixedFrame : Message := { type := 7, requestId := 1, payload := bytes "contWSLD" }

/-- The session thread times out within its frame, and the flusher sends before the session has
left the list of peers. -/
def tearingSteps : List Step :=
  [.register, .reply (.send answerFrame) false, .answer (.sent 28), .answer (.failed .again),
    .broadcast noticeFrame, .flusherSends, .answer (.sent 30), .done]

/-- The two frames as the peer sees them: a frame, and bytes that are no header. -/
theorem torn_eq : answerFrame.wire.take 28 ++ noticeFrame.wire =
    mixedFrame.wire ++ (noticeFrame.wire.drop 4 ++ []) := by
  decide

theorem receive_torn {rx : FrameChannel} (hrx : rx.Ready)
    (hs : stream rx.arrivals = answerFrame.wire.take 28 ++ noticeFrame.wire) :
    ∃ rx', rx.receive = (.ok mixedFrame.frame, rx') ∧ rx'.Ready ∧
      rx'.receive.1 = .error .badMagic := by
  rw [torn_eq] at hs
  obtain ⟨rx', heq, hrx', hs'⟩ := receive_frame hrx (by decide) hs
  have hcut : stream rx'.arrivals =
      (noticeFrame.wire.drop 4).take 24 ++ (noticeFrame.wire.drop 4).drop 24 := by
    rw [hs', List.append_nil, List.take_append_drop]
  exact ⟨rx', heq, hrx', receive_badHeader hrx' hcut (by decide) (by decide)⟩

/-- **A frame can follow a part of another one.**  The stream is not the beginning of any sequence
of frames, and what the peer receives first is a frame that nobody sent: its payload ends with the
first bytes of the second frame. -/
theorem tearing :
    ∃ s, system.Exec tearingSteps s ∧ s.shut = false ∧
      s.put = answerFrame.wire.take 28 ++ noticeFrame.wire ∧
      (∀ ms : List Message, (∀ m ∈ ms, m.payload.length ≤ kMaxPayload) →
        ¬ s.put <+: ms.flatMap Message.wire) ∧
      ∀ rx : FrameChannel, rx.Ready → stream rx.arrivals = s.put →
        rx.receive.1 = .ok mixedFrame.frame := by
  have hput : (tearingSteps.foldlM next {}).map State.put =
      some (answerFrame.wire.take 28 ++ noticeFrame.wire) := by decide
  have hshut : (tearingSteps.foldlM next {}).map State.shut = some false := by decide
  obtain ⟨s, hs, hput⟩ := Option.map_eq_some_iff.1 hput
  rw [hs] at hshut
  refine ⟨s, TransSys.exec_ofNext rfl hs, Option.some.inj hshut, hput, fun ms hms hpre => ?_,
    fun rx hrx hrs => ?_⟩
  · let rx : FrameChannel := { arrivals := [.data s.put] }
    have hrs : stream rx.arrivals = s.put := List.append_nil _
    have hrx : rx.Ready := ⟨fun reset hr => by simp [rx] at hr, le_rfl, rfl⟩
    obtain ⟨rx', heq, hrx', hbad⟩ := receive_torn hrx (hrs.trans hput)
    obtain ⟨m, ms', ch, rfl, heq', -, hpre'⟩ | ⟨ch, heq', -⟩ :=
      receive_prefix hrx hms (hrs ▸ hpre)
    · obtain ⟨-, rfl⟩ := Prod.mk.inj (heq.symm.trans heq')
      obtain ⟨m', ms'', ch', rfl, heq'', -⟩ | ⟨ch', heq'', -⟩ :=
        receive_prefix hrx' (fun d hd => hms d (List.mem_cons_of_mem m hd)) hpre'
      all_goals
        rw [heq''] at hbad
        cases hbad
    · rw [heq] at heq'
      cases heq'
  · obtain ⟨rx', heq, -⟩ := receive_torn hrx (hrs.trans hput)
    rw [heq]

end SharedChannel

end WslDrive
