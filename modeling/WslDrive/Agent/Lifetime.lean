import Mathlib.Logic.Function.Basic
import WslDrive.Lib.Exec

/-!
# The lifetime of a channel

The thread that calls `serve` owns the channel and destroys it when `serve` has returned.  A
broadcast copies the list of peers under `peers_mu_` and sends without it, on pointers that may be
older than the list.  `serve` therefore takes its channel off the list and then waits until no
broadcast is in flight.  Each step here is one critical section, or one call on a channel.

Addresses are used again: a channel is an address with a serial number, and only the address is
seen by the code.

* `Inv` — the counter counts the broadcasts, and the channels they hold have a `serve` that has
  registered them and has not returned;
* `uses_not_returned` — what a step sends on or shuts down is alive.
-/

namespace WslDrive

namespace Lifetime

/-- A channel: where it is, and the how-manieth channel it is. -/
structure Channel (α : Type*) where
  address : α
  serial : ℕ
  deriving DecidableEq, Repr

/-- Where the thread in `serve` is. -/
inductive Phase where
  /-- Before the handshake, or with `add_peer` still to call. -/
  | unregistered
  | registered
  /-- Off the list of peers, in `peers_cv_.wait`. -/
  | waiting
  deriving DecidableEq, Repr

/-- A call of `serve`, numbered to tell channels at one address apart. -/
structure Session where
  serial : ℕ
  phase : Phase
  deriving DecidableEq, Repr

/-- A call of `broadcast` between its two critical sections. -/
structure Broadcast (α : Type*) where
  /-- The copy of the list, from the peer it is at. -/
  targets : List (Channel α)
  /-- `send_raw` has returned `Timeout` for the first of them. -/
  timedOut : Bool := false
  deriving DecidableEq, Repr

/-- The server, by the addresses of its channels. -/
structure State (α : Type*) where
  /-- The `serve` that runs on the channel at an address. -/
  sessions : α → Option Session := fun _ => none
  created : ℕ := 0
  peers : List (Channel α) := []
  broadcastsInFlight : ℕ := 0
  broadcasts : List (Broadcast α) := []
  stopping : Bool := false
  /-- The channels whose `serve` has returned. -/
  returned : List (Channel α) := []

/-- The atomic steps of `serve` and `broadcast_batch`. -/
inductive Step (α : Type*) where
  /-- A connection is accepted, and `serve` is called. -/
  | serve (a : α)
  | addPeer (a : α)
  /-- `serve` returns because the server is stopping, before it has registered its channel. -/
  | giveUp (a : α)
  /-- `serve` leaves its loop and takes its channel off the list. -/
  | deregister (a : α)
  /-- The wait in `serve` ends, and `serve` returns. -/
  | finish (a : α)
  /-- `broadcast` copies the list. -/
  | broadcast
  /-- The `k`-th broadcast sends to its next peer. -/
  | send (k : ℕ) (timeout : Bool)
  /-- The `k`-th broadcast shuts down the peer that timed out. -/
  | shutdown (k : ℕ)
  | broadcastEnds (k : ℕ)
  /-- `stop` sets the flag, -/
  | stop
  /-- and shuts down the peers under the lock. -/
  | shutdownPeers
  deriving DecidableEq, Repr

variable {α : Type*}

section Steps

variable [DecidableEq α]

/-- The session at an address is somewhere else. -/
def State.setPhase (s : State α) (a : α) (x : Session) (phase : Phase) : State α :=
  { s with sessions := Function.update s.sessions a (some { x with phase }) }

/-- `serve` returns, and the channel is destroyed. -/
def State.ret (s : State α) (a : α) (x : Session) : State α :=
  { s with
    sessions := Function.update s.sessions a none
    returned := ⟨a, x.serial⟩ :: s.returned }

/-- One step, if it is possible. -/
def next (s : State α) : Step α → Option (State α)
  | .serve a =>
    match s.sessions a with
    | some _ => none
    | none => some { s with
        sessions := Function.update s.sessions a (some ⟨s.created, .unregistered⟩)
        created := s.created + 1 }
  | .addPeer a => (s.sessions a).bind fun x =>
    if x.phase = .unregistered then
      if s.stopping then some s
      else some { s.setPhase a x .registered with peers := s.peers ++ [⟨a, x.serial⟩] }
    else none
  | .giveUp a => (s.sessions a).bind fun x =>
    if x.phase = .unregistered ∧ s.stopping then some (s.ret a x) else none
  | .deregister a => (s.sessions a).bind fun x =>
    if x.phase = .waiting then none
    else some { s.setPhase a x .waiting with peers := s.peers.filter fun c => c.address ≠ a }
  | .finish a => (s.sessions a).bind fun x =>
    if x.phase = .waiting ∧ s.broadcastsInFlight = 0 then some (s.ret a x) else none
  | .broadcast => some { s with
      broadcasts := s.broadcasts ++ [{ targets := s.peers }]
      broadcastsInFlight := s.broadcastsInFlight + 1 }
  | .send k timeout =>
    match s.broadcasts[k]? with
    | some ⟨c :: targets, false⟩ => some { s with
        broadcasts := s.broadcasts.set k
          (if timeout then ⟨c :: targets, true⟩ else ⟨targets, false⟩) }
    | _ => none
  | .shutdown k =>
    match s.broadcasts[k]? with
    | some ⟨_ :: targets, true⟩ => some { s with broadcasts := s.broadcasts.set k ⟨targets, false⟩ }
    | _ => none
  | .broadcastEnds k =>
    match s.broadcasts[k]? with
    | some ⟨[], _⟩ => some { s with
        broadcasts := s.broadcasts.eraseIdx k
        broadcastsInFlight := s.broadcastsInFlight - 1 }
    | _ => none
  | .stop => some { s with stopping := true }
  | .shutdownPeers => some s

variable (α) in
/-- The server, started with no connection. -/
def system : TransSys (State α) (Step α) := .ofNext (· = {}) next

end Steps

/-- The channels on which a step sends, or which it shuts down. -/
def Step.uses (s : State α) : Step α → List (Channel α)
  | .send k _ | .shutdown k => ((s.broadcasts[k]?).bind (·.targets.head?)).toList
  | .shutdownPeers => s.peers
  | _ => []

/-- A `serve` runs on the channel and has registered it. -/
def State.Holds (s : State α) (c : Channel α) : Prop :=
  ∃ x, s.sessions c.address = some x ∧ x.serial = c.serial ∧ x.phase ≠ .unregistered

/-- The invariant: whoever is to be sent to is alive. -/
structure Inv (s : State α) : Prop where
  inFlight : s.broadcastsInFlight = s.broadcasts.length
  peers : ∀ c ∈ s.peers, s.sessions c.address = some ⟨c.serial, .registered⟩
  targets : ∀ b ∈ s.broadcasts, ∀ c ∈ b.targets, s.Holds c
  created : ∀ a x, s.sessions a = some x → x.serial < s.created
  returned : ∀ c ∈ s.returned, c.serial < s.created ∧
    ∀ x, s.sessions c.address = some x → x.serial ≠ c.serial

variable {s s' : State α} {a : α} {x : Session} {c : Channel α}

theorem Inv.start : Inv ({} : State α) where
  inFlight := rfl
  peers := List.forall_mem_nil _
  targets := List.forall_mem_nil _
  created a x hx := by cases hx
  returned := List.forall_mem_nil _

theorem Inv.frame (h : Inv s) {broadcasts : List (Broadcast α)} {n : ℕ}
    (hn : n = broadcasts.length)
    (hb : ∀ b ∈ broadcasts, ∀ c ∈ b.targets, c ∈ s.peers ∨ ∃ b' ∈ s.broadcasts, c ∈ b'.targets) :
    Inv { s with broadcasts, broadcastsInFlight := n } where
  inFlight := hn
  peers := h.peers
  targets b hmem c hc := by
    rcases hb b hmem c hc with hpeer | ⟨b', hb', hc'⟩
    · exact ⟨_, h.peers c hpeer, rfl, Phase.noConfusion⟩
    · exact h.targets b' hb' c hc'
  created := h.created
  returned := h.returned

theorem Inv.advance (h : Inv s) {k : ℕ} {b b' : Broadcast α} (hb : s.broadcasts[k]? = some b)
    (hsub : ∀ c ∈ b'.targets, c ∈ b.targets) :
    Inv { s with broadcasts := s.broadcasts.set k b' } := by
  refine h.frame (by rw [h.inFlight, List.length_set]) fun d hd c hc => .inr ?_
  rcases List.mem_or_eq_of_mem_set hd with hold | rfl
  · exact ⟨d, hold, hc⟩
  · exact ⟨b, List.mem_of_getElem? hb, hsub c hc⟩

section Steps

variable [DecidableEq α]

theorem update_sessions_eq_some {o : Option Session} {d : α} {y : Session}
    (hy : Function.update s.sessions a o d = some y) :
    d = a ∧ o = some y ∨ d ≠ a ∧ s.sessions d = some y := by
  by_cases hd : d = a
  · rw [hd, Function.update_self] at hy
    exact .inl ⟨hd, hy⟩
  · rw [Function.update_of_ne hd] at hy
    exact .inr ⟨hd, hy⟩

theorem State.Holds.update (hc : s.Holds c) {o : Option Session}
    (ho : c.address = a → ∀ x, s.sessions a = some x → x.phase ≠ .unregistered →
      ∃ x', o = some x' ∧ x'.serial = x.serial ∧ x'.phase ≠ .unregistered)
    (hs' : s'.sessions = Function.update s.sessions a o) : s'.Holds c := by
  obtain ⟨x, hx, hserial, hphase⟩ := hc
  by_cases ha : c.address = a
  · obtain ⟨x', rfl, hserial', hphase'⟩ := ho ha x (ha ▸ hx) hphase
    exact ⟨x', by rw [hs', ha, Function.update_self], hserial'.trans hserial, hphase'⟩
  · exact ⟨x, by rw [hs', Function.update_of_ne ha, hx], hserial, hphase⟩

theorem Inv.serve (h : Inv s) (ha : s.sessions a = none) :
    Inv { s with
      sessions := Function.update s.sessions a (some ⟨s.created, .unregistered⟩)
      created := s.created + 1 } where
  inFlight := h.inFlight
  peers c hc := by
    have hne : c.address ≠ a := by
      rintro rfl
      rw [h.peers c hc] at ha
      cases ha
    exact (Function.update_of_ne hne _ _).trans (h.peers c hc)
  targets b hb c hc := (h.targets b hb c hc).update (fun _ x hx _ => by
    rw [ha] at hx
    cases hx) rfl
  created d x hx := by
    rcases update_sessions_eq_some hx with ⟨-, ⟨⟩⟩ | ⟨-, hx⟩
    · exact Nat.lt_succ_self _
    · exact Nat.lt_succ_of_lt (h.created d x hx)
  returned c hc := by
    obtain ⟨hlt, hne⟩ := h.returned c hc
    refine ⟨Nat.lt_succ_of_lt hlt, fun x hx => ?_⟩
    rcases update_sessions_eq_some hx with ⟨-, ⟨⟩⟩ | ⟨-, hx⟩
    · exact Nat.ne_of_gt hlt
    · exact hne x hx

theorem Inv.setPhase (h : Inv s) (hx : s.sessions a = some x) {phase : Phase}
    (hphase : phase ≠ .unregistered) {peers : List (Channel α)}
    (hpeers : ∀ c ∈ peers, (c ∈ s.peers ∧ c.address ≠ a) ∨
      (c = ⟨a, x.serial⟩ ∧ phase = .registered)) :
    Inv { s.setPhase a x phase with peers } where
  inFlight := h.inFlight
  peers c hc := by
    rcases hpeers c hc with ⟨hold, hne⟩ | ⟨rfl, rfl⟩
    · exact (Function.update_of_ne hne _ _).trans (h.peers c hold)
    · exact Function.update_self ..
  targets b hb c hc := (h.targets b hb c hc).update (fun _ y hy _ => by
    rw [hx] at hy
    cases hy
    exact ⟨_, rfl, rfl, hphase⟩) rfl
  created d y hy := by
    rcases update_sessions_eq_some hy with ⟨-, ⟨⟩⟩ | ⟨-, hy⟩
    · exact h.created a x hx
    · exact h.created d y hy
  returned c hc := by
    obtain ⟨hlt, hne⟩ := h.returned c hc
    refine ⟨hlt, fun y hy => ?_⟩
    rcases update_sessions_eq_some hy with ⟨hd, ⟨⟩⟩ | ⟨-, hy⟩
    · exact hne x (hd ▸ hx)
    · exact hne y hy

theorem Inv.ret (h : Inv s) (hx : s.sessions a = some x) (hpeer : x.phase ≠ .registered)
    (hfree : x.phase = .unregistered ∨ s.broadcasts = []) : Inv (s.ret a x) where
  inFlight := h.inFlight
  peers c hc := by
    have hold := h.peers c hc
    have hne : c.address ≠ a := by
      rintro rfl
      rw [hx] at hold
      cases hold
      exact hpeer rfl
    exact (Function.update_of_ne hne _ _).trans hold
  targets b hb c hc := (h.targets b hb c hc).update (fun _ y hy hphase => by
    rw [hx] at hy
    cases hy
    rcases hfree with hun | hnil
    · exact absurd hun hphase
    · have hmem : b ∈ s.broadcasts := hb
      rw [hnil] at hmem
      cases hmem) rfl
  created d y hy := by
    obtain ⟨-, ⟨⟩⟩ | ⟨-, hy⟩ := update_sessions_eq_some hy
    exact h.created d y hy
  returned c hc := by
    rcases List.mem_cons.1 hc with rfl | hold
    · refine ⟨h.created a x hx, fun y hy => ?_⟩
      obtain ⟨-, ⟨⟩⟩ | ⟨hne, -⟩ := update_sessions_eq_some hy
      exact absurd rfl hne
    · obtain ⟨hlt, hne⟩ := h.returned c hold
      refine ⟨hlt, fun y hy => ?_⟩
      obtain ⟨-, ⟨⟩⟩ | ⟨-, hy⟩ := update_sessions_eq_some hy
      exact hne y hy

theorem Inv.step {step : Step α} (h : Inv s) (hs : next s step = some s') : Inv s' := by
  cases step with
  | serve a =>
    rw [next] at hs
    cases ha : s.sessions a with
    | some x =>
      rw [ha] at hs
      cases hs
    | none =>
      rw [ha] at hs
      cases hs
      exact h.serve ha
  | addPeer a =>
    obtain ⟨x, hx, hs⟩ := Option.bind_eq_some_iff.1 hs
    split_ifs at hs with hphase hstop
    · cases hs
      exact h
    · cases hs
      refine h.setPhase hx (by decide) fun c hc => ?_
      rcases List.mem_append.1 hc with hold | hnew
      · refine .inl ⟨hold, ?_⟩
        rintro rfl
        have := h.peers c hold
        rw [hx] at this
        cases this
        cases hphase
      · exact .inr ⟨List.mem_singleton.1 hnew, rfl⟩
  | giveUp a =>
    obtain ⟨x, hx, hs⟩ := Option.bind_eq_some_iff.1 hs
    split_ifs at hs with hphase
    cases hs
    exact h.ret hx (by rw [hphase.1]; decide) (.inl hphase.1)
  | deregister a =>
    obtain ⟨x, hx, hs⟩ := Option.bind_eq_some_iff.1 hs
    split_ifs at hs with hphase
    cases hs
    refine h.setPhase hx (by decide) fun c hc => .inl ?_
    simpa using hc
  | finish a =>
    obtain ⟨x, hx, hs⟩ := Option.bind_eq_some_iff.1 hs
    split_ifs at hs with hphase
    cases hs
    refine h.ret hx (by rw [hphase.1]; decide) (.inr (List.length_eq_zero_iff.1 ?_))
    exact h.inFlight.symm.trans hphase.2
  | broadcast =>
    cases hs
    refine h.frame ?_ fun b hb c hc => ?_
    · rw [h.inFlight, List.length_append, List.length_singleton]
    rcases List.mem_append.1 hb with hold | hnew
    · exact .inr ⟨b, hold, hc⟩
    · rw [List.mem_singleton.1 hnew] at hc
      exact .inl hc
  | send k timeout =>
    rw [next] at hs
    split at hs
    · rename_i c targets hb
      cases hs
      refine h.advance hb fun d hd => ?_
      cases timeout with
      | true => exact hd
      | false => exact List.mem_cons_of_mem c hd
    · cases hs
  | shutdown k =>
    rw [next] at hs
    split at hs
    · rename_i c targets hb
      cases hs
      exact h.advance hb fun d hd => List.mem_cons_of_mem c hd
    · cases hs
  | broadcastEnds k =>
    rw [next] at hs
    split at hs
    · rename_i timedOut hb
      cases hs
      have hlt := (List.getElem?_eq_some_iff.1 hb).1
      refine h.frame (by rw [h.inFlight, List.length_eraseIdx_of_lt hlt]) fun b hb c hc => ?_
      exact .inr ⟨b, List.mem_of_mem_eraseIdx hb, hc⟩
    · cases hs
  | stop =>
    cases hs
    exact ⟨h.inFlight, h.peers, h.targets, h.created, h.returned⟩
  | shutdownPeers =>
    cases hs
    exact h

theorem inv_of_exec {steps : List (Step α)} (h : (system α).Exec steps s) : Inv s :=
  h.invariant (fun _ hs => hs ▸ .start) fun _ _ _ hi hs _ => hi.step hs

/-- **No use after return.**  In every run, a channel on which a broadcast sends, or which it shuts
down, or which `stop` shuts down, is one whose `serve` has not returned, and the channel that is
now at its address. -/
theorem uses_not_returned {steps : List (Step α)} {step : Step α}
    (hrun : (system α).Exec steps s) (hc : c ∈ step.uses s) :
    c ∉ s.returned ∧ ∃ x, s.sessions c.address = some x ∧ x.serial = c.serial := by
  have h := inv_of_exec hrun
  have hbroadcast : ∀ k, c ∈ Step.uses s (.shutdown k) →
      ∃ x, s.sessions c.address = some x ∧ x.serial = c.serial := by
    intro k hk
    rw [Step.uses, Option.mem_toList, Option.bind_eq_some_iff] at hk
    obtain ⟨b, hb, hhead⟩ := hk
    obtain ⟨x, hx, hserial, -⟩ :=
      h.targets b (List.mem_of_getElem? hb) c (List.mem_of_head? hhead)
    exact ⟨x, hx, hserial⟩
  have hlive : ∃ x, s.sessions c.address = some x ∧ x.serial = c.serial := by
    cases step with
    | send k _ => exact hbroadcast k hc
    | shutdown k => exact hbroadcast k hc
    | shutdownPeers => exact ⟨_, h.peers c hc, rfl⟩
    | _ => cases hc
  refine ⟨fun hret => ?_, hlive⟩
  obtain ⟨x, hx, hserial⟩ := hlive
  exact (h.returned c hret).2 x hx hserial

end Steps

/-- The second channel at an address is sent to while its `serve` waits; the first one is gone. -/
def reused : List (Step Bool) :=
  [.serve true, .addPeer true, .deregister true, .finish true, .serve true, .addPeer true,
    .broadcast, .deregister true]

theorem uses_not_returned_reused :
    ∃ s : State Bool, reused.foldlM next {} = some s ∧ s.returned = [⟨true, 0⟩] ∧
      ⟨true, 1⟩ ∈ Step.uses s (.send 0 true) ∧ (⟨true, 1⟩ : Channel Bool) ∉ s.returned := by
  obtain ⟨s, hs⟩ : ∃ s : State Bool, reused.foldlM next {} = some s := ⟨_, rfl⟩
  have hrun : (system Bool).Exec reused s := TransSys.exec_ofNext rfl hs
  have huse : ⟨true, 1⟩ ∈ Step.uses s (.send 0 true) := by
    cases hs
    exact List.mem_singleton_self _
  have hret : s.returned = [⟨true, 0⟩] := by
    cases hs
    rfl
  exact ⟨s, hs, hret, huse, (uses_not_returned hrun huse).1⟩

end Lifetime

end WslDrive
