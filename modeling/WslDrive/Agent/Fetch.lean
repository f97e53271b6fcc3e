import WslDrive.Agent.Listing

/-!
# Fetching a snapshot while changes arrive

The agent and the client of `Agreement`, without mutations of the client, and one request for a
snapshot.  The client records the batches that arrive from before the request is sent until the
snapshot is loaded; the agent stamps the snapshot with its generation, reads the paths at any times
after that, and sends the entries; the client loads them and replays the recorded batches whose
generation is above the stamp.

* `Invariant.step` — what every step preserves;
* `fetched_agrees` — when nothing is under way after the load, the mirror has the files of the disk
  with their attributes, or another snapshot is requested.
-/

namespace WslDrive

open MetadataTree Path Agreement

namespace Fetch

/-! ### The system -/

/-- Where the request for the snapshot is. -/
inductive Progress where
  | idle
  | requested
  /-- The snapshot is stamped; `read` is what has been found at the paths so far. -/
  | scanning (generation : UInt64) (read : Bytes → Option (Option Attributes))
  /-- The entries have been sent. -/
  | replied (generation : UInt64) (above files : List SnapshotEntry)
  | loaded

/-- The system with its request for a snapshot. -/
structure State where
  sys : System
  progress : Progress := .idle
  /-- Batches that have arrived while the request is in flight. -/
  arrived : ℕ := 0

/-- The steps of the system and of the request. -/
inductive Step where
  /-- A step of the system that has nothing to do with the snapshot. -/
  | run (action : Action)
  | begin
  | stamp
  /-- Some of the paths that are not read yet are read now. -/
  | scan (paths : Bytes → Bool)
  | reply (above files : List SnapshotEntry)
  | load

variable (d : Directory) (opts : RootServer.Options)

/-- One step, if it is possible.  The client makes no mutations. -/
def State.next (s : State) : Step → Option State
  | .run .receive =>
    (s.sys.next d opts .receive).map fun sys =>
      { s with sys, arrived := s.arrived + if s.sys.client.snapshotInFlight then 1 else 0 }
  | .run action =>
    if action.sends then (s.sys.next d opts action).map fun sys => { s with sys } else none
  | .begin =>
    match s.progress with
    | .idle => some { s with sys.client := s.sys.client.beginSnapshot, progress := .requested }
    | _ => none
  | .stamp =>
    match s.progress with
    | .requested => some { s with progress := .scanning s.sys.generation fun _ => none }
    | _ => none
  | .scan paths =>
    match s.progress with
    | .scanning gen read =>
      some { s with progress := .scanning gen fun n =>
               if (read n).isNone && paths n then some (s.sys.disk n) else read n }
    | _ => none
  | .reply above files =>
    match s.progress with
    | .scanning gen _ => some { s with progress := .replied gen above files }
    | _ => none
  | .load =>
    match s.progress with
    | .replied gen above files =>
      some { s with sys.client := (s.sys.client.endSnapshot (.ok (above ++ files, gen))).2
                    progress := .loaded }
    | _ => none

/-- The agent sends its reply when it has read every path, with the entries it has found. -/
def Complete (s : State) : Step → Prop
  | .reply above files => Listing d above files ∧
      ∀ gen read, s.progress = .scanning gen read → ∀ n, read n = some (found files n)
  | _ => True

/-- Nothing is under way.  Whatever the mirror holds, the snapshot replaces it. -/
structure Initial (s : State) : Prop extends AtRest s.sys where
  generation : s.sys.generation = 1
  mode : s.sys.client.lookupMode = .exact
  inFlight : s.sys.client.snapshotInFlight = false
  replay : s.sys.client.snapshotReplay = []
  overflow : s.sys.client.snapshotReplayOverflow = false
  progress : s.progress = .idle
  arrived : s.arrived = 0

/-- The system. -/
def system : TransSys State Step := .ofNext Initial (State.next d opts)

/-! ### The invariant -/

/-- The recorded updates of a file. -/
def recorded (n : Bytes) (c : RemoteRoot) : List (ℕ × Option Attributes) :=
  c.snapshotReplay.flatMap fun b => values d n b.generation b.ops

/-- The stamp, and what the scan has read at a path. -/
def Progress.known (n : Bytes) : Progress → Option (UInt64 × Option Attributes)
  | .scanning gen read => (read n).map (gen, ·)
  | .replied gen _ files => some (gen, found files n)
  | _ => none

/-- The scan has a stamp of the past, and finds files. -/
def Progress.Sound (generation : UInt64) : Progress → Prop
  | .scanning gen read => gen.toNat ≤ generation.toNat ∧
      ∀ n a, read n = some (some a) → validName n = true ∧ a.kind = .file
  | .replied _ above files => Listing d above files ∧
      ∀ e ∈ files, validName e.name = true ∧ e.attr.kind = .file
  | _ => True

/-- Before the snapshot is loaded. -/
structure Before (s : State) : Prop where
  idle : s.progress = .idle → s.sys.client.snapshotInFlight = false ∧ s.arrived = 0
  inFlight : s.progress ≠ .idle → s.sys.client.snapshotInFlight = true
  length : s.sys.client.snapshotReplay.length = min s.arrived RemoteRoot.kMaxSnapshotReplay
  overflow : s.sys.client.snapshotReplayOverflow =
    decide (RemoteRoot.kMaxSnapshotReplay < s.arrived)
  about : ∀ b ∈ s.sys.client.snapshotReplay, ∀ op ∈ b.ops, ∃ m, d.About m op
  sound : s.progress.Sound d s.sys.generation
  ordered : s.arrived ≤ RemoteRoot.kMaxSnapshotReplay → ∀ n, validName n = true →
    (s.sys.feed d n).Ordered (recorded d n s.sys.client)
  scanned : s.arrived ≤ RemoteRoot.kMaxSnapshotReplay → ∀ n, validName n = true →
    ∀ gen v, s.progress.known n = some (gen, v) →
      (s.sys.feed d n).Scanned (recorded d n s.sys.client) gen.toNat v

/-- After that. -/
structure After (s : State) : Prop where
  inFlight : s.sys.client.snapshotInFlight = false
  holds : d.Holds s.sys.client.tree
  rescan : RemoteRoot.kMaxSnapshotReplay < s.arrived → s.sys.client.rsRequested = true
  covered : s.arrived ≤ RemoteRoot.kMaxSnapshotReplay → ∀ n, validName n = true →
    (s.sys.feed d n).Covered (d.files s.sys.client.tree n)

/-- What holds in every state of a run. -/
structure Invariant (s : State) : Prop where
  sends : Sends d s.sys
  outstanding : s.sys.outstanding = []
  mutations : s.sys.client.localMutations = ∅
  mode : s.sys.client.lookupMode = .exact
  before : s.progress ≠ .loaded → Before d s
  after : s.progress = .loaded → After d s

variable {d opts} {s s' : State} {n : Bytes}

theorem Initial.invariant (h : Initial s) : Invariant d s where
  sends := h.sends
  outstanding := h.outstanding
  mutations := h.mutations
  mode := h.mode
  before _ := by
    refine ⟨fun _ => ⟨h.inFlight, h.arrived⟩, fun hne => absurd h.progress hne, ?_, ?_, ?_, ?_,
      fun _ n _ => ?_, ?_⟩
    · rw [h.replay, h.arrived, Nat.zero_min]
      rfl
    · rw [h.overflow, h.arrived]
      rfl
    · rw [h.replay]
      exact List.forall_mem_nil _
    · rw [h.progress]
      trivial
    · rw [recorded, h.replay]
      exact .of_nil (by rw [System.feed, h.channel, h.flusher]; rfl)
    · rw [h.progress]
      exact fun _ _ _ _ _ hknown => by cases hknown
  after hl := by
    rw [h.progress] at hl
    cases hl

/-! ### Steps of the sending half -/

theorem Progress.Sound.mono {p : Progress} {g g' : UInt64} (h : p.Sound d g)
    (hle : g.toNat ≤ g'.toNat) : p.Sound d g' := by
  cases p with
  | scanning gen read => exact ⟨h.1.trans hle, h.2⟩
  | idle | requested | replied | loaded => exact h

theorem Invariant.feeds {changed : List Bytes} {sys : System} (h : Invariant d s)
    (hf : Feeds d changed s.sys sys) : Invariant d { s with sys } where
  sends := hf.sends
  outstanding := hf.outstanding.trans h.outstanding
  mutations := by
    rw [hf.client]
    exact h.mutations
  mode := by
    rw [hf.client]
    exact h.mode
  before hl := by
    obtain ⟨hidle, hin, hlen, hover, habout, hsound, hord, hscan⟩ := h.before hl
    refine ⟨?_, ?_, ?_, ?_, ?_, ?_, fun hle n hn => ?_, fun hle n hn gen v hv => ?_⟩
    iterate 5
      rw [hf.client]
      assumption
    · exact hsound.mono (hf.step (bytes "x") (by decide)).generation_le.1
    · rw [hf.client]
      exact (hord hle n hn).step (hf.step n hn)
    · rw [hf.client]
      exact (hscan hle n hn gen v hv).step (hf.step n hn)
  after hl := by
    obtain ⟨hin, hholds, hres, hcov⟩ := h.after hl
    refine ⟨?_, ?_, ?_, fun hle n hn => ?_⟩
    iterate 3
      rw [hf.client]
      assumption
    rw [hf.client]
    exact (hcov hle n hn).step (hf.step n hn)

/-! ### A batch arrives -/

/-- A batch, for a client without mutations. -/
structure Receives (c c' : RemoteRoot) (b : InvalidationBatch) : Prop where
  mutations : c'.localMutations = ∅
  mode : c'.lookupMode = c.lookupMode
  tree : c'.tree = b.ops.foldl (fun t op => RemoteRoot.applyTree t c.lookupMode op) c.tree
  rescan : c.rsRequested = true → c'.rsRequested = true
  inFlight : c'.snapshotInFlight = c.snapshotInFlight
  /-- Not recorded. -/
  off : c.snapshotInFlight = false → c'.snapshotReplay = c.snapshotReplay ∧
    c'.snapshotReplayOverflow = c.snapshotReplayOverflow
  /-- Recorded, as long as there is room. -/
  on : c.snapshotInFlight = true →
    c.snapshotReplay.length < RemoteRoot.kMaxSnapshotReplay ∧
      c'.snapshotReplay = c.snapshotReplay ++ [b] ∧
      c'.snapshotReplayOverflow = c.snapshotReplayOverflow ∨
    RemoteRoot.kMaxSnapshotReplay ≤ c.snapshotReplay.length ∧
      c'.snapshotReplay = c.snapshotReplay ∧ c'.snapshotReplayOverflow = true

theorem receives {c : RemoteRoot} (h : c.localMutations = ∅) (b : InvalidationBatch) :
    Receives c (c.applyInvalidation b).1 b := by
  rw [RemoteRoot.applyInvalidation]
  dsimp only
  rw [RemoteRoot.applyOps_eq h, RemoteRoot.record]
  dsimp only
  split_ifs with hoff hroom
  · rw [Bool.not_eq_true'] at hoff
    exact ⟨h, rfl, rfl, fun hr => by simp [hr], rfl, fun _ => ⟨rfl, rfl⟩,
      fun hon => absurd (hoff.symm.trans hon) (by decide)⟩
  · rw [Bool.not_eq_true', Bool.not_eq_false] at hoff
    exact ⟨h, rfl, rfl, fun hr => by simp [hr], rfl,
      fun hon => absurd (hoff.symm.trans hon) (by decide), fun _ => .inl ⟨hroom, rfl, rfl⟩⟩
  · rw [Bool.not_eq_true', Bool.not_eq_false] at hoff
    exact ⟨h, rfl, rfl, fun hr => by simp [hr], rfl,
      fun hon => absurd (hoff.symm.trans hon) (by decide),
      fun _ => .inr ⟨Nat.le_of_not_lt hroom, rfl, rfl⟩⟩

theorem Before.receive {b : InvalidationBatch} {c : RemoteRoot} {sys : System} (h : Before d s)
    (hr : Receives s.sys.client c b) (hops : ∀ op ∈ b.ops, ∃ m, d.About m op)
    (hclient : sys.client = c) (hgen : sys.generation = s.sys.generation)
    (hfeed : ∀ n, ∃ rest, (s.sys.feed d n).inflight = values d n b.generation b.ops ++ rest ∧
      sys.feed d n = { s.sys.feed d n with inflight := rest }) :
    Before d { s with
      sys, arrived := s.arrived + if s.sys.client.snapshotInFlight then 1 else 0 } := by
  subst hclient
  by_cases hidle : s.progress = .idle
  · -- Nothing is recorded yet.
    obtain ⟨hoff, h0⟩ := h.idle hidle
    obtain ⟨hrep, hover⟩ := hr.off hoff
    have hnil : s.sys.client.snapshotReplay = [] :=
      List.length_eq_zero_iff.1 (by rw [h.length, h0, Nat.zero_min])
    rw [hoff]
    refine ⟨fun _ => ⟨hr.inFlight.trans hoff, h0⟩, fun hne => absurd hidle hne,
      by rw [hrep]; exact h.length, hover.trans h.overflow, by rw [hrep]; exact h.about, ?_,
      fun hle n hn => ?_, ?_⟩
    · exact hgen ▸ h.sound
    · obtain ⟨rest, hfl, heq⟩ := hfeed n
      have hord := h.ordered hle n hn
      rw [recorded, hnil] at hord
      rw [recorded, hrep, hnil, heq]
      exact hord.drop hfl
    · rw [hidle]
      exact nofun
  · have hon := h.inFlight hidle
    rw [if_pos hon]
    have hkeep : s.arrived + 1 ≤ RemoteRoot.kMaxSnapshotReplay → ∀ n,
        recorded d n sys.client = recorded d n s.sys.client ++ values d n b.generation b.ops := by
      intro hle n
      rcases hr.on hon with ⟨-, hrep, -⟩ | ⟨hfull, -⟩
      · rw [recorded, hrep, List.flatMap_append, List.flatMap_singleton]
        rfl
      · rw [h.length] at hfull
        omega
    refine ⟨fun h => absurd h hidle, fun _ => hr.inFlight.trans hon, ?_, ?_, ?_, hgen ▸ h.sound,
      fun hle n hn => ?_, fun hle n hn gen v hv => ?_⟩
    · rcases hr.on hon with ⟨hroom, hrep, -⟩ | ⟨hfull, hrep, -⟩
      · rw [hrep, List.length_append, List.length_singleton]
        have := h.length
        dsimp only
        omega
      · rw [hrep]
        have := h.length
        dsimp only
        omega
    · rcases hr.on hon with ⟨hroom, -, hover⟩ | ⟨hfull, -, hover⟩
      · rw [hover, h.overflow, decide_eq_decide]
        have := h.length
        dsimp only
        omega
      · rw [hover, eq_comm, decide_eq_true_iff]
        have := h.length
        dsimp only
        omega
    · rcases hr.on hon with ⟨-, hrep, -⟩ | ⟨-, hrep, -⟩ <;> rw [hrep]
      · intro b' hb'
        rcases List.mem_append.1 hb' with hb' | hb'
        · exact h.about b' hb'
        · cases List.mem_singleton.1 hb'
          exact hops
      · exact h.about
    · obtain ⟨rest, hfl, heq⟩ := hfeed n
      rw [hkeep hle, heq]
      exact (h.ordered (Nat.le_of_succ_le hle) n hn).record hfl
    · obtain ⟨rest, hfl, heq⟩ := hfeed n
      rw [hkeep hle, heq]
      exact (h.scanned (Nat.le_of_succ_le hle) n hn gen v hv).record hfl

theorem After.receive {b : InvalidationBatch} {c : RemoteRoot} {sys : System} (h : After d s)
    (hmode : s.sys.client.lookupMode = .exact) (hr : Receives s.sys.client c b)
    (hops : ∀ op ∈ b.ops, ∃ m, d.About m op) (hclient : sys.client = c)
    (hfeed : ∀ n, ∃ rest, (s.sys.feed d n).inflight = values d n b.generation b.ops ++ rest ∧
      sys.feed d n = { s.sys.feed d n with inflight := rest }) :
    After d { s with
      sys, arrived := s.arrived + if s.sys.client.snapshotInFlight then 1 else 0 } := by
  subst hclient
  have htree := hr.tree
  rw [hmode] at htree
  obtain ⟨hholds, hfiles⟩ := h.holds.applyOps hops b.generation
  rw [← htree] at hholds hfiles
  rw [h.inFlight]
  refine ⟨hr.inFlight.trans h.inFlight, hholds, fun hlt => hr.rescan (h.rescan hlt),
    fun hle n hn => ?_⟩
  obtain ⟨rest, hfl, heq⟩ := hfeed n
  rw [heq, hfiles n hn]
  exact (h.covered hle n hn).receive hfl

theorem Invariant.receive {sys : System} (h : Invariant d s)
    (hs : s.sys.next d opts .receive = some sys) :
    Invariant d { s with
      sys, arrived := s.arrived + if s.sys.client.snapshotInFlight then 1 else 0 } := by
  rw [System.next] at hs
  split at hs
  · cases hs
  · rename_i b rest hch
    cases hs
    have hout : System.outstanding { s.sys with
        channel := rest, client := (s.sys.client.applyInvalidation b).1 } = s.sys.outstanding := by
      rw [System.outstanding, System.outstanding, hch]
      rfl
    have hops := h.sends.channel b (by rw [hch]; exact List.mem_cons_self)
    have hr := receives h.mutations b
    have hfeed : ∀ n, ∃ rest', (s.sys.feed d n).inflight =
        values d n b.generation b.ops ++ rest' ∧ System.feed d n { s.sys with
          channel := rest, client := (s.sys.client.applyInvalidation b).1 } =
          { s.sys.feed d n with inflight := rest' } := by
      intro n
      refine ⟨rest.flatMap (Message.values d n) ++ s.sys.flusher.values d n, ?_, rfl⟩
      rw [System.feed, hch, List.flatMap_cons, Message.values, List.append_assoc]
    refine ⟨{ h.sends with channel := fun b' hb' => h.sends.channel b' ?_ },
      hout.trans h.outstanding, hr.mutations, hr.mode.trans h.mode,
      fun hl => (h.before hl).receive hr hops rfl rfl hfeed,
      fun hl => (h.after hl).receive h.mode hr hops rfl hfeed⟩
    rw [hch]
    exact List.mem_cons_of_mem _ hb'
  · -- There are no replies to mutations.
    rename_i r rest hch
    have := h.outstanding
    rw [System.outstanding, hch] at this
    simp [Message.reply?] at this

/-! ### Steps of the snapshot -/

theorem missed_values (c : RemoteRoot) (gen : UInt64) :
    (c.missed gen).flatMap (fun b => values d n b.generation b.ops) =
      (recorded d n c).filter (gen.toNat < ·.1) := by
  have hgen : ∀ b : InvalidationBatch, ∀ u ∈ values d n b.generation b.ops,
      u.1 = b.generation.toNat := by
    intro b u hu
    obtain ⟨op, -, hop⟩ := List.mem_filterMap.1 hu
    split_ifs at hop
    cases hop
    rfl
  rw [RemoteRoot.missed, recorded]
  induction c.snapshotReplay with
  | nil => rfl
  | cons b bs ih =>
    rw [List.flatMap_cons, List.filter_append, ← ih]
    by_cases hle : b.generation ≤ gen
    · have hnone : (values d n b.generation b.ops).filter (gen.toNat < ·.1) = [] := by
        refine List.filter_eq_nil_iff.2 fun u hu => ?_
        rw [hgen b u hu, decide_eq_true_iff, Nat.not_lt]
        exact UInt64.le_iff_toNat_le.1 hle
      rw [List.filter_cons_of_neg (by simpa using hle), hnone, List.nil_append]
    · have hall : (values d n b.generation b.ops).filter (gen.toNat < ·.1) =
          values d n b.generation b.ops := by
        refine List.filter_eq_self.2 fun u hu => ?_
        rw [hgen b u hu, decide_eq_true_iff, ← Nat.not_le]
        exact fun h => hle (UInt64.le_iff_toNat_le.2 h)
      rw [List.filter_cons_of_pos (by simpa using hle), List.flatMap_cons, hall]

theorem Before.load {gen : UInt64} {above files : List SnapshotEntry} (h : Before d s)
    (hp : s.progress = .replied gen above files) :
    After d { s with
      sys.client := (s.sys.client.endSnapshot (.ok (above ++ files, gen))).2
      progress := .loaded } := by
  have hsound := h.sound
  rw [hp] at hsound
  obtain ⟨hlist, hfile⟩ := hsound
  obtain ⟨hholds, hfiles⟩ := hlist.holds_load (fun e he => (hfile e he).1)
    (fun e he => by rw [(hfile e he).2]; decide) s.sys.client.tree
  have hok := hlist.load_ok s.sys.client.tree
  have hend : (s.sys.client.endSnapshot (.ok (above ++ files, gen))).2 =
      { s.sys.client with
        tree := (s.sys.client.missed gen).foldl RemoteRoot.replay
          (s.sys.client.tree.loadSnapshot (above ++ files)).2
        rsRequested := s.sys.client.rsRequested ||
          s.sys.client.snapshotReplayOverflow }.endRecording := by
    rw [RemoteRoot.endSnapshot]
    generalize s.sys.client.tree.loadSnapshot (above ++ files) = p at hok
    obtain ⟨r, t⟩ := p
    cases hok
    rfl
  obtain ⟨hholds', hfiles'⟩ := hholds.replays (s.sys.client.missed gen)
    fun b hb => h.about b (List.mem_of_mem_filter hb)
  rw [hend]
  refine ⟨rfl, hholds', fun hlt => ?_, fun hle n hn => ?_⟩
  · simp only [RemoteRoot.endRecording, h.overflow, Bool.or_eq_true, decide_eq_true_iff]
    exact .inr hlt
  · have hcov := Feed.Covered.load (h.ordered hle n hn)
      (h.scanned hle n hn gen (found files n) (by rw [hp]; rfl))
    rw [← missed_values, ← hfiles, ← hfiles' n hn] at hcov
    exact hcov

theorem endSnapshot_keeps (c : RemoteRoot)
    (reply : Except Errc (List SnapshotEntry × UInt64)) :
    (c.endSnapshot reply).2.localMutations = c.localMutations ∧
      (c.endSnapshot reply).2.lookupMode = c.lookupMode := by
  rcases reply with e | ⟨entries, gen⟩
  · exact ⟨rfl, rfl⟩
  · rw [RemoteRoot.endSnapshot]
    rcases c.tree.loadSnapshot entries with ⟨_ | _, t⟩ <;> exact ⟨rfl, rfl⟩

theorem Before.begin (h : Before d s) (hp : s.progress = .idle) :
    Before d { s with sys.client := s.sys.client.beginSnapshot, progress := .requested } := by
  obtain ⟨-, h0⟩ := h.idle hp
  have hnil : s.sys.client.snapshotReplay = [] :=
    List.length_eq_zero_iff.1 (by rw [h.length, h0, Nat.zero_min])
  refine ⟨nofun, fun _ => rfl, ?_, h.overflow, nofun, trivial, fun hle n hn => ?_, nofun⟩
  · rw [h0, Nat.zero_min]
    rfl
  · have hord := h.ordered hle n hn
    rw [recorded, hnil] at hord
    exact hord

theorem Before.stamp (h : Before d s) (hp : s.progress = .requested) :
    Before d { s with progress := .scanning s.sys.generation fun _ => none } :=
  ⟨nofun, fun _ => h.inFlight (by rw [hp]; exact nofun), h.length, h.overflow, h.about,
    ⟨Nat.le_refl _, nofun⟩, h.ordered, nofun⟩

theorem Before.scan {gen : UInt64} {read : Bytes → Option (Option Attributes)} (h : Before d s)
    (hsends : Sends d s.sys) (hp : s.progress = .scanning gen read) (paths : Bytes → Bool) :
    Before d { s with progress := .scanning gen fun n =>
      if (read n).isNone && paths n then some (s.sys.disk n) else read n } := by
  have hsound := h.sound
  rw [hp] at hsound
  refine ⟨nofun, fun _ => h.inFlight (by rw [hp]; exact nofun), h.length, h.overflow, h.about,
    ⟨hsound.1, fun n a ha => ?_⟩, h.ordered, fun hle n hn gen' v hv => ?_⟩
  · dsimp only at ha
    split_ifs at ha
    · exact hsends.disk n a (Option.some.inj ha)
    · exact hsound.2 n a ha
  · obtain ⟨w, hw, heq⟩ := Option.map_eq_some_iff.1 hv
    obtain ⟨rfl, rfl⟩ := Prod.mk.inj heq
    dsimp only at hw
    split_ifs at hw
    · cases hw
      exact .now hsound.1
    · exact h.scanned hle n hn gen w (by rw [hp, Progress.known, hw]; rfl)

theorem Before.reply {gen : UInt64} {read : Bytes → Option (Option Attributes)}
    {above files : List SnapshotEntry} (h : Before d s) (hp : s.progress = .scanning gen read)
    (hlist : Listing d above files) (hread : ∀ n, read n = some (found files n)) :
    Before d { s with progress := .replied gen above files } := by
  have hsound := h.sound
  rw [hp] at hsound
  refine ⟨nofun, fun _ => h.inFlight (by rw [hp]; exact nofun), h.length, h.overflow, h.about,
    ⟨hlist, fun e he => ?_⟩, h.ordered, fun hle n hn gen' v hv => ?_⟩
  · exact hsound.2 e.name e.attr (by rw [hread, found_of_mem hlist.nodup he])
  · obtain ⟨rfl, rfl⟩ := Prod.mk.inj (Option.some.inj hv)
    exact h.scanned hle n hn gen _ (by rw [hp, Progress.known, hread]; rfl)

/-- **Every step preserves the invariant**, as long as the generation does not wrap around. -/
theorem Invariant.step {a : Step} (h : Invariant d s) (hs : s.next d opts a = some s')
    (hc : Complete d s a) (hgen : s.sys.generation.toNat + 1 < 2 ^ 64) : Invariant d s' := by
  cases a with
  | run action =>
    have hsends : action.sends = true → ∀ sys, s.sys.next d opts action = some sys →
        Invariant d { s with sys } := fun ha sys hsys =>
      h.feeds (feeds_next h.sends ha hsys fun _ => hgen)
    cases action with
    | receive =>
      obtain ⟨sys, hsys, rfl⟩ := Option.map_eq_some_iff.1 hs
      exact h.receive hsys
    | external | watch | take | assign | resolve | finish | send | done =>
      obtain ⟨sys, hsys, rfl⟩ := Option.map_eq_some_iff.1 hs
      exact hsends rfl sys hsys
    | request | load | reply | process => cases hs
  | begin =>
    rw [State.next] at hs
    split at hs
    · rename_i hp
      cases hs
      have hb := h.before (by rw [hp]; exact nofun)
      exact ⟨{ h.sends with }, h.outstanding, h.mutations, h.mode, fun _ => hb.begin hp, nofun⟩
    · cases hs
  | stamp =>
    rw [State.next] at hs
    split at hs
    · rename_i hp
      cases hs
      exact { h with before := fun _ => (h.before (by rw [hp]; exact nofun)).stamp hp
                     after := nofun }
    · cases hs
  | scan paths =>
    rw [State.next] at hs
    split at hs
    · rename_i gen read hp
      cases hs
      exact { h with before := fun _ => (h.before (by rw [hp]; exact nofun)).scan h.sends hp paths
                     after := nofun }
    · cases hs
  | reply above files =>
    rw [State.next] at hs
    split at hs
    · rename_i gen read hp
      cases hs
      have hb := h.before (by rw [hp]; exact nofun)
      exact { h with before := fun _ => hb.reply hp hc.1 (hc.2 gen read hp), after := nofun }
    · cases hs
  | load =>
    rw [State.next] at hs
    split at hs
    · rename_i gen above files hp
      cases hs
      have hb := h.before (by rw [hp]; exact nofun)
      obtain ⟨hmut, hmode⟩ := endSnapshot_keeps s.sys.client (.ok (above ++ files, gen))
      exact ⟨{ h.sends with }, h.outstanding, hmut.trans h.mutations,
        hmode.trans h.mode, fun hl => absurd rfl hl, fun _ => hb.load hp⟩
    · cases hs

/-! ### Runs -/

theorem Invariant.generation_le {a : Step} (h : Invariant d s) (hs : s.next d opts a = some s')
    (hgen : s.sys.generation.toNat + 1 < 2 ^ 64) :
    s'.sys.generation.toNat ≤ s.sys.generation.toNat + 1 := by
  cases a with
  | run action =>
    cases action with
    | receive =>
      obtain ⟨sys, hsys, rfl⟩ := Option.map_eq_some_iff.1 hs
      rw [System.next] at hsys
      split at hsys <;> cases hsys <;> exact Nat.le_succ _
    | external | watch | take | assign | resolve | finish | send | done =>
      obtain ⟨sys, hsys, rfl⟩ := Option.map_eq_some_iff.1 hs
      have hf := feeds_next h.sends rfl hsys fun _ => hgen
      exact (hf.step (bytes "x") (by decide)).generation_le.2
    | request | load | reply | process => cases hs
  | begin | stamp | scan | reply | load =>
    rw [State.next] at hs
    split at hs <;> cases hs
    exact Nat.le_succ _

theorem invariant_of_exec {as : List Step}
    (hrun : (system d opts).ExecWith (Complete d) as s) (hlen : as.length + 1 < 2 ^ 64) :
    Invariant d s ∧ s.sys.generation.toNat ≤ as.length + 1 := by
  induction hrun with
  | start h => exact ⟨h.invariant, by rw [h.generation]; rfl⟩
  | @next as s s' a _ hs hc ih =>
    rw [List.length_append, List.length_singleton] at hlen ⊢
    obtain ⟨hinv, hle⟩ := ih (by omega)
    exact ⟨hinv.step hs hc (by omega), (hinv.generation_le hs (by omega)).trans (by omega)⟩

/-- **A snapshot loses no change.**  In every run, when nothing is under way after the load, the
mirror has the files of the disk with their attributes, unless more than `kMaxSnapshotReplay`
batches have arrived during the request; then another snapshot is requested. -/
theorem fetched_agrees (d : Directory) (opts : RootServer.Options) (as : List Step) (s : State)
    (hrun : (system d opts).ExecWith (Complete d) as s) (hlen : as.length + 1 < 2 ^ 64)
    (hquiet : Quiet s.sys) (hloaded : s.progress = .loaded) :
    (s.arrived ≤ RemoteRoot.kMaxSnapshotReplay →
      ∀ n, d.files s.sys.client.tree n = s.sys.disk n) ∧
    (RemoteRoot.kMaxSnapshotReplay < s.arrived → s.sys.client.rsRequested = true) := by
  obtain ⟨hinv, -⟩ := invariant_of_exec hrun hlen
  have hafter := hinv.after hloaded
  refine ⟨fun hle n => ?_, hafter.rescan⟩
  by_cases hn : validName n = true
  · obtain ⟨hnoticed, htaken, hinflight⟩ := hquiet.feed d n
    exact (hafter.covered hle n hn).agrees hnoticed htaken hinflight
  · -- A name that no file can have.
    have hmirror : d.files s.sys.client.tree n = none := by
      by_contra hne
      exact hn (hafter.holds.wf.validName_of_paths hne)
    have hdisk : s.sys.disk n = none := by
      by_contra hne
      obtain ⟨a, ha⟩ := Option.ne_none_iff_exists'.1 hne
      exact hn (hinv.sends.disk n a ha).1
    rw [hmirror, hdisk]

/-- The served root with the one file `p`, and an empty mirror. -/
def unmirrored : State where
  sys := { disk := oneFile.disk, client := {} }

theorem initial_unmirrored : Initial unmirrored where
  disk := initial_oneFile.disk
  watch := rfl
  coalescer := rfl
  generation := rfl
  flusher := rfl
  handler := rfl
  channel := rfl
  replies := rfl
  mutations := rfl
  mode := rfl
  inFlight := rfl
  replay := rfl
  overflow := rfl
  progress := rfl
  arrived := rfl

/-- `p` is written after the scan has read it, and the batch about it comes before the snapshot. -/
theorem fetched_agrees_written :
    ∃ as s, (system ⟨[], nofun⟩ {}).ExecWith (Complete ⟨[], nofun⟩) as s ∧ Quiet s.sys ∧
      s.progress = .loaded ∧ s.arrived = 1 ∧ s.sys.disk (bytes "p") = some { size := 5 } ∧
      Directory.files ⟨[], nofun⟩ s.sys.client.tree (bytes "p") = s.sys.disk (bytes "p") := by
  have hstart : (system ⟨[], nofun⟩ {}).ExecWith (Complete ⟨[], nofun⟩) [] unmirrored :=
    .start initial_unmirrored
  have hscan := hstart.steps [.begin, .stamp, .scan fun _ => true,
    .run (.external (.write (bytes "p") { size := 5 }) 0), .run (.watch 0), .run .take,
    .run .assign, .run .resolve, .run .finish, .run .send, .run .done, .run .receive]
    (by simp [Complete]) rfl
  have hreply := hscan.step (.reply [] [⟨0, bytes "p", {}⟩]) ⟨⟨.nil, by simp, by simp⟩, ?_⟩ rfl
  · have hrun := hreply.step .load trivial rfl
    refine ⟨_, _, hrun, ⟨rfl, rfl, rfl, rfl, rfl, rfl⟩, rfl, rfl, rfl, ?_⟩
    exact (fetched_agrees _ _ _ _ hrun (by decide) ⟨rfl, rfl, rfl, rfl, rfl, rfl⟩ rfl).1
      (by decide) _
  · rintro gen read ⟨⟩ n
    have hdisk : oneFile.disk n = if n = bytes "p" then some {} else none := rfl
    refine (congrArg some hdisk).trans ?_
    rw [found_cons]
    by_cases hn : n = bytes "p"
    · rw [if_pos hn, if_pos hn.symm]
    · rw [if_neg hn, if_neg fun h => hn h.symm]
      rfl

end Fetch

end WslDrive
