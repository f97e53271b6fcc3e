import WslDrive.Agent.Client
import WslDrive.Lib.Pairing

/-!
# The queue of the notification bridge

`FsNotifyBridge` replays changes of the far side on the mount, so that the kernel tells its
watchers.  `post` turns the changes of a batch into jobs, the two halves of a move into one, and
appends them to a queue that drops its oldest jobs when it is full; the poke thread takes jobs
from its front.

* `pairJobs_carries` — the jobs are the groups of the left-to-right matching of `Lib.Pairing`;
* `post_queue` — a post drops exactly what exceeds the cap, from the front;
* `post_accounts` — the pairing without loss, and the accounts of the queue over whole runs.

The counters are unbounded here; in the code they have 64 bits.
-/

namespace WslDrive

open RemoteRoot Pairing

namespace FsNotifyBridge

/-- `Job`. -/
structure Job where
  change : ChangeKind := .unknown
  path : Bytes := []
  /-- Destination of a move. -/
  path2 : Bytes := []
  kind : NodeKind := .file
  rescan : Bool := false
  deriving DecidableEq, Repr

/-- `Stats`. -/
structure Stats where
  /-- Changes taken off the queue. -/
  events : ℕ := 0
  /-- Pokes the kernel accepted. -/
  delivered : ℕ := 0
  failed : ℕ := 0
  /-- Changes discarded because the queue was full. -/
  dropped : ℕ := 0
  rescans : ℕ := 0
  deriving DecidableEq, Repr

/-- `kQueueCap`. -/
def kQueueCap : ℕ := 65536

end FsNotifyBridge

/-- `FsNotifyBridge`, as far as its queue goes. -/
structure FsNotifyBridge where
  running : Bool := false
  queue : List FsNotifyBridge.Job := []
  stats : FsNotifyBridge.Stats := {}

namespace FsNotifyBridge

/-! ### Posting -/

/-- The jobs `post` has made so far, and the sources that wait for a destination. -/
structure Jobs where
  fromByCookie : AList (fun _ : UInt32 => ℕ) := ∅
  jobs : List Job := []

namespace Jobs

variable (s : Jobs)

/-- One more job. -/
def push (job : Job) : Jobs := { s with jobs := s.jobs ++ [job] }

/-- `emplace` keeps an entry that is there. -/
def emplace (cookie : UInt32) (i : ℕ) : Jobs :=
  match s.fromByCookie.lookup cookie with
  | some _ => s
  | none => { s with fromByCookie := s.fromByCookie.insert cookie i }

/-- One round of the loop of `post`. -/
def step (c : AppliedChange) : Jobs :=
  if c.rescan then s.push { change := .unknown, kind := .directory, rescan := true }
  else if c.change = .movedFrom ∧ c.cookie ≠ 0 then
    (s.emplace c.cookie s.jobs.length).push
      { change := .movedFrom, path := c.path, kind := c.kind }
  else if c.change = .movedTo ∧ c.cookie ≠ 0 then
    match s.fromByCookie.lookup c.cookie with
    | some i =>
      { fromByCookie := s.fromByCookie.erase c.cookie
        jobs := s.jobs.modify i fun j => { j with path2 := c.path } }
    | none => s.push { change := .created, path := c.path, kind := c.kind }
  else s.push { change := c.change, path := c.path, kind := c.kind }

/-- Sources without a destination are removals. -/
def finish : List Job :=
  s.fromByCookie.entries.foldl
    (fun jobs e => jobs.modify e.2 fun j => { j with change := .removed }) s.jobs

end Jobs

/-- The jobs that `post` makes of the changes. -/
def pairJobs (changes : List AppliedChange) : List Job := (changes.foldl Jobs.step {}).finish

/-- One job is queued; the oldest one goes if there is no room. -/
def enqueue (q : List Job × ℕ) (job : Job) : List Job × ℕ :=
  if q.1.length ≥ kQueueCap then (q.1.tail ++ [job], q.2 + 1) else (q.1 ++ [job], q.2)

variable (b : FsNotifyBridge)

/-- `post`: jobs beyond the capacity of the queue are dropped and counted. -/
def post (changes : List AppliedChange) : FsNotifyBridge :=
  if !b.running then b
  else
    let (queue, dropped) := (pairJobs changes).foldl enqueue (b.queue, 0)
    { b with queue, stats := { b.stats with dropped := b.stats.dropped + dropped } }

/-! ### Delivering -/

/-- What is asked of the kernel for a job. -/
inductive PokeCall where
  | create (path : Bytes) (kind : NodeKind)
  | modify (path : Bytes)
  | remove (path : Bytes) (kind : NodeKind)
  | move (path path2 : Bytes) (kind : NodeKind)
  deriving DecidableEq, Repr

/-- The choice `deliver` makes; an unknown change has nothing to say. -/
def Job.poke (job : Job) : Option PokeCall :=
  if job.rescan then some (.modify [])
  else if job.path2 ≠ [] then some (.move job.path job.path2 job.kind)
  else
    match job.change with
    | .created => some (.create job.path job.kind)
    | .modified => some (.modify job.path)
    | .removed | .movedFrom => some (.remove job.path job.kind)
    | .movedTo => some (.create job.path job.kind)
    | .unknown => none

/-- `deliver`, where the poke, if there is one, succeeds or not. -/
def deliver (job : Job) (ok : Bool) : FsNotifyBridge :=
  let stats := { b.stats with events := b.stats.events + 1 }
  let stats := if job.rescan then { stats with rescans := stats.rescans + 1 } else stats
  match job.poke with
  | none => { b with stats }
  | some _ =>
    if ok then { b with stats := { stats with delivered := stats.delivered + 1 } }
    else { b with stats := { stats with failed := stats.failed + 1 } }

/-- One round of the loop of `run`; with an empty queue it waits. -/
def runStep (ok : Bool) : FsNotifyBridge :=
  match b.queue with
  | [] => b
  | job :: queue => deliver { b with queue } job ok

/-- A step of the threads that share the queue. -/
inductive Step where
  | post (changes : List AppliedChange)
  | deliver (ok : Bool)

/-- One step of the bridge. -/
def apply : Step → FsNotifyBridge
  | .post changes => b.post changes
  | .deliver ok => b.runStep ok

/-- A run of the bridge. -/
def exec (steps : List Step) : FsNotifyBridge := steps.foldl apply b

/-- The jobs of all posts. -/
def posted (steps : List Step) : List Job :=
  steps.flatMap fun
    | .post changes => pairJobs changes
    | .deliver _ => []

/-! ### The queue -/

variable {b}

theorem foldl_enqueue (jobs queue : List Job) (dropped : ℕ) (h : queue.length ≤ kQueueCap) :
    jobs.foldl enqueue (queue, dropped) =
      ((queue ++ jobs).drop (queue.length + jobs.length - kQueueCap),
        dropped + (queue.length + jobs.length - kQueueCap)) := by
  induction jobs generalizing queue dropped with
  | nil =>
    have hzero : queue.length + ([] : List Job).length - kQueueCap = 0 := Nat.sub_eq_zero_of_le h
    rw [hzero, List.append_nil]
    rfl
  | cons job jobs ih =>
    rw [List.foldl_cons, enqueue]
    dsimp only
    split_ifs with hfull
    · -- The queue is full: its first job goes.
      have hlen : queue.length = kQueueCap := le_antisymm h hfull
      obtain ⟨first, rest, rfl⟩ : ∃ first rest, queue = first :: rest :=
        List.exists_cons_of_length_pos (by rw [hlen]; decide)
      have hrest : (rest ++ [job]).length = kQueueCap := by simpa using hlen
      rw [List.tail_cons, ih _ _ hrest.le, hrest, hlen, List.length_cons]
      rw [Nat.add_sub_cancel_left, Nat.add_sub_cancel_left, List.cons_append, List.drop_succ_cons,
        List.append_assoc, List.singleton_append, Nat.add_assoc, Nat.add_comm 1]
    · have hlen : (queue ++ [job]).length ≤ kQueueCap := by
        rw [List.length_append, List.length_singleton]
        omega
      rw [ih _ _ hlen, List.append_assoc, List.singleton_append, List.length_append,
        List.length_singleton, List.length_cons, Nat.add_assoc, Nat.add_comm 1]

/-- **A post drops what exceeds the cap**, the oldest jobs first. -/
theorem post_queue (hrun : b.running = true) (h : b.queue.length ≤ kQueueCap)
    (changes : List AppliedChange) :
    b.post changes = { b with
      queue := (b.queue ++ pairJobs changes).drop
        (b.queue.length + (pairJobs changes).length - kQueueCap)
      stats := { b.stats with dropped :=
        b.stats.dropped + (b.queue.length + (pairJobs changes).length - kQueueCap) } } := by
  rw [post, hrun, foldl_enqueue _ _ _ h, Nat.zero_add]
  rfl

/-- The accounts: what was posted is taken off the queue, dropped or still in it, and the queue
holds what was posted last. -/
structure Accounts (jobs : List Job) (b : FsNotifyBridge) : Prop where
  running : b.running = true
  length_le : b.queue.length ≤ kQueueCap
  queue : b.queue = jobs.drop (b.stats.events + b.stats.dropped)
  length_eq : jobs.length = b.stats.events + b.queue.length + b.stats.dropped

variable {jobs : List Job}

theorem Accounts.push (h : Accounts jobs b) (new : List Job) {excess : ℕ}
    (hcap : b.queue.length + new.length - excess ≤ kQueueCap)
    (hexcess : excess ≤ b.queue.length + new.length) :
    Accounts (jobs ++ new)
      { b with
        queue := (b.queue ++ new).drop excess
        stats := { b.stats with dropped := b.stats.dropped + excess } } := by
  have hlen := h.length_eq
  have hle : b.stats.events + b.stats.dropped ≤ jobs.length := by omega
  refine ⟨h.running, ?_, ?_, ?_⟩ <;> dsimp only
  · rwa [List.length_drop, List.length_append]
  · rw [h.queue, ← List.drop_append_of_le_length hle, List.drop_drop, Nat.add_assoc]
  · rw [List.length_append, List.length_drop, List.length_append]
    omega

theorem Accounts.post (h : Accounts jobs b) (changes : List AppliedChange) :
    Accounts (jobs ++ pairJobs changes) (b.post changes) := by
  rw [post_queue h.running h.length_le]
  refine h.push _ ?_ (Nat.sub_le _ _)
  generalize kQueueCap = cap
  omega

theorem deliver_eq (b : FsNotifyBridge) (job : Job) (ok : Bool) :
    (b.deliver job ok).running = b.running ∧ (b.deliver job ok).queue = b.queue ∧
      (b.deliver job ok).stats.events = b.stats.events + 1 ∧
      (b.deliver job ok).stats.dropped = b.stats.dropped := by
  rw [deliver]
  cases job.poke <;> cases ok <;> cases job.rescan <;> exact ⟨rfl, rfl, rfl, rfl⟩

theorem Accounts.deliver (h : Accounts jobs b) (ok : Bool) : Accounts jobs (b.runStep ok) := by
  rw [runStep]
  split
  · exact h
  · rename_i job queue hq
    obtain ⟨hrun, hqueue, hev, hdr⟩ := deliver_eq { b with queue } job ok
    have hlen := h.length_eq
    have hle := h.length_le
    rw [hq, List.length_cons] at hlen hle
    refine ⟨hrun.trans h.running, ?_, ?_, ?_⟩
    · rw [hqueue]
      exact Nat.le_of_succ_le hle
    · have hdrop := h.queue
      rw [hq] at hdrop
      rw [hqueue, hev, hdr, Nat.add_right_comm, ← List.drop_drop, ← hdrop]
      rfl
    · rw [hqueue, hev, hdr]
      dsimp only
      omega

theorem accounts_exec (steps : List Step) :
    Accounts (posted steps) (exec { running := true } steps) := by
  suffices ∀ (steps : List Step) (jobs : List Job) (b : FsNotifyBridge), Accounts jobs b →
      Accounts (jobs ++ posted steps) (b.exec steps) from
    this steps [] _ ⟨rfl, Nat.zero_le _, rfl, rfl⟩
  intro steps
  induction steps with
  | nil =>
    intro jobs b h
    rw [posted, List.flatMap_nil, List.append_nil]
    exact h
  | cons step steps ih =>
    intro jobs b h
    rw [posted, List.flatMap_cons, ← List.append_assoc]
    refine ih _ _ ?_
    cases step with
    | post changes => exact h.post changes
    | deliver ok => exact (List.append_nil jobs).symm ▸ h.deliver ok

/-! ### Pairing -/

/-- A change and its place in the list. -/
abbrev Tagged := AppliedChange × ℕ

/-- Halves of moves with a cookie open and close it. -/
def role (c : Tagged) : Role UInt32 :=
  if c.1.rescan then .single
  else if c.1.change = .movedFrom ∧ c.1.cookie ≠ 0 then .opens c.1.cookie
  else if c.1.change = .movedTo ∧ c.1.cookie ≠ 0 then .closes c.1.cookie
  else .single

/-- A change is this half of a move with this cookie. -/
structure IsHalf (half : ChangeKind) (k : UInt32) (c : AppliedChange) : Prop where
  rescan : c.rescan = false
  change : c.change = half
  cookie : c.cookie = k
  ne_zero : k ≠ 0

variable {c : Tagged} {k : UInt32}

theorem role_opens_iff : role c = .opens k ↔ IsHalf .movedFrom k c.1 := by
  rw [role]
  constructor
  · intro h
    split_ifs at h with hr hf ht
    cases h
    exact ⟨by simpa using hr, hf.1, rfl, hf.2⟩
  · rintro ⟨hr, hc, rfl, hk⟩
    rw [if_neg (by simp [hr]), if_pos ⟨hc, hk⟩]

theorem role_closes_iff : role c = .closes k ↔ IsHalf .movedTo k c.1 := by
  rw [role]
  constructor
  · intro h
    split_ifs at h with hr hf ht
    cases h
    exact ⟨by simpa using hr, ht.1, rfl, ht.2⟩
  · rintro ⟨hr, hc, rfl, hk⟩
    rw [if_neg (by simp [hr]), if_neg (by simp [hc]), if_pos ⟨hc, hk⟩]

/-- The job of a group, as long as its source may find a destination. -/
def jobOf (g : Pairing.Group Tagged) : Job :=
  if g.1.1.rescan then { change := .unknown, kind := .directory, rescan := true }
  else
    { change := if g.1.1.change = .movedTo ∧ g.1.1.cookie ≠ 0 then .created else g.1.1.change
      path := g.1.1.path
      path2 := g.2.elim [] (·.1.path)
      kind := g.1.1.kind }

/-- The loop of `post` makes the groups of the matching. -/
structure Sim (s : Jobs) (S : State Tagged UInt32) : Prop where
  jobs : s.jobs = S.groups.map jobOf
  slot : ∀ k, s.fromByCookie.lookup k = S.slot k

variable {s : Jobs} {S : State Tagged UInt32} {l : List Tagged}

theorem Sim.alone (h : Sim s S) (c : Tagged) : Sim (s.push (jobOf (c, none))) (S.alone c) :=
  ⟨by simp [Jobs.push, State.alone, h.jobs], h.slot⟩

theorem jobOf_from (hc : IsHalf .movedFrom k c.1) :
    jobOf (c, none) = { change := .movedFrom, path := c.1.path, kind := c.1.kind } := by
  simp [jobOf, hc.rescan, hc.change]

theorem jobOf_to (hc : IsHalf .movedTo k c.1) :
    jobOf (c, none) = { change := .created, path := c.1.path, kind := c.1.kind } := by
  have hk : c.1.cookie ≠ 0 := hc.cookie ▸ hc.ne_zero
  simp [jobOf, hc.rescan, hc.change, hk]

theorem step_from (s : Jobs) (hc : IsHalf .movedFrom k c.1) :
    s.step c.1 = (s.emplace k s.jobs.length).push (jobOf (c, none)) := by
  obtain ⟨hr, hm, rfl, hk⟩ := hc
  rw [Jobs.step, if_neg (by simp [hr]), if_pos ⟨hm, hk⟩, jobOf_from ⟨hr, hm, rfl, hk⟩]

theorem step_to_none (hc : IsHalf .movedTo k c.1) (hs : s.fromByCookie.lookup k = none) :
    s.step c.1 = s.push (jobOf (c, none)) := by
  rw [jobOf_to hc]
  obtain ⟨hr, hm, rfl, hk⟩ := hc
  rw [Jobs.step, if_neg (by simp [hr]), if_neg (by simp [hm]), if_pos ⟨hm, hk⟩, hs]

theorem step_to_some {i : ℕ} (hc : IsHalf .movedTo k c.1)
    (hs : s.fromByCookie.lookup k = some i) :
    s.step c.1 =
      { fromByCookie := s.fromByCookie.erase k
        jobs := s.jobs.modify i fun j => { j with path2 := c.1.path } } := by
  obtain ⟨hr, hm, rfl, hk⟩ := hc
  rw [Jobs.step, if_neg (by simp [hr]), if_neg (by simp [hm]), if_pos ⟨hm, hk⟩, hs]

theorem step_single (s : Jobs) (hc : role c = .single) : s.step c.1 = s.push (jobOf (c, none)) := by
  rw [role] at hc
  rw [Jobs.step, jobOf]
  split_ifs at hc ⊢ <;> rfl

theorem Sim.step (hinv : Inv role l S) (h : Sim s S) (c : Tagged) :
    Sim (s.step c.1) (Pairing.step role S c) := by
  cases hc : role c with
  | single =>
    rw [Pairing.step_single hc, step_single s hc]
    exact h.alone c
  | opens k =>
    have hhalf := role_opens_iff.1 hc
    rw [step_from s hhalf, Jobs.emplace, h.slot k]
    cases hs : S.slot k with
    | some i =>
      rw [step_opens_alone hc hs]
      exact h.alone c
    | none =>
      rw [step_opens_wait hc hs]
      refine ⟨(h.alone c).jobs, fun k' => ?_⟩
      dsimp only [Jobs.push, State.wait]
      by_cases hk : k' = k
      · subst hk
        rw [AList.lookup_insert, Function.update_self, h.jobs, List.length_map]
      · rw [AList.lookup_insert_ne hk, Function.update_of_ne hk, h.slot]
  | closes k =>
    have hhalf := role_closes_iff.1 hc
    cases hs : S.slot k with
    | none =>
      rw [step_closes_alone hc hs, step_to_none hhalf ((h.slot k).trans hs)]
      exact h.alone c
    | some i =>
      rw [step_closes_pair hc hs, step_to_some hhalf ((h.slot k).trans hs)]
      refine ⟨?_, fun k' => ?_⟩ <;> dsimp only [State.pair]
      · obtain ⟨pre, post, a, hgs, rfl, ha⟩ := hinv.exists_split hs
        have hjob : jobOf (a, some c) = { jobOf (a, none) with path2 := c.1.path } := by
          simp [jobOf, (role_opens_iff.1 ha).rescan]
        have hlen : pre.length = (pre.map jobOf).length := (List.length_map jobOf).symm
        rw [h.jobs, hgs, modify_append_cons, List.map_append, List.map_append, List.map_cons,
          List.map_cons, hjob, hlen, modify_append_cons]
      · by_cases hk : k' = k
        · subst hk
          rw [AList.lookup_erase, Function.update_self]
        · rw [AList.lookup_erase_ne hk, Function.update_of_ne hk, h.slot]

theorem sim_run (changes : List AppliedChange) :
    Sim (changes.foldl Jobs.step {}) (Pairing.run role changes.zipIdx) := by
  suffices ∀ (l' l : List Tagged) (s : Jobs) (S : State Tagged UInt32), Inv role l S → Sim s S →
      Sim ((l'.map Prod.fst).foldl Jobs.step s) (l'.foldl (Pairing.step role) S) by
    have := this changes.zipIdx [] {} {} (inv_run role []).1 ⟨rfl, fun _ => rfl⟩
    rwa [List.zipIdx_map_fst] at this
  intro l'
  induction l' with
  | nil => exact fun _ _ _ _ h => h
  | cons c l' ih => exact fun l s S hinv h => ih (l ++ [c]) _ _ (inv_step hinv c) (h.step hinv c)

/-- How a job carries its group: the fields of the job, and what `deliver` asks of the kernel. -/
structure Carries (g : Pairing.Group Tagged) (job : Job) : Prop where
  rescan : job.rescan = g.1.1.rescan
  path : g.1.1.rescan = false → job.path = g.1.1.path
  path2 : job.path2 = if g.1.1.rescan then [] else g.2.elim [] (·.1.path)
  kind : g.1.1.rescan = false → job.kind = g.1.1.kind
  change : g.1.1.rescan = false → job.change = g.1.1.change ∨
    (g.1.1.change = .movedTo ∧ job.change = .created) ∨
    (g.1.1.change = .movedFrom ∧ job.change = .removed)

theorem carries_jobOf (g : Pairing.Group Tagged) : Carries g (jobOf g) := by
  rw [jobOf]
  split_ifs with hr hto
  · have hne : g.1.1.rescan ≠ false := by simp [hr]
    exact ⟨hr.symm, fun h => absurd h hne, (if_pos hr).symm, fun h => absurd h hne,
      fun h => absurd h hne⟩
  · exact ⟨(Bool.eq_false_iff.2 hr).symm, fun _ => rfl, (if_neg hr).symm, fun _ => rfl,
      fun _ => .inr (.inl ⟨hto.1, rfl⟩)⟩
  · exact ⟨(Bool.eq_false_iff.2 hr).symm, fun _ => rfl, (if_neg hr).symm, fun _ => rfl,
      fun _ => .inl rfl⟩

theorem forall₂_modify_right {α β : Type*} {R : α → β → Prop} {l : List α} {l' : List β}
    {f : β → β} (h : List.Forall₂ R l l') {i : ℕ}
    (hf : ∀ a b, l[i]? = some a → R a b → R a (f b)) : List.Forall₂ R l (l'.modify i f) := by
  induction h generalizing i with
  | nil => simp
  | cons hab _ ih =>
    cases i with
    | zero => exact .cons (hf _ _ rfl hab) ‹_›
    | succ i => exact .cons hab (ih hf)

theorem pairJobs_carries (changes : List AppliedChange) :
    List.Forall₂ Carries (Pairing.run role changes.zipIdx).groups (pairJobs changes) := by
  have hsim := sim_run changes
  have hinv := (inv_run role changes.zipIdx).1
  rw [pairJobs, Jobs.finish, hsim.jobs]
  have hslot : ∀ e ∈ (changes.foldl Jobs.step {}).fromByCookie.entries, ∃ a,
      (Pairing.run role changes.zipIdx).groups[e.2]? = some (a, none) ∧
        IsHalf .movedFrom e.1 a.1 := fun e he => by
    obtain ⟨a, ha, hrole⟩ := hinv.slot e.1 e.2
      ((hsim.slot e.1).symm.trans (AList.mem_lookup_iff.2 he))
    exact ⟨a, ha, role_opens_iff.1 hrole⟩
  have hstart : List.Forall₂ Carries (Pairing.run role changes.zipIdx).groups
      ((Pairing.run role changes.zipIdx).groups.map jobOf) :=
    List.forall₂_map_right_iff.2 (List.forall₂_same.2 fun g _ => carries_jobOf g)
  -- Every source that is left becomes a removal.
  generalize (changes.foldl Jobs.step {}).fromByCookie.entries = entries at hslot
  generalize (Pairing.run role changes.zipIdx).groups.map jobOf = jobs at hstart
  induction entries generalizing jobs with
  | nil => exact hstart
  | cons e entries ih =>
    refine ih (fun e' he' => hslot e' (List.mem_cons_of_mem _ he')) _ ?_
    obtain ⟨a, ha, hhalf⟩ := hslot e List.mem_cons_self
    refine forall₂_modify_right hstart fun g job hg h => ?_
    rw [ha] at hg
    cases hg
    exact ⟨h.rescan, h.path, h.path2, h.kind, fun _ => .inr (.inr ⟨hhalf.change, rfl⟩)⟩

/-- What a group asks of the kernel: a move is both halves, a half alone is a creation or a
removal of its own path. -/
def groupCall (g : Pairing.Group Tagged) : Option PokeCall :=
  if g.1.1.rescan then some (.modify [])
  else
    match g.2 with
    | some b => some (.move g.1.1.path b.1.path g.1.1.kind)
    | none =>
      match g.1.1.change with
      | .created | .movedTo => some (.create g.1.1.path g.1.1.kind)
      | .modified => some (.modify g.1.1.path)
      | .removed | .movedFrom => some (.remove g.1.1.path g.1.1.kind)
      | .unknown => none

theorem Carries.poke_eq {g : Pairing.Group Tagged} {job : Job} (h : Carries g job)
    (hne : ∀ b ∈ g.2, b.1.path ≠ []) : job.poke = groupCall g := by
  rw [Job.poke, groupCall, h.rescan]
  split_ifs with hr hp
  · rfl
  · rw [h.path2, if_neg hr] at hp ⊢
    cases hg : g.2 with
    | none => simp [hg] at hp
    | some b => rw [h.path (Bool.eq_false_iff.2 hr), h.kind (Bool.eq_false_iff.2 hr)]; rfl
  · rw [h.path2, if_neg hr, not_not] at hp
    cases hg : g.2 with
    | some b => exact absurd (by simpa [hg] using hp) (hne b hg)
    | none =>
      rw [h.path (Bool.eq_false_iff.2 hr), h.kind (Bool.eq_false_iff.2 hr)]
      rcases h.change (Bool.eq_false_iff.2 hr) with hc | ⟨hc, hc'⟩ | ⟨hc, hc'⟩
      · rw [hc]
        cases g.1.1.change <;> rfl
      · rw [hc, hc']
      · rw [hc, hc']

/-- The halves of the moves with a cookie, in order. -/
def halves (k : UInt32) (changes : List AppliedChange) : List ChangeKind :=
  (changes.filter fun c => !c.rescan && c.change.isMove && c.cookie == k).map (·.change)

/-- **The pairing without loss**: how the jobs come from the changes. -/
structure PairedUp (changes : List AppliedChange) (groups : List (Pairing.Group Tagged))
    (jobs : List Job) : Prop where
  /-- Every job carries one group. -/
  carries : List.Forall₂ Carries groups jobs
  /-- Every change is in one group, as its first or its second member. -/
  once : (members groups).Perm changes.zipIdx
  /-- Jobs are in the order of their first change. -/
  order : (groups.map Prod.fst).Sublist changes.zipIdx
  /-- Two changes are in one group only as the halves of a move, the source first. -/
  paired : ∀ g ∈ groups, ∀ b ∈ g.2, ∃ k, IsHalf .movedFrom k g.1.1 ∧ IsHalf .movedTo k b.1 ∧
    g.1.2 < b.2
  /-- A job has a second path exactly if it is a move. -/
  path2 : List.Forall₂ (fun g job => job.path2 ≠ [] ↔ g.2.isSome = true) groups jobs
  /-- No matching with one open source forms more pairs. -/
  most : ∀ k ≠ 0, ∀ n, n ≤ groups.countP (fun g => g.2.isSome && g.1.1.cookie == k) ↔
    (List.replicate n [ChangeKind.movedFrom, .movedTo]).flatten.Sublist (halves k changes)
  /-- What is asked of the kernel. -/
  delivers : List.Forall₂ (fun g job => job.poke = groupCall g) groups jobs

theorem half_role (hk : k ≠ 0) (c : Tagged) :
    (half role k c).map (fun x => if x then ChangeKind.movedFrom else .movedTo) =
      if !c.1.rescan && c.1.change.isMove && c.1.cookie == k then some c.1.change else none := by
  obtain ⟨⟨change, path, cookie, kind, rescan⟩, i⟩ := c
  by_cases hc : cookie = k
  · subst hc
    cases rescan <;> cases change <;> simp [half, role, ChangeKind.isMove, hk]
  · cases rescan <;> cases change <;> by_cases h0 : cookie = 0 <;>
      simp [half, role, ChangeKind.isMove, hc, h0, hk.symm]

theorem halves_eq (hk : k ≠ 0) (changes : List AppliedChange) :
    halves k changes = (changes.zipIdx.filterMap (half role k)).map
      fun x => if x then .movedFrom else .movedTo := by
  rw [List.map_filterMap]
  simp only [half_role hk]
  rw [halves, ← List.filterMap_eq_map, List.filterMap_filter]
  conv_lhs => rw [← List.zipIdx_map_fst 0 changes, List.filterMap_map]
  rfl

theorem alternates_iff {halves : List Bool} (n : ℕ) :
    (List.replicate n [ChangeKind.movedFrom, .movedTo]).flatten.Sublist
        (halves.map fun x => if x then .movedFrom else .movedTo) ↔
      (List.replicate n [true, false]).flatten.Sublist halves := by
  have hmap : (List.replicate n [ChangeKind.movedFrom, .movedTo]).flatten =
      (List.replicate n [true, false]).flatten.map fun x => if x then .movedFrom else .movedTo := by
    rw [List.map_flatten, List.map_replicate]
    rfl
  have hinj : Function.Injective fun x : Bool => if x then ChangeKind.movedFrom else .movedTo := by
    intro x y
    cases x <;> cases y <;> simp
  rw [hmap, List.sublist_map_iff]
  refine ⟨?_, fun h => ⟨_, h, rfl⟩⟩
  rintro ⟨w, hw, heq⟩
  rwa [List.map_injective_iff.2 hinj heq]

theorem pairedUp_pairJobs {changes : List AppliedChange}
    (hne : ∀ c ∈ changes, c.rescan = false → c.path ≠ []) :
    PairedUp changes (Pairing.run role changes.zipIdx).groups (pairJobs changes) := by
  have hcarries := pairJobs_carries changes
  obtain ⟨hinv, -⟩ := inv_run role changes.zipIdx
  set groups := (Pairing.run role changes.zipIdx).groups with hgroups
  have hall := (List.forall₂_and_left groups _).2 ⟨fun g hg => hg, hcarries⟩
  have hpairs : ∀ g ∈ groups, ∀ b ∈ g.2,
      ∃ k, IsHalf .movedFrom k g.1.1 ∧ IsHalf .movedTo k b.1 ∧ [g.1, b].Sublist changes.zipIdx :=
    fun g hg b hb => by
      obtain ⟨k, h1, h2, hsub⟩ := hinv.pairs g hg b hb
      exact ⟨k, role_opens_iff.1 h1, role_closes_iff.1 h2, hsub⟩
  have hpath : ∀ g ∈ groups, ∀ b ∈ g.2, b.1.path ≠ [] := fun g hg b hb => by
      obtain ⟨k, -, h2, hsub⟩ := hpairs g hg b hb
      have hmem : b ∈ changes.zipIdx := hsub.subset (by simp)
      exact hne _ (List.fst_mem_of_mem_zipIdx hmem) h2.rescan
  refine ⟨hcarries, hinv.perm, hinv.firsts, fun g hg b hb => ?_, ?_, fun k hk n => ?_, ?_⟩
  · obtain ⟨k, h1, h2, hsub⟩ := hpairs g hg b hb
    refine ⟨k, h1, h2, ?_⟩
    have hlt := hsub.map Prod.snd
    rw [List.zipIdx_map_snd] at hlt
    simpa using (List.pairwise_lt_range' 1).sublist hlt
  · refine hall.imp fun g job h => ?_
    obtain ⟨hg, h⟩ := h
    rw [h.path2]
    cases hb : g.2 with
    | none => simp
    | some b =>
      obtain ⟨k, h1, -⟩ := hpairs g hg b hb
      simp [h1.rescan, hpath g hg b hb]
  · have hcount : groups.countP (fun g => g.2.isSome && g.1.1.cookie == k) =
        pairCount role k groups := by
      refine List.countP_congr fun g hg => ?_
      cases hb : g.2 with
      | none => simp
      | some b =>
        obtain ⟨k', h1, -⟩ := hpairs g hg b hb
        simp [role_opens_iff.2 h1, h1.cookie]
    rw [hcount, le_pairCount_iff, halves_eq hk, alternates_iff]
  · exact hall.imp fun g job h => h.2.poke_eq (hpath g h.1)

/-- **The bridge pairs without loss**: every change is in one job, the jobs are in the order of
their first changes, and as many moves are paired as can be.  Over any run every job that was queued
is taken off, counted as dropped or still in the queue. -/
theorem post_accounts :
    (∀ changes : List AppliedChange, (∀ c ∈ changes, c.rescan = false → c.path ≠ []) →
      ∃ groups, PairedUp changes groups (pairJobs changes)) ∧
    (∀ (b : FsNotifyBridge) (changes : List AppliedChange), b.running = true →
      b.queue.length ≤ kQueueCap →
      b.post changes = { b with
        queue := (b.queue ++ pairJobs changes).drop
          (b.queue.length + (pairJobs changes).length - kQueueCap)
        stats := { b.stats with dropped :=
          b.stats.dropped + (b.queue.length + (pairJobs changes).length - kQueueCap) } }) ∧
    ∀ steps, Accounts (posted steps) (exec { running := true } steps) :=
  ⟨fun _ hne => ⟨_, pairedUp_pairJobs hne⟩, fun _ changes hrun hcap => post_queue hrun hcap changes,
    accounts_exec⟩

/-- `a` is moved to `b`, with a second source of the same cookie that finds no destination. -/
theorem post_accounts_move :
    let changes : List AppliedChange :=
      [{ change := .movedFrom, path := [0x61], cookie := 7 },
        { change := .movedFrom, path := [0x63], cookie := 7 },
        { change := .movedTo, path := [0x62], cookie := 7 }]
    (∃ groups, PairedUp changes groups (pairJobs changes)) ∧
      (pairJobs changes).map Job.poke =
        [some (.move [0x61] [0x62] .file), some (.remove [0x63] .file)] := by
  intro changes
  exact ⟨post_accounts.1 changes (by decide), by decide⟩

end FsNotifyBridge

end WslDrive
