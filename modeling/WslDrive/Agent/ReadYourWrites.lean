import WslDrive.Core.Tree.Atomic
import WslDrive.Agent.ReadCache
import WslDrive.Lib.Exec

/-!
# Reading one's own writes

A read takes the version of a file, its time and size, from the mirror; it may be served from the
cache only if the entry was put there for that version.  A `write` or `truncate` changes the bytes
at the agent first and moves the version in the mirror on when the reply has come, and a fetch that
began before may put the old bytes into the cache at any time: but under the version it captured.
Each step here is one critical section, or one action of the agent.

* `bumpMtime_lt` — a version that is moved on is a new one;
* `write_paths`, `truncate_paths` — what the two calls do to the mirror;
* `Inv` — bytes under a version were produced behind every change that had moved on to it;
* `read_your_writes` — what a read is served.
-/

namespace WslDrive

open MetadataTree Path

namespace RemoteRoot

variable {c : RemoteRoot} {q : List Bytes} {a : Attributes} {path : Bytes} {id : NodeId}

/-! ### What the calls do to the mirror -/

/-- **A version that is moved on is a new one**, as long as there is one. -/
theorem bumpMtime_lt {previous : Int64} (now : Int64) (h : previous < Int64.maxValue) :
    previous < bumpMtime now previous := by
  have hnext : previous < previous + 1 := by
    rw [Int64.lt_iff_toInt_lt] at h ⊢
    have hmax : Int64.maxValue.toInt = 9223372036854775807 := rfl
    have hone : (1 : Int64).toInt = 1 := rfl
    have hle := previous.le_toInt
    rw [Int64.toInt_add, hone, Int.bmod_eq_of_le (by omega) (by omega)]
    omega
  show previous < if now ≤ previous + 1 then previous + 1 else now
  split_ifs with hnow
  · exact hnext
  · exact Int64.lt_trans hnext (Int64.not_le.1 hnow)

/-- The entry that a path resolves to. -/
def resolved (c : RemoteRoot) (path : Bytes) : Option (List Bytes) :=
  (c.tree.lookup path c.lookupMode).map c.tree.location

theorem setAttributes_paths_eq (h : c.tree.WF) (hq : c.tree.paths q = some a)
    (hid : c.tree.lookup path c.lookupMode = some id) (f : Attributes → Attributes)
    (hkind : ∀ a, (f a).kind = a.kind) :
    (c.tree.setAttributes id (f (c.tree.nodes id).attr)).2.paths q =
      some (if c.resolved path = some q then f a else a) := by
  obtain ⟨kids, hr⟩ := h.rep
  have hlive := h.lookup_live hid
  have hat := h.paths_eq_some.2 ⟨id, h.walk_location hlive, rfl⟩
  obtain ⟨t', heq, -, -⟩ := hr.setAttributes_spec hlive (f (c.tree.nodes id).attr)
  have hpaths := h.setAttributes_paths heq
  rw [heq, resolved, hid, Option.map_some]
  dsimp only
  rw [hpaths, PathMap.set]
  by_cases hloc : c.tree.location id = q
  · rw [hloc, hq] at hat
    rw [if_pos hloc.symm, if_pos (congrArg some hloc), ← Option.some.inj hat]
  · rw [if_neg (Ne.symm hloc), if_neg fun hsome => hloc (Option.some.inj hsome), if_neg, hq]
    rintro ⟨hnot, rest, rfl⟩
    -- Nothing is below a node that is not a directory.
    rw [hkind] at hnot
    have hrest : rest ≠ [] := by
      rintro rfl
      exact hloc (List.append_nil _).symm
    rw [h.paths_below_eq_none hat hnot hrest] at hq
    cases hq

theorem upsertPath_paths_eq (h : c.tree.WF) (hq : c.tree.paths q = some a)
    (hnone : c.tree.lookup path .exact = none) (attr : Attributes) :
    (c.tree.upsertPath path attr).2.paths q = some a := by
  have hwf := (h.kept_upsertPath path attr).wf
  obtain ⟨id, t', heq, hpaths⟩ | ⟨e, t', u, heq, -, hpaths, -⟩ := h.upsertPath_spec path attr
  · rw [heq] at hwf ⊢
    dsimp only at hwf ⊢
    have hself : t'.paths (parts path) = some attr := by rw [hpaths, PathMap.set_self]
    have hvalid := hwf.validNames_of_paths (hself ▸ Option.some_ne_none attr)
    -- Names that are not there, and that can be, are not above an entry that is there.
    have habsent : c.tree.paths (parts path) = none := by
      rw [h.lookup_eq (dotdot_notMem_components hvalid)] at hnone
      rw [paths, hnone]
      rfl
    have hnot : ¬ parts path <+: q := by
      rintro ⟨rest, rfl⟩
      rw [h.paths_append_eq_none habsent] at hq
      cases hq
    rw [hpaths, PathMap.set_of_not_below hnot]
    exact PathMap.fill_of_some hq
  · rw [heq]
    dsimp only
    rw [hpaths]
    exact PathMap.fill_of_some hq

/-- **`write`** moves the version of the entry it resolves to, and of no other one. -/
theorem write_paths (h : c.tree.WF) (hq : c.tree.paths q = some a) (now : Int64) (path : Bytes)
    (offset written gen : UInt64) :
    (c.write now path offset written gen).tree.paths q =
      some (if c.resolved path = some q then
        { a with size := max a.size (offset + written), mtimeNs := bumpMtime now a.mtimeNs }
      else a) := by
  rw [write]
  cases hid : c.tree.lookup path c.lookupMode with
  | some id =>
    exact setAttributes_paths_eq h hq hid (fun a => { a with
      size := max a.size (offset + written), mtimeNs := bumpMtime now a.mtimeNs }) fun _ => rfl
  | none =>
    have hnone : c.tree.lookup path .exact = none := by
      cases hx : c.tree.lookup path .exact with
      | none => rfl
      | some x =>
        rw [lookup_of_exact hx] at hid
        cases hid
    rw [resolved, hid, Option.map_none, if_neg (Option.some_ne_none q).symm]
    exact upsertPath_paths_eq h hq hnone _

theorem truncate_paths (h : c.tree.WF) (hq : c.tree.paths q = some a) (now : Int64) (path : Bytes)
    (size gen : UInt64) :
    (c.truncate now path size gen).tree.paths q =
      some (if c.resolved path = some q then
        { a with size := size, mtimeNs := bumpMtime now a.mtimeNs }
      else a) := by
  rw [truncate]
  cases hid : c.tree.lookup path c.lookupMode with
  | some id =>
    exact setAttributes_paths_eq h hq hid (fun a => { a with
      size := size, mtimeNs := bumpMtime now a.mtimeNs }) fun _ => rfl
  | none =>
    rw [resolved, hid, Option.map_none, if_neg (Option.some_ne_none q).symm]
    exact hq

/-- **`resolve_for_read`** finds the entry that the path resolves to, and a key that leads to it. -/
theorem resolveForRead_spec (h : c.tree.WF) (hroot : (c.tree.nodes root).isDir = true)
    (hfile : (c.resolveForRead path).isFile = true) :
    ∃ id, c.tree.lookup path c.lookupMode = some id ∧
      c.tree.lookup ((c.resolveForRead path).key path) .exact = some id ∧
      (c.resolveForRead path).mtimeNs = (c.tree.nodes id).attr.mtimeNs := by
  obtain ⟨id, hexact, ht⟩ | ⟨id, hid, ht⟩ | ht := c.resolveForRead_cases path
  · rw [ht]
    exact ⟨id, lookup_of_exact hexact _, hexact, rfl⟩
  · rw [ht] at hfile ⊢
    have hlive := h.lookup_live hid
    have hne : id ≠ root := by
      rintro rfl
      have hkind : (c.tree.nodes root).attr.kind = .file := by simpa [targetOf] using hfile
      simp [Node.isDir, hkind] at hroot
    have hkey : (c.targetOf id (c.tree.pathOf id slash)).key path = c.tree.pathOf id slash :=
      if_neg (h.pathOf_ne_nil hlive hne)
    rw [hkey]
    exact ⟨id, hid, h.lookup_pathOf hlive, rfl⟩
  · rw [ht] at hfile
    cases hfile

end RemoteRoot

namespace ReadYourWrites

open RemoteRoot

deriving instance DecidableEq for ReadTarget

/-! ### The system -/

/-- A `write` or a `truncate`. -/
inductive Request where
  | write (path : Bytes) (offset : UInt64)
  | truncate (path : Bytes) (size : UInt64)
  deriving DecidableEq

/-- The file that is to be changed. -/
def Request.path : Request → Bytes
  | .write path _ | .truncate path _ => path

/-- What the client does with the reply. -/
def Request.mutation (now : Int64) (written gen : UInt64) : Request → Mutation
  | .write path offset => .write now path offset written gen
  | .truncate path size => .truncate now path size gen

/-- What the agent does to a file. -/
inductive AgentEvent where
  /-- The bytes of a file are changed, for a call. -/
  | changed (call : ℕ)
  /-- Bytes of a file are read, for a reply. -/
  | produced (key data : Bytes)
  deriving DecidableEq

/-- A `write` or `truncate` that has returned. -/
structure Done where
  /-- The entry of the mirror it was about. -/
  place : List Bytes
  /-- The number of the event at the agent. -/
  effect : ℕ
  /-- The version that the mirror was moved on to. -/
  version : Int64
  deriving DecidableEq

/-- Where a thread is. -/
inductive Call where
  | requested (w : Request)
  /-- The reply has come. -/
  | acknowledged (w : Request) (effect : ℕ) (written gen : UInt64)
  /-- `drop_cached` has returned. -/
  | dropped (w : Request) (effect : ℕ) (written gen : UInt64)
  /-- A read has the version of the mirror; `done` had returned when it began. -/
  | reading (place : List Bytes) (key : Bytes) (t : ReadTarget) (done : List Done)
  /-- The read is served from the cache. -/
  | served (place : List Bytes) (key data : Bytes) (done : List Done)
  /-- A read, a read-ahead or a prefetch asks the agent for a file. -/
  | fetching (key : Bytes) (mtimeNs : Int64) (size : UInt64)
  | fetched (key : Bytes) (mtimeNs : Int64) (size : UInt64) (data : Bytes)
  | finished
  deriving DecidableEq

/-- Client, agent and calls. -/
structure State where
  client : RemoteRoot := {}
  cache : ReadCache := {}
  /-- What the agent did, in its order. -/
  agent : List AgentEvent := []
  /-- The calls, by number. -/
  calls : List Call := []
  returned : List Done := []

/-- The steps of the calls, of the agent and of reads. -/
inductive Step where
  | request (w : Request)
  /-- The agent changes the bytes and replies. -/
  | acknowledge (k : ℕ) (written gen : UInt64)
  | dropCached (k : ℕ)
  /-- The version in the mirror is moved on, and the call returns. -/
  | bump (k : ℕ) (now : Int64)
  /-- A `read` or `read_into` begins. -/
  | read (path : Bytes)
  /-- It looks into the cache. -/
  | probe (k : ℕ)
  /-- A read-ahead or a prefetch takes the version of a child from the mirror. -/
  | readAhead (dir : Bytes) (child : NodeId)
  /-- The agent reads the file and replies. -/
  | answer (k : ℕ) (data : Bytes)
  | cachePut (k : ℕ)
  /-- Other threads drop entries. -/
  | evict (op : ReadCache.Op)
  /-- Other calls and the reader thread change the mirror elsewhere. -/
  | mutate (m : Mutation)
  | invalidate (batch : InvalidationBatch)

/-- The call of the cache puts and hits nothing. -/
def drops : ReadCache.Op → Bool
  | .cachePut _ _ _ _ | .read _ _ _ => false
  | .dropCached _ | .dropCachedPrefix _ | .setReadCacheLimit _ | .invalidate _ _ => true

/-- What a call that moves the version of an entry has done. -/
def moved (c : RemoteRoot) (path : Bytes) (effect : ℕ) (now : Int64) : Option Done :=
  (c.tree.lookup path c.lookupMode).map fun id =>
    ⟨c.tree.location id, effect, bumpMtime now (c.tree.nodes id).attr.mtimeNs⟩

/-- One step, if it is possible. -/
def next (s : State) : Step → Option State
  | .request w => some { s with calls := s.calls ++ [.requested w] }
  | .acknowledge k written gen =>
    match s.calls[k]? with
    | some (.requested w) => some { s with
        agent := s.agent ++ [.changed k]
        calls := s.calls.set k (.acknowledged w s.agent.length written gen) }
    | _ => none
  | .dropCached k =>
    match s.calls[k]? with
    | some (.acknowledged w effect written gen) => some { s with
        cache := s.cache.step (.dropCached w.path)
        calls := s.calls.set k (.dropped w effect written gen) }
    | _ => none
  | .bump k now =>
    match s.calls[k]? with
    | some (.dropped w effect written gen) => some { s with
        client := s.client.process (w.mutation now written gen)
        calls := s.calls.set k .finished
        returned := s.returned ++ (moved s.client w.path effect now).toList }
    | _ => none
  | .read path =>
    let t := s.client.resolveForRead path
    if t.isFile && t.size ≤ kMaxCacheableFile then
      (s.client.resolved path).map fun place =>
        { s with calls := s.calls ++ [.reading place (t.key path) t s.returned] }
    else none
  | .probe k =>
    match s.calls[k]? with
    | some (.reading place key t done) =>
      match s.cache.find key t.mtimeNs t.size with
      | some e => some { s with
          cache := s.cache.step (.read key t.mtimeNs t.size)
          calls := s.calls.set k (.served place key e.data done) }
      | none => some { s with calls := s.calls.set k (.fetching key t.mtimeNs t.size) }
    | _ => none
  | .readAhead dir child =>
    match s.client.tree.lookup dir .exact with
    | some did =>
      let name := s.client.tree.name child
      let a := (s.client.tree.nodes child).attr
      if (s.client.tree.nodes did).isDir ∧ child ∈ s.client.tree.children did ∧ a.kind = .file ∧
          a.size ≠ 0 ∧ a.size ≤ kMaxCacheableFile then
        let key := if dir = [] then name else dir ++ slash :: name
        some { s with calls := s.calls ++ [.fetching key a.mtimeNs a.size] }
      else none
    | none => none
  | .answer k data =>
    match s.calls[k]? with
    | some (.fetching key mtimeNs size) => some { s with
        agent := s.agent ++ [.produced key data]
        calls := s.calls.set k (.fetched key mtimeNs size data) }
    | _ => none
  | .cachePut k =>
    match s.calls[k]? with
    | some (.fetched key mtimeNs size data) => some { s with
        cache := s.cache.step (.cachePut key mtimeNs size data)
        calls := s.calls.set k .finished }
    | _ => none
  | .evict op => if drops op then some { s with cache := s.cache.step op } else none
  | .mutate m => some { s with client := s.client.process m }
  | .invalidate batch => some { s with client := (s.client.applyInvalidation batch).1 }

/-- The version of an entry has come to `m`, or is past it. -/
def State.Reached (s : State) (q : List Bytes) (m : Int64) : Prop :=
  ∃ a, s.client.tree.paths q = some a ∧ m ≤ a.mtimeNs

/-- The entry is in the mirror, nothing is in flight, and what is cached for the entry is not for a
version that is still to come. -/
structure Start (q : List Bytes) (s : State) : Prop where
  wf : s.client.tree.WF
  root_dir : (s.client.tree.nodes root).isDir = true
  consistent : s.cache.Consistent
  present : ∃ a, s.client.tree.paths q = some a
  agent : s.agent = []
  calls : s.calls = []
  returned : s.returned = []
  cached : ∀ key e, s.cache.rcache.lookup key = some e → destination key = q →
    s.Reached q e.mtimeNs

/-- The system, started with a file at `q`. -/
def system (q : List Bytes) : TransSys State Step := .ofNext (Start q) next

/-- Only the calls of `write` and `truncate` change the entry, and there is a version to move on
to. -/
def Undisturbed (q : List Bytes) (s : State) : Step → Prop
  | .mutate m => (s.client.process m).tree.paths q = s.client.tree.paths q
  | .invalidate batch => (s.client.applyInvalidation batch).1.tree.paths q = s.client.tree.paths q
  | .bump _ _ => ∀ a, s.client.tree.paths q = some a → a.mtimeNs < Int64.maxValue
  | _ => True

/-! ### What holds in every state -/

variable {s s' : State} {q : List Bytes} {key data : Bytes} {m : Int64}

/-- The agent produced the bytes behind one of its events. -/
def State.Behind (s : State) (effect : ℕ) (key data : Bytes) : Prop :=
  ∃ j, effect < j ∧ s.agent[j]? = some (.produced key data)

/-- The version `m` has been reached, and the bytes were produced behind every change that had moved
the version on, up to `m`. -/
def State.Fresh (s : State) (q : List Bytes) (key : Bytes) (m : Int64) (data : Bytes) : Prop :=
  s.Reached q m ∧ ∀ d ∈ s.returned, d.place = q → d.version ≤ m → s.Behind d.effect key data

/-- What holds of a call. -/
def Call.Ok (q : List Bytes) (s : State) : Call → Prop
  | .acknowledged _ effect _ _ | .dropped _ effect _ _ => effect < s.agent.length
  | .reading place key t done => destination key = place ∧ (place = q → s.Reached q t.mtimeNs ∧
      ∀ d ∈ done, d.place = q → d ∈ s.returned ∧ d.version ≤ t.mtimeNs)
  | .served place key data done => place = q →
      ∀ d ∈ done, d.place = q → s.Behind d.effect key data
  | .fetching key mtimeNs _ => destination key = q → s.Reached q mtimeNs
  | .fetched key mtimeNs _ data => destination key = q → s.Fresh q key mtimeNs data
  | .requested _ | .finished => True

/-- The invariant: what is cached for `q` under the version in the mirror, or a later one, was read
after every write that has returned. -/
structure Inv (q : List Bytes) (s : State) : Prop where
  wf : s.client.tree.WF
  root_dir : (s.client.tree.nodes root).isDir = true
  consistent : s.cache.Consistent
  present : ∃ a, s.client.tree.paths q = some a
  returned : ∀ d ∈ s.returned, d.effect < s.agent.length ∧ (d.place = q → s.Reached q d.version)
  cached : ∀ key e, s.cache.rcache.lookup key = some e → destination key = q →
    s.Fresh q key e.mtimeNs e.data
  calls : ∀ call ∈ s.calls, call.Ok q s

/-- What a step does to the version, to the events at the agent and to the calls that returned: if
one returns that was about the entry, its version is one that had not been reached. -/
structure Grows (q : List Bytes) (s s' : State) : Prop where
  reached : ∀ m, s.Reached q m → s'.Reached q m
  agent : s.agent <+: s'.agent
  old : ∀ d ∈ s.returned, d ∈ s'.returned
  new : ∀ d ∈ s'.returned, d ∈ s.returned ∨ (d.effect < s'.agent.length ∧
    (d.place = q → s'.Reached q d.version ∧ ∀ m, s.Reached q m → m < d.version))

theorem State.Behind.mono {effect : ℕ} (hg : Grows q s s') (h : s.Behind effect key data) :
    s'.Behind effect key data := by
  obtain ⟨j, hlt, hj⟩ := h
  obtain ⟨rest, hrest⟩ := hg.agent
  refine ⟨j, hlt, ?_⟩
  rw [← hrest, List.getElem?_append_left (List.getElem?_eq_some_iff.1 hj).1, hj]

theorem State.Fresh.mono (hg : Grows q s s') (h : s.Fresh q key m data) :
    s'.Fresh q key m data := by
  refine ⟨hg.reached m h.1, fun d hd hplace hle => ?_⟩
  rcases hg.new d hd with hold | ⟨-, hnew⟩
  · exact (h.2 d hold hplace hle).mono hg
  · exact absurd hle (Int64.not_le.2 ((hnew hplace).2 m h.1))

theorem Call.Ok.mono {call : Call} (hg : Grows q s s') (h : call.Ok q s) : call.Ok q s' := by
  cases call with
  | requested | finished => exact trivial
  | acknowledged | dropped => exact Nat.lt_of_lt_of_le h hg.agent.length_le
  | reading =>
    refine ⟨h.1, fun hplace => ⟨hg.reached _ (h.2 hplace).1, fun d hd hq => ?_⟩⟩
    obtain ⟨hmem, hle⟩ := (h.2 hplace).2 d hd hq
    exact ⟨hg.old d hmem, hle⟩
  | served => exact fun hplace d hd hq => (h hplace d hd hq).mono hg
  | fetching => exact fun hkey => hg.reached _ (h hkey)
  | fetched => exact fun hkey => (h hkey).mono hg

theorem Inv.grow (h : Inv q s) (hg : Grows q s s') (hkept : Kept s.client.tree s'.client.tree)
    (hcon : s'.cache.Consistent)
    (hcache : ∀ key e, s'.cache.rcache.lookup key = some e →
      s.cache.rcache.lookup key = some e ∨
        (destination key = q → s'.Fresh q key e.mtimeNs e.data))
    (hcalls : ∀ call ∈ s'.calls, call ∈ s.calls ∨ call.Ok q s') : Inv q s' where
  wf := hkept.wf
  root_dir := hkept.root_dir h.root_dir
  consistent := hcon
  present := by
    obtain ⟨a, ha⟩ := h.present
    obtain ⟨a', ha', -⟩ := hg.reached a.mtimeNs ⟨a, ha, Int64.le_refl _⟩
    exact ⟨a', ha'⟩
  returned d hd := by
    rcases hg.new d hd with hold | ⟨hlt, hnew⟩
    · obtain ⟨hlt, hreached⟩ := h.returned d hold
      exact ⟨Nat.lt_of_lt_of_le hlt hg.agent.length_le, fun hq => hg.reached _ (hreached hq)⟩
    · exact ⟨hlt, fun hq => (hnew hq).1⟩
  cached key e he hkey := by
    rcases hcache key e he with hold | hnew
    · exact (h.cached key e hold hkey).mono hg
    · exact hnew hkey
  calls call hcall := by
    rcases hcalls call hcall with hold | hnew
    · exact (h.calls call hold).mono hg
    · exact hnew

theorem Grows.of_frame (hclient : s'.client.tree.paths q = s.client.tree.paths q)
    (hagent : s.agent <+: s'.agent) (hret : s'.returned = s.returned) : Grows q s s' where
  reached m hm := by
    rw [State.Reached, hclient]
    exact hm
  agent := hagent
  old d hd := hret ▸ hd
  new d hd := .inl (hret ▸ hd)

theorem Inv.begin (h : Inv q s) {call : Call} (hcall : call.Ok q s) :
    Inv q { s with calls := s.calls ++ [call] } := by
  have hg : Grows q s { s with calls := s.calls ++ [call] } :=
    .of_frame rfl (List.prefix_refl _) rfl
  refine h.grow hg h.wf.kept_refl h.consistent (fun _ _ he => .inl he) fun call' hmem => ?_
  rcases List.mem_append.1 hmem with hold | hnew
  · exact .inl hold
  · obtain rfl := List.mem_singleton.1 hnew
    exact .inr (hcall.mono hg)

theorem Inv.advance (h : Inv q s) {k : ℕ} {call : Call} {agent : List AgentEvent}
    {cache : ReadCache} (hagent : s.agent <+: agent) (hcon : cache.Consistent)
    (hcache : ∀ key e, cache.rcache.lookup key = some e → s.cache.rcache.lookup key = some e ∨
      (destination key = q → s.Fresh q key e.mtimeNs e.data))
    (hcall : call.Ok q { s with agent }) :
    Inv q { s with agent, cache, calls := s.calls.set k call } := by
  have hg : Grows q s { s with agent, cache, calls := s.calls.set k call } :=
    .of_frame rfl hagent rfl
  refine h.grow hg h.wf.kept_refl hcon (fun key e he => ?_) fun call' hmem => ?_
  · exact (hcache key e he).imp_right fun hnew hkey => (hnew hkey).mono hg
  · rcases List.mem_or_eq_of_mem_set hmem with hold | rfl
    · exact .inl hold
    · exact .inr (hcall.mono (.of_frame rfl (List.prefix_refl _) rfl))

theorem Inv.elsewhere (h : Inv q s) {client : RemoteRoot}
    (hkept : Kept s.client.tree client.tree)
    (hpaths : client.tree.paths q = s.client.tree.paths q) : Inv q { s with client } :=
  h.grow (.of_frame hpaths (List.prefix_refl _) rfl) hkept h.consistent (fun _ _ he => .inl he)
    fun _ hmem => .inl hmem

theorem Inv.evict (h : Inv q s) {cache : ReadCache} (hcon : cache.Consistent)
    (hcache : ∀ key e, cache.rcache.lookup key = some e → s.cache.rcache.lookup key = some e) :
    Inv q { s with cache } :=
  h.grow (.of_frame rfl (List.prefix_refl _) rfl) h.wf.kept_refl hcon
    (fun key e he => .inl (hcache key e he)) fun _ hmem => .inl hmem

theorem paths_of_lookup (h : s.client.tree.WF) {id : NodeId}
    (hid : s.client.tree.lookup key .exact = some id) (hkey : destination key = q) :
    s.client.tree.paths q = some (s.client.tree.nodes id).attr := by
  subst hkey
  exact h.paths_eq_some.2 ⟨id, h.walk_destination hid, rfl⟩

theorem Request.paths_process {c : RemoteRoot} {a : Attributes} (w : Request) (h : c.tree.WF)
    (hq : c.tree.paths q = some a) (now : Int64) (written gen : UInt64) :
    ∃ a', (c.process (w.mutation now written gen)).tree.paths q = some a' ∧
      a'.mtimeNs = if c.resolved w.path = some q then bumpMtime now a.mtimeNs else a.mtimeNs := by
  cases w with
  | write path offset =>
    refine ⟨_, write_paths h hq now path offset written gen, ?_⟩
    rw [Request.path]
    split_ifs <;> rfl
  | truncate path size =>
    refine ⟨_, truncate_paths h hq now path size gen, ?_⟩
    rw [Request.path]
    split_ifs <;> rfl

theorem Inv.bump (h : Inv q s) {k effect : ℕ} {w : Request} {written gen : UInt64} {now : Int64}
    (heffect : effect < s.agent.length)
    (hmax : ∀ a, s.client.tree.paths q = some a → a.mtimeNs < Int64.maxValue) :
    Inv q { s with
      client := s.client.process (w.mutation now written gen)
      calls := s.calls.set k .finished
      returned := s.returned ++ (moved s.client w.path effect now).toList } := by
  obtain ⟨a, ha⟩ := h.present
  obtain ⟨a', ha', hversion⟩ := w.paths_process h.wf ha now written gen
  have hlt := bumpMtime_lt now (hmax a ha)
  have hle : a.mtimeNs ≤ a'.mtimeNs := by
    rw [hversion]
    split_ifs
    · exact Int64.le_of_lt hlt
    · exact Int64.le_refl _
  have hbelow : ∀ {m}, s.Reached q m → m ≤ a.mtimeNs := by
    rintro m ⟨b, hb, hm⟩
    rw [ha] at hb
    cases hb
    exact hm
  refine h.grow ⟨fun m hm => ⟨a', ha', Int64.le_trans (hbelow hm) hle⟩, List.prefix_refl _,
    fun d hd => List.mem_append_left _ hd, fun d hd => ?_⟩ (kept_process h.wf _) h.consistent
    (fun _ _ he => .inl he) fun call hmem => ?_
  · refine (List.mem_append.1 hd).imp_right fun hnew => ?_
    rw [Option.mem_toList, moved, Option.map_eq_some_iff] at hnew
    obtain ⟨id, hid, rfl⟩ := hnew
    refine ⟨heffect, fun hplace => ?_⟩
    dsimp only at hplace ⊢
    -- The node found is the one at the entry.
    have hat := h.wf.paths_eq_some.2 ⟨id, h.wf.walk_location (h.wf.lookup_live hid), rfl⟩
    rw [hplace, ha] at hat
    rw [← Option.some.inj hat]
    have hres : s.client.resolved w.path = some q := by rw [resolved, hid, Option.map_some, hplace]
    rw [if_pos hres] at hversion
    exact ⟨⟨a', ha', hversion ▸ Int64.le_refl _⟩,
      fun m hm => Int64.lt_of_le_of_lt (hbelow hm) hlt⟩
  · rcases List.mem_or_eq_of_mem_set hmem with hold | rfl
    · exact .inl hold
    · exact .inr trivial

section Cases

variable (h : Inv q s)
include h

theorem Inv.acknowledge {k : ℕ} {written gen : UInt64}
    (hs : next s (.acknowledge k written gen) = some s') : Inv q s' := by
  rw [next] at hs
  split at hs
  · cases hs
    refine h.advance (List.prefix_append _ _) h.consistent (fun _ _ he => .inl he) ?_
    show _ < (s.agent ++ [_]).length
    rw [List.length_append]
    exact Nat.lt_succ_self _
  · cases hs

theorem Inv.dropCached {k : ℕ} (hs : next s (.dropCached k) = some s') : Inv q s' := by
  rw [next] at hs
  split at hs
  · rename_i w effect written gen hk
    cases hs
    have hcall : effect < s.agent.length := h.calls _ (List.mem_of_getElem? hk)
    refine h.advance (List.prefix_refl _) (h.consistent.step _) (fun key e he => ?_) hcall
    exact .inl ((h.consistent.dropCached w.path).lookup_of_some he)
  · cases hs

/-- A read begins with the version of the mirror, to which whatever has returned has moved it. -/
theorem Inv.read {path : Bytes} (hs : next s (.read path) = some s') : Inv q s' := by
  rw [next] at hs
  split_ifs at hs with hfile
  obtain ⟨place, hplace, rfl⟩ := Option.map_eq_some_iff.1 hs
  rw [Bool.and_eq_true] at hfile
  obtain ⟨id, hid, hkey, hversion⟩ := resolveForRead_spec h.wf h.root_dir hfile.1
  have hdest : destination ((s.client.resolveForRead path).key path) = place := by
    rw [resolved, hid, Option.map_some] at hplace
    have hwalk := h.wf.walk_location (h.wf.lookup_live hid)
    rw [Option.some.inj hplace] at hwalk
    exact (h.wf.walk_destination hkey).path_unique hwalk
  refine h.begin ⟨hdest, fun hq => ?_⟩
  have hpaths := paths_of_lookup h.wf hkey (hdest.trans hq)
  rw [hversion]
  refine ⟨⟨_, hpaths, Int64.le_refl _⟩, fun d hd hdq => ⟨hd, ?_⟩⟩
  obtain ⟨a, ha, hle⟩ := (h.returned d hd).2 hdq
  rw [hpaths] at ha
  cases ha
  exact hle

theorem Inv.probe {k : ℕ} (hs : next s (.probe k) = some s') : Inv q s' := by
  rw [next] at hs
  split at hs
  · rename_i place key t done hk
    obtain ⟨hdest, hcall⟩ : Call.Ok q s (.reading place key t done) :=
      h.calls _ (List.mem_of_getElem? hk)
    cases hfind : s.cache.find key t.mtimeNs t.size with
    | none =>
      rw [hfind] at hs
      cases hs
      exact h.advance (List.prefix_refl _) h.consistent (fun _ _ he => .inl he) fun hkey =>
        (hcall (hdest.symm.trans hkey)).1
    | some e =>
      rw [hfind] at hs
      cases hs
      obtain ⟨he, hmatch⟩ := Option.filter_eq_some_iff.1 hfind
      have hversion : e.mtimeNs = t.mtimeNs := by simpa using (of_decide_eq_true hmatch).1
      refine h.advance (List.prefix_refl _) (h.consistent.step _) (fun k' e' he' => ?_)
        fun hq d hd hdq => ?_
      · refine .inl ((h.consistent.lookup_step he').resolve_right ?_)
        intro heq
        cases heq
      · obtain ⟨hmem, hle⟩ := (hcall hq).2 d hd hdq
        have hfresh := h.cached key e he (hdest.trans hq)
        exact hfresh.2 d hmem hdq (hversion ▸ hle)
  · cases hs

theorem Inv.readAhead {dir : Bytes} {child : NodeId}
    (hs : next s (.readAhead dir child) = some s') : Inv q s' := by
  rw [next] at hs
  cases hdir : s.client.tree.lookup dir .exact with
  | none =>
    rw [hdir] at hs
    cases hs
  | some did =>
    rw [hdir] at hs
    dsimp only at hs
    rw [Option.ite_none_right_eq_some] at hs
    obtain ⟨⟨-, hchild, -⟩, hs⟩ := hs
    cases hs
    have hedge := h.wf.mem_children.1 hchild
    exact h.begin fun hkey =>
      ⟨_, paths_of_lookup h.wf (h.wf.lookup_child hdir hedge) hkey, Int64.le_refl _⟩

theorem Inv.answer {k : ℕ} {data : Bytes} (hs : next s (.answer k data) = some s') : Inv q s' := by
  rw [next] at hs
  split at hs
  · rename_i key mtimeNs size hk
    cases hs
    have hcall : destination key = q → s.Reached q mtimeNs := h.calls _ (List.mem_of_getElem? hk)
    refine h.advance (List.prefix_append _ _) h.consistent (fun _ _ he => .inl he) fun hkey => ?_
    refine ⟨hcall hkey, fun d hd _ _ => ⟨s.agent.length, (h.returned d hd).1, ?_⟩⟩
    show (s.agent ++ [_])[s.agent.length]? = _
    rw [List.getElem?_append_right (Nat.le_refl _), Nat.sub_self]
    rfl
  · cases hs

theorem Inv.cachePut {k : ℕ} (hs : next s (.cachePut k) = some s') : Inv q s' := by
  rw [next] at hs
  split at hs
  · rename_i key mtimeNs size data hk
    cases hs
    have hcall : destination key = q → s.Fresh q key mtimeNs data :=
      h.calls _ (List.mem_of_getElem? hk)
    refine h.advance (List.prefix_refl _) (h.consistent.step _) (fun k' e he => ?_) trivial
    refine (h.consistent.lookup_step he).imp_right fun hput hkey => ?_
    cases hput
    exact hcall hkey
  · cases hs

theorem Inv.step {step : Step} (hs : next s step = some s') (hok : Undisturbed q s step) :
    Inv q s' := by
  cases step with
  | request w =>
    cases hs
    exact h.begin trivial
  | acknowledge k written gen => exact h.acknowledge hs
  | dropCached k => exact h.dropCached hs
  | bump k now =>
    rw [next] at hs
    split at hs
    · rename_i w effect written gen hk
      cases hs
      have hcall : effect < s.agent.length := h.calls _ (List.mem_of_getElem? hk)
      exact h.bump hcall hok
    · cases hs
  | read path => exact h.read hs
  | probe k => exact h.probe hs
  | readAhead dir child => exact h.readAhead hs
  | answer k data => exact h.answer hs
  | cachePut k => exact h.cachePut hs
  | evict op =>
    rw [next, Option.ite_none_right_eq_some] at hs
    obtain ⟨hdrops, hs⟩ := hs
    cases hs
    refine h.evict (h.consistent.step op) fun key e he => ?_
    refine (h.consistent.lookup_step he).resolve_right ?_
    rintro rfl
    cases hdrops
  | mutate m =>
    cases hs
    exact h.elsewhere (kept_process h.wf m) hok
  | invalidate batch =>
    cases hs
    exact h.elsewhere (kept_applyInvalidation h.wf batch) hok

end Cases

theorem inv_of_start (h : Start q s) : Inv q s where
  wf := h.wf
  root_dir := h.root_dir
  consistent := h.consistent
  present := h.present
  returned d hd := by
    rw [h.returned] at hd
    cases hd
  cached key e he hkey := by
    refine ⟨h.cached key e he hkey, fun d hd => ?_⟩
    rw [h.returned] at hd
    cases hd
  calls call hcall := by
    rw [h.calls] at hcall
    cases hcall

theorem inv_of_exec {steps : List Step} (h : (system q).ExecWith (Undisturbed q) steps s) :
    Inv q s :=
  h.invariant (fun _ hs => inv_of_start hs) fun _ _ _ hi hs hok => hi.step hs hok

/-- **Reading one's own writes.**  Whatever the interleaving, a read that is served from the cache
gets bytes that the agent produced behind the change of every `write` or `truncate` of the entry
that had returned when the read began. -/
theorem read_your_writes {steps : List Step} {k : ℕ} {done : List Done} {d : Done}
    (h : (system q).ExecWith (Undisturbed q) steps s)
    (hk : s.calls[k]? = some (.served q key data done)) (hd : d ∈ done) (hq : d.place = q) :
    ∃ j, d.effect < j ∧ s.agent[j]? = some (.produced key data) := by
  have hcall : Call.Ok q s (.served q key data done) :=
    (inv_of_exec h).calls _ (List.mem_of_getElem? hk)
  exact hcall rfl d hd hq

/-- A file in the mirror. -/
def oneFile : State where
  client := { tree := (fresh.upsertPath [102] { size := 1, mtimeNs := 5 }).2 }

theorem start_oneFile : Start [[102]] oneFile where
  wf := (wf_fresh.kept_upsertPath _ _).wf
  root_dir := by decide
  consistent := .empty
  present := ⟨{ size := 1, mtimeNs := 5 }, by decide⟩
  agent := rfl
  calls := rfl
  returned := rfl
  cached _ _ he := by cases he

/-- The bytes `0` are fetched before a write changes the file, -/
def beforeBump : List Step :=
  [.read [102], .probe 0, .answer 0 [0], .request (.write [102] 0), .acknowledge 1 1 2,
    .dropCached 1]

/-- and put into the cache when it has returned; the bytes `1` are fetched behind it. -/
def afterBump : List Step :=
  [.cachePut 0, .read [102], .probe 2, .answer 2 [1], .cachePut 2, .read [102], .probe 3]

theorem read_your_writes_raced :
    ∃ s, (beforeBump ++ [Step.bump 1 3] ++ afterBump).foldlM next oneFile = some s ∧
      s.calls[3]? = some (.served [[102]] [102] [1] [⟨[[102]], 1, 6⟩]) ∧
      ∃ j, 1 < j ∧ s.agent[j]? = some (.produced [102] [1]) := by
  have hafter : ((beforeBump ++ [Step.bump 1 3] ++ afterBump).foldlM next oneFile).map
      (·.calls[3]?) = some (some (.served [[102]] [102] [1] [⟨[[102]], 1, 6⟩])) := by
    decide +kernel
  have hbefore : (beforeBump.foldlM next oneFile).map
      (fun s => (s.client.tree.paths [[102]]).map (·.mtimeNs)) = some (some 5) := by
    decide +kernel
  obtain ⟨s, hs, hserved⟩ := Option.map_eq_some_iff.1 hafter
  rw [List.foldlM_append, List.foldlM_append] at hs
  obtain ⟨s₂, hs₂, hs₃⟩ := Option.bind_eq_some_iff.1 hs
  obtain ⟨s₁, hs₁, hbump⟩ := Option.bind_eq_some_iff.1 hs₂
  obtain ⟨s₂', hbump, heq⟩ := Option.bind_eq_some_iff.1 hbump
  cases heq
  rw [hs₁, Option.map_some, Option.some.injEq] at hbefore
  have hmax : Undisturbed [[102]] s₁ (.bump 1 3) := by
    intro a ha
    rw [ha, Option.map_some, Option.some.injEq] at hbefore
    rw [hbefore]
    decide
  have hrun : (system [[102]]).ExecWith (Undisturbed [[102]])
      (beforeBump ++ [Step.bump 1 3] ++ afterBump) s :=
    (((TransSys.ExecWith.start start_oneFile).steps beforeBump (by simp [beforeBump, Undisturbed])
      hs₁).step (.bump 1 3) hmax hbump).steps afterBump (by simp [afterBump, Undisturbed]) hs₃
  refine ⟨s, ?_, hserved, ?_⟩
  · rw [List.foldlM_append, List.foldlM_append]
    exact hs
  · exact read_your_writes hrun hserved (List.mem_singleton_self _) rfl

end ReadYourWrites

end WslDrive
