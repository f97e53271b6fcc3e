import WslDrive.Agent.ReadCache
import WslDrive.Lib.Exec

/-!
# The cache of link targets

`readlink` looks into the cache under `rcache_mu_`; if there is no target it asks the agent and,
when the reader thread has handed over the reply, takes the mutex again and puts the target into
the cache.  The entries have no version.  An invalidation that the reader thread applies in between
finds nothing to evict, and the old target is put into the cache behind it.

* `Coherent` — a `readlink` that began when an invalidation had been applied does not return what
  the agent read before the change;
* `stale_target` — a run that is not coherent;
* `Unraced` — no invalidation is applied while a target is on its way that the agent read before the
  change it reports;
* `coherent_of_unraced` — then every state is coherent.
-/

namespace WslDrive

namespace ReadCache

variable {s : ReadCache} {path target : Bytes}

/-- The end of `readlink`. -/
def insertLink (s : ReadCache) (path target : Bytes) : ReadCache :=
  { s with linkCache := s.linkCache.insert path target }

theorem linkCache_eraseFound (s : ReadCache) (path : Bytes) :
    (s.eraseFound path).linkCache = s.linkCache := by
  rw [eraseFound]
  split <;> rfl

theorem lookup_link_dropCached (path key : Bytes) :
    (s.dropCached path).linkCache.lookup key =
      if key = path then none else s.linkCache.lookup key := by
  rw [dropCached]
  dsimp only
  rw [linkCache_eraseFound]
  by_cases hkey : key = path
  · rw [if_pos hkey, hkey, AList.lookup_erase]
  · rw [if_neg hkey, AList.lookup_erase_ne hkey]

/-- **An invalidation** evicts the targets of the paths it names. -/
theorem lookup_link_dropInvalidated {paths : List Bytes} {rescan : Bool}
    (h : (s.dropInvalidated paths rescan).linkCache.lookup path = some target) :
    s.linkCache.lookup path = some target ∧ path ∉ paths := by
  have hloop : (paths.foldl dropCached s).linkCache.lookup path = some target →
      s.linkCache.lookup path = some target ∧ path ∉ paths := by
    clear h
    induction paths generalizing s with
    | nil => exact fun h => ⟨h, List.not_mem_nil⟩
    | cons p paths ih =>
      intro h
      obtain ⟨hlookup, hnot⟩ := ih h
      rw [lookup_link_dropCached] at hlookup
      split_ifs at hlookup with hp
      exact ⟨hlookup, List.not_mem_cons_of_ne_of_not_mem hp hnot⟩
  cases rescan with
  | true => cases h
  | false => exact hloop h

theorem lookup_link_dropCachedPrefix {dir : Bytes}
    (h : (s.dropCachedPrefix dir).linkCache.lookup path = some target) :
    s.linkCache.lookup path = some target := by
  have hloop : ∀ (ks : List Bytes) (l : AList fun _ : Bytes => Bytes),
      (ks.foldl (fun l key => if under dir key then l.erase key else l) l).lookup path =
        some target → l.lookup path = some target := by
    intro ks
    induction ks with
    | nil => exact fun _ h => h
    | cons k ks ih =>
      intro l h
      have hrest := ih _ h
      dsimp only at hrest
      split_ifs at hrest with hunder
      · by_cases hk : path = k
        · rw [hk, AList.lookup_erase] at hrest
          cases hrest
        · rwa [AList.lookup_erase_ne hk] at hrest
      · exact hrest
  exact hloop _ _ h

end ReadCache

namespace LinkCache

/-! ### The system -/

/-- What happens at the agent to a link. -/
inductive AgentEvent where
  /-- The link at a path changes, or goes. -/
  | changed (path : Bytes)
  /-- The link is read, for a reply. -/
  | read (path target : Bytes)
  deriving DecidableEq

/-- An op of an invalidation. -/
structure Report where
  path : Bytes
  /-- The number of the event at the agent that it reports. -/
  change : ℕ
  deriving DecidableEq

/-- Where a thread in `readlink` is; `since` had been applied when it began. -/
inductive Call where
  | requested (path : Bytes) (since : List Report)
  /-- The agent has read the link, as its event number `event`. -/
  | answered (path target : Bytes) (event : ℕ) (since : List Report)
  /-- The reader thread has handed over the reply. -/
  | received (path target : Bytes) (event : ℕ) (since : List Report)
  | returned (path target : Bytes) (since : List Report)
  | failed
  deriving DecidableEq

/-- The agent's links, the client's cache and the calls of `readlink`. -/
structure State where
  /-- The links on the agent's disk. -/
  links : Bytes → Option Bytes := fun _ => none
  /-- What happened at the agent, in its order. -/
  agent : List AgentEvent := []
  cache : ReadCache := {}
  calls : List Call := []
  /-- The ops that the reader thread has applied. -/
  applied : List Report := []

/-- The steps of agent, client and calls. -/
inductive Step where
  /-- The link at a path changes on the agent's disk. -/
  | change (path : Bytes) (target : Option Bytes)
  /-- A `readlink` begins and looks into the cache. -/
  | readlink (path : Bytes)
  /-- The agent reads the link. -/
  | answer (k : ℕ)
  /-- The reader thread hands over the reply. -/
  | receive (k : ℕ)
  /-- The calling thread puts the target into the cache and returns. -/
  | insert (k : ℕ)
  /-- The reader thread applies a batch. -/
  | invalidate (ops : List Report) (rescan : Bool)
  | dropCached (path : Bytes)
  | dropCachedPrefix (dir : Bytes)

/-- One step, if it is possible. -/
def next (s : State) : Step → Option State
  | .change path target => some { s with
      links := Function.update s.links path target
      agent := s.agent ++ [.changed path] }
  | .readlink path =>
    match s.cache.linkCache.lookup path with
    | some target => some { s with calls := s.calls ++ [.returned path target s.applied] }
    | none => some { s with calls := s.calls ++ [.requested path s.applied] }
  | .answer k =>
    match s.calls[k]? with
    | some (.requested path since) =>
      match s.links path with
      | some target => some { s with
          agent := s.agent ++ [.read path target]
          calls := s.calls.set k (.answered path target s.agent.length since) }
      | none => some { s with calls := s.calls.set k .failed }
    | _ => none
  | .receive k =>
    match s.calls[k]? with
    | some (.answered path target event since) =>
      some { s with calls := s.calls.set k (.received path target event since) }
    | _ => none
  | .insert k =>
    match s.calls[k]? with
    | some (.received path target _ since) => some { s with
        cache := s.cache.insertLink path target
        calls := s.calls.set k (.returned path target since) }
    | _ => none
  | .invalidate ops rescan =>
    -- An op reports a change of its path that has happened.
    if ∀ r ∈ ops, s.agent[r.change]? = some (.changed r.path) then
      some { s with
        cache := s.cache.dropInvalidated (ops.map Report.path) rescan
        applied := s.applied ++ ops }
    else none
  | .dropCached path => some { s with cache := s.cache.dropCached path }
  | .dropCachedPrefix dir => some { s with cache := s.cache.dropCachedPrefix dir }

/-- The system, started with empty caches and no links. -/
def system : TransSys State Step := .ofNext (· = {}) next

/-- The agent read the target behind one of its events. -/
def State.Behind (s : State) (event : ℕ) (path target : Bytes) : Prop :=
  ∃ j, event < j ∧ s.agent[j]? = some (.read path target)

/-- What a `readlink` returned was read behind the changes that had been reported when it began. -/
def Coherent (s : State) : Prop :=
  ∀ path target since, Call.returned path target since ∈ s.calls →
    ∀ r ∈ since, r.path = path → s.Behind r.change path target

/-- The target that the call has still to put into the cache, by its path and event. -/
def Call.outstanding : Call → Option (Bytes × ℕ)
  | .answered path _ event _ | .received path _ event _ => some (path, event)
  | _ => none

/-- When a batch is applied, no target is outstanding that the agent read before a change of its
path that the batch reports. -/
def Unraced (s : State) : Step → Prop
  | .invalidate ops _ => ∀ r ∈ ops, ∀ call ∈ s.calls, ∀ o ∈ call.outstanding,
      o.1 = r.path → r.change < o.2
  | _ => True

instance (s : State) : (step : Step) → Decidable (Unraced s step)
  | .invalidate ops _ => inferInstanceAs (Decidable (∀ r ∈ ops, ∀ call ∈ s.calls,
      ∀ o ∈ call.outstanding, o.1 = r.path → r.change < o.2))
  | .change _ _ | .readlink _ | .answer _ | .receive _ | .insert _ | .dropCached _
  | .dropCachedPrefix _ => inferInstanceAs (Decidable True)

/-! ### The race -/

/-- The link `l` leads to `a` and is read; it is made to lead to `b`, which is reported; the thread
that has read it goes on, and then `l` is read again. -/
def race : List Step :=
  [.change [108] (some [97]), .readlink [108], .answer 0, .receive 0, .change [108] (some [98]),
    .invalidate [⟨[108], 2⟩] false, .insert 0, .readlink [108]]

/-- **A stale target.**  The second `readlink` begins when the change has been reported, and returns
what was read before it, and never after it. -/
theorem stale_target :
    ∃ s, system.Exec race s ∧ s.links [108] = some [98] ∧
      s.calls[1]? = some (.returned [108] [97] [⟨[108], 2⟩]) ∧ ¬ Coherent s := by
  have hrun : (race.foldlM next {}).map (fun s => (s.links [108], s.calls[1]?, s.agent)) =
      some (some [98], some (.returned [108] [97] [⟨[108], 2⟩]),
        [.changed [108], .read [108] [97], .changed [108]]) := by
    decide +kernel
  obtain ⟨s, hs, heq⟩ := Option.map_eq_some_iff.1 hrun
  obtain ⟨hlinks, hcall, hagent⟩ : s.links [108] = some [98] ∧
      s.calls[1]? = some (.returned [108] [97] [⟨[108], 2⟩]) ∧
      s.agent = [.changed [108], .read [108] [97], .changed [108]] := by
    simpa using heq
  refine ⟨s, TransSys.exec_ofNext rfl hs, hlinks, hcall, fun hcoherent => ?_⟩
  obtain ⟨j, hlt, hj⟩ := hcoherent _ _ _ (List.mem_of_getElem? hcall) _
    (List.mem_singleton_self _) rfl
  have hlen := (List.getElem?_eq_some_iff.1 hj).1
  rw [hagent] at hlen
  exact absurd hlt (Nat.not_lt_of_le (Nat.le_of_lt_succ hlen))

/-! ### Runs without the race -/

variable {s s' : State} {path target : Bytes}

/-- The agent read the target behind every change of the path that has been reported. -/
def State.Current (s : State) (path target : Bytes) (event : ℕ) : Prop :=
  s.agent[event]? = some (.read path target) ∧
    ∀ r ∈ s.applied, r.path = path → r.change < event

/-- What holds of a call. -/
def Call.Ok (s : State) : Call → Prop
  | .requested _ since => ∀ r ∈ since, r ∈ s.applied
  | .answered path target event since | .received path target event since =>
    s.Current path target event ∧ ∀ r ∈ since, r ∈ s.applied
  | .returned path target since => ∀ r ∈ since, r.path = path → s.Behind r.change path target
  | .failed => True

/-- The invariant: what is cached was current after all that has been applied. -/
structure Inv (s : State) : Prop where
  applied : ∀ r ∈ s.applied, r.change < s.agent.length
  cached : ∀ path target, s.cache.linkCache.lookup path = some target →
    ∃ event, s.Current path target event
  calls : ∀ call ∈ s.calls, call.Ok s

theorem Inv.coherent (h : Inv s) : Coherent s := fun _ _ _ hmem => h.calls _ hmem

theorem State.Current.behind {event : ℕ} (h : s.Current path target event) {r : Report}
    (hr : r ∈ s.applied) (hpath : r.path = path) : s.Behind r.change path target :=
  ⟨event, h.2 r hr hpath, h.1⟩

section Frame

variable (hagent : s.agent <+: s'.agent) (happlied : s'.applied = s.applied)
include hagent

theorem getElem?_agent {k : ℕ} {e : AgentEvent} (h : s.agent[k]? = some e) :
    s'.agent[k]? = some e := by
  obtain ⟨rest, hrest⟩ := hagent
  rw [← hrest, List.getElem?_append_left (List.getElem?_eq_some_iff.1 h).1, h]

include happlied

theorem State.Current.mono {event : ℕ} (h : s.Current path target event) :
    s'.Current path target event :=
  ⟨getElem?_agent hagent h.1, fun r hr => h.2 r (happlied ▸ hr)⟩

theorem Call.Ok.mono {call : Call} (h : call.Ok s) : call.Ok s' := by
  cases call with
  | requested => exact fun r hr => happlied ▸ h r hr
  | answered | received => exact ⟨h.1.mono hagent happlied, fun r hr => happlied ▸ h.2 r hr⟩
  | returned =>
    intro r hr hpath
    obtain ⟨j, hlt, hj⟩ := h r hr hpath
    exact ⟨j, hlt, getElem?_agent hagent hj⟩
  | failed => exact trivial

end Frame

theorem Inv.frame (h : Inv s) (hagent : s.agent <+: s'.agent) (happlied : s'.applied = s.applied)
    (hcache : ∀ path target, s'.cache.linkCache.lookup path = some target →
      s.cache.linkCache.lookup path = some target ∨ ∃ event, s.Current path target event)
    (hcalls : ∀ call ∈ s'.calls, call ∈ s.calls ∨ call.Ok s') : Inv s' where
  applied r hr := Nat.lt_of_lt_of_le (h.applied r (happlied ▸ hr)) hagent.length_le
  cached path target hlookup := by
    obtain ⟨event, hcurrent⟩ := (hcache path target hlookup).elim (h.cached path target) id
    exact ⟨event, hcurrent.mono hagent happlied⟩
  calls call hcall := (hcalls call hcall).elim
    (fun hold => (h.calls call hold).mono hagent happlied) id

theorem Inv.begin (h : Inv s) {call : Call} (hcall : call.Ok s) :
    Inv { s with calls := s.calls ++ [call] } := by
  refine h.frame (List.prefix_refl _) rfl (fun _ _ hl => .inl hl) fun call' hmem => ?_
  rcases List.mem_append.1 hmem with hold | hnew
  · exact .inl hold
  · obtain rfl := List.mem_singleton.1 hnew
    exact .inr (hcall.mono (List.prefix_refl _) rfl)

theorem Inv.advance (h : Inv s) {k : ℕ} {call : Call} {agent : List AgentEvent}
    (hagent : s.agent <+: agent) (hcall : call.Ok { s with agent }) :
    Inv { s with agent, calls := s.calls.set k call } := by
  refine h.frame hagent rfl (fun _ _ hl => .inl hl) fun call' hmem => ?_
  rcases List.mem_or_eq_of_mem_set hmem with hold | rfl
  · exact .inl hold
  · exact .inr (hcall.mono (List.prefix_refl _) rfl)

theorem Inv.evict (h : Inv s) {cache : ReadCache}
    (hcache : ∀ path target, cache.linkCache.lookup path = some target →
      s.cache.linkCache.lookup path = some target) : Inv { s with cache } :=
  h.frame (List.prefix_refl _) rfl (fun path target hl => .inl (hcache path target hl))
    fun _ hmem => .inl hmem

/-- **A batch is applied.**  It evicts what it names, and what is outstanding was read behind it. -/
theorem Inv.invalidate (h : Inv s) {ops : List Report} {rescan : Bool}
    (hops : ∀ r ∈ ops, s.agent[r.change]? = some (.changed r.path))
    (hok : Unraced s (.invalidate ops rescan)) :
    Inv { s with
      cache := s.cache.dropInvalidated (ops.map Report.path) rescan
      applied := s.applied ++ ops } where
  applied r hr := by
    rcases List.mem_append.1 hr with hold | hnew
    · exact h.applied r hold
    · exact (List.getElem?_eq_some_iff.1 (hops r hnew)).1
  cached path target hlookup := by
    obtain ⟨hold, hnot⟩ := ReadCache.lookup_link_dropInvalidated hlookup
    obtain ⟨event, hread, hbehind⟩ := h.cached path target hold
    refine ⟨event, hread, fun r hr hpath => ?_⟩
    rcases List.mem_append.1 hr with hr | hr
    · exact hbehind r hr hpath
    · exact absurd (List.mem_map.2 ⟨r, hr, hpath⟩) hnot
  calls call hcall := by
    have hold := h.calls call hcall
    have hbehind : ∀ {path target event}, call.outstanding = some (path, event) →
        s.Current path target event → ∀ r ∈ s.applied ++ ops, r.path = path → r.change < event := by
      intro path target event hout hcurrent r hr hpath
      rcases List.mem_append.1 hr with hr | hr
      · exact hcurrent.2 r hr hpath
      · exact hok r hr call hcall (path, event) hout hpath.symm
    cases call with
    | requested => exact fun r hr => List.mem_append_left _ (hold r hr)
    | answered | received =>
      exact ⟨⟨hold.1.1, hbehind rfl hold.1⟩, fun r hr => List.mem_append_left _ (hold.2 r hr)⟩
    | returned => exact hold
    | failed => exact trivial

theorem Inv.step {step : Step} (h : Inv s) (hs : next s step = some s')
    (hok : Unraced s step) : Inv s' := by
  cases step with
  | change path target =>
    cases hs
    exact h.frame (List.prefix_append _ _) rfl (fun _ _ hl => .inl hl) fun _ hmem => .inl hmem
  | readlink path =>
    rw [next] at hs
    split at hs
    · rename_i target hlookup
      cases hs
      obtain ⟨event, hcurrent⟩ := h.cached path target hlookup
      exact h.begin fun r hr hpath => hcurrent.behind hr hpath
    · cases hs
      exact h.begin fun r hr => hr
  | answer k =>
    rw [next] at hs
    split at hs
    · rename_i path since hk
      have hsince : ∀ r ∈ since, r ∈ s.applied := h.calls _ (List.mem_of_getElem? hk)
      split at hs
      · rename_i target hlink
        cases hs
        refine h.advance (List.prefix_append _ _) ⟨⟨?_, fun r hr _ => h.applied r hr⟩, hsince⟩
        show (s.agent ++ [_])[s.agent.length]? = _
        rw [List.getElem?_append_right (Nat.le_refl _), Nat.sub_self]
        rfl
      · cases hs
        exact h.advance (List.prefix_refl _) trivial
    · cases hs
  | receive k =>
    rw [next] at hs
    split at hs
    · rename_i path target event since hk
      cases hs
      have hcall : Call.Ok s (.answered path target event since) :=
        h.calls _ (List.mem_of_getElem? hk)
      exact h.advance (List.prefix_refl _) hcall
    · cases hs
  | insert k =>
    rw [next] at hs
    split at hs
    · rename_i path target event since hk
      cases hs
      obtain ⟨hcurrent, hsince⟩ : Call.Ok s (.received path target event since) :=
        h.calls _ (List.mem_of_getElem? hk)
      refine h.frame (List.prefix_refl _) rfl (fun p t hl => ?_) fun call hmem => ?_
      · by_cases hp : p = path
        · subst hp
          rw [ReadCache.insertLink, AList.lookup_insert] at hl
          cases hl
          exact .inr ⟨event, hcurrent⟩
        · rw [ReadCache.insertLink, AList.lookup_insert_ne hp] at hl
          exact .inl hl
      · rcases List.mem_or_eq_of_mem_set hmem with hold | rfl
        · exact .inl hold
        · exact .inr fun r hr hpath => hcurrent.behind (hsince r hr) hpath
    · cases hs
  | invalidate ops rescan =>
    rw [next, Option.ite_none_right_eq_some] at hs
    obtain ⟨hops, hs⟩ := hs
    cases hs
    exact h.invalidate hops hok
  | dropCached path =>
    cases hs
    refine h.evict fun p t hl => ?_
    rw [ReadCache.lookup_link_dropCached] at hl
    split_ifs at hl
    exact hl
  | dropCachedPrefix dir =>
    cases hs
    exact h.evict fun p t hl => ReadCache.lookup_link_dropCachedPrefix hl

/-- **Coherence without the race**: as long as no batch is applied while a target is outstanding
that was read before a change it reports, no `readlink` returns a stale target. -/
theorem coherent_of_unraced {steps : List Step} (h : system.ExecWith Unraced steps s) :
    Coherent s := by
  refine Inv.coherent (h.invariant (fun _ hs => ?_) fun _ _ _ hi hs hok => hi.step hs hok)
  cases hs
  exact ⟨List.forall_mem_nil _, fun _ _ hl => (Option.some_ne_none _ hl.symm).elim,
    List.forall_mem_nil _⟩

/-- The same with the batch behind the call. -/
def orderly : List Step :=
  [.change [108] (some [97]), .readlink [108], .answer 0, .receive 0, .insert 0,
    .change [108] (some [98]), .invalidate [⟨[108], 2⟩] false, .readlink [108], .answer 1,
    .receive 1, .insert 1]

theorem coherent_of_unraced_orderly :
    ∃ s, system.ExecWith Unraced orderly s ∧ Coherent s ∧
      s.calls[1]? = some (.returned [108] [98] [⟨[108], 2⟩]) := by
  have hrun : (orderly.foldlM (fun s a => if Unraced s a then next s a else none) {}).map
      (fun s => s.calls[1]?) = some (some (.returned [108] [98] [⟨[108], 2⟩])) := by
    decide +kernel
  obtain ⟨s, hs, hcall⟩ := Option.map_eq_some_iff.1 hrun
  have hexec : system.ExecWith Unraced orderly s := TransSys.execWith_ofNext rfl hs
  exact ⟨s, hexec, coherent_of_unraced hexec, hcall⟩

end LinkCache

end WslDrive
