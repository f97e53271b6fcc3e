import WslDrive.Agent.Mirror

/-!
# Resurrection of removed paths

After a reply to `unlink(p)`, `rmdir(p)` or `rename(p, q)` with generation `H` the client holds
back invalidations of `p` up to that generation.  The filter compares whole paths, though, while
`upsert_path` makes the parents it misses, and the replay over a fresh snapshot does not use the
filter.

* `resurrection_below` — a stale batch brings a renamed directory back through a file below it,
  and a replayed one an unlinked file;
* `no_resurrection` — in a run whose stale batches have no upsert below `p`, and none of `p`
  itself that the filter does not see, `p` stays away.
-/

namespace WslDrive

namespace RemoteRoot

open MetadataTree Path

/-! ### Runs of the client -/

/-- What happens to a client. -/
inductive Event where
  /-- The reader thread applies a batch. -/
  | batch (b : InvalidationBatch)
  /-- The calling thread handles the reply to a mutation. -/
  | reply (m : Mutation)
  | beginSnapshot
  | endSnapshot (reply : Except Errc (List SnapshotEntry × UInt64))

/-- One event at the client. -/
def step (c : RemoteRoot) : Event → RemoteRoot
  | .batch b => (c.applyInvalidation b).1
  | .reply m => c.process m
  | .beginSnapshot => c.beginSnapshot
  | .endSnapshot reply => (c.endSnapshot reply).2

/-- The client after some events. -/
def after (c : RemoteRoot) (es : List Event) : RemoteRoot := es.foldl step c

/-- One application of a batch, with the mirror before and after it. -/
structure Application where
  batch : InvalidationBatch
  before : MetadataTree
  result : MetadataTree

/-- The applications in the replay of some batches. -/
def replays : MetadataTree → List InvalidationBatch → List Application
  | _, [] => []
  | t, b :: bs => ⟨b, t, replay t b⟩ :: replays (replay t b) bs

/-- The applications of batches in one event, live or replayed. -/
def applications (c : RemoteRoot) : Event → List Application
  | .batch b => [⟨b, c.tree, (c.applyInvalidation b).1.tree⟩]
  | .endSnapshot (.ok (entries, snapGen)) =>
    match c.tree.loadSnapshot entries with
    | (.ok (), tree) => replays tree (c.missed snapGen)
    | (.error _, _) => []
  | _ => []

/-- The path that a mutation takes away, and the generation that was acknowledged.  A rename of a
path to itself takes nothing away. -/
def Mutation.takesAway : Mutation → Option (Bytes × UInt64)
  | .unlink path gen | .rmdir path gen => some (path, gen)
  | .rename src dst gen =>
    if normalizePath src = normalizePath dst then none else some (src, gen)
  | _ => none

/-- A path or something below it is made by an application. -/
def Application.Resurrects (a : Application) (p : Bytes) : Prop :=
  ∃ s, parts p <+: s ∧ a.before.paths s = none ∧ a.result.paths s ≠ none

/-- **A stale batch can bring a removed path back.**  After `d` is renamed to `e`, a batch of the
acknowledged generation that still has `d/x` makes `d` and `d/x` again, and so does its replay after
an unlink during a snapshot. -/
theorem resurrection_below :
    let c : RemoteRoot := { tree := (fresh.upsertPath (bytes "d/x") {}).2 }
    let b : InvalidationBatch := ⟨1, [{ kind := .upsert, path := bytes "d/x" }]⟩
    (∃ a ∈ (c.process (.rename (bytes "d") (bytes "e") 1)).applications (.batch b),
      a.batch.generation ≤ 1 ∧ a.Resurrects (bytes "d")) ∧
    ∃ a ∈ ((c.process (.unlink (bytes "d/x") 1)).after
        [.beginSnapshot, .batch b]).applications (.endSnapshot (.ok ([], 0))),
      a.batch.generation ≤ 1 ∧ a.Resurrects (bytes "d/x") := by
  refine ⟨⟨_, List.mem_singleton_self _, ?_⟩, ⟨_, List.mem_singleton_self _, ?_⟩⟩
  · exact ⟨by decide, [bytes "d", bytes "x"], by decide, rfl, by decide⟩
  · exact ⟨by decide, [bytes "d", bytes "x"], by decide, rfl, by decide⟩

/-! ### The runs without resurrection -/

/-- An operation would make a path or something below it. -/
def MakesBelow (p : Bytes) (op : InvalidationOp) : Prop :=
  op.kind = .upsert ∧ parts p <+: parts op.path

/-- No batch newer than `H` among the events names a path. -/
def NoNewer (path : Bytes) (H : UInt64) (es : List Event) : Prop :=
  ∀ b, .batch b ∈ es → H < b.generation → ∀ op ∈ b.ops, op.kind ≠ .rescan → op.path ≠ path

/-- The condition on an event, for a path `p` taken away with generation `H`, after the events
`es` that led to the state `c`.

* A stale batch has no upsert below `p`, and one of `p` itself only under its normalised name and
  while no newer batch has named it.
* No stale batch with an upsert at or below `p` is replayed.
* No other mutation names `p` or a path below it, and the table of mutations has room. -/
def Safe (p : Bytes) (H : UInt64) (c : RemoteRoot) (es : List Event) : Event → Prop
  | .batch b => b.generation ≤ H → ∀ op ∈ b.ops, MakesBelow p op →
      op.path = normalizePath p ∧ NoNewer (normalizePath p) H es
  | .endSnapshot (.ok (_, snapGen)) =>
      ∀ b ∈ c.missed snapGen, b.generation ≤ H → ∀ op ∈ b.ops, ¬ MakesBelow p op
  | .reply m => (∀ q ∈ m.touched, ¬ parts p <+: parts q) ∧
      c.localMutations.entries.length < kMaxLocalMutations
  | _ => True

/-- A run whose events all meet the condition. -/
inductive SafeRun (p : Bytes) (H : UInt64) (c : RemoteRoot) : List Event → Prop
  | nil : SafeRun p H c []
  | snoc {es : List Event} {e : Event} :
      SafeRun p H c es → Safe p H (c.after es) es e → SafeRun p H c (es ++ [e])

variable {c : RemoteRoot} {t : MetadataTree} {p : Bytes} {H : UInt64} {s : List Bytes}
  {es : List Event} {m : Mutation}

/-! ### The filter over a run -/

theorem notes_of_takesAway (h : m.takesAway = some (p, H)) :
    m.notes (normalizePath p) = some H := by
  cases m with
  | unlink path gen =>
    cases h
    exact if_pos rfl
  | rmdir path gen =>
    cases h
    exact if_pos rfl
  | rename src dst gen =>
    rw [Mutation.takesAway] at h
    split_ifs at h with hne
    cases h
    exact if_pos ⟨hne, .inl rfl⟩
  | createFile | write | truncate | mkdir => cases h

theorem notes_eq_none (h : ∀ q ∈ m.touched, ¬ parts p <+: parts q) :
    m.notes (normalizePath p) = none := by
  have hne : ∀ q ∈ m.touched, normalizePath p ≠ normalizePath q := by
    intro q hq heq
    exact h q hq (parts_eq_of_normalizePath_eq heq ▸ List.prefix_refl _)
  cases m with
  | rename src dst gen =>
    refine if_neg fun hand => ?_
    rcases hand.2 with heq | heq
    · exact hne src (by simp [Mutation.touched]) heq
    · exact hne dst (by simp [Mutation.touched]) heq
  | createFile path | write _ path | truncate _ path | mkdir path | unlink path | rmdir path =>
    exact if_neg (hne path (by simp [Mutation.touched]))

/-- The invariant of a safe run: the filter holds `p` back until a newer batch names it. -/
structure Guarded (p : Bytes) (H : UInt64) (es : List Event) (c : RemoteRoot) : Prop where
  wf : c.tree.WF
  held : NoNewer (normalizePath p) H es →
    c.localMutations.lookup (normalizePath p) = some H

theorem held_applyOps {gen : UInt64} {ops : List InvalidationOp} {key : Bytes}
    (h : c.localMutations.lookup key = some H)
    (hold : gen ≤ H ∨ ∀ op ∈ ops, op.kind ≠ .rescan → op.path ≠ key)
    (applied : List AppliedChange) :
    (ops.foldl (applyOp gen) (c, applied)).1.localMutations.lookup key = some H := by
  refine applyOps_invariant (fun c => c.localMutations.lookup key = some H)
    (fun c c' op hop hc hadm => admits_lookup hadm hc ?_) h applied
  rcases hold with hle | hne
  · exact .inl hle
  · by_cases hk : op.kind = .rescan
    · exact .inr (.inl hk)
    · exact .inr (.inr (hne op hop hk))

theorem NoNewer.of_snoc {path : Bytes} {e : Event} (h : NoNewer path H (es ++ [e])) :
    NoNewer path H es := fun b hb => h b (List.mem_append_left _ hb)

theorem Guarded.step {e : Event} (h : Guarded p H es c) (hsafe : Safe p H c es e) :
    Guarded p H (es ++ [e]) (c.step e) := by
  cases e with
  | batch b =>
    refine ⟨?_, fun hnew => ?_⟩
    · rw [RemoteRoot.step, applyInvalidation, record_tree]
      exact wf_applyOps h.wf _ _ _
    · rw [RemoteRoot.step, applyInvalidation, record_localMutations]
      refine held_applyOps (h.held hnew.of_snoc) ?_ []
      by_cases hle : b.generation ≤ H
      · exact .inl hle
      · exact .inr (hnew b (by simp) (UInt64.not_le.1 hle))
  | reply m =>
    obtain ⟨hne, hroom⟩ := hsafe
    refine ⟨(kept_process h.wf m).wf, fun hnew => ?_⟩
    rw [RemoteRoot.step, (process_lookup m _).resolve_right (by omega), notes_eq_none hne]
    exact h.held hnew.of_snoc
  | beginSnapshot => exact ⟨h.wf, fun hnew => h.held hnew.of_snoc⟩
  | endSnapshot reply =>
    refine ⟨kept_endSnapshot h.wf reply, fun hnew => ?_⟩
    have : (c.endSnapshot reply).2.localMutations = c.localMutations := by
      rcases reply with e | ⟨entries, snapGen⟩
      · rfl
      · rw [endSnapshot]
        rcases c.tree.loadSnapshot entries with ⟨e | u, t⟩ <;> rfl
    rw [RemoteRoot.step, this]
    exact h.held hnew.of_snoc

theorem SafeRun.guarded (h : SafeRun p H c es) (h₀ : Guarded p H [] c) :
    Guarded p H es (c.after es) := by
  induction h with
  | nil => exact h₀
  | snoc _ hsafe ih =>
    rw [after, List.foldl_append]
    exact ih.step hsafe

/-! ### One application -/

/-- An operation that makes nothing at or below `p` leaves what is missing there. -/
theorem applyTree_eq_none (h : t.WF) (mode : LookupMode) {op : InvalidationOp}
    (hop : ¬ MakesBelow p op) (hs : parts p <+: s) (hnone : t.paths s = none) :
    (applyTree t mode op).paths s = none := by
  rw [applyTree]
  cases hk : op.kind with
  | upsert => exact h.upsertPath_new hnone fun hpre => hop ⟨hk, hs.trans hpre⟩
  | remove => exact h.removePath_new _ _ hnone
  | rescan => exact hnone

theorem replay_eq_none (h : t.WF) {b : InvalidationBatch} (hb : ∀ op ∈ b.ops, ¬ MakesBelow p op)
    (hs : parts p <+: s) (hnone : t.paths s = none) : (replay t b).paths s = none := by
  rw [replay]
  generalize b.ops = ops at hb
  induction ops generalizing t with
  | nil => exact hnone
  | cons op ops ih =>
    exact ih (kept_applyTree h .exact op).wf
      (applyTree_eq_none h .exact (hb op List.mem_cons_self) hs hnone)
      fun op' hop' => hb op' (List.mem_cons_of_mem op hop')

theorem replays_eq_none (h : t.WF) {bs : List InvalidationBatch}
    (hbs : ∀ b ∈ bs, b.generation ≤ H → ∀ op ∈ b.ops, ¬ MakesBelow p op) {a : Application}
    (ha : a ∈ replays t bs) (hgen : a.batch.generation ≤ H) : ¬ a.Resurrects p := by
  induction bs generalizing t with
  | nil => cases ha
  | cons b bs ih =>
    rcases List.mem_cons.1 ha with rfl | ha
    · rintro ⟨s, hs, hnone, hsome⟩
      exact hsome (replay_eq_none h (hbs b List.mem_cons_self hgen) hs hnone)
    · exact ih (kept_replay h b).wf (fun b' hb' => hbs b' (List.mem_cons_of_mem b hb')) ha

theorem Guarded.applyOps_eq_none {b : InvalidationBatch} (h : Guarded p H es c)
    (hsafe : Safe p H c es (.batch b)) (hgen : b.generation ≤ H) (hs : parts p <+: s)
    (hnone : c.tree.paths s = none) : (c.applyInvalidation b).1.tree.paths s = none := by
  rw [applyInvalidation, record_tree]
  -- Along the batch the filter keeps its entry, since the batch is stale.
  refine (applyOps_invariant (fun c => Guarded p H es c ∧ c.tree.paths s = none)
    (fun c c' op hop hc hadm => ?_) ⟨h, hnone⟩ []).2
  obtain ⟨htree, -⟩ := admits_tree hadm
  have hwf : c'.tree.WF := by
    rw [htree]
    exact hc.1.wf
  refine ⟨⟨(kept_applyTree hwf _ op).wf, fun hnew =>
    admits_lookup hadm (hc.1.held hnew) (.inl hgen)⟩, ?_⟩
  refine applyTree_eq_none hwf _ (fun hmakes => ?_) hs (by rw [htree]; exact hc.2)
  obtain ⟨hpath, hnew⟩ := hsafe hgen op hop hmakes
  rw [admits, if_neg (by rw [hmakes.1]; decide), hpath, hc.1.held hnew] at hadm
  dsimp only at hadm
  rw [if_pos hgen] at hadm
  cases hadm

/-- **No resurrection.**  After a reply that took `p` away with generation `H`, in every run whose
events meet the condition `Safe`, no batch up to generation `H`, live or replayed, makes `p` or
anything below it. -/
theorem no_resurrection (c : RemoteRoot) (hwf : c.tree.WF)
    (hroom : c.localMutations.entries.length < kMaxLocalMutations)
    (m : Mutation) (p : Bytes) (H : UInt64) (hm : m.takesAway = some (p, H))
    (es : List Event) (e : Event) (hrun : SafeRun p H (c.process m) (es ++ [e])) :
    ∀ a ∈ ((c.process m).after es).applications e, a.batch.generation ≤ H →
      ¬ a.Resurrects p := by
  have h₀ : Guarded p H [] (c.process m) := by
    refine ⟨(kept_process hwf m).wf, fun _ => ?_⟩
    rw [(process_lookup m _).resolve_right (by omega), notes_of_takesAway hm]
    rfl
  obtain ⟨hsafes, hsafe⟩ : SafeRun p H (c.process m) es ∧
      Safe p H ((c.process m).after es) es e := by
    generalize heq : es ++ [e] = es' at hrun
    cases hrun with
    | nil => simp at heq
    | snoc hsafes hsafe =>
      obtain ⟨rfl, h1⟩ := List.append_inj' heq rfl
      cases h1
      exact ⟨hsafes, hsafe⟩
  have hg := hsafes.guarded h₀
  intro a ha hgen
  match e, hsafe, ha with
  | .batch b, hsafe, ha =>
    cases List.mem_singleton.1 ha
    rintro ⟨s, hs, hnone, hsome⟩
    exact hsome (hg.applyOps_eq_none hsafe hgen hs hnone)
  | .endSnapshot (.ok (entries, snapGen)), hsafe, ha =>
    have hload := (wf_fresh.kept_loadLoop [some root] entries).wf
    rw [applications, loadSnapshot, clear] at ha
    rcases heq : loadLoop fresh [some root] entries with ⟨err | u, t⟩ <;> rw [heq] at ha hload
    · cases ha
    · exact replays_eq_none hload hsafe ha hgen

/-- A file is unlinked; a newer batch names another file, and then a stale one the unlinked. -/
theorem no_resurrection_unlink :
    let c : RemoteRoot := { tree := (fresh.upsertPath (bytes "d/x") {}).2 }
    let c₁ := c.process (.unlink (bytes "d/x") 1)
    let newer : Event := .batch ⟨2, [{ kind := .upsert, path := bytes "g" }]⟩
    let stale : Event := .batch ⟨1, [{ kind := .upsert, path := bytes "d/x" }]⟩
    ∀ a ∈ (c₁.after [newer]).applications stale, a.batch.generation ≤ 1 →
      ¬ a.Resurrects (bytes "d/x") := by
  refine no_resurrection _ (wf_fresh.kept_upsertPath _ _).wf (by decide) _ _ 1 rfl _ _
    (.snoc (.snoc .nil fun hgen => absurd hgen (by decide)) fun _ op hop _ => ?_)
  cases List.mem_singleton.1 hop
  refine ⟨rfl, fun b hb _ op hop _ => ?_⟩
  cases List.mem_singleton.1 hb
  cases List.mem_singleton.1 hop
  decide

end RemoteRoot

end WslDrive
