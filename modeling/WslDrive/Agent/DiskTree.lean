import WslDrive.Agent.Scanner
import WslDrive.Core.Tree.Told

/-!
# Scanning a tree that does not change

A `DiskView` that shows a tree is a `PathMap`, and a scan of one of its directories hands out
entries of that map, all of them unless the callback makes it stop.

* `DiskView.IsTree` — a view that shows a tree of files, links and directories with valid names;
* `Emits` — entries whose parents, by index, are entries handed out before;
* `scanTree_spec` — what a scan hands out.
-/

namespace WslDrive

open MetadataTree Path Scanner

/-- The relative path with the given names. -/
def joined (p : List Bytes) : Bytes := [slash].intercalate p

theorem parts_joined {p : List Bytes} (h : ∀ c ∈ p, validName c = true) : parts (joined p) = p :=
  parts_join h

theorem joined_inj {p q : List Bytes} (hp : ∀ c ∈ p, validName c = true)
    (hq : ∀ c ∈ q, validName c = true) (h : joined p = joined q) : p = q := by
  rw [← parts_joined hp, h, parts_joined hq]

theorem joined_ne_nil_of_forall {p : List Bytes} (h : ∀ c ∈ p, c ≠ []) (hp : p ≠ []) :
    joined p ≠ [] := by
  obtain ⟨d, q, rfl⟩ := List.exists_cons_of_ne_nil hp
  intro hnil
  have hd := h d List.mem_cons_self
  cases q <;> simp [joined, hd] at hnil

theorem joined_ne_nil {p : List Bytes} (h : ∀ c ∈ p, validName c = true) (hne : p ≠ []) :
    joined p ≠ [] :=
  joined_ne_nil_of_forall (fun c hc => (isPart_of_validName (h c hc)).1) hne

theorem joinName_joined_of_ne_nil {p : List Bytes} (h : ∀ c ∈ p, c ≠ []) (c : Bytes) :
    joinName (joined p) c = joined (p ++ [c]) := by
  rw [joinName]
  rcases eq_or_ne p [] with rfl | hp
  · simp [joined]
  · rw [if_neg (joined_ne_nil_of_forall h hp), joined, joined, intercalate_concat hp]

theorem joinName_joined {p : List Bytes} (h : ∀ c ∈ p, validName c = true) (c : Bytes) :
    joinName (joined p) c = joined (p ++ [c]) :=
  joinName_joined_of_ne_nil (fun d hd => (isPart_of_validName (h d hd)).1) c

/-- What a view shows at the paths of valid names. -/
def DiskView.paths (view : DiskView) : PathMap := fun p =>
  if p.all validName then view.attributes (joined p) else none

/-- A view that shows a tree without special files, in which every name is valid. -/
structure DiskView.IsTree (view : DiskView) : Prop where
  root : ∃ a, view.paths [] = some a ∧ a.kind = .directory
  tree : view.paths.IsTree
  regular : ∀ p a, view.paths p = some a → a.kind ≠ .other
  isDirectory : ∀ p a, view.paths p = some a → a.kind = .directory →
    view.isDirectory (joined p) = true
  names : ∀ p a, view.paths p = some a → a.kind = .directory →
    ∃ l, view.names (joined p) = some l ∧ l.Nodup ∧ ∀ c, c ∈ l ↔ view.paths (p ++ [c]) ≠ none

/-- A directory of the view. -/
def DiskView.Dir (view : DiskView) (p : List Bytes) : Prop :=
  ∃ a, view.paths p = some a ∧ a.kind = .directory

section

variable {view : DiskView} {p q r : List Bytes} {c : Bytes}

theorem DiskView.valid_of_paths (h : view.paths p ≠ none) : ∀ c ∈ p, validName c = true := by
  rw [DiskView.paths] at h
  split_ifs at h with hall
  · exact List.all_eq_true.1 hall
  · exact absurd rfl h

theorem DiskView.paths_eq (h : ∀ c ∈ p, validName c = true) :
    view.paths p = view.attributes (joined p) := by
  rw [DiskView.paths, if_pos (List.all_eq_true.2 h)]

theorem DiskView.Dir.valid (h : view.Dir p) : ∀ c ∈ p, validName c = true := by
  obtain ⟨a, ha, -⟩ := h
  exact DiskView.valid_of_paths (by rw [ha]; simp)

theorem DiskView.Dir.attributes (h : view.Dir p) {a : Attributes}
    (ha : view.paths (p ++ [c]) = some a) : view.attributes (joinName (joined p) c) = some a := by
  rw [joinName_joined h.valid, ← DiskView.paths_eq, ha]
  exact DiskView.valid_of_paths (by rw [ha]; simp)

/-- The entries that a scan of `r` hands out, each once, with their paths by index. -/
inductive Emits (view : DiskView) (r : List Bytes) :
    List SnapshotEntry → List (List Bytes) → Prop
  | start : Emits view r [] [r]
  | entry {es : List SnapshotEntry} {ps : List (List Bytes)} {e : SnapshotEntry} {p : List Bytes}
      (h : Emits view r es ps) (hp : ps[e.parent.toNat]? = some p)
      (he : view.paths (p ++ [e.name]) = some e.attr) (hnew : p ++ [e.name] ∉ ps) :
      Emits view r (es ++ [e]) (ps ++ [p ++ [e.name]])

theorem Emits.length_eq {es : List SnapshotEntry} {ps : List (List Bytes)}
    (h : Emits view r es ps) : ps.length = es.length + 1 := by
  induction h with
  | start => rfl
  | entry _ _ _ _ ih => rw [List.length_append, List.length_append, ih]; rfl

theorem Emits.nodup {es : List SnapshotEntry} {ps : List (List Bytes)}
    (h : Emits view r es ps) : ps.Nodup := by
  induction h with
  | start => exact List.nodup_singleton r
  | entry _ _ _ hnew ih => exact List.nodup_append.2 ⟨ih, List.nodup_singleton _, by
      intro a ha b hb hab
      rw [List.mem_singleton.1 hb] at hab
      exact hnew (hab ▸ ha)⟩

theorem Emits.under_root {es : List SnapshotEntry} {ps : List (List Bytes)}
    (h : Emits view r es ps) : ∀ q ∈ ps, r <+: q := by
  induction h with
  | start =>
    intro q hq
    rw [List.mem_singleton.1 hq]
  | entry _ hp _ _ ih =>
    intro q hq
    rcases List.mem_append.1 hq with hq | hq
    · exact ih q hq
    · rw [List.mem_singleton.1 hq]
      exact (ih _ (List.mem_of_getElem? hp)).trans (List.prefix_append _ _)

theorem Emits.eq_cons {es : List SnapshotEntry} {ps : List (List Bytes)}
    (h : Emits view r es ps) :
    ∃ l, ps = r :: l ∧ l.Nodup ∧ ∀ q ∈ l, r <+: q ∧ q ≠ r ∧ view.paths q ≠ none := by
  have hnodup := h.nodup
  have hroot := h.under_root
  obtain ⟨l, rfl, hl⟩ : ∃ l, ps = r :: l ∧ ∀ q ∈ l, view.paths q ≠ none := by
    clear hnodup hroot
    induction h with
    | start => exact ⟨[], rfl, nofun⟩
    | @entry es ps e p _ _ he _ ih =>
      obtain ⟨l, rfl, hl⟩ := ih
      refine ⟨l ++ [p ++ [e.name]], rfl, fun q hq => ?_⟩
      rcases List.mem_append.1 hq with hq | hq
      · exact hl q hq
      · rw [List.mem_singleton.1 hq, he]
        simp
  rw [List.nodup_cons] at hnodup
  refine ⟨l, rfl, hnodup.2, fun q hq => ⟨hroot q (List.mem_cons_of_mem _ hq), ?_, hl q hq⟩⟩
  rintro rfl
  exact hnodup.1 hq

end

/-! ### The walk -/

namespace Scanner

variable {σ : Type} {w : Walk σ} {out : σ} {stop : σ → Bool} {N : ℕ} {r p : List Bytes}
  {s s' s'' : State σ} {es : List SnapshotEntry} {ps ps' ps'' read : List (List Bytes)}
  {dir : Pending} {c : Bytes}

/-- A walk that is stopped by its callback, after `N` entries at the latest. -/
structure Walk.Stops (w : Walk σ) (out : σ) (stop : σ → Bool) (N : ℕ) : Prop where
  skip : ∀ x rel isDir, stop x = true → w.skip x rel isDir = true
  bound : ∀ es : List SnapshotEntry, N ≤ es.length → stop (es.foldl w.onEntry out) = true
  /-- The indices have 32 bits. -/
  index : N + 1 < 2 ^ 32

/-- A walk that skips nothing before it is stopped. -/
def Walk.Whole (w : Walk σ) (stop : σ → Bool) : Prop :=
  ∀ x rel isDir, w.skip x rel isDir = true → stop x = true

/-- The state of a walk that has handed out `es` and has read the directories `read`. -/
structure Walk.Sound (w : Walk σ) (r : List Bytes) (out : σ) (s : State σ)
    (es : List SnapshotEntry) (ps read : List (List Bytes)) : Prop where
  out_eq : s.out = es.foldl w.onEntry out
  emits : Emits w.view r es ps
  nextIndex : s.nextIndex.toNat = ps.length
  queue : ∀ dir ∈ s.queue, ∃ p, dir.path = joined p ∧ w.view.Dir p ∧
    ps[dir.index.toNat]? = some p ∧ p ∉ read
  distinct : s.queue.Pairwise fun dir dir' => dir.path ≠ dir'.path
  read_mem : ∀ q ∈ read, q ∈ ps
  kids : ∀ q c, q ++ [c] ∈ ps → q ++ [c] = r ∨ q ∈ read

/-- The walk goes on. -/
structure Walk.Grows (w : Walk σ) (stop : σ → Bool) (s s' : State σ)
    (ps ps' : List (List Bytes)) : Prop where
  paths : ps <+: ps'
  queue : s.queue <+: s'.queue
  length : s'.queue.length + ps.length ≤ s.queue.length + ps'.length
  stop : stop s.out = true → stop s'.out = true
  /-- Unless it stays on a filesystem, it remembers the directories it finds. -/
  queued : (∀ path, w.descends path = true) → ∀ q ∈ ps', q ∉ ps → w.view.Dir q →
    ∃ dir ∈ s'.queue, dir.path = joined q

theorem Walk.Grows.refl (s : State σ) (ps : List (List Bytes)) : w.Grows stop s s ps ps :=
  ⟨List.prefix_refl _, List.prefix_refl _, Nat.le_refl _, fun h => h,
    fun _ _ hq hnot => absurd hq hnot⟩

theorem Walk.Grows.trans (h : w.Grows stop s s' ps ps') (h' : w.Grows stop s' s'' ps' ps'') :
    w.Grows stop s s'' ps ps'' where
  paths := h.paths.trans h'.paths
  queue := h.queue.trans h'.queue
  length := by
    have := h.length
    have := h'.length
    omega
  stop hs := h'.stop (h.stop hs)
  queued hdesc q hq hnot hdir := by
    by_cases hq' : q ∈ ps'
    · obtain ⟨dir, hmem, hpath⟩ := h.queued hdesc q hq' hnot hdir
      exact ⟨dir, h'.queue.subset hmem, hpath⟩
    · exact h'.queued hdesc q hq hq' hdir

/-- **What the walk does with one entry** of a directory that it has read. -/
theorem Walk.entry_eq (hview : w.view.IsTree) (hstop : w.Stops out stop N) (hdir : w.view.Dir p)
    (hpath : dir.path = joined p) {a : Attributes} (ha : w.view.paths (p ++ [c]) = some a) :
    ((w.Whole stop → stop s.out = true) ∧ (w.entry dir s c).out = s.out ∧
      (w.entry dir s c).queue = s.queue ∧ (w.entry dir s c).nextIndex = s.nextIndex) ∨
    stop s.out = false ∧ (w.entry dir s c).out = w.onEntry s.out ⟨dir.index, c, a⟩ ∧
      (w.entry dir s c).nextIndex = s.nextIndex + 1 ∧
      ∃ rel, (w.entry dir s c).queue = s.queue ++
        if a.kind = .directory ∧ w.descends (joined (p ++ [c])) = true then
          [⟨joined (p ++ [c]), rel, s.nextIndex⟩] else [] := by
  have hattr := hdir.attributes ha
  have hother := hview.regular _ a ha
  rw [Walk.entry, hpath, hattr]
  dsimp only
  rw [if_neg hother, joinName_joined hdir.valid]
  cases hskip : w.skip s.out (joinName dir.rel c) (a.kind == .directory) with
  | true => exact .inl ⟨fun hwhole => hwhole _ _ _ hskip, rfl, rfl, rfl⟩
  | false =>
    have hgoes : stop s.out = false := by
      by_contra hst
      rw [hstop.skip _ _ _ (by simpa using hst)] at hskip
      cases hskip
    refine .inr ⟨hgoes, ?_⟩
    rw [if_neg (by decide)]
    cases hk : a.kind with
    | directory =>
      dsimp only
      by_cases hd : w.descends (joined (p ++ [c])) = true
      · rw [if_pos hd]
        refine ⟨rfl, rfl, joinName dir.rel c, ?_⟩
        rw [if_pos ⟨rfl, hd⟩]
      · rw [if_neg hd]
        refine ⟨rfl, rfl, [], ?_⟩
        rw [if_neg fun h => hd h.2, List.append_nil]
    | file => exact ⟨rfl, rfl, [], by simp⟩
    | symlink => exact ⟨rfl, rfl, [], by simp⟩
    | other => exact absurd hk hother

theorem Walk.Sound.entry (hview : w.view.IsTree) (hstop : w.Stops out stop N)
    (hs : w.Sound r out s es ps read) (hdir : w.view.Dir p) (hpath : dir.path = joined p)
    (hindex : ps[dir.index.toNat]? = some p) (hread : p ∈ read)
    (hc : w.view.paths (p ++ [c]) ≠ none) (hnew : p ++ [c] ∉ ps) :
    ∃ es' ps', w.Sound r out (w.entry dir s c) es' ps' read ∧
      w.Grows stop s (w.entry dir s c) ps ps' ∧ (∀ q ∈ ps', q ∈ ps ∨ q = p ++ [c]) ∧
      (w.Whole stop → stop (w.entry dir s c).out = true ∨ p ++ [c] ∈ ps') := by
  obtain ⟨a, ha⟩ := Option.ne_none_iff_exists'.1 hc
  rcases Walk.entry_eq (s := s) hview hstop hdir hpath ha with
    ⟨hst, hout, hqueue, hnext⟩ | ⟨hst, hout, hnext, rel, hqueue⟩
  · refine ⟨es, ps, ⟨hout.trans hs.out_eq, hs.emits, by rw [hnext, hs.nextIndex],
      by rw [hqueue]; exact hs.queue, by rw [hqueue]; exact hs.distinct, hs.read_mem, hs.kids⟩,
      ⟨List.prefix_refl _, by rw [hqueue], by rw [hqueue], fun h => by rw [hout]; exact h,
      fun _ q hq hnot => absurd hq hnot⟩, fun q => .inl, fun hwhole => .inl ?_⟩
    rw [hout]
    exact hst hwhole
  · -- The walk has not stopped, so the next index does not wrap around.
    have hlen : ps.length + 1 < 2 ^ 32 := by
      rw [hs.emits.length_eq]
      by_contra hge
      have := hstop.bound es (by have := hstop.index; omega)
      rw [← hs.out_eq, hst] at this
      cases this
    have hnext' : (w.entry dir s c).nextIndex.toNat = ps.length + 1 := by
      rw [hnext, UInt32.toNat_add, hs.nextIndex]
      exact Nat.mod_eq_of_lt hlen
    have hlast : (ps ++ [p ++ [c]])[ps.length]? = some (p ++ [c]) := List.getElem?_concat_length
    have hmem : ∀ q ∈ ps ++ [p ++ [c]], q ∈ ps ∨ q = p ++ [c] := by simp
    refine ⟨es ++ [⟨dir.index, c, a⟩], ps ++ [p ++ [c]], ⟨?_, .entry hs.emits hindex ha hnew,
      ?_, ?_, ?_, fun q hq => List.mem_append_left _ (hs.read_mem q hq), ?_⟩,
      ⟨List.prefix_append _ _, ?_, ?_, ?_, ?_⟩, hmem, fun _ => .inr (by simp)⟩
    · rw [hout, hs.out_eq, List.foldl_append]
      rfl
    · rw [hnext', List.length_append]
      rfl
    · intro d hd
      rw [hqueue] at hd
      rcases List.mem_append.1 hd with hd | hd
      · obtain ⟨q, hq, hqdir, hqi, hqread⟩ := hs.queue d hd
        refine ⟨q, hq, hqdir, ?_, hqread⟩
        rw [List.getElem?_append_left (List.getElem?_eq_some_iff.1 hqi).1, hqi]
      · split_ifs at hd with hk
        · rw [List.mem_singleton.1 hd]
          exact ⟨_, rfl, ⟨a, ha, hk.1⟩, by rw [hs.nextIndex]; exact hlast,
            fun hq => hnew (hs.read_mem _ hq)⟩
        · cases hd
    · rw [hqueue]
      split_ifs
      · refine List.pairwise_append.2 ⟨hs.distinct, List.pairwise_singleton _ _, ?_⟩
        intro d hd d' hd' heq
        obtain ⟨q, hq, hqdir, hqi, -⟩ := hs.queue d hd
        rw [List.mem_singleton.1 hd', hq] at heq
        refine hnew (joined_inj hqdir.valid ?_ heq ▸ List.mem_of_getElem? hqi)
        exact DiskView.valid_of_paths hc
      · rw [List.append_nil]
        exact hs.distinct
    · intro q c' hq
      rcases hmem _ hq with hq | hq
      · exact hs.kids q c' hq
      · rw [(List.append_inj' hq rfl).1]
        exact .inr hread
    · rw [hqueue]
      exact List.prefix_append _ _
    · rw [hqueue, List.length_append, List.length_append, List.length_singleton]
      split_ifs
      · rw [List.length_singleton]
        omega
      · rw [List.length_nil]
        omega
    · intro h
      rw [hst] at h
      cases h
    · intro hdesc q hq hnot hqdir
      obtain rfl := (hmem q hq).resolve_left hnot
      obtain ⟨a', ha', hk⟩ := hqdir
      rw [ha] at ha'
      cases ha'
      rw [hqueue, if_pos ⟨hk, hdesc _⟩]
      exact ⟨_, List.mem_append_right _ (List.mem_singleton_self _), rfl⟩

theorem Walk.Sound.entries (hview : w.view.IsTree) (hstop : w.Stops out stop N)
    (hdir : w.view.Dir p) (hpath : dir.path = joined p) {names : List Bytes}
    (hnames : ∀ c ∈ names, w.view.paths (p ++ [c]) ≠ none) (hnodup : names.Nodup)
    (hs : w.Sound r out s es ps read) (hindex : ps[dir.index.toNat]? = some p) (hread : p ∈ read)
    (hnew : ∀ c ∈ names, p ++ [c] ∉ ps) :
    ∃ es' ps', w.Sound r out (names.foldl (w.entry dir) s) es' ps' read ∧
      w.Grows stop s (names.foldl (w.entry dir) s) ps ps' ∧
      (w.Whole stop → stop (names.foldl (w.entry dir) s).out = true ∨
        ∀ c ∈ names, p ++ [c] ∈ ps') := by
  induction names generalizing s es ps with
  | nil => exact ⟨es, ps, hs, .refl s ps, fun _ => .inr (List.forall_mem_nil _)⟩
  | cons c names ih =>
    rw [List.nodup_cons] at hnodup
    obtain ⟨es₁, ps₁, hs₁, hg₁, honly, hc⟩ := hs.entry hview hstop hdir hpath hindex hread
      (hnames c List.mem_cons_self) (hnew c List.mem_cons_self)
    have hindex₁ : ps₁[dir.index.toNat]? = some p := by
      obtain ⟨rest, rfl⟩ := hg₁.paths
      rw [List.getElem?_append_left (List.getElem?_eq_some_iff.1 hindex).1, hindex]
    have hnew₁ : ∀ c' ∈ names, p ++ [c'] ∉ ps₁ := by
      intro c' hc' hmem
      rcases honly _ hmem with hold | heq
      · exact hnew c' (List.mem_cons_of_mem _ hc') hold
      · have hcc : c' = c := by simpa using heq
        exact hnodup.1 (hcc ▸ hc')
    obtain ⟨es₂, ps₂, hs₂, hg₂, hcs⟩ := ih (fun c' hc' => hnames c' (List.mem_cons_of_mem _ hc'))
      hnodup.2 hs₁ hindex₁ hnew₁
    refine ⟨es₂, ps₂, hs₂, hg₁.trans hg₂, fun hwhole => ?_⟩
    rcases hc hwhole with hc | hc
    · exact .inl (hg₂.stop hc)
    · refine (hcs hwhole).imp_right fun hcs c' hc' => ?_
      rcases List.mem_cons.1 hc' with rfl | hc'
      · exact hg₂.paths.subset hc
      · exact hcs c' hc'

/-- Every directory handed out is still to be read, or all its entries are handed out. -/
def Walk.Closed (w : Walk σ) (s : State σ) (ps : List (List Bytes)) : Prop :=
  ∀ q ∈ ps, w.view.Dir q → (∃ dir ∈ s.queue, dir.path = joined q) ∨
    ∀ c, w.view.paths (q ++ [c]) ≠ none → q ++ [c] ∈ ps

/-- **The loop.**  With enough rounds the queue is empty at its end. -/
theorem Walk.Sound.loop (hview : w.view.IsTree) (hstop : w.Stops out stop N) (fuel : ℕ)
    (hs : w.Sound r out s es ps read) :
    (stop s.out = true → stop (w.loop fuel s).out = true) ∧
    ∃ es' ps' read', w.Sound r out (w.loop fuel s) es' ps' read' ∧
      (w.Whole stop → s.queue.length + (N + 1 - ps.length) ≤ fuel →
        (∀ path, w.descends path = true) → r ∈ ps → w.Closed s ps →
          stop (w.loop fuel s).out = true ∨ r ∈ ps' ∧ ∀ q ∈ ps', w.view.Dir q →
            ∀ c, w.view.paths (q ++ [c]) ≠ none → q ++ [c] ∈ ps') := by
  have hempty : ∀ {s : State σ} {ps}, s.queue = [] → w.Closed s ps → ∀ q ∈ ps, w.view.Dir q →
      ∀ c, w.view.paths (q ++ [c]) ≠ none → q ++ [c] ∈ ps := by
    intro s ps hnil hclosed q hq hdir
    refine (hclosed q hq hdir).resolve_left ?_
    rintro ⟨dir, hmem, -⟩
    rw [hnil] at hmem
    cases hmem
  induction fuel generalizing s es ps read with
  | zero =>
    refine ⟨fun h => h, es, ps, read, hs,
      fun _ hfuel _ hr hclosed => .inr ⟨hr, hempty ?_ hclosed⟩⟩
    exact List.length_eq_zero_iff.1 (by omega)
  | succ fuel ih =>
    rw [Walk.loop]
    cases hq : s.queue with
    | nil =>
      exact ⟨fun h => h, es, ps, read, hs, fun _ _ _ hr hclosed => .inr ⟨hr, hempty hq hclosed⟩⟩
    | cons dir queue =>
      obtain ⟨p, hpath, hdir, hindex, hnot⟩ := hs.queue dir (by rw [hq]; exact List.mem_cons_self)
      obtain ⟨a, ha, hk⟩ := hdir
      obtain ⟨names, hnames, hnodup, hmem⟩ := hview.names p a ha hk
      have hpps := List.mem_of_getElem? hindex
      have hdistinct := hs.distinct
      rw [hq, List.pairwise_cons] at hdistinct
      have hround : ∀ t : State σ, w.round dir t = names.foldl (w.entry dir) t := fun t => by
        rw [Walk.round, hpath, hnames]
      have hpop : w.Sound r out { s with queue } es ps (p :: read) := by
        refine ⟨hs.out_eq, hs.emits, hs.nextIndex, fun d hd => ?_, hdistinct.2, ?_,
          fun q c hqc => (hs.kids q c hqc).imp_right (List.mem_cons_of_mem _)⟩
        · obtain ⟨q, hqpath, hqdir, hqi, hqread⟩ :=
            hs.queue d (by rw [hq]; exact List.mem_cons_of_mem _ hd)
          refine ⟨q, hqpath, hqdir, hqi, ?_⟩
          rw [List.mem_cons, not_or]
          refine ⟨?_, hqread⟩
          rintro rfl
          exact hdistinct.1 d hd (hpath.trans hqpath.symm)
        · intro q hqr
          rcases List.mem_cons.1 hqr with rfl | hqr
          · exact hpps
          · exact hs.read_mem q hqr
      -- Nothing in this directory has been handed out yet.
      have hnew : ∀ c ∈ names, p ++ [c] ∉ ps := by
        intro c _ hc
        refine (hs.kids p c hc).elim (fun hroot => ?_) hnot
        have := (hs.emits.under_root p hpps).length_le
        rw [← hroot, List.length_append, List.length_singleton] at this
        omega
      obtain ⟨es₁, ps₁, hs₁, hg, hall⟩ := hpop.entries hview hstop ⟨a, ha, hk⟩ hpath
        (fun c hc => (hmem c).1 hc) hnodup hindex List.mem_cons_self hnew
      dsimp only
      rw [hround]
      obtain ⟨hmono, es₂, ps₂, read₂, hs₂, hend⟩ := ih hs₁
      refine ⟨fun h => hmono (hg.stop h), es₂, ps₂, read₂, hs₂,
        fun hwhole hfuel hdesc hr hclosed => ?_⟩
      cases hst : stop (names.foldl (w.entry dir) { s with queue }).out with
      | true => exact .inl (hmono hst)
      | false =>
        refine hend hwhole ?_ hdesc (hg.paths.subset hr) ?_
        · -- The walk has not stopped, so there is room for the directories it has found.
          have hlt : es₁.length < N := by
            by_contra hge
            have := hstop.bound es₁ (Nat.le_of_not_lt hge)
            rw [← hs₁.out_eq, hst] at this
            cases this
          have hlen := hs₁.emits.length_eq
          have hgrow := hg.length
          have hle := hg.paths.length_le
          rw [List.length_cons] at hfuel
          dsimp only at hgrow
          omega
        · -- Only the directory that has just been read leaves the queue.
          have hread := (hall hwhole).resolve_left (by rw [hst]; decide)
          intro q hq₁ hqdir
          by_cases hqp : q = p
          · exact .inr fun c hc => by
              rw [hqp] at hc ⊢
              exact hread c ((hmem c).2 hc)
          · by_cases hold : q ∈ ps
            · rcases hclosed q hold hqdir with ⟨d, hd, hdq⟩ | hkids
              · rw [hq] at hd
                rcases List.mem_cons.1 hd with rfl | hd
                · rw [hpath] at hdq
                  exact absurd (joined_inj hqdir.valid
                    (DiskView.Dir.valid ⟨a, ha, hk⟩) hdq.symm) hqp
                · exact .inl ⟨d, hg.queue.subset hd, hdq⟩
              · exact .inr fun c hc => hg.paths.subset (hkids c hc)
            · exact .inl (hg.queued hdesc q hq₁ hold hqdir)

end Scanner

/-- All directories are on one filesystem. -/
def DiskView.OneDevice (view : DiskView) : Prop := ∀ p q, view.deviceId p = view.deviceId q

/-- **A scan** hands out entries of the tree below its root; unless it is stopped, all of them. -/
theorem scanTree_spec {σ : Type} {view : DiskView} (hview : view.IsTree) {r : List Bytes}
    (hr : view.Dir r) {onEntry : σ → SnapshotEntry → σ} {skip : σ → Bytes → Bool → Bool}
    {stop : σ → Bool} {out : σ} {N : ℕ} (oneFileSystem : Bool) (rounds : ℕ)
    (hstop : Walk.Stops ⟨view, onEntry, skip,
      if oneFileSystem then view.deviceId (joined r) else none⟩ out stop N) :
    ∃ es ps, (scanTree rounds view (joined r) onEntry skip oneFileSystem out).2 =
        es.foldl onEntry out ∧ Emits view r es ps ∧
      ((∀ x rel isDir, skip x rel isDir = true → stop x = true) → N + 1 ≤ rounds →
        view.OneDevice → stop (es.foldl onEntry out) = false →
        ∀ q, r <+: q → view.paths q ≠ none → q ∈ ps) := by
  have hroot : view.isDirectory (joined r) = true := by
    obtain ⟨a, ha, hk⟩ := hr
    exact hview.isDirectory r a ha hk
  rw [scanTree, if_neg (by rw [hroot]; decide)]
  set w : Walk σ := ⟨view, onEntry, skip,
    if oneFileSystem then view.deviceId (joined r) else none⟩ with hw
  have hstart : w.Sound r out { out, queue := [⟨joined r, [], 0⟩] } [] [r] [] := by
    refine ⟨rfl, .start, rfl, fun dir hdir => ?_, List.pairwise_singleton _ _, nofun,
      fun q c hq => .inl (List.mem_singleton.1 hq)⟩
    rw [List.mem_singleton.1 hdir]
    exact ⟨r, rfl, hr, rfl, nofun⟩
  obtain ⟨-, es, ps, read, hs, hend⟩ := hstart.loop hview hstop rounds
  refine ⟨es, ps, hs.out_eq, hs.emits, fun hwhole hrounds hdev hnot => ?_⟩
  have hdesc : ∀ path, w.descends path = true := by
    intro path
    rw [Walk.descends, hdev path (joined r)]
    cases oneFileSystem with
    | false => rfl
    | true =>
      rw [hw]
      cases view.deviceId (joined r) with
      | none => rfl
      | some dev => exact beq_self_eq_true dev
  have hclosed : w.Closed { out, queue := [⟨joined r, [], 0⟩] } [r] := by
    intro q hq _
    rw [List.mem_singleton.1 hq]
    exact .inl ⟨_, List.mem_singleton_self _, rfl⟩
  obtain ⟨hrps, hall⟩ := (hend hwhole (by simpa [Nat.add_comm] using hrounds) hdesc
    (List.mem_singleton_self r) hclosed).resolve_left (by rw [hs.out_eq, hnot]; decide)
  -- From the root downwards.
  rintro q ⟨t, rfl⟩ hq
  induction t using List.reverseRecOn with
  | nil =>
    rw [List.append_nil]
    exact hrps
  | append_singleton t c ih =>
    rw [← List.append_assoc] at hq ⊢
    obtain ⟨a, ha, hk⟩ := hview.tree _ _ hq
    exact hall _ (ih (by rw [ha]; simp)) ⟨a, ha, hk⟩ c hq

/-! ### Disks given by their entries -/

/-- The view of a disk that has the given entries. -/
def DiskView.ofList (entries : List (List Bytes × Attributes)) : DiskView where
  attributes path := entries.lookup (parts path)
  isDirectory path := (entries.lookup (parts path)).any (·.kind == .directory)
  names path := some ((entries.map Prod.fst).filterMap fun q =>
    if q.dropLast = parts path then q.getLast? else none)
  deviceId _ := some 0

/-- Entries of valid names, each once and each in a directory. -/
structure Entries (entries : List (List Bytes × Attributes)) : Prop where
  nodup : (entries.map Prod.fst).Nodup
  valid : ∀ e ∈ entries, (∀ c ∈ e.1, validName c = true) ∧ e.2.kind ≠ .other
  parent : ∀ e ∈ entries, (entries.lookup e.1.dropLast).any (·.kind == .directory) = true
  root : (entries.lookup []).any (·.kind == .directory) = true

section

variable {entries : List (List Bytes × Attributes)}

theorem mem_of_lookup {p : List Bytes} {a : Attributes} (h : entries.lookup p = some a) :
    (p, a) ∈ entries := by
  obtain ⟨l₁, l₂, rfl, -⟩ := List.lookup_eq_some_iff.1 h
  simp

theorem DiskView.paths_ofList (h : Entries entries) (p : List Bytes) :
    (ofList entries).paths p = entries.lookup p := by
  rw [paths]
  split_ifs with hp
  · rw [ofList]
    dsimp only
    rw [parts_joined (List.all_eq_true.1 hp)]
  · cases ha : entries.lookup p with
    | none => rfl
    | some a => exact absurd (List.all_eq_true.2 (h.valid _ (mem_of_lookup ha)).1) hp

theorem DiskView.isTree_ofList (h : Entries entries) : (ofList entries).IsTree := by
  have hpaths := paths_ofList h
  have hdir : ∀ {o : Option Attributes}, o.any (·.kind == .directory) = true →
      ∃ a, o = some a ∧ a.kind = .directory := by
    intro o ho
    obtain ⟨a, ha, hk⟩ := (Option.any_eq_true _ _).1 ho
    exact ⟨a, ha, by simpa using hk⟩
  refine ⟨by rw [hpaths]; exact hdir h.root, ?_, ?_, ?_, ?_⟩
  · intro p c hp
    rw [hpaths] at hp
    rw [hpaths]
    obtain ⟨a, ha⟩ := Option.ne_none_iff_exists'.1 hp
    have hpar := h.parent _ (mem_of_lookup ha)
    rw [List.dropLast_concat] at hpar
    exact hdir hpar
  · intro p a ha
    rw [hpaths] at ha
    exact (h.valid _ (mem_of_lookup ha)).2
  · intro p a ha hk
    have hvalid := valid_of_paths (p := p) (by rw [ha]; simp)
    rw [hpaths] at ha
    rw [ofList]
    dsimp only
    rw [parts_joined hvalid, ha]
    simp [hk]
  · intro p a ha hk
    have hvalid := valid_of_paths (p := p) (by rw [ha]; simp)
    have hname : ∀ q c, (if q.dropLast = p then q.getLast? else none) = some c ↔
        q = p ++ [c] := by
      intro q c
      constructor
      · intro hq
        split_ifs at hq with hdrop
        rw [← hdrop, List.dropLast_append_getLast? c hq]
      · rintro rfl
        simp
    refine ⟨_, rfl, ?_, fun c => ?_⟩
    · rw [parts_joined hvalid]
      exact h.nodup.filterMap fun q q' c hq hq' =>
        ((hname q c).1 hq).trans ((hname q' c).1 hq').symm
    · rw [parts_joined hvalid, hpaths, List.mem_filterMap]
      constructor
      · rintro ⟨q, hq, hqc⟩ hnone
        obtain ⟨e, he, rfl⟩ := List.mem_map.1 hq
        have := List.lookup_eq_none_iff.1 hnone e he
        rw [(hname _ c).1 hqc] at this
        simp at this
      · intro hsome
        obtain ⟨a, ha⟩ := Option.ne_none_iff_exists'.1 hsome
        exact ⟨p ++ [c], List.mem_map.2 ⟨_, mem_of_lookup ha, rfl⟩, (hname _ c).2 rfl⟩

end

end WslDrive
