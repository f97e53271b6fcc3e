import Mathlib.Algebra.Ring.Nat
import WslDrive.Agent.DiskTree
import WslDrive.Agent.Flush
import WslDrive.Agent.Mirror

/-!
# What a batch tells the mirror

`flush_loop` resolves planned operations against the disk and adds the contents of directories that
have appeared.  On a disk that is a tree and does not change meanwhile, every operation of the batch
says what the disk has at its path, and the mirror is told so path by path.

* `resolveBatch_spec` — the operations of a batch;
* `tells_batch` — what a batch does to the mirror;
* `batch_effective` — a planned path ends as the disk has it unless its operation comes before that
  of a path above it which the mirror holds as something else than a directory.
-/

namespace WslDrive

open MetadataTree Path Scanner

/-- An operation that says what the view shows at a path. -/
structure Truthful (view : DiskView) (p : List Bytes) (op : InvalidationOp) : Prop where
  ne_nil : p ≠ []
  valid : ∀ c ∈ p, validName c = true
  path : op.path = joined p
  content : op.kind = .upsert ∧ view.paths p = some op.attr ∨
    op.kind = .remove ∧ view.paths p = none

namespace RootServer

variable {opts : Options} {mem : Storage} {view : DiskView} {present : List Bytes}
  {r q : List Bytes} {x x' : Expansion}

theorem Truthful.map_path {ps : List (List Bytes)} {ops : List InvalidationOp}
    (h : List.Forall₂ (Truthful view) ps ops) : ops.map (·.path) = ps.map joined := by
  induction h with
  | nil => rfl
  | cons hop _ ih => rw [List.map_cons, List.map_cons, hop.path, ih]

/-! ### Subtrees -/

/-- The path stays in `present`: its string is long, or its dangling view is always found. -/
def Storage.Keeps (mem : Storage) (path : Bytes) : Prop :=
  mem.inlineLength < path.length ∨ ∀ count, mem.finds count path = true

theorem Storage.Keeps.holds {path : Bytes} (h : mem.Keeps path) (size count : ℕ) :
    mem.holds size count path = true := by
  rw [Storage.holds, Bool.or_eq_true_iff, Bool.or_eq_true_iff, decide_eq_true_iff,
    decide_eq_true_iff]
  exact h.elim (fun hlong => .inl (.inr hlong)) fun hfinds => .inr (hfinds count)

theorem Storage.Keeps.notMem {path : Bytes} (h : mem.Keeps path) {size count : ℕ}
    (hmiss : (present.contains path && mem.holds size count path) = false) : path ∉ present := by
  intro hmem
  rw [h.holds, Bool.and_true] at hmiss
  simp [hmem] at hmiss

/-- The flag says whether there are too many entries. -/
def Expansion.Counts (opts : Options) (x : Expansion) : Prop :=
  x.isOver = decide (opts.maxExpandedEntries < x.appended)

/-- The operations that an expansion adds are those of the paths `told`. -/
structure Expansion.Adds (mem : Storage) (view : DiskView) (present : List Bytes)
    (x x' : Expansion) (told : List (List Bytes)) : Prop where
  ops : ∃ new, x'.ops = x.ops ++ new ∧ List.Forall₂ (Truthful view) told new
  notMem : ∀ q ∈ told, mem.Keeps (joined q) → joined q ∉ present

theorem Expansion.Adds.refl (x : Expansion) : Expansion.Adds mem view present x x [] :=
  ⟨⟨[], (List.append_nil _).symm, .nil⟩, nofun⟩

theorem Expansion.Adds.trans {x'' : Expansion} {told told' : List (List Bytes)}
    (h : Expansion.Adds mem view present x x' told)
    (h' : Expansion.Adds mem view present x' x'' told') :
    Expansion.Adds mem view present x x'' (told ++ told') := by
  obtain ⟨⟨new, hnew, htold⟩, hnot⟩ := h
  obtain ⟨⟨new', hnew', htold'⟩, hnot'⟩ := h'
  refine ⟨⟨new ++ new', by rw [hnew', hnew, List.append_assoc], ?_⟩, fun q hq => ?_⟩
  · exact List.rel_append htold htold'
  · exact (List.mem_append.1 hq).elim (hnot q) (hnot' q)

/-- **The entries of a scan** that the batch does not have already. -/
theorem Expansion.adds_onEntry (present : List Bytes) {es : List SnapshotEntry}
    {ps : List (List Bytes)} (h : Emits view r es ps) (hr : r ≠ []) (hrels : x.rels = [joined r])
    (hcounts : x.Counts opts) :
    let x' := es.foldl (Expansion.onEntry opts mem present) x
    x'.rels = ps.map joined ∧ x'.appended = x.appended + es.length ∧ x'.Counts opts ∧
      ∃ told, Expansion.Adds mem view present x x' told ∧ (∀ q ∈ told, q ∈ ps) ∧
        (x'.isOver = false → ∀ q ∈ ps, q ≠ r → joined q ∈ present ∨ q ∈ told) := by
  induction h with
  | start =>
    refine ⟨hrels, rfl, hcounts, [], .refl x, nofun, fun _ q hq hne => ?_⟩
    exact absurd (List.mem_singleton.1 hq) hne
  | @entry es ps e p h hp he _ ih =>
    obtain ⟨hrels', happ, hcounts', told, hadds, htold, hall⟩ := ih
    have hpath : ((es.foldl (Expansion.onEntry opts mem present) x).rels.getD e.parent.toNat []) ++
        slash :: e.name = joined (p ++ [e.name]) := by
      have hpne : p ≠ [] := by
        rintro rfl
        exact hr (List.prefix_nil.1 (h.under_root [] (List.mem_of_getElem? hp)))
      rw [hrels', List.getD_eq_getElem?_getD, List.getElem?_map, hp, Option.map_some,
        Option.getD_some, joined, joined, intercalate_concat hpne]
    rw [List.foldl_append, List.foldl_cons, List.foldl_nil]
    generalize es.foldl (Expansion.onEntry opts mem present) x = x' at *
    have hvalid := DiskView.valid_of_paths (p := p ++ [e.name]) (by rw [he]; simp)
    have hover : (x'.isOver || decide (x'.appended + 1 > opts.maxExpandedEntries)) =
        decide (opts.maxExpandedEntries < x'.appended + 1) := by
      rw [show x'.isOver = _ from hcounts', Bool.or_eq_right_iff_imp]
      simp only [decide_eq_true_iff]
      omega
    dsimp only [Expansion.onEntry, Expansion.Counts]
    rw [hpath, hover, hrels', happ]
    refine ⟨by simp, by simp; omega, rfl, ?_⟩
    have hall' : decide (opts.maxExpandedEntries < x.appended + es.length + 1) = false →
        ∀ q ∈ ps, q ≠ r → joined q ∈ present ∨ q ∈ told := by
      intro hfew
      refine hall ?_
      rw [show x'.isOver = _ from hcounts', happ]
      simp only [decide_eq_false_iff_not] at hfew ⊢
      omega
    have hps : ∀ q ∈ told, q ∈ ps ++ [p ++ [e.name]] := fun q hq =>
      List.mem_append_left _ (htold q hq)
    generalize hfound : (present.contains (joined (p ++ [e.name])) &&
      mem.holds x'.ops.length (x.appended + es.length) (joined (p ++ [e.name]))) = found
    have hmem : found = true → joined (p ++ [e.name]) ∈ present := fun h => by
      simpa using (Bool.and_eq_true_iff.1 (hfound.trans h)).1
    by_cases hadd : decide (opts.maxExpandedEntries < x.appended + es.length + 1) = false ∧
        found = false
    · have htruth : Truthful view (p ++ [e.name])
          ⟨.upsert, joined (p ++ [e.name]), e.attr, .created, 0⟩ :=
        ⟨by simp, hvalid, rfl, .inl ⟨rfl, he⟩⟩
      refine ⟨told ++ [p ++ [e.name]], hadds.trans ⟨⟨_, ?_, .cons htruth .nil⟩, ?_⟩, ?_, ?_⟩
      · rw [hadd.1, hadd.2]
        rfl
      · intro q hq
        rw [List.mem_singleton.1 hq]
        exact fun hkeeps => hkeeps.notMem (hfound.trans hadd.2)
      · intro q hq
        rcases List.mem_append.1 hq with hq | hq
        · exact hps q hq
        · exact List.mem_append_right _ hq
      · intro hfew q hq hne
        rcases List.mem_append.1 hq with hq | hq
        · exact (hall' hfew q hq hne).imp_right (List.mem_append_left _)
        · exact .inr (List.mem_append_right _ hq)
    · have hsame : (!decide (opts.maxExpandedEntries < x.appended + es.length + 1) &&
          !found) = false := by
        by_contra htrue
        exact hadd (by simpa using htrue)
      rw [hsame]
      refine ⟨told, ⟨hadds.ops, hadds.notMem⟩, hps, fun hfew q hq hne => ?_⟩
      rcases List.mem_append.1 hq with hq | hq
      · exact hall' hfew q hq hne
      · rw [List.mem_singleton.1 hq]
        exact .inl (hmem (eq_true_of_ne_false fun h => hadd ⟨hfew, h⟩))

/-- What a path has below it. -/
structure Below (M : PathMap) (r : List Bytes) (l : List (List Bytes)) : Prop where
  nodup : l.Nodup
  below : ∀ q ∈ l, r <+: q ∧ q ≠ r ∧ M q ≠ none

theorem counts_onEntry (mem : Storage) (present : List Bytes) (hcounts : x.Counts opts)
    (es : List SnapshotEntry) :
    (es.foldl (Expansion.onEntry opts mem present) x).Counts opts ∧
      (es.foldl (Expansion.onEntry opts mem present) x).appended = x.appended + es.length := by
  induction es generalizing x with
  | nil => exact ⟨hcounts, rfl⟩
  | cons e es ih =>
    have hstep : (x.onEntry opts mem present e).Counts opts := by
      rw [Expansion.Counts, Expansion.onEntry, show x.isOver = _ from hcounts,
        Bool.or_eq_right_iff_imp.2]
      simp only [decide_eq_true_iff]
      omega
    obtain ⟨hc, happ⟩ := ih hstep
    refine ⟨hc, ?_⟩
    rw [List.foldl_cons, happ, List.length_cons, Expansion.onEntry]
    dsimp only
    omega

theorem expand_scan (present : List Bytes) (hview : view.IsTree)
    (hmax : opts.maxExpandedEntries + 2 < 2 ^ 32) (rounds : ℕ) (hr : r ≠ []) (hdir : view.Dir r)
    (hcounts : x.Counts opts) :
    let x' := (scanTree rounds view (joined r) (Expansion.onEntry opts mem present)
      (fun x sub isDir => x.isOver || opts.excludes (joined r ++ slash :: sub) isDir)
      opts.oneFileSystem { x with rels := [joined r] }).2
    x'.Counts opts ∧ (∃ l, Below view.paths r l ∧ x'.appended = x.appended + l.length) ∧
      ∃ told, Expansion.Adds mem view present x x' told ∧ (∀ q ∈ told, view.paths q ≠ none) ∧
        (opts.ignored = none → opts.maxExpandedEntries + 2 ≤ rounds → view.OneDevice →
          x'.isOver = false → ∀ q, r <+: q → q ≠ r → view.paths q ≠ none →
            joined q ∈ present ∨ q ∈ told) := by
  have hstop : Walk.Stops ⟨view, Expansion.onEntry opts mem present,
      fun x sub isDir => x.isOver || opts.excludes (joined r ++ slash :: sub) isDir,
      if opts.oneFileSystem then view.deviceId (joined r) else none⟩
      ({ x with rels := [joined r] } : Expansion) Expansion.isOver
      (opts.maxExpandedEntries + 1) := by
    refine ⟨fun x _ _ h => Bool.or_eq_true_iff.2 (.inl h), fun es hes => ?_, hmax⟩
    obtain ⟨hc, happ⟩ := counts_onEntry mem (x := { x with rels := [joined r] }) present hcounts es
    refine hc.trans (decide_eq_true_iff.2 ?_)
    rw [happ]
    omega
  obtain ⟨es, ps, hscan, hemits, hall⟩ :=
    scanTree_spec hview hdir opts.oneFileSystem rounds hstop
  obtain ⟨-, happ, hcounts', told, hadds, htold, hpresent⟩ :=
    Expansion.adds_onEntry (x := { x with rels := [joined r] }) present hemits hr rfl hcounts
  obtain ⟨l, hps, hl, hbelow⟩ := hemits.eq_cons
  rw [hscan]
  refine ⟨hcounts', ⟨l, ⟨hl, hbelow⟩, ?_⟩, told, ⟨hadds.ops, hadds.notMem⟩, fun q hq => ?_,
    fun hrules hrounds hdev hover q hq hne hsome => ?_⟩
  · have hlen := hemits.length_eq
    rw [hps, List.length_cons] at hlen
    rw [happ]
    dsimp only
    omega
  · have hq' := htold q hq
    rw [hps] at hq'
    rcases List.mem_cons.1 hq' with rfl | hq'
    · obtain ⟨a, ha, -⟩ := hdir
      rw [ha]
      simp
    · exact (hbelow q hq').2.2
  · refine hpresent hover q (hall (fun x sub isDir hskip => ?_) hrounds hdev hover q hq hsome) hne
    rw [Options.excludes, hrules] at hskip
    simpa using hskip

theorem expandLoop_spec (mem : Storage) (present : List Bytes) (hview : view.IsTree)
    (hmax : opts.maxExpandedEntries + 2 < 2 ^ 32) (rounds : ℕ) {dirs : List (List Bytes)}
    (hdirs : ∀ r ∈ dirs, r ≠ [] ∧ view.Dir r) {lastRoot : Bytes} (told₀ : List (List Bytes))
    (hcounts : x.Counts opts) (hover : x.isOver = false)
    (hlast : opts.ignored = none → opts.maxExpandedEntries + 2 ≤ rounds → view.OneDevice →
      lastRoot ≠ [] → ∃ r, view.Dir r ∧ lastRoot = joined r ∧
        ∀ q, r <+: q → q ≠ r → view.paths q ≠ none → joined q ∈ present ∨ q ∈ told₀) :
    let x' := expandLoop opts mem rounds view present lastRoot (dirs.map joined) x
    x'.Counts opts ∧
      (∀ size : List Bytes → ℕ, (∀ r ∈ dirs, ∀ l, Below view.paths r l → l.length ≤ size r) →
        x'.appended ≤ x.appended + (dirs.map size).sum) ∧
      ∃ told, Expansion.Adds mem view present x x' told ∧ (∀ q ∈ told, view.paths q ≠ none) ∧
        (opts.ignored = none → opts.maxExpandedEntries + 2 ≤ rounds → view.OneDevice →
          x'.isOver = false → ∀ r ∈ dirs, ∀ q, r <+: q → q ≠ r → view.paths q ≠ none →
            joined q ∈ present ∨ q ∈ told₀ ++ told) := by
  induction dirs generalizing lastRoot x told₀ with
  | nil => exact ⟨hcounts, fun _ _ => Nat.le_refl _, [], .refl x, nofun, fun _ _ _ _ => nofun⟩
  | cons r dirs ih =>
    obtain ⟨hne, hdir⟩ := hdirs r List.mem_cons_self
    have hdirs' := fun r' hr' => hdirs r' (List.mem_cons_of_mem r hr')
    have hsum : ∀ {n k : ℕ} {size : List Bytes → ℕ}, n ≤ k + (dirs.map size).sum →
        k ≤ x.appended + size r → n ≤ x.appended + ((r :: dirs).map size).sum := by
      intro n k size hn hk
      rw [List.map_cons, List.sum_cons]
      omega
    rw [List.map_cons, expandLoop]
    split_ifs with hunder
    · -- The last scan has covered it.
      obtain ⟨hc, happ, told, hadds, hsome, hall⟩ := ih hdirs' told₀ hcounts hover hlast
      refine ⟨hc, fun size hsize => hsum (happ size fun r' hr' =>
        hsize r' (List.mem_cons_of_mem r hr')) (Nat.le_add_right _ _), told, hadds, hsome,
        fun hrules hrounds hdev hnot r' hr' => ?_⟩
      rcases List.mem_cons.1 hr' with rfl | hr'
      · obtain ⟨r₀, hr₀, rfl, hcov⟩ := hlast hrules hrounds hdev hunder.1
        have hpre := hunder.2
        rw [joined, joined, pathIsUnder_iff
          (fun c hc => isPart_of_validName (hdir.valid c hc))
          fun c hc => isPart_of_validName (hr₀.valid c hc)] at hpre
        intro q hq hqr hqs
        refine (hcov q (hpre.trans hq) ?_ hqs).imp_right (List.mem_append_left _)
        rintro rfl
        exact hqr (hq.eq_of_length_le hpre.length_le).symm
      · exact hall hrules hrounds hdev hnot r' hr'
    · obtain ⟨hc₁, ⟨l, hl, happ₁⟩, told₁, hadds₁, hsome₁, hall₁⟩ :=
        expand_scan (x := x) present hview hmax rounds hne hdir hcounts
      dsimp only
      generalize (scanTree rounds view (joined r) (Expansion.onEntry opts mem present)
        (fun x sub isDir => x.isOver || opts.excludes (joined r ++ slash :: sub) isDir)
        opts.oneFileSystem { x with rels := [joined r] }).2 = x₁ at *
      have hlen : ∀ size : List Bytes → ℕ,
          (∀ r' ∈ r :: dirs, ∀ l, Below view.paths r' l → l.length ≤ size r') →
          x₁.appended ≤ x.appended + size r := by
        intro size hsize
        rw [happ₁]
        exact Nat.add_le_add_left (hsize r List.mem_cons_self l hl) _
      split_ifs with hstop
      · refine ⟨hc₁, fun size hsize => hsum (Nat.le_add_right _ _) (hlen size hsize), told₁,
          hadds₁, hsome₁, fun _ _ _ hnot => ?_⟩
        rw [hstop] at hnot
        cases hnot
      · rw [Bool.not_eq_true] at hstop
        obtain ⟨hc, happ, told, hadds, hsome, hall⟩ := ih hdirs' (told₀ ++ told₁) hc₁ hstop
          (fun hrules hrounds hdev _ => ⟨r, hdir, rfl, fun q hq hqr hqs =>
            (hall₁ hrules hrounds hdev hstop q hq hqr hqs).imp_right (List.mem_append_right _)⟩)
        refine ⟨hc, fun size hsize => hsum (happ size fun r' hr' =>
          hsize r' (List.mem_cons_of_mem r hr')) (hlen size hsize), told₁ ++ told,
          hadds₁.trans hadds, fun q hq => ?_,
          fun hrules hrounds hdev hnot r' hr' q hq hqr hqs => ?_⟩
        · exact (List.mem_append.1 hq).elim (hsome₁ q) (hsome q)
        · rw [← List.append_assoc]
          rcases List.mem_cons.1 hr' with rfl | hr'
          · exact (hall₁ hrules hrounds hdev hstop q hq hqr hqs).imp_right fun hq =>
              List.mem_append_left _ (List.mem_append_right _ hq)
          · exact hall hrules hrounds hdev hnot r' hr' q hq hqr hqs

/-! ### The batch -/

/-- The paths of planned operations. -/
def named (planned : List PlannedOp) : List (List Bytes) := planned.map fun op => parts op.path

/-- A planned operation about a path of valid names that no rule excludes. -/
structure Plans (opts : Options) (op : PlannedOp) : Prop where
  ne_nil : parts op.path ≠ []
  valid : ∀ c ∈ parts op.path, validName c = true
  path : op.path = joined (parts op.path)
  kind : op.kind ≠ .rescan
  included : (opts.excludes op.path false || opts.excludes op.path true) = false

/-- The directories that have appeared. -/
def arrivals (view : DiskView) (planned : List PlannedOp) : List (List Bytes) :=
  ((planned.filter (·.appeared)).map fun op => parts op.path).filter fun p =>
    (view.paths p).any (·.kind == .directory)

theorem mem_arrivals {planned : List PlannedOp} :
    r ∈ arrivals view planned ↔
      (∃ op ∈ planned, op.appeared = true ∧ parts op.path = r) ∧ view.Dir r := by
  simp only [arrivals, List.mem_filter, List.mem_map, Option.any_eq_true, beq_iff_eq, and_assoc,
    DiskView.Dir]

/-- The entries below the directories that have appeared, counted for each of them, are few enough
to be described one by one. -/
def Fits (opts : Options) (view : DiskView) (planned : List PlannedOp) : Prop :=
  ∃ size : List Bytes → ℕ,
    (∀ r ∈ arrivals view planned, ∀ l, Below view.paths r l → l.length ≤ size r) ∧
    ((arrivals view planned).map size).sum ≤ opts.maxExpandedEntries

/-- **Resolving**: an operation for each planned one, and the directories to expand. -/
theorem resolve_spec (hview : view.IsTree) {planned : List PlannedOp}
    (h : ∀ op ∈ planned, Plans opts op) (ops : List InvalidationOp)
    (dirs : List Bytes) :
    ∃ new, planned.foldl (resolveStep opts view) (ops, dirs) =
        (ops ++ new, dirs ++ (arrivals view planned).map joined) ∧
      List.Forall₂ (Truthful view) (named planned) new := by
  induction planned generalizing ops dirs with
  | nil => exact ⟨[], by simp [arrivals], .nil⟩
  | cons op planned ih =>
    have hop := h op List.mem_cons_self
    have hattr : view.attributes op.path = view.paths (parts op.path) := by
      rw [DiskView.paths_eq hop.valid, ← hop.path]
    obtain ⟨out, hout, htruth, hpath⟩ :
        ∃ out, resolveOp op (view.paths (parts op.path)) = some out ∧
          Truthful view (parts op.path) out ∧ out.path = op.path := by
      rw [resolveOp.eq_def, if_neg hop.kind]
      cases ha : view.paths (parts op.path) with
      | none => exact ⟨_, rfl, ⟨hop.ne_nil, hop.valid, hop.path, .inr ⟨rfl, ha⟩⟩, rfl⟩
      | some a =>
        dsimp only
        rw [if_neg (hview.regular _ a ha)]
        exact ⟨_, rfl, ⟨hop.ne_nil, hop.valid, hop.path, .inl ⟨rfl, ha⟩⟩, rfl⟩
    have hdir : (out.kind == .upsert && out.attr.kind == .directory) =
        (view.paths (parts op.path)).any (·.kind == .directory) := by
      rcases htruth.content with ⟨hk, ha⟩ | ⟨hk, ha⟩
      · rw [hk, ha]
        rfl
      · rw [hk, ha]
        rfl
    have hstep : resolveStep opts view (ops, dirs) op =
        (ops ++ [out], dirs ++ (arrivals view [op]).map joined) := by
      rw [resolveStep, hop.included, hattr, hout]
      simp only [Bool.and_false, Bool.false_eq_true, if_false, Bool.and_assoc, hdir, arrivals]
      cases happ : op.appeared with
      | false => simp [happ]
      | true =>
        cases hany : (view.paths (parts op.path)).any (·.kind == .directory) with
        | false => simp [happ, hany]
        | true => simp [happ, hany, hpath, ← hop.path]
    have harr : arrivals view (op :: planned) = arrivals view [op] ++ arrivals view planned := by
      simp only [arrivals, ← List.singleton_append (l := planned), List.filter_append,
        List.map_append]
    obtain ⟨new, hnew, htold⟩ := ih (fun op' hop' => h op' (List.mem_cons_of_mem op hop'))
      (ops ++ [out]) (dirs ++ (arrivals view [op]).map joined)
    refine ⟨out :: new, ?_, .cons htruth htold⟩
    rw [List.foldl_cons, hstep, hnew, harr, List.map_append, List.append_assoc, List.append_assoc]
    rfl

theorem appendSubtrees_spec (mem : Storage) (hview : view.IsTree)
    (hmax : opts.maxExpandedEntries + 2 < 2 ^ 32) (rounds : ℕ) {dirs : List (List Bytes)}
    (hdirs : ∀ r ∈ dirs, r ≠ [] ∧ view.Dir r) (ops : List InvalidationOp) :
    ∃ new tail told,
      appendSubtrees opts mem rounds view (dirs.map joined) ops = ops ++ new ++ tail ∧
      List.Forall₂ (Truthful view) told new ∧ (∀ op ∈ tail, op.kind = .rescan) ∧
      (∀ q ∈ told, (mem.Keeps (joined q) → joined q ∉ ops.map (·.path)) ∧
        view.paths q ≠ none) ∧
      (opts.ignored = none → opts.maxExpandedEntries + 2 ≤ rounds → view.OneDevice →
        ∀ size : List Bytes → ℕ, (∀ r ∈ dirs, ∀ l, Below view.paths r l → l.length ≤ size r) →
        (dirs.map size).sum ≤ opts.maxExpandedEntries → tail = [] ∧
          ∀ r ∈ dirs, ∀ q, r <+: q → q ≠ r → view.paths q ≠ none →
            joined q ∈ ops.map (·.path) ∨ q ∈ told) := by
  -- The sorted paths are those of the same directories.
  obtain ⟨sorted, hsorted, hperm⟩ : ∃ sorted : List (List Bytes),
      (dirs.map joined).insertionSort (· ≤ ·) = sorted.map joined ∧ sorted.Perm dirs := by
    refine ⟨((dirs.map joined).insertionSort (· ≤ ·)).map parts, ?_, ?_⟩
    · rw [List.map_map]
      refine (List.map_id _).symm.trans (List.map_congr_left fun rel hrel => ?_)
      obtain ⟨r, hr, rfl⟩ := List.mem_map.1 ((List.mem_insertionSort _).1 hrel)
      rw [Function.comp_apply, parts_joined (hdirs r hr).2.valid]
      rfl
    · refine ((List.perm_insertionSort _ _).map parts).trans ?_
      rw [List.map_map]
      refine List.Perm.of_eq ((List.map_congr_left fun r hr => ?_).trans (List.map_id _))
      rw [Function.comp_apply, parts_joined (hdirs r hr).2.valid]
      rfl
  have hdirs' : ∀ r ∈ sorted, r ≠ [] ∧ view.Dir r := fun r hr => hdirs r (hperm.subset hr)
  have hspec := expandLoop_spec mem (x := { ops }) (ops.map (·.path)) hview hmax rounds hdirs' []
    (by simp [Expansion.Counts]) rfl (fun _ _ _ hne => absurd rfl hne)
  obtain ⟨hcounts, happ, told, hadds, hsome, hall⟩ := hspec
  rw [appendSubtrees, hsorted]
  dsimp only at *
  generalize expandLoop opts mem rounds view (ops.map (·.path)) [] (sorted.map joined) { ops } = x
    at *
  split_ifs with hover
  · refine ⟨[], [{ kind := .rescan, path := [] }], [], by simp, .nil, by simp, nofun,
      fun _ _ _ size hsize hsum => ?_⟩
    have hle := happ size fun r hr => hsize r (hperm.subset hr)
    rw [(hperm.map size).sum_eq] at hle
    have hgt := of_decide_eq_true (hcounts.symm.trans hover)
    omega
  · rw [Bool.not_eq_true] at hover
    obtain ⟨new, hnew, htruth⟩ := hadds.ops
    refine ⟨new, [], told, by rw [hnew, List.append_nil], htruth, nofun,
      fun q hq => ⟨hadds.notMem q hq, hsome q hq⟩, fun hrules hrounds hdev _ _ _ => ⟨rfl, ?_⟩⟩
    intro r hr q hq hne hqs
    exact hall hrules hrounds hdev hover r (hperm.mem_iff.2 hr) q hq hne hqs

/-- What a batch consists of: operations for the paths `named` by the planned ones and for the
paths `told` along with them, then demands to rescan. -/
structure Resolved (opts : Options) (mem : Storage) (rounds : ℕ) (view : DiskView)
    (planned : List PlannedOp) (told : List (List Bytes)) (body tail : List InvalidationOp) :
    Prop where
  eq : resolveBatch opts mem rounds view planned = body ++ tail
  truthful : List.Forall₂ (Truthful view) (named planned ++ told) body
  rescans : ∀ op ∈ tail, op.kind = .rescan
  notMem : ∀ q ∈ told, mem.Keeps (joined q) → q ∉ named planned
  present : ∀ q ∈ told, view.paths q ≠ none
  covers : opts.ignored = none → opts.maxExpandedEntries + 2 ≤ rounds → view.OneDevice →
    Fits opts view planned → ∀ r ∈ arrivals view planned,
      ∀ q, r <+: q → q ≠ r → view.paths q ≠ none → q ∈ named planned ++ told

theorem truthful_repair {ps : List (List Bytes)} {ops body : List InvalidationOp}
    (tail : List InvalidationOp) (h : List.Forall₂ (Truthful view) ps ops)
    (htail : ∀ op ∈ tail, op.kind = .rescan) (hbody : repairMovePairs (ops ++ tail) = body) :
    ∃ ops' tail', body = ops' ++ tail' ∧ List.Forall₂ (Truthful view) ps ops' ∧
      ∀ op ∈ tail', op.kind = .rescan := by
  have hmap := map_repairMovePairs (f := fun op : InvalidationOp => (op.kind, op.path, op.attr))
    (fun _ _ _ => rfl) (ops ++ tail)
  rw [hbody, List.map_append] at hmap
  obtain ⟨ops', tail', rfl, hops', htail'⟩ := List.map_eq_append_iff.1 hmap
  refine ⟨ops', tail', rfl, ?_, fun op hop => ?_⟩
  · clear hbody hmap
    induction h generalizing ops' with
    | nil =>
      rw [List.map_nil, List.map_eq_nil_iff] at hops'
      rw [hops']
      exact .nil
    | @cons p op ps ops hop h ih =>
      rw [List.map_cons, List.map_eq_cons_iff] at hops'
      obtain ⟨op', ops', rfl, hop', hops'⟩ := hops'
      simp only [Prod.mk.injEq] at hop'
      obtain ⟨hk, hp, ha⟩ := hop'
      refine .cons ⟨hop.ne_nil, hop.valid, hp.trans hop.path, ?_⟩ (ih _ hops')
      rw [hk, ha]
      exact hop.content
  · have hmem : (op.kind, op.path, op.attr) ∈ tail.map fun op => (op.kind, op.path, op.attr) := by
      rw [← htail']
      exact List.mem_map_of_mem hop
    obtain ⟨op', hop', heq⟩ := List.mem_map.1 hmem
    rw [← (Prod.mk.inj heq).1]
    exact htail op' hop'

theorem resolveBatch_spec (hview : view.IsTree) (hmax : opts.maxExpandedEntries + 2 < 2 ^ 32)
    (mem : Storage) (rounds : ℕ) {planned : List PlannedOp} (h : ∀ op ∈ planned, Plans opts op) :
    ∃ told body tail, Resolved opts mem rounds view planned told body tail := by
  obtain ⟨ops, hfold, hops⟩ := resolve_spec hview h [] []
  rw [List.nil_append, List.nil_append] at hfold
  have hdirs : ∀ r ∈ arrivals view planned, r ≠ [] ∧ view.Dir r := by
    intro r hr
    obtain ⟨⟨op, hop, -, rfl⟩, hdir⟩ := mem_arrivals.1 hr
    exact ⟨(h op hop).ne_nil, hdir⟩
  have hmem : ∀ q, view.paths q ≠ none → (joined q ∈ ops.map (·.path) ↔ q ∈ named planned) := by
    intro q hq
    rw [Truthful.map_path hops, List.mem_map]
    constructor
    · rintro ⟨p, hp, heq⟩
      obtain ⟨op, hop, rfl⟩ := List.mem_map.1 hp
      rwa [← joined_inj (h op hop).valid (DiskView.valid_of_paths hq) heq]
    · exact fun hq => ⟨q, hq, rfl⟩
  obtain ⟨new, tail, told, happend, hnew, htail, htold, hall⟩ :=
    appendSubtrees_spec { mem with capacity := max mem.capacity planned.length } hview hmax rounds
      hdirs ops
  by_cases hnil : arrivals view planned = []
  · obtain ⟨body, tail', hbody, htruth, htail'⟩ := truthful_repair [] hops nofun rfl
    refine ⟨[], body, tail', ?_, ?_, htail', nofun, nofun, ?_⟩
    · rw [resolveBatch, hfold, hnil, ← hbody, List.append_nil]
      rfl
    · rwa [List.append_nil]
    · rw [hnil]
      exact fun _ _ _ _ => nofun
  · obtain ⟨body, tail', hbody, htruth, htail'⟩ :=
      truthful_repair tail (List.rel_append hops hnew) htail rfl
    refine ⟨told, body, tail', ?_, htruth, htail', fun q hq => ?_, fun q hq => (htold q hq).2, ?_⟩
    · rw [resolveBatch, hfold, ← hbody]
      dsimp only
      rw [if_pos (by simpa using hnil), happend]
    · rw [← hmem q (htold q hq).2]
      -- Whether a path is kept does not depend on the capacity.
      exact fun hkeeps => (htold q hq).1 hkeeps
    · rintro hrules hrounds hdev ⟨size, hsize, hsum⟩ r hr q hq hne hqs
      rw [List.mem_append, ← hmem q hqs]
      exact (hall hrules hrounds hdev size hsize hsum).2 r hr q hq hne hqs

end RootServer

/-! ### The mirror -/

namespace RemoteRoot

variable {t : MetadataTree} {view : DiskView} {p : List Bytes} {op : InvalidationOp}

theorem told_applyTree (h : t.WF) (hroot : (t.nodes root).isDir = true)
    (hop : Truthful view p op) :
    PathMap.Told view.paths t.paths p (applyTree t .exact op).paths := by
  have hparts : parts op.path = p := by rw [hop.path, parts_joined hop.valid]
  have hne : parts op.path ≠ [] := hparts ▸ hop.ne_nil
  have hvalid : ∀ c ∈ parts op.path, validName c = true := hparts ▸ hop.valid
  rw [applyTree]
  rcases hop.content with ⟨hk, ha⟩ | ⟨hk, ha⟩
  · rw [hk]
    dsimp only
    by_cases hopen : t.paths.Open p
    · rw [h.upsertPath_open hroot hne hvalid (hparts ▸ hopen), hparts]
      exact .put ha hopen
    · rw [h.upsertPath_blocked hroot hne hvalid (hparts ▸ hopen)]
      exact .blocked (by rw [ha]; simp) hopen
  · rw [hk]
    dsimp only
    rw [h.removePath_exact (dotdot_notMem_components hvalid) hne, hparts]
    exact .removed ha

theorem tells_applyTree {ps : List (List Bytes)} {ops : List InvalidationOp} (h : t.WF)
    (hroot : (t.nodes root).isDir = true) (hops : List.Forall₂ (Truthful view) ps ops) :
    PathMap.Tells view.paths t.paths ps
      (ops.foldl (fun t op => applyTree t .exact op) t).paths := by
  induction hops generalizing t with
  | nil => exact .nil
  | @cons p op _ _ hop _ ih =>
    have hkept := kept_applyTree h .exact op
    exact .cons h.isTree hop.ne_nil (told_applyTree h hroot hop)
      (ih hkept.wf (hkept.root_dir hroot))

theorem applyTree_rescans {ops : List InvalidationOp} (h : ∀ op ∈ ops, op.kind = .rescan) :
    ops.foldl (fun t op => applyTree t .exact op) t = t := by
  induction ops with
  | nil => rfl
  | cons op ops ih =>
    have hop : applyTree t .exact op = t := by
      rw [applyTree, h op List.mem_cons_self]
    rw [List.foldl_cons, hop]
    exact ih fun op' hop' => h op' (List.mem_cons_of_mem op hop')

end RemoteRoot

open RootServer RemoteRoot

section

variable {view : DiskView} {opts : Options} {mem : Storage} {planned : List PlannedOp}

theorem tells_batch {t : MetadataTree} (hwf : t.WF) (hroot : (t.nodes root).isDir = true)
    {rounds : ℕ} {told : List (List Bytes)} {body tail : List InvalidationOp}
    (h : Resolved opts mem rounds view planned told body tail) :
    PathMap.Tells view.paths t.paths (named planned ++ told)
      ((resolveBatch opts mem rounds view planned).foldl
        (fun t op => applyTree t .exact op) t).paths := by
  rw [h.eq, List.foldl_append, applyTree_rescans h.rescans]
  exact tells_applyTree hwf hroot h.truthful

/-- The operation for a path of the disk comes before that of a path above it which the mirror
holds as something else than a directory. -/
def Early (M D : PathMap) (ps : List (List Bytes)) (p : List Bytes) : Prop :=
  D p ≠ none ∧ ∃ u a, u <+: p.dropLast ∧ M u = some a ∧ a.kind ≠ .directory ∧
    ∃ l₁ l₂, ps = l₁ ++ p :: l₂ ∧ u ∈ l₂

/-- Paths above those of the operations have operations as well if the mirror and the disk have
entries of different kinds there. -/
def Ancestral (M D : PathMap) (ps : List (List Bytes)) : Prop :=
  ∀ p ∈ ps, ∀ u, u <+: p → ∀ a b, M u = some a → D u = some b → a.kind ≠ b.kind → u ∈ ps

/-- **The effect of a batch**: an operation's path ends as the disk has it unless the operation
comes too early, and then it does not if the path stays in `present` and is not a directory that
looks like one made on the way. -/
theorem batch_effective (c : RemoteRoot) (hwf : c.tree.WF)
    (hroot : (c.tree.nodes root).isDir = true) (hmode : c.lookupMode = .exact)
    (hmut : c.localMutations = ∅) (view : DiskView) (hview : view.IsTree) (opts : Options)
    (hmax : opts.maxExpandedEntries + 2 < 2 ^ 32) (mem : Storage) (rounds : ℕ)
    (generation : UInt64) (planned : List PlannedOp) (hplans : ∀ op ∈ planned, Plans opts op)
    (hdistinct : (named planned).Nodup)
    (hnamed : Ancestral c.tree.paths view.paths (named planned)) :
    let mirror :=
      (c.applyInvalidation ⟨generation, resolveBatch opts mem rounds view planned⟩).1.tree.paths
    ∀ p ∈ named planned,
      (¬ Early c.tree.paths view.paths (named planned) p → mirror p = view.paths p) ∧
      (mem.Keeps (joined p) → view.paths p ≠ some kImplicitDirectory →
        mirror p = view.paths p → ¬ Early c.tree.paths view.paths (named planned) p) := by
  intro mirror p hp
  obtain ⟨told, body, tail, h⟩ := resolveBatch_spec hview hmax mem rounds hplans
  have htells := tells_batch hwf hroot h
  have hmirror := (c.applyInvalidation_keeps hmut
    ⟨generation, resolveBatch opts mem rounds view planned⟩).1
  rw [hmode] at hmirror
  rw [← hmirror] at htells
  have hpne : p ≠ [] := by
    obtain ⟨op, hop, rfl⟩ := List.mem_map.1 hp
    exact (hplans op hop).ne_nil
  constructor
  · intro hearly
    obtain ⟨l₁, l₂, hsplit⟩ := List.append_of_mem hp
    rw [hsplit, List.append_assoc, List.cons_append] at htells
    refine Option.map_injective (fun _ _ h => h) (htells.told (f := id) hview.tree ?_)
    intro hDp u a hu hMu hk
    obtain ⟨b, hb, hkb⟩ := hview.tree.directory hDp (PathMap.prefix_of_prefix_dropLast hu)
      (PathMap.ne_of_prefix_dropLast hu hpne)
    have hmem := hnamed p hp u (PathMap.prefix_of_prefix_dropLast hu) a b hMu hb
      (by rw [hkb]; exact hk)
    rw [hsplit, List.mem_append, List.mem_cons] at hmem
    rcases hmem with hmem | hmem | hmem
    · exact hmem
    · exact absurd hmem (PathMap.ne_of_prefix_dropLast hu hpne)
    · exact absurd ⟨hDp, u, a, hu, hMu, hk, l₁, l₂, hsplit, hmem⟩ hearly
  · rintro hkeeps himplicit heq ⟨hDp, u, a, hu, hMu, hk, l₁, l₂, hsplit, hmem⟩
    rw [hsplit, List.nodup_append', List.nodup_cons] at hdistinct
    obtain ⟨-, ⟨hpl₂, -⟩, hdisjoint⟩ := hdistinct
    have hptold : p ∉ told := fun hq => h.notMem p hq hkeeps hp
    rw [hsplit, List.append_assoc, List.cons_append] at htells
    have hlost := htells.lost hview.tree hDp hu hMu hk
      (fun hul₁ => hdisjoint hul₁ (List.mem_cons_of_mem p hmem)) (by simp [hpl₂, hptold])
    change mirror p = none ∨ mirror p = some kImplicitDirectory at hlost
    rw [heq] at hlost
    exact hlost.elim hDp himplicit

/-- A mirror with the file `r`. -/
def fileMirror : RemoteRoot := { tree := (fresh.upsertPath (bytes "r") {}).2 }

/-- A disk on which `r` is a directory with the file `x` in it. -/
def directoryDisk : DiskView :=
  .ofList [([], kImplicitDirectory), ([bytes "r"], { mode := 0o700, kind := .directory }),
    ([bytes "r", bytes "x"], { size := 1 })]

theorem isTree_directoryDisk : directoryDisk.IsTree :=
  DiskView.isTree_ofList ⟨by decide, by decide, by decide, by decide⟩

/-- `r` has been made, then `r/x`. -/
def madeOps : List PlannedOp :=
  [{ kind := .upsert, path := bytes "r", appeared := true, change := .created },
    { kind := .upsert, path := bytes "r/x", appeared := true, change := .created }]

theorem plans_madeOps : ∀ op ∈ madeOps, Plans {} op := by
  intro op hop
  rcases List.mem_pair.1 hop with rfl | rfl
  · exact ⟨by decide, by decide, by decide, by decide, rfl⟩
  · exact ⟨by decide, by decide, by decide, by decide, rfl⟩

theorem ancestral_madeOps {ps : List (List Bytes)} (hperm : ps.Perm (named madeOps)) :
    Ancestral fileMirror.tree.paths directoryDisk.paths ps := by
  have hps : ∀ q, q ∈ ps ↔ q = [bytes "r"] ∨ q = [bytes "r", bytes "x"] := fun q =>
    hperm.mem_iff.trans List.mem_pair
  intro p hp u hu a b ha hb hk
  have hup : u <+: [bytes "r", bytes "x"] := by
    rcases (hps p).1 hp with rfl | rfl
    · exact hu.trans (List.prefix_append _ [bytes "x"])
    · exact hu
  rw [List.prefix_cons_iff] at hup
  rcases hup with rfl | ⟨v, rfl, hv⟩
  · -- Both have the root as a directory.
    have hM : fileMirror.tree.paths [] = some kImplicitDirectory := by decide
    have hD : directoryDisk.paths [] = some kImplicitDirectory := by decide
    rw [hM] at ha
    rw [hD] at hb
    cases ha
    cases hb
    exact absurd rfl hk
  · rw [List.prefix_cons_iff] at hv
    rcases hv with rfl | ⟨w, rfl, hw⟩
    · exact (hps _).2 (.inl rfl)
    · rw [List.prefix_nil.1 hw]
      exact (hps _).2 (.inr rfl)

/-- A memory in which no dangling view is found. -/
def forgetful : Storage := { finds := fun _ _ => false }

/-- Parents first, both are as on the disk. -/
theorem batch_effective_made :
    ¬ Early fileMirror.tree.paths directoryDisk.paths (named madeOps) [bytes "r", bytes "x"] ∧
    (fileMirror.applyInvalidation
      ⟨1, resolveBatch {} forgetful 3 directoryDisk madeOps⟩).1.tree.paths
        [bytes "r", bytes "x"] = some { size := 1 } := by
  have hearly :
      ¬ Early fileMirror.tree.paths directoryDisk.paths (named madeOps) [bytes "r", bytes "x"] := by
    rintro ⟨-, u, a, -, -, -, l₁, l₂, hsplit, hmem⟩
    -- The operation for `r/x` is the last one.
    have hl₂ : l₂ = [] := by
      have hlast : named madeOps = [[bytes "r"]] ++ [[bytes "r", bytes "x"]] := by decide
      have hnotMem : [bytes "r", bytes "x"] ∉ [[bytes "r"]] := by decide
      rw [hlast] at hsplit
      rcases List.append_eq_append_iff.1 hsplit with ⟨v, rfl, hv⟩ | ⟨v, hl, hv⟩
      · cases v with
        | nil => exact (List.cons.inj hv).2.symm
        | cons w v => simp at hv
      · cases v with
        | nil => exact (List.cons.inj hv).2
        | cons w v =>
          rw [List.cons_append, List.cons.injEq] at hv
          exact absurd (by rw [hl, ← hv.1]; simp) hnotMem
    rw [hl₂] at hmem
    cases hmem
  exact ⟨hearly, ((batch_effective fileMirror (wf_fresh.kept_upsertPath _ _).wf (by decide) rfl rfl
    directoryDisk isTree_directoryDisk {} (by decide) forgetful 3 1 madeOps plans_madeOps
    (by decide) (ancestral_madeOps (.refl _)) _ (by decide)).1 hearly).trans (by decide)⟩

/-- **The operation for `r/x` comes first**, as `r` has been modified after `r/x` was made: it
fails at the file `r`, and the scan of `r` leaves out what has an operation.  The vector of the
operations has not moved by then. -/
theorem batch_loses_early :
    (∀ op ∈ madeOps.reverse, Plans {} op) ∧ (named madeOps.reverse).Nodup ∧
    Ancestral fileMirror.tree.paths directoryDisk.paths (named madeOps.reverse) ∧
    let tree := (fileMirror.applyInvalidation
      ⟨1, resolveBatch {} forgetful 3 directoryDisk madeOps.reverse⟩).1.tree
    directoryDisk.paths [bytes "r", bytes "x"] = some { size := 1 } ∧
      tree.lookup (bytes "r") .exact ≠ none ∧ tree.lookup (bytes "r/x") .exact = none := by
  refine ⟨fun op hop => plans_madeOps op (List.mem_reverse.1 hop), by decide, ?_, by decide,
    by decide, by decide⟩
  rw [named, List.map_reverse]
  exact ancestral_madeOps (List.reverse_perm _)

end

end WslDrive
