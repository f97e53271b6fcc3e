import WslDrive.Core.Tree.Effects

/-!
# Lookup that ignores case

In `CaseInsensitive` mode `lookup` prefers, component by component, the child with the exact name
and otherwise takes the first child with the same folding.

* `lookup_of_exact` — a path that is there exactly resolves to itself in both modes;
* `WF.lookup_live` — what a path resolves to is a node of the tree;
* `WF.lookup_snoc` — below a directory that is there exactly, only the last name can be folded;
* `WF.walk_destination` — where an exact lookup ends, if it ends anywhere, does not depend on the
  tree.
-/

namespace WslDrive

namespace MetadataTree

open Path Shadow

variable {t : MetadataTree} {p c x : NodeId} {name path : Bytes} {mode : LookupMode}
  {s : List Bytes}

theorem findChild_of_exact (h : t.findChild p name .exact = some c) (mode : LookupMode) :
    t.findChild p name mode = some c := by
  rw [findChild] at h ⊢
  by_cases hp : (!t.valid p || !(t.nodes p).isDir) = true
  · rw [if_pos hp] at h
    cases h
  rw [if_neg hp] at h ⊢
  cases hx : (t.names.find name).bind fun nid => t.exact (p, nid) with
  | some v =>
    rw [hx] at h
    exact h
  | none =>
    rw [hx] at h
    cases h

/-- **A path that is there exactly** resolves to itself in both modes. -/
theorem lookup_of_exact (h : t.lookup path .exact = some x) (mode : LookupMode) :
    t.lookup path mode = some x := by
  rw [lookup] at h ⊢
  generalize root = cur at h ⊢
  generalize components path = comps at h ⊢
  induction comps generalizing cur with
  | nil => exact h
  | cons comp comps ih =>
    rw [List.foldlM_cons, Option.bind_eq_bind, Option.bind_eq_some_iff] at h ⊢
    obtain ⟨y, hy, hrest⟩ := h
    refine ⟨y, ?_, ih y hrest⟩
    rw [lookupStep] at hy ⊢
    split_ifs at hy ⊢
    · exact hy
    · exact hy
    · exact findChild_of_exact hy mode

theorem WF.edge_of_findChild (h : t.WF) (hc : t.findChild p name mode = some c) :
    h.toLTree.edge p c := by
  obtain ⟨kids, hr⟩ := h.rep
  have hkid : c ∈ kids p := by
    rw [findChild] at hc
    by_cases hp : (!t.valid p || !(t.nodes p).isDir) = true
    · rw [if_pos hp] at hc
      cases hc
    rw [if_neg hp] at hc
    cases hx : (t.names.find name).bind fun nid => t.exact (p, nid) with
    | some v =>
      rw [hx] at hc
      cases hc
      obtain ⟨nid, -, hnid⟩ := Option.bind_eq_some_iff.1 hx
      exact ((hr.indexed.exact_eq p nid c).1 hnid).1
    | none =>
      rw [hx] at hc
      dsimp only at hc
      split_ifs at hc
      obtain ⟨fid, -, hfid⟩ := Option.bind_eq_some_iff.1 hc
      rw [hr.indexed.folded_eq] at hfid
      exact (key_of_owner hfid).1
  exact (hr.shaped.mem_order p c).1 hkid

theorem WF.lookup_live (h : t.WF) (hx : t.lookup path mode = some x) : t.isLive x := by
  obtain ⟨kids, hr⟩ := h.rep
  have hstep : ∀ (comps : List Bytes) cur, t.isLive cur →
      comps.foldlM (t.lookupStep mode) cur = some x → t.isLive x := by
    intro comps
    induction comps with
    | nil =>
      intro cur hcur hx
      cases hx
      exact hcur
    | cons comp comps ih =>
      intro cur hcur hx
      rw [List.foldlM_cons, Option.bind_eq_bind, Option.bind_eq_some_iff] at hx
      obtain ⟨y, hy, hrest⟩ := hx
      refine ih y ?_ hrest
      rw [lookupStep] at hy
      split_ifs at hy
      · cases hy
        exact hcur
      · cases hpar : (t.nodes cur).parent with
        | none =>
          rw [hpar] at hy
          cases hy
          exact hcur
        | some q =>
          rw [hpar] at hy
          cases hy
          exact hr.shaped.live_of_below hcur (Relation.ReflTransGen.single hpar)
      · exact (h.edge_of_findChild hy).1
  exact hstep _ root hr.shaped.root_live hx

theorem WF.lookup_snoc (h : t.WF) {cs : List Bytes} {leaf : Bytes} {q : NodeId}
    (hvalid : ∀ c ∈ cs ++ [leaf], validName c = true) (hq : h.toLTree.Walk root cs q)
    (mode : LookupMode) :
    t.lookup ([slash].intercalate (cs ++ [leaf])) mode = t.findChild q leaf mode := by
  have hparts := parts_join hvalid
  have hdots : dotdot ∉ components ([slash].intercalate (cs ++ [leaf])) :=
    dotdot_notMem_components (by rw [hparts]; exact hvalid)
  have hexact : ∀ {x : NodeId} {us : List Bytes}, h.toLTree.Walk x us q →
      us.foldlM (fun x n => t.findChild x n mode) x = some q := by
    intro x us hw
    induction us generalizing x with
    | nil => rw [LTree.walk_nil_iff.1 hw]; rfl
    | cons n us ih =>
      obtain ⟨c, hc, hname, hrest⟩ := LTree.walk_cons_iff.1 hw
      rw [List.foldlM_cons, findChild_of_exact (h.findChild_iff.2 ⟨hc, hname⟩) mode]
      exact ih hrest
  rw [lookup, foldlM_lookupStep t _ _ hdots, ← parts, hparts, List.foldlM_append, hexact hq]
  simp

theorem WF.removePath_paths (h : t.WF) (hx : t.lookup path mode = some x) (hne : x ≠ root) :
    (t.removePath path mode).2.paths = t.paths.cut (t.location x) := by
  obtain ⟨kids, hr⟩ := h.rep
  have hlive := h.lookup_live hx
  obtain ⟨t', heq, hrem, h'⟩ := hr.remove_spec hlive hne
  rw [removePath, hx]
  dsimp only
  rw [heq]
  exact hrem.paths_eq h h' (h.walk_location hlive) hne

theorem removePath_root (h : t.lookup path mode = some root) : (t.removePath path mode).2 = t := by
  rw [removePath, h]
  dsimp only
  rw [remove]
  split_ifs with hv hr
  · rfl
  · rfl
  · exact absurd rfl hr

/-! ### Exact lookups -/

/-- One component of a path that leads somewhere. -/
def destinationStep (q : List Bytes) (comp : Bytes) : List Bytes :=
  if comp = [] ∨ comp = dot then q
  else if comp = dotdot then q.dropLast
  else q ++ [comp]

/-- Where a path leads, if it leads anywhere: no more than its text decides. -/
def destination (path : Bytes) : List Bytes := (components path).foldl destinationStep []

/-- **An exact lookup** finds the node at the destination of the path. -/
theorem WF.walk_destination (h : t.WF) (hx : t.lookup path .exact = some x) :
    h.toLTree.Walk root (destination path) x := by
  have hloop : ∀ (comps q : List Bytes) (cur : NodeId), h.toLTree.Walk root q cur →
      comps.foldlM (t.lookupStep .exact) cur = some x →
      h.toLTree.Walk root (comps.foldl destinationStep q) x := by
    intro comps
    induction comps with
    | nil =>
      intro q cur hcur heq
      cases heq
      exact hcur
    | cons comp comps ih =>
      intro q cur hcur heq
      rw [List.foldlM_cons, Option.bind_eq_bind, Option.bind_eq_some_iff] at heq
      obtain ⟨next, hnext, heq⟩ := heq
      refine ih _ next ?_ heq
      rw [lookupStep] at hnext
      rw [destinationStep]
      split_ifs at hnext ⊢ with hskip hup
      · cases hnext
        exact hcur
      · cases hnext
        rcases List.eq_nil_or_concat q with rfl | ⟨q, n, rfl⟩
        · obtain rfl := LTree.walk_nil_iff.1 hcur
          obtain ⟨kids, hr⟩ := h.rep
          rw [hr.shaped.root_parent]
          exact .nil root
        · rw [List.concat_eq_append] at hcur ⊢
          obtain ⟨z, hz, hzx, -⟩ := LTree.walk_snoc_iff.1 hcur
          rw [hzx.2, List.dropLast_concat]
          exact hz
      · obtain ⟨hedge, hname⟩ := h.findChild_iff.1 hnext
        exact LTree.walk_snoc_iff.2 ⟨cur, hcur, hedge, hname⟩
  exact hloop _ [] root (.nil root) hx

theorem lookup_pieces (t : MetadataTree) (path : Bytes) (mode : LookupMode) :
    t.lookup path mode =
      (Split.pieces isPathSeparator path).foldlM (t.lookupStep mode) root := by
  rw [← Split.filter_scan, lookup, components]
  generalize Split.scan isPathSeparator path = comps
  generalize root = cur
  induction comps generalizing cur with
  | nil => rfl
  | cons comp comps ih =>
    cases comp with
    | nil =>
      rw [List.filter_cons_of_neg (by simp), ← ih]
      rfl
    | cons b comp =>
      rw [List.filter_cons_of_pos (by simp), List.foldlM_cons, List.foldlM_cons]
      exact congrArg _ (funext fun y => ih y)

theorem WF.lookup_child {dir : Bytes} (h : t.WF) (hp : t.lookup dir .exact = some p)
    (hc : h.toLTree.edge p c) :
    t.lookup (if dir = [] then t.name c else dir ++ slash :: t.name c) .exact = some c := by
  obtain ⟨kids, hr⟩ := h.rep
  obtain ⟨n, hn⟩ := Option.isSome_iff_exists.1 hc.1
  have hvalid : validName (t.name c) = true := by
    rw [name_eq hn]
    refine hr.named.valid c n hn ?_
    rintro rfl
    exact h.toLTree.not_edge_root p hc
  have hpart := isPart_of_validName hvalid
  have hone : Split.pieces isPathSeparator (t.name c) = [t.name c] :=
    Split.pieces_of_forall hpart.1 hpart.2.2
  have hpieces : Split.pieces isPathSeparator
      (if dir = [] then t.name c else dir ++ slash :: t.name c) =
      Split.pieces isPathSeparator dir ++ [t.name c] := by
    by_cases hdir : dir = []
    · rw [if_pos hdir, hdir, hone, Split.pieces_nil]
      rfl
    · rw [if_neg hdir, Split.pieces_append_cons _ _ isPathSeparator_slash, hone]
  have hdots : t.name c ≠ dotdot := by
    intro heq
    rw [heq] at hvalid
    exact absurd hvalid (by decide)
  rw [lookup_pieces] at hp ⊢
  rw [hpieces, List.foldlM_append, hp]
  show (t.lookupStep .exact p (t.name c)).bind some = some c
  rw [lookupStep, if_neg (not_or.2 ⟨hpart.1, hpart.2.1⟩), if_neg hdots, h.findChild_iff.2 ⟨hc, rfl⟩]
  rfl

end MetadataTree

end WslDrive
