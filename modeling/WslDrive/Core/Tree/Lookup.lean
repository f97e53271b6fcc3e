import WslDrive.Core.Tree.Export

/-!
# Looking up names and paths

A name is looked up through two hash indexes over interned names, a path by one name after the
other, and `path_of` follows the parents.

* `MetadataTree.findChild_eq_scan` — the indexes answer as a scan over the children would;
* `MetadataTree.pathOf_lookup_inverse` — `path_of` and `lookup` undo each other.

Both hold in every tree that operations lead to, failing ones included.
-/

namespace WslDrive

open Path Unicode

namespace MetadataTree

variable {t : MetadataTree} {x : NodeId}

/-! ### Children -/

/-- The naive search: the child of that name, or else the first one with the same folding. -/
def scanChild (t : MetadataTree) (dir : NodeId) (name : Bytes) : Option NodeId :=
  ((t.children dir).find? fun c => t.name c = name).or
    ((t.children dir).find? fun c => casefold (t.name c) = casefold name)

/-- **A case-insensitive lookup is a scan of the children**, in the order in which they are linked;
and what is found by its exact path is found case-insensitively, too. -/
theorem findChild_eq_scan (ops : List Op) :
    (∀ dir, (run ops).isLive dir → ∀ name,
      (run ops).findChild dir name .caseInsensitive = (run ops).scanChild dir name ∧
      ∀ c, c ∈ (run ops).children dir ↔
        (run ops).isLive c ∧ ((run ops).nodes c).parent = some dir) ∧
    ∀ path id, (run ops).lookup path .exact = some id →
      (run ops).lookup path .caseInsensitive = some id := by
  have h := wf_run ops
  refine ⟨fun dir hdir name => ⟨?_, fun c => h.mem_children⟩, fun path id hid => ?_⟩
  · rw [h.findChild_eq hdir, if_neg LookupMode.noConfusion, scanChild]
  · exact lookup_of_exact hid _

/-- Of `A` and `a` the first is removed: `A` is now found at `a`. -/
theorem findChild_eq_scan_collision :
    (run [.insert root [0x41] {}, .insert root [0x61] {}, .remove 1]).isLive root ∧
    (run [.insert root [0x41] {}, .insert root [0x61] {}, .remove 1]).findChild root [0x41]
      .caseInsensitive =
      (run [.insert root [0x41] {}, .insert root [0x61] {}, .remove 1]).scanChild root [0x41] :=
  have hlive : (run [.insert root [0x41] {}, .insert root [0x61] {}, .remove 1]).isLive root := by
    decide
  ⟨hlive, ((findChild_eq_scan _).1 root hlive [0x41]).1⟩

/-! ### Paths -/

/-- The loop of `path_of` needs no more rounds than there are nodes above. -/
theorem WF.chain_congr (h : t.WF) {fuel fuel' : ℕ} (hx : t.isLive x) (hf : t.height x ≤ fuel)
    (hf' : t.height x ≤ fuel') : t.chain fuel x = t.chain fuel' x := by
  obtain ⟨kids, hr⟩ := h.rep
  induction fuel generalizing fuel' x with
  | zero =>
    have := hr.height_pos hx
    omega
  | succ fuel ih =>
    cases fuel' with
    | zero =>
      have := hr.height_pos hx
      omega
    | succ fuel' =>
      rw [chain, chain]
      split_ifs with hroot
      · rfl
      · obtain ⟨q, hq, hqlive, -⟩ := hr.shaped.parent_live x hx hroot
        have hlt := hr.height_lt ((hr.shaped.mem_order q x).2 ⟨hx, hq⟩)
        have hchain : t.chain fuel q = t.chain fuel' q := ih hqlive (by omega) (by omega)
        rw [hq]
        dsimp only
        rw [hchain]

theorem WF.iterate_parent (h : t.WF) {fuel : ℕ} (hx : t.isLive x) (hf : t.height x ≤ fuel) :
    ∃ n ≤ fuel, (fun y => (t.nodes y).parent.getD y)^[n] x = root := by
  obtain ⟨kids, hr⟩ := h.rep
  induction fuel generalizing x with
  | zero =>
    have := hr.height_pos hx
    omega
  | succ fuel ih =>
    by_cases hroot : x = root
    · exact ⟨0, Nat.zero_le _, hroot⟩
    · obtain ⟨q, hq, hqlive, -⟩ := hr.shaped.parent_live x hx hroot
      have hlt := hr.height_lt ((hr.shaped.mem_order q x).2 ⟨hx, hq⟩)
      obtain ⟨n, hn, hit⟩ := ih hqlive (by omega)
      refine ⟨n + 1, Nat.succ_le_succ hn, ?_⟩
      rw [Function.iterate_succ_apply, hq, Option.getD_some, hit]

theorem WF.lookup_pathOf_sep (h : t.WF) (hx : t.isLive x) {sep : UInt8}
    (hsep : isPathSeparator sep = true) (mode : LookupMode) :
    t.lookup (t.pathOf x sep) mode = some x := by
  have hnames := h.validNames_location hx
  have hparts : parts ([sep].intercalate (t.location x)) = t.location x :=
    parts_intercalate_sep hsep fun c hc => isPart_of_validName (hnames c hc)
  refine lookup_of_exact ?_ mode
  rw [h.pathOf_join hx, h.lookup_eq, hparts, h.walk_iff]
  · exact h.walk_location hx
  · exact dotdot_notMem_components (by rw [hparts]; exact hnames)

theorem WF.pathOf_of_lookup (h : t.WF) {path : Bytes} (hdots : dotdot ∉ components path)
    (hx : t.lookup path .exact = some x) : t.pathOf x slash = normalizePath path := by
  rw [h.lookup_eq hdots, h.walk_iff] at hx
  have hlive := h.isLive_of_walk hx
  rw [h.pathOf_eq hlive, normalizePath_eq, (h.walk_location hlive).path_unique hx]

/-- **`path_of` and `lookup` undo each other.**  From a live node the parents lead to the root, so
`path_of` ends; its path, with either separator, leads back to the node in both modes; and a path
without `..` that leads to the node is its path once it is normalised. -/
theorem pathOf_lookup_inverse (ops : List Op) (id : NodeId) (hid : (run ops).isLive id) :
    ((∃ n ≤ (run ops).size, (fun x => ((run ops).nodes x).parent.getD x)^[n] id = root) ∧
      ∀ fuel, (run ops).size ≤ fuel → (run ops).chain fuel id = (run ops).chain (run ops).size id) ∧
    (∀ sep, isPathSeparator sep = true → ∀ mode,
      (run ops).lookup ((run ops).pathOf id sep) mode = some id) ∧
    ∀ path, dotdot ∉ components path → (run ops).lookup path .exact = some id →
      (run ops).pathOf id slash = normalizePath path := by
  have h := wf_run ops
  have hle := (run ops).height_le id
  refine ⟨⟨h.iterate_parent hid hle, fun fuel hf => ?_⟩, fun sep hsep mode => ?_,
    fun path hdots hpath => h.pathOf_of_lookup hdots hpath⟩
  · exact h.chain_congr hid (hle.trans hf) hle
  · exact h.lookup_pathOf_sep hid hsep mode

/-- `x/y` after its directory was renamed to `z`. -/
theorem pathOf_lookup_inverse_renamed :
    (run [.upsertPath [0x78, 0x2F, 0x79] {}, .rename 1 root [0x7A]]).isLive 2 ∧
    (run [.upsertPath [0x78, 0x2F, 0x79] {}, .rename 1 root [0x7A]]).pathOf 2 slash =
      normalizePath [0x2F, 0x7A, 0x5C, 0x2E, 0x2F, 0x79] := by
  have hlive : (run [.upsertPath [0x78, 0x2F, 0x79] {}, .rename 1 root [0x7A]]).isLive 2 := by
    decide
  exact ⟨hlive, (pathOf_lookup_inverse _ 2 hlive).2.2 [0x2F, 0x7A, 0x5C, 0x2E, 0x2F, 0x79]
    (by decide) (by decide)⟩

end MetadataTree

end WslDrive
