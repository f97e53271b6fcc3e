import WslDrive.Agent.Mirror
import WslDrive.Core.Tree.Folded

/-!
# The changes that a batch reports

`apply_invalidation` decides what to report for an operation before it performs it: it looks the
path up in the mode of the client.  The operation itself uses the exact spelling, and its result is
ignored.

* `RemoteRoot.report` — what is reported for an operation;
* `RemoteRoot.reported_of_changes` — an operation that changes its path is reported;
* `RemoteRoot.exists_applied_eq` — the report of a batch, seen from one of its operations;
* `RemoteRoot.verdicts_right_iff` — when the report says what happened to the path.

The verdict is wrong if only another spelling of the path is in the mirror, if the path cannot be
put into the mirror, and for the removal of the root.
-/

namespace WslDrive

namespace RemoteRoot

open MetadataTree Path

/-- What the loop of `apply_invalidation` reports for an operation; none if it is stale, or if there
is nothing to remove. -/
def report (c : RemoteRoot) (generation : UInt64) (op : InvalidationOp) : Option AppliedChange :=
  (c.admits generation op).bind fun c => c.appliedChange op

/-- An operation changes what the mirror has at its path. -/
def Changes (M M' : PathMap) (op : InvalidationOp) : Prop :=
  let p := parts op.path
  (M p = none ∧ M' p = some op.attr) ∨ (M p ≠ none ∧ M' p ≠ none ∧ M' ≠ M) ∨
    (M p ≠ none ∧ M' p = none)

/-- The report on an operation that takes the mirror from `M` to `M'` is right. -/
structure Right (M M' : PathMap) (op : InvalidationOp) (r : Option AppliedChange) : Prop where
  created : ∀ ch ∈ r, ch.change = .created →
    M (parts op.path) = none ∧ M' (parts op.path) = some op.attr
  modified : ∀ ch ∈ r, ch.change = .modified →
    M (parts op.path) ≠ none ∧ M' (parts op.path) ≠ none
  removed : ∀ ch ∈ r, ch.change = .removed →
    M (parts op.path) ≠ none ∧ M' (parts op.path) = none
  complete : Changes M M' op → r ≠ none

/-- The mirror can take an entry at this path: its names are valid, and whatever is there on the way
to it is a directory. -/
def Acceptable (t : MetadataTree) (path : Bytes) : Prop :=
  (∀ c ∈ parts path, validName c = true) ∧ t.paths.Open (parts path)

/-- Either the mirror has the exact path of the operation, or it has no spelling of it and can take
it; a path that is to be removed is not the root. -/
def Fitting (c : RemoteRoot) (generation : UInt64) (op : InvalidationOp) : Prop :=
  (c.admits generation op).isSome = true →
    (op.kind = .upsert → c.tree.paths (parts op.path) ≠ none ∨
      (c.tree.lookup op.path c.lookupMode = none ∧ Acceptable c.tree op.path)) ∧
    (op.kind = .remove → c.tree.lookup op.path c.lookupMode = none ∨
      (parts op.path ≠ [] ∧ c.tree.paths (parts op.path) ≠ none))

variable {c c' : RemoteRoot} {t : MetadataTree} {op : InvalidationOp} {gen : UInt64} {path : Bytes}
  {attr : Attributes} {mode : LookupMode}

/-! ### The mirror at a path -/

theorem exists_lookup_of_paths (h : t.WF) (hp : t.paths (parts path) ≠ none) (mode : LookupMode) :
    ∃ x, t.lookup path mode = some x ∧ h.toLTree.Walk root (parts path) x := by
  obtain ⟨a, ha⟩ := Option.ne_none_iff_exists'.1 hp
  obtain ⟨x, hx, -⟩ := h.paths_eq_some.1 ha
  refine ⟨x, lookup_of_exact ?_ mode, hx⟩
  rw [h.lookup_eq (dotdot_notMem_components (h.validNames_of_paths hp)), h.walk_iff]
  exact hx

theorem parts_ne_nil_of_lookup (h : t.WF) (hnone : t.lookup path mode = none) :
    parts path ≠ [] := by
  intro hnil
  have hroot : t.paths (parts path) ≠ none := by
    rw [hnil, Ne, h.paths_eq_none]
    exact fun hno => hno root (.nil root)
  obtain ⟨x, hx, -⟩ := exists_lookup_of_paths h hroot mode
  rw [hnone] at hx
  cases hx

theorem not_prefix_dropLast {p u : List Bytes} (hp : p ≠ []) (hu : u <+: p.dropLast) :
    ¬ p <+: u := by
  intro hpu
  have hle := (hpu.trans hu).length_le
  have := List.length_pos_of_ne_nil hp
  rw [List.length_dropLast] at hle
  omega

/-- **When an upsert arrives**: exactly if the mirror can take the path. -/
theorem upsertPath_arrives_iff (h : t.WF) (hne : parts path ≠ []) :
    (t.upsertPath path attr).2.paths (parts path) = some attr ↔ Acceptable t path := by
  constructor
  · intro hsome
    have h' : (t.upsertPath path attr).2.WF := (h.kept_upsertPath path attr).wf
    have hvalid : ∀ c ∈ parts path, validName c = true :=
      h'.validNames_of_paths (by rw [hsome]; simp)
    refine ⟨hvalid, fun q a hq ha => ?_⟩
    -- the entry is still there afterwards, with something below it
    have hkeep : (t.upsertPath path attr).2.paths q = some a := by
      have hnot := not_prefix_dropLast hne hq
      obtain ⟨id, t', heq, hp⟩ | ⟨e, t', u, heq, -, hp, -⟩ := h.upsertPath_spec path attr
      · rw [heq, hp, PathMap.set_of_not_below hnot, PathMap.fill_of_some ha]
      · rw [heq, hp, PathMap.fill_of_some ha]
    by_contra hk
    obtain ⟨v, hv⟩ := hq.trans (List.dropLast_prefix _)
    have hv' : v ≠ [] := by
      rintro rfl
      rw [List.append_nil] at hv
      exact not_prefix_dropLast hne hq (by rw [hv])
    have hgone := h'.paths_below_eq_none hkeep hk hv'
    rw [hv, hsome] at hgone
    cases hgone
  · rintro ⟨hvalid, hopen⟩
    have hroot : ∃ a, t.paths [] = some a := by
      rw [← Option.ne_none_iff_exists', Ne, h.paths_eq_none]
      exact fun hno => hno root (.nil root)
    obtain ⟨a, ha⟩ := hroot
    have hdir := h.isDir_root ha (hopen [] a List.nil_prefix ha)
    rw [h.upsertPath_open hdir hne hvalid hopen, PathMap.set_self]

theorem upsertPath_keeps (h : t.WF) (hp : t.paths (parts path) ≠ none) :
    (t.upsertPath path attr).2.paths (parts path) ≠ none := by
  obtain ⟨id, t', heq, hset⟩ | ⟨e, t', u, heq, -, hset, -⟩ := h.upsertPath_spec path attr
  · rw [heq, hset, PathMap.set_self]
    simp
  · rw [heq, hset]
    exact PathMap.fill_ne_none hp

theorem removePath_gone (h : t.WF) (hne : parts path ≠ []) (hp : t.paths (parts path) ≠ none) :
    (t.removePath path mode).2.paths (parts path) = none := by
  obtain ⟨x, hx, hw⟩ := exists_lookup_of_paths h hp mode
  have hroot : x ≠ root := by
    rintro rfl
    exact hne (hw.path_unique (.nil root))
  have hloc : t.location x = parts path := (h.walk_location (h.lookup_live hx)).path_unique hw
  rw [h.removePath_paths hx hroot, hloc, PathMap.cut_of_below (List.prefix_refl _)]

theorem removePath_root_stays (h : t.WF) (hnil : parts path = []) :
    (t.removePath path mode).2.paths (parts path) ≠ none := by
  have h' : (t.removePath path mode).2.WF := (h.kept_removePath path mode).wf
  rw [hnil, Ne, h'.paths_eq_none]
  exact fun hno => hno root (.nil root)

/-! ### One operation -/

/-- What an operation that passes the filter does to the mirror. -/
theorem applyOp_of_admits {c₁ : RemoteRoot} (hadm : c.admits gen op = some c₁)
    (applied : List AppliedChange) :
    (applyOp gen (c, applied) op).1.tree = applyTree c.tree c.lookupMode op ∧
      c.report gen op = c.appliedChange op := by
  obtain ⟨htree, hmode⟩ := admits_tree hadm
  constructor
  · rw [applyOp, hadm]
    dsimp only
    rw [perform, htree, hmode]
  · rw [report, hadm, Option.bind_some, appliedChange, appliedChange, htree, hmode]

theorem appliedChange_upsert (hk : op.kind = .upsert) (hmove : op.change.isMove = false) :
    ∃ ch, c.appliedChange op = some ch ∧
      ch.change = if (c.tree.lookup op.path c.lookupMode).isSome then .modified else .created := by
  rw [appliedChange]
  simp only [hk, hmove, Bool.false_eq_true, if_false]
  exact ⟨_, rfl, rfl⟩

theorem appliedChange_remove (hk : op.kind = .remove) (hmove : op.change.isMove = false) :
    (c.tree.lookup op.path c.lookupMode = none → c.appliedChange op = none) ∧
      (c.tree.lookup op.path c.lookupMode ≠ none →
        ∃ ch, c.appliedChange op = some ch ∧ ch.change = .removed) := by
  have hfrom : op.change ≠ .movedFrom := by
    intro hf
    rw [hf] at hmove
    cases hmove
  rw [appliedChange]
  simp only [hk, hfrom, if_false]
  cases c.tree.lookup op.path c.lookupMode with
  | none => simp [hfrom]
  | some x => simp

theorem isMove_report (hmove : op.change.isMove = false) {ch : AppliedChange}
    (hch : ch ∈ c.report gen op) : ch.change.isMove = false := by
  cases hadm : c.admits gen op with
  | none =>
    rw [report, hadm] at hch
    cases hch
  | some c₁ =>
    rw [(applyOp_of_admits hadm []).2, Option.mem_def] at hch
    cases hk : op.kind with
    | upsert =>
      obtain ⟨ch', hch', hchange⟩ := appliedChange_upsert (c := c) hk hmove
      obtain rfl : ch' = ch := Option.some.inj (hch'.symm.trans hch)
      rw [hchange]
      split_ifs <;> rfl
    | remove =>
      by_cases hl : c.tree.lookup op.path c.lookupMode = none
      · rw [(appliedChange_remove hk hmove).1 hl] at hch
        cases hch
      · obtain ⟨ch', hch', hchange⟩ := (appliedChange_remove hk hmove).2 hl
        obtain rfl : ch' = ch := Option.some.inj (hch'.symm.trans hch)
        rw [hchange]
        rfl
    | rescan =>
      rw [appliedChange, hk] at hch
      cases hch

theorem reported_of_changes (hmove : op.change.isMove = false) (applied : List AppliedChange)
    (hch : Changes c.tree.paths (applyOp gen (c, applied) op).1.tree.paths op) :
    c.report gen op ≠ none := by
  have hsame : ∀ {M : PathMap}, ¬ Changes M M op := by
    rintro M (⟨hn, hs⟩ | ⟨-, -, hne⟩ | ⟨hs, hn⟩)
    · rw [hn] at hs
      cases hs
    · exact hne rfl
    · exact hs hn
  cases hadm : c.admits gen op with
  | none =>
    rw [applyOp, hadm] at hch
    exact absurd hch hsame
  | some c₁ =>
    obtain ⟨htree, hreport⟩ := applyOp_of_admits hadm applied
    rw [htree, applyTree] at hch
    rw [hreport]
    cases hk : op.kind with
    | upsert =>
      obtain ⟨ch, hsome, -⟩ := appliedChange_upsert (c := c) hk hmove
      rw [hsome]
      simp
    | remove =>
      rw [hk] at hch
      by_cases hl : c.tree.lookup op.path c.lookupMode = none
      · dsimp only at hch
        rw [removePath, hl] at hch
        exact absurd hch hsame
      · obtain ⟨ch, hsome, -⟩ := (appliedChange_remove hk hmove).2 hl
        rw [hsome]
        simp
    | rescan =>
      rw [hk] at hch
      exact absurd hch hsame

theorem right_upsert_iff (h : c.tree.WF) (hk : op.kind = .upsert)
    (hmove : op.change.isMove = false)
    (hcomplete : Changes c.tree.paths (c.tree.upsertPath op.path op.attr).2.paths op →
      c.appliedChange op ≠ none) :
    Right c.tree.paths (c.tree.upsertPath op.path op.attr).2.paths op (c.appliedChange op) ↔
      c.tree.paths (parts op.path) ≠ none ∨
        (c.tree.lookup op.path c.lookupMode = none ∧ Acceptable c.tree op.path) := by
  obtain ⟨ch, hch, hchange⟩ := appliedChange_upsert (c := c) hk hmove
  rw [hch] at hcomplete ⊢
  constructor
  · intro hright
    refine or_iff_not_imp_left.2 fun hnone => ?_
    cases hl : c.tree.lookup op.path c.lookupMode with
    | some x =>
      rw [hl] at hchange
      exact absurd (hright.modified ch rfl hchange).1 hnone
    | none =>
      rw [hl] at hchange
      obtain ⟨-, harrived⟩ := hright.created ch rfl hchange
      exact ⟨rfl, (upsertPath_arrives_iff h (parts_ne_nil_of_lookup h hl)).1 harrived⟩
  · rintro (hp | ⟨hl, hacc⟩)
    · obtain ⟨x, hx, -⟩ := exists_lookup_of_paths h hp c.lookupMode
      rw [hx] at hchange
      refine ⟨?_, ?_, ?_, hcomplete⟩ <;> rintro _ ⟨⟩ hc
      · rw [hchange] at hc
        cases hc
      · exact ⟨hp, upsertPath_keeps h hp⟩
      · rw [hchange] at hc
        cases hc
    · rw [hl] at hchange
      have hnone : c.tree.paths (parts op.path) = none := by
        by_contra hp
        obtain ⟨x, hx, -⟩ := exists_lookup_of_paths h hp c.lookupMode
        rw [hl] at hx
        cases hx
      refine ⟨?_, ?_, ?_, hcomplete⟩ <;> rintro _ ⟨⟩ hc
      · exact ⟨hnone, (upsertPath_arrives_iff h (parts_ne_nil_of_lookup h hl)).2 hacc⟩
      · rw [hchange] at hc
        cases hc
      · rw [hchange] at hc
        cases hc

theorem right_remove_iff (h : c.tree.WF) (hk : op.kind = .remove)
    (hmove : op.change.isMove = false)
    (hcomplete : Changes c.tree.paths (c.tree.removePath op.path c.lookupMode).2.paths op →
      c.appliedChange op ≠ none) :
    Right c.tree.paths (c.tree.removePath op.path c.lookupMode).2.paths op
        (c.appliedChange op) ↔
      c.tree.lookup op.path c.lookupMode = none ∨
        (parts op.path ≠ [] ∧ c.tree.paths (parts op.path) ≠ none) := by
  by_cases hl : c.tree.lookup op.path c.lookupMode = none
  · rw [(appliedChange_remove hk hmove).1 hl] at hcomplete ⊢
    refine iff_of_true ⟨?_, ?_, ?_, hcomplete⟩ (.inl hl) <;> rintro _ ⟨⟩
  · obtain ⟨ch, hch, hchange⟩ := (appliedChange_remove hk hmove).2 hl
    rw [hch] at hcomplete ⊢
    rw [or_iff_right hl]
    constructor
    · intro hright
      obtain ⟨hp, hgone⟩ := hright.removed ch rfl hchange
      exact ⟨fun hnil => removePath_root_stays h hnil hgone, hp⟩
    · rintro ⟨hne, hp⟩
      refine ⟨?_, ?_, ?_, hcomplete⟩ <;> rintro _ ⟨⟩ hc
      · rw [hchange] at hc
        cases hc
      · rw [hchange] at hc
        cases hc
      · exact ⟨hp, removePath_gone h hne hp⟩

theorem right_applyOp_iff (h : c.tree.WF) (hmove : op.change.isMove = false)
    (applied : List AppliedChange) :
    Right c.tree.paths (applyOp gen (c, applied) op).1.tree.paths op (c.report gen op) ↔
      Fitting c gen op := by
  have hcomplete : Changes c.tree.paths (applyOp gen (c, applied) op).1.tree.paths op →
      c.report gen op ≠ none := reported_of_changes hmove applied
  cases hadm : c.admits gen op with
  | none =>
    have hnone : c.report gen op = none := by rw [report, hadm]; rfl
    rw [hnone] at hcomplete ⊢
    refine iff_of_true ⟨?_, ?_, ?_, hcomplete⟩ fun hsome => ?_
    iterate 3 rintro _ ⟨⟩
    rw [hadm] at hsome
    cases hsome
  | some c₁ =>
    obtain ⟨htree, hreport⟩ := applyOp_of_admits hadm applied
    rw [htree, hreport, applyTree] at hcomplete ⊢
    rw [Fitting, hadm]
    cases hk : op.kind with
    | upsert =>
      rw [hk] at hcomplete
      rw [right_upsert_iff h hk hmove hcomplete]
      simp
    | remove =>
      rw [hk] at hcomplete
      rw [right_remove_iff h hk hmove hcomplete]
      simp
    | rescan =>
      have hnone : c.appliedChange op = none := by rw [appliedChange, hk]
      rw [hk, hnone] at hcomplete
      rw [hnone]
      refine iff_of_true ⟨?_, ?_, ?_, hcomplete⟩ (by simp) <;> rintro _ ⟨⟩

/-! ### A batch -/

theorem applyOps_applied (gen : UInt64) (ops : List InvalidationOp) (c : RemoteRoot)
    (applied : List AppliedChange) :
    ∃ more, (ops.foldl (applyOp gen) (c, applied)).2 = applied ++ more := by
  induction ops generalizing c applied with
  | nil => exact ⟨[], (List.append_nil _).symm⟩
  | cons op ops ih =>
    rw [List.foldl_cons, applyOp]
    dsimp only
    cases c.admits gen op with
    | none => exact ih c applied
    | some c₁ =>
      obtain ⟨more, hmore⟩ := ih (c₁.perform op) (applied ++ (c₁.appliedChange op).toList)
      exact ⟨_, by rw [hmore, List.append_assoc]⟩

theorem applyOp_applied (s : RemoteRoot × List AppliedChange) (op : InvalidationOp) :
    (applyOp gen s op).2 = s.2 ++ (s.1.report gen op).toList := by
  rw [applyOp, report]
  cases s.1.admits gen op with
  | none => exact (List.append_nil _).symm
  | some c₁ => rfl

/-- **The report of a batch, seen from one of its operations**: it stands between those on the
operations before and after, and the repair of the moves leaves it alone. -/
theorem exists_applied_eq {batch : InvalidationBatch} {before after : List InvalidationOp}
    (hops : batch.ops = before ++ op :: after) (hmove : op.change.isMove = false) :
    let s := before.foldl (applyOp batch.generation) (c, [])
    ∃ pre post, (c.applyInvalidation batch).2 =
        pre ++ (s.1.report batch.generation op).toList ++ post ∧ pre.length = s.2.length := by
  intro s
  obtain ⟨more, hmore⟩ := applyOps_applied batch.generation after
    (applyOp batch.generation s op).1 (applyOp batch.generation s op).2
  have happlied : (batch.ops.foldl (applyOp batch.generation) (c, [])).2 =
      s.2 ++ (s.1.report batch.generation op).toList ++ more := by
    rw [hops, List.foldl_append, List.foldl_cons, ← applyOp_applied]
    exact hmore
  obtain ⟨f, hf, hrepair⟩ := exists_repair_eq_map
    (s.2 ++ (s.1.report batch.generation op).toList ++ more)
  refine ⟨s.2.map f, more.map f, ?_, List.length_map ..⟩
  rw [applyInvalidation, happlied, hrepair, List.map_append, List.map_append]
  have hkeep : (s.1.report batch.generation op).toList.map f =
      (s.1.report batch.generation op).toList := by
    refine (List.map_congr_left fun ch hch => ?_).trans (List.map_id _)
    exact hf ch (isMove_report hmove (Option.mem_toList.1 hch))
  rw [hkeep]

/-- **The verdict on an operation of a batch is right exactly if the operation fits the mirror**: if
the mirror has its exact path, or no spelling of it and room for it. -/
theorem verdicts_right_iff (c : RemoteRoot) (hwf : c.tree.WF) (batch : InvalidationBatch)
    (before after : List InvalidationOp) (op : InvalidationOp)
    (hops : batch.ops = before ++ op :: after) (hmove : op.change.isMove = false) :
    let s := before.foldl (applyOp batch.generation) (c, [])
    (∃ pre post, (c.applyInvalidation batch).2 =
        pre ++ (s.1.report batch.generation op).toList ++ post ∧ pre.length = s.2.length) ∧
      (Right s.1.tree.paths (applyOp batch.generation s op).1.tree.paths op
          (s.1.report batch.generation op) ↔
        Fitting s.1 batch.generation op) :=
  ⟨exists_applied_eq hops hmove, right_applyOp_iff (wf_applyOps hwf _ before []) hmove _⟩

/-- A mirror with a directory and a file in it, in the mode of the mount. -/
def oneFile : RemoteRoot where
  tree := (fresh.upsertPath (bytes "d/foo") {}).2
  lookupMode := .caseInsensitive

theorem wf_oneFile : oneFile.tree.WF := (wf_fresh.kept_upsertPath _ _).wf

/-- The removal of the file, after an upsert beside it. -/
theorem verdicts_right_removed :
    let upsert : InvalidationOp := { kind := .upsert, path := bytes "d/bar" }
    let remove : InvalidationOp := { kind := .remove, path := bytes "d/foo" }
    (oneFile.applyInvalidation ⟨1, [upsert, remove]⟩).2.map (·.change) = [.created, .removed] ∧
      Right (applyOp 1 (oneFile, []) upsert).1.tree.paths
        (applyOp 1 (applyOp 1 (oneFile, []) upsert) remove).1.tree.paths remove
        ((applyOp 1 (oneFile, []) upsert).1.report 1 remove) :=
  ⟨by decide, (verdicts_right_iff oneFile wf_oneFile
    ⟨1, [{ kind := .upsert, path := bytes "d/bar" }, { kind := .remove, path := bytes "d/foo" }]⟩
    [{ kind := .upsert, path := bytes "d/bar" }] [] _ rfl rfl).2.2
      fun _ => ⟨fun hk => InvalidationKind.noConfusion hk, fun _ => .inr (by decide)⟩⟩

/-- An upsert of `d/FOO`, which the mirror does not have, is reported as a modification, because the
mirror has `d/foo`; an upsert below a file is reported as a creation, and nothing is created; the
removal of the root is reported, and the root stays. -/
theorem verdicts_wrong :
    let variant : InvalidationOp := { kind := .upsert, path := bytes "d/FOO" }
    let below : InvalidationOp := { kind := .upsert, path := bytes "d/foo/x" }
    let whole : InvalidationOp := { kind := .remove, path := [] }
    (oneFile.tree.paths [bytes "d", bytes "FOO"] = none ∧
      (oneFile.applyInvalidation ⟨1, [variant]⟩).2.map (·.change) = [.modified]) ∧
    ((oneFile.applyInvalidation ⟨1, [below]⟩).2.map (·.change) = [.created] ∧
      (oneFile.applyInvalidation ⟨1, [below]⟩).1.tree.paths
        [bytes "d", bytes "foo", bytes "x"] = none) ∧
    ((oneFile.applyInvalidation ⟨1, [whole]⟩).2.map (·.change) = [.removed] ∧
      (oneFile.applyInvalidation ⟨1, [whole]⟩).1.tree.paths [] ≠ none) ∧
    ¬ Right oneFile.tree.paths (applyOp 1 (oneFile, []) variant).1.tree.paths variant
      (oneFile.report 1 variant) := by
  refine ⟨by decide, by decide, by decide, fun h => ?_⟩
  exact (h.modified ⟨.modified, bytes "d/FOO", 0, .file, false⟩ (by decide) rfl).1 (by decide)

end RemoteRoot

end WslDrive
