import WslDrive.Agent.Mirror
import WslDrive.Core.Tree.Folded

/-!
# Invalidations and case

The agent spells the paths of its operations exactly, but a client in `CaseInsensitive` mode
resolves the path of a removal with folded names.

* `RemoteRoot.remove_takes_variant` — the removal of a path that the mirror does not have takes
  away another spelling of it;
* `RemoteRoot.actsExactly_iff` — an operation acts on more than the path it names only then.
-/

namespace WslDrive

namespace RemoteRoot

open MetadataTree Path

/-- A component path is at or below the node that a path names exactly. -/
def Names (t : MetadataTree) (path : Bytes) (s : List Bytes) : Prop :=
  parts path <+: s ∨ ∃ x, t.lookup path .exact = some x ∧ t.location x <+: s

/-- An operation changes nothing but the node it names, what is below it, and missing directories
on the way to it; the removal of a path that is not there changes nothing. -/
structure ActsExactly (c c' : RemoteRoot) (op : InvalidationOp) : Prop where
  frame : ∀ s, c'.tree.paths s ≠ c.tree.paths s → Names c.tree op.path s ∨
    (s <+: parts op.path ∧ c.tree.paths s = none ∧ c'.tree.paths s = some kImplicitDirectory)
  absent : op.kind = .remove → c.tree.lookup op.path .exact = none →
    c'.tree.paths = c.tree.paths

/-- The path of a removal that passes the stale-op filter is not in the mirror, but another
spelling of it is. -/
def TakesVariant (c : RemoteRoot) (generation : UInt64) (op : InvalidationOp) : Prop :=
  op.kind = .remove ∧ (c.admits generation op).isSome = true ∧
    c.tree.lookup op.path .exact = none ∧
    ∃ x, x ≠ root ∧ c.tree.lookup op.path .caseInsensitive = some x

variable {c c' : RemoteRoot} {op : InvalidationOp} {gen : UInt64}

theorem ActsExactly.of_paths_eq (h : c'.tree.paths = c.tree.paths) : ActsExactly c c' op :=
  ⟨fun s hs => absurd (by rw [h]) hs, fun _ _ => h⟩

theorem ActsExactly.upsert (h : c.tree.WF) (hk : op.kind = .upsert)
    (htree : c'.tree = (c.tree.upsertPath op.path op.attr).2) : ActsExactly c c' op := by
  have hfill : ∀ {u s}, u <+: (parts op.path).dropLast → c.tree.paths.fill u s ≠ c.tree.paths s →
      s <+: parts op.path ∧ c.tree.paths s = none ∧
        c.tree.paths.fill u s = some kImplicitDirectory := by
    intro u s hu hs
    rw [PathMap.fill] at hs ⊢
    split_ifs at hs ⊢ with hsu
    · exact ⟨hsu.1.trans (hu.trans (List.dropLast_prefix _)), hsu.2, rfl⟩
    · exact absurd rfl hs
  refine ⟨fun s hs => ?_, fun hr => by rw [hk] at hr; cases hr⟩
  rw [htree] at hs ⊢
  obtain ⟨id, t', heq, hp⟩ | ⟨e, t', u, heq, hu, hp, -⟩ := h.upsertPath_spec op.path op.attr
  · rw [heq, hp, PathMap.set] at hs ⊢
    split_ifs at hs ⊢ with hself hbelow
    · exact .inl (.inl (by rw [hself]))
    · exact .inl (.inl hbelow.2)
    · exact .inr (hfill (List.prefix_refl _) hs)
  · rw [heq, hp] at hs ⊢
    exact .inr (hfill hu hs)

theorem actsExactly_remove_iff (h : c.tree.WF) (hk : op.kind = .remove)
    (htree : c'.tree = (c.tree.removePath op.path .caseInsensitive).2) :
    ActsExactly c c' op ↔ ¬ (c.tree.lookup op.path .exact = none ∧
      ∃ x, x ≠ root ∧ c.tree.lookup op.path .caseInsensitive = some x) := by
  cases hx : c.tree.lookup op.path .caseInsensitive with
  | none =>
    have hsame : c'.tree = c.tree := by rw [htree, removePath, hx]
    exact iff_of_true (.of_paths_eq (by rw [hsame])) (by simp)
  | some x =>
    by_cases hroot : x = root
    · rw [hroot] at hx
      have hsame : c'.tree = c.tree := by rw [htree, removePath_root hx]
      exact iff_of_true (.of_paths_eq (by rw [hsame])) (by simp [hroot])
    have hcut : c'.tree.paths = c.tree.paths.cut (c.tree.location x) := by
      rw [htree, h.removePath_paths hx hroot]
    constructor
    · rintro hacts ⟨hnone, -⟩
      -- The variant itself is gone.
      have hgone := congrFun (hacts.absent hk hnone) (c.tree.location x)
      rw [hcut, PathMap.cut_of_below (List.prefix_refl _)] at hgone
      have hlive := h.lookup_live hx
      exact h.paths_eq_none.1 hgone.symm x (h.walk_location hlive)
    · intro hno
      have hsome : c.tree.lookup op.path .exact ≠ none := fun hnone =>
        hno ⟨hnone, x, hroot, rfl⟩
      obtain ⟨y, hy⟩ := Option.ne_none_iff_exists'.1 hsome
      obtain rfl : y = x := Option.some.inj ((lookup_of_exact hy .caseInsensitive).symm.trans hx)
      refine ⟨fun s hs => .inl (.inr ⟨y, hy, ?_⟩), fun _ hnone => absurd hnone hsome⟩
      rw [hcut, PathMap.cut] at hs
      split_ifs at hs with hpre
      · exact hpre
      · exact absurd rfl hs

theorem actsExactly_applyOp_iff (h : c.tree.WF) (hmode : c.lookupMode = .caseInsensitive)
    (gen : UInt64) (op : InvalidationOp) (applied : List AppliedChange) :
    ActsExactly c (applyOp gen (c, applied) op).1 op ↔ ¬ TakesVariant c gen op := by
  rw [applyOp, TakesVariant]
  dsimp only
  cases hadm : c.admits gen op with
  | none => exact iff_of_true (.of_paths_eq rfl) (by simp)
  | some c₁ =>
    obtain ⟨htree, hmode₁⟩ := admits_tree hadm
    rw [hmode] at hmode₁
    have hperform : (c₁.perform op).tree = applyTree c.tree .caseInsensitive op := by
      rw [perform, htree, hmode₁]
    cases hk : op.kind with
    | upsert =>
      rw [applyTree, hk] at hperform
      exact iff_of_true (.upsert h hk hperform) (by simp)
    | remove =>
      rw [applyTree, hk] at hperform
      rw [actsExactly_remove_iff h hk hperform]
      simp
    | rescan =>
      rw [applyTree, hk] at hperform
      exact iff_of_true (.of_paths_eq (by rw [hperform])) (by simp)

/-- **Operations act on the path they name** in a client that ignores case, unless one removes a
path that the mirror does not have while another spelling of it is there. -/
theorem actsExactly_iff (c : RemoteRoot) (hwf : c.tree.WF)
    (hmode : c.lookupMode = .caseInsensitive) (batch : InvalidationBatch)
    (before after : List InvalidationOp) (op : InvalidationOp)
    (hops : batch.ops = before ++ op :: after) :
    let s := before.foldl (applyOp batch.generation) (c, [])
    batch.ops.foldl (applyOp batch.generation) (c, []) =
        after.foldl (applyOp batch.generation) (applyOp batch.generation s op) ∧
      (ActsExactly s.1 (applyOp batch.generation s op).1 op ↔
        ¬ TakesVariant s.1 batch.generation op) := by
  intro s
  have hs : s.1.tree.WF ∧ s.1.lookupMode = .caseInsensitive := by
    refine applyOps_invariant (fun c => c.tree.WF ∧ c.lookupMode = .caseInsensitive)
      (fun c c' op _ hc hadm => ?_) ⟨hwf, hmode⟩ []
    obtain ⟨htree, hmode'⟩ := admits_tree hadm
    rw [← htree] at hc
    exact ⟨(kept_applyTree hc.1 _ op).wf, hmode'.trans hc.2⟩
  refine ⟨by rw [hops, List.foldl_append, List.foldl_cons], ?_⟩
  exact actsExactly_applyOp_iff hs.1 hs.2 _ op s.2

/-- The mirror of a root with one file, in the mode of the mount. -/
def lowercase : RemoteRoot where
  tree := (fresh.upsertPath (bytes "foo") {}).2
  lookupMode := .caseInsensitive

theorem wf_lowercase : lowercase.tree.WF := (wf_fresh.kept_upsertPath _ _).wf

/-- The removal of `FOO`, which the mirror does not have, takes away `foo`. -/
theorem remove_takes_variant :
    let op : InvalidationOp := { kind := .remove, path := bytes "FOO" }
    lowercase.tree.paths [bytes "FOO"] = none ∧
      lowercase.tree.paths [bytes "foo"] = some {} ∧
      (lowercase.applyInvalidation ⟨1, [op]⟩).1.tree.paths [bytes "foo"] = none ∧
      ¬ ActsExactly lowercase (applyOp 1 (lowercase, []) op).1 op := by
  refine ⟨by decide, by decide, by decide, fun h => ?_⟩
  have := congrFun (h.absent rfl (by decide)) [bytes "foo"]
  exact absurd this (by decide)

/-- The removal of `foo` itself. -/
theorem actsExactly_remove_foo :
    let op : InvalidationOp := { kind := .remove, path := bytes "foo" }
    ActsExactly lowercase (applyOp 1 (lowercase, []) op).1 op := by
  refine ((actsExactly_iff lowercase wf_lowercase rfl
    ⟨1, [{ kind := .remove, path := bytes "foo" }]⟩ [] [] _ rfl).2).2 ?_
  rintro ⟨-, -, hnone, -⟩
  exact absurd hnone (by decide)

end RemoteRoot

end WslDrive
