import WslDrive.Agent.Exactness
import WslDrive.Agent.Resolve

/-!
# Renaming in a mirror that ignores case

The client asks the agent to rename and then moves the node in its mirror.  On a case-sensitive
agent the destination replaces what is exactly there; the mirror looks for the victim with folded
names.

* `OsRename` — what a successful `rename` of the operating system does to the disk;
* `RemoteRoot.rename_loses_variant` — the mirror loses a sibling that the disk keeps;
* `RemoteRoot.rename_mirrors_iff` — otherwise the mirror follows the disk.
-/

namespace WslDrive

open MetadataTree Path

/-- A path as the calls of the operating system take it, a C string. -/
structure OsPath where
  path : Bytes
  nulFree : 0 ∉ path

/-- **`rename` of the operating system** when it succeeds, on the names that lead from the served
root to an entry.  The destination is in a directory and not below the source.  It is replaced if it
is there: an empty directory by a directory, and anything else by anything but a directory. -/
inductive OsRename (D : PathMap) : List Bytes → List Bytes → PathMap → Prop
  | same {ps : List Bytes} : D ps ≠ none → OsRename D ps ps D
  | moved {ps dir : List Bytes} {leaf : Bytes} {a d : Attributes} :
      D ps = some a → D dir = some d → d.kind = .directory → ¬ ps <+: dir ++ [leaf] →
      (∀ b, D (dir ++ [leaf]) = some b → (a.kind = .directory ↔ b.kind = .directory) ∧
        (b.kind = .directory → ∀ u, u ≠ [] → D (dir ++ [leaf] ++ u) = none)) →
      OsRename D ps (dir ++ [leaf]) ((D.cut (dir ++ [leaf])).move ps (dir ++ [leaf]))

theorem OsRename.unused {D : PathMap} {x y : Bytes} {a d : Attributes} (hx : D [x] = some a)
    (hd : D [] = some d) (hk : d.kind = .directory) (hne : x ≠ y) (hy : D [y] = none) :
    OsRename D [x] [y] ((D.cut [y]).move [x] [y]) := by
  refine OsRename.moved hx hd hk (fun hpre => ?_) fun b hb => ?_
  · exact hne (by simpa using hpre.eq_of_length rfl)
  · rw [List.nil_append, hy] at hb
    cases hb

/-- The agent's handler of `RenameRequest` when it succeeds. -/
structure AgentRename (root : Resolve.Root) (D : PathMap) (src dst : OsPath) (D' : PathMap) :
    Prop where
  source : ∃ full, Resolve.resolve root src.path = .ok full
  target : ∃ full, Resolve.resolve root dst.path = .ok full
  rename : OsRename D (parts src.path) (parts dst.path) D'

/-! ### What a rename can add -/

namespace MetadataTree

variable {t : MetadataTree} {id np : NodeId} {nn path : Bytes} {s q : List Bytes}

theorem WF.location_remove (h : t.WF) (hat : t.isLive np → t.location np = q) (id : NodeId)
    (hlive : (t.remove id).2.isLive np) : (t.remove id).2.location np = q := by
  obtain ⟨kids, hr⟩ := h.rep
  by_cases hid : t.isLive id ∧ id ≠ root
  · obtain ⟨t', heq, hrem, h'⟩ := hr.remove_spec hid.1 hid.2
    rw [heq] at hlive ⊢
    have hw := ((hrem.walk_iff h h' hid.2).1 (h'.walk_location hlive)).1
    have hnp := ((hrem.isLive np).1 hlive).1
    exact hw.path_unique (h.walk_location hnp) |>.trans (hat hnp)
  · have hsame : (t.remove id).2 = t := by
      rw [remove]
      split_ifs with hv hroot
      · rfl
      · rfl
      · exact absurd ⟨hr.allocated.valid_iff.1 (by simpa using hv), hroot⟩ hid
    rw [hsame] at hlive ⊢
    exact hat hlive

theorem WF.rename_new (h : t.WF) (id : NodeId) (hat : t.isLive np → t.location np = q)
    (hs : t.paths s = none) (hpre : ¬ q ++ [nn] <+: s) : (t.rename id np nn).2.paths s = none := by
  obtain ⟨kids, hr⟩ := h.rep
  obtain ⟨t', heq, hm, -⟩ | ⟨e, t', heq, -, hsame, h'⟩ := hr.rename_spec id np nn
  · rw [heq, h.rename_paths heq, PathMap.move, hat hm.parent_live, if_neg hpre]
    split_ifs
    · rfl
    · exact hs
  · rw [heq, hsame.paths_eq h h', hs]

end MetadataTree

namespace RemoteRoot

variable {t : MetadataTree} {id np : NodeId} {mode : LookupMode} {nto leaf : Bytes}
  {s q : List Bytes}

theorem removeOther_new (h : t.WF) (keep : Option NodeId) (hs : t.paths s = none) :
    (removeOther t nto mode keep).paths s = none := by
  rw [removeOther]
  cases t.lookup nto mode with
  | none => exact hs
  | some victim =>
    dsimp only
    split_ifs
    · exact h.remove_new victim hs
    · exact hs

theorem location_removeOther (h : t.WF) (hat : t.isLive np → t.location np = q)
    (keep : Option NodeId) (hlive : (removeOther t nto mode keep).isLive np) :
    (removeOther t nto mode keep).location np = q := by
  rw [removeOther] at hlive ⊢
  cases hl : t.lookup nto mode with
  | none =>
    rw [hl] at hlive
    exact hat hlive
  | some victim =>
    rw [hl] at hlive
    dsimp only at hlive ⊢
    split_ifs at hlive ⊢
    · exact h.location_remove hat victim hlive
    · exact hat hlive

theorem moveNode_new (h : t.WF) (hat : t.isLive np → t.location np = q) (hs : t.paths s = none)
    (hpre : ¬ q ++ [leaf] <+: s) : (moveNode t mode id np nto leaf).paths s = none := by
  obtain ⟨kids, hr⟩ := h.rep
  have hnew := h.rename_new id hat hs hpre
  rw [moveNode]
  obtain ⟨t', heq, -⟩ | ⟨e, t', heq, -, hsame, h'⟩ := hr.rename_spec id np leaf
  · rw [heq] at hnew ⊢
    exact hnew
  · rw [heq] at hnew ⊢
    have hat' : t'.isLive np → t'.location np = q := fun hl => by
      have hl' := (hsame.isLive np).1 hl
      have hw := hsame.symm.walk h' h (h'.walk_location hl)
      exact (hw.path_unique (h.walk_location hl')).trans (hat hl')
    have hrem := kept_removeOther h' nto mode (some id)
    exact hrem.wf.rename_new id (location_removeOther h' hat' _) (removeOther_new h' _ hnew) hpre

/-- **What is gone with the victim** does not come back, unless it is the destination. -/
theorem renameTree_gone (h : t.WF) {qdir : List Bytes} {nfrom : Bytes}
    (hqs : ∀ c ∈ qdir ++ [leaf], validName c = true)
    (hs : (removeOther t ([slash].intercalate (qdir ++ [leaf])) mode
      (t.lookup nfrom mode)).paths s = none) (hlen : ¬ s <+: qdir) (hpre : ¬ qdir ++ [leaf] <+: s) :
    (renameTree t mode nfrom ([slash].intercalate (qdir ++ [leaf]))).paths s = none := by
  have hrem := kept_removeOther h ([slash].intercalate (qdir ++ [leaf])) mode (t.lookup nfrom mode)
  rw [renameTree]
  dsimp only
  generalize removeOther t ([slash].intercalate (qdir ++ [leaf])) mode (t.lookup nfrom mode) = t₁
    at hs hrem ⊢
  cases t.lookup nfrom mode with
  | none => exact hs
  | some id =>
    have hqdir : ∀ c ∈ qdir, validName c = true := fun c hc => hqs c (List.mem_append_left _ hc)
    have hparts := parts_join hqdir
    dsimp only
    rw [splitParent_intercalate qdir (isPart_of_validName (hqs leaf (by simp)))]
    dsimp only
    by_cases hnil : [slash].intercalate qdir = []
    · rw [if_pos hnil]
      rw [hnil] at hparts
      obtain rfl : qdir = [] := hparts.symm
      refine moveNode_new hrem.wf (fun hl => ?_) hs hpre
      exact (hrem.wf.walk_location hl).path_unique (.nil root)
    · rw [if_neg hnil, ensureDirectoryPath_eq, hparts]
      have hfill : ∀ u, u <+: qdir → t₁.paths.fill u s = none := fun u hu => by
        rw [PathMap.fill_of_not_above fun hsu => hlen (hsu.trans hu), hs]
      have hne : ∀ c ∈ qdir, c ≠ [] ∧ c ≠ dot := fun c hc =>
        ⟨(isPart_of_validName (hqdir c hc)).1, (isPart_of_validName (hqdir c hc)).2.1⟩
      obtain ⟨y, t₂, h₂, heq, hw, hp, -⟩ | ⟨e, t₂, u, c, v, heq, hcs, hp, -⟩ :=
        hrem.wf.ensureLoop_spec (.nil root) hne
      · rw [heq]
        rw [List.nil_append] at hw hp
        refine moveNode_new h₂ (fun hl => (h₂.walk_location hl).path_unique hw) ?_ hpre
        rw [hp, hfill qdir (List.prefix_refl _)]
      · rw [heq]
        dsimp only
        rw [hp, List.nil_append]
        exact hfill u ⟨c :: v, hcs.symm⟩

/-! ### The rename of the mirror -/

/-- Only another spelling of the destination is in the mirror, and it is not the source. -/
def HitsVariant (t : MetadataTree) (src dst : Bytes) : Prop :=
  t.lookup (normalizePath dst) .exact = none ∧
    ∃ v, t.lookup (normalizePath dst) .caseInsensitive = some v ∧
      t.lookup (normalizePath src) .exact ≠ some v

theorem tree_rename (c : RemoteRoot) {src dst : Bytes} (gen : UInt64)
    (hne : normalizePath src ≠ normalizePath dst) : (c.rename src dst gen).tree =
      renameTree c.tree c.lookupMode (normalizePath src) (normalizePath dst) := by
  rw [rename]
  dsimp only
  rw [if_neg hne]
  rfl

theorem validName_of_resolve {root : Resolve.Root} {dst : OsPath} {full c : Bytes}
    (h : Resolve.resolve root dst.path = .ok full) (hc : c ∈ parts dst.path) :
    validName c = true := by
  have hsafe := ((Resolve.resolve_eq_ok_iff root dst.path full).1 h).1 c hc
  have hnul : ∀ b ∈ c, b ≠ 0 := fun b hb h0 => dst.nulFree (h0 ▸ mem_of_mem_parts hc hb)
  have hsep := hsafe.isPart.2.2
  simp only [validName, Bool.and_eq_true, Bool.not_eq_true', Bool.or_eq_false_iff,
    beq_eq_false_iff_ne, List.all_eq_true]
  exact ⟨⟨⟨hsafe.isPart.1, hsafe.isPart.2.1⟩, hsafe.ne_dotdot⟩, fun b hb => ⟨hsep b hb, hnul b hb⟩⟩

theorem removeOther_exact (hid : t.lookup nto .exact = none →
      ∀ v, t.lookup nto .caseInsensitive = some v → v = id) :
    removeOther t nto .caseInsensitive (some id) = removeOther t nto .exact (some id) := by
  rw [removeOther, removeOther]
  cases hx : t.lookup nto .exact with
  | some y => rw [lookup_of_exact hx]
  | none =>
    cases hv : t.lookup nto .caseInsensitive with
    | none => rfl
    | some v =>
      dsimp only
      rw [hid hx v hv, if_neg (by simp)]

section

variable {c : RemoteRoot} {ps dir : List Bytes} {a d : Attributes}

theorem renameTree_of_not_hits (h : t.WF) (hps : ∀ c ∈ ps, validName c = true)
    (hqs : ∀ c ∈ dir ++ [leaf], validName c = true) (hsrc : t.paths ps = some a)
    (hdir : t.paths dir = some d) (hkind : d.kind = .directory) (hpre : ¬ ps <+: dir ++ [leaf])
    (hover : ∀ b, t.paths (dir ++ [leaf]) = some b →
      (a.kind = .directory ↔ b.kind = .directory) ∧
        (b.kind = .directory → ∀ u, u ≠ [] → t.paths (dir ++ [leaf] ++ u) = none))
    (hid : t.lookup ([slash].intercalate (dir ++ [leaf])) .exact = none →
      ∀ v, t.lookup ([slash].intercalate (dir ++ [leaf])) .caseInsensitive = some v →
        t.lookup ([slash].intercalate ps) .exact = some v) :
    (renameTree t .caseInsensitive ([slash].intercalate ps)
        ([slash].intercalate (dir ++ [leaf]))).paths =
      (t.paths.cut (dir ++ [leaf])).move ps (dir ++ [leaf]) := by
  have habove : ¬ dir ++ [leaf] <+: ps := by
    rintro ⟨u, rfl⟩
    -- A destination above the source is a directory that is not empty.
    have hu : u ≠ [] := by
      rintro rfl
      exact hpre (by simp)
    have hsome : t.paths (dir ++ [leaf]) ≠ none := fun hnone => by
      rw [h.paths_append_eq_none hnone] at hsrc
      cases hsrc
    obtain ⟨b, hb⟩ := Option.ne_none_iff_exists'.1 hsome
    have hk : b.kind = .directory := by
      by_contra hk
      rw [h.paths_below_eq_none hb hk hu] at hsrc
      cases hsrc
    rw [(hover b hb).2 hk u hu] at hsrc
    cases hsrc
  have hlookup := h.lookup_join hps
  obtain ⟨x, hx, -⟩ := h.paths_eq_some.1 hsrc
  have hfrom := hlookup.trans (h.walk_iff.2 hx)
  refine renameTree_paths h hps hqs (by rw [hsrc]; simp) hdir hkind
    (fun hp => hpre (hp.trans (List.prefix_append _ _))) habove ?_ fun id hid' => ?_
  · rw [lookup_of_exact hfrom]
    exact hfrom.symm
  · refine removeOther_exact fun hnone v hv => ?_
    exact Option.some.inj ((hid hnone v hv).symm.trans hid')

/-- A rename takes away the variant of the destination, and the disk keeps it. -/
theorem renameTree_of_hits (h : t.WF) (hps : ∀ c ∈ ps, validName c = true)
    (hqs : ∀ c ∈ dir ++ [leaf], validName c = true) (hsrc : t.paths ps = some a)
    (hdir : t.paths dir = some d) (hpre : ¬ ps <+: dir ++ [leaf]) {v : NodeId}
    (hnone : t.lookup ([slash].intercalate (dir ++ [leaf])) .exact = none)
    (hv : t.lookup ([slash].intercalate (dir ++ [leaf])) .caseInsensitive = some v)
    (hne : t.lookup ([slash].intercalate ps) .exact ≠ some v) :
    ∃ s, t.paths s ≠ none ∧ ¬ dir ++ [leaf] <+: s ∧ ¬ ps <+: s ∧
      (renameTree t .caseInsensitive ([slash].intercalate ps)
        ([slash].intercalate (dir ++ [leaf]))).paths s = none := by
  obtain ⟨q, hq, -⟩ := h.paths_eq_some.1 hdir
  have hedge : h.toLTree.edge q v := by
    rw [h.lookup_snoc hqs hq] at hv
    exact h.edge_of_findChild hv
  have hname : t.name v ≠ leaf := fun hn => by
    rw [h.lookup_snoc hqs hq, h.findChild_iff.2 ⟨hedge, hn⟩] at hnone
    cases hnone
  have hwv := hq.snoc hedge
  have hlookup := h.lookup_join hps
  obtain ⟨x, hx, -⟩ := h.paths_eq_some.1 hsrc
  have hfrom := hlookup.trans (h.walk_iff.2 hx)
  have hroot : v ≠ MetadataTree.root := by
    rintro rfl
    exact h.toLTree.not_edge_root q hedge
  have hto : ¬ dir ++ [leaf] <+: dir ++ [t.name v] := fun hp => by
    have := hp.eq_of_length (by simp)
    exact hname (by simpa using (List.append_cancel_left this).symm)
  refine ⟨dir ++ [t.name v], ?_, hto, fun hp => ?_, ?_⟩
  · rw [ne_eq, h.paths_eq_none]
    exact fun hno => hno v hwv
  · rcases List.prefix_concat_iff.1 hp with rfl | hp
    · exact hne (hlookup.trans (h.walk_iff.2 hwv))
    · exact hpre (hp.trans (List.prefix_append _ _))
  · refine renameTree_gone h hqs ?_ (fun hp => ?_) hto
    · rw [removeOther, hv]
      dsimp only
      rw [if_pos (by rw [lookup_of_exact hfrom, ← hfrom]; exact hne.symm)]
      have hcut := h.removePath_paths hv hroot
      rw [removePath, hv] at hcut
      rw [hcut, PathMap.cut_of_below]
      exact ((h.walk_location (h.isLive_of_walk hwv)).path_unique hwv) ▸ List.prefix_refl _
    · have := hp.length_le
      rw [List.length_append, List.length_singleton] at this
      omega

end

/-- **The client's rename follows the agent's**: in a client that ignores case the mirror has the
entries of the disk again exactly unless only another spelling of the destination is there, which is
not the source itself. -/
theorem rename_mirrors_iff (root : Resolve.Root) (c : RemoteRoot) (hwf : c.tree.WF)
    (hmode : c.lookupMode = .caseInsensitive) (src dst : OsPath) (gen : UInt64) (D' : PathMap)
    (hagent : AgentRename root c.tree.paths src dst D') :
    (c.rename src.path dst.path gen).tree.paths = D' ↔
      ¬ HitsVariant c.tree src.path dst.path := by
  obtain ⟨-, ⟨full, hresolve⟩, hrename⟩ := hagent
  have hvalid := fun c hc => validName_of_resolve (c := c) hresolve hc
  rw [HitsVariant, normalizePath_eq, normalizePath_eq]
  generalize hps : parts src.path = ps at hrename
  generalize hqs : parts dst.path = qs at hrename hvalid
  cases hrename with
  | same hsome =>
    have hsame : c.rename src.path dst.path gen = c := by
      rw [rename, normalizePath_eq, normalizePath_eq, hps, hqs]
      exact if_pos rfl
    rw [hsame]
    refine iff_of_true rfl ?_
    rintro ⟨hnone, -⟩
    rw [hwf.lookup_join hvalid] at hnone
    exact hsome (by rw [paths, hnone]; rfl)
  | @moved dir leaf a d hsrc hdir hkind hpre hover =>
    have hpsv := hwf.validNames_of_paths (s := ps) (by rw [hsrc]; simp)
    have hne : normalizePath src.path ≠ normalizePath dst.path := fun heq => by
      have := parts_eq_of_normalizePath_eq heq
      rw [hps, hqs] at this
      exact hpre (by rw [this])
    rw [tree_rename c gen hne, hmode, normalizePath_eq, normalizePath_eq, hps, hqs]
    constructor
    · rintro heq ⟨hnone, v, hv, hid⟩
      obtain ⟨s, hs, hto, hfrom, hgone⟩ :=
        renameTree_of_hits hwf hpsv hvalid hsrc hdir hpre hnone hv hid
      rw [heq, PathMap.move, if_neg hto, if_neg hfrom, PathMap.cut_of_not_below hto] at hgone
      exact hs hgone
    · intro hno
      refine renameTree_of_not_hits hwf hpsv hvalid hsrc hdir hkind hpre hover fun hnone v hv => ?_
      by_contra hid
      exact hno ⟨hnone, v, hv, hid⟩

/-- The mirror of a root with two files. -/
def twoFiles : RemoteRoot where
  tree := ((fresh.upsertPath (bytes "Foo") {}).2.upsertPath (bytes "a") {}).2
  lookupMode := .caseInsensitive

theorem wf_twoFiles : twoFiles.tree.WF :=
  ((wf_fresh.kept_upsertPath _ _).wf.kept_upsertPath _ _).wf

/-- On the disk `a` is renamed to `foo`, next to `Foo`; the mirror has no `Foo` any more. -/
theorem rename_loses_variant :
    let D := twoFiles.tree.paths
    let D' := (D.cut [bytes "foo"]).move [bytes "a"] [bytes "foo"]
    AgentRename ⟨bytes "/srv", by decide⟩ D ⟨bytes "a", by decide⟩ ⟨bytes "foo", by decide⟩ D' ∧
      D' [bytes "Foo"] = some {} ∧
      (twoFiles.rename (bytes "a") (bytes "foo") 1).tree.paths [bytes "Foo"] = none := by
  refine ⟨⟨⟨bytes "/srv/a", by decide⟩, ⟨bytes "/srv/foo", by decide⟩, ?_⟩, by decide, by decide⟩
  exact .unused (a := {}) (d := kImplicitDirectory) (by decide) (by decide) rfl (by decide)
    (by decide)

/-- `a` is renamed to `b`. -/
theorem rename_mirrors_other :
    let D := twoFiles.tree.paths
    (twoFiles.rename (bytes "a") (bytes "b") 1).tree.paths =
      (D.cut [bytes "b"]).move [bytes "a"] [bytes "b"] := by
  refine (rename_mirrors_iff ⟨bytes "/srv", by decide⟩ twoFiles wf_twoFiles rfl
    ⟨bytes "a", by decide⟩ ⟨bytes "b", by decide⟩ 1 _ ⟨⟨bytes "/srv/a", by decide⟩,
      ⟨bytes "/srv/b", by decide⟩, ?_⟩).2 ?_
  · exact .unused (a := {}) (d := kImplicitDirectory) (by decide) (by decide) rfl (by decide)
      (by decide)
  · have hnone : twoFiles.tree.lookup (normalizePath (bytes "b")) .caseInsensitive = none := by
      decide
    rintro ⟨-, v, hv, -⟩
    rw [hnone] at hv
    cases hv

end RemoteRoot

end WslDrive
