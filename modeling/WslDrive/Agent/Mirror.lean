import WslDrive.Agent.Client
import WslDrive.Core.Tree.Effects

/-!
# What the client keeps

Facts about every step of the client: the mirror stays a well-formed tree with a directory at its
root, and the table of mutations changes only at the paths that a step names.
-/

namespace WslDrive

namespace RemoteRoot

open MetadataTree Path

variable {c : RemoteRoot} {t : MetadataTree} {p q key : Bytes} {gen : UInt64}

/-! ### The tree -/

theorem kept_applyTree (h : t.WF) (mode : LookupMode) (op : InvalidationOp) :
    Kept t (applyTree t mode op) := by
  rw [applyTree]
  cases op.kind with
  | upsert => exact h.kept_upsertPath _ _
  | remove => exact h.kept_removePath _ _
  | rescan => exact h.kept_refl

theorem kept_replay (h : t.WF) (b : InvalidationBatch) : Kept t (replay t b) := by
  rw [replay]
  induction b.ops generalizing t with
  | nil => exact h.kept_refl
  | cons op ops ih =>
    have hop := kept_applyTree h .exact op
    exact hop.trans (ih hop.wf)

theorem kept_replays (h : t.WF) (bs : List InvalidationBatch) : Kept t (bs.foldl replay t) := by
  induction bs generalizing t with
  | nil => exact h.kept_refl
  | cons b bs ih =>
    have hb := kept_replay h b
    exact hb.trans (ih hb.wf)

theorem kept_removeOther (h : t.WF) (path : Bytes) (mode : LookupMode) (keep : Option NodeId) :
    Kept t (removeOther t path mode keep) := by
  rw [removeOther]
  cases t.lookup path mode with
  | none => exact h.kept_refl
  | some victim =>
    dsimp only
    split_ifs
    · exact h.kept_remove victim
    · exact h.kept_refl

theorem kept_moveNode (h : t.WF) (mode : LookupMode) (id newParent : NodeId) (nto leaf : Bytes) :
    Kept t (moveNode t mode id newParent nto leaf) := by
  have hren := h.kept_rename id newParent leaf
  rw [moveNode]
  cases heq : t.rename id newParent leaf with
  | mk r t₁ =>
    rw [heq] at hren
    cases r with
    | ok u => exact hren
    | error e =>
      have hrem := kept_removeOther hren.wf nto mode (some id)
      exact (hren.trans hrem).trans (hrem.wf.kept_rename id newParent leaf)

theorem kept_renameTree (h : t.WF) (mode : LookupMode) (nfrom nto : Bytes) :
    Kept t (renameTree t mode nfrom nto) := by
  have hother := fun keep => kept_removeOther h nto mode keep
  rw [renameTree]
  dsimp only
  cases t.lookup nfrom mode with
  | none => exact hother none
  | some id =>
    have hrem := hother (some id)
    dsimp only
    split_ifs with hparent
    · exact hrem.trans (kept_moveNode hrem.wf ..)
    · have hens := hrem.wf.kept_ensureLoop root (components (splitParent nto).1)
      rw [← ensureDirectoryPath] at hens
      cases heq : (removeOther t nto mode (some id)).ensureDirectoryPath (splitParent nto).1 with
      | mk r t₁ =>
        rw [heq] at hens
        cases r with
        | error e => exact hrem.trans hens
        | ok newParent => exact (hrem.trans hens).trans (kept_moveNode hens.wf ..)

theorem kept_setAttributes (h : t.WF) (id : NodeId) {attr : Attributes}
    (hkind : attr.kind = (t.nodes id).attr.kind) : Kept t (t.setAttributes id attr).2 := by
  refine ⟨(h.setAttributes id attr).1, fun hd => ((h.setAttributes id attr).2 ?_).root_dir hd⟩
  by_cases hid : id = root
  · subst hid
    exact .inr (by simpa [Node.isDir, hkind] using hd)
  · exact .inl hid

theorem kept_process (h : c.tree.WF) (m : Mutation) : Kept c.tree (c.process m).tree := by
  cases m with
  | createFile path attr gen => exact h.kept_upsertPath path attr
  | write now path offset written gen =>
    simp only [process, write, noteMutation]
    cases c.tree.lookup path c.lookupMode with
    | some id => exact kept_setAttributes h id rfl
    | none => exact h.kept_upsertPath path _
  | truncate now path size gen =>
    simp only [process, truncate, noteMutation]
    cases c.tree.lookup path c.lookupMode with
    | some id => exact kept_setAttributes h id rfl
    | none => exact h.kept_refl
  | mkdir path mode gen => exact h.kept_upsertPath path _
  | unlink path gen => exact h.kept_removePath path _
  | rmdir path gen => exact h.kept_removePath path _
  | rename src dst gen =>
    simp only [process, rename]
    split_ifs
    · exact h.kept_refl
    · exact kept_renameTree h _ _ _

theorem kept_endSnapshot (h : c.tree.WF) (reply : Except Errc (List SnapshotEntry × UInt64)) :
    (c.endSnapshot reply).2.tree.WF := by
  rcases reply with e | ⟨entries, snapGen⟩
  · exact h
  · have hload := (wf_fresh.kept_loadLoop [some root] entries).wf
    rw [endSnapshot, loadSnapshot, clear]
    cases heq : loadLoop fresh [some root] entries with
    | mk r t₁ =>
      rw [heq] at hload
      cases r with
      | error e => exact hload
      | ok u => exact (kept_replays hload _).wf

/-! ### Renames -/

/-- **A rename into a directory that is there**: the source replaces what is at the destination, if
the victim is what is exactly there. -/
theorem renameTree_paths (h : t.WF) {mode : LookupMode} {ps qdir : List Bytes} {leaf : Bytes}
    {d : Attributes} (hps : ∀ c ∈ ps, validName c = true)
    (hqs : ∀ c ∈ qdir ++ [leaf], validName c = true) (hsrc : t.paths ps ≠ none)
    (hdir : t.paths qdir = some d) (hkind : d.kind = .directory) (hbelow : ¬ ps <+: qdir)
    (habove : ¬ qdir ++ [leaf] <+: ps)
    (hfrom : t.lookup ([slash].intercalate ps) mode = t.lookup ([slash].intercalate ps) .exact)
    (hvictim : ∀ id, t.lookup ([slash].intercalate ps) .exact = some id →
      removeOther t ([slash].intercalate (qdir ++ [leaf])) mode (some id) =
        removeOther t ([slash].intercalate (qdir ++ [leaf])) .exact (some id)) :
    (renameTree t mode ([slash].intercalate ps) ([slash].intercalate (qdir ++ [leaf]))).paths =
      (t.paths.cut (qdir ++ [leaf])).move ps (qdir ++ [leaf]) := by
  have hqdir : ∀ c ∈ qdir, validName c = true := fun c hc => hqs c (List.mem_append_left _ hc)
  obtain ⟨id, hid⟩ : ∃ id, t.walk ps = some id := by
    rw [paths, ne_eq, Option.map_eq_none_iff] at hsrc
    exact Option.ne_none_iff_exists'.1 hsrc
  have hwid := h.walk_iff.1 hid
  obtain ⟨np, hnp, hnpd⟩ := h.paths_eq_some.1 hdir
  -- The destination is cleared, and the source and the directory stay.
  obtain ⟨t₁, ht₁, h₁, hp₁, hw₁⟩ : ∃ t₁, removeOther t ([slash].intercalate (qdir ++ [leaf])) .exact
      (some id) = t₁ ∧ ∃ h₁ : t₁.WF, t₁.paths = t.paths.cut (qdir ++ [leaf]) ∧
      ∀ u y, ¬ qdir ++ [leaf] <+: u → h.toLTree.Walk root u y → h₁.toLTree.Walk root u y ∧
        (t₁.nodes y).attr = (t.nodes y).attr := by
    rw [removeOther, h.lookup_join hqs]
    cases hv : t.walk (qdir ++ [leaf]) with
    | none =>
      have hgone : t.paths (qdir ++ [leaf]) = none := by
        rw [paths, hv]
        rfl
      exact ⟨t, rfl, h, (h.cut_eq_self hgone).symm, fun u y _ hw => ⟨hw, rfl⟩⟩
    | some victim =>
      have hwv := h.walk_iff.1 hv
      have hne : victim ≠ id := by
        rintro rfl
        exact habove (hwv.path_unique hwid ▸ List.prefix_refl _)
      have hroot : victim ≠ root := by
        rintro rfl
        have := hwv.path_unique (.nil root)
        simp at this
      obtain ⟨kids, hr⟩ := h.rep
      obtain ⟨t₁, heq, hrem, h₁⟩ := hr.remove_spec (h.isLive_of_walk hwv) hroot
      dsimp only
      rw [if_pos (by simpa using hne), heq]
      refine ⟨t₁, rfl, h₁, hrem.paths_eq h h₁ hwv hroot, fun u y hu hw => ?_⟩
      have hw' := (hrem.walk_iff h h₁ hroot).2
        ⟨hw, fun hb => hu ((LTree.below_iff_prefix hwv hw).1 hb)⟩
      exact ⟨hw', (hrem.same y (h₁.isLive_of_walk hw')).attr⟩
  have hdirs : ¬ qdir ++ [leaf] <+: qdir := fun hpre => by
    have := hpre.length_le
    rw [List.length_append, List.length_singleton] at this
    omega
  obtain ⟨hid₁, -⟩ := hw₁ ps id habove hwid
  obtain ⟨hnp₁, hnpa⟩ := hw₁ qdir np hdirs hnp
  have hnpdir : (t₁.nodes np).isDir = true := by
    rw [Node.isDir, hnpa, hnpd, hkind]
    rfl
  have hpar : (if [slash].intercalate qdir = [] then ((.ok root : Except Errc NodeId), t₁)
      else t₁.ensureDirectoryPath ([slash].intercalate qdir)) = (.ok np, t₁) := by
    have hparts := parts_join hqdir
    split_ifs with hnil
    · rw [hnil] at hparts
      have hq : qdir = [] := hparts.symm
      rw [hq] at hnp₁
      rw [LTree.walk_nil_iff.1 hnp₁]
    · rw [ensureDirectoryPath_eq, hparts]
      exact h₁.ensureLoop_existing hqdir hnp₁ hnpdir
  obtain ⟨kids, hr⟩ := h₁.rep
  have hmov : Movable t₁ kids id np leaf := by
    refine ⟨h₁.isLive_of_walk hid₁, h₁.isLive_of_walk hnp₁, ?_, hnpdir, hqs leaf (by simp), ?_, ?_⟩
    · rintro rfl
      rw [hid₁.path_unique (.nil root)] at hbelow
      exact hbelow List.nil_prefix
    · rw [← h₁.below_iff (h₁.isLive_of_walk hnp₁), LTree.below_iff_prefix hid₁ hnp₁]
      exact hbelow
    · intro c hc hname
      have hwc := hnp₁.snoc (T := h₁.toLTree) ((hr.shaped.mem_order np c).1 hc)
      rw [show h₁.toLTree.label c = leaf from hname] at hwc
      have hgone : t₁.paths (qdir ++ [leaf]) = none := by
        rw [hp₁, PathMap.cut_of_below (List.prefix_refl _)]
      exact absurd hwc (h₁.paths_eq_none.1 hgone c)
  obtain ⟨t₂, heq, -⟩ | ⟨e, t₂, -, hnot, -⟩ := hr.rename_spec id np leaf
  · rw [renameTree, hfrom, h.lookup_join hps, hid]
    dsimp only
    rw [hvictim id (by rw [h.lookup_join hps, hid]), ht₁,
      splitParent_intercalate qdir (isPart_of_validName (hqs leaf (by simp)))]
    dsimp only
    rw [hpar]
    dsimp only
    rw [moveNode, heq]
    dsimp only
    rw [h₁.rename_paths heq, (h₁.walk_location hmov.live).path_unique hid₁,
      (h₁.walk_location hmov.parent_live).path_unique hnp₁, hp₁]
  · exact absurd hmov hnot

/-! ### The table of mutations -/

theorem parts_eq_of_normalizePath_eq (h : normalizePath p = normalizePath q) :
    parts p = parts q := by
  rw [← parts_normalizePath p, h, parts_normalizePath]

theorem noteMutation_lookup (path key : Bytes) (gen : UInt64) :
    (c.noteMutation path gen).localMutations.lookup key =
        (if key = normalizePath path then some gen else c.localMutations.lookup key) ∨
      (kMaxLocalMutations < c.localMutations.entries.length ∧
        (c.noteMutation path gen).localMutations.lookup key = none) := by
  rw [noteMutation]
  dsimp only
  by_cases hkey : key = normalizePath path
  · rw [hkey, AList.lookup_insert, if_pos rfl]
    exact .inl rfl
  · rw [AList.lookup_insert_ne hkey, if_neg hkey]
    split_ifs with hfull
    · exact .inr ⟨hfull, rfl⟩
    · exact .inl rfl

theorem noteMutation_length (path : Bytes) (gen : UInt64) :
    (c.noteMutation path gen).localMutations.entries.length ≤
      c.localMutations.entries.length + 1 := by
  have hlen : ∀ table : AList (fun _ : Bytes => UInt64),
      (table.insert (normalizePath path) gen).entries.length ≤ table.entries.length + 1 := by
    intro table
    rw [AList.entries_insert, List.length_cons]
    exact Nat.succ_le_succ (List.kerase_sublist _ _).length_le
  rw [noteMutation]
  dsimp only
  split_ifs
  · exact (hlen ∅).trans (Nat.succ_le_succ (Nat.zero_le _))
  · exact hlen _

/-- The generation that a mutation notes for a path, if it names the path. -/
def Mutation.notes (m : Mutation) (key : Bytes) : Option UInt64 :=
  match m with
  | .createFile path _ gen | .write _ path _ _ gen | .truncate _ path _ gen | .mkdir path _ gen
  | .unlink path gen | .rmdir path gen => if key = normalizePath path then some gen else none
  | .rename src dst gen =>
    if normalizePath src ≠ normalizePath dst ∧ (key = normalizePath src ∨ key = normalizePath dst)
    then some gen else none

/-- **Handling a reply** notes the paths of the mutation; a full table is cleared before. -/
theorem process_lookup (m : Mutation) (key : Bytes) :
    (c.process m).localMutations.lookup key =
        (m.notes key).or (c.localMutations.lookup key) ∨
      (kMaxLocalMutations ≤ c.localMutations.entries.length ∧
        (c.process m).localMutations.lookup key = none) := by
  have hone : ∀ (c' : RemoteRoot) (path : Bytes) (gen : UInt64),
      c'.localMutations = c.localMutations →
      (c'.noteMutation path gen).localMutations.lookup key =
        (if key = normalizePath path then some gen else none).or (c.localMutations.lookup key) ∨
      (kMaxLocalMutations ≤ c.localMutations.entries.length ∧
        (c'.noteMutation path gen).localMutations.lookup key = none) := by
    intro c' path gen heq
    rcases noteMutation_lookup (c := c') path key gen with h | ⟨hfull, h⟩
    · rw [h, heq]
      left
      split_ifs <;> rfl
    · rw [heq] at hfull
      exact .inr ⟨hfull.le, h⟩
  cases m with
  | createFile path attr gen => exact hone _ path gen rfl
  | write now path offset written gen => exact hone _ path gen rfl
  | truncate now path size gen => exact hone _ path gen rfl
  | mkdir path mode gen => exact hone _ path gen rfl
  | unlink path gen => exact hone _ path gen rfl
  | rmdir path gen => exact hone _ path gen rfl
  | rename src dst gen =>
    simp only [process, rename, Mutation.notes]
    by_cases heq : normalizePath src = normalizePath dst
    · rw [if_pos heq, if_neg (by tauto)]
      exact .inl rfl
    · rw [if_neg heq]
      dsimp only
      have hlen := noteMutation_length (c := c) (normalizePath src) gen
      rcases noteMutation_lookup (c := c.noteMutation (normalizePath src) gen)
        (normalizePath dst) key gen with hto | ⟨hfull, hto⟩
      · rcases noteMutation_lookup (c := c) (normalizePath src) key gen with hfrom | ⟨hfull, hfrom⟩
        · rw [hto, hfrom, normalizePath_idem, normalizePath_idem]
          left
          by_cases hs : key = normalizePath src <;> by_cases hd : key = normalizePath dst <;>
            simp [hs, hd, heq]
        · by_cases hd : key = normalizePath dst
          · rw [hto, normalizePath_idem, if_pos hd, if_pos ⟨heq, .inr hd⟩]
            exact .inl rfl
          · rw [hto, normalizePath_idem, if_neg hd]
            exact .inr ⟨hfull.le, hfrom⟩
      · exact .inr ⟨by omega, hto⟩

/-- **The stale-op filter.**  A path keeps its entry until a newer batch names it. -/
theorem admits_lookup {op : InvalidationOp} {c' : RemoteRoot} (h : c.admits gen op = some c')
    {H : UInt64} (hkey : c.localMutations.lookup key = some H)
    (hold : gen ≤ H ∨ op.kind = .rescan ∨ op.path ≠ key) :
    c'.localMutations.lookup key = some H := by
  rw [admits] at h
  split_ifs at h with hres
  · cases h
    exact hkey
  · cases hl : c.localMutations.lookup op.path with
    | none =>
      rw [hl] at h
      cases h
      exact hkey
    | some acked =>
      rw [hl] at h
      dsimp only at h
      split_ifs at h with hstale
      cases h
      have hne : key ≠ op.path := by
        rintro rfl
        rw [hkey] at hl
        cases hl
        rcases hold with hle | hk | hp
        · exact hstale hle
        · exact hres hk
        · exact hp rfl
      rw [← hkey]
      exact AList.lookup_erase_ne hne

theorem admits_tree {op : InvalidationOp} {c' : RemoteRoot} (h : c.admits gen op = some c') :
    c'.tree = c.tree ∧ c'.lookupMode = c.lookupMode := by
  rw [admits] at h
  split_ifs at h
  · cases h
    exact ⟨rfl, rfl⟩
  · cases hl : c.localMutations.lookup op.path with
    | none =>
      rw [hl] at h
      cases h
      exact ⟨rfl, rfl⟩
    | some acked =>
      rw [hl] at h
      dsimp only at h
      split_ifs at h
      cases h
      exact ⟨rfl, rfl⟩

theorem applyOps_invariant (I : RemoteRoot → Prop) {ops : List InvalidationOp}
    (hop : ∀ c c' : RemoteRoot, ∀ op ∈ ops, I c → c.admits gen op = some c' → I (c'.perform op))
    (h : I c) (applied : List AppliedChange) :
    I (ops.foldl (applyOp gen) (c, applied)).1 := by
  induction ops generalizing c applied with
  | nil => exact h
  | cons op ops ih =>
    have hops := fun c c' op' hop' => hop c c' op' (List.mem_cons_of_mem op hop')
    rw [List.foldl_cons, applyOp]
    cases hadm : c.admits gen op with
    | none => exact ih hops h applied
    | some c' => exact ih hops (hop c c' op List.mem_cons_self h hadm) _

theorem wf_applyOps (h : c.tree.WF) (gen : UInt64) (ops : List InvalidationOp)
    (applied : List AppliedChange) : (ops.foldl (applyOp gen) (c, applied)).1.tree.WF := by
  refine applyOps_invariant (fun c => c.tree.WF) (fun c c' op _ hc hadm => ?_) h applied
  rw [← (admits_tree hadm).1] at hc
  exact (kept_applyTree hc _ op).wf

/-- **A batch without mutations of the client**: no op is held back. -/
theorem applyOps_eq (h : c.localMutations = ∅) (gen : UInt64)
    (ops : List InvalidationOp) (applied : List AppliedChange) :
    (ops.foldl (applyOp gen) (c, applied)).1 =
      { c with
        tree := ops.foldl (fun t op => applyTree t c.lookupMode op) c.tree
        rsRequested := c.rsRequested || ops.any (·.kind == .rescan) } := by
  induction ops generalizing c applied with
  | nil => rw [List.foldl_nil, List.foldl_nil, List.any_nil, Bool.or_false]
  | cons op ops ih =>
    have hadm : c.admits gen op = some c := by
      rw [admits, h]
      split_ifs <;> rfl
    rw [List.foldl_cons, applyOp]
    dsimp only
    rw [hadm]
    refine (ih (c := c.perform op) h _).trans ?_
    rw [List.foldl_cons, List.any_cons, perform, Bool.or_assoc]

@[simp] theorem record_tree (c : RemoteRoot) (b : InvalidationBatch) :
    (c.record b).tree = c.tree := by
  rw [record]
  split_ifs <;> rfl

@[simp] theorem record_localMutations (c : RemoteRoot) (b : InvalidationBatch) :
    (c.record b).localMutations = c.localMutations := by
  rw [record]
  split_ifs <;> rfl

@[simp] theorem record_lookupMode (c : RemoteRoot) (b : InvalidationBatch) :
    (c.record b).lookupMode = c.lookupMode := by
  rw [record]
  split_ifs <;> rfl

theorem applyInvalidation_keeps (c : RemoteRoot) (h : c.localMutations = ∅)
    (b : InvalidationBatch) :
    (c.applyInvalidation b).1.tree =
        b.ops.foldl (fun t op => applyTree t c.lookupMode op) c.tree ∧
      (c.applyInvalidation b).1.localMutations = ∅ ∧
      (c.applyInvalidation b).1.lookupMode = c.lookupMode := by
  rw [applyInvalidation]
  dsimp only
  rw [record_tree, record_localMutations, record_lookupMode, applyOps_eq h]
  exact ⟨rfl, h, rfl⟩

theorem kept_applyInvalidation (h : c.tree.WF) (batch : InvalidationBatch) :
    Kept c.tree (c.applyInvalidation batch).1.tree := by
  rw [applyInvalidation]
  dsimp only
  rw [record_tree]
  refine applyOps_invariant (fun c' => Kept c.tree c'.tree) (fun c₁ c₂ op _ hk hadm => ?_)
    h.kept_refl []
  rw [← (admits_tree hadm).1] at hk
  exact hk.trans (kept_applyTree hk.wf _ op)

theorem applyInvalidations_tree (h : c.localMutations = ∅) (bs : List InvalidationBatch) :
    (bs.foldl (fun c b => (c.applyInvalidation b).1) c).tree =
      (bs.flatMap (·.ops)).foldl (fun t op => applyTree t c.lookupMode op) c.tree := by
  induction bs generalizing c with
  | nil => rfl
  | cons b bs ih =>
    obtain ⟨htree, hmut, hmode⟩ := c.applyInvalidation_keeps h b
    rw [List.foldl_cons, ih hmut, htree, hmode, List.flatMap_cons, List.foldl_append]

end RemoteRoot

end WslDrive
