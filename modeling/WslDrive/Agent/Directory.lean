import WslDrive.Agent.Mirror

/-!
# The files of one directory in the mirror

The client's steps on the files of one fixed directory, in terms of a map from their names.

* `Directory.Holds` — the mirror has the directory, and files in it;
* `applyOp_spec` — an op of a batch sets one name or is held back.
-/

namespace WslDrive

open MetadataTree Path

/-- A directory of the served tree, by the names on the way to it. -/
structure Directory where
  names : List Bytes
  valid : ∀ c ∈ names, validName c = true

namespace Directory

variable (d : Directory)

/-- The path of a file in the directory. -/
def path (n : Bytes) : Bytes := [slash].intercalate (d.names ++ [n])

/-- The entries of the directory in a tree. -/
def files (t : MetadataTree) (n : Bytes) : Option Attributes := t.paths (d.names ++ [n])

variable {d} {n m : Bytes} {t t' : MetadataTree} {attr : Attributes}

theorem valid_snoc (hn : validName n = true) : ∀ c ∈ d.names ++ [n], validName c = true := by
  intro c hc
  rcases List.mem_append.1 hc with hc | hc
  · exact d.valid c hc
  · rw [List.mem_singleton.1 hc]
    exact hn

theorem parts_path (hn : validName n = true) : parts (d.path n) = d.names ++ [n] :=
  parts_join (valid_snoc hn)

theorem normalizePath_path (hn : validName n = true) : normalizePath (d.path n) = d.path n := by
  rw [normalizePath_eq, parts_path hn, path]

theorem path_inj (hn : validName n = true) (hm : validName m = true)
    (h : d.path n = d.path m) : n = m := by
  have hparts := parts_path (d := d) hn
  rw [h, parts_path hm] at hparts
  simpa using hparts.symm

theorem dotdot_notMem (hn : validName n = true) : dotdot ∉ components (d.path n) :=
  dotdot_notMem_components (by rw [parts_path hn]; exact valid_snoc hn)

theorem not_prefix_names : ¬ d.names ++ [n] <+: d.names := by
  intro h
  have := h.length_le
  rw [List.length_append, List.length_singleton] at this
  omega

theorem prefix_snoc_iff : d.names ++ [n] <+: d.names ++ [m] ↔ m = n := by
  constructor
  · intro h
    have := h.eq_of_length (by simp)
    simpa using this.symm
  · rintro rfl
    exact List.prefix_refl _

/-- The tree has the directory, and in it only what is not a directory. -/
structure Holds (d : Directory) (t : MetadataTree) : Prop where
  wf : t.WF
  root_dir : (t.nodes root).isDir = true
  dir : ∃ a, t.paths d.names = some a ∧ a.kind = .directory
  file : ∀ n a, d.files t n = some a → a.kind ≠ .directory

/-- A step that changes entries of the directory and keeps the rest of what is held. -/
structure Becomes (d : Directory) (t t' : MetadataTree) (g : Bytes → Option Attributes) : Prop where
  kept : Kept t t'
  dir : t'.paths d.names = t.paths d.names
  files : d.files t' = g

theorem Becomes.holds {g : Bytes → Option Attributes} (h : Becomes d t t' g) (ht : d.Holds t)
    (hg : ∀ n a, g n = some a → a.kind ≠ .directory) : d.Holds t' where
  wf := h.kept.wf
  root_dir := h.kept.root_dir ht.root_dir
  dir := by
    rw [h.dir]
    exact ht.dir
  file n a ha := hg n a (by rw [← h.files]; exact ha)

theorem entries_update {P : Bytes → Attributes → Prop} {f : Bytes → Option Attributes}
    (hf : ∀ n a, f n = some a → P n a) {v : Option Attributes} (hv : ∀ a, v = some a → P m a) :
    ∀ n a, Function.update f m v n = some a → P n a :=
  (Function.forall_update_iff f fun n v => ∀ a, v = some a → P n a).2 ⟨hv, fun n _ => hf n⟩

theorem becomes_set (hkept : Kept t t') (hp : t'.paths = t.paths.set (d.names ++ [n]) attr) :
    Becomes d t t' (Function.update (d.files t) n (some attr)) := by
  refine ⟨hkept, ?_, ?_⟩
  · rw [hp, PathMap.set_of_not_below not_prefix_names]
  · funext m
    rw [files, hp, PathMap.set]
    by_cases hm : m = n
    · rw [hm, if_pos rfl, Function.update_self]
    · rw [if_neg (by simpa using hm), if_neg fun h => hm (prefix_snoc_iff.1 h.2),
        Function.update_of_ne hm, files]

theorem becomes_cut (hkept : Kept t t') (hp : t'.paths = t.paths.cut (d.names ++ [n])) :
    Becomes d t t' (Function.update (d.files t) n none) := by
  refine ⟨hkept, ?_, ?_⟩
  · rw [hp, PathMap.cut_of_not_below not_prefix_names]
  · funext m
    rw [files, hp, PathMap.cut]
    by_cases hm : m = n
    · rw [hm, if_pos (List.prefix_refl _), Function.update_self]
    · rw [if_neg fun h => hm (prefix_snoc_iff.1 h), Function.update_of_ne hm, files]

theorem Holds.upsertPath (h : d.Holds t) (hn : validName n = true) :
    Becomes d t (t.upsertPath (d.path n) attr).2
      (Function.update (d.files t) n (some attr)) := by
  obtain ⟨a, ha, hk⟩ := h.dir
  refine becomes_set (h.wf.kept_upsertPath _ _) ?_
  have hparts := parts_path (d := d) hn
  rw [h.wf.upsertPath_open h.root_dir (by rw [hparts]; simp)
    (by rw [hparts]; exact valid_snoc hn), hparts, List.dropLast_concat,
    h.wf.fill_eq_self ha (List.prefix_refl _)]
  -- Everything on the way has the directory below it.
  intro q b hq hb
  rw [hparts, List.dropLast_concat] at hq
  by_contra hkb
  obtain ⟨u, hu⟩ := hq
  by_cases hnil : u = []
  · rw [hnil, List.append_nil] at hu
    rw [hu, ha] at hb
    cases hb
    exact hkb hk
  · rw [← hu, h.wf.paths_below_eq_none hb hkb hnil] at ha
    cases ha

theorem Holds.removePath (h : d.Holds t) (hn : validName n = true) :
    Becomes d t (t.removePath (d.path n) .exact).2 (Function.update (d.files t) n none) := by
  have hparts := parts_path (d := d) hn
  refine becomes_cut (h.wf.kept_removePath _ _) ?_
  rw [h.wf.removePath_exact (dotdot_notMem hn) (by rw [hparts]; simp), hparts]

theorem Holds.lookup (h : d.Holds t) (hn : validName n = true) :
    t.lookup (d.path n) .exact = t.walk (d.names ++ [n]) :=
  h.wf.lookup_join (valid_snoc hn)

theorem Holds.setAttributes (h : d.Holds t) {id : NodeId}
    (hid : t.walk (d.names ++ [n]) = some id) (hattr : attr.kind = (t.nodes id).attr.kind) :
    Becomes d t (t.setAttributes id attr).2 (Function.update (d.files t) n (some attr)) := by
  have hw := h.wf.walk_iff.1 hid
  have hlive := h.wf.isLive_of_walk hw
  obtain ⟨kids, hr⟩ := h.wf.rep
  obtain ⟨t', heq, -⟩ := hr.setAttributes_spec hlive attr
  refine becomes_set (RemoteRoot.kept_setAttributes h.wf id hattr) ?_
  rw [heq, h.wf.setAttributes_paths heq, (h.wf.walk_location hlive).path_unique hw]

theorem Holds.renameTree (h : d.Holds t) (hn : validName n = true) (hm : validName m = true)
    (hne : n ≠ m) (hsrc : d.files t n ≠ none) :
    Becomes d t (RemoteRoot.renameTree t .exact (d.path n) (d.path m))
      (Function.update (Function.update (d.files t) m (d.files t n)) n none) := by
  obtain ⟨a, ha, hk⟩ := h.dir
  have hp := RemoteRoot.renameTree_paths h.wf (valid_snoc hn) (valid_snoc (d := d) hm) hsrc ha hk
    not_prefix_names (fun hpre => hne (prefix_snoc_iff.1 hpre)) rfl fun _ _ => rfl
  have hdir : ∀ k, ¬ d.names ++ [k] <+: d.names := fun k => not_prefix_names
  refine ⟨RemoteRoot.kept_renameTree h.wf _ _ _, ?_, ?_⟩
  · rw [path, path, hp, PathMap.move, if_neg (hdir m), if_neg (hdir n),
      PathMap.cut_of_not_below (hdir m)]
  · funext k
    rw [files, path, path, hp, PathMap.move]
    by_cases hkm : k = m
    · subst hkm
      rw [if_pos (List.prefix_refl _), List.drop_length, List.append_nil,
        PathMap.cut_of_not_below fun hpre => hne (prefix_snoc_iff.1 hpre),
        Function.update_of_ne hne.symm, Function.update_self, files]
    · rw [if_neg fun hpre => hkm (prefix_snoc_iff.1 hpre)]
      by_cases hkn : k = n
      · rw [hkn, if_pos (List.prefix_refl _), Function.update_self]
      · rw [if_neg fun hpre => hkn (prefix_snoc_iff.1 hpre),
          PathMap.cut_of_not_below fun hpre => hkm (prefix_snoc_iff.1 hpre),
          Function.update_of_ne hkn, Function.update_of_ne hkm, files]

/-! ### Ops of a batch -/

/-- An op about a file of the directory. -/
structure About (d : Directory) (n : Bytes) (op : InvalidationOp) : Prop where
  valid : validName n = true
  path : op.path = d.path n
  kind : op.kind = .upsert ∧ op.attr.kind = .file ∨ op.kind = .remove

variable {op : InvalidationOp} {c : RemoteRoot}

theorem About.kind_ne_rescan (h : d.About n op) : op.kind ≠ .rescan := by
  rcases h.kind with ⟨h, -⟩ | h <;> rw [h] <;> decide

/-- What an op makes of its file. -/
def value (op : InvalidationOp) : Option Attributes :=
  if op.kind = .upsert then some op.attr else none

theorem About.value_kind (h : d.About n op) {a : Attributes} (ha : value op = some a) :
    a.kind ≠ .directory := by
  rw [value] at ha
  rcases h.kind with ⟨hk, hf⟩ | hk
  · rw [if_pos hk] at ha
    cases ha
    rw [hf]
    decide
  · rw [if_neg (by rw [hk]; decide)] at ha
    cases ha

theorem Holds.applyTree (h : d.Holds t) (hop : d.About n op) :
    Becomes d t (RemoteRoot.applyTree t .exact op)
      (Function.update (d.files t) n (value op)) := by
  rw [RemoteRoot.applyTree, value, hop.path]
  rcases hop.kind with ⟨hk, -⟩ | hk
  · rw [hk, if_pos rfl]
    exact h.upsertPath hop.valid
  · rw [hk, if_neg (by decide)]
    exact h.removePath hop.valid

/-- The client's mirror holds the directory and is read with exact names. -/
structure Mirrors (d : Directory) (c : RemoteRoot) : Prop where
  holds : d.Holds c.tree
  mode : c.lookupMode = .exact

/-- The generation up to which the client refuses ops about a file. -/
def refusal (d : Directory) (c : RemoteRoot) (n : Bytes) : Option UInt64 :=
  c.localMutations.lookup (d.path n)

theorem admits_eq (hop : d.About n op) (gen : UInt64) : c.admits gen op =
    match d.refusal c n with
    | none => some c
    | some acked => if gen ≤ acked then none
      else some { c with localMutations := c.localMutations.erase (d.path n) } := by
  rw [RemoteRoot.admits, if_neg hop.kind_ne_rescan, hop.path]
  rfl

/-- **An op about a file** is refused, or sets the file and lifts the refusal. -/
theorem applyOp_spec (h : d.Mirrors c) (hop : d.About n op) (gen : UInt64)
    (applied : List RemoteRoot.AppliedChange) :
    let c' := (RemoteRoot.applyOp gen (c, applied) op).1
    if (d.refusal c n).any (gen ≤ ·) then c' = c
    else d.Mirrors c' ∧ d.files c'.tree = Function.update (d.files c.tree) n (value op) ∧
      ∀ m, validName m = true →
        d.refusal c' m = if m = n then none else d.refusal c m := by
  intro c'
  have hperf : ∀ c₁ : RemoteRoot, c₁.tree = c.tree → c₁.lookupMode = c.lookupMode →
      d.Mirrors (c₁.perform op) ∧
        d.files (c₁.perform op).tree = Function.update (d.files c.tree) n (value op) := by
    intro c₁ htree hmode
    have hb := h.holds.applyTree hop
    rw [RemoteRoot.perform, htree, hmode, h.mode]
    exact ⟨⟨hb.holds h.holds (entries_update h.holds.file fun _ => hop.value_kind), rfl⟩, hb.files⟩
  have hadm : c.admits gen op = _ := admits_eq hop gen
  cases href : d.refusal c n with
  | none =>
    rw [href] at hadm
    have hc' : c' = c.perform op := by simp only [c', RemoteRoot.applyOp, hadm]
    rw [if_neg (by simp), hc']
    refine ⟨(hperf c rfl rfl).1, (hperf c rfl rfl).2, fun m _ => ?_⟩
    split_ifs with hm
    · rw [hm]
      exact href
    · rfl
  | some acked =>
    rw [href] at hadm
    dsimp only at hadm
    split_ifs with hle
    · rw [if_pos (by simpa using hle)] at hadm
      simp only [c', RemoteRoot.applyOp, hadm]
    · rw [if_neg (by simpa using hle)] at hadm
      set c₁ : RemoteRoot :=
        { c with localMutations := c.localMutations.erase (d.path n) } with hc₁
      have hc' : c' = c₁.perform op := by simp only [c', RemoteRoot.applyOp, hadm]
      rw [hc']
      refine ⟨(hperf c₁ rfl rfl).1, (hperf c₁ rfl rfl).2, fun m hm => ?_⟩
      split_ifs with hmn
      · rw [hmn]
        exact AList.lookup_erase _ _
      · exact AList.lookup_erase_ne fun heq => hmn (path_inj hm hop.valid heq)

end Directory

end WslDrive
