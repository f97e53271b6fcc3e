import WslDrive.Core.Tree.Refine

/-!
# Operations on paths whose result is ignored

The client calls `upsert_path` and `remove_path` and does not look at the results, so the mirror
depends on what a failure leaves behind, too.

* `WF.pathOf_eq`, `WF.lookup_pathOf` — the path of a node, and the node of that path;
* `WF.upsertPath_open`, `WF.upsertPath_blocked` — with valid names `upsert_path` fails exactly if
  something on the way is not a directory, and then changes nothing;
* `WF.removePath_exact` — `remove_path` takes away a path and all below it;
* `WF.upsertPath_new`, `WF.removePath_new` — which paths can be new afterwards.
-/

namespace WslDrive

open MetadataTree Path

namespace PathMap

/-- Everything on the way to a path is a directory or missing. -/
def Open (M : PathMap) (p : List Bytes) : Prop :=
  ∀ q a, q <+: p.dropLast → M q = some a → a.kind = .directory

end PathMap

namespace MetadataTree

variable {t : MetadataTree} {id : NodeId} {attr : Attributes} {s : List Bytes} {path : Bytes}

/-! ### Valid names -/

theorem isPart_of_validName {c : Bytes} (h : validName c = true) : IsPart c := by
  simp only [validName, Bool.and_eq_true, Bool.not_eq_true', Bool.or_eq_false_iff,
    beq_eq_false_iff_ne, List.all_eq_true] at h
  exact ⟨h.1.1.1, h.1.1.2, fun b hb => (h.2 b hb).1⟩

theorem parts_join {ps : List Bytes} (h : ∀ c ∈ ps, validName c = true) :
    parts ([slash].intercalate ps) = ps :=
  parts_intercalate fun c hc => isPart_of_validName (h c hc)

theorem dotdot_notMem_components (h : ∀ c ∈ parts path, validName c = true) :
    dotdot ∉ components path := by
  intro hmem
  have := h dotdot (List.mem_filter.2 ⟨hmem, by decide⟩)
  exact absurd this (by decide)

theorem WF.validName_of_paths (h : t.WF) {n : Bytes} (hs : t.paths (s ++ [n]) ≠ none) :
    validName n = true := by
  obtain ⟨a, ha⟩ := Option.ne_none_iff_exists'.1 hs
  obtain ⟨y, hy, -⟩ := h.paths_eq_some.1 ha
  obtain ⟨z, -, hedge, hname⟩ := LTree.walk_snoc_iff.1 hy
  obtain ⟨kids, hr⟩ := h.rep
  obtain ⟨nid, hnid⟩ := Option.isSome_iff_exists.1 hedge.1
  rw [← hname, show h.toLTree.label y = t.names.view nid from name_eq hnid]
  refine hr.named.valid y nid hnid ?_
  rintro rfl
  exact h.toLTree.not_edge_root z hedge

theorem WF.validNames_of_paths (h : t.WF) (hs : t.paths s ≠ none) :
    ∀ c ∈ s, validName c = true := by
  induction s using List.reverseRecOn with
  | nil => exact nofun
  | append_singleton s n ih =>
    intro c hc
    rcases List.mem_append.1 hc with hc | hc
    · exact ih (fun hnone => hs (h.paths_append_eq_none hnone [n])) c hc
    · rw [List.mem_singleton.1 hc]
      exact h.validName_of_paths hs

/-! ### The path of a node -/

theorem WF.validNames_location (h : t.WF) (hid : t.isLive id) :
    ∀ c ∈ t.location id, validName c = true := by
  refine h.validNames_of_paths fun hnone => ?_
  exact h.paths_eq_none.1 hnone id (h.walk_location hid)

theorem foldl_join (sep : UInt8) {names : List Bytes} (h : ∀ n ∈ names, n ≠ []) {out : Bytes}
    (hout : out ≠ []) :
    names.foldl (fun out n => if out ≠ [] then out ++ sep :: n else out ++ n) out =
      [sep].intercalate (out :: names) := by
  induction names generalizing out with
  | nil => simp
  | cons n names ih =>
    rw [List.foldl_cons, if_pos hout, ih (fun m hm => h m (List.mem_cons_of_mem n hm)) (by simp),
      List.intercalate_cons_cons]
    cases names <;> simp

theorem WF.pathOf_join (h : t.WF) (hid : t.isLive id) (sep : UInt8) :
    t.pathOf id sep = [sep].intercalate (t.location id) := by
  obtain ⟨kids, hr⟩ := h.rep
  have hnames := h.validNames_location hid
  rw [pathOf, hr.allocated.valid_iff.2 hid]
  by_cases hroot : id = root
  · subst hroot
    rw [(h.walk_location hid).path_unique (.nil root)]
    rfl
  rw [if_neg (by simpa using hroot), ← List.foldl_map (f := t.name)
    (g := fun out n => if out ≠ [] then out ++ sep :: n else out ++ n)]
  rw [location] at hnames ⊢
  have hne : ∀ n ∈ (t.chain t.size id).map t.name, n ≠ [] := fun n hn =>
    (isPart_of_validName (hnames n hn)).1
  cases hcs : (t.chain t.size id).map t.name with
  | nil => rfl
  | cons c cs =>
    rw [hcs] at hne
    rw [List.foldl_cons, if_neg (by simp)]
    exact foldl_join sep (fun n hn => hne n (List.mem_cons_of_mem c hn)) (hne c List.mem_cons_self)

theorem WF.pathOf_eq (h : t.WF) (hid : t.isLive id) :
    t.pathOf id slash = [slash].intercalate (t.location id) :=
  h.pathOf_join hid slash

theorem WF.lookup_join (h : t.WF) {ps : List Bytes} (hps : ∀ c ∈ ps, validName c = true) :
    t.lookup ([slash].intercalate ps) .exact = t.walk ps := by
  have hparts := parts_join hps
  rw [h.lookup_eq (dotdot_notMem_components (by rw [hparts]; exact hps)), hparts]

theorem WF.lookup_pathOf (h : t.WF) (hid : t.isLive id) :
    t.lookup (t.pathOf id slash) .exact = some id := by
  rw [h.pathOf_eq hid, h.lookup_join (h.validNames_location hid), h.walk_iff]
  exact h.walk_location hid

theorem WF.pathOf_ne_nil (h : t.WF) (hid : t.isLive id) (hne : id ≠ root) :
    t.pathOf id slash ≠ [] := by
  intro hnil
  have := h.lookup_pathOf hid
  rw [hnil] at this
  exact hne (Option.some.inj this).symm

/-! ### Directories -/

theorem WF.isDir_of_edge (h : t.WF) {x y : NodeId} (hedge : h.toLTree.edge x y) :
    (t.nodes x).isDir = true := by
  obtain ⟨kids, hr⟩ := h.rep
  by_contra hdir
  have hmem := (hr.shaped.mem_order x y).2 hedge
  rw [hr.kids_eq_nil (by simpa using hdir)] at hmem
  cases hmem

theorem WF.isDir_root (h : t.WF) {a : Attributes} (hroot : t.paths [] = some a)
    (hk : a.kind = .directory) : (t.nodes root).isDir = true := by
  obtain ⟨x, hx, rfl⟩ := h.paths_eq_some.1 hroot
  rw [← LTree.walk_nil_iff.1 hx] at hk
  simpa [Node.isDir] using hk

theorem WF.paths_below_eq_none (h : t.WF) {a : Attributes} (hs : t.paths s = some a)
    (hk : a.kind ≠ .directory) {u : List Bytes} (hu : u ≠ []) : t.paths (s ++ u) = none := by
  obtain ⟨x, hx, rfl⟩ := h.paths_eq_some.1 hs
  rw [h.paths_eq_none]
  intro y hy
  obtain ⟨n, v, rfl⟩ := List.exists_cons_of_ne_nil hu
  obtain ⟨z, hz, hzy⟩ := LTree.walk_append_iff.1 hy
  obtain rfl := hx.unique hz
  obtain ⟨w, hw, -⟩ := LTree.walk_cons_iff.1 hzy
  exact hk (by simpa [Node.isDir] using h.isDir_of_edge hw)

theorem WF.fill_eq_self (h : t.WF) {a : Attributes} {u : List Bytes} (hs : t.paths s = some a)
    (hu : u <+: s) : t.paths.fill u = t.paths := by
  obtain ⟨x, hx, -⟩ := h.paths_eq_some.1 hs
  obtain ⟨v, rfl⟩ := hu
  obtain ⟨y, hy, -⟩ := LTree.walk_append_iff.1 hx
  exact h.fill_walk hy

theorem WF.ensureLoop_existing (h : t.WF) {x y : NodeId} {comps : List Bytes}
    (hcomps : ∀ c ∈ comps, validName c = true) (hw : h.toLTree.Walk x comps y)
    (hdir : (t.nodes y).isDir = true) : ensureLoop t x comps = (.ok y, t) := by
  induction comps generalizing x with
  | nil => rw [LTree.walk_nil_iff.1 hw, ensureLoop]
  | cons comp comps ih =>
    obtain ⟨c, hc, hname, hrest⟩ := LTree.walk_cons_iff.1 hw
    have hvalid := hcomps comp List.mem_cons_self
    have hne : ¬ (comp = [] ∨ comp = dot) ∧ comp ≠ dotdot := by
      refine ⟨?_, ?_⟩ <;> rintro h <;> simp_all [validName]
    have hcdir : (t.nodes c).isDir = true := by
      cases comps with
      | nil =>
        rw [LTree.walk_nil_iff.1 hrest]
        exact hdir
      | cons comp' comps =>
        obtain ⟨d, hd, -⟩ := LTree.walk_cons_iff.1 hrest
        exact h.isDir_of_edge hd
    rw [ensureLoop, if_neg hne.1, if_neg hne.2, h.findChild_iff.2 ⟨hc, hname⟩]
    dsimp only
    rw [if_neg (by simp [hcdir])]
    exact ih (fun c hc => hcomps c (List.mem_cons_of_mem comp hc)) hrest

/-! ### `upsert_path` -/

section

variable (h : t.WF) (hroot : (t.nodes root).isDir = true) (hne : parts path ≠ [])
  (hvalid : ∀ c ∈ parts path, validName c = true)

include h hroot hne hvalid

theorem WF.upsertPath_open (hopen : t.paths.Open (parts path)) :
    (t.upsertPath path attr).2.paths =
      (t.paths.fill (parts path).dropLast).set (parts path) attr := by
  obtain ⟨id, t', heq, hp⟩ | ⟨e, t', u, -, -, -, hblock⟩ := h.upsertPath_spec path attr
  · rw [heq]
    exact hp
  · obtain ⟨c, a, hc, ha, hk⟩ := hblock hne hvalid hroot
    exact absurd (hopen _ a hc ha) hk

/-- **`upsert_path` behind something that is not a directory** changes nothing. -/
theorem WF.upsertPath_blocked (hopen : ¬ t.paths.Open (parts path)) :
    (t.upsertPath path attr).2.paths = t.paths := by
  have hwf := (h.kept_upsertPath path attr).wf
  obtain ⟨id, t', heq, hp⟩ | ⟨e, t', u, heq, -, hp, hblock⟩ := h.upsertPath_spec path attr
  · -- Otherwise the new entry would be below something that is not a directory.
    rw [heq] at hwf
    exfalso
    apply hopen
    intro q a hq ha
    by_contra hk
    obtain ⟨v, hv⟩ := hq
    have hlast := List.dropLast_append_getLast hne
    rw [← hv] at hlast
    have hq' : t'.paths q = some a := by
      rw [hp, PathMap.set_of_not_below, PathMap.fill_of_some ha]
      intro hpre
      have := hpre.length_le
      rw [← hlast, List.length_append, List.length_append, List.length_singleton] at this
      omega
    have hps : t'.paths (parts path) = some attr := by rw [hp, PathMap.set_self]
    rw [← hlast, List.append_assoc, hwf.paths_below_eq_none hq' hk (by simp)] at hps
    cases hps
  · rw [heq]
    obtain ⟨c, a, -, ha, -⟩ := hblock hne hvalid hroot
    exact hp.trans (h.fill_eq_self ha (List.prefix_append u [c]))

end

theorem WF.upsertPath_new (h : t.WF) (hs : t.paths s = none) (hpre : ¬ s <+: parts path) :
    (t.upsertPath path attr).2.paths s = none := by
  have hdrop : ∀ {u}, u <+: (parts path).dropLast → t.paths.fill u s = none := by
    intro u hu
    have hnot : ¬ s <+: u := fun hsu => hpre (hsu.trans (hu.trans (List.dropLast_prefix _)))
    rw [PathMap.fill_of_not_above hnot, hs]
  obtain ⟨id, t', heq, hp⟩ | ⟨e, t', u, heq, hu, hp, -⟩ := h.upsertPath_spec path attr
  · have hself : s ≠ parts path := by
      rintro rfl
      exact hpre (List.prefix_refl _)
    rw [heq, hp, PathMap.set, if_neg hself, hdrop (List.prefix_refl _), ite_self]
  · rw [heq, hp, hdrop hu]

/-! ### `remove_path` -/

theorem WF.remove_new (h : t.WF) (id : NodeId) (hs : t.paths s = none) :
    (t.remove id).2.paths s = none := by
  cases heq : t.remove id with
  | mk r t' =>
    cases r with
    | error e =>
      have : t' = t := by
        rw [remove] at heq
        split_ifs at heq <;> cases heq <;> rfl
      rw [this]
      exact hs
    | ok u =>
      rw [h.remove_paths heq, PathMap.cut, hs, ite_self]

theorem WF.removePath_new (h : t.WF) (path : Bytes) (mode : LookupMode) (hs : t.paths s = none) :
    (t.removePath path mode).2.paths s = none := by
  rw [removePath]
  cases t.lookup path mode with
  | none => exact hs
  | some id => exact h.remove_new id hs

/-- **`remove_path` with the exact names** takes away the path and all below it. -/
theorem WF.removePath_exact (h : t.WF) (hdots : dotdot ∉ components path)
    (hne : parts path ≠ []) : (t.removePath path .exact).2.paths = t.paths.cut (parts path) := by
  rw [removePath, h.lookup_eq hdots]
  cases hw : t.walk (parts path) with
  | none =>
    -- Nothing is there, and so nothing below.
    exact (h.cut_eq_self (by rw [paths, hw]; rfl)).symm
  | some x =>
    have hwalk := h.walk_iff.1 hw
    obtain ⟨kids, hr⟩ := h.rep
    have hx : x ≠ root := by
      rintro rfl
      exact hne (hwalk.path_unique (.nil root))
    obtain ⟨t', heq, hrem, h'⟩ := hr.remove_spec (h.isLive_of_walk hwalk) hx
    dsimp only
    rw [heq]
    exact hrem.paths_eq h h' hwalk hx

end MetadataTree

end WslDrive
