import WslDrive.Core.Tree.Paths

/-!
# The metadata tree refines a map from paths

Each operation in terms of the map of the tree.

* `WF.lookup_eq` — `lookup` reads the map;
* `WF.ensureLoop_spec`, `WF.upsertPath_spec` — the operations that take paths;
* `WF.loadLoop_paths` — a snapshot;
* `refines_pathMap` — every successful operation of every reachable tree has its effect on the map.
-/

namespace WslDrive

namespace MetadataTree

open Path

variable {t t' : MetadataTree} {p c id x y : NodeId} {name : Bytes} {attr : Attributes}
  {s : List Bytes}

/-! ### Lookup -/

theorem WF.findChild_iff (h : t.WF) :
    t.findChild p name .exact = some c ↔ h.toLTree.edge p c ∧ t.name c = name := by
  obtain ⟨kids, hr⟩ := h.rep
  rw [hr.findChild_iff, hr.shaped.mem_order]
  rfl

theorem foldlM_lookupStep (t : MetadataTree) (mode : LookupMode) (comps : List Bytes)
    (hdots : dotdot ∉ comps) (x : NodeId) : comps.foldlM (t.lookupStep mode) x =
      (comps.filter fun c => c ≠ [] ∧ c ≠ dot).foldlM (fun x n => t.findChild x n mode) x := by
  induction comps generalizing x with
  | nil => rfl
  | cons comp comps ih =>
    rw [List.mem_cons, not_or] at hdots
    rw [List.foldlM_cons, lookupStep]
    by_cases hskip : comp = [] ∨ comp = dot
    · rw [if_pos hskip, List.filter_cons_of_neg (by simpa [or_iff_not_imp_left] using hskip)]
      exact ih hdots.2 x
    · rw [if_neg hskip, if_neg (Ne.symm hdots.1),
        List.filter_cons_of_pos (by simpa using hskip), List.foldlM_cons]
      exact bind_congr fun y => ih hdots.2 y

theorem WF.lookup_eq (h : t.WF) {path : Bytes} (hdots : dotdot ∉ components path) :
    t.lookup path .exact = t.walk (parts path) := by
  refine Option.ext fun y => ?_
  rw [lookup, foldlM_lookupStep t _ _ hdots, h.walk_iff]
  exact h.foldlM_iff fun _ _ _ => h.findChild_iff

/-! ### The operations on nodes -/

theorem WF.insert_ok (h : t.WF) (heq : t.insert p name attr = (.ok id, t')) :
    t'.WF ∧ Inserted t t' p id name attr ∧ t.isLive p ∧
      ∀ c, h.toLTree.edge p c → t.name c ≠ name := by
  obtain ⟨kids, hr⟩ := h.rep
  obtain ⟨id', t'', heq', hable, hins, hrep⟩ | ⟨e, t'', heq', -⟩ := hr.insert_spec p name attr
  · rw [heq] at heq'
    cases heq'
    exact ⟨⟨_, hrep⟩, hins, hable.live, fun c hc => hable.absent c ((hr.shaped.mem_order p c).2 hc)⟩
  · rw [heq] at heq'
    cases heq'

theorem WF.insert_paths (h : t.WF) (heq : t.insert p name attr = (.ok id, t')) :
    t.paths (t.location p ++ [name]) = none ∧
      t'.paths = t.paths.add (t.location p ++ [name]) attr := by
  obtain ⟨h', hins, hp, habs⟩ := h.insert_ok heq
  exact hins.paths_eq h h' (h.walk_location hp) habs

theorem WF.setAttributes_paths (h : t.WF) (heq : t.setAttributes id attr = (.ok (), t')) :
    t'.paths = t.paths.set (t.location id) attr := by
  obtain ⟨kids, hr⟩ := h.rep
  by_cases hid : t.isLive id
  · obtain ⟨t'', heq', hup, h'⟩ := hr.setAttributes_spec hid attr
    rw [heq] at heq'
    cases heq'
    exact hup.paths_eq h h' (h.walk_location hid)
  · rw [MetadataTree.setAttributes, if_pos (by rw [hr.allocated.valid_eq_false hid]; rfl)] at heq
    cases heq

theorem WF.remove_paths (h : t.WF) (heq : t.remove id = (.ok (), t')) :
    t'.paths = t.paths.cut (t.location id) := by
  obtain ⟨kids, hr⟩ := h.rep
  by_cases hid : t.isLive id
  · by_cases hroot : id = root
    · rw [remove, if_neg (by simp [hr.allocated.valid_iff.2 hid]), if_pos hroot] at heq
      cases heq
    · obtain ⟨t'', heq', hrem, h'⟩ := hr.remove_spec hid hroot
      rw [heq] at heq'
      cases heq'
      exact hrem.paths_eq h h' (h.walk_location hid) hroot
  · rw [remove, if_pos (by rw [hr.allocated.valid_eq_false hid]; rfl)] at heq
    cases heq

theorem WF.rename_paths (h : t.WF) {np : NodeId} {nn : Bytes}
    (heq : t.rename id np nn = (.ok (), t')) :
    t'.paths = t.paths.move (t.location id) (t.location np ++ [nn]) := by
  obtain ⟨kids, hr⟩ := h.rep
  obtain ⟨t'', heq', hm, hmoved, h'⟩ | ⟨e, t'', heq', -⟩ := hr.rename_spec id np nn
  · rw [heq] at heq'
    cases heq'
    exact hmoved.paths_eq h h' hm.ne_root (h.walk_location hm.live) (h.walk_location hm.parent_live)
      hm.not_below fun c hc => hm.absent c ((hr.shaped.mem_order np c).2 hc)
  · rw [heq] at heq'
    cases heq'

theorem WF.paths_append_eq_none (h : t.WF) (hs : t.paths s = none) (u : List Bytes) :
    t.paths (s ++ u) = none := by
  rw [h.paths_eq_none] at hs ⊢
  intro y hy
  obtain ⟨z, hz, -⟩ := LTree.walk_append_iff.1 hy
  exact hs z hz

theorem WF.cut_eq_self (h : t.WF) (hs : t.paths s = none) : t.paths.cut s = t.paths := by
  funext u
  rw [PathMap.cut]
  split_ifs with hu
  · obtain ⟨v, rfl⟩ := hu
    exact (h.paths_append_eq_none hs v).symm
  · rfl

theorem WF.set_eq_add (h : t.WF) (hs : t.paths s = none) :
    t.paths.set s attr = t.paths.add s attr := by
  funext u
  rw [PathMap.set]
  by_cases hu : u = s
  · rw [hu, if_pos rfl, PathMap.add_self]
  · rw [if_neg hu, PathMap.add_of_ne hu]
    split_ifs with hpre
    · obtain ⟨v, rfl⟩ := hpre.2
      exact (h.paths_append_eq_none hs v).symm
    · rfl

theorem WF.upsert_paths (h : t.WF) (hp : h.toLTree.Walk root s p)
    (heq : t.upsert p name attr = (.ok id, t')) :
    t'.paths = t.paths.set (s ++ [name]) attr := by
  obtain ⟨kids, hr⟩ := h.rep
  have hlive := h.isLive_of_walk hp
  rcases hr.upsert_spec hlive name attr with ⟨c, hc, hname, t'', heq', hup, h'⟩ | ⟨-, heq'⟩
  · rw [heq] at heq'
    cases heq'
    have hedge : h.toLTree.edge p id := (hr.shaped.mem_order p id).1 hc
    have hwalk := hp.snoc hedge
    rw [show h.toLTree.label id = name from hname] at hwalk
    exact hup.paths_eq h h' hwalk
  · rw [heq'] at heq
    obtain ⟨hnone, hadd⟩ := h.insert_paths heq
    rw [(h.walk_location hlive).path_unique hp] at hnone hadd
    rw [hadd, h.set_eq_add hnone]

/-! ### The operations on paths -/

theorem ensureLoop_filter (t : MetadataTree) (cur : NodeId) (comps : List Bytes) :
    ensureLoop t cur comps = ensureLoop t cur (comps.filter fun c => c ≠ [] ∧ c ≠ dot) := by
  induction comps generalizing t cur with
  | nil => rfl
  | cons comp comps ih =>
    rw [ensureLoop]
    by_cases hskip : comp = [] ∨ comp = dot
    · rw [if_pos hskip, List.filter_cons_of_neg (by simpa [or_iff_not_imp_left] using hskip)]
      exact ih t cur
    · rw [if_neg hskip, List.filter_cons_of_pos (by simpa using hskip), ensureLoop, if_neg hskip]
      simp only [ih]

theorem WF.fill_walk (h : t.WF) (hx : h.toLTree.Walk root s x) : t.paths.fill s = t.paths := by
  funext u
  rw [PathMap.fill, if_neg]
  rintro ⟨⟨v, rfl⟩, hnone⟩
  obtain ⟨y, hy, -⟩ := LTree.walk_append_iff.1 hx
  exact h.paths_eq_none.1 hnone y hy

theorem fill_fill {M : PathMap} {u : List Bytes} (hpre : u <+: s) :
    (M.fill u).fill s = M.fill s := by
  funext v
  rw [PathMap.fill, PathMap.fill, PathMap.fill]
  by_cases hv : v <+: u ∧ M v = none
  · rw [if_pos hv, if_neg (by simp), if_pos ⟨hv.1.trans hpre, hv.2⟩]
  · rw [if_neg hv]

/-- To add an entry in a directory that is there is to fill in the way to it. -/
theorem WF.add_eq_fill (h : t.WF) (hx : h.toLTree.Walk root s x)
    (hs : t.paths (s ++ [name]) = none) :
    t.paths.add (s ++ [name]) kImplicitDirectory = t.paths.fill (s ++ [name]) := by
  funext u
  rw [PathMap.fill]
  by_cases hu : u = s ++ [name]
  · rw [hu, PathMap.add_self, if_pos ⟨List.prefix_refl _, hs⟩]
  · rw [PathMap.add_of_ne hu, if_neg]
    rintro ⟨hpre, hnone⟩
    rcases List.prefix_concat_iff.1 hpre with rfl | ⟨v, rfl⟩
    · exact hu rfl
    · obtain ⟨y, hy, -⟩ := LTree.walk_append_iff.1 hx
      exact h.paths_eq_none.1 hnone y hy

/-- One round of the loop of `ensure_directory_path`: it stops and has changed nothing, or goes on
from the directory of the next name. -/
theorem WF.ensureLoop_cons (h : t.WF) (hcur : h.toLTree.Walk root s x) {comp : Bytes}
    (hcomp : comp ≠ [] ∧ comp ≠ dot) (comps : List Bytes) :
    (∃ e t₁, ensureLoop t x (comp :: comps) = (.error e, t₁) ∧ t₁.paths = t.paths ∧
      (validName comp = true → (t.nodes x).isDir = true →
        ∃ a, t.paths (s ++ [comp]) = some a ∧ a.kind ≠ .directory)) ∨
    ∃ next t₁, ∃ h₁ : t₁.WF, ensureLoop t x (comp :: comps) = ensureLoop t₁ next comps ∧
      h₁.toLTree.Walk root (s ++ [comp]) next ∧ (t₁.nodes next).isDir = true ∧
      t₁.paths = t.paths.fill (s ++ [comp]) := by
  rw [ensureLoop, if_neg (by tauto)]
  by_cases hdots : comp = dotdot
  · rw [if_pos hdots]
    exact .inl ⟨_, t, rfl, rfl, fun hv => absurd hv (by rw [hdots]; decide)⟩
  rw [if_neg hdots]
  cases hfind : t.findChild x comp .exact with
  | some next =>
    obtain ⟨hedge, hname⟩ := h.findChild_iff.1 hfind
    have hwalk := hcur.snoc hedge
    rw [show h.toLTree.label next = comp from hname] at hwalk
    dsimp only
    split_ifs with hdir
    · refine .inl ⟨_, t, rfl, rfl, fun _ _ => ⟨_, h.paths_eq_some.2 ⟨next, hwalk, rfl⟩, ?_⟩⟩
      simpa [Node.isDir] using hdir
    · exact .inr ⟨next, t, h, rfl, hwalk, by simpa using hdir, (h.fill_walk hwalk).symm⟩
  | none =>
    obtain ⟨kids, hr⟩ := h.rep
    dsimp only
    obtain ⟨id, t₁, heq, hable, hins, hrep⟩ | ⟨e, t₁, heq, hnot, hsame, hrep⟩ :=
      hr.insert_spec x comp kImplicitDirectory
    · obtain ⟨h₁, hi, hlive, habs⟩ := h.insert_ok heq
      obtain ⟨hnone, hadd⟩ := hi.paths_eq h h₁ hcur habs
      have hwalk := (hi.walk_iff h h₁ hlive).2 (.inr ⟨rfl, s, hcur, rfl⟩)
      rw [heq]
      refine .inr ⟨id, t₁, h₁, rfl, hwalk, ?_, hadd.trans (h.add_eq_fill hcur hnone)⟩
      rw [Node.isDir, hi.attr]
      rfl
    · rw [heq]
      refine .inl ⟨e, t₁, rfl, hsame.paths_eq h ⟨_, hrep⟩, fun hv hdir => absurd ?_ hnot⟩
      refine ⟨h.isLive_of_walk hcur, hdir, hv, fun c hc hname => ?_⟩
      have := hr.findChild_iff.2 ⟨hc, hname⟩
      rw [hfind] at this
      cases this

/-- **`ensure_directory_path`** adds the directories that are missing, and fails at the first name
it cannot pass. -/
theorem WF.ensureLoop_spec {comps : List Bytes} (h : t.WF) (hcur : h.toLTree.Walk root s x)
    (hcomps : ∀ c ∈ comps, c ≠ [] ∧ c ≠ dot) :
    (∃ y t', ∃ h' : t'.WF, ensureLoop t x comps = (.ok y, t') ∧
      h'.toLTree.Walk root (s ++ comps) y ∧ t'.paths = t.paths.fill (s ++ comps) ∧
      ((t.nodes x).isDir = true → (t'.nodes y).isDir = true)) ∨
    ∃ e t' u c v, ensureLoop t x comps = (.error e, t') ∧ comps = u ++ c :: v ∧
      t'.paths = t.paths.fill (s ++ u) ∧
      ((∀ c ∈ comps, validName c = true) → (t.nodes x).isDir = true →
        ∃ a, t.paths (s ++ u ++ [c]) = some a ∧ a.kind ≠ .directory) := by
  induction comps generalizing t x s with
  | nil =>
    rw [List.append_nil]
    exact .inl ⟨x, t, h, rfl, hcur, (h.fill_walk hcur).symm, fun hd => hd⟩
  | cons comp comps ih =>
    obtain ⟨e, t₁, heq, hpaths, hblock⟩ | ⟨next, t₁, h₁, heq, hwalk, hdir, hpaths⟩ :=
      h.ensureLoop_cons hcur (hcomps comp List.mem_cons_self) comps
    · refine .inr ⟨e, t₁, [], comp, comps, heq, rfl, ?_, fun hv hd => ?_⟩
      · rw [hpaths, List.append_nil, h.fill_walk hcur]
      · rw [List.append_nil]
        exact hblock (hv comp List.mem_cons_self) hd
    · have hassoc : ∀ u, s ++ comp :: u = (s ++ [comp]) ++ u := by simp
      rw [heq, hassoc]
      rcases ih h₁ hwalk fun c hc => hcomps c (List.mem_cons_of_mem comp hc) with
        ⟨y, t', h', heq', hw', hp', hd'⟩ | ⟨e, t', u, c, v, heq', hcs, hp', hblock⟩
      · refine .inl ⟨y, t', h', heq', hw', ?_, fun _ => hd' hdir⟩
        rw [hp', hpaths, fill_fill (List.prefix_append _ _)]
      · refine .inr ⟨e, t', comp :: u, c, v, heq', by rw [hcs]; rfl, ?_, fun hv _ => ?_⟩
        · rw [hp', hpaths, fill_fill (List.prefix_append _ _), ← hassoc]
        · obtain ⟨a, ha, hk⟩ := hblock (fun c hc => hv c (List.mem_cons_of_mem comp hc)) hdir
          rw [hpaths, PathMap.fill_of_not_above] at ha
          · exact ⟨a, by rw [hassoc]; exact ha, hk⟩
          · intro hpre
            have := hpre.length_le
            simp at this

theorem forall_mem_parts (path : Bytes) : ∀ c ∈ parts path, c ≠ [] ∧ c ≠ dot := fun _ hc =>
  ⟨(isPart_of_mem_parts hc).1, (isPart_of_mem_parts hc).2.1⟩

theorem ensureDirectoryPath_eq (t : MetadataTree) (path : Bytes) :
    t.ensureDirectoryPath path = ensureLoop t root (parts path) := by
  rw [ensureDirectoryPath, ensureLoop_filter, parts]

theorem WF.ensureDirectoryPath_ok {path : Bytes} (h : t.WF)
    (heq : t.ensureDirectoryPath path = (.ok x, t')) :
    ∃ h' : t'.WF, h'.toLTree.Walk root (parts path) x ∧ t'.paths = t.paths.fill (parts path) := by
  rw [ensureDirectoryPath_eq] at heq
  obtain ⟨y, t'', h', heq', hw, hp, -⟩ | ⟨e, t'', u, c, v, heq', -⟩ :=
    h.ensureLoop_spec (.nil root) (forall_mem_parts path)
  · rw [heq] at heq'
    cases heq'
    exact ⟨h', hw, hp⟩
  · rw [heq] at heq'
    cases heq'

theorem upsertPath_eq (t : MetadataTree) {path : Bytes} {cs : List Bytes} {leaf : Bytes}
    (hcs : parts path = cs ++ [leaf]) (attr : Attributes) :
    t.upsertPath path attr =
      match ensureLoop t root cs with
      | (.error e, t) => (.error e, t)
      | (.ok dir, t) => t.upsert dir leaf attr := by
  have hparts : ∀ c ∈ cs ++ [leaf], IsPart c := by
    rw [← hcs]
    exact fun c hc => isPart_of_mem_parts hc
  have hne : normalizePath path ≠ [] := by
    intro hnil
    have := parts_normalizePath path
    rw [hnil, hcs] at this
    exact List.append_ne_nil_of_right_ne_nil cs (by simp) this.symm
  have hdir : t.ensureDirectoryPath ([slash].intercalate cs) = t.ensureLoop root cs := by
    rw [ensureDirectoryPath_eq, parts_intercalate fun c hc => hparts c (List.mem_append_left _ hc)]
  rw [upsertPath]
  dsimp only
  rw [if_neg hne, normalizePath_eq, hcs, splitParent_intercalate cs (hparts leaf (by simp))]
  exact hdir ▸ rfl

theorem WF.upsert_spec (h : t.WF) (hp : h.toLTree.Walk root s p) (name : Bytes)
    (attr : Attributes) :
    (∃ id t', t.upsert p name attr = (.ok id, t') ∧
      t'.paths = t.paths.set (s ++ [name]) attr) ∨
    ∃ e t', t.upsert p name attr = (.error e, t') ∧ t'.paths = t.paths ∧
      (validName name = true → (t.nodes p).isDir = false) := by
  obtain ⟨kids, hr⟩ := h.rep
  have hlive := h.isLive_of_walk hp
  rcases hr.upsert_spec hlive name attr with ⟨c, -, -, t'', heq, -⟩ | ⟨habs, heq⟩
  · exact .inl ⟨_, _, heq, h.upsert_paths hp heq⟩
  · obtain ⟨id, t₁, hins, -⟩ | ⟨e, t₁, hins, hnot, hsame, hrep⟩ := hr.insert_spec p name attr
    · rw [hins] at heq
      exact .inl ⟨_, _, heq, h.upsert_paths hp heq⟩
    · rw [hins] at heq
      refine .inr ⟨e, t₁, heq, hsame.paths_eq h ⟨_, hrep⟩, fun hv => ?_⟩
      by_contra hd
      exact hnot ⟨hlive, by simpa using hd, hv, habs⟩

/-- **`upsert_path`** adds the missing directories and sets the entry, and fails at the first name
it cannot pass. -/
theorem WF.upsertPath_spec (h : t.WF) (path : Bytes) (attr : Attributes) :
    (∃ id t', t.upsertPath path attr = (.ok id, t') ∧
      t'.paths = (t.paths.fill (parts path).dropLast).set (parts path) attr) ∨
    ∃ e t' u, t.upsertPath path attr = (.error e, t') ∧ u <+: (parts path).dropLast ∧
      t'.paths = t.paths.fill u ∧
      (parts path ≠ [] → (∀ c ∈ parts path, validName c = true) → (t.nodes root).isDir = true →
        ∃ c a, u ++ [c] <+: (parts path).dropLast ∧ t.paths (u ++ [c]) = some a ∧
          a.kind ≠ .directory) := by
  rcases List.eq_nil_or_concat (parts path) with hnil | ⟨cs, leaf, hcs⟩
  · refine .inr ⟨.invalidPath, t, [], ?_, List.nil_prefix, ?_, fun hne => absurd hnil hne⟩
    · rw [upsertPath, normalizePath_eq, hnil]
      rfl
    · exact (h.fill_walk (.nil root)).symm
  · rw [List.concat_eq_append] at hcs
    have hne := fun c hc => forall_mem_parts path c (by rw [hcs]; exact List.mem_append_left _ hc)
    rw [t.upsertPath_eq hcs, hcs, List.dropLast_concat]
    obtain ⟨y, t₁, h₁, heq, hw, hp, hd⟩ | ⟨e, t₁, u, c, v, heq, rfl, hp, hblock⟩ :=
      h.ensureLoop_spec (.nil root) hne
    · rw [heq]
      dsimp only
      rw [List.nil_append] at hw hp
      obtain ⟨id, t', hup, hp'⟩ | ⟨e, t', hup, hp', hinv⟩ := h₁.upsert_spec hw leaf attr
      · exact .inl ⟨id, t', hup, by rw [hp', hp]⟩
      · refine .inr ⟨e, t', cs, hup, List.prefix_refl _, by rw [hp', hp], fun _ hv hroot => ?_⟩
        have := hinv (hv leaf (by simp))
        rw [hd hroot] at this
        cases this
    · rw [heq]
      refine .inr ⟨e, t₁, u, rfl, List.prefix_append _ _, hp, fun _ hv hroot => ?_⟩
      obtain ⟨a, ha, hk⟩ := hblock (fun c hc => hv c (List.mem_append_left _ hc)) hroot
      exact ⟨c, a, ⟨v, by simp⟩, ha, hk⟩

theorem WF.upsertPath_paths {path : Bytes} (h : t.WF)
    (heq : t.upsertPath path attr = (.ok id, t')) :
    t'.paths = (t.paths.fill (parts path).dropLast).set (parts path) attr := by
  obtain ⟨id', t'', heq', hp⟩ | ⟨e, t'', u, heq', -⟩ := h.upsertPath_spec path attr
  · rw [heq] at heq'
    cases heq'
    exact hp
  · rw [heq] at heq'
    cases heq'

/-! ### Snapshots -/

theorem WF.insertable_iff (h : t.WF) {kids : NodeId → List NodeId} (hr : t.Rep kids kids)
    (hp : h.toLTree.Walk root s p) (name : Bytes) :
    Insertable t kids p name ↔ t.paths.free s name = true := by
  have hlive := h.isLive_of_walk hp
  have hsome : t.paths s = some (t.nodes p).attr := h.paths_eq_some.2 ⟨p, hp, rfl⟩
  have habs : (∀ c ∈ kids p, t.name c ≠ name) ↔ t.paths (s ++ [name]) = none := by
    rw [h.paths_eq_none]
    constructor
    · intro hc y hy
      obtain ⟨z, hz, hzy, hname⟩ := LTree.walk_snoc_iff.1 hy
      obtain rfl := hp.unique hz
      exact hc y ((hr.shaped.mem_order p y).2 hzy) hname
    · intro hy c hc hname
      have hwalk := hp.snoc (T := h.toLTree) ((hr.shaped.mem_order p c).1 hc)
      rw [show h.toLTree.label c = name from hname] at hwalk
      exact hy c hwalk
  simp only [PathMap.free, hsome, Option.any_some, Bool.and_eq_true, Option.isNone_iff_eq_none]
  rw [← habs]
  exact ⟨fun hi => ⟨⟨hi.isDir, hi.valid⟩, hi.absent⟩, fun hi => ⟨hlive, hi.1.1, hi.1.2, hi.2⟩⟩

/-- What stands for an entry in the two lists: a node at its path, or nothing for a dropped one. -/
def AtPath (h : t.WF) : Option NodeId → Option (List Bytes) → Prop
  | none, none => True
  | some id, some p => h.toLTree.Walk root p id
  | _, _ => False

theorem AtPath.cases {h : t.WF} {o : Option NodeId} {q : Option (List Bytes)}
    (ho : AtPath h o q) : (o = none ∧ q = none) ∨
      ∃ id p, o = some id ∧ q = some p ∧ h.toLTree.Walk root p id := by
  cases o with
  | none =>
    cases q with
    | none => exact .inl ⟨rfl, rfl⟩
    | some p => exact ho.elim
  | some id =>
    cases q with
    | none => exact ho.elim
    | some p => exact .inr ⟨id, p, rfl, rfl, ho⟩

theorem AtPath.mono {h : t.WF} {h' : t'.WF}
    (hw : ∀ {p id}, h.toLTree.Walk root p id → h'.toLTree.Walk root p id)
    {o : Option NodeId} {q : Option (List Bytes)} (ho : AtPath h o q) : AtPath h' o q := by
  cases o <;> cases q <;> first | exact ho | exact hw ho

theorem sameTree_dropped (t : MetadataTree) (n : ℕ) : SameTree t { t with dropped := n } :=
  ⟨fun _ => Iff.rfl, fun _ _ => ⟨rfl, rfl, rfl⟩⟩

theorem SameTree.trans {t'' : MetadataTree} (hs : SameTree t t') (hs' : SameTree t' t'') :
    SameTree t t'' where
  isLive x := (hs'.isLive x).trans (hs.isLive x)
  same x hx := by
    have h₁ := hs.same x hx
    have h₂ := hs'.same x ((hs.isLive x).2 hx)
    exact ⟨h₂.name.trans h₁.name, h₂.parent.trans h₁.parent, h₂.attr.trans h₁.attr⟩

theorem forall₂_getElem? {α β : Type*} {R : α → β → Prop} {l : List α} {l' : List β}
    (h : List.Forall₂ R l l') (k : ℕ) :
    (l[k]? = none ∧ l'[k]? = none) ∨ ∃ a b, l[k]? = some a ∧ l'[k]? = some b ∧ R a b := by
  induction h generalizing k with
  | nil => exact .inl ⟨rfl, rfl⟩
  | cons hab _ ih =>
    cases k with
    | zero => exact .inr ⟨_, _, rfl, rfl, hab⟩
    | succ k => simpa using ih k

/-- **The loop of `load_snapshot`** adds the entries for which there is room. -/
theorem WF.loadLoop_paths (h : t.WF) {ids : List (Option NodeId)} {ps : List (Option (List Bytes))}
    (hat : List.Forall₂ (AtPath h) ids ps) (es : List SnapshotEntry) :
    (loadLoop t ids es).2.paths = PathMap.load t.paths ps es := by
  induction es generalizing t ids ps with
  | nil => rfl
  | cons e es ih =>
    -- An entry that is dropped leaves a mark in both lists.
    have hdrop : ∀ {t₁ : MetadataTree}, t₁.WF → SameTree t t₁ →
        (loadLoop { t₁ with dropped := t₁.dropped + 1 } (ids ++ [none]) es).2.paths =
          PathMap.load t.paths (ps ++ [none]) es := by
      intro t₁ h₁ hs
      have hs' := hs.trans (sameTree_dropped t₁ (t₁.dropped + 1))
      have h₂ := (h₁.kept_dropped (t₁.dropped + 1)).wf
      have hat' := List.rel_append (hat.imp fun o q ho => ho.mono (hs'.walk h h₂))
        (.cons trivial .nil : List.Forall₂ (AtPath h₂) [none] [none])
      rw [ih h₂ hat', hs'.paths_eq h h₂]
    rw [loadLoop, PathMap.load]
    rcases forall₂_getElem? hat e.parent.toNat with ⟨hn, hn'⟩ | ⟨o, q, ho, hq, hoq⟩
    · rw [hn, hn']
    rw [ho, hq]
    rcases hoq.cases with ⟨rfl, rfl⟩ | ⟨parent, p, rfl, rfl, hwalk⟩
    · exact hdrop h ⟨fun _ => Iff.rfl, fun _ _ => ⟨rfl, rfl, rfl⟩⟩
    · obtain ⟨kids, hr⟩ := h.rep
      dsimp only
      have hfree := h.insertable_iff hr hwalk e.name
      obtain ⟨id, t₁, heq, hable, hins, hrep⟩ | ⟨err, t₁, heq, hnot, hsame, hrep⟩ :=
        hr.insert_spec parent e.name e.attr
      · rw [heq, if_pos (hfree.1 hable)]
        have h₁ : t₁.WF := ⟨_, hrep⟩
        have hold : ∀ {u y}, h.toLTree.Walk root u y → h₁.toLTree.Walk root u y := fun hw =>
          (hins.walk_iff h h₁ hable.live).2 (.inl hw)
        have hnew := (hins.walk_iff h h₁ hable.live).2 (.inr ⟨rfl, p, hwalk, rfl⟩)
        have hat' := List.rel_append (hat.imp fun o q ho => ho.mono hold)
          (.cons hnew .nil : List.Forall₂ (AtPath h₁) [some id] [some (p ++ [e.name])])
        rw [ih h₁ hat', ((h.insert_ok heq).2.1.paths_eq h h₁ hwalk (h.insert_ok heq).2.2.2).2]
      · rw [heq, if_neg (mt hfree.2 hnot)]
        exact hdrop ⟨_, hrep⟩ hsame

theorem paths_fresh : fresh.paths = PathMap.empty := by
  refine wf_fresh.paths_ext fun s a => ?_
  cases s with
  | nil =>
    simp only [LTree.walk_nil_iff, PathMap.empty, if_true, Option.some.injEq]
    refine ⟨?_, fun ha => ⟨root, rfl, ha⟩⟩
    rintro ⟨y, hy, ha⟩
    rw [← ha, ← hy]
    rfl
  | cons n s =>
    refine iff_of_false ?_ (by simp [PathMap.empty])
    rintro ⟨y, hw, -⟩
    obtain ⟨c, hc, -⟩ := LTree.walk_cons_iff.1 hw
    obtain rfl := fresh_isLive.1 hc.1
    exact wf_fresh.toLTree.not_edge_root root hc

theorem loadSnapshot_paths (t : MetadataTree) (es : List SnapshotEntry) :
    (t.loadSnapshot es).2.paths = PathMap.load PathMap.empty [some []] es := by
  have hat : List.Forall₂ (AtPath wf_fresh) [some root] [some []] := .cons (.nil root) .nil
  have hload := wf_fresh.loadLoop_paths hat es
  rw [paths_fresh] at hload
  exact hload

/-! ### The refinement -/

/-- What a successful operation does to the map of the tree. -/
def Op.effect (t : MetadataTree) : Op → PathMap → PathMap
  | .insert parent name attr => PathMap.add (t.location parent ++ [name]) attr
  | .upsert parent name attr => PathMap.set (t.location parent ++ [name]) attr
  | .setAttributes id attr => PathMap.set (t.location id) attr
  | .remove id => PathMap.cut (t.location id)
  | .rename id newParent newName =>
    PathMap.move (t.location id) (t.location newParent ++ [newName])
  | .ensureDirectoryPath path => PathMap.fill (parts path)
  | .upsertPath path attr => fun M => (M.fill (parts path).dropLast).set (parts path) attr
  | .removePath path mode => fun M =>
    match t.lookup path mode with
    | some id => M.cut (t.location id)
    | none => M
  | .loadSnapshot entries => fun _ => PathMap.load PathMap.empty [some []] entries
  | .clear => fun _ => PathMap.empty

theorem outcome_ok {α : Type} {f : α → Option NodeId} {r : Except Errc α × MetadataTree}
    {o : Option NodeId} (h : outcome f r = (.ok o, t')) : ∃ a, r = (.ok a, t') := by
  obtain ⟨e, t₁⟩ := r
  cases e with
  | error e => simp [outcome, Except.map] at h
  | ok a =>
    obtain ⟨-, rfl⟩ := Prod.mk.inj h
    exact ⟨a, rfl⟩

theorem WF.apply_paths (h : t.WF) {op : Op} {o : Option NodeId} (heq : t.apply op = (.ok o, t')) :
    t'.paths = op.effect t t.paths := by
  cases op with
  | insert parent name attr =>
    obtain ⟨a, ha⟩ := outcome_ok heq
    exact (h.insert_paths ha).2
  | upsert parent name attr =>
    obtain ⟨a, ha⟩ := outcome_ok heq
    obtain ⟨kids, hr⟩ := h.rep
    by_cases hp : t.isLive parent
    · exact h.upsert_paths (h.walk_location hp) ha
    · rw [upsert, if_pos (by rw [hr.allocated.valid_eq_false hp]; rfl)] at ha
      cases ha
  | setAttributes id attr =>
    obtain ⟨a, ha⟩ := outcome_ok heq
    exact h.setAttributes_paths ha
  | remove id =>
    obtain ⟨a, ha⟩ := outcome_ok heq
    exact h.remove_paths ha
  | rename id newParent newName =>
    obtain ⟨a, ha⟩ := outcome_ok heq
    exact h.rename_paths ha
  | ensureDirectoryPath path =>
    obtain ⟨a, ha⟩ := outcome_ok heq
    obtain ⟨-, -, hp⟩ := h.ensureDirectoryPath_ok ha
    exact hp
  | upsertPath path attr =>
    obtain ⟨a, ha⟩ := outcome_ok heq
    exact h.upsertPath_paths ha
  | removePath path mode =>
    obtain ⟨a, ha⟩ := outcome_ok heq
    rw [removePath] at ha
    simp only [Op.effect]
    cases hl : t.lookup path mode with
    | none =>
      rw [hl] at ha
      cases ha
    | some id =>
      rw [hl] at ha
      exact h.remove_paths ha
  | loadSnapshot entries =>
    rw [← show (t.loadSnapshot entries).2 = t' from congrArg Prod.snd heq]
    exact t.loadSnapshot_paths entries
  | clear =>
    obtain ⟨-, rfl⟩ := Prod.mk.inj heq
    exact paths_fresh

/-- **The metadata tree refines a map from component paths to attributes.**  In every reachable
tree each node is at the path its ancestors spell, every successful operation has its effect on
the map and no other, and `lookup` with exact names reads the map. -/
theorem refines_pathMap (ops : List Op) :
    let t := run ops
    (∀ id, t.isLive id → t.walk (t.location id) = some id) ∧
    (∀ op o t', t.apply op = (.ok o, t') → t'.paths = op.effect t t.paths) ∧
    (∀ parent name attr id t', t.insert parent name attr = (.ok id, t') →
      t.paths (t.location parent ++ [name]) = none) ∧
    ∀ path, dotdot ∉ components path → ∀ a,
      (∃ id, t.lookup path .exact = some id ∧ (t.nodes id).attr = a) ↔
        t.paths (parts path) = some a := by
  intro t
  have h : t.WF := wf_run ops
  refine ⟨fun id hid => h.walk_iff.2 (h.walk_location hid), fun op o t' heq => h.apply_paths heq,
    fun parent name attr id t' heq => (h.insert_paths heq).1, fun path hdots a => ?_⟩
  rw [h.lookup_eq hdots, paths, Option.map_eq_some_iff]

/-- A directory with a file in it is renamed. -/
theorem refines_pathMap_rename :
    let t := run [.upsertPath (bytes "d/f") {}]
    (t.apply (.rename 1 root (bytes "e"))).2.paths = t.paths.move [bytes "d"] [bytes "e"] :=
  (refines_pathMap [.upsertPath (bytes "d/f") {}]).2.1 (.rename 1 root (bytes "e")) none _
    (Prod.ext rfl rfl)

end MetadataTree

end WslDrive
