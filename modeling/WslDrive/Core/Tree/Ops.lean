import WslDrive.Core.Tree.Place

/-!
# The operations of the metadata tree

What each operation does to a tree that has its representation, in terms of its nodes.

* `Rep.setAttributes_spec`, `Rep.remove_spec`, `Rep.findChild_iff`, `Rep.upsert_spec`;
* `WF.kept_ensureLoop`, `WF.kept_loadLoop` — the loops over paths and snapshots keep the
  representation;
* `Op`, `apply`, `run`, `wf_run` — so does every sequence of operations.
-/

namespace WslDrive

namespace MetadataTree

open Siblings Shadow Unicode Path

variable {t t' : MetadataTree} {kids : NodeId → List NodeId} {p c id x : NodeId} {name : Bytes}
  {attr : Attributes}

/-! ### Attributes -/

/-- Only a node without children, or one that is a directory afterwards, may change its kind. -/
theorem Rep.setAttr (h : t.Rep kids kids) (hdir : attr.kind = .directory ∨ kids id = []) :
    (t.modify id fun n => { n with attr }).Rep kids kids := by
  have hn : ∀ x, (t.modify id fun n => { n with attr }).nodes x =
      { t.nodes x with attr := if x = id then attr else (t.nodes x).attr } := by
    intro x
    rw [modify_nodes]
    split_ifs <;> rfl
  have hlive : ∀ x, (t.modify id fun n => { n with attr }).isLive x ↔ t.isLive x := by
    intro x
    rw [isLive, isLive, hn]
  have hpar : (t.modify id fun n => { n with attr }).IsParent = t.IsParent := by
    funext a b
    rw [IsParent, IsParent, hn]
  refine ⟨h.linked.congr fun x => by simp [hn], h.indexed.congr rfl rfl rfl rfl fun _ _ _ => by
    simp [hn], ⟨h.allocated.free_nodup, fun i => by rw [hlive]; exact h.allocated.mem_free i,
      fun i hi => h.allocated.lt_size i ((hlive i).1 hi), ?_⟩, ?_, ?_⟩
  · simp only [hlive]
    exact h.allocated.live_eq
  · refine ⟨fun i n hi => ?_, fun i n hi => ?_, fun i n hi => ?_⟩ <;> rw [hn] at hi
    · exact h.named.name_lt i n hi
    · rw [hn]
      exact h.named.folded i n hi
    · exact h.named.valid i n hi
  · refine ⟨(hlive _).2 h.shaped.root_live, ?_, fun q a => ?_, fun a ha hne => ?_, fun a ha => ?_⟩
    · rw [hn]
      exact h.shaped.root_parent
    · rw [hlive, hn]
      exact h.shaped.mem_order q a
    · rw [hlive] at ha
      obtain ⟨q, hq, hqlive, hqdir⟩ := h.shaped.parent_live a ha hne
      refine ⟨q, by rw [hn]; exact hq, (hlive q).2 hqlive, ?_⟩
      rw [hn, Node.isDir]
      dsimp only
      split_ifs with hqi
      · -- The node has a child, so it stays a directory.
        subst hqi
        rcases hdir with hdir | hnil
        · rw [hdir]
          rfl
        · have := (h.shaped.mem_order q a).2 ⟨ha, hq⟩
          rw [hnil] at this
          cases this
      · exact hqdir
    · rw [hpar]
      exact h.shaped.to_root a ((hlive a).1 ha)

/-- `t'` is `t` with other attributes of one node, and without what was below it unless it is a
directory. -/
structure Updated (t t' : MetadataTree) (id : NodeId) (attr : Attributes) : Prop where
  isLive : ∀ x, t'.isLive x ↔ t.isLive x ∧ (attr.kind = .directory ∨ x = id ∨ ¬ t.Below id x)
  same : ∀ x, t'.isLive x → x ≠ id → SameAt t t' x
  name : t'.name id = t.name id
  parent : (t'.nodes id).parent = (t.nodes id).parent
  attr : (t'.nodes id).attr = attr

theorem Shrinks.sameAt (h : Shrinks t t') (hx : t'.isLive x) : SameAt t t' x where
  name := by rw [MetadataTree.name, MetadataTree.name, h.name x hx, h.names]
  parent := h.parent x
  attr := h.attr x

theorem sameAt_setAttr (hx : x ≠ id) : SameAt t (t.modify id fun n => { n with attr }) x := by
  refine ⟨?_, ?_, ?_⟩
  · rw [MetadataTree.name, MetadataTree.name, modify_nodes, if_neg hx]
    rfl
  · rw [modify_nodes, if_neg hx]
  · rw [modify_nodes, if_neg hx]

theorem Rep.kids_eq_nil (h : t.Rep kids kids) (hdir : (t.nodes id).isDir = false) :
    kids id = [] := by
  refine List.eq_nil_iff_forall_not_mem.2 fun c hc => ?_
  obtain ⟨hl, hpar⟩ := (h.shaped.mem_order id c).1 hc
  have hcr : c ≠ root := by
    rintro rfl
    rw [h.shaped.root_parent] at hpar
    cases hpar
  obtain ⟨q, hq, -, hqdir⟩ := h.shaped.parent_live c hl hcr
  obtain rfl : id = q := Option.some.inj (hpar.symm.trans hq)
  rw [hdir] at hqdir
  cases hqdir

theorem Rep.length_kids_le (h : t.Rep kids kids) : (kids id).length ≤ t.size := by
  have hsub : (kids id).Subperm (List.range t.size) :=
    (h.linked.links.nodup id).subperm fun c hc =>
      List.mem_range.2 (h.allocated.lt_size c ((h.shaped.mem_order id c).1 hc).1)
  simpa using hsub.length_le

/-- What `set_attributes` does before it assigns: a node that ends up as something other than a
directory has no children left. -/
theorem Rep.clear_spec (h : t.Rep kids kids) (id : NodeId) (attr : Attributes) :
    let t₁ := if (t.nodes id).isDir && attr.kind != .directory && (t.nodes id).childCount != 0 then
      releaseChildren id t.size t else t
    Shrinks t t₁ ∧
      (∀ x, t₁.isLive x ↔ t.isLive x ∧ (attr.kind = .directory ∨ x = id ∨ ¬ t.Below id x)) ∧
      ∃ kids₁, t₁.Rep kids₁ kids₁ ∧ (attr.kind = .directory ∨ kids₁ id = []) := by
  intro t₁
  by_cases hdir : attr.kind = .directory
  · have heq : t₁ = t := if_neg (by simp [hdir])
    rw [heq]
    exact ⟨.refl t, fun x => by simp [hdir], kids, h, .inl hdir⟩
  · have hcl : Cleared id t t₁ kids := by
      by_cases hc : ((t.nodes id).isDir && attr.kind != .directory &&
          (t.nodes id).childCount != 0) = true
      · rw [show t₁ = releaseChildren id t.size t from if_pos hc]
        exact h.releaseChildren_spec h.length_kids_le
      · rw [show t₁ = t from if_neg hc]
        refine h.cleared_leaf ?_
        by_cases hd : (t.nodes id).isDir = false
        · exact h.kids_eq_nil hd
        · have hcount : (t.nodes id).childCount = 0 := by simpa [hdir, hd] using hc
          rw [h.linked.count] at hcount
          exact List.eq_nil_of_length_eq_zero hcount
    refine ⟨hcl.shrinks, fun x => ?_, _, hcl.rep, .inr hcl.leaf⟩
    rw [hcl.isLive]
    simp [hdir]

theorem Rep.setAttributes_spec (h : t.Rep kids kids) (hid : t.isLive id) (attr : Attributes) :
    ∃ t', t.setAttributes id attr = (.ok (), t') ∧ Updated t t' id attr ∧ t'.WF := by
  obtain ⟨hshrinks, hlive, kids₁, hrep, hdir⟩ := h.clear_spec id attr
  unfold setAttributes
  rw [if_neg (by simp [h.allocated.valid_iff.2 hid])]
  dsimp only
  set t₁ := if (t.nodes id).isDir && attr.kind != .directory && (t.nodes id).childCount != 0 then
    releaseChildren id t.size t else t
  have hid₁ : t₁.isLive id := (hlive id).2 ⟨hid, .inr (.inl rfl)⟩
  have hlive' : ∀ x, (t₁.modify id fun n => { n with attr }).isLive x ↔ t₁.isLive x := by
    intro x
    rw [isLive, isLive, modify_nodes]
    split_ifs <;> rfl
  refine ⟨_, rfl, ⟨fun x => (hlive' x).trans (hlive x), fun x hx hne => ?_, ?_, ?_, ?_⟩, kids₁,
    hrep.setAttr hdir⟩
  · have h₁ := hshrinks.sameAt ((hlive' x).1 hx)
    have h₂ : SameAt t₁ (t₁.modify id fun n => { n with attr }) x := sameAt_setAttr hne
    exact ⟨h₂.name.trans h₁.name, h₂.parent.trans h₁.parent, h₂.attr.trans h₁.attr⟩
  · rw [← (hshrinks.sameAt hid₁).name, MetadataTree.name, MetadataTree.name, modify_nodes,
      if_pos rfl]
    rfl
  · rw [modify_nodes, if_pos rfl]
    exact hshrinks.parent id
  · rw [modify_nodes, if_pos rfl]

/-! ### Removal -/

/-- `t'` is `t` without one node and all that is below it. -/
structure Removed (t t' : MetadataTree) (id : NodeId) : Prop where
  isLive : ∀ x, t'.isLive x ↔ t.isLive x ∧ ¬ t.Below id x
  same : ∀ x, t'.isLive x → SameAt t t' x

theorem Rep.remove_spec (h : t.Rep kids kids) (hid : t.isLive id) (hne : id ≠ root) :
    ∃ t', t.remove id = (.ok (), t') ∧ Removed t t' id ∧ t'.WF := by
  obtain ⟨hrep, hshrinks, hlive⟩ := h.releaseSubtree_spec hid hne
  refine ⟨_, ?_, ⟨hlive, fun x hx => hshrinks.sameAt hx⟩, _, hrep⟩
  rw [remove, if_neg (by simp [h.allocated.valid_iff.2 hid]), if_neg hne]

/-! ### Children by name -/

theorem Rep.findChild_iff (h : t.Rep kids kids) :
    t.findChild p name .exact = some c ↔ c ∈ kids p ∧ t.name c = name := by
  have hidx : (t.names.find name).bind (fun nid => t.exact (p, nid)) = some c ↔
      c ∈ kids p ∧ t.name c = name := by
    simp only [Option.bind_eq_some_iff, h.indexed.exact_eq, StringPool.find_eq_some_iff]
    constructor
    · rintro ⟨n, ⟨-, hview⟩, hc, hn⟩
      exact ⟨hc, (name_eq hn).trans hview⟩
    · rintro ⟨hc, hname⟩
      obtain ⟨n, hn⟩ := Option.isSome_iff_exists.1 (h.indexed.named p c hc).1
      exact ⟨n, ⟨h.named.name_lt c n hn, (name_eq hn).symm.trans hname⟩, hc, hn⟩
  unfold findChild
  split_ifs with hp hmode
  · -- Only live directories have children.
    refine iff_of_false (by simp) fun ⟨hc, _⟩ => ?_
    obtain ⟨hl, hpar⟩ := (h.shaped.mem_order p c).1 hc
    have hlive := h.shaped.live_of_below hl (Relation.ReflTransGen.single hpar)
    have hdir : (t.nodes p).isDir = true := by
      by_contra hd
      rw [h.kids_eq_nil (by simpa using hd)] at hc
      cases hc
    simp [h.allocated.valid_iff.2 hlive, hdir] at hp
  · rw [← hidx]
    cases (t.names.find name).bind fun nid => t.exact (p, nid) <;> rfl
  · exact absurd rfl hmode

/-- **`upsert`** of a name in a live node: a node of this name is updated, otherwise one is
inserted. -/
theorem Rep.upsert_spec (h : t.Rep kids kids) (hp : t.isLive p) (name : Bytes) (attr : Attributes) :
    (∃ c, c ∈ kids p ∧ t.name c = name ∧
      ∃ t', t.upsert p name attr = (.ok c, t') ∧ Updated t t' c attr ∧ t'.WF) ∨
    ((∀ c ∈ kids p, t.name c ≠ name) ∧ t.upsert p name attr = t.insert p name attr) := by
  unfold upsert
  rw [if_neg (by simp [h.allocated.valid_iff.2 hp])]
  cases hfind : t.findChild p name .exact with
  | some c =>
    obtain ⟨hc, hname⟩ := h.findChild_iff.1 hfind
    obtain ⟨t', heq, hup, hwf⟩ := h.setAttributes_spec ((h.shaped.mem_order p c).1 hc).1 attr
    refine .inl ⟨c, hc, hname, t', ?_, hup, hwf⟩
    simp only [heq]
  | none =>
    refine .inr ⟨fun c hc hname => ?_, rfl⟩
    rw [h.findChild_iff.2 ⟨hc, hname⟩] at hfind
    cases hfind

theorem Rep.findChild_live (h : t.Rep kids kids) (hc : t.findChild p name .exact = some c) :
    t.isLive c ∧ c ≠ root := by
  obtain ⟨hl, hpar⟩ := (h.shaped.mem_order p c).1 (h.findChild_iff.1 hc).1
  refine ⟨hl, ?_⟩
  rintro rfl
  rw [h.shaped.root_parent] at hpar
  cases hpar

/-! ### Every operation keeps the representation -/

/-- `t'` has its representation, and its root is a directory if that of `t` is one. -/
structure Kept (t t' : MetadataTree) : Prop where
  wf : t'.WF
  root_dir : (t.nodes root).isDir = true → (t'.nodes root).isDir = true

theorem WF.kept_refl (h : t.WF) : Kept t t := ⟨h, fun hd => hd⟩

theorem Kept.trans {t'' : MetadataTree} (h : Kept t t') (h' : Kept t' t'') : Kept t t'' :=
  ⟨h'.wf, fun hd => h'.root_dir (h.root_dir hd)⟩

theorem SameAt.isDir (h : SameAt t t' x) : (t'.nodes x).isDir = (t.nodes x).isDir := by
  rw [Node.isDir, Node.isDir, h.attr]

theorem WF.kept_insert (h : t.WF) (p : NodeId) (name : Bytes) (attr : Attributes) :
    Kept t (t.insert p name attr).2 := by
  obtain ⟨kids, h⟩ := h
  obtain ⟨id, t', heq, -, hins, hrep⟩ | ⟨e, t', heq, -, hsame, hrep⟩ := h.insert_spec p name attr
  · rw [heq]
    exact ⟨⟨_, hrep⟩, fun hd => (hins.same root h.shaped.root_live).isDir.trans hd⟩
  · rw [heq]
    exact ⟨⟨_, hrep⟩, fun hd => (hsame.same root h.shaped.root_live).isDir.trans hd⟩

theorem WF.kept_rename (h : t.WF) (id newParent : NodeId) (newName : Bytes) :
    Kept t (t.rename id newParent newName).2 := by
  obtain ⟨kids, h⟩ := h
  obtain ⟨t', heq, hm, hmoved, hwf⟩ | ⟨e, t', heq, -, hsame, hwf⟩ :=
    h.rename_spec id newParent newName
  · rw [heq]
    exact ⟨hwf, fun hd => (hmoved.same root h.shaped.root_live hm.ne_root.symm).isDir.trans hd⟩
  · rw [heq]
    exact ⟨hwf, fun hd => (hsame.same root h.shaped.root_live).isDir.trans hd⟩

theorem WF.setAttributes (h : t.WF) (id : NodeId) (attr : Attributes) :
    (t.setAttributes id attr).2.WF ∧
      (id ≠ root ∨ attr.kind = .directory → Kept t (t.setAttributes id attr).2) := by
  obtain ⟨kids, h⟩ := h
  by_cases hid : t.isLive id
  · obtain ⟨t', heq, hup, hwf⟩ := h.setAttributes_spec hid attr
    rw [heq]
    refine ⟨hwf, fun hor => ⟨hwf, fun hd => ?_⟩⟩
    by_cases hroot : id = root
    · rw [← hroot, Node.isDir, hup.attr, hor.resolve_left (not_not.2 hroot)]
      rfl
    · obtain ⟨_, hr⟩ := hwf
      exact (hup.same root hr.shaped.root_live (Ne.symm hroot)).isDir.trans hd
  · rw [MetadataTree.setAttributes, if_pos (by rw [h.allocated.valid_eq_false hid]; rfl)]
    exact ⟨⟨kids, h⟩, fun _ => WF.kept_refl ⟨kids, h⟩⟩

theorem WF.kept_remove (h : t.WF) (id : NodeId) : Kept t (t.remove id).2 := by
  obtain ⟨kids, h⟩ := h
  by_cases hid : t.isLive id
  · by_cases hroot : id = root
    · rw [remove, if_neg (by simp [h.allocated.valid_iff.2 hid]), if_pos hroot]
      exact WF.kept_refl ⟨kids, h⟩
    · obtain ⟨t', heq, hrem, hwf⟩ := h.remove_spec hid hroot
      rw [heq]
      refine ⟨hwf, fun hd => ?_⟩
      obtain ⟨_, hr⟩ := hwf
      exact (hrem.same root hr.shaped.root_live).isDir.trans hd
  · rw [remove, if_pos (by rw [h.allocated.valid_eq_false hid]; rfl)]
    exact WF.kept_refl ⟨kids, h⟩

theorem WF.kept_upsert (h : t.WF) (p : NodeId) (name : Bytes) (attr : Attributes) :
    Kept t (t.upsert p name attr).2 := by
  obtain ⟨kids, h⟩ := h
  by_cases hp : t.isLive p
  · rcases h.upsert_spec hp name attr with ⟨c, hc, hname, t', heq, hup, hwf⟩ | ⟨-, heq⟩
    · rw [heq]
      have hne := (h.findChild_live (h.findChild_iff.2 ⟨hc, hname⟩)).2
      refine ⟨hwf, fun hd => ?_⟩
      obtain ⟨_, hr⟩ := hwf
      exact (hup.same root hr.shaped.root_live hne.symm).isDir.trans hd
    · rw [heq]
      exact WF.kept_insert ⟨kids, h⟩ p name attr
  · rw [upsert, if_pos (by rw [h.allocated.valid_eq_false hp]; rfl)]
    exact WF.kept_refl ⟨kids, h⟩

theorem WF.kept_ensureLoop (h : t.WF) (cur : NodeId) (comps : List Bytes) :
    Kept t (ensureLoop t cur comps).2 := by
  induction comps generalizing t cur with
  | nil => exact h.kept_refl
  | cons comp comps ih =>
    rw [ensureLoop]
    by_cases hskip : comp = [] ∨ comp = dot
    · rw [if_pos hskip]
      exact ih h cur
    rw [if_neg hskip]
    by_cases hdots : comp = dotdot
    · rw [if_pos hdots]
      exact h.kept_refl
    rw [if_neg hdots]
    cases t.findChild cur comp .exact with
    | some next =>
      dsimp only
      split_ifs
      · exact h.kept_refl
      · exact ih h next
    | none =>
      have hins := h.kept_insert cur comp kImplicitDirectory
      cases hr : t.insert cur comp kImplicitDirectory with
      | mk r t₁ =>
        rw [hr] at hins
        cases r with
        | error e => exact hins
        | ok created => exact hins.trans (ih hins.wf created)

theorem WF.kept_upsertPath (h : t.WF) (path : Bytes) (attr : Attributes) :
    Kept t (t.upsertPath path attr).2 := by
  rw [upsertPath]
  dsimp only
  split_ifs
  · exact h.kept_refl
  · have hens := h.kept_ensureLoop root (components (splitParent (normalizePath path)).1)
    rw [← ensureDirectoryPath] at hens
    cases hr : t.ensureDirectoryPath (splitParent (normalizePath path)).1 with
    | mk r t₁ =>
      rw [hr] at hens
      cases r with
      | error e => exact hens
      | ok dir => exact hens.trans (hens.wf.kept_upsert dir _ attr)

theorem WF.kept_removePath (h : t.WF) (path : Bytes) (mode : LookupMode) :
    Kept t (t.removePath path mode).2 := by
  rw [removePath]
  cases t.lookup path mode with
  | none => exact h.kept_refl
  | some id => exact h.kept_remove id

theorem WF.kept_dropped (h : t.WF) (n : ℕ) : Kept t { t with dropped := n } := by
  obtain ⟨kids, h⟩ := h
  exact ⟨⟨kids, h.linked.congr fun _ => ⟨rfl, rfl, rfl, rfl, rfl⟩,
    h.indexed.congr rfl rfl rfl rfl fun _ _ _ => ⟨rfl, rfl⟩,
    ⟨h.allocated.free_nodup, h.allocated.mem_free, h.allocated.lt_size, h.allocated.live_eq⟩,
    ⟨h.named.name_lt, h.named.folded, h.named.valid⟩,
    ⟨h.shaped.root_live, h.shaped.root_parent, h.shaped.mem_order, h.shaped.parent_live,
      h.shaped.to_root⟩⟩, fun hd => hd⟩

theorem WF.kept_loadLoop (h : t.WF) (ids : List (Option NodeId)) (es : List SnapshotEntry) :
    Kept t (loadLoop t ids es).2 := by
  induction es generalizing t ids with
  | nil => exact h.kept_refl
  | cons e es ih =>
    rw [loadLoop]
    cases ids[e.parent.toNat]? with
    | none => exact h.kept_refl
    | some parent =>
      cases parent with
      | none =>
        have hdrop := h.kept_dropped (t.dropped + 1)
        exact hdrop.trans (ih hdrop.wf _)
      | some parent =>
        have hins := h.kept_insert parent e.name e.attr
        dsimp only
        cases hr : t.insert parent e.name e.attr with
        | mk r t₁ =>
          rw [hr] at hins
          cases r with
          | error e =>
            have hdrop := hins.wf.kept_dropped (t₁.dropped + 1)
            exact (hins.trans hdrop).trans (ih hdrop.wf _)
          | ok id => exact hins.trans (ih hins.wf _)

theorem fresh_nodes (h : x ≠ root) : fresh.nodes x = {} := by
  simp [fresh, h]

theorem fresh_isLive : fresh.isLive x ↔ x = root := by
  by_cases hx : x = root
  · subst hx
    exact iff_of_true rfl rfl
  · rw [isLive, fresh_nodes hx]
    exact iff_of_false (by simp) hx

theorem wf_fresh : fresh.WF := by
  have hnil : ∀ x, (fresh.nodes x).firstChild = none ∧ (fresh.nodes x).lastChild = none ∧
      (fresh.nodes x).childCount = 0 ∧ (fresh.nodes x).parent = none := by
    intro x
    by_cases hx : x = root
    · subst hx
      exact ⟨rfl, rfl, rfl, rfl⟩
    · rw [fresh_nodes hx]
      exact ⟨rfl, rfl, rfl, rfl⟩
  have hname : ∀ {i n}, (fresh.nodes i).name = some n → i = root ∧ n = 0 := by
    intro i n hi
    have hroot : i = root := fresh_isLive.1 (by rw [isLive, hi]; rfl)
    subst hroot
    exact ⟨rfl, (Option.some.inj hi).symm⟩
  have hmem : ∀ {c : NodeId}, c ∉ ([] : List NodeId) := fun h => by simp at h
  refine ⟨fun _ => [],
    ⟨⟨fun p => (hnil p).1, fun p => (hnil p).2.1, ?_, ?_, fun _ => List.nodup_nil,
      fun _ _ _ h => absurd h hmem⟩, fun p => (hnil p).2.2.1⟩,
    ⟨fun _ => List.nodup_nil, fun _ _ h => absurd h hmem, fun _ _ _ => ?_, fun _ _ => rfl, rfl⟩,
    ⟨List.nodup_nil, fun i => ?_, fun i hi => ?_, rfl⟩,
    ⟨fun i n hi => ?_, fun i n hi => ?_, fun i n hi hne => ?_⟩,
    ⟨rfl, rfl, fun p c => ?_, fun c hc hne => ?_, fun c hc => ?_⟩⟩
  · intro p l c r h
    simp at h
  · intro p l c r h
    simp at h
  · exact iff_of_false (by simp [fresh]) (by simp)
  · rw [fresh_isLive]
    refine iff_of_false (by simp [fresh]) ?_
    rintro ⟨hlt, hne⟩
    exact hne (Nat.lt_one_iff.1 hlt)
  · rw [fresh_isLive.1 hi]
    exact Nat.one_pos
  · obtain ⟨-, rfl⟩ := hname hi
    exact Nat.one_pos
  · obtain ⟨rfl, rfl⟩ := hname hi
    exact ⟨0, rfl, Nat.one_pos, rfl⟩
  · exact absurd (hname hi).1 hne
  · rw [(hnil c).2.2.2]
    exact iff_of_false (by simp) (by simp)
  · exact absurd (fresh_isLive.1 hc) hne
  · rw [fresh_isLive.1 hc]

/-! ### Runs -/

/-- The operations that change a tree. -/
inductive Op where
  | insert (parent : NodeId) (name : Bytes) (attr : Attributes)
  | upsert (parent : NodeId) (name : Bytes) (attr : Attributes)
  | setAttributes (id : NodeId) (attr : Attributes)
  | remove (id : NodeId)
  | rename (id newParent : NodeId) (newName : Bytes)
  | ensureDirectoryPath (path : Bytes)
  | upsertPath (path : Bytes) (attr : Attributes)
  | removePath (path : Bytes) (mode : LookupMode)
  | loadSnapshot (entries : List SnapshotEntry)
  | clear

/-- The result of an operation, with the id of the node it returns. -/
def outcome {α : Type} (f : α → Option NodeId) (r : Except Errc α × MetadataTree) :
    Except Errc (Option NodeId) × MetadataTree := (r.1.map f, r.2)

/-- One operation. -/
def apply (t : MetadataTree) : Op → Except Errc (Option NodeId) × MetadataTree
  | .insert parent name attr => outcome some (t.insert parent name attr)
  | .upsert parent name attr => outcome some (t.upsert parent name attr)
  | .setAttributes id attr => outcome (fun _ => none) (t.setAttributes id attr)
  | .remove id => outcome (fun _ => none) (t.remove id)
  | .rename id newParent newName => outcome (fun _ => none) (t.rename id newParent newName)
  | .ensureDirectoryPath path => outcome some (t.ensureDirectoryPath path)
  | .upsertPath path attr => outcome some (t.upsertPath path attr)
  | .removePath path mode => outcome (fun _ => none) (t.removePath path mode)
  | .loadSnapshot entries => outcome (fun _ => none) (t.loadSnapshot entries)
  | .clear => (.ok none, t.clear)

/-- The tree after a sequence of operations, successful or failing. -/
def run (ops : List Op) : MetadataTree := ops.foldl (fun t op => (t.apply op).2) fresh

/-- The operation does not make the root something other than a directory. -/
def Op.keepsRoot : Op → Bool
  | .setAttributes id attr => id != root || attr.kind == .directory
  | _ => true

theorem WF.apply (h : t.WF) (op : Op) : (t.apply op).2.WF := by
  cases op with
  | insert parent name attr => exact (h.kept_insert parent name attr).wf
  | upsert parent name attr => exact (h.kept_upsert parent name attr).wf
  | setAttributes id attr => exact (h.setAttributes id attr).1
  | remove id => exact (h.kept_remove id).wf
  | rename id newParent newName => exact (h.kept_rename id newParent newName).wf
  | ensureDirectoryPath path => exact (h.kept_ensureLoop root _).wf
  | upsertPath path attr => exact (h.kept_upsertPath path attr).wf
  | removePath path mode => exact (h.kept_removePath path mode).wf
  | loadSnapshot entries => exact (wf_fresh.kept_loadLoop _ entries).wf
  | clear => exact wf_fresh

theorem WF.apply_root_dir (h : t.WF) {op : Op} (hop : op.keepsRoot = true)
    (hd : (t.nodes root).isDir = true) : ((t.apply op).2.nodes root).isDir = true := by
  cases op with
  | insert parent name attr => exact (h.kept_insert parent name attr).root_dir hd
  | upsert parent name attr => exact (h.kept_upsert parent name attr).root_dir hd
  | setAttributes id attr =>
    exact ((h.setAttributes id attr).2 (by simpa [Op.keepsRoot] using hop)).root_dir hd
  | remove id => exact (h.kept_remove id).root_dir hd
  | rename id newParent newName => exact (h.kept_rename id newParent newName).root_dir hd
  | ensureDirectoryPath path => exact (h.kept_ensureLoop root _).root_dir hd
  | upsertPath path attr => exact (h.kept_upsertPath path attr).root_dir hd
  | removePath path mode => exact (h.kept_removePath path mode).root_dir hd
  | loadSnapshot entries => exact (wf_fresh.kept_loadLoop _ entries).root_dir rfl
  | clear => rfl

/-- **Every reachable tree has its representation.** -/
theorem wf_run (ops : List Op) : (run ops).WF := by
  induction ops using List.reverseRecOn with
  | nil => exact wf_fresh
  | append_singleton ops op ih =>
    rw [run, List.foldl_append]
    exact ih.apply op

theorem run_root_dir {ops : List Op} (hops : ∀ op ∈ ops, op.keepsRoot = true) :
    ((run ops).nodes root).isDir = true := by
  induction ops using List.reverseRecOn with
  | nil => rfl
  | append_singleton ops op ih =>
    rw [run, List.foldl_append]
    exact (wf_run ops).apply_root_dir (hops op (by simp)) (ih fun o ho => hops o (by simp [ho]))

end MetadataTree

end WslDrive
