import WslDrive.Core.Tree.Ops
import WslDrive.Lib.Labelled

/-!
# The tree as a map from paths

What a metadata tree is for: a map from the component paths of its nodes to their attributes.

* `PathMap` — such maps, and what the operations do to them;
* `WF.toLTree` — a tree with its representation is a labelled tree;
* `WF.walk_iff` — walking along the children follows its paths;
* `Inserted.paths_eq`, `Removed.paths_eq`, `Updated.paths_eq`, `Moved.paths_eq` — what the changes
  of a tree do to its map.
-/

namespace WslDrive

open MetadataTree Path

/-- The attributes of the nodes, by the names on the way from the root. -/
abbrev PathMap := List Bytes → Option Attributes

namespace PathMap

/-- One more entry. -/
def add (p : List Bytes) (a : Attributes) (M : PathMap) : PathMap := Function.update M p (some a)

/-- Without an entry and all below it. -/
def cut (p : List Bytes) (M : PathMap) : PathMap := fun s => if p <+: s then none else M s

/-- One entry with other attributes; what is not a directory has nothing below it. -/
def set (p : List Bytes) (a : Attributes) (M : PathMap) : PathMap := fun s =>
  if s = p then some a else if a.kind ≠ .directory ∧ p <+: s then none else M s

/-- An entry and all below it under another path. -/
def move (p q : List Bytes) (M : PathMap) : PathMap := fun s =>
  if q <+: s then M (p ++ s.drop q.length) else if p <+: s then none else M s

/-- The missing directories on the way to a path. -/
def fill (p : List Bytes) (M : PathMap) : PathMap := fun s =>
  if s <+: p ∧ M s = none then some kImplicitDirectory else M s

section

variable {M : PathMap} {p s : List Bytes} {a : Attributes}

theorem add_self : M.add p a p = some a := Function.update_self ..

theorem add_of_ne (h : s ≠ p) : M.add p a s = M s := Function.update_of_ne h ..

theorem cut_of_below (h : p <+: s) : M.cut p s = none := if_pos h

theorem cut_of_not_below (h : ¬ p <+: s) : M.cut p s = M s := if_neg h

theorem of_cut_ne_none (h : M.cut p s ≠ none) : ¬ p <+: s ∧ M s ≠ none := by
  have hs : ¬ p <+: s := fun hs => h (cut_of_below hs)
  rw [cut_of_not_below hs] at h
  exact ⟨hs, h⟩

theorem of_cut_eq_some (h : M.cut p s = some a) : ¬ p <+: s ∧ M s = some a := by
  have hs := (of_cut_ne_none (by rw [h]; simp)).1
  rw [cut_of_not_below hs] at h
  exact ⟨hs, h⟩

theorem set_self : M.set p a p = some a := if_pos rfl

theorem set_of_not_below (h : ¬ p <+: s) : M.set p a s = M s := by
  have hne : s ≠ p := by
    rintro rfl
    exact h (List.prefix_refl _)
  rw [set, if_neg hne, if_neg fun hs => h hs.2]

theorem fill_of_not_above (h : ¬ s <+: p) : M.fill p s = M s := if_neg fun hs => h hs.1

theorem fill_of_some (h : M s = some a) : M.fill p s = some a := by
  rw [fill, if_neg (by simp [h]), h]

theorem fill_ne_none (h : M s ≠ none) : M.fill p s ≠ none := by
  obtain ⟨a, ha⟩ := Option.ne_none_iff_exists'.1 h
  rw [fill_of_some ha]
  simp

theorem fill_self_ne_none : M.fill p p ≠ none := by
  by_cases h : M p = none
  · rw [fill, if_pos ⟨List.prefix_refl p, h⟩]
    simp
  · exact fill_ne_none h

end

/-- Only the root. -/
def empty : PathMap := fun s => if s = [] then some kImplicitDirectory else none

/-- A directory has room for an entry. -/
def free (M : PathMap) (p : List Bytes) (name : Bytes) : Bool :=
  (M p).any (·.kind == .directory) && validName name && (M (p ++ [name])).isNone

/-- The entries of a snapshot, one after the other, with the paths of those so far. -/
def load : PathMap → List (Option (List Bytes)) → List SnapshotEntry → PathMap
  | M, _, [] => M
  | M, paths, e :: es =>
    match paths[e.parent.toNat]? with
    | none => M
    | some none => load M (paths ++ [none]) es
    | some (some p) =>
      if M.free p e.name then
        load (M.add (p ++ [e.name]) e.attr) (paths ++ [some (p ++ [e.name])]) es
      else load M (paths ++ [none]) es

end PathMap

namespace MetadataTree

variable {t t' : MetadataTree} {kids : NodeId → List NodeId} {p c id x y : NodeId} {name : Bytes}
  {attr : Attributes} {s : List Bytes}

/-- The node at a component path, along the lists of children. -/
def walk (t : MetadataTree) (s : List Bytes) : Option NodeId :=
  s.foldlM (fun x n => (t.children x).find? fun c => t.name c = n) root

/-- **The map of a tree**, from the paths of its nodes to their attributes. -/
def paths (t : MetadataTree) : PathMap := fun s => (t.walk s).map fun id => (t.nodes id).attr

/-- The names of a node and its ancestors below the root. -/
def location (t : MetadataTree) (id : NodeId) : List Bytes := (t.chain t.size id).map t.name

/-! ### The labelled tree -/

theorem WF.rep (h : t.WF) : ∃ kids, t.Rep kids kids := h

/-- The children of a node are told apart by their names. -/
def WF.toLTree (h : t.WF) : LTree NodeId Bytes where
  root := root
  edge p c := t.isLive c ∧ (t.nodes c).parent = some p
  label := t.name
  parent_unique hp hq := Option.some.inj (hp.2.symm.trans hq.2)
  not_edge_root p hp := by
    obtain ⟨kids, h⟩ := h
    have := hp.2
    rw [h.shaped.root_parent] at this
    cases this
  label_inj hc hd hn := by
    obtain ⟨kids, h⟩ := h
    have hc' := h.findChild_iff.2 ⟨(h.shaped.mem_order _ _).2 hc, rfl⟩
    have hd' := h.findChild_iff.2 ⟨(h.shaped.mem_order _ _).2 hd, rfl⟩
    rw [hn] at hc'
    exact Option.some.inj (hc'.symm.trans hd')

theorem Rep.children_eq (h : t.Rep kids kids) (p : NodeId) : t.children p = kids p :=
  h.linked.children_eq fun c hc => h.allocated.lt_size c ((h.shaped.mem_order p c).1 hc).1

theorem WF.mem_children (h : t.WF) : c ∈ t.children p ↔ h.toLTree.edge p c := by
  obtain ⟨kids, hr⟩ := h
  rw [hr.children_eq]
  exact hr.shaped.mem_order p c

theorem WF.find?_children (h : t.WF) :
    ((t.children p).find? fun c => t.name c = name) = some c ↔
      h.toLTree.edge p c ∧ t.name c = name := by
  rw [← h.mem_children]
  constructor
  · intro hc
    exact ⟨List.mem_of_find?_eq_some hc, by simpa using List.find?_some hc⟩
  · rintro ⟨hc, hn⟩
    cases hf : (t.children p).find? fun c => t.name c = name with
    | none =>
      rw [List.find?_eq_none] at hf
      exact absurd hn (by simpa using hf c hc)
    | some d =>
      have hd := List.mem_of_find?_eq_some hf
      have hdn : t.name d = name := by simpa using List.find?_some hf
      rw [h.toLTree.label_inj (h.mem_children.1 hd) (h.mem_children.1 hc) (hdn.trans hn.symm)]

theorem WF.foldlM_iff (h : t.WF) {f : NodeId → Bytes → Option NodeId}
    (hf : ∀ x n c, f x n = some c ↔ h.toLTree.edge x c ∧ t.name c = n) :
    s.foldlM f x = some y ↔ h.toLTree.Walk x s y := by
  induction s generalizing x with
  | nil =>
    rw [LTree.walk_nil_iff]
    exact Option.some_inj
  | cons n s ih =>
    rw [List.foldlM_cons, LTree.walk_cons_iff]
    simp only [Option.bind_eq_bind, Option.bind_eq_some_iff, hf, ih, and_assoc]
    rfl

theorem WF.walk_iff (h : t.WF) : t.walk s = some y ↔ h.toLTree.Walk root s y :=
  h.foldlM_iff fun _ _ _ => h.find?_children

theorem WF.paths_eq_some (h : t.WF) :
    t.paths s = some attr ↔ ∃ y, h.toLTree.Walk root s y ∧ (t.nodes y).attr = attr := by
  simp only [paths, Option.map_eq_some_iff, h.walk_iff]

theorem WF.paths_eq_none (h : t.WF) : t.paths s = none ↔ ∀ y, ¬ h.toLTree.Walk root s y := by
  rw [paths, Option.map_eq_none_iff, Option.eq_none_iff_forall_ne_some]
  simp only [ne_eq, h.walk_iff]

theorem WF.isLive_of_walk (h : t.WF) (hw : h.toLTree.Walk root s y) : t.isLive y := by
  rcases List.eq_nil_or_concat s with rfl | ⟨s, l, rfl⟩
  · obtain rfl := LTree.walk_nil_iff.1 hw
    obtain ⟨kids, hr⟩ := h
    exact hr.shaped.root_live
  · rw [List.concat_eq_append] at hw
    obtain ⟨z, -, hz, -⟩ := LTree.walk_snoc_iff.1 hw
    exact hz.1

theorem WF.below_iff (h : t.WF) (hx : t.isLive x) : h.toLTree.Below id x ↔ t.Below id x := by
  constructor
  · rintro ⟨s, hs⟩
    induction hs with
    | nil => exact Relation.ReflTransGen.refl
    | cons hc _ ih => exact (ih hx).tail hc.2
  · intro hb
    induction hb using Relation.ReflTransGen.head_induction_on with
    | refl => exact LTree.below_self id
    | @head a b hab _ ih =>
      obtain ⟨kids, hr⟩ := h.rep
      have hb := hr.shaped.live_of_below hx (Relation.ReflTransGen.single hab)
      exact (ih hb).step ⟨hx, hab⟩

theorem WF.exists_walk (h : t.WF) (hx : t.isLive x) : ∃ s, h.toLTree.Walk root s x := by
  obtain ⟨kids, hr⟩ := h.rep
  exact (h.below_iff hx).2 (hr.shaped.to_root x hx)

theorem WF.walk_location (h : t.WF) (hx : t.isLive x) : h.toLTree.Walk root (t.location x) x := by
  obtain ⟨kids, hr⟩ := h.rep
  suffices hchain : ∀ fuel a, t.isLive a → t.height a ≤ fuel →
      h.toLTree.Walk root ((t.chain fuel a).map t.name) a from
    hchain t.size x hx (t.height_le x)
  intro fuel
  induction fuel with
  | zero =>
    intro a ha hle
    have hpos := hr.height_pos ha
    omega
  | succ fuel ih =>
    intro a ha hle
    rw [chain]
    split_ifs with hroot
    · rw [hroot]
      exact .nil _
    · obtain ⟨q, hq, hqlive, -⟩ := hr.shaped.parent_live a ha hroot
      have hlt := hr.height_lt ((hr.shaped.mem_order q a).2 ⟨ha, hq⟩)
      rw [hq]
      dsimp only
      rw [List.map_append]
      exact (ih q hqlive (by omega)).snoc ⟨ha, hq⟩

/-! ### Effects on the map -/

theorem WF.paths_ext (h' : t'.WF) {M : PathMap}
    (hM : ∀ s a, (∃ y, h'.toLTree.Walk root s y ∧ (t'.nodes y).attr = a) ↔ M s = some a) :
    t'.paths = M := by
  funext s
  refine Option.ext fun a => ?_
  rw [← hM]
  exact h'.paths_eq_some

theorem SameTree.symm (hs : SameTree t t') : SameTree t' t where
  isLive x := (hs.isLive x).symm
  same x hx := by
    have h := hs.same x ((hs.isLive x).1 hx)
    exact ⟨h.name.symm, h.parent.symm, h.attr.symm⟩

theorem SameTree.walk (hs : SameTree t t') (h : t.WF) (h' : t'.WF)
    (hw : h.toLTree.Walk root s x) : h'.toLTree.Walk root s x := by
  have hstep : ∀ a c, h.toLTree.edge a c → True → h'.toLTree.edge a c ∧
      h'.toLTree.label c = h.toLTree.label c ∧ True := fun a c hc _ =>
    ⟨⟨(hs.isLive c).2 hc.1, (hs.same c hc.1).parent.trans hc.2⟩, (hs.same c hc.1).name, trivial⟩
  exact (hw.mono trivial hstep).1

theorem SameTree.paths_eq (hs : SameTree t t') (h : t.WF) (h' : t'.WF) : t'.paths = t.paths := by
  refine h'.paths_ext fun s a => ?_
  rw [h.paths_eq_some]
  constructor
  · rintro ⟨y, hw, rfl⟩
    have hw' := hs.symm.walk h' h hw
    exact ⟨y, hw', (hs.same y (h.isLive_of_walk hw')).attr.symm⟩
  · rintro ⟨y, hw, rfl⟩
    exact ⟨y, hs.walk h h' hw, (hs.same y (h.isLive_of_walk hw)).attr⟩

theorem Inserted.walk_iff (hi : Inserted t t' p id name attr) (h : t.WF) (h' : t'.WF)
    (hp : t.isLive p) : h'.toLTree.Walk root s y ↔
      h.toLTree.Walk root s y ∨ (y = id ∧ ∃ q, h.toLTree.Walk root q p ∧ s = q ++ [name]) := by
  obtain ⟨kids, hr⟩ := h.rep
  have hpid : p ≠ id := fun hpi => hi.fresh (hpi ▸ hp)
  have hedge : ∀ x c, h'.toLTree.edge x c ↔ h.toLTree.edge x c ∨ (x = p ∧ c = id) := by
    intro x c
    show _ ∧ _ ↔ (_ ∧ _) ∨ _
    rw [hi.isLive]
    constructor
    · rintro ⟨hc | rfl, hx⟩
      · exact .inl ⟨hc, (hi.same c hc).parent.symm.trans hx⟩
      · exact .inr ⟨Option.some.inj (hx.symm.trans hi.parent), rfl⟩
    · rintro (⟨hc, hx⟩ | ⟨rfl, rfl⟩)
      · exact ⟨.inl hc, (hi.same c hc).parent.trans hx⟩
      · exact ⟨.inr rfl, hi.parent⟩
  have hleaf : ∀ c, ¬ h.toLTree.edge id c := fun c hc =>
    hi.fresh (hr.shaped.live_of_below hc.1 (Relation.ReflTransGen.single hc.2))
  have hlabel : h'.toLTree.label id = name := hi.name
  rw [← hlabel]
  exact LTree.walk_insert rfl hpid hleaf hedge fun x c hc => (hi.same c hc.1).name

/-- **Insertion adds one entry.** -/
theorem Inserted.paths_eq (hi : Inserted t t' p id name attr) (h : t.WF) (h' : t'.WF)
    (hp : h.toLTree.Walk root s p) (habs : ∀ c, h.toLTree.edge p c → t.name c ≠ name) :
    t.paths (s ++ [name]) = none ∧ t'.paths = t.paths.add (s ++ [name]) attr := by
  have hnone : ∀ y, ¬ h.toLTree.Walk root (s ++ [name]) y := by
    intro y hy
    obtain ⟨z, hz, hzy, hname⟩ := LTree.walk_snoc_iff.1 hy
    obtain rfl := hp.unique hz
    exact habs y hzy hname
  refine ⟨h.paths_eq_none.2 hnone, h'.paths_ext fun u a => ?_⟩
  simp only [hi.walk_iff h h' (h.isLive_of_walk hp), PathMap.add]
  by_cases hu : u = s ++ [name]
  · subst hu
    rw [Function.update_self]
    constructor
    · rintro ⟨y, hw | ⟨rfl, -⟩, ha⟩
      · exact absurd hw (hnone y)
      · rw [← ha, hi.attr]
    · intro ha
      exact ⟨id, .inr ⟨rfl, s, hp, rfl⟩, hi.attr.trans (Option.some.inj ha)⟩
  · rw [Function.update_of_ne hu, h.paths_eq_some]
    constructor
    · rintro ⟨y, hw | ⟨-, q, hq, rfl⟩, ha⟩
      · exact ⟨y, hw, (hi.same y (h.isLive_of_walk hw)).attr.symm.trans ha⟩
      · exact absurd (by rw [hq.path_unique hp]) hu
    · rintro ⟨y, hw, ha⟩
      exact ⟨y, .inl hw, (hi.same y (h.isLive_of_walk hw)).attr.trans ha⟩

theorem WF.walk_restrict (h : t.WF) (h' : t'.WF) {P : NodeId → Prop}
    (hlive : ∀ x, t'.isLive x ↔ t.isLive x ∧ P x) (hP : P root)
    (hup : ∀ x c, h.toLTree.edge x c → P c → P x)
    (hsame : ∀ x, t'.isLive x →
      t'.name x = t.name x ∧ (t'.nodes x).parent = (t.nodes x).parent) :
    h'.toLTree.Walk root s y ↔ h.toLTree.Walk root s y ∧ P y := by
  refine LTree.walk_restrict rfl hP hup (fun x c => ?_) fun x c hc => (hsame c hc.1).1
  show _ ∧ _ ↔ (_ ∧ _) ∧ _
  constructor
  · rintro ⟨hc, hx⟩
    exact ⟨⟨((hlive c).1 hc).1, (hsame c hc).2.symm.trans hx⟩, ((hlive c).1 hc).2⟩
  · rintro ⟨⟨hc, hx⟩, hPc⟩
    have hc' := (hlive c).2 ⟨hc, hPc⟩
    exact ⟨hc', (hsame c hc').2.trans hx⟩

theorem Removed.walk_iff (hm : Removed t t' id) (h : t.WF) (h' : t'.WF) (hne : id ≠ root)
    {u : List Bytes} :
    h'.toLTree.Walk root u y ↔ h.toLTree.Walk root u y ∧ ¬ h.toLTree.Below id y := by
  have hlive : ∀ x, t'.isLive x ↔ t.isLive x ∧ ¬ h.toLTree.Below id x := by
    intro x
    rw [hm.isLive]
    exact and_congr_right fun hx => not_congr (h.below_iff hx).symm
  exact h.walk_restrict h' hlive (LTree.not_below_root hne) (fun x c hc hb hx => hb (hx.step hc))
    fun x hx => ⟨(hm.same x hx).name, (hm.same x hx).parent⟩

/-- **Removal deletes an entry and all below it.** -/
theorem Removed.paths_eq (hm : Removed t t' id) (h : t.WF) (h' : t'.WF)
    (hid : h.toLTree.Walk root s id) (hne : id ≠ root) : t'.paths = t.paths.cut s := by
  have hwalk : ∀ u y, h'.toLTree.Walk root u y ↔
      h.toLTree.Walk root u y ∧ ¬ h.toLTree.Below id y := fun u y => hm.walk_iff h h' hne
  refine h'.paths_ext fun u a => ?_
  simp only [hwalk, PathMap.cut]
  split_ifs with hpre
  · refine iff_of_false ?_ (by simp)
    rintro ⟨y, ⟨hw, hb⟩, -⟩
    exact hb ((LTree.below_iff_prefix hid hw).2 hpre)
  · rw [h.paths_eq_some]
    constructor
    · rintro ⟨y, ⟨hw, hb⟩, ha⟩
      exact ⟨y, hw, (hm.same y (h'.isLive_of_walk ((hwalk u y).2 ⟨hw, hb⟩))).attr.symm.trans ha⟩
    · rintro ⟨y, hw, ha⟩
      have hb : ¬ h.toLTree.Below id y := fun hb => hpre ((LTree.below_iff_prefix hid hw).1 hb)
      exact ⟨y, ⟨hw, hb⟩, (hm.same y (h'.isLive_of_walk ((hwalk u y).2 ⟨hw, hb⟩))).attr.trans ha⟩

/-- **New attributes replace one entry**, and what is not a directory has nothing below it. -/
theorem Updated.paths_eq (hm : Updated t t' id attr) (h : t.WF) (h' : t'.WF)
    (hid : h.toLTree.Walk root s id) : t'.paths = t.paths.set s attr := by
  have hlive : ∀ x, t'.isLive x ↔
      t.isLive x ∧ (attr.kind = .directory ∨ x = id ∨ ¬ h.toLTree.Below id x) := by
    intro x
    rw [hm.isLive]
    exact and_congr_right fun hx => by rw [h.below_iff hx]
  have hid' : t'.isLive id := (hlive id).2 ⟨h.isLive_of_walk hid, .inr (.inl rfl)⟩
  have hsame : ∀ x, t'.isLive x → t'.name x = t.name x ∧
      (t'.nodes x).parent = (t.nodes x).parent := by
    intro x hx
    by_cases hxi : x = id
    · rw [hxi]
      exact ⟨hm.name, hm.parent⟩
    · exact ⟨(hm.same x hx hxi).name, (hm.same x hx hxi).parent⟩
  have hroot : root = id ∨ ¬ h.toLTree.Below id root :=
    or_iff_not_imp_left.2 fun hne => LTree.not_below_root (Ne.symm hne)
  have hwalk : ∀ u y, h'.toLTree.Walk root u y ↔ h.toLTree.Walk root u y ∧
      (attr.kind = .directory ∨ y = id ∨ ¬ h.toLTree.Below id y) := by
    refine fun u y => h.walk_restrict h' hlive (.inr hroot) (fun x c hc hP => ?_) hsame
    rcases hP with hd | rfl | hb
    · exact .inl hd
    · -- The parent of the node is not below it.
      obtain ⟨v, hv⟩ := h.exists_walk ((h.rep).elim fun _ hr =>
        hr.shaped.live_of_below hc.1 (Relation.ReflTransGen.single hc.2))
      exact .inr (.inr (LTree.not_below_of_edge hv hc))
    · exact .inr (.inr fun hx => hb (hx.step hc))
  refine h'.paths_ext fun u a => ?_
  simp only [hwalk, PathMap.set]
  split_ifs with hu hpre
  · subst hu
    constructor
    · rintro ⟨y, ⟨hw, -⟩, ha⟩
      obtain rfl := hid.unique hw
      rw [← ha, hm.attr]
    · intro ha
      exact ⟨id, ⟨hid, .inr (.inl rfl)⟩, hm.attr.trans (Option.some.inj ha)⟩
  · refine iff_of_false ?_ (by simp)
    rintro ⟨y, ⟨hw, hP⟩, -⟩
    rcases hP with hd | rfl | hb
    · exact hpre.1 hd
    · exact hu (hw.path_unique hid)
    · exact hb ((LTree.below_iff_prefix hid hw).2 hpre.2)
  · rw [h.paths_eq_some]
    have hne : ∀ {y}, h.toLTree.Walk root u y → y ≠ id := fun hw hy =>
      hu ((hy ▸ hw).path_unique hid)
    constructor
    · rintro ⟨y, ⟨hw, hP⟩, ha⟩
      have hl := h'.isLive_of_walk ((hwalk u y).2 ⟨hw, hP⟩)
      exact ⟨y, hw, (hm.same y hl (hne hw)).attr.symm.trans ha⟩
    · rintro ⟨y, hw, ha⟩
      have hP : attr.kind = .directory ∨ y = id ∨ ¬ h.toLTree.Below id y := by
        by_cases hd : attr.kind = .directory
        · exact .inl hd
        · exact .inr (.inr fun hb => hpre ⟨hd, (LTree.below_iff_prefix hid hw).1 hb⟩)
      have hl := h'.isLive_of_walk ((hwalk u y).2 ⟨hw, hP⟩)
      exact ⟨y, ⟨hw, hP⟩, (hm.same y hl (hne hw)).attr.trans ha⟩

/-- **Renaming moves an entry and all below it.** -/
theorem Moved.paths_eq {np : NodeId} {nn : Bytes} {q : List Bytes} (hm : Moved t t' id np nn)
    (h : t.WF) (h' : t'.WF) (hne : id ≠ root) (hid : h.toLTree.Walk root s id)
    (hnp : h.toLTree.Walk root q np) (hb : ¬ t.Below id np)
    (habs : ∀ c, h.toLTree.edge np c → t.name c = nn → c = id) :
    t'.paths = t.paths.move s (q ++ [nn]) := by
  have hbelow : ¬ h.toLTree.Below id np := fun hb' =>
    hb ((h.below_iff (h.isLive_of_walk hnp)).1 hb')
  have hattr : ∀ y, t.isLive y → (t'.nodes y).attr = (t.nodes y).attr := by
    intro y hy
    by_cases hyi : y = id
    · rw [hyi]
      exact hm.attr
    · exact (hm.same y hy hyi).attr
  have hedge : ∀ x c, h'.toLTree.edge x c ↔
      (c ≠ id ∧ h.toLTree.edge x c) ∨ (c = id ∧ x = np) := by
    intro x c
    show _ ∧ _ ↔ (_ ∧ _ ∧ _) ∨ _
    rw [hm.isLive]
    by_cases hc : c = id
    · subst hc
      rw [hm.parent]
      simp [h.isLive_of_walk hid, eq_comm]
    · simp only [hc, not_false_eq_true, true_and, false_and, or_false, ne_eq]
      exact and_congr_right fun hl => by rw [(hm.same c hl hc).parent]
  have hwalk : ∀ u y, h'.toLTree.Walk root u y ↔
      (h.toLTree.Walk root u y ∧ ¬ h.toLTree.Below id y) ∨
        ∃ v, u = (q ++ [nn]) ++ v ∧ h.toLTree.Walk id v y := by
    intro u y
    have hlabel : h'.toLTree.label id = nn := hm.name
    simp only [List.append_assoc, List.singleton_append, ← hlabel]
    exact LTree.walk_move rfl hne hid hnp hbelow hedge fun x c hc he => (hm.same c he.1 hc).name
  refine h'.paths_ext fun u a => ?_
  simp only [hwalk, PathMap.move]
  by_cases hpre : q ++ [nn] <+: u
  · rw [if_pos hpre]
    obtain ⟨v, rfl⟩ := hpre
    rw [List.drop_left, h.paths_eq_some]
    have hrest : ∀ y, h.toLTree.Walk root (s ++ v) y ↔ h.toLTree.Walk id v y := fun y =>
      (LTree.walk_iff_append hid).symm
    simp only [hrest]
    constructor
    · rintro ⟨y, ⟨hw, hb⟩ | ⟨w, hw, hy⟩, ha⟩
      · -- Whatever had the new path before is the node itself.
        obtain ⟨z, hz, hzy⟩ := LTree.walk_append_iff.1 hw
        obtain ⟨np', hnp', hedge', hname⟩ := LTree.walk_snoc_iff.1 hz
        obtain rfl := hnp.unique hnp'
        obtain rfl := habs z hedge' hname
        exact absurd ⟨v, hzy⟩ hb
      · obtain rfl := List.append_cancel_left hw
        have hl := h.isLive_of_walk (hid.append hy)
        exact ⟨y, hy, (hattr y hl).symm.trans ha⟩
    · rintro ⟨y, hy, ha⟩
      have hl := h.isLive_of_walk (hid.append hy)
      exact ⟨y, .inr ⟨v, rfl, hy⟩, (hattr y hl).trans ha⟩
  · rw [if_neg hpre]
    have hno : ∀ {y}, ¬ ∃ v, u = (q ++ [nn]) ++ v ∧ h.toLTree.Walk id v y := by
      rintro y ⟨v, rfl, -⟩
      exact hpre (List.prefix_append _ _)
    split_ifs with hold
    · refine iff_of_false ?_ (by simp)
      rintro ⟨y, ⟨hw, hb⟩ | hw, -⟩
      · exact hb ((LTree.below_iff_prefix hid hw).2 hold)
      · exact hno hw
    · rw [h.paths_eq_some]
      constructor
      · rintro ⟨y, ⟨hw, -⟩ | hw, ha⟩
        · exact ⟨y, hw, (hattr y (h.isLive_of_walk hw)).symm.trans ha⟩
        · exact absurd hw hno
      · rintro ⟨y, hw, ha⟩
        exact ⟨y, .inl ⟨hw, fun hb => hold ((LTree.below_iff_prefix hid hw).1 hb)⟩,
          (hattr y (h.isLive_of_walk hw)).trans ha⟩

end MetadataTree

end WslDrive
