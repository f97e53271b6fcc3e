import WslDrive.Core.Tree.Load
import WslDrive.Core.Tree.Folded
import WslDrive.Core.Tree.Safety
import WslDrive.Lib.Breadth

/-!
# Exporting a tree

`export_snapshot` hands out the nodes of a tree breadth first, and `load_snapshot` builds a tree
from them.  The two trees have different ids and different pools of names, but the same paths and
the same order of siblings, and that is all a lookup depends on: the folded index of a tree, for
all its history, gives the first sibling with a folding.

* `WF.findChild_eq` — both ways to look a child up, in terms of the siblings alone;
* `WF.collisions_eq_ncard` — the collisions, likewise;
* `Twins` — two trees with the same paths and the same order of siblings;
* `export_load_roundTrip` — the loaded tree is a twin of the exported one.
-/

namespace WslDrive

open MetadataTree Path Unicode

namespace MetadataTree

variable {t u : MetadataTree} {p c x y : NodeId} {name : Bytes} {mode : LookupMode}
  {q : List Bytes}

/-- The variables of `export_snapshot`. -/
structure Exporting where
  out : List SnapshotEntry
  queue : List (NodeId × UInt32)
  nextIndex : UInt32

/-- One child of the node with index `idx`. -/
def exportChild (t : MetadataTree) (idx : UInt32) (s : Exporting) (c : NodeId) : Exporting where
  out := s.out ++ [⟨idx, t.name c, (t.nodes c).attr⟩]
  queue := s.queue ++ if (t.nodes c).isDir then [(c, s.nextIndex)] else []
  nextIndex := s.nextIndex + 1

/-- The loop over the queue. -/
def exportLoop (t : MetadataTree) : ℕ → Exporting → Exporting
  | 0, s => s
  | fuel + 1, s =>
    match s.queue with
    | [] => s
    | (id, idx) :: queue =>
      exportLoop t fuel ((t.children id).foldl (t.exportChild idx) { s with queue })

/-- `export_snapshot`; every node is in the queue once at most. -/
def exportSnapshot (t : MetadataTree) : List SnapshotEntry :=
  (t.exportLoop t.size ⟨[], [(root, 0)], 1⟩).out

/-- The names of the children of a node, in sibling order. -/
def childNames (t : MetadataTree) (x : NodeId) : List Bytes := (t.children x).map t.name

/-- The names of the children at a path, in sibling order. -/
def siblings (t : MetadataTree) (q : List Bytes) : Option (List Bytes) :=
  (t.walk q).map t.childNames

/-! ### What the indexes say -/

theorem Rep.foldedName_eq_iff {kids : NodeId → List NodeId} (h : t.Rep kids kids)
    (hx : t.isLive x) (hc : t.isLive c) :
    (t.nodes x).foldedName = (t.nodes c).foldedName ↔
      casefold (t.name x) = casefold (t.name c) := by
  obtain ⟨n, hn⟩ := Option.isSome_iff_exists.1 hc
  obtain ⟨g, hg, hlt, hview⟩ := h.named.folded c n hn
  rw [hg, h.named.foldedName_iff hx hlt, hview, ← name_eq hn]

/-- **`find_child`** finds the child with the name or, failing that, the first one with its
folding. -/
theorem WF.findChild_eq (h : t.WF) (hx : t.isLive x) (name : Bytes) (mode : LookupMode) :
    t.findChild x name mode =
      ((t.children x).find? fun c => t.name c = name).or
        (if mode = .exact then none
          else (t.children x).find? fun c => casefold (t.name c) = casefold name) := by
  obtain ⟨kids, hr⟩ := h.rep
  have hexact : t.findChild x name .exact = (t.children x).find? fun c => t.name c = name := by
    refine Option.ext fun c => ?_
    rw [h.findChild_iff, h.find?_children]
  cases hfind : t.findChild x name .exact with
  | some c =>
    rw [findChild_of_exact hfind, ← hexact, hfind]
    rfl
  | none =>
    rw [← hexact, hfind, Option.none_or]
    cases mode with
    | exact => rw [hfind, if_pos rfl]
    | caseInsensitive =>
      rw [if_neg (by decide)]
      by_cases hdir : (t.nodes x).isDir = true
      · have hvalid : (!t.valid x || !(t.nodes x).isDir) = false := by
          rw [hr.allocated.valid_iff.2 hx, hdir]
          rfl
        rw [findChild, if_neg (by rw [hvalid]; decide)] at hfind ⊢
        have hnone : ((t.names.find name).bind fun nid => t.exact (x, nid)) = none := by
          cases hb : (t.names.find name).bind fun nid => t.exact (x, nid) with
          | none => rfl
          | some v =>
            rw [hb] at hfind
            cases hfind
        rw [hnone]
        dsimp only
        rw [if_neg (by decide), hr.children_eq]
        cases hpool : t.names.find (casefold name) with
        | none =>
          -- No name of the tree has this folding, or it would be in the pool.
          rw [Option.bind_none, eq_comm, List.find?_eq_none]
          intro c hc heq
          have hlive := ((hr.shaped.mem_order x c).1 hc).1
          obtain ⟨n, hn⟩ := Option.isSome_iff_exists.1 hlive
          obtain ⟨g, -, hlt, hview⟩ := hr.named.folded c n hn
          have hfold : t.names.find (casefold name) = some g := StringPool.find_eq_some_iff.2
            ⟨hlt, by rw [hview, ← name_eq hn]; simpa using heq⟩
          rw [hpool] at hfold
          cases hfold
        | some f =>
          obtain ⟨hlt, hview⟩ := StringPool.find_eq_some_iff.1 hpool
          rw [Option.bind_some, hr.indexed.folded_eq, Shadow.owner]
          refine List.find?_congr fun c hc => ?_
          have := hr.named.foldedName_iff ((hr.shaped.mem_order x c).1 hc).1 hlt
          rw [hview] at this
          simp [← this, Bool.beq_eq_decide_eq]
      · have hnil : t.children x = [] := by
          rw [hr.children_eq, hr.kids_eq_nil (by simpa using hdir)]
        rw [hnil, findChild, if_pos (by simp [Bool.eq_false_iff.2 hdir])]
        rfl

/-- A node that another child of its parent keeps from its folded slot. -/
def Shadowed (h : t.WF) (s : List Bytes) : Prop :=
  ∃ q n x, s = q ++ [n] ∧ h.toLTree.Walk root q x ∧ n ∈ t.childNames x ∧
    ((t.childNames x).find? fun m => casefold m = casefold n) ≠ some n

theorem WF.ownsFolded_iff (h : t.WF) (hc : h.toLTree.edge p c) :
    t.OwnsFolded c ↔
      ((t.childNames p).find? fun m => casefold m = casefold (t.name c)) = some (t.name c) := by
  obtain ⟨kids, hr⟩ := h.rep
  have hmem : c ∈ kids p := (hr.shaped.mem_order p c).2 hc
  have howner : Shadow.owner (fun x => (t.nodes x).foldedName) (kids p) (t.nodes c).foldedName =
      (t.children p).find? fun x => casefold (t.name x) = casefold (t.name c) := by
    rw [hr.children_eq, Shadow.owner]
    refine List.find?_congr fun x hx => ?_
    have := hr.foldedName_eq_iff ((hr.shaped.mem_order p x).1 hx).1 hc.1
    simp [← this, Bool.beq_eq_decide_eq]
  rw [hr.ownsFolded_iff hmem, howner, childNames, List.find?_map]
  constructor
  · intro hown
    rw [Function.comp_def, hown]
    rfl
  · intro hown
    obtain ⟨d, hd, hname⟩ := Option.map_eq_some_iff.1 hown
    rw [Function.comp_def] at hd
    rw [hd, h.toLTree.label_inj (h.mem_children.1 (List.mem_of_find?_eq_some hd)) hc hname]

/-- **The collisions** are the nodes that do not own their folded slot. -/
theorem WF.collisions_eq_ncard (h : t.WF) : t.collisions = {s | Shadowed h s}.ncard := by
  obtain ⟨kids, hr⟩ := h.rep
  obtain ⟨cs, hcard, hcs⟩ := hr.collisions_card
  have himage : {s | Shadowed h s} = t.location '' cs := by
    ext s
    simp only [Set.mem_ofPred_eq, Set.mem_image, Finset.mem_coe, hcs]
    constructor
    · rintro ⟨q, n, x, rfl, hw, hn, hne⟩
      obtain ⟨c, hc, rfl⟩ := List.mem_map.1 hn
      have hedge := h.mem_children.1 hc
      refine ⟨c, ⟨hedge.1, ?_, fun hown => hne ((h.ownsFolded_iff hedge).1 hown)⟩,
        h.location_eq (hw.snoc hedge)⟩
      rintro rfl
      exact h.toLTree.not_edge_root x hedge
    · rintro ⟨c, ⟨hc, hne, hown⟩, rfl⟩
      obtain ⟨p, hp, hplive, -⟩ := hr.shaped.parent_live c hc hne
      have hedge : h.toLTree.edge p c := ⟨hc, hp⟩
      exact ⟨t.location p, t.name c, p, h.location_eq ((h.walk_location hplive).snoc hedge),
        h.walk_location hplive, List.mem_map.2 ⟨c, h.mem_children.2 hedge, rfl⟩,
        fun hfind => hown ((h.ownsFolded_iff hedge).2 hfind)⟩
  have hinj : Set.InjOn t.location cs := fun x hx y hy heq =>
    h.location_inj ((hcs x).1 hx).1 ((hcs y).1 hy).1 heq
  rw [himage, hinj.ncard_image, Set.ncard_coe_finset, hcard]

/-! ### Trees that look alike -/

/-- Two trees with the same paths, but for the attributes of the root, and the same order of
siblings. -/
structure Twins (t u : MetadataTree) : Prop where
  paths : ∀ q, q ≠ [] → u.paths q = t.paths q
  siblings : ∀ q, u.siblings q = t.siblings q

/-- Two nodes at the same path. -/
def SameSpot (ht : t.WF) (hu : u.WF) (x y : NodeId) : Prop :=
  ∃ q, ht.toLTree.Walk root q x ∧ hu.toLTree.Walk root q y

variable {ht : t.WF} {hu : u.WF}

theorem Twins.symm (h : Twins t u) : Twins u t where
  paths q hq := (h.paths q hq).symm
  siblings q := (h.siblings q).symm

theorem WF.exists_walk_of_paths (ht : t.WF) (hu : u.WF)
    (hpaths : ∀ q, q ≠ [] → u.paths q = t.paths q) (hx : ht.toLTree.Walk root q x) :
    ∃ y, hu.toLTree.Walk root q y := by
  rcases eq_or_ne q [] with rfl | hq
  · exact ⟨root, .nil root⟩
  · have hsome := ht.paths_eq_some.2 ⟨x, hx, rfl⟩
    obtain ⟨y, hy, -⟩ := hu.paths_eq_some.1 ((hpaths q hq).trans hsome)
    exact ⟨y, hy⟩

theorem Twins.childNames (h : Twins t u) (hx : ht.toLTree.Walk root q x)
    (hy : hu.toLTree.Walk root q y) : u.childNames y = t.childNames x := by
  have := h.siblings q
  rw [MetadataTree.siblings, MetadataTree.siblings, ht.walk_iff.2 hx, hu.walk_iff.2 hy] at this
  exact Option.some.inj this

theorem Twins.shadowed (h : Twins t u) {s : List Bytes} (hs : Shadowed ht s) :
    Shadowed hu s := by
  obtain ⟨q, n, x, rfl, hx, hn, hne⟩ := hs
  obtain ⟨y, hy⟩ := ht.exists_walk_of_paths hu h.paths hx
  rw [← h.childNames hx hy] at hn hne
  exact ⟨q, n, y, rfl, hy, hn, hne⟩

theorem Twins.collisions_eq (h : Twins t u) (ht : t.WF) (hu : u.WF) :
    u.collisions = t.collisions := by
  rw [ht.collisions_eq_ncard, hu.collisions_eq_ncard]
  congr 1
  ext s
  exact ⟨h.symm.shadowed, h.shadowed⟩

theorem Twins.find (h : Twins t u) (hxy : SameSpot ht hu x y) (P : Bytes → Bool) :
    Option.Rel (SameSpot ht hu) ((t.children x).find? fun c => P (t.name c))
      ((u.children y).find? fun c => P (u.name c)) := by
  obtain ⟨q, hx, hy⟩ := hxy
  have hnames : ((u.children y).find? fun c => P (u.name c)).map u.name =
      ((t.children x).find? fun c => P (t.name c)).map t.name := by
    have := congrArg (List.find? P) (h.childNames hx hy)
    rw [MetadataTree.childNames, MetadataTree.childNames, List.find?_map, List.find?_map] at this
    exact this
  cases hfx : (t.children x).find? fun c => P (t.name c) with
  | none =>
    rw [hfx, Option.map_none, Option.map_eq_none_iff] at hnames
    rw [hnames]
    exact .none
  | some c =>
    rw [hfx] at hnames
    obtain ⟨d, hd, hname⟩ := Option.map_eq_some_iff.1 hnames
    rw [hd]
    refine .some ⟨q ++ [t.name c],
      hx.snoc (ht.mem_children.1 (List.mem_of_find?_eq_some hfx)), ?_⟩
    rw [← hname]
    exact hy.snoc (hu.mem_children.1 (List.mem_of_find?_eq_some hd))

theorem Twins.findChild (h : Twins t u) (hxy : SameSpot ht hu x y) (name : Bytes)
    (mode : LookupMode) :
    Option.Rel (SameSpot ht hu) (t.findChild x name mode) (u.findChild y name mode) := by
  obtain ⟨q, hx, hy⟩ := id hxy
  rw [ht.findChild_eq (ht.isLive_of_walk hx), hu.findChild_eq (hu.isLive_of_walk hy)]
  have hexact := h.find hxy fun n => decide (n = name)
  have hfolded := h.find hxy fun n => decide (casefold n = casefold name)
  generalize (t.children x).find? (fun c => decide (t.name c = name)) = o at hexact
  generalize (u.children y).find? (fun c => decide (u.name c = name)) = o' at hexact
  cases hexact with
  | some hcd => exact .some hcd
  | none =>
    rw [Option.none_or, Option.none_or]
    by_cases hmode : mode = .exact
    · rw [if_pos hmode, if_pos hmode]
      exact .none
    · rw [if_neg hmode, if_neg hmode]
      exact hfolded

theorem SameSpot.parent (hxy : SameSpot ht hu x y) :
    SameSpot ht hu ((t.nodes x).parent.getD x) ((u.nodes y).parent.getD y) := by
  obtain ⟨q, hx, hy⟩ := hxy
  rcases List.eq_nil_or_concat q with rfl | ⟨q, n, rfl⟩
  · obtain rfl := LTree.walk_nil_iff.1 hx
    obtain rfl := LTree.walk_nil_iff.1 hy
    obtain ⟨kids, hr⟩ := ht.rep
    obtain ⟨kids', hr'⟩ := hu.rep
    rw [hr.shaped.root_parent, hr'.shaped.root_parent]
    exact ⟨[], .nil root, .nil root⟩
  · rw [List.concat_eq_append] at hx hy
    obtain ⟨z, hz, hzx, -⟩ := LTree.walk_snoc_iff.1 hx
    obtain ⟨w, hw, hwy, -⟩ := LTree.walk_snoc_iff.1 hy
    rw [hzx.2, hwy.2]
    exact ⟨q, hz, hw⟩

theorem Twins.lookupStep (h : Twins t u) (hxy : SameSpot ht hu x y) (mode : LookupMode)
    (comp : Bytes) :
    Option.Rel (SameSpot ht hu) (t.lookupStep mode x comp) (u.lookupStep mode y comp) := by
  rw [MetadataTree.lookupStep, MetadataTree.lookupStep]
  by_cases hskip : comp = [] ∨ comp = dot
  · rw [if_pos hskip, if_pos hskip]
    exact .some hxy
  rw [if_neg hskip, if_neg hskip]
  by_cases hup : comp = dotdot
  · rw [if_pos hup, if_pos hup]
    exact .some hxy.parent
  rw [if_neg hup, if_neg hup]
  exact h.findChild hxy comp mode

theorem rel_foldlM {α β γ : Type*} {R : α → β → Prop} {f : α → γ → Option α} {g : β → γ → Option β}
    (hstep : ∀ a b c, R a b → Option.Rel R (f a c) (g b c)) (l : List γ) {a : α} {b : β}
    (hab : R a b) : Option.Rel R (l.foldlM f a) (l.foldlM g b) := by
  induction l generalizing a b with
  | nil => exact .some hab
  | cons c l ih =>
    rw [List.foldlM_cons, List.foldlM_cons]
    have hc := hstep a b c hab
    generalize f a c = o at hc
    generalize g b c = o' at hc
    cases hc with
    | none => exact .none
    | some h => exact ih h

theorem Twins.lookup (h : Twins t u) (ht : t.WF) (hu : u.WF) (path : Bytes) (mode : LookupMode) :
    Option.Rel (SameSpot ht hu) (t.lookup path mode) (u.lookup path mode) :=
  rel_foldlM (fun _ _ comp hxy => h.lookupStep hxy mode comp) _ ⟨[], .nil root, .nil root⟩

theorem Twins.attr (h : Twins t u) (hxy : SameSpot ht hu x y) (hne : x ≠ root) :
    (u.nodes y).attr = (t.nodes x).attr := by
  obtain ⟨q, hx, hy⟩ := hxy
  have hq : q ≠ [] := by
    rintro rfl
    exact hne (LTree.walk_nil_iff.1 hx).symm
  have := h.paths q hq
  rw [hu.paths_eq_some.2 ⟨y, hy, rfl⟩, ht.paths_eq_some.2 ⟨x, hx, rfl⟩] at this
  exact Option.some.inj this

theorem SameSpot.pathOf (hxy : SameSpot ht hu x y) : u.pathOf y slash = t.pathOf x slash := by
  obtain ⟨q, hx, hy⟩ := hxy
  rw [ht.pathOf_eq (ht.isLive_of_walk hx), hu.pathOf_eq (hu.isLive_of_walk hy),
    ht.location_eq hx, hu.location_eq hy]

/-! ### The export -/

/-- The tree that `export_snapshot` walks. -/
def numbering (t : MetadataTree) : Breadth NodeId where
  root := root
  kids := t.children
  enters x := x == root || (t.nodes x).isDir

/-- The entry that is handed out for a node. -/
def exportEntry (t : MetadataTree) (e : ℕ × NodeId) : SnapshotEntry :=
  ⟨UInt32.ofNat e.1, t.name e.2, (t.nodes e.2).attr⟩

theorem WF.isTree_numbering (h : t.WF) : t.numbering.IsTree where
  nodup x _ _ := by
    obtain ⟨kids, hr⟩ := h.rep
    rw [show t.numbering.kids x = t.children x from rfl, hr.children_eq]
    exact hr.indexed.nodup x
  root_notMem x hx := h.toLTree.not_edge_root x (h.mem_children.1 hx)
  parent hx hy := h.toLTree.parent_unique (h.mem_children.1 hx) (h.mem_children.1 hy)
  enters_root := rfl

theorem WF.reached_iff (h : t.WF) : t.numbering.Reached x ↔ t.isLive x := by
  constructor
  · intro hx
    cases hx with
    | root =>
      obtain ⟨kids, hr⟩ := h.rep
      exact hr.shaped.root_live
    | kid _ _ hc => exact (h.mem_children.1 hc).1
  · intro hx
    obtain ⟨s, hw⟩ := h.exists_walk hx
    clear hx
    induction s using List.reverseRecOn generalizing x with
    | nil =>
      obtain rfl := LTree.walk_nil_iff.1 hw
      exact .root
    | append_singleton s n ih =>
      obtain ⟨z, hz, hzx, -⟩ := LTree.walk_snoc_iff.1 hw
      refine .kid (ih hz) ?_ (h.mem_children.2 hzx)
      rw [show t.numbering.enters z = (z == root || (t.nodes z).isDir) from rfl,
        h.isDir_of_edge hzx, Bool.or_true]

/-- The export is where the numbering is; its indices have 32 bits. -/
structure ExportInStep (t : MetadataTree) (s : Exporting) (b : Breadth.State NodeId) : Prop where
  out : s.out = b.out.map t.exportEntry
  queue : s.queue = b.queue.map fun e => (e.1, UInt32.ofNat e.2)
  nextIndex : s.nextIndex = UInt32.ofNat (b.out.length + 1)

theorem ExportInStep.children {s : Exporting} {b : Breadth.State NodeId} (i : ℕ) {cs : List NodeId}
    (hcs : ∀ c ∈ cs, c ≠ root) (hs : t.ExportInStep s b) :
    t.ExportInStep (cs.foldl (t.exportChild (UInt32.ofNat i)) s)
      (cs.foldl (t.numbering.visit i) b) := by
  induction cs generalizing s b with
  | nil => exact hs
  | cons c cs ih =>
    refine ih (fun d hd => hcs d (List.mem_cons_of_mem _ hd)) ⟨?_, ?_, ?_⟩
    · rw [exportChild, Breadth.visit, List.map_append, hs.out]
      rfl
    · have henters : t.numbering.enters c = (t.nodes c).isDir := by
        simp [numbering, hcs c List.mem_cons_self]
      rw [exportChild, Breadth.visit, henters, hs.queue, hs.nextIndex]
      cases (t.nodes c).isDir <;> simp
    · rw [exportChild, Breadth.visit, hs.nextIndex, List.length_append, List.length_singleton,
        UInt32.ofNat_add (b.out.length + 1) 1]
      rfl

theorem WF.exportInStep_loop (h : t.WF) (fuel : ℕ) {s : Exporting} {b : Breadth.State NodeId}
    (hs : t.ExportInStep s b) :
    t.ExportInStep (t.exportLoop fuel s) (t.numbering.loop fuel b) := by
  induction fuel generalizing s b with
  | zero => exact hs
  | succ fuel ih =>
    rw [exportLoop.eq_def, Breadth.loop.eq_def]
    dsimp only
    have hqueue := hs.queue
    cases hq : b.queue with
    | nil =>
      rw [hq, List.map_nil] at hqueue
      rw [hqueue]
      exact hs
    | cons e queue =>
      rw [hq, List.map_cons] at hqueue
      rw [hqueue]
      dsimp only
      refine ih (ExportInStep.children e.2 (fun c hc => ?_) ⟨hs.out, rfl, hs.nextIndex⟩)
      rintro rfl
      exact h.toLTree.not_edge_root e.1 (h.mem_children.1 hc)

theorem WF.exportSnapshot_eq (h : t.WF) : t.exportSnapshot =
    (t.numbering.loop t.size t.numbering.start).out.map t.exportEntry :=
  (h.exportInStep_loop t.size ⟨rfl, rfl, rfl⟩).out

theorem WF.numbering_spec (h : t.WF) :
    t.numbering.Sound (t.numbering.loop t.size t.numbering.start) ∧
    (∀ x, x ∈ t.numbering.nodes (t.numbering.loop t.size t.numbering.start) ↔ t.isLive x) ∧
    ∀ (i : ℕ) (x : NodeId),
      (t.numbering.nodes (t.numbering.loop t.size t.numbering.start))[i]? = some x →
      t.numbering.enters x = true →
      Breadth.kidsAt (t.numbering.loop t.size t.numbering.start) i = t.children x := by
  obtain ⟨kids, hr⟩ := h.rep
  obtain ⟨hb, hmem, hkids⟩ := Breadth.loop_spec h.isTree_numbering
    (fun x hx => List.mem_range.2 (hr.allocated.lt_size x (h.reached_iff.1 hx)))
    (Nat.le_of_eq List.length_range)
  exact ⟨hb, fun x => (hmem x).trans h.reached_iff, hkids⟩

theorem WF.location_root (h : t.WF) : t.location root = [] := h.location_eq (.nil root)

theorem WF.location_child (h : t.WF) (hc : h.toLTree.edge x c) (hx : t.isLive x) :
    t.location c = t.location x ++ [t.name c] := h.location_eq ((h.walk_location hx).snoc hc)

theorem WF.spelled (h : t.WF) {b : Breadth.State NodeId} (hb : t.numbering.Sound b)
    (hfew : b.out.length < 2 ^ 32) :
    Spelled t.paths (b.out.map t.exportEntry) (b.out.map fun e => t.location e.2) where
  length := by simp
  nodup := by
    have hmap : ([] :: b.out.map fun e => t.location e.2) =
        (t.numbering.nodes b).map t.location := by
      rw [Breadth.nodes, List.map_cons, List.map_map, show t.numbering.root = root from rfl,
        h.location_root]
      rfl
    rw [hmap]
    refine hb.nodup.map_on fun x hx y hy heq => h.location_inj ?_ ?_ heq
    · exact h.reached_iff.1 (hb.reached hx)
    · exact h.reached_iff.1 (hb.reached hy)
  entry k e he := by
    rw [List.getElem?_map] at he
    obtain ⟨⟨i, c⟩, hk, rfl⟩ := Option.map_eq_some_iff.1 he
    obtain ⟨hle, x, hx, hent, hc⟩ := hb.parent k i c hk
    have hlt := (List.getElem?_eq_some_iff.1 hk).1
    have hi : (t.exportEntry (i, c)).parent.toNat = i := by
      rw [exportEntry, UInt32.toNat_ofNat']
      exact Nat.mod_eq_of_lt (by omega)
    have hlive := h.reached_iff.1 (hb.reached (List.mem_of_getElem? hx))
    have hedge := h.mem_children.1 hc
    have hloc := h.location_child hedge hlive
    rw [hi]
    refine ⟨hle, t.location x, ?_, ?_, ?_, ?_⟩
    · cases i with
      | zero =>
        obtain rfl : root = x := Option.some.inj hx
        rw [h.location_root]
        rfl
      | succ i =>
        have hx' : (b.out.map Prod.snd)[i]? = some x := hx
        rw [List.getElem?_map] at hx'
        obtain ⟨e, he, rfl⟩ := Option.map_eq_some_iff.1 hx'
        rw [List.getElem?_cons_succ, List.getElem?_map, he]
        rfl
    · rw [List.getElem?_map, hk]
      exact congrArg some hloc
    · rw [show t.location x ++ [(t.exportEntry (i, c)).name] = t.location c from hloc.symm]
      exact h.paths_eq_some.2 ⟨c, h.walk_location hedge.1, rfl⟩
    · refine .inr ⟨_, h.paths_eq_some.2 ⟨x, h.walk_location hlive, rfl⟩, ?_⟩
      have := h.isDir_of_edge hedge
      simpa [Node.isDir] using this

/-! ### The order of the siblings -/

/-- The last names of the paths right below `q`, in their order. -/
def namesBelow (qs : List (List Bytes)) (q : List Bytes) : List Bytes :=
  qs.filterMap fun p => if p.dropLast = q then p.getLast? else none

theorem namesBelow_concat (qs : List (List Bytes)) (q r : List Bytes) (n : Bytes) :
    namesBelow (qs ++ [r ++ [n]]) q = namesBelow qs q ++ if r = q then [n] else [] := by
  rw [namesBelow, namesBelow, List.filterMap_append]
  by_cases hr : r = q <;> simp [hr]

/-- The state of `load_snapshot` once it has put nodes at the paths `qs`. -/
structure Placed (D : PathMap) (u : MetadataTree) (ids : List (Option NodeId))
    (qs : List (List Bytes)) : Prop where
  wf : u.WF
  paths : u.paths = D.kept qs
  ids : List.Forall₂ (fun o q => ∃ x, o = some x ∧ wf.toLTree.Walk root q x) ids ([] :: qs)
  names : ∀ q x, wf.toLTree.Walk root q x → u.childNames x = namesBelow qs q

theorem placed_fresh (D : PathMap) : Placed D fresh [some root] [] where
  wf := wf_fresh
  paths := by rw [PathMap.kept_nil, paths_fresh]
  ids := .cons ⟨root, rfl, .nil root⟩ .nil
  names q x hx := by
    rw [childNames, List.map_eq_nil_iff.2]
    · rfl
    · refine List.eq_nil_iff_forall_not_mem.2 fun c hc => ?_
      have hedge := wf_fresh.mem_children.1 hc
      obtain rfl := fresh_isLive.1 hedge.1
      exact wf_fresh.toLTree.not_edge_root x hedge

theorem Inserted.childNames {t' : MetadataTree} {id : NodeId} {attr : Attributes}
    {kids kids' : NodeId → List NodeId} (hi : Inserted t t' p id name attr) (hr : t.Rep kids kids)
    (hr' : t'.Rep kids' kids') (hkids : kids' = Function.update kids p (kids p ++ [id]))
    (x : NodeId) : t'.childNames x = t.childNames x ++ if x = p then [name] else [] := by
  have hold : (kids x).map t'.name = (kids x).map t.name :=
    List.map_congr_left fun c hc => (hi.same c ((hr.shaped.mem_order x c).1 hc).1).name
  rw [MetadataTree.childNames, MetadataTree.childNames, hr'.children_eq, hr.children_eq, hkids]
  by_cases hx : x = p
  · subst hx
    rw [Function.update_self, if_pos rfl, List.map_append, hold, List.map_singleton, hi.name]
  · rw [Function.update_of_ne hx, if_neg hx, List.append_nil, hold]

theorem Placed.insert {D : PathMap} {ids : List (Option NodeId)} {qs : List (List Bytes)}
    {e : SnapshotEntry} {x : List Bytes} (h : Placed D u ids qs)
    (hx : ([] :: qs)[e.parent.toNat]? = some x) (hnot : x ++ [e.name] ∉ qs)
    (hattr : D (x ++ [e.name]) = some e.attr)
    (hdir : x = [] ∨ ∃ a, D x = some a ∧ a.kind = .directory)
    (hrep : representable (x ++ [e.name]) = true) :
    ∃ parent id u', ids[e.parent.toNat]? = some (some parent) ∧
      u.insert parent e.name e.attr = (.ok id, u') ∧
      Placed D u' (ids ++ [some id]) (qs ++ [x ++ [e.name]]) := by
  obtain ⟨-, hnone⟩ | ⟨o, q, ho, hq, parent, rfl, hwalk⟩ := forall₂_getElem? h.ids e.parent.toNat
  · rw [hnone] at hx
    cases hx
  obtain rfl := Option.some.inj (hq.symm.trans hx)
  have hrep' := hrep
  rw [representable_concat, Bool.and_eq_true] at hrep'
  obtain ⟨kids, hr⟩ := h.wf.rep
  have hfree := PathMap.free_kept hrep'.1 (List.mem_of_getElem? hx) hdir hnot
  rw [← h.paths, hrep'.2] at hfree
  have hable := (h.wf.insertable_iff hr hwalk e.name).2 hfree
  obtain ⟨id, u', heq, -, hins, hr'⟩ | ⟨err, u', -, hno, -, -⟩ :=
    hr.insert_spec parent e.name e.attr
  · have hwf : u'.WF := ⟨_, hr'⟩
    have hiff : ∀ {s y}, hwf.toLTree.Walk root s y ↔ h.wf.toLTree.Walk root s y ∨
        (y = id ∧ ∃ r, h.wf.toLTree.Walk root r parent ∧ s = r ++ [e.name]) :=
      hins.walk_iff h.wf hwf hable.live
    refine ⟨parent, id, u', ho, heq, hwf, ?_, ?_, fun s y hy => ?_⟩
    · rw [PathMap.kept_concat hrep (by simp) hattr, ← h.paths]
      exact (hins.paths_eq h.wf hwf hwalk (h.wf.insert_ok heq).2.2.2).2
    · refine List.rel_append (h.ids.imp ?_) (.cons ⟨id, rfl, ?_⟩ .nil)
      · rintro o r ⟨y, rfl, hy⟩
        exact ⟨y, rfl, hiff.2 (.inl hy)⟩
      · exact hiff.2 (.inr ⟨rfl, q, hwalk, rfl⟩)
    · rw [hins.childNames hr hr' rfl, namesBelow_concat]
      rcases hiff.1 hy with hold | ⟨rfl, r, hr₁, rfl⟩
      · rw [h.names s y hold]
        by_cases hyp : y = parent
        · subst hyp
          rw [if_pos rfl, if_pos (hwalk.path_unique hold)]
        · rw [if_neg hyp, if_neg]
          rintro rfl
          exact hyp (hold.unique hwalk)
      · -- The new node has no children, and nothing is below its path yet.
        obtain rfl := hr₁.path_unique hwalk
        have hleaf : u.childNames y = [] := by
          rw [MetadataTree.childNames, List.map_eq_nil_iff]
          refine List.eq_nil_iff_forall_not_mem.2 fun c hc => hins.fresh ?_
          have hedge := h.wf.mem_children.1 hc
          exact hr.shaped.live_of_below hedge.1 (Relation.ReflTransGen.single hedge.2)
        have hbelow : namesBelow qs (r ++ [e.name]) = [] := by
          rw [namesBelow, List.filterMap_eq_nil_iff]
          intro w hw
          refine if_neg fun hdrop => ?_
          obtain ⟨k, hk⟩ := List.getElem?_of_mem (List.mem_cons_of_mem [] hw)
          obtain ⟨-, hnone⟩ | ⟨o', w', -, hw', z, rfl, hz⟩ := forall₂_getElem? h.ids k
          · rw [hnone] at hk
            cases hk
          obtain rfl := Option.some.inj (hw'.symm.trans hk)
          rcases List.eq_nil_or_concat w' with rfl | ⟨w, n, rfl⟩
          · simp at hdrop
          · rw [List.concat_eq_append] at hz hdrop
            rw [List.dropLast_concat] at hdrop
            subst hdrop
            obtain ⟨z', hz', -⟩ := LTree.walk_snoc_iff.1 hz
            have hsome := h.wf.paths_eq_some.2 ⟨z', hz', rfl⟩
            rw [h.paths, PathMap.kept, if_neg (by simp), if_neg fun hmem => hnot hmem.1] at hsome
            cases hsome
        have hne : y ≠ parent := fun hyp => hins.fresh (hyp ▸ hable.live)
        rw [hleaf, hbelow, if_neg hne, if_neg (by simp)]
  · exact absurd hable hno

/-- **`load_snapshot`** keeps the order of the entries among siblings. -/
theorem Placed.loadLoop {D : PathMap} {ids : List (Option NodeId)} {es₁ es₂ : List SnapshotEntry}
    {qs₁ qs₂ : List (List Bytes)} (h : Placed D u ids qs₁)
    (hs : Spelled D (es₁ ++ es₂) (qs₁ ++ qs₂)) (hlen : qs₁.length = es₁.length)
    (hrep : ∀ q ∈ qs₂, representable q = true) :
    ∃ ids', Placed D (loadLoop u ids es₂).2 ids' (qs₁ ++ qs₂) := by
  induction es₂ generalizing u ids es₁ qs₁ qs₂ with
  | nil =>
    have hnil : qs₂ = [] := by
      have := hs.length
      simp only [List.length_append, List.length_nil] at this
      exact List.length_eq_zero_iff.1 (by omega)
    rw [hnil, List.append_nil]
    exact ⟨ids, h⟩
  | cons e es₂ ih =>
    obtain ⟨x, qs₃, rfl, hx, hnot, hattr, hdir, hrest⟩ := hs.next hlen
    obtain ⟨parent, id, u', hids, heq, hplaced⟩ :=
      h.insert hx hnot hattr hdir (hrep _ List.mem_cons_self)
    rw [MetadataTree.loadLoop, hids]
    dsimp only
    rw [heq]
    dsimp only
    rw [show qs₁ ++ (x ++ [e.name]) :: qs₃ = qs₁ ++ [x ++ [e.name]] ++ qs₃ by simp]
    exact ih hplaced hrest (by simp [hlen]) fun q hq => hrep q (List.mem_cons_of_mem _ hq)

theorem WF.representable (h : t.WF) (hw : h.toLTree.Walk root q x) :
    WslDrive.representable q = true := by
  induction q using List.reverseRecOn generalizing x with
  | nil => rfl
  | append_singleton q n ih =>
    obtain ⟨z, hz, hzx, rfl⟩ := LTree.walk_snoc_iff.1 hw
    obtain ⟨kids, hr⟩ := h.rep
    obtain ⟨i, hi⟩ := Option.isSome_iff_exists.1 hzx.1
    have hvalid := hr.named.valid x i hi (by
      rintro rfl
      exact h.toLTree.not_edge_root z hzx)
    have hname : h.toLTree.label x = t.names.view i := name_eq hi
    rw [representable_concat, ih hz, hname, hvalid]
    rfl

theorem WF.namesBelow_export (h : t.WF) {b : Breadth.State NodeId} (hb : t.numbering.Sound b)
    {i : ℕ} (hi : (t.numbering.nodes b)[i]? = some x)
    (hkids : t.numbering.enters x = true → Breadth.kidsAt b i = t.children x) :
    namesBelow (b.out.map fun e => t.location e.2) (t.location x) = t.childNames x := by
  have hlive := h.reached_iff.1 (hb.reached (List.mem_of_getElem? hi))
  -- A node is below the path of `x` exactly if its number of a parent is that of `x`.
  have hentry : ∀ e ∈ b.out, (if (t.location e.2).dropLast = t.location x
      then (t.location e.2).getLast? else none) = if e.1 = i then some (t.name e.2) else none := by
    rintro ⟨j, c⟩ hc
    obtain ⟨k, hk⟩ := List.getElem?_of_mem hc
    obtain ⟨-, y, hy, -, hcy⟩ := hb.parent k j c hk
    have hylive := h.reached_iff.1 (hb.reached (List.mem_of_getElem? hy))
    rw [h.location_child (h.mem_children.1 hcy) hylive, List.dropLast_concat, List.getLast?_concat]
    refine if_congr ⟨fun heq => ?_, fun heq => ?_⟩ rfl rfl
    · obtain rfl := h.location_inj hylive hlive heq
      obtain ⟨hlt, hj⟩ := List.getElem?_eq_some_iff.1 hy
      obtain ⟨hlt', hi'⟩ := List.getElem?_eq_some_iff.1 hi
      exact (hb.nodup.getElem_inj_iff).1 (hj.trans hi'.symm)
    · dsimp only at heq
      subst heq
      rw [Option.some.inj (hy.symm.trans hi)]
  have hnames : namesBelow (b.out.map fun e => t.location e.2) (t.location x) =
      (Breadth.kidsAt b i).map t.name := by
    rw [namesBelow, List.filterMap_map, Breadth.kidsAt, List.map_map,
      List.filterMap_congr (g := fun e => if e.1 = i then some (t.name e.2) else none) hentry,
      ← List.filterMap_eq_map, List.filterMap_filter]
    refine List.filterMap_congr fun e _ => ?_
    by_cases he : e.1 = i <;> simp [he]
  rw [hnames, childNames]
  by_cases hent : t.numbering.enters x = true
  · rw [hkids hent]
  · have hnil : Breadth.kidsAt b i = [] := by
      rw [Breadth.kidsAt, List.map_eq_nil_iff, List.filter_eq_nil_iff]
      rintro ⟨j, c⟩ hc hj
      obtain ⟨k, hk⟩ := List.getElem?_of_mem hc
      obtain ⟨-, y, hy, hey, -⟩ := hb.parent k j c hk
      obtain rfl : j = i := by simpa using hj
      rw [Option.some.inj (hy.symm.trans hi)] at hey
      exact hent hey
    have hleaf : t.children x = [] := by
      refine List.eq_nil_iff_forall_not_mem.2 fun c hc => hent ?_
      rw [show t.numbering.enters x = (x == root || (t.nodes x).isDir) from rfl,
        h.isDir_of_edge (h.mem_children.1 hc), Bool.or_true]
    rw [hnil, hleaf]

/-! ### The round trip -/

theorem WF.length_le_live (h : t.WF) {l : List NodeId} (hl : l.Nodup)
    (hlive : ∀ x ∈ l, t.isLive x) : l.length ≤ t.live := by
  obtain ⟨kids, hr⟩ := h.rep
  rw [hr.allocated.live_eq, ← List.toFinset_card_of_nodup hl]
  refine Finset.card_le_card fun x hx => Finset.mem_filter.2 ?_
  have := hlive x (List.mem_toFinset.1 hx)
  exact ⟨Finset.mem_range.2 (hr.allocated.lt_size x this), this⟩

section Numbered

variable {b : Breadth.State NodeId} (h : t.WF)
  (hmem : ∀ x, x ∈ t.numbering.nodes b ↔ t.isLive x)
include h hmem

theorem WF.walk_of_exported (hq : q ∈ b.out.map fun e => t.location e.2) :
    ∃ x, h.toLTree.Walk root q x := by
  obtain ⟨e, he, rfl⟩ := List.mem_map.1 hq
  have hlive := (hmem e.2).1 (List.mem_cons_of_mem _ (List.mem_map_of_mem he))
  exact ⟨e.2, h.walk_location hlive⟩

theorem WF.exported_of_walk (hq : q ≠ []) (hx : h.toLTree.Walk root q x) :
    q ∈ b.out.map fun e => t.location e.2 := by
  rcases List.mem_cons.1 ((hmem x).2 (h.isLive_of_walk hx)) with rfl | hx'
  · exact absurd (hx.path_unique (.nil root)) hq
  · obtain ⟨e, he, rfl⟩ := List.mem_map.1 hx'
    exact List.mem_map.2 ⟨e, he, h.location_eq hx⟩

theorem WF.kept_exported (hq : q ≠ []) :
    t.paths.kept (b.out.map fun e => t.location e.2) q = t.paths q := by
  rw [PathMap.kept, if_neg hq]
  cases hpq : t.paths q with
  | none =>
    refine if_neg fun hin => ?_
    obtain ⟨x, hx⟩ := h.walk_of_exported hmem hin.1
    exact h.paths_eq_none.1 hpq x hx
  | some a =>
    obtain ⟨x, hx, -⟩ := h.paths_eq_some.1 hpq
    exact if_pos ⟨h.exported_of_walk hmem hq hx, h.representable hx⟩

end Numbered

/-- **The loaded tree is a twin of the exported one**, and nothing is dropped. -/
theorem WF.twins_export (h : t.WF) (hlive : t.live ≤ 2 ^ 32) (t₀ : MetadataTree) :
    (t₀.loadSnapshot t.exportSnapshot).1 = .ok () ∧
      (t₀.loadSnapshot t.exportSnapshot).2.dropped = 0 ∧
      Twins t (t₀.loadSnapshot t.exportSnapshot).2 := by
  obtain ⟨hb, hmem, hkids⟩ := h.numbering_spec
  rw [h.exportSnapshot_eq]
  generalize t.numbering.loop t.size t.numbering.start = b at hb hmem hkids
  have hfew : b.out.length < 2 ^ 32 := by
    have := h.length_le_live hb.nodup fun x hx => (hmem x).1 hx
    rw [t.numbering.length_nodes] at this
    omega
  have hs := h.spelled hb hfew
  have hrep : ∀ q ∈ b.out.map (fun e => t.location e.2), WslDrive.representable q = true := by
    intro q hq
    obtain ⟨x, hx⟩ := h.walk_of_exported hmem hq
    exact h.representable hx
  obtain ⟨hok, hpaths, hdropped⟩ := hs.loadSnapshot_spec t₀
  have hall : Spelled t.paths ([] ++ b.out.map t.exportEntry)
      ([] ++ b.out.map fun e => t.location e.2) := hs
  obtain ⟨ids, hplaced⟩ := (placed_fresh t.paths).loadLoop hall rfl hrep
  have hsame : ∀ q, q ≠ [] →
      (t₀.loadSnapshot (b.out.map t.exportEntry)).2.paths q = t.paths q := by
    intro q hq
    rw [hpaths]
    exact h.kept_exported hmem hq
  refine ⟨hok, ?_, hsame, fun q => ?_⟩
  · rw [hdropped, List.length_eq_zero_iff, List.filter_eq_nil_iff]
    intro q hq hno
    rw [hrep q hq] at hno
    cases hno
  · have hu : (t₀.loadSnapshot (b.out.map t.exportEntry)).2.WF := hplaced.wf
    rw [siblings, siblings]
    cases hq : t.walk q with
    | none =>
      have hne : q ≠ [] := by
        rintro rfl
        cases hq
      have hnone := hsame q hne
      rw [paths, paths, hq, Option.map_none, Option.map_eq_none_iff] at hnone
      rw [hnone]
      rfl
    | some x =>
      have hx := h.walk_iff.1 hq
      obtain ⟨i, hi⟩ := List.getElem?_of_mem ((hmem x).2 (h.isLive_of_walk hx))
      have hnames := h.namesBelow_export hb hi (hkids i x hi)
      rw [h.location_eq hx] at hnames
      obtain ⟨y, hy⟩ := h.exists_walk_of_paths hu hsame hx
      rw [hu.walk_iff.2 hy, Option.map_some, Option.map_some, ← hnames]
      exact congrArg some (hplaced.names q y hy)

/-- **Round trip.**  A tree as calls can leave it, exported and loaded again: nothing is dropped,
and paths, attributes, sibling order, collisions and all lookups are the same.  Only the attributes
of the root are not exported.  The nodes of a tree have 32-bit ids. -/
theorem export_load_roundTrip (ops : List Op) (hids : (run ops).live ≤ 2 ^ 32)
    (t₀ : MetadataTree) :
    (t₀.loadSnapshot (run ops).exportSnapshot).1 = .ok () ∧
      (t₀.loadSnapshot (run ops).exportSnapshot).2.dropped = 0 ∧
      (∀ q, q ≠ [] →
        (t₀.loadSnapshot (run ops).exportSnapshot).2.paths q = (run ops).paths q) ∧
      (∀ q, (t₀.loadSnapshot (run ops).exportSnapshot).2.siblings q = (run ops).siblings q) ∧
      (∀ path mode, Option.Rel
        (fun x y =>
          (t₀.loadSnapshot (run ops).exportSnapshot).2.pathOf y slash =
              (run ops).pathOf x slash ∧
            (x ≠ root → ((t₀.loadSnapshot (run ops).exportSnapshot).2.nodes y).attr =
              ((run ops).nodes x).attr))
        ((run ops).lookup path mode)
        ((t₀.loadSnapshot (run ops).exportSnapshot).2.lookup path mode)) ∧
      (t₀.loadSnapshot (run ops).exportSnapshot).2.collisions = (run ops).collisions := by
  have ht : (run ops).WF := wf_run ops
  have hu : (t₀.loadSnapshot (run ops).exportSnapshot).2.WF := (wf_fresh.kept_loadLoop _ _).wf
  obtain ⟨hok, hdropped, htwins⟩ := ht.twins_export hids t₀
  refine ⟨hok, hdropped, htwins.paths, htwins.siblings, fun path mode => ?_,
    htwins.collisions_eq ht hu⟩
  have hlook := htwins.lookup ht hu path mode
  generalize (run ops).lookup path mode = o at hlook
  generalize (t₀.loadSnapshot (run ops).exportSnapshot).2.lookup path mode = o' at hlook
  cases hlook with
  | none => exact .none
  | some hxy => exact .some ⟨hxy.pathOf, htwins.attr hxy⟩

/-- A directory with `a` and `A`; the root is made a file and a directory again in between. -/
def refolded : List Op :=
  [.upsertPath [97] {}, .setAttributes root {}, .setAttributes root kImplicitDirectory,
    .upsertPath [100, 47, 97] {}, .upsertPath [100, 47, 65] {}, .upsertPath [98] {}]

theorem export_load_roundTrip_refolded :
    ((fresh.loadSnapshot (run refolded).exportSnapshot).2.collisions = (run refolded).collisions ∧
      (run refolded).collisions = 1) ∧
    (fresh.loadSnapshot (run refolded).exportSnapshot).2.siblings [[100]] = some [[97], [65]] := by
  obtain ⟨-, -, -, hsiblings, -, hcollisions⟩ :=
    export_load_roundTrip refolded (by decide +kernel) fresh
  exact ⟨⟨hcollisions, by decide +kernel⟩, (hsiblings _).trans (by decide +kernel)⟩

end MetadataTree

end WslDrive
