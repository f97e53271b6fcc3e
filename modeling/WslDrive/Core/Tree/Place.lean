import WslDrive.Core.Tree.Release

/-!
# Placing nodes

`insert` and `rename` end in the same way: a node that is in no sibling list and in no index gets
its names, goes to the end of the children of its parent and into the indexes.

* `Detached.place` — what that does to the sibling lists and the indexes;
* `Rep.insert_spec`, `Rep.rename_spec` — the tree after the two operations.
-/

namespace WslDrive

namespace MetadataTree

open Siblings Shadow Unicode Path

variable {t t' : MetadataTree} {kids order : NodeId → List NodeId} {p c id x : NodeId}
  {nid fid : NameId} {name : Bytes} {attr : Attributes}

/-! ### Interning -/

/-- The node is the same in both trees: its name, its parent and its attributes. -/
structure SameAt (t t' : MetadataTree) (x : NodeId) : Prop where
  name : t'.name x = t.name x
  parent : (t'.nodes x).parent = (t.nodes x).parent
  attr : (t'.nodes x).attr = (t.nodes x).attr

theorem name_eq (h : (t.nodes x).name = some nid) : t.name x = t.names.view nid := by
  rw [MetadataTree.name, h]

theorem internFolded_spec {names : StringPool} (hlt : nid < names.size)
    (hview : names.view nid = name) :
    let r := internFolded names name nid
    names.Extends r.2 ∧ r.1 < r.2.size ∧ r.2.view r.1 = casefold name := by
  unfold internFolded
  split_ifs with hfold
  · exact ⟨names.extends_intern _, names.intern_lt _, names.view_intern _⟩
  · rw [Bool.or_eq_true, not_or] at hfold
    refine ⟨.refl _, hlt, ?_⟩
    rw [hview, casefold_eq_self (by simpa using hfold.1) (by simpa using hfold.2)]

theorem Named.extend {names : StringPool} (h : t.Named) (he : t.names.Extends names) :
    { t with names }.Named where
  name_lt i n hi := (h.name_lt i n hi).trans_le he.size_le
  folded i n hi := by
    obtain ⟨f, hf, hlt, hview⟩ := h.folded i n hi
    refine ⟨f, hf, hlt.trans_le he.size_le, ?_⟩
    rw [he.view_eq f hlt, he.view_eq n (h.name_lt i n hi), hview]
  valid i n hi hne := by
    rw [he.view_eq n (h.name_lt i n hi)]
    exact h.valid i n hi hne

theorem Rep.extend {names : StringPool} (h : t.Rep kids order) (he : t.names.Extends names) :
    { t with names }.Rep kids order where
  linked := h.linked.congr fun _ => ⟨rfl, rfl, rfl, rfl, rfl⟩
  indexed := h.indexed.congr rfl rfl rfl rfl fun _ _ _ => ⟨rfl, rfl⟩
  allocated := ⟨h.allocated.free_nodup, h.allocated.mem_free, h.allocated.lt_size,
    h.allocated.live_eq⟩
  named := h.named.extend he
  shaped := ⟨h.shaped.root_live, h.shaped.root_parent, h.shaped.mem_order, h.shaped.parent_live,
    h.shaped.to_root⟩

theorem sameAt_extend {names : StringPool} (h : t.Named) (he : t.names.Extends names)
    (hx : t.isLive x) : SameAt t { t with names } x := by
  obtain ⟨n, hn⟩ := Option.isSome_iff_exists.1 hx
  refine ⟨?_, rfl, rfl⟩
  rw [name_eq hn, name_eq (t := { t with names }) hn, he.view_eq n (h.name_lt x n hn)]

/-! ### The end of both operations -/

/-- Give a node its names, link it to its parent and index it. -/
def place (t : MetadataTree) (p id : NodeId) (f : Node → Node) : MetadataTree :=
  ((t.modify id f).linkChild p id).indexNode id

/-- The links and the indexes without the node. -/
structure Detached (t : MetadataTree) (id : NodeId) (kids : NodeId → List NodeId) : Prop where
  linked : t.Linked kids
  indexed : t.Indexed kids
  notMem : ∀ q, id ∉ kids q

/-- An assignment to a node that names it and leaves the links. -/
structure Names (f : Node → Node) (nid fid : NameId) : Prop where
  name : ∀ n, (f n).name = some nid
  foldedName : ∀ n, (f n).foldedName = some fid
  firstChild : ∀ n, (f n).firstChild = n.firstChild
  lastChild : ∀ n, (f n).lastChild = n.lastChild
  nextSibling : ∀ n, (f n).nextSibling = n.nextSibling
  prevSibling : ∀ n, (f n).prevSibling = n.prevSibling
  childCount : ∀ n, (f n).childCount = n.childCount

variable {f : Node → Node}

theorem modify_nodes (t : MetadataTree) (id : NodeId) (f : Node → Node) (x : NodeId) :
    (t.modify id f).nodes x = if x = id then f (t.nodes x) else t.nodes x := by
  by_cases hx : x = id
  · subst hx
    simp [modify]
  · simp [modify, hx]

theorem Detached.modify (h : Detached t id kids) (hf : Names f nid fid) :
    Detached (t.modify id f) id kids where
  linked := h.linked.congr fun x => by
    rw [modify_nodes]
    split_ifs
    · exact ⟨hf.firstChild _, hf.lastChild _, hf.nextSibling _, hf.prevSibling _, hf.childCount _⟩
    · exact ⟨rfl, rfl, rfl, rfl, rfl⟩
  indexed := h.indexed.congr rfl rfl rfl rfl fun q c hc => by
    have hne : c ≠ id := fun hci => h.notMem q (hci ▸ hc)
    rw [modify_nodes, if_neg hne]
    exact ⟨rfl, rfl⟩
  notMem := h.notMem

theorem Detached.place_nodes (h : Detached t id kids) (hf : Names f nid fid) (x : NodeId) :
    let n := (t.place p id f).nodes x
    n.name = (if x = id then some nid else (t.nodes x).name) ∧
      n.foldedName = (if x = id then some fid else (t.nodes x).foldedName) ∧
      n.parent = (if x = id then some p else (t.nodes x).parent) ∧
      n.attr = (if x = id then (f (t.nodes x)).attr else (t.nodes x).attr) := by
  have hl : ((t.modify id f).nodes p).lastChild ≠ some id := fun hl =>
    h.notMem p ((h.modify hf).linked.links.mem_of_last hl)
  simp only [place, indexNode_nodes, linkChild_nodes hl, modify_nodes]
  split_ifs with hx
  · exact ⟨hf.name _, hf.foldedName _, rfl, rfl⟩
  · exact ⟨rfl, rfl, rfl, rfl⟩

theorem place_eq (t : MetadataTree) (p id : NodeId) (f : Node → Node) :
    (t.place p id f).names = t.names ∧ (t.place p id f).size = t.size ∧
      (t.place p id f).free = t.free ∧ (t.place p id f).live = t.live := by
  have hs := sameEntries_indexNode ((t.modify id f).linkChild p id) id
  refine ⟨hs.names.trans ?_, hs.size.trans ?_, hs.free.trans ?_, hs.live.trans ?_⟩ <;>
    rw [linkChild_eq] <;> rfl

theorem Detached.place (h : Detached t id kids) (hf : Names f nid fid)
    (hfree : t.exact (p, nid) = none) (hp : p < t.size) :
    (t.place p id f).Linked (Function.update kids p (kids p ++ [id])) ∧
      (t.place p id f).Indexed (Function.update kids p (kids p ++ [id])) := by
  have hm := h.modify hf
  have hl : ((t.modify id f).nodes p).lastChild ≠ some id := fun hl =>
    h.notMem p (hm.linked.links.mem_of_last hl)
  have hnodes := linkChild_nodes hl
  refine ⟨(hm.linked.link hm.notMem).congr fun x => ?_, ?_⟩
  · simp only [MetadataTree.place, indexNode_nodes, and_self]
  · have hidx : ((t.modify id f).linkChild p id).Indexed kids := by
      refine hm.indexed.congr ?_ ?_ ?_ ?_ fun q c _ => ?_
      iterate 4 rw [linkChild_eq]
      rw [hnodes]
      exact ⟨rfl, rfl⟩
    refine hidx.index (n := nid) (f := fid) (h.notMem p) ?_ ?_ ?_ ?_ ?_
    · simp [hnodes]
    · simp [hnodes, modify_nodes, hf.name]
    · simp [hnodes, modify_nodes, hf.foldedName]
    · rw [linkChild_eq]
      exact hfree
    · rw [linkChild_eq]
      exact hp

/-- In `t'` the node `id` has these names, this parent and these attributes; the other nodes have
theirs from `t`. -/
structure Assigned (t t' : MetadataTree) (p id : NodeId) (nid fid : NameId) (attr : Attributes) :
    Prop where
  names : t'.names = t.names
  name : ∀ x, (t'.nodes x).name = if x = id then some nid else (t.nodes x).name
  foldedName : ∀ x, (t'.nodes x).foldedName = if x = id then some fid else (t.nodes x).foldedName
  parent : ∀ x, (t'.nodes x).parent = if x = id then some p else (t.nodes x).parent
  attr : ∀ x, (t'.nodes x).attr = if x = id then attr else (t.nodes x).attr

theorem Assigned.isLive (ha : Assigned t t' p id nid fid attr) (x : NodeId) :
    t'.isLive x ↔ t.isLive x ∨ x = id := by
  rw [MetadataTree.isLive, ha.name, MetadataTree.isLive]
  by_cases hx : x = id <;> simp [hx]

theorem Assigned.sameAt (ha : Assigned t t' p id nid fid attr) (hx : x ≠ id) : SameAt t t' x where
  name := by rw [MetadataTree.name, MetadataTree.name, ha.name, if_neg hx, ha.names]
  parent := by rw [ha.parent, if_neg hx]
  attr := by rw [ha.attr, if_neg hx]

theorem Assigned.self (ha : Assigned t t' p id nid fid attr) :
    t'.name id = t.names.view nid ∧ (t'.nodes id).parent = some p ∧ (t'.nodes id).attr = attr := by
  refine ⟨?_, by rw [ha.parent, if_pos rfl], by rw [ha.attr, if_pos rfl]⟩
  rw [name_eq (by rw [ha.name, if_pos rfl]), ha.names]

theorem Assigned.named (ha : Assigned t t' p id nid fid attr) (hn : t.Named)
    (hvalid : validName (t.names.view nid) = true) (hnid : nid < t.names.size)
    (hfid : fid < t.names.size) (hfold : t.names.view fid = casefold (t.names.view nid)) :
    t'.Named := by
  refine ⟨fun i n hi => ?_, fun i n hi => ?_, fun i n hi hne => ?_⟩ <;> rw [ha.name] at hi <;>
    rw [ha.names] <;> by_cases hx : i = id
  · rw [if_pos hx] at hi
    cases hi
    exact hnid
  · rw [if_neg hx] at hi
    exact hn.name_lt i n hi
  · rw [if_pos hx] at hi
    cases hi
    exact ⟨fid, by rw [ha.foldedName, if_pos hx], hfid, hfold⟩
  · rw [if_neg hx] at hi
    rw [ha.foldedName, if_neg hx]
    exact hn.folded i n hi
  · rw [if_pos hx] at hi
    cases hi
    exact hvalid
  · rw [if_neg hx] at hi
    exact hn.valid i n hi hne

/-- The node has moved to its parent, and what was below it has moved along. -/
theorem Assigned.shaped (ha : Assigned t t' p id nid fid attr) (hs : t.Shaped order)
    (hp : t.isLive p) (hdir : (t.nodes p).isDir = true) (hbelow : ¬ t.Below id p)
    (hroot : id ≠ root) (hkind : t.isLive id → attr.kind = (t.nodes id).attr.kind)
    (hkids : ∀ q c, c ∈ kids q ↔ c ≠ id ∧ t.isLive c ∧ (t.nodes c).parent = some q) :
    t'.Shaped (Function.update kids p (kids p ++ [id])) := by
  have hpid : p ≠ id := by
    rintro rfl
    exact hbelow Relation.ReflTransGen.refl
  have hstep : ∀ {x y}, x ≠ id → t.IsParent x y → t'.IsParent x y := by
    intro x y hx hxy
    rw [IsParent, ha.parent, if_neg hx]
    exact hxy
  -- The chain from the parent to the root does not meet the node.
  have hpr : Relation.ReflTransGen t'.IsParent p root := by
    refine Chain.transfer (P := fun x => ¬ t.Below id x) (hs.to_root p hp) hbelow
      fun x y hx hxy => ?_
    refine ⟨hstep ?_ hxy, fun hy => hx (hy.head hxy)⟩
    rintro rfl
    exact hx Relation.ReflTransGen.refl
  have hidp : t'.IsParent id p := by rw [IsParent, ha.parent, if_pos rfl]
  have hdir' : ∀ {q}, t.isLive q → (t.nodes q).isDir = true → (t'.nodes q).isDir = true := by
    intro q hq hqdir
    rw [Node.isDir, ha.attr]
    split_ifs with hqi
    · subst hqi
      rw [hkind hq]
      exact hqdir
    · exact hqdir
  refine ⟨(ha.isLive root).2 (.inl hs.root_live), ?_, fun q c => ?_, fun c hc hne => ?_,
    fun c hc => ?_⟩
  · rw [ha.parent, if_neg (Ne.symm hroot)]
    exact hs.root_parent
  · rw [ha.isLive, ha.parent]
    by_cases hci : c = id
    · subst hci
      by_cases hq : q = p
      · subst hq
        simp
      · simp [Function.update_of_ne hq, hkids, Ne.symm hq]
    · have hup : c ∈ Function.update kids p (kids p ++ [id]) q ↔ c ∈ kids q := by
        by_cases hq : q = p
        · subst hq
          simp [hci]
        · rw [Function.update_of_ne hq]
      rw [hup, hkids, if_neg hci]
      simp [hci]
  · rw [ha.parent]
    by_cases hci : c = id
    · rw [if_pos hci]
      exact ⟨p, rfl, (ha.isLive p).2 (.inl hp), hdir' hp hdir⟩
    · rw [if_neg hci]
      obtain ⟨q, hq, hqlive, hqdir⟩ := hs.parent_live c (((ha.isLive c).1 hc).resolve_right hci) hne
      exact ⟨q, hq, (ha.isLive q).2 (.inl hqlive), hdir' hqlive hqdir⟩
  · rcases (ha.isLive c).1 hc with hc | rfl
    · -- A chain that meets the node goes on from its new parent.
      have hcr := hs.to_root c hc
      induction hcr using Relation.ReflTransGen.head_induction_on with
      | refl => exact Relation.ReflTransGen.refl
      | @head a b hab _ ih =>
        by_cases hai : a = id
        · rw [hai]
          exact hpr.head hidp
        · have hb : t.isLive b := hs.live_of_below hc (Relation.ReflTransGen.single hab)
          exact (ih ((ha.isLive b).2 (.inl hb)) hb).head (hstep hai hab)
    · exact hpr.head hidp

/-! ### Slots -/

theorem Allocated.valid_iff (h : t.Allocated) : t.valid x = true ↔ t.isLive x := by
  rw [valid, Bool.and_eq_true, decide_eq_true_iff]
  exact ⟨fun hx => hx.2, fun hx => ⟨h.lt_size x hx, hx⟩⟩

theorem Allocated.valid_eq_false (h : t.Allocated) (hx : ¬ t.isLive x) : t.valid x = false := by
  rwa [← Bool.not_eq_true, h.valid_iff]

theorem Allocated.allocNode_spec (h : t.Allocated) :
    let r := t.allocNode
    ¬ t.isLive r.1 ∧ r.1 < r.2.size ∧ t.size ≤ r.2.size ∧
      r.2 = { t with size := r.2.size, free := r.2.free, nodes := Function.update t.nodes r.1 {} } ∧
      r.2.free.Nodup ∧ ∀ i, i ∈ r.2.free ↔ i ≠ r.1 ∧ i < r.2.size ∧ ¬ t.isLive i := by
  unfold allocNode
  cases hfree : t.free with
  | cons i free =>
    have hn := h.free_nodup
    rw [hfree, List.nodup_cons] at hn
    have hmem := h.mem_free
    rw [hfree] at hmem
    obtain ⟨hlt, hdead⟩ := (hmem i).1 List.mem_cons_self
    refine ⟨hdead, hlt, le_rfl, rfl, hn.2, fun j => ?_⟩
    dsimp only
    rw [← hmem j, List.mem_cons]
    constructor
    · intro hj
      exact ⟨fun hji => hn.1 (hji ▸ hj), .inr hj⟩
    · rintro ⟨hne, rfl | hj⟩
      · exact absurd rfl hne
      · exact hj
  | nil =>
    have hmem := h.mem_free
    rw [hfree] at hmem
    refine ⟨fun hl => absurd (h.lt_size _ hl) (lt_irrefl _), Nat.lt_succ_self _, Nat.le_succ _, rfl,
      List.nodup_nil, fun j => ?_⟩
    refine iff_of_false (by simp) fun ⟨hne, hlt, hdead⟩ => ?_
    have : j < t.size := lt_of_le_of_ne (Nat.lt_succ_iff.1 hlt) hne
    exact absurd ((hmem j).2 ⟨this, hdead⟩) (by simp)

theorem Linked.reset (h : t.Linked kids) (hnot : ∀ q, id ∉ kids q) (hnil : kids id = [])
    (hn : ∀ x, t'.nodes x = if x = id then {} else t.nodes x) : t'.Linked kids := by
  have hne : ∀ {q l r} {c : NodeId}, kids q = l ++ c :: r → c ≠ id := by
    rintro q l r c hq rfl
    exact hnot q (by simp [hq])
  refine ⟨⟨fun q => ?_, fun q => ?_, fun q l c r hq => ?_, fun q l c r hq => ?_, h.links.nodup,
    h.links.disjoint⟩, fun q => ?_⟩
  · rw [hn]
    split_ifs with hq
    · rw [hq, hnil]
      rfl
    · exact h.links.first_eq q
  · rw [hn]
    split_ifs with hq
    · rw [hq, hnil]
      rfl
    · exact h.links.last_eq q
  · rw [hn, if_neg (hne hq)]
    exact h.links.next_eq q l c r hq
  · rw [hn, if_neg (hne hq)]
    exact h.links.prev_eq q l c r hq
  · rw [hn]
    split_ifs with hq
    · rw [hq, hnil]
      rfl
    · exact h.count q

/-! ### Insertion -/

/-- The same nodes with the same names, parents and attributes. -/
structure SameTree (t t' : MetadataTree) : Prop where
  isLive : ∀ x, t'.isLive x ↔ t.isLive x
  same : ∀ x, t.isLive x → SameAt t t' x

/-- A child of this name can be inserted. -/
structure Insertable (t : MetadataTree) (kids : NodeId → List NodeId) (p : NodeId) (name : Bytes) :
    Prop where
  live : t.isLive p
  isDir : (t.nodes p).isDir = true
  valid : validName name = true
  absent : ∀ c ∈ kids p, t.name c ≠ name

/-- `t'` is `t` with one more node. -/
structure Inserted (t t' : MetadataTree) (p id : NodeId) (name : Bytes) (attr : Attributes) :
    Prop where
  fresh : ¬ t.isLive id
  isLive : ∀ x, t'.isLive x ↔ t.isLive x ∨ x = id
  same : ∀ x, t.isLive x → SameAt t t' x
  name : t'.name id = name
  parent : (t'.nodes id).parent = some p
  attr : (t'.nodes id).attr = attr

theorem Rep.exact_intern (h : t.Rep kids order) :
    t.exact (p, (t.names.intern name).1) = some c ↔ c ∈ order p ∧ t.name c = name := by
  have he := t.names.extends_intern name
  rw [h.indexed.exact_eq]
  refine and_congr_right fun hc => ?_
  obtain ⟨n, hn⟩ := Option.isSome_iff_exists.1 (h.indexed.named p c hc).1
  have hlt := h.named.name_lt c n hn
  rw [name_eq hn, hn, ← he.view_eq n hlt, Option.some.injEq]
  constructor
  · rintro rfl
    exact t.names.view_intern name
  · intro hview
    refine StringPool.view_injective (hlt.trans_le he.size_le) (t.names.intern_lt name) ?_
    rw [hview, t.names.view_intern]

theorem Rep.exact_intern_eq_none (h : t.Rep kids order) :
    t.exact (p, (t.names.intern name).1) = none ↔ ∀ c ∈ order p, t.name c ≠ name := by
  rw [Option.eq_none_iff_forall_ne_some]
  simp only [ne_eq, h.exact_intern, not_and]

/-- The tree after `insert`, once the names are interned as `nid` and `fid`. -/
def insertNode (t : MetadataTree) (p : NodeId) (nid fid : NameId) (attr : Attributes) :
    NodeId × MetadataTree :=
  let r := t.allocNode
  let t := r.2.place p r.1 fun n => { n with name := some nid, foldedName := some fid, attr }
  (r.1, { t with live := t.live + 1 })

theorem Rep.insertNode_spec (h : t.Rep kids kids) (attr : Attributes) (hp : t.isLive p)
    (hdir : (t.nodes p).isDir = true) (hvalid : validName name = true) (hnid : nid < t.names.size)
    (hview : t.names.view nid = name) (hfid : fid < t.names.size)
    (hfold : t.names.view fid = casefold name) (hfree : t.exact (p, nid) = none) :
    let r := t.insertNode p nid fid attr
    Inserted t r.2 p r.1 name attr ∧
      r.2.Rep (Function.update kids p (kids p ++ [r.1]))
        (Function.update kids p (kids p ++ [r.1])) := by
  subst hview
  obtain ⟨hdead, hlt, hsize, heq, hnodup, hmem⟩ := h.allocated.allocNode_spec
  intro r
  set id := t.allocNode.1 with hid
  set t₁ := t.allocNode.2 with ht₁
  have hf : Names (fun n => { n with name := some nid, foldedName := some fid, attr }) nid fid :=
    ⟨fun _ => rfl, fun _ => rfl, fun _ => rfl, fun _ => rfl, fun _ => rfl, fun _ => rfl,
      fun _ => rfl⟩
  have hnot : ∀ q, id ∉ kids q := fun q hq => hdead ((h.shaped.mem_order q id).1 hq).1
  have hnil : ∀ q, ¬ t.isLive q → kids q = [] := by
    intro q hq
    refine List.eq_nil_iff_forall_not_mem.2 fun c hc => ?_
    obtain ⟨hl, hpar⟩ := (h.shaped.mem_order q c).1 hc
    exact hq (h.shaped.live_of_below hl (Relation.ReflTransGen.single hpar))
  have hnodes₁ : ∀ x, t₁.nodes x = if x = id then {} else t.nodes x := by
    intro x
    rw [heq]
    by_cases hx : x = id
    · subst hx
      simp
    · simp [hx]
  -- The slot is reset, so it is linked nowhere.
  have hdet : Detached t₁ id kids := by
    refine ⟨?_, ?_, hnot⟩
    · exact h.linked.reset hnot (hnil id hdead) hnodes₁
    · have hgrow := h.indexed.grow hsize fun q hq => hnil q fun hl =>
        absurd (h.allocated.lt_size q hl) (not_lt.2 hq)
      refine hgrow.congr ?_ ?_ ?_ rfl fun q c hc => ?_
      iterate 3 rw [heq]
      have hne : c ≠ id := fun hci => hnot q (hci ▸ hc)
      rw [hnodes₁, if_neg hne]
      exact ⟨rfl, rfl⟩
  have hfree₁ : t₁.exact (p, nid) = none := by rw [heq, hfree]
  have hp₁ : p < t₁.size := (h.allocated.lt_size p hp).trans_le hsize
  obtain ⟨hlinked, hindexed⟩ := hdet.place hf hfree₁ hp₁
  obtain ⟨hnames', hsize', hfree', hlive'⟩ := place_eq t₁ p id
    fun n => { n with name := some nid, foldedName := some fid, attr }
  have hnodes' := hdet.place_nodes (p := p) hf
  have ha : Assigned t r.2 p id nid fid attr := by
    refine ⟨?_, fun x => ?_, fun x => ?_, fun x => ?_, fun x => ?_⟩
    · rw [show r.2.names = t₁.names from hnames', heq]
    · rw [show (r.2.nodes x).name = _ from (hnodes' x).1, hnodes₁]
      split_ifs <;> rfl
    · rw [show (r.2.nodes x).foldedName = _ from (hnodes' x).2.1, hnodes₁]
      split_ifs <;> rfl
    · rw [show (r.2.nodes x).parent = _ from (hnodes' x).2.2.1, hnodes₁]
      split_ifs <;> rfl
    · rw [show (r.2.nodes x).attr = _ from (hnodes' x).2.2.2, hnodes₁]
      split_ifs <;> rfl
  have hroot : id ≠ root := fun hir => hdead (hir ▸ h.shaped.root_live)
  have hbelow : ¬ t.Below id p := fun hb => hdead (h.shaped.live_of_below hp hb)
  obtain ⟨hname, hparent, hattr⟩ := ha.self
  refine ⟨⟨hdead, ha.isLive, fun x hx => ha.sameAt fun hxi => hdead (hxi ▸ hx), hname, hparent,
    hattr⟩, hlinked.congr fun x => ⟨rfl, rfl, rfl, rfl, rfl⟩,
    hindexed.congr rfl rfl rfl rfl fun q c _ => ⟨rfl, rfl⟩, ?_,
    ha.named h.named hvalid hnid hfid hfold,
    ha.shaped h.shaped hp hdir hbelow hroot (fun hl => absurd hl hdead) fun q c => ?_⟩
  · have hsz : r.2.size = t₁.size := hsize'
    have hfr : r.2.free = t₁.free := hfree'
    have hlv : r.2.live = t.live + 1 := by
      rw [show r.2.live = t₁.live + 1 from congrArg (· + 1) hlive', heq]
    refine ⟨hfr ▸ hnodup, fun i => ?_, fun i hi => ?_, ?_⟩
    · rw [hfr, hmem, hsz, ha.isLive]
      tauto
    · rw [hsz]
      rcases (ha.isLive i).1 hi with hi | rfl
      · exact (h.allocated.lt_size i hi).trans_le hsize
      · exact hlt
    · have hset : ((Finset.range r.2.size).filter fun i => r.2.isLive i) =
          Insert.insert id ((Finset.range t.size).filter fun i => t.isLive i) := by
        ext i
        simp only [Finset.mem_filter, Finset.mem_insert, Finset.mem_range, hsz, ha.isLive]
        constructor
        · rintro ⟨-, hi | rfl⟩
          · exact .inr ⟨h.allocated.lt_size i hi, hi⟩
          · exact .inl rfl
        · rintro (rfl | ⟨hi, hi'⟩)
          · exact ⟨hlt, .inr rfl⟩
          · exact ⟨hi.trans_le hsize, .inl hi'⟩
      rw [hlv, hset, Finset.card_insert_of_notMem (by simp [hdead]), h.allocated.live_eq]
  · rw [h.shaped.mem_order]
    refine ⟨fun hc => ⟨fun hci => hdead (hci ▸ hc.1), hc⟩, fun hc => hc.2⟩

/-- **`insert`** adds a node if it can be inserted; otherwise at most the pool of names grows. -/
theorem Rep.insert_spec (h : t.Rep kids kids) (p : NodeId) (name : Bytes) (attr : Attributes) :
    (∃ id t', t.insert p name attr = (.ok id, t') ∧ Insertable t kids p name ∧
      Inserted t t' p id name attr ∧
      t'.Rep (Function.update kids p (kids p ++ [id])) (Function.update kids p (kids p ++ [id]))) ∨
    ∃ e t', t.insert p name attr = (.error e, t') ∧ ¬ Insertable t kids p name ∧
      SameTree t t' ∧ t'.Rep kids kids := by
  have hsame : SameTree t t := ⟨fun _ => Iff.rfl, fun _ _ => ⟨rfl, rfl, rfl⟩⟩
  unfold MetadataTree.insert
  by_cases hp : t.isLive p
  swap
  · rw [if_pos (by rw [h.allocated.valid_eq_false hp]; rfl)]
    exact .inr ⟨_, t, rfl, fun hi => hp hi.live, hsame, h⟩
  rw [if_neg (by simpa [h.allocated.valid_iff] using hp)]
  by_cases hdir : (t.nodes p).isDir = true
  swap
  · rw [if_pos (by simpa using hdir)]
    exact .inr ⟨_, t, rfl, fun hi => hdir hi.isDir, hsame, h⟩
  rw [if_neg (by simpa using hdir)]
  by_cases hvalid : validName name = true
  swap
  · rw [if_pos (by simpa using hvalid)]
    exact .inr ⟨_, t, rfl, fun hi => hvalid hi.valid, hsame, h⟩
  rw [if_neg (by simpa using hvalid)]
  dsimp only
  have he := t.names.extends_intern name
  have hr := h.extend he
  by_cases hfree : t.exact (p, (t.names.intern name).1) = none
  swap
  · rw [if_pos (Option.isSome_iff_ne_none.2 hfree)]
    exact .inr ⟨_, _, rfl, fun hi => hfree (h.exact_intern_eq_none.2 hi.absent),
      ⟨fun _ => Iff.rfl, fun x hx => sameAt_extend h.named he hx⟩, hr⟩
  rw [if_neg (by simp [hfree])]
  -- The names are interned; the rest is `insertNode`.
  have hlt := t.names.intern_lt name
  have hview := t.names.view_intern name
  obtain ⟨hef, hflt, hfview⟩ := internFolded_spec hlt hview
  have hrf := hr.extend hef
  have hview' : (internFolded (t.names.intern name).2 name (t.names.intern name).1).2.view
      (t.names.intern name).1 = name := by rw [hef.view_eq _ hlt, hview]
  obtain ⟨hins, hrep⟩ := hrf.insertNode_spec attr hp hdir hvalid (hlt.trans_le hef.size_le) hview'
    hflt hfview hfree
  refine .inl ⟨_, _, rfl, ⟨hp, hdir, hvalid, h.exact_intern_eq_none.1 hfree⟩, ?_, hrep⟩
  refine ⟨hins.fresh, hins.isLive, fun x hx => ?_, hins.name, hins.parent, hins.attr⟩
  have hx' := hins.same x hx
  have hxe := sameAt_extend h.named (he.trans hef) hx
  exact ⟨hx'.name.trans hxe.name, hx'.parent, hx'.attr⟩

/-! ### Renaming -/

/-- How many slots are at or above a node. -/
noncomputable def height (t : MetadataTree) (x : NodeId) : ℕ := by
  classical exact ((Finset.range t.size).filter fun y => t.Below y x).card

theorem height_le (t : MetadataTree) (x : NodeId) : t.height x ≤ t.size := by
  classical
  unfold height
  exact (Finset.card_filter_le _ _).trans (Finset.card_range _).le

theorem Rep.height_pos (h : t.Rep kids order) (hx : t.isLive x) : 0 < t.height x := by
  classical
  unfold height
  exact Finset.card_pos.2 ⟨x, Finset.mem_filter.2
    ⟨Finset.mem_range.2 (h.allocated.lt_size x hx), Relation.ReflTransGen.refl⟩⟩

theorem Rep.height_lt (h : t.Rep kids order) (hx : x ∈ order p) : t.height p < t.height x := by
  classical
  obtain ⟨hlive, hparent⟩ := (h.shaped.mem_order p x).1 hx
  unfold height
  refine Finset.card_lt_card ⟨fun y hy => ?_, fun hle => ?_⟩
  · rw [Finset.mem_filter] at hy ⊢
    exact ⟨hy.1, hy.2.head hparent⟩
  · have hx' := hle (Finset.mem_filter.2 ⟨Finset.mem_range.2 (h.allocated.lt_size x hlive),
      Relation.ReflTransGen.refl⟩)
    exact h.not_below_child hx (Finset.mem_filter.1 hx').2

/-- The loop of `rename` finds out whether a node is below another one. -/
theorem Rep.isAncestor_iff (h : t.Rep kids order) {a : NodeId} {fuel : ℕ} (ha : t.isLive a)
    (hfuel : t.height a ≤ fuel) : t.isAncestor id fuel (some a) = true ↔ t.Below id a := by
  induction fuel generalizing a with
  | zero =>
    have hpos := h.height_pos ha
    omega
  | succ fuel ih =>
    rw [isAncestor, Bool.or_eq_true, beq_iff_eq]
    by_cases hroot : a = root
    · have hnone : ∀ n, t.isAncestor id n none = false := by
        intro n
        cases n <;> rfl
      rw [hroot, h.shaped.root_parent, hnone]
      refine ⟨fun hor => ?_, fun hb => ?_⟩
      · rw [hor.resolve_right Bool.false_ne_true]
        exact Relation.ReflTransGen.refl
      · rcases Relation.ReflTransGen.cases_head hb with hri | ⟨b, hb, -⟩
        · exact .inl hri
        · rw [IsParent, h.shaped.root_parent] at hb
          cases hb
    · obtain ⟨q, hq, hqlive, -⟩ := h.shaped.parent_live a ha hroot
      have hlt := h.height_lt ((h.shaped.mem_order q a).2 ⟨ha, hq⟩)
      rw [hq, ih hqlive (by omega)]
      constructor
      · rintro (rfl | hb)
        · exact Relation.ReflTransGen.refl
        · exact hb.head hq
      · intro hb
        rcases Relation.ReflTransGen.cases_head hb with hai | ⟨b, hab, hb⟩
        · exact .inl hai
        · obtain rfl : q = b := Option.some.inj (hq.symm.trans hab)
          exact .inr hb

/-- `t'` is `t` with one node at another place. -/
structure Moved (t t' : MetadataTree) (id newParent : NodeId) (newName : Bytes) : Prop where
  isLive : ∀ x, t'.isLive x ↔ t.isLive x
  same : ∀ x, t.isLive x → x ≠ id → SameAt t t' x
  name : t'.name id = newName
  parent : (t'.nodes id).parent = some newParent
  attr : (t'.nodes id).attr = (t.nodes id).attr

/-- A node can be moved there. -/
structure Movable (t : MetadataTree) (kids : NodeId → List NodeId) (id newParent : NodeId)
    (newName : Bytes) : Prop where
  live : t.isLive id
  parent_live : t.isLive newParent
  ne_root : id ≠ root
  isDir : (t.nodes newParent).isDir = true
  valid : validName newName = true
  not_below : ¬ t.Below id newParent
  absent : ∀ c ∈ kids newParent, t.name c = newName → c = id

theorem Rep.movable_extend {names : StringPool} {newParent : NodeId} {newName : Bytes}
    (h : t.Rep kids kids) (he : t.names.Extends names) (hm : Movable t kids id newParent newName) :
    Movable { t with names } kids id newParent newName where
  live := hm.live
  parent_live := hm.parent_live
  ne_root := hm.ne_root
  isDir := hm.isDir
  valid := hm.valid
  not_below := hm.not_below
  absent c hc hname := by
    have hlive := ((h.shaped.mem_order newParent c).1 hc).1
    exact hm.absent c hc ((sameAt_extend h.named he hlive).name.symm.trans hname)

/-- The tree after `rename`, once the names are interned as `nid` and `fid`. -/
def moveNode (t : MetadataTree) (id newParent : NodeId) (nid fid : NameId) : MetadataTree :=
  ((t.unindexNode id).unlinkChild id).place newParent id
    fun n => { n with name := some nid, foldedName := some fid }

theorem Rep.detach (h : t.Rep kids kids) (hid : id ∈ kids p) :
    Detached ((t.unindexNode id).unlinkChild id) id
        (Function.update kids p ((kids p).erase id)) ∧
      SameEntries t ((t.unindexNode id).unlinkChild id) ∧
      ∀ k, t.exact k = none → ((t.unindexNode id).unlinkChild id).exact k = none := by
  obtain ⟨hlive, hparent⟩ := (h.shaped.mem_order p id).1 hid
  obtain ⟨n, hn⟩ := Option.isSome_iff_exists.1 hlive
  obtain ⟨f, hf, -⟩ := h.named.folded id n hn
  have hkn := h.indexed.nodup p
  have hplive := h.shaped.live_of_below hlive (Relation.ReflTransGen.single hparent)
  have hscan : (t.children p).filter (· ≠ id) = (kids p).erase id := by
    rw [h.linked.children_eq fun a ha => h.allocated.lt_size a ((h.shaped.mem_order p a).1 ha).1,
      hkn.erase_eq_filter]
    exact List.filter_congr fun a _ => by simp [bne, Bool.beq_eq_decide_eq]
  have hidx := h.indexed.unindex hid hparent hn hf (h.allocated.lt_size p hplive) hscan
  have hnodes := t.unindexNode_nodes id
  have hl : (t.unindexNode id).Linked kids := h.linked.congr fun x => by simp [hnodes]
  have hpar' : ((t.unindexNode id).nodes id).parent = some p := by rw [hnodes, hparent]
  have hsame := hl.sameEntries_unlink hid hpar'
  have hsame' := (sameEntries_unindexNode t id).trans hsame
  have hidx' : ((t.unindexNode id).unlinkChild id).Indexed
      (Function.update kids p ((kids p).erase id)) := by
    refine hidx.congr ?_ ?_ ?_ hsame.size fun q a _ => ⟨hsame.name a, hsame.foldedName a⟩ <;>
      rw [unlinkChild_eq]
  refine ⟨⟨hl.unlink hid hpar', hidx', notMem_update_erase hkn fun q hq => ?_⟩, hsame',
    fun k hk => ?_⟩
  · exact Option.some.inj (((h.shaped.mem_order q id).1 hq).2.symm.trans hparent)
  · -- What is still indexed was indexed before.
    by_contra hsome
    obtain ⟨c, hc⟩ := Option.ne_none_iff_exists'.1 hsome
    obtain ⟨hmem, hname⟩ := (hidx'.exact_eq k.1 k.2 c).1 hc
    have hmem' : c ∈ kids k.1 := by
      by_cases hq : k.1 = p
      · rw [hq, Function.update_self] at hmem
        rw [hq]
        exact List.mem_of_mem_erase hmem
      · rwa [Function.update_of_ne hq] at hmem
    rw [hsame'.name] at hname
    have := (h.indexed.exact_eq k.1 k.2 c).2 ⟨hmem', hname⟩
    rw [hk] at this
    cases this

theorem Rep.moveNode_spec {newParent : NodeId} {newName : Bytes} (h : t.Rep kids kids)
    (hm : Movable t kids id newParent newName) (hnid : nid < t.names.size)
    (hview : t.names.view nid = newName) (hfid : fid < t.names.size)
    (hfold : t.names.view fid = casefold newName) (hfree : t.exact (newParent, nid) = none) :
    Moved t (t.moveNode id newParent nid fid) id newParent newName ∧
      (t.moveNode id newParent nid fid).WF := by
  subst hview
  obtain ⟨p, hparent, -, -⟩ := h.shaped.parent_live id hm.live hm.ne_root
  have hid : id ∈ kids p := (h.shaped.mem_order p id).2 ⟨hm.live, hparent⟩
  obtain ⟨hdet, hsame, hexact⟩ := h.detach hid
  have hf : Names (fun n => { n with name := some nid, foldedName := some fid }) nid fid :=
    ⟨fun _ => rfl, fun _ => rfl, fun _ => rfl, fun _ => rfl, fun _ => rfl, fun _ => rfl,
      fun _ => rfl⟩
  obtain ⟨hlinked, hindexed⟩ := hdet.place hf (hexact _ hfree)
    (by rw [hsame.size]; exact h.allocated.lt_size newParent hm.parent_live)
  obtain ⟨hnames, hsize, hfree', hlive'⟩ := place_eq ((t.unindexNode id).unlinkChild id)
    newParent id fun n => { n with name := some nid, foldedName := some fid }
  have hnodes := hdet.place_nodes (p := newParent) hf
  have ha : Assigned t (t.moveNode id newParent nid fid) newParent id nid fid
      (t.nodes id).attr := by
    refine ⟨hnames.trans hsame.names, fun x => ?_, fun x => ?_, fun x => ?_, fun x => ?_⟩
    · exact (hnodes x).1.trans (by rw [hsame.name])
    · exact (hnodes x).2.1.trans (by rw [hsame.foldedName])
    · exact (hnodes x).2.2.1.trans (by rw [hsame.parent])
    · refine (hnodes x).2.2.2.trans ?_
      dsimp only
      rw [hsame.attr]
      split_ifs with hx
      · rw [hx]
      · rfl
  have hlive : ∀ x, (t.moveNode id newParent nid fid).isLive x ↔ t.isLive x := by
    intro x
    rw [ha.isLive, or_iff_left_of_imp]
    rintro rfl
    exact hm.live
  obtain ⟨hname, hpar, hattr⟩ := ha.self
  refine ⟨⟨hlive, fun x _ hx => ha.sameAt hx, hname, hpar, hattr⟩, _, hlinked, hindexed, ?_,
    ha.named h.named hm.valid hnid hfid hfold, ha.shaped h.shaped hm.parent_live hm.isDir
      hm.not_below hm.ne_root (fun _ => rfl) fun q c => ?_⟩
  · have hsz : (t.moveNode id newParent nid fid).size = t.size := hsize.trans hsame.size
    have hfr : (t.moveNode id newParent nid fid).free = t.free := hfree'.trans hsame.free
    have hlv : (t.moveNode id newParent nid fid).live = t.live := hlive'.trans hsame.live
    refine ⟨hfr ▸ h.allocated.free_nodup, fun i => ?_, fun i hi => ?_, ?_⟩
    · rw [hfr, hsz, hlive, h.allocated.mem_free]
    · exact hsz.symm ▸ h.allocated.lt_size i ((hlive i).1 hi)
    · simp only [hlv, hsz, hlive, h.allocated.live_eq]
  · by_cases hq : q = p
    · subst hq
      rw [Function.update_self, (h.indexed.nodup q).mem_erase_iff, h.shaped.mem_order]
    · rw [Function.update_of_ne hq, h.shaped.mem_order]
      refine ⟨fun hc => ⟨?_, hc⟩, fun hc => hc.2⟩
      rintro rfl
      exact hq (Option.some.inj (hc.2.symm.trans hparent))

/-- **`rename`** moves a node if it can be moved; otherwise at most the pool of names grows. -/
theorem Rep.rename_spec (h : t.Rep kids kids) (id newParent : NodeId) (newName : Bytes) :
    (∃ t', t.rename id newParent newName = (.ok (), t') ∧ Movable t kids id newParent newName ∧
      Moved t t' id newParent newName ∧ t'.WF) ∨
    ∃ e t', t.rename id newParent newName = (.error e, t') ∧
      ¬ Movable t kids id newParent newName ∧ SameTree t t' ∧ t'.WF := by
  have hsame : SameTree t t := ⟨fun _ => Iff.rfl, fun _ _ => ⟨rfl, rfl, rfl⟩⟩
  unfold MetadataTree.rename
  by_cases hid : t.isLive id ∧ t.isLive newParent
  swap
  · rw [if_pos]
    · exact .inr ⟨_, t, rfl, fun hm => hid ⟨hm.live, hm.parent_live⟩, hsame, kids, h⟩
    · rcases not_and_or.1 hid with hl | hl <;> simp [h.allocated.valid_eq_false hl]
  rw [if_neg (by simp [h.allocated.valid_iff.2 hid.1, h.allocated.valid_iff.2 hid.2])]
  by_cases hroot : id = root
  · rw [if_pos hroot]
    exact .inr ⟨_, t, rfl, fun hm => hm.ne_root hroot, hsame, kids, h⟩
  rw [if_neg hroot]
  by_cases hdir : (t.nodes newParent).isDir = true
  swap
  · rw [if_pos (by simpa using hdir)]
    exact .inr ⟨_, t, rfl, fun hm => hdir hm.isDir, hsame, kids, h⟩
  rw [if_neg (by simpa using hdir)]
  by_cases hvalid : validName newName = true
  swap
  · rw [if_pos (by simpa using hvalid)]
    exact .inr ⟨_, t, rfl, fun hm => hvalid hm.valid, hsame, kids, h⟩
  rw [if_neg (by simpa using hvalid)]
  by_cases hbelow : t.Below id newParent
  · rw [if_pos ((h.isAncestor_iff hid.2 (t.height_le _)).2 hbelow)]
    exact .inr ⟨_, t, rfl, fun hm => hm.not_below hbelow, hsame, kids, h⟩
  rw [if_neg (mt (h.isAncestor_iff hid.2 (t.height_le _)).1 hbelow)]
  dsimp only
  have he := t.names.extends_intern newName
  have hr := h.extend he
  have hsame' : ∀ x, t.isLive x → SameAt t { t with names := (t.names.intern newName).2 } x :=
    fun x hx => sameAt_extend h.named he hx
  cases hexact : t.exact (newParent, (t.names.intern newName).1) with
  | some existing =>
    obtain ⟨hmem, hname⟩ := h.exact_intern.1 hexact
    dsimp only
    by_cases hex : existing = id
    · -- The node is there already.
      subst hex
      rw [if_pos rfl]
      have hpar := ((h.shaped.mem_order newParent existing).1 hmem).2
      refine .inl ⟨_, rfl, ⟨hid.1, hid.2, hroot, hdir, hvalid, hbelow, fun c hc hcn => ?_⟩,
        ⟨fun _ => Iff.rfl, fun x hx _ => hsame' x hx, ?_, hpar, rfl⟩, kids, hr⟩
      · exact Option.some.inj ((h.exact_intern.2 ⟨hc, hcn⟩).symm.trans hexact)
      · rw [(hsame' existing hid.1).name, hname]
    · rw [if_neg hex]
      exact .inr ⟨_, _, rfl, fun hm => hex (hm.absent existing hmem hname),
        ⟨fun _ => Iff.rfl, hsame'⟩, kids, hr⟩
  | none =>
    have habs := h.exact_intern_eq_none.1 hexact
    have hlt := t.names.intern_lt newName
    have hview := t.names.view_intern newName
    obtain ⟨hef, hflt, hfview⟩ := internFolded_spec hlt hview
    have hrf := hr.extend hef
    have hview' :
        (internFolded (t.names.intern newName).2 newName (t.names.intern newName).1).2.view
          (t.names.intern newName).1 = newName := by rw [hef.view_eq _ hlt, hview]
    have hsame'' := fun x hx => sameAt_extend (x := x) h.named (he.trans hef) hx
    have hm : Movable t kids id newParent newName :=
      ⟨hid.1, hid.2, hroot, hdir, hvalid, hbelow, fun c hc hcn => absurd hcn (habs c hc)⟩
    obtain ⟨hmoved, hwf⟩ := hrf.moveNode_spec (h.movable_extend (he.trans hef) hm)
      (hlt.trans_le hef.size_le) hview' hflt hfview hexact
    refine .inl ⟨_, rfl, hm, ⟨hmoved.isLive, fun x hx hne => ?_, hmoved.name, hmoved.parent,
      hmoved.attr⟩, hwf⟩
    have hx' := hmoved.same x hx hne
    exact ⟨hx'.name.trans (hsame'' x hx).name, hx'.parent, hx'.attr⟩

end MetadataTree

end WslDrive
