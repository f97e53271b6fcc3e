import WslDrive.Core.Tree.Invariant
import WslDrive.Lib.Chain

/-!
# Releasing subtrees

`remove` unlinks a node and then releases it and everything below it, children before parents.

* `Rep.releaseNode` — what releasing one node without children does;
* `Ready.release_one` — the loop works off one node of its stack, with all that is below it;
* `follows_works` — how many rounds that takes;
* `Rep.releaseSubtree_spec` — removing a node leaves the other nodes as they were;
* `Rep.releaseChildren_spec` — so does turning a directory into something else.
-/

namespace WslDrive

namespace MetadataTree

open Siblings Shadow Unicode Path

variable {t t' : MetadataTree} {kids order : NodeId → List NodeId} {p c id x : NodeId}

/-! ### Operations that keep the entries -/

/-- Names, parents, attributes and the allocation are the same. -/
structure SameEntries (t t' : MetadataTree) : Prop where
  names : t'.names = t.names
  size : t'.size = t.size
  free : t'.free = t.free
  live : t'.live = t.live
  name : ∀ x, (t'.nodes x).name = (t.nodes x).name
  foldedName : ∀ x, (t'.nodes x).foldedName = (t.nodes x).foldedName
  parent : ∀ x, (t'.nodes x).parent = (t.nodes x).parent
  attr : ∀ x, (t'.nodes x).attr = (t.nodes x).attr

theorem SameEntries.isLive_iff (h : SameEntries t t') : t'.isLive x ↔ t.isLive x := by
  rw [isLive, isLive, h.name]

theorem SameEntries.trans {t'' : MetadataTree} (h : SameEntries t t') (h' : SameEntries t' t'') :
    SameEntries t t'' where
  names := h'.names.trans h.names
  size := h'.size.trans h.size
  free := h'.free.trans h.free
  live := h'.live.trans h.live
  name x := (h'.name x).trans (h.name x)
  foldedName x := (h'.foldedName x).trans (h.foldedName x)
  parent x := (h'.parent x).trans (h.parent x)
  attr x := (h'.attr x).trans (h.attr x)

theorem SameEntries.allocated (h : SameEntries t t') (ha : t.Allocated) : t'.Allocated where
  free_nodup := by
    rw [h.free]
    exact ha.free_nodup
  mem_free i := by rw [h.free, h.size, h.isLive_iff, ha.mem_free]
  lt_size i hi := by
    rw [h.size]
    exact ha.lt_size i (h.isLive_iff.1 hi)
  live_eq := by simp only [h.live, h.size, h.isLive_iff, ha.live_eq]

theorem SameEntries.named (h : SameEntries t t') (hn : t.Named) : t'.Named where
  name_lt i n := by
    rw [h.name, h.names]
    exact hn.name_lt i n
  folded i n := by
    rw [h.name, h.names, h.foldedName]
    exact hn.folded i n
  valid i n := by
    rw [h.name, h.names]
    exact hn.valid i n

theorem SameEntries.isParent_eq (h : SameEntries t t') : t'.IsParent = t.IsParent := by
  funext a b
  rw [IsParent, IsParent, h.parent]

theorem SameEntries.shaped (h : SameEntries t t') (hs : t.Shaped order) : t'.Shaped order where
  root_live := h.isLive_iff.2 hs.root_live
  root_parent := by rw [h.parent, hs.root_parent]
  mem_order q a := by rw [hs.mem_order, h.isLive_iff, h.parent]
  parent_live a ha hne := by
    obtain ⟨q, hq, hlive, hdir⟩ := hs.parent_live a (h.isLive_iff.1 ha) hne
    refine ⟨q, by rw [h.parent, hq], h.isLive_iff.2 hlive, ?_⟩
    rwa [Node.isDir, h.attr]
  to_root a ha := by
    rw [h.isParent_eq]
    exact hs.to_root a (h.isLive_iff.1 ha)

theorem sameEntries_indexNode (t : MetadataTree) (c : NodeId) : SameEntries t (t.indexNode c) := by
  have hn := t.indexNode_nodes c
  refine ⟨?_, ?_, ?_, ?_, ?_, ?_, ?_, ?_⟩ <;> (try simp only [hn, implies_true]) <;>
  · unfold indexNode
    split
    · dsimp only
      split <;> rfl
    · rfl

theorem sameEntries_unindexNode (t : MetadataTree) (c : NodeId) :
    SameEntries t (t.unindexNode c) := by
  have hn := t.unindexNode_nodes c
  refine ⟨?_, ?_, ?_, ?_, ?_, ?_, ?_, ?_⟩ <;> (try simp only [hn, implies_true]) <;>
  · unfold unindexNode
    split
    · dsimp only
      split
      · rfl
      · split_ifs
        · rfl
        · rfl
        · split <;> rfl
    · rfl

theorem Linked.sameEntries_unlink (h : t.Linked kids) (hc : c ∈ kids p)
    (hp : (t.nodes c).parent = some p) : SameEntries t (t.unlinkChild c) := by
  obtain ⟨hprev, hnext⟩ := h.neighbour_ne hc
  have hnodes := unlinkChild_nodes hp hprev hnext
  refine ⟨?_, ?_, ?_, ?_, ?_, ?_, ?_, ?_⟩ <;> (try simp only [hnodes, implies_true]) <;>
    rw [unlinkChild_eq]

theorem Rep.unlink (h : t.Rep kids order) (hc : c ∈ kids p) (hp : (t.nodes c).parent = some p) :
    (t.unlinkChild c).Rep (Function.update kids p ((kids p).erase c)) order := by
  have hs := h.linked.sameEntries_unlink hc hp
  refine ⟨h.linked.unlink hc hp, ?_, hs.allocated h.allocated, hs.named h.named,
    hs.shaped h.shaped⟩
  refine h.indexed.congr ?_ ?_ ?_ hs.size fun q a _ => ⟨hs.name a, hs.foldedName a⟩ <;>
    rw [unlinkChild_eq]

/-! ### One node -/

/-- What the loop of `release_subtree` does to a node without children, once it is unlinked. -/
def releaseNode (t : MetadataTree) (c : NodeId) : MetadataTree :=
  let t := t.unindexNode c
  let t := t.modify c fun n => { n with name := none }
  { t with free := c :: t.free, live := t.live - 1 }

theorem releaseNode_nodes (t : MetadataTree) (c x : NodeId) :
    (t.releaseNode c).nodes x =
      { t.nodes x with name := if x = c then none else (t.nodes x).name } := by
  by_cases hx : x = c
  · subst hx
    simp [releaseNode, modify, unindexNode_nodes]
  · simp [releaseNode, modify, unindexNode_nodes, hx]

theorem releaseNode_isLive : (t.releaseNode c).isLive x ↔ t.isLive x ∧ x ≠ c := by
  rw [isLive, releaseNode_nodes, isLive]
  by_cases hx : x = c <;> simp [hx]

/-- **Releasing one node** that has no children and is in no sibling list. -/
theorem Rep.releaseNode (h : t.Rep kids order) (hc : c ∈ order p) (hleaf : order c = [])
    (hkids : ∀ q, c ∉ kids q) (hp : kids p = (order p).erase c) :
    (t.releaseNode c).Rep kids (Function.update order p ((order p).erase c)) := by
  obtain ⟨hlive, hparent⟩ := (h.shaped.mem_order p c).1 hc
  obtain ⟨n, hn⟩ := Option.isSome_iff_exists.1 hlive
  obtain ⟨f, hf, -⟩ := h.named.folded c n hn
  have hlt : ∀ q, ∀ a ∈ order q, a < t.size := fun q a ha =>
    h.allocated.lt_size a ((h.shaped.mem_order q a).1 ha).1
  have hroot : c ≠ root := by
    rintro rfl
    rw [h.shaped.root_parent] at hparent
    cases hparent
  obtain ⟨p', hp', hplive, -⟩ := h.shaped.parent_live c hlive hroot
  obtain rfl : p = p' := Option.some.inj (hparent.symm.trans hp')
  have hscan : (t.children p).filter (· ≠ c) = (order p).erase c := by
    have hch : t.children p = kids p := h.linked.children_eq fun a ha => hlt p a (by
      rw [hp] at ha
      exact List.mem_of_mem_erase ha)
    rw [hch, List.filter_eq_self.2 fun a ha => ?_, hp]
    simpa using fun hac : a = c => hkids p (hac ▸ ha)
  have hidx := h.indexed.unindex hc hparent hn hf (h.allocated.lt_size p hplive) hscan
  have hsame := sameEntries_unindexNode t c
  have hnodes := t.releaseNode_nodes c
  have hmem : ∀ q a, a ∈ Function.update order p ((order p).erase c) q ↔ a ∈ order q ∧ a ≠ c := by
    intro q a
    by_cases hq : q = p
    · subst hq
      rw [Function.update_self, (h.indexed.nodup q).mem_erase_iff, and_comm]
    · rw [Function.update_of_ne hq]
      refine ⟨fun ha => ⟨ha, ?_⟩, fun ha => ha.1⟩
      rintro rfl
      have := ((h.shaped.mem_order q a).1 ha).2
      exact hq (Option.some.inj (this.symm.trans hparent))
  refine ⟨h.linked.congr fun x => by simp [hnodes], ?_, ?_, ?_, ?_⟩
  · refine hidx.congr rfl rfl rfl rfl fun q a ha => ?_
    have hne := ((hmem q a).1 ha).2
    simp [hnodes, hne, unindexNode_nodes]
  · -- The slot of the node becomes free.
    refine ⟨?_, fun i => ?_, fun i hi => ?_, ?_⟩
    · have : c ∉ t.free := fun hfree => ((h.allocated.mem_free c).1 hfree).2 hlive
      simpa [MetadataTree.releaseNode, modify, hsame.free] using ⟨this, h.allocated.free_nodup⟩
    · rw [releaseNode_isLive]
      have hsz : (t.releaseNode c).size = t.size := hsame.size
      have hfr : (t.releaseNode c).free = c :: t.free := by
        simp [MetadataTree.releaseNode, modify, hsame.free]
      rw [hsz, hfr, List.mem_cons, h.allocated.mem_free]
      by_cases hic : i = c
      · subst hic
        simpa using h.allocated.lt_size i hlive
      · simp [hic]
    · have hsz : (t.releaseNode c).size = t.size := hsame.size
      rw [hsz]
      exact h.allocated.lt_size i (releaseNode_isLive.1 hi).1
    · have hsz : (t.releaseNode c).size = t.size := hsame.size
      have hlv : (t.releaseNode c).live = t.live - 1 := by
        simp [MetadataTree.releaseNode, modify, hsame.live]
      have hset : ((Finset.range t.size).filter fun i => (t.releaseNode c).isLive i) =
          ((Finset.range t.size).filter fun i => t.isLive i).erase c := by
        ext i
        simp only [Finset.mem_filter, Finset.mem_erase, releaseNode_isLive]
        tauto
      rw [hsz, hlv, h.allocated.live_eq, hset, Finset.card_erase_of_mem]
      simpa using ⟨h.allocated.lt_size c hlive, hlive⟩
  · have hnm : (t.releaseNode c).names = t.names := hsame.names
    have hold : ∀ {i m}, ((t.releaseNode c).nodes i).name = some m → (t.nodes i).name = some m := by
      intro i m him
      rw [hnodes] at him
      dsimp only at him
      split_ifs at him
      exact him
    refine ⟨fun i m him => ?_, fun i m him => ?_, fun i m him => ?_⟩
    · rw [hnm]
      exact h.named.name_lt i m (hold him)
    · rw [hnm, hnodes]
      exact h.named.folded i m (hold him)
    · rw [hnm]
      exact h.named.valid i m (hold him)
  · refine ⟨releaseNode_isLive.2 ⟨h.shaped.root_live, Ne.symm hroot⟩, ?_, fun q a => ?_,
      fun a ha hne => ?_, fun a ha => ?_⟩
    · rw [hnodes]
      exact h.shaped.root_parent
    · rw [hmem, h.shaped.mem_order, releaseNode_isLive, hnodes]
      tauto
    · obtain ⟨hla, hac⟩ := releaseNode_isLive.1 ha
      obtain ⟨q, hq, hqlive, hdir⟩ := h.shaped.parent_live a hla hne
      refine ⟨q, by rw [hnodes]; exact hq, releaseNode_isLive.2 ⟨hqlive, ?_⟩, ?_⟩
      · rintro rfl
        have := (h.shaped.mem_order q a).2 ⟨hla, hq⟩
        rw [hleaf] at this
        cases this
      · rw [hnodes]
        exact hdir
    · have hpar : (t.releaseNode c).IsParent = t.IsParent := by
        funext a b
        rw [IsParent, IsParent, hnodes]
      rw [hpar]
      exact h.shaped.to_root a (releaseNode_isLive.1 ha).1

/-! ### What is left of a tree -/

/-- `t'` holds some of the nodes of `t`, as they were. -/
structure Shrinks (t t' : MetadataTree) : Prop where
  names : t'.names = t.names
  size : t'.size = t.size
  isLive : ∀ x, t'.isLive x → t.isLive x
  name : ∀ x, t'.isLive x → (t'.nodes x).name = (t.nodes x).name
  foldedName : ∀ x, (t'.nodes x).foldedName = (t.nodes x).foldedName
  parent : ∀ x, (t'.nodes x).parent = (t.nodes x).parent
  attr : ∀ x, (t'.nodes x).attr = (t.nodes x).attr

theorem Shrinks.refl (t : MetadataTree) : Shrinks t t :=
  ⟨rfl, rfl, fun _ h => h, fun _ _ => rfl, fun _ => rfl, fun _ => rfl, fun _ => rfl⟩

theorem Shrinks.trans {t'' : MetadataTree} (h : Shrinks t t') (h' : Shrinks t' t'') :
    Shrinks t t'' where
  names := h'.names.trans h.names
  size := h'.size.trans h.size
  isLive x hx := h.isLive x (h'.isLive x hx)
  name x hx := (h'.name x hx).trans (h.name x (h'.isLive x hx))
  foldedName x := (h'.foldedName x).trans (h.foldedName x)
  parent x := (h'.parent x).trans (h.parent x)
  attr x := (h'.attr x).trans (h.attr x)

theorem SameEntries.shrinks (h : SameEntries t t') : Shrinks t t' where
  names := h.names
  size := h.size
  isLive _ hx := h.isLive_iff.1 hx
  name x _ := h.name x
  foldedName := h.foldedName
  parent := h.parent
  attr := h.attr

theorem shrinks_releaseNode (t : MetadataTree) (c : NodeId) : Shrinks t (t.releaseNode c) where
  names := (sameEntries_unindexNode t c).names
  size := (sameEntries_unindexNode t c).size
  isLive _ hx := (releaseNode_isLive.1 hx).1
  name x hx := by simp [releaseNode_nodes, (releaseNode_isLive.1 hx).2]
  foldedName x := by simp [releaseNode_nodes]
  parent x := by simp [releaseNode_nodes]
  attr x := by simp [releaseNode_nodes]

/-- `x` is `id` or below it. -/
def Below (t : MetadataTree) (id x : NodeId) : Prop := Relation.ReflTransGen t.IsParent x id

theorem Shrinks.below_iff (h : Shrinks t t') : t'.Below id x ↔ t.Below id x := by
  have : t'.IsParent = t.IsParent := by
    funext a b
    rw [IsParent, IsParent, h.parent]
  rw [Below, Below, this]

theorem rightUnique_isParent (t : MetadataTree) : Relator.RightUnique t.IsParent :=
  fun _ _ _ h h' => Option.some.inj (h.symm.trans h')

theorem Shaped.not_cycle (h : t.Shaped order) (hx : t.isLive x) :
    ¬ Relation.TransGen t.IsParent x x := by
  refine Chain.not_cycle t.rightUnique_isParent (fun b hb => ?_) (h.to_root x hx)
  rw [IsParent, h.root_parent] at hb
  cases hb

/-- The children that are still live. -/
def prune (t' : MetadataTree) (kids : NodeId → List NodeId) (q : NodeId) : List NodeId :=
  (kids q).filter fun c => t'.isLive c

theorem prune_prune {t'' : MetadataTree} (h : Shrinks t' t'') :
    prune t'' (prune t' kids) = prune t'' kids := by
  funext q
  rw [prune, prune, prune, List.filter_filter]
  refine List.filter_congr fun c _ => ?_
  by_cases hc : t''.isLive c
  · simp [hc, h.isLive c hc]
  · simp [hc]

theorem prune_eq_self (h : ∀ q, ∀ c ∈ kids q, t'.isLive c) : prune t' kids = kids := by
  funext q
  exact List.filter_eq_self.2 fun c hc => by simpa using h q c hc

theorem prune_eq_update (t' : MetadataTree) (hn : (kids p).Nodup) (hdisj : ∀ q, c ∈ kids q → q = p)
    (h : ∀ q, ∀ a ∈ kids q, t'.isLive a ↔ a ≠ c) :
    prune t' kids = Function.update kids p ((kids p).erase c) := by
  funext q
  by_cases hq : q = p
  · subst hq
    rw [Function.update_self, hn.erase_eq_filter, prune]
    exact List.filter_congr fun a ha => by simp [h q a ha, bne, Bool.beq_eq_decide_eq]
  · rw [Function.update_of_ne hq]
    exact List.filter_eq_self.2 fun a ha => by
      simpa [h q a ha] using fun hac : a = c => hq (hdisj q (hac ▸ ha))

theorem notMem_update_erase (hn : (kids p).Nodup) (hdisj : ∀ q, c ∈ kids q → q = p) (q : NodeId) :
    c ∉ Function.update kids p ((kids p).erase c) q := by
  intro hq
  by_cases hqp : q = p
  · subst hqp
    rw [Function.update_self] at hq
    exact (hn.mem_erase_iff.1 hq).1 rfl
  · rw [Function.update_of_ne hqp] at hq
    exact hqp (hdisj q hq)

/-! ### The loop -/

/-- The nodes below `p` are linked as they are indexed, and none of them is `id`, the node that
has been unlinked already. -/
structure Ready (id : NodeId) (t : MetadataTree) (kids order : NodeId → List NodeId) (p : NodeId) :
    Prop where
  rep : t.Rep kids order
  sub : ∀ q, ∀ c ∈ kids q, c ∈ order q
  eq : ∀ q, t.Below p q → kids q = order q
  ne : ∀ q, t.Below p q → q ≠ p → q ≠ id

/-- The loop works off the entries `xs` on top of its stack; every node freed pays for two
rounds. -/
def Works (id : NodeId) (t : MetadataTree) (xs : List NodeId) (t' : MetadataTree) : Prop :=
  ∃ k, k + 2 * t'.live ≤ 2 * t.live ∧
    ∀ m S, releaseLoop id (k + m) t (xs ++ S) = releaseLoop id m t' S

/-- The nodes `xs` are freed, and no nodes that are not below one of them. -/
structure Freed (xs : List NodeId) (t t' : MetadataTree) (kids order : NodeId → List NodeId) :
    Prop where
  shrinks : Shrinks t t'
  rep : t'.Rep (prune t' kids) (prune t' order)
  dead : ∀ x ∈ xs, ¬ t'.isLive x
  below : ∀ y, t.isLive y → ¬ t'.isLive y → ∃ x ∈ xs, t.Below x y

theorem Works.append {t'' : MetadataTree} {xs ys : List NodeId} (h : Works id t xs t')
    (h' : Works id t' ys t'') : Works id t (xs ++ ys) t'' := by
  obtain ⟨k, hk, hrun⟩ := h
  obtain ⟨k', hk', hrun'⟩ := h'
  refine ⟨k + k', by omega, fun m S => ?_⟩
  rw [List.append_assoc, Nat.add_assoc, hrun, hrun']

theorem Freed.append {t'' : MetadataTree} {xs ys : List NodeId} (h : Freed xs t t' kids order)
    (h' : Freed ys t' t'' (prune t' kids) (prune t' order)) :
    Freed (xs ++ ys) t t'' kids order where
  shrinks := h.shrinks.trans h'.shrinks
  rep := by simpa only [prune_prune h'.shrinks] using h'.rep
  dead x hx := by
    rcases List.mem_append.1 hx with hx | hx
    · exact fun hl => h.dead x hx (h'.shrinks.isLive x hl)
    · exact h'.dead x hx
  below y hy hy' := by
    by_cases hmid : t'.isLive y
    · obtain ⟨x, hx, hxy⟩ := h'.below y hmid hy'
      exact ⟨x, List.mem_append_right _ hx, h.shrinks.below_iff.1 hxy⟩
    · obtain ⟨x, hx, hxy⟩ := h.below y hy hmid
      exact ⟨x, List.mem_append_left _ hx, hxy⟩

theorem Ready.parent_eq (h : Ready id t kids order p) {q : NodeId} (hx : x ∈ kids q) :
    t.isLive x ∧ (t.nodes x).parent = some q :=
  (h.rep.shaped.mem_order q x).1 (h.sub q x hx)

theorem Rep.not_below_child (h : t.Rep kids order) (hx : x ∈ order p) : ¬ t.Below x p := by
  intro hpx
  obtain ⟨hlive, hparent⟩ := (h.shaped.mem_order p x).1 hx
  exact h.shaped.not_cycle hlive (Relation.TransGen.head' hparent hpx)

theorem Rep.not_below_sibling (h : t.Rep kids order) {y : NodeId} (hx : x ∈ order p)
    (hy : y ∈ order p) (hne : y ≠ x) : ¬ t.Below x y := by
  intro hyx
  rcases Relation.ReflTransGen.cases_head hyx with rfl | ⟨q, hyq, hqx⟩
  · exact hne rfl
  · obtain rfl : p = q := Option.some.inj (((h.shaped.mem_order p y).1 hy).2.symm.trans hyq)
    exact h.not_below_child hx hqx

theorem Ready.child (h : Ready id t kids order p) (hx : x ∈ kids p) : Ready id t kids order x where
  rep := h.rep
  sub := h.sub
  eq q hq := h.eq q (hq.tail (h.parent_eq hx).2)
  ne q hq _ := by
    refine h.ne q (hq.tail (h.parent_eq hx).2) ?_
    rintro rfl
    exact h.rep.not_below_child (h.sub q x hx) hq

theorem Ready.freed {xs : List NodeId} (h : Ready id t kids order p)
    (hf : Freed xs t t' kids order) : Ready id t' (prune t' kids) (prune t' order) p where
  rep := hf.rep
  sub q c hc := by
    rw [prune, List.mem_filter] at hc ⊢
    exact ⟨h.sub q c hc.1, hc.2⟩
  eq q hq := by rw [prune, prune, h.eq q (hf.shrinks.below_iff.1 hq)]
  ne q hq := h.ne q (hf.shrinks.below_iff.1 hq)

theorem Ready.children_eq (h : Ready id t kids order p) (q : NodeId) : t.children q = kids q :=
  h.rep.linked.children_eq fun _ hc => h.rep.allocated.lt_size _ (h.parent_eq hc).1

theorem Ready.ne_id (h : Ready id t kids order p) (hx : x ∈ kids p) : x ≠ id := by
  refine h.ne x (Relation.ReflTransGen.single (h.parent_eq hx).2) ?_
  rintro rfl
  exact h.rep.not_below_child (h.sub x x hx) Relation.ReflTransGen.refl

theorem Ready.freed_children (h : Ready id t kids order x) (hx : t.isLive x)
    (hf : Freed (kids x) t t' kids order) :
    t'.isLive x ∧ prune t' order x = [] ∧ (t'.nodes x).firstChild = none := by
  have hlive : t'.isLive x := by
    by_contra hdead
    obtain ⟨c, hc, hcx⟩ := hf.below x hx hdead
    exact h.rep.not_below_child (h.sub x c hc) hcx
  have hnil : prune t' kids x = [] := by
    rw [prune, List.filter_eq_nil_iff]
    intro c hc
    simpa using hf.dead c hc
  refine ⟨hlive, ?_, ?_⟩
  · rw [← hnil, prune, prune, h.eq x Relation.ReflTransGen.refl]
  · have := hf.rep.linked.links.first_eq x
    rw [hnil] at this
    exact this

theorem Ready.release_leaf (h : Ready id t kids order p) (hx : x ∈ kids p) (hleaf : order x = []) :
    ((t.unlinkChild x).releaseNode x).Rep
      (prune ((t.unlinkChild x).releaseNode x) kids)
      (prune ((t.unlinkChild x).releaseNode x) order) := by
  obtain ⟨hlive, hparent⟩ := h.parent_eq hx
  have hsame := h.rep.linked.sameEntries_unlink hx hparent
  have hlive' : ∀ a, ((t.unlinkChild x).releaseNode x).isLive a ↔ t.isLive a ∧ a ≠ x := fun a => by
    rw [releaseNode_isLive, hsame.isLive_iff]
  have hkn : (kids p).Nodup := h.rep.linked.links.nodup p
  have hdisj : ∀ q, x ∈ order q → q = p := fun q hq =>
    Option.some.inj (((h.rep.shaped.mem_order q x).1 hq).2.symm.trans hparent)
  rw [prune_eq_update _ hkn (fun q hq => hdisj q (h.sub q x hq))
      fun q a ha => by rw [hlive', and_iff_right (h.parent_eq ha).1],
    prune_eq_update _ (h.rep.indexed.nodup p) hdisj
      fun q a ha => by rw [hlive', and_iff_right ((h.rep.shaped.mem_order q a).1 ha).1]]
  refine (h.rep.unlink hx hparent).releaseNode (h.sub p x hx) hleaf
    (notMem_update_erase hkn fun q hq => hdisj q (h.sub q x hq)) ?_
  rw [Function.update_self, h.eq p Relation.ReflTransGen.refl]

theorem live_pos (h : t.Allocated) (hx : t.isLive x) : 0 < t.live := by
  rw [h.live_eq, Finset.card_pos]
  exact ⟨x, Finset.mem_filter.2 ⟨Finset.mem_range.2 (h.lt_size x hx), hx⟩⟩

theorem releaseNode_live (t : MetadataTree) (c : NodeId) : (t.releaseNode c).live = t.live - 1 := by
  simp [releaseNode, modify, (sameEntries_unindexNode t c).live]

theorem Ready.freed_node (h : Ready id t kids order p) (hx : x ∈ kids p)
    (hf : Freed (kids x) t t' kids order) :
    Freed [x] t ((t'.unlinkChild x).releaseNode x) kids order := by
  obtain ⟨hlive', hleaf, -⟩ := (h.child hx).freed_children (h.parent_eq hx).1 hf
  have hready := h.freed hf
  have hx' : x ∈ prune t' kids p := List.mem_filter.2 ⟨hx, by simpa using hlive'⟩
  have hrep := hready.release_leaf hx' hleaf
  have hsame := hf.rep.linked.sameEntries_unlink hx' (hready.parent_eq hx').2
  set t₂ := (t'.unlinkChild x).releaseNode x with ht₂
  have hs₂ : Shrinks t' t₂ := hsame.shrinks.trans (shrinks_releaseNode _ x)
  refine ⟨hf.shrinks.trans hs₂, ?_, ?_, ?_⟩
  · simpa only [prune_prune hs₂] using hrep
  · intro y hy
    obtain rfl := List.mem_singleton.1 hy
    exact fun hl => (releaseNode_isLive.1 hl).2 rfl
  · intro y hy hdead
    refine ⟨x, List.mem_singleton_self x, ?_⟩
    by_cases hy' : t'.isLive y
    · rw [ht₂, releaseNode_isLive, hsame.isLive_iff] at hdead
      obtain rfl : y = x := by simpa [hy'] using hdead
      exact Relation.ReflTransGen.refl
    · obtain ⟨c, hc, hcy⟩ := hf.below y hy hy'
      exact hcy.tail ((h.child hx).parent_eq hc).2

/-! ### The order of the work

The loop frees the entries on top of its stack one after the other, each one after its children.
What is said of its rounds is said by a relation `W p t xs t'`: the loop works off the entries `xs`,
which are children of `p`, and turns `t` into `t'`. -/

/-- The relation holds of the work on a stack if it holds of the work on its parts. -/
structure Follows (id : NodeId) (W : NodeId → MetadataTree → List NodeId → MetadataTree → Prop) :
    Prop where
  nil : ∀ p t, W p t [] t
  append : ∀ {p t t' t'' xs ys kids order}, Ready id t kids order p →
    W p t xs t' → Freed xs t t' kids order →
    W p t' ys t'' → Freed ys t' t'' (prune t' kids) (prune t' order) → W p t (xs ++ ys) t''
  node : ∀ {p x t t' kids order}, Ready id t kids order p → x ∈ kids p →
    W x t (kids x).reverse t' → Freed (kids x) t t' kids order →
    W p t [x] ((t'.unlinkChild x).releaseNode x)

section Follows

variable {W : NodeId → MetadataTree → List NodeId → MetadataTree → Prop}

theorem Ready.release_list (hW : Follows id W) (t₀ : MetadataTree) (xs : List NodeId)
    (hone : ∀ t kids order x, x ∈ xs → Shrinks t₀ t → Ready id t kids order p → x ∈ kids p →
      ∃ t', W p t [x] t' ∧ Freed [x] t t' kids order)
    (hs : Shrinks t₀ t) (h : Ready id t kids order p) (hn : xs.Nodup)
    (hsub : ∀ x ∈ xs, x ∈ kids p) :
    ∃ t', W p t xs t' ∧ Freed xs t t' kids order := by
  induction xs generalizing t kids order with
  | nil =>
    have hlive : ∀ q, ∀ c ∈ kids q, t.isLive c := fun q c hc => (h.parent_eq hc).1
    have hlive' : ∀ q, ∀ c ∈ order q, t.isLive c := fun q c hc =>
      ((h.rep.shaped.mem_order q c).1 hc).1
    refine ⟨t, hW.nil p t, .refl t, ?_, by simp, fun y hy hy' => absurd hy hy'⟩
    rw [prune_eq_self hlive, prune_eq_self hlive']
    exact h.rep
  | cons x xs ih =>
    rw [List.nodup_cons] at hn
    have hx : x ∈ kids p := hsub x List.mem_cons_self
    obtain ⟨t₁, hw₁, hf₁⟩ := hone t kids order x List.mem_cons_self hs h hx
    -- The other siblings are still there.
    have hsub₁ : ∀ y ∈ xs, y ∈ prune t₁ kids p := by
      intro y hy
      have hyp := hsub y (List.mem_cons_of_mem _ hy)
      refine List.mem_filter.2 ⟨hyp, ?_⟩
      by_contra hdead
      obtain ⟨x', hx', hxy⟩ := hf₁.below y (h.parent_eq hyp).1 (by simpa using hdead)
      obtain rfl := List.mem_singleton.1 hx'
      refine h.rep.not_below_sibling (h.sub p x' hx) (h.sub p y hyp) ?_ hxy
      rintro rfl
      exact hn.1 hy
    obtain ⟨t₂, hw₂, hf₂⟩ := ih
      (fun t kids order y hy => hone t kids order y (List.mem_cons_of_mem _ hy))
      (hs.trans hf₁.shrinks) (h.freed hf₁) hn.2 hsub₁
    exact ⟨t₂, hW.append h hw₁ hf₁ hw₂ hf₂, hf₁.append hf₂⟩

theorem Ready.release_children (hW : Follows id W) (h : Ready id t kids order x)
    (hone : ∀ t' kids' order' y, y ∈ kids x → Shrinks t t' → Ready id t' kids' order' x →
      y ∈ kids' x → ∃ t'', W x t' [y] t'' ∧ Freed [y] t' t'' kids' order') :
    ∃ t', W x t (kids x).reverse t' ∧ Freed (kids x) t t' kids order := by
  have hn : (kids x).Nodup := h.rep.linked.links.nodup x
  obtain ⟨t', hw, hf⟩ := Ready.release_list hW t (kids x).reverse
    (fun t' kids' order' y hy => hone t' kids' order' y (List.mem_reverse.1 hy)) (.refl t) h
    (List.nodup_reverse.2 hn) fun y hy => List.mem_reverse.1 hy
  refine ⟨t', hw, hf.shrinks, hf.rep, fun y hy => hf.dead y (List.mem_reverse.2 hy), ?_⟩
  intro y hy hy'
  obtain ⟨c, hc, hcy⟩ := hf.below y hy hy'
  exact ⟨c, List.mem_reverse.1 hc, hcy⟩

/-- How many nodes are at or below a node. -/
noncomputable def weight (t : MetadataTree) (x : NodeId) : ℕ := by
  classical exact ((Finset.range t.size).filter fun y => t.isLive y ∧ t.Below x y).card

theorem Shrinks.weight_le (h : Shrinks t t') : t'.weight x ≤ t.weight x := by
  classical
  unfold weight
  rw [h.size]
  refine Finset.card_le_card fun y hy => ?_
  rw [Finset.mem_filter] at hy ⊢
  exact ⟨hy.1, h.isLive y hy.2.1, h.below_iff.1 hy.2.2⟩

theorem Rep.weight_lt (h : t.Rep kids order) (hp : t.isLive p) (hx : x ∈ order p) :
    t.weight x < t.weight p := by
  classical
  unfold weight
  refine Finset.card_lt_card ⟨fun y hy => ?_, fun hle => ?_⟩
  · rw [Finset.mem_filter] at hy ⊢
    exact ⟨hy.1, hy.2.1, hy.2.2.tail ((h.shaped.mem_order p x).1 hx).2⟩
  · have hp' := hle (Finset.mem_filter.2 ⟨Finset.mem_range.2 (h.allocated.lt_size p hp), hp,
      Relation.ReflTransGen.refl⟩)
    exact h.not_below_child hx (Finset.mem_filter.1 hp').2.2

/-- **The loop frees one node** of its stack together with all that is below it. -/
theorem Ready.release_one (hW : Follows id W) (h : Ready id t kids order p) (hx : x ∈ kids p) :
    ∃ t', W p t [x] t' ∧ Freed [x] t t' kids order := by
  obtain ⟨n, hn⟩ : ∃ n, t.weight x < n := ⟨_, Nat.lt_succ_self _⟩
  induction n generalizing t kids order p x with
  | zero => exact absurd hn (Nat.not_lt_zero _)
  | succ n ih =>
    obtain ⟨t₁, hw, hf⟩ :=
      (h.child hx).release_children hW fun t' kids' order' y hy hs hr hy' => by
        have hlt := h.rep.weight_lt (h.parent_eq hx).1 (h.sub x y hy)
        have hle := hs.weight_le (x := y)
        exact ih hr hy' (by omega)
    exact ⟨_, hW.node h hx hw hf, h.freed_node hx hf⟩

end Follows

/-! ### The rounds -/

/-- The loop comes back to a node once its children are freed. -/
theorem Works.children (h : Ready id t kids order x) (hw : Works id t (kids x).reverse t') :
    ∃ k, k + 2 * t'.live ≤ 2 * t.live + 1 ∧
      ∀ m S, releaseLoop id (k + m) t (x :: S) = releaseLoop id m t' (x :: S) := by
  obtain ⟨k, hk, hrun⟩ := hw
  by_cases hfirst : (t.nodes x).firstChild = none
  · have hempty := h.rep.linked.kids_eq_nil hfirst
    refine ⟨k, by omega, fun m S => ?_⟩
    have := hrun m (x :: S)
    rwa [hempty] at this
  · refine ⟨k + 1, by omega, fun m S => ?_⟩
    rw [Nat.add_right_comm, releaseLoop, if_pos hfirst, h.children_eq x, hrun]

theorem follows_works (id : NodeId) : Follows id fun _ => Works id where
  nil _ _ := ⟨0, by omega, fun m S => by rw [Nat.zero_add, List.nil_append]⟩
  append _ hw _ hw' _ := hw.append hw'
  node {p x t t' kids order} h hx hw hf := by
    obtain ⟨hlive, -, hfirst⟩ := (h.child hx).freed_children (h.parent_eq hx).1 hf
    obtain ⟨k, hk, hrun⟩ := hw.children (h.child hx)
    have hx' : x ∈ prune t' kids p := List.mem_filter.2 ⟨hx, by simpa using hlive⟩
    have hsame := hf.rep.linked.sameEntries_unlink hx' ((h.freed hf).parent_eq hx').2
    have hlive₂ := (t'.unlinkChild x).releaseNode_live x
    rw [hsame.live] at hlive₂
    have hpos := live_pos hf.rep.allocated hlive
    refine ⟨k + 1, by omega, fun m S => ?_⟩
    rw [Nat.add_assoc, List.singleton_append, hrun, Nat.add_comm 1 m, releaseLoop,
      if_neg (by simpa using hfirst)]
    simp only [ne_eq, h.ne_id hx, not_false_eq_true, if_true]
    rfl

/-! ### Subtrees -/

theorem releaseLoop_nil (id : NodeId) (m : ℕ) (t : MetadataTree) : releaseLoop id m t [] = t := by
  cases m <;> rfl

theorem Shaped.live_of_below (h : t.Shaped order) (hx : t.isLive x) (hb : t.Below id x) :
    t.isLive id := by
  induction hb using Relation.ReflTransGen.head_induction_on with
  | refl => exact hx
  | @head a b hab _ ih =>
    have hne : a ≠ root := by
      rintro rfl
      rw [IsParent, h.root_parent] at hab
      cases hab
    obtain ⟨q, hq, hqlive, -⟩ := h.parent_live a hx hne
    obtain rfl : q = b := Option.some.inj (hq.symm.trans hab)
    exact ih hqlive

theorem Allocated.live_le (h : t.Allocated) : t.live ≤ t.size := by
  rw [h.live_eq]
  exact (Finset.card_filter_le _ _).trans (Finset.card_range _).le

/-- The representation invariant, except that `id` has been unlinked from its parent `p`. -/
structure Unlinked (id p : NodeId) (t : MetadataTree) (kids : NodeId → List NodeId) : Prop where
  mem : id ∈ kids p
  rep : t.Rep (Function.update kids p ((kids p).erase id)) kids

theorem Rep.unlinked (h : t.Rep kids kids) (hmem : id ∈ kids p) :
    Unlinked id p (t.unlinkChild id) kids :=
  ⟨hmem, h.unlink hmem ((h.shaped.mem_order p id).1 hmem).2⟩

namespace Unlinked

theorem isLive (h : Unlinked id p t kids) : t.isLive id := ((h.rep.shaped.mem_order p id).1 h.mem).1

theorem parent_eq (h : Unlinked id p t kids) : (t.nodes id).parent = some p :=
  ((h.rep.shaped.mem_order p id).1 h.mem).2

theorem sub (h : Unlinked id p t kids) (q : NodeId) :
    ∀ c ∈ Function.update kids p ((kids p).erase id) q, c ∈ kids q := by
  intro c hc
  by_cases hq : q = p
  · subst hq
    rw [Function.update_self] at hc
    exact List.mem_of_mem_erase hc
  · rwa [Function.update_of_ne hq] at hc

theorem ready (h : Unlinked id p t kids) :
    Ready id t (Function.update kids p ((kids p).erase id)) kids id := by
  refine ⟨h.rep, h.sub, fun q hq => Function.update_of_ne ?_ _ _, fun q _ hq => hq⟩
  rintro rfl
  exact h.rep.not_below_child h.mem hq

theorem kids_eq (h : Unlinked id p t kids) :
    Function.update kids p ((kids p).erase id) id = kids id :=
  h.ready.eq id Relation.ReflTransGen.refl

/-- Once the children of the node are freed and the node itself is, the invariant holds again. -/
theorem freed (h : Unlinked id p t kids) {t₁ : MetadataTree}
    (hf : Freed (kids id) t t₁ (Function.update kids p ((kids p).erase id)) kids) :
    (t₁.releaseNode id).Rep (prune (t₁.releaseNode id) kids) (prune (t₁.releaseNode id) kids) ∧
      Shrinks t (t₁.releaseNode id) ∧
      ∀ y, (t₁.releaseNode id).isLive y ↔ t.isLive y ∧ ¬ t.Below id y := by
  have hf' := hf
  rw [← h.kids_eq] at hf'
  obtain ⟨hlive₁, hleaf, -⟩ := h.ready.freed_children h.isLive hf'
  set t' := t₁.releaseNode id with ht'
  have hshrinks : Shrinks t t' := hf.shrinks.trans (shrinks_releaseNode t₁ id)
  have hlive' : ∀ a, t'.isLive a ↔ t₁.isLive a ∧ a ≠ id := fun a => by rw [ht', releaseNode_isLive]
  have hparent : ∀ q, id ∈ kids q → q = p := fun q hq =>
    Option.some.inj (((h.rep.shaped.mem_order q id).1 hq).2.symm.trans h.parent_eq)
  have hrep : t'.Rep (prune t' kids) (prune t' kids) := by
    have hkids : prune t₁ (Function.update kids p ((kids p).erase id)) = prune t' kids := by
      funext q
      by_cases hq : q = p
      · subst hq
        rw [prune, prune, Function.update_self, (h.rep.indexed.nodup q).erase_eq_filter,
          List.filter_filter]
        exact List.filter_congr fun a _ => by simp [hlive', bne, Bool.beq_eq_decide_eq]
      · rw [prune, prune, Function.update_of_ne hq]
        refine List.filter_congr fun a ha => ?_
        have hne : a ≠ id := by
          rintro rfl
          exact hq (hparent q ha)
        simp [hlive', hne]
    have horder : prune t' kids =
        Function.update (prune t₁ kids) p ((prune t₁ kids p).erase id) := by
      rw [← prune_eq_update t' ((h.rep.indexed.nodup p).filter _), prune_prune]
      · exact shrinks_releaseNode t₁ id
      · exact fun q hq => hparent q (List.mem_filter.1 hq).1
      · intro q a ha
        rw [hlive', and_iff_right (by simpa using (List.mem_filter.1 ha).2)]
    have hmem₁ : id ∈ prune t₁ kids p := List.mem_filter.2 ⟨h.mem, by simpa using hlive₁⟩
    have := hf.rep.releaseNode hmem₁ hleaf (fun q hq => ?_) ?_
    · rwa [← ht', hkids, ← horder] at this
    · rw [hkids] at hq
      exact ((hlive' id).1 (by simpa using (List.mem_filter.1 hq).2)).2 rfl
    · rw [hkids, horder, Function.update_self]
  refine ⟨hrep, hshrinks, fun y => ⟨fun hy => ⟨hshrinks.isLive y hy, fun hb => ?_⟩, fun hy => ?_⟩⟩
  · -- A node that is left has its ancestors.
    exact ((hlive' id).1 (hrep.shaped.live_of_below hy (hshrinks.below_iff.2 hb))).2 rfl
  · rw [hlive']
    refine ⟨?_, ?_⟩
    · by_contra hdead
      obtain ⟨c, hc, hcy⟩ := hf.below y hy.1 hdead
      exact hy.2 (hcy.tail ((h.rep.shaped.mem_order id c).1 hc).2)
    · rintro rfl
      exact hy.2 Relation.ReflTransGen.refl

/-- **Releasing a node that has been unlinked** leaves the nodes that are not at or below it. -/
theorem releaseSubtree_spec (h : Unlinked id p t kids) :
    (t.releaseSubtree id).Rep (prune (t.releaseSubtree id) kids)
        (prune (t.releaseSubtree id) kids) ∧
      Shrinks t (t.releaseSubtree id) ∧
      ∀ y, (t.releaseSubtree id).isLive y ↔ t.isLive y ∧ ¬ t.Below id y := by
  obtain ⟨t₁, hw, hf⟩ := h.ready.release_children (follows_works id)
    fun _ _ _ _ _ _ hr hy => hr.release_one (W := fun _ => Works id) (follows_works id) hy
  obtain ⟨hlive₁, -, hfirst⟩ := h.ready.freed_children h.isLive hf
  obtain ⟨k, hk, hrun⟩ := hw.children h.ready
  rw [h.kids_eq] at hf
  -- The rounds suffice, and the last one frees the node itself.
  have hlive_le := h.rep.allocated.live_le
  have hpos := live_pos hf.rep.allocated hlive₁
  obtain ⟨m, hm⟩ : ∃ m, 2 * t.size = k + (m + 1) := ⟨2 * t.size - k - 1, by omega⟩
  have ht' : t.releaseSubtree id = t₁.releaseNode id := by
    rw [releaseSubtree, hm, hrun, releaseLoop, if_neg (by simpa using hfirst)]
    simp only [ne_eq, not_true_eq_false, if_false, releaseLoop_nil]
    rfl
  rw [ht']
  exact h.freed hf

end Unlinked

/-- **Removing a node** leaves the nodes that are not at or below it, as they were. -/
theorem Rep.releaseSubtree_spec (h : t.Rep kids kids) (hid : t.isLive id) (hne : id ≠ root) :
    let t' := (t.unlinkChild id).releaseSubtree id
    t'.Rep (prune t' kids) (prune t' kids) ∧ Shrinks t t' ∧
      ∀ y, t'.isLive y ↔ t.isLive y ∧ ¬ t.Below id y := by
  obtain ⟨p, hparent, -, -⟩ := h.shaped.parent_live id hid hne
  have hmem : id ∈ kids p := (h.shaped.mem_order p id).2 ⟨hid, hparent⟩
  have hsame := h.linked.sameEntries_unlink hmem hparent
  obtain ⟨hrep, hshrinks, hlive⟩ := (h.unlinked hmem).releaseSubtree_spec
  refine ⟨hrep, hsame.shrinks.trans hshrinks, fun y => ?_⟩
  rw [hlive, hsame.isLive_iff, hsame.shrinks.below_iff]

theorem Rep.eq_of_below_leaf (h : t.Rep kids order) (hleaf : order id = []) (hx : t.isLive x)
    (hb : t.Below id x) : x = id := by
  rcases Relation.ReflTransGen.cases_tail hb with rfl | ⟨c, hxc, hc⟩
  · rfl
  · -- The last step would come from a child.
    have hmem := (h.shaped.mem_order id c).2 ⟨h.shaped.live_of_below hx hxc, hc⟩
    rw [hleaf] at hmem
    cases hmem

/-- `t'` is `t` without the nodes below `id`. -/
structure Cleared (id : NodeId) (t t' : MetadataTree) (kids : NodeId → List NodeId) : Prop where
  rep : t'.Rep (prune t' kids) (prune t' kids)
  shrinks : Shrinks t t'
  leaf : prune t' kids id = []
  isLive : ∀ y, t'.isLive y ↔ t.isLive y ∧ (y = id ∨ ¬ t.Below id y)

theorem Rep.cleared_leaf (h : t.Rep kids kids) (hnil : kids id = []) : Cleared id t t kids := by
  have hprune : prune t kids = kids := prune_eq_self fun q c hc => ((h.shaped.mem_order q c).1 hc).1
  refine ⟨by rwa [hprune], .refl t, by rwa [hprune], fun y => ⟨fun hy => ⟨hy, ?_⟩, fun hy => hy.1⟩⟩
  by_cases hb : t.Below id y
  · exact .inl (h.eq_of_below_leaf hnil hy hb)
  · exact .inr hb

/-- **Releasing the children of a node** leaves the node and the nodes not below it. -/
theorem Rep.releaseChildren_spec {fuel : ℕ} (h : t.Rep kids kids)
    (hfuel : (kids id).length ≤ fuel) : Cleared id t (releaseChildren id fuel t) kids := by
  induction fuel generalizing t kids with
  | zero => exact h.cleared_leaf (List.eq_nil_of_length_eq_zero (by omega))
  | succ fuel ih =>
    have hfirst : (t.nodes id).firstChild = (kids id).head? := h.linked.links.first_eq id
    cases hk : kids id with
    | nil =>
      rw [hk] at hfirst
      rw [releaseChildren, hfirst]
      exact h.cleared_leaf hk
    | cons c cs =>
      rw [hk] at hfirst
      rw [releaseChildren, hfirst]
      have hc : c ∈ kids id := by rw [hk]; exact List.mem_cons_self
      obtain ⟨hlive, hparent⟩ := (h.shaped.mem_order id c).1 hc
      have hne : c ≠ root := by
        rintro rfl
        rw [h.shaped.root_parent] at hparent
        cases hparent
      obtain ⟨hrep, hshrinks, hlive₁⟩ := h.releaseSubtree_spec hlive hne
      show Cleared id t (releaseChildren id fuel ((t.unlinkChild c).releaseSubtree c)) kids
      set t₁ := (t.unlinkChild c).releaseSubtree c
      have hlen : (prune t₁ kids id).length ≤ fuel := by
        have hdead : ¬ t₁.isLive c := fun hl => ((hlive₁ c).1 hl).2 Relation.ReflTransGen.refl
        rw [hk, List.length_cons] at hfuel
        have hcs := List.length_filter_le (fun c => decide (t₁.isLive c)) cs
        rw [prune, hk, List.filter_cons_of_neg (by simpa using hdead)]
        omega
      obtain ⟨hrep', hshrinks', hnil, hlive'⟩ := ih hrep hlen
      rw [prune_prune hshrinks'] at hrep' hnil
      refine ⟨hrep', hshrinks.trans hshrinks', hnil, fun y => ?_⟩
      rw [hlive', hlive₁, hshrinks.below_iff]
      constructor
      · rintro ⟨⟨hy, -⟩, hor⟩
        exact ⟨hy, hor⟩
      · rintro ⟨hy, hor⟩
        refine ⟨⟨hy, fun hcy => ?_⟩, hor⟩
        rcases hor with rfl | hor
        · exact h.not_below_child hc hcy
        · exact hor (hcy.tail hparent)

end MetadataTree

end WslDrive
