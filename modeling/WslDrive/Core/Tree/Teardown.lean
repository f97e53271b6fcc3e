import WslDrive.Core.Tree.Safety

/-!
# Tearing a subtree down, round by round

The loop of `release_subtree` pushes the children of a directory and comes back to it when they are
gone, while the tree is unlinked underneath it.  Here the loop keeps a record of what it has pushed
and popped.

* `Release.releaseLoop_eq` — the record changes nothing;
* `Release.Balanced.iterate` — what has been pushed is on the stack or has been popped, and what has
  been popped is on the free list;
* `follows_tears` — in which order the nodes are popped, and which nodes are left alone;
* `releaseSubtree_exact` — the loop ends, and it has freed the subtree and touched nothing else.
-/

namespace WslDrive

namespace MetadataTree

variable {t t' : MetadataTree} {kids order : NodeId → List NodeId} {p id x : NodeId}

/-! ### The loop with its record -/

/-- The state of the loop of `release_subtree`, and what it has pushed and popped so far. -/
structure Release where
  tree : MetadataTree
  /-- The top comes first. -/
  stack : List NodeId
  pushed : List NodeId
  popped : List NodeId

namespace Release

/-- One round; without a stack the loop has ended. -/
def step (id : NodeId) (s : Release) : Release :=
  match s.stack with
  | [] => s
  | cur :: stack =>
    if (s.tree.nodes cur).firstChild ≠ none then
      { s with
        stack := (s.tree.children cur).reverse ++ cur :: stack
        pushed := s.pushed ++ s.tree.children cur }
    else
      let t := if cur ≠ id then s.tree.unlinkChild cur else s.tree
      { s with tree := t.releaseNode cur, stack := stack, popped := s.popped ++ [cur] }

/-- The loop before its first round. -/
def start (id : NodeId) (t : MetadataTree) : Release :=
  { tree := t, stack := [id], pushed := [id], popped := [] }

variable {s : Release} {S P Q : List NodeId}

theorem step_push (h : (t.nodes x).firstChild ≠ none) :
    step id ⟨t, x :: S, P, Q⟩ =
      ⟨t, (t.children x).reverse ++ x :: S, P ++ t.children x, Q⟩ := by
  rw [step]
  exact if_pos h

theorem step_pop (h : (t.nodes x).firstChild = none) (hne : x ≠ id) :
    step id ⟨t, x :: S, P, Q⟩ = ⟨(t.unlinkChild x).releaseNode x, S, P, Q ++ [x]⟩ := by
  rw [step]
  simp only [h, ne_eq, not_true_eq_false, if_false, hne, not_false_eq_true, if_true]

theorem step_last (h : (t.nodes id).firstChild = none) :
    step id ⟨t, id :: S, P, Q⟩ = ⟨t.releaseNode id, S, P, Q ++ [id]⟩ := by
  rw [step]
  simp only [h, ne_eq, not_true_eq_false, if_false]

theorem iterate_done (n : ℕ) : (step id)^[n] ⟨t, [], P, Q⟩ = ⟨t, [], P, Q⟩ :=
  Function.iterate_fixed rfl n

theorem releaseLoop_eq (id : NodeId) (n : ℕ) (t : MetadataTree) (S P Q : List NodeId) :
    releaseLoop id n t S = ((step id)^[n] ⟨t, S, P, Q⟩).tree := by
  induction n generalizing t S P Q with
  | zero => rfl
  | succ n ih =>
    rw [Function.iterate_succ_apply]
    cases S with
    | nil => exact (congrArg Release.tree (iterate_done n)).symm
    | cons cur S =>
      by_cases hfirst : (t.nodes cur).firstChild = none
      · by_cases hcur : cur = id
        · subst hcur
          rw [step_last hfirst, ← ih, releaseLoop, if_neg (by simpa using hfirst)]
          simp only [ne_eq, not_true_eq_false, if_false]
          rfl
        · rw [step_pop hfirst hcur, ← ih, releaseLoop, if_neg (by simpa using hfirst)]
          simp only [ne_eq, hcur, not_false_eq_true, if_true]
          rfl
      · rw [step_push hfirst, ← ih, releaseLoop, if_pos hfirst]

/-- What has been pushed is on the stack or has been popped, and what has been popped is on the
free list. -/
structure Balanced (t : MetadataTree) (s : Release) : Prop where
  perm : s.pushed.Perm (s.popped ++ s.stack)
  free : s.tree.free = s.popped.reverse ++ t.free

theorem balanced_start (id : NodeId) (t : MetadataTree) : Balanced t (start id t) :=
  ⟨List.Perm.refl _, rfl⟩

theorem free_releaseNode (t : MetadataTree) (c : NodeId) :
    (t.releaseNode c).free = c :: t.free := by
  simp [releaseNode, modify, (sameEntries_unindexNode t c).free]

theorem Balanced.step (h : Balanced t s) (id : NodeId) : Balanced t (s.step id) := by
  obtain ⟨tree, stack, pushed, popped⟩ := s
  obtain ⟨hperm, hfree⟩ := h
  dsimp only at hperm hfree
  cases stack with
  | nil => exact ⟨hperm, hfree⟩
  | cons cur stack =>
    by_cases hfirst : (tree.nodes cur).firstChild = none
    · have hpop : ∀ u : MetadataTree, u.free = tree.free →
          Balanced t ⟨u.releaseNode cur, stack, pushed, popped ++ [cur]⟩ := by
        intro u hu
        refine ⟨?_, ?_⟩
        · simpa using hperm
        · rw [free_releaseNode, hu, hfree]
          simp
      by_cases hcur : cur = id
      · subst hcur
        rw [step_last hfirst]
        exact hpop tree rfl
      · rw [step_pop hfirst hcur]
        exact hpop _ (by rw [unlinkChild_eq])
    · rw [step_push hfirst]
      refine ⟨?_, hfree⟩
      refine (hperm.append_right _).trans ?_
      rw [List.append_assoc]
      refine List.Perm.append_left popped (List.perm_append_comm.trans ?_)
      exact (List.reverse_perm _).symm.append_right _

theorem Balanced.iterate (h : Balanced t s) (id : NodeId) (n : ℕ) :
    Balanced t ((Release.step id)^[n] s) := by
  induction n generalizing s with
  | zero => exact h
  | succ n ih => exact ih (h.step id)

end Release

/-! ### The order of the pops -/

/-- The loop works off the entries `xs`, children of `p`, in `k` rounds; it pushes `ps` and pops
`qs`. -/
structure Torn (id p : NodeId) (t : MetadataTree) (xs : List NodeId) (t' : MetadataTree) (k : ℕ)
    (ps qs : List NodeId) : Prop where
  rounds : k + 2 * t'.live ≤ 2 * t.live
  run : ∀ S P Q, (Release.step id)^[k] ⟨t, xs ++ S, P, Q⟩ = ⟨t', S, P ++ ps, Q ++ qs⟩
  /-- No node is popped after its parent. -/
  order : qs.Pairwise fun a b => ¬ t.IsParent b a
  freed : ∀ y ∈ qs, t.isLive y ∧ ¬ t'.isLive y
  frame : ∀ y, ¬ (t.isLive y ∧ t.Below p y) → t'.nodes y = t.nodes y

/-- The loop works off the entries `xs`, children of `p`. -/
def Tears (id p : NodeId) (t : MetadataTree) (xs : List NodeId) (t' : MetadataTree) : Prop :=
  ∃ k ps qs, Torn id p t xs t' k ps qs

theorem Shrinks.isParent_eq (h : Shrinks t t') : t'.IsParent = t.IsParent := by
  funext a b
  rw [IsParent, IsParent, h.parent]

theorem Shaped.live_of_isParent (h : t.Shaped order) {a b : NodeId} (hb : t.isLive b)
    (hab : t.IsParent b a) : t.isLive a :=
  h.live_of_below hb (Relation.ReflTransGen.single hab)

theorem Torn.append {t'' : MetadataTree} {xs ys ps qs ps' qs' : List NodeId} {k k' : ℕ}
    (h : Torn id p t xs t' k ps qs) (hf : Freed xs t t' kids order)
    (h' : Torn id p t' ys t'' k' ps' qs') (hs : Shrinks t' t'') :
    Torn id p t (xs ++ ys) t'' (k' + k) (ps ++ ps') (qs ++ qs') where
  rounds := by
    have := h.rounds
    have := h'.rounds
    omega
  run S P Q := by
    rw [Function.iterate_add_apply, List.append_assoc, h.run, h'.run, List.append_assoc,
      List.append_assoc]
  order := by
    have horder' := h'.order
    rw [hf.shrinks.isParent_eq] at horder'
    refine List.pairwise_append.2 ⟨h.order, horder', fun a ha b hb hab => ?_⟩
    -- the later one is live when the earlier one is freed, and so is its parent
    rw [← hf.shrinks.isParent_eq] at hab
    exact (h.freed a ha).2 (hf.rep.shaped.live_of_isParent (h'.freed b hb).1 hab)
  freed y hy := by
    rcases List.mem_append.1 hy with hy | hy
    · exact ⟨(h.freed y hy).1, fun hl => (h.freed y hy).2 (hs.isLive y hl)⟩
    · exact ⟨hf.shrinks.isLive y (h'.freed y hy).1, (h'.freed y hy).2⟩
  frame y hy := by
    rw [h'.frame y, h.frame y hy]
    exact fun hy' => hy ⟨hf.shrinks.isLive y hy'.1, hf.shrinks.below_iff.1 hy'.2⟩

/-- The loop pushes the children of a node and comes back to it once they are freed. -/
theorem Torn.children {k : ℕ} {ps qs : List NodeId} (h : Ready id t kids order x)
    (hw : Torn id x t (kids x).reverse t' k ps qs) :
    ∃ k' ps', k' + 2 * t'.live ≤ 2 * t.live + 1 ∧
      ∀ S P Q, (Release.step id)^[k'] ⟨t, x :: S, P, Q⟩ = ⟨t', x :: S, P ++ ps', Q ++ qs⟩ := by
  have hk := hw.rounds
  by_cases hfirst : (t.nodes x).firstChild = none
  · have hempty := h.rep.linked.kids_eq_nil hfirst
    refine ⟨k, ps, by omega, fun S P Q => ?_⟩
    have := hw.run (x :: S) P Q
    rwa [hempty] at this
  · refine ⟨k + 1, t.children x ++ ps, by omega, fun S P Q => ?_⟩
    rw [Function.iterate_succ_apply, Release.step_push hfirst, h.children_eq x, hw.run,
      List.append_assoc]

theorem Torn.order_concat {k : ℕ} {ps qs xs ys : List NodeId} (hw : Torn id p t xs t' k ps qs)
    (hf : Freed ys t t' kids order) (hx : t'.isLive x) :
    (qs ++ [x]).Pairwise fun a b => ¬ t.IsParent b a := by
  refine List.pairwise_append.2 ⟨hw.order, List.pairwise_singleton _ _, fun a ha b hb hab => ?_⟩
  -- the parent of the node is still there
  rw [List.mem_singleton.1 hb, ← hf.shrinks.isParent_eq] at hab
  exact (hw.freed a ha).2 (hf.rep.shaped.live_of_isParent hx hab)

theorem Linked.unlinkChild_frame (h : t.Linked kids) (hx : x ∈ kids p)
    (hp : (t.nodes x).parent = some p) {y : NodeId} (hyp : y ≠ p) (hy : y ∉ kids p) :
    (t.unlinkChild x).nodes y = t.nodes y := by
  obtain ⟨l, r, hk⟩ := List.append_of_mem hx
  obtain ⟨hprev, hnext⟩ := h.neighbour_ne hx
  have hprev_eq := h.links.prev_eq p l x r hk
  have hnext_eq := h.links.next_eq p l x r hk
  have hyx : y ≠ x := by
    rintro rfl
    exact hy hx
  have hyprev : (t.nodes x).prevSibling ≠ some y := fun hs =>
    hy (hk ▸ List.mem_append_left _ (List.mem_of_getLast? (hprev_eq ▸ hs)))
  have hynext : (t.nodes x).nextSibling ≠ some y := fun hs =>
    hy (hk ▸ List.mem_append_right _ (List.mem_cons_of_mem _ (List.mem_of_head? (hnext_eq ▸ hs))))
  rw [unlinkChild_nodes hp hprev hnext]
  simp [hyp, hyx, hyprev, hynext]

theorem Torn.node {k : ℕ} {ps qs : List NodeId} (h : Ready id t kids order p) (hx : x ∈ kids p)
    (hw : Torn id x t (kids x).reverse t' k ps qs) (hf : Freed (kids x) t t' kids order) :
    Tears id p t [x] ((t'.unlinkChild x).releaseNode x) := by
  obtain ⟨hlive, hparent⟩ := h.parent_eq hx
  obtain ⟨hlive', -, hfirst⟩ := (h.child hx).freed_children hlive hf
  obtain ⟨k', ps', hk, hrun⟩ := hw.children (h.child hx)
  have hready := h.freed hf
  have hx' : x ∈ prune t' kids p := List.mem_filter.2 ⟨hx, by simpa using hlive'⟩
  have hparent' := (hready.parent_eq hx').2
  have hsame := hf.rep.linked.sameEntries_unlink hx' hparent'
  have hlive₂ := (t'.unlinkChild x).releaseNode_live x
  rw [hsame.live] at hlive₂
  have hpos := live_pos hf.rep.allocated hlive'
  have hp : t.isLive p := h.rep.shaped.live_of_isParent hlive hparent
  refine ⟨k' + 1, ps', qs ++ [x], by omega, fun S P Q => ?_, ?_, ?_, ?_⟩
  · rw [Function.iterate_succ_apply', List.singleton_append, hrun,
      Release.step_pop hfirst (h.ne_id hx), List.append_assoc]
  · exact hw.order_concat hf hlive'
  · intro y hy
    rw [releaseNode_isLive, hsame.isLive_iff]
    rcases List.mem_append.1 hy with hy | hy
    · exact ⟨(hw.freed y hy).1, fun hl => (hw.freed y hy).2 hl.1⟩
    · rw [List.mem_singleton.1 hy]
      exact ⟨hlive, fun hl => hl.2 rfl⟩
  · intro y hy
    have hyp : y ≠ p := by
      rintro rfl
      exact hy ⟨hp, Relation.ReflTransGen.refl⟩
    have hykids : y ∉ prune t' kids p := fun hmem => by
      have := h.parent_eq (List.mem_filter.1 hmem).1
      exact hy ⟨this.1, Relation.ReflTransGen.single this.2⟩
    have hyx : y ≠ x := fun hyx => hykids (hyx ▸ hx')
    have hframe := hw.frame y fun hb => hy ⟨hb.1, hb.2.tail hparent⟩
    rw [releaseNode_nodes, if_neg hyx, hf.rep.linked.unlinkChild_frame hx' hparent' hyp hykids,
      hframe]

theorem follows_tears (id : NodeId) : Follows id (Tears id) where
  nil p t := ⟨0, [], [], by omega, fun S P Q => by simp, .nil, by simp, fun _ _ => rfl⟩
  append _ hw hf hw' hf' := by
    obtain ⟨k, ps, qs, h⟩ := hw
    obtain ⟨k', ps', qs', h'⟩ := hw'
    exact ⟨_, _, _, h.append hf h' hf'.shrinks⟩
  node h hx hw hf := by
    obtain ⟨k, ps, qs, hw⟩ := hw
    exact hw.node h hx hf

/-! ### The subtree -/

/-- **The loop ends** after at most two rounds for each slot, and frees the unlinked node last. -/
theorem Unlinked.exists_done (h : Unlinked id p t kids) :
    ∃ n ≤ 2 * t.size, ∃ ps qs,
      (Release.step id)^[n] (Release.start id t) = ⟨t.releaseSubtree id, [], ps, qs⟩ ∧
      qs.Pairwise (fun a b => ¬ t.IsParent b a) ∧
      ∀ y, ¬ (t.isLive y ∧ t.Below id y) → (t.releaseSubtree id).nodes y = t.nodes y := by
  obtain ⟨t₁, ⟨k, ps, qs, hw⟩, hf⟩ := h.ready.release_children (follows_tears id)
    fun _ _ _ _ _ _ hr hy => hr.release_one (follows_tears id) hy
  obtain ⟨hlive₁, -, hfirst⟩ := h.ready.freed_children h.isLive hf
  obtain ⟨k', ps', hk, hrun⟩ := hw.children h.ready
  have hlive_le := h.rep.allocated.live_le
  have hpos := live_pos hf.rep.allocated hlive₁
  have hdone : (Release.step id)^[k' + 1] (Release.start id t) =
      ⟨t₁.releaseNode id, [], [id] ++ ps', [] ++ qs ++ [id]⟩ := by
    rw [Function.iterate_succ_apply', Release.start, hrun, Release.step_last hfirst]
  have hle : k' + 1 ≤ 2 * t.size := by omega
  have htree : t.releaseSubtree id = t₁.releaseNode id := by
    obtain ⟨m, hm⟩ := Nat.exists_eq_add_of_le hle
    rw [releaseSubtree, Release.releaseLoop_eq id _ t [id] [id] [], hm, Nat.add_comm,
      Function.iterate_add_apply]
    change ((Release.step id)^[m] ((Release.step id)^[k' + 1] (Release.start id t))).tree = _
    rw [hdone, Release.iterate_done]
  refine ⟨k' + 1, hle, [id] ++ ps', [] ++ qs ++ [id], by rw [hdone, htree], ?_, fun y hy => ?_⟩
  · rw [List.nil_append]
    exact hw.order_concat hf hlive₁
  · have hyid : y ≠ id := by
      rintro rfl
      exact hy ⟨h.isLive, Relation.ReflTransGen.refl⟩
    rw [htree, releaseNode_nodes, if_neg hyid, hw.frame y hy]

theorem Allocated.live_add_free (h : t.Allocated) : t.live + t.free.length = t.size := by
  have hfree : t.free.toFinset = (Finset.range t.size).filter fun i => ¬ t.isLive i := by
    ext i
    rw [List.mem_toFinset, h.mem_free, Finset.mem_filter, Finset.mem_range]
  rw [h.live_eq, ← List.toFinset_card_of_nodup h.free_nodup, hfree,
    Finset.card_filter_add_card_filter_not, Finset.card_range]

theorem Shaped.root_dir (h : t.Shaped order) (hx : t.isLive x) (hne : x ≠ root) :
    (t.nodes root).isDir = true := by
  rcases Relation.ReflTransGen.cases_tail (h.to_root x hx) with heq | ⟨c, hxc, hc⟩
  · exact absurd heq.symm hne
  · have hcroot : c ≠ root := by
      rintro rfl
      rw [IsParent, h.root_parent] at hc
      cases hc
    obtain ⟨q, hq, -, hdir⟩ := h.parent_live c (h.live_of_below hx hxc) hcroot
    obtain rfl : q = root := Option.some.inj (hq.symm.trans hc)
    exact hdir

theorem Shaped.root_not_below (h : t.Shaped order) (hne : id ≠ root) : ¬ t.Below id root := by
  intro hb
  rcases Relation.ReflTransGen.cases_head hb with heq | ⟨c, hc, -⟩
  · exact hne heq.symm
  · rw [IsParent, h.root_parent] at hc
    cases hc

/-- **`release_subtree` frees exactly the subtree.**  From a tree that keeps its invariant except
that `id` has been unlinked, the loop ends; it has pushed and popped every node of the subtree once,
none after its parent, and freed these nodes and no others; the invariant holds again. -/
theorem releaseSubtree_exact (id p : NodeId) (t : MetadataTree) (kids : NodeId → List NodeId)
    (h : Unlinked id p t kids) :
    ∃ n ≤ 2 * t.size, ∃ s, (Release.step id)^[n] (Release.start id t) = s ∧
      s.stack = [] ∧ s.tree = t.releaseSubtree id ∧
      s.pushed.Nodup ∧ s.popped.Nodup ∧
      (∀ x, x ∈ s.pushed ↔ t.isLive x ∧ t.Below id x) ∧
      (∀ x, x ∈ s.popped ↔ t.isLive x ∧ t.Below id x) ∧
      s.popped.Pairwise (fun a b => (t.nodes b).parent ≠ some a) ∧
      s.tree.free = s.popped.reverse ++ t.free ∧ s.tree.free.Nodup ∧
      s.tree.live + s.popped.length = t.live ∧
      s.tree.Invariant ∧
      ∀ x, ¬ (t.isLive x ∧ t.Below id x) → s.tree.nodes x = t.nodes x := by
  obtain ⟨n, hn, ps, qs, hdone, horder, hframe⟩ := h.exists_done
  obtain ⟨hrep, hshrinks, hlive⟩ := h.releaseSubtree_spec
  have hbal := (Release.balanced_start id t).iterate id n
  rw [hdone] at hbal
  have hperm : ps.Perm qs := by simpa using hbal.perm
  have hfree : (t.releaseSubtree id).free = qs.reverse ++ t.free := hbal.free
  have hnodup : (qs.reverse ++ t.free).Nodup := hfree ▸ hrep.allocated.free_nodup
  have hqs : qs.Nodup := List.nodup_reverse.1 (List.nodup_append.1 hnodup).1
  -- the slots that are free now and were not before
  have hmem : ∀ x, x ∈ qs ↔ t.isLive x ∧ t.Below id x := by
    intro x
    have hnew := hrep.allocated.mem_free x
    rw [hfree, List.mem_append, List.mem_reverse, h.rep.allocated.mem_free, hshrinks.size,
      hlive] at hnew
    have hlt := h.rep.allocated.lt_size x
    have hdisj : x ∈ qs → ¬ (x < t.size ∧ ¬ t.isLive x) := fun hx hold =>
      (List.nodup_append.1 hnodup).2.2 x (List.mem_reverse.2 hx) x
        ((h.rep.allocated.mem_free x).2 hold) rfl
    tauto
  have hid : id ≠ root := by
    rintro rfl
    have := h.parent_eq
    rw [h.rep.shaped.root_parent] at this
    cases this
  refine ⟨n, hn, _, hdone, rfl, rfl, hperm.nodup_iff.2 hqs, hqs, fun x => ?_, hmem, horder, hfree,
    hfree ▸ hnodup, ?_, hrep.invariant ?_, hframe⟩
  · rw [hperm.mem_iff, hmem]
  · have hbefore := h.rep.allocated.live_add_free
    have hafter := hrep.allocated.live_add_free
    rw [hfree, hshrinks.size, List.length_append, List.length_reverse] at hafter
    dsimp only
    omega
  · rw [hframe root fun hb => h.rep.shaped.root_not_below hid hb.2]
    exact h.rep.shaped.root_dir h.isLive hid

/-- The directory `x` with the file `x/y`, when `remove` has unlinked it. -/
theorem releaseSubtree_exact_directory :
    ∃ kids, Unlinked 1 root ((run [.upsertPath [0x78, 0x2F, 0x79] {}]).unlinkChild 1) kids ∧
      ∃ n s, (Release.step 1)^[n]
          (Release.start 1 ((run [.upsertPath [0x78, 0x2F, 0x79] {}]).unlinkChild 1)) = s ∧
        s.stack = [] ∧ s.tree.Invariant := by
  obtain ⟨kids, hrep⟩ := wf_run [.upsertPath [0x78, 0x2F, 0x79] {}]
  have hmem : 1 ∈ kids root := (hrep.shaped.mem_order root 1).2 ⟨by decide, by decide⟩
  obtain ⟨n, -, s, hrun, hstack, -, -, -, -, -, -, -, -, -, hinv, -⟩ :=
    releaseSubtree_exact 1 root _ kids (hrep.unlinked hmem)
  exact ⟨kids, hrep.unlinked hmem, n, s, hrun, hstack, hinv⟩

end MetadataTree

end WslDrive
