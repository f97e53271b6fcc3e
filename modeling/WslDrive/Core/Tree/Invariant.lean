import Mathlib.Logic.Relation
import WslDrive.Core.MetadataTree
import WslDrive.Lib.Shadow

/-!
# The representation invariant of the metadata tree

The invariant has five parts, each about some of the fields, relative to the lists of children.
While a node is taken out, it is out of the sibling list before it is out of the indexes, so the
children as linked (`kids`) and as indexed (`order`) are two parameters; between operations they
agree.

* `Linked` — the sibling lists are `kids`;
* `Indexed` — the two indexes and the number of collisions are those of `order`;
* `Allocated` — the free slots and the number of live nodes;
* `Named` — the names of live nodes are interned, valid and folded;
* `Shaped` — the live nodes form a tree of directories below the root.
-/

namespace WslDrive

namespace MetadataTree

open Siblings Shadow Unicode Path

variable {t : MetadataTree} {kids order : NodeId → List NodeId} {p c id x : NodeId}

/-! ### What linking and unlinking assign -/

theorem linkChild_nodes (hc : (t.nodes p).lastChild ≠ some c) (x : NodeId) :
    (t.linkChild p c).nodes x =
      { t.nodes x with
        parent := if x = c then some p else (t.nodes x).parent
        firstChild := if x = p ∧ (t.nodes p).lastChild = none then some c
          else (t.nodes x).firstChild
        lastChild := if x = p then some c else (t.nodes x).lastChild
        nextSibling := if x = c then none
          else if (t.nodes p).lastChild = some x then some c else (t.nodes x).nextSibling
        prevSibling := if x = c then (t.nodes p).lastChild else (t.nodes x).prevSibling
        childCount := if x = p then (t.nodes x).childCount + 1 else (t.nodes x).childCount } := by
  have hl : ((t.modify c fun n => { n with
      parent := some p, nextSibling := none, prevSibling := (t.nodes p).lastChild }).nodes
        p).lastChild = (t.nodes p).lastChild := by
    by_cases hpc : p = c
    · subst hpc
      simp [modify]
    · simp [modify, hpc]
  unfold linkChild
  simp only [hl]
  cases hlast : (t.nodes p).lastChild with
  | none =>
    by_cases h1 : x = c <;> by_cases h2 : x = p <;> simp_all [modify, Function.update_apply]
  | some l =>
    rw [hlast] at hc
    have hlc : l ≠ c := fun h => hc (by rw [h])
    clear hl
    by_cases h3 : l = x
    · subst h3
      by_cases h2 : l = p <;> simp_all [modify, Function.update_apply]
    · have h3' : x ≠ l := fun h => h3 h.symm
      by_cases h1 : x = c <;> by_cases h2 : x = p <;> simp_all [modify, Function.update_apply]

theorem unlinkChild_nodes (hp : (t.nodes c).parent = some p)
    (hprev : (t.nodes c).prevSibling ≠ some c) (hnext : (t.nodes c).nextSibling ≠ some c)
    (x : NodeId) :
    (t.unlinkChild c).nodes x =
      { t.nodes x with
        firstChild := if x = p ∧ (t.nodes c).prevSibling = none then (t.nodes c).nextSibling
          else (t.nodes x).firstChild
        lastChild := if x = p ∧ (t.nodes c).nextSibling = none then (t.nodes c).prevSibling
          else (t.nodes x).lastChild
        nextSibling := if x = c then none
          else if (t.nodes c).prevSibling = some x then (t.nodes c).nextSibling
          else (t.nodes x).nextSibling
        prevSibling := if x = c then none
          else if (t.nodes c).nextSibling = some x then (t.nodes c).prevSibling
          else (t.nodes x).prevSibling
        childCount := if x = p then (t.nodes x).childCount - 1
          else (t.nodes x).childCount } := by
  unfold unlinkChild
  simp only [hp]
  cases h1 : (t.nodes c).prevSibling with
  | none =>
    cases h2 : (t.nodes c).nextSibling with
    | none =>
      by_cases hxc : x = c <;> by_cases hxp : x = p <;> simp_all [modify, Function.update_apply]
    | some n =>
      by_cases hn : n = x
      · subst hn
        by_cases hxp : n = p <;> simp_all [modify, Function.update_apply]
      · have hn' : x ≠ n := fun h => hn h.symm
        by_cases hxc : x = c <;> by_cases hxp : x = p <;> simp_all [modify, Function.update_apply]
  | some l =>
    cases h2 : (t.nodes c).nextSibling with
    | none =>
      by_cases hl : l = x
      · subst hl
        by_cases hxp : l = p <;> simp_all [modify, Function.update_apply]
      · have hl' : x ≠ l := fun h => hl h.symm
        by_cases hxc : x = c <;> by_cases hxp : x = p <;> simp_all [modify, Function.update_apply]
    | some n =>
      by_cases hn : n = x <;> by_cases hl : l = x
      · subst hn hl
        by_cases hxp : l = p <;> simp_all [modify, Function.update_apply]
      · subst hn
        have hl' : n ≠ l := fun h => hl h.symm
        by_cases hxp : n = p <;> simp_all [modify, Function.update_apply]
      · subst hl
        have hn' : l ≠ n := fun h => hn h.symm
        by_cases hxp : l = p <;> simp_all [modify, Function.update_apply]
      · have hl' : x ≠ l := fun h => hl h.symm
        have hn' : x ≠ n := fun h => hn h.symm
        by_cases hxc : x = c <;> by_cases hxp : x = p <;> simp_all [modify, Function.update_apply]

theorem linkChild_eq (t : MetadataTree) (p c : NodeId) :
    t.linkChild p c = { t with nodes := (t.linkChild p c).nodes } := by
  unfold linkChild
  dsimp only
  split <;> rfl

theorem unlinkChild_eq (t : MetadataTree) (c : NodeId) :
    t.unlinkChild c = { t with nodes := (t.unlinkChild c).nodes } := by
  unfold unlinkChild
  dsimp only
  split
  · rfl
  · split <;> split <;> rfl

/-! ### The parts of the invariant -/

/-- The slot holds a node. -/
def isLive (t : MetadataTree) (id : NodeId) : Prop := (t.nodes id).name.isSome = true

instance (t : MetadataTree) (id : NodeId) : Decidable (t.isLive id) :=
  inferInstanceAs (Decidable (_ = true))

/-- The sibling lists are `kids`, and every node counts its children. -/
structure Linked (t : MetadataTree) (kids : NodeId → List NodeId) : Prop where
  links : Links (fun x => (t.nodes x).firstChild) (fun x => (t.nodes x).lastChild)
    (fun x => (t.nodes x).nextSibling) (fun x => (t.nodes x).prevSibling) kids
  count : ∀ p, (t.nodes p).childCount = (kids p).length

/-- The indexes hold the nodes of `order`. -/
structure Indexed (t : MetadataTree) (order : NodeId → List NodeId) : Prop where
  nodup : ∀ p, (order p).Nodup
  named : ∀ p, ∀ c ∈ order p, (t.nodes c).name.isSome ∧ (t.nodes c).foldedName.isSome
  exact_eq : ∀ p n c, t.exact (p, n) = some c ↔ c ∈ order p ∧ (t.nodes c).name = some n
  folded_eq : ∀ p f, t.folded (p, f) = owner (fun c => (t.nodes c).foldedName) (order p) (some f)
  collisions_eq : t.collisions =
    ∑ p ∈ Finset.range t.size, shadows (fun c => (t.nodes c).foldedName) (order p)

/-- The free list holds the dead slots, and the live ones are counted. -/
structure Allocated (t : MetadataTree) : Prop where
  free_nodup : t.free.Nodup
  mem_free : ∀ i, i ∈ t.free ↔ i < t.size ∧ ¬ t.isLive i
  lt_size : ∀ i, t.isLive i → i < t.size
  live_eq : t.live = ((Finset.range t.size).filter fun i => t.isLive i).card

/-- Names are interned, and folded names are the foldings of the names. -/
structure Named (t : MetadataTree) : Prop where
  name_lt : ∀ i n, (t.nodes i).name = some n → n < t.names.size
  folded : ∀ i n, (t.nodes i).name = some n → ∃ f, (t.nodes i).foldedName = some f ∧
    f < t.names.size ∧ t.names.view f = casefold (t.names.view n)
  valid : ∀ i n, (t.nodes i).name = some n → i ≠ root → validName (t.names.view n) = true

/-- One step from a node to its parent. -/
def IsParent (t : MetadataTree) (c p : NodeId) : Prop := (t.nodes c).parent = some p

/-- The live nodes form a tree, with `order` as the children of each. -/
structure Shaped (t : MetadataTree) (order : NodeId → List NodeId) : Prop where
  root_live : t.isLive root
  root_parent : (t.nodes root).parent = none
  mem_order : ∀ p c, c ∈ order p ↔ t.isLive c ∧ (t.nodes c).parent = some p
  parent_live : ∀ c, t.isLive c → c ≠ root →
    ∃ p, (t.nodes c).parent = some p ∧ t.isLive p ∧ (t.nodes p).isDir = true
  to_root : ∀ c, t.isLive c → Relation.ReflTransGen t.IsParent c root

/-- The representation invariant, with the children as linked and as indexed. -/
structure Rep (t : MetadataTree) (kids order : NodeId → List NodeId) : Prop where
  linked : t.Linked kids
  indexed : t.Indexed order
  allocated : t.Allocated
  named : t.Named
  shaped : t.Shaped order

/-- The representation invariant. -/
def WF (t : MetadataTree) : Prop := ∃ kids, t.Rep kids kids

/-! ### Links -/

theorem Linked.congr {t' : MetadataTree} (h : t.Linked kids)
    (hn : ∀ x, (t'.nodes x).firstChild = (t.nodes x).firstChild ∧
      (t'.nodes x).lastChild = (t.nodes x).lastChild ∧
      (t'.nodes x).nextSibling = (t.nodes x).nextSibling ∧
      (t'.nodes x).prevSibling = (t.nodes x).prevSibling ∧
      (t'.nodes x).childCount = (t.nodes x).childCount) : t'.Linked kids where
  links := by simpa only [hn] using h.links
  count p := by rw [(hn p).2.2.2.2, h.count]

theorem Linked.kids_eq_nil (h : t.Linked kids) (hfirst : (t.nodes p).firstChild = none) :
    kids p = [] := by
  rw [← List.head?_eq_none_iff, ← h.links.first_eq p]
  exact hfirst

theorem Linked.link (h : t.Linked kids) (hc : ∀ q, c ∉ kids q) :
    (t.linkChild p c).Linked (Function.update kids p (kids p ++ [c])) := by
  have hl : (t.nodes p).lastChild ≠ some c := fun hl => hc p (h.links.mem_of_last hl)
  have hnodes := linkChild_nodes hl
  refine ⟨h.links.append hc ?_ ?_ ?_ ?_, fun q => ?_⟩
  · intro q; simp only [hnodes]
  · intro q; simp only [hnodes]
  · intro x; simp only [hnodes]
  · intro x; simp only [hnodes]
  · simp only [hnodes]
    by_cases hq : q = p
    · subst hq
      simp [h.count]
    · simp [hq, h.count]

theorem Linked.neighbour_ne (h : t.Linked kids) (hc : c ∈ kids p) :
    (t.nodes c).prevSibling ≠ some c ∧ (t.nodes c).nextSibling ≠ some c := by
  obtain ⟨l, r, hk⟩ := List.append_of_mem hc
  have hn := h.links.nodup p
  rw [hk, List.nodup_append, List.nodup_cons] at hn
  have hprev := h.links.prev_eq p l c r hk
  have hnext := h.links.next_eq p l c r hk
  refine ⟨fun hp => ?_, fun hp => ?_⟩
  · exact hn.2.2 c (List.mem_of_getLast? (hprev ▸ hp)) c List.mem_cons_self rfl
  · exact hn.2.1.1 (List.mem_of_head? (hnext ▸ hp))

theorem Linked.unlink (h : t.Linked kids) (hc : c ∈ kids p) (hp : (t.nodes c).parent = some p) :
    (t.unlinkChild c).Linked (Function.update kids p ((kids p).erase c)) := by
  obtain ⟨hprev, hnext⟩ := h.neighbour_ne hc
  have hnodes := unlinkChild_nodes hp hprev hnext
  refine ⟨h.links.erase hc ?_ ?_ ?_ ?_, fun q => ?_⟩
  · intro q; simp only [hnodes]
  · intro q; simp only [hnodes]
  · intro x; simp only [hnodes]
  · intro x; simp only [hnodes]
  · simp only [hnodes]
    by_cases hq : q = p
    · subst hq
      simp [h.count, List.length_erase_of_mem hc]
    · simp [hq, h.count]

theorem Linked.children_eq (h : t.Linked kids) (hlt : ∀ c ∈ kids p, c < t.size) :
    t.children p = kids p := by
  refine h.links.follow_first p ?_
  have hsub : (kids p).Subperm (List.range t.size) :=
    (h.links.nodup p).subperm fun c hc => List.mem_range.2 (hlt c hc)
  simpa using hsub.length_le

/-! ### Indexes -/

theorem Indexed.congr {t' : MetadataTree} (h : t.Indexed order) (hexact : t'.exact = t.exact)
    (hfolded : t'.folded = t.folded) (hcoll : t'.collisions = t.collisions)
    (hsize : t'.size = t.size)
    (hn : ∀ p, ∀ c ∈ order p, (t'.nodes c).name = (t.nodes c).name ∧
      (t'.nodes c).foldedName = (t.nodes c).foldedName) : t'.Indexed order where
  nodup := h.nodup
  named p c hc := by
    rw [(hn p c hc).1, (hn p c hc).2]
    exact h.named p c hc
  exact_eq p n c := by
    rw [hexact, h.exact_eq]
    exact and_congr_right fun hc => by rw [(hn p c hc).1]
  folded_eq p f := by
    rw [hfolded, h.folded_eq]
    exact (owner_congr (fun c hc => (hn p c hc).2) _).symm
  collisions_eq := by
    rw [hcoll, h.collisions_eq, hsize]
    exact Finset.sum_congr rfl fun p _ => (shadows_congr fun c hc => (hn p c hc).2).symm

theorem Indexed.grow (h : t.Indexed order) {n : ℕ} (hn : t.size ≤ n)
    (hnil : ∀ p, t.size ≤ p → order p = []) : { t with size := n }.Indexed order where
  nodup := h.nodup
  named := h.named
  exact_eq := h.exact_eq
  folded_eq := h.folded_eq
  collisions_eq := by
    rw [h.collisions_eq]
    refine Finset.sum_subset (Finset.range_mono hn) fun p _ hp => ?_
    rw [hnil p (by simpa using hp)]
    rfl

theorem indexNode_nodes (t : MetadataTree) (c : NodeId) : (t.indexNode c).nodes = t.nodes := by
  unfold indexNode
  split
  · dsimp only
    split <;> rfl
  · rfl

theorem Indexed.index {n f : NameId} (h : t.Indexed order) (hnew : c ∉ order p)
    (hp : (t.nodes c).parent = some p) (hn : (t.nodes c).name = some n)
    (hf : (t.nodes c).foldedName = some f) (hfree : t.exact (p, n) = none) (hlt : p < t.size) :
    (t.indexNode c).Indexed (Function.update order p (order p ++ [c])) := by
  have hmem : ∀ {q x}, x ∈ Function.update order p (order p ++ [c]) q ↔
      x ∈ order q ∨ (q = p ∧ x = c) := by
    intro q x
    by_cases hq : q = p
    · subst hq
      simp
    · simp [hq]
  have hexact : ∀ q m x, Function.update t.exact (p, n) (some c) (q, m) = some x ↔
      x ∈ Function.update order p (order p ++ [c]) q ∧ (t.nodes x).name = some m := by
    intro q m x
    rw [hmem]
    by_cases hqm : (q, m) = (p, n)
    · obtain ⟨rfl, rfl⟩ := Prod.mk.inj hqm
      rw [Function.update_self]
      constructor
      · rintro ⟨⟩
        exact ⟨.inr ⟨rfl, rfl⟩, hn⟩
      · rintro ⟨hx | ⟨-, rfl⟩, hxn⟩
        · -- Another child with the name would be in the index.
          have := (h.exact_eq q m x).2 ⟨hx, hxn⟩
          rw [hfree] at this
          cases this
        · rfl
    · rw [Function.update_of_ne hqm, h.exact_eq]
      constructor
      · rintro ⟨hx, hxn⟩
        exact ⟨.inl hx, hxn⟩
      · rintro ⟨hx | ⟨rfl, rfl⟩, hxn⟩
        · exact ⟨hx, hxn⟩
        · exact absurd (by rw [Option.some.inj (hn.symm.trans hxn)]) hqm
  have hown : ∀ q k, owner (fun x => (t.nodes x).foldedName)
      (Function.update order p (order p ++ [c]) q) (some k) =
        if (t.folded (q, k)).isSome then t.folded (q, k)
        else if q = p ∧ k = f then some c else none := by
    intro q k
    rw [h.folded_eq]
    by_cases hq : q = p
    · subst hq
      rw [Function.update_self, owner_append_singleton, hf]
      by_cases hk : k = f
      · simp [hk]
      · simp [hk, Ne.symm hk]
    · rw [Function.update_of_ne hq]
      cases owner (fun x => (t.nodes x).foldedName) (order q) (some k) <;> simp [hq]
  have hsum := sum_update (ι := ℕ) (shadows fun x => (t.nodes x).foldedName) order
    (Finset.mem_range.2 hlt) (order p ++ [c])
  rw [shadows_append_singleton, hf, ← h.folded_eq, ← h.collisions_eq] at hsum
  have hnamed : ∀ q, ∀ x ∈ Function.update order p (order p ++ [c]) q,
      (t.nodes x).name.isSome ∧ (t.nodes x).foldedName.isSome := by
    intro q x hx
    rcases hmem.1 hx with hx | ⟨-, rfl⟩
    · exact h.named q x hx
    · simp [hn, hf]
  have hnodup : ∀ q, (Function.update order p (order p ++ [c]) q).Nodup := by
    intro q
    by_cases hq : q = p
    · subst hq
      rw [Function.update_self, List.nodup_append]
      exact ⟨h.nodup q, by simp, fun x hx y hy hxy =>
        hnew (by rw [← List.mem_singleton.1 hy, ← hxy]; exact hx)⟩
    · rw [Function.update_of_ne hq]
      exact h.nodup q
  unfold indexNode
  simp only [hp, hn, hf]
  cases hfold : t.folded (p, f) with
  | some o =>
    -- The folded slot is taken: the new node is shadowed.
    refine ⟨hnodup, hnamed, hexact, fun q k => ?_, ?_⟩
    · rw [hown]
      dsimp only
      by_cases hqk : q = p ∧ k = f
      · obtain ⟨rfl, rfl⟩ := hqk
        simp [hfold]
      · cases t.folded (q, k) <;> simp [hqk]
    · simp only [hfold, Option.isSome_some, if_true] at hsum
      dsimp only
      omega
  | none =>
    refine ⟨hnodup, hnamed, hexact, fun q k => ?_, ?_⟩
    · rw [hown]
      dsimp only
      by_cases hqk : q = p ∧ k = f
      · obtain ⟨rfl, rfl⟩ := hqk
        simp [hfold]
      · have hne : (q, k) ≠ (p, f) := fun h => hqk (Prod.mk.inj h)
        rw [Function.update_of_ne hne]
        cases t.folded (q, k) <;> simp [hqk]
    · simp only [hfold, Option.isSome_none, Bool.false_eq_true, if_false] at hsum
      dsimp only
      omega

theorem unindexNode_nodes (t : MetadataTree) (c : NodeId) :
    (t.unindexNode c).nodes = t.nodes := by
  unfold unindexNode
  split
  · dsimp only
    split
    · rfl
    · split_ifs
      · rfl
      · rfl
      · split <;> rfl
  · rfl

/-- What `unindex_node` does: `o` owns the folded slot of the node, and `rest` is the sibling found
for it. -/
theorem unindexNode_eq {n f : NameId} {o : NodeId} {rest : Option NodeId}
    (hp : (t.nodes c).parent = some p) (hn : (t.nodes c).name = some n)
    (hf : (t.nodes c).foldedName = some f) (ho : t.folded (p, f) = some o)
    (hrest : (t.children p).find? (fun s => s ≠ c && (t.nodes s).foldedName == some f) = rest)
    (hshadowed : o ≠ c → rest.isSome) (hzero : t.collisions = 0 → rest = none) :
    t.unindexNode c = { t with
      exact := Function.update t.exact (p, n) none
      folded := if o = c then Function.update t.folded (p, f) rest else t.folded
      collisions := t.collisions - if rest.isSome then 1 else 0 } := by
  have hch : ∀ e f, ({ t with exact := e, folded := f } : MetadataTree).children p =
      t.children p := fun _ _ => rfl
  unfold unindexNode
  simp only [hp, hn, hf, ho]
  by_cases hoc : o = c
  · subst hoc
    by_cases hz : t.collisions = 0
    · simp [hz, hzero hz]
    · simp only [ne_eq, not_true_eq_false, if_false, hz, hch]
      simp only [ne_eq] at hrest
      rw [hrest]
      cases rest <;> simp
  · simp [hoc, hshadowed hoc]

section Erase

variable (h : t.Indexed order) (hc : c ∈ order p)
include h

theorem Indexed.mem_erase_iff {q : NodeId} :
    x ∈ Function.update order p ((order p).erase c) q ↔ x ∈ order q ∧ ¬ (q = p ∧ x = c) := by
  by_cases hq : q = p
  · subst hq
    rw [Function.update_self, (h.nodup q).mem_erase_iff]
    tauto
  · rw [Function.update_of_ne hq]
    tauto

theorem Indexed.nodup_erase (q : NodeId) :
    (Function.update order p ((order p).erase c) q).Nodup := by
  by_cases hq : q = p
  · subst hq
    rw [Function.update_self]
    exact (h.nodup q).erase c
  · rw [Function.update_of_ne hq]
    exact h.nodup q

include hc

theorem Indexed.exact_erase {n : NameId} (hn : (t.nodes c).name = some n) (q : NodeId) (m : NameId)
    (x : NodeId) :
    Function.update t.exact (p, n) none (q, m) = some x ↔
      x ∈ Function.update order p ((order p).erase c) q ∧ (t.nodes x).name = some m := by
  rw [h.mem_erase_iff]
  by_cases hqm : (q, m) = (p, n)
  · obtain ⟨rfl, rfl⟩ := Prod.mk.inj hqm
    rw [Function.update_self]
    refine iff_of_false (by simp) ?_
    rintro ⟨⟨hx, hxc⟩, hxn⟩
    -- The name leads to `c` alone.
    have h1 := (h.exact_eq q m x).2 ⟨hx, hxn⟩
    have h2 := (h.exact_eq q m c).2 ⟨hc, hn⟩
    exact hxc ⟨rfl, Option.some.inj (h1.symm.trans h2)⟩
  · rw [Function.update_of_ne hqm, h.exact_eq]
    refine ⟨fun ⟨hx, hxn⟩ => ⟨⟨hx, ?_⟩, hxn⟩, fun ⟨⟨hx, _⟩, hxn⟩ => ⟨hx, hxn⟩⟩
    rintro ⟨rfl, rfl⟩
    exact hqm (by rw [Option.some.inj (hn.symm.trans hxn)])

omit hc in
theorem Indexed.owner_erase {f : NameId} (hf : (t.nodes c).foldedName = some f) {q : NodeId}
    {k : NameId} (hqk : (q, k) ≠ (p, f) ∨ t.folded (p, f) ≠ some c) :
    owner (fun x => (t.nodes x).foldedName)
      (Function.update order p ((order p).erase c) q) (some k) = t.folded (q, k) := by
  rw [h.folded_eq]
  by_cases hq : q = p
  · subst hq
    rw [Function.update_self]
    refine owner_erase_of_ne fun ho => ?_
    have hk := (key_of_owner ho).2
    rw [hf] at hk
    obtain rfl := Option.some.inj hk
    rw [h.folded_eq] at hqk
    exact hqk.elim (fun h => h rfl) fun h => h ho
  · rw [Function.update_of_ne hq]

theorem Indexed.collisions_erase {f : NameId} (hf : (t.nodes c).foldedName = some f)
    (hlt : p < t.size) :
    t.collisions = (∑ q ∈ Finset.range t.size, shadows (fun x => (t.nodes x).foldedName)
        (Function.update order p ((order p).erase c) q)) +
      if (owner (fun x => (t.nodes x).foldedName) ((order p).erase c) (some f)).isSome then 1
      else 0 := by
  have hsum := sum_update (ι := ℕ) (shadows fun x => (t.nodes x).foldedName) order
    (Finset.mem_range.2 hlt) ((order p).erase c)
  have hsh := shadows_erase (fun x => (t.nodes x).foldedName) hc
  rw [hf] at hsh
  rw [← h.collisions_eq] at hsum
  omega

/-- `unindex_node` on an indexed node.  It scans the siblings that are still linked, other than
the node itself. -/
theorem Indexed.unindex {n f : NameId} (hp : (t.nodes c).parent = some p)
    (hn : (t.nodes c).name = some n) (hf : (t.nodes c).foldedName = some f) (hlt : p < t.size)
    (hscan : (t.children p).filter (· ≠ c) = (order p).erase c) :
    (t.unindexNode c).Indexed (Function.update order p ((order p).erase c)) := by
  obtain ⟨o, ho⟩ : ∃ o, t.folded (p, f) = some o := by
    rw [← Option.ne_none_iff_exists', h.folded_eq]
    exact fun hnone => owner_eq_none_iff.1 hnone c hc hf
  have hcoll := h.collisions_erase hc hf hlt
  have howner := fun q k => h.owner_erase (q := q) (k := k) (p := p) hf
  set rest := owner (fun x => (t.nodes x).foldedName) ((order p).erase c) (some f) with hrest
  have hfind : (t.children p).find? (fun s => s ≠ c && (t.nodes s).foldedName == some f) =
      rest := by
    rw [hrest, ← hscan, owner, List.find?_filter]
    congr 1
    funext s
    simp [Bool.beq_eq_decide_eq]
  -- If another node owns the slot, it keeps it.
  have hshadowed : o ≠ c → t.folded (p, f) ≠ some c ∧ rest = some o := by
    intro hoc
    have hne : t.folded (p, f) ≠ some c := fun h => hoc (Option.some.inj (ho.symm.trans h))
    have := howner p f (.inr hne)
    rw [Function.update_self] at this
    exact ⟨hne, this.trans ho⟩
  have hzero : t.collisions = 0 → rest = none := by
    intro hz
    by_contra hsome
    rw [if_pos (Option.isSome_iff_ne_none.2 hsome)] at hcoll
    omega
  rw [unindexNode_eq hp hn hf ho hfind (fun hoc => by rw [(hshadowed hoc).2]; rfl) hzero]
  refine ⟨h.nodup_erase, fun q x hx => h.named q x (h.mem_erase_iff.1 hx).1, h.exact_erase hc hn,
    fun q k => ?_, ?_⟩
  · dsimp only
    by_cases hoc : o = c
    · rw [if_pos hoc]
      by_cases hqk : (q, k) = (p, f)
      · obtain ⟨rfl, rfl⟩ := Prod.mk.inj hqk
        rw [Function.update_self, Function.update_self]
      · rw [Function.update_of_ne hqk, howner q k (.inl hqk)]
    · rw [if_neg hoc, howner q k (.inr (hshadowed hoc).1)]
  · dsimp only
    omega

end Erase

end MetadataTree

end WslDrive
