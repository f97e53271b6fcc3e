import WslDrive.Core.Tree.Ops

/-!
# The invariant of reachable trees

The representation invariant again, this time without the lists of children as a parameter: it
speaks of the fields of the tree and of the loop that follows the sibling pointers.

* `Invariant` — the six coupled structures agree;
* `invariant_run` — they agree after every sequence of operations.
-/

namespace WslDrive

namespace MetadataTree

open Siblings Shadow Unicode Path

variable {t : MetadataTree} {kids : NodeId → List NodeId} {c : NodeId}

/-- The folded index leads to the node, from its own parent and folded name. -/
def OwnsFolded (t : MetadataTree) (c : NodeId) : Prop :=
  ∃ p f, (t.nodes c).parent = some p ∧ (t.nodes c).foldedName = some f ∧ t.folded (p, f) = some c

/-- The fields of a tree agree with each other. -/
structure Invariant (t : MetadataTree) : Prop where
  root_live : t.isLive root
  root_dir : (t.nodes root).isDir = true
  root_parent : (t.nodes root).parent = none
  /-- Both ends, both directions: the pointers are those of the lists of children. -/
  links : Links (fun x => (t.nodes x).firstChild) (fun x => (t.nodes x).lastChild)
    (fun x => (t.nodes x).nextSibling) (fun x => (t.nodes x).prevSibling) t.children
  mem_children : ∀ p c, c ∈ t.children p ↔
    t.isLive c ∧ c ≠ root ∧ (t.nodes c).parent = some p
  parent_dir : ∀ c, t.isLive c → c ≠ root →
    ∃ p, (t.nodes c).parent = some p ∧ t.isLive p ∧ (t.nodes p).isDir = true
  child_count : ∀ p, (t.nodes p).childCount = (t.children p).length
  no_children : ∀ p, (t.nodes p).isDir = false → t.children p = []
  acyclic : ∀ c, t.isLive c → ¬ Relation.TransGen t.IsParent c c
  to_root : ∀ c, t.isLive c → Relation.ReflTransGen t.IsParent c root
  live_lt : ∀ c, t.isLive c → c < t.size
  free_nodup : t.free.Nodup
  mem_free : ∀ i, i ∈ t.free ↔ i < t.size ∧ ¬ t.isLive i
  live_eq : t.live = ((Finset.range t.size).filter fun i => t.isLive i).card
  exact_eq : ∀ p n c, t.exact (p, n) = some c ↔
    t.isLive c ∧ c ≠ root ∧ (t.nodes c).parent = some p ∧ (t.nodes c).name = some n
  /-- The first child, in sibling order, with the folding. -/
  folded_eq : ∀ p f, f < t.names.size → t.folded (p, f) =
    (t.children p).find? fun c => casefold (t.name c) = t.names.view f
  folded_lt : ∀ p f c, t.folded (p, f) = some c → f < t.names.size
  collisions_eq : ∃ s : Finset NodeId, t.collisions = s.card ∧
    ∀ c, c ∈ s ↔ t.isLive c ∧ c ≠ root ∧ ¬ t.OwnsFolded c

theorem Shaped.ne_root (h : t.Shaped kids) {p : NodeId} (hc : c ∈ kids p) : c ≠ root := by
  rintro rfl
  have := ((h.mem_order p root).1 hc).2
  rw [h.root_parent] at this
  cases this

theorem Shaped.mem_iff (h : t.Shaped kids) {p : NodeId} :
    c ∈ kids p ↔ t.isLive c ∧ c ≠ root ∧ (t.nodes c).parent = some p := by
  refine ⟨fun hc => ?_, fun hc => (h.mem_order p c).2 ⟨hc.1, hc.2.2⟩⟩
  obtain ⟨hl, hp⟩ := (h.mem_order p c).1 hc
  exact ⟨hl, h.ne_root hc, hp⟩

theorem Named.foldedName_iff (h : t.Named) {f : NameId} (hc : t.isLive c) (hf : f < t.names.size) :
    (t.nodes c).foldedName = some f ↔ casefold (t.name c) = t.names.view f := by
  obtain ⟨n, hn⟩ := Option.isSome_iff_exists.1 hc
  obtain ⟨g, hg, hlt, hview⟩ := h.folded c n hn
  rw [hg, name_eq hn, ← hview, Option.some.injEq]
  exact ⟨fun hgf => by rw [hgf], fun hv => StringPool.view_injective hlt hf hv⟩

theorem Rep.ownsFolded_iff (h : t.Rep kids kids) {p : NodeId} (hc : c ∈ kids p) :
    t.OwnsFolded c ↔ owner (fun x => (t.nodes x).foldedName) (kids p) (t.nodes c).foldedName =
      some c := by
  have hpar := ((h.shaped.mem_order p c).1 hc).2
  obtain ⟨f, hf⟩ := Option.isSome_iff_exists.1 (h.indexed.named p c hc).2
  rw [hf, ← h.indexed.folded_eq]
  constructor
  · rintro ⟨q, g, hq, hg, hown⟩
    rw [hpar] at hq
    rw [hf] at hg
    cases hq
    cases hg
    exact hown
  · intro hown
    exact ⟨p, f, hpar, hf, hown⟩

theorem Rep.collisions_card (h : t.Rep kids kids) : ∃ s : Finset NodeId, t.collisions = s.card ∧
    ∀ c, c ∈ s ↔ t.isLive c ∧ c ≠ root ∧ ¬ t.OwnsFolded c := by
  classical
  refine ⟨(Finset.range t.size).biUnion fun p =>
    ((kids p).filter fun c => ¬ t.OwnsFolded c).toFinset, ?_, fun c => ?_⟩
  · rw [h.indexed.collisions_eq, Finset.card_biUnion]
    · refine Finset.sum_congr rfl fun p _ => ?_
      rw [List.toFinset_card_of_nodup ((h.indexed.nodup p).filter _),
        ← List.countP_eq_length_filter, ← countP_not_owner (h.indexed.nodup p)]
      refine List.countP_congr fun c hc => ?_
      simp [h.ownsFolded_iff hc]
    · intro p _ q _ hpq
      rw [Function.onFun, Finset.disjoint_left]
      intro c hp hq
      simp only [List.mem_toFinset, List.mem_filter] at hp hq
      exact hpq (h.linked.links.disjoint p q c hp.1 hq.1)
  · simp only [Finset.mem_biUnion, Finset.mem_range, List.mem_toFinset, List.mem_filter,
      decide_eq_true_eq]
    constructor
    · rintro ⟨p, -, hc, hown⟩
      obtain ⟨hl, hne, -⟩ := h.shaped.mem_iff.1 hc
      exact ⟨hl, hne, hown⟩
    · rintro ⟨hl, hne, hown⟩
      obtain ⟨p, hp, hplive, -⟩ := h.shaped.parent_live c hl hne
      exact ⟨p, h.allocated.lt_size p hplive, h.shaped.mem_iff.2 ⟨hl, hne, hp⟩, hown⟩

theorem Rep.invariant (h : t.Rep kids kids) (hroot : (t.nodes root).isDir = true) :
    t.Invariant := by
  have hch : t.children = kids := by
    funext p
    exact h.linked.children_eq fun c hc => h.allocated.lt_size c ((h.shaped.mem_order p c).1 hc).1
  refine ⟨h.shaped.root_live, hroot, h.shaped.root_parent, hch ▸ h.linked.links, ?_,
    h.shaped.parent_live, hch ▸ h.linked.count, ?_, fun c hc => h.shaped.not_cycle hc,
    h.shaped.to_root, h.allocated.lt_size, h.allocated.free_nodup, h.allocated.mem_free,
    h.allocated.live_eq, fun p n c => ?_, fun p f hf => ?_, fun p f c hf => ?_, h.collisions_card⟩
  · intro p c
    rw [hch, h.shaped.mem_iff]
  · intro p hp
    rw [hch, h.kids_eq_nil hp]
  · rw [h.indexed.exact_eq, h.shaped.mem_iff]
    tauto
  · rw [h.indexed.folded_eq, hch, owner]
    refine List.find?_congr fun c hc => ?_
    have := h.named.foldedName_iff ((h.shaped.mem_order p c).1 hc).1 hf
    simp [← this, Bool.beq_eq_decide_eq]
  · rw [h.indexed.folded_eq] at hf
    obtain ⟨hc, hkey⟩ := key_of_owner hf
    obtain ⟨n, hn⟩ := Option.isSome_iff_exists.1 (h.indexed.named p c hc).1
    obtain ⟨g, hg, hlt, -⟩ := h.named.folded c n hn
    rw [hg] at hkey
    cases hkey
    exact hlt

/-- **The representation invariant holds after every sequence of operations**, successful or
failing, that does not make the root something other than a directory. -/
theorem invariant_run (ops : List Op) (hops : ∀ op ∈ ops, op.keepsRoot = true) :
    (run ops).Invariant := by
  obtain ⟨kids, h⟩ := wf_run ops
  exact h.invariant (run_root_dir hops)

/-- Two names that differ in case, and the slot of the first one used again. -/
theorem invariant_run_collision :
    (run [.insert root [0x41] {}, .insert root [0x61] {}, .remove 1,
      .rename 2 root [0x42], .upsertPath [0x78, 0x2F, 0x79] {}]).Invariant :=
  invariant_run _ (by decide)

end MetadataTree

end WslDrive
