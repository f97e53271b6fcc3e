import Mathlib.Data.List.Induction

/-!
# Labelled trees and their paths

A tree whose nodes carry labels, no two children of a node the same one.  A node is reached from
the root along the labels of the nodes on the way, its path.

* `Walk.unique`, `Walk.path_unique` — a path leads to one node, and a node has one path;
* `LTree.below_iff_prefix` — the nodes below a node are those whose paths extend its path;
* `LTree.walk_insert`, `LTree.walk_restrict`, `LTree.walk_move` — the paths after adding a leaf,
  after taking out some nodes and after moving a subtree.
-/

namespace WslDrive

/-- A tree with labels that tell the children of a node apart. -/
structure LTree (ι L : Type*) where
  root : ι
  /-- From a node to its children. -/
  edge : ι → ι → Prop
  label : ι → L
  parent_unique : ∀ {p q c}, edge p c → edge q c → p = q
  not_edge_root : ∀ p, ¬ edge p root
  label_inj : ∀ {p c d}, edge p c → edge p d → label c = label d → c = d

namespace LTree

variable {ι L : Type*} {T T' : LTree ι L} {x y z c id : ι} {s u : List L} {l : L}

/-- The labels on the way from one node down to another. -/
inductive Walk (T : LTree ι L) : ι → List L → ι → Prop
  | nil (x : ι) : Walk T x [] x
  | cons {x c y : ι} {s : List L} : T.edge x c → Walk T c s y → Walk T x (T.label c :: s) y

/-- `y` is `x` or below it. -/
def Below (T : LTree ι L) (x y : ι) : Prop := ∃ s, T.Walk x s y

theorem walk_nil_iff : T.Walk x [] y ↔ x = y := by
  constructor
  · rintro ⟨⟩
    rfl
  · rintro rfl
    exact .nil x

theorem walk_cons_iff : T.Walk x (l :: s) y ↔ ∃ c, T.edge x c ∧ T.label c = l ∧ T.Walk c s y := by
  constructor
  · rintro ⟨⟩
    exact ⟨_, ‹_›, rfl, ‹_›⟩
  · rintro ⟨c, hc, rfl, hw⟩
    exact .cons hc hw

theorem walk_append_iff : T.Walk x (s ++ u) z ↔ ∃ y, T.Walk x s y ∧ T.Walk y u z := by
  induction s generalizing x with
  | nil => simp [walk_nil_iff]
  | cons l s ih =>
    simp only [List.cons_append, walk_cons_iff, ih]
    constructor
    · rintro ⟨c, hc, hl, y, hcy, hyz⟩
      exact ⟨y, ⟨c, hc, hl, hcy⟩, hyz⟩
    · rintro ⟨y, ⟨c, hc, hl, hcy⟩, hyz⟩
      exact ⟨c, hc, hl, y, hcy, hyz⟩

theorem walk_snoc_iff :
    T.Walk x (s ++ [l]) z ↔ ∃ y, T.Walk x s y ∧ T.edge y z ∧ T.label z = l := by
  simp only [walk_append_iff, walk_cons_iff, walk_nil_iff]
  constructor
  · rintro ⟨y, hxy, c, hc, hl, rfl⟩
    exact ⟨y, hxy, hc, hl⟩
  · rintro ⟨y, hxy, hz, hl⟩
    exact ⟨y, hxy, z, hz, hl, rfl⟩

theorem Walk.append (h : T.Walk x s y) (h' : T.Walk y u z) : T.Walk x (s ++ u) z :=
  walk_append_iff.2 ⟨y, h, h'⟩

theorem Walk.snoc (h : T.Walk x s y) (hc : T.edge y c) : T.Walk x (s ++ [T.label c]) c :=
  walk_snoc_iff.2 ⟨y, h, hc, rfl⟩

theorem Walk.unique (h : T.Walk x s y) (h' : T.Walk x s z) : y = z := by
  induction h with
  | nil => exact walk_nil_iff.1 h'
  | cons hc _ ih =>
    obtain ⟨d, hd, hl, hw⟩ := walk_cons_iff.1 h'
    obtain rfl := T.label_inj hd hc hl
    exact ih hw

theorem Walk.path_unique (h : T.Walk T.root s x) (h' : T.Walk T.root u x) : s = u := by
  induction s using List.reverseRecOn generalizing x u with
  | nil =>
    rcases List.eq_nil_or_concat u with rfl | ⟨u, l, rfl⟩
    · rfl
    · obtain rfl := walk_nil_iff.1 h
      rw [List.concat_eq_append] at h'
      obtain ⟨y, -, hy, -⟩ := walk_snoc_iff.1 h'
      exact absurd hy (T.not_edge_root y)
  | append_singleton s l ih =>
    obtain ⟨y, hs, hy, hl⟩ := walk_snoc_iff.1 h
    rcases List.eq_nil_or_concat u with rfl | ⟨u, m, rfl⟩
    · obtain rfl := walk_nil_iff.1 h'
      exact absurd hy (T.not_edge_root y)
    · rw [List.concat_eq_append] at h' ⊢
      obtain ⟨z, hu, hz, hm⟩ := walk_snoc_iff.1 h'
      obtain rfl := T.parent_unique hy hz
      rw [ih hs hu, ← hl, ← hm]

/-- **The nodes below a node have the paths that extend its path.** -/
theorem below_iff_prefix (hx : T.Walk T.root s x) (hy : T.Walk T.root u y) :
    T.Below x y ↔ s <+: u := by
  constructor
  · rintro ⟨v, hv⟩
    exact ⟨v, (hx.append hv).path_unique hy⟩
  · rintro ⟨v, rfl⟩
    obtain ⟨z, hz, hv⟩ := walk_append_iff.1 hy
    obtain rfl := hx.unique hz
    exact ⟨v, hv⟩

theorem walk_iff_append (hx : T.Walk T.root s x) : T.Walk x u y ↔ T.Walk T.root (s ++ u) y := by
  refine ⟨hx.append, fun h => ?_⟩
  obtain ⟨z, hz, hv⟩ := walk_append_iff.1 h
  obtain rfl := hx.unique hz
  exact hv

theorem Below.step (h : T.Below x y) (hc : T.edge y c) : T.Below x c := by
  obtain ⟨s, hs⟩ := h
  exact ⟨_, hs.snoc hc⟩

theorem below_self (x : ι) : T.Below x x := ⟨[], .nil x⟩

/-- A child below a node is the node itself, or its parent is below it as well. -/
theorem Below.of_edge (h : T.Below x c) (hc : T.edge y c) : c = x ∨ T.Below x y := by
  obtain ⟨s, hs⟩ := h
  rcases List.eq_nil_or_concat s with rfl | ⟨s, l, rfl⟩
  · exact .inl (walk_nil_iff.1 hs).symm
  · rw [List.concat_eq_append] at hs
    obtain ⟨z, hz, hzc, -⟩ := walk_snoc_iff.1 hs
    obtain rfl := T.parent_unique hc hzc
    exact .inr ⟨s, hz⟩

theorem not_below_root (hid : id ≠ T.root) : ¬ T.Below id T.root := by
  rintro ⟨u, hu⟩
  rcases List.eq_nil_or_concat u with rfl | ⟨u, m, rfl⟩
  · exact hid (walk_nil_iff.1 hu)
  · rw [List.concat_eq_append] at hu
    obtain ⟨w, -, hw, -⟩ := walk_snoc_iff.1 hu
    exact T.not_edge_root w hw

theorem not_below_of_edge (hs : T.Walk T.root s x) (hc : T.edge x c) : ¬ T.Below c x := by
  rintro ⟨u, hu⟩
  have hlen := congrArg List.length (((hs.snoc hc).append hu).path_unique hs)
  simp at hlen

/-! ### Walks in another tree -/

theorem Walk.mono {P : ι → Prop} (h : T.Walk x s y) (hy : P y)
    (hstep : ∀ a c, T.edge a c → P c → T'.edge a c ∧ T'.label c = T.label c ∧ P a) :
    T'.Walk x s y ∧ P x := by
  induction h with
  | nil => exact ⟨.nil _, hy⟩
  | cons hc _ ih =>
    obtain ⟨hw, hP⟩ := ih hy
    obtain ⟨he, hl, hPx⟩ := hstep _ _ hc hP
    rw [← hl]
    exact ⟨.cons he hw, hPx⟩

theorem Walk.mono_below (h : T.Walk x s y) (hx : T.Below id x)
    (hstep : ∀ a c, T.Below id a → T.edge a c → T'.edge a c ∧ T'.label c = T.label c) :
    T'.Walk x s y := by
  induction h with
  | nil => exact .nil _
  | cons hc _ ih =>
    obtain ⟨he, hl⟩ := hstep _ _ hx hc
    rw [← hl]
    exact .cons he (ih (hx.step hc))

theorem walk_insert {p n : ι} (hroot : T'.root = T.root) (hpn : p ≠ n) (hleaf : ∀ c, ¬ T.edge n c)
    (hedge : ∀ x c, T'.edge x c ↔ T.edge x c ∨ (x = p ∧ c = n))
    (hlabel : ∀ x c, T.edge x c → T'.label c = T.label c) :
    T'.Walk T'.root s y ↔
      T.Walk T.root s y ∨ (y = n ∧ ∃ q, T.Walk T.root q p ∧ s = q ++ [T'.label n]) := by
  have hup : ∀ {s y}, T.Walk T.root s y → T'.Walk T.root s y := fun h =>
    (h.mono (P := fun _ => True) trivial fun a c hc _ =>
      ⟨(hedge a c).2 (.inl hc), hlabel a c hc, trivial⟩).1
  rw [hroot]
  constructor
  · intro h
    induction s using List.reverseRecOn generalizing y with
    | nil => exact .inl (walk_nil_iff.2 (walk_nil_iff.1 h))
    | append_singleton s l ih =>
      obtain ⟨z, hz, hzy, rfl⟩ := walk_snoc_iff.1 h
      rcases ih hz with hw | ⟨rfl, -⟩
      · rcases (hedge z y).1 hzy with hc | ⟨rfl, rfl⟩
        · left
          rw [hlabel z y hc]
          exact hw.snoc hc
        · exact .inr ⟨rfl, s, hw, rfl⟩
      · -- The new node has no children.
        rcases (hedge z y).1 hzy with hc | ⟨hzp, -⟩
        · exact absurd hc (hleaf y)
        · exact absurd hzp.symm hpn
  · rintro (h | ⟨rfl, q, hq, rfl⟩)
    · exact hup h
    · exact (hup hq).snoc ((hedge p y).2 (.inr ⟨rfl, rfl⟩))

/-- **Keeping some of the nodes**, and with each its parent. -/
theorem walk_restrict {P : ι → Prop} (hroot : T'.root = T.root) (hP : P T.root)
    (hup : ∀ x c, T.edge x c → P c → P x) (hedge : ∀ x c, T'.edge x c ↔ T.edge x c ∧ P c)
    (hlabel : ∀ x c, T'.edge x c → T'.label c = T.label c) :
    T'.Walk T'.root s y ↔ T.Walk T.root s y ∧ P y := by
  rw [hroot]
  constructor
  · intro h
    refine ⟨(h.mono (P := fun _ => True) trivial fun a c hc _ =>
      ⟨((hedge a c).1 hc).1, (hlabel a c hc).symm, trivial⟩).1, ?_⟩
    rcases List.eq_nil_or_concat s with rfl | ⟨s, l, rfl⟩
    · obtain rfl := walk_nil_iff.1 h
      exact hP
    · rw [List.concat_eq_append] at h
      obtain ⟨z, -, hz, -⟩ := walk_snoc_iff.1 h
      exact ((hedge z y).1 hz).2
  · rintro ⟨h, hy⟩
    refine (h.mono hy fun a c hc hPc => ?_).1
    have he := (hedge a c).2 ⟨hc, hPc⟩
    exact ⟨he, hlabel a c he, hup a c hc hPc⟩

/-- **Moving a subtree** to be the child of `np`, under another label. -/
theorem walk_move {np : ι} {p q : List L} (hroot : T'.root = T.root) (hid : id ≠ T.root)
    (hp : T.Walk T.root p id) (hq : T.Walk T.root q np) (hnp : ¬ T.Below id np)
    (hedge : ∀ x c, T'.edge x c ↔ (c ≠ id ∧ T.edge x c) ∨ (c = id ∧ x = np))
    (hlabel : ∀ x c, c ≠ id → T.edge x c → T'.label c = T.label c) :
    T'.Walk T'.root s y ↔ (T.Walk T.root s y ∧ ¬ T.Below id y) ∨
      ∃ u, s = q ++ T'.label id :: u ∧ T.Walk id u y := by
  -- Outside the subtree the walks are the same, and so they are inside.
  have hout : ∀ {s y}, T.Walk T.root s y → ¬ T.Below id y → T'.Walk T.root s y := fun h hy =>
    (h.mono (P := fun c => ¬ T.Below id c) hy fun a c hc hP => by
      have hne : c ≠ id := fun hci => hP (hci ▸ below_self c)
      exact ⟨(hedge a c).2 (.inl ⟨hne, hc⟩), hlabel a c hne hc, fun ha => hP (ha.step hc)⟩).1
  have hne : ∀ {a c}, T.Below id a → T.edge a c → c ≠ id := by
    rintro a c ⟨u, hu⟩ hc rfl
    exact not_below_of_edge (hp.append hu) hc ⟨u, hu⟩
  have hin : ∀ {u y}, T.Walk id u y → T'.Walk id u y := fun h =>
    h.mono_below (below_self id) fun a c ha hc =>
      ⟨(hedge a c).2 (.inl ⟨hne ha hc, hc⟩), hlabel a c (hne ha hc) hc⟩
  have hedge_id : T'.edge np id := (hedge np id).2 (.inr ⟨rfl, rfl⟩)
  rw [hroot]
  constructor
  · intro h
    induction s using List.reverseRecOn generalizing y with
    | nil =>
      obtain rfl := walk_nil_iff.1 h
      exact .inl ⟨.nil _, not_below_root hid⟩
    | append_singleton s l ih =>
      obtain ⟨z, hz, hzy, rfl⟩ := walk_snoc_iff.1 h
      rcases (hedge z y).1 hzy with ⟨hy, hc⟩ | ⟨rfl, rfl⟩
      · rw [hlabel z y hy hc]
        rcases ih hz with ⟨hw, hb⟩ | ⟨u, rfl, hu⟩
        · exact .inl ⟨hw.snoc hc, fun hb' => (hb'.of_edge hc).elim hy hb⟩
        · exact .inr ⟨u ++ [T.label y], by simp, hu.snoc hc⟩
      · rcases ih hz with ⟨hw, -⟩ | ⟨u, -, hu⟩
        · rw [hw.path_unique hq]
          exact .inr ⟨[], rfl, .nil _⟩
        · exact absurd ⟨u, hu⟩ hnp
  · rintro (⟨h, hb⟩ | ⟨u, rfl, hu⟩)
    · exact hout h hb
    · exact (hout hq hnp).append (.cons hedge_id (hin hu))

end LTree

end WslDrive
