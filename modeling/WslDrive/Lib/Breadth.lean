import Mathlib.Data.List.Nodup
import Mathlib.Data.List.Perm.Subperm

/-!
# Numbering a tree breadth first

A walk with a queue hands out the nodes of a tree, each with the number of its parent.  The root
has the number 0 and the `k`-th node handed out the number `k`.  The walk does not enter every
node: below the others it hands out nothing.

* `Sound` — what holds after every round of the walk;
* `loop_spec` — a walk with enough rounds hands out every node it can reach once, behind its
  parent and beside its siblings in their order.
-/

namespace WslDrive

/-- A tree to be walked: the children of a node, and whether the walk enters it. -/
structure Breadth (ν : Type*) where
  root : ν
  kids : ν → List ν
  enters : ν → Bool

namespace Breadth

variable {ν : Type*} {T : Breadth ν} {x y c : ν} {i : ℕ}

/-- The nodes handed out, with the numbers of their parents, and the nodes still to be entered,
with their own. -/
structure State (ν : Type*) where
  out : List (ℕ × ν)
  queue : List (ν × ℕ)

/-- One child of the node with number `i`. -/
def visit (T : Breadth ν) (i : ℕ) (s : State ν) (c : ν) : State ν where
  out := s.out ++ [(i, c)]
  queue := s.queue ++ if T.enters c then [(c, s.out.length + 1)] else []

/-- All children of a node. -/
def round (T : Breadth ν) (x : ν) (i : ℕ) (s : State ν) : State ν := (T.kids x).foldl (T.visit i) s

/-- The loop over the queue, with a bound on its rounds. -/
def loop (T : Breadth ν) : ℕ → State ν → State ν
  | 0, s => s
  | fuel + 1, s =>
    match s.queue with
    | [] => s
    | (x, i) :: queue => loop T fuel (T.round x i { s with queue })

/-- Nothing handed out, and the root in the queue. -/
def start (T : Breadth ν) : State ν := ⟨[], [(T.root, 0)]⟩

/-- The nodes below nodes that are entered. -/
inductive Reached (T : Breadth ν) : ν → Prop
  | root : Reached T T.root
  | kid {x c : ν} (hx : Reached T x) (he : T.enters x = true) (hc : c ∈ T.kids x) : Reached T c

/-- No node has two parents or is listed twice, and the root has no parent. -/
structure IsTree (T : Breadth ν) : Prop where
  nodup : ∀ x, T.Reached x → T.enters x = true → (T.kids x).Nodup
  root_notMem : ∀ x, T.root ∉ T.kids x
  parent : ∀ {x y c}, c ∈ T.kids x → c ∈ T.kids y → x = y
  enters_root : T.enters T.root = true

/-- The nodes by their numbers. -/
def nodes (T : Breadth ν) (s : State ν) : List ν := T.root :: s.out.map Prod.snd

/-- The children that were handed out for the node with number `i`. -/
def kidsAt (s : State ν) (i : ℕ) : List ν := (s.out.filter fun e => e.1 = i).map Prod.snd

/-! ### A round -/

theorem round_eq (T : Breadth ν) (x : ν) (i : ℕ) (s : State ν) :
    T.round x i s = ⟨s.out ++ (T.kids x).map fun c => (i, c),
      s.queue ++ ((T.kids x).zipIdx (s.out.length + 1)).filter fun e => T.enters e.1⟩ := by
  rw [round]
  induction T.kids x generalizing s with
  | nil => simp
  | cons c cs ih =>
    rw [List.foldl_cons, ih, visit, List.zipIdx_cons]
    cases hc : T.enters c <;> simp [hc]

theorem kidsAt_round (T : Breadth ν) (x : ν) (i j : ℕ) (s : State ν) :
    kidsAt (T.round x i s) j = kidsAt s j ++ if j = i then T.kids x else [] := by
  rw [round_eq, kidsAt, kidsAt, List.filter_append, List.map_append, List.filter_map, List.map_map]
  congr 1
  by_cases hij : j = i
  · subst hij
    simp [Function.comp_def]
  · simp [Function.comp_def, hij, Ne.symm hij]

theorem nodes_round (T : Breadth ν) (x : ν) (i : ℕ) (s : State ν) :
    T.nodes (T.round x i s) = T.nodes s ++ T.kids x := by
  rw [round_eq, nodes, nodes]
  simp [Function.comp_def]

theorem length_nodes (T : Breadth ν) (s : State ν) :
    (T.nodes s).length = s.out.length + 1 := by
  simp [nodes]

/-- The state of a walk between two rounds. -/
structure Sound (T : Breadth ν) (s : State ν) : Prop where
  nodup : (T.nodes s).Nodup
  parent : ∀ (k i : ℕ) (c : ν), s.out[k]? = some (i, c) →
    i ≤ k ∧ ∃ x, (T.nodes s)[i]? = some x ∧ T.enters x = true ∧ c ∈ T.kids x
  queue : ∀ (x : ν) (i : ℕ), (x, i) ∈ s.queue →
    (T.nodes s)[i]? = some x ∧ T.enters x = true ∧ kidsAt s i = []
  queue_nodup : s.queue.Nodup
  /-- A node to be entered is in the queue, or all its children are handed out. -/
  done : ∀ (i : ℕ) (x : ν), (T.nodes s)[i]? = some x → T.enters x = true →
    (x, i) ∈ s.queue ∨ kidsAt s i = T.kids x

theorem Sound.start (h : T.IsTree) : T.Sound T.start where
  nodup := List.nodup_singleton _
  parent k i c hk := by simp [Breadth.start] at hk
  queue x i hx := by
    obtain ⟨rfl, rfl⟩ := Prod.mk.inj (List.mem_singleton.1 hx)
    exact ⟨rfl, h.enters_root, rfl⟩
  queue_nodup := List.nodup_singleton _
  done i x hi _ := by
    cases i with
    | zero =>
      obtain rfl : T.root = x := Option.some.inj hi
      exact .inl (List.mem_singleton_self _)
    | succ i => simp [nodes, Breadth.start] at hi

theorem Sound.reached {s : State ν} (hs : T.Sound s) (hx : x ∈ T.nodes s) : T.Reached x := by
  obtain ⟨k, hk⟩ := List.getElem?_of_mem hx
  -- Parents have smaller numbers.
  induction k using Nat.strongRecOn generalizing x with
  | _ k ih =>
    cases k with
    | zero =>
      obtain rfl : T.root = x := Option.some.inj hk
      exact .root
    | succ k =>
      obtain ⟨⟨i, c⟩, hc, rfl⟩ : ∃ e, s.out[k]? = some e ∧ e.2 = x := by
        simpa [nodes] using hk
      obtain ⟨hle, y, hy, he, hcy⟩ := hs.parent k i c hc
      exact .kid (ih i (by omega) (List.mem_of_getElem? hy) hy) he hcy

theorem Sound.notMem_nodes (h : T.IsTree) {s : State ν} (hs : T.Sound s)
    (hi : (T.nodes s)[i]? = some x) (hnone : kidsAt s i = []) (hc : c ∈ T.kids x) :
    c ∉ T.nodes s := by
  intro hmem
  rcases List.mem_cons.1 hmem with rfl | hmem
  · exact h.root_notMem x hc
  obtain ⟨⟨j, d⟩, hd, rfl⟩ := List.mem_map.1 hmem
  obtain ⟨k, hk⟩ := List.getElem?_of_mem hd
  obtain ⟨-, y, hy, -, hcy⟩ := hs.parent k j d hk
  obtain rfl := h.parent hc hcy
  -- The two numbers of the parent are one.
  have hij : j = i := by
    obtain ⟨hlt, hj⟩ := List.getElem?_eq_some_iff.1 hy
    obtain ⟨hlt', hi'⟩ := List.getElem?_eq_some_iff.1 hi
    exact (hs.nodup.getElem_inj_iff).1 (hj.trans hi'.symm)
  have : d ∈ kidsAt s i := List.mem_map.2 ⟨(j, d), List.mem_filter.2 ⟨hd, by simpa using hij⟩, rfl⟩
  rw [hnone] at this
  cases this

theorem Sound.round (h : T.IsTree) {s : State ν} {queue : List (ν × ℕ)}
    (hs : T.Sound s) (hq : s.queue = (x, i) :: queue) :
    T.Sound (T.round x i { s with queue }) := by
  obtain ⟨hi, hx, hnone⟩ := hs.queue x i (by rw [hq]; exact List.mem_cons_self)
  have hqn := hs.queue_nodup
  rw [hq, List.nodup_cons] at hqn
  have hnodes : T.nodes (T.round x i { s with queue }) = T.nodes s ++ T.kids x :=
    T.nodes_round x i _
  have hold : ∀ {j : ℕ} {y : ν}, (T.nodes s)[j]? = some y → (T.nodes s ++ T.kids x)[j]? = some y :=
    fun hj => by rw [List.getElem?_append_left (List.getElem?_eq_some_iff.1 hj).1, hj]
  have hkids : ∀ j, kidsAt (T.round x i { s with queue }) j =
      kidsAt s j ++ if j = i then T.kids x else [] := fun j => T.kidsAt_round x i j _
  have hlen := T.length_nodes s
  refine ⟨?_, fun k j c hk => ?_, fun y j hy => ?_, ?_, fun j y hj hy => ?_⟩
  · rw [hnodes]
    refine List.nodup_append.2 ⟨hs.nodup, h.nodup x (hs.reached (List.mem_of_getElem? hi)) hx, ?_⟩
    rintro a ha b hb rfl
    exact hs.notMem_nodes h hi hnone hb ha
  · rw [hnodes]
    rw [round_eq] at hk
    dsimp only at hk
    by_cases hlt : k < s.out.length
    · rw [List.getElem?_append_left hlt] at hk
      obtain ⟨hle, y, hy, hey, hcy⟩ := hs.parent k j c hk
      exact ⟨hle, y, hold hy, hey, hcy⟩
    · rw [List.getElem?_append_right (Nat.le_of_not_lt hlt), List.getElem?_map] at hk
      obtain ⟨d, hd, hdc⟩ := Option.map_eq_some_iff.1 hk
      obtain ⟨rfl, rfl⟩ := Prod.mk.inj hdc
      have := (List.getElem?_eq_some_iff.1 hi).1
      exact ⟨by omega, x, hold hi, hx, List.mem_of_getElem? hd⟩
  · rw [hnodes, hkids]
    rw [round_eq] at hy
    rcases List.mem_append.1 hy with hmem | hmem
    · obtain ⟨hj, hey, hnone'⟩ := hs.queue y j (by rw [hq]; exact List.mem_cons_of_mem _ hmem)
      have hne : j ≠ i := by
        rintro rfl
        rw [hi] at hj
        cases hj
        exact hqn.1 hmem
      exact ⟨hold hj, hey, by rw [hnone', if_neg hne]; rfl⟩
    · obtain ⟨hmem, hey⟩ := List.mem_filter.1 hmem
      obtain ⟨hle, hyj⟩ := List.mk_mem_zipIdx_iff_le_and_getElem?_sub.1 hmem
      dsimp only at hle hyj
      refine ⟨?_, hey, ?_⟩
      · rw [List.getElem?_append_right (by omega), hlen]
        exact hyj
      · -- Its number is new, so no node names it as its parent.
        have hnew : kidsAt s j = [] := by
          rw [kidsAt, List.map_eq_nil_iff, List.filter_eq_nil_iff]
          rintro ⟨a, d⟩ hd ha
          obtain ⟨k, hk⟩ := List.getElem?_of_mem hd
          have := (hs.parent k a d hk).1
          have := (List.getElem?_eq_some_iff.1 hk).1
          have haj : a = j := by simpa using ha
          omega
        have hne : j ≠ i := by
          have := (List.getElem?_eq_some_iff.1 hi).1
          omega
        rw [hnew, if_neg hne]
        rfl
  · rw [round_eq]
    refine List.nodup_append.2 ⟨hqn.2, ?_, ?_⟩
    · refine List.Nodup.filter _ (List.Nodup.of_map Prod.snd ?_)
      rw [List.zipIdx_map_snd]
      exact List.nodup_range'
    · rintro ⟨y, j⟩ hy ⟨z, k⟩ hz heq
      obtain ⟨rfl, rfl⟩ := Prod.mk.inj heq
      have hlt := (List.getElem?_eq_some_iff.1
        (hs.queue y j (by rw [hq]; exact List.mem_cons_of_mem _ hy)).1).1
      have hle := (List.mk_mem_zipIdx_iff_le_and_getElem?_sub.1 (List.mem_filter.1 hz).1).1
      dsimp only at hle
      omega
  · rw [hnodes] at hj
    rw [hkids, round_eq]
    by_cases hlt : j < (T.nodes s).length
    · rw [List.getElem?_append_left hlt] at hj
      by_cases hji : j = i
      · subst hji
        rw [hi] at hj
        cases hj
        exact .inr (by rw [hnone, if_pos rfl]; rfl)
      · rw [if_neg hji, List.append_nil]
        refine (hs.done j y hj hy).imp_left fun hmem => List.mem_append_left _ ?_
        rw [hq] at hmem
        refine (List.mem_cons.1 hmem).resolve_left fun heq => hji (Prod.mk.inj heq).2
    · rw [List.getElem?_append_right (Nat.le_of_not_lt hlt)] at hj
      refine .inl (List.mem_append_right _ (List.mem_filter.2 ⟨?_, hy⟩))
      refine List.mk_mem_zipIdx_iff_le_and_getElem?_sub.2 ⟨?_, ?_⟩
      · dsimp only
        omega
      · dsimp only
        rw [← hlen]
        exact hj

/-! ### The whole walk -/

theorem Sound.loop (h : T.IsTree) (fuel : ℕ) {s : State ν} (hs : T.Sound s) :
    T.Sound (T.loop fuel s) := by
  induction fuel generalizing s with
  | zero => exact hs
  | succ fuel ih =>
    rw [Breadth.loop.eq_def]
    dsimp only
    cases hq : s.queue with
    | nil => exact hs
    | cons e queue => exact ih (hs.round h hq)

theorem Sound.length_le {s : State ν} (hs : T.Sound s) {all : List ν}
    (hall : ∀ x, T.Reached x → x ∈ all) : (T.nodes s).length ≤ all.length :=
  (hs.nodup.subperm fun _ hx => hall _ (hs.reached hx)).length_le

theorem Sound.loop_queue (h : T.IsTree) {all : List ν} (hall : ∀ x, T.Reached x → x ∈ all)
    (fuel : ℕ) {s : State ν} (hs : T.Sound s)
    (hfuel : s.queue.length + (all.length - (T.nodes s).length) ≤ fuel) :
    (T.loop fuel s).queue = [] := by
  induction fuel generalizing s with
  | zero =>
    rw [Breadth.loop]
    exact List.length_eq_zero_iff.1 (by omega)
  | succ fuel ih =>
    rw [Breadth.loop.eq_def]
    dsimp only
    cases hq : s.queue with
    | nil => exact hq
    | cons e queue =>
      have hs' := hs.round h hq
      refine ih hs' ?_
      have hlen := hs'.length_le hall
      have hnodes : (T.nodes (T.round e.1 e.2 { s with queue })).length =
          (T.nodes s).length + (T.kids e.1).length := by
        rw [T.nodes_round, List.length_append]
        rfl
      have hpush : (T.round e.1 e.2 { s with queue }).queue.length ≤
          queue.length + (T.kids e.1).length := by
        rw [round_eq, List.length_append]
        refine Nat.add_le_add_left (Nat.le_trans (List.length_filter_le _ _) ?_) _
        exact Nat.le_of_eq List.length_zipIdx
      rw [hq, List.length_cons] at hfuel
      omega

/-- **A walk with enough rounds** hands out the nodes it can reach, each once and behind its parent.
-/
theorem loop_spec (h : T.IsTree) {all : List ν} (hall : ∀ x, T.Reached x → x ∈ all) {rounds : ℕ}
    (hrounds : all.length ≤ rounds) :
    T.Sound (T.loop rounds T.start) ∧
    (∀ x, x ∈ T.nodes (T.loop rounds T.start) ↔ T.Reached x) ∧
    ∀ (i : ℕ) (x : ν), (T.nodes (T.loop rounds T.start))[i]? = some x → T.enters x = true →
      kidsAt (T.loop rounds T.start) i = T.kids x := by
  have hstart := Sound.start h
  have hs := hstart.loop h rounds
  have hroot : 0 < all.length := List.length_pos_of_mem (hall _ .root)
  have hqueue := hstart.loop_queue h hall rounds (by
    rw [T.length_nodes]
    simp only [Breadth.start, List.length_singleton, List.length_nil]
    omega)
  have hdone : ∀ (i : ℕ) (x : ν), (T.nodes (T.loop rounds T.start))[i]? = some x →
      T.enters x = true → kidsAt (T.loop rounds T.start) i = T.kids x := fun i x hi hx => by
    refine (hs.done i x hi hx).resolve_left fun hmem => ?_
    rw [hqueue] at hmem
    cases hmem
  refine ⟨hs, fun x => ⟨hs.reached, fun hx => ?_⟩, hdone⟩
  induction hx with
  | root => exact List.mem_cons_self
  | kid _ he hc ih =>
    obtain ⟨i, hi⟩ := List.getElem?_of_mem ih
    rw [← hdone i _ hi he] at hc
    obtain ⟨e, hmem, rfl⟩ := List.mem_map.1 hc
    exact List.mem_cons_of_mem _ (List.mem_map.2 ⟨e, (List.mem_filter.1 hmem).1, rfl⟩)

end Breadth

end WslDrive
