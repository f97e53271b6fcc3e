import Mathlib.Data.List.Perm.Basic
import Mathlib.Logic.Function.Basic

/-!
# Matching openings with closings

Elements of a list open or close a key, or do neither.  Going through the list from left to right,
an opening waits for the next closing of its key; while one waits, other openings of the key do
not.  Every element ends up in one *group*, alone or with its partner.

* `Pairing.inv_run` — the groups hold every element once, in the order of their first elements,
  and a partner is a later closing of the same key;
* `Pairing.le_pairCount_iff` — no other such matching forms more pairs: there are `n` pairs of a
  key exactly if openings and closings of the key alternate `n` times.
-/

namespace WslDrive

namespace Pairing

/-- What an element does to a key. -/
inductive Role (κ : Type*) where
  | opens (k : κ)
  | closes (k : κ)
  | single

variable {α κ : Type*}

/-- An element and its partner. -/
abbrev Group (α : Type*) := α × Option α

/-- The groups made so far, and where the group is that waits for a closing of a key. -/
structure State (α κ : Type*) where
  groups : List (Group α) := []
  slot : κ → Option ℕ := fun _ => none

/-- The elements of the groups. -/
def members (groups : List (Group α)) : List α := groups.flatMap fun g => g.1 :: g.2.toList

/-- A group of its own. -/
def State.alone (s : State α κ) (a : α) : State α κ where
  groups := s.groups ++ [(a, none)]
  slot := s.slot

section Step

variable [DecidableEq κ] (role : α → Role κ)

/-- A group that waits for a closing. -/
def State.wait (s : State α κ) (k : κ) (a : α) : State α κ where
  groups := s.groups ++ [(a, none)]
  slot := Function.update s.slot k (some s.groups.length)

/-- A partner for the group at `i`. -/
def State.pair (s : State α κ) (k : κ) (i : ℕ) (a : α) : State α κ where
  groups := s.groups.modify i fun g => (g.1, some a)
  slot := Function.update s.slot k none

/-- One element. -/
def step (s : State α κ) (a : α) : State α κ :=
  match role a with
  | .single => s.alone a
  | .opens k =>
    match s.slot k with
    | some _ => s.alone a
    | none => s.wait k a
  | .closes k =>
    match s.slot k with
    | none => s.alone a
    | some i => s.pair k i a

/-- All items, one after the other. -/
def run (l : List α) : State α κ := l.foldl (step role) {}

/-- The pairs of a key. -/
def pairCount (k : κ) (groups : List (Group α)) : ℕ :=
  groups.countP fun g => g.2.isSome && match role g.1 with
    | .opens k' => k' = k
    | _ => false

/-- Opening (`true`) and closing (`false`) of one key. -/
def half (k : κ) (a : α) : Option Bool :=
  match role a with
  | .opens k' => if k' = k then some true else none
  | .closes k' => if k' = k then some false else none
  | .single => none

end Step

/-- Openings and closings in turn. -/
def alternate : ℕ → List Bool
  | 0 => []
  | n + 1 => alternate n ++ [n % 2 == 0]

theorem alternate_two_mul (n : ℕ) :
    alternate (2 * n) = (List.replicate n [true, false]).flatten := by
  induction n with
  | zero => rfl
  | succ n ih =>
    rw [Nat.mul_succ, alternate, alternate, ih, List.replicate_succ', List.flatten_concat]
    have h0 : (2 * n % 2 == 0) = true := by simp
    have h1 : ((2 * n + 1) % 2 == 0) = false := by simp
    rw [h0, h1, List.append_assoc]
    rfl

theorem concat_sublist_concat_iff {β : Type*} {w l : List β} {x y : β} :
    (w ++ [y]).Sublist (l ++ [x]) ↔ (w ++ [y]).Sublist l ∨ y = x ∧ w.Sublist l := by
  have hrev : ∀ l : List β, (w ++ [y]).Sublist l ↔ (y :: w.reverse).Sublist l.reverse := by
    intro l
    rw [← List.reverse_sublist, List.reverse_append]
    rfl
  rw [hrev, hrev, List.reverse_append]
  simp only [List.reverse_cons, List.reverse_nil, List.nil_append, List.cons_append,
    List.sublist_cons_iff, List.cons.injEq]
  refine or_congr Iff.rfl ⟨?_, ?_⟩
  · rintro ⟨r, ⟨rfl, rfl⟩, hr⟩
    exact ⟨rfl, List.reverse_sublist.1 hr⟩
  · rintro ⟨rfl, hw⟩
    exact ⟨_, ⟨rfl, rfl⟩, List.reverse_sublist.2 hw⟩

theorem alternate_sublist_concat {l : List Bool} {m : ℕ}
    (h : ∀ j, (alternate j).Sublist l ↔ j ≤ m) (x : Bool) (j : ℕ) :
    (alternate j).Sublist (l ++ [x]) ↔ j ≤ if (m % 2 == 0) = x then m + 1 else m := by
  cases j with
  | zero => simp [alternate]
  | succ j =>
    have hj := h (j + 1)
    rw [alternate] at hj ⊢
    rw [concat_sublist_concat_iff, hj, h j]
    by_cases hjm : j = m
    · subst hjm
      split_ifs with hx <;> simp [hx]
    · split_ifs <;> omega

section Inv

variable (role : α → Role κ)

/-- What the groups of a list are like. -/
structure Inv (l : List α) (s : State α κ) : Prop where
  /-- Every element is in one group. -/
  perm : (members s.groups).Perm l
  /-- The groups are in the order of their first elements. -/
  firsts : (s.groups.map Prod.fst).Sublist l
  slot : ∀ k i, s.slot k = some i → ∃ a, s.groups[i]? = some (a, none) ∧ role a = .opens k
  pairs : ∀ g ∈ s.groups, ∀ b ∈ g.2, ∃ k, role g.1 = .opens k ∧ role b = .closes k ∧
    [g.1, b].Sublist l

/-- How often openings and closings of a key alternate. -/
def Longest [DecidableEq κ] (l : List α) (s : State α κ) : Prop := ∀ k j,
  (alternate j).Sublist (l.filterMap (half role k)) ↔
    j ≤ 2 * pairCount role k s.groups + if (s.slot k).isSome then 1 else 0

variable {role} {l : List α} {s : State α κ} {a : α} {k : κ} {i : ℕ}

theorem members_append (gs gs' : List (Group α)) :
    members (gs ++ gs') = members gs ++ members gs' := List.flatMap_append

theorem Inv.alone (h : Inv role l s) (a : α) : Inv role (l ++ [a]) (s.alone a) where
  perm := by
    rw [State.alone, members_append]
    exact h.perm.append_right [a]
  firsts := by
    rw [State.alone, List.map_append]
    exact h.firsts.append (List.Sublist.refl [a])
  slot k i hi := by
    obtain ⟨b, hb, hrole⟩ := h.slot k i hi
    have hlt := (List.getElem?_eq_some_iff.1 hb).1
    exact ⟨b, by rw [State.alone, List.getElem?_append_left hlt, hb], hrole⟩
  pairs g hg b hb := by
    rcases List.mem_append.1 hg with hg | hg
    · obtain ⟨k, h1, h2, hsub⟩ := h.pairs g hg b hb
      exact ⟨k, h1, h2, hsub.trans (List.sublist_append_left _ _)⟩
    · rw [List.mem_singleton.1 hg] at hb
      cases hb

theorem Inv.wait [DecidableEq κ] (h : Inv role l s) (ha : role a = .opens k) :
    Inv role (l ++ [a]) (s.wait k a) := by
  have h' := h.alone a
  refine ⟨h'.perm, h'.firsts, fun k' i hi => ?_, h'.pairs⟩
  dsimp only [State.wait] at hi
  by_cases hk : k' = k
  · subst hk
    rw [Function.update_self, Option.some.injEq] at hi
    subst hi
    exact ⟨a, by simp [State.wait], ha⟩
  · rw [Function.update_of_ne hk] at hi
    exact h'.slot k' i hi

theorem modify_append_cons {β : Type*} (pre post : List β) (x : β) (f : β → β) :
    (pre ++ x :: post).modify pre.length f = pre ++ f x :: post := by
  induction pre with
  | nil => rfl
  | cons y pre ih => rw [List.cons_append, List.length_cons, List.modify_succ_cons, ih]; rfl

theorem Inv.exists_split (h : Inv role l s) (hi : s.slot k = some i) :
    ∃ pre post b, s.groups = pre ++ (b, none) :: post ∧ pre.length = i ∧ role b = .opens k := by
  obtain ⟨b, hb, hrole⟩ := h.slot k i hi
  obtain ⟨hlt, hget⟩ := List.getElem?_eq_some_iff.1 hb
  refine ⟨s.groups.take i, s.groups.drop (i + 1), b, ?_, ?_, hrole⟩
  · rw [← hget, ← List.drop_eq_getElem_cons hlt, List.take_append_drop]
  · rw [List.length_take, Nat.min_eq_left (Nat.le_of_lt hlt)]

theorem Inv.pair [DecidableEq κ] (h : Inv role l s) (ha : role a = .closes k)
    (hi : s.slot k = some i) : Inv role (l ++ [a]) (s.pair k i a) := by
  obtain ⟨pre, post, b, hgs, hlen, hb⟩ := h.exists_split hi
  have hmod : (s.groups.modify i fun g => (g.1, some a)) = pre ++ (b, some a) :: post := by
    rw [hgs, ← hlen, modify_append_cons]
  refine ⟨?_, ?_, fun k' j hj => ?_, fun g hg c hc => ?_⟩ <;>
    simp only [State.pair] at *
  · have hp : (members (pre ++ (b, none) :: post) ++ [a]).Perm (l ++ [a]) :=
      hgs ▸ h.perm.append_right [a]
    rw [hmod]
    refine List.Perm.trans ?_ hp
    simp only [members, List.flatMap_append, List.flatMap_cons, Option.toList, List.append_assoc,
      List.cons_append, List.nil_append]
    refine (List.Perm.refl _).append (List.Perm.cons b ?_)
    exact (List.perm_append_singleton a _).symm
  · have hf := h.firsts
    rw [hgs] at hf
    rw [hmod]
    simp only [List.map_append, List.map_cons] at hf ⊢
    exact hf.trans (List.sublist_append_left _ _)
  · by_cases hk : k' = k
    · rw [hk, Function.update_self] at hj
      cases hj
    rw [Function.update_of_ne hk] at hj
    obtain ⟨c, hc, hrole⟩ := h.slot k' j hj
    refine ⟨c, ?_, hrole⟩
    -- Another key waits in another group.
    have hne : i ≠ j := by
      rintro rfl
      rw [hgs, List.getElem?_append_right (Nat.le_of_eq hlen), hlen, Nat.sub_self] at hc
      cases hc
      exact hk (Role.opens.inj (hrole.symm.trans hb))
    rw [List.getElem?_modify, hc]
    simp [hne]
  · rw [hmod] at hg
    have hmem : b ∈ l := h.perm.mem_iff.1 (by rw [hgs]; simp [members])
    have hold : g ∈ s.groups → ∃ k, role g.1 = .opens k ∧ role c = .closes k ∧
        [g.1, c].Sublist (l ++ [a]) := fun hg => by
      obtain ⟨k, h1, h2, hsub⟩ := h.pairs g hg c hc
      exact ⟨k, h1, h2, hsub.trans (List.sublist_append_left _ _)⟩
    rcases List.mem_append.1 hg with hg | hg
    · exact hold (hgs ▸ List.mem_append_left _ hg)
    rcases List.mem_cons.1 hg with rfl | hg
    · cases hc
      exact ⟨k, hb, ha, (List.singleton_sublist.2 hmem).append (List.Sublist.refl [a])⟩
    · exact hold (hgs ▸ List.mem_append_right _ (List.mem_cons_of_mem _ hg))

section Steps

variable [DecidableEq κ]

theorem step_single (ha : role a = .single) : step role s a = s.alone a := by
  rw [step, ha]

theorem step_opens_wait (ha : role a = .opens k) (hs : s.slot k = none) :
    step role s a = s.wait k a := by
  simp only [step, ha, hs]

theorem step_opens_alone (ha : role a = .opens k) (hs : s.slot k = some i) :
    step role s a = s.alone a := by
  simp only [step, ha, hs]

theorem step_closes_pair (ha : role a = .closes k) (hs : s.slot k = some i) :
    step role s a = s.pair k i a := by
  simp only [step, ha, hs]

theorem step_closes_alone (ha : role a = .closes k) (hs : s.slot k = none) :
    step role s a = s.alone a := by
  simp only [step, ha, hs]

theorem inv_step (h : Inv role l s) (a : α) : Inv role (l ++ [a]) (step role s a) := by
  cases ha : role a with
  | single => exact step_single (s := s) ha ▸ h.alone a
  | opens k =>
    cases hs : s.slot k with
    | some i => exact step_opens_alone ha hs ▸ h.alone a
    | none => exact step_opens_wait ha hs ▸ h.wait ha
  | closes k =>
    cases hs : s.slot k with
    | some i => exact step_closes_pair ha hs ▸ h.pair ha hs
    | none => exact step_closes_alone ha hs ▸ h.alone a

end Steps

/-! ### How many pairs there are -/

section Count

variable [DecidableEq κ]

theorem pairCount_concat (k : κ) (gs : List (Group α)) (a : α) :
    pairCount role k (gs ++ [(a, none)]) = pairCount role k gs := by
  simp [pairCount]

theorem Inv.pairCount_pair (h : Inv role l s) (hi : s.slot k = some i) (a : α) (k' : κ) :
    pairCount role k' (s.pair k i a).groups =
      pairCount role k' s.groups + if k' = k then 1 else 0 := by
  obtain ⟨pre, post, b, hgs, rfl, hb⟩ := h.exists_split hi
  rw [State.pair, hgs, modify_append_cons]
  simp only [pairCount, List.countP_append, List.countP_cons, hb, Option.isSome_some,
    Option.isSome_none, Bool.true_and, Bool.false_and, Bool.false_eq_true, if_false,
    decide_eq_true_eq, eq_comm (a := k'), Nat.add_zero, Nat.add_assoc]

theorem Longest.skip (h : Longest role l s) {s' : State α κ}
    (hs' : ∀ k, half role k a = none → pairCount role k s'.groups = pairCount role k s.groups ∧
      s'.slot k = s.slot k)
    (hkey : ∀ k x, half role k a = some x → ∀ j,
      (alternate j).Sublist (l.filterMap (half role k) ++ [x]) ↔
        j ≤ 2 * pairCount role k s'.groups + if (s'.slot k).isSome then 1 else 0) :
    Longest role (l ++ [a]) s' := by
  intro k j
  rw [List.filterMap_append]
  cases hx : half role k a with
  | none =>
    obtain ⟨hcount, hslot⟩ := hs' k hx
    rw [hcount, hslot, ← h k j]
    simp [hx]
  | some x =>
    rw [← hkey k x hx j]
    simp [hx]

theorem half_opens (ha : role a = .opens k) (k' : κ) :
    half role k' a = if k = k' then some true else none := by
  rw [half, ha]

theorem half_closes (ha : role a = .closes k) (k' : κ) :
    half role k' a = if k = k' then some false else none := by
  rw [half, ha]

theorem longest_step (hinv : Inv role l s) (h : Longest role l s) (a : α) :
    Longest role (l ++ [a]) (step role s a) := by
  -- What the next half of each key does to the longest alternation.
  have hnext := fun k x => alternate_sublist_concat (h k) x
  have hcount : ∀ k, pairCount role k (s.groups ++ [(a, none)]) = pairCount role k s.groups :=
    fun k => pairCount_concat k s.groups a
  cases ha : role a with
  | single =>
    rw [step_single ha]
    refine h.skip (fun k _ => ⟨hcount k, rfl⟩) fun k x hx => ?_
    rw [half, ha] at hx
    cases hx
  | opens k =>
    have hhalf : ∀ {k' x}, half role k' a = some x → k = k' ∧ x = true := fun hx => by
      rw [half_opens ha] at hx
      split_ifs at hx with hk
      exact ⟨hk, (Option.some.inj hx).symm⟩
    cases hs : s.slot k with
    | some i =>
      rw [step_opens_alone ha hs]
      refine h.skip (fun k _ => ⟨hcount k, rfl⟩) fun k' x hx j => ?_
      obtain ⟨rfl, rfl⟩ := hhalf hx
      rw [hnext, State.alone, hcount, hs]
      simp [Nat.add_mod]
    | none =>
      rw [step_opens_wait ha hs]
      refine h.skip (fun k' hx => ⟨hcount k', ?_⟩) fun k' x hx j => ?_
      · rw [half_opens ha] at hx
        split_ifs at hx with hk
        exact Function.update_of_ne (Ne.symm hk) _ _
      · obtain ⟨rfl, rfl⟩ := hhalf hx
        rw [hnext, State.wait, hcount, hs]
        simp
  | closes k =>
    have hhalf : ∀ {k' x}, half role k' a = some x → k = k' ∧ x = false := fun hx => by
      rw [half_closes ha] at hx
      split_ifs at hx with hk
      exact ⟨hk, (Option.some.inj hx).symm⟩
    cases hs : s.slot k with
    | none =>
      rw [step_closes_alone ha hs]
      refine h.skip (fun k _ => ⟨hcount k, rfl⟩) fun k' x hx j => ?_
      obtain ⟨rfl, rfl⟩ := hhalf hx
      rw [hnext, State.alone, hcount, hs]
      simp
    | some i =>
      rw [step_closes_pair ha hs]
      refine h.skip (fun k' hx => ?_) fun k' x hx j => ?_
      · rw [half_closes ha] at hx
        split_ifs at hx with hk
        rw [hinv.pairCount_pair hs, if_neg (Ne.symm hk)]
        exact ⟨rfl, Function.update_of_ne (Ne.symm hk) _ _⟩
      · obtain ⟨rfl, rfl⟩ := hhalf hx
        rw [hnext, hinv.pairCount_pair hs, if_pos rfl, State.pair, hs]
        simp [Nat.add_mod, Nat.mul_add]

theorem inv_run (role : α → Role κ) (l : List α) :
    Inv role l (run role l) ∧ Longest role l (run role l) := by
  suffices ∀ l' l s, Inv role l s → Longest role l s →
      Inv role (l ++ l') (l'.foldl (step role) s) ∧
        Longest role (l ++ l') (l'.foldl (step role) s) by
    refine this l [] {} ⟨.refl _, .refl _, fun _ _ hi => ?_, fun _ hg => ?_⟩ fun k j => ?_
    · cases hi
    · cases hg
    · cases j <;> simp [alternate, pairCount]
  intro l'
  induction l' with
  | nil =>
    intro l s hinv hlong
    rw [List.append_nil]
    exact ⟨hinv, hlong⟩
  | cons a l' ih =>
    intro l s hinv hlong
    rw [← List.singleton_append, ← List.append_assoc]
    exact ih (l ++ [a]) _ (inv_step hinv a) (longest_step hinv hlong a)

/-- **No other matching forms more pairs** of a key, one waiting at a time. -/
theorem le_pairCount_iff (role : α → Role κ) (l : List α) (k : κ) (n : ℕ) :
    n ≤ pairCount role k (run role l).groups ↔
      (List.replicate n [true, false]).flatten.Sublist (l.filterMap (half role k)) := by
  rw [← alternate_two_mul, (inv_run role l).2 k (2 * n)]
  split_ifs <;> omega

end Count

end Inv

end Pairing

end WslDrive
