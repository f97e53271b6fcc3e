import Mathlib.Algebra.BigOperators.Group.Finset.Basic
import Mathlib.Data.Finset.Card
import Mathlib.Data.List.Basic
import Mathlib.Data.List.Find

/-!
# First owners and shadowed elements

In a list whose elements carry keys, the first element with a key *owns* it and the later ones
are *shadowed*.  An index that leads from each key to its owner is kept up to date under adding an
element at the end and taking one out; so is the number of shadowed elements.

* `Shadow.owner_append_singleton`, `Shadow.owner_erase_of_ne` — the owner of a key;
* `Shadow.shadows_append_singleton`, `Shadow.shadows_erase` — the number of shadowed elements;
* `Shadow.countP_not_owner` — it is the number of elements that do not own their key.
-/

namespace WslDrive

namespace Shadow

variable {ι κ : Type*} [DecidableEq ι] [DecidableEq κ] {key : ι → κ} {l : List ι} {c : ι} {k : κ}

/-- The owner of a key. -/
def owner (key : ι → κ) (l : List ι) (k : κ) : Option ι := l.find? fun x => key x == k

/-- The number of elements that do not own their key. -/
def shadows (key : ι → κ) (l : List ι) : ℕ := l.length - (l.map key).toFinset.card

omit [DecidableEq ι] in
theorem owner_eq_none_iff : owner key l k = none ↔ ∀ x ∈ l, key x ≠ k := by
  simp [owner]

omit [DecidableEq ι] in
theorem key_of_owner {x : ι} (h : owner key l k = some x) : x ∈ l ∧ key x = k := by
  refine ⟨List.mem_of_find?_eq_some h, by simpa using List.find?_some h⟩

omit [DecidableEq ι] in
theorem owner_append_singleton :
    owner key (l ++ [c]) k = if (owner key l k).isSome then owner key l k
      else if key c = k then some c else none := by
  rw [owner, List.find?_append, ← owner]
  cases owner key l k with
  | some x => simp
  | none =>
    by_cases hc : key c = k
    · simp [hc]
    · simp [hc]

theorem owner_erase_of_ne (hc : owner key l k ≠ some c) :
    owner key (l.erase c) k = owner key l k := by
  induction l with
  | nil => rfl
  | cons a l ih =>
    by_cases hac : a = c
    · subst hac
      have hk : key a ≠ k := fun hk => hc (by simp [owner, hk])
      simp [owner, hk]
    · rw [List.erase_cons_tail (by simpa using hac)]
      by_cases hk : key a = k
      · simp [owner, hk]
      · have hl : ∀ l' : List ι, owner key (a :: l') k = owner key l' k := fun l' => by
          simp [owner, hk]
        rw [hl] at hc
        rw [hl, hl, ih hc]

omit [DecidableEq ι] in
theorem owner_congr {key' : ι → κ} (h : ∀ x ∈ l, key' x = key x) (k : κ) :
    owner key' l k = owner key l k :=
  List.find?_congr fun x hx => by rw [h x hx]

omit [DecidableEq ι] in
theorem shadows_congr {key' : ι → κ} (h : ∀ x ∈ l, key' x = key x) :
    shadows key' l = shadows key l := by
  rw [shadows, shadows, List.map_congr_left h]

omit [DecidableEq ι] in
theorem card_le_length (key : ι → κ) (l : List ι) : (l.map key).toFinset.card ≤ l.length := by
  simpa using List.toFinset_card_le (l.map key)

omit [DecidableEq ι] in
theorem shadows_cons :
    shadows key (c :: l) = shadows key l + if key c ∈ l.map key then 1 else 0 := by
  have h := card_le_length key l
  rw [shadows, shadows, List.map_cons, List.toFinset_cons, List.length_cons]
  split_ifs with hk
  · rw [Finset.insert_eq_self.2 (List.mem_toFinset.2 hk)]
    omega
  · rw [Finset.card_insert_of_notMem (fun hm => hk (List.mem_toFinset.1 hm))]
    omega

omit [DecidableEq ι] in
theorem shadows_perm {l' : List ι} (h : l.Perm l') : shadows key l = shadows key l' := by
  rw [shadows, shadows, h.length_eq, List.toFinset_eq_of_perm _ _ (h.map key)]

omit [DecidableEq ι] in
theorem shadows_append_singleton :
    shadows key (l ++ [c]) = shadows key l + if (owner key l (key c)).isSome then 1 else 0 := by
  rw [shadows_perm (List.perm_append_singleton c l), shadows_cons]
  congr 1
  cases ho : owner key l (key c) with
  | some x =>
    obtain ⟨hx, hk⟩ := key_of_owner ho
    rw [if_pos (List.mem_map.2 ⟨x, hx, hk⟩)]
    rfl
  | none =>
    have := owner_eq_none_iff.1 ho
    rw [if_neg (by simpa using this)]
    rfl

theorem shadows_erase (key : ι → κ) (hc : c ∈ l) :
    shadows key l = shadows key (l.erase c) +
      if (owner key (l.erase c) (key c)).isSome then 1 else 0 := by
  rw [shadows_perm (List.perm_cons_erase hc), shadows_cons]
  congr 1
  cases ho : owner key (l.erase c) (key c) with
  | some x =>
    obtain ⟨hx, hk⟩ := key_of_owner ho
    rw [if_pos (List.mem_map.2 ⟨x, hx, hk⟩)]
    rfl
  | none =>
    have := owner_eq_none_iff.1 ho
    rw [if_neg (by simpa using this)]
    rfl

/-- **The shadowed elements are those that do not own their key.** -/
theorem countP_not_owner (hn : l.Nodup) :
    l.countP (fun x => owner key l (key x) ≠ some x) = shadows key l := by
  induction l using List.reverseRecOn with
  | nil => rfl
  | append_singleton l c ih =>
    rw [List.nodup_append] at hn
    have hcl : c ∉ l := fun h => hn.2.2 c h c (by simp) rfl
    rw [shadows_append_singleton, ← ih hn.1, List.countP_append]
    congr 1
    · refine List.countP_congr fun x hx => ?_
      -- An element of `l` has its owner in `l`.
      have hsome : (owner key l (key x)).isSome := by
        rw [Option.isSome_iff_ne_none, ne_eq, owner_eq_none_iff]
        exact fun h => h x hx rfl
      simp [owner_append_singleton, hsome]
    · rw [List.countP_singleton, owner_append_singleton]
      cases ho : owner key l (key c) with
      | some x =>
        have hxc : x ≠ c := fun h => hcl (h ▸ (key_of_owner ho).1)
        simp [hxc]
      | none => simp

theorem sum_update {β : Type*} {s : Finset ι} (g : β → ℕ) (f : ι → β) {p : ι} (hp : p ∈ s) (v : β) :
    ∑ q ∈ s, g (Function.update f p v q) + g (f p) = ∑ q ∈ s, g (f q) + g v := by
  have hold := Finset.sum_erase_add s (fun q => g (f q)) hp
  have hnew := Finset.sum_erase_add s (fun q => g (Function.update f p v q)) hp
  have hrest : ∑ q ∈ s.erase p, g (Function.update f p v q) = ∑ q ∈ s.erase p, g (f q) :=
    Finset.sum_congr rfl fun q hq => by rw [Function.update_of_ne (Finset.ne_of_mem_erase hq)]
  rw [hrest, Function.update_self] at hnew
  omega

end Shadow

end WslDrive
