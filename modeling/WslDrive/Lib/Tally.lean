import Mathlib.Data.Set.Card

/-!
# Counting what several lists hold

Some sources each have a list of elements without repetition, and the lists are put one behind the
other.  An element that two sources have is then counted twice.

* `ncard_pairs` — the length of the whole is the number of elements with their sources;
* `nodup_filter_flatMap_iff` — the elements that are kept occur once each if and only if none of
  them has two sources.
-/

namespace WslDrive

namespace Tally

variable {α β : Type*} {s : Set β} {l : List β}

theorem ncard_eq_length (hl : l.Nodup) (hmem : ∀ b, b ∈ l ↔ b ∈ s) : s.ncard = l.length := by
  classical
  have hs : s = (l.toFinset : Set β) := by
    ext b
    simp [hmem]
  rw [hs, Set.ncard_coe_finset, List.toFinset_card_of_nodup hl]

theorem ncard_le_length (hmem : ∀ b ∈ s, b ∈ l) : s.ncard ≤ l.length := by
  classical
  have hsub : s ⊆ (l.toFinset : Set β) := fun b hb => by
    rw [List.coe_toFinset]
    exact hmem b hb
  refine (Set.ncard_le_ncard hsub (Finset.finite_toSet _)).trans ?_
  rw [Set.ncard_coe_finset]
  exact l.toFinset_card_le

variable {sources : List α} {f : α → List β} (hsources : sources.Nodup)
  (hf : ∀ a ∈ sources, (f a).Nodup)
include hsources hf

theorem ncard_pairs :
    {e : α × β | e.1 ∈ sources ∧ e.2 ∈ f e.1}.ncard = (sources.flatMap f).length := by
  have hnodup : (sources.flatMap fun a => (f a).map (Prod.mk a)).Nodup := by
    refine List.nodup_flatMap.2 ⟨fun a ha => (hf a ha).map (Prod.mk_right_injective a), ?_⟩
    refine hsources.pairwise_of_forall_ne fun a _ a' _ hne => ?_
    refine List.disjoint_left.2 fun e he he' => ?_
    obtain ⟨b, -, rfl⟩ := List.mem_map.1 he
    obtain ⟨b', -, heq⟩ := List.mem_map.1 he'
    exact hne (Prod.mk.inj heq).1.symm
  rw [ncard_eq_length hnodup]
  · simp [List.length_flatMap]
  · rintro ⟨a, b⟩
    simp

theorem nodup_filter_flatMap_iff (keep : β → Bool) :
    ((sources.flatMap f).filter keep).Nodup ↔ ∀ a ∈ sources, ∀ a' ∈ sources, ∀ b, b ∈ f a →
      b ∈ f a' → keep b = true → a = a' := by
  rw [List.filter_flatMap, List.nodup_flatMap]
  constructor
  · rintro ⟨-, hdisj⟩ a ha a' ha' b hb hb' hkeep
    by_contra hne
    have hsymm : Std.Symm (Function.onFun List.Disjoint fun a => (f a).filter keep) :=
      ⟨fun _ _ h => List.Disjoint.symm h⟩
    have hnone := hdisj.forall ha ha' hne
    exact List.disjoint_left.1 hnone (List.mem_filter.2 ⟨hb, hkeep⟩)
      (List.mem_filter.2 ⟨hb', hkeep⟩)
  · intro h
    refine ⟨fun a ha => (hf a ha).filter keep, hsources.pairwise_of_forall_ne ?_⟩
    intro a ha a' ha' hne
    refine List.disjoint_left.2 fun b hb hb' => hne ?_
    rw [List.mem_filter] at hb hb'
    exact h a ha a' ha' b hb.1 hb'.1 hb.2

end Tally

end WslDrive
