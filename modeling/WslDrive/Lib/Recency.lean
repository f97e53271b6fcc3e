import Mathlib.Data.List.Nodup
import Mathlib.Algebra.BigOperators.Group.List.Basic
import Mathlib.Algebra.Ring.Nat

/-!
# Recency lists

A list of keys, the most recently used one first, from which keys are dropped at the end while the
keys together are over a budget.

* `Latest` — a list that is sorted by the latest use of its keys, with the rules for using a key and
  for dropping keys;
* `Sheds` — what is left of a list when keys are dropped at its end.
-/

namespace WslDrive

namespace Recency

variable {κ : Type*}

section Order

variable [DecidableEq κ] {uses l l' : List κ}

/-- The keys `l` have been used, and are sorted by their latest use; `uses` are all uses, the latest
one first. -/
structure Latest (uses l : List κ) : Prop where
  mem : ∀ k ∈ l, k ∈ uses
  sorted : l.Pairwise fun a b => uses.idxOf a < uses.idxOf b

theorem Latest.nil : Latest uses [] := ⟨List.forall_mem_nil _, .nil⟩

theorem Latest.sublist (h : Latest uses l) (hl : l'.Sublist l) : Latest uses l' :=
  ⟨fun k hk => h.mem k (hl.subset hk), h.sorted.sublist hl⟩

theorem Latest.touch (h : Latest uses l) (k : κ) :
    Latest (k :: uses) (k :: l.filter (· ≠ k)) where
  mem a ha := by
    rcases List.mem_cons.1 ha with rfl | ha
    · exact List.mem_cons_self
    · exact List.mem_cons_of_mem k (h.mem a (List.mem_filter.1 ha).1)
  sorted := by
    have hidx : ∀ a, a ≠ k → (k :: uses).idxOf a = uses.idxOf a + 1 := fun a ha =>
      List.idxOf_cons_ne uses (Ne.symm ha)
    refine List.pairwise_cons.2 ⟨fun a ha => ?_, ?_⟩
    · rw [List.idxOf_cons_self, hidx a (by simpa using (List.mem_filter.1 ha).2)]
      exact Nat.succ_pos _
    · refine (h.sorted.filter _).imp_of_mem fun ha hb hab => ?_
      rw [hidx _ (by simpa using (List.mem_filter.1 ha).2),
        hidx _ (by simpa using (List.mem_filter.1 hb).2)]
      exact Nat.succ_lt_succ hab

theorem sum_filter_ne (hl : l.Nodup) {k : κ} (hk : k ∈ l) (weight : κ → ℕ) :
    weight k + ((l.filter (· ≠ k)).map weight).sum = (l.map weight).sum := by
  rw [← List.sum_map_erase weight hk, hl.erase_eq_filter]
  simp only [ne_eq, decide_not]
  rfl

theorem filter_eq_singleton (hl : l.Nodup) {k : κ} (hk : k ∈ l) : l.filter (· = k) = [k] := by
  rw [List.filter_eq, List.count_eq_one_of_mem hl hk]
  rfl

theorem filter_ne_getLast (hl : l.Nodup) {k : κ} (hk : l.getLast? = some k) :
    l.filter (· ≠ k) = l.dropLast := by
  obtain ⟨l, rfl⟩ := List.getLast?_eq_some_iff.1 hk
  have hnot : k ∉ l := fun hmem => (List.nodup_append.1 hl).2.2 k hmem k List.mem_cons_self rfl
  rw [List.filter_append, List.dropLast_concat, List.filter_eq_self.2]
  · simp
  · intro a ha
    have hne : a ≠ k := fun heq => hnot (heq ▸ ha)
    simp [hne]

end Order

/-- `l'` is what is left of `l` when its last keys are dropped, one by one, while the weights of the
keys are over the budget and there is more than one key. -/
structure Sheds (weight : κ → ℕ) (cap : ℕ) (l l' : List κ) : Prop where
  front : l' <+: l
  fits : (l'.map weight).sum ≤ cap ∨ l'.length ≤ 1
  nonempty : l ≠ [] → l' ≠ []
  /-- Nothing is dropped without need. -/
  least : ∀ m, m <+: l → l'.length < m.length → cap < (m.map weight).sum

variable {weight : κ → ℕ} {cap : ℕ} {l l' : List κ}

theorem Sheds.refl (h : (l.map weight).sum ≤ cap ∨ l.length ≤ 1) : Sheds weight cap l l where
  front := List.prefix_refl l
  fits := h
  nonempty := id
  least _ hm hlt := absurd hm.length_le (Nat.not_le_of_lt hlt)

theorem Sheds.congr {weight' : κ → ℕ} (h : Sheds weight cap l l')
    (hw : ∀ k ∈ l, weight' k = weight k) : Sheds weight' cap l l' where
  front := h.front
  fits := by rw [List.map_congr_left fun k hk => hw k (h.front.subset hk)]; exact h.fits
  nonempty := h.nonempty
  least m hm hlt := by
    rw [List.map_congr_left fun k hk => hw k (hm.subset hk)]
    exact h.least m hm hlt

theorem Sheds.dropLast (hover : cap < (l.map weight).sum) (hlen : 1 < l.length)
    (h : Sheds weight cap l.dropLast l') : Sheds weight cap l l' where
  front := h.front.trans (List.dropLast_prefix l)
  fits := h.fits
  nonempty _ := h.nonempty fun hnil => by
    have := congrArg List.length hnil
    rw [List.length_dropLast, List.length_nil] at this
    omega
  least m hm hlt := by
    by_cases hfull : m.length = l.length
    · rwa [hm.eq_of_length hfull]
    · have hle := hm.length_le
      refine h.least m (List.prefix_of_prefix_length_le hm (List.dropLast_prefix l) ?_) hlt
      rw [List.length_dropLast]
      omega

end Recency

end WslDrive
