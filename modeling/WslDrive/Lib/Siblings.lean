import Mathlib.Data.List.Basic
import Mathlib.Data.List.Nodup
import Mathlib.Logic.Function.Basic

/-!
# Intrusive sibling lists

Every node `p` heads a doubly linked list of its children, threaded through the children
themselves: `first p` and `last p` are its ends, `next c` and `prev c` the neighbours of `c`.
`Siblings.Links` says that the four pointer functions represent the lists `kids p`.

* `Links.update` — one list changes, and no pointer of a node of another list;
* `Links.append` — putting a node at the end of a list;
* `Links.erase` — taking a node out of its list;
* `Links.follow_first` — walking along `next` from `first p` visits `kids p`.

The new pointers are given by what they point to, so the lemmas apply to any code that sets them.
-/

namespace WslDrive

namespace Siblings

variable {ι : Type*} {first last next prev first' last' next' prev' : ι → Option ι}
  {kids : ι → List ι}

/-- The pointers represent the lists `kids`, in which no node occurs twice. -/
structure Links (first last next prev : ι → Option ι) (kids : ι → List ι) : Prop where
  first_eq : ∀ p, first p = (kids p).head?
  last_eq : ∀ p, last p = (kids p).getLast?
  next_eq : ∀ p l c r, kids p = l ++ c :: r → next c = r.head?
  prev_eq : ∀ p l c r, kids p = l ++ c :: r → prev c = l.getLast?
  nodup : ∀ p, (kids p).Nodup
  disjoint : ∀ p q c, c ∈ kids p → c ∈ kids q → p = q

/-- The nodes met along `next` from `start`, at most `fuel` of them. -/
def follow (next : ι → Option ι) : ℕ → Option ι → List ι
  | 0, _ => []
  | _ + 1, none => []
  | fuel + 1, some c => c :: follow next fuel (next c)

theorem Links.follow_eq (h : Links first last next prev kids) {p : ι} {l r : List ι}
    (hk : kids p = l ++ r) {fuel : ℕ} (hf : r.length ≤ fuel) :
    follow next fuel r.head? = r := by
  induction r generalizing l fuel with
  | nil => cases fuel <;> rfl
  | cons c r ih =>
    cases fuel with
    | zero => simp at hf
    | succ fuel =>
      have hn := h.next_eq p l c r hk
      rw [List.head?_cons, follow, hn, ih (l := l ++ [c]) (by simp [hk]) (by simpa using hf)]

/-- **Walking from the first child visits the children.** -/
theorem Links.follow_first (h : Links first last next prev kids) (p : ι) {fuel : ℕ}
    (hf : (kids p).length ≤ fuel) : follow next fuel (first p) = kids p := by
  rw [h.first_eq]
  exact h.follow_eq (l := []) rfl hf

theorem Links.mem_of_last (h : Links first last next prev kids) {p c : ι} (hl : last p = some c) :
    c ∈ kids p := by
  rw [h.last_eq] at hl
  exact List.mem_of_getLast? hl

/-- The pointers `next` and `prev` thread the list `l`. -/
structure Threads (next prev : ι → Option ι) (l : List ι) : Prop where
  next_eq : ∀ l₁ c l₂, l = l₁ ++ c :: l₂ → next c = l₂.head?
  prev_eq : ∀ l₁ c l₂, l = l₁ ++ c :: l₂ → prev c = l₁.getLast?

theorem Links.threads (h : Links first last next prev kids) (p : ι) : Threads next prev (kids p) :=
  ⟨h.next_eq p, h.prev_eq p⟩

section Threads

variable {l L R : List ι} {c : ι}

theorem concat_eq_split {l₁ l₂ : List ι} {x : ι} (hk : l ++ [c] = l₁ ++ x :: l₂) :
    (x = c ∧ l₁ = l ∧ l₂ = []) ∨ ∃ r, l₂ = r ++ [c] ∧ l = l₁ ++ x :: r := by
  obtain rfl | ⟨r, y, rfl⟩ := l₂.eq_nil_or_concat'
  · obtain ⟨h1, h2⟩ := List.append_inj' hk rfl
    exact .inl ⟨(List.cons.inj h2).1.symm, h1.symm, rfl⟩
  · rw [← List.cons_append, ← List.append_assoc] at hk
    obtain ⟨h1, h2⟩ := List.append_inj' hk rfl
    exact .inr ⟨r, by rw [(List.cons.inj h2).1], h1⟩

theorem append_eq_split {l₁ l₂ : List ι} {x : ι} (hk : L ++ R = l₁ ++ x :: l₂) :
    (∃ a, L = l₁ ++ x :: a ∧ l₂ = a ++ R) ∨ ∃ b, l₁ = L ++ b ∧ R = b ++ x :: l₂ := by
  rcases List.append_eq_append_iff.1 hk with ⟨b, hl, hR⟩ | ⟨b, hL, hr⟩
  · exact .inr ⟨b, hl, hR⟩
  · cases b with
    | nil => exact .inr ⟨[], by simpa using hL.symm, by simpa using hr.symm⟩
    | cons y a =>
      obtain ⟨rfl, rfl⟩ := List.cons.inj hr
      exact .inl ⟨a, hL, rfl⟩

theorem getLast?_split_iff {l₁ l₂ : List ι} {x : ι} (hnodup : (l₁ ++ x :: l₂).Nodup) :
    (l₁ ++ x :: l₂).getLast? = some x ↔ l₂ = [] := by
  obtain rfl | ⟨r, y, rfl⟩ := l₂.eq_nil_or_concat'
  · simp
  · have hxy : y ≠ x := by
      rintro rfl
      exact (List.nodup_cons.1 (List.nodup_append.1 hnodup).2.1).1 (by simp)
    rw [← List.cons_append, ← List.append_assoc, List.getLast?_concat]
    simpa using hxy

variable [DecidableEq ι]

theorem Threads.append (h : Threads next prev l) (hnodup : l.Nodup) (hc : c ∉ l)
    (hnext : ∀ x, next' x = if x = c then none else if l.getLast? = some x then some c else next x)
    (hprev : ∀ x, prev' x = if x = c then l.getLast? else prev x) :
    Threads next' prev' (l ++ [c]) := by
  refine ⟨fun l₁ x l₂ hk => ?_, fun l₁ x l₂ hk => ?_⟩
  · rcases concat_eq_split hk with ⟨rfl, -, rfl⟩ | ⟨r, rfl, rfl⟩
    · simp [hnext]
    · have hxc : x ≠ c := by
        rintro rfl
        exact hc (by simp)
      rw [hnext, if_neg hxc, h.next_eq l₁ x r rfl]
      cases r with
      | nil => rw [if_pos ((getLast?_split_iff hnodup).2 rfl), List.nil_append, List.head?_cons]
      | cons y r => rw [if_neg (mt (getLast?_split_iff hnodup).1 (List.cons_ne_nil y r))]; rfl
  · rcases concat_eq_split hk with ⟨rfl, rfl, -⟩ | ⟨r, rfl, rfl⟩
    · rw [hprev, if_pos rfl]
    · have hxc : x ≠ c := by
        rintro rfl
        exact hc (by simp)
      rw [hprev, if_neg hxc, h.prev_eq l₁ x r rfl]

theorem Threads.erase (h : Threads next prev (L ++ c :: R)) (hnodup : (L ++ c :: R).Nodup)
    (hnext : ∀ x, next' x = if x = c then none else if L.getLast? = some x then R.head? else next x)
    (hprev : ∀ x, prev' x =
      if x = c then none else if R.head? = some x then L.getLast? else prev x) :
    Threads next' prev' (L ++ R) := by
  obtain ⟨hL, hcR, hdisj⟩ := List.nodup_append.1 hnodup
  obtain ⟨hc, hR⟩ := List.nodup_cons.1 hcR
  have hne : ∀ x ∈ L ++ R, x ≠ c := by
    rintro x hx rfl
    exact (List.mem_append.1 hx).elim (fun hx => hdisj x hx x List.mem_cons_self rfl) hc
  refine ⟨fun l₁ x l₂ hk => ?_, fun l₁ x l₂ hk => ?_⟩
  · rw [hnext, if_neg (hne x (by rw [hk]; simp))]
    rcases append_eq_split hk with ⟨a, rfl, rfl⟩ | ⟨b, rfl, rfl⟩
    · -- Before the place of `c`: its neighbour there gets a new one.
      rw [h.next_eq l₁ x (a ++ c :: R) (by simp)]
      cases a with
      | nil => rw [if_pos ((getLast?_split_iff hL).2 rfl), List.nil_append]
      | cons y a => rw [if_neg (mt (getLast?_split_iff hL).1 (List.cons_ne_nil y a))]; rfl
    · rw [if_neg, h.next_eq (L ++ c :: b) x l₂ (by simp)]
      exact fun hx => hdisj x (List.mem_of_getLast? hx) x (by simp) rfl
  · rw [hprev, if_neg (hne x (by rw [hk]; simp))]
    rcases append_eq_split hk with ⟨a, rfl, rfl⟩ | ⟨b, rfl, rfl⟩
    · rw [if_neg, h.prev_eq l₁ x (a ++ c :: R) (by simp)]
      exact fun hx => hdisj x (by simp) x (List.mem_cons_of_mem _ (List.mem_of_head? hx)) rfl
    · rw [h.prev_eq (L ++ c :: b) x l₂ (by simp)]
      cases b with
      | nil => simp
      | cons y b =>
        have hxy : y ≠ x := by
          rintro rfl
          exact (List.nodup_cons.1 hR).1 (by simp)
        rw [List.cons_append, List.head?_cons, if_neg (by simpa using hxy)]
        simp [List.getLast?_append, List.getLast?_cons_cons]

/-- **The list of `p` is another one now**, and the others are as they were. -/
theorem Links.update (h : Links first last next prev kids) {p : ι}
    (hfirst : ∀ q, first' q = if q = p then l.head? else first q)
    (hlast : ∀ q, last' q = if q = p then l.getLast? else last q)
    (hkeep : ∀ q, q ≠ p → ∀ x ∈ kids q, next' x = next x ∧ prev' x = prev x)
    (hl : Threads next' prev' l) (hnodup : l.Nodup) (hnew : ∀ x ∈ l, ∀ q, x ∈ kids q → q = p) :
    Links first' last' next' prev' (Function.update kids p l) := by
  have hother : ∀ {q}, q ≠ p → Function.update kids p l q = kids q := fun hq =>
    Function.update_of_ne hq _ _
  refine ⟨fun q => ?_, fun q => ?_, fun q l₁ x l₂ hk => ?_, fun q l₁ x l₂ hk => ?_, fun q => ?_,
    fun q q' x hx hx' => ?_⟩
  · by_cases hq : q = p
    · rw [hfirst, if_pos hq, hq, Function.update_self]
    · rw [hfirst, if_neg hq, hother hq, h.first_eq]
  · by_cases hq : q = p
    · rw [hlast, if_pos hq, hq, Function.update_self]
    · rw [hlast, if_neg hq, hother hq, h.last_eq]
  · by_cases hq : q = p
    · rw [hq, Function.update_self] at hk
      exact hl.next_eq l₁ x l₂ hk
    · rw [hother hq] at hk
      rw [(hkeep q hq x (by rw [hk]; simp)).1, h.next_eq q l₁ x l₂ hk]
  · by_cases hq : q = p
    · rw [hq, Function.update_self] at hk
      exact hl.prev_eq l₁ x l₂ hk
    · rw [hother hq] at hk
      rw [(hkeep q hq x (by rw [hk]; simp)).2, h.prev_eq q l₁ x l₂ hk]
  · by_cases hq : q = p
    · rwa [hq, Function.update_self]
    · rw [hother hq]
      exact h.nodup q
  · by_cases hq : q = p <;> by_cases hq' : q' = p
    · rw [hq, hq']
    · rw [hq, Function.update_self] at hx
      rw [hother hq'] at hx'
      exact absurd (hnew x hx q' hx') hq'
    · rw [hq', Function.update_self] at hx'
      rw [hother hq] at hx
      exact absurd (hnew x hx' q hx) hq
    · rw [hother hq] at hx
      rw [hother hq'] at hx'
      exact h.disjoint q q' x hx hx'

/-- **Putting a new node at the end of the children of `p`.** -/
theorem Links.append (h : Links first last next prev kids) {p c : ι} (hc : ∀ q, c ∉ kids q)
    (hfirst : ∀ q, first' q = if q = p ∧ last p = none then some c else first q)
    (hlast : ∀ q, last' q = if q = p then some c else last q)
    (hnext : ∀ x, next' x = if x = c then none else if last p = some x then some c else next x)
    (hprev : ∀ x, prev' x = if x = c then last p else prev x) :
    Links first' last' next' prev' (Function.update kids p (kids p ++ [c])) := by
  rw [h.last_eq] at hnext hprev
  refine h.update (fun q => ?_) (fun q => ?_) (fun q hq x hx => ?_)
    ((h.threads p).append (h.nodup p) (hc p) hnext hprev) ?_ fun x hx q hq => ?_
  · rw [hfirst, h.last_eq]
    by_cases hq : q = p
    · rw [hq, h.first_eq]
      cases kids p <;> simp
    · simp [hq]
  · rw [hlast, List.getLast?_concat]
  · have hxc : x ≠ c := fun hxc => hc q (hxc ▸ hx)
    rw [hnext, hprev, if_neg hxc, if_neg hxc, if_neg]
    · exact ⟨rfl, rfl⟩
    · exact fun hl => hq (h.disjoint _ _ _ hx (List.mem_of_getLast? hl))
  · exact List.nodup_append.2 ⟨h.nodup p, List.nodup_singleton c, fun x hx y hy hxy =>
      hc p (List.mem_singleton.1 hy ▸ hxy ▸ hx)⟩
  · rcases List.mem_append.1 hx with hx | hx
    · exact h.disjoint q p x hq hx
    · exact absurd (List.mem_singleton.1 hx ▸ hq) (hc q)

theorem Links.erase (h : Links first last next prev kids) {p c : ι} (hc : c ∈ kids p)
    (hfirst : ∀ q, first' q = if q = p ∧ prev c = none then next c else first q)
    (hlast : ∀ q, last' q = if q = p ∧ next c = none then prev c else last q)
    (hnext : ∀ x, next' x = if x = c then none else if prev c = some x then next c else next x)
    (hprev : ∀ x, prev' x = if x = c then none else if next c = some x then prev c else prev x) :
    Links first' last' next' prev' (Function.update kids p ((kids p).erase c)) := by
  obtain ⟨L, R, hLR⟩ := List.append_of_mem hc
  have hnd := h.nodup p
  have hthreads := h.threads p
  rw [hLR] at hnd hthreads
  rw [hthreads.next_eq L c R rfl] at hfirst hlast hnext hprev
  rw [hthreads.prev_eq L c R rfl] at hfirst hlast hnext hprev
  have herase : (kids p).erase c = L ++ R := by
    have hcL : c ∉ L := fun hcL => (List.nodup_append.1 hnd).2.2 c hcL c List.mem_cons_self rfl
    rw [hLR, List.erase_append_right _ hcL, List.erase_cons_head]
  -- What is left, and the neighbours of `c`, are children of `p`.
  have hleft : ∀ x ∈ L ++ R, x ∈ kids p := fun x hx => List.mem_of_mem_erase (herase ▸ hx)
  rw [herase]
  refine h.update (fun q => ?_) (fun q => ?_) (fun q hq x hx => ?_)
    (hthreads.erase hnd hnext hprev) (herase ▸ (h.nodup p).erase c)
    fun x hx q hq => h.disjoint q p x hq (hleft x hx)
  · rw [hfirst]
    by_cases hq : q = p
    · rw [hq, h.first_eq, hLR]
      obtain rfl | ⟨L, a, rfl⟩ := L.eq_nil_or_concat'
      · simp
      · cases L <;> simp
    · simp [hq]
  · rw [hlast]
    by_cases hq : q = p
    · rw [hq, h.last_eq, hLR]
      cases R with
      | nil => simp
      | cons a R => simp [List.getLast?_append, List.getLast?_cons_cons]
    · simp [hq]
  · have hne : ∀ y ∈ kids p, x ≠ y := fun y hy hxy => hq (h.disjoint _ _ _ hx (hxy ▸ hy))
    rw [hnext, hprev, if_neg (hne c hc), if_neg (hne c hc), if_neg, if_neg]
    · exact ⟨rfl, rfl⟩
    · exact fun hR => hne x (hleft x (List.mem_append_right _ (List.mem_of_head? hR))) rfl
    · exact fun hL => hne x (hleft x (List.mem_append_left _ (List.mem_of_getLast? hL))) rfl

end Threads

end Siblings

end WslDrive
