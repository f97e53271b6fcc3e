import Mathlib.Data.List.Induction
import Mathlib.Tactic.Tauto

/-!
# Since

`Since l P Q`: somewhere in `l` there is an `x` with `P x`, and `Q` holds of everything after it.
For a list of events this is the temporal *since*, seen from its end.

* `since_concat`, `since_append` — one more event, several more events;
* `getLast?_filter` — the last event of a kind.
-/

namespace WslDrive

variable {α β : Type*} {P P' Q Q' : α → Prop} {l l' : List α} {x : α}

/-- Some element of the list satisfies `P`, and all behind it satisfy `Q`. -/
def Since (l : List α) (P Q : α → Prop) : Prop :=
  ∃ before x after, l = before ++ x :: after ∧ P x ∧ ∀ y ∈ after, Q y

theorem not_since_nil : ¬ Since [] P Q := by
  rintro ⟨before, x, after, h, -⟩
  exact List.append_ne_nil_of_right_ne_nil before (List.cons_ne_nil x after) h.symm

theorem since_concat : Since (l ++ [x]) P Q ↔ P x ∨ Q x ∧ Since l P Q := by
  constructor
  · rintro ⟨before, y, after, h, hP, hQ⟩
    rcases List.eq_nil_or_concat after with rfl | ⟨after, z, rfl⟩
    · obtain ⟨-, hx⟩ := List.append_inj' h rfl
      rw [(List.cons.inj hx).1]
      exact .inl hP
    · rw [List.concat_eq_append] at h hQ
      rw [← List.cons_append, ← List.append_assoc] at h
      obtain ⟨rfl, hx⟩ := List.append_inj' h rfl
      rw [(List.cons.inj hx).1]
      exact .inr ⟨hQ z (by simp), before, y, after, rfl, hP, fun w hw =>
        hQ w (List.mem_append_left _ hw)⟩
  · rintro (hP | ⟨hQ, before, y, after, rfl, hP, hafter⟩)
    · exact ⟨l, x, [], rfl, hP, fun y hy => absurd hy List.not_mem_nil⟩
    · refine ⟨before, y, after ++ [x], by simp, hP, fun z hz => ?_⟩
      rcases List.mem_append.1 hz with hz | hz
      · exact hafter z hz
      · rw [List.mem_singleton.1 hz]
        exact hQ

theorem since_singleton : Since [x] P Q ↔ P x := by
  rw [← List.nil_append [x], since_concat]
  exact or_iff_left fun h => not_since_nil h.2

theorem since_append : Since (l ++ l') P Q ↔ Since l' P Q ∨ (∀ y ∈ l', Q y) ∧ Since l P Q := by
  induction l' using List.reverseRecOn with
  | nil => simp [not_since_nil]
  | append_singleton l' x ih =>
    rw [← List.append_assoc, since_concat, since_concat, ih]
    simp only [List.mem_append, List.mem_singleton, or_imp, forall_and, forall_eq]
    tauto

theorem Since.mono (h : Since l P Q) (hP : ∀ x ∈ l, P x → P' x) (hQ : ∀ x ∈ l, Q x → Q' x) :
    Since l P' Q' := by
  obtain ⟨before, x, after, rfl, hx, hafter⟩ := h
  exact ⟨before, x, after, rfl, hP x (by simp) hx, fun y hy => hQ y (by simp [hy]) (hafter y hy)⟩

theorem Since.exists_mem (h : Since l P Q) : ∃ x ∈ l, P x := by
  obtain ⟨before, x, after, rfl, hx, -⟩ := h
  exact ⟨x, by simp, hx⟩

theorem Since.of_forall (hP : ∃ x ∈ l, P x) (hQ : ∀ x ∈ l, Q x) : Since l P Q := by
  obtain ⟨x, hx, hP⟩ := hP
  obtain ⟨before, after, rfl⟩ := List.append_of_mem hx
  exact ⟨before, x, after, rfl, hP, fun y hy => hQ y (by simp [hy])⟩

theorem since_map {f : α → β} {P Q : β → Prop} :
    Since (l.map f) P Q ↔ Since l (fun x => P (f x)) fun x => Q (f x) := by
  induction l using List.reverseRecOn with
  | nil => exact iff_of_false not_since_nil not_since_nil
  | append_singleton l x ih =>
    rw [List.map_append, List.map_singleton, since_concat, since_concat, ih]

theorem since_filter {p : α → Bool} :
    Since (l.filter p) P Q ↔ Since l (fun x => p x = true ∧ P x) fun x => p x = true → Q x := by
  induction l using List.reverseRecOn with
  | nil => exact iff_of_false not_since_nil not_since_nil
  | append_singleton l x ih =>
    rw [List.filter_append, since_concat]
    cases hp : p x with
    | true =>
      rw [List.filter_cons_of_pos hp, List.filter_nil, since_concat, ih]
      simp
    | false =>
      rw [List.filter_cons_of_neg (by rw [hp]; exact Bool.false_ne_true), List.filter_nil,
        List.append_nil, ih]
      simp

theorem getLast?_filter {p : α → Bool} (h : (l.filter p).getLast? = some x) :
    Since l (fun y => y = x ∧ p y = true) fun y => p y = false := by
  induction l using List.reverseRecOn with
  | nil => cases h
  | append_singleton l y ih =>
    rw [List.filter_append] at h
    rw [since_concat]
    cases hp : p y with
    | true =>
      rw [List.filter_cons_of_pos hp, List.filter_nil, List.getLast?_concat] at h
      exact .inl ⟨Option.some.inj h, rfl⟩
    | false =>
      rw [List.filter_cons_of_neg (by rw [hp]; exact Bool.false_ne_true), List.filter_nil,
        List.append_nil] at h
      exact .inr ⟨rfl, ih h⟩

end WslDrive
