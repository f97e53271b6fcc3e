import Mathlib.Logic.Relation

/-!
# Chains of a deterministic relation

A relation that leads from each element to one other element at most, such as from a node to its
parent, and elements whose chain ends in a terminal element.

* `Chain.not_cycle` — such an element is on no cycle;
* `Chain.transfer` — a chain along which two relations agree.
-/

namespace WslDrive

namespace Chain

open Relation

variable {α : Type*} {r r' : α → α → Prop} {a b e : α}

theorem not_cycle (hr : Relator.RightUnique r) (he : ∀ b, ¬ r e b) (h : ReflTransGen r a e) :
    ¬ TransGen r a a := by
  induction h using ReflTransGen.head_induction_on with
  | refl =>
    intro hc
    obtain ⟨b, hb, -⟩ := TransGen.head'_iff.1 hc
    exact he b hb
  | head hab _ ih =>
    intro hc
    obtain ⟨b', hb', hrest⟩ := TransGen.head'_iff.1 hc
    obtain rfl := hr hab hb'
    exact ih (TransGen.tail' hrest hab)

/-- Two relations that agree along a chain, by a condition that the chain keeps. -/
theorem transfer {P : α → Prop} (h : ReflTransGen r a b) (ha : P a)
    (hstep : ∀ x y, P x → r x y → r' x y ∧ P y) : ReflTransGen r' a b := by
  induction h using ReflTransGen.head_induction_on with
  | refl => exact ReflTransGen.refl
  | head hxy _ ih =>
    obtain ⟨h1, h2⟩ := hstep _ _ ha hxy
    exact ReflTransGen.head h1 (ih h2)

end Chain

end WslDrive
