import Mathlib.Data.List.Basic
import WslDrive.Lib.Since

/-!
# Skipping what is covered in a sorted list

A loop over a sorted list remembers one element, the *region* it is in.  As long as the next
elements are `under` that one they are covered by it; the first one that is not ends the region,
and opens a region of its own if it can.  Such a loop is right as a whole if everything under an
element follows it directly.  This module says what the loop does without that assumption.

* `Cover.pass` — the loop, with what it emits for an element in its region;
* `Cover.Covers` — an element that opens regions, and nothing between it and the covered one is
  outside;
* `Cover.mem_pass` — the region of an element is that of the outermost element that covers it.

The elements are sorted by a relation `r`, of which `under` is a part (`Cover.Nesting`).
-/

namespace WslDrive

namespace Cover

variable {α β : Type*} (under : α → α → Prop) (opens : α → Prop)

/-! ### The loop -/

section Loop

variable [DecidableRel under] [DecidablePred opens]

/-- The region in force, if the element is in it. -/
def covering (cur : Option α) (x : α) : Option α := cur.filter fun d => under x d

/-- The region in force behind an element. -/
def next (cur : Option α) (x : α) : Option α :=
  (covering under cur x).or (if opens x then some x else none)

/-- The region in force behind some elements. -/
def behind (l : List α) : Option α := l.foldl (next under opens) none

/-- The loop; `emit` is told the region of the element. -/
def pass (emit : Option α → α → List β) : Option α → List α → List β
  | _, [] => []
  | cur, x :: xs => emit (covering under cur x) x ++ pass emit (next under opens cur x) xs

variable {under opens} {emit : Option α → α → List β} {b : β}

theorem behind_concat (l : List α) (x : α) :
    behind under opens (l ++ [x]) = next under opens (behind under opens l) x := by
  rw [behind, List.foldl_concat, behind]

theorem mem_pass_behind (l xs : List α) :
    b ∈ pass under opens emit (behind under opens l) xs ↔
      ∃ pre x post, xs = pre ++ x :: post ∧
        b ∈ emit (covering under (behind under opens (l ++ pre)) x) x := by
  induction xs generalizing l with
  | nil =>
    refine ⟨fun h => absurd h List.not_mem_nil, ?_⟩
    rintro ⟨pre, x, post, h, -⟩
    exact absurd h.symm (List.append_ne_nil_of_right_ne_nil pre (List.cons_ne_nil x post))
  | cons x xs ih =>
    rw [pass, List.mem_append, ← behind_concat, ih]
    constructor
    · rintro (h | ⟨pre, y, post, rfl, h⟩)
      · exact ⟨[], x, xs, rfl, by rwa [List.append_nil]⟩
      · exact ⟨x :: pre, y, post, rfl, by rwa [List.append_assoc] at h⟩
    · rintro ⟨pre, y, post, h, hb⟩
      cases pre with
      | nil =>
        cases h
        rw [List.append_nil] at hb
        exact .inl hb
      | cons z pre =>
        cases h
        exact .inr ⟨pre, y, post, rfl, by rwa [List.append_assoc]⟩

theorem pass_sublist {emit : Option α → α → List α} (hemit : ∀ o x, (emit o x).Sublist [x])
    (cur : Option α) (l : List α) : (pass under opens emit cur l).Sublist l := by
  induction l generalizing cur with
  | nil => exact List.Sublist.refl _
  | cons x l ih => exact (hemit _ x).append (ih _)

end Loop

/-! ### Regions that reach to the end of a list -/

section Reaches

/-- An element that opens regions, and all that follows it is under it. -/
def Reaches (l : List α) (d : α) : Prop := opens d ∧ Since l (· = d) (under · d)

/-- `o` is the outermost region that reaches to the end, if there is one. -/
def IsBehind (l : List α) (o : Option α) : Prop :=
  (∀ d ∈ o, Reaches under opens l d ∧ ∀ d', Reaches under opens l d' → d' = d ∨ under d' d) ∧
    (o = none → ∀ d, ¬ Reaches under opens l d)

variable {under opens} {l : List α} {x d : α}

theorem reaches_concat :
    Reaches under opens (l ++ [x]) d ↔ opens x ∧ x = d ∨ Reaches under opens l d ∧ under x d := by
  rw [Reaches, since_concat, Reaches]
  constructor
  · rintro ⟨ho, rfl | ⟨hu, hs⟩⟩
    · exact .inl ⟨ho, rfl⟩
    · exact .inr ⟨⟨ho, hs⟩, hu⟩
  · rintro (⟨ho, rfl⟩ | ⟨⟨ho, hs⟩, hu⟩)
    · exact ⟨ho, .inl rfl⟩
    · exact ⟨ho, .inr ⟨hu, hs⟩⟩

variable [DecidableRel under]

theorem mem_covering {cur : Option α} : d ∈ covering under cur x ↔ d ∈ cur ∧ under x d := by
  simp [covering, Option.mem_def, Option.filter_eq_some_iff]

/-- A region that reaches to an element outside the outermost region would lie inside it. -/
theorem IsBehind.not_under {o : Option α} (h : IsBehind under opens l o)
    (htrans : ∀ a b c, under a b → under b c → under a c) (hcov : covering under o x = none)
    (hd : Reaches under opens l d) : ¬ under x d := by
  intro hu
  cases o with
  | none => exact h.2 rfl d hd
  | some d₀ =>
    have hnot : ¬ under x d₀ := fun hu => by
      have := mem_covering.2 ⟨(rfl : d₀ ∈ some d₀), hu⟩
      rw [hcov] at this
      cases this
    obtain rfl | hin := (h.1 d₀ rfl).2 d hd
    · exact hnot hu
    · exact hnot (htrans _ _ _ hu hin)

variable [DecidablePred opens]

theorem isBehind_behind (htrans : ∀ a b c, under a b → under b c → under a c) (l : List α) :
    IsBehind under opens l (behind under opens l) := by
  induction l using List.reverseRecOn with
  | nil => exact ⟨fun d hd => absurd hd (by simp [behind]), fun _ d h => not_since_nil h.2⟩
  | append_singleton l x ih =>
    rw [behind_concat, next]
    cases hcov : covering under (behind under opens l) x with
    | some d =>
      -- the region in force goes on
      obtain ⟨hbeh, hu⟩ := mem_covering.1 hcov
      obtain ⟨hreach, houter⟩ := ih.1 d hbeh
      refine ⟨fun d' hd' => ?_, fun h => by simp at h⟩
      obtain rfl : d = d' := by simpa using hd'
      refine ⟨reaches_concat.2 (.inr ⟨hreach, hu⟩), fun d' hd' => ?_⟩
      obtain ⟨-, rfl⟩ | ⟨hd', -⟩ := reaches_concat.1 hd'
      · exact .inr hu
      · exact houter d' hd'
    | none =>
      have hreach : ∀ d, Reaches under opens (l ++ [x]) d ↔ opens x ∧ x = d := fun d => by
        rw [reaches_concat]
        exact or_iff_left fun h => ih.not_under htrans hcov h.1 h.2
      rw [Option.none_or]
      split_ifs with ho
      · refine ⟨fun d hd => ?_, fun h => by cases h⟩
        obtain rfl := Option.some.inj hd
        exact ⟨(hreach x).2 ⟨ho, rfl⟩, fun d' hd' => .inl ((hreach d').1 hd').2.symm⟩
      · exact ⟨fun d hd => absurd hd (by simp), fun _ d hd => ho ((hreach d).1 hd).1⟩

end Reaches

/-! ### Sorted lists -/

section Sorted

variable (r : α → α → Prop)

/-- What is under an element does not come before it. -/
structure Nesting : Prop where
  trans : ∀ a b c, under a b → under b c → under a c
  asymm : ∀ {a b}, r a b → ¬ r b a
  after : ∀ {x d}, under x d → ¬ r x d

/-- `d` opens a region that reaches to `x`. -/
structure Covers (l : List α) (d x : α) : Prop where
  mem : d ∈ l
  starts : opens d
  before : r d x
  below : under x d
  between : ∀ y ∈ l, r d y → r y x → under y d

/-- `d` is the outermost element whose region reaches to `x`. -/
structure Outermost (l : List α) (d x : α) : Prop extends Covers under opens r l d x where
  outer : ∀ d', Covers under opens r l d' x → d' = d ∨ under d' d

/-- `o` is the outermost element whose region reaches to `x`, if there is one. -/
def IsCover (l : List α) (x : α) (o : Option α) : Prop :=
  (∀ d ∈ o, Outermost under opens r l d x) ∧ (o = none → ∀ d, ¬ Covers under opens r l d x)

variable {under opens r} {l : List α} {x d f : α} (hn : Nesting under r)
include hn

omit hn in
theorem rel_or_of_mem {y z : α} (hl : l.Pairwise r) (hy : y ∈ l) (hz : z ∈ l) :
    y = z ∨ r y z ∨ r z y := by
  obtain ⟨pre, post, rfl⟩ := List.append_of_mem hz
  obtain ⟨-, hpost, hpre⟩ := List.pairwise_append.1 hl
  rcases List.mem_append.1 hy with hy | hy
  · exact .inr (.inl (hpre y hy z List.mem_cons_self))
  rcases List.mem_cons.1 hy with rfl | hy
  · exact .inl rfl
  · exact .inr (.inr ((List.pairwise_cons.1 hpost).1 y hy))

theorem Outermost.unique (hl : l.Pairwise r) (h : Outermost under opens r l d x)
    (h' : Outermost under opens r l f x) : d = f := by
  rcases h'.outer d h.toCovers with heq | hdf
  · exact heq
  rcases h.outer f h'.toCovers with heq | hfd
  · exact heq.symm
  rcases rel_or_of_mem hl h.mem h'.mem with heq | hr | hr
  · exact heq
  · exact absurd hr (hn.after hdf)
  · exact absurd hr (hn.after hfd)

theorem Covers.trans (hl : l.Pairwise r) (htrans : ∀ {a b c}, r a b → r b c → r a c)
    (h : Covers under opens r l f d) (h' : Covers under opens r l d x) :
    Covers under opens r l f x where
  mem := h.mem
  starts := h.starts
  before := htrans h.before h'.before
  below := hn.trans _ _ _ h'.below h.below
  between y hy hfy hyx := by
    rcases rel_or_of_mem hl hy h'.mem with rfl | hyd | hdy
    · exact h.below
    · exact h.between y hy hfy hyd
    · exact hn.trans _ _ _ (h'.between y hy hdy hyx) h.below

theorem Outermost.not_covers (hl : l.Pairwise r) (htrans : ∀ {a b c}, r a b → r b c → r a c)
    (h : Outermost under opens r l d x) : ¬ Covers under opens r l f d := by
  intro hf
  rcases h.outer f (hf.trans hn hl htrans h.toCovers) with rfl | hfd
  · exact hn.asymm hf.before hf.before
  · exact hn.after hfd hf.before

variable {pre post : List α}

omit hn in
theorem mem_left_iff (hasymm : ∀ {a b}, r a b → ¬ r b a)
    (hl : (pre ++ x :: post).Pairwise r) (y : α) : y ∈ pre ↔ y ∈ pre ++ x :: post ∧ r y x := by
  obtain ⟨-, hpost, hpre⟩ := List.pairwise_append.1 hl
  refine ⟨fun hy => ⟨List.mem_append_left _ hy, hpre y hy x List.mem_cons_self⟩, ?_⟩
  rintro ⟨hy, hr⟩
  refine (List.mem_append.1 hy).resolve_right fun hy => ?_
  rcases List.mem_cons.1 hy with rfl | hy
  · exact hasymm hr hr
  · exact hasymm hr ((List.pairwise_cons.1 hpost).1 y hy)

theorem reaches_iff_covers (hl : (pre ++ x :: post).Pairwise r) :
    Reaches under opens pre d ∧ under x d ↔ Covers under opens r (pre ++ x :: post) d x := by
  have hmem := mem_left_iff hn.asymm hl
  constructor
  · rintro ⟨⟨ho, before, y, after, rfl, rfl, hafter⟩, hu⟩
    have hy := (hmem y).1 (by simp)
    refine ⟨hy.1, ho, hy.2, hu, fun z hz hyz hzx => hafter z ?_⟩
    have hpre := (List.pairwise_append.1 hl).1
    -- `z` is before `x` and not before `y`
    have hz' := (hmem z).2 ⟨hz, hzx⟩
    rcases List.mem_append.1 hz' with hz' | hz'
    · exact absurd hyz (hn.asymm ((List.pairwise_append.1 hpre).2.2 z hz' y List.mem_cons_self))
    rcases List.mem_cons.1 hz' with rfl | hz'
    · exact absurd hyz (hn.asymm hyz)
    · exact hz'
  · intro h
    obtain ⟨before, after, rfl⟩ := List.append_of_mem ((hmem d).2 ⟨h.mem, h.before⟩)
    refine ⟨⟨h.starts, before, d, after, rfl, rfl, fun y hy => ?_⟩, h.below⟩
    have hpre := (List.pairwise_append.1 (List.pairwise_append.1 hl).1).2.1
    obtain ⟨hy', hyx⟩ := (hmem y).1 (by simp [hy])
    exact h.between y hy' ((List.pairwise_cons.1 hpre).1 y hy) hyx

variable [DecidableRel under] [DecidablePred opens]

theorem isCover_covering (hl : (pre ++ x :: post).Pairwise r) :
    IsCover under opens r (pre ++ x :: post) x (covering under (behind under opens pre) x) := by
  have hbehind : IsBehind under opens pre (behind under opens pre) := isBehind_behind hn.trans pre
  have hcovers : ∀ d, Reaches under opens pre d ∧ under x d ↔
    Covers under opens r (pre ++ x :: post) d x := fun d => reaches_iff_covers hn hl
  constructor
  · intro d hd
    obtain ⟨hbeh, hu⟩ := mem_covering.1 hd
    obtain ⟨hreach, houter⟩ := hbehind.1 d hbeh
    exact ⟨(hcovers d).1 ⟨hreach, hu⟩, fun d' hd' => houter d' ((hcovers d').2 hd').1⟩
  · intro hcov d hd
    obtain ⟨hreach, hu⟩ := (hcovers d).2 hd
    exact hbehind.not_under hn.trans hcov hreach hu

omit [DecidableRel under] [DecidablePred opens] in
theorem exists_isCover (hl : l.Pairwise r) (hx : x ∈ l) : ∃ o, IsCover under opens r l x o := by
  classical
  obtain ⟨pre, post, rfl⟩ := List.append_of_mem hx
  exact ⟨_, isCover_covering hn hl⟩

omit [DecidableRel under] [DecidablePred opens] in
theorem IsCover.unique {o o' : Option α} (hl : l.Pairwise r) (h : IsCover under opens r l x o)
    (h' : IsCover under opens r l x o') : o = o' := by
  cases o with
  | none =>
    cases o' with
    | none => rfl
    | some d => exact absurd (h'.1 d rfl).toCovers (h.2 rfl d)
  | some d =>
    cases o' with
    | none => exact absurd (h.1 d rfl).toCovers (h'.2 rfl d)
    | some d' => rw [(h.1 d rfl).unique hn hl (h'.1 d' rfl)]

/-- **The region of an element is that of the outermost element that covers it.** -/
theorem mem_pass {emit : Option α → α → List β} {b : β} (hl : l.Pairwise r) :
    b ∈ pass under opens emit none l ↔
      ∃ x ∈ l, ∃ o, IsCover under opens r l x o ∧ b ∈ emit o x := by
  have hpass : b ∈ pass under opens emit (behind under opens []) l ↔ _ := mem_pass_behind [] l
  rw [behind, List.foldl_nil] at hpass
  rw [hpass]
  constructor
  · rintro ⟨pre, x, post, rfl, hb⟩
    exact ⟨x, by simp, _, isCover_covering hn hl, hb⟩
  · rintro ⟨x, hx, o, ho, hb⟩
    obtain ⟨pre, post, rfl⟩ := List.append_of_mem hx
    exact ⟨pre, x, post, rfl, ho.unique hn hl (isCover_covering hn hl) ▸ hb⟩

end Sorted

end Cover

end WslDrive
