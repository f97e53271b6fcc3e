import Mathlib.Data.List.Basic
import Mathlib.Data.List.Forall2
import Mathlib.Data.List.Infix

/-!
# Wildcard patterns

A pattern is a word with two special symbols: `star` stands for any run of symbols, and `any` for
one symbol.  `Glob.Matches` is what a pattern means.  A matcher that compares symbols before it
looks for stars takes a star of the text for the star of the pattern; `Glob.Hasty` is what a
pattern means to it.

* `Glob.Hasty.matches`, `Glob.Matches.hasty` — hasty matching is sound, and complete for texts
  or patterns without stars;
* `Glob.hasty_append_iff` — symbols that were compared one by one can be dropped on both sides;
* `Glob.Somewhere.of_append` — a match behind a star need not be looked for before the point that
  a comparison has already reached;
* `Glob.exists_not_hasty` — every text with a star is missed by some pattern.
-/

namespace WslDrive

namespace Glob

variable {α : Type*} {star any : α}

/-- What a pattern means: a star is any run of symbols, `any` is one symbol, and every other
symbol is itself. -/
inductive Matches (star any : α) : List α → List α → Prop where
  | nil : Matches star any [] []
  | any {p t : List α} (c : α) (h : Matches star any p t) : Matches star any (any :: p) (c :: t)
  | symbol {p t : List α} {c : α} (hstar : c ≠ star) (hany : c ≠ any)
      (h : Matches star any p t) : Matches star any (c :: p) (c :: t)
  | star {p t : List α} (run : List α) (h : Matches star any p t) :
      Matches star any (star :: p) (run ++ t)

/-- The same, except that a star that meets a star of the text is that symbol alone. -/
inductive Hasty (star any : α) : List α → List α → Prop where
  | nil : Hasty star any [] []
  | any {p t : List α} (c : α) (h : Hasty star any p t) : Hasty star any (any :: p) (c :: t)
  | symbol {p t : List α} {c : α} (hstar : c ≠ star) (hany : c ≠ any)
      (h : Hasty star any p t) : Hasty star any (c :: p) (c :: t)
  | star {p t : List α} (run : List α) (hrun : (run ++ t).head? = some star → run = [star])
      (h : Hasty star any p t) : Hasty star any (star :: p) (run ++ t)

/-- Hasty matching is sound. -/
theorem Hasty.matches {p t : List α} (h : Hasty star any p t) : Matches star any p t := by
  induction h with
  | nil => exact .nil
  | any c _ ih => exact .any c ih
  | symbol hstar hany _ ih => exact .symbol hstar hany ih
  | star run _ _ ih => exact .star run ih

theorem Matches.hasty {p t : List α} (h : Matches star any p t) (hne : star ∉ p ∨ star ∉ t) :
    Hasty star any p t := by
  induction h with
  | nil => exact .nil
  | any c _ ih =>
    exact .any c (ih (hne.imp (mt (List.mem_cons_of_mem _)) (mt (List.mem_cons_of_mem _))))
  | symbol hstar hany _ ih =>
    refine .symbol hstar hany (ih ?_)
    exact hne.imp (mt (List.mem_cons_of_mem _)) (mt (List.mem_cons_of_mem _))
  | star run _ ih =>
    have hstar := hne.resolve_left (not_not_intro List.mem_cons_self)
    refine .star run (fun hhead => ?_)
      (ih (.inr fun hmem => hstar (List.mem_append_right run hmem)))
    exact absurd (List.mem_of_mem_head? hhead) hstar

theorem Matches.length_eq {p t : List α} (h : Matches star any p t) (hne : star ∉ p) :
    p.length = t.length := by
  induction h with
  | nil => rfl
  | any c _ ih => rw [List.length_cons, List.length_cons, ih (mt (List.mem_cons_of_mem _) hne)]
  | symbol _ _ _ ih =>
    rw [List.length_cons, List.length_cons, ih (mt (List.mem_cons_of_mem _) hne)]
  | star => exact absurd List.mem_cons_self hne

theorem matches_replicate_any (t : List α) :
    Matches star any (List.replicate t.length any) t := by
  induction t with
  | nil => exact .nil
  | cons c t ih => exact .any c ih

/-! ### The front of a pattern -/

theorem hasty_nil_iff {p : List α} : Hasty star any p [] ↔ ∀ d ∈ p, d = star := by
  constructor
  · intro h
    generalize ht : ([] : List α) = t at h
    induction h with
    | nil => simp
    | any c _ _ => simp at ht
    | symbol _ _ _ _ => simp at ht
    | star run _ _ ih =>
      obtain ⟨-, ht⟩ := List.append_eq_nil_iff.1 ht.symm
      simpa using ih ht.symm
  · intro h
    induction p with
    | nil => exact .nil
    | cons d p ih =>
      obtain rfl := h d List.mem_cons_self
      exact .star [] (by simp) (ih fun d hd => h d (List.mem_cons_of_mem _ hd))

theorem not_hasty_nil_cons {c : α} {t : List α} : ¬ Hasty star any [] (c :: t) := by
  intro h
  cases h

theorem Hasty.exists_suffix {d : α} {p t : List α} (h : Hasty star any (d :: p) t) :
    ∃ t', t' <:+ t ∧ Hasty star any p t' := by
  cases h with
  | any c h => exact ⟨_, List.suffix_cons _ _, h⟩
  | symbol _ _ h => exact ⟨_, List.suffix_cons _ _, h⟩
  | star run _ h => exact ⟨_, List.suffix_append _ _, h⟩

theorem hasty_cons_cons_iff (hne : star ≠ any) {d c : α} {p t : List α} (h : d = any ∨ d = c) :
    Hasty star any (d :: p) (c :: t) ↔ Hasty star any p t := by
  constructor
  · intro hm
    generalize htext : c :: t = text at hm
    cases hm with
    | any c' hm =>
      cases htext
      exact hm
    | symbol _ _ hm =>
      cases htext
      exact hm
    | star run hrun hm =>
      -- The star of the pattern was compared, so it has met a star.
      obtain rfl := h.resolve_left hne
      rw [← htext] at hrun
      rw [hrun rfl] at htext
      cases htext
      exact hm
  · intro hm
    by_cases hany : d = any
    · rw [hany]
      exact .any c hm
    · obtain rfl := h.resolve_left hany
      by_cases hstar : d = star
      · rw [hstar]
        exact .star [star] (fun _ => rfl) hm
      · exact .symbol hstar hany hm

theorem not_hasty_cons_cons {d c : α} {p t : List α} (hany : d ≠ any) (hc : d ≠ c)
    (hstar : d ≠ star) : ¬ Hasty star any (d :: p) (c :: t) := by
  intro h
  generalize htext : c :: t = text at h
  cases h with
  | any => exact hany rfl
  | symbol =>
    cases htext
    exact hc rfl
  | star => exact hstar rfl

/-! ### Behind a star -/

/-- The pattern matches some end of the text. -/
def Somewhere (star any : α) (p t : List α) : Prop := ∃ t', t' <:+ t ∧ Hasty star any p t'

theorem hasty_star_cons_iff {c : α} {p t : List α} (hc : c ≠ star) :
    Hasty star any (star :: p) (c :: t) ↔ Somewhere star any p (c :: t) := by
  refine ⟨Hasty.exists_suffix, ?_⟩
  rintro ⟨t', ⟨run, hrun⟩, h⟩
  rw [← hrun]
  refine .star run (fun hhead => ?_) h
  rw [hrun, List.head?_cons, Option.some_inj] at hhead
  exact absurd hhead hc

/-- Where the pattern does not match at the front, it has to match behind it. -/
theorem somewhere_cons_iff {c : α} {p t : List α} (h : ¬ Hasty star any p (c :: t)) :
    Somewhere star any p (c :: t) ↔ Somewhere star any p t := by
  constructor
  · rintro ⟨t', hsuf, hm⟩
    rcases List.suffix_cons_iff.1 hsuf with rfl | hsuf
    · exact absurd hm h
    · exact ⟨t', hsuf, hm⟩
  · rintro ⟨t', hsuf, hm⟩
    exact ⟨t', hsuf.trans (List.suffix_cons c t), hm⟩

/-- Symbols of a pattern compared one by one with symbols of a text. -/
def Aligned (any : α) : List α → List α → Prop := List.Forall₂ fun d c => d = any ∨ d = c

theorem hasty_append_iff (hne : star ≠ any) {v w p t : List α} (h : Aligned any v w) :
    Hasty star any (v ++ p) (w ++ t) ↔ Hasty star any p t := by
  induction h with
  | nil => rfl
  | cons hdc _ ih => rw [List.cons_append, List.cons_append, hasty_cons_cons_iff hne hdc, ih]

/-- **Nothing is missed behind the symbols that were compared**: a star compared with a star of the
text can only match that star there, and elsewhere a later match is behind already. -/
theorem Somewhere.of_append (hne : star ≠ any) {v w p t : List α} (h : Aligned any v w)
    (hm : Somewhere star any (v ++ p) (w ++ t)) : Somewhere star any p t := by
  induction h with
  | nil => exact hm
  | @cons d c v w hdc _ ih =>
    obtain ⟨t', hsuf, hm⟩ := hm
    rcases List.suffix_cons_iff.1 hsuf with rfl | hsuf
    · exact ih ⟨w ++ t, List.suffix_rfl, (hasty_cons_cons_iff hne hdc).1 hm⟩
    · obtain ⟨t'', hsuf', hm⟩ := hm.exists_suffix
      exact ih ⟨t'', hsuf'.trans hsuf, hm⟩

/-- **A text with a star is missed by some pattern.** -/
theorem exists_not_hasty (hne : star ≠ any) {t : List α} (h : star ∈ t) :
    ∃ p, (∀ d ∈ p, d = star ∨ d = any) ∧ Matches star any p t ∧ ¬ Hasty star any p t := by
  obtain ⟨a, b, rfl⟩ := List.append_of_mem h
  have halign : Aligned any (List.replicate a.length any) a := by
    refine List.forall₂_iff_get.2 ⟨List.length_replicate, fun i hi _ => .inl ?_⟩
    simp
  refine ⟨List.replicate a.length any ++ star :: List.replicate (star :: b).length any, ?_, ?_, ?_⟩
  · intro d hd
    rcases List.mem_append.1 hd with hd | hd
    · exact .inr (List.eq_of_mem_replicate hd)
    · exact (List.mem_cons.1 hd).imp_right List.eq_of_mem_replicate
  · have hrest : Matches star any (star :: List.replicate (star :: b).length any) (star :: b) :=
      .star [] (matches_replicate_any _)
    clear h halign
    induction a with
    | nil => exact hrest
    | cons c a ih => exact .any c ih
  · rw [hasty_append_iff hne halign, hasty_cons_cons_iff hne (.inr rfl)]
    intro hm
    have hlen := hm.matches.length_eq fun hmem => hne (List.eq_of_mem_replicate hmem)
    rw [List.length_replicate, List.length_cons] at hlen
    omega

end Glob

end WslDrive
