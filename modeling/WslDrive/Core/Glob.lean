import WslDrive.Core.Ignore
import WslDrive.Lib.Glob

/-!
# What the matcher of a segment decides

`glob_segment` compares the symbols of the pattern with those of the text before it looks whether
the pattern has a star there.  A star of the pattern that meets a star of the text is then taken for
that symbol, and is not remembered as a place to come back to.

* `globLoop_iff` — in every state the loop decides whether the pattern can be matched from there on;
* `globSegment_iff` — the matcher decides `Glob.Hasty`, the meaning of a pattern in which a star
  that meets a star is that symbol alone;
* `glob_correct_iff` — it decides the meaning of the pattern exactly if the text, should it match,
  matches in that way.
-/

namespace WslDrive

open Path

namespace Ignore

/-- A text matches a pattern: `*` is any run of symbols, `?` is one symbol. -/
abbrev GlobMatches : Bytes → Bytes → Prop := Glob.Matches star anyChar

/-- A text matches a pattern so that no `*` of the pattern meets a `*` of the text, unless it is
that symbol alone. -/
abbrev GlobHasty : Bytes → Bytes → Prop := Glob.Hasty star anyChar

/-- A pattern matches some end of a text in that way. -/
abbrev GlobSomewhere : Bytes → Bytes → Prop := Glob.Somewhere star anyChar

theorem star_ne_anyChar : star ≠ anyChar := by decide

/-- What the loop has to find out: whether the rest of the pattern matches the rest of the text, or
some end of the text from the mark on if there is a star to come back to. -/
def GlobState.Answer (pat text : Bytes) (s : GlobState) : Prop :=
  match s.star with
  | none => GlobHasty (pat.drop s.p) (text.drop s.t)
  | some q => GlobSomewhere (pat.drop (q + 1)) (text.drop s.mark)

/-- The loop has come from behind its last star and from the mark by comparing symbols. -/
def GlobState.Inv (pat text : Bytes) (s : GlobState) : Prop :=
  ∀ q ∈ s.star, ∃ v w, Glob.Aligned anyChar v w ∧ pat.drop (q + 1) = v ++ pat.drop s.p ∧
    text.drop s.mark = w ++ text.drop s.t

theorem drop_eq_cons {s : Bytes} {i : ℕ} {b : UInt8} (h : s[i]? = some b) :
    s.drop i = b :: s.drop (i + 1) := by
  obtain ⟨hi, rfl⟩ := List.getElem?_eq_some_iff.1 h
  exact List.drop_eq_getElem_cons hi

section Step

variable {pat text : Bytes} {s : GlobState}

theorem inv_compare (h : s.Inv pat text) {d c : UInt8} (hd : pat[s.p]? = some d)
    (hc : text[s.t]? = some c) (hdc : d = anyChar ∨ d = c) :
    GlobState.Inv pat text { s with p := s.p + 1, t := s.t + 1 } := by
  intro q hq
  obtain ⟨v, w, hvw, hp, ht⟩ := h q hq
  refine ⟨v ++ [d], w ++ [c], List.rel_append hvw (.cons hdc .nil), ?_, ?_⟩
  · rw [hp, drop_eq_cons hd, List.append_assoc, List.singleton_append]
  · rw [ht, drop_eq_cons hc, List.append_assoc, List.singleton_append]

theorem answer_compare {d c : UInt8} (hd : pat[s.p]? = some d) (hc : text[s.t]? = some c)
    (hdc : d = anyChar ∨ d = c) :
    GlobState.Answer pat text { s with p := s.p + 1, t := s.t + 1 } ↔ s.Answer pat text := by
  obtain ⟨p, t, last, mark⟩ := s
  cases last with
  | none =>
    simp only [GlobState.Answer]
    rw [drop_eq_cons hd, drop_eq_cons hc]
    exact (Glob.hasty_cons_cons_iff star_ne_anyChar hdc).symm
  | some q => rfl

/-- Where a match further on is a match here too, nothing is lost by forgetting the last star. -/
theorem answer_iff_here (h : s.Inv pat text)
    (hback : ∀ t', t' <:+ text.drop s.t → GlobHasty (pat.drop s.p) t' →
      GlobHasty (pat.drop s.p) (text.drop s.t)) :
    s.Answer pat text ↔ GlobHasty (pat.drop s.p) (text.drop s.t) := by
  cases hlast : s.star with
  | none => rw [GlobState.Answer, hlast]
  | some q =>
    obtain ⟨v, w, hvw, hp, ht⟩ := h q hlast
    simp only [GlobState.Answer, hlast]
    rw [hp, ht]
    constructor
    · intro hm
      obtain ⟨t', hsuf, hm⟩ := Glob.Somewhere.of_append star_ne_anyChar hvw hm
      exact hback t' hsuf hm
    · intro hm
      exact ⟨_, List.suffix_rfl, (Glob.hasty_append_iff star_ne_anyChar hvw).2 hm⟩

theorem answer_star (h : s.Inv pat text) {c : UInt8} (hd : pat[s.p]? = some star)
    (hc : text[s.t]? = some c) (hne : c ≠ star) :
    GlobState.Answer pat text { s with p := s.p + 1, star := some s.p, mark := s.t } ↔
      s.Answer pat text := by
  have hhere : GlobSomewhere (pat.drop (s.p + 1)) (text.drop s.t) ↔
      GlobHasty (pat.drop s.p) (text.drop s.t) := by
    rw [drop_eq_cons hd, drop_eq_cons hc]
    exact (Glob.hasty_star_cons_iff hne).symm
  refine hhere.trans (answer_iff_here h fun t' hsuf hm => ?_).symm
  rw [drop_eq_cons hd] at hm
  obtain ⟨t'', hsuf', hm⟩ := hm.exists_suffix
  exact hhere.1 ⟨t'', hsuf'.trans hsuf, hm⟩

theorem not_hasty_rest {c : UInt8} (hc : text[s.t]? = some c)
    (hcmp : ¬ (s.p < pat.length ∧ (pat[s.p]? = some anyChar ∨ pat[s.p]? = text[s.t]?)))
    (hstar : pat[s.p]? ≠ some star) : ¬ GlobHasty (pat.drop s.p) (text.drop s.t) := by
  rw [drop_eq_cons hc]
  cases hd : pat[s.p]? with
  | none =>
    rw [List.drop_eq_nil_of_le (List.getElem?_eq_none_iff.1 hd)]
    exact Glob.not_hasty_nil_cons
  | some d =>
    have hp : s.p < pat.length := (List.getElem?_eq_some_iff.1 hd).1
    rw [hd, hc] at hcmp
    rw [hd] at hstar
    rw [drop_eq_cons hd]
    refine Glob.not_hasty_cons_cons ?_ ?_ ?_
    · rintro rfl
      exact hcmp ⟨hp, .inl rfl⟩
    · rintro rfl
      exact hcmp ⟨hp, .inr rfl⟩
    · rintro rfl
      exact hstar rfl

theorem answer_retry (h : s.Inv pat text) {q : ℕ} (hq : s.star = some q)
    (ht : s.t < text.length) (hno : ¬ GlobHasty (pat.drop s.p) (text.drop s.t)) :
    GlobState.Answer pat text ⟨q + 1, s.mark + 1, some q, s.mark + 1⟩ ↔ s.Answer pat text := by
  obtain ⟨v, w, hvw, hp, htext⟩ := h q hq
  have hmark : s.mark < text.length := by
    have hlen := congrArg List.length htext
    rw [List.length_append, List.length_drop, List.length_drop] at hlen
    omega
  have hfront : ¬ GlobHasty (pat.drop (q + 1)) (text.drop s.mark) := by
    rw [hp, htext]
    exact mt (Glob.hasty_append_iff star_ne_anyChar hvw).1 hno
  simp only [GlobState.Answer, hq]
  rw [List.drop_eq_getElem_cons hmark] at hfront ⊢
  exact (Glob.somewhere_cons_iff hfront).symm

theorem answer_end (h : s.Inv pat text) (ht : ¬ s.t < text.length) :
    ((pat.drop s.p).dropWhile (· == star)).isEmpty = true ↔ s.Answer pat text := by
  have hnil : text.drop s.t = [] := List.drop_eq_nil_of_le (Nat.not_lt.1 ht)
  have hall : ((pat.drop s.p).dropWhile (· == star)).isEmpty = true ↔
      GlobHasty (pat.drop s.p) [] := by
    rw [List.isEmpty_iff, List.dropWhile_eq_nil_iff]
    refine Iff.trans ?_ Glob.hasty_nil_iff.symm
    simp
  rw [hall, answer_iff_here h, hnil]
  intro t' hsuf hm
  rw [hnil] at hsuf ⊢
  rwa [List.suffix_nil.1 hsuf] at hm

end Step

/-- **What the loop decides**, from every state that it can be in. -/
theorem globLoop_iff {pat text : Bytes} {n : ℕ} {s : GlobState} {b : Bool}
    (h : s.Inv pat text) (hrun : globLoop pat text n s = some b) :
    b = true ↔ s.Answer pat text := by
  induction n generalizing s with
  | zero => simp [globLoop] at hrun
  | succ n ih =>
    rw [globLoop] at hrun
    split_ifs at hrun with ht hcmp hstar
    · obtain ⟨c, hc⟩ : ∃ c, text[s.t]? = some c := ⟨_, List.getElem?_eq_getElem ht⟩
      obtain ⟨d, hd⟩ : ∃ d, pat[s.p]? = some d := ⟨_, List.getElem?_eq_getElem hcmp.1⟩
      have hdc : d = anyChar ∨ d = c := by
        simpa [hd, hc] using hcmp.2
      rw [ih (inv_compare h hd hc hdc) hrun, answer_compare hd hc hdc]
    · obtain ⟨c, hc⟩ : ∃ c, text[s.t]? = some c := ⟨_, List.getElem?_eq_getElem ht⟩
      have hne : c ≠ star := by
        rintro rfl
        exact hcmp ⟨(List.getElem?_eq_some_iff.1 hstar).1, .inr (hstar.trans hc.symm)⟩
      refine (ih ?_ hrun).trans (answer_star h hstar hc hne)
      rintro _ ⟨⟩
      exact ⟨[], [], .nil, rfl, rfl⟩
    · obtain ⟨c, hc⟩ : ∃ c, text[s.t]? = some c := ⟨_, List.getElem?_eq_getElem ht⟩
      have hno := not_hasty_rest hc hcmp hstar
      cases hlast : s.star with
      | none =>
        rw [hlast] at hrun
        cases hrun
        rw [GlobState.Answer, hlast]
        exact iff_of_false Bool.false_ne_true hno
      | some q =>
        rw [hlast] at hrun
        refine (ih ?_ hrun).trans ?_
        · rintro _ ⟨⟩
          exact ⟨[], [], .nil, rfl, rfl⟩
        · exact answer_retry h hlast ht hno
    · cases hrun
      exact answer_end h ht

theorem globLoop_eq_globSegment (pat text : Bytes) :
    globLoop pat text (globBound pat text {}) {} = some (globSegment pat text) := by
  have hsome : (globLoop pat text (globBound pat text {}) {}).isSome = true :=
    globLoop_isSome le_rfl le_rfl
  obtain ⟨b, hb⟩ := Option.isSome_iff_exists.1 hsome
  rw [globSegment, hb, Option.getD_some]

/-- **The matcher decides the hasty meaning of a pattern.** -/
theorem globSegment_iff (pat text : Bytes) :
    globSegment pat text = true ↔ GlobHasty pat text := by
  refine (globLoop_iff ?_ (globLoop_eq_globSegment pat text)).trans ?_
  · rintro _ ⟨⟩
  · exact Iff.rfl

/-- `glob_segment` gives the right answer. -/
def GlobCorrect (pat text : Bytes) : Prop := globSegment pat text = true ↔ GlobMatches pat text

theorem globCorrect_iff (pat text : Bytes) :
    GlobCorrect pat text ↔ (GlobMatches pat text → GlobHasty pat text) := by
  rw [GlobCorrect, globSegment_iff]
  exact ⟨Iff.mpr, fun h => ⟨Glob.Hasty.matches, h⟩⟩

/-- A text is matched correctly against every pattern exactly if it has no `*`. -/
theorem forall_globCorrect_iff (text : Bytes) :
    (∀ pat, slash ∉ pat → GlobCorrect pat text) ↔ star ∉ text := by
  constructor
  · intro h hmem
    obtain ⟨pat, honly, hm, hno⟩ := Glob.exists_not_hasty star_ne_anyChar hmem
    have hslash : slash ∉ pat := by
      intro hs
      exact absurd (honly slash hs) (by decide)
    exact hno ((globCorrect_iff pat text).1 (h pat hslash) hm)
  · intro h pat _
    exact (globCorrect_iff pat text).2 fun hm => hm.hasty (.inr h)

/-- **When a segment is matched correctly.**  The matcher always stops, and its answer is right
exactly if a text that matches also does so with each `*` of the pattern that meets a `*` of the
text being that symbol alone; against every pattern, exactly for the texts without a `*`. -/
theorem glob_correct_iff (pat text : Bytes) :
    globLoop pat text (globBound pat text {}) {} = some (globSegment pat text) ∧
    ((globSegment pat text = true ↔ GlobMatches pat text) ↔
      (GlobMatches pat text → GlobHasty pat text)) ∧
    ((∀ pat', slash ∉ pat' → (globSegment pat' text = true ↔ GlobMatches pat' text)) ↔
      star ∉ text) :=
  ⟨globLoop_eq_globSegment pat text, globCorrect_iff pat text, forall_globCorrect_iff text⟩

/-- The pattern `*` does not match the text `*a`: its star is taken for that of the text. -/
theorem glob_misses_star :
    globSegment (bytes "*") (bytes "*a") = false ∧ GlobMatches (bytes "*") (bytes "*a") :=
  ⟨by decide, .star (bytes "*a") .nil⟩

end Ignore

end WslDrive
