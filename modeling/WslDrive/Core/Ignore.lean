import Mathlib.Data.List.DropRight
import Mathlib.Data.List.Forall2
import WslDrive.Core.Path

/-!
# Ignore rules

The rules of a `.wsldriveignore` file, parsed into patterns and matched against relative paths.

* `globLoop_isSome` — the backtracking matcher stops within its bound;
* `Pattern.ignores_iff` — a pattern excludes a path if it matches the path or a directory above;
* `IgnoreRules.ignored_false_iff`, `IgnoreRules.ignored_true_iff` — what the rules exclude,
  depending on the kind of the path;
* `IgnoreRules.forall_ignored_iff` — a path whose rules are looked up at every directory on the
  way is excluded no more than by its own lookup.
-/

namespace WslDrive

open Path

namespace Ignore

/-! ### Matching one segment -/

/-- `*`. -/
def star : UInt8 := 0x2A

/-- `?`. -/
def anyChar : UInt8 := 0x3F

/-- The variables of `glob_segment`: the positions in the pattern and in the text, the last star
and the position in the text where its run ends. -/
structure GlobState where
  p : ℕ := 0
  t : ℕ := 0
  star : Option ℕ := none
  mark : ℕ := 0

/-- The loop of `glob_segment`; none if the rounds do not suffice. -/
def globLoop (pat text : Bytes) : ℕ → GlobState → Option Bool
  | 0, _ => none
  | n + 1, s =>
    if s.t < text.length then
      if s.p < pat.length ∧ (pat[s.p]? = some anyChar ∨ pat[s.p]? = text[s.t]?) then
        globLoop pat text n { s with p := s.p + 1, t := s.t + 1 }
      else if pat[s.p]? = some star then
        globLoop pat text n { s with p := s.p + 1, star := some s.p, mark := s.t }
      else
        match s.star with
        | some q => globLoop pat text n { s with p := q + 1, t := s.mark + 1, mark := s.mark + 1 }
        | none => some false
    else some ((pat.drop s.p).dropWhile (· == star)).isEmpty

/-- Rounds that suffice: a run of the last star can end at each position of the text, and between
two of them the positions only grow. -/
def globBound (pat text : Bytes) (s : GlobState) : ℕ :=
  (text.length - s.mark) * (pat.length + text.length + 1) + (pat.length - s.p) +
    (text.length - s.t) + 1

/-- `glob_segment`. -/
def globSegment (pat text : Bytes) : Bool :=
  (globLoop pat text (globBound pat text {}) {}).getD false

theorem globLoop_isSome {pat text : Bytes} {n : ℕ} {s : GlobState} (hmark : s.mark ≤ s.t)
    (hn : globBound pat text s ≤ n) : (globLoop pat text n s).isSome = true := by
  induction n generalizing s with
  | zero => simp [globBound] at hn
  | succ n ih =>
    rw [globLoop]
    rw [globBound] at hn
    split_ifs with ht hmatch hstar
    · apply ih (Nat.le_succ_of_le hmark)
      rw [globBound]
      dsimp only
      omega
    · -- A new star starts its run no earlier than the last one.
      have hp : s.p < pat.length := (List.getElem?_eq_some_iff.1 hstar).1
      have hmul := Nat.mul_le_mul_right (pat.length + text.length + 1)
        (Nat.sub_le_sub_left hmark text.length)
      apply ih le_rfl
      rw [globBound]
      dsimp only
      omega
    · cases s.star with
      | none => rfl
      | some q =>
        -- The run of the last star gets longer, which pays for starting over behind it.
        have hmul : (text.length - s.mark) * (pat.length + text.length + 1) =
            (text.length - (s.mark + 1)) * (pat.length + text.length + 1) +
              (pat.length + text.length + 1) := by
          rw [← Nat.succ_mul]
          congr 1
          omega
        apply ih le_rfl
        rw [globBound]
        dsimp only
        omega
    · rfl

/-! ### Rules -/

/-- `split`: the non-empty pieces between slashes. -/
def split (s : Bytes) : List Bytes := Split.pieces (· == slash) s

/-- `IgnoreRules::Pattern`. -/
structure Pattern where
  /-- The pattern split at slashes; the parser keeps no pattern without segments. -/
  segs : List Bytes
  segs_ne : segs ≠ []
  /-- Match from the root rather than any name. -/
  anchored : Bool
  /-- Only match directories. -/
  dirOnly : Bool

/-- `IgnoreRules`. -/
structure IgnoreRules where
  patterns : List Pattern

/-- A blank that the parser trims. -/
def isBlank (c : UInt8) : Bool := c == 0x20 || c == 0x09

/-- A line without the carriage return at its end and the blanks around it. -/
def trim (line : Bytes) : Bytes :=
  let line := if line.getLast? = some 0x0D then line.dropLast else line
  (line.dropWhile isBlank).rdropWhile isBlank

/-- The pattern in a line, if there is one. -/
def parseLine (line : Bytes) : Option Pattern :=
  let line := trim line
  if line = [] ∨ line.head? = some 0x23 then none
  else
    let dirOnly := line.getLast? == some slash
    let line := if dirOnly then line.dropLast else line
    let rooted := line.head? == some slash
    let anchored := rooted || line.contains slash
    let segs := split (if rooted then line.tail else line)
    if h : segs ≠ [] then some { segs, segs_ne := h, anchored, dirOnly } else none

/-- `IgnoreRules::parse`. -/
def IgnoreRules.parse (text : Bytes) : IgnoreRules where
  patterns := (text.splitOnP (· == 0x0A)).filterMap parseLine

/-- A pattern excludes a path, given by its segments.  A pattern for directories needs a further
segment behind those that it matches, or a path that is a directory. -/
def Pattern.ignores (pat : Pattern) (segs : List Bytes) (isDir : Bool) : Bool :=
  if pat.anchored then
    decide (pat.segs.length ≤ segs.length) &&
      (List.zipWith globSegment pat.segs segs).all id &&
      (!pat.dirOnly || (decide (pat.segs.length < segs.length) || isDir))
  else
    segs.zipIdx.any fun x =>
      globSegment (pat.segs.getLast pat.segs_ne) x.1 &&
        (!pat.dirOnly || (decide (x.2 + 1 < segs.length) || isDir))

/-- `IgnoreRules::ignored`. -/
def IgnoreRules.ignored (rules : IgnoreRules) (rel : Bytes) (isDir : Bool) : Bool :=
  if rules.patterns.isEmpty || rel.isEmpty then false
  else if (split rel).isEmpty then false
  else rules.patterns.any fun pat => pat.ignores (split rel) isDir

theorem length_split_of_not_contains {s : Bytes} (hslash : s.contains slash = false)
    (hne : split s ≠ []) : (split s).length = 1 := by
  have hfree : ∀ x ∈ s, (x == slash) = false := by
    intro x hx
    refine beq_eq_false_iff_ne.2 ?_
    rintro rfl
    rw [List.contains_iff_mem.2 hx] at hslash
    cases hslash
  have hs : s ≠ [] := by
    rintro rfl
    exact hne Split.pieces_nil
  rw [split, Split.pieces_of_forall hs hfree, List.length_singleton]

/-- **A pattern that is not anchored has one segment**, so the matcher looks at the only one. -/
theorem length_segs_of_mem_parse {text : Bytes} {pat : Pattern}
    (h : pat ∈ (IgnoreRules.parse text).patterns) (hanch : pat.anchored = false) :
    pat.segs.length = 1 := by
  obtain ⟨line, -, hline⟩ := List.mem_filterMap.1 h
  rw [parseLine] at hline
  dsimp only at hline
  by_cases hskip : trim line = [] ∨ (trim line).head? = some 0x23
  · rw [if_pos hskip] at hline
    cases hline
  rw [if_neg hskip] at hline
  generalize (if ((trim line).getLast? == some slash) = true then (trim line).dropLast
    else trim line) = body at hline
  split_ifs at hline with hroot hne hne
  · cases hline
    simp [hroot] at hanch
  · cases hline
    exact length_split_of_not_contains (Bool.or_eq_false_iff.1 hanch).2 hne

/-! ### What the rules exclude -/

/-- The pattern matches this very path, whatever its kind. -/
def Pattern.Matches (pat : Pattern) (p : List Bytes) : Prop :=
  if pat.anchored then List.Forall₂ (fun s c => globSegment s c = true) pat.segs p
  else ∃ c ∈ p.getLast?, globSegment (pat.segs.getLast pat.segs_ne) c = true

/-- Some rule excludes the path whatever its kind: it matches a directory above, or it matches the
path and is not for directories only. -/
def IgnoreRules.Covers (rules : IgnoreRules) (p : List Bytes) : Prop :=
  ∃ pat ∈ rules.patterns, ∃ q, q ≠ [] ∧ q <+: p ∧ pat.Matches q ∧
    (q = p → pat.dirOnly = false)

/-- Some rule for directories only matches the path. -/
def IgnoreRules.NamesDir (rules : IgnoreRules) (p : List Bytes) : Prop :=
  ∃ pat ∈ rules.patterns, pat.dirOnly = true ∧ pat.Matches p

theorem forall₂_glob_iff {ps cs : List Bytes} :
    List.Forall₂ (fun s c => globSegment s c = true) ps cs ↔
      ps.length = cs.length ∧ (List.zipWith globSegment ps cs).all id = true := by
  rw [List.forall₂_iff_zip]
  refine and_congr_right fun _ => ?_
  rw [← List.map_uncurry_zip_eq_zipWith, List.all_map, List.all_eq_true, Prod.forall]
  rfl

theorem zipWith_glob_take (ps cs : List Bytes) :
    List.zipWith globSegment ps (cs.take ps.length) = List.zipWith globSegment ps cs := by
  calc List.zipWith globSegment ps (cs.take ps.length)
      = List.zipWith globSegment (ps.take ps.length) (cs.take ps.length) := by
        rw [List.take_length]
    _ = (List.zipWith globSegment ps cs).take ps.length := List.take_zipWith.symm
    _ = List.zipWith globSegment ps cs :=
        List.take_of_length_le (by rw [List.length_zipWith]; exact min_le_left _ _)

theorem dir_iff {p q : List Bytes} (hq : q <+: p) {dirOnly isDir : Bool} :
    (dirOnly = false ∨ q.length < p.length ∨ isDir = true) ↔
      (dirOnly = true → q ≠ p ∨ isDir = true) := by
  have hlen : q.length < p.length ↔ q ≠ p := by
    constructor
    · rintro hlt rfl
      exact Nat.lt_irrefl _ hlt
    · intro hne
      exact Nat.lt_of_not_le fun hge => hne (hq.eq_of_length_le hge)
  rw [hlen]
  cases dirOnly <;> simp

theorem Pattern.matches_iff_of_anchored {pat : Pattern} {q : List Bytes}
    (h : pat.anchored = true) : pat.Matches q ↔ pat.segs.length = q.length ∧
      (List.zipWith globSegment pat.segs q).all id = true := by
  rw [Pattern.Matches, if_pos h, forall₂_glob_iff]

/-- The segments of an anchored pattern belong to the same number of segments of the path. -/
theorem Pattern.ignores_iff_of_anchored {pat : Pattern} {p : List Bytes} {isDir : Bool}
    (h : pat.anchored = true) : pat.ignores p isDir = true ↔
      ∃ q, q ≠ [] ∧ q <+: p ∧ pat.Matches q ∧ (pat.dirOnly = true → q ≠ p ∨ isDir = true) := by
  rw [Pattern.ignores, if_pos h]
  simp only [Pattern.matches_iff_of_anchored h, Bool.and_eq_true, Bool.or_eq_true,
    Bool.not_eq_true', decide_eq_true_eq]
  constructor
  · rintro ⟨⟨hle, hall⟩, hdir⟩
    have hpre := List.take_prefix pat.segs.length p
    have hlen : (p.take pat.segs.length).length = pat.segs.length := List.length_take_of_le hle
    refine ⟨p.take pat.segs.length, ?_, hpre, ⟨hlen.symm, ?_⟩, ?_⟩
    · rw [← List.length_pos_iff, hlen]
      exact List.length_pos_of_ne_nil pat.segs_ne
    · rwa [zipWith_glob_take]
    · rwa [← dir_iff hpre, hlen]
  · rintro ⟨q, -, hq, ⟨hlen, hall⟩, hdir⟩
    rw [List.prefix_iff_eq_take.1 hq, ← hlen, zipWith_glob_take] at hall
    rw [← dir_iff hq, ← hlen] at hdir
    exact ⟨⟨hlen ▸ hq.length_le, hall⟩, hdir⟩

theorem Pattern.ignores_iff_of_not_anchored {pat : Pattern} {p : List Bytes} {isDir : Bool}
    (h : ¬ pat.anchored = true) : pat.ignores p isDir = true ↔
      ∃ q, q ≠ [] ∧ q <+: p ∧ pat.Matches q ∧ (pat.dirOnly = true → q ≠ p ∨ isDir = true) := by
  rw [Pattern.ignores, if_neg h]
  simp only [Pattern.Matches, if_neg h, List.any_eq_true, Bool.and_eq_true, Bool.or_eq_true,
    Bool.not_eq_true', decide_eq_true_eq, Prod.exists, List.mem_zipIdx_iff_getElem?]
  constructor
  · rintro ⟨c, i, hi, hglob, hdir⟩
    have hpre := List.take_prefix (i + 1) p
    have hlen : (p.take (i + 1)).length = i + 1 :=
      List.length_take_of_le (List.getElem?_eq_some_iff.1 hi).1
    refine ⟨p.take (i + 1), ?_, hpre, ⟨c, ?_, hglob⟩, ?_⟩
    · exact List.ne_nil_of_length_pos (by omega)
    · rw [Option.mem_def, List.getLast?_eq_getElem?, hlen, List.getElem?_take_of_lt (by omega)]
      exact hi
    · rwa [← dir_iff hpre, hlen]
  · rintro ⟨q, hne, hq, ⟨c, hc, hglob⟩, hdir⟩
    have hpos := List.length_pos_of_ne_nil hne
    rw [Option.mem_def, List.getLast?_eq_getElem?] at hc
    rw [← dir_iff hq] at hdir
    refine ⟨c, q.length - 1, ?_, hglob, ?_⟩
    · obtain ⟨rest, rfl⟩ := hq
      rwa [List.getElem?_append_left (by omega)]
    · rwa [Nat.sub_add_cancel hpos]

/-- **A pattern excludes a path** that it matches, or below one; one for directories needs the path
itself to be one. -/
theorem Pattern.ignores_iff {pat : Pattern} {p : List Bytes} {isDir : Bool} :
    pat.ignores p isDir = true ↔
      ∃ q, q ≠ [] ∧ q <+: p ∧ pat.Matches q ∧ (pat.dirOnly = true → q ≠ p ∨ isDir = true) := by
  by_cases h : pat.anchored = true
  · exact ignores_iff_of_anchored h
  · exact ignores_iff_of_not_anchored h

theorem IgnoreRules.ignored_iff {rules : IgnoreRules} {rel : Bytes} {isDir : Bool} :
    rules.ignored rel isDir = true ↔
      ∃ pat ∈ rules.patterns, pat.ignores (split rel) isDir = true := by
  -- The early returns are for paths without segments, which no pattern excludes.
  have hnil : split rel = [] → ∀ pat : Pattern, ¬ pat.ignores (split rel) isDir = true := by
    intro hsplit pat hpat
    obtain ⟨q, hne, hq, -⟩ := Pattern.ignores_iff.1 hpat
    rw [hsplit] at hq
    exact hne (List.prefix_nil.1 hq)
  rw [IgnoreRules.ignored]
  split_ifs with h h'
  · rw [Bool.or_eq_true, List.isEmpty_iff, List.isEmpty_iff] at h
    refine iff_of_false not_false ?_
    rintro ⟨pat, hmem, hpat⟩
    rcases h with hempty | rfl
    · rw [hempty] at hmem
      exact List.not_mem_nil hmem
    · exact hnil Split.pieces_nil pat hpat
  · refine iff_of_false not_false ?_
    rintro ⟨pat, -, hpat⟩
    exact hnil (List.isEmpty_iff.1 h') pat hpat
  · rw [List.any_eq_true]

theorem Pattern.Matches.ne_nil {pat : Pattern} {p : List Bytes} (h : pat.Matches p) :
    p ≠ [] := by
  rintro rfl
  rw [Pattern.Matches] at h
  split_ifs at h
  · exact pat.segs_ne (List.forall₂_nil_right_iff.1 h)
  · obtain ⟨c, hc, -⟩ := h
    simp at hc

theorem IgnoreRules.ignored_false_iff {rules : IgnoreRules} {rel : Bytes} :
    rules.ignored rel false = true ↔ rules.Covers (split rel) := by
  simp only [ignored_iff, Pattern.ignores_iff, Covers, Bool.false_eq_true, or_false]
  refine exists_congr fun pat => and_congr_right fun _ => exists_congr fun q =>
    and_congr_right fun _ => and_congr_right fun _ => and_congr_right fun _ => ?_
  rw [← Bool.not_eq_true]
  exact imp_not_comm

/-- **What is excluded as a directory**: also what a pattern for directories matches. -/
theorem IgnoreRules.ignored_true_iff {rules : IgnoreRules} {rel : Bytes} :
    rules.ignored rel true = true ↔
      rules.Covers (split rel) ∨ rules.NamesDir (split rel) := by
  simp only [ignored_iff, Pattern.ignores_iff, or_true, implies_true, and_true]
  constructor
  · rintro ⟨pat, hpat, q, hne, hq, hmatch⟩
    by_cases hself : q = split rel ∧ pat.dirOnly = true
    · rw [hself.1] at hmatch
      exact .inr ⟨pat, hpat, hself.2, hmatch⟩
    · refine .inl ⟨pat, hpat, q, hne, hq, hmatch, fun heq => ?_⟩
      exact Bool.eq_false_iff.2 fun hdir => hself ⟨heq, hdir⟩
  · rintro (⟨pat, hpat, q, hne, hq, hmatch, -⟩ | ⟨pat, hpat, -, hmatch⟩)
    · exact ⟨pat, hpat, q, hne, hq, hmatch⟩
    · exact ⟨pat, hpat, _, hmatch.ne_nil, List.prefix_rfl, hmatch⟩

example :
    let rules := IgnoreRules.parse (bytes "# comment\n node_modules/\r\n/bui*\n")
    rules.ignored (bytes "a/node_modules/x") false = true ∧
      rules.ignored (bytes "node_modules") false = false ∧
      rules.ignored (bytes "build/out.o") false = true ∧
      rules.ignored (bytes "src/build") true = false := by
  decide

/-! ### Paths below an excluded directory -/

theorem split_intercalate {p : List Bytes} (h : ∀ c ∈ p, c ≠ [] ∧ slash ∉ c) :
    split ([slash].intercalate p) = p := by
  apply Split.pieces_intercalate (by decide)
  intro c hc
  refine ⟨(h c hc).1, fun x hx => beq_eq_false_iff_ne.2 ?_⟩
  rintro rfl
  exact (h c hc).2 hx

theorem IgnoreRules.ignored_true_of_ignored {rules : IgnoreRules} {rel : Bytes} {isDir : Bool}
    (h : rules.ignored rel isDir = true) : rules.ignored rel true = true := by
  cases isDir with
  | true => exact h
  | false => exact ignored_true_iff.2 (.inl (ignored_false_iff.1 h))

theorem IgnoreRules.Covers.of_prefix {rules : IgnoreRules} {p q : List Bytes} (hq : q <+: p)
    (hne : q ≠ p) (h : rules.Covers q ∨ rules.NamesDir q) : rules.Covers p := by
  have hproper : ∀ r, r <+: q → r ≠ p := by
    rintro r hr rfl
    exact hne (hq.eq_of_length_le hr.length_le)
  rcases h with ⟨pat, hpat, r, hr, hrq, hmatch, -⟩ | ⟨pat, hpat, -, hmatch⟩
  · exact ⟨pat, hpat, r, hr, hrq.trans hq, hmatch, fun heq => absurd heq (hproper r hrq)⟩
  · exact ⟨pat, hpat, q, hmatch.ne_nil, hq, hmatch, fun heq => absurd heq hne⟩

/-- **Rules are closed downwards**: what is below an excluded directory is excluded. -/
theorem IgnoreRules.ignored_of_below {rules : IgnoreRules} {d e : Bytes} {isDir : Bool}
    (h : rules.ignored d true = true) (hpre : split d <+: split e) (hne : split d ≠ split e) :
    rules.ignored e isDir = true := by
  have hcov := ignored_false_iff.2 (Covers.of_prefix hpre hne (ignored_true_iff.1 h))
  cases isDir with
  | true => exact ignored_true_of_ignored hcov
  | false => exact hcov

/-- **One lookup is enough**: above a path that is not excluded nothing is. -/
theorem IgnoreRules.forall_ignored_iff {rules : IgnoreRules} {p : List Bytes}
    (hnames : ∀ c ∈ p, c ≠ [] ∧ slash ∉ c) (isDir : List Bytes → Bool) :
    (∀ q, q ≠ [] → q <+: p → rules.ignored ([slash].intercalate q) (isDir q) = false) ↔
      rules.ignored ([slash].intercalate p) (isDir p) = false := by
  constructor
  · intro h
    by_cases hp : p = []
    · simp [hp, IgnoreRules.ignored]
    · exact h p hp List.prefix_rfl
  · intro h q hne hq
    by_cases hqp : q = p
    · rw [hqp, h]
    · by_contra hq'
      rw [Bool.not_eq_false] at hq'
      have hlower : rules.ignored ([slash].intercalate p) (isDir p) = true := by
        apply ignored_of_below (ignored_true_of_ignored hq')
        · rwa [split_intercalate hnames, split_intercalate fun c hc => hnames c (hq.subset hc)]
        · rwa [split_intercalate hnames, split_intercalate fun c hc => hnames c (hq.subset hc)]
      rw [hlower] at h
      cases h

end Ignore

end WslDrive
