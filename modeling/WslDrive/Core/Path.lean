import Mathlib.Data.List.Induction
import WslDrive.Core.Types
import WslDrive.Lib.Split

/-!
# Relative paths

The key form of a path: components separated by single `/`, without `.` components.  Every loop
of the code that walks over a path cuts it in the same way, so it is written as a fold over
`Path.components`, the successive values of the loop's `comp`.

* `Path.normalizePath_eq` — normalising joins the components that count;
* `Path.parts_normalizePath` — and keeps them;
* `Path.pathIsUnder_iff` — a normalised path is under another if it extends its components.
-/

namespace WslDrive

namespace Path

/-- The separator that paths are written with. -/
def slash : UInt8 := 0x2F

/-- `.`, the directory itself. -/
def dot : Bytes := [0x2E]

/-- `..`, the directory above. -/
def dotdot : Bytes := [0x2E, 0x2E]

/-- `is_path_separator`: slash or backslash. -/
def isPathSeparator (c : UInt8) : Bool := c == 0x2F || c == 0x5C

/-- What the scanning loops bind `comp` to, in order. -/
def components (path : Bytes) : List Bytes := Split.scan isPathSeparator path

/-- One round of the loop of `normalize_path_append`. -/
def normalizeStep (out comp : Bytes) : Bytes :=
  if comp = [] ∨ comp = dot then out
  else if out ≠ [] then out ++ slash :: comp
  else comp

/-- `normalize_path`. -/
def normalizePath (path : Bytes) : Bytes := (components path).foldl normalizeStep []

/-- `split_parent`: parent and leaf of a normalised path. -/
def splitParent (path : Bytes) : Bytes × Bytes :=
  match path.reverse.dropWhile (· != slash) with
  | [] => ([], path)
  | _ :: parent => (parent.reverse, (path.reverse.takeWhile (· != slash)).reverse)

/-- `path_is_under`: `child` is `parent` or below it, both normalised. -/
def pathIsUnder (child parent : Bytes) : Bool :=
  parent.isEmpty || (parent.isPrefixOf child &&
    (child.length == parent.length || child[parent.length]? == some slash))

/-- The components that count: the loops skip empty ones and `.`. -/
def parts (path : Bytes) : List Bytes := (components path).filter fun c => c ≠ [] ∧ c ≠ dot

/-- A byte string that can be one component of a normalised path. -/
def IsPart (c : Bytes) : Prop := c ≠ [] ∧ c ≠ dot ∧ ∀ b ∈ c, isPathSeparator b = false

theorem isPathSeparator_slash : isPathSeparator slash = true := rfl

theorem parts_eq (path : Bytes) :
    parts path = (Split.pieces isPathSeparator path).filter fun c => c ≠ dot := by
  rw [← Split.filter_scan, List.filter_filter, parts, components]
  congr 1
  funext c
  cases c <;> simp

theorem isPart_of_mem_parts {path c : Bytes} (h : c ∈ parts path) : IsPart c := by
  rw [parts_eq, List.mem_filter] at h
  exact ⟨Split.ne_nil_of_mem_pieces h.1, by simpa using h.2,
    fun b hb => (Split.forall_of_mem_pieces h.1 b hb).2⟩

theorem mem_of_mem_parts {path c : Bytes} {b : UInt8} (h : c ∈ parts path) (hb : b ∈ c) :
    b ∈ path := by
  rw [parts_eq, List.mem_filter] at h
  exact (Split.forall_of_mem_pieces h.1 b hb).1

theorem parts_intercalate_sep {sep : UInt8} (hsep : isPathSeparator sep = true) {cs : List Bytes}
    (h : ∀ c ∈ cs, IsPart c) : parts ([sep].intercalate cs) = cs := by
  rw [parts_eq, Split.pieces_intercalate hsep cs fun c hc => ⟨(h c hc).1, (h c hc).2.2⟩]
  exact List.filter_eq_self.2 fun c hc => by simpa using (h c hc).2.1

theorem parts_intercalate {cs : List Bytes} (h : ∀ c ∈ cs, IsPart c) :
    parts ([slash].intercalate cs) = cs :=
  parts_intercalate_sep isPathSeparator_slash h

theorem foldl_normalizeStep (cs : List Bytes) (out : Bytes) (hout : out ≠ []) :
    cs.foldl normalizeStep out =
      [slash].intercalate (out :: cs.filter fun c => c ≠ [] ∧ c ≠ dot) := by
  induction cs generalizing out with
  | nil => simp
  | cons c cs ih =>
    rw [List.foldl_cons, normalizeStep]
    by_cases hc : c = [] ∨ c = dot
    · rw [if_pos hc, ih out hout,
        List.filter_cons_of_neg (by simpa [Classical.or_iff_not_imp_left] using hc)]
    · rw [if_neg hc, if_pos hout, ih _ (by simp), List.filter_cons_of_pos (by simpa using hc),
        List.intercalate_cons_cons, ← List.singleton_append, ← List.append_assoc]
      cases cs.filter fun c => c ≠ [] ∧ c ≠ dot with
      | nil => simp
      | cons d ds => simp [List.intercalate_cons_cons]

/-- **A normalised path joins the components that count.** -/
theorem normalizePath_eq (path : Bytes) :
    normalizePath path = [slash].intercalate (parts path) := by
  rw [normalizePath, parts]
  induction components path with
  | nil => rfl
  | cons c cs ih =>
    rw [List.foldl_cons, normalizeStep]
    by_cases hc : c = [] ∨ c = dot
    · rw [if_pos hc, ih,
        List.filter_cons_of_neg (by simpa [Classical.or_iff_not_imp_left] using hc)]
    · rw [if_neg hc, if_neg (by simp), foldl_normalizeStep _ _ (fun h => hc (.inl h)),
        List.filter_cons_of_pos (by simpa using hc)]

theorem parts_normalizePath (path : Bytes) : parts (normalizePath path) = parts path := by
  rw [normalizePath_eq, parts_intercalate fun c hc => isPart_of_mem_parts hc]

theorem normalizePath_idem (path : Bytes) :
    normalizePath (normalizePath path) = normalizePath path := by
  rw [normalizePath_eq, parts_normalizePath, ← normalizePath_eq]

theorem intercalate_concat {cs : List Bytes} (hcs : cs ≠ []) (c : Bytes) :
    [slash].intercalate (cs ++ [c]) = [slash].intercalate cs ++ slash :: c := by
  induction cs with
  | nil => exact absurd rfl hcs
  | cons d ds ih =>
    cases ds with
    | nil => simp [List.intercalate_cons_cons]
    | cons e es =>
      rw [List.cons_append, List.cons_append, List.intercalate_cons_cons, ← List.cons_append,
        ih (by simp), List.intercalate_cons_cons]
      simp

/-- **Splitting a normalised path** takes off its last component. -/
theorem splitParent_intercalate (cs : List Bytes) {c : Bytes} (hc : IsPart c) :
    splitParent ([slash].intercalate (cs ++ [c])) = ([slash].intercalate cs, c) := by
  have hne : ∀ b ∈ c.reverse, (b != slash) = true := by
    intro b hb
    have := hc.2.2 b (List.mem_reverse.1 hb)
    rw [bne_iff_ne]
    rintro rfl
    rw [isPathSeparator_slash] at this
    cases this
  rw [splitParent]
  by_cases hcs : cs = []
  · subst hcs
    have hone : [slash].intercalate ([] ++ [c]) = c := by simp
    rw [hone, List.dropWhile_eq_nil_iff.2 hne]
    simp
  · have hrev : ([slash].intercalate (cs ++ [c])).reverse =
        c.reverse ++ slash :: ([slash].intercalate cs).reverse := by
      rw [intercalate_concat hcs]
      simp
    rw [hrev, List.dropWhile_append_of_pos hne, List.takeWhile_append_of_pos hne,
      List.dropWhile_cons_of_neg (by simp), List.takeWhile_cons_of_neg (by simp)]
    simp

theorem parts_append_slash (l₁ l₂ : Bytes) : parts (l₁ ++ slash :: l₂) = parts l₁ ++ parts l₂ := by
  simp only [parts_eq, Split.pieces_append_cons l₁ l₂ isPathSeparator_slash, List.filter_append]

theorem intercalate_append {a b : List Bytes} (ha : a ≠ []) (hb : b ≠ []) :
    [slash].intercalate (a ++ b) = [slash].intercalate a ++ slash :: [slash].intercalate b := by
  induction b using List.reverseRecOn with
  | nil => exact absurd rfl hb
  | append_singleton b c ih =>
    by_cases hb' : b = []
    · rw [hb', List.nil_append, intercalate_concat ha]
      simp
    · rw [← List.append_assoc, intercalate_concat (by simp [ha]), ih hb', intercalate_concat hb']
      simp

/-- **One normalised path is under another** exactly if its components extend the other's. -/
theorem pathIsUnder_iff {a b : List Bytes} (ha : ∀ c ∈ a, IsPart c) (hb : ∀ c ∈ b, IsPart c) :
    pathIsUnder ([slash].intercalate a) ([slash].intercalate b) = true ↔ b <+: a := by
  by_cases hnil : b = []
  · subst hnil
    exact iff_of_true rfl List.nil_prefix
  have hne : [slash].intercalate b ≠ [] := by
    intro h
    have := parts_intercalate hb
    rw [h] at this
    exact hnil this.symm
  simp only [pathIsUnder, Bool.or_eq_true, List.isEmpty_iff, hne, false_or, Bool.and_eq_true,
    List.isPrefixOf_iff_prefix, beq_iff_eq]
  constructor
  · rintro ⟨⟨rest, hrest⟩, hlen | hslash⟩
    · have heq : [slash].intercalate b = [slash].intercalate a := by
        have := congrArg List.length hrest
        rw [List.length_append, hlen, Nat.add_eq_left] at this
        rw [← hrest, List.length_eq_zero_iff.1 this, List.append_nil]
      have hab : a = b := by rw [← parts_intercalate ha, ← heq, parts_intercalate hb]
      exact hab ▸ List.prefix_refl a
    · rw [← hrest, List.getElem?_append_right (Nat.le_refl _), Nat.sub_self] at hslash
      cases rest with
      | nil => cases hslash
      | cons x rest =>
        cases hslash
        rw [← parts_intercalate ha, ← hrest, parts_append_slash, parts_intercalate hb]
        exact List.prefix_append _ _
  · rintro ⟨c, rfl⟩
    by_cases hc : c = []
    · rw [hc, List.append_nil]
      exact ⟨List.prefix_refl _, .inl rfl⟩
    · rw [intercalate_append hnil hc]
      refine ⟨List.prefix_append _ _, .inr ?_⟩
      rw [List.getElem?_append_right (Nat.le_refl _), Nat.sub_self]
      rfl

example : normalizePath (bytes "./a\\\\b//../c/.") = bytes "a/b/../c" := by decide

end Path

end WslDrive
