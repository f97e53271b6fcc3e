import WslDrive.Core.FsPath

/-!
# Path confinement

Every path of a request goes through `RootServer::resolve` before the agent touches the disk.
The gate normalises the path, refuses `..` and `:` in its components, joins it to the served root
and compares the normal forms once more.  The operating system, however, reads the joined path
only up to its first NUL byte.

* `Resolve.pathIsUnder_join` — what the second check adds: it refuses a path that passed the first
  one only if the normal form of the root is `.`;
* `Resolve.resolve_confined_iff` — the path the operating system acts on stays below a root other
  than `/` unless the normalised path begins with `..` and a NUL byte.
-/

namespace WslDrive

namespace Resolve

open Path FsPath

/-- The served root.  It comes from a command-line argument, a C string, so it holds no NUL. -/
structure Root where
  path : Bytes
  nulFree : 0 ∉ path

/-- The loop of the `path_is_under` of the server: both iterators advance together, and an empty
element of the root (a trailing separator) is not compared. -/
def underLoop : List Bytes → List Bytes → Bool
  | [], _ => true
  | [] :: rs, qs => underLoop rs qs.tail
  | (_ :: _) :: _, [] => false
  | (a :: r) :: rs, q :: qs => if q ≠ a :: r then false else underLoop rs qs

/-- `path_is_under` of the server, on filesystem paths. -/
def pathIsUnder (root p : Bytes) : Bool :=
  underLoop (parse root).normal.elements (parse p).normal.elements

/-- `is_contained_relative`, POSIX build: the components are what stands between slashes. -/
def isContainedRelative (norm : Bytes) : Bool :=
  norm.isEmpty || (norm.splitOn slash).all fun comp => comp != dotdot && !comp.contains 0x3A

/-- `RootServer::resolve`. -/
def resolve (root : Root) (rel : Bytes) : Except Errc Bytes :=
  let norm := normalizePath rel
  if !isContainedRelative norm then .error .invalidPath
  else
    let full := append root.path norm
    if !pathIsUnder root.path full then .error .invalidPath
    else .ok full

/-! ### What confinement means -/

/-- A walk along `names`, started `depth` levels below a directory, never leaves that directory. -/
def staysBelow : ℕ → List Bytes → Bool
  | _, [] => true
  | depth, n :: ns =>
    if n = dot then staysBelow depth ns
    else if n = dotdot then
      match depth with
      | 0 => false
      | d + 1 => staysBelow d ns
    else staysBelow (depth + 1) ns

/-- Of two paths by their normal names: the names of `root`, and from there on no `..`. -/
def IsBelow (root p : List Bytes) : Prop := ∃ below, p = root ++ below ∧ dotdot ∉ below

/-- In normal form, `p` is `root` or below it. -/
def Confined (root p : Bytes) : Prop :=
  isAbsolute p = isAbsolute root ∧
    IsBelow (normalNames (isAbsolute root) (names root)) (normalNames (isAbsolute p) (names p))

/-- The normal form of the path is `.`: nothing of it is left. -/
def IsCurrentDir (p : Bytes) : Prop := (parse p).normal = ⟨false, [dot], false⟩

/-- The normal form of the path is `/`. -/
def IsRootDir (p : Bytes) : Prop := (parse p).normal = ⟨true, [], false⟩

/-! ### The first check -/

/-- The components of a path that passed the first check. -/
structure IsSafe (c : Bytes) : Prop where
  isPart : IsPart c
  ne_dotdot : c ≠ dotdot
  no_colon : 0x3A ∉ c

theorem IsPart.slash_notMem {c : Bytes} (h : IsPart c) : slash ∉ c := fun hs => by
  have := h.2.2 slash hs
  simp [isPathSeparator_slash] at this

theorem isContainedRelative_iff (rel : Bytes) :
    isContainedRelative (normalizePath rel) = true ↔ ∀ c ∈ parts rel, IsSafe c := by
  rw [normalizePath_eq]
  have hparts : ∀ c ∈ parts rel, IsPart c := fun c => isPart_of_mem_parts
  generalize parts rel = cs at hparts
  rcases eq_or_ne cs [] with rfl | hne
  · simp [isContainedRelative]
  · have hsplit : ([slash].intercalate cs).splitOn slash = cs :=
      List.splitOn_intercalate slash (fun c hc => IsPart.slash_notMem (hparts c hc)) hne
    have hnil : [slash].intercalate cs ≠ [] := by
      intro h
      rw [h] at hsplit
      obtain ⟨c, -, rfl⟩ : ∃ c, c ∈ cs ∧ cs = [c] := ⟨[], by simp [← hsplit], by simp [← hsplit]⟩
      exact (hparts c (by simp)).1 (by simpa using h)
    simp only [isContainedRelative, hsplit, List.isEmpty_eq_false_iff.2 hnil, Bool.false_or,
      List.all_eq_true, Bool.and_eq_true, bne_iff_ne, Bool.not_eq_true', List.contains_eq_mem,
      decide_eq_false_iff_not]
    exact ⟨fun h c hc => ⟨hparts c hc, (h c hc).1, (h c hc).2⟩,
      fun h c hc => ⟨(h c hc).ne_dotdot, (h c hc).no_colon⟩⟩

theorem isAbsolute_normalizePath (rel : Bytes) : isAbsolute (normalizePath rel) = false := by
  rw [normalizePath_eq]
  have hparts : ∀ c ∈ parts rel, IsPart c := fun c => isPart_of_mem_parts
  cases hcs : parts rel with
  | nil => rfl
  | cons c cs =>
    have hc := hparts c (by simp [hcs])
    obtain ⟨b, bs, rfl⟩ := List.exists_cons_of_ne_nil hc.1
    have hb : b ≠ slash := fun h => IsPart.slash_notMem hc (by simp [h])
    cases cs <;> simp [isAbsolute, hb]

theorem names_normalizePath (rel : Bytes) : names (normalizePath rel) = parts rel := by
  rw [normalizePath_eq, names, Split.pieces_intercalate (by rfl)]
  intro c hc
  have hc := isPart_of_mem_parts hc
  refine ⟨hc.1, fun b hb => ?_⟩
  have := hc.2.2 b hb
  simp only [isPathSeparator, Bool.or_eq_false_iff] at this
  exact this.1

/-! ### The second check -/

theorem underLoop_append (as rs qs : List Bytes) :
    underLoop (as ++ rs) (as ++ qs) = underLoop rs qs := by
  induction as with
  | nil => rfl
  | cons a as ih => cases a <;> simp [underLoop, ih]

theorem underLoop_self (qs : List Bytes) : underLoop qs qs = true := by
  simpa [underLoop] using underLoop_append qs [] []

theorem underLoop_trailing (b : Bool) (qs : List Bytes) :
    underLoop (if b then [[]] else []) qs = true := by
  cases b <;> rfl

theorem underLoop_elements {l m : Lexical} (rest : List Bytes) (habs : m.absolute = l.absolute)
    (hnames : m.names = l.names ++ rest) : underLoop l.elements m.elements = true := by
  rw [Lexical.elements, Lexical.elements, habs, hnames]
  simp only [List.append_assoc]
  rw [underLoop_append, underLoop_append, underLoop_trailing]

theorem isCurrentDir_iff (p : Bytes) : IsCurrentDir p ↔
    isAbsolute p = false ∧ names p ≠ [] ∧ normalNames (isAbsolute p) (names p) = [] := by
  by_cases hns : normalNames (isAbsolute p) (names p) = []
  · cases habs : isAbsolute p with
    | true => simp [IsCurrentDir, Lexical.normal_of_absolute (l := parse p) hns habs]
    | false =>
      by_cases hne : names p = []
      · simp [IsCurrentDir, Lexical.normal_of_nil (l := parse p) hne habs, hne]
      · exact ⟨fun _ => ⟨rfl, hne, habs ▸ hns⟩,
          fun _ => Lexical.normal_of_relative (l := parse p) hns habs hne⟩
  · -- Some name is left, and names left by normalisation are not `.`.
    have hnames := (Lexical.normal_of_ne_nil (l := parse p) hns).2
    refine iff_of_false (fun h => ?_) fun h => hns h.2.2
    rw [IsCurrentDir] at h
    have hdot : dot ∈ normalNames (isAbsolute p) (names p) := by
      have : dot ∈ (parse p).normal.names := by simp [h]
      rwa [hnames] at this
    exact dot_notMem_normalNames _ _ hdot

theorem isRootDir_iff (p : Bytes) :
    IsRootDir p ↔ isAbsolute p = true ∧ normalNames (isAbsolute p) (names p) = [] := by
  constructor
  · intro h
    by_cases hns : normalNames (isAbsolute p) (names p) = []
    · refine ⟨?_, hns⟩
      cases habs : isAbsolute p with
      | true => rfl
      | false =>
        by_cases hne : names p = []
        · simp [IsRootDir, Lexical.normal_of_nil (l := parse p) hne habs] at h
        · simp [IsRootDir, Lexical.normal_of_relative (l := parse p) hns habs hne] at h
    · have hnames := (Lexical.normal_of_ne_nil (l := parse p) hns).2
      rw [h] at hnames
      exact absurd hnames.symm hns
  · rintro ⟨habs, hns⟩
    exact Lexical.normal_of_absolute (l := parse p) hns habs

theorem pathIsUnder_join (root rel : Bytes) (h : ∀ c ∈ parts rel, IsSafe c) :
    pathIsUnder root (append root (normalizePath rel)) = true ↔
      ¬ IsCurrentDir root ∨ parts rel = [] := by
  have hrel := isAbsolute_normalizePath rel
  set full := parse (append root (normalizePath rel)) with hfull
  have habs : full.absolute = isAbsolute root := isAbsolute_append hrel
  have hfn : full.names = names root ++ parts rel := by
    rw [← names_normalizePath]
    exact names_append hrel
  have hnames : normalNames full.absolute full.names =
      normalNames (isAbsolute root) (names root) ++ parts rel := by
    rw [habs, hfn]
    exact normalNames_append _ _ _ fun c hc => ⟨(h c hc).isPart.2.1, (h c hc).ne_dotdot⟩
  rw [isCurrentDir_iff, pathIsUnder, ← hfull]
  by_cases hroot : normalNames (isAbsolute root) (names root) = []
  · rw [hroot, List.nil_append] at hnames
    cases hr : isAbsolute root with
    | true =>
      rw [Lexical.normal_of_absolute (l := parse root) hroot hr]
      by_cases hp : parts rel = []
      · rw [Lexical.normal_of_absolute (hnames.trans hp) (habs.trans hr)]
        simp [underLoop_self]
      · obtain ⟨h1, h2⟩ := Lexical.normal_of_ne_nil (hnames ▸ hp)
        have := underLoop_elements (l := ⟨true, [], false⟩) (parts rel) (h1.trans (habs.trans hr))
          (h2.trans hnames)
        simp [this]
    | false =>
      by_cases hnil : names root = []
      · -- The empty root has no elements, so the loop compares nothing.
        rw [Lexical.normal_of_nil (l := parse root) hnil hr]
        simp [Lexical.elements, underLoop, hnil]
      rw [Lexical.normal_of_relative (l := parse root) hroot hr hnil]
      cases hp : parts rel with
      | nil =>
        have hfn : full.names ≠ [] := by
          rw [hfn, hp, List.append_nil]
          exact hnil
        rw [Lexical.normal_of_relative (hnames.trans hp) (habs.trans hr) hfn]
        simp [underLoop_self]
      | cons c cs =>
        -- The root reads `.`, and no component of the path does.
        have hc : c ≠ dot := (h c (by simp [hp])).isPart.2.1
        rw [hp] at hnames
        obtain ⟨h1, h2⟩ := Lexical.normal_of_ne_nil (l := full) (hnames ▸ List.cons_ne_nil c cs)
        have hel : full.normal.elements =
            c :: (cs ++ if full.normal.trailing then [[]] else []) := by
          rw [Lexical.elements, h1, h2, hnames, habs, hr]
          rfl
        have hfirst : underLoop [dot] (c :: (cs ++ if full.normal.trailing then [[]] else [])) =
            false := if_pos hc
        have hdot : (⟨false, [dot], false⟩ : Lexical).elements = [dot] := rfl
        rw [hr] at hroot
        simp [hel, hdot, hfirst, hroot, hnil]
  · obtain ⟨h1, h2⟩ := Lexical.normal_of_ne_nil (l := parse root) hroot
    obtain ⟨h3, h4⟩ := Lexical.normal_of_ne_nil (l := full) (by simp [hnames, hroot])
    have := underLoop_elements (l := (parse root).normal) (m := full.normal) (parts rel)
      (by rw [h3, h1, habs]; rfl) (by rw [h4, h2, hnames]; rfl)
    simp [this, hroot]

/-! ### What the operating system sees -/

theorem resolve_eq_ok_iff (root : Root) (rel full : Bytes) :
    resolve root rel = .ok full ↔ (∀ c ∈ parts rel, IsSafe c) ∧
      (¬ IsCurrentDir root.path ∨ parts rel = []) ∧
        full = append root.path (normalizePath rel) := by
  simp only [resolve]
  by_cases h1 : isContainedRelative (normalizePath rel) = true
  · have hsafe := (isContainedRelative_iff rel).1 h1
    have hunder := pathIsUnder_join root.path rel hsafe
    by_cases h2 : pathIsUnder root.path (append root.path (normalizePath rel)) = true
    · simp only [h1, h2, hunder.1 h2, Bool.not_true, Bool.false_eq_true, if_false,
        Except.ok.injEq, true_and]
      exact ⟨fun h => ⟨hsafe, h.symm⟩, fun h => h.2.symm⟩
    · simp [h1, h2, mt hunder.2 h2]
  · have hsafe := mt (isContainedRelative_iff rel).2 h1
    simp [h1, hsafe]

/-- The stack of normalisation during a walk that stays below the names `base`. -/
theorem foldl_pushName_of_staysBelow (absolute : Bool) (base : List Bytes)
    {ns above : List Bytes} (h : dotdot ∉ above) (hs : staysBelow above.length ns = true) :
    ∃ above', ns.foldl (pushName absolute) (above ++ base) = above' ++ base ∧
      dotdot ∉ above' := by
  induction ns generalizing above with
  | nil => exact ⟨above, rfl, h⟩
  | cons n ns ih =>
    have hnd : dotdot ≠ dot := by decide
    by_cases hd : n = dot
    · simp only [staysBelow, hd, if_true] at hs
      simpa [pushName, hd] using ih h hs
    · by_cases hdd : n = dotdot
      · cases above with
        | nil => simp [staysBelow, hnd, hdd] at hs
        | cons a above =>
          obtain ⟨ha, h⟩ := not_or.1 (mt List.mem_cons.2 h)
          simp only [staysBelow, hdd, hnd, if_true, if_false, List.length_cons] at hs
          simpa [pushName, hdd, hnd, Ne.symm ha] using ih h hs
      · simp only [staysBelow, hd, hdd, if_false] at hs
        have h' : dotdot ∉ n :: above := by simp [h, Ne.symm hdd]
        simpa [pushName, hd, hdd] using ih h' hs

theorem isBelow_of_staysBelow (absolute : Bool) (as : List Bytes) {ns : List Bytes}
    (h : staysBelow 0 ns = true) :
    IsBelow (normalNames absolute as) (normalNames absolute (as ++ ns)) := by
  obtain ⟨above, habove, hdd⟩ := foldl_pushName_of_staysBelow absolute
    (as.foldl (pushName absolute) []) (List.not_mem_nil (a := dotdot)) h
  refine ⟨above.reverse, ?_, by simpa using hdd⟩
  rw [normalNames, normalNames, List.foldl_append, ← List.reverse_append, ← habove]
  rfl

/-- One step up stays below only at the root directory, which is its own parent. -/
theorem isBelow_dotdot_iff (absolute : Bool) (as : List Bytes) :
    IsBelow (normalNames absolute as) (normalNames absolute (as ++ [dotdot])) ↔
      absolute = true ∧ normalNames absolute as = [] := by
  have hnd : dotdot ≠ dot := by decide
  have hstep : normalNames absolute (as ++ [dotdot]) =
      (pushName absolute (as.foldl (pushName absolute) []) dotdot).reverse := by
    simp [normalNames]
  rw [hstep, normalNames, IsBelow]
  cases as.foldl (pushName absolute) [] with
  | nil => cases absolute <;> simp [pushName, hnd]
  | cons top rest =>
    have hne : (top :: rest).reverse ≠ [] := by simp
    simp only [hne, and_false, iff_false, not_exists, not_and, not_not]
    intro below h
    by_cases ht : top = dotdot
    · have hb : below = [dotdot] := by
        simpa [pushName, hnd, ht] using h.symm
      simp [hb]
    · -- A name is taken away, so the names of the root are not all there.
      have hlen := congrArg List.length h
      simp [pushName, hnd, ht] at hlen

theorem confined_join_iff (root : Root) (rel : Bytes) :
    Confined root.path (cString (append root.path (normalizePath rel))) ↔
      IsBelow (normalNames (isAbsolute root.path) (names root.path))
        (normalNames (isAbsolute root.path)
          (names root.path ++ Split.cut (· != 0) (parts rel))) := by
  have habs := isAbsolute_normalizePath rel
  have habs' : isAbsolute (cString (normalizePath rel)) = false := isAbsolute_takeWhile habs _
  have hcut : names (cString (normalizePath rel)) = Split.cut (· != 0) (parts rel) := by
    rw [normalizePath_eq, names, cString,
      Split.pieces_takeWhile_intercalate (by rfl) (by decide)]
    intro c hc
    have hc := isPart_of_mem_parts hc
    exact ⟨hc.1, fun b hb => (Bool.or_eq_false_iff.1 (hc.2.2 b hb)).1⟩
  rw [Confined, cString_append root.nulFree habs, isAbsolute_append habs', names_append habs', hcut]
  exact and_iff_right rfl

theorem staysBelow_succ_cut {cs : List Bytes} (h : ∀ c ∈ cs, c ≠ dotdot) (depth : ℕ) :
    staysBelow (depth + 1) (Split.cut (· != 0) cs) = true := by
  induction cs generalizing depth with
  | nil => rfl
  | cons c cs ih =>
    have ih := ih fun m hm => h m (List.mem_cons_of_mem _ hm)
    have hc := h c List.mem_cons_self
    unfold Split.cut
    split_ifs with hall hempty
    · by_cases hd : c = dot
      · simpa [staysBelow, hd] using ih depth
      · simpa [staysBelow, hd, hc] using ih (depth + 1)
    · rfl
    · -- Only the piece that holds the NUL can have become `..`, and it is the last one.
      simp [staysBelow]

theorem takeWhile_eq_dotdot_iff {c : Bytes} (h : c.all (· != 0) ≠ true) :
    c.takeWhile (· != 0) = dotdot ↔ dotdot ++ [0] <+: c := by
  constructor
  · intro ht
    cases hd : c.dropWhile (· != 0) with
    | nil =>
      have hall : c.takeWhile (· != 0) = c := by
        simpa [hd] using List.takeWhile_append_dropWhile (p := fun b : UInt8 => b != 0) (l := c)
      exact absurd (List.all_eq_true.2 (List.takeWhile_eq_self_iff.1 hall)) h
    | cons b rest =>
      have hb := List.head_dropWhile_not (fun b : UInt8 => b != 0) (l := c) (by simp [hd])
      have hb : b = 0 := by simpa [hd] using hb
      have hc := List.takeWhile_append_dropWhile (p := fun b : UInt8 => b != 0) (l := c)
      rw [ht, hd, hb] at hc
      exact ⟨rest, by rw [← hc]; simp⟩
  · rintro ⟨rest, rfl⟩
    rw [List.append_assoc, List.takeWhile_append_of_pos (List.all_eq_true.1 (by decide))]
    simp

theorem not_all_of_dotdot_nul {c : Bytes} (h : dotdot ++ [0] <+: c) : c.all (· != 0) ≠ true := by
  intro hall
  have := List.all_eq_true.1 hall 0 (h.subset (by simp))
  simp at this

theorem cut_of_dotdot_nul {c : Bytes} (cs : List Bytes) (h : dotdot ++ [0] <+: c) :
    Split.cut (· != 0) (c :: cs) = [dotdot] := by
  have hall := not_all_of_dotdot_nul h
  rw [Split.cut, if_neg hall, (takeWhile_eq_dotdot_iff hall).2 h]
  rfl

/-- Cut off at a NUL, safe components stay below unless `..` is what remains of the first. -/
theorem staysBelow_cut {c : Bytes} {cs : List Bytes} (h : ∀ d ∈ c :: cs, IsSafe d)
    (hno : ¬ dotdot ++ [0] <+: c) : staysBelow 0 (Split.cut (· != 0) (c :: cs)) = true := by
  have hc := h c List.mem_cons_self
  have hcs : ∀ d ∈ cs, d ≠ dotdot := fun d hd => (h d (List.mem_cons_of_mem _ hd)).ne_dotdot
  by_cases hall : c.all (· != 0) = true
  · have := staysBelow_succ_cut hcs 0
    simp [Split.cut, hall, staysBelow, hc.isPart.2.1, hc.ne_dotdot, this]
  · rw [← takeWhile_eq_dotdot_iff hall] at hno
    rw [Split.cut, if_neg hall]
    cases ht : c.takeWhile (· != 0) with
    | nil => rfl
    | cons b bs =>
      rw [ht] at hno
      simp [hno, staysBelow]

/-- **Path confinement, as far as it goes.**  What `resolve` lets through is confined to the root,
as the operating system reads it, exactly unless the first component of the path begins with `..`
and a NUL byte, nothing else makes the gate refuse it (a component `..`, a colon, or a root that
normalises to `.`), and the root is not `/`, above which there is nothing. -/
theorem resolve_confined_iff (root : Root) (rel : Bytes) :
    (∀ full, resolve root rel = .ok full → Confined root.path (cString full)) ↔
      ¬ ((∃ c cs, parts rel = c :: cs ∧ dotdot ++ [0] <+: c) ∧
        (∀ c ∈ parts rel, c ≠ dotdot ∧ 0x3A ∉ c) ∧
        ¬ IsCurrentDir root.path ∧ ¬ IsRootDir root.path) := by
  have hsafe_iff : (∀ c ∈ parts rel, c ≠ dotdot ∧ 0x3A ∉ c) ↔ ∀ c ∈ parts rel, IsSafe c :=
    forall₂_congr fun c hc =>
      ⟨fun h => ⟨isPart_of_mem_parts hc, h.1, h.2⟩, fun h => ⟨h.ne_dotdot, h.no_colon⟩⟩
  simp only [resolve_eq_ok_iff, hsafe_iff]
  by_cases hsafe : ∀ c ∈ parts rel, IsSafe c
  · have hconf := confined_join_iff root rel
    cases hp : parts rel with
    | nil =>
      rw [hp] at hconf
      simp only [reduceCtorEq, false_and, exists_false, not_false_eq_true,
        iff_true]
      rintro full ⟨-, -, rfl⟩
      exact hconf.2 (isBelow_of_staysBelow _ _ rfl)
    | cons c cs =>
      rw [hp] at hsafe hconf
      by_cases hpre : dotdot ++ [0] <+: c
      · -- The operating system sees the parent of the root.
        rw [cut_of_dotdot_nul cs hpre, isBelow_dotdot_iff, ← isRootDir_iff] at hconf
        constructor
        · rintro h ⟨-, -, hcur, hroot⟩
          exact hroot (hconf.1 (h _ ⟨hsafe, .inl hcur, rfl⟩))
        · rintro h full ⟨-, hcur, rfl⟩
          have hcur : ¬ IsCurrentDir root.path := by simpa using hcur
          exact hconf.2 (not_not.1 fun hroot => h ⟨⟨c, cs, rfl, hpre⟩, hsafe, hcur, hroot⟩)
      · refine iff_of_true ?_ ?_
        · rintro full ⟨-, -, rfl⟩
          exact hconf.2 (isBelow_of_staysBelow _ _ (staysBelow_cut hsafe hpre))
        · rintro ⟨⟨c', cs', hcs, hpre'⟩, -⟩
          obtain ⟨rfl, rfl⟩ := List.cons.inj hcs
          exact hpre hpre'
  · simp [hsafe]

/-- The root `/srv` is left by a path of three bytes. -/
theorem resolve_nul_escapes :
    resolve ⟨bytes "/srv", by decide⟩ (dotdot ++ [0]) = .ok (bytes "/srv/.." ++ [0]) ∧
      cString (bytes "/srv/.." ++ [0]) = bytes "/srv/.." ∧
      ¬ Confined (bytes "/srv") (bytes "/srv/..") := by
  refine ⟨by decide, by decide, ?_⟩
  rintro ⟨-, below, h, -⟩
  have hp : normalNames (isAbsolute (bytes "/srv/..")) (names (bytes "/srv/..")) = [] := by decide
  have hr : normalNames (isAbsolute (bytes "/srv")) (names (bytes "/srv")) = [bytes "srv"] := by
    decide
  rw [hp, hr] at h
  cases h

end Resolve

end WslDrive
