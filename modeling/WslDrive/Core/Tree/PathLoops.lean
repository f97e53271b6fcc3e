import WslDrive.Core.Tree.Refine

/-!
# The loops over a path

`normalize_path_append`, `lookup` and `ensure_directory_path` each walk over a path with two
indices.  The model of the three is a fold over `Path.components`; here they are written with the
indices, over `Split.walk`, and shown to be that fold.  So all three see the same components, and
the byte tests of `path_is_under` and `split_parent` agree with them on normalised paths.

* `Path.normalizePathAppend_eq`, `MetadataTree.lookup_eq_walk`,
  `MetadataTree.ensureDirectoryPath_eq_walk` — the loops with indices;
* `Path.path_primitives` — what the primitives do with the components of any path.
-/

namespace WslDrive

/-! ### The loops with indices -/

namespace Path

/-- `normalize_path_append`: `out` may hold bytes already. -/
def normalizePathAppend (inp out : Bytes) : Bytes :=
  Split.walk (m := Id) isPathSeparator inp (fun cur comp =>
    if comp = [] ∨ comp = dot then cur
    else
      let cur := if out.length < cur.length then cur ++ [slash] else cur
      cur ++ comp) out

theorem normalizePathAppend_eq (inp out : Bytes) :
    normalizePathAppend inp out = out ++ normalizePath inp := by
  rw [normalizePathAppend, Split.walk_eq, normalizePath, ← components]
  -- the bytes appended so far are the state of `normalizePath`
  have hfold : ∀ (comps : List Bytes) (new : Bytes),
      comps.foldlM (m := Id) (fun cur comp =>
        if comp = [] ∨ comp = dot then cur
        else
          let cur := if out.length < cur.length then cur ++ [slash] else cur
          cur ++ comp) (out ++ new) = out ++ comps.foldl normalizeStep new := by
    intro comps
    induction comps with
    | nil => exact fun _ => rfl
    | cons comp comps ih =>
      intro new
      rw [List.foldlM_cons, List.foldl_cons, ← ih (normalizeStep new comp), normalizeStep]
      by_cases hskip : comp = [] ∨ comp = dot
      · rw [if_pos hskip, if_pos hskip]
        rfl
      · rw [if_neg hskip, if_neg hskip]
        cases new with
        | nil => simp; rfl
        | cons b new => simp; rfl
  simpa using hfold (components inp) []

end Path

namespace MetadataTree

open Path

variable (t : MetadataTree)

theorem lookup_eq_walk (path : Bytes) (mode : LookupMode) :
    t.lookup path mode = Split.walk isPathSeparator path (t.lookupStep mode) root :=
  (Split.walk_eq path (t.lookupStep mode) root).symm

/-- One round of the loop of `ensure_directory_path`; an error leaves the loop. -/
def ensureStep (cur : NodeId) (comp : Bytes) : ExceptT Errc (StateM MetadataTree) NodeId :=
  fun t : MetadataTree =>
    if comp = [] ∨ comp = dot then (.ok cur, t)
    else if comp = dotdot then (.error .invalidPath, t)
    else
      match t.findChild cur comp .exact with
      | some next => if !(t.nodes next).isDir then (.error .notADirectory, t) else (.ok next, t)
      | none => t.insert cur comp kImplicitDirectory

variable {t} {cur next : NodeId} {comp : Bytes} {t' : MetadataTree}

theorem foldlM_ensureStep_ok (h : ensureStep cur comp t = (.ok next, t')) (comps : List Bytes) :
    ((comp :: comps).foldlM ensureStep cur).run.run t =
      (comps.foldlM ensureStep next).run.run t' := by
  have hrun : (ensureStep cur comp).run.run t = _ := h
  rw [List.foldlM_cons, ExceptT.run_bind, StateT.run_bind, hrun]
  rfl

theorem foldlM_ensureStep_error {e : Errc} (h : ensureStep cur comp t = (.error e, t'))
    (comps : List Bytes) :
    ((comp :: comps).foldlM ensureStep cur).run.run t = (.error e, t') := by
  have hrun : (ensureStep cur comp).run.run t = _ := h
  rw [List.foldlM_cons, ExceptT.run_bind, StateT.run_bind, hrun]
  rfl

variable (t)

theorem ensureLoop_eq_foldlM (cur : NodeId) (comps : List Bytes) :
    ensureLoop t cur comps = (comps.foldlM ensureStep cur).run.run t := by
  induction comps generalizing t cur with
  | nil => rfl
  | cons comp comps ih =>
    rw [ensureLoop]
    by_cases hskip : comp = [] ∨ comp = dot
    · rw [if_pos hskip, ih, foldlM_ensureStep_ok (if_pos hskip)]
    by_cases hdots : comp = dotdot
    · rw [if_neg hskip, if_pos hdots,
        foldlM_ensureStep_error ((if_neg hskip).trans (if_pos hdots))]
    have hstep : ensureStep cur comp t = _ := (if_neg hskip).trans (if_neg hdots)
    rw [if_neg hskip, if_neg hdots]
    cases hchild : t.findChild cur comp .exact with
    | none =>
      rw [hchild] at hstep
      dsimp only at hstep ⊢
      cases hins : t.insert cur comp kImplicitDirectory with
      | mk created t' =>
        rw [hins] at hstep
        cases created with
        | error e => rw [foldlM_ensureStep_error hstep]
        | ok created => rw [foldlM_ensureStep_ok hstep, ← ih]
    | some next =>
      rw [hchild] at hstep
      dsimp only at hstep ⊢
      by_cases hdir : (!(t.nodes next).isDir) = true
      · rw [if_pos hdir] at hstep ⊢
        rw [foldlM_ensureStep_error hstep]
      · rw [if_neg hdir] at hstep ⊢
        rw [foldlM_ensureStep_ok hstep, ih]

theorem ensureDirectoryPath_eq_walk (path : Bytes) :
    t.ensureDirectoryPath path =
      (Split.walk isPathSeparator path ensureStep root).run.run t := by
  rw [Split.walk_eq]
  exact t.ensureLoop_eq_foldlM root _

theorem lookup_eq_parts (path : Bytes) (mode : LookupMode) :
    t.lookup path mode = (parts path).foldlM (t.lookupStep mode) root := by
  rw [parts, List.foldlM_filter, lookup]
  congr 1
  funext cur comp
  by_cases hskip : comp = [] ∨ comp = dot
  · rw [if_neg (by simpa [or_iff_not_imp_left] using hskip), lookupStep, if_pos hskip]
    rfl
  · rw [if_pos (by simpa using hskip)]

theorem lookup_normalizePath (path : Bytes) (mode : LookupMode) :
    t.lookup (normalizePath path) mode = t.lookup path mode := by
  rw [lookup_eq_parts, lookup_eq_parts, parts_normalizePath]

theorem ensureDirectoryPath_normalizePath (path : Bytes) :
    t.ensureDirectoryPath (normalizePath path) = t.ensureDirectoryPath path := by
  rw [ensureDirectoryPath_eq, ensureDirectoryPath_eq, parts_normalizePath]

end MetadataTree

/-! ### The primitives on components -/

namespace Path

theorem parts_eq_splitOnP (path : Bytes) :
    parts path = (path.splitOnP isPathSeparator).filter fun c => c ≠ [] ∧ c ≠ dot := by
  rw [parts_eq, Split.pieces, List.filter_filter]
  congr 1
  funext c
  cases c <;> simp

section Normalised

variable {c p q : Bytes}

theorem eq_intercalate_parts (h : normalizePath p = p) : p = [slash].intercalate (parts p) := by
  rw [← normalizePath_eq, h]

theorem pathIsUnder_iff_parts (hc : normalizePath c = c) (hq : normalizePath q = q) :
    pathIsUnder c q = true ↔ parts q <+: parts c := by
  have h := pathIsUnder_iff (a := parts c) (b := parts q) (fun _ => isPart_of_mem_parts)
    fun _ => isPart_of_mem_parts
  rwa [← eq_intercalate_parts hc, ← eq_intercalate_parts hq] at h

theorem pathIsUnder_antisymm (hc : normalizePath c = c) (hq : normalizePath q = q)
    (h : pathIsUnder c q = true) (h' : pathIsUnder q c = true) : c = q := by
  rw [pathIsUnder_iff_parts hc hq] at h
  rw [pathIsUnder_iff_parts hq hc] at h'
  have hparts : parts q = parts c := h.eq_of_length_le h'.length_le
  rw [eq_intercalate_parts hc, eq_intercalate_parts hq, hparts]

theorem join_splitParent (h : normalizePath p = p) :
    (if (splitParent p).1 = [] then (splitParent p).2
      else (splitParent p).1 ++ slash :: (splitParent p).2) = p := by
  rcases List.eq_nil_or_concat (parts p) with hnil | ⟨cs, leaf, hparts⟩
  · have hp : p = [] := by rw [eq_intercalate_parts h, hnil]; rfl
    rw [hp]
    rfl
  · rw [List.concat_eq_append] at hparts
    have hpart : ∀ d ∈ cs ++ [leaf], IsPart d := fun d hd =>
      isPart_of_mem_parts (by rwa [hparts])
    have hp : p = [slash].intercalate (cs ++ [leaf]) := by
      rw [← hparts]
      exact eq_intercalate_parts h
    have hsplit : splitParent p = ([slash].intercalate cs, leaf) := by
      rw [hp, splitParent_intercalate cs (hpart leaf (by simp))]
    rw [hsplit]
    dsimp only
    by_cases hcs : cs = []
    · rw [hp, hcs]
      simp
    · -- a parent with components is not empty
      have hne : [slash].intercalate cs ≠ [] := fun hnil => hcs <| by
        rw [← parts_intercalate fun d hd => hpart d (List.mem_append_left _ hd), hnil]
        rfl
      rw [if_neg hne, hp, intercalate_concat hcs]

end Normalised

/-- **The path primitives work on components.**  `normalize_path` joins the components that count,
is idempotent, and neither `lookup` nor `ensure_directory_path` can tell a path from its normal
form; between normalised paths `path_is_under` is the order of the component lists, and what
`split_parent` cuts is joined back. -/
theorem path_primitives :
    (∀ p, normalizePath p = [slash].intercalate
        ((p.splitOnP isPathSeparator).filter fun c => c ≠ [] ∧ c ≠ dot) ∧
      normalizePath (normalizePath p) = normalizePath p ∧
      ∀ t : MetadataTree, (∀ mode, t.lookup p mode = t.lookup (normalizePath p) mode) ∧
        t.ensureDirectoryPath p = t.ensureDirectoryPath (normalizePath p)) ∧
    (∀ c q, normalizePath c = c → normalizePath q = q →
      (pathIsUnder c q = true ↔
        ((q.splitOnP isPathSeparator).filter fun c => c ≠ [] ∧ c ≠ dot) <+:
          (c.splitOnP isPathSeparator).filter fun c => c ≠ [] ∧ c ≠ dot)) ∧
    (∀ p, normalizePath p = p → pathIsUnder p p = true) ∧
    (∀ p q r, normalizePath p = p → normalizePath q = q → normalizePath r = r →
      pathIsUnder p q = true → pathIsUnder q r = true → pathIsUnder p r = true) ∧
    (∀ p q, normalizePath p = p → normalizePath q = q →
      pathIsUnder p q = true → pathIsUnder q p = true → p = q) ∧
    ∀ p, normalizePath p = p →
      (if (splitParent p).1 = [] then (splitParent p).2
        else (splitParent p).1 ++ slash :: (splitParent p).2) = p := by
  refine ⟨fun p => ⟨?_, normalizePath_idem p, fun t => ⟨fun mode => ?_, ?_⟩⟩, ?_, ?_, ?_, ?_,
    fun p hp => join_splitParent hp⟩
  · rw [normalizePath_eq, parts_eq_splitOnP]
  · rw [t.lookup_normalizePath]
  · rw [t.ensureDirectoryPath_normalizePath]
  · intro c q hc hq
    rw [pathIsUnder_iff_parts hc hq, parts_eq_splitOnP, parts_eq_splitOnP]
  · exact fun p hp => (pathIsUnder_iff_parts hp hp).2 (List.prefix_refl _)
  · intro p q r hp hq hr hpq hqr
    rw [pathIsUnder_iff_parts hp hq] at hpq
    rw [pathIsUnder_iff_parts hq hr] at hqr
    exact (pathIsUnder_iff_parts hp hr).2 (hqr.trans hpq)
  · exact fun p q hp hq => pathIsUnder_antisymm hp hq

/-- `ab` is not under `a`, and `a/b` is. -/
theorem path_primitives_siblings :
    normalizePath (bytes "a") = bytes "a" ∧ normalizePath (bytes "ab") = bytes "ab" ∧
    normalizePath (bytes "a/b") = bytes "a/b" ∧
    pathIsUnder (bytes "ab") (bytes "a") = false ∧
    pathIsUnder (bytes "a/b") (bytes "a") = true := by
  have ha : normalizePath (bytes "a") = bytes "a" := by decide
  have hab : normalizePath (bytes "ab") = bytes "ab" := by decide
  have hsub : normalizePath (bytes "a/b") = bytes "a/b" := by decide
  refine ⟨ha, hab, hsub, ?_, ?_⟩
  · rw [Bool.eq_false_iff, Ne, path_primitives.2.1 _ _ hab ha]
    decide
  · rw [path_primitives.2.1 _ _ hsub ha]
    decide

end Path

end WslDrive
