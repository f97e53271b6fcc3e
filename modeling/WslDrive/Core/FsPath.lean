import WslDrive.Core.Path

/-!
# `std::filesystem::path` on POSIX

The lexical part of the standard library's paths that the agent uses: `operator/`, iteration over
the elements and `lexically_normal`.  A path is its native byte string.

* `FsPath.normalNames_append` — names other than `.` and `..` are untouched by normalisation;
* `FsPath.names_append` — appending a relative path appends its names.
-/

namespace WslDrive

namespace FsPath

open Path

/-- The separator of POSIX paths. -/
def isSlash (c : UInt8) : Bool := c == slash

/-- `is_absolute`. -/
def isAbsolute (p : Bytes) : Bool := p.head? == some slash

/-- The filenames of a path, in order. -/
def names (p : Bytes) : List Bytes := Split.pieces isSlash p

/-- `operator/`: a separator goes in when the left path ends in a filename, and an absolute right
path replaces the left one. -/
def append (p q : Bytes) : Bytes :=
  if isAbsolute q then q
  else match p.getLast? with
    | none => q
    | some c => if c = slash then p ++ q else p ++ slash :: q

/-- A path cut into root directory, filenames and a trailing separator after the last filename. -/
structure Lexical where
  absolute : Bool
  names : List Bytes
  trailing : Bool
  deriving DecidableEq, Repr

/-- The parts of a path. -/
def parse (p : Bytes) : Lexical where
  absolute := isAbsolute p
  names := names p
  trailing := p.getLast? == some slash && names p ≠ []

/-- Iteration: the root directory, the filenames, and an empty element for a trailing separator. -/
def Lexical.elements (l : Lexical) : List Bytes :=
  (if l.absolute then [[slash]] else []) ++ l.names ++ (if l.trailing then [[]] else [])

/-- Normalisation of one more filename on the stack of those kept, last first: `.` goes, `..`
takes a filename other than `..` with it and cannot climb above the root directory. -/
def pushName (absolute : Bool) (stack : List Bytes) (name : Bytes) : List Bytes :=
  if name = dot then stack
  else if name = dotdot then
    match stack with
    | [] => if absolute then [] else [dotdot]
    | top :: rest => if top = dotdot then dotdot :: stack else rest
  else name :: stack

/-- The filenames that normalisation leaves. -/
def normalNames (absolute : Bool) (ns : List Bytes) : List Bytes :=
  (ns.foldl (pushName absolute) []).reverse

/-- `lexically_normal`.  A dropped `.` or `..` leaves the separator before it; a path with nothing
left is `.`, and the empty path stays empty. -/
def Lexical.normal (l : Lexical) : Lexical :=
  let ns := normalNames l.absolute l.names
  if ns = [] then
    if l.absolute then ⟨true, [], false⟩
    else if l.names = [] then ⟨false, [], false⟩
    else ⟨false, [dot], false⟩
  else
    let dropped := l.names.getLast? = some dot ∨ l.names.getLast? = some dotdot
    ⟨l.absolute, ns, (l.trailing ∨ dropped) ∧ ns.getLast? ≠ some dotdot⟩

/-- The bytes an operating system call takes from `c_str()`. -/
def cString (p : Bytes) : Bytes := p.takeWhile (· != 0)

theorem foldl_pushName (absolute : Bool) (stack ns : List Bytes)
    (h : ∀ n ∈ ns, n ≠ dot ∧ n ≠ dotdot) :
    ns.foldl (pushName absolute) stack = ns.reverse ++ stack := by
  induction ns generalizing stack with
  | nil => rfl
  | cons n ns ih =>
    obtain ⟨h1, h2⟩ := h n List.mem_cons_self
    have hpush : pushName absolute stack n = n :: stack := by simp [pushName, h1, h2]
    rw [List.foldl_cons, hpush, ih _ fun m hm => h m (List.mem_cons_of_mem _ hm)]
    simp

theorem normalNames_append (absolute : Bool) (as ns : List Bytes)
    (h : ∀ n ∈ ns, n ≠ dot ∧ n ≠ dotdot) :
    normalNames absolute (as ++ ns) = normalNames absolute as ++ ns := by
  simp [normalNames, foldl_pushName _ _ _ h]

theorem mem_of_mem_pushName {absolute : Bool} {stack : List Bytes} {n m : Bytes}
    (h : m ∈ pushName absolute stack n) : m ∈ stack ∨ m ≠ dot := by
  have hdd : dotdot ≠ dot := by decide
  by_cases h1 : n = dot
  · rw [pushName.eq_def, if_pos h1] at h
    exact .inl h
  · by_cases h2 : n = dotdot
    · rw [pushName.eq_def, if_neg h1, if_pos h2] at h
      cases stack with
      | nil => cases absolute <;> simp_all
      | cons top rest =>
        by_cases ht : top = dotdot
        · simp only [ht, if_true] at h
          rcases List.mem_cons.1 h with rfl | h
          · exact .inr hdd
          · exact .inl (by simpa [ht] using h)
        · simp only [ht, if_false] at h
          exact .inl (List.mem_cons_of_mem _ h)
    · rw [pushName.eq_def, if_neg h1, if_neg h2] at h
      rcases List.mem_cons.1 h with rfl | h
      · exact .inr h1
      · exact .inl h

theorem dot_notMem_normalNames (absolute : Bool) (ns : List Bytes) :
    dot ∉ normalNames absolute ns := by
  have hfold : ∀ stack : List Bytes, dot ∉ stack → dot ∉ ns.foldl (pushName absolute) stack := by
    induction ns with
    | nil => exact fun _ h => h
    | cons n ns ih =>
      intro stack h
      refine ih _ fun hmem => ?_
      rcases mem_of_mem_pushName hmem with hmem | hne
      · exact h hmem
      · exact hne rfl
  rw [normalNames, List.mem_reverse]
  exact hfold [] List.not_mem_nil

namespace Lexical

variable {l : Lexical}

theorem normal_of_absolute (h : normalNames l.absolute l.names = []) (habs : l.absolute = true) :
    l.normal = ⟨true, [], false⟩ := by
  rw [habs] at h
  simp only [normal, habs, h, if_true]

theorem normal_of_relative (h : normalNames l.absolute l.names = []) (habs : l.absolute = false)
    (hne : l.names ≠ []) : l.normal = ⟨false, [dot], false⟩ := by
  rw [habs] at h
  simp only [normal, habs, h, hne, if_true, Bool.false_eq_true, if_false]

theorem normal_of_nil (h : l.names = []) (habs : l.absolute = false) :
    l.normal = ⟨false, [], false⟩ := by
  simp [normal, h, habs, normalNames]

theorem normal_of_ne_nil (h : normalNames l.absolute l.names ≠ []) :
    l.normal.absolute = l.absolute ∧ l.normal.names = normalNames l.absolute l.names := by
  simp only [normal, h, if_false, and_self]

end Lexical

theorem append_eq {p q : Bytes} (hq : isAbsolute q = false) :
    append p q = p ++ q ∧ (p = [] ∨ p.getLast? = some slash) ∨
      append p q = p ++ slash :: q ∧ p ≠ [] := by
  simp only [append, hq, Bool.false_eq_true, if_false]
  cases hp : p.getLast? with
  | none =>
    have : p = [] := List.getLast?_eq_none_iff.1 hp
    simp [this]
  | some c =>
    have hne : p ≠ [] := by rintro rfl; simp at hp
    by_cases hc : c = slash
    · simp [hc]
    · simp [hc, hne]

theorem names_concat_slash {p : Bytes} (hp : p = [] ∨ p.getLast? = some slash) (q : Bytes) :
    names (p ++ q) = names p ++ names q := by
  rcases hp with rfl | hp
  · simp [names]
  · obtain ⟨p', rfl⟩ := List.getLast?_eq_some_iff.1 hp
    have hs : isSlash slash = true := rfl
    simp only [names, List.append_assoc, List.singleton_append]
    rw [Split.pieces_append_cons _ _ hs, Split.pieces_append_cons _ _ hs, Split.pieces_nil,
      List.append_nil]

theorem names_append {p q : Bytes} (hq : isAbsolute q = false) :
    names (append p q) = names p ++ names q := by
  rcases append_eq (p := p) hq with ⟨h, hp⟩ | ⟨h, -⟩
  · rw [h, names_concat_slash hp]
  · rw [h, names, Split.pieces_append_cons _ _ (by rfl)]
    rfl

theorem isAbsolute_append {p q : Bytes} (hq : isAbsolute q = false) :
    isAbsolute (append p q) = isAbsolute p := by
  rcases append_eq (p := p) hq with ⟨h, -⟩ | ⟨h, hp⟩
  · cases p with
    | nil => simpa [h, isAbsolute] using hq
    | cons a p => simp [h, isAbsolute]
  · obtain ⟨a, p, rfl⟩ := List.exists_cons_of_ne_nil hp
    simp [h, isAbsolute]

theorem isAbsolute_takeWhile {q : Bytes} (hq : isAbsolute q = false) (r : UInt8 → Bool) :
    isAbsolute (q.takeWhile r) = false := by
  cases q with
  | nil => rfl
  | cons a q =>
    by_cases ha : r a = true
    · simpa [isAbsolute, List.takeWhile_cons_of_pos ha] using hq
    · simp [isAbsolute, List.takeWhile_cons_of_neg ha]

theorem cString_append {p q : Bytes} (hp : 0 ∉ p) (hq : isAbsolute q = false) :
    cString (append p q) = append p (cString q) := by
  have hkeep : ∀ b ∈ p, (b != 0) = true := by
    intro b hb
    simpa using fun h : b = 0 => hp (h ▸ hb)
  have hq' := isAbsolute_takeWhile hq (· != 0)
  simp only [append, hq, hq', cString, Bool.false_eq_true, if_false]
  cases p.getLast? with
  | none => rfl
  | some c =>
    by_cases hc : c = slash
    · simp only [hc, if_true]
      exact List.takeWhile_append_of_pos hkeep
    · simp only [hc, if_false]
      rw [List.takeWhile_append_of_pos hkeep, List.takeWhile_cons_of_pos (by decide)]

end FsPath

end WslDrive
