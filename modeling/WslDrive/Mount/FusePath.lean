import WslDrive.Core.WinNames

/-!
# Paths of the mount

The kernel names files by absolute paths, the tree by relative ones.  On Windows the paths are
shown names, and reading them back decodes the whole path at once: `U+F02F` becomes a slash and
`U+F000` a NUL, neither of which a name can hold.

* `toRel_structure_iff` — the paths that keep their components and get no NUL.
-/

namespace WslDrive

open Path WinNames

/-- `to_rel`, on Windows or elsewhere; the pointer may be null. -/
def toRel (windows : Bool) : Option Bytes → Bytes
  | none => []
  | some path =>
    let path := path.dropWhile (· == slash)
    if windows then unescapeFromWindows path else path

theorem slash_notMem_privateUse (c : UInt8) : slash ∉ privateUse c := by
  obtain ⟨b1, b2, h⟩ := exists_encodes c
  have hne : ∀ b : UInt8, 0x80 ≤ b → slash ≠ b := by
    rintro b hb rfl
    exact absurd hb (by decide)
  rw [h.eq]
  simp [hne b1 h.le_one, hne b2 h.le_two, hne 0xEF (by decide)]

theorem privateUse_ne_nil (c : UInt8) : privateUse c ≠ [] := fun h => by
  simpa [h] using length_privateUse c

theorem infix_skipSlashes (c : UInt8) (path : Bytes) :
    privateUse c <:+: path.dropWhile (· == slash) ↔ privateUse c <:+: path := by
  obtain ⟨b1, b2, h⟩ := exists_encodes c
  rw [h.eq]
  exact Split.infix_dropWhile_iff (by decide) path

/-- **Reading a path back keeps its structure**, the number of its components and that none of
them holds a slash or a NUL, exactly if it holds neither `U+F02F` nor `U+F000`. -/
theorem toRel_structure_iff (path : Bytes) (hpath : 0 ∉ path) :
    (((toRel true (some path)).splitOn slash).length =
        ((path.dropWhile (· == slash)).splitOn slash).length ∧
      ∀ shown ∈ (path.dropWhile (· == slash)).splitOn slash,
        slash ∉ unescapeFromWindows shown ∧ 0 ∉ unescapeFromWindows shown) ↔
    ¬ privateUse slash <:+: path ∧ ¬ privateUse 0 <:+: path := by
  have hlen : ((toRel true (some path)).splitOn slash).length =
      ((path.dropWhile (· == slash)).splitOn slash).length ↔ ¬ privateUse slash <:+: path := by
    rw [Split.length_splitOn, Split.length_splitOn, Nat.add_right_cancel_iff,
      ← infix_skipSlashes slash path]
    exact (count_unescape (by decide) _).2
  -- A code point lies within one component.
  have hiff : ∀ c, ¬ privateUse c <:+: path ↔
      ∀ shown ∈ (path.dropWhile (· == slash)).splitOn slash, ¬ privateUse c <:+: shown := by
    intro c
    rw [← infix_skipSlashes, Split.infix_iff_exists_mem_splitOn (slash_notMem_privateUse c)
      (privateUse_ne_nil c)]
    simp only [not_exists, not_and]
  have hshown : ∀ shown ∈ (path.dropWhile (· == slash)).splitOn slash,
      ((slash ∉ unescapeFromWindows shown ∧ 0 ∉ unescapeFromWindows shown) ↔
        ¬ privateUse slash <:+: shown ∧ ¬ privateUse 0 <:+: shown) := by
    intro shown hs
    have hslash : slash ∉ shown := fun h => by
      simpa using Split.forall_of_mem_splitOnP hs slash h
    have hzero : (0 : UInt8) ∉ shown := fun h => by
      have := (Split.infix_iff_exists_mem_splitOn (a := slash) (w := [0]) (by decide) (by simp)
        (path.dropWhile (· == slash))).2 ⟨shown, hs, (List.singleton_infix_iff 0 shown).2 h⟩
      exact hpath ((List.dropWhile_sublist _).subset ((List.singleton_infix_iff 0 _).1 this))
    rw [mem_unescape_iff (by decide), mem_unescape_iff (by decide), not_or, not_or,
      and_iff_right hslash, and_iff_right hzero]
  rw [hlen, forall₂_congr hshown, hiff slash, hiff 0]
  exact ⟨fun h => ⟨h.1, fun shown hs => (h.2 shown hs).2⟩,
    fun h => ⟨h.1, fun shown hs => ⟨h.1 shown hs, h.2 shown hs⟩⟩⟩

/-- `/a/U+F03A` keeps its two components. -/
theorem toRel_structure_colon :
    (0 : UInt8) ∉ ([0x2F, 0x61, 0x2F, 0xEF, 0x80, 0xBA] : Bytes) ∧
    ((toRel true (some [0x2F, 0x61, 0x2F, 0xEF, 0x80, 0xBA])).splitOn slash).length =
      ((([0x2F, 0x61, 0x2F, 0xEF, 0x80, 0xBA] : Bytes).dropWhile (· == slash)).splitOn
        slash).length :=
  ⟨by decide, ((toRel_structure_iff [0x2F, 0x61, 0x2F, 0xEF, 0x80, 0xBA] (by decide)).2
    (by decide)).1⟩

/-- The name `a` `U+F02F` `b` is read back as `b` in the directory `a`. -/
theorem toRel_leaves_directory :
    (0 : UInt8) ∉ ([0x2F, 0x61, 0xEF, 0x80, 0xAF, 0x62] : Bytes) ∧
    toRel true (some [0x2F, 0x61, 0xEF, 0x80, 0xAF, 0x62]) = [0x61, 0x2F, 0x62] ∧
    (([0x61, 0xEF, 0x80, 0xAF, 0x62] : Bytes).splitOn slash).length = 1 ∧
    (([0x61, 0x2F, 0x62] : Bytes).splitOn slash).length = 2 := by
  decide

end WslDrive
