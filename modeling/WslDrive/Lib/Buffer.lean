import Mathlib.Data.List.Basic
import Mathlib.Tactic.SplitIfs

/-!
# Buffers

Sequences that are resized, with a filler for what is new, and written to at a position.

* `Buffer.slice_overwrite`, `Buffer.slice_overwrite_before` — reading where something was put, and
  in front of it;
* `Buffer.getElem?_resize`, `Buffer.getElem?_writeAt` — their elements;
* `Buffer.writeAt_append` — adjacent writes are one write;
* `Buffer.resize_writeAt` — a write commutes with a change of the size behind it.
-/

namespace WslDrive

namespace Buffer

variable {α : Type*}

/-- The first `n` elements, with the filler `z` for those that are missing. -/
def resize (z : α) (l : List α) (n : ℕ) : List α := l.take n ++ List.replicate (n - l.length) z

/-- Put `d` over the elements from a position on. -/
def overwrite (l : List α) (pos : ℕ) (d : List α) : List α :=
  l.take pos ++ d ++ l.drop (pos + d.length)

/-- Write at a position that may be behind the end.  To write nothing changes nothing. -/
def writeAt (z : α) (l : List α) (pos : ℕ) (d : List α) : List α :=
  if d = [] then l else overwrite (resize z l (max pos l.length)) pos d

theorem length_resize (z : α) (l : List α) (n : ℕ) : (resize z l n).length = n := by
  rw [resize, List.length_append, List.length_take, List.length_replicate]
  omega

theorem resize_length_add (z : α) (l : List α) (n : ℕ) :
    resize z l (l.length + n) = l ++ List.replicate n z := by
  rw [resize, List.take_of_length_le (by omega), Nat.add_sub_cancel_left]

theorem overwrite_append {a b c d : List α} (h : d.length = b.length) :
    overwrite (a ++ b ++ c) a.length d = a ++ d ++ c := by
  rw [overwrite, h, List.append_assoc a b c, List.take_left, ← List.length_append,
    ← List.append_assoc, List.drop_left]

/-- The `n` elements from a position on. -/
def slice (l : List α) (pos n : ℕ) : List α := (l.drop pos).take n

theorem length_overwrite {l d : List α} {pos : ℕ} (h : pos + d.length ≤ l.length) :
    (overwrite l pos d).length = l.length := by
  rw [overwrite, List.length_append, List.length_append, List.length_take, List.length_drop]
  omega

theorem slice_overwrite {l : List α} {pos : ℕ} (h : pos ≤ l.length) (d : List α) :
    slice (overwrite l pos d) pos d.length = d := by
  have hlen : (l.take pos).length = pos := by rw [List.length_take, Nat.min_eq_left h]
  rw [slice, overwrite, List.append_assoc, List.drop_append_of_le_length (Nat.le_of_eq hlen.symm),
    List.drop_eq_nil_of_le (Nat.le_of_eq hlen), List.nil_append, List.take_left]

theorem slice_overwrite_before {l : List α} {pos off n : ℕ} (h : pos ≤ l.length)
    (hle : off + n ≤ pos) (d : List α) : slice (overwrite l pos d) off n = slice l off n := by
  have hlen : off + n ≤ (l.take pos).length := by rw [List.length_take]; omega
  rw [slice, slice, List.take_drop, List.take_drop, overwrite, List.append_assoc,
    List.take_append_of_le_length hlen, List.take_take, Nat.min_eq_left hle]

theorem getElem?_resize (z : α) (l : List α) (n i : ℕ) :
    (resize z l n)[i]? = if i < n then some (l.getD i z) else none := by
  rw [resize, List.getElem?_append, List.length_take, List.getElem?_take, List.getElem?_replicate,
    List.getD_eq_getElem?_getD]
  by_cases hi : i < l.length
  · rw [List.getElem?_eq_getElem hi]
    split_ifs <;> first | rfl | omega
  · rw [List.getElem?_eq_none (Nat.le_of_not_lt hi)]
    split_ifs <;> first | rfl | omega

theorem getElem?_writeAt (z : α) (l : List α) (pos : ℕ) {d : List α} (hd : d ≠ []) (i : ℕ) :
    (writeAt z l pos d)[i]? = if i < pos then some (l.getD i z)
      else if i < pos + d.length then d[i - pos]? else l[i]? := by
  have hpos := List.length_pos_of_ne_nil hd
  rw [writeAt, if_neg hd, overwrite, List.append_assoc, List.getElem?_append, List.length_take,
    length_resize, List.getElem?_take, List.getElem?_append, List.getElem?_drop]
  simp only [getElem?_resize]
  have hmin : min pos (max pos l.length) = pos := by omega
  rw [hmin]
  by_cases hi : i < pos
  · rw [if_pos hi, if_pos hi, if_pos hi, if_pos (by omega)]
  · rw [if_neg hi, if_neg hi]
    by_cases hd' : i < pos + d.length
    · rw [if_pos (by omega), if_pos hd']
    · rw [if_neg (by omega), if_neg hd', show pos + d.length + (i - pos - d.length) = i by omega]
      by_cases hl : i < l.length
      · rw [if_pos (by omega), List.getD_eq_getElem?_getD, List.getElem?_eq_getElem hl]
        rfl
      · rw [if_neg (by omega), List.getElem?_eq_none (Nat.le_of_not_lt hl)]

theorem writeAt_nil (z : α) (l : List α) (pos : ℕ) : writeAt z l pos [] = l := by
  rw [writeAt, if_pos rfl]

theorem writeAt_append (z : α) (l : List α) (pos : ℕ) {d : List α} (hd : d ≠ []) (e : List α) :
    writeAt z (writeAt z l pos d) (pos + d.length) e = writeAt z l pos (d ++ e) := by
  by_cases he : e = []
  · rw [he, writeAt_nil, List.append_nil]
  have hde : d ++ e ≠ [] := by simp [hd]
  refine List.ext_getElem? fun i => ?_
  simp only [getElem?_writeAt z _ _ he, getElem?_writeAt z l pos hde, getElem?_writeAt z l pos hd,
    List.getD_eq_getElem?_getD, List.length_append, ← Nat.add_assoc]
  by_cases hi : i < pos
  · rw [if_pos (by omega), if_pos hi, if_pos hi, Option.getD_some]
  · simp only [if_neg hi]
    by_cases hid : i < pos + d.length
    · have hlt : i - pos < d.length := by omega
      rw [if_pos hid, if_pos hid, if_pos (by omega), List.getElem?_append_left hlt,
        List.getElem?_eq_getElem hlt, Option.getD_some]
    · rw [if_neg hid, if_neg hid, List.getElem?_append_right (by omega),
        show i - pos - d.length = i - (pos + d.length) by omega]

/-- **A write commutes with a change of the size behind it.** -/
theorem resize_writeAt (z : α) (l : List α) {pos n : ℕ} {d : List α} (h : pos + d.length ≤ n) :
    resize z (writeAt z l pos d) n = writeAt z (resize z l n) pos d := by
  by_cases hd : d = []
  · rw [hd, writeAt_nil, writeAt_nil]
  refine List.ext_getElem? fun i => ?_
  simp only [getElem?_resize, getElem?_writeAt z _ pos hd, List.getD_eq_getElem?_getD]
  by_cases hi : i < pos
  · simp only [if_pos hi, if_pos (show i < n by omega), Option.getD_some]
  · simp only [if_neg hi]
    by_cases hid : i < pos + d.length
    · have hlt : i - pos < d.length := by omega
      rw [if_pos (by omega), if_pos hid, if_pos hid, List.getElem?_eq_getElem hlt, Option.getD_some]
    · rw [if_neg hid, if_neg hid]

end Buffer

end WslDrive
