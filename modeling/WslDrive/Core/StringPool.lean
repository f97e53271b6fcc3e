import Mathlib.Data.List.Nodup
import WslDrive.Core.Types

/-!
# Interned names

`StringPool` gives every distinct string a dense id.  The chunks that hold the bytes are left
out here: the pool is the list of its strings in the order of their ids, and no string occurs twice.

* `StringPool.find_eq_some_iff` — a string is found exactly under the id that shows it;
* `StringPool.view_intern`, `StringPool.view_intern_of_lt` — interning gives an id that shows the
  string and changes no other id;
* `StringPool.internAll_spec` — a run of calls.
-/

namespace WslDrive

/-- `NameId`: an index into the entries.  The source has 32 bits and the last value for the invalid
id, so the pool has fewer than `2 ^ 32 - 1` strings there. -/
abbrev NameId := ℕ

/-- `StringPool`, as the strings of its entries. -/
structure StringPool where
  strings : List Bytes
  nodup : strings.Nodup

namespace StringPool

/-- A pool without strings. -/
def empty : StringPool := ⟨[], List.nodup_nil⟩

/-- `size`. -/
def size (pool : StringPool) : ℕ := pool.strings.length

/-- `find`. -/
def find (pool : StringPool) (s : Bytes) : Option NameId := pool.strings.idxOf? s

/-- The string of an id; ids in use are below `size`. -/
def view (pool : StringPool) (id : NameId) : Bytes := pool.strings.getD id []

/-- `intern`: the id of the string, and a new one if it has none. -/
def intern (pool : StringPool) (s : Bytes) : NameId × StringPool :=
  if h : s ∈ pool.strings then (pool.strings.idxOf s, pool)
  else (pool.strings.length,
    ⟨pool.strings ++ [s], List.nodup_append.2 ⟨pool.nodup, by simp, fun a ha b hb => by
      rw [List.mem_singleton.1 hb]
      rintro rfl
      exact h ha⟩⟩)

variable {pool : StringPool} {s : Bytes} {id : NameId}

theorem find_eq_some_iff : pool.find s = some id ↔ id < pool.size ∧ pool.view id = s := by
  have hview : ∀ h : id < pool.strings.length, pool.view id = pool.strings[id] := fun h => by
    simp [view, h]
  rw [find, size]
  constructor
  · intro h
    obtain ⟨hlt, heq, -⟩ := List.findIdx?_eq_some_iff_getElem.1 h
    exact ⟨hlt, by rw [hview hlt]; simpa using heq⟩
  · rintro ⟨hlt, heq⟩
    rw [hview hlt] at heq
    rw [List.idxOf?, List.findIdx?_eq_some_iff_getElem]
    refine ⟨hlt, by simpa using heq, fun j hj => ?_⟩
    -- An earlier occurrence would be a repetition.
    have hjlt : j < pool.strings.length := Nat.lt_trans hj hlt
    have hne : pool.strings[j] ≠ s := fun hj' =>
      absurd ((pool.nodup.getElem_inj_iff).1 (hj'.trans heq.symm)) (by omega)
    simpa using hne

theorem view_injective {id' : NameId} (h : id < pool.size) (h' : id' < pool.size)
    (heq : pool.view id = pool.view id') : id = id' := by
  have h1 := find_eq_some_iff.2 ⟨h, heq⟩
  have h2 := find_eq_some_iff.2 ⟨h', rfl⟩
  rw [h1] at h2
  exact Option.some.inj h2

theorem intern_lt (pool : StringPool) (s : Bytes) : (pool.intern s).1 < (pool.intern s).2.size := by
  unfold intern size
  split_ifs with h
  · exact List.idxOf_lt_length_of_mem h
  · simp

theorem size_le_intern : pool.size ≤ (pool.intern s).2.size := by
  unfold intern size
  split_ifs with h <;> simp

theorem view_intern_of_lt (h : id < pool.size) : (pool.intern s).2.view id = pool.view id := by
  rw [size] at h
  unfold intern view
  split_ifs with hs
  · rfl
  · simp [List.getD_eq_getElem?_getD, List.getElem?_append_left h]

theorem view_intern (pool : StringPool) (s : Bytes) :
    (pool.intern s).2.view (pool.intern s).1 = s := by
  unfold intern view
  split_ifs with h
  · have := List.idxOf_lt_length_of_mem h
    simp [this]
  · simp [List.getD_eq_getElem?_getD]

/-- `pool'` shows every string of `pool` under the same id. -/
structure Extends (pool pool' : StringPool) : Prop where
  size_le : pool.size ≤ pool'.size
  view_eq : ∀ i, i < pool.size → pool'.view i = pool.view i

theorem Extends.refl (pool : StringPool) : pool.Extends pool := ⟨Nat.le_refl _, fun _ _ => rfl⟩

theorem Extends.trans {pool' pool'' : StringPool} (h : pool.Extends pool')
    (h' : pool'.Extends pool'') : pool.Extends pool'' :=
  ⟨Nat.le_trans h.size_le h'.size_le, fun i hi =>
    (h'.view_eq i (Nat.lt_of_lt_of_le hi h.size_le)).trans (h.view_eq i hi)⟩

theorem extends_intern (pool : StringPool) (s : Bytes) : pool.Extends (pool.intern s).2 :=
  ⟨size_le_intern, fun _ => view_intern_of_lt⟩

theorem intern_of_find (h : pool.find s = some id) : pool.intern s = (id, pool) := by
  obtain ⟨hlt, hview⟩ := find_eq_some_iff.1 h
  have hmem : s ∈ pool.strings := by
    rw [size] at hlt
    rw [← hview, view]
    simp [hlt]
  have hid : (pool.intern s).1 = id := by
    have hpool : (pool.intern s).2 = pool := by simp [intern, hmem]
    refine view_injective ?_ hlt ?_
    · simpa [hpool] using pool.intern_lt s
    · have := pool.view_intern s
      rw [hpool] at this
      rw [this, hview]
  exact Prod.ext hid (by simp [intern, hmem])

theorem notMem_of_find_eq_none (h : pool.find s = none) : s ∉ pool.strings := by
  rwa [find, List.idxOf?_eq_none_iff] at h

theorem intern_of_find_eq_none (h : pool.find s = none) :
    (pool.intern s).1 = pool.size ∧ (pool.intern s).2.strings = pool.strings ++ [s] := by
  rw [intern, dif_neg (notMem_of_find_eq_none h)]
  exact ⟨rfl, rfl⟩

theorem mem_intern {t : Bytes} : t ∈ (pool.intern s).2.strings ↔ t ∈ pool.strings ∨ t = s := by
  rw [intern]
  split_ifs with h
  · exact ⟨.inl, fun ht => ht.elim id fun hts => hts ▸ h⟩
  · simp

theorem mem_strings_iff : s ∈ pool.strings ↔ ∃ id < pool.size, pool.view id = s := by
  rw [List.mem_iff_getElem]
  constructor
  · rintro ⟨i, hi, rfl⟩
    exact ⟨i, hi, by simp [view, hi]⟩
  · rintro ⟨i, hi, rfl⟩
    rw [size] at hi
    exact ⟨i, hi, by simp [view, hi]⟩

/-! ### Runs -/

/-- Calls of `intern` one after the other: the ids they return, and the pool at the end. -/
def internAll (pool : StringPool) : List Bytes → List NameId × StringPool
  | [] => ([], pool)
  | s :: ss =>
    let r := pool.intern s
    let q := r.2.internAll ss
    (r.1 :: q.1, q.2)

theorem extends_internAll (pool : StringPool) (ss : List Bytes) :
    pool.Extends (pool.internAll ss).2 := by
  induction ss generalizing pool with
  | nil => exact Extends.refl pool
  | cons s ss ih => exact (pool.extends_intern s).trans (ih _)

/-- **A run of calls**: every id shows its string, and the strings are the old and the interned
ones. -/
theorem internAll_spec (pool : StringPool) (ss : List Bytes) :
    List.Forall₂ (fun id s => id < (pool.internAll ss).2.size ∧ (pool.internAll ss).2.view id = s)
      (pool.internAll ss).1 ss ∧
    ∀ t, t ∈ (pool.internAll ss).2.strings ↔ t ∈ pool.strings ∨ t ∈ ss := by
  induction ss generalizing pool with
  | nil => exact ⟨.nil, fun t => by simp [internAll]⟩
  | cons s ss ih =>
    obtain ⟨hids, hmem⟩ := ih (pool.intern s).2
    have hext := (pool.intern s).2.extends_internAll ss
    refine ⟨.cons ⟨?_, ?_⟩ hids, fun t => ?_⟩
    · exact Nat.lt_of_lt_of_le (pool.intern_lt s) hext.size_le
    · exact (hext.view_eq _ (pool.intern_lt s)).trans (pool.view_intern s)
    · refine (hmem t).trans ?_
      rw [mem_intern, List.mem_cons, or_assoc]

theorem mem_internAll_empty {ss : List Bytes} : s ∈ (empty.internAll ss).2.strings ↔ s ∈ ss := by
  rw [(empty.internAll_spec ss).2]
  exact or_iff_right List.not_mem_nil

theorem mem_internAll_ids {ss : List Bytes} :
    id ∈ (empty.internAll ss).1 ↔ id < (empty.internAll ss).2.size := by
  obtain ⟨hlen, hids⟩ := List.forall₂_iff_get.1 (empty.internAll_spec ss).1
  constructor
  · intro hid
    obtain ⟨k, hk, rfl⟩ := List.mem_iff_getElem.1 hid
    exact (hids k hk (hlen ▸ hk)).1
  · intro hid
    have hmem := mem_internAll_empty.1 (mem_strings_iff.2 ⟨id, hid, rfl⟩)
    obtain ⟨k, hk, hview⟩ := List.mem_iff_getElem.1 hmem
    obtain ⟨hlt, hsame⟩ := hids k (hlen ▸ hk) hk
    rw [view_injective hid hlt (hview.symm.trans hsame.symm)]
    exact List.getElem_mem _

end StringPool

end WslDrive
