import Mathlib.Order.Lattice.Nat
import WslDrive.Core.FlatMap

/-!
# The capacity of a table under churn

`grow_if_needed` rehashes when live keys and tombstones together fill three quarters of the table,
but it doubles the table only if the live keys alone, with the one to come, need more than half of
it.  So tombstones never drive the capacity up: whatever the history, it is bounded by the largest
number of keys that were present at once.

* `Models.growIfNeeded_room` — a rehash leaves room for the insertion it is made for;
* `step_capacity` — what one operation does to the capacity;
* `exists_run_capacity` — the bound over any history without `reserve`.
-/

namespace WslDrive

namespace U64Map

variable {m m' : U64Map} {f : Finmap fun _ : UInt64 => UInt32}

/-! ### What the operations do to the capacity -/

theorem reinsert_capacity {s : Slot} (h : m.reinsert s = some m') : m'.capacity = m.capacity := by
  obtain ⟨i, -, rfl⟩ := Option.map_eq_some_iff.1 h
  simp [capacity]

theorem rehashLoop_capacity {old : List Slot} (h : rehashLoop old m = some m') :
    m'.capacity = m.capacity := by
  induction old generalizing m with
  | nil =>
    cases h
    rfl
  | cons s old ih =>
    rw [rehashLoop] at h
    split_ifs at h with hlive
    · obtain ⟨m₁, hre, hrest⟩ := Option.bind_eq_some_iff.1 h
      exact (ih hrest).trans (reinsert_capacity hre)
    · exact ih h

theorem rehash_capacity {n : ℕ} (h : m.rehash n = some m') : m'.capacity = n := by
  rw [rehashLoop_capacity h]
  simp [capacity]

theorem emplaceLoop_capacity {key : UInt64} {value : UInt32} {assign b : Bool} {fuel i : ℕ}
    {tomb : Option ℕ} (h : m.emplaceLoop key value assign fuel i tomb = some (b, m')) :
    m'.capacity = m.capacity := by
  induction fuel generalizing i tomb with
  | zero => cases h
  | succ fuel ih =>
    rw [emplaceLoop] at h
    by_cases hkey : (m.slotAt i).key = key
    · rw [if_pos hkey] at h
      cases h
      split_ifs
      · exact List.length_set
      · rfl
    · rw [if_neg hkey] at h
      split_ifs at h
      -- past a tombstone, into an unused slot or the tombstone before it, past another key
      · exact ih h
      · exact ih h
      · cases h
        exact List.length_set
      · cases h
        exact List.length_set
      · exact ih h

/-- The table is doubled only if the keys that are present, with the one to come, fill more than
half of it. -/
theorem growIfNeeded_capacity (h : m.growIfNeeded = some m') :
    m'.capacity = m.capacity ∨ m'.capacity = 16 ∨ m'.capacity < 4 * (m.size + 1) := by
  rw [growIfNeeded] at h
  split_ifs at h with hempty hfull hgrow
  · exact .inr (.inl (rehash_capacity h))
  · have := rehash_capacity h
    omega
  · exact .inl (rehash_capacity h)
  · cases h
    exact .inl rfl

theorem emplace_capacity {key : UInt64} {value : UInt32} {assign b : Bool}
    (h : m.emplace key value assign = some (b, m')) :
    m'.capacity = m.capacity ∨ m'.capacity = 16 ∨ m'.capacity < 4 * (m.size + 1) := by
  obtain ⟨m₁, hgrow, hloop⟩ := Option.bind_eq_some_iff.1 h
  rw [emplaceLoop_capacity hloop]
  exact growIfNeeded_capacity hgrow

theorem erase_capacity {key : UInt64} {b : Bool} (h : m.erase key = some (b, m')) :
    m'.capacity = m.capacity := by
  rw [erase] at h
  split_ifs at h with hempty
  · cases h
    rfl
  · obtain ⟨i, -, hi⟩ := Option.map_eq_some_iff.1 h
    split_ifs at hi
    · cases hi
      simp [capacity]
    · cases hi
      rfl

/-- **One operation** keeps the capacity, or makes it 16, or bounds it by the keys present. -/
theorem step_capacity {op : Op} {r : Option Bool} (hop : ∀ n, op ≠ .reserve n)
    (h : m.step op = some (r, m')) :
    m'.capacity = m.capacity ∨ m'.capacity = 16 ∨ m'.capacity < 4 * (m.size + 1) := by
  cases op with
  | insertOrAssign k v =>
    obtain ⟨⟨b, m₁⟩, hins, heq⟩ := Option.map_eq_some_iff.1 h
    cases heq
    exact emplace_capacity hins
  | insertIfAbsent k v =>
    obtain ⟨⟨b, m₁⟩, hins, heq⟩ := Option.map_eq_some_iff.1 h
    cases heq
    exact emplace_capacity hins
  | erase k =>
    obtain ⟨⟨b, m₁⟩, herase, heq⟩ := Option.map_eq_some_iff.1 h
    cases heq
    exact .inl (erase_capacity herase)
  | reserve n => exact absurd rfl (hop n)
  | clear =>
    cases h
    exact .inl (by simp [clear, capacity])

/-- **A rehash leaves room for the insertion it is made for**: asking again changes nothing. -/
theorem Models.growIfNeeded_room (h : Models m f) :
    ∃ m', m.growIfNeeded = some m' ∧ (m'.used + 1) * 4 ≤ m'.capacity * 3 ∧
      m'.growIfNeeded = some m' := by
  obtain ⟨m', hgrow, -, hcap, hroom⟩ := h.growIfNeeded_spec
  refine ⟨m', hgrow, hroom, ?_⟩
  rw [growIfNeeded, if_neg (by rwa [slots_isEmpty_iff]), if_neg (Nat.not_lt.2 hroom)]

/-! ### Runs -/

theorem run_concat {ops : List Op} {op : Op} {rs : List (Option Bool)} {r : Option Bool}
    {m₁ : U64Map} (hrun : m.run ops = some (rs, m₁)) (hstep : m₁.step op = some (r, m')) :
    m.run (ops ++ [op]) = some (rs ++ [r], m') := by
  induction ops generalizing m rs with
  | nil =>
    cases hrun
    simp [run, hstep]
  | cons op' ops ih =>
    obtain ⟨⟨r', m₂⟩, hfirst, hrest⟩ := Option.bind_eq_some_iff.1 hrun
    obtain ⟨⟨rs', m₃⟩, htail, heq⟩ := Option.map_eq_some_iff.1 hrest
    cases heq
    simp [run, hfirst, ih htail]

/-- The largest number of keys present at once before the last operation. -/
def peak (ops : List Op) : ℕ :=
  (Finset.range ops.length).sup fun i => (specRun ∅ (ops.take i)).2.keys.card

theorem card_le_peak_concat (ops : List Op) (op : Op) :
    (specRun ∅ ops).2.keys.card ≤ peak (ops ++ [op]) := by
  have hmem : ops.length ∈ Finset.range (ops ++ [op]).length := by simp
  have hle := Finset.le_sup (f := fun i => (specRun ∅ ((ops ++ [op]).take i)).2.keys.card) hmem
  rwa [List.take_left] at hle

theorem peak_le_concat (ops : List Op) (op : Op) : peak ops ≤ peak (ops ++ [op]) := by
  refine Finset.sup_le fun i hi => ?_
  rw [Finset.mem_range] at hi
  have hmem : i ∈ Finset.range (ops ++ [op]).length := by
    rw [Finset.mem_range, List.length_append]
    omega
  have hle := Finset.le_sup (f := fun i => (specRun ∅ ((ops ++ [op]).take i)).2.keys.card) hmem
  rwa [List.take_append_of_le_length (Nat.le_of_lt hi)] at hle

/-- Whatever the history, the capacity is bounded by the keys that were present at once. -/
theorem exists_run_capacity (ops : List Op) (hops : ∀ op ∈ ops, ∀ n, op ≠ .reserve n) :
    ∃ m, run {} ops = some ((specRun ∅ ops).1, m) ∧ Models m (specRun ∅ ops).2 ∧
      (m.capacity = 0 ∨ m.capacity = 16 ∨ m.capacity < 4 * (peak ops + 1)) := by
  induction ops using List.reverseRecOn with
  | nil => exact ⟨{}, rfl, models_empty, .inl rfl⟩
  | append_singleton ops op ih =>
    obtain ⟨m₁, hrun₁, h₁, hcap₁⟩ := ih fun op' hop' => hops op' (List.mem_append_left _ hop')
    obtain ⟨m, hrun, h⟩ := models_empty.run_spec (ops ++ [op])
    obtain ⟨m', hstep, -⟩ := h₁.step_spec op
    have hm : m = m' := by
      rw [run_concat hrun₁ hstep] at hrun
      exact (congrArg Prod.snd (Option.some.inj hrun)).symm
    subst hm
    refine ⟨m, hrun, h, ?_⟩
    -- the operation was made with the keys of the run before it
    have hcard : m₁.size ≤ peak (ops ++ [op]) := by
      rw [h₁.refines.size_eq]
      exact card_le_peak_concat ops op
    have hmono := peak_le_concat ops op
    rcases step_capacity (hops op (by simp)) hstep with hcap | hcap | hcap
    · rw [hcap]
      omega
    · exact .inr (.inl hcap)
    · omega

/-- **The capacity stays bounded under churn.**  Every run of insertions and erasures ends in a
table of capacity 0, 16 or less than four times the largest number of keys present at once, and one
more; and a rehash leaves room for the next insertion. -/
theorem churn_bounded (ops : List Op) (hops : ∀ op ∈ ops, ∀ n, op ≠ .reserve n) :
    ∃ m, run {} ops = some ((specRun ∅ ops).1, m) ∧
      (m.capacity = 0 ∨ m.capacity = 16 ∨ m.capacity < 4 * (peak ops + 1)) ∧
      ∃ m', m.growIfNeeded = some m' ∧ (m'.used + 1) * 4 ≤ m'.capacity * 3 ∧
        m'.growIfNeeded = some m' := by
  obtain ⟨m, hrun, h, hcap⟩ := exists_run_capacity ops hops
  exact ⟨m, hrun, hcap, h.growIfNeeded_room⟩

/-- Eighteen keys one after the other, each taken out again, and then all of them at once. -/
def churned : List Op :=
  let keys : List MapKey := (List.finRange 18).map fun i => ⟨i.val.toUInt64, by decide +revert⟩
  (keys.flatMap fun k => [.insertOrAssign k 0, .erase k]) ++ keys.map (.insertIfAbsent · 1)

/-- The tombstones fill the first table, which is then rehashed at its capacity; the keys that are
present at once double it. -/
theorem churn_bounded_churned :
    ((run {} (churned.take 34)).map fun r => (r.2.size, r.2.used, r.2.capacity)) =
        some (0, 12, 16) ∧
      ((run {} (churned.take 35)).map fun r => (r.2.size, r.2.used, r.2.capacity)) =
        some (1, 1, 16) ∧
      peak churned = 17 ∧
      ∃ m, run {} churned = some ((specRun ∅ churned).1, m) ∧ m.capacity = 32 ∧
        (m.capacity = 0 ∨ m.capacity = 16 ∨ m.capacity < 4 * (peak churned + 1)) := by
  obtain ⟨m, hrun, hcap, -⟩ := churn_bounded churned (by
    intro op hop n
    simp only [churned, List.mem_append, List.mem_flatMap, List.mem_map, List.mem_cons,
      List.not_mem_nil, or_false] at hop
    rcases hop with ⟨k, -, rfl | rfl⟩ | ⟨k, -, rfl⟩ <;> exact Op.noConfusion)
  have hm : (run {} churned).map (·.2.capacity) = some 32 := by decide +kernel
  rw [hrun] at hm
  exact ⟨by decide +kernel, by decide +kernel, by decide +kernel, m, hrun, Option.some.inj hm, hcap⟩

end U64Map

end WslDrive
