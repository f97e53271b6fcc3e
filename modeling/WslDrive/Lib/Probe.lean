import Mathlib.Data.Nat.Bitwise
import Mathlib.Data.Nat.Find
import Mathlib.Data.Nat.ModEq

/-!
# Linear probing

An open-addressing table of `n = 2 ^ k` slots is searched by a *circular walk*: start at a home
position and step to the next one, wrapping around, until a position satisfies the stopping
condition.  `Probe.walk` is that loop with a bound on the positions it looks at; the position
after `d` steps is `Probe.pos n i d`.

* `Probe.walk_eq_some` : the walk ends at the first position that satisfies the condition.
* `Probe.exists_first` : if any position of the table satisfies it, the walk meets one within
  `n` steps, so a walk of `n` positions ends.
-/

namespace WslDrive

namespace Probe

/-- The position `d` steps after `i` in a circular table of `n` slots. -/
def pos (n i d : ℕ) : ℕ := (i + d) % n

/-- Walk from `i`, one position at a time, until `stop` holds; look at no more than `fuel`
positions.  `mask` is the number of slots minus one. -/
def walk (stop : ℕ → Bool) (mask : ℕ) : ℕ → ℕ → Option ℕ
  | 0, _ => none
  | fuel + 1, i => if stop i then some i else walk stop mask fuel ((i + 1) &&& mask)

variable {n i j d e : ℕ}

theorem and_mask {k : ℕ} (hn : n = 2 ^ k) (x : ℕ) : x &&& (n - 1) = x % n := by
  rw [hn, Nat.and_two_pow_sub_one_eq_mod]

theorem pos_lt (hi : i < n) : pos n i d < n := Nat.mod_lt _ (by omega)

@[simp] theorem pos_zero (hi : i < n) : pos n i 0 = i := Nat.mod_eq_of_lt hi

theorem pos_succ_left (n i d : ℕ) : pos n ((i + 1) % n) d = pos n i (d + 1) := by
  simp only [pos, Nat.mod_add_mod]
  congr 1; omega

theorem exists_pos_eq (hi : i < n) (hj : j < n) : ∃ d < n, pos n i d = j := by
  by_cases h : i ≤ j
  · refine ⟨j - i, by omega, ?_⟩
    rw [pos, show i + (j - i) = j by omega, Nat.mod_eq_of_lt hj]
  · refine ⟨n - i + j, by omega, ?_⟩
    rw [pos, show i + (n - i + j) = j + n by omega, Nat.add_mod_right, Nat.mod_eq_of_lt hj]

/-- A condition met somewhere in the table has a first position along the walk. -/
theorem exists_first {P : ℕ → Prop} (hi : i < n) (h : ∃ j < n, P j) :
    ∃ d < n, P (pos n i d) ∧ ∀ e < d, ¬ P (pos n i e) := by
  classical
  obtain ⟨j, hj, hPj⟩ := h
  obtain ⟨d₀, hd₀, rfl⟩ := exists_pos_eq hi hj
  have hex : ∃ d, P (pos n i d) := ⟨d₀, hPj⟩
  exact ⟨Nat.find hex, lt_of_le_of_lt (Nat.find_min' hex hPj) hd₀, Nat.find_spec hex,
    fun e he => Nat.find_min hex he⟩

/-- **The walk ends at the first position satisfying its condition.** -/
theorem walk_eq_some {stop : ℕ → Bool} {k : ℕ} (hn : n = 2 ^ k) (hi : i < n) {fuel : ℕ}
    (hd : d < fuel) (hstop : stop (pos n i d) = true)
    (hfirst : ∀ e < d, stop (pos n i e) = false) :
    walk stop (n - 1) fuel i = some (pos n i d) := by
  induction fuel generalizing i d with
  | zero => omega
  | succ fuel ih =>
    rw [walk, and_mask hn]
    cases d with
    | zero =>
      rw [pos_zero hi] at hstop ⊢
      simp [hstop]
    | succ d =>
      have h0 := hfirst 0 (by omega)
      rw [pos_zero hi] at h0
      simp only [h0, Bool.false_eq_true, ite_false]
      rw [← pos_succ_left] at hstop ⊢
      refine ih (Nat.mod_lt _ (by omega)) (by omega) hstop fun e he => ?_
      rw [pos_succ_left]
      exact hfirst (e + 1) (by omega)

end Probe

end WslDrive
