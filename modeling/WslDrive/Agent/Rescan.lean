import Mathlib.Data.List.Cycle
import WslDrive.Lib.Exec

/-!
# Rescans are spaced out

Rescans are asked for at any time.  The rescan thread waits for a request and until the back-off
after the last snapshot is over, and fetches a snapshot.

* `rescans_spaced` — the time between snapshots doubles, up to 30 s, and no request is lost.
-/

namespace WslDrive

namespace Rescan

/-- `kRescanMinInterval`, in milliseconds. -/
def kMinInterval : ℕ := 500

/-- `kRescanMaxInterval`. -/
def kMaxInterval : ℕ := 30000

/-- Where `rescan_loop` is. -/
inductive Place where
  | waiting
  | sleeping (earliest : ℕ)
  | fetching
  | returned

/-- The rescan loop with its clock. -/
structure State where
  now : ℕ := 0
  requested : Bool := false
  last : Option ℕ := none
  backoff : ℕ := kMinInterval
  place : Place := .waiting
  /-- The snapshots with the back-off after each, the last one first, and the last request; only
  the theorems read these. -/
  starts : List (ℕ × ℕ) := []
  asked : Option ℕ := none

/-- What happens to the loop. -/
inductive Action where
  | tick (ms : ℕ)
  | request
  | wake
  | start
  | finish
  | stop

/-- The clock, a request, `close`, or the next step of `rescan_loop`. -/
def next (s : State) (a : Action) : Option State :=
  match a, s.place with
  | .tick ms, _ => some { s with now := s.now + ms }
  | .request, _ => some { s with requested := true, asked := some s.now }
  | .wake, .waiting =>
    if s.requested then
      match s.last with
      | none => some { s with requested := false, place := .sleeping s.now }
      | some last =>
        let backoff := if kMaxInterval < s.now - last then kMinInterval else s.backoff
        some { s with requested := false, backoff, place := .sleeping (last + backoff) }
    else none
  | .start, .sleeping earliest =>
    if earliest ≤ s.now then
      let backoff := if s.last.isSome then min (s.backoff * 2) kMaxInterval else s.backoff
      some { s with
        last := some s.now, backoff, place := .fetching, starts := (s.now, backoff) :: s.starts }
    else none
  | .finish, .fetching => some { s with place := .waiting }
  | .stop, _ => some { s with place := .returned }
  | _, _ => none

/-- The loop, started. -/
def system : TransSys State Action := .ofNext (· = {}) next

/-- A snapshot comes after the back-off of the one before, or after a quiet spell. -/
def Gap (y x : ℕ × ℕ) : Prop :=
  x.1 + kMaxInterval < y.1 ∨ x.1 + x.2 ≤ y.1 ∧ y.2 = min (x.2 * 2) kMaxInterval

/-- The invariant: snapshots keep their distance, and the back-off is that of the last one. -/
structure Inv (s : State) : Prop where
  chain : s.starts.IsChain Gap
  last : s.last = s.starts.head?.map Prod.fst
  backoff : kMinInterval ≤ s.backoff
  low : ∀ x ∈ s.starts, kMinInterval ≤ x.2
  round : ∀ x ∈ s.starts.head?, x.1 ≤ s.now ∧
    (x.2 = s.backoff ∧ (∀ e, s.place = .sleeping e → e = x.1 + x.2) ∨ x.1 + kMaxInterval < s.now)
  asked : ∀ t, s.asked = some t → t ≤ s.now ∧
    (s.place = .waiting ∨ s.place = .fetching → s.requested = true ∨ ∃ x ∈ s.starts, t ≤ x.1)

section

variable {s s' : State} (h : Inv s)
include h

theorem Inv.tick (ms : ℕ) : Inv { s with now := s.now + ms } := by
  refine { h with round := fun x hx => ?_, asked := fun t ht => ?_ }
  · obtain ⟨hle, hround⟩ := h.round x hx
    exact ⟨hle.trans (Nat.le_add_right _ _), hround.imp_right fun hlt => Nat.lt_add_right ms hlt⟩
  · exact ⟨(h.asked t ht).1.trans (Nat.le_add_right _ _), (h.asked t ht).2⟩

theorem Inv.request : Inv { s with requested := true, asked := some s.now } := by
  refine { h with asked := fun t ht => ?_ }
  cases ht
  exact ⟨le_rfl, fun _ => .inl rfl⟩

theorem Inv.wake_first (hlast : s.last = none) :
    Inv { s with requested := false, place := .sleeping s.now } := by
  refine { h with round := fun x hx => ?_, asked := fun t ht => ⟨(h.asked t ht).1, by simp⟩ }
  have hnone := h.last
  rw [hlast, hx] at hnone
  cases hnone

theorem Inv.wake {last backoff : ℕ} (hlast : s.last = some last)
    (hbackoff : backoff = if kMaxInterval < s.now - last then kMinInterval else s.backoff) :
    Inv { s with requested := false, backoff, place := .sleeping (last + backoff) } where
  chain := h.chain
  last := h.last
  backoff := by
    rw [hbackoff]
    split_ifs
    · exact le_rfl
    · exact h.backoff
  low := h.low
  round x hx := by
    obtain ⟨hle, hround⟩ := h.round x hx
    have hx1 : last = x.1 := by
      have := h.last
      rw [hlast, hx] at this
      exact Option.some.inj this
    refine ⟨hle, ?_⟩
    by_cases hquiet : x.1 + kMaxInterval < s.now
    · exact .inr hquiet
    · obtain ⟨hx2, -⟩ := hround.resolve_right hquiet
      have hsame : backoff = s.backoff := by
        rw [hbackoff, if_neg (by omega)]
      refine .inl ⟨hx2.trans hsame.symm, fun e he => ?_⟩
      cases he
      rw [hx1, hsame, hx2]
  asked t ht := ⟨(h.asked t ht).1, by simp⟩

theorem Inv.start {earliest backoff : ℕ} (hplace : s.place = .sleeping earliest)
    (hnow : earliest ≤ s.now)
    (hbackoff : backoff = if s.last.isSome then min (s.backoff * 2) kMaxInterval else s.backoff) :
    Inv { s with
      last := some s.now
      backoff
      place := .fetching
      starts := (s.now, backoff) :: s.starts } := by
  have hlow : kMinInterval ≤ backoff := by
    have hmin : kMinInterval ≤ kMaxInterval := by decide
    have := h.backoff
    rw [hbackoff]
    split_ifs <;> omega
  refine ⟨?_, rfl, hlow, List.forall_mem_cons.2 ⟨hlow, h.low⟩, ?_, fun t ht => ?_⟩
  · refine List.isChain_cons.2 ⟨fun x hx => ?_, h.chain⟩
    obtain ⟨-, ⟨hx2, hearliest⟩ | hquiet⟩ := h.round x hx
    · have hsome : s.last.isSome = true := by
        rw [h.last, hx]
        rfl
      rw [hearliest earliest hplace] at hnow
      exact .inr ⟨hnow, by rw [hbackoff, if_pos hsome, hx2]⟩
    · exact .inl hquiet
  · rintro x ⟨⟩
    exact ⟨le_rfl, .inl ⟨rfl, nofun⟩⟩
  · exact ⟨(h.asked t ht).1, fun _ => .inr ⟨_, List.mem_cons_self, (h.asked t ht).1⟩⟩

theorem Inv.awake {place : Place} (hplace : ∀ e, place ≠ .sleeping e)
    (hasked : place = .waiting ∨ place = .fetching → s.place = .waiting ∨ s.place = .fetching) :
    Inv { s with place } := by
  refine { h with round := fun x hx => ?_, asked := fun t ht => ?_ }
  · obtain ⟨hle, hround⟩ := h.round x hx
    exact ⟨hle, hround.imp_left fun hx2 => ⟨hx2.1, fun e he => absurd he (hplace e)⟩⟩
  · exact ⟨(h.asked t ht).1, fun hpl => (h.asked t ht).2 (hasked hpl)⟩

theorem Inv.next {a : Action} (hnext : next s a = some s') : Inv s' := by
  revert hnext
  fun_cases Rescan.next s a <;> rintro ⟨⟩
  case case1 ms => exact h.tick ms
  case case2 => exact h.request
  case case3 hlast => exact h.wake_first hlast
  case case4 hlast backoff => exact h.wake hlast rfl
  case case6 hplace hnow backoff => exact h.start hplace hnow rfl
  case case8 hplace => exact h.awake nofun fun _ => .inr hplace
  case case9 => exact h.awake nofun (by simp)

end

theorem spaced {l : List (ℕ × ℕ)} (hl : l.IsChain Gap) (hlow : ∀ x ∈ l, kMinInterval ≤ x.2) (k : ℕ)
    {i : ℕ} {x y : ℕ × ℕ} (hy : l[i]? = some y) (hx : l[i + k]? = some x) :
    x.1 + kMaxInterval < y.1 ∨ x.1 + kMinInterval * (2 ^ k - 1) ≤ y.1 ∧
      min (kMinInterval * 2 ^ k) kMaxInterval ≤ y.2 := by
  induction k generalizing i y with
  | zero =>
    cases hy.symm.trans hx
    exact .inr ⟨le_rfl, (min_le_left _ _).trans (hlow _ (List.mem_of_getElem? hy))⟩
  | succ k ih =>
    obtain ⟨hi, -⟩ := List.getElem?_eq_some_iff.1 hx
    have hz := List.getElem?_eq_getElem (show i + 1 < l.length by omega)
    have hfrom := ih hz (by rwa [Nat.add_assoc, Nat.add_comm 1])
    have hgap := List.isChain_iff_getElem.1 hl i (by omega)
    obtain ⟨_, rfl⟩ := List.getElem?_eq_some_iff.1 hy
    have hpos := Nat.one_le_two_pow (n := k)
    simp only [Gap, kMinInterval, kMaxInterval, pow_succ] at *
    omega

/-- **Rescans are spaced out and none is lost.**  From a snapshot to the `k`-th one after it there
are at least `2 ^ k - 1` half seconds, or 30 s; when the thread waits and no request is left, there
was a snapshot after the last request. -/
theorem rescans_spaced {as : List Action} {s : State} (h : system.Exec as s) :
    (∀ i k x y, s.starts[i]? = some y → s.starts[i + k]? = some x →
      x.1 + min (kMinInterval * (2 ^ k - 1)) kMaxInterval ≤ y.1) ∧
    ∀ t, s.asked = some t → s.place = .waiting → s.requested = false →
      ∃ x ∈ s.starts, t ≤ x.1 := by
  have hinv : Inv s := h.invariant (fun _ hs => hs ▸ ⟨.nil, rfl, le_rfl, by simp, by simp, by simp⟩)
    fun _ _ _ hi hs _ => hi.next hs
  refine ⟨fun i k x y hy hx => ?_, fun t ht hplace hreq => ?_⟩
  · have := spaced hinv.chain hinv.low k hy hx
    omega
  · simpa [hreq] using (hinv.asked t ht).2 (.inl hplace)

/-- A second request right after the first snapshot is served half a second later. -/
theorem rescans_spaced_twice :
    let s : State :=
      { now := 500, last := some 500, backoff := 1000, place := .fetching
        starts := [(500, 1000), (0, 500)], asked := some 0 }
    let as : List Action := [.request, .wake, .start, .request, .finish, .wake, .tick 500, .start]
    as.foldlM next {} = some s ∧ 0 + min (kMinInterval * (2 ^ 1 - 1)) kMaxInterval ≤ 500 := by
  intro s as
  have h : as.foldlM next {} = some s := rfl
  exact ⟨h, (rescans_spaced (TransSys.exec_ofNext rfl h)).1 0 1 (0, 500) (500, 1000) rfl rfl⟩

end Rescan

end WslDrive
