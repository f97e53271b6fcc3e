import Mathlib.Logic.Relation
import WslDrive.Lib.Feed

/-!
# A copy of one value, kept by notices and by own writes

A source value changes; every change leaves a notice.  A reader of the source takes the notices
under a new generation, reads the value, and sends it to the copy as an update with that
generation.  The owner of the copy also writes to the source itself: such a write is acknowledged
with the generation at that moment, and at some later point the owner puts the written value into
its copy and refuses, from then on, updates up to the acknowledged generation.

`Replica.Step` allows the interleavings in which the copy cannot go wrong:

* nobody else changes the source between a write and its acknowledgement;
* an update is not received while a write acknowledged with an older generation has yet to be put
  into the copy.

* `Replica.Consistent.steps` — the invariant along every run of these steps;
* `Replica.Consistent.agrees` — when nothing is under way the copy has the value of the source.
-/

namespace WslDrive

/-- A source value, its copy, and what is under way between them. -/
structure Replica (V : Type*) extends Feed V where
  /-- The value of a write that is not acknowledged yet. -/
  writing : Option V
  /-- Acknowledged writes that are not in the copy yet. -/
  acks : List (V × ℕ)
  copy : V
  /-- Updates up to this generation are refused. -/
  refused : Option ℕ

namespace Replica

variable {V : Type*} {r r' : Replica V}

/-- An update reaches the copy. -/
def receive (r : Replica V) (g : ℕ) (v : V) (rest : List (ℕ × V)) : Replica V :=
  if r.refused.any (g ≤ ·) then { r with inflight := rest }
  else { r with inflight := rest, copy := v, refused := none }

/-- A step of sender, owner or copy. -/
inductive Step (r : Replica V) : Replica V → Prop
  /-- Notices come closer. -/
  | notice {n t : Prop} (hn : r.noticed → n) (ht : r.taken → t) :
      Step r { r with noticed := n, taken := t }
  | change (v : V) {n : Prop} (hn : n) (hw : r.writing = none) :
      Step r { r with source := v, noticed := n }
  | write (v : V) {n : Prop} (hn : n) (hw : r.writing = none) :
      Step r { r with source := v, noticed := n, writing := some v }
  | acknowledge {v : V} (hw : r.writing = some v) :
      Step r { r with writing := none, acks := r.acks ++ [(v, r.generation)] }
  /-- A write that is not acknowledged at all. -/
  | abandon : Step r { r with writing := none }
  | take {n t : Prop} (hn : r.noticed → n ∨ t) (ht : ¬ r.taken) :
      Step r { r with generation := r.generation + 1, noticed := n, taken := t }
  | read {t : Prop} (ht : r.taken) :
      Step r { r with taken := t, inflight := r.inflight ++ [(r.generation, r.source)] }
  | receive {g : ℕ} {v : V} {rest : List (ℕ × V)} (h : r.inflight = (g, v) :: rest)
      (hacks : ∀ a ∈ r.acks, g ≤ a.2) : Step r (r.receive g v rest)
  | settle {v : V} {g : ℕ} {l₁ l₂ : List (V × ℕ)} (h : r.acks = l₁ ++ (v, g) :: l₂) :
      Step r { r with acks := l₁ ++ l₂, copy := v, refused := some g }
  | forget : Step r { r with refused := none }

theorem Step.of_frame (h : r = { r' with noticed := r.noticed, taken := r.taken })
    (hn : r.noticed → r'.noticed) (ht : r.taken → r'.taken) : Step r r' := by
  have hr' : r' = { r with noticed := r'.noticed, taken := r'.taken } := by rw [h]
  rw [hr']
  exact .notice hn ht

/-- A step of the sending half.  The source does not change while a write is not acknowledged. -/
theorem Step.of_feed {f : Feed V} (h : r.toFeed.Step f)
    (hw : r.writing = none ∨ f.source = r.source) : Step r { r with toFeed := f } := by
  cases h with
  | notice hn ht => exact .notice hn ht
  | change v hn =>
    rcases hw with hw | rfl
    · exact .change v hn hw
    · exact .notice (fun _ => hn) fun ht => ht
  | take hn ht => exact .take hn ht
  | read ht => exact .read ht

/-- An update of generation `g` with the value of the source would do: what could stand against
it has that value. -/
structure Passes (r : Replica V) (g : ℕ) : Prop where
  acks : ∀ a ∈ r.acks, g ≤ a.2 → a.1 = r.source
  refused : ∀ b, r.refused = some b → g ≤ b → r.copy = r.source

/-- The value of the source will reach the copy: a notice is left, or the last update has it, or
the copy has it already. -/
inductive Covered (r : Replica V) : Prop
  | noticed (h : r.noticed)
  | taken (h : r.taken) (hp : r.Passes r.generation)
  | inflight {l : List (ℕ × V)} {g : ℕ} (h : r.inflight = l ++ [(g, r.source)])
      (hg : g ≤ r.generation) (hp : r.Passes g)
  | copied (h : r.inflight = []) (hc : r.copy = r.source) (hp : r.Passes 0)

/-- **The invariant.** -/
structure Consistent (r : Replica V) : Prop where
  acks_le : ∀ a ∈ r.acks, a.2 ≤ r.generation
  refused_le : ∀ b, r.refused = some b → b ≤ r.generation
  writing_eq : ∀ v, r.writing = some v → v = r.source
  covered : r.Covered

theorem Passes.mono {g g' : ℕ} (h : r.Passes g) (hle : g ≤ g') : r.Passes g' where
  acks a ha hg := h.acks a ha (Nat.le_trans hle hg)
  refused b hb hg := h.refused b hb (Nat.le_trans hle hg)

theorem Covered.transfer (h : r.Covered) (hsrc : r'.source = r.source)
    (hgen : r'.generation = r.generation) (hfl : r'.inflight = r.inflight)
    (hn : r.noticed → r'.noticed) (ht : r.taken → r'.taken)
    (hp : ∀ g, r.Passes g → r'.Passes g)
    (hc : r.copy = r.source → r.Passes 0 → r'.copy = r.source) : r'.Covered := by
  cases h with
  | noticed h => exact .noticed (hn h)
  | taken h h' => exact .taken (ht h) (by rw [hgen]; exact hp _ h')
  | inflight h hg h' =>
    exact .inflight (by rw [hfl, hsrc]; exact h) (by rw [hgen]; exact hg) (hp _ h')
  | copied h h' hpass =>
    exact .copied (by rw [hfl]; exact h) (by rw [hsrc]; exact hc h' hpass) (hp _ hpass)

/-- An update that leaves the list of updates, whether the copy takes it or refuses it. -/
theorem Covered.shorten (h : r.Covered) {g : ℕ} {v : V} {rest : List (ℕ × V)}
    (heq : r.inflight = (g, v) :: rest) (hacks : ∀ a ∈ r.acks, g ≤ a.2)
    (hsrc : r'.source = r.source) (hgen : r'.generation = r.generation)
    (hfl : r'.inflight = rest) (hn : r'.noticed = r.noticed) (ht : r'.taken = r.taken)
    (hp : ∀ g, r.Passes g → r'.Passes g)
    (hc : v = r.source → r.Passes g → r'.copy = r.source) (ha : r'.acks = r.acks) :
    r'.Covered := by
  cases h with
  | noticed h => exact .noticed (by rw [hn]; exact h)
  | taken h h' => exact .taken (by rw [ht]; exact h) (by rw [hgen]; exact hp _ h')
  | @inflight l g' h hg h' =>
    cases l with
    | nil =>
      -- It was the last one, so it had the value of the source.
      rw [heq] at h
      cases h
      have hcopy := hc rfl h'
      refine .copied hfl (by rw [hsrc]; exact hcopy) ⟨fun a hmem _ => ?_, fun _ _ _ => ?_⟩
      · rw [hsrc]
        rw [ha] at hmem
        exact h'.acks a hmem (hacks a hmem)
      · rw [hsrc]
        exact hcopy
    | cons x l =>
      obtain ⟨-, hrest⟩ := List.cons.inj (heq.symm.trans h)
      exact .inflight (by rw [hfl, hsrc]; exact hrest) (by rw [hgen]; exact hg) (hp _ h')
  | copied h =>
    rw [heq] at h
    cases h

theorem Consistent.receive (h : r.Consistent) {g : ℕ} {v : V} {rest : List (ℕ × V)}
    (heq : r.inflight = (g, v) :: rest) (hacks : ∀ a ∈ r.acks, g ≤ a.2) :
    (r.receive g v rest).Consistent := by
  rw [Replica.receive]
  split_ifs with href
  · refine ⟨h.acks_le, h.refused_le, h.writing_eq, h.covered.shorten heq hacks rfl rfl rfl rfl rfl
      (fun g hp => ⟨hp.acks, hp.refused⟩) (fun _ hp => ?_) rfl⟩
    obtain ⟨b, hb, hle⟩ := (Option.any_eq_true _ _).1 href
    exact hp.refused b hb (of_decide_eq_true hle)
  · exact ⟨h.acks_le, nofun, h.writing_eq, h.covered.shorten heq hacks rfl rfl rfl rfl rfl
      (fun g hp => ⟨hp.acks, nofun⟩) (fun hv _ => hv) rfl⟩

theorem Consistent.step (h : r.Consistent) (hs : Step r r') : r'.Consistent := by
  cases hs with
  | notice hn ht =>
    exact ⟨h.acks_le, h.refused_le, h.writing_eq,
      h.covered.transfer rfl rfl rfl hn ht (fun g hp => ⟨hp.acks, hp.refused⟩) fun hc _ => hc⟩
  | change v hn hw =>
    exact ⟨h.acks_le, h.refused_le, fun v hv => absurd (hw.symm.trans hv) nofun, .noticed hn⟩
  | write v hn hw =>
    exact ⟨h.acks_le, h.refused_le, fun w hw => (Option.some.inj hw).symm, .noticed hn⟩
  | @acknowledge v hw =>
    have hv := h.writing_eq v hw
    have hnew : ∀ {P : V × ℕ → Prop}, (∀ a ∈ r.acks, P a) → P (v, r.generation) →
        ∀ a ∈ r.acks ++ [(v, r.generation)], P a := by
      intro P hold hv a ha
      rcases List.mem_append.1 ha with ha | ha
      · exact hold a ha
      · rw [List.mem_singleton.1 ha]
        exact hv
    exact ⟨hnew h.acks_le (Nat.le_refl _), h.refused_le, nofun,
      h.covered.transfer rfl rfl rfl (fun h => h) (fun h => h)
        (fun g hp => ⟨hnew hp.acks fun _ => hv, hp.refused⟩) fun hc _ => hc⟩
  | abandon =>
    exact ⟨h.acks_le, h.refused_le, nofun, h.covered.transfer rfl rfl rfl (fun h => h) (fun h => h)
      (fun g hp => ⟨hp.acks, hp.refused⟩) fun hc _ => hc⟩
  | take hn ht =>
    refine ⟨fun a ha => Nat.le_succ_of_le (h.acks_le a ha),
      fun b hb => Nat.le_succ_of_le (h.refused_le b hb), h.writing_eq, ?_⟩
    cases h.covered with
    | noticed h' =>
      rcases hn h' with hn | ht
      · exact .noticed hn
      · -- The new generation is above everything that could stand against it.
        refine .taken ht ⟨fun a ha hle => ?_, fun b hb hle => ?_⟩
        · exact absurd hle (Nat.not_le_of_lt (Nat.lt_succ_of_le (h.acks_le a ha)))
        · exact absurd hle (Nat.not_le_of_lt (Nat.lt_succ_of_le (h.refused_le b hb)))
    | taken h' => exact absurd h' ht
    | inflight h' hg hp => exact .inflight h' (Nat.le_succ_of_le hg) ⟨hp.acks, hp.refused⟩
    | copied h' hc hp => exact .copied h' hc ⟨hp.acks, hp.refused⟩
  | @read t ht =>
    refine ⟨h.acks_le, h.refused_le, h.writing_eq, ?_⟩
    have hlast (hp : r.Passes r.generation) : Covered
        { r with taken := t, inflight := r.inflight ++ [(r.generation, r.source)] } :=
      .inflight rfl (Nat.le_refl _) ⟨hp.acks, hp.refused⟩
    cases h.covered with
    | noticed h' => exact .noticed h'
    | taken _ hp => exact hlast hp
    | inflight _ hg hp => exact hlast (hp.mono hg)
    | copied _ _ hp => exact hlast (hp.mono (Nat.zero_le _))
  | receive heq hacks => exact h.receive heq hacks
  | @settle v g l₁ l₂ heq =>
    have hsub : ∀ a ∈ l₁ ++ l₂, a ∈ r.acks := by
      intro a ha
      rw [heq]
      rcases List.mem_append.1 ha with ha | ha
      · exact List.mem_append_left _ ha
      · exact List.mem_append_right _ (List.mem_cons_of_mem _ ha)
    have hmem : (v, g) ∈ r.acks := by
      rw [heq]
      exact List.mem_append_right _ List.mem_cons_self
    refine ⟨fun a ha => h.acks_le a (hsub a ha), ?_, h.writing_eq, ?_⟩
    · rintro b ⟨⟩
      exact h.acks_le _ hmem
    · refine h.covered.transfer rfl rfl rfl (fun h => h) (fun h => h) (fun g' hp =>
        ⟨fun a ha => hp.acks a (hsub a ha), ?_⟩) fun _ hp => hp.acks _ hmem (Nat.zero_le _)
      rintro b ⟨⟩ hle
      exact hp.acks _ hmem hle
  | forget =>
    exact ⟨h.acks_le, nofun, h.writing_eq, h.covered.transfer rfl rfl rfl (fun h => h) (fun h => h)
      (fun g hp => ⟨hp.acks, nofun⟩) fun hc _ => hc⟩

/-- **The invariant holds along every run.** -/
theorem Consistent.steps (h : r.Consistent) (hs : Relation.ReflTransGen Step r r') :
    r'.Consistent := by
  induction hs with
  | refl => exact h
  | tail _ hs ih => exact ih.step hs

/-- **When nothing is under way, the copy has the value of the source.** -/
theorem Consistent.agrees (h : r.Consistent) (hn : ¬ r.noticed) (ht : ¬ r.taken)
    (hfl : r.inflight = []) : r.copy = r.source := by
  cases h.covered with
  | noticed h' => exact absurd h' hn
  | taken h' => exact absurd h' ht
  | inflight h' =>
    rw [hfl] at h'
    simp at h'
  | copied _ hc => exact hc

end Replica

end WslDrive
