import Mathlib.Data.List.Basic

/-!
# Updates about one value, and a copy that is loaded anew

A source value changes; every change leaves a notice.  A reader of the source takes the notices
under a new generation, reads the value, and sends it as an update with that generation.

A copy of the value is loaded anew while updates arrive.  A scan is stamped with the generation,
and reads the value at some later time; until it is loaded the updates that arrive are recorded.
The load takes the scanned value and, over it, the recorded updates whose generation is above the
stamp.

* `Feed.Ordered.step`, `Feed.Scanned.step` — what holds about the updates and about the scan before
  the load, along every step of the sender;
* `Feed.Covered.load` — after the load the value of the source reaches the copy;
* `Feed.Covered.agrees` — when nothing is under way the copy has the value of the source.
-/

namespace WslDrive

/-- A source value, and the updates about it that are under way. -/
structure Feed (V : Type*) where
  source : V
  /-- Some notice has no generation yet. -/
  noticed : Prop
  /-- Some notice was taken under the current generation, and the value has yet to be read. -/
  taken : Prop
  generation : ℕ
  /-- Updates on their way, the oldest first. -/
  inflight : List (ℕ × V)

namespace Feed

variable {V W : Type*} {f f' : Feed V} {us rest : List (ℕ × V)}

/-- A step of the sender. -/
inductive Step (f : Feed V) : Feed V → Prop
  /-- Notices come closer. -/
  | notice {n t : Prop} (hn : f.noticed → n) (ht : f.taken → t) :
      Step f { f with noticed := n, taken := t }
  | change (v : V) {n : Prop} (hn : n) : Step f { f with source := v, noticed := n }
  | take {n t : Prop} (hn : f.noticed → n ∨ t) (ht : ¬ f.taken) :
      Step f { f with generation := f.generation + 1, noticed := n, taken := t }
  | read {t : Prop} (ht : f.taken) :
      Step f { f with taken := t, inflight := f.inflight ++ [(f.generation, f.source)] }

theorem Step.of_frame (h : f = { f' with noticed := f.noticed, taken := f.taken })
    (hn : f.noticed → f'.noticed) (ht : f.taken → f'.taken) : Step f f' := by
  have hf' : f' = { f with noticed := f'.noticed, taken := f'.taken } := by rw [h]
  rw [hf']
  exact .notice hn ht

theorem Step.generation_le (h : Step f f') :
    f.generation ≤ f'.generation ∧ f'.generation ≤ f.generation + 1 := by
  cases h with
  | take => exact ⟨Nat.le_succ _, Nat.le_refl _⟩
  | notice | change | read => exact ⟨Nat.le_refl _, Nat.le_succ _⟩

/-! ### A coarser value -/

/-- The updates about a function of the value. -/
def map (g : V → W) (f : Feed V) : Feed W where
  source := g f.source
  noticed := f.noticed
  taken := f.taken
  generation := f.generation
  inflight := f.inflight.map (Prod.map id g)

theorem Step.map (g : V → W) (h : Step f f') : Step (f.map g) (f'.map g) := by
  cases h with
  | notice hn ht => exact .notice hn ht
  | change v hn => exact .change (g v) hn
  | take hn ht => exact .take hn ht
  | @read t ht =>
    have hread : Step (f.map g) _ := .read (t := t) ht
    rw [Feed.map, Feed.map, List.map_append]
    exact hread

/-! ### Before the load -/

/-- The updates so far, recorded ones `us` first, come in the order of their generations, and the
last one has the value of the source unless a notice is left. -/
structure Ordered (f : Feed V) (us : List (ℕ × V)) : Prop where
  sorted : (us ++ f.inflight).Pairwise (·.1 ≤ ·.1)
  le : ∀ u ∈ us ++ f.inflight, u.1 ≤ f.generation
  last : f.noticed ∨ f.taken ∨ ∀ u ∈ (us ++ f.inflight).getLast?, u.2 = f.source

/-- The scan with stamp `g` read `v`: either that is the value of the source, or an update above
the stamp has been sent or will be. -/
structure Scanned (f : Feed V) (us : List (ℕ × V)) (g : ℕ) (v : V) : Prop where
  le : g ≤ f.generation
  stale : f.noticed ∨ f.taken ∧ g < f.generation ∨ (∃ u ∈ us ++ f.inflight, g < u.1) ∨
    v = f.source

theorem Ordered.of_nil (h : f.inflight = []) : f.Ordered [] := by
  refine ⟨?_, ?_, .inr (.inr ?_)⟩ <;> rw [h] <;> simp

theorem Ordered.step (h : f.Ordered us) (hs : Step f f') : f'.Ordered us := by
  cases hs with
  | notice hn ht => exact ⟨h.sorted, h.le, h.last.imp hn (.imp_left ht)⟩
  | change v hn => exact ⟨h.sorted, h.le, .inl hn⟩
  | take hn ht =>
    refine ⟨h.sorted, fun u hu => Nat.le_succ_of_le (h.le u hu), ?_⟩
    rcases h.last with h' | h' | h'
    · exact (hn h').imp id .inl
    · exact absurd h' ht
    · exact .inr (.inr h')
  | @read t ht =>
    refine ⟨?_, ?_, .inr (.inr ?_)⟩ <;> dsimp only <;> rw [← List.append_assoc]
    · exact List.pairwise_append.2 ⟨h.sorted, List.pairwise_singleton _ _, by simpa using h.le⟩
    · intro u hu
      rcases List.mem_append.1 hu with hu | hu
      · exact h.le u hu
      · exact Nat.le_of_eq (congrArg Prod.fst (List.mem_singleton.1 hu))
    · rw [List.getLast?_concat]
      rintro u ⟨⟩
      rfl

theorem Ordered.drop {us' : List (ℕ × V)} (h : f.Ordered []) (hfl : f.inflight = us' ++ rest) :
    Ordered { f with inflight := rest } [] := by
  obtain ⟨hsorted, hle, hlast⟩ := h
  rw [List.nil_append, hfl] at hsorted hle hlast
  refine ⟨(List.pairwise_append.1 hsorted).2.1, fun u hu => hle u (List.mem_append_right _ hu),
    hlast.imp id (.imp id fun hlast u hu => hlast u ?_)⟩
  rw [List.nil_append] at hu
  rw [List.getLast?_append, Option.mem_def.1 hu]
  rfl

theorem Ordered.record {us' : List (ℕ × V)} (h : f.Ordered us) (hfl : f.inflight = us' ++ rest) :
    Ordered { f with inflight := rest } (us ++ us') := by
  have heq : us ++ us' ++ rest = us ++ f.inflight := by rw [hfl, List.append_assoc]
  exact ⟨heq ▸ h.sorted, heq ▸ h.le, heq ▸ h.last⟩

theorem Scanned.now {g : ℕ} (hg : g ≤ f.generation) : f.Scanned us g f.source :=
  ⟨hg, .inr (.inr (.inr rfl))⟩

theorem Scanned.step {g : ℕ} {v : V} (h : f.Scanned us g v) (hs : Step f f') :
    f'.Scanned us g v := by
  cases hs with
  | notice hn ht => exact ⟨h.le, h.stale.imp hn (.imp_left (And.imp_left ht))⟩
  | change v hn => exact ⟨h.le, .inl hn⟩
  | take hn ht =>
    refine ⟨Nat.le_succ_of_le h.le, ?_⟩
    rcases h.stale with h' | h' | h'
    · -- What is noticed only now gets a generation above the stamp.
      exact (hn h').imp id fun ht => .inl ⟨ht, Nat.lt_succ_of_le h.le⟩
    · exact absurd h'.1 ht
    · exact .inr (.inr h')
  | @read t ht =>
    have hmem : ∀ u ∈ us ++ f.inflight, u ∈ us ++ (f.inflight ++ [(f.generation, f.source)]) := by
      rw [← List.append_assoc]
      exact fun u => List.mem_append_left _
    refine ⟨h.le, ?_⟩
    rcases h.stale with h' | h' | ⟨u, hu, hlt⟩ | h'
    · exact .inl h'
    · exact .inr (.inr (.inl ⟨(f.generation, f.source), by simp, h'.2⟩))
    · exact .inr (.inr (.inl ⟨u, hmem u hu, hlt⟩))
    · exact .inr (.inr (.inr h'))

theorem Scanned.record {us' : List (ℕ × V)} {g : ℕ} {v : V} (h : f.Scanned us g v)
    (hfl : f.inflight = us' ++ rest) :
    Scanned { f with inflight := rest } (us ++ us') g v := by
  have heq : us ++ us' ++ rest = us ++ f.inflight := by rw [hfl, List.append_assoc]
  exact ⟨h.le, heq ▸ h.stale⟩

/-! ### The load and after it -/

/-- A copy that receives updates. -/
def applied (us : List (ℕ × V)) (copy : V) : V := us.foldl (fun _ u => u.2) copy

theorem applied_append (us us' : List (ℕ × V)) (copy : V) :
    applied (us ++ us') copy = applied us' (applied us copy) :=
  List.foldl_append

theorem applied_eq {u : ℕ × V} (h : us.getLast? = some u) (copy : V) : applied us copy = u.2 := by
  obtain ⟨us, rfl⟩ := List.getLast?_eq_some_iff.1 h
  rw [applied_append]
  rfl

/-- The value of the source will reach the copy. -/
def Covered (f : Feed V) (copy : V) : Prop :=
  f.noticed ∨ f.taken ∨ applied f.inflight copy = f.source

theorem getLast?_filter_append {g : ℕ} {w : ℕ × V} (hw : (us ++ rest).getLast? = some w)
    (hg : g < w.1) : (us.filter (g < ·.1) ++ rest).getLast? = some w := by
  rcases List.eq_nil_or_concat' rest with rfl | ⟨rest, x, rfl⟩
  · rw [List.append_nil] at hw ⊢
    obtain ⟨us, rfl⟩ := List.getLast?_eq_some_iff.1 hw
    rw [List.filter_append, List.filter_cons_of_pos (by simpa using hg), List.filter_nil,
      List.getLast?_concat]
  · rw [← List.append_assoc, List.getLast?_concat] at hw ⊢
    exact hw

/-- **The load**: the recorded updates above the stamp, over the scanned value. -/
theorem Covered.load {g : ℕ} {v : V} (ho : f.Ordered us) (hs : f.Scanned us g v) :
    f.Covered (applied (us.filter (g < ·.1)) v) := by
  rcases ho.last with h | h | hlast
  · exact .inl h
  · exact .inr (.inl h)
  refine hs.stale.imp id fun h => h.imp And.left fun h => ?_
  rw [← applied_append]
  by_cases hex : ∃ u ∈ us ++ f.inflight, g < u.1
  · -- The last update is above the stamp as well, and it has the value of the source.
    obtain ⟨u, hu, hlt⟩ := hex
    obtain ⟨w, hw⟩ := Option.ne_none_iff_exists'.1
      (mt List.getLast?_eq_none_iff.1 (List.ne_nil_of_mem hu))
    have hle : u.1 ≤ w.1 := by
      obtain ⟨init, hinit⟩ := List.getLast?_eq_some_iff.1 hw
      have hsorted := ho.sorted
      rw [hinit, List.pairwise_append] at hsorted
      rw [hinit] at hu
      rcases List.mem_append.1 hu with hu | hu
      · exact hsorted.2.2 u hu w (List.mem_singleton_self _)
      · exact Nat.le_of_eq (congrArg Prod.fst (List.mem_singleton.1 hu))
    rw [applied_eq (getLast?_filter_append hw (Nat.lt_of_lt_of_le hlt hle)) v]
    exact hlast w hw
  · -- No recorded update counts, and those on their way are below the stamp or there is none.
    have hnone : us.filter (g < ·.1) = [] := List.filter_eq_nil_iff.2 fun u hu hlt =>
      hex ⟨u, List.mem_append_left _ hu, of_decide_eq_true hlt⟩
    rw [hnone, List.nil_append]
    cases hfl : f.inflight.getLast? with
    | none =>
      rw [List.getLast?_eq_none_iff.1 hfl]
      exact h.resolve_left hex
    | some w =>
      rw [applied_eq hfl v]
      exact hlast w (by rw [List.getLast?_append, hfl]; rfl)

theorem Covered.step {copy : V} (h : f.Covered copy) (hs : Step f f') : f'.Covered copy := by
  cases hs with
  | notice hn ht => exact h.imp hn (.imp_left ht)
  | change v hn => exact .inl hn
  | take hn ht =>
    rcases h with h | h | h
    · exact (hn h).imp id .inl
    · exact absurd h ht
    · exact .inr (.inr h)
  | read ht => exact .inr (.inr (applied_eq List.getLast?_concat copy))

theorem Covered.receive {copy : V} (h : f.Covered copy) (hfl : f.inflight = us ++ rest) :
    Covered { f with inflight := rest } (applied us copy) := by
  rw [Covered, hfl, applied_append] at h
  exact h

/-- **When nothing is under way, the copy has the value of the source.** -/
theorem Covered.agrees {copy : V} (h : f.Covered copy) (hn : ¬ f.noticed) (ht : ¬ f.taken)
    (hfl : f.inflight = []) : copy = f.source := by
  have := (h.resolve_left hn).resolve_left ht
  rw [hfl] at this
  exact this

end Feed

end WslDrive
