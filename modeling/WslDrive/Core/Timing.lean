import Mathlib.Data.List.Dedup
import WslDrive.Core.Collapse

/-!
# When a batch is due

The flusher asks the coalescer whether a batch is ready, and if not, sleeps until its deadline.
Here the coalescer runs through calls of `push` and `take` with their times, and what it says about
time is compared with the events that were pushed since the last `take`.  Times and periods are
integers; in the source they are `int64_t` counts of nanoseconds, and no sum or difference of them
leaves that range as long as they lie between `0` and `2 ^ 62`.

* `Coalescer.run_eq_pushAll` — a run has come from an empty coalescer by the events that wait;
* `Coalescer.deadline_run` — the deadline, in terms of the events that wait;
* `Coalescer.timing` — deadline and readiness agree, and whoever takes a batch by its deadline keeps
  every event waiting for the maximum latency at most.
-/

namespace WslDrive

namespace Coalescer

open History

/-- A call of the coalescer that changes it. -/
inductive Call where
  | push (ev : FsEvent)
  | take
  deriving DecidableEq, Repr

/-- One call and its time. -/
def call (c : Coalescer) (x : ℤ × Call) : Coalescer :=
  match x.2 with
  | .push ev => c.push ev x.1
  | .take => c.take.2

/-- Calls one after the other. -/
def run (c : Coalescer) (calls : List (ℤ × Call)) : Coalescer := calls.foldl call c

/-- The events that wait after one more call. -/
def wait (w : List (FsEvent × ℤ)) (x : ℤ × Call) : List (FsEvent × ℤ) :=
  match x.2 with
  | .push ev => w ++ [(ev, x.1)]
  | .take => []

/-- The events pushed since the last `take`, with their times. -/
def waiting (calls : List (ℤ × Call)) : List (FsEvent × ℤ) := calls.foldl wait []

/-- No call comes after the deadline of what waited before it.  So a `take` has been called in time,
at the latest at the deadline; if a push makes the batch ready, that is its own time. -/
def Prompt (c : Coalescer) (calls : List (ℤ × Call)) : Prop :=
  ∀ before x after, calls = before ++ x :: after → ∀ d ∈ (c.run before).deadline, x.1 ≤ d

variable {c : Coalescer} {calls : List (ℤ × Call)} {w : List (FsEvent × ℤ)} {x : ℤ × Call}

theorem run_concat : c.run (calls ++ [x]) = (c.run calls).call x := List.foldl_concat ..

theorem waiting_concat : waiting (calls ++ [x]) = wait (waiting calls) x := List.foldl_concat ..

theorem pushAll_concat {ev : FsEvent} {t : ℤ} :
    c.pushAll (w ++ [(ev, t)]) = (c.pushAll w).push ev t := List.foldl_concat ..

/-- What every push does: it sets the times and leaves something to be taken. -/
theorem exists_push_eq (c : Coalescer) (ev : FsEvent) (now : ℤ) :
    ∃ pending seq overflow, (overflow = true ∨ pending.entries ≠ []) ∧
      c.push ev now =
        ⟨c.opts, pending, seq, overflow, if c.isEmpty then now else c.first, now⟩ := by
  have hcomm : (c.pending.entries.isEmpty && !c.overflow) = c.isEmpty := Bool.and_comm ..
  rw [push, hcomm]
  cases c.entry ev with
  | none => exact ⟨∅, c.seq, true, .inl rfl, rfl⟩
  | some e =>
    by_cases ho : c.overflow = true
    · exact ⟨c.pending, c.seq, c.overflow, .inl ho, if_pos ho⟩
    · exact ⟨c.pending.insert ev.path e, c.seq + 1, c.overflow, .inr (List.cons_ne_nil _ _),
        if_neg ho⟩

theorem opts_push (c : Coalescer) (ev : FsEvent) (now : ℤ) : (c.push ev now).opts = c.opts := by
  obtain ⟨pending, seq, overflow, -, heq⟩ := c.exists_push_eq ev now
  rw [heq]

theorem opts_pushAll (c : Coalescer) (w : List (FsEvent × ℤ)) : (c.pushAll w).opts = c.opts := by
  induction w using List.reverseRecOn with
  | nil => rfl
  | append_singleton w x ih => rw [pushAll_concat, opts_push, ih]

theorem last_push (c : Coalescer) (ev : FsEvent) (now : ℤ) : (c.push ev now).last = now := by
  obtain ⟨pending, seq, overflow, -, heq⟩ := c.exists_push_eq ev now
  rw [heq]

theorem first_push (c : Coalescer) (ev : FsEvent) (now : ℤ) :
    (c.push ev now).first = if c.isEmpty then now else c.first := by
  obtain ⟨pending, seq, overflow, -, heq⟩ := c.exists_push_eq ev now
  rw [heq]

theorem isEmpty_push (c : Coalescer) (ev : FsEvent) (now : ℤ) :
    (c.push ev now).isEmpty = false := by
  obtain ⟨pending, seq, overflow, hne, heq⟩ := c.exists_push_eq ev now
  rw [heq, Bool.eq_false_iff]
  intro h
  obtain ⟨ho, hp⟩ := isEmpty_iff.1 h
  rcases hne with hne | hne
  · exact Bool.false_ne_true (ho.symm.trans hne)
  · exact hne hp

theorem opts_take (c : Coalescer) : c.take.2.opts = c.opts := by
  rw [take]
  split_ifs <;> rfl

/-! ### The state of a run -/

/-- **A run** has come from an empty coalescer by the events that wait. -/
theorem run_eq_pushAll (hc : c.isEmpty = true) (calls : List (ℤ × Call)) :
    ∃ c' : Coalescer, c'.isEmpty = true ∧ c'.opts = c.opts ∧
      c.run calls = c'.pushAll (waiting calls) := by
  induction calls using List.reverseRecOn with
  | nil => exact ⟨c, hc, rfl, rfl⟩
  | append_singleton calls x ih =>
    obtain ⟨c', hc', hopts, hrun⟩ := ih
    obtain ⟨t, a⟩ := x
    rw [run_concat, waiting_concat]
    cases a with
    | push ev =>
      refine ⟨c', hc', hopts, ?_⟩
      rw [wait, pushAll_concat, hrun]
      rfl
    | take =>
      refine ⟨(c.run calls).take.2, isEmpty_take _, ?_, rfl⟩
      rw [opts_take, hrun, opts_pushAll, hopts]

section PushAll

variable (hc : c.isEmpty = true)
include hc

theorem isEmpty_pushAll : (c.pushAll w).isEmpty = true ↔ w = [] := by
  obtain rfl | ⟨w, x, rfl⟩ := w.eq_nil_or_concat'
  · exact iff_of_true hc rfl
  · rw [pushAll_concat, isEmpty_push]
    simp

omit hc in
theorem last_pushAll {y : FsEvent × ℤ} (hy : y ∈ w.getLast?) : (c.pushAll w).last = y.2 := by
  obtain ⟨w, rfl⟩ := List.getLast?_eq_some_iff.1 hy
  rw [pushAll_concat, last_push]

theorem first_pushAll {y : FsEvent × ℤ} (hy : y ∈ w.head?) : (c.pushAll w).first = y.2 := by
  induction w using List.reverseRecOn with
  | nil => cases hy
  | append_singleton w x ih =>
    rw [pushAll_concat, first_push]
    by_cases hw : w = []
    · subst hw
      cases hy
      rw [if_pos ((isEmpty_pushAll hc).2 rfl)]
    · rw [List.head?_append_of_ne_nil _ hw] at hy
      rw [if_neg (mt (isEmpty_pushAll hc).1 hw), ih hy]

theorem overflow_pushAll_iff :
    (c.pushAll w).overflow = true ↔ ∃ y ∈ w, y.1.kind = .overflow := by
  refine ⟨fun h => ?_, overflow_pushAll⟩
  by_contra hno
  have ht := tracks_pushAll hc fun y hy hk => hno ⟨y, hy, hk⟩
  rw [ht.overflow] at h
  cases h

theorem length_pending_pushAll (hno : ∀ y ∈ w, y.1.kind ≠ .overflow) :
    (c.pushAll w).pending.entries.length = (w.map fun y => y.1.path).dedup.length := by
  have ht := tracks_pushAll hc hno
  have hkeys : (c.pushAll w).pending.keys.Perm (w.map fun y => y.1.path).dedup := by
    refine (List.perm_ext_iff_of_nodup (AList.keys_nodup _) (List.nodup_dedup _)).2 fun p => ?_
    rw [List.mem_dedup, ← AList.mem_keys, ← AList.lookup_isSome, ← Option.ne_none_iff_isSome, ne_eq,
      ht.untouched p, History.on, List.filter_eq_nil_iff]
    simp
  rw [← hkeys.length_eq, AList.keys, List.keys, List.length_map]

end PushAll

/-! ### Deadlines -/

/-- A batch is due at once: events were lost, or there are as many paths as may be pending. -/
def Due (opts : Options) (w : List (FsEvent × ℤ)) : Prop :=
  (∃ y ∈ w, y.1.kind = .overflow) ∨ opts.maxPending ≤ (w.map fun y => y.1.path).dedup.length

/-- **What the coalescer says about time** after the events `w`, the first and the last of which
are given. -/
theorem timing_pushAll (hc : c.isEmpty = true) {first last : FsEvent × ℤ} (hfirst : first ∈ w.head?)
    (hlast : last ∈ w.getLast?) :
    (Due c.opts w → (c.pushAll w).deadline = some last.2 ∧ ∀ now, (c.pushAll w).ready now = true) ∧
    (¬ Due c.opts w →
      (c.pushAll w).deadline =
        some (min (last.2 + c.opts.quietPeriod) (first.2 + c.opts.maxLatency)) ∧
      ∀ now, (c.pushAll w).ready now = true ↔
        now - last.2 ≥ c.opts.quietPeriod ∨ now - first.2 ≥ c.opts.maxLatency) := by
  have hopts := c.opts_pushAll w
  have hne : w ≠ [] := by
    rintro rfl
    cases hfirst
  rw [deadline, last_pushAll hlast, first_pushAll hc hfirst, hopts]
  by_cases hov : ∃ y ∈ w, y.1.kind = .overflow
  · have ho := (overflow_pushAll_iff hc).2 hov
    refine ⟨fun _ => ⟨if_pos ho, fun now => ?_⟩, fun hdue => absurd (.inl hov) hdue⟩
    rw [ready, if_pos ho]
  · have ho : ¬ (c.pushAll w).overflow = true := mt (overflow_pushAll_iff hc).1 hov
    have hp : ¬ (c.pushAll w).pending.entries.isEmpty = true := fun hp =>
      hne ((isEmpty_pushAll hc).1 (by simp [isEmpty, ho, hp]))
    have hlen := length_pending_pushAll hc fun y hy hk => hov ⟨y, hy, hk⟩
    have hready : ∀ now, (c.pushAll w).ready now = true ↔
        (w.map fun y => y.1.path).dedup.length ≥ c.opts.maxPending ∨
          now - last.2 ≥ c.opts.quietPeriod ∨ now - first.2 ≥ c.opts.maxLatency := by
      intro now
      rw [ready, if_neg ho, if_neg hp, hopts, hlen, last_pushAll hlast, first_pushAll hc hfirst]
      split_ifs with hmax
      · exact iff_of_true rfl (.inl hmax)
      · simp [hmax]
    rw [if_neg ho, if_neg hp, hlen]
    refine ⟨fun hdue => ?_, fun hdue => ?_⟩
    · have hmax := hdue.resolve_left hov
      exact ⟨if_pos hmax, fun now => (hready now).2 (.inl hmax)⟩
    · have hmax := not_or.1 hdue |>.2
      exact ⟨if_neg hmax, fun now => (hready now).trans (or_iff_right hmax)⟩

/-- **The deadline of a run**, with what it has to do with readiness. -/
theorem deadline_run (hc : c.isEmpty = true) {first last : FsEvent × ℤ}
    (hfirst : first ∈ (waiting calls).head?) (hlast : last ∈ (waiting calls).getLast?) :
    ∃ d, (c.run calls).deadline = some d ∧ (Due c.opts (waiting calls) → d = last.2) ∧
      (¬ Due c.opts (waiting calls) → d ≤ first.2 + c.opts.maxLatency) ∧
      ∀ now, last.2 ≤ now → ((c.run calls).ready now = true ↔ d ≤ now) := by
  obtain ⟨c', hc', hopts, hrun⟩ := run_eq_pushAll hc calls
  obtain ⟨hdue, hnot⟩ := timing_pushAll hc' hfirst hlast
  rw [hopts] at hdue hnot
  rw [hrun]
  by_cases h : Due c.opts (waiting calls)
  · obtain ⟨hd, hready⟩ := hdue h
    exact ⟨_, hd, fun _ => rfl, fun hn => absurd h hn,
      fun now hnow => iff_of_true (hready now) hnow⟩
  · obtain ⟨hd, hready⟩ := hnot h
    refine ⟨_, hd, fun hy => absurd hy h, fun _ => min_le_right _ _, fun now _ => ?_⟩
    rw [hready]
    omega

theorem deadline_run_eq_none_iff (hc : c.isEmpty = true) :
    (c.run calls).deadline = none ↔ waiting calls = [] := by
  constructor
  · intro h
    by_contra hne
    obtain ⟨d, hd, -⟩ := deadline_run hc (List.head_mem_head? hne) (List.getLast_mem_getLast? hne)
    rw [h] at hd
    cases hd
  · intro h
    obtain ⟨c', hc', -, hrun⟩ := run_eq_pushAll hc calls
    obtain ⟨ho, hp⟩ := isEmpty_iff.1 ((isEmpty_pushAll hc').2 h)
    rw [← hrun] at ho hp
    rw [deadline, ho, hp]
    rfl

/-! ### Latency -/

theorem mem_waiting {y : FsEvent × ℤ} (h : y ∈ waiting calls) : (y.2, Call.push y.1) ∈ calls := by
  induction calls using List.reverseRecOn with
  | nil => cases h
  | append_singleton calls x ih =>
    obtain ⟨t, a⟩ := x
    rw [waiting_concat] at h
    cases a with
    | push ev =>
      rcases List.mem_append.1 h with h | h
      · exact List.mem_append_left _ (ih h)
      · rw [List.mem_singleton.1 h]
        exact List.mem_append_right _ (List.mem_singleton_self _)
    | take => cases h

theorem head_waiting_le (hmono : calls.Pairwise fun x y => x.1 ≤ y.1) {first y : FsEvent × ℤ}
    (hfirst : first ∈ (waiting calls).head?) (hy : y ∈ waiting calls) : first.2 ≤ y.2 := by
  induction calls using List.reverseRecOn with
  | nil => cases hy
  | append_singleton calls x ih =>
    obtain ⟨hmono', -, hlast⟩ := List.pairwise_append.1 hmono
    obtain ⟨t, a⟩ := x
    rw [waiting_concat] at hfirst hy
    cases a with
    | take => cases hy
    | push ev =>
      have hle : ∀ z ∈ waiting calls, z.2 ≤ t := fun z hz =>
        hlast _ (mem_waiting hz) _ (List.mem_singleton_self _)
      by_cases hw : waiting calls = []
      · rw [wait, hw] at hfirst hy
        cases hfirst
        rw [List.mem_singleton.1 hy]
      · rw [wait, List.head?_append_of_ne_nil _ hw] at hfirst
        rcases List.mem_append.1 hy with hy | hy
        · exact ih hmono' hfirst hy
        · rw [List.mem_singleton.1 hy]
          exact hle first (List.mem_of_mem_head? hfirst)

theorem prompt_nil : c.Prompt [] := by
  intro before x after h
  simp at h

theorem prompt_concat :
    c.Prompt (calls ++ [x]) ↔ c.Prompt calls ∧ ∀ d ∈ (c.run calls).deadline, x.1 ≤ d := by
  constructor
  · intro h
    refine ⟨?_, h calls x [] rfl⟩
    rintro before y after rfl
    exact h before y (after ++ [x]) (by simp)
  · rintro ⟨h, hx⟩ before y after heq
    rcases List.eq_nil_or_concat after with rfl | ⟨after, z, rfl⟩
    · obtain ⟨rfl, hy⟩ := List.append_inj' heq rfl
      cases hy
      exact hx
    · rw [List.concat_eq_append, ← List.cons_append, ← List.append_assoc] at heq
      exact h before y after (List.append_inj' heq rfl).1

/-- **No deadline is later than the maximum latency** after the first event that waits. -/
theorem Prompt.deadline_le (hc : c.isEmpty = true) (hlat : 0 ≤ c.opts.maxLatency)
    (h : c.Prompt calls) {first : FsEvent × ℤ} (hfirst : first ∈ (waiting calls).head?) {d : ℤ}
    (hd : (c.run calls).deadline = some d) : d ≤ first.2 + c.opts.maxLatency := by
  -- A batch that is due at once has its last push as the deadline, which came in time.
  have hpush : ∀ last ∈ (waiting calls).getLast?, last.2 ≤ first.2 + c.opts.maxLatency := by
    clear hd
    induction calls using List.reverseRecOn with
    | nil => intro last hlast; cases hlast
    | append_singleton calls x ih =>
      obtain ⟨t, a⟩ := x
      rw [waiting_concat] at hfirst ⊢
      cases a with
      | take => cases hfirst
      | push ev =>
        rintro last hlast
        rw [wait, List.getLast?_concat] at hlast
        cases hlast
        by_cases hw : waiting calls = []
        · rw [wait, hw] at hfirst
          cases hfirst
          exact Int.le_add_of_nonneg_right hlat
        · rw [wait, List.head?_append_of_ne_nil _ hw] at hfirst
          obtain ⟨d, hd, hdue, hnot, -⟩ :=
            deadline_run hc hfirst (List.getLast_mem_getLast? hw)
          refine (h calls _ [] rfl d hd).trans ?_
          by_cases hnow : Due c.opts (waiting calls)
          · rw [hdue hnow]
            exact ih (prompt_concat.1 h).1 hfirst _ (List.getLast_mem_getLast? hw)
          · exact hnot hnow
  have hne : waiting calls ≠ [] := by
    intro hnil
    rw [hnil] at hfirst
    cases hfirst
  obtain ⟨d', hd', hdue, hnot, -⟩ := deadline_run hc hfirst (List.getLast_mem_getLast? hne)
  rw [hd] at hd'
  cases hd'
  by_cases hnow : Due c.opts (waiting calls)
  · rw [hdue hnow]
    exact hpush _ (List.getLast_mem_getLast? hne)
  · exact hnot hnow

/-- **No event waits longer than the maximum latency**, as long as time does not pass the
deadline. -/
theorem Prompt.latency (hc : c.isEmpty = true) (hlat : 0 ≤ c.opts.maxLatency)
    (hmono : calls.Pairwise fun x y => x.1 ≤ y.1) (h : c.Prompt calls) {now : ℤ}
    (hnow : ∀ d ∈ (c.run calls).deadline, now ≤ d) {y : FsEvent × ℤ} (hy : y ∈ waiting calls) :
    now - y.2 ≤ c.opts.maxLatency := by
  have hne := List.ne_nil_of_mem hy
  have hfirst := List.head_mem_head? hne
  obtain ⟨d, hd, -⟩ := deadline_run hc hfirst (List.getLast_mem_getLast? hne)
  have h1 := hnow d hd
  have h2 := h.deadline_le hc hlat hfirst hd
  have h3 := head_waiting_le hmono hfirst hy
  omega

/-- **Timing of the coalescer.**  There is a deadline exactly if an event waits; the batch is ready
exactly from then on; and the deadline is at most the maximum latency after the first push.  So if
no deadline passes without a `take`, no event waits longer. -/
theorem timing (c : Coalescer) (hc : c.isEmpty = true) (hlat : 0 ≤ c.opts.maxLatency)
    (calls : List (ℤ × Call)) (hmono : calls.Pairwise fun x y => x.1 ≤ y.1) :
    ((c.run calls).deadline = none ↔ waiting calls = []) ∧
    (∀ first ∈ (waiting calls).head?, ∀ last ∈ (waiting calls).getLast?,
      ∃ d, (c.run calls).deadline = some d ∧
        (∀ now, last.2 ≤ now → ((c.run calls).ready now = true ↔ d ≤ now)) ∧
        (Due c.opts (waiting calls) → d = last.2) ∧
        (¬ Due c.opts (waiting calls) → d ≤ first.2 + c.opts.maxLatency)) ∧
    (c.Prompt calls →
      (∀ now, (∀ d ∈ (c.run calls).deadline, now ≤ d) →
        ∀ y ∈ waiting calls, now - y.2 ≤ c.opts.maxLatency) ∧
      ∀ before t after, calls = before ++ (t, .take) :: after →
        ∀ y ∈ waiting before, t - y.2 ≤ c.opts.maxLatency) := by
  refine ⟨deadline_run_eq_none_iff hc, fun first hfirst last hlast => ?_, fun hprompt => ⟨?_, ?_⟩⟩
  · obtain ⟨d, hd, hdue, hnot, hready⟩ := deadline_run hc hfirst hlast
    exact ⟨d, hd, hready, hdue, hnot⟩
  · exact fun now hnow y hy => hprompt.latency hc hlat hmono hnow hy
  · rintro before t after rfl y hy
    have hbefore : c.Prompt before := by
      rintro before' x after' rfl
      exact hprompt before' x (after' ++ (t, .take) :: after) (by simp)
    exact hbefore.latency hc hlat (List.pairwise_append.1 hmono).1 (hprompt before _ after rfl) hy

/-- Two events and a batch taken at its deadline. -/
theorem timing_two_events :
    let ev : FsEvent := { kind := .modified, path := bytes "a" }
    let calls : List (ℤ × Call) :=
      [(0, .push ev), (1500000, .push { ev with path := bytes "b" }), (3500000, .take)]
    let c : Coalescer := {}
    c.Prompt calls ∧ ∀ y ∈ waiting (calls.take 2), 3500000 - y.2 ≤ 25000000 := by
  intro ev calls c
  have hprompt : c.Prompt calls := by
    have hcalls : calls = [] ++ [(0, .push ev)] ++
        [(1500000, .push { ev with path := bytes "b" })] ++ [(3500000, .take)] := rfl
    rw [hcalls, prompt_concat, prompt_concat, prompt_concat]
    exact ⟨⟨⟨prompt_nil, by decide⟩, by decide⟩, by decide⟩
  exact ⟨hprompt, ((timing c rfl (by decide) calls (by decide)).2.2 hprompt).2 _ _ _ rfl⟩

end Coalescer

end WslDrive
