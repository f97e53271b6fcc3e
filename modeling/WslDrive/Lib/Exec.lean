import Mathlib.Data.List.Induction

/-!
# Executions of transition systems

A transition system with labelled steps, its finite executions, and executions all of whose steps
meet a condition.

* `TransSys.ExecWith.invariant` — what holds initially and is preserved by every step holds in every
  state an execution reaches;
* `TransSys.execWith_ofNext` — the executions of a system that is given by a partial function.
-/

namespace WslDrive

/-- A transition system with states `σ` and step labels `α`. -/
structure TransSys (σ α : Type*) where
  init : σ → Prop
  step : σ → α → σ → Prop

namespace TransSys

variable {σ α : Type*} {S : TransSys σ α}

/-- `S.ExecWith ok as s`: the steps `as` lead from an initial state to `s`, and each of them meets
the condition `ok`. -/
inductive ExecWith (S : TransSys σ α) (ok : σ → α → Prop) : List α → σ → Prop
  | start {s : σ} : S.init s → ExecWith S ok [] s
  | next {as : List α} {s s' : σ} {a : α} :
      ExecWith S ok as s → S.step s a s' → ok s a → ExecWith S ok (as ++ [a]) s'

/-- Executions without a condition on their steps. -/
abbrev Exec (S : TransSys σ α) : List α → σ → Prop := S.ExecWith fun _ _ => True

variable {ok : σ → α → Prop} {as : List α} {s : σ}

/-- The rule of invariants for executions whose steps meet a condition. -/
theorem ExecWith.invariant {I : σ → Prop} (h : S.ExecWith ok as s)
    (hinit : ∀ s, S.init s → I s)
    (hstep : ∀ s a s', I s → S.step s a s' → ok s a → I s') : I s := by
  induction h with
  | start h => exact hinit _ h
  | next _ hs hok ih => exact hstep _ _ _ ih hs hok

theorem ExecWith.of_concat {a : α} {s' : σ} (h : S.ExecWith ok (as ++ [a]) s') :
    ∃ s, S.ExecWith ok as s ∧ S.step s a s' ∧ ok s a := by
  generalize heq : as ++ [a] = bs at h
  cases h with
  | start => simp at heq
  | next h hs hok =>
    obtain ⟨rfl, hlast⟩ := List.append_inj' heq rfl
    cases hlast
    exact ⟨_, h, hs, hok⟩

/-- The system in which a step is taken by a function, where it is defined. -/
def ofNext (init : σ → Prop) (next : σ → α → Option σ) : TransSys σ α where
  init := init
  step s a s' := next s a = some s'

theorem ExecWith.step {init : σ → Prop} {next : σ → α → Option σ}
    (h : (ofNext init next).ExecWith ok as s) (a : α) (hok : ok s a) {s' : σ}
    (hs : next s a = some s') : (ofNext init next).ExecWith ok (as ++ [a]) s' :=
  .next h hs hok

theorem ExecWith.steps {init : σ → Prop} {next : σ → α → Option σ}
    (h : (ofNext init next).ExecWith ok as s) (bs : List α) (hok : ∀ b ∈ bs, ∀ s, ok s b) {s' : σ}
    (hs : bs.foldlM next s = some s') : (ofNext init next).ExecWith ok (as ++ bs) s' := by
  induction bs generalizing as s with
  | nil =>
    cases hs
    rwa [List.append_nil]
  | cons b bs ih =>
    rw [List.foldlM_cons, Option.bind_eq_bind, Option.bind_eq_some_iff] at hs
    obtain ⟨s₁, hs₁, hs⟩ := hs
    have := ih (h.step b (hok b List.mem_cons_self s) hs₁)
      (fun c hc => hok c (List.mem_cons_of_mem _ hc)) hs
    rwa [List.append_assoc] at this

/-- The function, iterated as long as the steps meet the condition, gives an execution. -/
theorem execWith_ofNext [∀ s a, Decidable (ok s a)] {init : σ → Prop} {next : σ → α → Option σ}
    {s₀ : σ} (h₀ : init s₀)
    (h : as.foldlM (fun s a => if ok s a then next s a else none) s₀ = some s) :
    (ofNext init next).ExecWith ok as s := by
  induction as using List.reverseRecOn generalizing s with
  | nil =>
    cases h
    exact .start h₀
  | append_singleton as a ih =>
    rw [List.foldlM_append, Option.bind_eq_bind, Option.bind_eq_some_iff] at h
    obtain ⟨s', hs', h⟩ := h
    rw [List.foldlM_cons, Option.bind_eq_bind, Option.bind_eq_some_iff] at h
    obtain ⟨s'', hs'', h⟩ := h
    cases h
    split_ifs at hs'' with hok
    exact .next (ih hs') hs'' hok

theorem exec_ofNext {init : σ → Prop} {next : σ → α → Option σ} {s₀ : σ} (h₀ : init s₀)
    (h : as.foldlM next s₀ = some s) : (ofNext init next).Exec as s :=
  execWith_ofNext h₀ (by simpa using h)

end TransSys

end WslDrive
