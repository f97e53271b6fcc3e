import Mathlib.Data.List.Basic

/-!
# Decoders and what they read

A *decoder* consumes symbols from the front of its input and either yields a value or fails; the
input that is left is its state.  `Codec.Reads d w a` says that `d` reads the value `a` from the
word `w` and stops exactly at its end, whatever follows.  The rules below build such facts along
the structure of a decoder:

* `Codec.Reads.bind` : decoders one after the other read concatenated words.
* `Codec.Reads.bind_remaining` : a decoder that looks at the number of symbols left, as a check
  on a claimed count does.
* `Codec.Reads.readN` : a counted repetition reads a concatenation.

`Codec.run_bind_eq_ok_iff` is the inversion rule, for input that no writer has made.  On such input
the decoders that matter are `Codec.Forward`: they never move back, and more input behind what
they read does not change what they read.

* `Codec.Forward.bind`, `Codec.Forward.guard`, `Codec.Forward.readN` : the rules along the structure
  of a decoder.
* `Codec.Forward.not_ok_of_prefix` : a word that is read to its end has no proper prefix that can be
  read.
-/

namespace WslDrive

/-- A decoder of values `α` from symbols `β` with errors `ε`. -/
abbrev Decoder (ε β α : Type) := EStateM ε (List β) α

namespace Codec

variable {ε β α γ : Type}

/-- `d` reads `a` from `w` and stops at the end of `w`, whatever follows. -/
def Reads (d : Decoder ε β α) (w : List β) (a : α) : Prop :=
  ∀ rest, d.run (w ++ rest) = .ok a rest

/-- The number of symbols that are left. -/
def remaining : Decoder ε β ℕ := do return (← get).length

/-- Run a decoder `n` times. -/
def readN (d : Decoder ε β α) : ℕ → Decoder ε β (List α)
  | 0 => pure []
  | n + 1 => do
    let a ← d
    let as ← readN d n
    return a :: as

theorem run_bind_ok {d : Decoder ε β α} {f : α → Decoder ε β γ} {s s' : List β} {a : α}
    (h : d.run s = .ok a s') : (d >>= f).run s = (f a).run s' := by
  change EStateM.bind d f s = f a s'
  have h' : d s = .ok a s' := h
  simp [EStateM.bind, h']

theorem run_remaining_bind {f : ℕ → Decoder ε β γ} (s : List β) :
    (remaining >>= f).run s = (f s.length).run s :=
  run_bind_ok rfl

theorem run_bind_eq_ok_iff {d : Decoder ε β α} {f : α → Decoder ε β γ} {s rest : List β} {c : γ} :
    (d >>= f).run s = .ok c rest ↔ ∃ a s', d.run s = .ok a s' ∧ (f a).run s' = .ok c rest := by
  cases hd : d.run s with
  | ok a s' => simp [run_bind_ok hd]
  | error e s' =>
    have hrun : (d >>= f).run s = .error e s' := by
      change EStateM.bind d f s = .error e s'
      have hd' : d s = .error e s' := hd
      simp [EStateM.bind, hd']
    simp [hrun]

theorem readN_succ_run_eq_ok_iff {d : Decoder ε β α} {n : ℕ} {s rest : List β} {l : List α} :
    (readN d (n + 1)).run s = .ok l rest ↔
      ∃ a as s', d.run s = .ok a s' ∧ (readN d n).run s' = .ok as rest ∧ l = a :: as := by
  have hpure : ∀ a as s', (Pure.pure (a :: as) : Decoder ε β (List α)).run s' = .ok l rest ↔
      s' = rest ∧ l = a :: as := by
    intro a as s'
    constructor
    · intro h
      cases h
      exact ⟨rfl, rfl⟩
    · rintro ⟨rfl, rfl⟩
      rfl
  rw [readN, run_bind_eq_ok_iff]
  simp only [run_bind_eq_ok_iff, hpure]
  constructor
  · rintro ⟨a, s', hd, as, s'', hn, rfl, rfl⟩
    exact ⟨a, as, s', hd, hn, rfl⟩
  · rintro ⟨a, as, s', hd, hn, rfl⟩
    exact ⟨a, s', hd, as, rest, hn, rfl, rfl⟩

namespace Reads

theorem pure (a : α) : Reads (ε := ε) (β := β) (pure a) [] a := fun _ => rfl

theorem bind {d : Decoder ε β α} {f : α → Decoder ε β γ} {w v : List β} {a : α} {c : γ}
    (hd : Reads d w a) (hf : Reads (f a) v c) : Reads (d >>= f) (w ++ v) c := by
  intro rest
  rw [List.append_assoc, run_bind_ok (hd (v ++ rest))]
  exact hf rest

theorem bind_pure {d : Decoder ε β α} {w : List β} {a : α} (hd : Reads d w a) (f : α → γ) :
    Reads (d >>= fun x => Pure.pure (f x)) w (f a) := by
  have := hd.bind (f := fun x => Pure.pure (f x)) (Reads.pure (f a))
  rwa [List.append_nil] at this

theorem ite_neg {c : Prop} [Decidable c] {d k : Decoder ε β α} {w : List β} {a : α} (hc : ¬ c)
    (hk : Reads k w a) : Reads (if c then d else k) w a := by
  rwa [if_neg hc]

theorem ite_pos {c : Prop} [Decidable c] {d k : Decoder ε β α} {w : List β} {a : α} (hc : c)
    (hd : Reads d w a) : Reads (if c then d else k) w a := by
  rwa [if_pos hc]

/-- A decoder that looks at the number of symbols left sees at least the word it reads. -/
theorem bind_remaining {f : ℕ → Decoder ε β α} {w : List β} {a : α}
    (h : ∀ n, w.length ≤ n → Reads (f n) w a) : Reads (remaining >>= f) w a := by
  intro rest
  rw [run_remaining_bind]
  exact h _ (by simp) rest

/-- **A counted repetition** reads the concatenation of what each round reads. -/
theorem readN {d : Decoder ε β α} {e : α → List β} (xs : List α)
    (h : ∀ x ∈ xs, Reads d (e x) x) : Reads (readN d xs.length) (xs.flatMap e) xs := by
  induction xs with
  | nil => exact Reads.pure []
  | cons x xs ih =>
    rw [List.flatMap_cons]
    refine (h x List.mem_cons_self).bind ?_
    exact (ih fun y hy => h y (List.mem_cons_of_mem _ hy)).bind_pure (x :: ·)

end Reads

/-! ### Input that no writer has made -/

/-- What is left of the input after a run, also after a failed one. -/
def left : EStateM.Result ε (List β) α → List β
  | .ok _ s => s
  | .error _ s => s

/-- `d` only moves forward, and input behind what it reads does not change a success. -/
structure Forward (d : Decoder ε β α) : Prop where
  suffix : ∀ s, left (d.run s) <:+ s
  extend : ∀ {s a rest}, d.run s = .ok a rest → ∀ t, d.run (s ++ t) = .ok a (rest ++ t)

/-- How many rounds of a counted repetition succeed before it ends or fails. -/
def rounds (d : Decoder ε β α) : ℕ → List β → ℕ
  | 0, _ => 0
  | n + 1, s =>
    match d.run s with
    | .ok _ s' => rounds d n s' + 1
    | .error _ _ => 0

theorem rounds_le (d : Decoder ε β α) (n : ℕ) (s : List β) : rounds d n s ≤ n := by
  induction n generalizing s with
  | zero => exact Nat.zero_le _
  | succ n ih =>
    rw [rounds]
    split
    · exact Nat.succ_le_succ (ih _)
    · exact Nat.zero_le _

/-- All rounds of a repetition that succeeds have succeeded, and each has given one element. -/
theorem rounds_eq_length {d : Decoder ε β α} {n : ℕ} {s rest : List β} {l : List α}
    (h : (readN d n).run s = .ok l rest) : rounds d n s = l.length := by
  induction n generalizing s l with
  | zero =>
    cases h
    rfl
  | succ n ih =>
    obtain ⟨a, as, s', hd, hn, rfl⟩ := readN_succ_run_eq_ok_iff.1 h
    rw [rounds, hd, List.length_cons, ← ih hn]

theorem run_bind_error {d : Decoder ε β α} {f : α → Decoder ε β γ} {s s' : List β} {e : ε}
    (h : d.run s = .error e s') : (d >>= f).run s = .error e s' := by
  change EStateM.bind d f s = .error e s'
  have h' : d s = .error e s' := h
  simp [EStateM.bind, h']

theorem run_guard_eq_ok_iff {n : ℕ} {e : ε} {d : Decoder ε β α} {s rest : List β} {a : α} :
    (remaining >>= fun k => if k < n then throw e else d).run s = .ok a rest ↔
      n ≤ s.length ∧ d.run s = .ok a rest := by
  rw [run_remaining_bind]
  by_cases hlt : s.length < n
  · rw [if_pos hlt]
    refine iff_of_false ?_ fun h => Nat.not_le.2 hlt h.1
    intro h
    cases h
  · rw [if_neg hlt]
    exact (and_iff_right (Nat.not_lt.1 hlt)).symm

theorem ite_throw_bind {c : Prop} [Decidable c] (e : ε) (d : Decoder ε β α)
    (f : α → Decoder ε β γ) :
    (if c then throw e else d) >>= f = if c then throw e else d >>= f := by
  split_ifs <;> rfl

namespace Forward

theorem pure (a : α) : Forward (Pure.pure a : Decoder ε β α) where
  suffix _ := List.suffix_rfl
  extend h t := by
    cases h
    rfl

theorem throw (e : ε) : Forward (MonadExcept.throw e : Decoder ε β α) where
  suffix _ := List.suffix_rfl
  extend h := by cases h

theorem bind {d : Decoder ε β α} {f : α → Decoder ε β γ} (hd : Forward d)
    (hf : ∀ a, Forward (f a)) : Forward (d >>= f) where
  suffix s := by
    have hsuf := hd.suffix s
    cases hrun : d.run s with
    | ok a s' =>
      rw [hrun] at hsuf
      rw [run_bind_ok hrun]
      exact ((hf a).suffix s').trans hsuf
    | error e s' =>
      rw [hrun] at hsuf
      rw [run_bind_error hrun]
      exact hsuf
  extend h t := by
    obtain ⟨a, s', hrun, hrest⟩ := run_bind_eq_ok_iff.1 h
    exact run_bind_eq_ok_iff.2 ⟨a, s' ++ t, hd.extend hrun t, (hf a).extend hrest t⟩

theorem ite {c : Prop} [Decidable c] {d k : Decoder ε β α} (hd : Forward d) (hk : Forward k) :
    Forward (if c then d else k) := by
  split_ifs
  · exact hd
  · exact hk

theorem guard {n : ℕ} {e : ε} {d : Decoder ε β α} (hd : Forward d) :
    Forward (remaining >>= fun k => if k < n then MonadExcept.throw e else d) where
  suffix s := by
    rw [run_remaining_bind]
    exact (ite (throw e) hd).suffix s
  extend {s a rest} h t := by
    obtain ⟨hle, hrun⟩ := run_guard_eq_ok_iff.1 h
    refine run_guard_eq_ok_iff.2 ⟨?_, hd.extend hrun t⟩
    rw [List.length_append]
    exact Nat.le_add_right_of_le hle

theorem take (n : ℕ) (e : ε) (f : List β → α) :
    Forward (remaining >>= fun k => if k < n then MonadExcept.throw e else do
      let s ← get
      set (s.drop n)
      return f (s.take n) : Decoder ε β α) where
  suffix s := by
    rw [run_remaining_bind]
    split_ifs
    · exact List.suffix_rfl
    · exact List.drop_suffix n s
  extend {s a rest} h t := by
    obtain ⟨hle, hrun⟩ := run_guard_eq_ok_iff.1 h
    cases hrun
    refine run_guard_eq_ok_iff.2 ⟨?_, ?_⟩
    · rw [List.length_append]
      exact Nat.le_add_right_of_le hle
    · change EStateM.Result.ok (f ((s ++ t).take n)) ((s ++ t).drop n) = _
      rw [List.take_append_of_le_length hle, List.drop_append_of_le_length hle]

theorem readN {d : Decoder ε β α} (hd : Forward d) (n : ℕ) : Forward (Codec.readN d n) := by
  induction n with
  | zero => exact pure []
  | succ n ih => exact hd.bind fun a => ih.bind fun as => pure (a :: as)

theorem length_le {d : Decoder ε β α} (hd : Forward d) {s rest : List β} {a : α}
    (h : d.run s = .ok a rest) : rest.length ≤ s.length := by
  have hsuf := hd.suffix s
  rw [h] at hsuf
  exact hsuf.length_le

/-- **No proper prefix is read** of a word inside of which the decoder does not stop. -/
theorem not_ok_of_prefix {d : Decoder ε β α} (hd : Forward d) {w rest p : List β}
    (hw : ∀ a t, d.run (w ++ rest) = .ok a t → t.length ≤ rest.length) (hp : p <+: w)
    (hne : p ≠ w) (a : α) (t : List β) : d.run p ≠ .ok a t := by
  intro h
  obtain ⟨q, rfl⟩ := hp
  have hq : q ≠ [] := by
    rintro rfl
    exact hne (List.append_nil p).symm
  have hlen := hw a (t ++ (q ++ rest)) (by rw [List.append_assoc]; exact hd.extend h _)
  have hpos := List.length_pos_of_ne_nil hq
  simp only [List.length_append] at hlen
  omega

end Forward

end Codec

end WslDrive
