import Mathlib.Data.List.TakeWhile
import Mathlib.Order.Basic

/-!
# Cutting a list at separators

Scanners cut a list into its *pieces*, the maximal non-empty runs of elements that are not
separators.

* `Split.pieces_append_cons` — pieces of a list around a separator;
* `Split.pieces_intercalate` — joining separator-free pieces and cutting again gives them back;
* `Split.filter_scan` — the loop that skips separators, takes a run and repeats visits the pieces;
* `Split.walk_eq` — so does the loop that does this with two indices;
* `Split.pieces_takeWhile_intercalate` — the pieces of a joined list cut off at the first element
  outside `p`;
* `Split.infix_iff_exists_mem_splitOn` — what holds no separator occurs within one component.
-/

namespace WslDrive

namespace Split

variable {α : Type*} (sep : α → Bool)

/-- The maximal non-empty runs of non-separators. -/
def pieces (l : List α) : List (List α) := (l.splitOnP sep).filter fun c => !c.isEmpty

/-- The runs visited by a scanner that repeats, while input is left: skip separators, then take
the elements before the next separator.  Only the last run may be empty. -/
def scanFrom : ℕ → List α → List (List α)
  | 0, _ => []
  | _ + 1, [] => []
  | n + 1, a :: l =>
    let rest := (a :: l).dropWhile sep
    rest.takeWhile (fun x => !sep x) :: scanFrom n (rest.dropWhile fun x => !sep x)

/-- Every round of the scanner consumes input, so the length of the input bounds the rounds. -/
def scan (l : List α) : List (List α) := scanFrom sep l.length l

variable {sep}

@[simp] theorem pieces_nil : pieces sep [] = [] := by
  simp [pieces]

theorem pieces_append_cons (l₁ l₂ : List α) {s : α} (hs : sep s = true) :
    pieces sep (l₁ ++ s :: l₂) = pieces sep l₁ ++ pieces sep l₂ := by
  simp only [pieces, List.splitOnP_append_cons l₁ l₂ hs, List.filter_append]

theorem pieces_cons (l : List α) {s : α} (hs : sep s = true) :
    pieces sep (s :: l) = pieces sep l := by
  simpa using pieces_append_cons [] l hs

theorem pieces_of_forall {c : List α} (hne : c ≠ []) (h : ∀ x ∈ c, sep x = false) :
    pieces sep c = [c] := by
  simp [pieces, List.splitOnP_eq_singleton h, hne]

theorem pieces_dropWhile (l : List α) : pieces sep (l.dropWhile sep) = pieces sep l := by
  induction l with
  | nil => rfl
  | cons a l ih =>
    by_cases ha : sep a = true
    · rw [List.dropWhile_cons_of_pos ha, ih, pieces_cons l ha]
    · rw [List.dropWhile_cons_of_neg ha]

theorem forall_of_mem_splitOnP {l c : List α} (h : c ∈ l.splitOnP sep) :
    ∀ x ∈ c, x ∈ l ∧ sep x = false := by
  induction l generalizing c with
  | nil => simp only [List.splitOnP_nil, List.mem_singleton] at h; simp [h]
  | cons a l ih =>
    have hcons : ∀ {c}, c ∈ l.splitOnP sep → ∀ x ∈ c, x ∈ a :: l ∧ sep x = false := fun h x hx =>
      ⟨List.mem_cons_of_mem a (ih h x hx).1, (ih h x hx).2⟩
    rw [List.splitOnP_cons_eq_if_modifyHead] at h
    split_ifs at h with ha
    · rcases List.mem_cons.1 h with rfl | h
      · simp
      · exact hcons h
    · obtain ⟨c', cs, hl⟩ := List.exists_cons_of_ne_nil (List.splitOnP_ne_nil sep l)
      rw [hl, List.modifyHead_cons, List.mem_cons] at h
      rcases h with rfl | h
      · intro x hx
        rcases List.mem_cons.1 hx with rfl | hx
        · exact ⟨List.mem_cons_self, by simpa using ha⟩
        · exact hcons (by simp [hl]) x hx
      · exact hcons (by simp [hl, h])

theorem ne_nil_of_mem_pieces {l c : List α} (h : c ∈ pieces sep l) : c ≠ [] := by
  simpa using (List.mem_filter.1 h).2

theorem forall_of_mem_pieces {l c : List α} (h : c ∈ pieces sep l) :
    ∀ x ∈ c, x ∈ l ∧ sep x = false :=
  forall_of_mem_splitOnP (List.mem_filter.1 h).1

theorem pieces_takeWhile_append_dropWhile (l : List α) :
    pieces sep l = (pieces sep (l.takeWhile fun x => !sep x)) ++
      pieces sep (l.dropWhile fun x => !sep x) := by
  cases hd : l.dropWhile (fun x => !sep x) with
  | nil =>
    have hl := List.takeWhile_append_dropWhile (p := fun x => !sep x) (l := l)
    rw [hd, List.append_nil] at hl
    simp [hl]
  | cons s rest =>
    -- The run stops at a separator, which splits the pieces in two.
    have hs : sep s = true := by
      have := List.head_dropWhile_not (fun x => !sep x) (l := l) (by simp [hd])
      simpa [hd] using this
    calc pieces sep l
        = pieces sep (l.takeWhile (fun x => !sep x) ++ s :: rest) := by
          rw [← hd, List.takeWhile_append_dropWhile]
      _ = _ := by rw [pieces_append_cons _ _ hs, pieces_cons _ hs]

theorem filter_scanFrom (n : ℕ) (l : List α) (h : l.length ≤ n) :
    (scanFrom sep n l).filter (fun c => !c.isEmpty) = pieces sep l := by
  induction n generalizing l with
  | zero => simp [scanFrom, List.length_eq_zero_iff.1 (Nat.le_zero.1 h)]
  | succ n ih =>
    cases l with
    | nil => simp [scanFrom]
    | cons a l =>
      simp only [scanFrom]
      set rest := (a :: l).dropWhile sep with hrest
      set run := rest.takeWhile fun x => !sep x with hrun
      have hlen : (rest.dropWhile fun x => !sep x).length ≤ n := by
        have hsub : rest.length ≤ l.length + 1 := by
          simpa [hrest] using (List.dropWhile_sublist sep (l := a :: l)).length_le
        have hsub' := (List.dropWhile_sublist (fun x => !sep x) (l := rest)).length_le
        rcases Nat.lt_or_ge rest.length (l.length + 1) with hlt | hge
        · simp only [List.length_cons] at h
          omega
        · -- Nothing was skipped: the first element starts the run.
          have hcons : rest = a :: l :=
            (List.dropWhile_sublist sep).eq_of_length_le (by simpa [hrest] using hge)
          have ha : sep a = false := by
            by_contra ha
            rw [Bool.not_eq_false] at ha
            have := (List.dropWhile_sublist sep (l := l)).length_le
            rw [hrest, List.dropWhile_cons_of_pos ha] at hge
            omega
          rw [hcons, List.dropWhile_cons_of_pos (by simp [ha])]
          have := (List.dropWhile_sublist (fun x => !sep x) (l := l)).length_le
          simp only [List.length_cons] at h
          omega
      have hpieces : pieces sep (a :: l) = pieces sep run ++
          pieces sep (rest.dropWhile fun x => !sep x) := by
        rw [← pieces_dropWhile, ← hrest, pieces_takeWhile_append_dropWhile]
      have hfree : ∀ x ∈ run, sep x = false := fun x hx => by
        simpa using List.mem_takeWhile_imp hx
      rw [List.filter_cons, ih _ hlen, hpieces]
      by_cases hr : run = []
      · simp [hr]
      · simp [hr, pieces_of_forall hr hfree]

/-- **The scanner visits the pieces**, in order, and otherwise only an empty run. -/
theorem filter_scan (l : List α) :
    (scan sep l).filter (fun c => !c.isEmpty) = pieces sep l :=
  filter_scanFrom _ l le_rfl

theorem pieces_intercalate {s : α} (hs : sep s = true) (cs : List (List α))
    (h : ∀ c ∈ cs, c ≠ [] ∧ ∀ x ∈ c, sep x = false) :
    pieces sep ([s].intercalate cs) = cs := by
  induction cs with
  | nil => simp
  | cons c cs ih =>
    have hc := h c List.mem_cons_self
    cases cs with
    | nil => simpa using pieces_of_forall hc.1 hc.2
    | cons d cs =>
      rw [List.intercalate_cons_cons, List.append_assoc, List.singleton_append,
        pieces_append_cons _ _ hs, pieces_of_forall hc.1 hc.2,
        ih fun x hx => h x (List.mem_cons_of_mem _ hx), List.singleton_append]

/-! ### The scanner with indices -/

section Walk

variable {m : Type → Type} [Monad m] {σ : Type}

/-- `while (i < n && p(s[i])) ++i`, for at most as many rounds as the first argument says. -/
def advance (p : α → Bool) (s : List α) : ℕ → ℕ → ℕ
  | 0, i => i
  | n + 1, i =>
    match s[i]? with
    | none => i
    | some a => if p a then advance p s n (i + 1) else i

/-- The scanner as a loop over an index `i`: advance it over separators, let `j` run to the end of
the component, hand the component to `body` and go on at `j`.  Leaving the loop early is an effect
of `m`. -/
def walkFrom (sep : α → Bool) (s : List α) (body : σ → List α → m σ) : ℕ → ℕ → σ → m σ
  | 0, _, a => pure a
  | n + 1, i, a =>
    if i < s.length then do
      let i := advance sep s s.length i
      let j := advance (fun x => !sep x) s s.length i
      let comp := (s.drop i).take (j - i)
      let a ← body a comp
      walkFrom sep s body n j a
    else pure a

/-- The loop over the pieces of `s`, from its start. -/
def walk (sep : α → Bool) (s : List α) (body : σ → List α → m σ) (a : σ) : m σ :=
  walkFrom sep s body s.length 0 a

theorem advance_eq (p : α → Bool) (s : List α) {n i : ℕ} (h : s.length ≤ i + n) :
    advance p s n i = i + ((s.drop i).takeWhile p).length := by
  induction n generalizing i with
  | zero =>
    have hle : s.length ≤ i := h
    rw [advance, List.drop_eq_nil_of_le hle]
    rfl
  | succ n ih =>
    rw [advance]
    rcases Nat.lt_or_ge i s.length with hi | hi
    · rw [List.getElem?_eq_getElem hi, List.drop_eq_getElem_cons hi]
      by_cases hp : p s[i] = true
      · simp only [hp, if_true, List.takeWhile_cons_of_pos hp, List.length_cons]
        rw [ih (by omega)]
        omega
      · simp [hp]
    · simp [List.getElem?_eq_none hi, List.drop_eq_nil_of_le hi]

theorem drop_advance (p : α → Bool) (s : List α) (i : ℕ) :
    s.drop (advance p s s.length i) = (s.drop i).dropWhile p := by
  have hsplit := List.takeWhile_append_dropWhile (p := p) (l := s.drop i)
  calc s.drop (advance p s s.length i)
      = (s.drop i).drop ((s.drop i).takeWhile p).length := by
        rw [advance_eq p s (Nat.le_add_left _ _), List.drop_drop]
    _ = ((s.drop i).takeWhile p ++ (s.drop i).dropWhile p).drop
          ((s.drop i).takeWhile p).length := by rw [hsplit]
    _ = (s.drop i).dropWhile p := List.drop_left

theorem take_advance (p : α → Bool) (s : List α) (i : ℕ) :
    (s.drop i).take (advance p s s.length i - i) = (s.drop i).takeWhile p := by
  rw [advance_eq p s (Nat.le_add_left _ _), Nat.add_sub_cancel_left]
  exact (List.prefix_iff_eq_take.1 (List.takeWhile_prefix p)).symm

theorem walkFrom_eq (s : List α) (body : σ → List α → m σ) (n i : ℕ) (a : σ) :
    walkFrom sep s body n i a = (scanFrom sep n (s.drop i)).foldlM body a := by
  induction n generalizing i a with
  | zero => rfl
  | succ n ih =>
    rw [walkFrom]
    split_ifs with hi
    · have hcons := List.drop_eq_getElem_cons hi
      have hscan : scanFrom sep (n + 1) (s.drop i) =
          ((s.drop i).dropWhile sep).takeWhile (fun x => !sep x) ::
            scanFrom sep n (((s.drop i).dropWhile sep).dropWhile fun x => !sep x) := by
        rw [hcons]
        rfl
      rw [hscan, List.foldlM_cons, ← drop_advance, ← drop_advance, ← take_advance]
      simp only [ih]
    · rw [List.drop_eq_nil_of_le (Nat.not_lt.1 hi)]
      rfl

/-- **The loop over indices hands the scanned runs to its body**, in order. -/
theorem walk_eq (s : List α) (body : σ → List α → m σ) (a : σ) :
    walk sep s body a = (scan sep s).foldlM body a :=
  walkFrom_eq s body s.length 0 a

end Walk

/-! ### Cutting a joined list off -/

/-- The pieces up to the first element outside `p`; the piece that holds it is cut short. -/
def cut (p : α → Bool) : List (List α) → List (List α)
  | [] => []
  | c :: cs =>
    if c.all p then c :: cut p cs
    else if (c.takeWhile p).isEmpty then [] else [c.takeWhile p]

theorem takeWhile_of_all {p : α → Bool} {c : List α} (h : c.all p = true) (l : List α) :
    (c ++ l).takeWhile p = c ++ l.takeWhile p :=
  List.takeWhile_append_of_pos (by simpa using h)

theorem takeWhile_of_not_all {p : α → Bool} {c : List α} (h : c.all p ≠ true) (l : List α) :
    (c ++ l).takeWhile p = c.takeWhile p := by
  rw [List.takeWhile_append, if_neg]
  intro hlen
  have hc : c.takeWhile p = c :=
    (List.takeWhile_sublist p).eq_of_length_le hlen.ge
  refine h (List.all_eq_true.2 fun x hx => ?_)
  exact List.mem_takeWhile_imp (hc ▸ hx)

theorem pieces_takeWhile_intercalate {p : α → Bool} {s : α} (hs : sep s = true)
    (hp : p s = true) (cs : List (List α)) (h : ∀ c ∈ cs, c ≠ [] ∧ ∀ x ∈ c, sep x = false) :
    pieces sep (([s].intercalate cs).takeWhile p) = cut p cs := by
  have hcut : ∀ c : List α, (∀ x ∈ c, sep x = false) →
      pieces sep (c.takeWhile p) = if (c.takeWhile p).isEmpty then [] else [c.takeWhile p] := by
    intro c hc
    by_cases ht : c.takeWhile p = []
    · simp [ht]
    · rw [pieces_of_forall ht fun x hx => hc x ((List.takeWhile_sublist p).subset hx)]
      simp [ht]
  induction cs with
  | nil => simp [cut]
  | cons c cs ih =>
    obtain ⟨hne, hfree⟩ := h c List.mem_cons_self
    have ih := ih fun x hx => h x (List.mem_cons_of_mem _ hx)
    by_cases hall : c.all p = true
    · cases cs with
      | nil =>
        have := takeWhile_of_all hall []
        simp only [List.append_nil, List.takeWhile_nil] at this
        simp [cut, hall, this, pieces_of_forall hne hfree]
      | cons d cs =>
        rw [List.intercalate_cons_cons, List.append_assoc, takeWhile_of_all hall,
          List.singleton_append, List.takeWhile_cons_of_pos hp, pieces_append_cons _ _ hs,
          pieces_of_forall hne hfree, ih, List.singleton_append, cut.eq_2 p c, if_pos hall]
    · rw [cut, if_neg hall, ← hcut c hfree]
      cases cs with
      | nil => simp
      | cons d cs =>
        rw [List.intercalate_cons_cons, List.append_assoc, takeWhile_of_not_all hall]

/-! ### All components, the empty ones included -/

theorem prefix_takeWhile_iff {p : α → Bool} {w l : List α} (hw : ∀ x ∈ w, p x = true) :
    w <+: l.takeWhile p ↔ w <+: l := by
  refine ⟨fun h => h.trans (List.takeWhile_prefix p), ?_⟩
  rintro ⟨t, rfl⟩
  rw [List.takeWhile_append_of_pos hw]
  exact List.prefix_append _ _

/-- Skipping elements at the front skips no occurrence of a list that starts with another one. -/
theorem infix_dropWhile_iff {p : α → Bool} {b : α} {w : List α} (hb : p b = false) (l : List α) :
    b :: w <:+: l.dropWhile p ↔ b :: w <:+: l := by
  induction l with
  | nil => rfl
  | cons x l ih =>
    by_cases hx : p x = true
    · have hne : b ≠ x := fun h => by simp [← h, hb] at hx
      rw [List.dropWhile_cons_of_pos hx, ih, List.infix_cons_iff, List.cons_prefix_cons]
      simp [hne]
    · rw [List.dropWhile_cons_of_neg hx]

section SplitOn

variable [DecidableEq α]

theorem length_splitOn (a : α) (l : List α) : (l.splitOn a).length = l.count a + 1 := by
  induction l with
  | nil => rfl
  | cons x l ih =>
    rw [List.splitOn_cons_eq_if_modifyHead, List.count_cons]
    split_ifs with h
    · rw [List.length_cons, ih]
    · rw [List.length_modifyHead, ih]

theorem exists_splitOn_eq_cons (a : α) (l : List α) :
    ∃ tl, l.splitOn a = l.takeWhile (· != a) :: tl := by
  induction l with
  | nil => exact ⟨[], rfl⟩
  | cons x l ih =>
    obtain ⟨tl, ih⟩ := ih
    rw [List.splitOn_cons_eq_if_modifyHead]
    by_cases h : x = a
    · exact ⟨l.splitOn a, by simp [h]⟩
    · exact ⟨tl, by simp [h, ih]⟩

/-- A list without separators occurs in a list if it occurs in one of its components. -/
theorem infix_iff_exists_mem_splitOn {a : α} {w : List α} (hw : a ∉ w) (hne : w ≠ [])
    (l : List α) : w <:+: l ↔ ∃ c ∈ l.splitOn a, w <:+: c := by
  have hall : ∀ x ∈ w, (x != a) = true := fun x hx => by
    simpa using fun h : x = a => hw (h ▸ hx)
  induction l with
  | nil => simp
  | cons x l ih =>
    rw [List.splitOn_cons_eq_if_modifyHead, List.infix_cons_iff]
    refine (or_congr_right ih).trans ?_
    by_cases h : x = a
    · subst h
      have hp : ¬ w <+: x :: l := fun hp => by
        obtain ⟨y, w', rfl⟩ := List.exists_cons_of_ne_nil hne
        exact hw ((List.cons_prefix_cons.1 hp).1 ▸ List.mem_cons_self)
      simp [hp, hne]
    · obtain ⟨tl, htl⟩ := exists_splitOn_eq_cons a l
      have hp : w <+: x :: l.takeWhile (· != a) ↔ w <+: x :: l := by
        have := prefix_takeWhile_iff (l := x :: l) hall
        rwa [List.takeWhile_cons_of_pos (by simpa using h)] at this
      rw [if_neg (by simpa using h), htl, List.modifyHead_cons]
      simp only [List.mem_cons, exists_eq_or_imp, List.infix_cons_iff, hp, or_assoc]

end SplitOn

end Split

end WslDrive
