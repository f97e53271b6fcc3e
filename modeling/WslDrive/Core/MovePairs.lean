import WslDrive.Core.Coalescer

/-!
# Halves of moves and their partners

`repair_move_pairs` runs three times on the way of a change: when the coalescer hands out a batch,
when the agent has resolved it, and when the client has applied it.  Each time some operations may
have fallen out, and with them the partner of a half of a move.

* `repaired_repairMovePairs` — what the repair does to each operation;
* `repairMovePairs_idem` — a second repair changes nothing;
* `repairMovePairs_paired_iff` — the halves that are left have partners exactly if the operations
  contain no half at all, or a half with a cookie.

The condition of the last one is there because the repair returns early when no half has a cookie:
halves that are all without one stay as they are.
-/

namespace WslDrive

/-- The kind of a partner of a half of a move. -/
def ChangeKind.otherHalf : ChangeKind → ChangeKind
  | .movedFrom => .movedTo
  | .movedTo => .movedFrom
  | k => k

theorem ChangeKind.isMove_iff {k : ChangeKind} :
    k.isMove = true ↔ k = .movedFrom ∨ k = .movedTo := by
  cases k <;> simp [ChangeKind.isMove]

@[simp] theorem ChangeKind.otherHalf_otherHalf (k : ChangeKind) : k.otherHalf.otherHalf = k := by
  cases k <;> rfl

/-- `withChange` sets the change and the cookie. -/
class LawfulHasChange (α : Type*) [HasChange α] : Prop where
  change_withChange : ∀ (op : α) k c, change (withChange op k c) = k
  cookie_withChange : ∀ (op : α) k c, cookie (withChange op k c) = c

export LawfulHasChange (change_withChange cookie_withChange)

attribute [simp] change_withChange cookie_withChange

instance : LawfulHasChange PlannedOp := ⟨fun _ _ _ => rfl, fun _ _ _ => rfl⟩

instance : LawfulHasChange InvalidationOp := ⟨fun _ _ _ => rfl, fun _ _ _ => rfl⟩

section Pairs

variable {α : Type*} [HasChange α] {ops : List α} {op op' : α}

/-- Among the operations is the partner of a half of a move. -/
def Matched (ops : List α) (op : α) : Prop :=
  cookie op ≠ 0 ∧ ∃ op' ∈ ops, cookie op' = cookie op ∧ change op' = (change op).otherHalf

/-- What has to become of an operation: halves without a partner turn into the plain change they
amount to, everything else stays. -/
structure Repaired (ops : List α) (op op' : α) : Prop where
  stays : (change op).isMove = false ∨ Matched ops op → op' = op
  removed : change op = .movedFrom → ¬ Matched ops op → op' = withChange op .removed 0
  created : change op = .movedTo → ¬ Matched ops op → op' = withChange op .created 0

theorem seesHalf_iff {c : UInt32} {half : ChangeKind} :
    seesHalf ops c half = true ↔ ∃ op ∈ ops, cookie op = c ∧ change op = half := by
  simp [seesHalf, List.any_eq_true]

theorem matched_iff (hop : op ∈ ops) (hm : (change op).isMove = true) :
    (cookie op != 0 && seesHalf ops (cookie op) .movedFrom &&
      seesHalf ops (cookie op) .movedTo) = true ↔ Matched ops op := by
  simp only [Bool.and_eq_true, bne_iff_ne, seesHalf_iff, and_assoc, Matched]
  refine and_congr_right fun _ => ?_
  obtain hk | hk := ChangeKind.isMove_iff.1 hm
  · rw [hk]
    exact and_iff_right ⟨op, hop, rfl, hk⟩
  · rw [hk]
    exact and_iff_left ⟨op, hop, rfl, hk⟩

theorem Matched.partner (hop : op ∈ ops) (h : Matched ops op) :
    ∃ op' ∈ ops, cookie op' = cookie op ∧ change op' = (change op).otherHalf ∧
      Matched ops op' := by
  obtain ⟨hc, op', hop', hcookie, hchange⟩ := h
  refine ⟨op', hop', hcookie, hchange, hcookie ▸ hc, op, hop, hcookie.symm, ?_⟩
  rw [hchange, ChangeKind.otherHalf_otherHalf]

/-- Some half of a move has a cookie, or there is no half. -/
def AnyPaired (ops : List α) : Prop :=
  (∀ op ∈ ops, (change op).isMove = false) ∨ ∃ op ∈ ops, (change op).isMove = true ∧ cookie op ≠ 0

/-- What the repair does to one operation. -/
def repairOp (ops : List α) (op : α) : α :=
  if !(change op).isMove then op
  else if cookie op != 0 && seesHalf ops (cookie op) .movedFrom &&
      seesHalf ops (cookie op) .movedTo then op
  else withChange op (if change op = .movedFrom then .removed else .created) 0

theorem repaired_repairOp (hop : op ∈ ops) : Repaired ops op (repairOp ops op) := by
  cases hm : (change op).isMove with
  | false =>
    have hne : change op ≠ .movedFrom ∧ change op ≠ .movedTo := by
      constructor <;> intro hk <;> rw [hk] at hm <;> cases hm
    exact ⟨fun _ => by rw [repairOp, hm]; rfl, fun hk => absurd hk hne.1, fun hk => absurd hk hne.2⟩
  | true =>
    by_cases hmat : Matched ops op
    · refine ⟨fun _ => ?_, fun _ h => absurd hmat h, fun _ h => absurd hmat h⟩
      rw [repairOp, hm, if_neg (by simp), if_pos ((matched_iff hop hm).2 hmat)]
    · have hrep : repairOp ops op =
          withChange op (if change op = .movedFrom then .removed else .created) 0 := by
        rw [repairOp, hm, if_neg (by simp), if_neg (hmat ∘ (matched_iff hop hm).1)]
      refine ⟨fun h => absurd hmat (not_not.2 (h.resolve_left (by rw [hm]; simp))),
        fun hk _ => ?_, fun hk _ => ?_⟩
      · rw [hrep, hk]; rfl
      · rw [hrep, hk]; rfl

/-- Unless it returns early, the repair goes over the operations one by one. -/
theorem repairMovePairs_of_cookie (h : ∃ op ∈ ops, (change op).isMove = true ∧ cookie op ≠ 0) :
    repairMovePairs ops = ops.map (repairOp ops) := by
  obtain ⟨op, hop, hm, hc⟩ := h
  rw [repairMovePairs, if_neg]
  · rfl
  · intro hall
    have := List.all_eq_true.1 hall op hop
    simp [hm, hc] at this

theorem repairMovePairs_of_not_cookie
    (h : ¬ ∃ op ∈ ops, (change op).isMove = true ∧ cookie op ≠ 0) : repairMovePairs ops = ops := by
  rw [repairMovePairs, if_pos]
  refine List.all_eq_true.2 fun op hop => ?_
  by_contra hne
  refine h ⟨op, hop, ?_⟩
  simpa [and_comm] using hne

theorem exists_repair_eq_map (ops : List α) :
    ∃ f : α → α, (∀ op, (change op).isMove = false → f op = op) ∧
      repairMovePairs ops = ops.map f := by
  by_cases hc : ∃ op ∈ ops, (change op).isMove = true ∧ cookie op ≠ 0
  · refine ⟨repairOp ops, fun op hm => ?_, repairMovePairs_of_cookie hc⟩
    rw [repairOp, hm]
    rfl
  · exact ⟨id, fun _ _ => rfl, (repairMovePairs_of_not_cookie hc).trans (List.map_id ops).symm⟩

/-- **What the repair does to each operation**, unless there are halves and none has a cookie. -/
theorem repaired_repairMovePairs (h : AnyPaired ops) :
    List.Forall₂ (Repaired ops) ops (repairMovePairs ops) := by
  by_cases hc : ∃ op ∈ ops, (change op).isMove = true ∧ cookie op ≠ 0
  · rw [repairMovePairs_of_cookie hc, List.forall₂_map_right_iff, List.forall₂_same]
    exact fun op hop => repaired_repairOp hop
  · rw [repairMovePairs_of_not_cookie hc, List.forall₂_same]
    have hno := h.resolve_right hc
    intro op hop
    have hne : change op ≠ .movedFrom ∧ change op ≠ .movedTo := by
      constructor <;> intro hk <;> have hm := hno op hop <;> rw [hk] at hm <;> cases hm
    exact ⟨fun _ => rfl, fun hk => absurd hk hne.1, fun hk => absurd hk hne.2⟩

theorem exists_of_mem_repair (h : op ∈ repairMovePairs ops) :
    ∃ op₀ ∈ ops, op = op₀ ∨ (change op₀ = .movedFrom ∧ op = withChange op₀ .removed 0) ∨
      (change op₀ = .movedTo ∧ op = withChange op₀ .created 0) := by
  by_cases hc : ∃ op ∈ ops, (change op).isMove = true ∧ cookie op ≠ 0
  · rw [repairMovePairs_of_cookie hc] at h
    obtain ⟨op₀, hop₀, rfl⟩ := List.mem_map.1 h
    refine ⟨op₀, hop₀, ?_⟩
    have hrep := repaired_repairOp hop₀
    by_cases hmat : Matched ops op₀
    · exact .inl (hrep.stays (.inr hmat))
    · cases hm : (change op₀).isMove with
      | false => exact .inl (hrep.stays (.inl hm))
      | true =>
        rcases ChangeKind.isMove_iff.1 hm with hk | hk
        · exact .inr (.inl ⟨hk, hrep.removed hk hmat⟩)
        · exact .inr (.inr ⟨hk, hrep.created hk hmat⟩)
  · rw [repairMovePairs_of_not_cookie hc] at h
    exact ⟨op, h, .inl rfl⟩

theorem repairMovePairs_of_matched
    (h : ∀ op ∈ ops, (change op).isMove = true → Matched ops op) : repairMovePairs ops = ops := by
  by_cases hc : ∃ op ∈ ops, (change op).isMove = true ∧ cookie op ≠ 0
  · rw [repairMovePairs_of_cookie hc]
    refine (List.map_congr_left fun op hop => ?_).trans (List.map_id ops)
    cases hm : (change op).isMove with
    | false => exact (repaired_repairOp hop).stays (.inl hm)
    | true => exact (repaired_repairOp hop).stays (.inr (h op hop hm))
  · exact repairMovePairs_of_not_cookie hc

variable [LawfulHasChange α]

/-- A half that is left by the repair has had a partner. -/
theorem repairOp_of_isMove (hop : op ∈ ops) (hm : (change (repairOp ops op)).isMove = true) :
    repairOp ops op = op ∧ Matched ops op := by
  have hrep := repaired_repairOp hop
  by_cases hmat : Matched ops op
  · exact ⟨hrep.stays (.inr hmat), hmat⟩
  · cases hk : change op with
    | movedFrom => simp [hrep.removed hk hmat, ChangeKind.isMove] at hm
    | movedTo => simp [hrep.created hk hmat, ChangeKind.isMove] at hm
    | _ =>
      have hno : (change op).isMove = false := by rw [hk]; rfl
      rw [hrep.stays (.inl hno), hno] at hm
      cases hm

theorem matched_of_mem_map_repairOp (hop : op ∈ ops.map (repairOp ops))
    (hm : (change op).isMove = true) : Matched (ops.map (repairOp ops)) op := by
  obtain ⟨op₀, hop₀, rfl⟩ := List.mem_map.1 hop
  obtain ⟨heq, hmat⟩ := repairOp_of_isMove hop₀ hm
  obtain ⟨op₁, hop₁, hcookie, hchange, hmat₁⟩ := hmat.partner hop₀
  rw [heq]
  refine ⟨hmat.1, op₁, List.mem_map.2 ⟨op₁, hop₁, ?_⟩, hcookie, hchange⟩
  exact (repaired_repairOp hop₁).stays (.inr hmat₁)

theorem repairMovePairs_idem (ops : List α) :
    repairMovePairs (repairMovePairs ops) = repairMovePairs ops := by
  by_cases hc : ∃ op ∈ ops, (change op).isMove = true ∧ cookie op ≠ 0
  · rw [repairMovePairs_of_cookie hc]
    exact repairMovePairs_of_matched fun op => matched_of_mem_map_repairOp
  · rw [repairMovePairs_of_not_cookie hc, repairMovePairs_of_not_cookie hc]

/-- **Only paired halves are left, and nothing but unpaired halves has changed, exactly if there was
no half at all or a half with a cookie.** -/
theorem repairMovePairs_paired_iff (ops : List α) :
    ((∀ op ∈ repairMovePairs ops, (change op).isMove = true → Matched (repairMovePairs ops) op) ∧
      List.Forall₂ (Repaired ops) ops (repairMovePairs ops) ∧
      repairMovePairs (repairMovePairs ops) = repairMovePairs ops) ↔ AnyPaired ops := by
  refine ⟨fun h => ?_, fun h => ⟨?_, repaired_repairMovePairs h, repairMovePairs_idem ops⟩⟩
  · refine or_iff_not_imp_right.2 fun hc op hop => ?_
    rw [repairMovePairs_of_not_cookie hc] at h
    -- the early return: a half that is left has a partner, hence a cookie
    refine Bool.eq_false_iff.2 fun hm => hc ⟨op, hop, hm, (h.1 op hop hm).1⟩
  · obtain hno | hc := h
    · have heq : repairMovePairs ops = ops := repairMovePairs_of_matched fun op hop hm => by
        rw [hno op hop] at hm
        cases hm
      rw [heq]
      intro op hop hm
      rw [hno op hop] at hm
      cases hm
    · rw [repairMovePairs_of_cookie hc]
      exact fun op => matched_of_mem_map_repairOp

end Pairs

/-- The old name of a rename that the watcher could not pair. -/
def loneMovedFrom : PlannedOp where
  kind := .remove
  path := [0x64]
  change := .movedFrom

/-- A rename that was paired, beside the lone half of another. -/
def renameAndLone : List PlannedOp :=
  [loneMovedFrom, { loneMovedFrom with cookie := 7 },
    { kind := .upsert, path := [0x65], change := .movedTo, cookie := 7 }]

theorem repairMovePairs_paired_iff_rename :
    AnyPaired renameAndLone ∧ ∀ op ∈ repairMovePairs renameAndLone,
      (change op).isMove = true → Matched (repairMovePairs renameAndLone) op :=
  have h : AnyPaired renameAndLone :=
    .inr ⟨_, List.mem_cons_of_mem _ List.mem_cons_self, by decide, by decide⟩
  ⟨h, ((repairMovePairs_paired_iff _).2 h).1⟩

/-- A lone half without a cookie stays a half of a move: the repair returns before it looks at
it. -/
theorem repairMovePairs_lone :
    repairMovePairs [loneMovedFrom] = [loneMovedFrom] ∧
      ¬ ∀ op ∈ repairMovePairs [loneMovedFrom],
        (change op).isMove = true → Matched (repairMovePairs [loneMovedFrom]) op := by
  have heq : repairMovePairs [loneMovedFrom] = [loneMovedFrom] := by decide
  refine ⟨heq, fun h => ?_⟩
  rw [heq] at h
  exact (h loneMovedFrom List.mem_cons_self (by decide)).1 (by decide)

end WslDrive
