import Mathlib.Data.List.AList
import Mathlib.Data.List.Sort
import WslDrive.Core.Path

/-!
# Coalescing watcher events

`Coalescer` collapses a burst of watcher events into one batch of planned operations.  The pending
table is a finite map from paths, sequence numbers are unbounded, and time points are integers in
nanoseconds.

* `map_repairMovePairs` — repairing halves of moves changes nothing but the reported change;
* `Coalescer.mem_keepLoop` — what `take` drops was last touched before a path above it was removed;
* `Coalescer.map_plan_take` — the operations of a batch.
-/

namespace WslDrive

/-- `FsEventKind`: a raw event of the platform's watcher. -/
inductive FsEventKind where
  | created
  | modified
  | removed
  /-- The old name of a rename. -/
  | renamedFrom
  /-- The new name of a rename. -/
  | renamedTo
  /-- Events were lost. -/
  | overflow
  deriving DecidableEq, Repr

/-- `FsEvent`; the path is relative to the watched root and separated by `/`. -/
structure FsEvent where
  kind : FsEventKind
  path : Bytes
  /-- Pairs the two halves of a rename; 0 if there is no pair. -/
  cookie : UInt32 := 0
  deriving DecidableEq, Repr

/-- `PlannedOp`: an invalidation whose attributes are not resolved yet. -/
structure PlannedOp where
  kind : InvalidationKind
  path : Bytes
  /-- The entry is new at this path. -/
  appeared : Bool := false
  change : ChangeKind := .unknown
  cookie : UInt32 := 0
  deriving DecidableEq, Repr

/-! ### Halves of moves -/

/-- What `repair_move_pairs` asks of the type of its operations. -/
class HasChange (α : Type*) where
  change : α → ChangeKind
  cookie : α → UInt32
  withChange : α → ChangeKind → UInt32 → α

export HasChange (change cookie withChange)

instance : HasChange PlannedOp where
  change op := op.change
  cookie op := op.cookie
  withChange op change cookie := { op with change, cookie }

instance : HasChange InvalidationOp where
  change op := op.change
  cookie op := op.cookie
  withChange op change cookie := { op with change, cookie }

section Repair

variable {α β : Type*} [HasChange α]

/-- One of the operations is this half of the move with this cookie. -/
def seesHalf (ops : List α) (c : UInt32) (half : ChangeKind) : Bool :=
  ops.any fun op => cookie op == c && change op == half

/-- `repair_move_pairs`: a half of a move without its partner becomes the plain change it amounts
to.  Operations without a single cookie are left as they are. -/
def repairMovePairs (ops : List α) : List α :=
  if ops.all fun op => cookie op == 0 || !(change op).isMove then ops
  else ops.map fun op =>
    if !(change op).isMove then op
    else if cookie op != 0 && seesHalf ops (cookie op) .movedFrom &&
        seesHalf ops (cookie op) .movedTo then op
    else withChange op (if change op = .movedFrom then .removed else .created) 0

/-- **Repairing halves of moves changes nothing but the reported change.** -/
theorem map_repairMovePairs {f : α → β} (hf : ∀ op k c, f (withChange op k c) = f op)
    (ops : List α) : (repairMovePairs ops).map f = ops.map f := by
  rw [repairMovePairs]
  split_ifs
  · rfl
  · rw [List.map_map]
    refine List.map_congr_left fun op _ => ?_
    rw [Function.comp_apply]
    split_ifs <;> first | rfl | exact hf ..

theorem exists_of_mem_repairMovePairs {f : α → β} (hf : ∀ op k c, f (withChange op k c) = f op)
    {ops : List α} {op : α} (h : op ∈ repairMovePairs ops) : ∃ op' ∈ ops, f op' = f op := by
  have := List.mem_map_of_mem (f := f) h
  rw [map_repairMovePairs hf] at this
  exact List.mem_map.1 this

end Repair

/-! ### The coalescer -/

namespace Coalescer

/-- `Coalescer::Options`. -/
structure Options where
  maxPending : ℕ := 4096
  quietPeriod : ℤ := 2000000
  maxLatency : ℤ := 25000000
  deriving DecidableEq, Repr

/-- `Coalescer::Entry`. -/
structure Entry where
  kind : InvalidationKind
  seq : ℕ
  appeared : Bool
  change : ChangeKind
  cookie : UInt32
  deriving DecidableEq, Repr

end Coalescer

open Coalescer

/-- `Coalescer`. -/
structure Coalescer where
  opts : Options := {}
  pending : AList (fun _ : Bytes => Entry) := ∅
  seq : ℕ := 0
  overflow : Bool := false
  first : ℤ := 0
  last : ℤ := 0

namespace Coalescer

open Path

/-- What an event of a kind says about its path: the operation, whether the entry is new, and the
change; `none` for an overflow. -/
def classify : FsEventKind → Option (InvalidationKind × Bool × ChangeKind)
  | .created => some (.upsert, true, .created)
  | .renamedTo => some (.upsert, true, .movedTo)
  | .modified => some (.upsert, false, .modified)
  | .removed => some (.remove, false, .removed)
  | .renamedFrom => some (.remove, false, .movedFrom)
  | .overflow => none

/-- The cookie that an event leaves with its path. -/
def eventCookie (ev : FsEvent) : UInt32 :=
  match ev.kind with
  | .renamedTo | .renamedFrom => ev.cookie
  | _ => 0

/-- The entry that follows an older one of the same path. -/
def Entry.after (old new : Entry) : Entry :=
  let stillNew := new.kind == .upsert && (new.appeared || old.appeared)
  let keep := new.change == .modified && (old.change == .created || old.change == .movedTo)
  { new with appeared := stillNew
             change := if keep then old.change else new.change
             cookie := if keep then old.cookie else new.cookie }

variable (c : Coalescer)

/-- The entry that an event leaves for its path; none for an overflow. -/
def entry (ev : FsEvent) : Option Entry :=
  (classify ev.kind).map fun (kind, appeared, change) =>
    let new : Entry := ⟨kind, c.seq + 1, appeared, change, eventCookie ev⟩
    match c.pending.lookup ev.path with
    | some old => old.after new
    | none => new

/-- `push`. -/
def push (ev : FsEvent) (now : ℤ) : Coalescer :=
  let first := if c.pending.entries.isEmpty && !c.overflow then now else c.first
  match c.entry ev with
  | none => { c with first, last := now, overflow := true, pending := ∅ }
  | some e =>
    if c.overflow then { c with first, last := now }
    else { c with first, last := now, seq := c.seq + 1, pending := c.pending.insert ev.path e }

/-- `ready`. -/
def ready (now : ℤ) : Bool :=
  if c.overflow then true
  else if c.pending.entries.isEmpty then false
  else if c.pending.entries.length ≥ c.opts.maxPending then true
  else now - c.last ≥ c.opts.quietPeriod || now - c.first ≥ c.opts.maxLatency

/-- `deadline`: when `ready` turns true if no further events arrive. -/
def deadline : Option ℤ :=
  if c.overflow then some c.last
  else if c.pending.entries.isEmpty then none
  else if c.pending.entries.length ≥ c.opts.maxPending then some c.last
  else some (min (c.last + c.opts.quietPeriod) (c.first + c.opts.maxLatency))

/-- `empty`. -/
def isEmpty : Bool := !c.overflow && c.pending.entries.isEmpty

/-- `Item` of `take`: a pending path with its entry. -/
abbrev Item := Sigma fun _ : Bytes => Entry

/-- Behind a removal, the loop of `take` passes over what is below it. -/
def Item.region (it : Item) : Option Item := if it.2.kind = .remove then some it else none

/-- The loop of `take` over the items in the order of their paths.  Behind a removed path (`some`)
it passes over the items below that path and keeps those whose last event came after the
removal. -/
def keepLoop : Option Item → List Item → List Item
  | _, [] => []
  | none, it :: items => it :: keepLoop it.region items
  | some dir, it :: items =>
    if pathIsUnder it.1 dir.1 then
      if it.2.seq > dir.2.seq then it :: keepLoop (some dir) items else keepLoop (some dir) items
    else it :: keepLoop it.region items

/-- The items that `take` keeps, in the order of their last events. -/
def kept : List Item :=
  (keepLoop none (c.pending.entries.insertionSort fun a b => a.1 ≤ b.1)).insertionSort
    fun a b => a.2.seq ≤ b.2.seq

/-- The planned operation of an item. -/
def Item.planned (it : Item) : PlannedOp where
  kind := it.2.kind
  path := it.1
  appeared := it.2.appeared
  change := it.2.change
  cookie := it.2.cookie

/-- `take`: the operations of the batch, and the coalescer without them. -/
def take : List PlannedOp × Coalescer :=
  if c.overflow then
    ([{ kind := .rescan, path := [] }], { c with overflow := false, pending := ∅ })
  else (repairMovePairs (c.kept.map Item.planned), { c with pending := ∅ })

/-! ### What a batch contains -/

variable {c} {it : Item} {items : List Item} {path : Bytes} {e : Entry}

theorem mem_region {dir : Item} : dir ∈ it.region ↔ it.2.kind = .remove ∧ dir = it := by
  rw [Item.region]
  split_ifs with hk
  · exact ⟨fun h => ⟨hk, (Option.some.inj h).symm⟩, fun h => by rw [h.2]; rfl⟩
  · exact ⟨nofun, fun h => absurd h.1 hk⟩

/-- A removed path above an item, removed after the item's last event. -/
structure Shadows (dir it : Item) : Prop where
  removed : dir.2.kind = .remove
  under : pathIsUnder it.1 dir.1 = true
  ne : it.1 ≠ dir.1
  seq_le : it.2.seq ≤ dir.2.seq

theorem keepLoop_sublist (cur : Option Item) (items : List Item) :
    List.Sublist (keepLoop cur items) items := by
  induction items generalizing cur with
  | nil => rw [keepLoop]
  | cons it items ih =>
    cases cur with
    | none => exact (ih _).cons_cons _
    | some dir =>
      rw [keepLoop]
      split_ifs <;> first | exact (ih _).cons_cons _ | exact (ih _).cons _

/-- **What `take` drops** was last touched before a path above it was removed, and the removal is
kept. -/
theorem mem_keepLoop {cur : Option Item} (hit : it ∈ items)
    (hcur : ∀ dir ∈ cur, dir.2.kind = .remove ∧ ∀ x ∈ items, x.1 ≠ dir.1)
    (hne : items.Pairwise fun a b => a.1 ≠ b.1) :
    it ∈ keepLoop cur items ∨ ∃ dir, (dir ∈ cur ∨ dir ∈ keepLoop cur items) ∧ Shadows dir it := by
  induction items generalizing cur with
  | nil => cases hit
  | cons x items ih =>
    obtain ⟨hx, hne⟩ := List.pairwise_cons.1 hne
    -- Either the loop keeps `x` and starts anew behind it, or it goes on below the same path.
    have hstart : it ∈ x :: keepLoop x.region items ∨
        ∃ dir, dir ∈ x :: keepLoop x.region items ∧ Shadows dir it := by
      have hregion : ∀ dir ∈ x.region, dir.2.kind = .remove ∧ ∀ y ∈ items, y.1 ≠ dir.1 := by
        intro dir hdir
        obtain ⟨hk, rfl⟩ := mem_region.1 hdir
        exact ⟨hk, fun y hy => (hx y hy).symm⟩
      rcases List.mem_cons.1 hit with rfl | hit
      · exact .inl List.mem_cons_self
      rcases ih hit hregion hne with hk | ⟨dir, hdir | hdir, hsh⟩
      · exact .inl (List.mem_cons_of_mem _ hk)
      · rw [(mem_region.1 hdir).2] at hsh
        exact .inr ⟨x, List.mem_cons_self, hsh⟩
      · exact .inr ⟨dir, List.mem_cons_of_mem _ hdir, hsh⟩
    have hstart' := hstart.imp_right fun ⟨dir, hdir, hsh⟩ =>
      (⟨dir, .inr hdir, hsh⟩ : ∃ dir, (dir ∈ cur ∨ dir ∈ x :: keepLoop x.region items) ∧
        Shadows dir it)
    cases cur with
    | none => exact hstart'
    | some dir =>
      obtain ⟨hk, hpaths⟩ := hcur dir rfl
      have hbelow : ∀ d ∈ some dir, d.2.kind = .remove ∧ ∀ y ∈ items, y.1 ≠ d.1 := by
        rintro d ⟨⟩
        exact ⟨hk, fun y hy => hpaths y (List.mem_cons_of_mem _ hy)⟩
      rw [keepLoop]
      split_ifs with hunder hseq
      · rcases List.mem_cons.1 hit with rfl | hit
        · exact .inl List.mem_cons_self
        · rcases ih hit hbelow hne with h | ⟨d, hd, hsh⟩
          · exact .inl (List.mem_cons_of_mem _ h)
          · exact .inr ⟨d, hd.imp_right fun h => List.mem_cons_of_mem _ h, hsh⟩
      · rcases List.mem_cons.1 hit with rfl | hit
        · exact .inr ⟨dir, .inl rfl, hk, hunder, hpaths _ List.mem_cons_self, Nat.le_of_not_lt hseq⟩
        · exact ih hit hbelow hne
      · exact hstart'

theorem pairwise_entries (c : Coalescer) :
    (c.pending.entries.insertionSort fun a b => a.1 ≤ b.1).Pairwise fun a b => a.1 ≠ b.1 := by
  refine (List.perm_insertionSort _ _).symm.pairwise ?_ fun h => h.symm
  exact List.pairwise_map.1 c.pending.nodupKeys

theorem mem_entries_iff : (⟨path, e⟩ : Item) ∈ c.pending.entries ↔ c.pending.lookup path = some e :=
  (List.mem_dlookup_iff c.pending.nodupKeys).symm

theorem mem_kept (h : it ∈ c.kept) : c.pending.lookup it.1 = some it.2 := by
  rw [← mem_entries_iff]
  have := (keepLoop_sublist none _).subset ((List.mem_insertionSort _).1 h)
  exact (List.mem_insertionSort _).1 this

theorem mem_kept_or (h : c.pending.lookup path = some e) :
    ⟨path, e⟩ ∈ c.kept ∨ ∃ dir ∈ c.kept, Shadows dir ⟨path, e⟩ := by
  rw [← mem_entries_iff, ← List.mem_insertionSort fun a b : Item => a.1 ≤ b.1] at h
  have hnone : ∀ dir ∈ (none : Option Item), dir.2.kind = .remove ∧
      ∀ x ∈ c.pending.entries.insertionSort fun a b => a.1 ≤ b.1, x.1 ≠ dir.1 := nofun
  rcases mem_keepLoop h hnone (pairwise_entries c) with hk | ⟨dir, hdir, hsh⟩
  · exact .inl ((List.mem_insertionSort _).2 hk)
  · exact .inr ⟨dir, (List.mem_insertionSort _).2 (hdir.resolve_left nofun), hsh⟩

/-- What matters of a planned operation. -/
def plan (op : PlannedOp) : Bytes × InvalidationKind × Bool := (op.path, op.kind, op.appeared)

/-- **The operations of a batch** are those of the items that are kept, in their order. -/
theorem map_plan_take (h : c.overflow = false) :
    c.take.1.map plan = c.kept.map fun it => (it.1, it.2.kind, it.2.appeared) := by
  rw [take, if_neg (by rw [h]; decide)]
  dsimp only
  rw [map_repairMovePairs fun _ _ _ => rfl, List.map_map]
  rfl

/-! ### Pushing events -/

theorem exists_entry {ev : FsEvent} (hev : ev.kind ≠ .overflow) : ∃ e, c.entry ev = some e := by
  rw [entry]
  cases hk : ev.kind <;> first | exact absurd hk hev | exact ⟨_, rfl⟩

theorem entry_spec {ev : FsEvent} (he : c.entry ev = some e) :
    e.seq = c.seq + 1 ∧ ∃ appeared change, classify ev.kind = some (e.kind, appeared, change) ∧
      e.appeared = (appeared ||
        (e.kind == .upsert && (c.pending.lookup ev.path).any (·.appeared))) := by
  rw [entry, Option.map_eq_some_iff] at he
  obtain ⟨⟨kind, appeared, change⟩, hk, he⟩ := he
  dsimp only at he
  cases hl : c.pending.lookup ev.path with
  | none =>
    rw [hl] at he
    cases he
    exact ⟨rfl, appeared, change, hk, by simp⟩
  | some old =>
    rw [hl] at he
    cases he
    refine ⟨rfl, appeared, change, hk, ?_⟩
    have hup : appeared = true → kind = .upsert := by
      cases hev : ev.kind <;> rw [hev] at hk <;> cases hk <;> simp
    change (kind == .upsert && (appeared || old.appeared)) =
      (appeared || (kind == .upsert && old.appeared))
    cases appeared
    · rfl
    · rw [hup rfl]
      rfl

theorem entry_kind_ne_rescan {ev : FsEvent} (he : c.entry ev = some e) : e.kind ≠ .rescan := by
  obtain ⟨-, appeared, change, hk, -⟩ := entry_spec he
  intro hr
  rw [hr] at hk
  cases hev : ev.kind <;> rw [hev] at hk <;> cases hk

theorem push_eq (h : c.overflow = false) {ev : FsEvent} (he : c.entry ev = some e) (now : ℤ) :
    (c.push ev now).overflow = false ∧ (c.push ev now).seq = c.seq + 1 ∧
      (c.push ev now).pending = c.pending.insert ev.path e := by
  rw [push, he]
  dsimp only
  rw [if_neg (by rw [h]; decide)]
  exact ⟨h, rfl, rfl⟩

theorem lookup_push (h : c.overflow = false) {ev : FsEvent} (he : c.entry ev = some e) (now : ℤ) :
    (c.push ev now).pending.lookup path =
      if path = ev.path then some e else c.pending.lookup path := by
  rw [(push_eq h he now).2.2]
  split_ifs with hp
  · rw [hp, AList.lookup_insert]
  · rw [AList.lookup_insert_ne hp]

end Coalescer

end WslDrive
