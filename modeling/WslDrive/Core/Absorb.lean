import WslDrive.Core.Collapse
import WslDrive.Lib.Cover

/-!
# What a removal absorbs

`take` sorts the pending paths and, behind a removed path, drops the older events of the paths
below it.  In the order of bytes the paths below `d` do not all follow `d` directly: `d-x` and `d.x`
come before `d/x`.  And behind a removed path it does not look at the removals further down.

* `Coalescer.keepLoop_eq_pass` — the loop of `take` is a `Cover.pass`;
* `Coalescer.mem_kept_iff` — an item is kept unless the outermost removal that reaches to it is
  later;
* `Coalescer.take_absorbs_iff` — when a batch has no operation below a later removal.
-/

namespace WslDrive

open Path Coalescer

/-! ### The order of paths -/

section Order

variable {dir p q : Bytes}

theorem pathIsUnder_iff_isAbove : pathIsUnder p dir = true ↔ p = dir ∨ IsAbove dir p := by
  constructor
  · intro h
    by_cases hp : p = dir
    · exact .inl hp
    · exact .inr (isAbove_of_under hp h)
  · rintro (rfl | ⟨-, rfl | ⟨rest, rfl⟩⟩) <;> simp [pathIsUnder]

theorem lt_of_isAbove (h : IsAbove dir p) : dir < p := by
  obtain ⟨hne, rfl | ⟨rest, rfl⟩⟩ := h
  · cases p with
    | nil => exact absurd rfl hne
    | cons x p => exact List.nil_lt_cons x p
  · induction dir with
    | nil => exact List.nil_lt_cons slash rest
    | cons x dir ih => exact List.cons_lt_cons_self.2 (ih (by simp))

theorem Coalescer.IsAbove.trans (h : IsAbove dir p) (h' : IsAbove p q) : IsAbove dir q := by
  refine ⟨fun heq => ?_, ?_⟩
  · have := List.lt_trans (lt_of_isAbove h) (lt_of_isAbove h')
    rw [heq] at this
    exact List.lt_irrefl _ this
  · obtain ⟨-, rfl | ⟨rest, rfl⟩⟩ := h
    · exact .inl rfl
    · obtain ⟨-, hnil | ⟨rest', rfl⟩⟩ := h'
      · simp at hnil
      · exact .inr ⟨rest ++ slash :: rest', by simp⟩

theorem nesting_pathIsUnder :
    Cover.Nesting (fun p dir : Bytes => pathIsUnder p dir = true) fun p q => p < q where
  trans a b c hab hbc := by
    rw [pathIsUnder_iff_isAbove] at hab hbc ⊢
    rcases hbc with hbc | hbc
    · rw [← hbc]
      exact hab
    · rcases hab with hab | hab
      · rw [hab]
        exact .inr hbc
      · exact .inr (hbc.trans hab)
  asymm h h' := List.lt_irrefl _ (List.lt_trans h h')
  after {x d} h hlt := by
    rw [pathIsUnder_iff_isAbove] at h
    rcases h with h | h
    · rw [h] at hlt
      exact List.lt_irrefl _ hlt
    · exact List.lt_irrefl _ (List.lt_trans hlt (lt_of_isAbove h))

end Order

/-! ### Regions of the events -/

namespace History

/-- The last event of the path took it away. -/
def Removed (evs : History) (p : Bytes) : Prop :=
  ∃ last, (evs.on p).getLast? = some last ∧ last.kind.isRemoval = true

/-- A removed path above another one, such that no event of a path outside comes between the two in
the order of bytes. -/
structure Absorbs (evs : History) (dir p : Bytes) : Prop where
  removed : evs.Removed dir
  above : IsAbove dir p
  between : ∀ ev ∈ evs, dir < ev.path → ev.path < p → IsAbove dir ev.path

/-- The outermost of these. -/
structure Outermost (evs : History) (dir p : Bytes) : Prop extends Absorbs evs dir p where
  outer : ∀ dir', evs.Absorbs dir' p → dir' = dir ∨ IsAbove dir dir'

end History

open History

namespace Coalescer

variable {c : Coalescer} {evs : History} {it x d : Item} {p q dir : Bytes} {e : Entry}

/-! ### The loop -/

/-- The path of an item is that of another or below it. -/
def Item.Under (it dir : Item) : Prop := pathIsUnder it.1 dir.1 = true

instance : DecidableRel Item.Under := fun it dir =>
  inferInstanceAs (Decidable (pathIsUnder it.1 dir.1 = true))

/-- The item removes its path and what is below. -/
def Item.Removes (it : Item) : Prop := it.2.kind = .remove

instance : DecidablePred Item.Removes := fun it =>
  inferInstanceAs (Decidable (it.2.kind = .remove))

/-- What the loop keeps of an item below a removal. -/
def keep (dir : Option Item) (it : Item) : List Item :=
  if dir.any fun d => it.2.seq ≤ d.2.seq then [] else [it]

theorem mem_keep {o : Option Item} : x ∈ keep o it ↔ x = it ∧ ∀ d ∈ o, d.2.seq < it.2.seq := by
  rw [keep]
  cases o <;> simp [and_comm]

theorem keepLoop_eq_pass (cur : Option Item) (items : List Item) :
    keepLoop cur items = Cover.pass Item.Under Item.Removes keep cur items := by
  induction items generalizing cur with
  | nil => rw [keepLoop, Cover.pass]
  | cons it items ih =>
    have hregion : it.region = if it.Removes then some it else none := rfl
    cases cur with
    | none =>
      rw [keepLoop, Cover.pass, ih, hregion]
      rfl
    | some dir =>
      rw [keepLoop, Cover.pass]
      by_cases hu : pathIsUnder it.1 dir.1 = true
      · have hcov : Cover.covering Item.Under (some dir) it = some dir :=
          Option.filter_eq_some_iff.2 ⟨rfl, decide_eq_true hu⟩
        rw [if_pos hu, ih, Cover.next, hcov, keep, Option.some_or, Option.any_some]
        by_cases hseq : it.2.seq > dir.2.seq
        · rw [if_pos hseq, if_neg (by simpa using hseq)]
          rfl
        · rw [if_neg hseq, if_pos (by simpa using hseq)]
          rfl
      · have hcov : Cover.covering Item.Under (some dir) it = none := by
          rw [Cover.covering, Option.filter_some]
          exact if_neg fun h => hu (of_decide_eq_true h)
        rw [if_neg hu, ih, Cover.next, hcov, hregion]
        rfl

/-- The items in the order of their paths. -/
def sorted (c : Coalescer) : List Item := c.pending.entries.insertionSort fun a b => a.1 ≤ b.1

theorem mem_sorted : it ∈ c.sorted ↔ c.pending.lookup it.1 = some it.2 := by
  rw [sorted, List.mem_insertionSort, ← mem_entries_iff]

theorem nesting_under : Cover.Nesting Item.Under (fun a b : Item => a.1 < b.1) where
  trans a b c := nesting_pathIsUnder.trans a.1 b.1 c.1
  asymm := nesting_pathIsUnder.asymm
  after := nesting_pathIsUnder.after

theorem pairwise_sorted (c : Coalescer) : c.sorted.Pairwise fun a b => a.1 < b.1 := by
  have hle : c.sorted.Pairwise fun a b => a.1 ≤ b.1 :=
    List.pairwise_insertionSort (fun a b : Item => a.1 ≤ b.1) _
  exact (hle.and (pairwise_entries c)).imp fun h => Std.lt_of_le_of_ne h.1 h.2

/-- **What `take` keeps**: an item, unless the outermost removal that reaches to it is later. -/
theorem mem_kept_iff : it ∈ c.kept ↔ it ∈ c.sorted ∧
    ∀ d, Cover.Outermost Item.Under Item.Removes (fun a b => a.1 < b.1) c.sorted d it →
      d.2.seq < it.2.seq := by
  rw [kept, List.mem_insertionSort, keepLoop_eq_pass, ← sorted,
    Cover.mem_pass nesting_under (pairwise_sorted c)]
  constructor
  · rintro ⟨x, hx, o, ho, hit⟩
    obtain ⟨rfl, hseq⟩ := mem_keep.1 hit
    refine ⟨hx, fun d hd => ?_⟩
    cases o with
    | none => exact absurd hd.toCovers (ho.2 rfl d)
    | some d' =>
      rw [hd.unique nesting_under (pairwise_sorted c) (ho.1 d' rfl)]
      exact hseq d' rfl
  · rintro ⟨hit, hseq⟩
    obtain ⟨o, ho⟩ := Cover.exists_isCover nesting_under (pairwise_sorted c) hit
    exact ⟨it, hit, o, ho, mem_keep.2 ⟨rfl, fun d hd => hseq d (ho.1 d hd)⟩⟩

/-! ### In terms of the events -/

/-- The region of an item, over all pending items. -/
abbrev Reach (c : Coalescer) (d it : Item) : Prop :=
  Cover.Covers Item.Under Item.Removes (fun a b => a.1 < b.1) c.sorted d it

theorem Tracks.exists_item (ht : Tracks evs c) :
    (∃ ev ∈ evs, ev.path = p) ↔ ∃ e, (⟨p, e⟩ : Item) ∈ c.sorted := by
  simp only [mem_sorted]
  rw [← Option.ne_none_iff_exists', Ne, ht.untouched, List.eq_nil_iff_forall_not_mem]
  simp [mem_on]

theorem Tracks.removes_iff (ht : Tracks evs c) (hit : it ∈ c.sorted) :
    it.Removes ↔ evs.Removed it.1 := by
  obtain ⟨last, hlast, hk⟩ := (ht.touched _ _ (mem_sorted.1 hit)).1.kind
  rw [Item.Removes, hk, History.Removed, hlast, FsEventKind.op]
  cases hr : last.kind.isRemoval <;> simp [hr]

theorem Tracks.reach_iff (ht : Tracks evs c) :
    evs.Absorbs dir it.1 ↔ ∃ d, d.1 = dir ∧ c.Reach d it := by
  have hbelow : ∀ {a b : Bytes}, IsAbove a b ↔ a < b ∧ pathIsUnder b a = true := by
    intro a b
    rw [pathIsUnder_iff_isAbove]
    refine ⟨fun h => ⟨lt_of_isAbove h, .inr h⟩, fun h => h.2.resolve_left fun heq => ?_⟩
    rw [heq] at h
    exact List.lt_irrefl _ h.1
  constructor
  · rintro ⟨hrem, habove, hbetween⟩
    obtain ⟨last, hlast, -⟩ := id hrem
    have hmem := mem_on.1 (List.mem_of_getLast? hlast)
    obtain ⟨e, he⟩ := ht.exists_item.1 ⟨last, hmem⟩
    refine ⟨⟨dir, e⟩, rfl, he, (ht.removes_iff he).2 hrem, lt_of_isAbove habove,
      (hbelow.1 habove).2, fun y hy hlt hlt' => ?_⟩
    obtain ⟨ev, hev, hpath⟩ := ht.exists_item.2 ⟨y.2, hy⟩
    exact (hbelow.1 (hpath ▸ hbetween ev hev (hpath ▸ hlt) (hpath ▸ hlt'))).2
  · rintro ⟨d, rfl, hd⟩
    refine ⟨(ht.removes_iff hd.mem).1 hd.starts, hbelow.2 ⟨hd.before, hd.below⟩,
      fun ev hev hlt hlt' => ?_⟩
    obtain ⟨e, he⟩ := ht.exists_item.1 ⟨ev, hev, rfl⟩
    exact hbelow.2 ⟨hlt, hd.between ⟨ev.path, e⟩ he hlt hlt'⟩

theorem Tracks.outermost_iff (ht : Tracks evs c) :
    evs.Outermost dir it.1 ↔ ∃ d, d.1 = dir ∧
      Cover.Outermost Item.Under Item.Removes (fun a b => a.1 < b.1) c.sorted d it := by
  constructor
  · rintro ⟨habs, houter⟩
    obtain ⟨d, rfl, hd⟩ := ht.reach_iff.1 habs
    refine ⟨d, rfl, hd, fun d' hd' => .inr ?_⟩
    exact pathIsUnder_iff_isAbove.2 (houter d'.1 (ht.reach_iff.2 ⟨d', rfl, hd'⟩))
  · rintro ⟨d, rfl, hd⟩
    refine ⟨ht.reach_iff.2 ⟨d, rfl, hd.toCovers⟩, fun dir' habs => ?_⟩
    obtain ⟨d', rfl, hd'⟩ := ht.reach_iff.1 habs
    rcases hd.outer d' hd' with rfl | hu
    · exact .inl rfl
    · exact pathIsUnder_iff_isAbove.1 hu

theorem Tracks.seq_lt_iff (ht : Tracks evs c) (hit : it ∈ c.sorted) (hd : d ∈ c.sorted)
    (hne : it.1 ≠ d.1) : it.2.seq < d.2.seq ↔ evs.LastBefore it.1 d.1 :=
  (ht.order _ _ _ _ hne (mem_sorted.1 hit) (mem_sorted.1 hd)).2

theorem Tracks.seq_ne (ht : Tracks evs c) (hit : it ∈ c.sorted) (hd : d ∈ c.sorted)
    (hne : it.1 ≠ d.1) : it.2.seq ≠ d.2.seq :=
  (ht.order _ _ _ _ hne (mem_sorted.1 hit) (mem_sorted.1 hd)).1

/-- **What a batch keeps**: a path, unless the outermost removal that reaches to it is later. -/
theorem Tracks.mem_kept_iff (ht : Tracks evs c) (hit : it ∈ c.sorted) :
    it ∈ c.kept ↔ ¬ ∃ dir, evs.Outermost dir it.1 ∧ evs.LastBefore it.1 dir := by
  rw [Coalescer.mem_kept_iff, and_iff_right hit, not_exists]
  have hne : ∀ {d}, c.Reach d it → it.1 ≠ d.1 := fun hd heq => by
    have := hd.before
    rw [heq] at this
    exact List.lt_irrefl _ this
  constructor
  · rintro hseq dir ⟨houter, hlast⟩
    obtain ⟨d, rfl, hd⟩ := ht.outermost_iff.1 houter
    have := (ht.seq_lt_iff hit hd.mem (hne hd.toCovers)).2 hlast
    exact absurd (hseq d hd) (Nat.lt_asymm this)
  · intro hnot d hd
    refine lt_of_le_of_ne (Nat.le_of_not_lt fun hlt => hnot d.1 ⟨?_, ?_⟩)
      (ht.seq_ne hit hd.mem (hne hd.toCovers)).symm
    · exact ht.outermost_iff.2 ⟨d, rfl, hd⟩
    · exact (ht.seq_lt_iff hit hd.mem (hne hd.toCovers)).1 hlt

theorem outermost_kept
    (hd : Cover.Outermost Item.Under Item.Removes (fun a b => a.1 < b.1) c.sorted d it) :
    d ∈ c.kept := by
  refine Coalescer.mem_kept_iff.2 ⟨hd.mem, fun f hf => ?_⟩
  exact absurd hf.toCovers (hd.not_covers nesting_under (pairwise_sorted c) List.lt_trans)

theorem exists_mem_take_iff (ho : c.overflow = false) {k : InvalidationKind} :
    (∃ op ∈ c.take.1, op.path = p ∧ op.kind = k) ↔ ∃ it ∈ c.kept, it.1 = p ∧ it.2.kind = k := by
  have hmap := map_plan_take ho
  constructor
  · rintro ⟨op, hop, rfl, rfl⟩
    have := List.mem_map_of_mem (f := plan) hop
    rw [hmap] at this
    obtain ⟨it, hit, heq⟩ := List.mem_map.1 this
    simp only [plan, Prod.mk.injEq] at heq
    exact ⟨it, hit, heq.1, heq.2.1⟩
  · rintro ⟨it, hit, rfl, rfl⟩
    have := List.mem_map_of_mem (f := fun it : Item => (it.1, it.2.kind, it.2.appeared)) hit
    rw [← hmap] at this
    obtain ⟨op, hop, heq⟩ := List.mem_map.1 this
    simp only [plan, Prod.mk.injEq] at heq
    exact ⟨op, hop, heq.1, heq.2.1⟩

/-- A batch has no operation below a removal with a later last event. -/
def Absorbed (evs : History) (ops : List PlannedOp) : Prop :=
  ∀ op ∈ ops, ∀ dir ∈ ops, dir.kind = .remove → IsAbove dir.path op.path →
    ¬ evs.LastBefore op.path dir.path

/-- Whatever is below a path removed later is within reach of an outermost removal that is later
too. -/
def WithinReach (evs : History) : Prop :=
  ∀ ev ∈ evs, ∀ dir, evs.Removed dir → IsAbove dir ev.path → evs.LastBefore ev.path dir →
    ∃ dir', evs.Outermost dir' ev.path ∧ evs.LastBefore ev.path dir'

theorem Tracks.absorbed_iff (ht : Tracks evs c) : Absorbed evs c.take.1 ↔ WithinReach evs := by
  have hop : ∀ {op}, op ∈ c.take.1 → ∃ it ∈ c.kept, it.1 = op.path ∧ it.2.kind = op.kind :=
    fun h => (exists_mem_take_iff ht.overflow).1 ⟨_, h, rfl, rfl⟩
  have hkept : ∀ {it}, it ∈ c.kept → it ∈ c.sorted := fun h => mem_sorted.2 (mem_kept h)
  constructor
  · intro habs ev hev dir hrem habove hlast
    by_contra hnot
    obtain ⟨e, he⟩ := ht.exists_item.1 ⟨ev, hev, rfl⟩
    obtain ⟨op, hop, hpath, -⟩ : ∃ op ∈ c.take.1, op.path = ev.path ∧ op.kind = e.kind :=
      (exists_mem_take_iff ht.overflow).2 ⟨_, (ht.mem_kept_iff he).2 hnot, rfl, rfl⟩
    -- the batch has no removal above the path that is later, so this one is itself absorbed
    have hno : ∀ d ∈ c.kept, d.Removes → IsAbove d.1 ev.path →
        ¬ evs.LastBefore ev.path d.1 := by
      intro d hd hr habove hlast
      obtain ⟨op', hop', hpath', hk⟩ := (exists_mem_take_iff ht.overflow).2 ⟨d, hd, rfl, hr⟩
      rw [← hpath, ← hpath'] at habove hlast
      exact habs op hop op' hop' hk habove hlast
    obtain ⟨last, hlast', -⟩ := id hrem
    obtain ⟨f, hf⟩ := ht.exists_item.1 ⟨last, mem_on.1 (List.mem_of_getLast? hlast')⟩
    have hdrop : (⟨dir, f⟩ : Item) ∉ c.kept := fun h =>
      hno _ h ((ht.removes_iff hf).2 hrem) habove hlast
    rw [ht.mem_kept_iff hf, not_not] at hdrop
    obtain ⟨dir', houter, hlast''⟩ := hdrop
    obtain ⟨d, rfl, hd⟩ := ht.outermost_iff.1 houter
    have habove' := houter.above.trans habove
    refine hno d (outermost_kept hd) hd.starts habove' ?_
    -- the path's last event, the removal below `d`, and the removal of `d` are in this order
    rw [← ht.seq_lt_iff he hd.mem habove'.1]
    exact Nat.lt_trans ((ht.seq_lt_iff he hf habove.1).2 hlast)
      ((ht.seq_lt_iff hf hd.mem houter.above.1).2 hlast'')
  · intro hreach op hmem dir hdir hk habove hlast
    obtain ⟨it, hit, hpath, -⟩ := hop hmem
    obtain ⟨d, hd, hdpath, hdk⟩ := hop hdir
    obtain ⟨ev, hev, hevp⟩ := ht.exists_item.2 ⟨it.2, hkept hit⟩
    have hrem : evs.Removed dir.path := by
      rw [← hdpath]
      exact (ht.removes_iff (hkept hd)).1 (hdk.trans hk)
    rw [← hpath, ← hevp] at habove hlast
    refine (ht.mem_kept_iff (hkept hit)).1 hit ?_
    rw [← hevp]
    exact hreach ev hev dir.path hrem habove hlast

/-- **When a removal absorbs what is below it.**  The batch has no operation below a later removal
exactly if, for every path below one that was removed later, the outermost removed path that reaches
to it was removed later too. -/
theorem take_absorbs_iff (c : Coalescer) (hc : c.isEmpty = true) (evs : List (FsEvent × ℤ))
    (hevs : ∀ x ∈ evs, x.1.kind ≠ .overflow) :
    Absorbed (evs.map Prod.fst) (c.pushAll evs).take.1 ↔ WithinReach (evs.map Prod.fst) :=
  (tracks_pushAll hc hevs).absorbed_iff

/-- A file is written and its directory removed. -/
def removedDirectory : List (FsEvent × ℤ) :=
  [(⟨.modified, bytes "d/f", 0⟩, 0), (⟨.removed, bytes "d", 0⟩, 1)]

theorem take_absorbs_iff_removed :
    WithinReach (removedDirectory.map Prod.fst) ∧
      Absorbed (removedDirectory.map Prod.fst) (pushAll {} removedDirectory).take.1 := by
  have htake : (pushAll {} removedDirectory).take.1 =
      [{ kind := .remove, path := bytes "d", change := .removed }] := by decide +kernel
  have habs : Absorbed (removedDirectory.map Prod.fst) (pushAll {} removedDirectory).take.1 := by
    rw [htake]
    intro op hop dir hdir _ habove
    rw [List.mem_singleton.1 hop, List.mem_singleton.1 hdir] at habove
    exact absurd rfl habove.1
  exact ⟨(take_absorbs_iff {} rfl removedDirectory (by decide)).1 habs, habs⟩

/-- A file is written, then a sibling of its directory, and the directory is removed. -/
def removedBesideSibling : List (FsEvent × ℤ) :=
  [(⟨.modified, bytes "d/f", 0⟩, 0), (⟨.modified, bytes "d-x", 0⟩, 1),
    (⟨.removed, bytes "d", 0⟩, 2)]

/-- The sibling comes between `d` and `d/f`: the file's older event stays in the batch, beside the
removal of its directory. -/
theorem take_keeps_below :
    (pushAll {} removedBesideSibling).take.1 =
      [{ kind := .upsert, path := bytes "d/f", change := .modified },
        { kind := .upsert, path := bytes "d-x", change := .modified },
        { kind := .remove, path := bytes "d", change := .removed }] ∧
    ¬ Absorbed (removedBesideSibling.map Prod.fst) (pushAll {} removedBesideSibling).take.1 := by
  have htake : (pushAll {} removedBesideSibling).take.1 =
      [{ kind := .upsert, path := bytes "d/f", change := .modified },
        { kind := .upsert, path := bytes "d-x", change := .modified },
        { kind := .remove, path := bytes "d", change := .removed }] := by decide +kernel
  refine ⟨htake, fun habs => ?_⟩
  rw [htake] at habs
  have hlast : History.LastBefore (removedBesideSibling.map Prod.fst) (bytes "d/f") (bytes "d") :=
    ⟨[⟨.modified, bytes "d/f", 0⟩], [⟨.modified, bytes "d-x", 0⟩, ⟨.removed, bytes "d", 0⟩], rfl,
      ⟨⟨.removed, bytes "d", 0⟩, by simp, rfl⟩, by decide⟩
  exact habs { kind := .upsert, path := bytes "d/f", change := .modified } (by simp)
    { kind := .remove, path := bytes "d", change := .removed } (by simp) rfl
    ⟨by decide, .inr ⟨bytes "f", by decide⟩⟩ hlast

end Coalescer

end WslDrive
