import WslDrive.Core.Coalescer
import WslDrive.Lib.Since

/-!
# What a batch of the coalescer says about the events

The operations that `take` returns, in terms of the events pushed since the last `take`.

* `History.reported`, `History.Appeared` — what a batch is to say about the events of one path;
* `Coalescer.Summarises` — the entry of a path holds that, and numbers order the last events;
* `Coalescer.take_spec` — a batch loses no path, except below a removal it contains.
-/

namespace WslDrive

open Path

namespace FsEventKind

/-- The old name of the entry is gone. -/
def isRemoval : FsEventKind → Bool
  | .removed | .renamedFrom => true
  | _ => false

/-- The entry is new at its path. -/
def isArrival : FsEventKind → Bool
  | .created | .renamedTo => true
  | _ => false

/-- What happens to the path. -/
def op (k : FsEventKind) : InvalidationKind := if k.isRemoval then .remove else .upsert

/-- The change that an event says it saw. -/
def change : FsEventKind → ChangeKind
  | .created => .created
  | .modified => .modified
  | .removed => .removed
  | .renamedFrom => .movedFrom
  | .renamedTo => .movedTo
  | .overflow => .unknown

theorem classify_eq {k : FsEventKind} (h : k ≠ .overflow) :
    Coalescer.classify k = some (k.op, k.isArrival, k.change) := by
  cases k <;> first | rfl | exact absurd rfl h

end FsEventKind

/-! ### The events of one path -/

/-- Events, in the order of their arrival. -/
abbrev History := List FsEvent

namespace History

/-- The events of one path. -/
def on (evs : History) (p : Bytes) : History := evs.filter fun ev => ev.path = p

/-- The last event that is not a modification. -/
def lastReal (h : History) : Option FsEvent := (h.filter fun ev => ev.kind ≠ .modified).getLast?

/-- The event whose change is to be reported: the last one, except that modifications of an entry
that is new do not hide its arrival. -/
def reported (h : History) : Option FsEvent :=
  h.getLast?.map fun last =>
    if last.kind = .modified then (h.lastReal.filter fun ev => ev.kind.isArrival).getD last
    else last

/-- An arrival that no removal follows. -/
def Appeared (h : History) : Prop :=
  ∃ before ev after, h = before ++ ev :: after ∧ ev.kind.isArrival = true ∧
    ∀ x ∈ after, x.kind.isRemoval = false

/-- The last event of `p` came before the last event of `q`. -/
def LastBefore (evs : History) (p q : Bytes) : Prop :=
  ∃ before after, evs = before ++ after ∧ (∃ ev ∈ after, ev.path = q) ∧ ∀ ev ∈ after, ev.path ≠ p

variable {evs h : History} {ev : FsEvent} {p q : Bytes}

theorem on_snoc_self : on (evs ++ [ev]) ev.path = evs.on ev.path ++ [ev] := by
  rw [on, List.filter_append, List.filter_cons_of_pos (by simp), List.filter_nil, on]

theorem on_snoc_of_ne (hp : p ≠ ev.path) : on (evs ++ [ev]) p = evs.on p := by
  rw [on, List.filter_append, List.filter_cons_of_neg (by simpa using Ne.symm hp), List.filter_nil,
    List.append_nil, on]

theorem mem_on : ev ∈ evs.on p ↔ ev ∈ evs ∧ ev.path = p := by simp [on]

theorem reported_snoc (h : History) (ev : FsEvent) :
    reported (h ++ [ev]) = some (if ev.kind = .modified
      then (h.lastReal.filter fun ev => ev.kind.isArrival).getD ev else ev) := by
  rw [reported, List.getLast?_concat, Option.map_some, lastReal, lastReal, List.filter_append]
  split_ifs with hm
  · rw [List.filter_cons_of_neg (by simpa using hm), List.filter_nil, List.append_nil]
  · rfl

/-- The reported event is an arrival exactly if the last event that is not a modification is. -/
theorem reported_arrival {r : FsEvent} (hr : h.reported = some r) :
    (h.lastReal.filter fun ev => ev.kind.isArrival) =
      if r.kind.isArrival then some r else none := by
  rcases List.eq_nil_or_concat h with rfl | ⟨h, ev, rfl⟩
  · cases hr
  rw [List.concat_eq_append] at hr ⊢
  rw [reported_snoc] at hr
  cases hr
  have hlast : lastReal (h ++ [ev]) = if ev.kind = .modified then lastReal h else some ev := by
    rw [lastReal, List.filter_append]
    split_ifs with hm
    · rw [List.filter_cons_of_neg (by simpa using hm), List.filter_nil, List.append_nil, lastReal]
    · rw [List.filter_cons_of_pos (by simpa using hm), List.filter_nil, List.getLast?_concat]
  rw [hlast]
  by_cases hm : ev.kind = .modified
  · rw [if_pos hm, if_pos hm]
    cases hl : (lastReal h).filter fun ev => ev.kind.isArrival with
    | none =>
      rw [Option.getD_none, hm]
      rfl
    | some r =>
      rw [Option.getD_some, if_pos (Option.filter_eq_some_iff.1 hl).2]
  · rw [if_neg hm, if_neg hm, Option.filter_some]

theorem appeared_snoc (h : History) (ev : FsEvent) :
    Appeared (h ++ [ev]) ↔
      ev.kind.isArrival = true ∨ (ev.kind.isRemoval = false ∧ Appeared h) :=
  since_concat

theorem lastBefore_snoc_right (hp : p ≠ ev.path) : LastBefore (evs ++ [ev]) p ev.path :=
  ⟨evs, [ev], rfl, ⟨ev, by simp, rfl⟩, fun x hx => by rw [List.mem_singleton.1 hx]; exact hp.symm⟩

theorem not_lastBefore_snoc_left : ¬ LastBefore (evs ++ [ev]) ev.path q := by
  rintro ⟨before, after, heq, ⟨x, hx, -⟩, hafter⟩
  rcases List.eq_nil_or_concat after with rfl | ⟨after, y, rfl⟩
  · cases hx
  · rw [List.concat_eq_append] at heq hafter
    rw [← List.append_assoc] at heq
    obtain ⟨-, hev⟩ := List.append_inj' heq rfl
    exact hafter y (by simp) (by rw [(List.cons.inj hev).1])

theorem lastBefore_snoc (hp : p ≠ ev.path) (hq : q ≠ ev.path) :
    LastBefore (evs ++ [ev]) p q ↔ LastBefore evs p q := by
  constructor
  · rintro ⟨before, after, heq, ⟨x, hx, hxq⟩, hafter⟩
    rcases List.eq_nil_or_concat after with rfl | ⟨after, y, rfl⟩
    · cases hx
    rw [List.concat_eq_append] at heq hafter hx
    rw [← List.append_assoc] at heq
    obtain ⟨rfl, hev⟩ := List.append_inj' heq rfl
    refine ⟨before, after, rfl, ⟨x, ?_, hxq⟩, fun z hz => hafter z (List.mem_append_left _ hz)⟩
    refine (List.mem_append.1 hx).resolve_right fun hxy => hq ?_
    rw [(List.cons.inj hev).1, ← hxq, List.mem_singleton.1 hxy]
  · rintro ⟨before, after, rfl, ⟨x, hx, hxq⟩, hafter⟩
    refine ⟨before, after ++ [ev], by simp, ⟨x, List.mem_append_left _ hx, hxq⟩, fun z hz => ?_⟩
    rcases List.mem_append.1 hz with hz | hz
    · exact hafter z hz
    · rw [List.mem_singleton.1 hz]
      exact hp.symm

end History

open History

namespace Coalescer

/-! ### The pending table -/

/-- Push events with their times. -/
def pushAll (c : Coalescer) (evs : List (FsEvent × ℤ)) : Coalescer :=
  evs.foldl (fun c x => c.push x.1 x.2) c

/-- What an entry says about the events of its path. -/
structure Summarises (h : History) (e : Entry) : Prop where
  kind : ∃ last, h.getLast? = some last ∧ e.kind = last.kind.op
  appeared : e.appeared = true ↔ h.Appeared
  change : ∃ r, h.reported = some r ∧ e.change = r.kind.change ∧ e.cookie = eventCookie r

/-- The pending table after some events. -/
structure Tracks (evs : History) (c : Coalescer) : Prop where
  overflow : c.overflow = false
  untouched : ∀ p, c.pending.lookup p = none ↔ evs.on p = []
  touched : ∀ p e, c.pending.lookup p = some e → Summarises (evs.on p) e ∧ e.seq ≤ c.seq
  order : ∀ p q e f, p ≠ q → c.pending.lookup p = some e → c.pending.lookup q = some f →
    e.seq ≠ f.seq ∧ (e.seq < f.seq ↔ evs.LastBefore p q)

variable {c : Coalescer} {evs h : History} {ev : FsEvent} {e old : Entry} {p : Bytes}

theorem isArrival_iff {k : FsEventKind} :
    k.isArrival = (k.change == .created || k.change == .movedTo) := by
  cases k <;> rfl

theorem Summarises.single (ev : FsEvent) (n : ℕ) :
    Summarises [ev] ⟨ev.kind.op, n, ev.kind.isArrival, ev.kind.change, eventCookie ev⟩ := by
  refine ⟨⟨ev, rfl, rfl⟩, ?_, ev, ?_, rfl, rfl⟩
  · rw [← List.nil_append [ev], appeared_snoc]
    exact ⟨.inl, fun h => h.resolve_right fun h => not_since_nil h.2⟩
  · rw [← List.nil_append [ev], reported_snoc]
    split_ifs <;> rfl

theorem Summarises.after (ho : Summarises h old) (hev : ev.kind ≠ .overflow) (n : ℕ) :
    Summarises (h ++ [ev])
      (old.after ⟨ev.kind.op, n, ev.kind.isArrival, ev.kind.change, eventCookie ev⟩) := by
  obtain ⟨r, hr, hchange, hcookie⟩ := ho.change
  refine ⟨⟨ev, List.getLast?_concat, rfl⟩, ?_, ?_⟩
  · rw [appeared_snoc, ← ho.appeared]
    change (ev.kind.op == .upsert && (ev.kind.isArrival || old.appeared)) = true ↔ _
    cases hk : ev.kind <;> first | exact absurd hk hev | simp [FsEventKind.op,
      FsEventKind.isRemoval, FsEventKind.isArrival]
  · -- Only a modification looks back at the event that the older entry reports.
    rw [reported_snoc, reported_arrival hr, Entry.after]
    dsimp only
    rw [hchange, ← isArrival_iff]
    by_cases hm : ev.kind = .modified
    · rw [if_pos hm, hm]
      refine ⟨_, rfl, ?_⟩
      cases hra : r.kind.isArrival
      · exact ⟨by simp [FsEventKind.change, hm], by simp⟩
      · exact ⟨by simp [FsEventKind.change], by simp [FsEventKind.change, hcookie]⟩
    · have hne : (ev.kind.change == ChangeKind.modified) = false := by
        cases hk : ev.kind <;> first | exact absurd hk hm | rfl
      rw [if_neg hm, hne]
      exact ⟨ev, rfl, rfl, rfl⟩

theorem Tracks.entry (ht : Tracks evs c) (hev : ev.kind ≠ .overflow) :
    ∃ e, c.entry ev = some e ∧ e.seq = c.seq + 1 ∧ Summarises ((evs ++ [ev]).on ev.path) e := by
  rw [Coalescer.entry, FsEventKind.classify_eq hev, Option.map_some, on_snoc_self]
  refine ⟨_, rfl, ?_⟩
  dsimp only
  cases hl : c.pending.lookup ev.path with
  | none =>
    rw [(ht.untouched _).1 hl]
    exact ⟨rfl, .single ev _⟩
  | some old => exact ⟨rfl, (ht.touched _ old hl).1.after hev _⟩

theorem Tracks.push (ht : Tracks evs c) (hev : ev.kind ≠ .overflow) (now : ℤ) :
    Tracks (evs ++ [ev]) (c.push ev now) := by
  obtain ⟨e, he, hseq, hsum⟩ := ht.entry hev
  have hpush := push_eq ht.overflow he now
  have hlookup : ∀ p, (c.push ev now).pending.lookup p =
      if p = ev.path then some e else c.pending.lookup p := fun _ =>
    lookup_push ht.overflow he now
  refine ⟨hpush.1, fun p => ?_, fun p f hf => ?_, fun p q e₁ e₂ hpq h₁ h₂ => ?_⟩
  · rw [hlookup]
    split_ifs with hp
    · rw [hp, on_snoc_self]
      simp
    · rw [on_snoc_of_ne hp]
      exact ht.untouched p
  · rw [hlookup] at hf
    rw [hpush.2.1]
    split_ifs at hf with hp
    · cases hf
      rw [hp]
      exact ⟨hsum, hseq.le⟩
    · rw [on_snoc_of_ne hp]
      exact ⟨(ht.touched p f hf).1, (ht.touched p f hf).2.trans (Nat.le_succ _)⟩
  · rw [hlookup] at h₁ h₂
    split_ifs at h₁ h₂ with hp hq hq
    · exact absurd (hp.trans hq.symm) hpq
    · cases h₁
      have hle := (ht.touched q e₂ h₂).2
      rw [hp]
      exact ⟨by omega, iff_of_false (by omega) not_lastBefore_snoc_left⟩
    · cases h₂
      have hle := (ht.touched p e₁ h₁).2
      rw [hq]
      exact ⟨by omega, iff_of_true (by omega) (lastBefore_snoc_right hp)⟩
    · rw [lastBefore_snoc hp hq]
      exact ht.order p q e₁ e₂ hpq h₁ h₂

theorem isEmpty_iff : c.isEmpty = true ↔ c.overflow = false ∧ c.pending.entries = [] := by
  simp [isEmpty]

theorem Tracks.start (h : c.isEmpty = true) : Tracks [] c := by
  obtain ⟨ho, hp⟩ := isEmpty_iff.1 h
  have hnone : ∀ p, c.pending.lookup p = none := fun p => by rw [AList.lookup, hp]; rfl
  refine ⟨ho, fun p => iff_of_true (hnone p) rfl, fun p e he => ?_, fun p q e f _ he => ?_⟩ <;>
  · rw [hnone] at he
    cases he

theorem tracks_pushAll (h : c.isEmpty = true) {evs : List (FsEvent × ℤ)}
    (hevs : ∀ x ∈ evs, x.1.kind ≠ .overflow) : Tracks (evs.map Prod.fst) (c.pushAll evs) := by
  induction evs using List.reverseRecOn with
  | nil => exact .start h
  | append_singleton evs x ih =>
    rw [pushAll, List.foldl_concat, List.map_append]
    exact (ih fun y hy => hevs y (List.mem_append_left _ hy)).push (hevs x (by simp)) x.2

theorem overflow_pushAll {evs : List (FsEvent × ℤ)} (hov : ∃ x ∈ evs, x.1.kind = .overflow) :
    (c.pushAll evs).overflow = true := by
  induction evs using List.reverseRecOn with
  | nil => simp at hov
  | append_singleton evs x ih =>
    rw [pushAll, List.foldl_concat, Coalescer.push]
    by_cases hx : x.1.kind = .overflow
    · have hnone : ∀ c : Coalescer, c.entry x.1 = none := fun c => by rw [entry, hx]; rfl
      rw [hnone]
    · have ho := ih (by simpa [hx] using hov)
      rw [pushAll] at ho
      obtain ⟨e, he⟩ := exists_entry (c := evs.foldl (fun c x => c.push x.1 x.2) c) hx
      rw [he]
      dsimp only
      rw [if_pos ho]
      exact ho

/-! ### The batch -/

/-- A path is above another one; the empty path is the root. -/
def IsAbove (dir p : Bytes) : Prop := p ≠ dir ∧ (dir = [] ∨ ∃ rest, p = dir ++ slash :: rest)

theorem isAbove_of_under {dir : Bytes} (hne : p ≠ dir) (h : pathIsUnder p dir = true) :
    IsAbove dir p := by
  refine ⟨hne, ?_⟩
  simp only [pathIsUnder, Bool.or_eq_true, List.isEmpty_iff, Bool.and_eq_true,
    List.isPrefixOf_iff_prefix, beq_iff_eq] at h
  refine h.imp_right ?_
  rintro ⟨⟨rest, rfl⟩, hlen | hslash⟩
  · rw [List.length_append, Nat.add_eq_left] at hlen
    rw [List.length_eq_zero_iff.1 hlen, List.append_nil] at hne
    exact absurd rfl hne
  · rw [List.getElem?_append_right (Nat.le_refl _), Nat.sub_self] at hslash
    cases rest with
    | nil => cases hslash
    | cons x rest =>
      cases hslash
      exact ⟨rest, rfl⟩

/-- What the operations of a batch are to be, for the events it stands for. -/
structure Collapses (evs : History) (ops : List PlannedOp) : Prop where
  /-- At most one operation for a path, in the order of the last events. -/
  order : ops.Pairwise fun a b => a.path ≠ b.path ∧ evs.LastBefore a.path b.path
  /-- The kind of the last event. -/
  kind : ∀ op ∈ ops, ∃ last, (evs.on op.path).getLast? = some last ∧ op.kind = last.kind.op
  appeared : ∀ op ∈ ops, op.appeared = true ↔ (evs.on op.path).Appeared
  /-- A path without an operation is below one that was removed later. -/
  complete : ∀ ev ∈ evs, (∃ op ∈ ops, op.path = ev.path) ∨
    ∃ dir ∈ ops, dir.kind = .remove ∧ IsAbove dir.path ev.path ∧ evs.LastBefore ev.path dir.path

/-- The operations of `take` before the halves of moves are repaired. -/
def planned (c : Coalescer) : List PlannedOp := c.kept.map Item.planned

theorem mem_planned {op : PlannedOp} (h : op ∈ c.planned) :
    ∃ e, c.pending.lookup op.path = some e ∧ op = Item.planned ⟨op.path, e⟩ := by
  obtain ⟨it, hit, rfl⟩ := List.mem_map.1 h
  exact ⟨it.2, mem_kept hit, rfl⟩

theorem pairwise_kept (c : Coalescer) : c.kept.Pairwise fun a b => a.1 ≠ b.1 :=
  (List.perm_insertionSort _ _).symm.pairwise
    ((pairwise_entries c).sublist (keepLoop_sublist none _)) fun h => h.symm

theorem Tracks.collapses (ht : Tracks evs c) : Collapses evs c.planned := by
  refine ⟨?_, fun op hop => ?_, fun op hop => ?_, fun ev hev => ?_⟩
  · rw [planned, List.pairwise_map]
    have hsort : c.kept.Pairwise fun a b => a.2.seq ≤ b.2.seq :=
      List.pairwise_insertionSort (fun a b : Item => a.2.seq ≤ b.2.seq) _
    refine ((pairwise_kept c).and hsort).imp_of_mem fun {a b} ha hb hab => ?_
    obtain ⟨hne, hlt⟩ := ht.order a.1 b.1 a.2 b.2 hab.1 (mem_kept ha) (mem_kept hb)
    exact ⟨hab.1, hlt.1 (lt_of_le_of_ne hab.2 hne)⟩
  · obtain ⟨e, he, hop⟩ := mem_planned hop
    obtain ⟨last, hlast, hk⟩ := (ht.touched _ e he).1.kind
    exact ⟨last, hlast, by rw [hop]; exact hk⟩
  · obtain ⟨e, he, hop⟩ := mem_planned hop
    rw [← (ht.touched _ e he).1.appeared, hop]
    rfl
  · have hsome : c.pending.lookup ev.path ≠ none := fun hnone => by
      have := mem_on.2 ⟨hev, rfl⟩
      rw [(ht.untouched _).1 hnone] at this
      cases this
    obtain ⟨e, he⟩ := Option.ne_none_iff_exists'.1 hsome
    rcases mem_kept_or he with hk | ⟨dir, hdir, hsh⟩
    · exact .inl ⟨_, List.mem_map_of_mem hk, rfl⟩
    · obtain ⟨hne, hlt⟩ := ht.order ev.path dir.1 e dir.2 hsh.ne he (mem_kept hdir)
      exact .inr ⟨_, List.mem_map_of_mem hdir, hsh.removed, isAbove_of_under hsh.ne hsh.under,
        hlt.1 (lt_of_le_of_ne hsh.seq_le hne)⟩

theorem Collapses.congr {ops ops' : List PlannedOp} (h : Collapses evs ops)
    (heq : ops'.map plan = ops.map plan) : Collapses evs ops' := by
  have hto : ∀ op' ∈ ops', ∃ op ∈ ops, plan op = plan op' := fun op' hop' => by
    have := List.mem_map_of_mem (f := plan) hop'
    rw [heq] at this
    exact List.mem_map.1 this
  have hfrom : ∀ op ∈ ops, ∃ op' ∈ ops', plan op' = plan op := fun op hop => by
    have := List.mem_map_of_mem (f := plan) hop
    rw [← heq] at this
    exact List.mem_map.1 this
  refine ⟨?_, fun op' hop' => ?_, fun op' hop' => ?_, fun ev hev => ?_⟩
  · have horder : (ops.map plan).Pairwise fun a b => a.1 ≠ b.1 ∧ evs.LastBefore a.1 b.1 :=
      List.pairwise_map.2 h.order
    rw [← heq] at horder
    exact List.pairwise_map.1 horder
  · obtain ⟨op, hop, hplan⟩ := hto op' hop'
    simp only [plan, Prod.mk.injEq] at hplan
    rw [← hplan.1, ← hplan.2.1]
    exact h.kind op hop
  · obtain ⟨op, hop, hplan⟩ := hto op' hop'
    simp only [plan, Prod.mk.injEq] at hplan
    rw [← hplan.1, ← hplan.2.2]
    exact h.appeared op hop
  · rcases h.complete ev hev with ⟨op, hop, hp⟩ | ⟨dir, hdir, hk, habove, hlast⟩
    · obtain ⟨op', hop', hplan⟩ := hfrom op hop
      simp only [plan, Prod.mk.injEq] at hplan
      exact .inl ⟨op', hop', hplan.1.trans hp⟩
    · obtain ⟨dir', hdir', hplan⟩ := hfrom dir hdir
      simp only [plan, Prod.mk.injEq] at hplan
      rw [← hplan.1] at habove hlast
      exact .inr ⟨dir', hdir', hplan.2.1.trans hk, habove, hlast⟩

theorem isEmpty_take (c : Coalescer) : c.take.2.isEmpty = true := by
  rw [take]
  split_ifs with ho
  · rfl
  · simp only [isEmpty, Bool.not_eq_true] at ho ⊢
    rw [ho]
    rfl

theorem take_eq (ht : Tracks evs c) :
    c.take.1 = repairMovePairs c.planned ∧ c.take.1.map plan = c.planned.map plan := by
  have htake : c.take.1 = repairMovePairs c.planned := by
    rw [take, if_neg (by rw [ht.overflow]; decide), planned]
  exact ⟨htake, by rw [htake, map_repairMovePairs fun _ _ _ => rfl]⟩

theorem Tracks.collapses_take (ht : Tracks evs c) : Collapses evs c.take.1 :=
  ht.collapses.congr (take_eq ht).2

/-- **Completeness and order of a batch.**  After any events without an overflow the batch has at
most one operation for a path, in the order of the last events and as the events of the path say; a
path without one is below a later removal of the batch.  With an overflow the batch is a rescan of
the root. -/
theorem take_spec (c : Coalescer) (hc : c.isEmpty = true) (evs : List (FsEvent × ℤ)) :
    ((∀ x ∈ evs, x.1.kind ≠ .overflow) →
      Collapses (evs.map Prod.fst) (c.pushAll evs).take.1 ∧
      ∃ ops, (c.pushAll evs).take.1 = repairMovePairs ops ∧
        (c.pushAll evs).take.1.map plan = ops.map plan ∧
        ∀ op ∈ ops, ∃ r, (History.on (evs.map Prod.fst) op.path).reported = some r ∧
          op.change = r.kind.change ∧ op.cookie = eventCookie r) ∧
    ((∃ x ∈ evs, x.1.kind = .overflow) →
      (c.pushAll evs).take.1 = [{ kind := .rescan, path := [] }]) ∧
    (c.pushAll evs).take.2.isEmpty = true := by
  refine ⟨fun hevs => ?_, fun hov => ?_, isEmpty_take _⟩
  · have ht := tracks_pushAll hc hevs
    obtain ⟨htake, hplan⟩ := take_eq ht
    refine ⟨ht.collapses_take, _, htake, hplan, fun op hop => ?_⟩
    obtain ⟨e, he, hop⟩ := mem_planned hop
    obtain ⟨r, hr, hchange, hcookie⟩ := (ht.touched _ e he).1.change
    exact ⟨r, hr, by rw [hop]; exact hchange, by rw [hop]; exact hcookie⟩
  · rw [take, if_pos (overflow_pushAll hov)]

/-- A file is created, written and its directory removed: the batch is the removal. -/
theorem take_spec_removed :
    Coalescer.isEmpty {} = true ∧ Collapses
      [⟨.created, bytes "d/f", 0⟩, ⟨.modified, bytes "d/f", 0⟩, ⟨.removed, bytes "d", 0⟩]
      (pushAll {} [(⟨.created, bytes "d/f", 0⟩, 0), (⟨.modified, bytes "d/f", 0⟩, 1),
        (⟨.removed, bytes "d", 0⟩, 2)]).take.1 :=
  ⟨rfl, ((take_spec {} rfl [(⟨.created, bytes "d/f", 0⟩, 0), (⟨.modified, bytes "d/f", 0⟩, 1),
    (⟨.removed, bytes "d", 0⟩, 2)]).1 (by decide)).1⟩

end Coalescer

end WslDrive
