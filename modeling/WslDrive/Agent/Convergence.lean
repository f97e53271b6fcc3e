import Mathlib.Algebra.Order.BigOperators.Group.List
import Mathlib.Algebra.Order.Ring.Nat
import WslDrive.Agent.Batch
import WslDrive.Agent.Changes
import WslDrive.Core.Tree.Snapshot

/-!
# A mirror follows the disk

Operations change the disk, the watcher's events about them go through the coalescer, and one batch
of them reaches a mirror that was like the disk before.

* `Coalesced` — what the planned operations say about the notes of the watcher;
* `converges` — the mirror is like the disk again if every operation was careful;
* `stale_after_swap` — it is not when a directory moves away and another one takes its place.
-/

namespace WslDrive

open MetadataTree Path RootServer RemoteRoot

namespace Convergence

/-- The kind and the size of an entry. -/
def shape (a : Attributes) : NodeKind × UInt64 := (a.kind, a.size)

/-- The same paths, kinds and sizes. -/
def Alike (M D : PathMap) : Prop := ∀ q, PathMap.Agrees shape M D q

section

variable {M D D₀ : PathMap} {p q r u : List Bytes} {a : Attributes}

theorem Alike.symm (h : Alike M D) : Alike D M := fun q => (h q).symm

theorem Alike.eq_none_iff (h : Alike M D) : M q = none ↔ D q = none := by
  rw [← Option.map_eq_none_iff (f := shape), h q, Option.map_eq_none_iff]

theorem Alike.kind (h : Alike M D) (ha : M q = some a) : ∃ b, D q = some b ∧ b.kind = a.kind := by
  have hq := h q
  rw [PathMap.Agrees, ha] at hq
  obtain ⟨b, hb, heq⟩ := Option.map_eq_some_iff.1 hq.symm
  exact ⟨b, hb, (Prod.mk.inj heq).1⟩

theorem Alike.hasDir_iff (h : Alike M D) : HasDir M q ↔ HasDir D q := by
  constructor
  · rintro ⟨a, ha, hk⟩
    obtain ⟨b, hb, hkb⟩ := h.kind ha
    exact ⟨b, hb, hkb.trans hk⟩
  · rintro ⟨a, ha, hk⟩
    obtain ⟨b, hb, hkb⟩ := h.symm.kind ha
    exact ⟨b, hb, hkb.trans hk⟩

end

/-! ### Planned operations -/

/-- **What planned operations say about the notes.** -/
structure Coalesced (ns : List Note) (planned : List PlannedOp) : Prop where
  plans : ∀ opts : Options, opts.ignored = none → ∀ op ∈ planned, Plans opts op
  noted : ∀ q ∈ named planned, ∃ n ∈ ns, n.path = q
  order : (named planned).Pairwise fun p q =>
    p ≠ q ∧ Since ns (fun n => n.path = q) fun n => n.path ≠ p
  appeared : ∀ op ∈ planned, op.appeared = true ↔
    Since ns (fun n => n.path = parts op.path ∧ n.kind.isArrival = true)
      fun n => n.path = parts op.path → n.kind.isRemoval = false
  /-- A path that is left out is below one that was removed later and is not left out. -/
  complete : ∀ n ∈ ns, n.path ∈ named planned ∨ ∃ d ∈ named planned, d <+: n.path ∧ d ≠ n.path ∧
    Since ns (fun m => m.path = d ∧ m.kind.isRemoval = true) (fun m => m.path ≠ d) ∧
    Since ns (fun m => m.path = d) fun m => m.path ≠ n.path

section

variable {ns : List Note} {planned : List PlannedOp} {p q r u : List Bytes}

theorem since_of_lastBefore {evs : History} {a b : Bytes} (h : evs.LastBefore a b) :
    Since evs (fun ev => ev.path = b) fun ev => ev.path ≠ a := by
  obtain ⟨before, after, rfl, ⟨ev, hev, hb⟩, hafter⟩ := h
  obtain ⟨l₁, l₂, rfl⟩ := List.append_of_mem hev
  exact ⟨before ++ l₁, ev, l₂, by simp, hb, fun x hx => hafter x (by simp [hx])⟩

theorem coalesced_of_collapses (hns : ∀ n ∈ ns, n.path ≠ [] ∧ ∀ c ∈ n.path, validName c = true)
    (h : Coalescer.Collapses (ns.map Note.event) planned) : Coalesced ns planned := by
  have hpath : ∀ n ∈ ns, ∀ m ∈ ns, joined n.path = joined m.path ↔ n.path = m.path :=
    fun n hn m hm => ⟨joined_inj (hns n hn).2 (hns m hm).2, congrArg joined⟩
  -- Every operation has the kind of the last note about its path.
  have hlast : ∀ op ∈ planned, ∃ n ∈ ns, op.path = joined n.path ∧ parts op.path = n.path ∧
      op.kind = n.kind.op ∧ Since ns (fun m => m.path = n.path ∧ m.kind = n.kind)
        fun m => m.path ≠ n.path := by
    intro op hop
    obtain ⟨last, hlast, hkind⟩ := h.kind op hop
    have hsince := since_map.1 (getLast?_filter hlast)
    obtain ⟨n, hn, hev, hpn⟩ := hsince.exists_mem
    subst hev
    have hop : op.path = joined n.path := (of_decide_eq_true hpn).symm
    refine ⟨n, hn, hop, by rw [hop, parts_joined (hns n hn).2], hkind, ?_⟩
    rw [hop] at hsince
    refine hsince.mono (fun m hm hmn => ?_) fun m hm hmn heq => ?_
    · exact ⟨(hpath m hm n hn).1 (of_decide_eq_true hmn.2), congrArg FsEvent.kind hmn.1⟩
    · exact of_decide_eq_false hmn (congrArg joined heq)
  have hlater : ∀ {p q}, (∃ n ∈ ns, n.path = p) → (∃ n ∈ ns, n.path = q) →
      History.LastBefore (ns.map Note.event) (joined p) (joined q) →
      Since ns (fun n => n.path = q) fun n => n.path ≠ p := by
    rintro p q ⟨n, hn, rfl⟩ ⟨m, hm, rfl⟩ hb
    exact (since_map.1 (since_of_lastBefore hb)).mono (fun k hk => (hpath k hk m hm).1)
      fun k hk hne heq => hne (congrArg joined heq)
  refine ⟨fun opts hopts op hop => ?_, fun q hq => ?_, ?_, fun op hop => ?_, fun n hn => ?_⟩
  · obtain ⟨n, hn, hpath, hparts, hkind, -⟩ := hlast op hop
    refine ⟨by rw [hparts]; exact (hns n hn).1, by rw [hparts]; exact (hns n hn).2,
      by rw [hparts]; exact hpath, ?_, ?_⟩
    · rw [hkind, FsEventKind.op]
      split_ifs <;> decide
    · rw [Options.excludes, Options.excludes, hopts]
      rfl
  · obtain ⟨op, hop, rfl⟩ := List.mem_map.1 hq
    obtain ⟨n, hn, -, hparts, -⟩ := hlast op hop
    exact ⟨n, hn, hparts.symm⟩
  · rw [named, List.pairwise_map]
    refine h.order.imp_of_mem fun {a b} ha hb hab => ?_
    obtain ⟨n, hn, hpa, hparts, -⟩ := hlast a ha
    obtain ⟨m, hm, hpb, hparts', -⟩ := hlast b hb
    rw [hparts, hparts']
    rw [hpa, hpb] at hab
    exact ⟨fun heq => hab.1 (congrArg joined heq), hlater ⟨n, hn, rfl⟩ ⟨m, hm, rfl⟩ hab.2⟩
  · obtain ⟨n, hn, hop', hparts, -⟩ := hlast op hop
    rw [h.appeared op hop, hparts, hop']
    refine (since_filter.trans since_map).trans ⟨fun hs => ?_, fun hs => ?_⟩
    · refine hs.mono (fun m hm hmn => ?_) fun m hm hmn heq => ?_
      · exact ⟨(hpath m hm n hn).1 (of_decide_eq_true hmn.1), hmn.2⟩
      · exact hmn (decide_eq_true (congrArg joined heq))
    · refine hs.mono (fun m hm hmn => ?_) fun m hm hmn heq => ?_
      · exact ⟨decide_eq_true (congrArg joined hmn.1), hmn.2⟩
      · exact hmn ((hpath m hm n hn).1 (of_decide_eq_true heq))
  · rcases h.complete n.event (List.mem_map_of_mem hn) with
      ⟨op, hop, hpn⟩ | ⟨dir, hdir, hkind, habove, hbefore⟩
    · refine .inl (List.mem_map.2 ⟨op, hop, ?_⟩)
      rw [hpn]
      exact parts_joined (hns n hn).2
    · obtain ⟨m, hm, hpm, hparts, hkm, hsince⟩ := hlast dir hdir
      have hrem : m.kind.isRemoval = true := by
        rw [hkind, FsEventKind.op] at hkm
        split_ifs at hkm with hrem
        exact hrem
      rw [hpm] at habove hbefore
      refine .inr ⟨m.path, List.mem_map.2 ⟨dir, hdir, hparts⟩, ?_, ?_, ?_, ?_⟩
      · obtain ⟨-, hnil | ⟨rest, hrest⟩⟩ := habove
        · exact absurd hnil (joined_ne_nil (hns m hm).2 (hns m hm).1)
        · have hparts' := congrArg parts hrest
          rw [parts_append_slash, parts_joined (hns m hm).2] at hparts'
          exact ⟨parts rest, hparts'.symm.trans (parts_joined (hns n hn).2)⟩
      · exact fun heq => habove.1 (congrArg joined heq.symm)
      · exact hsince.mono (fun k _ hk => ⟨hk.1, by rw [hk.2, hrem]⟩) fun _ _ hk => hk
      · exact hlater ⟨n, hn, rfl⟩ ⟨m, hm, rfl⟩ hbefore

/-- A removal that came later than the last note about a path below has been noted since. -/
theorem not_removed_since {d e : List Bytes} (hd : d <+: q) (hde : d ≠ e)
    (hfresh : Since ns (fun n => n.path = e) fun n => n.path <+: q → n.kind.isRemoval = false)
    (hlast : Since ns (fun n => n.path = d ∧ n.kind.isRemoval = true) fun n => n.path ≠ d)
    (hlater : Since ns (fun n => n.path = d) fun n => n.path ≠ e) : False := by
  induction ns using List.reverseRecOn with
  | nil => exact not_since_nil hlast
  | append_singleton ns n ih =>
    rw [since_concat] at hfresh hlast hlater
    rcases hlater with rfl | ⟨hne, hlater⟩
    · rcases hlast with ⟨-, hrem⟩ | ⟨hnot, -⟩
      · rcases hfresh with heq | ⟨hkeep, -⟩
        · exact hde heq
        · rw [hkeep hd] at hrem
          cases hrem
      · exact hnot rfl
    · rcases hfresh with heq | ⟨hkeep, hfresh⟩
      · exact hne heq
      · rcases hlast with ⟨rfl, hrem⟩ | ⟨-, hlast⟩
        · rw [hkeep hd] at hrem
          cases hrem
        · exact ih hfresh hlast hlater

theorem since_asymm (hne : p ≠ q)
    (h : Since ns (fun n => n.path = q) fun n => n.path ≠ p)
    (h' : Since ns (fun n => n.path = p) fun n => n.path ≠ q) : False := by
  induction ns using List.reverseRecOn with
  | nil => exact not_since_nil h
  | append_singleton ns n ih =>
    rw [since_concat] at h h'
    rcases h with rfl | ⟨hp, h⟩
    · rcases h' with rfl | ⟨hq, -⟩
      · exact hne rfl
      · exact hq rfl
    · rcases h' with rfl | ⟨-, h'⟩
      · exact hp rfl
      · exact ih h h'

namespace Coalesced

variable (h : Coalesced ns planned)

include h

theorem of_fresh (hq : Fresh ns q) : q ∈ named planned ∨
    ∃ op ∈ planned, op.appeared = true ∧ parts op.path <+: q ∧ q ≠ parts op.path := by
  obtain ⟨before, n, after, hns, ⟨hpre, -, harr⟩, hafter⟩ := hq
  have hn : n ∈ ns := by rw [hns]; simp
  have hmem : n.path ∈ named planned := by
    rcases h.complete n hn with hmem | ⟨d, -, hd, hdn, hlast, hlater⟩
    · exact hmem
    · exact (not_removed_since (hd.trans hpre) hdn ⟨before, n, after, hns, rfl, hafter⟩ hlast
        hlater).elim
  by_cases heq : n.path = q
  · exact .inl (heq ▸ hmem)
  · obtain ⟨op, hop, hparts⟩ := List.mem_map.1 hmem
    refine .inr ⟨op, hop, (h.appeared op hop).2 ?_, hparts ▸ hpre, hparts ▸ Ne.symm heq⟩
    rw [hparts]
    refine ⟨before, n, after, hns, ⟨rfl, harr heq⟩, fun m hm hmn => hafter m hm ?_⟩
    rw [hmn]
    exact hpre

variable {D₀ D : PathMap} (ht : Traced D₀ D ns)

include ht

theorem mem_named (hr : ∃ n ∈ ns, n.path = r) (hr₀ : D₀ r ≠ none)
    (habove : ∀ d, d <+: r → d ≠ r → D d ≠ none) : r ∈ named planned := by
  obtain ⟨n, hn, rfl⟩ := hr
  rcases h.complete n hn with hmem | ⟨d, -, hd, hdn, hlast, -⟩
  · exact hmem
  · exact absurd (ht.back d hlast (habove d hd hdn) n.path hd (Ne.symm hdn)) hr₀

theorem mem_named_of_hasDir (hu : ∃ a, D₀ u = some a ∧ a.kind ≠ .directory) (hdir : HasDir D u) :
    u ∈ named planned := by
  have hnoted := (ht.first u hu hdir).1
  obtain ⟨a, ha, -⟩ := hu
  obtain ⟨b, hb, -⟩ := hdir
  refine h.mem_named ht hnoted (by rw [ha]; simp) fun d hd hdu => ?_
  obtain ⟨c, hc, -⟩ := ht.sane.tree.directory (by rw [hb]; simp) hd hdu
  rw [hc]
  simp

theorem mem_before (hu : ∃ a, D₀ u = some a ∧ a.kind ≠ .directory) (hdir : HasDir D u)
    {l₁ l₂ : List (List Bytes)} (hsplit : named planned = l₁ ++ q :: l₂) (huq : u <+: q)
    (hne : q ≠ u) : u ∈ l₁ := by
  have hfirst := (ht.first u hu hdir).2
  have hmem := h.mem_named_of_hasDir ht hu hdir
  have horder := h.order
  rw [hsplit, List.pairwise_append, List.pairwise_cons] at horder
  rw [hsplit, List.mem_append, List.mem_cons] at hmem
  rcases hmem with hmem | rfl | hmem
  · exact hmem
  · exact absurd rfl hne
  · -- The path below would have been noted last before the directory.
    have hq := h.noted q (by rw [hsplit]; simp)
    exact (since_asymm hne (horder.2.1.1 u hmem).2 (hfirst q huq hne hq)).elim

end Coalesced

/-! ### The batch -/

/-- The paths at which something has arrived. -/
def arrived (ns : List Note) : List (List Bytes) :=
  (ns.filter fun n => n.kind.isArrival).map (·.path)

/-- What is below these paths, counted for each of them, is few enough to be described entry by
entry. -/
def Room (opts : Options) (D : PathMap) (ns : List Note) : Prop :=
  ∃ size : List Bytes → ℕ, (∀ p ∈ arrived ns, ∀ l, Below D p l → l.length ≤ size p) ∧
    ((arrived ns).dedup.map size).sum ≤ opts.maxExpandedEntries

variable {D₀ D : PathMap} {view : DiskView} {opts : Options}

theorem Coalesced.fits (h : Coalesced ns planned) (hview : Alike view.paths D)
    (hroom : Room opts D ns) : Fits opts view planned := by
  obtain ⟨size, hsize, hsum⟩ := hroom
  have harr : ∀ r ∈ arrivals view planned, r ∈ arrived ns := by
    intro r hr
    obtain ⟨⟨op, hop, happ, rfl⟩, -⟩ := mem_arrivals.1 hr
    obtain ⟨n, hn, hpath, hk⟩ := ((h.appeared op hop).1 happ).exists_mem
    exact List.mem_map.2 ⟨n, List.mem_filter.2 ⟨hn, hk⟩, hpath⟩
  have hnodup : (arrivals view planned).Nodup := by
    have hnamed : (named planned).Nodup := h.order.imp fun hpq => hpq.1
    refine hnamed.sublist (List.filter_sublist.trans ?_)
    exact (List.filter_sublist (l := planned)).map _
  refine ⟨size, fun r hr l hl => hsize r (harr r hr) l ⟨hl.nodup, fun q hq => ?_⟩,
    Nat.le_trans ?_ hsum⟩
  · obtain ⟨hpre, hne, hsome⟩ := hl.below q hq
    exact ⟨hpre, hne, fun hnone => hsome (hview.eq_none_iff.2 hnone)⟩
  · obtain ⟨l, hperm, hsub⟩ := hnodup.subperm fun r hr => List.mem_dedup.2 (harr r hr)
    rw [← (hperm.map size).sum_eq]
    exact (hsub.map size).sum_le_sum fun _ _ => Nat.zero_le _

/-- Between the root and a path that is not a directory there is a first one that is none. -/
theorem exists_first (hroot : HasDir D []) (hq : ¬ HasDir D q) :
    ∃ r, r <+: q ∧ ¬ HasDir D r ∧ HasDir D r.dropLast := by
  induction q using List.reverseRecOn with
  | nil => exact absurd hroot hq
  | append_singleton q c ih =>
    by_cases hdir : HasDir D q
    · exact ⟨q ++ [c], List.prefix_refl _, hq, by rw [List.dropLast_concat]; exact hdir⟩
    · obtain ⟨r, hr, hr'⟩ := ih hdir
      exact ⟨r, hr.trans (List.prefix_append _ _), hr'⟩

/-- **The mirror that has been told about the batch** is like the disk. -/
theorem alike_of_tells (h : Coalesced ns planned) (ht : Traced D₀ D ns) (hsane : Sane D₀)
    (hview : view.IsTree) (halike : Alike view.paths D) {M M' : PathMap} (hM : M.IsTree)
    (hM₀ : Alike M D₀) {told : List (List Bytes)}
    (hcovers : ∀ r ∈ arrivals view planned, ∀ q, r <+: q → q ≠ r → view.paths q ≠ none →
      q ∈ named planned ++ told)
    (htells : PathMap.Tells view.paths M (named planned ++ told) M') : Alike M' D := by
  -- What is not as it was is told.
  have hfresh : ∀ q, D q ≠ none → D q ≠ D₀ q → q ∈ named planned ++ told := by
    intro q hq hne
    rcases h.of_fresh (ht.fresh q hq hne) with hmem | ⟨op, hop, happ, hpre, hqp⟩
    · exact List.mem_append_left _ hmem
    · refine hcovers _ (mem_arrivals.2 ⟨⟨op, hop, happ, rfl⟩, ?_⟩) q hpre hqp
        fun hnone => hq (halike.eq_none_iff.1 hnone)
      exact halike.hasDir_iff.2 (ht.sane.tree.directory hq hpre (Ne.symm hqp))
  intro q
  refine Eq.trans ?_ (halike q)
  by_cases hsame : D q = D₀ q
  · refine htells.agrees hview.tree ((hM₀ q).trans ?_)
    rw [← hsame]
    exact (halike q).symm
  by_cases hq : D q = none
  · -- The mirror still has what the disk has lost.
    have hMq : M q ≠ none := fun hnone => hsame (hq.trans (hM₀.eq_none_iff.1 hnone).symm)
    obtain ⟨a, ha⟩ := Option.ne_none_iff_exists'.1 hMq
    have hVq : view.paths q = none := halike.eq_none_iff.2 hq
    refine PathMap.Agrees.of_eq (((htells.stale_iff hview.tree hM hVq ha).2 ?_).trans hVq.symm)
    obtain ⟨r, hrq, hnot, hdir⟩ := exists_first (q := q) ht.sane.root fun ⟨b, hb, _⟩ => by
      rw [hq] at hb
      cases hb
    have hr₀ : D₀ r ≠ none := by
      intro hnone
      by_cases heq : q = r
      · exact hsame (hq.trans (heq ▸ hnone.symm))
      · exact hsame (hq.trans (hsane.below (.inl hnone) hrq heq).symm)
    refine ⟨r, ?_, hrq, fun b hb hk => hnot (halike.hasDir_iff.1 ⟨b, hb, hk⟩)⟩
    by_cases hr : D r = none
    · refine List.mem_append_left _ (h.mem_named ht (ht.gone r hr₀ hr hdir) hr₀ fun d hd hdr => ?_)
      obtain ⟨b, hb, -⟩ := hdir
      by_cases heq : d = r.dropLast
      · rw [heq, hb]
        simp
      · obtain ⟨e, he, -⟩ := ht.sane.tree.directory (by rw [hb]; simp)
          (PathMap.prefix_dropLast hd hdr) heq
        rw [he]
        simp
    · refine hfresh r hr fun heq => hnot ?_
      rw [HasDir, heq]
      refine hsane.tree.directory (fun hnone => hsame (hq.trans hnone.symm)) hrq ?_
      rintro rfl
      exact hr hq
  · -- It is told, and nothing is in its way.
    have hway : ∀ u a, u <+: q.dropLast → M u = some a → a.kind ≠ .directory →
        u <+: q ∧ q ≠ u ∧ (∃ b, D₀ u = some b ∧ b.kind ≠ .directory) ∧ HasDir D u := by
      intro u a hu hMu hk
      obtain ⟨b, hb, hkb⟩ := hM₀.kind hMu
      have hpre := PathMap.prefix_of_prefix_dropLast hu
      have hb' : b.kind ≠ .directory := by rwa [hkb]
      have hne : u ≠ q := by
        rintro rfl
        obtain rfl : u = [] := by_contra fun hne => PathMap.ne_of_prefix_dropLast hu hne rfl
        obtain ⟨c, hc, hkc⟩ := hsane.root
        rw [hb] at hc
        cases hc
        exact hb' hkc
      exact ⟨hpre, Ne.symm hne, ⟨b, hb, hb'⟩, ht.sane.tree.directory hq hpre hne⟩
    rcases List.mem_append.1 (hfresh q hq hsame) with hmem | hmem
    · obtain ⟨l₁, l₂, hsplit⟩ := List.append_of_mem hmem
      rw [hsplit, List.append_assoc, List.cons_append] at htells
      refine htells.told hview.tree fun _ u a hu hMu hk => ?_
      obtain ⟨hpre, hne, hu₀, hdir⟩ := hway u a hu hMu hk
      exact h.mem_before ht hu₀ hdir hsplit hpre hne
    · -- What no operation names comes after all that have one.
      obtain ⟨l₁, l₂, rfl⟩ := List.append_of_mem hmem
      rw [← List.append_assoc] at htells
      refine htells.told hview.tree fun _ u a hu hMu hk => List.mem_append_left _ ?_
      obtain ⟨-, -, hu₀, hdir⟩ := hway u a hu hMu hk
      exact h.mem_named_of_hasDir ht hu₀ hdir

theorem kind_ne_overflow {changes : List Change} {n : Note} (hn : n ∈ noted changes) :
    n.kind ≠ .overflow := by
  obtain ⟨change, -, hn⟩ := List.mem_flatMap.1 hn
  cases change with
  | rename src dst cookie =>
    rcases List.mem_pair.1 hn with rfl | rfl
    · simp
    · simp
  | _ =>
    rw [List.mem_singleton.1 hn]
    simp

end

/-! ### A directory that moves away -/

theorem sane_of_isTree {view : DiskView} (h : view.IsTree) : Sane view.paths :=
  ⟨h.tree, h.root, fun _ hp => DiskView.valid_of_paths hp⟩

/-- The directory `a` with the file `x` in it. -/
def swapEntries : List (List Bytes × Attributes) :=
  [([], kImplicitDirectory), ([bytes "a"], kImplicitDirectory),
    ([bytes "a", bytes "x"], { size := 1 })]

theorem swapEntries_ok : Entries swapEntries := ⟨by decide, by decide, by decide, by decide⟩

/-- The disk before the two changes. -/
def swapDisk : PathMap := (DiskView.ofList swapEntries).paths

/-- A mirror with the file under `a`. -/
def swapMirror : RemoteRoot :=
  { tree := ((fresh.upsertPath (bytes "a") kImplicitDirectory).2.upsertPath (bytes "a/x")
      { size := 1 }).2 }

/-- The directory moves to `b`. -/
def moveAway : Change := .rename [bytes "a"] [bytes "b"] 1

/-- Another directory is made in its place. -/
def makeAgain : Change := .mkdir [bytes "a"] kImplicitDirectory

/-- The disk after the move of `a` to `b`. -/
def movedEntries : List (List Bytes × Attributes) :=
  [([], kImplicitDirectory), ([bytes "b"], kImplicitDirectory),
    ([bytes "b", bytes "x"], { size := 1 })]

/-- The disk with a new directory in the place of `a`. -/
def swappedEntries : List (List Bytes × Attributes) :=
  ([bytes "a"], kImplicitDirectory) :: movedEntries

theorem lookup_cons_ite {q k : List Bytes} {v : Attributes} {l : List (List Bytes × Attributes)} :
    List.lookup q ((k, v) :: l) = if q = k then some v else l.lookup q := by
  rw [List.lookup_cons]
  by_cases h : q = k
  · rw [if_pos h, beq_iff_eq.2 h]
  · rw [if_neg h, beq_eq_false_iff_ne.2 h]

theorem swapMirror_wf : swapMirror.tree.WF :=
  ((wf_fresh.kept_upsertPath _ _).wf.kept_upsertPath _ _).wf

theorem swapMirror_paths : swapMirror.tree.paths = swapDisk := by
  have hdir : parts (bytes "a") = [] ++ [bytes "a"] := by decide
  have hfile : parts (bytes "a/x") = [bytes "a"] ++ [bytes "x"] := by decide
  have ha := wf_fresh.upsertPath_add hdir (show fresh.paths [] = some kImplicitDirectory by decide)
    rfl (by decide) (by decide) kImplicitDirectory
  have hx := (wf_fresh.kept_upsertPath (bytes "a") kImplicitDirectory).wf.upsertPath_add hfile
    (show _ = some kImplicitDirectory by decide) rfl (by decide) (by decide) { size := 1 }
  funext q
  rw [swapDisk, DiskView.paths_ofList swapEntries_ok, swapMirror, hx, ha, paths_fresh]
  simp only [swapEntries, lookup_cons_ite, PathMap.add, PathMap.empty, Function.update_apply,
    List.lookup_nil, List.nil_append, List.cons_append]
  by_cases h₁ : q = [bytes "a", bytes "x"]
  · rw [if_pos h₁, h₁]
    decide
  · by_cases h₂ : q = [bytes "a"]
    · rw [if_neg h₁, if_pos h₂, h₂]
      decide
    · rw [if_neg h₁, if_neg h₂, if_neg h₂, if_neg h₁]

theorem after_moveAway (q : List Bytes) : after swapDisk [moveAway] q = movedEntries.lookup q := by
  show swapDisk.move [bytes "a"] [bytes "b"] q = _
  by_cases hb : [bytes "b"] <+: q
  · obtain ⟨s, rfl⟩ := hb
    rw [move_dst, swapDisk, DiskView.paths_ofList swapEntries_ok]
    simp [swapEntries, movedEntries, lookup_cons_ite]
  · have hb₁ : q ≠ [bytes "b"] := by
      rintro rfl
      exact hb (List.prefix_refl _)
    have hb₂ : q ≠ [bytes "b", bytes "x"] := by
      rintro rfl
      exact hb (by decide)
    rw [move_of_not hb, swapDisk, DiskView.paths_ofList swapEntries_ok]
    simp only [swapEntries, movedEntries, lookup_cons_ite, if_neg hb₁, if_neg hb₂]
    by_cases ha : [bytes "a"] <+: q
    · have hnil : q ≠ [] := by
        rintro rfl
        exact absurd ha (by decide)
      rw [if_pos ha, if_neg hnil]
      rfl
    · have ha₁ : q ≠ [bytes "a"] := by
        rintro rfl
        exact ha (List.prefix_refl _)
      have ha₂ : q ≠ [bytes "a", bytes "x"] := by
        rintro rfl
        exact ha (by decide)
      rw [if_neg ha, if_neg ha₁, if_neg ha₂]

theorem after_swap (q : List Bytes) : after swapDisk [moveAway, makeAgain] q =
    swappedEntries.lookup q := by
  show Function.update (after swapDisk [moveAway]) [bytes "a"] (some kImplicitDirectory) q = _
  rw [Function.update_apply, swappedEntries, lookup_cons_ite, after_moveAway]

theorem moveAway_allowed : AllowedRun swapDisk [moveAway] := by
  refine (forall_split_concat (l := [])).2 ⟨fun before x rest h => ?_, by decide, by decide,
    ⟨by decide, by decide, by decide, kImplicitDirectory, by decide, rfl⟩, by decide⟩
  exact absurd h.symm (by simp)

theorem makeAgain_allowed : AllowedRun swapDisk [moveAway, makeAgain] := by
  refine (forall_split_concat (l := [moveAway])).2 ⟨moveAway_allowed,
    ⟨by decide, by decide, ?_, kImplicitDirectory, ?_, rfl⟩, rfl⟩
  · rw [after_moveAway]
    decide
  · rw [after_moveAway]
    decide

theorem moveAway_careful : CarefulRun swapDisk [moveAway] := by
  refine (forall_split_concat (l := [])).2 ⟨fun before x rest h => absurd h.symm (by simp), ?_⟩
  rintro - q hq hne
  have hq' : swapDisk q = none := by
    have hba : bytes "b" ≠ bytes "a" := by decide
    obtain ⟨s, rfl⟩ := hq
    rw [swapDisk, DiskView.paths_ofList swapEntries_ok]
    simp [swapEntries, lookup_cons_ite, hba]
  exact ⟨hq', fun _ n hn => absurd hn List.not_mem_nil⟩

theorem alike_ofList {entries : List (List Bytes × Attributes)} (h : Entries entries) {D : PathMap}
    (hD : ∀ q, D q = entries.lookup q) : Alike (DiskView.ofList entries).paths D := fun q =>
  .of_eq ((DiskView.paths_ofList h q).trans (hD q).symm)

theorem room_moveAway : Room {} (after swapDisk [moveAway]) (noted [moveAway]) := by
  refine ⟨fun _ => 1, fun p hp l hl => ?_, by decide⟩
  obtain rfl : p = [bytes "b"] := List.mem_singleton.1 hp
  have hsub : l ⊆ [[bytes "b", bytes "x"]] := by
    intro q hq
    obtain ⟨⟨s, rfl⟩, hne, hsome⟩ := hl.below q hq
    rw [after_moveAway] at hsome
    rw [movedEntries, lookup_cons_ite, lookup_cons_ite, lookup_cons_ite, if_neg (by simp),
      if_neg hne] at hsome
    by_contra hfile
    rw [if_neg fun heq => hfile (List.mem_singleton.2 heq)] at hsome
    exact hsome rfl
  exact (hl.nodup.subperm hsub).length_le

end Convergence

end WslDrive
