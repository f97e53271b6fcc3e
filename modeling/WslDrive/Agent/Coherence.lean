import WslDrive.Agent.EventFilter
import WslDrive.Core.Collapse
import WslDrive.Core.MovePairs
import WslDrive.Core.RoundTrip

/-!
# The operations of a batch are coherent

What an operation says about its path is decided in stages: the events of the path collapse into
one entry, the halves of moves are repaired, the disk overrules the event, the subtrees of new
directories are added, and the halves are repaired again.  The codec writes attributes for upserts
only and cookies for moves only, so a batch arrives as it was sent if no stage leaves them
elsewhere.

* `Coalescer.coherent_take` — the planned operations;
* `RootServer.coherent_resolveOp` — the disk's word;
* `RootServer.coherent_appendSubtrees` — subtrees;
* `RootServer.coherent_flush` — the batch, and that it survives the codec.
-/

namespace WslDrive

open Coalescer

/-! ### Planned operations -/

/-- A planned operation: only a rescan has no change, and only a move has a cookie. -/
structure PlannedOp.Coherent (op : PlannedOp) : Prop where
  rescan : op.kind = .rescan → op.change = .unknown
  change : op.kind ≠ .rescan → op.change ≠ .unknown
  cookie : op.change.isMove = false → op.cookie = 0

theorem PlannedOp.coherent_repair {ops : List PlannedOp} (h : ∀ op ∈ ops, op.Coherent) :
    ∀ op ∈ repairMovePairs ops, op.Coherent := by
  intro op hop
  obtain ⟨op₀, hop₀, rfl | ⟨hc, rfl⟩ | ⟨hc, rfl⟩⟩ := exists_of_mem_repair hop
  · exact h op hop₀
  all_goals
    have hk : op₀.kind ≠ .rescan := fun hk => by
      have hunknown := (h op₀ hop₀).rescan hk
      rw [show op₀.change = _ from hc] at hunknown
      cases hunknown
    exact ⟨fun hr => absurd hr hk, fun _ => ChangeKind.noConfusion, fun _ => rfl⟩

namespace Coalescer

theorem eventCookie_eq_zero {ev : FsEvent} (h : ev.kind.change.isMove = false) :
    eventCookie ev = 0 := by
  rw [eventCookie]
  cases hk : ev.kind <;> rw [hk] at h <;> first | rfl | cases h

theorem change_ne_unknown {k : FsEventKind} (h : k ≠ .overflow) : k.change ≠ .unknown := by
  cases k <;> first | exact absurd rfl h | decide

theorem mem_of_reported {h : History} {r : FsEvent} (hr : h.reported = some r) : r ∈ h := by
  rcases List.eq_nil_or_concat h with rfl | ⟨h, ev, rfl⟩
  · cases hr
  rw [List.concat_eq_append] at hr ⊢
  rw [History.reported_snoc] at hr
  obtain rfl := Option.some.inj hr
  split_ifs
  · cases hl : (History.lastReal h).filter fun ev => ev.kind.isArrival with
    | none => simp
    | some r =>
      have hmem := List.mem_of_getLast? (Option.filter_eq_some_iff.1 hl).1
      exact List.mem_append_left _ (List.mem_filter.1 hmem).1
  · simp

/-- **The planned operations are coherent**, whatever events were pushed. -/
theorem coherent_take (c : Coalescer) (hc : c.isEmpty = true) (evs : List (FsEvent × ℤ)) :
    ∀ op ∈ (c.pushAll evs).take.1, op.Coherent := by
  by_cases hov : ∃ x ∈ evs, x.1.kind = .overflow
  · rw [take, if_pos (overflow_pushAll hov)]
    intro op hop
    rw [List.mem_singleton.1 hop]
    exact ⟨fun _ => rfl, fun h => absurd rfl h, fun _ => rfl⟩
  · have hevs : ∀ x ∈ evs, x.1.kind ≠ .overflow := fun x hx hk => hov ⟨x, hx, hk⟩
    have ht := tracks_pushAll hc hevs
    rw [(take_eq ht).1]
    refine PlannedOp.coherent_repair fun op hop => ?_
    obtain ⟨e, he, heq⟩ := mem_planned hop
    obtain ⟨⟨last, -, hkind⟩, -, r, hr, hchange, hcookie⟩ := (ht.touched _ e he).1
    have hk : op.kind = last.kind.op := by rw [heq]; exact hkind
    have hch : op.change = r.kind.change := by rw [heq]; exact hchange
    have hco : op.cookie = eventCookie r := by rw [heq]; exact hcookie
    obtain ⟨⟨ev, now⟩, hmem, rfl⟩ := List.mem_map.1 (History.mem_on.1 (mem_of_reported hr)).1
    refine ⟨fun hr => ?_, fun _ => ?_, fun hm => ?_⟩
    · rw [hk, FsEventKind.op] at hr
      split_ifs at hr
    · rw [hch]
      exact change_ne_unknown (hevs _ hmem)
    · rw [hco]
      exact eventCookie_eq_zero (by rw [← hch]; exact hm)

end Coalescer

/-! ### Operations of a batch -/

/-- An operation as peers expect it. -/
structure InvalidationOp.Coherent (op : InvalidationOp) : Prop where
  verdict : (op.kind = .upsert ∧ op.change ∈ [.created, .modified, .movedTo]) ∨
    (op.kind = .remove ∧ op.change ∈ [.removed, .movedFrom] ∧ op.attr = {}) ∨
    (op.kind = .rescan ∧ op.change = .unknown ∧ op.attr = {})
  cookie : op.change.isMove = false → op.cookie = 0

theorem InvalidationOp.Coherent.honest {op : InvalidationOp} (h : op.Coherent)
    (hs : Proto.Sized op.path) : Proto.HonestOp op := by
  refine ⟨hs, fun hk => ?_, h.cookie⟩
  rcases h.verdict with ⟨hu, -⟩ | ⟨-, -, hattr⟩ | ⟨-, -, hattr⟩
  · exact absurd hu hk
  · exact hattr
  · exact hattr

theorem InvalidationOp.coherent_repair {ops : List InvalidationOp} (h : ∀ op ∈ ops, op.Coherent) :
    ∀ op ∈ repairMovePairs ops, op.Coherent := by
  intro op hop
  obtain ⟨op₀, hop₀, rfl | ⟨hc, rfl⟩ | ⟨hc, rfl⟩⟩ := exists_of_mem_repair hop
  · exact h op hop₀
  -- only a removal is a `movedFrom`, and only an upsert a `movedTo`
  · have hc : op₀.change = .movedFrom := hc
    rcases (h op₀ hop₀).verdict with ⟨-, hu⟩ | ⟨hk, -, hattr⟩ | ⟨-, hu, -⟩
    · rw [hc] at hu
      simp at hu
    · exact ⟨.inr (.inl ⟨hk, List.mem_cons_self, hattr⟩), fun _ => rfl⟩
    · rw [hc] at hu
      cases hu
  · have hc : op₀.change = .movedTo := hc
    rcases (h op₀ hop₀).verdict with ⟨hk, -⟩ | ⟨-, hu, -⟩ | ⟨-, hu, -⟩
    · exact ⟨.inl ⟨hk, List.mem_cons_self⟩, fun _ => rfl⟩
    · rw [hc] at hu
      simp at hu
    · rw [hc] at hu
      cases hu

namespace RootServer

open Scanner

variable {opts : Options} {mem : Storage} {view : DiskView} {op : PlannedOp} {out : InvalidationOp}

/-- **The disk overrules the event**, and the operation stays coherent. -/
theorem coherent_resolveOp (h : op.Coherent) {attr : Option Attributes}
    (hout : resolveOp op attr = some out) : out.Coherent := by
  rw [resolveOp.eq_def] at hout
  by_cases hk : op.kind = .rescan
  · rw [if_pos hk] at hout
    obtain rfl := Option.some.inj hout
    exact ⟨.inr (.inr ⟨hk, h.rescan hk, rfl⟩), h.cookie⟩
  · rw [if_neg hk] at hout
    cases attr with
    | none =>
      obtain rfl := Option.some.inj hout
      by_cases hgone : op.change ≠ .movedFrom
      · rw [if_pos hgone, if_pos hgone]
        exact ⟨.inr (.inl ⟨rfl, by simp, rfl⟩), fun _ => rfl⟩
      · rw [if_neg hgone, if_neg hgone]
        exact ⟨.inr (.inl ⟨rfl, by simp [not_not.1 hgone], rfl⟩), h.cookie⟩
    | some a =>
      dsimp only at hout
      split_ifs at hout with hother hgone
      · obtain rfl := Option.some.inj hout
        exact ⟨.inl ⟨rfl, by simp⟩, fun _ => rfl⟩
      · obtain rfl := Option.some.inj hout
        refine ⟨.inl ⟨rfl, ?_⟩, h.cookie⟩
        have hchange := h.change hk
        cases hc : op.change <;> simp_all

theorem coherent_forwarded {planned : List PlannedOp} (h : ∀ op ∈ planned, op.Coherent) :
    ∀ out ∈ forwarded opts view planned, out.Coherent := by
  intro out hout
  obtain ⟨op, hop, hout⟩ := mem_forwarded_iff.1 hout
  rw [resolveStep] at hout
  split_ifs at hout
  · cases hout
  · cases hr : resolveOp op (view.attributes op.path) with
    | none =>
      rw [hr] at hout
      cases hout
    | some out' =>
      rw [hr] at hout
      obtain rfl := List.mem_singleton.1 hout
      exact coherent_resolveOp (h op hop) hr

theorem coherent_onEntry (opts : Options) (mem : Storage) (present : List Bytes) (x : Expansion)
    (e : SnapshotEntry) (h : ∀ op ∈ x.ops, op.Coherent) :
    ∀ op ∈ (x.onEntry opts mem present e).ops, op.Coherent := by
  intro op hop
  rw [Expansion.onEntry] at hop
  dsimp only at hop
  split_ifs at hop
  · rcases List.mem_append.1 hop with hop | hop
    · exact h op hop
    · rw [List.mem_singleton.1 hop]
      exact ⟨.inl ⟨rfl, List.mem_cons_self⟩, fun _ => rfl⟩
  · exact h op hop

theorem coherent_expandLoop {present : List Bytes} {rounds : ℕ} {lastRoot : Bytes}
    {dirs : List Bytes} {x : Expansion} (h : ∀ op ∈ x.ops, op.Coherent) :
    ∀ op ∈ (expandLoop opts mem rounds view present lastRoot dirs x).ops, op.Coherent := by
  induction dirs generalizing lastRoot x with
  | nil => exact h
  | cons rel dirs ih =>
    rw [expandLoop]
    split_ifs
    · exact ih h
    · have hscan : ∀ op ∈ (scanTree rounds view rel (Expansion.onEntry opts mem present)
          (fun x sub isDir => x.isOver || opts.excludes (rel ++ Path.slash :: sub) isDir)
          opts.oneFileSystem { x with rels := [rel] }).2.ops, op.Coherent :=
        scanTree_invariant (P := fun x : Expansion => ∀ op ∈ x.ops, op.Coherent) rounds view rel _ _
          (coherent_onEntry opts mem present) h
      dsimp only
      split_ifs
      · exact hscan
      · exact ih hscan

theorem coherent_appendSubtrees {rounds : ℕ} {dirs : List Bytes} {ops : List InvalidationOp}
    (h : ∀ op ∈ ops, op.Coherent) :
    ∀ op ∈ appendSubtrees opts mem rounds view dirs ops, op.Coherent := by
  rw [appendSubtrees]
  split_ifs
  · intro op hop
    rcases List.mem_append.1 hop with hop | hop
    · exact h op hop
    · rw [List.mem_singleton.1 hop]
      exact ⟨.inr (.inr ⟨rfl, rfl, rfl⟩), fun _ => rfl⟩
  · exact coherent_expandLoop h

theorem coherent_resolveBatch {rounds : ℕ} {planned : List PlannedOp}
    (h : ∀ op ∈ planned, op.Coherent) :
    ∀ op ∈ resolveBatch opts mem rounds view planned, op.Coherent := by
  have hops : ∀ out ∈ (planned.foldl (resolveStep opts view) ([], [])).1, out.Coherent :=
    coherent_forwarded h
  rw [resolveBatch]
  refine InvalidationOp.coherent_repair ?_
  split_ifs
  · exact coherent_appendSubtrees hops
  · exact hops

/-- **The operations of a batch are coherent**, whatever the events and the answers of the disk:
kind, change, attributes and cookie go together.  So what is written of the batch is read as the
batch. -/
theorem coherent_flush (c : Coalescer) (hc : c.isEmpty = true) (evs : List (FsEvent × ℤ))
    (opts : Options) (mem : Storage) (rounds : ℕ) (view : DiskView) :
    (∀ op ∈ resolveBatch opts mem rounds view (c.pushAll evs).take.1, op.Coherent) ∧
    ∀ generation, (resolveBatch opts mem rounds view (c.pushAll evs).take.1).length < 2 ^ 64 →
      (∀ op ∈ resolveBatch opts mem rounds view (c.pushAll evs).take.1, Proto.Sized op.path) →
      Codec.Reads Proto.readInvalidation
        (Proto.writeInvalidation
          ⟨generation, resolveBatch opts mem rounds view (c.pushAll evs).take.1⟩)
        ⟨generation, resolveBatch opts mem rounds view (c.pushAll evs).take.1⟩ := by
  have hcoh : ∀ op ∈ resolveBatch opts mem rounds view (c.pushAll evs).take.1, op.Coherent :=
    coherent_resolveBatch (coherent_take c hc evs)
  refine ⟨hcoh, fun generation hlen hsized => ?_⟩
  exact Proto.reads_invalidation ⟨hlen, fun op hop => (hcoh op hop).honest (hsized op hop)⟩

/-- A directory was moved from `a` to `d`, with a file in it. -/
def movedDirectory : List (FsEvent × ℤ) :=
  [(⟨.renamedFrom, bytes "a", 5⟩, 0), (⟨.renamedTo, bytes "d", 5⟩, 1)]

/-- A directory `d` that has been moved here, with a file in it. -/
def movedDisk : DiskView := .ofList
  [([], { kind := .directory }), ([bytes "d"], { kind := .directory }),
    ([bytes "d", bytes "f"], { size := 3 })]

theorem coherent_flush_moved :
    resolveBatch {} {} 3 movedDisk (pushAll {} movedDirectory).take.1 =
      [{ kind := .remove, path := bytes "a", change := .movedFrom, cookie := 5 },
        { kind := .upsert, path := bytes "d", attr := { kind := .directory }, change := .movedTo,
          cookie := 5 },
        { kind := .upsert, path := bytes "d/f", attr := { size := 3 }, change := .created }] ∧
    Codec.Reads Proto.readInvalidation
      (Proto.writeInvalidation
        ⟨1, resolveBatch {} {} 3 movedDisk (pushAll {} movedDirectory).take.1⟩)
      ⟨1, resolveBatch {} {} 3 movedDisk (pushAll {} movedDirectory).take.1⟩ := by
  have hbatch : resolveBatch {} {} 3 movedDisk (pushAll {} movedDirectory).take.1 =
      [{ kind := .remove, path := bytes "a", change := .movedFrom, cookie := 5 },
        { kind := .upsert, path := bytes "d", attr := { kind := .directory }, change := .movedTo,
          cookie := 5 },
        { kind := .upsert, path := bytes "d/f", attr := { size := 3 }, change := .created }] := by
    decide +kernel
  refine ⟨hbatch, (coherent_flush {} rfl movedDirectory {} {} 3 movedDisk).2 1 ?_ ?_⟩
  · rw [hbatch]
    decide
  · rw [hbatch]
    simp only [Proto.Sized]
    decide

end RootServer

end WslDrive
