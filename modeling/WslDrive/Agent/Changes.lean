import WslDrive.Agent.DiskTree
import WslDrive.Core.Collapse

/-!
# Changes of the disk and what the watcher notes

Operations on a tree of files, with the events that the watcher reports: it names the paths that
an operation names, and a rename of a directory says nothing about what is in it.

* `Change.Allowed`, `Change.apply`, `Change.notes` — operations, what they do and what is noted;
* `Effect` — what an operation can do to the tree;
* `Change.Careful` — a directory is made or moved only to where nothing was below;
* `Traced` — what the notes of careful operations say about a disk and its beginnings.
-/

namespace WslDrive

open MetadataTree Path

namespace Convergence

/-- An operation on the disk. -/
inductive Change where
  | create (p : List Bytes) (a : Attributes)
  | write (p : List Bytes) (a : Attributes)
  | unlink (p : List Bytes)
  | mkdir (p : List Bytes) (a : Attributes)
  | rmdir (p : List Bytes)
  | rename (src dst : List Bytes) (cookie : UInt32)

/-- An event of the watcher, with the names of its path. -/
structure Note where
  kind : FsEventKind
  path : List Bytes
  cookie : UInt32 := 0

/-- The event as the watcher reports it. -/
def Note.event (n : Note) : FsEvent := ⟨n.kind, joined n.path, n.cookie⟩

/-- The tree on the disk after a change. -/
def Change.apply (D : PathMap) : Change → PathMap
  | .create p a | .write p a | .mkdir p a => D.add p a
  | .unlink p | .rmdir p => D.cut p
  | .rename src dst _ => D.move src dst

/-- What the watcher says about a change. -/
def Change.notes : Change → List Note
  | .create p _ | .mkdir p _ => [⟨.created, p, 0⟩]
  | .write p _ => [⟨.modified, p, 0⟩]
  | .unlink p | .rmdir p => [⟨.removed, p, 0⟩]
  | .rename src dst cookie => [⟨.renamedFrom, src, cookie⟩, ⟨.renamedTo, dst, cookie⟩]

/-- A directory of the tree. -/
def HasDir (D : PathMap) (p : List Bytes) : Prop := ∃ a, D p = some a ∧ a.kind = .directory

/-- A path at which there may be a new entry. -/
structure Free (D : PathMap) (p : List Bytes) : Prop where
  ne_nil : p ≠ []
  valid : ∀ c ∈ p, validName c = true
  unused : D p = none
  parent : HasDir D p.dropLast

/-- What the filesystem allows. -/
def Change.Allowed (D : PathMap) : Change → Prop
  | .create p a => Free D p ∧ a.kind ≠ .directory
  | .write p a => ∃ b, D p = some b ∧ b.kind ≠ .directory ∧ a.kind = b.kind
  | .unlink p => ∃ b, D p = some b ∧ b.kind ≠ .directory
  | .mkdir p a => Free D p ∧ a.kind = .directory
  | .rmdir p => p ≠ [] ∧ HasDir D p ∧ ∀ c, D (p ++ [c]) = none
  | .rename src dst _ => src ≠ [] ∧ D src ≠ none ∧ Free D dst ∧ ¬ src <+: dst

/-- The disk was a tree with the directory as its root. -/
structure Sane (D : PathMap) : Prop where
  tree : D.IsTree
  root : HasDir D []
  valid : ∀ p, D p ≠ none → ∀ c ∈ p, validName c = true

/-- **What an operation can do**: put an entry somewhere, take an entry away, or move one with
everything below it. -/
inductive Effect (D : PathMap) : List Note → PathMap → Prop
  | put {n : Note} {a : Attributes} (hk : n.kind.isRemoval = false)
      (h : Free D n.path ∧ n.kind.isArrival = true ∨
        ∃ b, D n.path = some b ∧ b.kind ≠ .directory ∧ a.kind = b.kind) :
      Effect D [n] (D.add n.path a)
  | drop {n : Note} (hk : n.kind.isRemoval = true) (hne : n.path ≠ []) (hsome : D n.path ≠ none)
      (hbelow : ∀ q, n.path <+: q → q ≠ n.path → D q = none) : Effect D [n] (D.cut n.path)
  | move {n n' : Note} (hk : n.kind.isRemoval = true) (hk' : n'.kind.isArrival = true)
      (hne : n.path ≠ []) (hsome : D n.path ≠ none) (hfree : Free D n'.path)
      (hnot : ¬ n.path <+: n'.path) : Effect D [n, n'] (D.move n.path n'.path)

section

variable {D D' : PathMap} {ms ns : List Note} {p q r u : List Bytes} {n : Note}

theorem not_removal_of_arrival {k : FsEventKind} (h : k.isArrival = true) :
    k.isRemoval = false := by
  cases k <;> first | rfl | cases h

theorem Sane.below (h : Sane D) (hp : D p = none ∨ ∃ a, D p = some a ∧ a.kind ≠ .directory)
    (hpq : p <+: q) (hne : q ≠ p) : D q = none := by
  by_contra hq
  obtain ⟨a, ha, hk⟩ := h.tree.directory hq hpq (Ne.symm hne)
  rcases hp with hp | ⟨b, hb, hkb⟩
  · rw [hp] at ha
    cases ha
  · rw [hb] at ha
    cases ha
    exact hkb hk

theorem Change.effect (h : Sane D) {change : Change} (ha : change.Allowed D) :
    Effect D change.notes (change.apply D) := by
  cases change with
  | create p a => exact .put rfl (.inl ⟨ha.1, rfl⟩)
  | mkdir p a => exact .put rfl (.inl ⟨ha.1, rfl⟩)
  | write p a => exact .put rfl (.inr ha)
  | unlink p =>
    obtain ⟨b, hb, hk⟩ := ha
    refine .drop rfl ?_ (by rw [hb]; simp) fun q hq hne => h.below (.inr ⟨b, hb, hk⟩) hq hne
    rintro rfl
    obtain ⟨c, hc, hkc⟩ := h.root
    rw [hb] at hc
    cases hc
    exact hk hkc
  | rmdir p =>
    obtain ⟨hne, ⟨b, hb, -⟩, hempty⟩ := ha
    refine .drop rfl hne (by rw [hb]; simp) ?_
    rintro q ⟨s, rfl⟩ hq
    cases s with
    | nil => exact absurd (List.append_nil p) hq
    | cons c s =>
      by_cases hs : s = []
      · rw [hs]
        exact hempty c
      · rw [← List.singleton_append, ← List.append_assoc]
        exact h.below (.inl (hempty c)) (List.prefix_append _ _) (by simpa using hs)
  | rename src dst cookie => exact .move rfl rfl ha.1 ha.2.1 ha.2.2.1 ha.2.2.2

/-! ### Moving -/

theorem move_dst (src dst s : List Bytes) : D.move src dst (dst ++ s) = D (src ++ s) := by
  rw [PathMap.move, if_pos (List.prefix_append _ _), List.drop_left]

theorem move_of_not (hq : ¬ q <+: p) : D.move r q p = if r <+: p then none else D p := by
  rw [PathMap.move, if_neg hq]

/-! ### What an operation does to a path -/

/-- A note about the path, or about the arrival of a directory above it, after which nothing on the
way to it has been removed. -/
def Fresh (ns : List Note) (q : List Bytes) : Prop :=
  Since ns (fun n => n.path <+: q ∧ n.kind.isRemoval = false ∧
    (n.path ≠ q → n.kind.isArrival = true)) fun n => n.path <+: q → n.kind.isRemoval = false

namespace Effect

variable (h : Sane D) (he : Effect D ms D')

include h

theorem not_prefix_src (hsome : D p ≠ none) (hfree : Free D q) : ¬ q <+: p := by
  intro hqp
  by_cases heq : p = q
  · exact hsome (heq ▸ hfree.unused)
  · exact hsome (h.below (.inl hfree.unused) hqp heq)

omit h in
include he in
theorem kept_or_fresh (hq : D' q ≠ none) :
    (D' q = D q ∧ ∀ n ∈ ms, n.path <+: q → n.kind.isRemoval = false) ∨ Fresh ms q := by
  cases he with
  | @put n a hk _ =>
    by_cases hqn : q = n.path
    · refine .inr (since_singleton.2 ⟨hqn ▸ List.prefix_refl _, hk, fun hne => ?_⟩)
      exact absurd hqn.symm hne
    · refine .inl ⟨PathMap.add_of_ne hqn, fun m hm _ => ?_⟩
      rw [List.mem_singleton.1 hm]
      exact hk
  | @drop n hk _ _ _ =>
    obtain ⟨hpre, -⟩ := PathMap.of_cut_ne_none hq
    refine .inl ⟨PathMap.cut_of_not_below hpre, fun m hm hmq => ?_⟩
    rw [List.mem_singleton.1 hm] at hmq
    exact absurd hmq hpre
  | @move n n' hk hk' _ _ _ _ =>
    have hk'' := not_removal_of_arrival hk'
    by_cases hdst : n'.path <+: q
    · exact .inr ((since_concat (l := [n])).2 (.inl ⟨hdst, hk'', fun _ => hk'⟩))
    · rw [move_of_not hdst] at hq ⊢
      split_ifs at hq ⊢ with hsrc
      · exact absurd rfl hq
      · refine .inl ⟨rfl, fun m hm hmq => ?_⟩
        rcases List.mem_pair.1 hm with rfl | rfl
        · exact absurd hmq hsrc
        · exact hk''

include he

theorem vanishes (hr : D r ≠ none) (hr' : D' r = none) (hdir : D' r.dropLast ≠ none) :
    ∃ n ∈ ms, n.path = r := by
  cases he with
  | @put n a =>
    by_cases hrn : r = n.path
    · exact ⟨n, List.mem_singleton_self n, hrn.symm⟩
    · rw [PathMap.add_of_ne hrn] at hr'
      exact absurd hr' hr
  | @drop n hk hne hsome hbelow =>
    by_cases hpre : n.path <+: r
    · refine ⟨n, List.mem_singleton_self n, ?_⟩
      by_contra hrn
      exact hr (hbelow r hpre (Ne.symm hrn))
    · rw [PathMap.cut_of_not_below hpre] at hr'
      exact absurd hr' hr
  | @move n n' _ _ _ hsome hfree hnot =>
    have hdst : ¬ n'.path <+: r := not_prefix_src h hr hfree
    rw [move_of_not hdst] at hr'
    split_ifs at hr' with hsrc
    · refine ⟨n, List.mem_cons_self, ?_⟩
      by_contra hrn
      -- A directory that moves takes the directory of the entry along.
      rw [move_of_not fun hpre => hdst (PathMap.prefix_of_prefix_dropLast hpre),
        if_pos (PathMap.prefix_dropLast hsrc hrn)] at hdir
      exact hdir rfl
    · exact absurd hr' hr

theorem removed
    (hd : Since ms (fun n => n.path = p ∧ n.kind.isRemoval = true) fun n => n.path ≠ p) :
    D' p = none := by
  cases he with
  | @put n a hk _ =>
    obtain ⟨-, hk'⟩ := since_singleton.1 hd
    rw [hk] at hk'
    cases hk'
  | @drop n hk hne hsome hbelow =>
    obtain ⟨rfl, -⟩ := since_singleton.1 hd
    exact PathMap.cut_of_below (List.prefix_refl _)
  | @move n n' _ hk' _ hsome hfree hnot =>
    rcases (since_concat (l := [n])).1 hd with ⟨-, hrem⟩ | ⟨-, hd⟩
    · rw [not_removal_of_arrival hk'] at hrem
      cases hrem
    · obtain ⟨rfl, -⟩ := since_singleton.1 hd
      rw [move_of_not (not_prefix_src h hsome hfree), if_pos (List.prefix_refl _)]

theorem appears (hu : D u = none) (hu' : D' u ≠ none) :
    ((∃ n ∈ ms, n.path = u) ∧ ∀ n ∈ ms, u <+: n.path → n.path = u) ∨
      ∃ e, e ≠ u ∧ e <+: u ∧ D e = none ∧ HasDir D' e := by
  cases he with
  | @put n a =>
    by_cases hun : u = n.path
    · refine .inl ⟨⟨n, List.mem_singleton_self n, hun.symm⟩, fun m hm _ => ?_⟩
      rw [List.mem_singleton.1 hm, hun]
    · rw [PathMap.add_of_ne hun] at hu'
      exact absurd hu hu'
  | drop => exact absurd hu (PathMap.of_cut_ne_none hu').2
  | @move n n' _ _ _ hsome hfree _ =>
    by_cases hdst : n'.path <+: u
    · by_cases heq : n'.path = u
      · refine .inl ⟨⟨n', by simp, heq⟩, fun m hm hum => ?_⟩
        rcases List.mem_pair.1 hm with rfl | rfl
        · exact absurd (heq ▸ hum) (not_prefix_src h hsome hfree)
        · exact heq
      · refine .inr ⟨n'.path, heq, hdst, hfree.unused, ?_⟩
        obtain ⟨s, rfl⟩ := hdst
        rw [move_dst] at hu'
        have hroot := move_dst (D := D) n.path n'.path []
        rw [List.append_nil, List.append_nil] at hroot
        rw [HasDir, hroot]
        exact h.tree.directory hu' (List.prefix_append _ _) (by simpa using heq)
    · rw [move_of_not hdst] at hu'
      split_ifs at hu'
      · exact absurd rfl hu'
      · exact absurd hu hu'

theorem stays (hu : HasDir D u) (hu' : HasDir D' u) : ∀ n ∈ ms, n.path ≠ u := by
  obtain ⟨a, ha, hk⟩ := hu
  obtain ⟨a', ha', -⟩ := hu'
  cases he with
  | @put n b _ hat =>
    intro m hm
    rw [List.mem_singleton.1 hm]
    rintro rfl
    rcases hat with ⟨hfree, -⟩ | ⟨b, hb, hkb, -⟩
    · rw [hfree.unused] at ha
      cases ha
    · rw [hb] at ha
      cases ha
      exact hkb hk
  | @drop n =>
    intro m hm
    rw [List.mem_singleton.1 hm]
    rintro rfl
    rw [PathMap.cut_of_below (List.prefix_refl _)] at ha'
    cases ha'
  | @move n n' _ _ _ hsome hfree _ =>
    intro m hm
    rcases List.mem_pair.1 hm with rfl | rfl
    · rintro rfl
      rw [move_of_not (not_prefix_src h hsome hfree), if_pos (List.prefix_refl _)] at ha'
      cases ha'
    · rintro rfl
      rw [hfree.unused] at ha
      cases ha

theorem unused (hu : ¬ HasDir D u) (hu' : HasDir D' u) : D u = none := by
  cases he with
  | @put n a _ hat =>
    by_cases hun : u = n.path
    · subst hun
      rcases hat with ⟨hfree, -⟩ | ⟨b, -, hkb, hab⟩
      · exact hfree.unused
      · obtain ⟨a', ha', hk⟩ := hu'
        rw [PathMap.add_self] at ha'
        cases ha'
        exact absurd (hab ▸ hk) hkb
    · rw [HasDir, PathMap.add_of_ne hun] at hu'
      exact absurd hu' hu
  | drop =>
    obtain ⟨a, ha, hk⟩ := hu'
    exact absurd ⟨a, (PathMap.of_cut_eq_some ha).2, hk⟩ hu
  | @move n n' _ _ _ hsome hfree _ =>
    by_cases hdst : n'.path <+: u
    · by_cases heq : u = n'.path
      · exact heq ▸ hfree.unused
      · exact h.below (.inl hfree.unused) hdst heq
    · obtain ⟨a, ha, hk⟩ := hu'
      rw [move_of_not hdst] at ha
      split_ifs at ha
      exact absurd ⟨a, ha, hk⟩ hu

theorem sane : Sane D' := by
  cases he with
  | @put n a _ hat =>
    have hne : n.path ≠ [] := by
      rcases hat with ⟨hfree, -⟩ | ⟨b, hb, hkb, -⟩
      · exact hfree.ne_nil
      · intro hnil
        obtain ⟨c, hc, hkc⟩ := h.root
        rw [hnil, hc] at hb
        cases hb
        exact hkb hkc
    refine ⟨fun p c hp => ?_, ?_, fun p hp => ?_⟩
    · have hdir : HasDir D p := by
        by_cases heq : p ++ [c] = n.path
        · rcases hat with ⟨hfree, -⟩ | ⟨b, hb, -, -⟩
          · have := hfree.parent
            rwa [← heq, List.dropLast_concat] at this
          · exact h.tree p c (by rw [heq, hb]; simp)
        · rw [PathMap.add_of_ne heq] at hp
          exact h.tree p c hp
      by_cases hpn : p = n.path
      · -- The entry replaces nothing that has entries below it.
        subst hpn
        rcases hat with ⟨hfree, -⟩ | ⟨b, hb, hkb, -⟩
        · obtain ⟨b, hb, -⟩ := hdir
          rw [hfree.unused] at hb
          cases hb
        · obtain ⟨b', hb', hkb'⟩ := hdir
          rw [hb] at hb'
          cases hb'
          exact absurd hkb' hkb
      · rw [PathMap.add_of_ne hpn]
        exact hdir
    · rw [HasDir, PathMap.add_of_ne (Ne.symm hne)]
      exact h.root
    · by_cases hpn : p = n.path
      · subst hpn
        rcases hat with ⟨hfree, -⟩ | ⟨b, hb, -, -⟩
        · exact hfree.valid
        · exact h.valid _ (by rw [hb]; simp)
      · rw [PathMap.add_of_ne hpn] at hp
        exact h.valid p hp
  | @drop n _ hne _ _ =>
    refine ⟨fun p c hp => ?_, ?_, fun p hp => ?_⟩
    · obtain ⟨hpre, hp⟩ := PathMap.of_cut_ne_none hp
      rw [PathMap.cut_of_not_below fun hpre' => hpre (hpre'.trans (List.prefix_append _ _))]
      exact h.tree p c hp
    · rw [HasDir, PathMap.cut_of_not_below fun hpre => hne (List.prefix_nil.1 hpre)]
      exact h.root
    · exact h.valid p (PathMap.of_cut_ne_none hp).2
  | @move n n' _ _ hne hsome hfree hnot =>
    refine ⟨fun p c hp => ?_, ?_, fun p hp => ?_⟩
    · by_cases hdst : n'.path <+: p
      · obtain ⟨s, rfl⟩ := hdst
        rw [List.append_assoc, move_dst, ← List.append_assoc] at hp
        rw [move_dst]
        exact h.tree _ c hp
      · rw [move_of_not hdst]
        by_cases heq : n'.path = p ++ [c]
        · have hparent := hfree.parent
          rw [heq, List.dropLast_concat] at hparent
          rw [heq] at hnot
          rw [if_neg fun hsrc => hnot (hsrc.trans (List.prefix_append _ _))]
          exact hparent
        · have hdst' : ¬ n'.path <+: p ++ [c] := by
            intro hpre
            have := PathMap.prefix_dropLast hpre heq
            rw [List.dropLast_concat] at this
            exact hdst this
          rw [move_of_not hdst'] at hp
          split_ifs at hp with hsrc
          · exact absurd rfl hp
          · rw [if_neg fun hsrc' => hsrc (hsrc'.trans (List.prefix_append _ _))]
            exact h.tree p c hp
    · rw [HasDir, move_of_not fun hpre => hfree.ne_nil (List.prefix_nil.1 hpre),
        if_neg fun hpre => hne (List.prefix_nil.1 hpre)]
      exact h.root
    · by_cases hdst : n'.path <+: p
      · obtain ⟨s, rfl⟩ := hdst
        rw [move_dst] at hp
        intro c hc
        rcases List.mem_append.1 hc with hc | hc
        · exact hfree.valid c hc
        · exact h.valid _ hp c (List.mem_append_right _ hc)
      · rw [move_of_not hdst] at hp
        split_ifs at hp
        · exact absurd rfl hp
        · exact h.valid p hp

theorem notes_valid : ∀ n ∈ ms, n.path ≠ [] ∧ ∀ c ∈ n.path, validName c = true := by
  cases he with
  | @put n a _ hat =>
    intro m hm
    rw [List.mem_singleton.1 hm]
    rcases hat with ⟨hfree, -⟩ | ⟨b, hb, hkb, -⟩
    · exact ⟨hfree.ne_nil, hfree.valid⟩
    · refine ⟨fun hnil => ?_, h.valid _ (by rw [hb]; simp)⟩
      obtain ⟨c, hc, hkc⟩ := h.root
      rw [hnil, hc] at hb
      cases hb
      exact hkb hkc
  | @drop n _ hne hsome _ =>
    intro m hm
    rw [List.mem_singleton.1 hm]
    exact ⟨hne, h.valid _ hsome⟩
  | @move n n' _ _ hne hsome hfree _ =>
    intro m hm
    rcases List.mem_pair.1 hm with rfl | rfl
    · exact ⟨hne, h.valid _ hsome⟩
    · exact ⟨hfree.ne_nil, hfree.valid⟩

end Effect

end

/-! ### Careful operations -/

/-- Nothing was below a path at the beginning; and nothing has been noted below it if there was
something else than a directory. -/
def Clear (D₀ : PathMap) (ns : List Note) (p : List Bytes) : Prop :=
  ∀ q, p <+: q → q ≠ p → D₀ q = none ∧
    ((∃ a, D₀ p = some a ∧ a.kind ≠ .directory) → ∀ n ∈ ns, n.path ≠ q)

/-- **A directory is made or moved only to a path that is clear.** -/
def Change.Careful (D₀ : PathMap) (ns : List Note) (D : PathMap) : Change → Prop
  | .mkdir p _ => Clear D₀ ns p
  | .rename src dst _ => HasDir D src → Clear D₀ ns dst
  | _ => True

section

variable {D₀ D D' : PathMap} {ms ns : List Note} {p q r u : List Bytes} {change : Change}

theorem Change.Careful.clear (h : Sane D) (ha : change.Allowed D) (hc : change.Careful D₀ ns D)
    (hu : ¬ HasDir D u) (hu' : HasDir (change.apply D) u) : Clear D₀ ns u := by
  have hput : ∀ {p a}, HasDir (D.add p a) u → u = p ∧ a.kind = .directory := by
    rintro p a ⟨b, hb, hk⟩
    by_cases hup : u = p
    · subst hup
      rw [PathMap.add_self] at hb
      cases hb
      exact ⟨rfl, hk⟩
    · rw [PathMap.add_of_ne hup] at hb
      exact absurd ⟨b, hb, hk⟩ hu
  have hcut : ∀ {p}, ¬ HasDir (D.cut p) u := by
    rintro p ⟨b, hb, hk⟩
    exact hu ⟨b, (PathMap.of_cut_eq_some hb).2, hk⟩
  cases change with
  | create p a => exact absurd (hput hu').2 ha.2
  | write p a =>
    obtain ⟨b, -, hkb, hab⟩ := ha
    exact absurd (hab ▸ (hput hu').2) hkb
  | mkdir p a =>
    obtain ⟨rfl, -⟩ := hput hu'
    exact hc
  | unlink p => exact absurd hu' hcut
  | rmdir p => exact absurd hu' hcut
  | rename src dst cookie =>
    by_cases hdst : dst <+: u
    · obtain ⟨s, rfl⟩ := hdst
      rw [HasDir, Change.apply, move_dst] at hu'
      by_cases hs : s = []
      · subst hs
        rw [List.append_nil] at hu' ⊢
        exact hc hu'
      · -- What a directory brings along is below where nothing was.
        obtain ⟨b, hb, -⟩ := hu'
        have hclear := hc (h.tree.directory (by rw [hb]; simp) (List.prefix_append src s)
          (by simpa using hs))
        have hbelow : dst ++ s ≠ dst := by simpa using hs
        refine fun q hq hne => ⟨(hclear q ((List.prefix_append _ _).trans hq) ?_).1, ?_⟩
        · rintro rfl
          exact hbelow (List.IsPrefix.eq_of_length_le hq (by simp))
        · rintro ⟨a, ha, -⟩
          rw [(hclear _ (List.prefix_append _ _) hbelow).1] at ha
          cases ha
    · obtain ⟨b, hb, hk⟩ := hu'
      rw [Change.apply, move_of_not hdst] at hb
      split_ifs at hb
      exact absurd ⟨b, hb, hk⟩ hu

/-- **What the notes say** about the disk `D` that has become of `D₀`. -/
structure Traced (D₀ D : PathMap) (ns : List Note) : Prop where
  sane : Sane D
  valid : ∀ n ∈ ns, n.path ≠ [] ∧ ∀ c ∈ n.path, validName c = true
  /-- What is not as it was is fresh. -/
  fresh : ∀ q, D q ≠ none → D q ≠ D₀ q → Fresh ns q
  /-- What is missing in a directory is named. -/
  gone : ∀ r, D₀ r ≠ none → D r = none → HasDir D r.dropLast → ∃ n ∈ ns, n.path = r
  /-- Nothing was below a path that is there although it was removed last. -/
  back : ∀ p, Since ns (fun n => n.path = p ∧ n.kind.isRemoval = true) (fun n => n.path ≠ p) →
    D p ≠ none → ∀ q, p <+: q → q ≠ p → D₀ q = none
  /-- A directory in place of something else is named before everything in it. -/
  first : ∀ u, (∃ a, D₀ u = some a ∧ a.kind ≠ .directory) → HasDir D u →
    (∃ n ∈ ns, n.path = u) ∧ ∀ q, u <+: q → q ≠ u → (∃ n ∈ ns, n.path = q) →
      Since ns (fun n => n.path = q) fun n => n.path ≠ u

theorem Traced.start (h : Sane D) : Traced D D [] where
  sane := h
  valid n hn := absurd hn List.not_mem_nil
  fresh q _ hq := absurd rfl hq
  gone r hr hr' _ := absurd hr' hr
  back p hp _ := absurd hp not_since_nil
  first u hu hu' := by
    obtain ⟨a, ha, hk⟩ := hu
    obtain ⟨b, hb, hkb⟩ := hu'
    rw [ha] at hb
    cases hb
    exact absurd hkb hk

theorem Traced.step (h : Traced D₀ D ns) (he : Effect D ms D')
    (hclear : ∀ u, ¬ HasDir D u → HasDir D' u → Clear D₀ ns u) : Traced D₀ D' (ns ++ ms) where
  sane := he.sane h.sane
  valid n hn := (List.mem_append.1 hn).elim (h.valid n) (he.notes_valid h.sane n)
  fresh q hq hne := by
    rcases he.kept_or_fresh hq with ⟨hsame, hms⟩ | hfresh
    · rw [hsame] at hq hne
      exact since_append.2 (.inr ⟨hms, h.fresh q hq hne⟩)
    · exact since_append.2 (.inl hfresh)
  gone r hr hr' hdir := by
    by_cases hD : D r = none
    · by_cases hdir' : HasDir D r.dropLast
      · obtain ⟨n, hn, hpath⟩ := h.gone r hr hD hdir'
        exact ⟨n, List.mem_append_left _ hn, hpath⟩
      · -- Nothing was below a directory that is new.
        have hne : r ≠ [] := by
          rintro rfl
          exact hdir' h.sane.root
        refine absurd (hclear _ hdir' hdir r (List.dropLast_prefix r) ?_).1 hr
        exact (PathMap.ne_of_prefix_dropLast (List.prefix_refl _) hne).symm
    · obtain ⟨a, ha, -⟩ := hdir
      obtain ⟨n, hn, hpath⟩ := he.vanishes h.sane hD hr' (by rw [ha]; simp)
      exact ⟨n, List.mem_append_right _ hn, hpath⟩
  back p hp hsome q hq hne := by
    rcases since_append.1 hp with hms | ⟨hms, hns⟩
    · exact absurd (he.removed h.sane hms) hsome
    · by_cases hD : D p = none
      · -- The path has come back with a directory above it.
        rcases he.appears h.sane hD hsome with ⟨⟨n, hn, hpath⟩, -⟩ | ⟨e, hep, hpre, hnone, hdir⟩
        · exact absurd hpath (hms n hn)
        · refine (hclear e ?_ hdir q (hpre.trans hq) ?_).1
          · rintro ⟨a, ha, -⟩
            rw [hnone] at ha
            cases ha
          · rintro rfl
            exact hep (hpre.eq_of_length_le hq.length_le)
      · exact h.back p hns hD q hq hne
  first u hu hu' := by
    by_cases hdir : HasDir D u
    · have hms := he.stays h.sane hdir hu'
      obtain ⟨⟨n, hn, hpath⟩, hbelow⟩ := h.first u hu hdir
      refine ⟨⟨n, List.mem_append_left _ hn, hpath⟩, fun q hq hne hnoted => ?_⟩
      by_cases hin : ∃ n ∈ ms, n.path = q
      · exact since_append.2 (.inl (Since.of_forall hin hms))
      · refine since_append.2 (.inr ⟨hms, hbelow q hq hne ?_⟩)
        obtain ⟨m, hm, hpath⟩ := hnoted
        exact ⟨m, (List.mem_append.1 hm).resolve_right fun hm => hin ⟨m, hm, hpath⟩, hpath⟩
    · have hc := hclear u hdir hu'
      obtain ⟨a, ha, -⟩ := id hu'
      obtain ⟨b, hb, -⟩ := id hu
      rcases he.appears h.sane (he.unused h.sane hdir hu') (by rw [ha]; simp) with
        ⟨⟨n, hn, hpath⟩, hms⟩ | ⟨e, heu, hpre, hnone, hedir⟩
      · refine ⟨⟨n, List.mem_append_right _ hn, hpath⟩, ?_⟩
        rintro q hq hne ⟨m, hm, rfl⟩
        rcases List.mem_append.1 hm with hm | hm
        · exact absurd rfl ((hc m.path hq hne).2 hu m hm)
        · exact absurd (hms m hm hq) hne
      · refine absurd (hclear e ?_ hedir u hpre (Ne.symm heu)).1 (by rw [hb]; simp)
        rintro ⟨a, ha, -⟩
        rw [hnone] at ha
        cases ha

/-! ### Runs -/

/-- The disk after some operations. -/
def after (D : PathMap) (changes : List Change) : PathMap := changes.foldl Change.apply D

/-- What the watcher notes about them. -/
def noted (changes : List Change) : List Note := changes.flatMap Change.notes

/-- The filesystem allows every operation. -/
def AllowedRun (D : PathMap) (changes : List Change) : Prop :=
  ∀ before change rest, changes = before ++ change :: rest → change.Allowed (after D before)

/-- Every operation is careful. -/
def CarefulRun (D : PathMap) (changes : List Change) : Prop :=
  ∀ before change rest, changes = before ++ change :: rest →
    change.Careful D (noted before) (after D before)

theorem forall_split_concat {α : Type*} {P : List α → α → Prop} {l : List α} {y : α} :
    (∀ before x rest, l ++ [y] = before ++ x :: rest → P before x) ↔
      (∀ before x rest, l = before ++ x :: rest → P before x) ∧ P l y := by
  constructor
  · refine fun h => ⟨?_, h l y [] rfl⟩
    rintro before x rest rfl
    exact h before x (rest ++ [y]) (by rw [List.append_assoc, List.cons_append])
  · rintro ⟨h, hy⟩ before x rest heq
    rcases List.eq_nil_or_concat rest with rfl | ⟨rest, z, rfl⟩
    · obtain ⟨rfl, hx⟩ := List.append_inj' heq rfl
      rwa [← (List.cons.inj hx).1]
    · rw [List.concat_eq_append, ← List.cons_append, ← List.append_assoc] at heq
      exact h before x rest (List.append_inj' heq rfl).1

theorem traced_run (h : Sane D) {changes : List Change} (hallowed : AllowedRun D changes)
    (hcareful : CarefulRun D changes) : Traced D (after D changes) (noted changes) := by
  induction changes using List.reverseRecOn with
  | nil => exact .start h
  | append_singleton changes change ih =>
    obtain ⟨hallowed, hchange⟩ := forall_split_concat.1 hallowed
    obtain ⟨hcareful, hclear⟩ := forall_split_concat.1 hcareful
    have htraced := ih hallowed hcareful
    rw [after, List.foldl_append, noted, List.flatMap_append, List.flatMap_singleton]
    exact htraced.step (change.effect htraced.sane hchange) fun u hu hu' =>
      hclear.clear htraced.sane hchange hu hu'

end

end Convergence

end WslDrive
