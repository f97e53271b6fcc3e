import WslDrive.Core.Tree.Effects

/-!
# Telling a mirror what the disk has

A mirror `M` is told, path by path, what a disk `D` has there: an entry is upserted, and a path
that the disk does not have is removed.  An upsert fails behind something that the mirror does not
hold as a directory.

* `PathMap.Tells.agrees` — where the mirror agrees with the disk it goes on to do so;
* `PathMap.Tells.told` — it agrees at a path that it has been told, unless something stood in the
  way;
* `PathMap.Tells.lost` — otherwise the path is lost, even if what stood in the way becomes a
  directory later;
* `PathMap.Tells.stale_iff` — what becomes of entries that the disk does not have.
-/

namespace WslDrive

open MetadataTree Path

namespace PathMap

variable {β : Type*} {f : Attributes → β} {D M M' M'' : PathMap} {p q u : List Bytes}
  {a : Attributes} {ps l₁ l₂ : List (List Bytes)}

/-- Entries are in directories. -/
def IsTree (M : PathMap) : Prop :=
  ∀ p c, M (p ++ [c]) ≠ none → ∃ a, M p = some a ∧ a.kind = .directory

theorem IsTree.directory (h : M.IsTree) (hq : M q ≠ none) (hp : p <+: q) (hne : p ≠ q) :
    ∃ a, M p = some a ∧ a.kind = .directory := by
  obtain ⟨s, rfl⟩ := hp
  induction s using List.reverseRecOn with
  | nil => exact absurd (List.append_nil p).symm hne
  | append_singleton s c ih =>
    rw [← List.append_assoc] at hq
    obtain ⟨a, ha, hk⟩ := h _ _ hq
    by_cases hs : s = []
    · rw [hs, List.append_nil] at ha
      exact ⟨a, ha, hk⟩
    · exact ih (by rw [ha]; simp) (by simpa using hs)

theorem ne_of_prefix_dropLast (h : u <+: p.dropLast) (hp : p ≠ []) : u ≠ p := by
  rintro rfl
  have := h.length_le
  rw [List.length_dropLast] at this
  have := List.length_pos_of_ne_nil hp
  omega

theorem prefix_of_prefix_dropLast (h : u <+: p.dropLast) : u <+: p :=
  h.trans (List.dropLast_prefix p)

theorem prefix_dropLast (h : u <+: p) (hne : u ≠ p) : u <+: p.dropLast := by
  obtain ⟨s, rfl⟩ := h
  have hs : s ≠ [] := fun hs => hne (by rw [hs, List.append_nil])
  rw [List.dropLast_append_of_ne_nil hs]
  exact List.prefix_append _ _

/-- The mirror after it has been told what the disk has at a path. -/
inductive Told (D M : PathMap) (p : List Bytes) : PathMap → Prop
  | removed (h : D p = none) : Told D M p (M.cut p)
  | put {a : Attributes} (h : D p = some a) (hopen : M.Open p) :
      Told D M p ((M.fill p.dropLast).set p a)
  | blocked (h : D p ≠ none) (hopen : ¬ M.Open p) : Told D M p M

/-- The mirror agrees with the disk about a path, as far as `f` sees. -/
def Agrees (f : Attributes → β) (M D : PathMap) (q : List Bytes) : Prop :=
  (M q).map f = (D q).map f

theorem Agrees.of_eq (h : M q = D q) : Agrees f M D q := congrArg (Option.map f) h

/-! ### One path -/

theorem set_fill_of_ne (hne : q ≠ p) :
    (M.fill p.dropLast).set p a q = if a.kind ≠ .directory ∧ p <+: q then none
      else if q <+: p.dropLast ∧ M q = none then some kImplicitDirectory else M q := by
  rw [set, if_neg hne, fill]

theorem Told.agrees (hD : D.IsTree) (h : Told D M p M') (ha : Agrees f M D q) :
    Agrees f M' D q := by
  cases h with
  | removed hp =>
    rw [Agrees, cut]
    split_ifs with hpre
    · -- What is below a path that is not there is not there.
      have hq : D q = none := by
        by_contra hq
        by_cases hpq : p = q
        · exact hq (hpq ▸ hp)
        · obtain ⟨b, hb, -⟩ := hD.directory hq hpre hpq
          rw [hp] at hb
          cases hb
      rw [hq]
    · exact ha
  | @put a hp hopen =>
    by_cases hqp : q = p
    · subst hqp
      exact .of_eq (by rw [set, if_pos rfl, hp])
    · rw [Agrees, set_fill_of_ne hqp]
      split_ifs with hcut hfill
      · have hq : D q = none := by
          by_contra hq
          obtain ⟨b, hb, hk⟩ := hD.directory hq hcut.2 (Ne.symm hqp)
          rw [hp] at hb
          cases hb
          exact hcut.1 hk
        rw [hq]
      · -- A directory on the way that is missing is not one the mirror agrees about.
        obtain ⟨b, hb, -⟩ := hD.directory (by rw [hp]; simp)
          (prefix_of_prefix_dropLast hfill.1) hqp
        rw [Agrees, hfill.2, hb] at ha
        cases ha
      · exact ha
  | blocked => exact ha

theorem Told.self (h : Told D M p M') (hopen : D p ≠ none → M.Open p) : M' p = D p := by
  cases h with
  | removed hp => rw [cut, if_pos (List.prefix_refl p), hp]
  | put hp => rw [set, if_pos rfl, hp]
  | blocked hp hb => exact absurd (hopen hp) hb

theorem Told.keeps (hD : D.IsTree) (h : Told D M p M') (hDu : D u ≠ none) (hu : M u = some a)
    (hne : u ≠ p) : M' u = some a := by
  cases h with
  | removed hp =>
    rw [cut, if_neg, hu]
    intro hpre
    obtain ⟨b, hb, -⟩ := hD.directory hDu hpre (Ne.symm hne)
    rw [hp] at hb
    cases hb
  | put hp =>
    rw [set_fill_of_ne hne, if_neg, if_neg, hu]
    · rintro ⟨-, hnone⟩
      rw [hu] at hnone
      cases hnone
    · rintro ⟨hk, hpre⟩
      obtain ⟨b, hb, hkb⟩ := hD.directory hDu hpre (Ne.symm hne)
      rw [hp] at hb
      cases hb
      exact hk hkb
  | blocked => exact hu

/-- A path that is missing, or stands for a directory on the way. -/
def Missing (M : PathMap) (u : List Bytes) : Prop := M u = none ∨ M u = some kImplicitDirectory

theorem Told.missing (h : Told D M p M') (hu : M.Missing u) (hne : u ≠ p) : M'.Missing u := by
  cases h with
  | removed =>
    rw [Missing, cut]
    split_ifs
    · exact .inl rfl
    · exact hu
  | put =>
    rw [Missing, set_fill_of_ne hne]
    split_ifs
    · exact .inl rfl
    · exact .inr rfl
    · exact hu
  | blocked => exact hu

/-- An entry that the disk does not have stays when another path, or a directory above it, is
told. -/
theorem Told.stale (h : Told D M p M') (hDu : D u = none) (hu : M u = some a)
    (hp : p <+: u → ∃ b, D p = some b ∧ b.kind = .directory) : M' u = some a := by
  cases h with
  | removed hnone =>
    rw [cut, if_neg, hu]
    intro hpre
    obtain ⟨b, hb, -⟩ := hp hpre
    rw [hnone] at hb
    cases hb
  | @put b hb =>
    have hne : u ≠ p := by
      rintro rfl
      rw [hDu] at hb
      cases hb
    rw [set_fill_of_ne hne, if_neg, if_neg, hu]
    · rintro ⟨-, hnone⟩
      rw [hu] at hnone
      cases hnone
    · rintro ⟨hk, hpre⟩
      obtain ⟨b', hb', hk'⟩ := hp hpre
      rw [hb] at hb'
      cases hb'
      exact hk hk'
  | blocked => exact hu

theorem Told.cuts (h : Told D M p M') (hDu : D u = none) (hpre : p <+: u)
    (hp : ∀ b, D p = some b → b.kind ≠ .directory) (hopen : D p ≠ none → M.Open p) :
    M' u = none := by
  cases h with
  | removed => rw [cut, if_pos hpre]
  | @put b hb =>
    have hne : u ≠ p := by
      rintro rfl
      rw [hDu] at hb
      cases hb
    rw [set_fill_of_ne hne, if_pos ⟨hp b hb, hpre⟩]
  | blocked hp hb => exact absurd (hopen hp) hb

/-! ### One path after the other -/

/-- The mirror after it has been told about several paths. -/
inductive Tells (D : PathMap) : PathMap → List (List Bytes) → PathMap → Prop
  | nil {M : PathMap} : Tells D M [] M
  | cons {M M' M'' : PathMap} {p : List Bytes} {ps : List (List Bytes)} (hM : M.IsTree)
      (hp : p ≠ []) (h : Told D M p M') (hs : Tells D M' ps M'') : Tells D M (p :: ps) M''

theorem Tells.of_append (h : Tells D M (l₁ ++ l₂) M') :
    ∃ M₁, Tells D M l₁ M₁ ∧ Tells D M₁ l₂ M' := by
  induction l₁ generalizing M with
  | nil => exact ⟨M, .nil, h⟩
  | cons p l₁ ih =>
    cases h with
    | cons hM hp h hs =>
      obtain ⟨M₁, h₁, h₂⟩ := ih hs
      exact ⟨M₁, .cons hM hp h h₁, h₂⟩

theorem Tells.agrees (hD : D.IsTree) (h : Tells D M ps M') (ha : Agrees f M D q) :
    Agrees f M' D q := by
  induction h with
  | nil => exact ha
  | cons _ _ h _ ih => exact ih (h.agrees hD ha)

theorem Tells.keeps (hD : D.IsTree) (h : Tells D M ps M') (hDu : D u ≠ none) (hu : M u = some a)
    (hne : u ∉ ps) : M' u = some a := by
  induction h with
  | nil => exact hu
  | cons _ _ h _ ih =>
    rw [List.mem_cons, not_or] at hne
    exact ih (h.keeps hD hDu hu hne.1) hne.2

theorem Tells.missing (h : Tells D M ps M') (hu : M.Missing u) (hne : u ∉ ps) : M'.Missing u := by
  induction h with
  | nil => exact hu
  | cons _ _ h _ ih =>
    rw [List.mem_cons, not_or] at hne
    exact ih (h.missing hu hne.1) hne.2

theorem Tells.block (h : Tells D M ps M') (hDu : ∃ b, D u = some b ∧ b.kind = .directory)
    (hu : M' u = some a) (hk : a.kind ≠ .directory) : M u = some a ∧ u ∉ ps := by
  obtain ⟨b, hb, hkb⟩ := hDu
  induction h with
  | nil => exact ⟨hu, nofun⟩
  | @cons M M' M'' p ps hM hne h _ ih =>
    obtain ⟨hu, hps⟩ := ih hu
    rw [List.mem_cons, not_or]
    cases h with
    | removed hp =>
      rw [cut] at hu
      split_ifs at hu with hpre
      exact ⟨hu, fun hup => hpre (hup ▸ List.prefix_refl _), hps⟩
    | put hp =>
      by_cases hup : u = p
      · subst hup
        rw [set, if_pos rfl] at hu
        rw [hp] at hb
        cases hu
        cases hb
        exact absurd hkb hk
      · rw [set_fill_of_ne hup] at hu
        split_ifs at hu
        · cases hu
          exact absurd rfl hk
        · exact ⟨hu, hup, hps⟩
    | blocked _ hopen =>
      refine ⟨hu, ?_, hps⟩
      rintro rfl
      -- Nothing is below what stands in the way.
      refine hopen fun v c hv hc => ?_
      obtain ⟨c', hc', hk'⟩ := hM.directory (by rw [hu]; simp) (prefix_of_prefix_dropLast hv)
        (ne_of_prefix_dropLast hv hne)
      rw [hc] at hc'
      cases hc'
      exact hk'

/-- **A path that has been told** after what stood in its way. -/
theorem Tells.told (hD : D.IsTree) (h : Tells D M (l₁ ++ p :: l₂) M')
    (hway : D p ≠ none → ∀ u a, u <+: p.dropLast → M u = some a → a.kind ≠ .directory → u ∈ l₁) :
    Agrees f M' D p := by
  obtain ⟨M₁, h₁, h₂⟩ := h.of_append
  cases h₂ with
  | cons _ hp h hs =>
    refine hs.agrees hD (.of_eq (h.self fun hDp u a hu ha => ?_))
    by_contra hk
    have hDu := hD.directory hDp (prefix_of_prefix_dropLast hu) (ne_of_prefix_dropLast hu hp)
    obtain ⟨hMu, hnot⟩ := h₁.block hDu ha hk
    exact hnot (hway hDp u a hu hMu hk)

theorem Tells.lost (hD : D.IsTree) (h : Tells D M (l₁ ++ p :: l₂) M')
    (hDp : D p ≠ none) (hu : u <+: p.dropLast) (hMu : M u = some a) (hk : a.kind ≠ .directory)
    (hl₁ : u ∉ l₁) (hl₂ : p ∉ l₂) : M'.Missing p := by
  obtain ⟨M₁, h₁, h₂⟩ := h.of_append
  cases h₂ with
  | cons hM₁ hp h hs =>
    have hup := ne_of_prefix_dropLast hu hp
    have hDu : D u ≠ none := by
      obtain ⟨b, hb, -⟩ := hD.directory hDp (prefix_of_prefix_dropLast hu) hup
      rw [hb]
      simp
    have hM₁u := h₁.keeps hD hDu hMu hl₁
    have hM₁p : M₁ p = none := by
      by_contra hne
      obtain ⟨b, hb, hkb⟩ := hM₁.directory hne (prefix_of_prefix_dropLast hu) hup
      rw [hM₁u] at hb
      cases hb
      exact hk hkb
    refine hs.missing ?_ hl₂
    cases h with
    | removed hnone => exact absurd hnone hDp
    | put _ hopen => exact absurd (hopen u a hu hM₁u) hk
    | blocked => exact .inl hM₁p

/-- **An entry that the disk does not have** goes exactly if a path at or above it is told that the
disk does not have as a directory. -/
theorem Tells.stale_iff (hD : D.IsTree) (hM : M.IsTree) (h : Tells D M ps M') (hDu : D u = none)
    (hu : M u = some a) :
    M' u = none ↔ ∃ p ∈ ps, p <+: u ∧ ∀ b, D p = some b → b.kind ≠ .directory := by
  constructor
  · intro hgone
    by_contra hno
    have hall : ∀ p ∈ ps, p <+: u → ∃ b, D p = some b ∧ b.kind = .directory := by
      intro p hp hpre
      by_contra hdir
      exact hno ⟨p, hp, hpre, fun b hb hk => hdir ⟨b, hb, hk⟩⟩
    have hstay : M' u = some a := by
      clear hgone hno hM
      induction h with
      | nil => exact hu
      | cons _ _ h _ ih =>
        exact ih (h.stale hDu hu (hall _ List.mem_cons_self)) fun p hp =>
          hall p (List.mem_cons_of_mem _ hp)
    rw [hstay] at hgone
    cases hgone
  · rintro ⟨p, hp, hpre, hdir⟩
    obtain ⟨l₁, l₂, rfl⟩ := List.append_of_mem hp
    obtain ⟨M₁, h₁, h₂⟩ := h.of_append
    cases h₂ with
    | cons _ hne h hs =>
      refine Option.map_eq_none_iff.1 ((hs.agrees (f := id) hD ?_).trans (by rw [hDu]; rfl))
      refine .of_eq ((h.cuts hDu hpre hdir fun hDp v b hv hb => ?_).trans hDu.symm)
      by_contra hk
      -- The entry itself shows that its directories were directories from the start.
      have hDv := hD.directory hDp (prefix_of_prefix_dropLast hv) (ne_of_prefix_dropLast hv hne)
      obtain ⟨hMv, -⟩ := h₁.block hDv hb hk
      have hvu : v ≠ u := by
        rintro rfl
        obtain ⟨c, hc, -⟩ := hDv
        rw [hDu] at hc
        cases hc
      obtain ⟨c, hc, hkc⟩ := hM.directory (by rw [hu]; simp)
        ((prefix_of_prefix_dropLast hv).trans hpre) hvu
      rw [hMv] at hc
      cases hc
      exact hk hkc

end PathMap

theorem MetadataTree.WF.isTree {t : MetadataTree} (h : t.WF) : t.paths.IsTree := by
  intro p c hp
  obtain ⟨a, ha⟩ := Option.ne_none_iff_exists'.1 hp
  obtain ⟨y, hy, -⟩ := h.paths_eq_some.1 ha
  obtain ⟨x, hx, hedge, -⟩ := LTree.walk_snoc_iff.1 hy
  refine ⟨_, h.paths_eq_some.2 ⟨x, hx, rfl⟩, ?_⟩
  simpa [Node.isDir] using h.isDir_of_edge hedge

end WslDrive
