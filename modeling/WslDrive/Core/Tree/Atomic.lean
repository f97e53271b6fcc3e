import WslDrive.Core.Tree.Told

/-!
# Failing calls

A mutator that returns an error should leave the tree as it was.  The mutators that act on one
node check everything before they change anything.  Three others do not: `ensure_directory_path`
and `upsert_path` create the directories on the way to a name that they then refuse, and
`load_snapshot` clears the tree before it looks at the entries.

* `PathMap.Tears` — a path that leads through missing directories to a name that is refused;
* `InOrder` — entries that `load_snapshot` does not reject;
* `failing_call_atomic_iff` — the calls that leave the paths alone when they fail.
-/

namespace WslDrive

open MetadataTree Path

namespace PathMap

/-- The directories along `u` exist or can be created. -/
structure Fillable (M : PathMap) (u : List Bytes) : Prop where
  valid : ∀ c ∈ u, validName c = true
  directory : ∀ q a, q <+: u → M q = some a → a.kind = .directory

/-- Along `p` a directory has to be created before a name is refused. -/
def Tears (M : PathMap) (p : List Bytes) : Prop :=
  ∃ u c, u ++ [c] <+: p ∧ M u = none ∧ M.Fillable u ∧ validName c = false

theorem fill_ne {M : PathMap} {u : List Bytes} (h : M u = none) : M.fill u ≠ M := by
  intro heq
  have := congrFun heq u
  rw [fill, if_pos ⟨List.prefix_refl u, h⟩, h] at this
  cases this

theorem fill_concat (M : PathMap) (u : List Bytes) (c : Bytes) :
    M.fill u (u ++ [c]) = M (u ++ [c]) := by
  refine fill_of_not_above fun hpre => ?_
  have := hpre.length_le
  rw [List.length_append, List.length_singleton] at this
  omega

theorem tears_concat_iff {M : PathMap} {cs : List Bytes} {leaf : Bytes} :
    M.Tears (cs ++ [leaf]) ↔
      M.Tears cs ∨ M cs = none ∧ M.Fillable cs ∧ validName leaf = false := by
  constructor
  · rintro ⟨u, c, hpre, hrest⟩
    rcases List.prefix_concat_iff.1 hpre with heq | hpre
    · obtain ⟨rfl, hc⟩ := List.append_inj' heq rfl
      obtain rfl : c = leaf := by simpa using hc
      exact .inr hrest
    · exact .inl ⟨u, c, hpre, hrest⟩
  · rintro (⟨u, c, hpre, hrest⟩ | hrest)
    · exact ⟨u, c, hpre.trans (List.prefix_append _ _), hrest⟩
    · exact ⟨cs, leaf, List.prefix_refl _, hrest⟩

end PathMap

/-- Every parent is the root or an entry before its child. -/
def InOrder (entries : List SnapshotEntry) : Prop :=
  ∀ (k : ℕ) (e : SnapshotEntry), entries[k]? = some e → e.parent.toNat ≤ k

namespace MetadataTree

variable {t t' : MetadataTree} {x y p id : NodeId} {name : Bytes} {attr : Attributes}
  {s u : List Bytes} {e : Errc}

/-! ### Calls on one node -/

theorem WF.insert_error (h : t.WF) (heq : t.insert p name attr = (.error e, t')) :
    t'.paths = t.paths := by
  obtain ⟨kids, hr⟩ := h.rep
  obtain ⟨id, t₁, hins, -⟩ | ⟨e', t₁, hins, -, hsame, hrep⟩ := hr.insert_spec p name attr
  · rw [heq] at hins
    cases hins
  · rw [heq] at hins
    cases hins
    exact hsame.paths_eq h ⟨_, hrep⟩

theorem setAttributes_error (heq : t.setAttributes id attr = (.error e, t')) : t' = t := by
  rw [setAttributes] at heq
  split_ifs at heq
  · cases heq
    rfl
  · cases heq

theorem WF.upsert_error (h : t.WF) (heq : t.upsert p name attr = (.error e, t')) :
    t'.paths = t.paths := by
  obtain ⟨kids, hr⟩ := h.rep
  by_cases hp : t.isLive p
  · obtain ⟨id, t₁, hup, -⟩ | ⟨e', t₁, hup, hpaths, -⟩ :=
      h.upsert_spec (h.walk_location hp) name attr
    · rw [heq] at hup
      cases hup
    · rw [heq] at hup
      cases hup
      exact hpaths
  · rw [upsert, if_pos (by rw [hr.allocated.valid_eq_false hp]; rfl)] at heq
    cases heq
    rfl

theorem remove_error (heq : t.remove id = (.error e, t')) : t' = t := by
  rw [remove] at heq
  split_ifs at heq <;> cases heq <;> rfl

theorem WF.rename_error (h : t.WF) {np : NodeId} {nn : Bytes}
    (heq : t.rename id np nn = (.error e, t')) : t'.paths = t.paths := by
  obtain ⟨kids, hr⟩ := h.rep
  obtain ⟨t₁, hren, -⟩ | ⟨e', t₁, hren, -, hsame, hwf⟩ := hr.rename_spec id np nn
  · rw [heq] at hren
    cases hren
  · rw [heq] at hren
    cases hren
    exact hsame.paths_eq h hwf

theorem removePath_error {path : Bytes} {mode : LookupMode}
    (heq : t.removePath path mode = (.error e, t')) : t' = t := by
  rw [removePath] at heq
  cases hl : t.lookup path mode with
  | none =>
    rw [hl] at heq
    cases heq
    rfl
  | some id =>
    rw [hl] at heq
    exact remove_error heq

/-! ### Calls that create directories -/

/-- Where `ensure_directory_path` fails, it has created the directories before that name. -/
theorem WF.ensureLoop_error {comps : List Bytes} (h : t.WF) (hcur : h.toLTree.Walk root s x)
    (hcomps : ∀ c ∈ comps, c ≠ [] ∧ c ≠ dot) (heq : ensureLoop t x comps = (.error e, t')) :
    ∃ (u : List Bytes) (c : Bytes) (v : List Bytes) (y : NodeId) (t₁ : MetadataTree) (h₁ : t₁.WF),
      comps = u ++ c :: v ∧ h₁.toLTree.Walk root (s ++ u) y ∧
      t₁.paths = t.paths.fill (s ++ u) ∧ t'.paths = t₁.paths ∧
      (u ≠ [] → (t₁.nodes y).isDir = true) ∧
      (validName c = true → (t₁.nodes y).isDir = true →
        ∃ a, t₁.paths (s ++ u ++ [c]) = some a ∧ a.kind ≠ .directory) := by
  induction comps generalizing t x s with
  | nil => cases heq
  | cons comp comps ih =>
    obtain ⟨e', t₁, heq', hpaths, hblock⟩ | ⟨next, t₁, h₁, heq', hwalk, hdir, hpaths⟩ :=
      h.ensureLoop_cons hcur (hcomps comp List.mem_cons_self) comps
    · rw [heq] at heq'
      cases heq'
      refine ⟨[], comp, comps, x, t, h, rfl, by rwa [List.append_nil], ?_, hpaths,
        fun hne => absurd rfl hne, by rwa [List.append_nil]⟩
      rw [List.append_nil, h.fill_walk hcur]
    · rw [heq'] at heq
      obtain ⟨u, c, v, y, t₂, h₂, rfl, hw, hp, hp', hd, hblock⟩ :=
        ih h₁ hwalk (fun c hc => hcomps c (List.mem_cons_of_mem comp hc)) heq
      have hassoc : s ++ comp :: u = s ++ [comp] ++ u := by simp
      refine ⟨comp :: u, c, v, y, t₂, h₂, rfl, by rwa [hassoc], ?_, hp', fun _ => ?_, ?_⟩
      · rw [hp, hpaths, fill_fill (List.prefix_append _ _), hassoc]
      · -- The directory just passed is one, whether it was there or not.
        by_cases hu : u = []
        · subst hu
          rw [List.append_nil] at hw hp
          have hsame : t₂.paths = t₁.paths := hp.trans (h₁.fill_walk hwalk)
          have hy := h₂.paths_eq_some.2 ⟨y, hw, rfl⟩
          rw [hsame, h₁.paths_eq_some.2 ⟨next, hwalk, rfl⟩] at hy
          rw [Node.isDir, ← Option.some.inj hy]
          exact hdir
        · exact hd hu
      · rwa [hassoc]

theorem WF.ensureLoop_fillable (h : t.WF) (hu : t.paths.Fillable u) :
    ∃ (y : NodeId) (t₁ : MetadataTree) (h₁ : t₁.WF), ensureLoop t root u = (.ok y, t₁) ∧
      h₁.toLTree.Walk root u y ∧ t₁.paths = t.paths.fill u := by
  have hroot := h.paths_eq_some.2 ⟨root, .nil root, rfl⟩
  have hdir : (t.nodes root).isDir = true :=
    h.isDir_root hroot (hu.directory _ _ List.nil_prefix hroot)
  have hparts : ∀ c ∈ u, c ≠ [] ∧ c ≠ dot := fun c hc =>
    ⟨(isPart_of_validName (hu.valid c hc)).1, (isPart_of_validName (hu.valid c hc)).2.1⟩
  obtain ⟨y, t₁, h₁, heq, hw, hp, -⟩ | ⟨e, t₁, q, c, v, heq, rfl, -, hblock⟩ :=
    h.ensureLoop_spec (.nil root) hparts
  · exact ⟨y, t₁, h₁, heq, hw, hp⟩
  · obtain ⟨a, ha, hk⟩ := hblock hu.valid hdir
    rw [List.nil_append] at ha
    exact absurd (hu.directory _ a ⟨v, by simp⟩ ha) hk

theorem WF.fillable_of_fill (h₁ : t'.WF) (hp : t'.paths = t.paths.fill u)
    (hw : h₁.toLTree.Walk root u y) (hu : t.paths u = none) : t.paths.Fillable u where
  valid := h₁.validNames_of_paths (by rw [h₁.paths_eq_some.2 ⟨y, hw, rfl⟩]; simp)
  directory q a hq ha := by
    have hsome : t'.paths u ≠ none := by
      rw [h₁.paths_eq_some.2 ⟨y, hw, rfl⟩]
      simp
    have hne : q ≠ u := by
      rintro rfl
      rw [hu] at ha
      cases ha
    obtain ⟨b, hb, hk⟩ := h₁.isTree.directory hsome hq hne
    rw [hp, PathMap.fill_of_some ha] at hb
    cases hb
    exact hk

theorem WF.ensureLoop_refused (h : t.WF) (hw : h.toLTree.Walk root u y) {c : Bytes}
    (hc : c ≠ [] ∧ c ≠ dot) (hinvalid : validName c = false) (v : List Bytes) :
    ∃ e t', ensureLoop t y (c :: v) = (.error e, t') ∧ t'.paths = t.paths := by
  obtain ⟨e, t₁, heq, hp, -⟩ | ⟨next, t₁, h₁, -, hwalk, -⟩ := h.ensureLoop_cons hw hc v
  · exact ⟨e, t₁, heq, hp⟩
  · have := h₁.validName_of_paths (by rw [h₁.paths_eq_some.2 ⟨next, hwalk, rfl⟩]; simp)
    rw [hinvalid] at this
    cases this

theorem ensureLoop_append (t : MetadataTree) (x : NodeId) (u w : List Bytes) :
    ensureLoop t x (u ++ w) =
      match ensureLoop t x u with
      | (.error e, t) => (.error e, t)
      | (.ok y, t) => ensureLoop t y w := by
  induction u generalizing t x with
  | nil => rfl
  | cons c u ih =>
    rw [List.cons_append, ensureLoop, ensureLoop]
    by_cases hskip : c = [] ∨ c = dot
    · rw [if_pos hskip, if_pos hskip, ih]
    rw [if_neg hskip, if_neg hskip]
    by_cases hdots : c = dotdot
    · rw [if_pos hdots, if_pos hdots]
    rw [if_neg hdots, if_neg hdots]
    cases t.findChild x c .exact with
    | some next =>
      dsimp only
      by_cases hdir : (!(t.nodes next).isDir) = true
      · rw [if_pos hdir, if_pos hdir]
      · rw [if_neg hdir, if_neg hdir, ih]
    | none =>
      dsimp only
      rcases t.insert x c kImplicitDirectory with ⟨e | created, t₁⟩
      · rfl
      · exact ih t₁ created

/-- **`ensure_directory_path`** leaves directories behind when it fails exactly on these paths. -/
theorem WF.ensureLoop_atomic_iff (h : t.WF) {comps : List Bytes}
    (hcomps : ∀ c ∈ comps, c ≠ [] ∧ c ≠ dot) :
    (∀ e t', ensureLoop t root comps = (.error e, t') → t'.paths = t.paths) ↔
      ¬ t.paths.Tears comps := by
  constructor
  · rintro hatomic ⟨u, c, ⟨v, hcs⟩, hnone, hfill, hinvalid⟩
    have hcs : comps = u ++ c :: v := by rw [← hcs]; simp
    obtain ⟨y, t₁, h₁, heq, hw, hp⟩ := h.ensureLoop_fillable hfill
    obtain ⟨e, t', herr, hp'⟩ := h₁.ensureLoop_refused hw (hcomps c (by rw [hcs]; simp)) hinvalid v
    have := hatomic e t' (by rw [hcs, ensureLoop_append, heq]; exact herr)
    rw [hp', hp] at this
    exact PathMap.fill_ne hnone this
  · intro htears e t' heq
    obtain ⟨u, c, v, y, t₁, h₁, rfl, hw, hp, hp', hd, hblock⟩ :=
      h.ensureLoop_error (.nil root) hcomps heq
    rw [List.nil_append] at hw hp hblock
    rw [hp', hp]
    by_contra hne
    have hnone : t.paths u = none := by
      by_contra hsome
      obtain ⟨a, ha⟩ := Option.ne_none_iff_exists'.1 hsome
      exact hne (h.fill_eq_self ha (List.prefix_refl u))
    refine htears ⟨u, c, ⟨v, by simp⟩, hnone, h₁.fillable_of_fill hp hw hnone, ?_⟩
    by_contra hvalid
    have hu : u ≠ [] := by
      rintro rfl
      rw [h.paths_eq_some.2 ⟨root, .nil root, rfl⟩] at hnone
      cases hnone
    obtain ⟨a, ha, -⟩ := hblock (by simpa using hvalid) (hd hu)
    rw [hp, PathMap.fill_concat, h.paths_append_eq_none hnone] at ha
    cases ha

/-- **`upsert_path`** does so on the same paths, with the leaf among the names. -/
theorem WF.upsertPath_atomic_iff (h : t.WF) (path : Bytes) (attr : Attributes) :
    (∀ e t', t.upsertPath path attr = (.error e, t') → t'.paths = t.paths) ↔
      ¬ t.paths.Tears (parts path) := by
  rcases List.eq_nil_or_concat (parts path) with hnil | ⟨cs, leaf, hcs⟩
  · rw [hnil]
    refine iff_of_true (fun e t' heq => ?_) ?_
    · rw [upsertPath, normalizePath_eq, hnil] at heq
      cases heq
      rfl
    · rintro ⟨u, c, hpre, -⟩
      have := hpre.length_le
      simp at this
  rw [List.concat_eq_append] at hcs
  have hne := fun c hc => forall_mem_parts path c (by rw [hcs]; exact List.mem_append_left _ hc)
  rw [hcs, PathMap.tears_concat_iff, not_or, ← h.ensureLoop_atomic_iff hne, t.upsertPath_eq hcs]
  cases hloop : ensureLoop t root cs with
  | mk r t₁ =>
    cases r with
    | error e =>
      -- The leaf is not reached, so the directories before it cannot all be passed.
      refine ⟨fun hatomic => ⟨hatomic, ?_⟩, fun hatomic => hatomic.1⟩
      rintro ⟨-, hfill, -⟩
      obtain ⟨y, t₂, -, heq, -⟩ := h.ensureLoop_fillable hfill
      rw [hloop] at heq
      cases heq
    | ok y =>
      dsimp only
      obtain ⟨y', t₂, h₁, heq, hw, hp, hd⟩ | ⟨e, t₂, q, c, v, heq, -⟩ :=
        h.ensureLoop_spec (.nil root) hne
      swap
      · rw [hloop] at heq
        cases heq
      rw [hloop] at heq
      cases heq
      rw [List.nil_append] at hw hp
      constructor
      · refine fun hatomic => ⟨fun e t' heq => (by cases heq), ?_⟩
        rintro ⟨hnone, -, hinvalid⟩
        obtain ⟨id, t', hup, hp'⟩ | ⟨e, t', hup, hp', -⟩ := h₁.upsert_spec hw leaf attr
        · have hwf := (h₁.kept_upsert y leaf attr).wf
          rw [hup] at hwf
          have := hwf.validName_of_paths (s := cs) (n := leaf) (by simp [hp', PathMap.set])
          rw [hinvalid] at this
          cases this
        · have := hatomic e t' hup
          rw [hp', hp] at this
          exact PathMap.fill_ne hnone this
      · rintro ⟨-, hleaf⟩ e t' hup
        rw [h₁.upsert_error hup, hp]
        by_contra hchange
        have hnone : t.paths cs = none := by
          by_contra hsome
          obtain ⟨a, ha⟩ := Option.ne_none_iff_exists'.1 hsome
          exact hchange (h.fill_eq_self ha (List.prefix_refl cs))
        have hfill := h₁.fillable_of_fill hp hw hnone
        have hroot := h.paths_eq_some.2 ⟨root, .nil root, rfl⟩
        have hdir := hd (h.isDir_root hroot (hfill.directory _ _ List.nil_prefix hroot))
        obtain ⟨id, t₂, hup', -⟩ | ⟨e', t₂, hup', -, hinv⟩ := h₁.upsert_spec hw leaf attr
        · rw [hup] at hup'
          cases hup'
        · refine hleaf ⟨hnone, hfill, ?_⟩
          by_contra hvalid
          rw [hinv (by simpa using hvalid)] at hdir
          cases hdir

/-! ### Snapshots -/

theorem loadLoop_error_iff (t : MetadataTree) (ids : List (Option NodeId))
    (es : List SnapshotEntry) :
    (∃ e t', loadLoop t ids es = (.error e, t')) ↔
      ¬ ∀ (k : ℕ) (e : SnapshotEntry), es[k]? = some e → e.parent.toNat < ids.length + k := by
  induction es generalizing t ids with
  | nil => simp [loadLoop]
  | cons e es ih =>
    have hstep : (∀ (k : ℕ) (d : SnapshotEntry), (e :: es)[k]? = some d →
        d.parent.toNat < ids.length + k) ↔ e.parent.toNat < ids.length ∧
        ∀ (k : ℕ) (d : SnapshotEntry), es[k]? = some d →
          d.parent.toNat < ids.length + 1 + k := by
      constructor
      · intro h
        refine ⟨h 0 e rfl, fun k d hd => ?_⟩
        have := h (k + 1) d hd
        omega
      · rintro ⟨h0, h⟩ k d hd
        cases k with
        | zero =>
          cases hd
          exact h0
        | succ k =>
          have := h k d hd
          omega
    rw [hstep, loadLoop]
    cases hp : ids[e.parent.toNat]? with
    | none =>
      have := List.getElem?_eq_none_iff.1 hp
      exact iff_of_true ⟨_, _, rfl⟩ fun h => by omega
    | some o =>
      have hlt := (List.getElem?_eq_some_iff.1 hp).1
      have hrest : ∀ (t : MetadataTree) (o : Option NodeId),
          (∃ e t', loadLoop t (ids ++ [o]) es = (.error e, t')) ↔
            ¬ (e.parent.toNat < ids.length ∧ ∀ (k : ℕ) (d : SnapshotEntry), es[k]? = some d →
              d.parent.toNat < ids.length + 1 + k) := by
        intro t o
        rw [ih, List.length_append, List.length_singleton]
        simp [hlt]
      cases o with
      | none => exact hrest _ _
      | some parent =>
        dsimp only
        rcases t.insert parent e.name e.attr with ⟨err | id, t₁⟩
        · exact hrest _ _
        · exact hrest _ _

theorem loadSnapshot_error_iff (t : MetadataTree) (entries : List SnapshotEntry) :
    (∃ e t', t.loadSnapshot entries = (.error e, t')) ↔ ¬ InOrder entries := by
  rw [loadSnapshot, loadLoop_error_iff, InOrder]
  simp only [List.length_singleton, Nat.add_comm 1, Nat.lt_succ_iff]

/-! ### All calls -/

/-- What a call has to avoid, for the paths of the tree before it. -/
def Op.Spares (M : PathMap) : Op → Prop
  | .ensureDirectoryPath path | .upsertPath path _ => ¬ M.Tears (parts path)
  | .loadSnapshot entries =>
    InOrder entries ∨ M = PathMap.load PathMap.empty [some []] entries
  | _ => True

theorem outcome_error_iff {α : Type} {f : α → Option NodeId} {r : Except Errc α × MetadataTree} :
    outcome f r = (.error e, t') ↔ r = (.error e, t') := by
  obtain ⟨o, t₁⟩ := r
  cases o <;> simp [outcome, Except.map]

/-- **Failing calls are atomic, as far as it goes.**  In every reachable tree a call that fails
leaves the paths and their attributes alone exactly if it does not create directories before a
name that is refused and, for a snapshot, does not reject it or happens to find in it what the
tree holds. -/
theorem failing_call_atomic_iff (ops : List Op) (op : Op) :
    (∀ e t', (run ops).apply op = (.error e, t') → t'.paths = (run ops).paths) ↔
      op.Spares (run ops).paths := by
  have h : (run ops).WF := wf_run ops
  generalize run ops = t at h
  cases op with
  | insert parent name attr =>
    exact iff_of_true (fun e t' heq => h.insert_error (outcome_error_iff.1 heq)) trivial
  | upsert parent name attr =>
    exact iff_of_true (fun e t' heq => h.upsert_error (outcome_error_iff.1 heq)) trivial
  | setAttributes id attr =>
    exact iff_of_true (fun e t' heq => by rw [setAttributes_error (outcome_error_iff.1 heq)])
      trivial
  | remove id =>
    exact iff_of_true (fun e t' heq => by rw [remove_error (outcome_error_iff.1 heq)]) trivial
  | rename id newParent newName =>
    exact iff_of_true (fun e t' heq => h.rename_error (outcome_error_iff.1 heq)) trivial
  | ensureDirectoryPath path =>
    simp only [apply, outcome_error_iff, ensureDirectoryPath_eq]
    exact h.ensureLoop_atomic_iff (forall_mem_parts path)
  | upsertPath path attr =>
    simp only [apply, outcome_error_iff]
    exact h.upsertPath_atomic_iff path attr
  | removePath path mode =>
    exact iff_of_true (fun e t' heq => by rw [removePath_error (outcome_error_iff.1 heq)]) trivial
  | loadSnapshot entries =>
    have hpaths := t.loadSnapshot_paths entries
    simp only [apply, outcome_error_iff, Op.Spares]
    by_cases hord : InOrder entries
    · refine iff_of_true (fun e t' heq => ?_) (.inl hord)
      exact absurd hord ((t.loadSnapshot_error_iff entries).1 ⟨e, t', heq⟩)
    · obtain ⟨e, t', heq⟩ := (t.loadSnapshot_error_iff entries).2 hord
      rw [heq] at hpaths
      refine ⟨fun hatomic => .inr ?_, fun hspares e₁ t₁ heq₁ => ?_⟩
      · rw [← hpaths, hatomic e t' heq]
      · rw [heq] at heq₁
        cases heq₁
        rw [hpaths, hspares.resolve_left hord]
  | clear => exact iff_of_true (fun e t' heq => by cases heq) trivial

/-- A snapshot whose only entry names a parent behind it empties the mirror of one file, and
`new/..` leaves a directory `new` behind. -/
theorem failing_calls_change_paths :
    (let t := run [.upsertPath (bytes "f") {}]
     let r := t.apply (.loadSnapshot [⟨7, bytes "f", {}⟩])
     r.1 = .error .corrupt ∧ t.paths [bytes "f"] = some {} ∧ r.2.paths [bytes "f"] = none) ∧
    (let r := (run []).apply (.ensureDirectoryPath (bytes "new/.."))
     r.1 = .error .invalidPath ∧ (run []).paths [bytes "new"] = none ∧
       r.2.paths [bytes "new"] = some kImplicitDirectory) := by
  refine ⟨⟨rfl, by decide +kernel, by decide +kernel⟩, rfl, by decide +kernel, by decide +kernel⟩

end MetadataTree

end WslDrive
