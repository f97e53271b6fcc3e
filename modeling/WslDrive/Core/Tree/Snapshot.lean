import WslDrive.Core.Tree.Effects

/-!
# Snapshots and changes

A subtree reaches the mirror in two ways.  A snapshot names the parent of each entry by its index
and gives the name as it is; a batch of changes gives the joined path, which is cut again at every
separator.  A Linux file name may hold a backslash, which is one.

* `Scanned` — the entries a walk over a Linux tree hands out;
* `composed` — the paths that are joined from them;
* `Harmless` — a name that both ways treat alike;
* `load_eq_upserts_iff` — the two ways build the same tree exactly for harmless names.
-/

namespace WslDrive

open MetadataTree Path

/-- The names a Linux directory can hold. -/
structure LinuxName (name : Bytes) : Prop where
  ne_nil : name ≠ []
  ne_dot : name ≠ dot
  ne_dotdot : name ≠ dotdot
  no_slash : slash ∉ name
  no_nul : 0 ∉ name

/-- The entries of a walk: the parent of each is the root or a directory among the entries before
it, and no two entries of a directory share their name. -/
structure Scanned (es : List SnapshotEntry) : Prop where
  parent : ∀ k e, es[k]? = some e → e.parent.toNat = 0 ∨
    ∃ j d, j < k ∧ es[j]? = some d ∧ d.attr.kind = .directory ∧ e.parent.toNat = j + 1
  linuxName : ∀ e ∈ es, LinuxName e.name
  distinct : ∀ (j k : ℕ) (d e : SnapshotEntry), es[j]? = some d → es[k]? = some e →
    d.parent = e.parent → d.name = e.name → j = k

/-- The paths of the entries: that of the parent, a slash and the name.  `rels` are the paths of
the entries so far, that of the root first. -/
def composed : List Bytes → List SnapshotEntry → List (Bytes × Attributes)
  | _, [] => []
  | rels, e :: es =>
    let p := rels.getD e.parent.toNat [] ++ slash :: e.name
    (p, e.attr) :: composed (rels ++ [p]) es

/-- `upsert_path` for each path in order. -/
def MetadataTree.upserts (t : MetadataTree) (changes : List (Bytes × Attributes)) : MetadataTree :=
  changes.foldl (fun t c => (t.upsertPath c.1 c.2).2) t

/-- A name that is one component, or that the tree refuses at its first component. -/
def Harmless (name : Bytes) : Prop := 0x5C ∉ name ∨ (parts name).head? = some dotdot

instance (name : Bytes) : Decidable (Harmless name) := inferInstanceAs (Decidable (_ ∨ _))

/-! ### Names -/

theorem LinuxName.validName_iff {name : Bytes} (h : LinuxName name) :
    validName name = true ↔ 0x5C ∉ name := by
  simp only [validName, Bool.and_eq_true, Bool.not_eq_true', Bool.or_eq_false_iff,
    beq_eq_false_iff_ne, List.all_eq_true]
  constructor
  · rintro ⟨-, hall⟩ hmem
    exact absurd (hall _ hmem).1 (by decide)
  · intro hback
    refine ⟨⟨⟨h.ne_nil, h.ne_dot⟩, h.ne_dotdot⟩, fun b hb => ⟨?_, ?_⟩⟩
    · rw [isPathSeparator, Bool.or_eq_false_iff, beq_eq_false_iff_ne, beq_eq_false_iff_ne]
      exact ⟨fun hs => h.no_slash (by rwa [hs] at hb), fun hs => hback (hs ▸ hb)⟩
    · rintro rfl
      exact h.no_nul hb

theorem parts_of_validName {name : Bytes} (h : validName name = true) : parts name = [name] := by
  have hone : parts ([slash].intercalate [name]) = [name] := parts_join (by simpa using h)
  simpa using hone

theorem not_validName_dotdot : validName dotdot = false := by decide

theorem LinuxName.validName_part {name c : Bytes} (h : LinuxName name) (hc : c ∈ parts name)
    (hne : c ≠ dotdot) : validName c = true := by
  have hpart := isPart_of_mem_parts hc
  simp only [validName, Bool.and_eq_true, Bool.not_eq_true', Bool.or_eq_false_iff,
    beq_eq_false_iff_ne, List.all_eq_true]
  refine ⟨⟨⟨hpart.1, hpart.2.1⟩, hne⟩, fun b hb => ⟨hpart.2.2 b hb, ?_⟩⟩
  rintro rfl
  exact h.no_nul (mem_of_mem_parts hc hb)

namespace MetadataTree

variable {t : MetadataTree} {path : Bytes} {a : Attributes} {p : List Bytes}

/-! ### `upsert_path` in a directory that is there -/

theorem WF.open_of_directory (h : t.WF) (hp : t.paths p = some a) (hk : a.kind = .directory)
    (name : Bytes) : t.paths.Open (p ++ [name]) := by
  intro q b hq hb
  rw [List.dropLast_concat] at hq
  obtain ⟨v, rfl⟩ := hq
  by_contra hkb
  by_cases hv : v = []
  · rw [hv, List.append_nil, hb] at hp
    cases hp
    exact hkb hk
  · rw [h.paths_below_eq_none hb hkb hv] at hp
    cases hp

theorem WF.isDir_root_of_directory (h : t.WF) (hp : t.paths p = some a)
    (hk : a.kind = .directory) : (t.nodes root).isDir = true := by
  have hb : t.paths [] = some (t.nodes root).attr := h.paths_eq_some.2 ⟨root, .nil root, rfl⟩
  exact h.isDir_root hb (h.open_of_directory hp hk [] [] _ List.nil_prefix hb)

theorem WF.upsertPath_add (h : t.WF) {name : Bytes} (hpath : parts path = p ++ [name])
    (hp : t.paths p = some a) (hk : a.kind = .directory) (hname : validName name = true)
    (hnew : t.paths (p ++ [name]) = none) (attr : Attributes) :
    (t.upsertPath path attr).2.paths = t.paths.add (p ++ [name]) attr := by
  have hvalid : ∀ c ∈ parts path, validName c = true := by
    rw [hpath]
    intro c hc
    rcases List.mem_append.1 hc with hc | hc
    · exact h.validNames_of_paths (by rw [hp]; simp) c hc
    · rw [List.mem_singleton.1 hc]
      exact hname
  rw [h.upsertPath_open (h.isDir_root_of_directory hp hk) (by simp [hpath]) hvalid
    (by rw [hpath]; exact h.open_of_directory hp hk name), hpath, List.dropLast_concat,
    h.fill_eq_self hp (List.prefix_refl p), h.set_eq_add hnew]

theorem WF.upsertPath_dotdot (h : t.WF) {rest : List Bytes}
    (hpath : parts path = p ++ dotdot :: rest) (hp : t.paths p = some a) (attr : Attributes) :
    (t.upsertPath path attr).2.paths = t.paths := by
  have hwf := (h.kept_upsertPath path attr).wf
  have hbad : ∀ {t' : MetadataTree} {u : List Bytes}, t'.WF → p ++ [dotdot] <+: u →
      t'.paths u ≠ none → False := by
    rintro t' u h' ⟨v, rfl⟩ hu
    have := h'.validNames_of_paths hu dotdot (by simp)
    rw [not_validName_dotdot] at this
    cases this
  have hlong : p ++ [dotdot] <+: parts path := ⟨rest, by simp [hpath]⟩
  obtain ⟨id, t', heq, hp'⟩ | ⟨e, t', u, heq, hu, hp', -⟩ := h.upsertPath_spec path attr
  · rw [heq] at hwf
    refine (hbad hwf hlong ?_).elim
    rw [hp', PathMap.set_self]
    simp
  · rw [heq]
    rw [heq] at hwf
    have hup : u <+: p := by
      rcases List.prefix_or_prefix_of_prefix (hu.trans (List.dropLast_prefix _)) hlong with
        hshort | hge
      · rcases List.prefix_concat_iff.1 hshort with rfl | hshort
        · refine (hbad hwf (List.prefix_refl _) ?_).elim
          rw [hp']
          exact PathMap.fill_self_ne_none
        · exact hshort
      · refine (hbad hwf hge ?_).elim
        rw [hp']
        exact PathMap.fill_self_ne_none
    exact hp'.trans (h.fill_eq_self hp hup)

end MetadataTree

/-! ### The two ways side by side -/

/-- The paths `ps` that the loader holds for the entries so far, and the joined ones. -/
structure Aligned (M : PathMap) (done : List SnapshotEntry) (ps : List (Option (List Bytes)))
    (rels : List Bytes) : Prop where
  length_ps : ps.length = done.length + 1
  length_rels : rels.length = done.length + 1
  root : ps[0]? = some (some []) ∧ ∃ a, M [] = some a ∧ a.kind = .directory
  /-- An entry that is kept has the components of its joined path. -/
  kept : ∀ (i : ℕ) p, ps[i]? = some (some p) → parts (rels.getD i []) = p
  attr : ∀ j e p, done[j]? = some e → ps[j + 1]? = some (some p) → M p = some e.attr
  /-- An entry that is dropped is at a path that leads up from a directory. -/
  dropped : ∀ i : ℕ, ps[i]? = some none →
    ∃ p rest a, parts (rels.getD i []) = p ++ dotdot :: rest ∧ M p = some a ∧ a.kind = .directory
  only : ∀ p, M p ≠ none → ∃ i : ℕ, ps[i]? = some (some p)
  step : ∀ j e q, done[j]? = some e → ps[j + 1]? = some (some q) →
    ∃ p, ps[e.parent.toNat]? = some (some p) ∧ q = p ++ [e.name]
  inj : ∀ (i j : ℕ) p, ps[i]? = some (some p) → ps[j]? = some (some p) → i = j

theorem getElem?_concat {α : Type*} {l : List α} {x y : α} {i : ℕ} :
    (l ++ [x])[i]? = some y ↔ l[i]? = some y ∨ i = l.length ∧ x = y := by
  rw [List.getElem?_append]
  split_ifs with hi
  · exact ⟨.inl, fun h => h.resolve_right fun h => by omega⟩
  · rw [List.getElem?_eq_none (Nat.le_of_not_lt hi), List.getElem?_singleton]
    split_ifs with h0
    · exact ⟨fun h => .inr ⟨by omega, Option.some.inj h⟩, fun h => by
        rcases h with h | ⟨-, rfl⟩
        · cases h
        · rfl⟩
    · refine iff_of_false (by simp) ?_
      rintro (h | ⟨h, -⟩)
      · cases h
      · omega

theorem getD_concat_of_lt {l : List Bytes} {i : ℕ} (hi : i < l.length) (x : Bytes) :
    (l ++ [x]).getD i [] = l.getD i [] := by
  rw [List.getD_eq_getElem?_getD, List.getD_eq_getElem?_getD, List.getElem?_append_left hi]

theorem getD_concat_length (l : List Bytes) (x : Bytes) : (l ++ [x]).getD l.length [] = x := by
  rw [List.getD_eq_getElem?_getD, List.getElem?_concat_length]
  rfl

namespace Aligned

variable {M : PathMap} {done : List SnapshotEntry} {ps : List (Option (List Bytes))}
  {rels : List Bytes} {e : SnapshotEntry} {p : List Bytes}

theorem lt_length (h : Aligned M done ps rels) {i : ℕ} {o : Option (List Bytes)}
    (hi : ps[i]? = some o) : i < rels.length := by
  obtain ⟨hlt, -⟩ := List.getElem?_eq_some_iff.1 hi
  rw [h.length_rels, ← h.length_ps]
  exact hlt

theorem start {a : Attributes} (hk : a.kind = .directory) (hroot : M [] = some a)
    (hM : ∀ q, q ≠ [] → M q = none) : Aligned M [] [some []] [[]] where
  length_ps := rfl
  length_rels := rfl
  root := ⟨rfl, a, hroot, hk⟩
  kept i p hi := by
    obtain ⟨rfl, rfl⟩ : i = 0 ∧ p = [] := by
      rcases i with _ | i <;> simp_all
    rfl
  attr j e p hj := by simp at hj
  dropped i hi := by rcases i with _ | i <;> simp at hi
  only q hq := ⟨0, by
    by_contra hne
    exact hq (hM q fun h => hne (by rw [h]; rfl))⟩
  step j e q hj := by simp at hj
  inj i j p hi hj := by rcases i with _ | i <;> rcases j with _ | j <;> simp_all

theorem lt_done (h : Aligned M done ps rels) {j : ℕ} {o : Option (List Bytes)}
    (hj : ps[j + 1]? = some o) : j < done.length := by
  have := h.lt_length hj
  rw [h.length_rels] at this
  omega

theorem directory (h : Aligned M done ps rels) (hp : ps[e.parent.toNat]? = some (some p))
    (hparent : e.parent.toNat = 0 ∨
      ∃ j d, done[j]? = some d ∧ d.attr.kind = .directory ∧ e.parent.toNat = j + 1) :
    ∃ a, M p = some a ∧ a.kind = .directory := by
  rcases hparent with h0 | ⟨j, d, hd, hk, hj⟩
  · rw [h0, h.root.1] at hp
    cases hp
    exact h.root.2
  · rw [hj] at hp
    exact ⟨_, h.attr j d p hd hp, hk⟩

theorem new (h : Aligned M done ps rels) (hp : ps[e.parent.toNat]? = some (some p))
    (hdistinct : ∀ d ∈ done, d.parent = e.parent → d.name ≠ e.name) :
    M (p ++ [e.name]) = none := by
  by_contra hsome
  obtain ⟨i, hi⟩ := h.only _ hsome
  rcases i with _ | j
  · rw [h.root.1] at hi
    simp at hi
  · have hj := h.lt_done hi
    have hd : done[j]? = some done[j] := List.getElem?_eq_getElem hj
    obtain ⟨q, hq, heq⟩ := h.step j _ _ hd hi
    obtain ⟨rfl, hname⟩ := List.append_inj' heq rfl
    have hparent := h.inj _ _ p hp hq
    exact hdistinct _ (List.getElem_mem hj) (UInt32.toNat_inj.1 hparent.symm)
      (by simpa using hname.symm)

theorem keep (h : Aligned M done ps rels) (hp : ps[e.parent.toNat]? = some (some p))
    (hname : validName e.name = true) (hnew : M (p ++ [e.name]) = none) :
    Aligned (M.add (p ++ [e.name]) e.attr) (done ++ [e]) (ps ++ [some (p ++ [e.name])])
      (rels ++ [rels.getD e.parent.toNat [] ++ slash :: e.name]) := by
  have hold : ∀ {q a}, M q = some a → M.add (p ++ [e.name]) e.attr q = some a := by
    intro q a hq
    rw [PathMap.add_of_ne, hq]
    rintro rfl
    rw [hnew] at hq
    cases hq
  have hlen : ps.length = rels.length := by rw [h.length_ps, h.length_rels]
  have hpsold : ∀ {i o}, ps[i]? = some o → (ps ++ [some (p ++ [e.name])])[i]? = some o :=
    fun hi => getElem?_concat.2 (.inl hi)
  -- No entry so far has the new path.
  have hfresh : ∀ i : ℕ, ps[i]? ≠ some (some (p ++ [e.name])) := by
    intro i hi
    rcases i with _ | j
    · rw [h.root.1] at hi
      simp at hi
    · have := h.attr j _ _ (List.getElem?_eq_getElem (h.lt_done hi)) hi
      rw [hnew] at this
      cases this
  -- An entry and its path are both old or both new.
  have hboth : ∀ {j d q}, (done ++ [e])[j]? = some d →
      (ps ++ [some (p ++ [e.name])])[j + 1]? = some (some q) →
      done[j]? = some d ∧ ps[j + 1]? = some (some q) ∨ d = e ∧ q = p ++ [e.name] := by
    intro j d q hd hq
    rcases getElem?_concat.1 hd with hd | ⟨rfl, rfl⟩
    · rcases getElem?_concat.1 hq with hq | ⟨hj, -⟩
      · exact .inl ⟨hd, hq⟩
      · have := (List.getElem?_eq_some_iff.1 hd).1
        rw [h.length_ps] at hj
        omega
    · rcases getElem?_concat.1 hq with hq | ⟨-, hq⟩
      · exact absurd (h.lt_done hq) (Nat.lt_irrefl _)
      · cases hq
        exact .inr ⟨rfl, rfl⟩
  refine ⟨by simp [h.length_ps], by simp [h.length_rels], ⟨hpsold h.root.1, ?_⟩, ?_, ?_, ?_, ?_, ?_,
    ?_⟩
  · obtain ⟨a, ha, hk⟩ := h.root.2
    exact ⟨a, hold ha, hk⟩
  · intro i q hi
    rcases getElem?_concat.1 hi with hi | ⟨rfl, hq⟩
    · rw [getD_concat_of_lt (h.lt_length hi), h.kept i q hi]
    · cases hq
      rw [hlen, getD_concat_length, parts_append_slash, h.kept _ p hp, parts_of_validName hname]
  · intro j d q hd hq
    rcases hboth hd hq with ⟨hd, hq⟩ | ⟨rfl, rfl⟩
    · exact hold (h.attr j d q hd hq)
    · exact PathMap.add_self
  · intro i hi
    rcases getElem?_concat.1 hi with hi | ⟨-, hq⟩
    · obtain ⟨q, rest, a, hparts, ha, hk⟩ := h.dropped i hi
      exact ⟨q, rest, a, by rw [getD_concat_of_lt (h.lt_length hi), hparts], hold ha, hk⟩
    · cases hq
  · intro q hq
    by_cases hself : q = p ++ [e.name]
    · exact ⟨ps.length, getElem?_concat.2 (.inr ⟨rfl, by rw [hself]⟩)⟩
    · rw [PathMap.add_of_ne hself] at hq
      obtain ⟨i, hi⟩ := h.only q hq
      exact ⟨i, hpsold hi⟩
  · intro j d q hd hq
    rcases hboth hd hq with ⟨hd, hq⟩ | ⟨rfl, rfl⟩
    · obtain ⟨p', hp', heq⟩ := h.step j d q hd hq
      exact ⟨p', hpsold hp', heq⟩
    · exact ⟨p, hpsold hp, rfl⟩
  · intro i j q hi hj
    rcases getElem?_concat.1 hi with hi | ⟨rfl, hq⟩ <;>
      rcases getElem?_concat.1 hj with hj | ⟨rfl, hq'⟩
    · exact h.inj i j q hi hj
    · cases hq'
      exact absurd hi (hfresh i)
    · cases hq
      exact absurd hj (hfresh j)
    · rfl

theorem drop (h : Aligned M done ps rels)
    (hdotdot : ∃ p rest a, parts (rels.getD e.parent.toNat [] ++ slash :: e.name) =
      p ++ dotdot :: rest ∧ M p = some a ∧ a.kind = .directory) :
    Aligned M (done ++ [e]) (ps ++ [none])
      (rels ++ [rels.getD e.parent.toNat [] ++ slash :: e.name]) := by
  have hlen : ps.length = rels.length := by rw [h.length_ps, h.length_rels]
  have hsome : ∀ {i : ℕ} {q}, (ps ++ [none])[i]? = some (some q) ↔ ps[i]? = some (some q) := by
    intro i q
    rw [getElem?_concat]
    exact ⟨fun hi => hi.resolve_right (fun h => nomatch h.2), .inl⟩
  have hdone : ∀ {j d q}, (done ++ [e])[j]? = some d → ps[j + 1]? = some (some q) →
      done[j]? = some d := by
    intro j d q hd hq
    refine (getElem?_concat.1 hd).resolve_right ?_
    rintro ⟨rfl, -⟩
    exact absurd (h.lt_done hq) (Nat.lt_irrefl _)
  refine ⟨by simp [h.length_ps], by simp [h.length_rels], ⟨hsome.2 h.root.1, h.root.2⟩,
    fun i q hi => ?_, fun j d q hd hq => ?_, fun i hi => ?_, fun q hq => ?_, fun j d q hd hq => ?_,
    fun i j q hi hj => h.inj i j q (hsome.1 hi) (hsome.1 hj)⟩
  · rw [getD_concat_of_lt (h.lt_length (hsome.1 hi)), h.kept i q (hsome.1 hi)]
  · exact h.attr j d q (hdone hd (hsome.1 hq)) (hsome.1 hq)
  · rcases getElem?_concat.1 hi with hi | ⟨rfl, -⟩
    · rw [getD_concat_of_lt (h.lt_length hi)]
      exact h.dropped i hi
    · rw [hlen, getD_concat_length]
      exact hdotdot
  · obtain ⟨i, hi⟩ := h.only q hq
    exact ⟨i, hsome.2 hi⟩
  · obtain ⟨p', hp', heq⟩ := h.step j d q (hdone hd (hsome.1 hq)) (hsome.1 hq)
    exact ⟨p', hsome.2 hp', heq⟩

end Aligned

theorem Scanned.parent_append {done es : List SnapshotEntry} {e : SnapshotEntry}
    (h : Scanned (done ++ e :: es)) : e.parent.toNat = 0 ∨
      ∃ j d, done[j]? = some d ∧ d.attr.kind = .directory ∧ e.parent.toNat = j + 1 := by
  rcases h.parent done.length e (by simp) with h0 | ⟨j, d, hlt, hd, hk, hj⟩
  · exact .inl h0
  · rw [List.getElem?_append_left hlt] at hd
    exact .inr ⟨j, d, hd, hk, hj⟩

theorem Scanned.distinct_append {done es : List SnapshotEntry} {e : SnapshotEntry}
    (h : Scanned (done ++ e :: es)) : ∀ d ∈ done, d.parent = e.parent → d.name ≠ e.name := by
  intro d hd hparent hname
  obtain ⟨j, hj, rfl⟩ := List.getElem_of_mem hd
  have hd' : (done ++ e :: es)[j]? = some done[j] := by
    rw [List.getElem?_append_left hj, List.getElem?_eq_getElem hj]
  have := h.distinct j done.length done[j] e hd' (by simp) hparent hname
  omega

/-- **One after the other, the two ways make the same step for a harmless name.** -/
theorem Aligned.upserts_eq {t : MetadataTree} (h : t.WF) {done : List SnapshotEntry}
    {ps : List (Option (List Bytes))} {rels : List Bytes} (hal : Aligned t.paths done ps rels)
    {es : List SnapshotEntry} (hes : Scanned (done ++ es)) (hharm : ∀ e ∈ es, Harmless e.name) :
    (t.upserts (composed rels es)).paths = PathMap.load t.paths ps es := by
  induction es generalizing t done ps rels with
  | nil => rfl
  | cons e es ih =>
    have hwf := (h.kept_upsertPath (rels.getD e.parent.toNat [] ++ slash :: e.name) e.attr).wf
    have hes' : Scanned ((done ++ [e]) ++ es) := by simpa using hes
    have hharm' : ∀ e ∈ es, Harmless e.name := fun d hd => hharm d (List.mem_cons_of_mem e hd)
    rw [composed, upserts, List.foldl_cons, ← upserts, PathMap.load]
    dsimp only
    -- A path that leads up from a directory changes nothing, and the entry is dropped.
    have hdrop : (∃ p rest a, parts (rels.getD e.parent.toNat [] ++ slash :: e.name) =
        p ++ dotdot :: rest ∧ t.paths p = some a ∧ a.kind = .directory) →
        ((t.upsertPath (rels.getD e.parent.toNat [] ++ slash :: e.name) e.attr).2.upserts
          (composed (rels ++ [rels.getD e.parent.toNat [] ++ slash :: e.name]) es)).paths =
          PathMap.load t.paths (ps ++ [none]) es := by
      intro hdots
      obtain ⟨p, rest, a, hparts, hp, hk⟩ := hdots
      have hsame := h.upsertPath_dotdot hparts hp e.attr
      rw [← hsame]
      refine ih hwf ?_ hes' hharm'
      rw [hsame]
      exact hal.drop ⟨p, rest, a, hparts, hp, hk⟩
    cases hq : ps[e.parent.toNat]? with
    | none =>
      -- The parent is among the entries so far.
      exfalso
      rw [List.getElem?_eq_none_iff, hal.length_ps] at hq
      rcases hes.parent_append with h0 | ⟨j, d, hd, -, hj⟩
      · omega
      · have := (List.getElem?_eq_some_iff.1 hd).1
        omega
    | some o =>
      cases o with
      | none =>
        obtain ⟨p, rest, a, hparts, hp, hk⟩ := hal.dropped _ hq
        refine hdrop ⟨p, rest ++ parts e.name, a, ?_, hp, hk⟩
        rw [parts_append_slash, hparts, List.append_assoc, List.cons_append]
      | some p =>
        obtain ⟨a, hp, hk⟩ := hal.directory hq hes.parent_append
        have hnew := hal.new hq hes.distinct_append
        dsimp only
        by_cases hname : validName e.name = true
        · have hparts : parts (rels.getD e.parent.toNat [] ++ slash :: e.name) =
              p ++ [e.name] := by
            rw [parts_append_slash, hal.kept _ p hq, parts_of_validName hname]
          have hadd := h.upsertPath_add hparts hp hk hname hnew e.attr
          rw [if_pos (by simp [PathMap.free, hp, hk, hname, hnew]), ← hadd]
          refine ih hwf ?_ hes' hharm'
          rw [hadd]
          exact hal.keep hq hname hnew
        · rw [if_neg (by simp [PathMap.free, hname])]
          have hlinux := hes.linuxName e (by simp)
          have hhead := (hharm e List.mem_cons_self).resolve_left
            fun hback => hname (hlinux.validName_iff.2 hback)
          obtain ⟨rest, hrest⟩ := List.head?_eq_some_iff.1 hhead
          refine hdrop ⟨p, rest, a, ?_, hp, hk⟩
          rw [parts_append_slash, hal.kept _ p hq, hrest]

/-! ### The result -/

/-- A name alone in the root. -/
def probeAlone (name : Bytes) : List SnapshotEntry := [⟨0, name, {}⟩]

/-- A name in a directory. -/
def probeBelow (name : Bytes) : List SnapshotEntry :=
  [⟨0, bytes "d", kImplicitDirectory⟩, ⟨1, name, {}⟩]

theorem LinuxName.scanned_probeAlone {name : Bytes} (h : LinuxName name) :
    Scanned (probeAlone name) where
  parent k e he := by
    rcases k with _ | k
    · cases he
      exact .inl rfl
    · simp [probeAlone] at he
  linuxName e he := by
    rw [List.mem_singleton.1 he]
    exact h
  distinct j k d e hj hk _ _ := by
    rcases j with _ | j <;> rcases k with _ | k <;> simp_all [probeAlone]

theorem LinuxName.scanned_probeBelow {name : Bytes} (h : LinuxName name) :
    Scanned (probeBelow name) where
  parent k e he := by
    rcases k with _ | _ | k
    · cases he
      exact .inl rfl
    · cases he
      exact .inr ⟨0, _, Nat.zero_lt_one, rfl, rfl, rfl⟩
    · simp [probeBelow] at he
  linuxName e he := by
    rcases List.mem_cons.1 he with rfl | he
    · exact ⟨by decide, by decide, by decide, by decide, by decide⟩
    · rw [List.mem_singleton.1 he]
      exact h
  distinct j k d e hj hk hparent _ := by
    rcases j with _ | _ | j <;> rcases k with _ | _ | k <;> first | rfl | simp [probeBelow] at hj hk
    · cases hj
      cases hk
      exact absurd hparent (show (0 : UInt32) ≠ 1 by decide)
    · cases hj
      cases hk
      exact absurd hparent (show (1 : UInt32) ≠ 0 by decide)

theorem PathMap.load_dropped {M : PathMap} {ps : List (Option (List Bytes))} {e : SnapshotEntry}
    {p : List Bytes} (hp : ps[e.parent.toNat]? = some (some p)) (hname : validName e.name = false)
    (es : List SnapshotEntry) : load M ps (e :: es) = load M (ps ++ [none]) es := by
  rw [load, hp]
  dsimp only
  rw [if_neg (by simp [free, hname])]

theorem PathMap.set_ne_none {M : PathMap} {p q : List Bytes} {a : Attributes}
    (hq : q <+: p) (h : M q ≠ none) : M.set p a q ≠ none := by
  rw [PathMap.set]
  split_ifs with heq hcut
  · simp
  · exact absurd (hq.eq_of_length_le hcut.2.length_le) heq
  · exact h

theorem MetadataTree.WF.upsertPath_single {t : MetadataTree} (h : t.WF)
    (hroot : (t.nodes MetadataTree.root).isDir = true) {path c : Bytes} (hpath : parts path = [c])
    (hc : validName c = true) (attr : Attributes) :
    (t.upsertPath path attr).2.paths = t.paths.set [c] attr := by
  have hroot' : t.paths [] = some (t.nodes MetadataTree.root).attr :=
    h.paths_eq_some.2 ⟨_, .nil _, rfl⟩
  rw [h.upsertPath_open hroot (by simp [hpath]) (by simpa [hpath] using hc), hpath,
    List.dropLast_singleton, h.fill_eq_self hroot' (List.prefix_refl [])]
  rw [hpath]
  exact h.open_of_directory hroot' (by simpa [Node.isDir] using hroot) c

theorem MetadataTree.WF.upsertPath_head {t : MetadataTree} (h : t.WF)
    (hroot : (t.nodes MetadataTree.root).isDir = true) {path c : Bytes} {rest : List Bytes}
    (hpath : parts path = c :: rest) (hc : validName c = true) (attr : Attributes)
    (hnew : t.paths [c] = none) : (t.upsertPath path attr).2.paths [c] ≠ none := by
  have hparts := forall_mem_parts path
  rw [hpath] at hparts
  rcases List.eq_nil_or_concat rest with rfl | ⟨cs, leaf, rfl⟩
  · rw [h.upsertPath_single hroot hpath hc]
    simp [PathMap.set]
  · rw [List.concat_eq_append] at hpath hparts
    rw [t.upsertPath_eq (show parts path = (c :: cs) ++ [leaf] by simpa using hpath)]
    obtain ⟨e, t₁, -, -, hblock⟩ | ⟨next, t₁, h₁, heq, hwalk, hdir, hp₁⟩ :=
      h.ensureLoop_cons (.nil MetadataTree.root) (hparts c (by simp)) cs
    · obtain ⟨a, ha, -⟩ := hblock hc hroot
      rw [List.nil_append, hnew] at ha
      cases ha
    · have hsome : t₁.paths [c] ≠ none := by
        rw [hp₁, List.nil_append]
        exact PathMap.fill_self_ne_none
      have hcs : ∀ d ∈ cs, d ≠ [] ∧ d ≠ dot := fun d hd => hparts d (by simp [hd])
      rw [heq]
      obtain ⟨y, t₂, h₂, heq₂, hw₂, hp₂, -⟩ | ⟨e, t₂, u, d, v, heq₂, -, hp₂, -⟩ :=
        h₁.ensureLoop_spec hwalk hcs
      · rw [heq₂]
        dsimp only
        have hsome₂ : t₂.paths [c] ≠ none := by
          rw [hp₂]
          exact PathMap.fill_ne_none hsome
        obtain ⟨id, t₃, heq₃, hp₃⟩ | ⟨e, t₃, heq₃, hp₃, -⟩ := h₂.upsert_spec hw₂ leaf attr
        · rw [heq₃, hp₃]
          exact PathMap.set_ne_none ⟨cs ++ [leaf], by simp⟩ hsome₂
        · rw [heq₃, hp₃]
          exact hsome₂
      · rw [heq₂, hp₂]
        exact PathMap.fill_ne_none hsome

theorem isDir_fresh_root : (fresh.nodes MetadataTree.root).isDir = true := rfl

/-- A name whose first component is valid, but which is not, leaves an entry on one way only. -/
theorem LinuxName.probeAlone_ne {name c : Bytes} {rest : List Bytes} (h : LinuxName name)
    (hparts : parts name = c :: rest) (hc : c ≠ dotdot) (hname : validName name = false) :
    PathMap.load PathMap.empty [some []] (probeAlone name) ≠
      (fresh.upserts (composed [[]] (probeAlone name))).paths := by
  have hfresh : fresh.paths [c] = none := by
    rw [paths_fresh]
    simp [PathMap.empty]
  intro heq
  have hpath : parts ([] ++ slash :: name) = c :: rest := by
    rw [parts_append_slash, hparts]
    rfl
  refine wf_fresh.upsertPath_head isDir_fresh_root hpath
    (h.validName_part (by simp [hparts]) hc) {} hfresh ?_
  refine (congrFun heq [c]).symm.trans ?_
  rw [probeAlone, PathMap.load_dropped rfl hname, PathMap.load, ← paths_fresh, hfresh]

/-- A name without a component that counts changes its directory on one way only. -/
theorem probeBelow_ne {name : Bytes} (hparts : parts name = []) (hname : validName name = false) :
    PathMap.load PathMap.empty [some []] (probeBelow name) ≠
      (fresh.upserts (composed [[]] (probeBelow name))).paths := by
  intro heq
  have hd : validName (bytes "d") = true := by decide
  have hone : parts ([] ++ slash :: bytes "d") = [bytes "d"] := by decide
  have htwo : parts (([] ++ slash :: bytes "d") ++ slash :: name) = [bytes "d"] := by
    rw [parts_append_slash, hone, hparts, List.append_nil]
  have hfirst := wf_fresh.kept_upsertPath ([] ++ slash :: bytes "d") kImplicitDirectory
  have hload : PathMap.load PathMap.empty [some []] (probeBelow name) =
      PathMap.empty.add [bytes "d"] kImplicitDirectory := by
    have hdrop : ∀ M : PathMap, PathMap.load M [some [], some [bytes "d"]] [⟨1, name, {}⟩] = M :=
      fun M => PathMap.load_dropped (e := ⟨1, name, {}⟩) rfl hname []
    exact hdrop _
  have hup : (fresh.upserts (composed [[]] (probeBelow name))).paths [bytes "d"] = some {} := by
    refine (congrFun (hfirst.wf.upsertPath_single (hfirst.root_dir isDir_fresh_root) htwo hd {})
      [bytes "d"]).trans ?_
    exact PathMap.set_self
  have := congrFun heq [bytes "d"]
  rw [hup, hload, PathMap.add_self] at this
  exact absurd this (by decide)

/-- **A snapshot and the changes that describe the same entries build the same tree** exactly if
every name among them that is not a valid one is harmless. -/
theorem load_eq_upserts_iff (t : MetadataTree) (odd : Set Bytes) (hodd : ∀ n ∈ odd, LinuxName n) :
    (∀ es, Scanned es → (∀ e ∈ es, validName e.name = true ∨ e.name ∈ odd) →
      (t.loadSnapshot es).2.paths = (fresh.upserts (composed [[]] es)).paths) ↔
      ∀ n ∈ odd, Harmless n := by
  simp only [loadSnapshot_paths]
  constructor
  · intro hall n hn
    by_contra hbad
    rw [Harmless, not_or, not_not] at hbad
    have hlinux := hodd n hn
    have hname : validName n = false := by
      rw [Bool.eq_false_iff]
      exact fun hvalid => hlinux.validName_iff.1 hvalid hbad.1
    cases hparts : parts n with
    | nil =>
      refine probeBelow_ne hparts hname (hall _ hlinux.scanned_probeBelow fun e he => ?_)
      rcases List.mem_cons.1 he with rfl | he
      · exact .inl (by decide)
      · rw [List.mem_singleton.1 he]
        exact .inr hn
    | cons c rest =>
      have hc : c ≠ dotdot := by
        rintro rfl
        exact hbad.2 (by rw [hparts]; rfl)
      refine hlinux.probeAlone_ne hparts hc hname (hall _ hlinux.scanned_probeAlone fun e he => ?_)
      rw [List.mem_singleton.1 he]
      exact .inr hn
  · intro hharm es hes hnames
    have hal : Aligned fresh.paths [] [some []] [[]] := by
      rw [paths_fresh]
      exact Aligned.start rfl rfl fun q hq => by rw [PathMap.empty, if_neg hq]
    rw [← paths_fresh]
    refine (hal.upserts_eq wf_fresh hes fun e he => ?_).symm
    rcases hnames e he with hvalid | hmem
    · exact .inl ((hes.linuxName e he).validName_iff.1 hvalid)
    · exact hharm _ hmem

/-- A name that leads up is dropped on both ways. -/
theorem load_eq_upserts_leading_up :
    (fresh.loadSnapshot (probeBelow (bytes "..\\x"))).2.paths =
      (fresh.upserts (composed [[]] (probeBelow (bytes "..\\x")))).paths := by
  have hname : LinuxName (bytes "..\\x") := ⟨by decide, by decide, by decide, by decide, by decide⟩
  refine (load_eq_upserts_iff fresh {bytes "..\\x"} ?_).2 ?_ _ hname.scanned_probeBelow ?_
  · rintro n rfl
    exact hname
  · rintro n rfl
    decide
  · intro e he
    rcases List.mem_cons.1 he with rfl | he
    · exact .inl (by decide)
    · rw [List.mem_singleton.1 he]
      exact .inr rfl

/-- **A file whose name holds a backslash**: the snapshot drops it, the change makes a directory
with a file in it. -/
theorem load_ne_upserts_backslash :
    LinuxName (bytes "a\\b") ∧ Scanned [⟨0, bytes "a\\b", {}⟩] ∧
    (fresh.loadSnapshot [⟨0, bytes "a\\b", {}⟩]).2.paths [bytes "a"] = none ∧
    (fresh.upserts (composed [[]] [⟨0, bytes "a\\b", {}⟩])).paths [bytes "a"] =
      some kImplicitDirectory ∧
    (fresh.upserts (composed [[]] [⟨0, bytes "a\\b", {}⟩])).paths [bytes "a", bytes "b"] =
      some {} := by
  have hname : LinuxName (bytes "a\\b") := ⟨by decide, by decide, by decide, by decide, by decide⟩
  exact ⟨hname, hname.scanned_probeAlone, by decide, by decide, by decide⟩

end WslDrive
