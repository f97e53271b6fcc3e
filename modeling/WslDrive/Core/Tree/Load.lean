import Mathlib.Data.Set.Card
import WslDrive.Core.Tree.Atomic

/-!
# Loading the entries of a walk

A walk hands out the entries of a tree with the numbers of their parents.  `load_snapshot` puts
each at the path that its parent and its name spell, drops those that it cannot represent, with
everything below them, and counts them.

* `Spelled` — entries together with the paths they spell;
* `Spelled.loadSnapshot_spec` — what is loaded, and how many entries are dropped.
-/

namespace WslDrive

open MetadataTree Path

/-! ### Counting -/

namespace MetadataTree

variable {t t' : MetadataTree} {p id : NodeId} {name : Bytes} {attr : Attributes} {e : Errc}

theorem indexNode_counts (t : MetadataTree) (id : NodeId) :
    (t.indexNode id).live = t.live ∧ (t.indexNode id).dropped = t.dropped := by
  rw [indexNode]
  split
  · dsimp only
    split <;> exact ⟨rfl, rfl⟩
  · exact ⟨rfl, rfl⟩

theorem allocNode_counts (t : MetadataTree) :
    t.allocNode.2.live = t.live ∧ t.allocNode.2.dropped = t.dropped := by
  rw [allocNode]
  split <;> exact ⟨rfl, rfl⟩

theorem insert_shape (t : MetadataTree) (p : NodeId) (name : Bytes) (attr : Attributes) :
    (∃ e names, t.insert p name attr = (.error e, { t with names })) ∨
    ∃ names nid fid, t.insert p name attr =
      (.ok ({ t with names }.insertNode p nid fid attr).1,
        ({ t with names }.insertNode p nid fid attr).2) := by
  unfold MetadataTree.insert
  by_cases hp : (!t.valid p) = true
  · rw [if_pos hp]
    exact .inl ⟨_, t.names, rfl⟩
  rw [if_neg hp]
  by_cases hdir : (!(t.nodes p).isDir) = true
  · rw [if_pos hdir]
    exact .inl ⟨_, t.names, rfl⟩
  rw [if_neg hdir]
  by_cases hvalid : (!validName name) = true
  · rw [if_pos hvalid]
    exact .inl ⟨_, t.names, rfl⟩
  rw [if_neg hvalid]
  dsimp only
  by_cases hfree : (t.exact (p, (t.names.intern name).1)).isSome = true
  · rw [if_pos hfree]
    exact .inl ⟨_, _, rfl⟩
  rw [if_neg hfree]
  exact .inr ⟨_, _, _, rfl⟩

theorem insertNode_counts (t : MetadataTree) (p : NodeId) (nid fid : NameId) (attr : Attributes) :
    (t.insertNode p nid fid attr).2.live = t.live + 1 ∧
      (t.insertNode p nid fid attr).2.dropped = t.dropped := by
  rw [insertNode]
  dsimp only [place]
  rw [(indexNode_counts _ _).1, (indexNode_counts _ _).2, linkChild_eq]
  dsimp only [modify]
  rw [(allocNode_counts _).1, (allocNode_counts _).2]
  exact ⟨rfl, rfl⟩

theorem insert_counts_ok (heq : t.insert p name attr = (.ok id, t')) :
    t'.live = t.live + 1 ∧ t'.dropped = t.dropped := by
  obtain ⟨e, names, hins⟩ | ⟨names, nid, fid, hins⟩ := t.insert_shape p name attr
  · rw [heq] at hins
    cases hins
  · rw [heq] at hins
    rw [(Prod.mk.inj hins).2]
    exact insertNode_counts _ p nid fid attr

theorem insert_counts_error (heq : t.insert p name attr = (.error e, t')) :
    t'.live = t.live ∧ t'.dropped = t.dropped := by
  obtain ⟨e', names, hins⟩ | ⟨names, nid, fid, hins⟩ := t.insert_shape p name attr
  · rw [heq] at hins
    rw [(Prod.mk.inj hins).2]
    exact ⟨rfl, rfl⟩
  · rw [heq] at hins
    cases hins

theorem loadLoop_counts {ids : List (Option NodeId)} {es : List SnapshotEntry}
    (heq : loadLoop t ids es = (.ok (), t')) :
    t'.live + t'.dropped = t.live + t.dropped + es.length := by
  induction es generalizing t ids with
  | nil =>
    cases heq
    rfl
  | cons d es ih =>
    rw [loadLoop] at heq
    rw [List.length_cons]
    rcases hids : ids[d.parent.toNat]? with _ | _ | parent
    · rw [hids] at heq
      cases heq
    · rw [hids] at heq
      have := ih heq
      dsimp only at this
      omega
    · rw [hids] at heq
      dsimp only at heq
      cases hins : t.insert parent d.name d.attr with
      | mk r t₁ =>
        rw [hins] at heq
        cases r with
        | error err =>
          have hc := insert_counts_error hins
          have := ih heq
          dsimp only at this
          omega
        | ok id =>
          have hc := insert_counts_ok hins
          have := ih heq
          omega

theorem WF.location_inj (h : t.WF) {x y : NodeId} (hx : t.isLive x) (hy : t.isLive y)
    (heq : t.location x = t.location y) : x = y :=
  (h.walk_location hx).unique (heq ▸ h.walk_location hy)

theorem WF.location_eq (h : t.WF) {x : NodeId} {s : List Bytes}
    (hw : h.toLTree.Walk root s x) : t.location x = s :=
  LTree.Walk.path_unique (h.walk_location (h.isLive_of_walk hw)) hw

theorem WF.live_eq_ncard (h : t.WF) : t.live = {s | t.paths s ≠ none}.ncard := by
  obtain ⟨kids, hr⟩ := h.rep
  have himage : {s | t.paths s ≠ none} =
      t.location '' ((Finset.range t.size).filter fun i => t.isLive i) := by
    ext s
    simp only [Set.mem_ofPred_eq, Set.mem_image, Finset.coe_filter, Finset.mem_range]
    constructor
    · intro hs
      obtain ⟨a, ha⟩ := Option.ne_none_iff_exists'.1 hs
      obtain ⟨y, hw, -⟩ := h.paths_eq_some.1 ha
      have hy := h.isLive_of_walk hw
      exact ⟨y, ⟨hr.allocated.lt_size y hy, hy⟩, h.location_eq hw⟩
    · rintro ⟨y, ⟨-, hy⟩, rfl⟩
      rw [h.paths_eq_some.2 ⟨y, h.walk_location hy, rfl⟩]
      simp
  have hinj : Set.InjOn t.location ((Finset.range t.size).filter fun i => t.isLive i) := by
    intro x hx y hy heq
    simp only [Finset.coe_filter, Set.mem_ofPred_eq] at hx hy
    exact h.location_inj hx.2 hy.2 heq
  rw [himage, hinj.ncard_image, Set.ncard_coe_finset, hr.allocated.live_eq]

end MetadataTree

/-! ### Entries and the paths they spell -/

/-- The entries `es` spell the paths `qs`: the path of an entry is that of its parent with its
name, and the map `D` has its attributes. -/
structure Spelled (D : PathMap) (es : List SnapshotEntry) (qs : List (List Bytes)) : Prop where
  length : qs.length = es.length
  nodup : ([] :: qs).Nodup
  entry : ∀ (k : ℕ) (e : SnapshotEntry), es[k]? = some e → e.parent.toNat ≤ k ∧
    ∃ x, ([] :: qs)[e.parent.toNat]? = some x ∧ qs[k]? = some (x ++ [e.name]) ∧
      D (x ++ [e.name]) = some e.attr ∧ (x = [] ∨ ∃ a, D x = some a ∧ a.kind = .directory)

/-- Every name of the path can be represented. -/
def representable (q : List Bytes) : Bool := q.all validName

/-- The root, and the entries at these paths that can be represented. -/
def PathMap.kept (D : PathMap) (qs : List (List Bytes)) : PathMap := fun q =>
  if q = [] then some kImplicitDirectory
  else if q ∈ qs ∧ representable q then D q else none

/-- The paths by number, none for an entry that is dropped. -/
def places (qs : List (List Bytes)) : List (Option (List Bytes)) :=
  ([] :: qs).map fun q => if representable q then some q else none

theorem representable_concat (x : List Bytes) (c : Bytes) :
    representable (x ++ [c]) = (representable x && validName c) := by
  simp [representable]

section

variable {D : PathMap} {es es₁ es₂ : List SnapshotEntry} {qs qs₁ qs₂ : List (List Bytes)}
  {q : List Bytes} {a : Attributes}

theorem PathMap.kept_nil (D : PathMap) : D.kept [] = PathMap.empty := by
  funext q
  simp [PathMap.kept, PathMap.empty]

theorem PathMap.kept_concat (hq : representable q = true) (hne : q ≠ []) (ha : D q = some a) :
    D.kept (qs ++ [q]) = (D.kept qs).add q a := by
  funext r
  by_cases hr : r = q
  · subst hr
    simp [kept, add, hne, hq, ha]
  · simp [kept, add, hr]

theorem PathMap.kept_concat_of_not (hq : representable q = false) :
    D.kept (qs ++ [q]) = D.kept qs := by
  funext r
  by_cases hr : r = q
  · subst hr
    simp [kept, hq]
  · simp [kept, hr]

theorem places_concat (qs : List (List Bytes)) (q : List Bytes) :
    places (qs ++ [q]) = places qs ++ [if representable q then some q else none] := by
  simp [places]

theorem PathMap.free_kept {x : List Bytes} {c : Bytes} (hrep : representable x = true)
    (hx : x ∈ [] :: qs) (hdir : x = [] ∨ ∃ a, D x = some a ∧ a.kind = .directory)
    (hnot : x ++ [c] ∉ qs) : (D.kept qs).free x c = validName c := by
  have hdirx : (D.kept qs x).any (·.kind == .directory) = true := by
    by_cases hnil : x = []
    · subst hnil
      rfl
    · obtain ⟨a, ha, hk⟩ := hdir.resolve_left hnil
      have hmem := (List.mem_cons.1 hx).resolve_left hnil
      simp [PathMap.kept, hnil, hmem, hrep, ha, hk]
  have hnone : D.kept qs (x ++ [c]) = none := by simp [PathMap.kept, hnot]
  simp [PathMap.free, hdirx, hnone]

/-- The entry behind `es₁`: its parent is among them, and its path is new. -/
theorem Spelled.next {e : SnapshotEntry} (h : Spelled D (es₁ ++ e :: es₂) (qs₁ ++ qs₂))
    (hlen : qs₁.length = es₁.length) :
    ∃ x qs₃, qs₂ = (x ++ [e.name]) :: qs₃ ∧ ([] :: qs₁)[e.parent.toNat]? = some x ∧
      x ++ [e.name] ∉ qs₁ ∧ D (x ++ [e.name]) = some e.attr ∧
      (x = [] ∨ ∃ a, D x = some a ∧ a.kind = .directory) ∧
      Spelled D (es₁ ++ [e] ++ es₂) (qs₁ ++ [x ++ [e.name]] ++ qs₃) := by
  obtain ⟨hle, x, hx, hq, hattr, hdir⟩ := h.entry es₁.length e (by simp)
  cases qs₂ with
  | nil =>
    have := h.length
    simp only [List.length_append, List.length_nil, List.length_cons] at this
    omega
  | cons q qs₃ =>
    rw [← hlen, List.getElem?_append_right (Nat.le_refl _), Nat.sub_self] at hq
    obtain rfl : q = x ++ [e.name] := Option.some.inj hq
    refine ⟨x, qs₃, rfl, ?_, fun hmem => ?_, hattr, hdir, by simpa using h⟩
    · rw [← hx, ← List.cons_append, List.getElem?_append_left]
      rw [List.length_cons]
      omega
    · have hnd := (List.nodup_cons.1 h.nodup).2
      exact (List.nodup_append.1 hnd).2.2 _ hmem _ List.mem_cons_self rfl

theorem Spelled.load_append (h : Spelled D (es₁ ++ es₂) (qs₁ ++ qs₂))
    (hlen : qs₁.length = es₁.length) :
    PathMap.load (D.kept qs₁) (places qs₁) es₂ = D.kept (qs₁ ++ qs₂) := by
  induction es₂ generalizing es₁ qs₁ qs₂ with
  | nil =>
    have hnil : qs₂ = [] := by
      have := h.length
      simp only [List.length_append, List.length_nil] at this
      exact List.length_eq_zero_iff.1 (by omega)
    rw [hnil, List.append_nil]
    rfl
  | cons e es₂ ih =>
    obtain ⟨x, qs₃, rfl, hx, hnot, hattr, hdir, hrest⟩ := h.next hlen
    have hplace : (places qs₁)[e.parent.toNat]? =
        some (if representable x then some x else none) := by
      rw [places, List.getElem?_map, hx]
      rfl
    have hnext := ih hrest (by simp [hlen])
    rw [places_concat] at hnext
    have hcons : qs₁ ++ (x ++ [e.name]) :: qs₃ = qs₁ ++ [x ++ [e.name]] ++ qs₃ := by simp
    rw [PathMap.load, hplace, hcons, ← hnext]
    by_cases hrep : representable x = true
    · have hfree := PathMap.free_kept hrep (List.mem_of_getElem? hx) hdir hnot
      rw [if_pos hrep]
      dsimp only
      rw [hfree]
      cases hv : validName e.name with
      | true =>
        have hq : representable (x ++ [e.name]) = true := by
          rw [representable_concat, hrep, hv]
          rfl
        rw [if_pos rfl, PathMap.kept_concat hq (by simp) hattr, if_pos hq]
      | false =>
        have hq : representable (x ++ [e.name]) = false := by
          rw [representable_concat, hv, Bool.and_false]
        rw [if_neg (by decide), PathMap.kept_concat_of_not hq, if_neg (by rw [hq]; decide)]
    · have hq : representable (x ++ [e.name]) = false := by
        rw [representable_concat, Bool.eq_false_iff.2 hrep, Bool.false_and]
      rw [if_neg hrep, PathMap.kept_concat_of_not hq, if_neg (by rw [hq]; decide)]

theorem Spelled.inOrder (h : Spelled D es qs) : InOrder es := fun k e he => (h.entry k e he).1

/-- **What is loaded**, and how many entries are dropped. -/
theorem Spelled.loadSnapshot_spec (h : Spelled D es qs) (t : MetadataTree) :
    (t.loadSnapshot es).1 = .ok () ∧ (t.loadSnapshot es).2.paths = D.kept qs ∧
      (t.loadSnapshot es).2.dropped = (qs.filter fun q => !representable q).length := by
  have hpaths : (t.loadSnapshot es).2.paths = D.kept qs := by
    have hall : Spelled D ([] ++ es) ([] ++ qs) := h
    have hload := hall.load_append rfl
    rw [PathMap.kept_nil] at hload
    rw [t.loadSnapshot_paths]
    exact hload
  have hok : (t.loadSnapshot es).1 = .ok () := by
    cases hload : t.loadSnapshot es with
    | mk r t' =>
      cases r with
      | error e => exact absurd h.inOrder ((t.loadSnapshot_error_iff es).1 ⟨e, t', hload⟩)
      | ok u => rfl
  refine ⟨hok, hpaths, ?_⟩
  have hwf : (t.loadSnapshot es).2.WF := (wf_fresh.kept_loadLoop _ _).wf
  have hcount := loadLoop_counts
    (show loadLoop fresh [some root] es = (.ok (), (t.loadSnapshot es).2) from Prod.ext hok rfl)
  -- The paths of the tree are the root and the entries that were kept.
  have hcard : {q | (t.loadSnapshot es).2.paths q ≠ none} =
      ↑([] :: qs.filter fun q => representable q).toFinset := by
    ext q
    rw [hpaths]
    by_cases hq : q = []
    · simp [PathMap.kept, hq]
    · have hD : q ∈ qs → D q ≠ none := by
        intro hmem
        obtain ⟨k, hk⟩ := List.getElem?_of_mem hmem
        have hlt : k < es.length := h.length ▸ (List.getElem?_eq_some_iff.1 hk).1
        obtain ⟨-, x, -, hx, ha, -⟩ := h.entry k _ (List.getElem?_eq_getElem hlt)
        rw [hk] at hx
        rw [Option.some.inj hx, ha]
        simp
      simp only [Set.mem_ofPred_eq, PathMap.kept, List.coe_toFinset, List.mem_cons, hq, false_or,
        List.mem_filter]
      constructor
      · intro hsome
        by_contra hnot
        rw [if_neg hnot] at hsome
        exact hsome rfl
      · intro hmem
        rw [if_pos hmem]
        exact hD hmem.1
  have hnodup : ([] :: qs.filter fun q => representable q).Nodup := by
    have hnd := List.nodup_cons.1 h.nodup
    exact List.nodup_cons.2 ⟨fun hmem => hnd.1 (List.mem_filter.1 hmem).1, hnd.2.filter _⟩
  have hsplit := List.length_eq_length_filter_add (l := qs) fun q => representable q
  have hlive := hwf.live_eq_ncard
  rw [hcard, Set.ncard_coe_finset, List.toFinset_card_of_nodup hnodup, List.length_cons] at hlive
  have hlen := h.length
  have hfresh : fresh.live + fresh.dropped = 1 := rfl
  omega

end

end WslDrive
