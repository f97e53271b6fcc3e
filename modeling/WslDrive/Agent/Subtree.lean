import WslDrive.Agent.EventFilter

/-!
# Scanning a subtree

A scan of a directory of the served tree sees a tree of its own: the view of the disk from that
directory.  What is known of scans of whole trees then holds for it.

* `DiskView.IsPlainTree` — a readable Linux tree on one filesystem;
* `DiskView.scanTree_below` — a scan of a directory is a scan of the view from there;
* `DiskView.subtree` — the entries below a directory that the rules keep;
* `DiskView.IsPlainTree.scan_subtree` — a scan of a directory hands them out, each once.
-/

namespace WslDrive

open Ignore MetadataTree Path Scanner

namespace DiskView

/-- A path below a directory. -/
def inside (r p : Bytes) : Bytes := if p = [] then r else r ++ slash :: p

/-- The view from a directory. -/
def below (view : DiskView) (r : Bytes) : DiskView where
  attributes p := view.attributes (inside r p)
  isDirectory p := view.isDirectory (inside r p)
  names p := view.names (inside r p)
  deviceId p := view.deviceId (inside r p)

/-- A readable Linux tree on one filesystem. -/
structure IsPlainTree (view : DiskView) : Prop extends view.IsLinuxTree where
  isDirectory : ∀ p, view.isDir p = true → view.isDirectory (joined p) = true
  named : ∀ path l, view.names path = some l → ∀ c ∈ l, c ≠ []
  oneDevice : view.OneDevice

variable {view : DiskView} {r : Bytes} {rs p q : List Bytes} {c : Bytes}

/-! ### The view from a directory -/

theorem joinName_inside (hr : r ≠ []) {name : Bytes} (hname : name ≠ []) (path : Bytes) :
    joinName (inside r path) name = inside r (joinName path name) := by
  rcases eq_or_ne path [] with rfl | hpath
  · rw [inside, if_pos rfl, joinName, if_neg hr, joinName, if_pos rfl, inside, if_neg hname]
  · rw [inside, if_neg hpath, joinName, if_neg (by simp), joinName, if_neg hpath, inside,
      if_neg (by simp), List.append_assoc]
    rfl

theorem inside_joined (hrs : rs ≠ []) (hnames : ∀ c ∈ rs, c ≠ []) (hp : ∀ c ∈ p, c ≠ []) :
    inside (joined rs) (joined p) = joined (rs ++ p) := by
  have hne := joined_ne_nil_of_forall hnames hrs
  induction p using List.reverseRecOn with
  | nil => simp [inside, joined]
  | append_singleton p c ih =>
    have hp' : ∀ d ∈ p, d ≠ [] := fun d hd => hp d (List.mem_append_left _ hd)
    have hrsp : ∀ d ∈ rs ++ p, d ≠ [] := fun d hd => (List.mem_append.1 hd).elim (hnames d) (hp' d)
    rw [← joinName_joined_of_ne_nil hp', ← joinName_inside hne (hp c (by simp)), ih hp',
      joinName_joined_of_ne_nil hrsp, List.append_assoc]

/-- The same state of a walk, seen from the served root. -/
def shift {σ : Type} (r : Bytes) (s : State σ) : State σ :=
  { s with queue := s.queue.map fun d => { d with path := inside r d.path } }

section Walk

variable {σ : Type} {onEntry : σ → SnapshotEntry → σ} {skip : σ → Bytes → Bool → Bool}
  {dev : Option UInt64}

theorem entry_below (hr : r ≠ []) {name : Bytes} (hname : name ≠ []) (dir : Pending) (s : State σ) :
    Walk.entry ⟨view, onEntry, skip, dev⟩ { dir with path := inside r dir.path } (shift r s) name =
      shift r (Walk.entry ⟨view.below r, onEntry, skip, dev⟩ dir s name) := by
  have hpath := joinName_inside hr hname dir.path
  have hdesc : Walk.descends ⟨view, onEntry, skip, dev⟩ (inside r (joinName dir.path name)) =
      Walk.descends ⟨view.below r, onEntry, skip, dev⟩ (joinName dir.path name) := rfl
  unfold Walk.entry
  dsimp only
  rw [hpath, hdesc]
  have hattr : (view.below r).attributes (joinName dir.path name) =
      view.attributes (inside r (joinName dir.path name)) := rfl
  rw [hattr]
  cases view.attributes (inside r (joinName dir.path name)) with
  | none => rfl
  | some a =>
    dsimp only
    by_cases hother : a.kind = .other
    · rw [if_pos hother, if_pos hother]
      rfl
    · rw [if_neg hother, if_neg hother]
      have hout : (shift r s).out = s.out := rfl
      rw [hout]
      by_cases hskip : skip s.out (joinName dir.rel name) (a.kind == .directory) = true
      · rw [if_pos hskip, if_pos hskip]
        rfl
      · rw [if_neg hskip, if_neg hskip]
        cases a.kind with
        | directory =>
          dsimp only
          split_ifs
          · simp [shift]
          · rfl
        | file | symlink | other => rfl

theorem loop_below (hr : r ≠ []) (hnamed : ∀ path l, view.names path = some l → ∀ c ∈ l, c ≠ [])
    (rounds : ℕ) (s : State σ) :
    Walk.loop ⟨view, onEntry, skip, dev⟩ rounds (shift r s) =
      shift r (Walk.loop ⟨view.below r, onEntry, skip, dev⟩ rounds s) := by
  induction rounds generalizing s with
  | zero => rfl
  | succ rounds ih =>
    obtain ⟨out, stats, queue, nextIndex⟩ := s
    cases queue with
    | nil => rfl
    | cons dir queue =>
      have hround : Walk.round ⟨view, onEntry, skip, dev⟩ { dir with path := inside r dir.path }
          (shift r ⟨out, stats, queue, nextIndex⟩) =
          shift r (Walk.round ⟨view.below r, onEntry, skip, dev⟩ dir
            ⟨out, stats, queue, nextIndex⟩) := by
        generalize (⟨out, stats, queue, nextIndex⟩ : State σ) = s
        have hnames : (view.below r).names dir.path = view.names (inside r dir.path) := rfl
        unfold Walk.round
        dsimp only
        rw [hnames]
        cases hl : view.names (inside r dir.path) with
        | none => rfl
        | some l =>
          dsimp only
          have hl' := hnamed _ l hl
          clear hl
          induction l generalizing s with
          | nil => rfl
          | cons name l ihl =>
            rw [List.foldl_cons, List.foldl_cons, entry_below hr (hl' name List.mem_cons_self)]
            exact ihl _ fun c hc => hl' c (List.mem_cons_of_mem _ hc)
      exact (congrArg _ hround).trans (ih _)

/-- **A scan of a directory is a scan of the view from there.** -/
theorem scanTree_below (hr : r ≠ [])
    (hnamed : ∀ path l, view.names path = some l → ∀ c ∈ l, c ≠ []) (rounds : ℕ)
    (oneFileSystem : Bool) (out : σ) :
    scanTree rounds view r onEntry skip oneFileSystem out =
      scanTree rounds (view.below r) [] onEntry skip oneFileSystem out := by
  unfold scanTree
  by_cases hdir : (!view.isDirectory r) = true
  · have hdir' : (!(view.below r).isDirectory []) = true := hdir
    rw [if_pos hdir, if_pos hdir']
  · have hdir' : ¬ (!(view.below r).isDirectory []) = true := hdir
    rw [if_neg hdir, if_neg hdir']
    exact congrArg (fun s => (Except.ok s.stats, s.out))
      (loop_below hr hnamed rounds { out, queue := [⟨[], [], 0⟩] })

end Walk

/-! ### The tree below a directory -/

/-- A directory below the root. -/
structure HasDir (view : DiskView) (r : List Bytes) : Prop where
  ne_nil : r ≠ []
  has : view.Has r
  isDir : view.isDir r = true

/-- An entry below a directory that a scan is to report: no special file, and not ignored. -/
structure EntryBelow (view : DiskView) (rules : IgnoreRules) (r p : List Bytes) : Prop where
  below : r <+: p
  ne : p ≠ r
  has : view.Has p
  regular : ∀ a, view.attributes (joined p) = some a → a.kind ≠ .other
  notIgnored : rules.ignored (joined p) (view.isDir p) = false

/-- The entries below a directory that a scan is to report. -/
def subtree (view : DiskView) (rules : IgnoreRules) (r : List Bytes) : Set (List Bytes) :=
  {p | view.EntryBelow rules r p}

theorem subtree_mono {rules : IgnoreRules} (h : p <+: q) :
    view.subtree rules q ⊆ view.subtree rules p := by
  intro d hd
  refine ⟨h.trans hd.below, ?_, hd.has, hd.regular, hd.notIgnored⟩
  rintro rfl
  exact hd.ne (h.eq_of_length_le hd.below.length_le)

theorem joined_inj_of_linuxName (hp : ∀ c ∈ p, LinuxName c) (hq : ∀ c ∈ q, LinuxName c)
    (heq : joined p = joined q) : p = q := by
  have hsplit : ∀ {p : List Bytes}, (∀ c ∈ p, LinuxName c) → split (joined p) = p := fun h =>
    split_intercalate fun c hc => ⟨(h c hc).ne_nil, (h c hc).no_slash⟩
  rw [← hsplit hp, heq, hsplit hq]

namespace IsPlainTree

variable (h : view.IsPlainTree) (hrs : view.HasDir rs)
include h hrs

theorem inside_eq (hp : ∀ c ∈ p, c ≠ []) : inside (joined rs) (joined p) = joined (rs ++ p) :=
  inside_joined hrs.ne_nil (fun c hc => (h.linuxName hrs.has c hc).ne_nil) hp

theorem isDir_below (hp : ∀ c ∈ p, c ≠ []) :
    (view.below (joined rs)).isDir p = view.isDir (rs ++ p) := by
  rw [isDir, isDir, ← h.inside_eq hrs hp]
  rfl

theorem names_below (hp : ∀ c ∈ p, c ≠ []) :
    (view.below (joined rs)).names (joined p) = view.names (joined (rs ++ p)) := by
  rw [← h.inside_eq hrs hp]
  rfl

theorem attributes_below (hp : ∀ c ∈ p, c ≠ []) :
    (view.below (joined rs)).attributes (joined p) = view.attributes (joined (rs ++ p)) := by
  rw [← h.inside_eq hrs hp]
  rfl

theorem isDir_of_below (hp : ∀ c ∈ p, c ≠ [])
    (hdir : p = [] ∨ (view.below (joined rs)).isDir p = true) : view.isDir (rs ++ p) = true := by
  rcases hdir with rfl | hdir
  · rw [List.append_nil]
    exact hrs.isDir
  · rwa [h.isDir_below hrs hp] at hdir

omit hrs in
theorem ne_nil_of_has (hp : view.Has (rs ++ p)) : ∀ c ∈ p, c ≠ [] := fun c hc =>
  (h.linuxName hp c (List.mem_append_right _ hc)).ne_nil

theorem has_below_iff : (view.below (joined rs)).Has p ↔ view.Has (rs ++ p) := by
  constructor
  · intro hp
    induction hp with
    | root =>
      rw [List.append_nil]
      exact hrs.has
    | @entry p c l _ hdir hl hc ih =>
      have hp := h.ne_nil_of_has ih
      rw [h.names_below hrs hp] at hl
      rw [← List.append_assoc]
      exact .entry ih (.inr (h.isDir_of_below hrs hp hdir)) hl hc
  · intro hp
    induction p using List.reverseRecOn with
    | nil => exact .root
    | append_singleton p c ih =>
      rw [← List.append_assoc] at hp
      obtain ⟨hpar, hdir, l, hl, hc⟩ := hp.of_concat
      have hne := h.ne_nil_of_has hpar
      have hdir := hdir.resolve_left (List.append_ne_nil_of_left_ne_nil hrs.ne_nil p)
      rw [← h.isDir_below hrs hne] at hdir
      rw [← h.names_below hrs hne] at hl
      exact .entry (ih hpar) (.inr hdir) hl hc

theorem finite_below {all : List (List Bytes)} (hall : ∀ p, view.Has p → p ∈ all) :
    ∀ p, (view.below (joined rs)).Has p → p ∈ all.map (List.drop rs.length) := fun p hp =>
  List.mem_map.2 ⟨rs ++ p, hall _ ((h.has_below_iff hrs).1 hp), List.drop_left⟩

theorem isLinuxTree_below : (view.below (joined rs)).IsLinuxTree where
  root := h.isDirectory rs hrs.isDir
  listed p hp hdir := by
    have hp := (h.has_below_iff hrs).1 hp
    have hne := h.ne_nil_of_has hp
    have hdir' := h.isDir_of_below hrs hne hdir
    obtain ⟨l, hl, hnodup, hl'⟩ := h.listed (rs ++ p) hp (.inr hdir')
    refine ⟨l, (h.names_below hrs hne).trans hl, hnodup, fun c hc => ⟨(hl' c hc).1, ?_⟩⟩
    have hpc : view.Has (rs ++ (p ++ [c])) := by
      rw [← List.append_assoc]
      exact .entry hp (.inr hdir') hl hc
    rw [h.attributes_below hrs (h.ne_nil_of_has hpc), ← List.append_assoc]
    exact (hl' c hc).2
  finite := by
    obtain ⟨all, hall⟩ := h.finite
    exact ⟨_, h.finite_below hrs hall⟩

omit hrs in
theorem foreign_eq_false (oneFileSystem : Bool) :
    (view.below (joined rs)).foreign oneFileSystem p = false := by
  have hdev : ∀ path path' : Bytes,
      (view.below (joined rs)).deviceId path = (view.below (joined rs)).deviceId path' :=
    fun _ _ => h.oneDevice _ _
  unfold foreign rootDev
  cases oneFileSystem with
  | false => rfl
  | true =>
    rw [if_pos rfl, hdev (joined p) []]
    cases (view.below (joined rs)).deviceId [] with
    | none => rfl
    | some dev => exact bne_self_eq_false dev

theorem reported_below_iff (rules : IgnoreRules) (oneFileSystem : Bool) :
    (view.below (joined rs)).Reported
        (fun sub isDir => rules.ignored (joined rs ++ slash :: sub) isDir) oneFileSystem q ↔
      rs ++ q ∈ view.subtree rules rs := by
  have hpath : ∀ {q}, q ≠ [] → (∀ c ∈ q, c ≠ []) →
      joined rs ++ slash :: joined q = joined (rs ++ q) := fun hq hne => by
    rw [← h.inside_eq hrs hne, inside, if_neg (joined_ne_nil_of_forall hne hq)]
  constructor
  · intro hq
    have hhas := (h.has_below_iff hrs).1 hq.has
    have hne := h.ne_nil_of_has hhas
    refine ⟨List.prefix_append rs q, fun heq => hq.ne_root (List.append_right_eq_self.1 heq), hhas,
      fun a ha => hq.regular a ((h.attributes_below hrs hne).trans ha), ?_⟩
    have hign := hq.notIgnored q hq.ne_root (List.prefix_refl q)
    rwa [hpath hq.ne_root hne, h.isDir_below hrs hne] at hign
  · intro hq
    have hne := h.ne_nil_of_has hq.has
    have hkept := (kept_iff (h.linuxName hq.has)).2 hq.notIgnored
    refine ⟨fun hnil => hq.ne (by rw [hnil, List.append_nil]), (h.has_below_iff hrs).2 hq.has,
      fun a ha => hq.regular a ((h.attributes_below hrs hne).symm.trans ha), fun q' hq' hpre => ?_,
      fun _ _ _ _ => h.foreign_eq_false oneFileSystem⟩
    -- an ignored directory on the way would hide the entry
    have hne' : ∀ c ∈ q', c ≠ [] := fun c hc => hne c (hpre.subset hc)
    rw [hpath hq' hne', h.isDir_below hrs hne']
    exact hkept _ (List.append_ne_nil_of_left_ne_nil hrs.ne_nil q')
      ((List.prefix_append_right_inj rs).2 hpre)

end IsPlainTree

/-! ### The scan of a directory -/

/-- The entries `es` of a scan of `r` spell the paths `ps`: the path of an entry is that of its
parent with its name, and it has the attributes of the disk. -/
def SpelledFrom (view : DiskView) (r : List Bytes) (es : List SnapshotEntry)
    (ps : List (List Bytes)) : Prop :=
  ∀ (k : ℕ) (e : SnapshotEntry), es[k]? = some e → e.parent.toNat ≤ k ∧
    ∃ x, (r :: ps)[e.parent.toNat]? = some x ∧ ps[k]? = some (x ++ [e.name]) ∧
      view.attributes (joined (x ++ [e.name])) = some e.attr

/-- **A scan of a directory** with enough rounds hands out the entries below it, each once. -/
theorem IsPlainTree.scan_subtree (h : view.IsPlainTree) (hrs : view.HasDir rs)
    (rules : IgnoreRules) (oneFileSystem : Bool) {all : List (List Bytes)}
    (hall : ∀ p, view.Has p → p ∈ all) {rounds : ℕ} (hrounds : all.length ≤ rounds) :
    ∃ stats es ps, scanTree rounds view (joined rs) (fun es e => es ++ [e])
        (fun _ sub isDir => rules.ignored (joined rs ++ slash :: sub) isDir) oneFileSystem [] =
          (.ok stats, es) ∧
      ps.Nodup ∧ (∀ p, p ∈ ps ↔ p ∈ view.subtree rules rs) ∧ ps.length = es.length ∧
      (es.length < 2 ^ 32 → view.SpelledFrom rs es ps) := by
  have hne : joined rs ≠ [] :=
    joined_ne_nil_of_forall (fun c hc => (h.linuxName hrs.has c hc).ne_nil) hrs.ne_nil
  have hrounds' : (all.map (List.drop rs.length)).length ≤ rounds := by rwa [List.length_map]
  obtain ⟨stats, es, qs, hscan, hnodup, hmem, hlen, hspelled⟩ :=
    (h.isLinuxTree_below hrs).scanTree_reports
      (fun sub isDir => rules.ignored (joined rs ++ slash :: sub) isDir) oneFileSystem
      (h.finite_below hrs hall) hrounds'
  have hmem' : ∀ q, q ∈ qs ↔ rs ++ q ∈ view.subtree rules rs := fun q =>
    (hmem q).trans (h.reported_below_iff hrs rules oneFileSystem)
  refine ⟨stats, es, qs.map (rs ++ ·), (scanTree_below hne h.named _ _ _).trans hscan,
    hnodup.map (List.append_right_injective rs), fun p => ?_, by rw [List.length_map, hlen],
    fun hfew k e he => ?_⟩
  · constructor
    · intro hp
      obtain ⟨q, hq, rfl⟩ := List.mem_map.1 hp
      exact (hmem' q).1 hq
    · intro hp
      obtain ⟨q, rfl⟩ := hp.below
      exact List.mem_map.2 ⟨q, (hmem' q).2 hp, rfl⟩
  · obtain ⟨hle, x, hx, hk, hattr, -⟩ := (hspelled hfew).entry k e he
    have hin := ((hmem' _).1 (List.mem_of_getElem? hk)).has
    refine ⟨hle, rs ++ x, ?_, ?_, ?_⟩
    · have hcons : rs :: qs.map (rs ++ ·) = ([] :: qs).map (rs ++ ·) := by simp
      rw [hcons, List.getElem?_map, hx]
      rfl
    · rw [List.getElem?_map, hk, List.append_assoc]
      rfl
    · rw [List.append_assoc, ← h.attributes_below hrs (h.ne_nil_of_has hin)]
      exact hattr

/-! ### Disks given by their entries -/

section

variable {entries : List (List Bytes × Attributes)}

theorem linuxName_of_validName (h : validName c = true) : LinuxName c := by
  simp only [validName, Bool.and_eq_true, Bool.not_eq_true', Bool.or_eq_false_iff,
    beq_eq_false_iff_ne, List.all_eq_true] at h
  obtain ⟨⟨⟨hnil, hdot⟩, hdotdot⟩, hall⟩ := h
  exact ⟨hnil, hdot, hdotdot, fun hs => absurd (hall _ hs).1 (by decide),
    fun h0 => absurd rfl (hall _ h0).2⟩

theorem dir_ofList (h : Entries entries) (hp : (ofList entries).paths p ≠ none)
    (hdir : p = [] ∨ (ofList entries).isDir p = true) : (ofList entries).Dir p := by
  rcases hdir with rfl | hdir
  · exact (isTree_ofList h).root
  · obtain ⟨a, ha, hk⟩ := isDir_iff.1 hdir
    exact ⟨a, (paths_eq (valid_of_paths hp)).trans ha, hk⟩

theorem paths_of_has (h : Entries entries) (hp : (ofList entries).Has p) :
    (ofList entries).paths p ≠ none := by
  induction hp with
  | root =>
    obtain ⟨a, ha, -⟩ := (isTree_ofList h).root
    rw [ha]
    simp
  | @entry p c l _ hdir hl hc ih =>
    obtain ⟨a, ha, hk⟩ := dir_ofList h ih hdir
    obtain ⟨l', hl', -, hmem⟩ := (isTree_ofList h).names p a ha hk
    rw [hl] at hl'
    cases hl'
    exact (hmem c).1 hc

theorem has_ofList (h : Entries entries) (hp : (ofList entries).paths p ≠ none) :
    (ofList entries).Has p := by
  induction p using List.reverseRecOn with
  | nil => exact .root
  | append_singleton p c ih =>
    obtain ⟨a, ha, hk⟩ := (isTree_ofList h).tree p c hp
    have hp' : (ofList entries).paths p ≠ none := by
      rw [ha]
      simp
    obtain ⟨l, hl, -, hmem⟩ := (isTree_ofList h).names p a ha hk
    have hdir := isDir_iff.2 ⟨a, (paths_eq (valid_of_paths hp')).symm.trans ha, hk⟩
    exact .entry (ih hp') (.inr hdir) hl ((hmem c).2 hp)

theorem isPlainTree_ofList (h : Entries entries) : (ofList entries).IsPlainTree where
  root := h.root
  listed p hp hdir := by
    obtain ⟨a, ha, hk⟩ := dir_ofList h (paths_of_has h hp) hdir
    obtain ⟨l, hl, hnodup, hmem⟩ := (isTree_ofList h).names p a ha hk
    refine ⟨l, hl, hnodup, fun c hc => ?_⟩
    have hc := (hmem c).1 hc
    have hvalid := valid_of_paths hc
    rw [paths_eq hvalid] at hc
    exact ⟨linuxName_of_validName (hvalid c (by simp)), hc⟩
  finite := by
    refine ⟨entries.map Prod.fst, fun p hp => ?_⟩
    have hsome := paths_of_has h hp
    rw [paths_ofList h] at hsome
    obtain ⟨a, ha⟩ := Option.ne_none_iff_exists'.1 hsome
    exact List.mem_map.2 ⟨_, mem_of_lookup ha, rfl⟩
  isDirectory _ hdir := hdir
  named path l hl c hc := by
    rw [ofList] at hl
    cases hl
    obtain ⟨q, hq, hqc⟩ := List.mem_filterMap.1 hc
    obtain ⟨e, he, rfl⟩ := List.mem_map.1 hq
    split_ifs at hqc
    exact (linuxName_of_validName ((h.valid e he).1 c (List.mem_of_getLast? hqc))).ne_nil
  oneDevice _ _ := rfl

end

end DiskView

end WslDrive
