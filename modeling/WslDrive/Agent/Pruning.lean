import WslDrive.Agent.EventFilter

/-!
# What a scan leaves out

A scan skips the entries that the ignore rules exclude and does not descend into the directories
that it skipped.  That is the same as asking the rules about every entry of the tree: what is below
an excluded directory is excluded as well.

* `DiskView.HandedOut` — which path each entry of a scan stands for;
* `DiskView.IsLinuxTree.scanTree_prunes` — an entry is left out exactly if the rules exclude it;
* `ignored_prunes` — this for all rules and trees, with the two facts about the rules behind it.
-/

namespace WslDrive

open Ignore MetadataTree Path Scanner

namespace DiskView

variable {view : DiskView} {rules : IgnoreRules} {p : List Bytes}

/-- The entries are those at the paths `qs` of the tree, one after the other. -/
def HandedOut (view : DiskView) : List SnapshotEntry → List (List Bytes) → Prop :=
  List.Forall₂ fun e q => q.getLast? = some e.name ∧ view.attributes (joined q) = some e.attr

/-- All directories of the tree are on the filesystem of the root. -/
def OneFileSystem (view : DiskView) : Prop :=
  ∀ p, view.Has p → view.isDir p = true → view.deviceId (joined p) = view.deviceId []

theorem OneFileSystem.foreign_eq_false (h : view.OneFileSystem) (hp : view.Has p)
    (hdir : view.isDir p = true) (oneFileSystem : Bool) :
    view.foreign oneFileSystem p = false := by
  unfold foreign rootDev
  cases oneFileSystem with
  | false => rfl
  | true =>
    rw [if_pos rfl, h p hp hdir]
    cases view.deviceId [] with
    | none => rfl
    | some dev => exact bne_self_eq_false dev

theorem IsLinuxTree.attributes_ne_none (h : view.IsLinuxTree) (hp : view.Has p) (hne : p ≠ []) :
    view.attributes (joined p) ≠ none := by
  obtain ⟨q, c, rfl⟩ := List.eq_nil_or_concat p |>.resolve_left hne
  rw [List.concat_eq_append] at hp ⊢
  obtain ⟨hq, hdir, l, hl, hc⟩ := hp.of_concat
  obtain ⟨l', hl', -, hall⟩ := h.listed q hq hdir
  rw [hl] at hl'
  cases hl'
  exact (hall c hc).2

theorem Has.isDir_of_prefix {q : List Bytes} (hp : view.Has p) (hpre : q <+: p) (hne : q ≠ p) :
    view.Has q ∧ (q = [] ∨ view.isDir q = true) := by
  induction hp with
  | root => exact absurd (List.prefix_nil.1 hpre) hne
  | @entry p c l hp hdir hl hc ih =>
    rcases List.prefix_concat_iff.1 hpre with rfl | hpre
    · exact absurd rfl hne
    · by_cases hqp : q = p
      · rw [hqp]
        exact ⟨hp, hdir⟩
      · exact ih hpre hqp

/-- **What a scan reports**: the entries that the rules do not exclude. -/
theorem IsLinuxTree.reported_iff (h : view.IsLinuxTree) (hdev : view.OneFileSystem)
    (oneFileSystem : Bool) (hp : view.Has p) (hne : p ≠ []) {a : Attributes}
    (ha : view.attributes (joined p) = some a) (hkind : a.kind ≠ .other) :
    view.Reported rules.ignored oneFileSystem p ↔
      rules.ignored (joined p) (view.isDir p) = false := by
  rw [reported_iff_kept hne hp ha hkind, kept_iff (h.linuxName hp)]
  intro q hnil hpre hqp
  obtain ⟨hq, hdir⟩ := hp.isDir_of_prefix hpre hqp
  exact hdev.foreign_eq_false hq (hdir.resolve_left hnil) oneFileSystem

/-- **A scan leaves out** exactly the entries that the rules exclude. -/
theorem IsLinuxTree.scanTree_prunes (h : view.IsLinuxTree) (hdev : view.OneFileSystem)
    (rules : IgnoreRules) (oneFileSystem : Bool) {all : List (List Bytes)}
    (hall : ∀ p, view.Has p → p ∈ all) {rounds : ℕ} (hrounds : all.length ≤ rounds) :
    ∃ stats es qs,
      scanTree rounds view [] (fun es e => es ++ [e]) (fun _ => rules.ignored) oneFileSystem [] =
        (.ok stats, es) ∧
      view.HandedOut es qs ∧ qs.Nodup ∧
      (es.length < 2 ^ 32 → Spelled (fun p => view.attributes (joined p)) es qs) ∧
      (∀ p ∈ qs, view.Has p) ∧
      ∀ p a, view.Has p → p ≠ [] → view.attributes (joined p) = some a → a.kind ≠ .other →
        (p ∉ qs ↔ rules.ignored (joined p) (view.isDir p) = true) := by
  obtain ⟨stats, b, hscan, hb, hmem⟩ :=
    h.scanTree_walk rules.ignored oneFileSystem hall hrounds
  refine ⟨stats, _, b.out.map Prod.snd, hscan, ?_, (List.nodup_cons.1 hb.nodup).2, fun hfew => ?_,
    fun p hp => ((hmem p).1 hp).has, fun p a hp hne ha hkind => ?_⟩
  · rw [HandedOut, List.forall₂_map_left_iff, List.forall₂_map_right_iff, List.forall₂_same]
    intro x hx
    have hrep := (hmem x.2).1 (List.mem_map_of_mem hx)
    obtain ⟨a, ha⟩ := Option.ne_none_iff_exists'.1 (h.attributes_ne_none hrep.has hrep.ne_root)
    obtain ⟨q, c, hq⟩ := List.eq_nil_or_concat x.2 |>.resolve_left hrep.ne_root
    refine ⟨?_, by rw [entryOf, ha]; rfl⟩
    rw [entryOf, hq, List.concat_eq_append, List.getLast?_concat, Option.getD_some]
  · rw [List.length_map] at hfew
    exact h.spelled hb hfew
  · rw [hmem, h.reported_iff hdev oneFileSystem hp hne ha hkind, Bool.not_eq_false]

end DiskView

open DiskView in
/-- **Ignore rules are closed downwards, and pruning loses nothing**: what is below an excluded
directory is excluded, a scan hands out each entry that the rules do not exclude, and a pattern that
is not anchored has one segment. -/
theorem ignored_prunes (text : Bytes) :
    (∀ (d e : Bytes) (isDir : Bool), (IgnoreRules.parse text).ignored d true = true →
      split d <+: split e → split d ≠ split e → (IgnoreRules.parse text).ignored e isDir = true) ∧
    (∀ (view : DiskView) (oneFileSystem : Bool), view.IsLinuxTree → view.OneFileSystem →
      ∃ n, ∀ rounds, n ≤ rounds → ∃ stats es qs,
        scanTree rounds view [] (fun es e => es ++ [e])
          (fun _ => (IgnoreRules.parse text).ignored) oneFileSystem [] = (.ok stats, es) ∧
        view.HandedOut es qs ∧ qs.Nodup ∧
        (es.length < 2 ^ 32 → Spelled (fun p => view.attributes (joined p)) es qs) ∧
        (∀ p ∈ qs, view.Has p) ∧
        ∀ p a, view.Has p → p ≠ [] → view.attributes (joined p) = some a → a.kind ≠ .other →
          (p ∉ qs ↔ (IgnoreRules.parse text).ignored (joined p) (view.isDir p) = true)) ∧
    ∀ pat ∈ (IgnoreRules.parse text).patterns, pat.anchored = false → pat.segs.length = 1 := by
  refine ⟨fun d e isDir hd hpre hne => IgnoreRules.ignored_of_below hd hpre hne,
    fun view oneFileSystem h hdev => ?_, fun pat hpat hanch => length_segs_of_mem_parse hpat hanch⟩
  obtain ⟨all, hall⟩ := h.finite
  exact ⟨all.length, fun rounds hrounds => h.scanTree_prunes hdev _ oneFileSystem hall hrounds⟩

open DiskView in
/-- A directory that a rule names, and the file in it, which is not looked at. -/
theorem ignored_prunes_dir :
    (IgnoreRules.parse (bytes "d/")).ignored (bytes "d/x") false = true ∧
    ∃ n, ∀ rounds, n ≤ rounds → ∃ stats es qs,
      scanTree rounds (crowd []) [] (fun es e => es ++ [e])
        (fun _ => (IgnoreRules.parse (bytes "d/")).ignored) true [] = (.ok stats, es) ∧
      (crowd []).HandedOut es qs ∧ [bytes "d"] ∉ qs ∧ [bytes "d", bytes "x"] ∉ qs := by
  have htree : (crowd []).IsLinuxTree :=
    isLinuxTree_crowd List.nodup_nil (List.forall_mem_nil _) List.not_mem_nil
  have hd : (crowd []).Has [bytes "d"] := .entry .root (.inl rfl) names_crowd_root (by simp)
  have hx : (crowd []).Has [bytes "d", bytes "x"] :=
    .entry hd (.inr rfl) names_crowd_dir (by simp)
  refine ⟨(ignored_prunes (bytes "d/")).1 (bytes "d") (bytes "d/x") false (by decide) (by decide)
    (by decide), ?_⟩
  obtain ⟨n, hn⟩ := (ignored_prunes (bytes "d/")).2.1 (crowd []) true htree fun _ _ _ => rfl
  refine ⟨n, fun rounds hrounds => ?_⟩
  obtain ⟨stats, es, qs, hscan, hout, -, -, -, hleft⟩ := hn rounds hrounds
  refine ⟨stats, es, qs, hscan, hout, ?_, ?_⟩
  · exact (hleft _ _ hd (by simp) rfl (by decide)).2 (by decide)
  · exact (hleft _ _ hx (by simp) rfl (by decide)).2 (by decide)

end WslDrive
