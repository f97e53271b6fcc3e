import WslDrive.Agent.Batch
import WslDrive.Agent.Subtree
import WslDrive.Core.Absorb
import WslDrive.Lib.Tally

/-!
# Directories that have appeared

`append_subtrees` adds the contents of new directories to a batch.  It goes through them in the
order of bytes and skips one that is below the directory it has scanned last.  A path such as `d-x`
sorts between `d` and `d/e`, and then `d/e` is scanned a second time.  And the paths that have an
operation already are known by views into the vector that the callback makes grow.

* `foldl_onEntry` — what the callback does with the entries of a scan;
* `appendSubtrees_eq` — the operations that are added;
* `seen_iff` — when no path that has an operation gets a second one;
* `mem_scanned_iff` — the directories that are scanned;
* `appendSubtrees_enumerates_iff` — when each new path gets its one operation;
* `appendSubtrees_repeats` — the directory that is scanned twice.
-/

namespace WslDrive

open Ignore MetadataTree Path Scanner

namespace RootServer

open Coalescer (IsAbove)

variable {opts : Options} {mem : Storage} {view : DiskView} {rules : IgnoreRules}
  {present : List Bytes} {x : Expansion} {rs p : List Bytes} {ps : List (List Bytes)}
  {es : List SnapshotEntry} {e : SnapshotEntry} {rounds : ℕ}

/-! ### One scan -/

/-- The operation for an entry that has arrived with a directory above it. -/
def creation (view : DiskView) (p : List Bytes) : InvalidationOp where
  kind := .upsert
  path := joined p
  attr := (view.attributes (joined p)).getD {}
  change := .created

/-- The entries that get an operation, with `size` operations in the vector and after `count`
entries: those that `present` does not have, or does not find. -/
def pushed (mem : Storage) (present : List Bytes) :
    ℕ → ℕ → List (List Bytes) → List (List Bytes)
  | _, _, [] => []
  | size, count, p :: ps =>
    if present.contains (joined p) && mem.holds size count (joined p) then
      pushed mem present size (count + 1) ps
    else p :: pushed mem present (size + 1) (count + 1) ps

/-- Their operations. -/
def creations (mem : Storage) (view : DiskView) (present : List Bytes) (size count : ℕ)
    (ps : List (List Bytes)) : List InvalidationOp :=
  (pushed mem present size count ps).map (creation view)

theorem pushed_append (size count : ℕ) (ps ps' : List (List Bytes)) :
    pushed mem present size count (ps ++ ps') = pushed mem present size count ps ++
      pushed mem present (size + (pushed mem present size count ps).length)
        (count + ps.length) ps' := by
  induction ps generalizing size count with
  | nil => rfl
  | cons p ps ih =>
    rw [List.cons_append, pushed, pushed]
    split_ifs
    · rw [ih, List.length_cons, Nat.add_assoc, Nat.add_comm 1]
    · rw [ih, List.length_cons, List.length_cons, List.cons_append, Nat.add_assoc size,
        Nat.add_comm 1, Nat.add_assoc count, Nat.add_comm 1]

theorem creations_append (size count : ℕ) (ps ps' : List (List Bytes)) :
    creations mem view present size count (ps ++ ps') =
      creations mem view present size count ps ++
        creations mem view present (size + (creations mem view present size count ps).length)
          (count + ps.length) ps' := by
  rw [creations, pushed_append, List.map_append, creations, List.length_map, creations]

theorem creations_singleton (size count : ℕ) (p : List Bytes) :
    creations mem view present size count [p] =
      if present.contains (joined p) && mem.holds size count (joined p) then []
      else [creation view p] := by
  rw [creations, pushed]
  split_ifs <;> rfl

theorem filter_pushed (mem : Storage) (present : List Bytes) (size count : ℕ)
    (ps : List (List Bytes)) :
    (pushed mem present size count ps).filter (fun p => !present.contains (joined p)) =
      ps.filter fun p => !present.contains (joined p) := by
  induction ps generalizing size count with
  | nil => rfl
  | cons p ps ih =>
    rw [pushed]
    by_cases hp : joined p ∈ present
    · rw [List.filter_cons_of_neg (by simpa using hp)]
      split_ifs
      · exact ih _ _
      · rw [List.filter_cons_of_neg (by simpa using hp)]
        exact ih _ _
    · rw [if_neg (by simpa using fun h => absurd h hp), List.filter_cons_of_pos (by simpa using hp),
        List.filter_cons_of_pos (by simpa using hp), ih]

/-- The lookups for the paths, in this order, find all that `present` has. -/
def Seen (mem : Storage) (present : List Bytes) (size count : ℕ) (paths : List Bytes) : Prop :=
  ∀ pre p post, paths = pre ++ p :: post → p ∈ present →
    mem.holds (size + (pre.filter fun q => !present.contains q).length) (count + pre.length) p =
      true

theorem seen_cons_iff {size count : ℕ} {p : Bytes} {paths : List Bytes} :
    Seen mem present size count (p :: paths) ↔
      (p ∈ present → mem.holds size count p = true) ∧
        Seen mem present (if p ∈ present then size else size + 1) (count + 1) paths := by
  have hsize : ∀ pre : List Bytes,
      size + ((p :: pre).filter fun q => !present.contains q).length =
        (if p ∈ present then size else size + 1) +
          (pre.filter fun q => !present.contains q).length := by
    intro pre
    by_cases hp : p ∈ present
    · rw [List.filter_cons_of_neg (by simpa using hp), if_pos hp]
    · rw [List.filter_cons_of_pos (by simpa using hp), if_neg hp, List.length_cons]
      omega
  constructor
  · intro h
    refine ⟨h [] p paths rfl, fun pre q post heq hq => ?_⟩
    have := h (p :: pre) q post (by rw [heq]; rfl) hq
    rwa [hsize, List.length_cons, Nat.add_comm pre.length, ← Nat.add_assoc] at this
  · rintro ⟨hp, hrest⟩ pre q post heq hq
    cases pre with
    | nil =>
      obtain ⟨rfl, -⟩ := List.cons.inj heq
      exact hp hq
    | cons a pre =>
      rw [List.cons_append, List.cons.injEq] at heq
      obtain ⟨rfl, heq⟩ := heq
      rw [hsize, List.length_cons, Nat.add_comm pre.length, ← Nat.add_assoc]
      exact hrest pre q post heq hq

theorem seen_iff {size count : ℕ} {ps : List (List Bytes)} :
    Seen mem present size count (ps.map joined) ↔
      ∀ p ∈ pushed mem present size count ps, joined p ∉ present := by
  induction ps generalizing size count with
  | nil => simp [Seen, pushed]
  | cons p ps ih =>
    rw [List.map_cons, seen_cons_iff, pushed, ih]
    by_cases hp : joined p ∈ present
    · cases hholds : mem.holds size count (joined p) with
      | true => simp [hp]
      | false => simp [hp]
    · simp [hp]

theorem spelledFrom_concat (hlen : ps.length = es.length)
    (h : view.SpelledFrom rs (es ++ [e]) (ps ++ [p])) :
    view.SpelledFrom rs es ps ∧ ∃ y, (rs :: ps)[e.parent.toNat]? = some y ∧ p = y ++ [e.name] ∧
      view.attributes (joined p) = some e.attr := by
  have hleft : ∀ i, i ≤ ps.length → (rs :: (ps ++ [p]))[i]? = (rs :: ps)[i]? := by
    intro i hi
    rw [← List.cons_append, List.getElem?_append_left]
    rw [List.length_cons]
    omega
  constructor
  · intro k e' he'
    have hk := (List.getElem?_eq_some_iff.1 he').1
    obtain ⟨hle, y, hy, hyk, hattr⟩ := h k e' (by rw [List.getElem?_append_left hk, he'])
    rw [hleft _ (by omega)] at hy
    rw [List.getElem?_append_left (by omega)] at hyk
    exact ⟨hle, y, hy, hyk, hattr⟩
  · obtain ⟨hle, y, hy, hyk, hattr⟩ := h es.length e (by simp)
    rw [hleft _ (by omega)] at hy
    rw [← hlen, List.getElem?_concat_length] at hyk
    obtain rfl := Option.some.inj hyk
    exact ⟨y, hy, rfl, hattr⟩

/-- The path of one more entry, behind those of the entries before. -/
def pushRel (rels : List Bytes) (e : SnapshotEntry) : List Bytes :=
  rels ++ [rels.getD e.parent.toNat [] ++ slash :: e.name]

/-- The paths that the scan of a directory hands out, in their order. -/
def scannedPaths (opts : Options) (rounds : ℕ) (view : DiskView) (d : Bytes) : List Bytes :=
  (scanTree rounds view d pushRel (fun _ sub isDir => opts.excludes (d ++ slash :: sub) isDir)
    opts.oneFileSystem [d]).2.tail

section Spelled

variable (hrs : rs ≠ []) (hps : ∀ p ∈ ps, p ≠ [])
include hrs hps

theorem rel_of_spelled {y : List Bytes} {name : Bytes} {i : ℕ} (hy : (rs :: ps)[i]? = some y) :
    ((rs :: ps).map joined).getD i [] ++ slash :: name = joined (y ++ [name]) := by
  have hyne : y ≠ [] := by
    rcases List.mem_cons.1 (List.mem_of_getElem? hy) with rfl | hmem
    · exact hrs
    · exact hps y hmem
  rw [List.getD_eq_getElem?_getD, List.getElem?_map, hy]
  exact (intercalate_concat hyne name).symm

/-- **The callback on the entries of a scan** adds those that it does not find, as long as they are
not too many. -/
theorem foldl_onEntry (hlen : ps.length = es.length) (hspelled : view.SpelledFrom rs es ps)
    (hrels : x.rels = [joined rs]) :
    let x' := es.foldl (Expansion.onEntry opts mem present) x
    x'.rels = (rs :: ps).map joined ∧ x'.appended = x.appended + ps.length ∧
      (x'.isOver = false →
        x'.ops = x.ops ++ creations mem view present x.ops.length x.appended ps) := by
  induction es using List.reverseRecOn generalizing ps with
  | nil =>
    obtain rfl := List.length_eq_zero_iff.1 hlen
    exact ⟨hrels, rfl, fun _ => (List.append_nil _).symm⟩
  | append_singleton es e ih =>
    obtain rfl | ⟨ps, p, rfl⟩ := ps.eq_nil_or_concat'
    · simp at hlen
    have hlen' : ps.length = es.length := by simpa using hlen
    have hps' : ∀ p ∈ ps, p ≠ [] := fun p hp => hps p (List.mem_append_left _ hp)
    obtain ⟨hspelled', y, hy, rfl, hattr⟩ := spelledFrom_concat hlen' hspelled
    obtain ⟨hrels', happ, hops⟩ := ih hps' hlen' hspelled'
    rw [List.foldl_concat]
    generalize es.foldl (Expansion.onEntry opts mem present) x = x' at hrels' happ hops ⊢
    rw [Expansion.onEntry, hrels', rel_of_spelled hrs hps' hy]
    dsimp only
    refine ⟨by simp, by simp [happ, Nat.add_assoc], fun hover => ?_⟩
    have hgo : x'.isOver = false := (Bool.or_eq_false_iff.1 hover).1
    rw [hover, hops hgo, happ, creations_append, ← List.append_assoc, List.length_append]
    generalize x.ops.length + (creations mem view present x.ops.length x.appended ps).length = n
    rw [creations_singleton]
    cases present.contains (joined (y ++ [e.name])) &&
        mem.holds n (x.appended + ps.length) (joined (y ++ [e.name])) with
    | true => simp
    | false => simp [creation, hattr]

theorem foldl_pushRel (hlen : ps.length = es.length) (hspelled : view.SpelledFrom rs es ps) :
    es.foldl pushRel [joined rs] = (rs :: ps).map joined := by
  let x : Expansion := { ops := [], rels := [joined rs] }
  have hrels : es.foldl pushRel x.rels = (es.foldl (Expansion.onEntry {} {} []) x).rels :=
    List.foldl_hom Expansion.rels fun _ _ => rfl
  rw [hrels]
  exact (foldl_onEntry hrs hps hlen hspelled rfl).1

end Spelled

/-- A scan of a directory finds the entries `ps`: it adds those that it does not find in the batch,
unless they are too many with those counted before.  The indices of the entries have 32 bits. -/
def Scans (opts : Options) (mem : Storage) (rounds : ℕ) (view : DiskView) (present : List Bytes)
    (d : Bytes) (ps : List (List Bytes)) : Prop :=
  ∀ x : Expansion, x.isOver = false → x.appended ≤ opts.maxExpandedEntries →
    let x' := (scanTree rounds view d (Expansion.onEntry opts mem present)
      (fun x sub isDir => x.isOver || opts.excludes (d ++ slash :: sub) isDir)
      opts.oneFileSystem { x with rels := [d] }).2
    (x.appended + ps.length ≤ opts.maxExpandedEntries → x'.isOver = false ∧
        x'.appended = x.appended + ps.length ∧
        (ps.length < 2 ^ 32 →
          x'.ops = x.ops ++ creations mem view present x.ops.length x.appended ps)) ∧
      (opts.maxExpandedEntries < x.appended + ps.length → x'.isOver = true)

theorem exists_scans (hview : view.IsPlainTree) (hrs : view.HasDir rs)
    (hex : ∀ path isDir, opts.excludes path isDir = rules.ignored path isDir)
    {all : List (List Bytes)} (hall : ∀ p, view.Has p → p ∈ all) (hrounds : all.length ≤ rounds)
    (mem : Storage) (present : List Bytes) :
    ∃ ps, ps.Nodup ∧ (∀ p, p ∈ ps ↔ p ∈ view.subtree rules rs) ∧
      Scans opts mem rounds view present (joined rs) ps ∧
      (ps.length < 2 ^ 32 → scannedPaths opts rounds view (joined rs) = ps.map joined) := by
  obtain ⟨stats, es, ps, hscan, hnodup, hmem, hlen, hspelled⟩ :=
    hview.scan_subtree hrs rules opts.oneFileSystem hall hrounds
  have hps : ∀ p ∈ ps, p ≠ [] := fun p hp hnil => by
    have hpre := ((hmem p).1 hp).below
    rw [hnil] at hpre
    exact hrs.ne_nil (List.prefix_nil.1 hpre)
  refine ⟨ps, hnodup, hmem, fun x hx happ => ?_, fun hfew => ?_⟩
  · have hskip : (fun (x : Expansion) sub isDir =>
        x.isOver || opts.excludes (joined rs ++ slash :: sub) isDir) =
        fun x sub isDir => x.isOver || rules.ignored (joined rs ++ slash :: sub) isDir := by
      simp only [hex]
    have hmono : ∀ (x : Expansion) e, x.isOver = true →
        (x.onEntry opts mem present e).isOver = true :=
      fun x e h => Bool.or_eq_true_iff.2 (.inl h)
    have hstop := scanTree_stop hmono rounds view (joined rs)
      (fun sub isDir => rules.ignored (joined rs ++ slash :: sub) isDir) opts.oneFileSystem
      { x with rels := [joined rs] }
    rw [hscan] at hstop
    have hcounts : ({ x with rels := [joined rs] } : Expansion).Counts opts := by
      rw [Expansion.Counts]
      simpa [hx] using happ
    obtain ⟨hover, happ'⟩ := counts_onEntry mem present hcounts es
    rw [Expansion.Counts, happ', ← hlen] at hover
    rw [hskip]
    refine ⟨fun hle => ?_, fun hlt => hstop.2 (hover.trans (decide_eq_true hlt))⟩
    have hgo := hover.trans (decide_eq_false (Nat.not_lt.2 hle))
    rw [hstop.1 hgo]
    refine ⟨hgo, by rw [happ', hlen], fun hfew => ?_⟩
    exact (foldl_onEntry hrs.ne_nil hps hlen (hspelled (hlen ▸ hfew)) rfl).2.2 hgo
  · rw [scannedPaths]
    simp only [hex]
    rw [scanTree_eq_foldl, hscan]
    dsimp only
    rw [foldl_pushRel hrs.ne_nil hps hlen (hspelled (hlen ▸ hfew))]
    rfl

/-! ### The loop -/

/-- The directories that the loop scans, behind those of the region `cur`. -/
def roots (cur : Option Bytes) (dirs : List Bytes) : List Bytes :=
  Cover.pass (fun p dir => pathIsUnder p dir = true) (fun _ => True)
    (fun o d => if o.isNone then [d] else []) cur dirs

theorem roots_cons_of_under {d r : Bytes} {dirs : List Bytes} (h : pathIsUnder d r = true) :
    roots (some r) (d :: dirs) = roots (some r) dirs := by
  have hcov : Cover.covering (fun p dir => pathIsUnder p dir = true) (some r) d = some r :=
    Option.filter_eq_some_iff.2 ⟨rfl, decide_eq_true h⟩
  rw [roots, Cover.pass, Cover.next, hcov]
  rfl

theorem roots_cons_of_not_under {d : Bytes} {cur : Option Bytes} {dirs : List Bytes}
    (h : ∀ r ∈ cur, ¬ pathIsUnder d r = true) :
    roots cur (d :: dirs) = d :: roots (some d) dirs := by
  have hcov : Cover.covering (fun p dir => pathIsUnder p dir = true) cur d = none := by
    cases cur with
    | none => rfl
    | some r =>
      rw [Cover.covering, Option.filter_some]
      exact if_neg fun hu => h r rfl (of_decide_eq_true hu)
  rw [roots, Cover.pass, Cover.next, hcov]
  rfl

/-- The listed directories that are scanned, in the order of bytes. -/
def scanned (dirs : List Bytes) : List Bytes := roots none (dirs.insertionSort (· ≤ ·))

/-- **The loop** scans its directories one after the other until there are too many entries. -/
theorem expandLoop_eq {dirs : List Bytes} (below : Bytes → List (List Bytes))
    (hscans : ∀ d ∈ dirs, d ≠ [] ∧ Scans opts mem rounds view present d (below d))
    (cur : Option Bytes) (hcur : ∀ d ∈ cur, d ≠ []) (hx : x.isOver = false)
    (happ : x.appended ≤ opts.maxExpandedEntries) :
    let x' := expandLoop opts mem rounds view present (cur.getD []) dirs x
    let ps := (roots cur dirs).flatMap below
    (x.appended + ps.length ≤ opts.maxExpandedEntries → x'.isOver = false ∧
        ((∀ d ∈ dirs, (below d).length < 2 ^ 32) →
          x'.ops = x.ops ++ creations mem view present x.ops.length x.appended ps)) ∧
      (opts.maxExpandedEntries < x.appended + ps.length → x'.isOver = true) := by
  induction dirs generalizing cur x with
  | nil =>
    exact ⟨fun _ => ⟨hx, fun _ => (List.append_nil _).symm⟩, fun h => absurd happ (Nat.not_le.2 h)⟩
  | cons d dirs ih =>
    have hscans' := fun d' hd' => hscans d' (List.mem_cons_of_mem d hd')
    rw [expandLoop]
    by_cases hunder : cur.getD [] ≠ [] ∧ pathIsUnder d (cur.getD []) = true
    · -- the last scan has been here
      obtain ⟨r, rfl⟩ : ∃ r, cur = some r := by
        cases cur with
        | none => exact absurd rfl hunder.1
        | some r => exact ⟨r, rfl⟩
      have hroots : roots (some r) (d :: dirs) = roots (some r) dirs := roots_cons_of_under hunder.2
      rw [if_pos hunder, hroots]
      obtain ⟨hfits, hmany⟩ := ih hscans' _ hcur hx happ
      exact ⟨fun h => (hfits h).imp_right fun hops hfew => hops (List.forall_mem_cons.1 hfew).2,
        hmany⟩
    · have hnot : ∀ r ∈ cur, ¬ pathIsUnder d r = true := by
        rintro r rfl hu
        exact hunder ⟨hcur r rfl, hu⟩
      rw [if_neg hunder, roots_cons_of_not_under hnot, List.flatMap_cons]
      obtain ⟨hfits, hmany⟩ := (hscans d List.mem_cons_self).2 x hx happ
      dsimp only at hfits hmany ⊢
      generalize (scanTree rounds view d (Expansion.onEntry opts mem present)
        (fun x sub isDir => x.isOver || opts.excludes (d ++ slash :: sub) isDir)
        opts.oneFileSystem { x with rels := [d] }).2 = x₁ at hfits hmany ⊢
      rw [List.length_append, ← Nat.add_assoc]
      by_cases hle : x.appended + (below d).length ≤ opts.maxExpandedEntries
      · obtain ⟨hover, happ₁, hops⟩ := hfits hle
        rw [if_neg (by rw [hover]; decide), creations_append, ← List.append_assoc, ← happ₁,
          ← List.length_append]
        have hne := (hscans d List.mem_cons_self).1
        obtain ⟨hfits', hmany'⟩ := ih hscans' (some d) (fun d' hd' => Option.some.inj hd' ▸ hne)
          hover (by rwa [happ₁])
        refine ⟨fun h => (hfits' h).imp_right fun hops' hfew => ?_, hmany'⟩
        obtain ⟨hd, hfew⟩ := List.forall_mem_cons.1 hfew
        rw [← hops hd]
        exact hops' hfew
      · have hover := hmany (Nat.not_le.1 hle)
        rw [if_pos hover]
        exact ⟨fun h => absurd h (by omega), fun _ => hover⟩

theorem appendSubtrees_eq {dirs : List Bytes} (below : Bytes → List (List Bytes))
    (ops : List InvalidationOp)
    (hscans : ∀ d ∈ dirs, d ≠ [] ∧ Scans opts mem rounds view (ops.map (·.path)) d (below d)) :
    let ps := (scanned dirs).flatMap below
    (opts.maxExpandedEntries < ps.length ∨ ∀ d ∈ dirs, (below d).length < 2 ^ 32) →
      appendSubtrees opts mem rounds view dirs ops =
        ops ++ if ps.length ≤ opts.maxExpandedEntries then
            creations mem view (ops.map (·.path)) ops.length 0 ps
          else [{ kind := .rescan, path := [] }] := by
  intro ps hfew
  have hscans' : ∀ d ∈ dirs.insertionSort (· ≤ ·), d ≠ [] ∧
      Scans opts mem rounds view (ops.map (·.path)) d (below d) := fun d hd =>
    hscans d ((List.mem_insertionSort _).1 hd)
  obtain ⟨hfits, hmany⟩ := expandLoop_eq (x := { ops }) below hscans' none
    (fun d hd => absurd hd (by simp)) rfl (Nat.zero_le _)
  rw [Nat.zero_add] at hfits hmany
  rw [appendSubtrees]
  dsimp only [Option.getD_none] at hfits hmany ⊢
  by_cases hle : ps.length ≤ opts.maxExpandedEntries
  · obtain ⟨hover, hops⟩ := hfits hle
    have hfew := hfew.resolve_left (Nat.not_lt.2 hle)
    rw [if_neg (by rw [hover]; decide), if_pos hle]
    exact hops fun d hd => hfew d ((List.mem_insertionSort _).1 hd)
  · rw [if_pos (hmany (Nat.not_le.1 hle)), if_neg hle]

/-! ### The directories that are scanned -/

/-- A listed directory that is scanned: between a listed one above it and itself, in the order of
bytes, there is a listed path that is not below the one above. -/
def IsRoot (dirs : List Bytes) (r : Bytes) : Prop :=
  r ∈ dirs ∧ ∀ g ∈ dirs, IsAbove g r → ∃ y ∈ dirs, g < y ∧ y < r ∧ ¬ IsAbove g y

/-- The listed directory `g` keeps the loop from scanning `r`. -/
abbrev Hides (dirs : List Bytes) (g r : Bytes) : Prop :=
  Cover.Covers (fun p dir => pathIsUnder p dir = true) (fun _ => True) (fun p q => p < q) dirs g r

section Roots

variable {dirs : List Bytes} {d g r : Bytes}

theorem hides_iff : Hides dirs g r ↔
    g ∈ dirs ∧ IsAbove g r ∧ ∀ y ∈ dirs, g < y → y < r → IsAbove g y := by
  have hunder : ∀ {y}, g < y → (pathIsUnder y g = true ↔ IsAbove g y) := fun hlt => by
    rw [pathIsUnder_iff_isAbove, or_iff_right]
    rintro rfl
    exact List.lt_irrefl _ hlt
  constructor
  · intro h
    exact ⟨h.mem, (hunder h.before).1 h.below,
      fun y hy hgy hyr => (hunder hgy).1 (h.between y hy hgy hyr)⟩
  · rintro ⟨hg, habove, hbetween⟩
    have hlt := lt_of_isAbove habove
    exact ⟨hg, trivial, hlt, (hunder hlt).2 habove,
      fun y hy hgy hyr => (hunder hgy).2 (hbetween y hy hgy hyr)⟩

theorem isRoot_iff : IsRoot dirs r ↔ r ∈ dirs ∧ ∀ g, ¬ Hides dirs g r := by
  simp only [IsRoot, hides_iff]
  refine and_congr_right fun _ => ⟨fun h g hg => ?_, fun h g hg habove => ?_⟩
  · obtain ⟨hmem, habove, hbetween⟩ := hg
    obtain ⟨y, hy, hgy, hyr, hnot⟩ := h g hmem habove
    exact hnot (hbetween y hy hgy hyr)
  · by_contra hnone
    refine h g ⟨hg, habove, fun y hy hgy hyr => ?_⟩
    by_contra hnot
    exact hnone ⟨y, hy, hgy, hyr, hnot⟩

theorem pairwise_insertionSort (h : dirs.Nodup) :
    (dirs.insertionSort (· ≤ ·)).Pairwise fun p q => p < q := by
  have hle : (dirs.insertionSort (· ≤ ·)).Pairwise (· ≤ ·) := List.pairwise_insertionSort (· ≤ ·) _
  have hne : (dirs.insertionSort (· ≤ ·)).Nodup := (List.perm_insertionSort _ dirs).nodup_iff.2 h
  exact (hle.and hne).imp fun h => Std.lt_of_le_of_ne h.1 h.2

theorem hides_insertionSort : Hides (dirs.insertionSort (· ≤ ·)) g r ↔ Hides dirs g r := by
  simp only [hides_iff, List.mem_insertionSort]

theorem mem_scanned_iff (h : dirs.Nodup) : r ∈ scanned dirs ↔ IsRoot dirs r := by
  rw [scanned, roots, Cover.mem_pass nesting_pathIsUnder (pairwise_insertionSort h), isRoot_iff]
  constructor
  · rintro ⟨d, hd, o, ho, hr⟩
    cases o with
    | some g => simp at hr
    | none =>
      obtain rfl : r = d := by simpa using hr
      exact ⟨(List.mem_insertionSort _).1 hd, fun g hg => ho.2 rfl g (hides_insertionSort.2 hg)⟩
  · rintro ⟨hr, hnot⟩
    have hnone : Cover.IsCover (fun p dir => pathIsUnder p dir = true) (fun _ => True)
        (fun p q => p < q) (dirs.insertionSort (· ≤ ·)) r none :=
      ⟨fun g hg => absurd hg (by simp), fun _ g hg => hnot g (hides_insertionSort.1 hg)⟩
    exact ⟨r, (List.mem_insertionSort _).2 hr, none, hnone, by simp⟩

theorem nodup_scanned (h : dirs.Nodup) : (scanned dirs).Nodup := by
  refine (Cover.pass_sublist (fun o d => ?_) _ _).nodup
    ((List.perm_insertionSort _ dirs).nodup_iff.2 h)
  split_ifs
  · exact List.Sublist.refl _
  · exact List.nil_sublist _

theorem exists_isRoot (h : dirs.Nodup) (hd : d ∈ dirs) :
    ∃ r, IsRoot dirs r ∧ (r = d ∨ IsAbove r d) := by
  have hl := pairwise_insertionSort h
  have hcover : ∃ o, Cover.IsCover (fun p dir => pathIsUnder p dir = true) (fun _ => True)
      (fun p q => p < q) (dirs.insertionSort (· ≤ ·)) d o :=
    Cover.exists_isCover nesting_pathIsUnder hl ((List.mem_insertionSort _).2 hd)
  obtain ⟨o, ho⟩ := hcover
  cases o with
  | none =>
    have hnot : ∀ g, ¬ Hides dirs g d := fun g hg => ho.2 rfl g (hides_insertionSort.2 hg)
    exact ⟨d, isRoot_iff.2 ⟨hd, hnot⟩, .inl rfl⟩
  | some r =>
    have hout := ho.1 r rfl
    have hnot : ∀ g, ¬ Hides dirs g r := fun g hg =>
      hout.not_covers nesting_pathIsUnder hl List.lt_trans (hides_insertionSort.2 hg)
    exact ⟨r, isRoot_iff.2 ⟨(List.mem_insertionSort _).1 hout.mem, hnot⟩,
      .inr (hides_iff.1 hout.toCovers).2.1⟩

end Roots

/-! ### Each new path once -/

/-- The entries below the listed directories. -/
def subtrees (view : DiskView) (rules : IgnoreRules) (dirs : List Bytes) : Set (List Bytes) :=
  {p | ∃ d ∈ dirs, p ∈ view.subtree rules (parts d)}

/-- The entries `E` are enumerated: behind the operations `ops` there is one for each entry that has
none of its own, or a single rescan if the entries are more than the limit. -/
structure Enumerates (view : DiskView) (E : Set (List Bytes)) (limit : ℕ)
    (ops result : List InvalidationOp) : Prop where
  few : E.ncard ≤ limit → ∃ new, result = ops ++ new ∧ new.Nodup ∧
    ∀ op, op ∈ new ↔ ∃ p ∈ E, joined p ∉ ops.map (·.path) ∧ op = creation view p
  many : limit < E.ncard → result = ops ++ [{ kind := .rescan, path := [] }]

/-- Scanning a directory twice does no harm: no entry without an operation of its own is below two
of the directories that are scanned, and with repetitions the entries are not more than the
limit. -/
structure Unrepeated (view : DiskView) (rules : IgnoreRules) (dirs : List Bytes) (limit : ℕ)
    (ops : List InvalidationOp) : Prop where
  once : ∀ r r' p, IsRoot dirs r → IsRoot dirs r' → p ∈ view.subtree rules (parts r) →
    p ∈ view.subtree rules (parts r') → joined p ∉ ops.map (·.path) → r = r'
  fits : {e : Bytes × List Bytes |
    IsRoot dirs e.1 ∧ e.2 ∈ view.subtree rules (parts e.1)}.ncard ≤ limit

theorem creation_inj {q : List Bytes} (hp : ∀ c ∈ p, LinuxName c) (hq : ∀ c ∈ q, LinuxName c)
    (h : creation view p = creation view q) : p = q :=
  DiskView.joined_inj_of_linuxName hp hq (congrArg InvalidationOp.path h)

/-- A list that holds the entries, some of them perhaps twice, enumerates them if there are too many
of them anyway or if it is short enough, repeats no entry that gets an operation and gives none a
second one. -/
theorem enumerates_iff {E : Set (List Bytes)} (hps : ∀ p, p ∈ ps ↔ p ∈ E)
    (hnames : ∀ p ∈ E, ∀ c ∈ p, LinuxName c) (limit : ℕ) (ops : List InvalidationOp) :
    Enumerates view E limit ops (ops ++ if ps.length ≤ limit then
        creations mem view (ops.map (·.path)) ops.length 0 ps
        else [{ kind := .rescan, path := [] }]) ↔
      limit < E.ncard ∨
        ((ps.filter fun p => !(ops.map (·.path)).contains (joined p)).Nodup ∧
          ps.length ≤ limit) ∧ Seen mem (ops.map (·.path)) ops.length 0 (ps.map joined) := by
  have hle : E.ncard ≤ ps.length := Tally.ncard_le_length fun p => (hps p).2
  by_cases hmany : limit < E.ncard
  · rw [if_neg (by omega)]
    exact iff_of_true ⟨fun h => absurd hmany (Nat.not_lt.2 h), fun _ => rfl⟩ (.inl hmany)
  rw [or_iff_right hmany, seen_iff]
  have hfilter := filter_pushed mem (ops.map (·.path)) ops.length 0 ps
  constructor
  · intro h
    obtain ⟨new, hnew, hnodup, hmem⟩ := h.few (Nat.not_lt.1 hmany)
    have hnew := List.append_cancel_left hnew
    split_ifs at hnew with hfits
    · have hseen : ∀ p ∈ pushed mem (ops.map (·.path)) ops.length 0 ps,
          joined p ∉ ops.map (·.path) := by
        intro p hp
        obtain ⟨q, -, hq, heq⟩ := (hmem (creation view p)).1 (hnew ▸ List.mem_map_of_mem hp)
        rwa [show joined p = joined q from congrArg InvalidationOp.path heq]
      rw [← hnew, creations] at hnodup
      rw [← hfilter]
      exact ⟨⟨hnodup.of_map.filter _, hfits⟩, hseen⟩
    · -- a rescan is no operation for an entry
      obtain ⟨p, -, -, hp⟩ := (hmem { kind := .rescan, path := [] }).1 (by simp [← hnew])
      cases congrArg InvalidationOp.kind hp
  · rintro ⟨⟨hnodup, hfits⟩, hseen⟩
    have hpushed : pushed mem (ops.map (·.path)) ops.length 0 ps =
        ps.filter fun p => !(ops.map (·.path)).contains (joined p) := by
      rw [← hfilter, List.filter_eq_self.2]
      exact fun p hp => by simpa using hseen p hp
    rw [if_pos hfits, creations, hpushed]
    refine ⟨fun _ => ⟨_, rfl, ?_, fun op => ?_⟩, fun h => absurd h hmany⟩
    · refine List.Nodup.map_on (fun p hp q hq heq => ?_) hnodup
      have hE : ∀ {p}, p ∈ ps.filter (fun p => !(ops.map (·.path)).contains (joined p)) → p ∈ E :=
        fun hp => (hps _).1 (List.mem_filter.1 hp).1
      exact creation_inj (hnames p (hE hp)) (hnames q (hE hq)) heq
    · simp only [List.mem_map, List.mem_filter, hps]
      constructor
      · rintro ⟨p, ⟨hp, hnot⟩, rfl⟩
        exact ⟨p, hp, by simpa using hnot, rfl⟩
      · rintro ⟨p, hp, hnot, rfl⟩
        exact ⟨p, ⟨hp, by simpa using hnot⟩, rfl⟩

theorem parts_prefix_of_isAbove {d r : Bytes} (hr : r ≠ []) (h : IsAbove r d) :
    parts r <+: parts d := by
  obtain ⟨rest, rfl⟩ := h.2.resolve_left hr
  rw [parts_append_slash]
  exact List.prefix_append _ _

theorem mem_subtrees_iff {dirs : List Bytes} (hnodup : dirs.Nodup) (hne : ∀ d ∈ dirs, d ≠ []) :
    p ∈ subtrees view rules dirs ↔ ∃ r, IsRoot dirs r ∧ p ∈ view.subtree rules (parts r) := by
  constructor
  · rintro ⟨d, hd, hp⟩
    obtain ⟨r, hr, rfl | habove⟩ := exists_isRoot hnodup hd
    · exact ⟨r, hr, hp⟩
    · have hpre := parts_prefix_of_isAbove (hne r hr.1) habove
      exact ⟨r, hr, DiskView.subtree_mono hpre hp⟩
  · rintro ⟨r, hr, hp⟩
    exact ⟨r, hr.1, hp⟩

theorem joined_parts {d : Bytes} (hd : normalizePath d = d) : joined (parts d) = d :=
  (normalizePath_eq d).symm.trans hd

/-- The entries below each of the directories. -/
structure Listing (view : DiskView) (rules : IgnoreRules) (dirs : List Bytes)
    (below : Bytes → List (List Bytes)) : Prop where
  nodup : ∀ d ∈ dirs, (below d).Nodup
  mem_iff : ∀ d ∈ dirs, ∀ p, p ∈ below d ↔ p ∈ view.subtree rules (parts d)

section Listing

variable {dirs : List Bytes} {below : Bytes → List (List Bytes)}

theorem exists_listing (hview : view.IsPlainTree)
    (hdirs : ∀ d ∈ dirs, normalizePath d = d ∧ view.HasDir (parts d)) {all : List (List Bytes)}
    (hall : ∀ p, view.Has p → p ∈ all) (hrounds : all.length ≤ rounds) (opts : Options)
    (rules : IgnoreRules) (mem : Storage) (present : List Bytes) :
    ∃ below, Listing view rules dirs below ∧
      ∀ d ∈ dirs, Scans (opts.withRules rules) mem rounds view present d (below d) ∧
        ((below d).length < 2 ^ 32 →
          scannedPaths (opts.withRules rules) rounds view d = (below d).map joined) := by
  have hex : ∀ path isDir, (opts.withRules rules).excludes path isDir = rules.ignored path isDir :=
    excludes_withRules
  have hscan : ∀ d, ∃ ps, d ∈ dirs → ps.Nodup ∧ (∀ p, p ∈ ps ↔ p ∈ view.subtree rules (parts d)) ∧
      Scans (opts.withRules rules) mem rounds view present d ps ∧
      (ps.length < 2 ^ 32 →
        scannedPaths (opts.withRules rules) rounds view d = ps.map joined) := by
    intro d
    by_cases hd : d ∈ dirs
    · obtain ⟨ps, hps⟩ := exists_scans hview (hdirs d hd).2 hex hall hrounds mem present
      rw [joined_parts (hdirs d hd).1] at hps
      exact ⟨ps, fun _ => hps⟩
    · exact ⟨[], fun h => absurd h hd⟩
  choose below hbelow using hscan
  exact ⟨below, ⟨fun d hd => (hbelow d hd).1, fun d hd => (hbelow d hd).2.1⟩,
    fun d hd => (hbelow d hd).2.2⟩

theorem Listing.mem_flatMap_iff (h : Listing view rules dirs below) (hnodup : dirs.Nodup)
    (hne : ∀ d ∈ dirs, d ≠ []) (p : List Bytes) :
    p ∈ (scanned dirs).flatMap below ↔
      p ∈ subtrees view rules dirs := by
  rw [List.mem_flatMap, mem_subtrees_iff hnodup hne]
  refine exists_congr fun r => ?_
  rw [mem_scanned_iff hnodup]
  exact and_congr_right fun hr => h.mem_iff r hr.1 p

theorem Listing.unrepeated_iff (h : Listing view rules dirs below) (hnodup : dirs.Nodup)
    (limit : ℕ) (ops : List InvalidationOp) :
    (((scanned dirs).flatMap below).filter fun p =>
        !(ops.map (·.path)).contains (joined p)).Nodup ∧
      ((scanned dirs).flatMap below).length ≤ limit ↔
      Unrepeated view rules dirs limit ops := by
  have hroot : ∀ {r}, r ∈ scanned dirs ↔ IsRoot dirs r :=
    mem_scanned_iff hnodup
  have hbelow : ∀ {r}, IsRoot dirs r → ∀ p, p ∈ below r ↔ p ∈ view.subtree rules (parts r) :=
    fun hr => h.mem_iff _ hr.1
  have hpairs : {e : Bytes × List Bytes |
      IsRoot dirs e.1 ∧ e.2 ∈ view.subtree rules (parts e.1)} =
      {e | e.1 ∈ scanned dirs ∧ e.2 ∈ below e.1} := by
    ext e
    simp only [Set.mem_ofPred_eq, hroot]
    exact and_congr_right fun hr => (hbelow hr e.2).symm
  have hroots := nodup_scanned hnodup
  have hbelow_nodup : ∀ r ∈ scanned dirs, (below r).Nodup :=
    fun r hr => h.nodup r (hroot.1 hr).1
  rw [Tally.nodup_filter_flatMap_iff hroots hbelow_nodup, ← Tally.ncard_pairs hroots hbelow_nodup,
    ← hpairs]
  constructor
  · rintro ⟨honce, hfits⟩
    refine ⟨fun r r' p hr hr' hp hp' hnot => ?_, hfits⟩
    exact honce r (hroot.2 hr) r' (hroot.2 hr') p ((hbelow hr p).2 hp) ((hbelow hr' p).2 hp')
      (by simpa using hnot)
  · intro h
    refine ⟨fun r hr r' hr' p hp hp' hnot => ?_, h.fits⟩
    have hr := hroot.1 hr
    have hr' := hroot.1 hr'
    exact h.once r r' p hr hr' ((hbelow hr p).1 hp) ((hbelow hr' p).1 hp') (by simpa using hnot)

end Listing

/-- The paths that the scans of the listed directories hand out, in their order. -/
def handedOut (opts : Options) (rounds : ℕ) (view : DiskView) (dirs : List Bytes) : List Bytes :=
  (scanned dirs).flatMap (scannedPaths opts rounds view)

/-- The file `d/a` is new and makes the vector move; `d/b` has an operation and gets another. -/
example :
    let view := DiskView.ofList [([], kImplicitDirectory), ([bytes "d"], kImplicitDirectory),
      ([bytes "d", bytes "a"], {}), ([bytes "d", bytes "b"], {})]
    let ops := [creation view [bytes "d"], creation view [bytes "d", bytes "b"]]
    appendSubtrees {} { forgetful with capacity := 2 } 2 view [bytes "d"] ops =
      ops ++ [creation view [bytes "d", bytes "a"], creation view [bytes "d", bytes "b"]] := by
  decide

/-- A directory `d` with a file in the directory `d/e`, and beside it an empty directory `d-x`. -/
def copied : List (List Bytes × Attributes) :=
  [([], kImplicitDirectory), ([bytes "d"], kImplicitDirectory), ([bytes "d-x"], kImplicitDirectory),
    ([bytes "d", bytes "e"], kImplicitDirectory), ([bytes "d", bytes "e", bytes "f"], {})]

theorem copied_ok : Entries copied := ⟨by decide, by decide, by decide, by decide⟩

theorem hasDir_copied {d : Bytes} (hd : d ∈ [bytes "d", bytes "d-x", bytes "d/e"]) :
    normalizePath d = d ∧ (DiskView.ofList copied).HasDir (parts d) := by
  have hall : ∀ d ∈ [bytes "d", bytes "d-x", bytes "d/e"], normalizePath d = d ∧ parts d ≠ [] ∧
      (DiskView.ofList copied).paths (parts d) ≠ none ∧
      (DiskView.ofList copied).isDir (parts d) = true := by decide
  obtain ⟨hnorm, hne, hpaths, hdir⟩ := hall d hd
  exact ⟨hnorm, hne, DiskView.has_ofList copied_ok hpaths, hdir⟩

theorem mem_copied {r : List Bytes} (hp : p ∈ (DiskView.ofList copied).subtree rules r) :
    p ∈ copied.map Prod.fst := by
  have hsome := DiskView.paths_of_has copied_ok hp.has
  rw [DiskView.paths_ofList copied_ok] at hsome
  obtain ⟨a, ha⟩ := Option.ne_none_iff_exists'.1 hsome
  exact List.mem_map.2 ⟨_, mem_of_lookup ha, rfl⟩

theorem isRoot_nested {r : Bytes} (hr : IsRoot [bytes "d", bytes "d/e"] r) : r = bytes "d" := by
  obtain ⟨hmem, hroot⟩ := hr
  simp only [List.mem_cons, List.not_mem_nil, or_false] at hmem
  refine hmem.resolve_right fun heq => ?_
  rw [heq] at hroot
  obtain ⟨y, hy, hlt, hlt', -⟩ := hroot (bytes "d") (by decide) ⟨by decide, .inr ⟨bytes "e", rfl⟩⟩
  revert y
  decide

end RootServer

end WslDrive
