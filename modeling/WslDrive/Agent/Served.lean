import Mathlib.Data.Nat.Digits.Defs
import WslDrive.Agent.DiskTree
import WslDrive.Agent.Resolve
import WslDrive.Core.Tree.Load
import WslDrive.Core.Tree.Snapshot
import WslDrive.Lib.Breadth

/-!
# From the disk to the mirror and back

The agent scans the served tree, the client loads the entries, and the paths of the mirror come
back in requests.  On the way there special files, ignored entries, other filesystems and names
with a backslash are left out; on the way back every path goes through `resolve`.

* `DiskView.IsLinuxTree` — a readable tree with names as Linux allows them;
* `DiskView.Reported` — the entries that a scan hands out;
* `scanTree_eq` — the scan numbers the tree breadth first, modulo `2 ^ 32`;
* `scan_load_faithful` — below that number of entries, what is loaded is what is on the disk;
* `listed_addressable_iff` — which paths of the mirror the agent lets through.
-/

namespace WslDrive

open MetadataTree Path Scanner

/-! ### The tree on the disk -/

namespace DiskView

variable {view : DiskView} {ignored : Bytes → Bool → Bool} {oneFileSystem : Bool}
  {p q : List Bytes} {c : Bytes}

/-- The entry is a directory. -/
def isDir (view : DiskView) (p : List Bytes) : Bool :=
  (view.attributes (joined p)).any (·.kind == .directory)

/-- The paths that listing directories from the root leads to. -/
inductive Has (view : DiskView) : List Bytes → Prop
  | root : Has view []
  | entry {p : List Bytes} {c : Bytes} {l : List Bytes} (hp : Has view p)
      (hdir : p = [] ∨ view.isDir p = true) (hl : view.names (joined p) = some l) (hc : c ∈ l) :
      Has view (p ++ [c])

/-- A readable Linux directory tree: the root is a directory, every directory can be listed and
every entry has its attributes. -/
structure IsLinuxTree (view : DiskView) : Prop where
  root : view.isDirectory [] = true
  listed : ∀ p, view.Has p → (p = [] ∨ view.isDir p = true) →
    ∃ l, view.names (joined p) = some l ∧ l.Nodup ∧
      ∀ c ∈ l, LinuxName c ∧ view.attributes (joined (p ++ [c])) ≠ none
  finite : ∃ all : List (List Bytes), ∀ p, view.Has p → p ∈ all

/-- The filesystem that the scan stays on, if it stays on one. -/
def rootDev (view : DiskView) (oneFileSystem : Bool) : Option UInt64 :=
  if oneFileSystem then view.deviceId [] else none

/-- The directory is on another filesystem than the root. -/
def foreign (view : DiskView) (oneFileSystem : Bool) (p : List Bytes) : Bool :=
  match view.rootDev oneFileSystem, view.deviceId (joined p) with
  | some root, some dev => dev != root
  | _, _ => false

/-- The entries that a scan hands out: they are no special files, no directory above is on another
filesystem, and neither they nor a directory above is ignored. -/
structure Reported (view : DiskView) (ignored : Bytes → Bool → Bool) (oneFileSystem : Bool)
    (p : List Bytes) : Prop where
  ne_root : p ≠ []
  has : view.Has p
  regular : ∀ a, view.attributes (joined p) = some a → a.kind ≠ .other
  notIgnored : ∀ q, q ≠ [] → q <+: p → ignored (joined q) (view.isDir q) = false
  descended : ∀ q, q ≠ [] → q <+: p → q ≠ p → view.foreign oneFileSystem q = false

/-- What the scan makes of an entry of a directory. -/
def shows (view : DiskView) (ignored : Bytes → Bool → Bool) (p : List Bytes) (c : Bytes) : Bool :=
  (view.attributes (joined (p ++ [c]))).any fun a =>
    a.kind != .other && !ignored (joined (p ++ [c])) (a.kind == .directory)

/-- The tree that the scan walks. -/
def plan (view : DiskView) (ignored : Bytes → Bool → Bool) (oneFileSystem : Bool) :
    Breadth (List Bytes) where
  root := []
  kids p := (((view.names (joined p)).getD []).filter (view.shows ignored p)).map fun c => p ++ [c]
  enters p := p == [] || view.isDir p && !view.foreign oneFileSystem p

theorem isDir_iff : view.isDir p = true ↔
    ∃ a, view.attributes (joined p) = some a ∧ a.kind = .directory := by
  simp [isDir, Option.any_eq_true]

theorem enters_iff : (view.plan ignored oneFileSystem).enters p = true ↔
    p = [] ∨ view.isDir p = true ∧ view.foreign oneFileSystem p = false := by
  simp [plan]

theorem mem_kids_iff : q ∈ (view.plan ignored oneFileSystem).kids p ↔
    ∃ c l, view.names (joined p) = some l ∧ c ∈ l ∧ view.shows ignored p c = true ∧
      q = p ++ [c] := by
  simp only [plan, List.mem_map, List.mem_filter]
  constructor
  · rintro ⟨c, ⟨hc, hs⟩, rfl⟩
    cases hl : view.names (joined p) with
    | none =>
      rw [hl] at hc
      cases hc
    | some l =>
      rw [hl] at hc
      exact ⟨c, l, rfl, hc, hs, rfl⟩
  · rintro ⟨c, l, hl, hc, hs, rfl⟩
    exact ⟨c, ⟨by rw [hl]; exact hc, hs⟩, rfl⟩

theorem Has.of_concat (h : view.Has (p ++ [c])) : view.Has p ∧
    (p = [] ∨ view.isDir p = true) ∧ ∃ l, view.names (joined p) = some l ∧ c ∈ l := by
  generalize hq : p ++ [c] = q at h
  cases h with
  | root => simp at hq
  | entry hp hdir hl hc =>
    obtain ⟨rfl, hc'⟩ := List.append_inj' hq rfl
    obtain rfl : c = _ := by simpa using hc'
    exact ⟨hp, hdir, _, hl, hc⟩

theorem IsLinuxTree.linuxName (h : view.IsLinuxTree) (hp : view.Has p) :
    ∀ c ∈ p, LinuxName c := by
  induction hp with
  | root => exact List.forall_mem_nil _
  | @entry p c l hp hdir hl hc ih =>
    obtain ⟨l', hl', -, hall⟩ := h.listed p hp hdir
    rw [hl] at hl'
    cases hl'
    intro d hd
    rcases List.mem_append.1 hd with hd | hd
    · exact ih d hd
    · rw [List.mem_singleton.1 hd]
      exact (hall c hc).1

theorem shows_iff (hattr : view.attributes (joined (p ++ [c])) ≠ none) :
    view.shows ignored p c = true ↔
      (∀ a, view.attributes (joined (p ++ [c])) = some a → a.kind ≠ .other) ∧
      ignored (joined (p ++ [c])) (view.isDir (p ++ [c])) = false := by
  obtain ⟨a, ha⟩ := Option.ne_none_iff_exists'.1 hattr
  simp [shows, isDir, ha]

theorem Reported.parent (h : view.Reported ignored oneFileSystem (p ++ [c])) :
    (p = [] ∨ view.Reported ignored oneFileSystem p) ∧
      (p = [] ∨ view.foreign oneFileSystem p = false) := by
  obtain ⟨hp, hdir, -⟩ := h.has.of_concat
  rcases eq_or_ne p [] with hnil | hne
  · exact ⟨.inl hnil, .inl hnil⟩
  · have hlt : ∀ q, q <+: p → q ≠ p ++ [c] := fun q hq heq => by
      have := hq.length_le
      rw [heq, List.length_append, List.length_singleton] at this
      omega
    refine ⟨.inr ⟨hne, hp, fun a ha hk => ?_,
      fun q hq hpre => h.notIgnored q hq (hpre.trans (List.prefix_append _ _)),
      fun q hq hpre _ => h.descended q hq (hpre.trans (List.prefix_append _ _)) (hlt q hpre)⟩,
      .inr (h.descended p hne (List.prefix_append _ _) (hlt p (List.prefix_refl p)))⟩
    obtain ⟨b, hb, hk'⟩ := isDir_iff.1 (hdir.resolve_left hne)
    rw [ha] at hb
    cases hb
    rw [hk] at hk'
    cases hk'

/-- **The walk reaches** the root and the entries to be reported. -/
theorem IsLinuxTree.reached_iff (h : view.IsLinuxTree) :
    (view.plan ignored oneFileSystem).Reached p ↔
      p = [] ∨ view.Reported ignored oneFileSystem p := by
  have hhas : ∀ {p}, p = [] ∨ view.Reported ignored oneFileSystem p → view.Has p := by
    rintro p (rfl | hp)
    · exact .root
    · exact hp.has
  constructor
  · intro hp
    induction hp with
    | root => exact .inl rfl
    | @kid p q _ he hq ih =>
      obtain ⟨c, l, hl, hc, hs, rfl⟩ := mem_kids_iff.1 hq
      have hp := hhas ih
      have he := enters_iff.1 he
      have hdir : p = [] ∨ view.isDir p = true := he.imp_right And.left
      obtain ⟨l', hl', -, hall⟩ := h.listed p hp hdir
      rw [hl] at hl'
      cases hl'
      obtain ⟨hreg, hign⟩ := (shows_iff (hall c hc).2).1 hs
      -- A proper prefix is a prefix of the parent.
      refine .inr ⟨by simp, .entry hp hdir hl hc, hreg, fun q hnil hpre => ?_,
        fun q hnil hpre hne => ?_⟩
      · rcases List.prefix_concat_iff.1 hpre with rfl | hpre
        · exact hign
        · rcases ih with rfl | hrep
          · exact absurd (List.prefix_nil.1 hpre) hnil
          · exact hrep.notIgnored q hnil hpre
      · have hpre := (List.prefix_concat_iff.1 hpre).resolve_left hne
        rcases ih with rfl | hrep
        · exact absurd (List.prefix_nil.1 hpre) hnil
        · rcases eq_or_ne q p with rfl | hqp
          · exact (he.resolve_left hnil).2
          · exact hrep.descended q hnil hpre hqp
  · rintro (rfl | hp)
    · exact .root
    · induction p using List.reverseRecOn with
      | nil => exact absurd rfl hp.ne_root
      | append_singleton p c ih =>
        obtain ⟨hhasp, hdir, l, hl, hc⟩ := hp.has.of_concat
        obtain ⟨hpar, hfor⟩ := hp.parent
        obtain ⟨l', hl', -, hall⟩ := h.listed p hhasp hdir
        rw [hl] at hl'
        cases hl'
        have hreach : (view.plan ignored oneFileSystem).Reached p := by
          rcases hpar with rfl | hpar
          · exact .root
          · exact ih hpar
        refine .kid hreach (enters_iff.2 ?_) (mem_kids_iff.2 ⟨c, l, hl, hc, ?_, rfl⟩)
        · rcases hdir with hnil | hdir
          · exact .inl hnil
          · rcases hfor with hnil | hfor
            · exact .inl hnil
            · exact .inr ⟨hdir, hfor⟩
        · exact (shows_iff (hall c hc).2).2
            ⟨hp.regular, hp.notIgnored _ (by simp) (List.prefix_refl _)⟩

theorem IsLinuxTree.has_of_reached (h : view.IsLinuxTree)
    (hp : (view.plan ignored oneFileSystem).Reached p) : view.Has p := by
  rcases h.reached_iff.1 hp with rfl | hp
  · exact .root
  · exact hp.has

theorem IsLinuxTree.isTree (h : view.IsLinuxTree) (ignored : Bytes → Bool → Bool)
    (oneFileSystem : Bool) : (view.plan ignored oneFileSystem).IsTree where
  nodup p hp he := by
    obtain ⟨l, hl, hnd, -⟩ := h.listed p (h.has_of_reached hp)
      ((enters_iff.1 he).imp_right And.left)
    simp only [plan, hl, Option.getD_some]
    exact (hnd.filter _).map fun c d hcd => by simpa using hcd
  root_notMem p hp := by
    obtain ⟨c, l, -, -, -, hnil⟩ := mem_kids_iff.1 hp
    simp [plan] at hnil
  parent hp hq := by
    obtain ⟨c, l, -, -, -, rfl⟩ := mem_kids_iff.1 hp
    obtain ⟨d, l', -, -, -, heq⟩ := mem_kids_iff.1 hq
    exact (List.append_inj' heq rfl).1
  enters_root := rfl

/-! ### The scan -/

/-- What the scan hands out for a path below the node with a number. -/
def entryOf (view : DiskView) (e : ℕ × List Bytes) : SnapshotEntry where
  parent := UInt32.ofNat e.1
  name := e.2.getLast?.getD []
  attr := (view.attributes (joined e.2)).getD {}

/-- The arguments of the scan of the whole tree, which collects the entries. -/
def scan (view : DiskView) (ignored : Bytes → Bool → Bool) (oneFileSystem : Bool) :
    Scanner.Walk (List SnapshotEntry) where
  view := view
  onEntry es e := es ++ [e]
  skip _ := ignored
  rootDev := view.rootDev oneFileSystem

/-- The scan is where the numbering is; its indices have 32 bits. -/
structure InStep (view : DiskView) (s : Scanner.State (List SnapshotEntry))
    (b : Breadth.State (List Bytes)) : Prop where
  out : s.out = b.out.map view.entryOf
  queue : s.queue = b.queue.map fun e => ⟨joined e.1, joined e.1, UInt32.ofNat e.2⟩
  nextIndex : s.nextIndex = UInt32.ofNat (b.out.length + 1)

theorem descends_scan (p : List Bytes) :
    (view.scan ignored oneFileSystem).descends (joined p) = !view.foreign oneFileSystem p := by
  rw [Scanner.Walk.descends, foreign, scan]
  dsimp only
  cases view.rootDev oneFileSystem with
  | none => rfl
  | some root =>
    cases view.deviceId (joined p) with
    | none => rfl
    | some dev => simp [bne]

theorem InStep.entry {s : Scanner.State (List SnapshotEntry)} {b : Breadth.State (List Bytes)}
    (hs : view.InStep s b) (ignored : Bytes → Bool → Bool) (oneFileSystem : Bool)
    (hp : ∀ c ∈ p, c ≠ []) (i : ℕ)
    (hattr : view.attributes (joined (p ++ [c])) ≠ none) :
    view.InStep ((view.scan ignored oneFileSystem).entry ⟨joined p, joined p, UInt32.ofNat i⟩ s c)
      (if view.shows ignored p c then
        (view.plan ignored oneFileSystem).visit i b (p ++ [c]) else b) := by
  obtain ⟨a, ha⟩ := Option.ne_none_iff_exists'.1 hattr
  have hshows : view.shows ignored p c =
      (a.kind != .other && !ignored (joined (p ++ [c])) (a.kind == .directory)) := by
    rw [shows, ha]
    rfl
  have henters : (view.plan ignored oneFileSystem).enters (p ++ [c]) =
      (a.kind == .directory && !view.foreign oneFileSystem (p ++ [c])) := by
    simp [plan, isDir, ha]
  have hentry : view.entryOf (i, p ++ [c]) = ⟨UInt32.ofNat i, c, a⟩ := by
    simp [entryOf, ha]
  have hnext : UInt32.ofNat (b.out.length + 1) + 1 = UInt32.ofNat (b.out.length + 1 + 1) := by
    rw [UInt32.ofNat_add (b.out.length + 1) 1]
    rfl
  rw [Scanner.Walk.entry]
  dsimp only
  rw [show (view.scan ignored oneFileSystem).view = view from rfl, joinName_joined_of_ne_nil hp, ha]
  dsimp only
  by_cases hother : a.kind = .other
  · rw [if_pos hother, if_neg (show ¬ view.shows ignored p c = true by rw [hshows, hother]; simp)]
    exact ⟨hs.out, hs.queue, hs.nextIndex⟩
  rw [if_neg hother]
  cases hign : ignored (joined (p ++ [c])) (a.kind == .directory) with
  | true =>
    rw [if_pos (show (view.scan ignored oneFileSystem).skip s.out (joined (p ++ [c]))
      (a.kind == .directory) = true from hign),
      if_neg (show ¬ view.shows ignored p c = true by rw [hshows, hign]; simp)]
    exact ⟨hs.out, hs.queue, hs.nextIndex⟩
  | false =>
    have hskip : (view.scan ignored oneFileSystem).skip s.out (joined (p ++ [c]))
        (a.kind == .directory) = false := hign
    rw [if_neg (by rw [hskip]; decide),
      if_pos (show view.shows ignored p c = true by rw [hshows, hign]; simp [hother])]
    have hout : (view.scan ignored oneFileSystem).onEntry s.out ⟨UInt32.ofNat i, c, a⟩ =
        (b.out ++ [(i, p ++ [c])]).map view.entryOf := by
      rw [List.map_append, ← hs.out, List.map_singleton, hentry]
      rfl
    have hlen : s.nextIndex + 1 =
        UInt32.ofNat ((b.out ++ [(i, p ++ [c])]).length + 1) := by
      rw [hs.nextIndex, hnext, List.length_append, List.length_singleton]
    cases hk : a.kind with
    | other => exact absurd hk hother
    | file =>
      refine ⟨hout, ?_, hlen⟩
      rw [Breadth.visit, henters, hk]
      simpa using hs.queue
    | symlink =>
      refine ⟨hout, ?_, hlen⟩
      rw [Breadth.visit, henters, hk]
      simpa using hs.queue
    | directory =>
      dsimp only
      rw [descends_scan]
      cases hf : view.foreign oneFileSystem (p ++ [c]) with
      | true =>
        refine ⟨hout, ?_, hlen⟩
        rw [Breadth.visit, henters, hk, hf]
        simpa using hs.queue
      | false =>
        refine ⟨hout, ?_, hlen⟩
        rw [Breadth.visit, henters, hk, hf]
        simp [hs.queue, hs.nextIndex]

theorem InStep.entries (ignored : Bytes → Bool → Bool) (oneFileSystem : Bool)
    {names : List Bytes} (hp : ∀ c ∈ p, c ≠ []) (i : ℕ)
    (hnames : ∀ c ∈ names, view.attributes (joined (p ++ [c])) ≠ none)
    {s : Scanner.State (List SnapshotEntry)} {b : Breadth.State (List Bytes)}
    (hs : view.InStep s b) :
    view.InStep
      (names.foldl ((view.scan ignored oneFileSystem).entry ⟨joined p, joined p, UInt32.ofNat i⟩) s)
      (((names.filter (view.shows ignored p)).map fun c => p ++ [c]).foldl
        ((view.plan ignored oneFileSystem).visit i) b) := by
  induction names generalizing s b with
  | nil => exact hs
  | cons c names ih =>
    have hstep := hs.entry ignored oneFileSystem hp i
      (hnames c List.mem_cons_self)
    have hrest := ih (fun d hd => hnames d (List.mem_cons_of_mem _ hd)) hstep
    rw [List.foldl_cons, List.filter_cons]
    cases hc : view.shows ignored p c with
    | true =>
      rw [hc, if_pos rfl] at hrest
      rw [if_pos rfl, List.map_cons, List.foldl_cons]
      exact hrest
    | false =>
      rw [hc, if_neg (by decide)] at hrest
      rw [if_neg (by decide)]
      exact hrest

theorem IsLinuxTree.inStep_loop (h : view.IsLinuxTree) (fuel : ℕ)
    {s : Scanner.State (List SnapshotEntry)} {b : Breadth.State (List Bytes)}
    (hs : view.InStep s b) (hb : (view.plan ignored oneFileSystem).Sound b) :
    view.InStep ((view.scan ignored oneFileSystem).loop fuel s)
      ((view.plan ignored oneFileSystem).loop fuel b) := by
  induction fuel generalizing s b with
  | zero => exact hs
  | succ fuel ih =>
    rw [Scanner.Walk.loop.eq_def, Breadth.loop.eq_def]
    dsimp only
    have hqueue := hs.queue
    cases hq : b.queue with
    | nil =>
      rw [hq, List.map_nil] at hqueue
      rw [hqueue]
      exact hs
    | cons e queue =>
      obtain ⟨q, i⟩ := e
      rw [hq, List.map_cons] at hqueue
      rw [hqueue]
      dsimp only
      obtain ⟨hi, hent, -⟩ := hb.queue q i (by rw [hq]; exact List.mem_cons_self)
      have hhas := h.has_of_reached (hb.reached (List.mem_of_getElem? hi))
      obtain ⟨l, hl, -, hall⟩ := h.listed q hhas ((enters_iff.1 hent).imp_right And.left)
      refine ih ?_ (hb.round (h.isTree _ _) hq)
      have hpop : view.InStep
          { s with queue := queue.map fun e => ⟨joined e.1, joined e.1, UInt32.ofNat e.2⟩ }
          { b with queue } := ⟨hs.out, rfl, hs.nextIndex⟩
      have hround := hpop.entries ignored oneFileSystem
        (fun c hc => (h.linuxName hhas c hc).ne_nil) i (fun c hc => (hall c hc).2)
      rw [Scanner.Walk.round, show (view.scan ignored oneFileSystem).view = view from rfl, hl]
      have hkids : (view.plan ignored oneFileSystem).kids q =
          (l.filter (view.shows ignored q)).map fun c => q ++ [c] := by
        dsimp only [plan]
        rw [hl]
        rfl
      rw [Breadth.round, hkids]
      exact hround

/-- **A scan of the whole tree** numbers it breadth first. -/
theorem IsLinuxTree.scanTree_eq (h : view.IsLinuxTree) (ignored : Bytes → Bool → Bool)
    (oneFileSystem : Bool) (rounds : ℕ) :
    ∃ stats, scanTree rounds view [] (fun es e => es ++ [e]) (fun _ => ignored) oneFileSystem [] =
      (.ok stats, ((view.plan ignored oneFileSystem).loop rounds
        (view.plan ignored oneFileSystem).start).out.map view.entryOf) := by
  have hstart : view.InStep { out := [], queue := [⟨[], [], 0⟩] }
      (view.plan ignored oneFileSystem).start := ⟨rfl, rfl, rfl⟩
  have hend := h.inStep_loop rounds hstart (Breadth.Sound.start (h.isTree _ _))
  rw [scanTree, if_neg (by rw [h.root]; decide), ← hend.out]
  exact ⟨_, rfl⟩

/-- As long as the numbers fit into an index, the entries spell the paths that are reported. -/
theorem IsLinuxTree.spelled (h : view.IsLinuxTree) {b : Breadth.State (List Bytes)}
    (hb : (view.plan ignored oneFileSystem).Sound b) (hfew : b.out.length < 2 ^ 32) :
    Spelled (fun p => view.attributes (joined p)) (b.out.map view.entryOf)
      (b.out.map Prod.snd) where
  length := by simp
  nodup := hb.nodup
  entry k e he := by
    rw [List.getElem?_map] at he
    obtain ⟨⟨i, q⟩, hk, rfl⟩ := Option.map_eq_some_iff.1 he
    obtain ⟨hle, x, hx, hent, hq⟩ := hb.parent k i q hk
    obtain ⟨c, l, hl, hc, hs, rfl⟩ := mem_kids_iff.1 hq
    have hklt := (List.getElem?_eq_some_iff.1 hk).1
    have hi : (view.entryOf (i, x ++ [c])).parent.toNat = i := by
      rw [entryOf, UInt32.toNat_ofNat']
      exact Nat.mod_eq_of_lt (by omega)
    have hname : (view.entryOf (i, x ++ [c])).name = c := by simp [entryOf]
    have hhas := h.has_of_reached (hb.reached (List.mem_of_getElem? hx))
    have hdir : x = [] ∨ view.isDir x = true := (enters_iff.1 hent).imp_right And.left
    obtain ⟨l', hl', -, hall⟩ := h.listed x hhas hdir
    rw [hl] at hl'
    cases hl'
    obtain ⟨a, ha⟩ := Option.ne_none_iff_exists'.1 (hall c hc).2
    rw [hi, hname]
    refine ⟨hle, x, hx, by rw [List.getElem?_map, hk]; rfl, ?_, hdir.imp_right isDir_iff.1⟩
    simp [entryOf, ha]

theorem IsLinuxTree.scanTree_walk (h : view.IsLinuxTree) (ignored : Bytes → Bool → Bool)
    (oneFileSystem : Bool) {all : List (List Bytes)} (hall : ∀ p, view.Has p → p ∈ all)
    {rounds : ℕ} (hrounds : all.length ≤ rounds) :
    ∃ stats b,
      scanTree rounds view [] (fun es e => es ++ [e]) (fun _ => ignored) oneFileSystem [] =
        (.ok stats, b.out.map view.entryOf) ∧
      (view.plan ignored oneFileSystem).Sound b ∧
      ∀ p, p ∈ b.out.map Prod.snd ↔ view.Reported ignored oneFileSystem p := by
  obtain ⟨hb, hmem, -⟩ := Breadth.loop_spec (h.isTree ignored oneFileSystem)
    (fun p hp => hall p (h.has_of_reached hp)) hrounds
  obtain ⟨stats, hscan⟩ := h.scanTree_eq ignored oneFileSystem rounds
  refine ⟨stats, _, hscan, hb, fun p => ?_⟩
  -- The paths behind the root are those to be reported.
  have hp := (hmem p).trans h.reached_iff
  rw [Breadth.nodes, List.mem_cons] at hp
  constructor
  · intro hin
    refine (hp.1 (.inr hin)).resolve_left fun hnil => (List.nodup_cons.1 hb.nodup).1 ?_
    rw [hnil] at hin
    exact hin
  · intro hrep
    exact (hp.2 (.inr hrep)).resolve_left hrep.ne_root

/-- **A scan with enough rounds** hands out the entries to be reported, each once. -/
theorem IsLinuxTree.scanTree_reports (h : view.IsLinuxTree) (ignored : Bytes → Bool → Bool)
    (oneFileSystem : Bool) {all : List (List Bytes)} (hall : ∀ p, view.Has p → p ∈ all)
    {rounds : ℕ} (hrounds : all.length ≤ rounds) :
    ∃ stats es qs,
      scanTree rounds view [] (fun es e => es ++ [e]) (fun _ => ignored) oneFileSystem [] =
        (.ok stats, es) ∧
      qs.Nodup ∧ (∀ p, p ∈ qs ↔ view.Reported ignored oneFileSystem p) ∧ qs.length = es.length ∧
      (es.length < 2 ^ 32 → Spelled (fun p => view.attributes (joined p)) es qs) := by
  obtain ⟨stats, b, hscan, hb, hmem⟩ := h.scanTree_walk ignored oneFileSystem hall hrounds
  refine ⟨stats, _, _, hscan, (List.nodup_cons.1 hb.nodup).2, hmem, by simp,
    fun hfew => h.spelled hb ?_⟩
  rwa [List.length_map] at hfew

end DiskView

open DiskView in
/-- **Scan and load are faithful.**  If the scan of a readable Linux tree hands out fewer than
`2 ^ 32` entries, loading them succeeds.  The mirror has at each path what the disk has there if
it is reported and no name on the way has a backslash, and nothing else; the others are counted. -/
theorem scan_load_faithful {view : DiskView} (h : view.IsLinuxTree)
    (ignored : Bytes → Bool → Bool) (oneFileSystem : Bool)
    (hfew : {p | view.Reported ignored oneFileSystem p}.ncard < 2 ^ 32) (t : MetadataTree) :
    ∃ n, ∀ rounds, n ≤ rounds → ∃ stats es,
      scanTree rounds view [] (fun es e => es ++ [e]) (fun _ => ignored) oneFileSystem [] =
        (.ok stats, es) ∧
      es.length = {p | view.Reported ignored oneFileSystem p}.ncard ∧
      (t.loadSnapshot es).1 = .ok () ∧
      (∀ p, p ≠ [] → ∀ a, (t.loadSnapshot es).2.paths p = some a ↔
        view.Reported ignored oneFileSystem p ∧ (∀ c ∈ p, 0x5C ∉ c) ∧
          view.attributes (joined p) = some a) ∧
      (t.loadSnapshot es).2.dropped =
        {p | view.Reported ignored oneFileSystem p ∧ ∃ c ∈ p, 0x5C ∈ c}.ncard := by
  obtain ⟨all, hall⟩ := h.finite
  refine ⟨all.length, fun rounds hrounds => ?_⟩
  obtain ⟨stats, es, qs, hscan, hnodup, hqs, hlen, hspelled⟩ :=
    h.scanTree_reports ignored oneFileSystem hall hrounds
  have hset : {p | view.Reported ignored oneFileSystem p} = ↑qs.toFinset := by
    ext p
    simp [← hqs p]
  have hcard : {p | view.Reported ignored oneFileSystem p}.ncard = es.length := by
    rw [hset, Set.ncard_coe_finset, List.toFinset_card_of_nodup hnodup, hlen]
  have hrepr : ∀ p, view.Reported ignored oneFileSystem p →
      (representable p = true ↔ ∀ c ∈ p, 0x5C ∉ c) := fun p hp => by
    rw [representable, List.all_eq_true]
    exact forall₂_congr fun c hc => (h.linuxName hp.has c hc).validName_iff
  obtain ⟨hok, hpaths, hdropped⟩ :=
    (hspelled (by rw [← hcard]; exact hfew)).loadSnapshot_spec t
  refine ⟨stats, es, hscan, hcard.symm, hok, fun p hp a => ?_, ?_⟩
  · rw [hpaths, PathMap.kept, if_neg hp]
    constructor
    · intro heq
      split_ifs at heq with hcond
      have hrep := (hqs p).1 hcond.1
      exact ⟨hrep, (hrepr p hrep).1 hcond.2, heq⟩
    · rintro ⟨hrep, hnames, ha⟩
      rw [if_pos ⟨(hqs p).2 hrep, (hrepr p hrep).2 hnames⟩, ha]
  · have hlost : {p | view.Reported ignored oneFileSystem p ∧ ∃ c ∈ p, 0x5C ∈ c} =
        ↑(qs.filter fun q => !representable q).toFinset := by
      ext p
      simp only [Set.mem_ofPred_eq, List.coe_toFinset, List.mem_filter, hqs p]
      refine and_congr_right fun hrep => ?_
      rw [Bool.not_eq_true', Bool.eq_false_iff, ne_eq, hrepr p hrep]
      simp
    rw [hdropped, hlost, Set.ncard_coe_finset,
      List.toFinset_card_of_nodup (hnodup.filter _)]

/-! ### A root full of files -/

/-- A disk whose root lists files and behind them a directory `d`, which holds a file `x`. -/
def crowd (files : List Bytes) : DiskView where
  attributes path :=
    if path = [] ∨ path = bytes "d" then some kImplicitDirectory
    else if files.contains path || path == bytes "d/x" then some {} else none
  isDirectory path := path == [] || path == bytes "d"
  names path :=
    if path = [] then some (files ++ [bytes "d"])
    else if path = bytes "d" then some [bytes "x"] else none
  deviceId _ := some 0

section

variable {files : List Bytes} {p : List Bytes} {c : Bytes}

theorem isDir_crowd : (crowd files).isDir p = true ↔ joined p = [] ∨ joined p = bytes "d" := by
  rw [DiskView.isDir, crowd]
  dsimp only
  split_ifs with h h'
  · exact iff_of_true rfl h
  · exact iff_of_false (by decide) h
  · exact iff_of_false (by decide) h

theorem joined_singleton (c : Bytes) : joined [c] = c := by simp [joined]

theorem isDir_crowd_singleton (hnil : [] ∉ files) (hc : c ∈ files ++ [bytes "d"]) :
    (crowd files).isDir [c] = true ↔ c = bytes "d" := by
  have hne : c ≠ [] := by
    rintro rfl
    rcases List.mem_append.1 hc with hc | hc
    · exact hnil hc
    · exact absurd (List.mem_singleton.1 hc) (by decide)
  rw [isDir_crowd, joined_singleton, or_iff_right hne]

theorem isDir_crowd_file : (crowd files).isDir [bytes "d", bytes "x"] = false :=
  Bool.eq_false_iff.2 fun h => absurd (isDir_crowd.1 h) (by decide)

theorem attributes_crowd_file (hnil : [] ∉ files) (hd : bytes "d" ∉ files) (hc : c ∈ files) :
    (crowd files).attributes (joined [c]) = some {} := by
  rw [joined_singleton, crowd]
  dsimp only
  rw [if_neg (by rintro (rfl | rfl); exacts [hnil hc, hd hc]), if_pos (by simp [hc])]

theorem attributes_crowd_dir :
    (crowd files).attributes (joined [bytes "d"]) = some kImplicitDirectory := rfl

theorem attributes_crowd_dir_file :
    (crowd files).attributes (joined [bytes "d", bytes "x"]) = some {} := by
  have hpath : joined [bytes "d", bytes "x"] = bytes "d/x" := rfl
  rw [hpath, crowd]
  dsimp only
  rw [if_neg (by decide), if_pos (by simp)]

theorem names_crowd_root : (crowd files).names (joined []) = some (files ++ [bytes "d"]) := rfl

theorem names_crowd_dir : (crowd files).names (joined [bytes "d"]) = some [bytes "x"] := rfl

theorem has_crowd (hnil : [] ∉ files) (h : (crowd files).Has p) :
    p = [] ∨ (∃ c ∈ files ++ [bytes "d"], p = [c]) ∨ p = [bytes "d", bytes "x"] := by
  induction h with
  | root => exact .inl rfl
  | @entry p c l _ hdir hl hc ih =>
    rcases ih with rfl | ⟨d, hd, rfl⟩ | rfl
    · rw [names_crowd_root] at hl
      cases hl
      exact .inr (.inl ⟨c, hc, rfl⟩)
    · obtain rfl := (isDir_crowd_singleton hnil hd).1 (hdir.resolve_left (by simp))
      rw [names_crowd_dir] at hl
      cases hl
      rw [List.mem_singleton.1 hc]
      exact .inr (.inr rfl)
    · exact absurd (hdir.resolve_left (by simp)) (by rw [isDir_crowd_file]; decide)

theorem isLinuxTree_crowd (hnodup : files.Nodup) (hnames : ∀ c ∈ files, LinuxName c)
    (hd : bytes "d" ∉ files) : (crowd files).IsLinuxTree := by
  have hnil : [] ∉ files := fun h => (hnames [] h).ne_nil rfl
  refine ⟨rfl, fun p hp hdir => ?_,
    [] :: [bytes "d", bytes "x"] :: (files ++ [bytes "d"]).map fun c => [c], fun p hp => ?_⟩
  · rcases has_crowd hnil hp with rfl | ⟨c, hc, rfl⟩ | rfl
    · refine ⟨_, names_crowd_root, ?_, fun c hc => ?_⟩
      · refine List.nodup_append.2 ⟨hnodup, List.nodup_singleton _, ?_⟩
        rintro a ha b hb rfl
        rw [List.mem_singleton.1 hb] at ha
        exact hd ha
      · rcases List.mem_append.1 hc with hc | hc
        · exact ⟨hnames c hc, by rw [List.nil_append, attributes_crowd_file hnil hd hc]; simp⟩
        · rw [List.mem_singleton.1 hc]
          exact ⟨by constructor <;> decide, by rw [List.nil_append, attributes_crowd_dir]; simp⟩
    · obtain rfl := (isDir_crowd_singleton hnil hc).1 (hdir.resolve_left (by simp))
      refine ⟨_, names_crowd_dir, List.nodup_singleton _, fun c hc => ?_⟩
      rw [List.mem_singleton.1 hc]
      refine ⟨by constructor <;> decide, ?_⟩
      rw [List.singleton_append, attributes_crowd_dir_file]
      simp
    · exact absurd (hdir.resolve_left (by simp)) (by rw [isDir_crowd_file]; decide)
  · rcases has_crowd hnil hp with rfl | ⟨c, hc, rfl⟩ | rfl
    · exact List.mem_cons_self
    · exact List.mem_cons_of_mem _ (List.mem_cons_of_mem _ (List.mem_map.2 ⟨c, hc, rfl⟩))
    · exact List.mem_cons_of_mem _ List.mem_cons_self

/-- Nothing is ignored. -/
def ignoreNothing : Bytes → Bool → Bool := fun _ _ => false

theorem kids_crowd_root (hnil : [] ∉ files) (hd : bytes "d" ∉ files) (oneFileSystem : Bool) :
    ((crowd files).plan ignoreNothing oneFileSystem).kids [] =
      (files ++ [bytes "d"]).map fun c => [c] := by
  dsimp only [DiskView.plan]
  rw [names_crowd_root, Option.getD_some, List.filter_eq_self.2]
  · rfl
  · intro c hc
    rw [DiskView.shows, List.nil_append]
    rcases List.mem_append.1 hc with hc | hc
    · rw [attributes_crowd_file hnil hd hc]
      rfl
    · rw [List.mem_singleton.1 hc]
      rfl

theorem kids_crowd_dir (oneFileSystem : Bool) :
    ((crowd files).plan ignoreNothing oneFileSystem).kids [bytes "d"] =
      [[bytes "d", bytes "x"]] := by
  dsimp only [DiskView.plan]
  rw [names_crowd_dir, Option.getD_some, List.filter_eq_self.2]
  · rfl
  · intro c hc
    rw [List.mem_singleton.1 hc, DiskView.shows, List.singleton_append, attributes_crowd_dir_file]
    rfl

theorem enters_crowd (oneFileSystem : Bool) (hp : p ≠ []) :
    ((crowd files).plan ignoreNothing oneFileSystem).enters p = (crowd files).isDir p := by
  have hforeign : (crowd files).foreign oneFileSystem p = false := by
    cases oneFileSystem <;> rfl
  rw [Bool.eq_iff_iff, DiskView.enters_iff, hforeign]
  simp [hp]

/-- Of the root only `d` is entered, and it has the number behind that of the last file. -/
theorem loop_crowd (hnil : [] ∉ files) (hd : bytes "d" ∉ files) (oneFileSystem : Bool) (fuel : ℕ) :
    ((crowd files).plan ignoreNothing oneFileSystem).loop (fuel + 2)
      ((crowd files).plan ignoreNothing oneFileSystem).start =
    ⟨((files ++ [bytes "d"]).map fun c => (0, [c])) ++
      [(files.length + 1, [bytes "d", bytes "x"])], []⟩ := by
  set T := (crowd files).plan ignoreNothing oneFileSystem with hT
  have hfiles : ((files.map fun c => [c]).zipIdx 1).filter (fun e => T.enters e.1) = [] := by
    rw [List.filter_eq_nil_iff]
    rintro ⟨q, i⟩ hq hent
    obtain ⟨-, hmem⟩ := List.mk_mem_zipIdx_iff_le_and_getElem?_sub.1 hq
    obtain ⟨c, hc, rfl⟩ := List.mem_map.1 (List.mem_of_getElem? hmem)
    rw [enters_crowd oneFileSystem (by simp),
      isDir_crowd_singleton hnil (List.mem_append_left _ hc)] at hent
    exact hd (hent ▸ hc)
  have hdir : T.enters [bytes "d"] = true := enters_crowd oneFileSystem (by simp)
  have hfile : T.enters [bytes "d", bytes "x"] = false :=
    (enters_crowd oneFileSystem (by simp)).trans isDir_crowd_file
  have hround : T.round [] 0 ⟨[], []⟩ =
      ⟨(files ++ [bytes "d"]).map fun c => (0, [c]), [([bytes "d"], files.length + 1)]⟩ := by
    rw [Breadth.round_eq, kids_crowd_root hnil hd]
    simp only [List.map_append, List.zipIdx_append, List.filter_append, List.nil_append,
      List.length_nil, Nat.zero_add, hfiles]
    simp [hdir, Nat.add_comm]
  have hround' : T.round [bytes "d"] (files.length + 1)
      ⟨(files ++ [bytes "d"]).map fun c => (0, [c]), []⟩ =
      ⟨((files ++ [bytes "d"]).map fun c => (0, [c])) ++
        [(files.length + 1, [bytes "d", bytes "x"])], []⟩ := by
    rw [Breadth.round_eq, kids_crowd_dir]
    simp [hfile]
  rw [Breadth.loop.eq_def]
  dsimp only [Breadth.start]
  rw [show T.root = [] from rfl, hround, Breadth.loop.eq_def]
  dsimp only
  rw [hround']
  cases fuel <;> rfl

/-- Entries below the root that cannot be represented leave nothing but their marks. -/
theorem load_odd {M : PathMap} {ps : List (Option (List Bytes))} (hps : ps[0]? = some (some []))
    (hodd : ∀ c ∈ files, validName c = false) (es : List SnapshotEntry) :
    PathMap.load M ps ((files.map fun c => ⟨0, c, {}⟩) ++ es) =
      PathMap.load M (ps ++ files.map fun _ => none) es := by
  induction files generalizing ps with
  | nil => simp
  | cons c files ih =>
    rw [List.map_cons, List.cons_append, PathMap.load_dropped hps (hodd c List.mem_cons_self),
      ih (by rw [List.getElem?_append_left (List.getElem?_eq_some_iff.1 hps).1, hps])
        fun d hd => hodd d (List.mem_cons_of_mem _ hd)]
    simp

/-- If the number of `d` is `2 ^ 32`, the entry of `x` names the root as its parent. -/
theorem scan_load_crowd (hodd : ∀ c ∈ files, validName c = false)
    (hlen : files.length + 1 = 2 ^ 32) (fuel : ℕ) (h : (crowd files).IsLinuxTree) :
    ∃ stats es, scanTree (fuel + 2) (crowd files) [] (fun es e => es ++ [e])
        (fun _ => ignoreNothing) false [] = (.ok stats, es) ∧
      (fresh.loadSnapshot es).2.paths [bytes "x"] = some {} := by
  have hd : bytes "d" ∉ files := fun hmem => absurd (hodd _ hmem) (by decide)
  have hnil : [] ∉ files := by
    obtain ⟨l, hl, -, hnames⟩ := h.listed [] .root (.inl rfl)
    cases names_crowd_root.symm.trans hl
    exact fun hmem => (hnames [] (List.mem_append_left _ hmem)).1.ne_nil rfl
  obtain ⟨stats, hscan⟩ := h.scanTree_eq ignoreNothing false (fuel + 2)
  refine ⟨stats, _, hscan, ?_⟩
  have hwrap : UInt32.ofNat (2 ^ 32) = 0 := by decide
  have hes : ((((files ++ [bytes "d"]).map fun c => (0, [c])) ++
      [(files.length + 1, [bytes "d", bytes "x"])]).map (crowd files).entryOf) =
      (files.map fun c => ⟨0, c, {}⟩) ++
        [⟨0, bytes "d", kImplicitDirectory⟩, ⟨0, bytes "x", {}⟩] := by
    have hfile : ∀ c ∈ files, (crowd files).entryOf (0, [c]) = ⟨0, c, {}⟩ := by
      intro c hc
      rw [DiskView.entryOf, attributes_crowd_file hnil hd hc]
      rfl
    rw [List.map_append, List.map_map, List.map_append, hlen, List.append_assoc]
    have hrest : ([bytes "d"].map ((crowd files).entryOf ∘ fun c => (0, [c]))) ++
        [(2 ^ 32, [bytes "d", bytes "x"])].map (crowd files).entryOf =
        [⟨0, bytes "d", kImplicitDirectory⟩, ⟨0, bytes "x", {}⟩] := by
      simp only [List.map_cons, List.map_nil, Function.comp_apply, DiskView.entryOf, hwrap,
        attributes_crowd_dir, attributes_crowd_dir_file]
      rfl
    rw [hrest]
    exact congrArg (· ++ _) (List.map_congr_left hfile)
  rw [loop_crowd hnil hd, hes, loadSnapshot_paths, load_odd rfl hodd]
  -- Both the directory and the file behind it go to the root.
  simp only [PathMap.load, List.cons_append, List.getElem?_cons_zero, UInt32.toNat_zero]
  rfl

/-- A name with a backslash, for each number. -/
def oddName (n : ℕ) : Bytes := 0x5C :: (Nat.digits 16 n).map fun d => UInt8.ofNat (0x41 + d)

theorem digit_lt {n d : ℕ} (hd : d ∈ Nat.digits 16 n) : d < 16 := Nat.digits_lt_base (by decide) hd

theorem toNat_oddName {n : ℕ} {b : UInt8} (hb : b ∈ oddName n) : 0x41 ≤ b.toNat := by
  rcases List.mem_cons.1 hb with rfl | hb
  · decide
  · obtain ⟨d, hd, rfl⟩ := List.mem_map.1 hb
    have := digit_lt hd
    rw [UInt8.toNat_ofNat']
    omega

theorem linuxName_oddName (n : ℕ) : LinuxName (oddName n) where
  ne_nil := by simp [oddName]
  ne_dot h := by simp [oddName, dot] at h
  ne_dotdot h := by simp [oddName, dotdot] at h
  no_slash h := absurd (toNat_oddName h) (by decide)
  no_nul h := absurd (toNat_oddName h) (by decide)

theorem oddName_inj {m n : ℕ} (h : oddName m = oddName n) : m = n := by
  have hdigits : ∀ k, ((oddName k).tail.map fun b => b.toNat - 0x41) = Nat.digits 16 k := by
    intro k
    rw [oddName, List.tail_cons, List.map_map]
    conv_rhs => rw [← List.map_id (Nat.digits 16 k)]
    refine List.map_congr_left fun d hd => ?_
    have := digit_lt hd
    rw [Function.comp_apply, UInt8.toNat_ofNat', id]
    omega
  rw [← Nat.digits_inj_iff (b := 16), ← hdigits m, ← hdigits n, h]

/-- A root with as many odd names as an index can count, but one. -/
def oddNames : List Bytes := (List.range (2 ^ 32 - 1)).map oddName

theorem nil_notMem_oddNames : [] ∉ oddNames := by
  intro h
  obtain ⟨n, -, hn⟩ := List.mem_map.1 h
  exact absurd hn (List.cons_ne_nil _ _)

theorem isLinuxTree_oddNames : (crowd oddNames).IsLinuxTree := by
  refine isLinuxTree_crowd (List.nodup_range.map fun m n => oddName_inj) (fun c hc => ?_) ?_
  · obtain ⟨n, -, rfl⟩ := List.mem_map.1 hc
    exact linuxName_oddName n
  · intro hmem
    obtain ⟨n, -, hn⟩ := List.mem_map.1 hmem
    exact absurd (congrArg List.head? hn) (by simp [oddName, bytes])

/-- **With `2 ^ 32` entries and more the numbers wrap around**: the file `x` of the directory `d`
is loaded into the root, where the disk has no such file. -/
theorem scan_load_wraps : (crowd oddNames).IsLinuxTree ∧ ¬ (crowd oddNames).Has [bytes "x"] ∧
    ∀ rounds, 2 ≤ rounds → ∃ stats es,
      scanTree rounds (crowd oddNames) [] (fun es e => es ++ [e]) (fun _ => ignoreNothing)
        false [] = (.ok stats, es) ∧
      (fresh.loadSnapshot es).2.paths [bytes "x"] = some {} := by
  have hodd : ∀ c ∈ oddNames, validName c = false := by
    intro c hc
    obtain ⟨n, -, rfl⟩ := List.mem_map.1 hc
    refine Bool.eq_false_iff.2 fun hv => ?_
    exact (linuxName_oddName n).validName_iff.1 hv List.mem_cons_self
  refine ⟨isLinuxTree_oddNames, fun hx => ?_, fun rounds hrounds => ?_⟩
  · rcases has_crowd nil_notMem_oddNames hx with h | ⟨c, hc, h⟩ | h
    · cases h
    · have hc' : c = bytes "x" := by simpa using h.symm
      rcases List.mem_append.1 hc with hc | hc
      · exact absurd (hodd c hc) (by rw [hc']; decide)
      · rw [List.mem_singleton.1 hc] at hc'
        exact absurd hc' (by decide)
    · exact absurd h (by decide)
  · obtain ⟨fuel, rfl⟩ := Nat.exists_eq_add_of_le' hrounds
    refine scan_load_crowd hodd ?_ fuel isLinuxTree_oddNames
    rw [oddNames, List.length_map, List.length_range]
    exact Nat.sub_add_cancel Nat.one_le_two_pow

end

/-- A root with one odd name and a directory. -/
theorem scan_load_faithful_odd :
    (crowd [bytes "a\\b"]).IsLinuxTree ∧
    {p | (crowd [bytes "a\\b"]).Reported ignoreNothing true p}.ncard < 2 ^ 32 ∧
    ∃ n, ∀ rounds, n ≤ rounds → ∃ stats es,
      scanTree rounds (crowd [bytes "a\\b"]) [] (fun es e => es ++ [e]) (fun _ => ignoreNothing)
        true [] = (.ok stats, es) ∧
      es.length = {p | (crowd [bytes "a\\b"]).Reported ignoreNothing true p}.ncard ∧
      (fresh.loadSnapshot es).1 = .ok () ∧
      (∀ p, p ≠ [] → ∀ a, (fresh.loadSnapshot es).2.paths p = some a ↔
        (crowd [bytes "a\\b"]).Reported ignoreNothing true p ∧ (∀ c ∈ p, 0x5C ∉ c) ∧
          (crowd [bytes "a\\b"]).attributes (joined p) = some a) ∧
      (fresh.loadSnapshot es).2.dropped =
        {p | (crowd [bytes "a\\b"]).Reported ignoreNothing true p ∧
          ∃ c ∈ p, 0x5C ∈ c}.ncard := by
  have htree : (crowd [bytes "a\\b"]).IsLinuxTree :=
    isLinuxTree_crowd (List.nodup_singleton _) (fun c hc => by
      rw [List.mem_singleton.1 hc]
      constructor <;> decide) (by decide)
  have hfew : {p | (crowd [bytes "a\\b"]).Reported ignoreNothing true p}.ncard < 2 ^ 32 := by
    obtain ⟨all, hall⟩ : ∃ all : Finset (List Bytes), all.card ≤ 4 ∧ ∀ p,
        (crowd [bytes "a\\b"]).Has p → p ∈ all :=
      ⟨{[], [bytes "a\\b"], [bytes "d"], [bytes "d", bytes "x"]}, by decide, fun p hp => by
        rcases has_crowd (by decide) hp with rfl | ⟨c, hc, rfl⟩ | rfl
        · simp
        · rcases List.mem_append.1 hc with hc | hc <;> rw [List.mem_singleton.1 hc] <;> simp
        · simp⟩
    have hsub : {p | (crowd [bytes "a\\b"]).Reported ignoreNothing true p} ⊆ ↑all :=
      fun p hp => hall.2 p hp.has
    have hle := Set.ncard_le_ncard hsub (Finset.finite_toSet all)
    rw [Set.ncard_coe_finset] at hle
    have := hall.1
    omega
  exact ⟨htree, hfew, scan_load_faithful htree ignoreNothing true hfew fresh⟩

/-! ### The way back -/

open Resolve FsPath in
theorem isSafe_iff {c : Bytes} (hc : validName c = true) : IsSafe c ↔ 0x3A ∉ c := by
  refine ⟨IsSafe.no_colon, fun h => ⟨isPart_of_validName hc, ?_, h⟩⟩
  rintro rfl
  exact absurd hc (by decide)

/-- The mirror that is loaded from a scan. -/
def mirrorOf (rounds : ℕ) (view : DiskView) (ignored : Bytes → Bool → Bool)
    (oneFileSystem : Bool) : MetadataTree :=
  (fresh.loadSnapshot (scanTree rounds view [] (fun es e => es ++ [e]) (fun _ => ignored)
    oneFileSystem []).2).2

open Resolve FsPath in
/-- **What is listed can be addressed, as far as it goes.**  The agent lets the path of a node of
the mirror through, and joins the root with its components, exactly if it is the path of the root
itself or no component has a colon and the served root does not normalise to `.`. -/
theorem listed_addressable_iff (root : Root) (rounds : ℕ) (view : DiskView)
    (ignored : Bytes → Bool → Bool) (oneFileSystem : Bool) (n : NodeId)
    (hn : (mirrorOf rounds view ignored oneFileSystem).valid n = true) :
    let u := mirrorOf rounds view ignored oneFileSystem
    (∃ full, resolve root (u.pathOf n slash) = .ok full ∧
      isAbsolute full = isAbsolute root.path ∧ names full = names root.path ++ u.location n) ↔
      u.location n = [] ∨ ¬ IsCurrentDir root.path ∧ ∀ c ∈ u.location n, 0x3A ∉ c := by
  intro u
  have h : u.WF := (wf_fresh.kept_loadLoop _ _).wf
  have hlive : u.isLive n := (Bool.and_eq_true _ _ ▸ hn).2
  have hvalid := h.validNames_location hlive
  have hparts : parts (u.pathOf n slash) = u.location n := by
    rw [h.pathOf_eq hlive, parts_join hvalid]
  have hsafe : (∀ c ∈ u.location n, IsSafe c) ↔ ∀ c ∈ u.location n, 0x3A ∉ c :=
    forall₂_congr fun c hc => isSafe_iff (hvalid c hc)
  constructor
  · rintro ⟨full, hok, -⟩
    obtain ⟨hs, hroot, -⟩ := (resolve_eq_ok_iff root _ full).1 hok
    rw [hparts] at hs hroot
    exact hroot.symm.imp_right fun hcur => ⟨hcur, hsafe.1 hs⟩
  · intro hcond
    have hrel := isAbsolute_normalizePath (u.pathOf n slash)
    refine ⟨_, (resolve_eq_ok_iff root _ _).2 ⟨?_, ?_, rfl⟩, isAbsolute_append hrel, ?_⟩
    · rw [hparts]
      rcases hcond with hnil | ⟨-, hcolon⟩
      · rw [hnil]
        exact List.forall_mem_nil _
      · exact hsafe.2 hcolon
    · rw [hparts]
      exact hcond.symm.imp_left And.left
    · rw [names_append hrel, names_normalizePath, hparts]

open Resolve FsPath in
/-- The directory `d` below the root `/srv`. -/
theorem listed_addressable_dir :
    let u := mirrorOf 2 (crowd []) ignoreNothing true
    u.valid 1 = true ∧
    ((∃ full, resolve ⟨bytes "/srv", by decide⟩ (u.pathOf 1 slash) = .ok full ∧
      isAbsolute full = isAbsolute (bytes "/srv") ∧
      names full = names (bytes "/srv") ++ u.location 1) ↔
      u.location 1 = [] ∨ ¬ IsCurrentDir (bytes "/srv") ∧ ∀ c ∈ u.location 1, 0x3A ∉ c) :=
  ⟨by decide +kernel, listed_addressable_iff ⟨bytes "/srv", by decide⟩ 2 (crowd []) ignoreNothing
    true 1 (by decide +kernel)⟩

open Resolve in
/-- A file `a:b` is listed and refused; below the root `.` everything is. -/
theorem listed_refused :
    (crowd [bytes "a:b"]).IsLinuxTree ∧
    (let u := mirrorOf 2 (crowd [bytes "a:b"]) ignoreNothing true
     u.valid 1 = true ∧ u.pathOf 1 slash = bytes "a:b" ∧
       resolve ⟨bytes "/srv", by decide⟩ (u.pathOf 1 slash) = .error .invalidPath) ∧
    (let u := mirrorOf 2 (crowd []) ignoreNothing true
     u.valid 1 = true ∧ u.pathOf 1 slash = bytes "d" ∧
       resolve ⟨bytes ".", by decide⟩ (u.pathOf 1 slash) = .error .invalidPath) := by
  refine ⟨isLinuxTree_crowd (List.nodup_singleton _) (fun c hc => ?_) (by decide),
    ⟨by decide +kernel, by decide +kernel, by decide +kernel⟩,
    by decide +kernel, by decide +kernel, by decide +kernel⟩
  rw [List.mem_singleton.1 hc]
  constructor <;> decide

end WslDrive
