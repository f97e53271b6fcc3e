import WslDrive.Core.Path

/-!
# Scanning a directory tree

`scan_tree` walks a tree breadth first and hands every entry to a callback, with the index of its
parent.  The callback and the predicate that skips entries share a state `σ`.  What the walk asks of
the filesystem is a `DiskView`; its paths are relative to the served root.
-/

namespace WslDrive

open Path

/-- What the filesystem answers at one moment. -/
structure DiskView where
  /-- `read_attributes`: links are not followed; none if there is no such entry. -/
  attributes : Bytes → Option Attributes
  /-- `is_directory`, which follows links. -/
  isDirectory : Bytes → Bool
  /-- The names in a directory, in the order of the directory iterator; none if it fails. -/
  names : Bytes → Option (List Bytes)
  /-- `device_id`. -/
  deviceId : Bytes → Option UInt64

/-- `ScanStats`. -/
structure ScanStats where
  files : ℕ := 0
  directories : ℕ := 0
  symlinks : ℕ := 0
  /-- Sockets, fifos, devices, and what cannot be read. -/
  skipped : ℕ := 0
  deriving DecidableEq, Repr

namespace Scanner

/-- A name below a relative path, which is empty for the root. -/
def joinName (rel name : Bytes) : Bytes := if rel = [] then name else rel ++ slash :: name

/-- `Pending`: a directory that is still to be read. -/
structure Pending where
  /-- Relative to the served root. -/
  path : Bytes
  /-- Relative to the root of the scan. -/
  rel : Bytes
  index : UInt32

/-- The variables of the walk. -/
structure State (σ : Type) where
  out : σ
  stats : ScanStats := {}
  queue : List Pending
  nextIndex : UInt32 := 1

/-- The arguments of `scan_tree`. -/
structure Walk (σ : Type) where
  view : DiskView
  onEntry : σ → SnapshotEntry → σ
  skip : σ → Bytes → Bool → Bool
  /-- The filesystem of the root, if the walk is to stay on it. -/
  rootDev : Option UInt64

variable {σ : Type} (w : Walk σ)

/-- A directory on another filesystem than the root is not descended into. -/
def Walk.descends (path : Bytes) : Bool :=
  match w.rootDev, w.view.deviceId path with
  | some root, some dev => dev == root
  | _, _ => true

/-- One entry of a directory. -/
def Walk.entry (dir : Pending) (s : State σ) (name : Bytes) : State σ :=
  let skipped := { s with stats := { s.stats with skipped := s.stats.skipped + 1 } }
  let path := joinName dir.path name
  match w.view.attributes path with
  | none => skipped
  | some a =>
    if a.kind = .other then skipped
    else
      let rel := joinName dir.rel name
      if w.skip s.out rel (a.kind == .directory) then skipped
      else
        let s' := { s with out := w.onEntry s.out ⟨dir.index, name, a⟩
                           nextIndex := s.nextIndex + 1 }
        match a.kind with
        | .directory =>
          let stats := { s.stats with directories := s.stats.directories + 1 }
          if w.descends path then
            { s' with stats, queue := s.queue ++ [⟨path, rel, s.nextIndex⟩] }
          else { s' with stats := { stats with skipped := stats.skipped + 1 } }
        | .file => { s' with stats := { s.stats with files := s.stats.files + 1 } }
        | .symlink => { s' with stats := { s.stats with symlinks := s.stats.symlinks + 1 } }
        | .other => s'

/-- One round of the loop over the queue. -/
def Walk.round (dir : Pending) (s : State σ) : State σ :=
  match w.view.names dir.path with
  | none => { s with stats := { s.stats with skipped := s.stats.skipped + 1 } }
  | some names => names.foldl (w.entry dir) s

/-- The loop over the queue, with a bound on its rounds. -/
def Walk.loop : ℕ → State σ → State σ
  | 0, s => s
  | fuel + 1, s =>
    match s.queue with
    | [] => s
    | dir :: queue => loop fuel (w.round dir { s with queue })

end Scanner

open Scanner

/-- `scan_tree` of a directory, in `rounds` rounds at most. -/
def scanTree {σ : Type} (rounds : ℕ) (view : DiskView) (root : Bytes)
    (onEntry : σ → SnapshotEntry → σ) (skip : σ → Bytes → Bool → Bool) (oneFileSystem : Bool)
    (out : σ) : Except Errc ScanStats × σ :=
  if !view.isDirectory root then (.error .notADirectory, out)
  else
    let rootDev := if oneFileSystem then view.deviceId root else none
    let s := Walk.loop ⟨view, onEntry, skip, rootDev⟩ rounds { out, queue := [⟨root, [], 0⟩] }
    (.ok s.stats, s.out)

/-! ### What a scan does with its entries -/

namespace Scanner

section

variable {σ : Type} {view : DiskView} {onEntry : σ → SnapshotEntry → σ}
  {skip : Bytes → Bool → Bool} {rootDev : Option UInt64} {out : σ}

/-- The entries of a walk that collects them are handed to `onEntry`. -/
def State.feed (onEntry : σ → SnapshotEntry → σ) (out : σ) (s : State (List SnapshotEntry)) :
    State σ where
  out := s.out.foldl onEntry out
  stats := s.stats
  queue := s.queue
  nextIndex := s.nextIndex

theorem Walk.entry_feed (dir : Pending) (s : State (List SnapshotEntry)) (name : Bytes) :
    Walk.entry ⟨view, onEntry, fun _ => skip, rootDev⟩ dir (s.feed onEntry out) name =
      (Walk.entry ⟨view, fun es e => es ++ [e], fun _ => skip, rootDev⟩ dir s name).feed
        onEntry out := by
  have hdesc : ∀ path, Walk.descends ⟨view, onEntry, fun _ => skip, rootDev⟩ path =
      Walk.descends ⟨view, fun es e => es ++ [e], fun _ => skip, rootDev⟩ path := fun _ => rfl
  unfold Walk.entry
  dsimp only
  cases view.attributes (joinName dir.path name) with
  | none => rfl
  | some a =>
    dsimp only
    have hout : onEntry (s.feed onEntry out).out ⟨dir.index, name, a⟩ =
        (s.out ++ [SnapshotEntry.mk dir.index name a]).foldl onEntry out := by
      rw [List.foldl_append]
      rfl
    rw [hout, hdesc]
    by_cases hother : a.kind = .other
    · rw [if_pos hother, if_pos hother]
      rfl
    · rw [if_neg hother, if_neg hother]
      by_cases hskip : skip (joinName dir.rel name) (a.kind == .directory) = true
      · rw [if_pos hskip, if_pos hskip]
        rfl
      · rw [if_neg hskip, if_neg hskip]
        cases a.kind with
        | directory =>
          dsimp only
          split_ifs <;> rfl
        | file | symlink | other => rfl

theorem Walk.round_feed (dir : Pending) (s : State (List SnapshotEntry)) :
    Walk.round ⟨view, onEntry, fun _ => skip, rootDev⟩ dir (s.feed onEntry out) =
      (Walk.round ⟨view, fun es e => es ++ [e], fun _ => skip, rootDev⟩ dir s).feed
        onEntry out := by
  unfold Walk.round
  dsimp only
  cases view.names dir.path with
  | none => rfl
  | some names =>
    dsimp only
    induction names generalizing s with
    | nil => rfl
    | cons name names ih => rw [List.foldl_cons, List.foldl_cons, entry_feed, ih]

variable (view onEntry skip rootDev out) in
theorem Walk.loop_feed (rounds : ℕ) (s : State (List SnapshotEntry)) :
    Walk.loop ⟨view, onEntry, fun _ => skip, rootDev⟩ rounds (s.feed onEntry out) =
      (Walk.loop ⟨view, fun es e => es ++ [e], fun _ => skip, rootDev⟩ rounds s).feed
        onEntry out := by
  induction rounds generalizing s with
  | zero => rfl
  | succ rounds ih =>
    obtain ⟨es, stats, queue, nextIndex⟩ := s
    cases queue with
    | nil => rfl
    | cons dir queue =>
      exact (congrArg _ (round_feed dir ⟨es, stats, queue, nextIndex⟩)).trans (ih _)

end

section

variable {σ : Type} {w : Walk σ} {P : σ → Prop}

theorem Walk.invariant_entry (hP : ∀ x e, P x → P (w.onEntry x e)) (dir : Pending) {s : State σ}
    (h : P s.out) (name : Bytes) : P (w.entry dir s name).out := by
  unfold Walk.entry
  dsimp only
  cases w.view.attributes (joinName dir.path name) with
  | none => exact h
  | some a =>
    dsimp only
    have hnew := hP s.out ⟨dir.index, name, a⟩ h
    by_cases hother : a.kind = .other
    · rw [if_pos hother]
      exact h
    · rw [if_neg hother]
      by_cases hskip : w.skip s.out (joinName dir.rel name) (a.kind == .directory) = true
      · rw [if_pos hskip]
        exact h
      · rw [if_neg hskip]
        cases a.kind with
        | directory =>
          dsimp only
          split_ifs <;> exact hnew
        | file | symlink | other => exact hnew

theorem Walk.invariant_loop (hP : ∀ x e, P x → P (w.onEntry x e)) (rounds : ℕ) {s : State σ}
    (h : P s.out) : P (w.loop rounds s).out := by
  induction rounds generalizing s with
  | zero => exact h
  | succ rounds ih =>
    rw [Walk.loop]
    cases s.queue with
    | nil => exact h
    | cons dir queue =>
      refine ih ?_
      unfold Walk.round
      cases w.view.names dir.path with
      | none => exact h
      | some names =>
        refine List.foldlRecOn names (w.entry dir) (motive := fun s => P s.out) ?_
          fun s hs name _ => Walk.invariant_entry hP dir hs name
        exact h

end

end Scanner

theorem scanTree_invariant {σ : Type} {P : σ → Prop} {onEntry : σ → SnapshotEntry → σ} {out : σ}
    (rounds : ℕ) (view : DiskView) (root : Bytes) (skip : σ → Bytes → Bool → Bool)
    (oneFileSystem : Bool) (hP : ∀ x e, P x → P (onEntry x e)) (h : P out) :
    P (scanTree rounds view root onEntry skip oneFileSystem out).2 := by
  unfold scanTree
  by_cases hdir : (!view.isDirectory root) = true
  · rw [if_pos hdir]
    exact h
  · rw [if_neg hdir]
    exact Walk.invariant_loop hP rounds h

/-- **A scan hands its entries out one after the other**, if what it skips does not depend on them.
-/
theorem scanTree_eq_foldl {σ : Type} (rounds : ℕ) (view : DiskView) (root : Bytes)
    (onEntry : σ → SnapshotEntry → σ) (skip : Bytes → Bool → Bool) (oneFileSystem : Bool)
    (out : σ) :
    scanTree rounds view root onEntry (fun _ => skip) oneFileSystem out =
      ((scanTree rounds view root (fun es e => es ++ [e]) (fun _ => skip) oneFileSystem []).1,
        (scanTree rounds view root (fun es e => es ++ [e]) (fun _ => skip) oneFileSystem
          []).2.foldl onEntry out) := by
  unfold scanTree
  by_cases hdir : (!view.isDirectory root) = true
  · simp only [if_pos hdir]
    rfl
  · simp only [if_neg hdir]
    exact congrArg (fun s => (Except.ok s.stats, s.out)) (Walk.loop_feed view onEntry skip _ out
      rounds { out := [], queue := [⟨root, [], 0⟩] })

/-! ### Scans that stop -/

namespace Scanner

section

variable {σ : Type} {view : DiskView} {onEntry : σ → SnapshotEntry → σ}
  {skip : Bytes → Bool → Bool} {stop : σ → Bool} {rootDev : Option UInt64} {out : σ}

/-- A walk that collects its entries. -/
abbrev Walk.collecting (view : DiskView) (skip : Bytes → Bool → Bool) (rootDev : Option UInt64) :
    Walk (List SnapshotEntry) := ⟨view, fun es e => es ++ [e], fun _ => skip, rootDev⟩

/-- A walk that skips everything once `stop` holds. -/
abbrev Walk.stopping (view : DiskView) (onEntry : σ → SnapshotEntry → σ) (stop : σ → Bool)
    (skip : Bytes → Bool → Bool) (rootDev : Option UInt64) : Walk σ :=
  ⟨view, onEntry, fun x sub isDir => stop x || skip sub isDir, rootDev⟩

/-- The walk that stops, beside the one that collects: it has done the same with the entries, or
both have come to where it stops. -/
def Beside (onEntry : σ → SnapshotEntry → σ) (stop : σ → Bool) (out : σ)
    (s : State (List SnapshotEntry)) (s' : State σ) : Prop :=
  (s' = s.feed onEntry out ∧ stop s'.out = false) ∨
    (stop s'.out = true ∧ stop (s.out.foldl onEntry out) = true)

theorem stop_concat (hmono : ∀ x e, stop x = true → stop (onEntry x e) = true)
    (es : List SnapshotEntry) (e : SnapshotEntry) (h : stop (es.foldl onEntry out) = true) :
    stop ((es ++ [e]).foldl onEntry out) = true := by
  rw [List.foldl_append]
  exact hmono _ e h

theorem Beside.of_feed (s : State (List SnapshotEntry)) :
    Beside onEntry stop out s (s.feed onEntry out) := by
  cases hs : stop (s.feed onEntry out).out with
  | false => exact .inl ⟨rfl, hs⟩
  | true => exact .inr ⟨hs, hs⟩

theorem Beside.entry (hmono : ∀ x e, stop x = true → stop (onEntry x e) = true)
    {s : State (List SnapshotEntry)} {s' : State σ} (h : Beside onEntry stop out s s')
    (dir : Pending) (name : Bytes) :
    Beside onEntry stop out ((Walk.collecting view skip rootDev).entry dir s name)
      ((Walk.stopping view onEntry stop skip rootDev).entry dir s' name) := by
  rcases h with ⟨rfl, hgo⟩ | ⟨hstop, hstop'⟩
  · -- as long as it has not stopped it skips what the other one skips
    have hsame :
        (Walk.stopping view onEntry stop skip rootDev).entry dir (s.feed onEntry out) name =
          ((Walk.collecting view skip rootDev).entry dir s name).feed onEntry out := by
      rw [← Walk.entry_feed]
      unfold Walk.entry
      simp only [hgo, Bool.false_or]
      rfl
    rw [hsame]
    exact .of_feed _
  · exact .inr ⟨Walk.invariant_entry (P := fun x => stop x = true) hmono dir hstop name,
      Walk.invariant_entry (P := fun es : List SnapshotEntry => stop (es.foldl onEntry out) = true)
        (stop_concat hmono) dir hstop' name⟩

theorem Beside.round (hmono : ∀ x e, stop x = true → stop (onEntry x e) = true)
    {s : State (List SnapshotEntry)} {s' : State σ} (h : Beside onEntry stop out s s')
    (dir : Pending) :
    Beside onEntry stop out ((Walk.collecting view skip rootDev).round dir s)
      ((Walk.stopping view onEntry stop skip rootDev).round dir s') := by
  unfold Walk.round
  cases view.names dir.path with
  | none =>
    rcases h with ⟨rfl, hgo⟩ | hstop
    · exact .inl ⟨rfl, hgo⟩
    · exact .inr hstop
  | some names =>
    dsimp only
    induction names generalizing s s' with
    | nil => exact h
    | cons name names ih => exact ih (h.entry hmono dir name)

theorem Beside.loop (hmono : ∀ x e, stop x = true → stop (onEntry x e) = true) (rounds : ℕ)
    {s : State (List SnapshotEntry)} {s' : State σ} (h : Beside onEntry stop out s s') :
    Beside onEntry stop out ((Walk.collecting view skip rootDev).loop rounds s)
      ((Walk.stopping view onEntry stop skip rootDev).loop rounds s') := by
  induction rounds generalizing s s' with
  | zero => exact h
  | succ rounds ih =>
    rcases h with ⟨rfl, hgo⟩ | ⟨hstop, hstop'⟩
    · obtain ⟨es, stats, queue, nextIndex⟩ := s
      cases queue with
      | nil => exact .inl ⟨rfl, hgo⟩
      | cons dir queue =>
        have hround : Beside onEntry stop out
            ((Walk.collecting view skip rootDev).round dir ⟨es, stats, queue, nextIndex⟩)
            ((Walk.stopping view onEntry stop skip rootDev).round dir
              (State.feed onEntry out ⟨es, stats, queue, nextIndex⟩)) :=
          (Beside.of_feed _).round hmono dir
        exact ih hround
    · exact .inr ⟨Walk.invariant_loop (P := fun x => stop x = true) hmono _ hstop,
        Walk.invariant_loop (P := fun es : List SnapshotEntry => stop (es.foldl onEntry out) = true)
          (stop_concat hmono) _ hstop'⟩

end

end Scanner

/-- **A scan that stops** does with its entries what a scan that collects them says, unless it comes
to where it stops. -/
theorem scanTree_stop {σ : Type} {onEntry : σ → SnapshotEntry → σ} {stop : σ → Bool}
    (hmono : ∀ x e, stop x = true → stop (onEntry x e) = true) (rounds : ℕ) (view : DiskView)
    (root : Bytes) (skip : Bytes → Bool → Bool) (oneFileSystem : Bool) (out : σ) :
    let es := (scanTree rounds view root (fun es e => es ++ [e]) (fun _ => skip) oneFileSystem []).2
    let x := (scanTree rounds view root onEntry (fun x sub isDir => stop x || skip sub isDir)
      oneFileSystem out).2
    (stop (es.foldl onEntry out) = false → x = es.foldl onEntry out) ∧
      (stop (es.foldl onEntry out) = true → stop x = true) := by
  have hboth : let es := (scanTree rounds view root (fun es e => es ++ [e]) (fun _ => skip)
        oneFileSystem []).2
      let x := (scanTree rounds view root onEntry (fun x sub isDir => stop x || skip sub isDir)
        oneFileSystem out).2
      (x = es.foldl onEntry out ∧ stop x = false) ∨
        (stop x = true ∧ stop (es.foldl onEntry out) = true) := by
    unfold scanTree
    by_cases hdir : (!view.isDirectory root) = true
    · simp only [if_pos hdir]
      cases hs : stop out with
      | false => exact .inl ⟨rfl, rfl⟩
      | true => exact .inr ⟨rfl, hs⟩
    · simp only [if_neg hdir]
      have hstart : Beside onEntry stop out { out := [], queue := [⟨root, [], 0⟩] }
          { out, queue := [⟨root, [], 0⟩] } := .of_feed _
      rcases hstart.loop hmono rounds with ⟨heq, hgo⟩ | hstop
      · exact .inl ⟨congrArg State.out heq, hgo⟩
      · exact .inr hstop
  intro es x
  rcases hboth with ⟨heq, hgo⟩ | ⟨hstop, hstop'⟩
  · refine ⟨fun _ => heq, fun h => ?_⟩
    rw [← heq, hgo] at h
    cases h
  · refine ⟨fun h => ?_, fun _ => hstop⟩
    rw [hstop'] at h
    cases h

end WslDrive
