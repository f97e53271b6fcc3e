import WslDrive.Agent.Flush
import WslDrive.Agent.Served
import WslDrive.Core.Ignore

/-!
# The two filters of the ignore rules

A scan asks the rules about each entry with its kind.  The flusher asks about the path of an event
with both kinds, since an event of a removal does not say what was removed.

* `reported_iff_kept` — what a scan keeps back because of the rules;
* `forwarded_iff` — what the flusher keeps back;
* `dir_rule_drops_file` — a rule for directories keeps back the events of a file that is served;
* `filters_agree_iff` — when the two filters agree on an entry of the disk.
-/

namespace WslDrive

open Ignore MetadataTree Path Scanner

namespace DiskView

variable {view : DiskView} {rules : IgnoreRules} {p : List Bytes}

/-- The rules let the scan through to a path: they exclude neither the path nor a directory above
it, each asked about with its kind on the disk. -/
def Kept (view : DiskView) (rules : IgnoreRules) (p : List Bytes) : Prop :=
  ∀ q, q ≠ [] → q <+: p → rules.ignored (joined q) (view.isDir q) = false

theorem kept_iff (hnames : ∀ c ∈ p, LinuxName c) :
    view.Kept rules p ↔ rules.ignored (joined p) (view.isDir p) = false :=
  IgnoreRules.forall_ignored_iff (fun c hc => ⟨(hnames c hc).ne_nil, (hnames c hc).no_slash⟩)
    view.isDir

/-- **A scan reports** the entries that the rules keep, up to special files and other
filesystems. -/
theorem reported_iff_kept {oneFileSystem : Bool} (hp : p ≠ []) (hhas : view.Has p)
    {a : Attributes} (ha : view.attributes (joined p) = some a) (hkind : a.kind ≠ .other)
    (hdev : ∀ q, q ≠ [] → q <+: p → q ≠ p → view.foreign oneFileSystem q = false) :
    view.Reported rules.ignored oneFileSystem p ↔ view.Kept rules p := by
  constructor
  · intro h
    exact h.notIgnored
  · intro h
    refine ⟨hp, hhas, fun b hb => ?_, h, hdev⟩
    rw [ha] at hb
    cases hb
    exact hkind

end DiskView

namespace RootServer

variable {opts : Options} {view : DiskView} {rules : IgnoreRules} {op : PlannedOp}
  {planned : List PlannedOp}

/-- Options with rules; no rules are not asked. -/
def Options.withRules (opts : Options) (rules : IgnoreRules) : Options :=
  { opts with ignored := if rules.patterns.isEmpty then none else some rules.ignored }

@[simp] theorem excludes_withRules (path : Bytes) (isDir : Bool) :
    (opts.withRules rules).excludes path isDir = rules.ignored path isDir := by
  rw [Options.excludes, Options.withRules]
  split_ifs with h
  · simp [IgnoreRules.ignored, h]
  · rfl

/-- The operations that the loop of `flush_loop` over the planned operations adds to the batch. -/
def forwarded (opts : Options) (view : DiskView) (planned : List PlannedOp) :
    List InvalidationOp :=
  (planned.foldl (resolveStep opts view) ([], [])).1

theorem resolveStep_fst (s : List InvalidationOp × List Bytes) :
    (resolveStep opts view s op).1 = s.1 ++ (resolveStep opts view ([], []) op).1 := by
  unfold resolveStep
  split_ifs with h
  · exact (List.append_nil _).symm
  · cases resolveOp op (view.attributes op.path) with
    | none => exact (List.append_nil _).symm
    | some out => rfl

theorem mem_forwarded_iff {out : InvalidationOp} : out ∈ forwarded opts view planned ↔
    ∃ op ∈ planned, out ∈ (resolveStep opts view ([], []) op).1 := by
  have hloop : ∀ s, out ∈ (planned.foldl (resolveStep opts view) s).1 ↔
      out ∈ s.1 ∨ ∃ op ∈ planned, out ∈ (resolveStep opts view ([], []) op).1 := by
    induction planned with
    | nil => simp
    | cons op planned ih =>
      intro s
      rw [List.foldl_cons, ih, resolveStep_fst, List.mem_append, or_assoc]
      simp only [List.mem_cons, exists_eq_or_imp]
  rw [forwarded, hloop]
  simp

theorem resolveOp_path {attr : Option Attributes} {out : InvalidationOp}
    (h : resolveOp op attr = some out) : out.path = op.path := by
  unfold resolveOp at h
  split_ifs at h with hk
  · cases h
    rfl
  · cases attr with
    | none =>
      cases h
      rfl
    | some a =>
      by_cases hreg : a.kind = .other
      · simp [hreg] at h
      · dsimp only at h
        rw [if_neg hreg] at h
        cases h
        rfl

theorem resolveOp_isSome (op : PlannedOp) {a : Attributes} (hreg : a.kind ≠ .other) :
    (resolveOp op (some a)).isSome = true := by
  unfold resolveOp
  split_ifs with hk
  · rfl
  · dsimp only
    rw [if_neg hreg]
    rfl

/-- **The flusher forwards** a planned operation unless the rules exclude its path as a file or as a
directory. -/
theorem forwarded_iff {path : Bytes} {a : Attributes} (ha : view.attributes path = some a)
    (hreg : a.kind ≠ .other) (hop : op ∈ planned) (hpath : op.path = path)
    (hk : ∀ op ∈ planned, op.path = path → op.kind ≠ .rescan) :
    (∃ out ∈ forwarded opts view planned, out.path = path) ↔
      (opts.excludes path false || opts.excludes path true) = false := by
  simp only [mem_forwarded_iff]
  constructor
  · rintro ⟨out, ⟨op', hop', hout⟩, rfl⟩
    unfold resolveStep at hout
    split_ifs at hout with hex
    · cases hout
    · cases hres : resolveOp op' (view.attributes op'.path) with
      | none =>
        rw [hres] at hout
        cases hout
      | some out' =>
        rw [hres] at hout
        obtain rfl : out = out' := by simpa using hout
        have hpath' := resolveOp_path hres
        have hkind := hk op' hop' hpath'.symm
        rw [hpath']
        simpa [hkind] using hex
  · intro hex
    obtain ⟨out, hout⟩ := Option.isSome_iff_exists.1 (resolveOp_isSome op hreg)
    refine ⟨out, ⟨op, hop, ?_⟩, (resolveOp_path hout).trans hpath⟩
    rw [resolveStep, hpath, hex, ha, hout, Bool.and_false, if_neg Bool.false_ne_true]
    exact List.mem_singleton_self out

/-! ### Rules for directories -/

/-- A disk with the regular file `build`. -/
def buildFile : DiskView := .ofList [([], kImplicitDirectory), ([bytes "build"], {})]

/-- A rule for directories of that name. -/
def buildRule : IgnoreRules := .parse (bytes "build/\n")

/-- The file has been written to. -/
def buildWritten : PlannedOp := { kind := .upsert, path := bytes "build", change := .modified }

/-- With the rule `build/`, a scan reports the regular file `build`, and the flusher sends no batch
for its events. -/
theorem dir_rule_drops_file :
    buildFile.attributes (bytes "build") = some {} ∧
      (scanTree 2 buildFile [] (fun es e => es ++ [e]) (fun _ => buildRule.ignored) true []).2 =
        [{ parent := 0, name := bytes "build", attr := {} }] ∧
      resolveBatch (Options.withRules {} buildRule) {} 2 buildFile [buildWritten] = [] := by
  decide

/-- **When the filters agree.**  On a regular file, a directory or a link that is on the disk when
a flush resolves its path, the flusher agrees with the scan if and only if it is a directory, or no
rule for directories matches its path, or another rule excludes it whatever its kind. -/
theorem filters_agree_iff (opts : Options) (rules : IgnoreRules) (view : DiskView)
    {p : List Bytes} (hnames : ∀ c ∈ p, LinuxName c) {a : Attributes}
    (ha : view.attributes (joined p) = some a) (hreg : a.kind ≠ .other)
    {planned : List PlannedOp} {op : PlannedOp} (hop : op ∈ planned) (hpath : op.path = joined p)
    (hk : ∀ op ∈ planned, op.path = joined p → op.kind ≠ .rescan) :
    ((∃ out ∈ forwarded (opts.withRules rules) view planned, out.path = joined p) ↔
        view.Kept rules p) ↔
      a.kind = .directory ∨ (rules.NamesDir p → rules.Covers p) := by
  have hsplit : split (joined p) = p :=
    split_intercalate fun c hc => ⟨(hnames c hc).ne_nil, (hnames c hc).no_slash⟩
  have hfalse : rules.ignored (joined p) false = true ↔ rules.Covers p := by
    rw [IgnoreRules.ignored_false_iff, hsplit]
  have htrue : rules.ignored (joined p) true = true ↔ rules.Covers p ∨ rules.NamesDir p := by
    rw [IgnoreRules.ignored_true_iff, hsplit]
  have hdir : view.isDir p = true ↔ a.kind = .directory := by
    rw [DiskView.isDir, ha]
    exact beq_iff_eq
  rw [forwarded_iff ha hreg hop hpath hk, DiskView.kept_iff hnames, excludes_withRules,
    excludes_withRules, Bool.or_eq_false_iff, ← Bool.not_eq_true, ← Bool.not_eq_true,
    ← Bool.not_eq_true, hfalse, htrue, ← hdir]
  cases hd : view.isDir p with
  | true =>
    -- Both filters ask about the directory, and what covers it excludes it.
    rw [htrue]
    exact iff_of_true (and_iff_right_of_imp fun h hcov => h (.inl hcov)) (.inl rfl)
  | false =>
    rw [hfalse, and_iff_left_iff_imp, not_imp_not, or_imp]
    simp

/-- On a disk with a directory `build` the event of that directory is kept back as by a scan. -/
theorem filters_agree_iff_build :
    ((∃ out ∈ forwarded (Options.withRules {} buildRule)
        (.ofList [([], kImplicitDirectory), ([bytes "build"], kImplicitDirectory)]) [buildWritten],
          out.path = joined [bytes "build"]) ↔
      (DiskView.ofList [([], kImplicitDirectory), ([bytes "build"], kImplicitDirectory)]).Kept
        buildRule [bytes "build"]) :=
  (filters_agree_iff {} buildRule
    (.ofList [([], kImplicitDirectory), ([bytes "build"], kImplicitDirectory)])
    (a := kImplicitDirectory)
    (fun c hc => by
      obtain rfl := List.mem_singleton.1 hc
      exact ⟨by decide, by decide, by decide, by decide, by decide⟩)
    (by decide) (by decide) List.mem_cons_self rfl (by decide)).2 (.inl rfl)

end RootServer

end WslDrive
