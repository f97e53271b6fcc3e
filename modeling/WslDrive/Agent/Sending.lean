import WslDrive.Agent.Agreement
import WslDrive.Lib.Feed

/-!
# The sending half, seen from one file

The disk, the watcher, the coalescer, the flusher and the channel are, for each file of the
directory, a `Feed` of its attributes: watcher events are the notices, the flush takes them under a
new generation, and an op is an update with what resolving the path has found.

* `feeds_next` — every step of the sending half is a step of the feed of each file.
-/

namespace WslDrive

open MetadataTree Path

namespace Agreement

variable (d : Directory) (opts : RootServer.Options)

/-- Operations without a generation. -/
def Flusher.planned : Flusher → List PlannedOp
  | .taken planned => planned
  | _ => []

/-- Operations whose path has yet to be resolved. -/
def Flusher.todo : Flusher → List PlannedOp
  | .resolving _ todo _ => todo
  | _ => []

/-- Operations that are resolved. -/
def Flusher.ops : Flusher → List InvalidationOp
  | .resolving _ _ ops | .sending _ ops => ops
  | _ => []

/-- The updates of a file among the ops of a batch. -/
def values (n : Bytes) (gen : UInt64) (ops : List InvalidationOp) :
    List (ℕ × Option Attributes) :=
  ops.filterMap fun op =>
    if op.path = d.path n then some (gen.toNat, Directory.value op) else none

/-- The updates of a file in a message. -/
def Message.values (n : Bytes) : Message → List (ℕ × Option Attributes)
  | .batch b => Agreement.values d n b.generation b.ops
  | .reply _ => []

/-- The updates of a file that the flusher has resolved. -/
def Flusher.values (n : Bytes) : Flusher → List (ℕ × Option Attributes)
  | .resolving gen _ ops | .sending gen ops => Agreement.values d n gen ops
  | _ => []

/-- **The sending half, seen from one file.** -/
def System.feed (n : Bytes) (s : System) : Feed (Option Attributes) where
  source := s.disk n
  noticed := (∃ ev ∈ s.watch, ev.path = d.path n) ∨
    (s.coalescer.pending.lookup (d.path n)).isSome = true ∨
    ∃ op ∈ s.flusher.planned, op.path = d.path n
  taken := ∃ op ∈ s.flusher.todo, op.path = d.path n
  generation := s.generation.toNat
  inflight := s.channel.flatMap (Message.values d n) ++ s.flusher.values d n

/-- The paths in the sending half are those of files of the directory. -/
structure Sends (s : System) : Prop where
  disk : ∀ n a, s.disk n = some a → validName n = true ∧ a.kind = .file
  watch : ∀ ev ∈ s.watch, ev.kind ≠ .overflow ∧ ∃ n, validName n = true ∧ ev.path = d.path n
  overflow : s.coalescer.overflow = false
  pending : ∀ path e, s.coalescer.pending.lookup path = some e → e.kind ≠ .rescan ∧
    ∃ n, validName n = true ∧ path = d.path n
  planned : ∀ op ∈ s.flusher.planned ++ s.flusher.todo, op.kind ≠ .rescan ∧
    ∃ n, validName n = true ∧ op.path = d.path n
  generation : ∀ gen todo ops, s.flusher = .resolving gen todo ops → gen = s.generation
  ops : ∀ op ∈ s.flusher.ops, ∃ n, d.About n op
  channel : ∀ b, .batch b ∈ s.channel → ∀ op ∈ b.ops, ∃ n, d.About n op

/-- A step of the sending half that changes the named files at most. -/
structure Feeds (changed : List Bytes) (s s' : System) : Prop where
  sends : Sends d s'
  step : ∀ n, validName n = true → Feed.Step (s.feed d n) (s'.feed d n)
  disk : ∀ n, n ∉ changed → s'.disk n = s.disk n
  handler : s'.handler = s.handler
  outstanding : s'.outstanding = s.outstanding
  client : s'.client = s.client

variable {d opts} {s s' : System} {n : Bytes}

/-! ### Changes of the disk -/

theorem apply_of_notMem {disk : Disk} {change : Change} (h : n ∉ change.names) :
    change.apply disk n = disk n := by
  cases change with
  | create m attr | write m attr | remove m =>
    exact Function.update_of_ne (by simpa [Change.names] using h) _ _
  | rename src dst =>
    rw [Change.apply]
    split_ifs with heq
    · rfl
    · simp only [Change.names, heq, if_false, List.mem_cons, List.not_mem_nil, or_false,
        not_or] at h
      rw [Function.update_of_ne h.1, Function.update_of_ne h.2]

theorem mem_events {change : Change} (cookie : UInt32) (h : n ∈ change.names) :
    ∃ ev ∈ change.events d cookie, ev.path = d.path n := by
  cases change with
  | create m attr | write m attr | remove m =>
    rw [Change.names, List.mem_singleton] at h
    exact ⟨_, List.mem_singleton_self _, by rw [h]⟩
  | rename src dst =>
    rw [Change.names] at h
    rw [Change.events]
    split_ifs at h ⊢
    · cases h
    · rcases List.mem_cons.1 h with rfl | h
      · exact ⟨_, List.mem_cons_self, rfl⟩
      · rw [List.mem_singleton.1 h]
        exact ⟨_, List.mem_cons_of_mem _ (List.mem_singleton_self _), rfl⟩

theorem allowed_valid {disk : Disk} {change : Change}
    (hdisk : ∀ n a, disk n = some a → validName n = true ∧ a.kind = .file)
    (h : change.allowed disk = true) :
    (∀ n ∈ change.names, validName n = true) ∧
      ∀ n a, change.apply disk n = some a → validName n = true ∧ a.kind = .file := by
  have hname : ∀ {m}, (disk m).isSome = true → validName m = true := fun hm => by
    obtain ⟨a, ha⟩ := Option.isSome_iff_exists.1 hm
    exact (hdisk _ a ha).1
  have hset : ∀ {m a'}, validName m = true → a'.kind = .file → ∀ n a,
      Function.update disk m (some a') n = some a → validName n = true ∧ a.kind = .file := by
    intro m a' hm ha'
    refine Directory.entries_update hdisk ?_
    rintro a ⟨⟩
    exact ⟨hm, ha'⟩
  have hno : ∀ m a, (none : Option Attributes) = some a → validName m = true ∧ a.kind = .file := by
    rintro m a ⟨⟩
  cases change with
  | create m attr =>
    simp only [Change.allowed, Bool.and_eq_true, beq_iff_eq] at h
    exact ⟨by simpa [Change.names] using h.1.2, hset h.1.2 h.2⟩
  | write m attr =>
    simp only [Change.allowed, Bool.and_eq_true, beq_iff_eq] at h
    exact ⟨by simpa [Change.names] using hname h.1, hset (hname h.1) h.2⟩
  | remove m =>
    refine ⟨by simpa [Change.names] using hname h, ?_⟩
    rw [Change.apply]
    exact Directory.entries_update hdisk (hno m)
  | rename src dst =>
    simp only [Change.allowed, Bool.and_eq_true] at h
    rw [Change.names, Change.apply]
    split_ifs with heq
    · exact ⟨List.forall_mem_nil _, hdisk⟩
    · obtain ⟨a, ha⟩ := Option.isSome_iff_exists.1 h.1
      rw [ha]
      exact ⟨by simpa using ⟨hname h.1, h.2⟩,
        Directory.entries_update (hset h.2 (hdisk src a ha).2) (hno src)⟩

/-! ### The steps -/

theorem feeds_of_frame (h : Sends d s') (hdisk : s'.disk = s.disk)
    (hhandler : s'.handler = s.handler) (hout : s'.outstanding = s.outstanding)
    (hclient : s'.client = s.client)
    (hframe : ∀ n, validName n = true → s.feed d n = { s'.feed d n with
      noticed := (s.feed d n).noticed, taken := (s.feed d n).taken })
    (hn : ∀ n, validName n = true → (s.feed d n).noticed → (s'.feed d n).noticed)
    (ht : ∀ n, validName n = true → (s.feed d n).taken → (s'.feed d n).taken) :
    Feeds d [] s s' where
  sends := h
  step n hv := .of_frame (hframe n hv) (hn n hv) (ht n hv)
  disk n _ := by rw [hdisk]
  handler := hhandler
  outstanding := hout
  client := hclient

/-- A flusher that has no operations without a generation leaves the notices where they are. -/
theorem noticed_mono (hf : s.flusher.planned = []) (hw : s'.watch = s.watch)
    (hc : s'.coalescer = s.coalescer) (h : (s.feed d n).noticed) : (s'.feed d n).noticed := by
  rcases h with h | h | ⟨op, hop, -⟩
  · exact .inl (by rw [hw]; exact h)
  · exact .inr (.inl (by rw [hc]; exact h))
  · rw [hf] at hop
    cases hop

theorem absurd_taken {P : Prop} (hf : s.flusher.todo = []) (h : (s.feed d n).taken) : P := by
  obtain ⟨op, hop, -⟩ := h
  rw [hf] at hop
  cases hop

theorem Quiet.feed (h : Quiet s) (d : Directory) (n : Bytes) :
    ¬ (s.feed d n).noticed ∧ ¬ (s.feed d n).taken ∧ (s.feed d n).inflight = [] := by
  have hempty := h.coalescer
  simp only [Coalescer.isEmpty, Bool.and_eq_true, List.isEmpty_iff] at hempty
  refine ⟨?_, absurd_taken (by rw [h.flusher]; rfl), ?_⟩
  · rintro (⟨ev, hev, -⟩ | hp | ⟨op, hop, -⟩)
    · rw [h.watch] at hev
      cases hev
    · rw [AList.lookup, hempty.2] at hp
      cases hp
    · rw [h.flusher] at hop
      cases hop
  · rw [System.feed, h.channel, h.flusher]
    rfl

theorem Quiet.outstanding (h : Quiet s) : s.outstanding = [] := by
  rw [System.outstanding, h.replies, h.channel, h.handler]
  rfl

theorem AtRest.sends (h : AtRest s) : Sends d s := by
  have hempty := h.coalescer
  simp only [Coalescer.isEmpty, Bool.and_eq_true, Bool.not_eq_true', List.isEmpty_iff] at hempty
  refine ⟨h.disk, ?_, hempty.1, fun path e he => ?_, ?_, fun gen todo ops hf => ?_, ?_, ?_⟩
  · rw [h.watch]
    exact List.forall_mem_nil _
  · rw [AList.lookup, hempty.2] at he
    cases he
  · rw [h.flusher]
    exact List.forall_mem_nil _
  · rw [h.flusher] at hf
    cases hf
  · rw [h.flusher]
    exact List.forall_mem_nil _
  · rw [h.channel]
    exact fun b hb => absurd hb List.not_mem_nil

theorem watch_append {change : Change} (h : Sends d s) (hc : change.allowed s.disk = true)
    (cookie : UInt32) : ∀ ev ∈ s.watch ++ change.events d cookie,
      ev.kind ≠ .overflow ∧ ∃ n, validName n = true ∧ ev.path = d.path n := by
  obtain ⟨hnames, -⟩ := allowed_valid h.disk hc
  intro ev hev
  rcases List.mem_append.1 hev with hev | hev
  · exact h.watch ev hev
  · cases change with
    | create m attr | write m attr | remove m =>
      cases List.mem_singleton.1 hev
      exact ⟨by simp, m, hnames m (by simp [Change.names]), rfl⟩
    | rename src dst =>
      rw [Change.events] at hev
      split_ifs at hev with heq
      · cases hev
      · rw [Change.names, if_neg heq] at hnames
        rcases List.mem_cons.1 hev with rfl | hev
        · exact ⟨by simp, src, hnames src (by simp), rfl⟩
        · cases List.mem_singleton.1 hev
          exact ⟨by simp, dst, hnames dst (by simp), rfl⟩

theorem feeds_external {change : Change} (cookie : UInt32) (h : Sends d s)
    (hc : change.allowed s.disk = true) :
    Feeds d change.names s
      { s with disk := change.apply s.disk, watch := s.watch ++ change.events d cookie } := by
  refine ⟨⟨(allowed_valid h.disk hc).2, watch_append h hc cookie, h.overflow, h.pending, h.planned,
    h.generation, h.ops, h.channel⟩, fun n hv => ?_, fun n hn => apply_of_notMem hn, rfl, rfl, rfl⟩
  by_cases hn : n ∈ change.names
  · refine .change _ ?_
    obtain ⟨ev, hev, hpath⟩ := mem_events cookie hn
    exact .inl ⟨ev, List.mem_append_right _ hev, hpath⟩
  · refine .of_frame ?_ (Or.imp_left ?_) (fun ht => ht)
    · simp only [System.feed, apply_of_notMem hn]
    · rintro ⟨ev, hev, hpath⟩
      exact ⟨ev, List.mem_append_left _ hev, hpath⟩

theorem feeds_watch {ev : FsEvent} {rest : List FsEvent} (now : ℤ) (h : Sends d s)
    (hw : s.watch = ev :: rest) :
    Feeds d [] s { s with watch := rest, coalescer := s.coalescer.push ev now } := by
  obtain ⟨hkind, m, hm, hpath⟩ := h.watch ev (by rw [hw]; exact List.mem_cons_self)
  obtain ⟨e, he⟩ := s.coalescer.exists_entry hkind
  have hlookup : ∀ path, (s.coalescer.push ev now).pending.lookup path = _ := fun _ =>
    Coalescer.lookup_push h.overflow he now
  have hsends : Sends d { s with watch := rest, coalescer := s.coalescer.push ev now } := by
    refine ⟨h.disk, fun ev' hev' => h.watch ev' (by rw [hw]; exact List.mem_cons_of_mem _ hev'),
      (Coalescer.push_eq h.overflow he now).1, fun path e' he' => ?_, h.planned, h.generation,
      h.ops, h.channel⟩
    rw [hlookup] at he'
    split_ifs at he' with hp
    · cases he'
      exact ⟨Coalescer.entry_kind_ne_rescan he, m, hm, hp.trans hpath⟩
    · exact h.pending path e' he'
  refine feeds_of_frame hsends rfl rfl rfl rfl (fun n _ => rfl) (fun n _ => ?_) fun n _ ht => ht
  have hkeep : (s.coalescer.pending.lookup (d.path n)).isSome = true →
      ((s.coalescer.push ev now).pending.lookup (d.path n)).isSome = true := by
    intro hp
    rw [hlookup]
    split_ifs
    · rfl
    · exact hp
  rintro (⟨ev', hev', hp⟩ | hp | hp)
  · rw [hw] at hev'
    rcases List.mem_cons.1 hev' with rfl | hev'
    · refine .inr (.inl ?_)
      rw [hlookup, if_pos hp.symm]
      rfl
    · exact .inl ⟨ev', hev', hp⟩
  · exact .inr (.inl (hkeep hp))
  · exact .inr (.inr hp)

theorem mem_take (h : Sends d s) (hn : validName n = true)
    (hp : (s.coalescer.pending.lookup (d.path n)).isSome = true) :
    ∃ op ∈ s.coalescer.take.1, op.path = d.path n := by
  obtain ⟨e, he⟩ := Option.isSome_iff_exists.1 hp
  have hplan := Coalescer.map_plan_take h.overflow
  rcases Coalescer.mem_kept_or he with hk | ⟨⟨path', e'⟩, hdir, hsh⟩
  · have hmem := List.mem_map_of_mem (f := fun it : Coalescer.Item =>
      (it.1, it.2.kind, it.2.appeared)) hk
    rw [← hplan] at hmem
    obtain ⟨op, hop, heq⟩ := List.mem_map.1 hmem
    exact ⟨op, hop, congrArg Prod.fst heq⟩
  · obtain ⟨-, m, hm, rfl⟩ := h.pending path' e' (Coalescer.mem_kept hdir)
    have hunder := hsh.under
    rw [Directory.path, Directory.path,
      pathIsUnder_iff (fun c hc => isPart_of_validName (Directory.valid_snoc hn c hc))
        fun c hc => isPart_of_validName (Directory.valid_snoc hm c hc),
      Directory.prefix_snoc_iff] at hunder
    exact absurd (by rw [hunder]) hsh.ne

theorem feeds_take (h : Sends d s) (hf : s.flusher = .idle) :
    Feeds d [] s
      { s with flusher := .taken s.coalescer.take.1, coalescer := s.coalescer.take.2 } := by
  have htake : s.coalescer.take.2 = { s.coalescer with pending := ∅ } := by
    rw [Coalescer.take, if_neg (by rw [h.overflow]; decide)]
  have hplanned : ∀ op ∈ s.coalescer.take.1, op.kind ≠ .rescan ∧
      ∃ n, validName n = true ∧ op.path = d.path n := by
    intro op hop
    have hmem := List.mem_map_of_mem (f := Coalescer.plan) hop
    rw [Coalescer.map_plan_take h.overflow] at hmem
    obtain ⟨it, hit, heq⟩ := List.mem_map.1 hmem
    obtain ⟨hpath, hrest⟩ := Prod.mk.inj heq
    obtain ⟨hkind, n, hn, hp⟩ := h.pending it.1 it.2 (Coalescer.mem_kept hit)
    exact ⟨by rw [← (Prod.mk.inj hrest).1]; exact hkind, n, hn, hpath ▸ hp⟩
  rw [htake]
  refine feeds_of_frame ⟨h.disk, h.watch, h.overflow, (fun _ _ he => by cases he), ?_,
    (fun _ _ _ hf => by cases hf), List.forall_mem_nil _, h.channel⟩
    rfl rfl rfl rfl (fun n _ => ?_) (fun n hn => ?_) fun n _ => ?_
  · simpa [Flusher.planned, Flusher.todo] using hplanned
  · simp [System.feed, hf, Flusher.values]
  · rintro (hw | hp | ⟨op, hop, -⟩)
    · exact .inl hw
    · exact .inr (.inr (mem_take h hn hp))
    · rw [hf] at hop
      cases hop
  · exact absurd_taken (by rw [hf]; rfl)

theorem feeds_assign {planned : List PlannedOp} (h : Sends d s)
    (hf : s.flusher = .taken planned) (hok : s.generation.toNat + 1 < 2 ^ 64) :
    Feeds d [] s { s with generation := s.generation + 1
                          flusher := .resolving (s.generation + 1) planned [] } := by
  have hgen : (s.generation + 1).toNat = s.generation.toNat + 1 := by
    rw [UInt64.toNat_add]
    exact Nat.mod_eq_of_lt hok
  refine ⟨⟨h.disk, h.watch, h.overflow, h.pending, ?_, ?_, nofun, h.channel⟩, fun n _ => ?_,
    fun _ _ => rfl, rfl, rfl, rfl⟩
  · have := h.planned
    rw [hf] at this
    simpa [Flusher.planned, Flusher.todo] using this
  · rintro gen todo ops ⟨⟩
    rfl
  · have hfeed : System.feed d n { s with
          generation := s.generation + 1
          flusher := .resolving (s.generation + 1) planned [] } =
        { s.feed d n with
          generation := s.generation.toNat + 1
          noticed := (∃ ev ∈ s.watch, ev.path = d.path n) ∨
            (s.coalescer.pending.lookup (d.path n)).isSome = true ∨ False
          taken := ∃ op ∈ planned, op.path = d.path n } := by
      simp [System.feed, hf, hgen, Flusher.values, Flusher.planned, Flusher.todo, values]
    rw [hfeed]
    refine .take ?_ ?_
    · rintro (hw | hp | ⟨op, hop, hpath⟩)
      · exact .inl (.inl hw)
      · exact .inl (.inr (.inl hp))
      · rw [hf] at hop
        exact .inr ⟨op, hop, hpath⟩
    · exact absurd_taken (by rw [hf]; rfl)

/-! Resolving and sending -/

theorem stat_path (hn : validName n = true) (disk : Disk) : disk.stat d (d.path n) = disk n := by
  rw [Disk.stat, Directory.path, splitParent_intercalate _ (isPart_of_validName hn), if_pos rfl]

theorem resolveOp_spec {op : PlannedOp} (attr : Option Attributes) (hk : op.kind ≠ .rescan)
    (hn : validName n = true) (hp : op.path = d.path n) (ha : ∀ a, attr = some a → a.kind = .file) :
    ∃ out, RootServer.resolveOp op attr = some out ∧ d.About n out ∧
      Directory.value out = attr := by
  cases attr with
  | none =>
    rw [RootServer.resolveOp, if_neg hk]
    exact ⟨_, rfl, ⟨hn, hp, .inr rfl⟩, rfl⟩
  | some a =>
    have hfile := ha a rfl
    rw [RootServer.resolveOp, if_neg hk]
    dsimp only
    rw [if_neg (by rw [hfile]; decide)]
    exact ⟨_, rfl, ⟨hn, hp, .inl ⟨rfl, hfile⟩⟩, rfl⟩

theorem values_append (gen : UInt64) (ops ops' : List InvalidationOp) :
    values d n gen (ops ++ ops') = values d n gen ops ++ values d n gen ops' :=
  List.filterMap_append

theorem values_singleton {op : InvalidationOp} {m : Bytes} (gen : UInt64) (hop : d.About m op)
    (hn : validName n = true) :
    values d n gen [op] = if n = m then [(gen.toNat, Directory.value op)] else [] := by
  rw [values, List.filterMap_cons, hop.path]
  by_cases hnm : n = m
  · rw [if_pos (by rw [hnm]), if_pos hnm]
    rfl
  · rw [if_neg fun heq => hnm (Directory.path_inj hn hop.valid heq.symm), if_neg hnm]
    rfl

theorem feeds_resolve {gen : UInt64} {op : PlannedOp} {todo : List PlannedOp}
    {ops : List InvalidationOp} (h : Sends d s) (hf : s.flusher = .resolving gen (op :: todo) ops) :
    Feeds d [] s { s with
      flusher := .resolving gen todo
        (ops ++ (RootServer.resolveOp op (s.disk.stat d op.path)).toList) } := by
  have hplanned := h.planned
  have hops := h.ops
  rw [hf] at hplanned hops
  obtain ⟨hk, m, hm, hp⟩ := hplanned op (by simp [Flusher.planned, Flusher.todo])
  obtain ⟨out, hout, habout, hvalue⟩ := resolveOp_spec (s.disk.stat d op.path) hk hm hp
    fun a ha => (h.disk m a (by rw [← ha, hp, stat_path hm])).2
  rw [hp, stat_path hm] at hvalue
  have hgen := h.generation gen _ _ hf
  rw [hout]
  refine ⟨⟨h.disk, h.watch, h.overflow, h.pending, fun op' hop' => hplanned op' ?_, ?_, ?_,
    h.channel⟩, fun n hn => ?_, fun _ _ => rfl, rfl, rfl, rfl⟩
  · simp only [Flusher.planned, Flusher.todo, List.nil_append] at hop' ⊢
    exact List.mem_cons_of_mem _ hop'
  · rintro gen' todo' ops' ⟨⟩
    exact hgen
  · intro op' hop'
    rcases List.mem_append.1 hop' with hop' | hop'
    · exact hops op' hop'
    · cases List.mem_singleton.1 hop'
      exact ⟨m, habout⟩
  · have hnew := values_singleton gen habout hn
    by_cases hnm : n = m
    · subst hnm
      rw [if_pos rfl, hvalue, hgen] at hnew
      have hfeed : System.feed d n
            { s with flusher := .resolving gen todo (ops ++ (some out).toList) } =
          { s.feed d n with
            taken := ∃ op ∈ todo, op.path = d.path n
            inflight := (s.feed d n).inflight ++
              [((s.feed d n).generation, (s.feed d n).source)] } := by
        simp only [System.feed, hf, Flusher.values, Flusher.planned, Flusher.todo,
          Option.toList_some, values_append, hgen, hnew, List.append_assoc]
      rw [hfeed]
      exact .read ⟨op, by rw [hf]; exact List.mem_cons_self, hp⟩
    · rw [if_neg hnm] at hnew
      refine .of_frame ?_ ?_ ?_
      · simp only [System.feed, hf, Flusher.values, Flusher.planned, Flusher.todo,
          Option.toList_some, values_append, hnew, List.append_nil]
      · exact noticed_mono (by rw [hf]; rfl) rfl rfl
      · rintro ⟨op', hop', hpath'⟩
        rw [hf] at hop'
        rcases List.mem_cons.1 hop' with rfl | hop'
        · exact absurd (Directory.path_inj hn hm (hpath'.symm.trans hp)) hnm
        · exact ⟨op', hop', hpath'⟩

theorem values_repair (gen : UInt64) (ops : List InvalidationOp) :
    values d n gen (repairMovePairs ops) = values d n gen ops := by
  have hmap := map_repairMovePairs (f := fun op : InvalidationOp =>
    if op.path = d.path n then some (gen.toNat, Directory.value op) else none)
    (fun _ _ _ => rfl) ops
  have := congrArg (List.filterMap id) hmap
  rw [List.filterMap_map, List.filterMap_map] at this
  exact this

theorem feeds_finish {gen : UInt64} {ops : List InvalidationOp} (h : Sends d s)
    (hf : s.flusher = .resolving gen [] ops) :
    Feeds d [] s { s with flusher := .sending gen (repairMovePairs ops) } := by
  have hops := h.ops
  rw [hf] at hops
  refine feeds_of_frame ⟨h.disk, h.watch, h.overflow, h.pending, nofun, nofun, ?_, h.channel⟩
    rfl rfl rfl rfl (fun n _ => ?_) (fun n _ => ?_) fun n _ => ?_
  · intro op hop
    obtain ⟨op', hop', heq⟩ := exists_of_mem_repairMovePairs
      (f := fun op : InvalidationOp => (op.path, op.kind, op.attr)) (fun _ _ _ => rfl) hop
    obtain ⟨hp, hrest⟩ := Prod.mk.inj heq
    obtain ⟨hk, ha⟩ := Prod.mk.inj hrest
    obtain ⟨n, habout⟩ := hops op' hop'
    exact ⟨n, habout.valid, hp ▸ habout.path, by rw [← hk, ← ha]; exact habout.kind⟩
  · simp only [System.feed, hf, Flusher.values, values_repair]
  · exact noticed_mono (by rw [hf]; rfl) rfl rfl
  · exact absurd_taken (by rw [hf]; rfl)

theorem feeds_send {gen : UInt64} {op : InvalidationOp} {ops : List InvalidationOp}
    (h : Sends d s) (hf : s.flusher = .sending gen (op :: ops)) :
    Feeds d [] s { s with
      channel := s.channel ++ [.batch ⟨gen, (RootServer.firstChunk opts (op :: ops)).1⟩]
      flusher := .sending gen (RootServer.firstChunk opts (op :: ops)).2 } := by
  have hops := h.ops
  rw [hf] at hops
  have hsplit := RootServer.firstChunk_append opts (op :: ops)
  generalize RootServer.firstChunk opts (op :: ops) = p at hsplit
  have hmem : ∀ op' ∈ p.1 ++ p.2, ∃ n, d.About n op' := by
    rw [hsplit]
    exact hops
  refine feeds_of_frame ⟨h.disk, h.watch, h.overflow, h.pending, nofun, nofun,
    fun op' hop' => hmem op' (List.mem_append_right _ hop'), ?_⟩
    rfl rfl ?_ rfl (fun n _ => ?_) (fun n _ => ?_) fun n _ => ?_
  · intro b hb
    rcases List.mem_append.1 hb with hb | hb
    · exact h.channel b hb
    · cases List.mem_singleton.1 hb
      exact fun op' hop' => hmem op' (List.mem_append_left _ hop')
  · simp [System.outstanding, Message.reply?]
  · have hup : values d n gen (op :: ops) = values d n gen p.1 ++ values d n gen p.2 := by
      rw [← hsplit, values_append]
    simp only [System.feed, hf, Flusher.values, hup, List.flatMap_append, List.flatMap_cons,
      List.flatMap_nil, Message.values, List.append_nil, List.append_assoc]
  · exact noticed_mono (by rw [hf]; rfl) rfl rfl
  · exact absurd_taken (by rw [hf]; rfl)

theorem feeds_done {gen : UInt64} (h : Sends d s) (hf : s.flusher = .sending gen []) :
    Feeds d [] s { s with flusher := .idle } := by
  refine feeds_of_frame ⟨h.disk, h.watch, h.overflow, h.pending, nofun, nofun, nofun, h.channel⟩
    rfl rfl rfl rfl (fun n _ => ?_) (fun n _ => ?_) fun n _ => ?_
  · simp only [System.feed, hf, Flusher.values, values, List.filterMap_nil]
  · exact noticed_mono (by rw [hf]; rfl) rfl rfl
  · exact absurd_taken (by rw [hf]; rfl)

/-- The steps of the sending half. -/
def Action.sends : Action → Bool
  | .external .. | .watch _ | .take | .assign | .resolve | .finish | .send | .done => true
  | _ => false

/-- The files that another process changes. -/
def Action.changed : Action → List Bytes
  | .external change _ => change.names
  | _ => []

/-- **Every step of the sending half is a step of the feed of each file.** -/
theorem feeds_next {a : Action} (h : Sends d s) (ha : a.sends = true)
    (hs : System.next d opts s a = some s')
    (hok : a = .assign → s.generation.toNat + 1 < 2 ^ 64) : Feeds d a.changed s s' := by
  cases a with
  | external change cookie =>
    rw [System.next] at hs
    split_ifs at hs with hc
    cases hs
    exact feeds_external cookie h hc
  | watch now =>
    rw [System.next] at hs
    cases hw : s.watch with
    | nil =>
      rw [hw] at hs
      cases hs
    | cons ev rest =>
      rw [hw] at hs
      cases hs
      exact feeds_watch now h hw
  | take =>
    rw [System.next] at hs
    split at hs
    · rename_i hf
      split_ifs at hs
      cases hs
      exact feeds_take h hf
    · cases hs
  | assign =>
    rw [System.next] at hs
    split at hs
    · rename_i planned hf
      cases hs
      exact feeds_assign h hf (hok rfl)
    · cases hs
  | resolve =>
    rw [System.next] at hs
    split at hs
    · rename_i gen op todo ops hf
      cases hs
      exact feeds_resolve h hf
    · cases hs
  | finish =>
    rw [System.next] at hs
    split at hs
    · rename_i gen ops hf
      cases hs
      exact feeds_finish h hf
    · cases hs
  | send =>
    rw [System.next] at hs
    split at hs
    · rename_i gen op ops hf
      cases hs
      exact feeds_send h hf
    · cases hs
  | done =>
    rw [System.next] at hs
    split at hs
    · rename_i gen hf
      cases hs
      exact feeds_done h hf
    · cases hs
  | request | load | reply | receive | process => cases ha

end Agreement

end WslDrive
