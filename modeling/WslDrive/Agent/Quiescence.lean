import WslDrive.Agent.Sending
import WslDrive.Lib.Replica

/-!
# Agreement when nothing is under way

Seen from one file, the system of agent and client is a `Replica` of whether the file is there:
the disk is the source, watcher events are the notices, ops are the updates, and the replies to
mutations are the acknowledged writes.  Every orderly step of the system is some steps of the
replica of each file, so the invariant of replicas holds for every file.

* `simulates_next` — the simulation;
* `agreement` — in every run of orderly steps the mirror agrees with the disk in each quiet state.
-/

namespace WslDrive

open MetadataTree Path

namespace Agreement

variable (d : Directory) (opts : RootServer.Options)

/-! ### What one file sees of the system -/

/-- The updates of a file among the ops of a batch, with the attributes forgotten. -/
def updates (n : Bytes) (gen : UInt64) (ops : List InvalidationOp) : List (ℕ × Bool) :=
  (values d n gen ops).map (Prod.map id Option.isSome)

/-- The acknowledged writes of a file among replies. -/
def acks (n : Bytes) (replies : List Reply) : List (Bool × ℕ) :=
  replies.filterMap fun r => (r.request.outcome.lookup n).map fun v => (v, r.generation.toNat)

/-- **The system, seen from one file**: whether it is there, on the disk and in the mirror. -/
def System.replica (n : Bytes) (s : System) : Replica Bool where
  toFeed := (s.feed d n).map Option.isSome
  writing := s.handler.request?.bind fun r => r.outcome.lookup n
  acks := acks n s.outstanding
  copy := (d.files s.client.tree n).isSome
  refused := (d.refusal s.client n).map (·.toNat)

/-- The paths in the system are those of files of the directory. -/
structure Sound (s : System) : Prop extends Sends d s where
  handler : ∀ r ∈ s.handler.request?, ∀ n ∈ r.names, validName n = true
  replies : ∀ r ∈ s.outstanding, (∀ n ∈ r.request.names, validName n = true) ∧
    r.attr.kind = .file
  mirrors : d.Mirrors s.client

variable {d opts} {s s' : System} {n : Bytes}

/-! ### Changes and requests -/

theorem lookup_eq_none {r : Request} (h : n ∉ r.names) : r.outcome.lookup n = none := by
  rw [List.lookup_eq_none_iff]
  intro p hp
  rw [bne_iff_ne]
  rintro rfl
  exact h (List.mem_map_of_mem hp)

theorem names_change (disk : Disk) (attr : Attributes) (r : Request) :
    (r.change disk attr).names = r.names := by
  cases r with
  | create m =>
    rw [Request.change]
    split_ifs <;> rfl
  | write m offset written =>
    rw [Request.change]
    split_ifs <;> rfl
  | truncate m size => rfl
  | unlink m => rfl
  | rename src dst =>
    simp only [Request.change, Change.names, Request.names, Request.outcome]
    split_ifs <;> rfl

theorem lookup_singleton {m : Bytes} {v w : Bool} (h : [(m, w)].lookup n = some v) :
    n = m ∧ v = w := by
  rw [List.lookup_cons] at h
  by_cases hn : n = m
  · rw [beq_iff_eq.2 hn] at h
    exact ⟨hn, (Option.some.inj h).symm⟩
  · rw [beq_eq_false_iff_ne.2 hn] at h
    cases h

theorem lookup_rename {src dst : Bytes} {v : Bool}
    (h : (Request.rename src dst).outcome.lookup n = some v) :
    src ≠ dst ∧ (n = src ∧ v = false ∨ n ≠ src ∧ n = dst ∧ v = true) := by
  rw [Request.outcome] at h
  split_ifs at h with heq
  · cases h
  · rw [List.lookup_cons] at h
    refine ⟨heq, ?_⟩
    by_cases hn : n = src
    · rw [beq_iff_eq.2 hn] at h
      exact .inl ⟨hn, (Option.some.inj h).symm⟩
    · rw [beq_eq_false_iff_ne.2 hn] at h
      exact .inr ⟨hn, lookup_singleton h⟩

theorem isSome_apply_change {disk : Disk} {attr : Attributes} {r : Request}
    (h : (r.change disk attr).allowed disk = true) {v : Bool} (hv : r.outcome.lookup n = some v) :
    ((r.change disk attr).apply disk n).isSome = v := by
  cases r with
  | create m | write m =>
    obtain ⟨rfl, rfl⟩ := lookup_singleton hv
    rw [Request.change]
    split_ifs <;> rw [Change.apply, Function.update_self] <;> rfl
  | truncate m =>
    obtain ⟨rfl, rfl⟩ := lookup_singleton hv
    rw [Request.change, Change.apply, Function.update_self]
    rfl
  | unlink m =>
    obtain ⟨rfl, rfl⟩ := lookup_singleton hv
    rw [Request.change, Change.apply, Function.update_self]
    rfl
  | rename src dst =>
    obtain ⟨hne, hcases⟩ := lookup_rename hv
    rw [Request.change, Change.apply, if_neg hne]
    rcases hcases with ⟨rfl, rfl⟩ | ⟨hn, rfl, rfl⟩
    · rw [Function.update_self]
      rfl
    · rw [Function.update_of_ne hn, Function.update_self]
      rw [Request.change, Change.allowed, Bool.and_eq_true] at h
      exact h.1

/-! ### The client -/

theorem isSome_update {f : Bytes → Option Attributes} {m n : Bytes} {v : Option Attributes}
    {l : List (Bytes × Bool)} {b : Bool} (h : (f n).isSome = (l.lookup n).getD b) :
    (Function.update f m v n).isSome = (((m, v.isSome) :: l).lookup n).getD b := by
  rw [List.lookup_cons]
  by_cases hn : n = m
  · rw [hn, Function.update_self, beq_self_eq_true]
    rfl
  · rw [Function.update_of_ne hn, beq_eq_false_iff_ne.2 hn]
    exact h

theorem single_spec {c c' : RemoteRoot} {m : Bytes} {v : Option Attributes} (h : d.Mirrors c)
    (hmode : c'.lookupMode = c.lookupMode)
    (hb : d.Becomes c.tree c'.tree (Function.update (d.files c.tree) m v))
    (hv : ∀ a, v = some a → a.kind ≠ .directory) :
    d.Mirrors c' ∧ ∀ n, (d.files c'.tree n).isSome =
      ([(m, v.isSome)].lookup n).getD (d.files c.tree n).isSome := by
  refine ⟨⟨hb.holds h.holds (Directory.entries_update h.holds.file hv), hmode.trans h.mode⟩,
    fun n => ?_⟩
  rw [hb.files]
  exact isSome_update rfl

theorem setAttributes_spec {c c' : RemoteRoot} {m : Bytes} {id : NodeId} {attr : Attributes}
    (h : d.Mirrors c) (hmode : c'.lookupMode = c.lookupMode)
    (hid : c.tree.walk (d.names ++ [m]) = some id)
    (htree : c'.tree = (c.tree.setAttributes id attr).2)
    (hattr : attr.kind = (c.tree.nodes id).attr.kind) :
    d.Mirrors c' ∧ ∀ n, (d.files c'.tree n).isSome =
      ([(m, true)].lookup n).getD (d.files c.tree n).isSome := by
  refine single_spec (v := some attr) h hmode (htree ▸ h.holds.setAttributes hid hattr) ?_
  rintro a ⟨⟩
  rw [hattr]
  exact h.holds.file m _ (h.holds.wf.paths_eq_some.2 ⟨id, h.holds.wf.walk_iff.1 hid, rfl⟩)

/-- **What the client does about a reply**, on the files. -/
theorem process_spec {c : RemoteRoot} (h : d.Mirrors c) {r : Reply} (now : Int64)
    (hnames : ∀ m ∈ r.request.names, validName m = true) (hattr : r.attr.kind = .file)
    (hneeds : ∀ m ∈ r.request.needs, (d.files c.tree m).isSome = true) :
    let c' := c.process (r.mutation d now)
    d.Mirrors c' ∧ ∀ n, (d.files c'.tree n).isSome =
      (r.request.outcome.lookup n).getD (d.files c.tree n).isSome := by
  obtain ⟨request, attr, gen⟩ := r
  have hlookup : ∀ {m}, validName m = true →
      c.tree.lookup (d.path m) c.lookupMode = c.tree.walk (d.names ++ [m]) := by
    intro m hm
    rw [h.mode, h.holds.lookup hm]
  cases request with
  | create m =>
    have hm : validName m = true := hnames m (by simp [Request.names, Request.outcome])
    refine single_spec (v := some attr) h rfl (h.holds.upsertPath hm) ?_
    rintro a ⟨⟩
    rw [show attr.kind = .file from hattr]
    decide
  | write m offset written =>
    have hm : validName m = true := hnames m (by simp [Request.names, Request.outcome])
    simp only [Reply.mutation, RemoteRoot.process, RemoteRoot.write, hlookup hm]
    cases hid : c.tree.walk (d.names ++ [m]) with
    | some id => exact setAttributes_spec h rfl hid rfl rfl
    | none =>
      refine single_spec (v := some _) h rfl (h.holds.upsertPath hm) ?_
      rintro a ⟨⟩
      simp
  | truncate m size =>
    have hm : validName m = true := hnames m (by simp [Request.names, Request.outcome])
    simp only [Reply.mutation, RemoteRoot.process, RemoteRoot.truncate, hlookup hm]
    cases hid : c.tree.walk (d.names ++ [m]) with
    | some id => exact setAttributes_spec h rfl hid rfl rfl
    | none =>
      have := hneeds m rfl
      rw [Directory.files, paths, hid] at this
      cases this
  | unlink m =>
    have hm : validName m = true := hnames m (by simp [Request.names, Request.outcome])
    refine single_spec (v := none) h rfl ?_ fun _ ha => by cases ha
    have hb := h.holds.removePath hm
    rw [← h.mode] at hb
    exact hb
  | rename src dst =>
    simp only [Reply.mutation, RemoteRoot.process, RemoteRoot.rename]
    by_cases heq : src = dst
    · rw [if_pos (by rw [heq]), Request.outcome, if_pos heq]
      exact ⟨h, fun n => rfl⟩
    · have hs : validName src = true := hnames src (by simp [Request.names, Request.outcome, heq])
      have hd : validName dst = true := hnames dst (by simp [Request.names, Request.outcome, heq])
      have hsrc : d.files c.tree src ≠ none := by
        have := hneeds src (by simp [Request.needs, heq])
        exact Option.isSome_iff_ne_none.1 this
      have hb := h.holds.renameTree hs hd heq hsrc
      rw [Directory.normalizePath_path hs, Directory.normalizePath_path hd,
        if_neg fun hp => heq (Directory.path_inj hs hd hp)]
      rw [← h.mode] at hb
      refine ⟨⟨hb.holds h.holds (Directory.entries_update
        (Directory.entries_update h.holds.file (h.holds.file src)) ?_), h.mode⟩, fun n => ?_⟩
      · rintro a ⟨⟩
      · have hfiles : d.files (RemoteRoot.renameTree c.tree c.lookupMode (d.path src)
          (d.path dst)) = _ := hb.files
        dsimp only
        rw [RemoteRoot.noteMutation, RemoteRoot.noteMutation]
        dsimp only
        rw [hfiles, Request.outcome, if_neg heq, ← Option.isSome_iff_ne_none.2 hsrc]
        exact isSome_update (isSome_update rfl)

/-- **What the client does about a reply**, on the refusals. -/
theorem process_refusal {c : RemoteRoot} {r : Reply} (now : Int64) (hn : validName n = true)
    (hnames : ∀ m ∈ r.request.names, validName m = true) :
    let c' := c.process (r.mutation d now)
    d.refusal c' n =
        ((r.request.outcome.lookup n).map fun _ => r.generation).or (d.refusal c n) ∨
      d.refusal c' n = none := by
  have hnotes : (r.mutation d now).notes (d.path n) =
      (r.request.outcome.lookup n).map fun _ => r.generation := by
    obtain ⟨request, attr, gen⟩ := r
    have hsingle : ∀ {m v}, validName m = true →
        (if d.path n = normalizePath (d.path m) then some gen else none) =
          ([(m, v)].lookup n).map fun _ : Bool => gen := by
      intro m v hm
      rw [Directory.normalizePath_path hm, List.lookup_cons]
      by_cases hnm : n = m
      · rw [if_pos (by rw [hnm]), beq_iff_eq.2 hnm]
        rfl
      · rw [if_neg fun hp => hnm (Directory.path_inj hn hm hp), beq_eq_false_iff_ne.2 hnm]
        rfl
    cases request with
    | create m | write m | truncate m | unlink m =>
      exact hsingle (hnames m (by simp [Request.names, Request.outcome]))
    | rename src dst =>
      by_cases heq : src = dst
      · rw [Reply.mutation, RemoteRoot.Mutation.notes, if_neg (by simp [heq]), Request.outcome,
          if_pos heq]
        rfl
      · have hs : validName src = true := hnames src (by simp [Request.names, Request.outcome, heq])
        have hd : validName dst = true := hnames dst (by simp [Request.names, Request.outcome, heq])
        rw [Reply.mutation, RemoteRoot.Mutation.notes, Directory.normalizePath_path hs,
          Directory.normalizePath_path hd, Request.outcome, if_neg heq, List.lookup_cons,
          List.lookup_cons]
        have hne : d.path src ≠ d.path dst := fun hp => heq (Directory.path_inj hs hd hp)
        by_cases hns : n = src
        · rw [if_pos ⟨hne, .inl (by rw [hns])⟩, beq_iff_eq.2 hns]
          rfl
        · rw [beq_eq_false_iff_ne.2 hns]
          by_cases hnd : n = dst
          · rw [if_pos ⟨hne, .inr (by rw [hnd])⟩, beq_iff_eq.2 hnd]
            rfl
          · rw [beq_eq_false_iff_ne.2 hnd, if_neg]
            · rfl
            · rintro ⟨-, hp | hp⟩
              · exact hns (Directory.path_inj hn hs hp)
              · exact hnd (Directory.path_inj hn hd hp)
  refine (RemoteRoot.process_lookup (c := c) (r.mutation d now) (d.path n)).imp (fun h => ?_)
    And.right
  rw [← hnotes]
  exact h

/-! ### The simulation -/

/-- A step of the system, from the point of view of every file. -/
structure Simulates (d : Directory) (s s' : System) : Prop where
  sound : Sound d s'
  steps : ∀ n, validName n = true →
    Relation.ReflTransGen Replica.Step (s.replica d n) (s'.replica d n)

theorem simulates_of_frame (h : Sound d s')
    (hframe : ∀ n, validName n = true → s.replica d n = { s'.replica d n with
      noticed := (s.replica d n).noticed, taken := (s.replica d n).taken })
    (hn : ∀ n, validName n = true → (s.replica d n).noticed → (s'.replica d n).noticed)
    (ht : ∀ n, validName n = true → (s.replica d n).taken → (s'.replica d n).taken) :
    Simulates d s s' :=
  ⟨h, fun n hv => .single (.of_frame (hframe n hv) (hn n hv) (ht n hv))⟩

/-- A step of the sending half.  Nobody changes a file that is being written for the client. -/
theorem Feeds.simulates {changed : List Bytes} (hf : Feeds d changed s s') (h : Sound d s)
    (hok : ∀ r ∈ s.handler.request?, ∀ n ∈ changed, n ∉ r.names) : Simulates d s s' := by
  refine ⟨⟨hf.sends, by rw [hf.handler]; exact h.handler, by rw [hf.outstanding]; exact h.replies,
    by rw [hf.client]; exact h.mirrors⟩, fun n hv => .single ?_⟩
  have hrep : s'.replica d n =
      { s.replica d n with toFeed := (s'.feed d n).map Option.isSome } := by
    simp only [System.replica, hf.handler, hf.outstanding, hf.client]
  have hstep : (s.replica d n).toFeed.Step _ := (hf.step n hv).map Option.isSome
  rw [hrep]
  refine .of_feed hstep ?_
  by_cases hn : n ∈ changed
  · refine .inl ?_
    cases hr : s.handler.request? with
    | none => simp [System.replica, hr]
    | some r =>
      simp only [System.replica, hr, Option.bind_some]
      exact lookup_eq_none (hok r hr n hn)
  · exact .inr (congrArg Option.isSome (hf.disk n hn))

/-! The handler -/

theorem simulates_request {request : Request} (attr : Attributes) (cookie : UInt32)
    (h : Sound d s) (hh : s.handler = .idle)
    (hc : (request.change s.disk attr).allowed s.disk = true) :
    Simulates d s { s with
      disk := (request.change s.disk attr).apply s.disk
      watch := s.watch ++ (request.change s.disk attr).events d cookie
      handler := .changed request } := by
  obtain ⟨hnames, hdisk⟩ := allowed_valid h.disk hc
  have hreplies := h.replies
  rw [names_change] at hnames
  rw [System.outstanding, hh] at hreplies
  refine ⟨⟨{ h.toSends with disk := hdisk, watch := watch_append h.toSends hc cookie },
    ?_, hreplies, h.mirrors⟩, fun n hv => .single ?_⟩
  · rintro r ⟨⟩
    exact hnames
  · cases hout : request.outcome.lookup n with
    | some v =>
      have hn : n ∈ (request.change s.disk attr).names := by
        by_contra hn
        rw [names_change] at hn
        rw [lookup_eq_none hn] at hout
        cases hout
      have hrep : System.replica d n { s with
            disk := (request.change s.disk attr).apply s.disk
            watch := s.watch ++ (request.change s.disk attr).events d cookie
            handler := .changed request } =
          { s.replica d n with
            source := v
            noticed := (∃ ev ∈ s.watch ++ (request.change s.disk attr).events d cookie,
              ev.path = d.path n) ∨ (s.coalescer.pending.lookup (d.path n)).isSome = true ∨
              ∃ op ∈ s.flusher.planned, op.path = d.path n
            writing := some v } := by
        simp only [System.replica, System.feed, Feed.map, isSome_apply_change hc hout,
          Handler.request?, hh, hout, Option.bind_some, System.outstanding, Handler.reply?]
      rw [hrep]
      refine .write v ?_ (by simp [System.replica, hh, Handler.request?])
      obtain ⟨ev, hev, hpath⟩ := mem_events cookie hn
      exact .inl ⟨ev, List.mem_append_right _ hev, hpath⟩
    | none =>
      have hn : n ∉ (request.change s.disk attr).names := by
        rw [names_change]
        intro hn
        obtain ⟨⟨m, v⟩, hp, rfl⟩ := List.mem_map.1 hn
        rw [List.lookup_eq_none_iff] at hout
        simpa using hout _ hp
      refine .of_frame ?_ (Or.imp_left ?_) (fun ht => ht)
      · simp only [System.replica, System.feed, Feed.map, apply_of_notMem hn, System.outstanding,
          hh, Handler.request?, Handler.reply?, Option.bind_some, hout, Option.bind_none]
      · rintro ⟨ev, hev, hpath⟩
        exact ⟨ev, List.mem_append_left _ hev, hpath⟩

theorem simulates_loaded {r : Reply} (h : Sound d s) (hh : s.handler = .changed r.request)
    (hgen : r.generation = s.generation) (hattr : r.attr.kind = .file) :
    Simulates d s { s with handler := .loaded r } := by
  have hnames := h.handler r.request (by rw [hh]; rfl)
  have hout : System.outstanding { s with handler := .loaded r } = s.outstanding ++ [r] := by
    simp [System.outstanding, hh, Handler.reply?]
  refine ⟨⟨{ h.toSends with }, (fun _ hr => by cases hr), ?_, h.mirrors⟩, fun n hv => .single ?_⟩
  · rw [hout]
    intro r' hr'
    rcases List.mem_append.1 hr' with hr' | hr'
    · exact h.replies r' hr'
    · cases List.mem_singleton.1 hr'
      exact ⟨hnames, hattr⟩
  · have hacks : acks n (s.outstanding ++ [r]) = acks n s.outstanding ++
        ((r.request.outcome.lookup n).map fun v => (v, s.generation.toNat)).toList := by
      rw [acks, List.filterMap_append, ← hgen]
      cases hl : r.request.outcome.lookup n <;> simp [acks, hl]
    cases hl : r.request.outcome.lookup n with
    | some v =>
      have hrep : System.replica d n { s with handler := .loaded r } =
          { s.replica d n with
            writing := none
            acks := (s.replica d n).acks ++ [(v, (s.replica d n).generation)] } := by
        simp only [System.replica, System.feed, Feed.map, hout, hacks, hl, Handler.request?,
          Option.bind_none, Option.map_some, Option.toList_some]
      rw [hrep]
      exact .acknowledge (by simp [System.replica, hh, Handler.request?, hl])
    | none =>
      refine .of_frame ?_ (fun hn => hn) (fun ht => ht)
      simp only [System.replica, System.feed, Feed.map, hout, hacks, hl, hh, Handler.request?,
        Option.bind_some, Option.bind_none, Option.map_none, Option.toList_none, List.append_nil]

/-- A file that is gone before the reply is made: the request is rejected. -/
theorem simulates_rejected {request : Request} (h : Sound d s) (hh : s.handler = .changed request) :
    Simulates d s { s with handler := .idle } := by
  have hout : System.outstanding { s with handler := .idle } = s.outstanding := by
    simp [System.outstanding, hh, Handler.reply?]
  refine ⟨⟨{ h.toSends with }, (fun _ hr => by cases hr), by rw [hout]; exact h.replies, h.mirrors⟩,
    fun n hv => .single ?_⟩
  have hrep : System.replica d n { s with handler := .idle } =
      { s.replica d n with writing := none } := by
    simp only [System.replica, System.feed, Feed.map, hout, Handler.request?, Option.bind_none]
  rw [hrep]
  exact .abandon

theorem simulates_reply {r : Reply} (h : Sound d s) (hh : s.handler = .loaded r) :
    Simulates d s { s with channel := s.channel ++ [.reply r], handler := .idle } := by
  have hout : System.outstanding { s with
      channel := s.channel ++ [.reply r], handler := .idle } = s.outstanding := by
    simp [System.outstanding, hh, Handler.reply?, Message.reply?]
  refine simulates_of_frame ⟨{ h.toSends with channel := fun b hb => ?_ },
    (fun _ hr => by cases hr), by rw [hout]; exact h.replies, h.mirrors⟩
    (fun n _ => ?_) (fun n _ hn => hn) fun n _ ht => ht
  · rcases List.mem_append.1 hb with hb | hb
    · exact h.channel b hb
    · cases List.mem_singleton.1 hb
  · simp only [System.replica, System.feed, Feed.map, hout, hh, Handler.request?,
      List.flatMap_append, List.flatMap_cons, List.flatMap_nil, Message.values, List.append_nil]

/-! The client -/

theorem simulates_received {r : Reply} {rest : List Message} (h : Sound d s)
    (hch : s.channel = .reply r :: rest) :
    Simulates d s { s with channel := rest, replies := s.replies ++ [r] } := by
  have hout : System.outstanding { s with channel := rest, replies := s.replies ++ [r] } =
      s.outstanding := by
    simp [System.outstanding, hch, Message.reply?]
  have hsends : Sends d { s with channel := rest, replies := s.replies ++ [r] } :=
    { h.toSends with
      channel := fun b hb => h.channel b (by rw [hch]; exact List.mem_cons_of_mem _ hb) }
  refine simulates_of_frame ⟨hsends, h.handler, by rw [hout]; exact h.replies, h.mirrors⟩
    (fun n _ => ?_) (fun n _ hn => hn) fun n _ ht => ht
  simp only [System.replica, System.feed, Feed.map, hout, hch, List.flatMap_cons, Message.values,
    List.nil_append]

/-- The replica of a file with a client in the middle of a batch. -/
def midBatch (d : Directory) (n : Bytes) (r : Replica Bool) (c : RemoteRoot)
    (inflight : List (ℕ × Bool)) : Replica Bool :=
  { r with inflight, copy := (d.files c.tree n).isSome,
           refused := (d.refusal c n).map (·.toNat) }

theorem any_refused (d : Directory) (c : RemoteRoot) (n : Bytes) (gen : UInt64) :
    ((d.refusal c n).map (·.toNat)).any (gen.toNat ≤ ·) = (d.refusal c n).any (gen ≤ ·) := by
  cases d.refusal c n with
  | none => rfl
  | some acked => simp [UInt64.le_iff_toNat_le]

theorem steps_batch {c : RemoteRoot} {gen : UInt64} {ops : List InvalidationOp} (r : Replica Bool)
    (rest : List (ℕ × Bool)) (hm : d.Mirrors c) (hn : validName n = true)
    (hops : ∀ op ∈ ops, ∃ m, d.About m op)
    (hacks : ∀ op ∈ ops, op.path = d.path n → ∀ a ∈ r.acks, gen.toNat ≤ a.2)
    (applied : List RemoteRoot.AppliedChange) :
    let c' := (ops.foldl (RemoteRoot.applyOp gen) (c, applied)).1
    d.Mirrors c' ∧ Relation.ReflTransGen Replica.Step
      (midBatch d n r c (updates d n gen ops ++ rest)) (midBatch d n r c' rest) := by
  induction ops generalizing c applied with
  | nil => exact ⟨hm, .refl⟩
  | cons op ops ih =>
    obtain ⟨m, habout⟩ := hops op List.mem_cons_self
    have hspec := Directory.applyOp_spec hm habout gen applied
    have hnot : n ≠ m → op.path ≠ d.path n := fun hnm hp =>
      hnm (Directory.path_inj hn habout.valid (hp.symm.trans habout.path))
    generalize hp : RemoteRoot.applyOp gen (c, applied) op = p at hspec
    obtain ⟨c₁, applied₁⟩ := p
    dsimp only at hspec
    -- What the op does to the client, for the file at hand.
    have hone : d.Mirrors c₁ ∧ Relation.ReflTransGen Replica.Step
        (midBatch d n r c (updates d n gen (op :: ops) ++ rest))
        (midBatch d n r c₁ (updates d n gen ops ++ rest)) := by
      by_cases hnm : n = m
      · subst hnm
        have hup : updates d n gen (op :: ops) =
            (gen.toNat, (Directory.value op).isSome) :: updates d n gen ops := by
          rw [updates, values, List.filterMap_cons, if_pos habout.path]
          rfl
        have hstep := Replica.Step.receive
          (r := midBatch d n r c (updates d n gen (op :: ops) ++ rest)) (by rw [hup]; rfl)
          (hacks op List.mem_cons_self habout.path)
        have hany : (midBatch d n r c (updates d n gen (op :: ops) ++ rest)).refused.any
            (gen.toNat ≤ ·) = (d.refusal c n).any (gen ≤ ·) := any_refused d c n gen
        rw [Replica.receive, hany] at hstep
        split_ifs at hspec hstep with href
        · cases hspec
          exact ⟨hm, .single hstep⟩
        · obtain ⟨hm₁, hfiles, hrefusal⟩ := hspec
          refine ⟨hm₁, .single ?_⟩
          have hcopy : (d.files c₁.tree n).isSome = (Directory.value op).isSome := by
            rw [hfiles, Function.update_self]
          have hnone : d.refusal c₁ n = none := by rw [hrefusal n hn, if_pos rfl]
          have heq : midBatch d n r c₁ (updates d n gen ops ++ rest) =
              { midBatch d n r c (updates d n gen (op :: ops) ++ rest) with
                inflight := updates d n gen ops ++ rest
                copy := (Directory.value op).isSome
                refused := none } := by
            simp only [midBatch, hcopy, hnone, Option.map_none]
          rw [heq]
          exact hstep
      · have hup : updates d n gen (op :: ops) = updates d n gen ops := by
          rw [updates, values, List.filterMap_cons, if_neg (hnot hnm)]
          rfl
        rw [hup]
        split_ifs at hspec
        · cases hspec
          exact ⟨hm, .refl⟩
        · obtain ⟨hm₁, hfiles, hrefusal⟩ := hspec
          have heq : midBatch d n r c₁ (updates d n gen ops ++ rest) =
              midBatch d n r c (updates d n gen ops ++ rest) := by
            simp only [midBatch, hfiles, Function.update_of_ne hnm, hrefusal n hn, if_neg hnm]
          rw [heq]
          exact ⟨hm₁, .refl⟩
    obtain ⟨hm', hsteps⟩ := ih hone.1 (fun op' hop' => hops op' (List.mem_cons_of_mem _ hop'))
      (fun op' hop' => hacks op' (List.mem_cons_of_mem _ hop')) applied₁
    rw [List.foldl_cons, hp]
    exact ⟨hm', hone.2.trans hsteps⟩

theorem simulates_batch {b : InvalidationBatch} {rest : List Message} (h : Sound d s)
    (hch : s.channel = .batch b :: rest)
    (hok : ∀ op ∈ b.ops, ∀ r ∈ s.outstanding, ∀ n ∈ r.request.names, op.path = d.path n →
      b.generation ≤ r.generation) :
    Simulates d s
      { s with channel := rest, client := (s.client.applyInvalidation b).1 } := by
  have hout : System.outstanding { s with
      channel := rest, client := (s.client.applyInvalidation b).1 } = s.outstanding := by
    rw [System.outstanding, System.outstanding, hch]
    rfl
  have hops := h.channel b (by rw [hch]; exact List.mem_cons_self)
  have hacks : ∀ n, ∀ op ∈ b.ops, op.path = d.path n → ∀ a ∈ acks n s.outstanding,
      b.generation.toNat ≤ a.2 := by
    intro n op hop hp a ha
    obtain ⟨r, hr, ha⟩ := List.mem_filterMap.1 ha
    obtain ⟨v, hv, rfl⟩ := Option.map_eq_some_iff.1 ha
    refine UInt64.le_iff_toNat_le.1 (hok op hop r hr n ?_ hp)
    by_contra hn
    rw [lookup_eq_none hn] at hv
    cases hv
  have hfold : ∀ n, validName n = true → _ := fun n hn => steps_batch (s.replica d n)
    (System.replica d n { s with channel := rest }).inflight h.mirrors hn hops (hacks n) []
  generalize hc' : (b.ops.foldl (RemoteRoot.applyOp b.generation) (s.client, [])).1 = c' at hfold
  have hclient : (s.client.applyInvalidation b).1 = c'.record b := by
    rw [RemoteRoot.applyInvalidation, hc']
  refine ⟨⟨{ h.toSends with channel := fun b' hb' => h.channel b' ?_ }, h.handler,
    by rw [hout]; exact h.replies, ?_⟩, fun n hn => ?_⟩
  · rw [hch]
    exact List.mem_cons_of_mem _ hb'
  · obtain ⟨hm, -⟩ := hfold (bytes "x") (by decide)
    rw [hclient]
    exact ⟨by rw [RemoteRoot.record_tree]; exact hm.holds,
      by rw [RemoteRoot.record_lookupMode]; exact hm.mode⟩
  · have hsteps := (hfold n hn).2
    have hbefore : midBatch d n (s.replica d n) s.client (updates d n b.generation b.ops ++
        (System.replica d n { s with channel := rest }).inflight) = s.replica d n := by
      simp only [midBatch, System.replica, System.feed, Feed.map, hch, List.flatMap_cons,
        Message.values, updates, List.map_append, List.append_assoc]
    have hafter : midBatch d n (s.replica d n) c'
        (System.replica d n { s with channel := rest }).inflight =
        System.replica d n { s with
          channel := rest, client := (s.client.applyInvalidation b).1 } := by
      simp only [System.replica, System.feed, Feed.map, hout]
      simp only [midBatch, hclient, RemoteRoot.record_tree, Directory.refusal,
        RemoteRoot.record_localMutations]
    rw [hbefore, hafter] at hsteps
    exact hsteps

theorem simulates_process {i : ℕ} {r : Reply} (now : Int64) (h : Sound d s)
    (hi : s.replies[i]? = some r)
    (hok : ∀ n ∈ r.request.needs, (d.files s.client.tree n).isSome = true) :
    Simulates d s { s with
      client := s.client.process (r.mutation d now)
      replies := s.replies.eraseIdx i } := by
  -- The reply among the outstanding ones.
  obtain ⟨before, behind, hout, hout'⟩ : ∃ before behind, s.outstanding = before ++ r :: behind ∧
      System.outstanding { s with
        client := s.client.process (r.mutation d now)
        replies := s.replies.eraseIdx i } = before ++ behind := by
    obtain ⟨hlt, hget⟩ := List.getElem?_eq_some_iff.1 hi
    refine ⟨s.replies.take i, s.replies.drop (i + 1) ++ s.channel.filterMap Message.reply? ++
      s.handler.reply?.toList, ?_, ?_⟩
    · have hsplit : s.replies = s.replies.take i ++ r :: s.replies.drop (i + 1) := by
        rw [← hget, List.getElem_cons_drop, List.take_append_drop]
      rw [System.outstanding]
      nth_rewrite 1 [hsplit]
      simp
    · rw [System.outstanding, List.eraseIdx_eq_take_drop_succ]
      simp
  obtain ⟨hnames, hattr⟩ := h.replies r (by rw [hout]; simp)
  obtain ⟨hmirrors, hfiles⟩ := process_spec h.mirrors now hnames hattr hok
  refine ⟨⟨{ h.toSends with }, h.handler, fun r' hr' => h.replies r' ?_, hmirrors⟩, fun n hn => ?_⟩
  · rw [hout'] at hr'
    rw [hout]
    rcases List.mem_append.1 hr' with hr' | hr'
    · exact List.mem_append_left _ hr'
    · exact List.mem_append_right _ (List.mem_cons_of_mem _ hr')
  · have hrep : System.replica d n { s with
          client := s.client.process (r.mutation d now)
          replies := s.replies.eraseIdx i } =
        { s.replica d n with
          acks := acks n (before ++ behind)
          copy := (r.request.outcome.lookup n).getD (d.files s.client.tree n).isSome
          refused := (d.refusal (s.client.process (r.mutation d now)) n).map (·.toNat) } := by
      simp only [System.replica, System.feed, Feed.map, hout', hfiles]
    rw [hrep]
    have hrefusal := process_refusal (d := d) (c := s.client) now hn hnames
    cases hl : r.request.outcome.lookup n with
    | some v =>
      have hacks : acks n s.outstanding =
          acks n before ++ (v, r.generation.toNat) :: acks n behind := by
        simp [hout, acks, hl]
      have hacks' : acks n (before ++ behind) = acks n before ++ acks n behind :=
        List.filterMap_append
      have hsettle := Replica.Step.settle (r := s.replica d n) hacks
      rw [hl] at hrefusal
      rw [hacks']
      rcases hrefusal with hrefusal | hrefusal
      · rw [hrefusal]
        exact .single hsettle
      · rw [hrefusal]
        exact .tail (.single hsettle) .forget
    | none =>
      have hacks : acks n (before ++ behind) = acks n s.outstanding := by
        simp [hout, acks, hl]
      rw [hl] at hrefusal
      rw [hacks]
      rcases hrefusal with hrefusal | hrefusal
      · rw [hrefusal]
        exact .refl
      · rw [hrefusal]
        exact .single .forget

/-- **Every orderly step is some steps of the replica of each file.** -/
theorem simulates_next {a : Action} (h : Sound d s) (hs : System.next d opts s a = some s')
    (hok : Orderly d s a) : Simulates d s s' := by
  cases a with
  | external change cookie => exact (feeds_next h.toSends rfl hs nofun).simulates h hok
  | assign => exact (feeds_next h.toSends rfl hs fun _ => hok).simulates h fun _ _ _ => nofun
  | watch | take | resolve | finish | send | done =>
    exact (feeds_next h.toSends rfl hs nofun).simulates h fun _ _ _ => nofun
  | request request attr cookie =>
    rw [System.next] at hs
    split at hs
    · rename_i hh
      dsimp only at hs
      split_ifs at hs with hc
      cases hs
      exact simulates_request attr cookie h hh hc
    · cases hs
  | load =>
    rw [System.next] at hs
    split at hs
    · rename_i m hh
      cases hdisk : s.disk m with
      | none =>
        rw [hdisk] at hs
        cases hs
        exact simulates_rejected h hh
      | some attr =>
        rw [hdisk] at hs
        cases hs
        exact simulates_loaded h hh rfl (h.disk m attr hdisk).2
    · rename_i request _ hh
      cases hs
      exact simulates_loaded h hh rfl rfl
    · cases hs
  | reply =>
    rw [System.next] at hs
    split at hs
    · rename_i r hh
      cases hs
      exact simulates_reply h hh
    · cases hs
  | receive =>
    rw [System.next] at hs
    split at hs
    · cases hs
    · rename_i b rest hch
      cases hs
      exact simulates_batch h hch (hok b rest hch)
    · rename_i r rest hch
      cases hs
      exact simulates_received h hch
  | process i now =>
    rw [System.next] at hs
    cases hi : s.replies[i]? with
    | none =>
      rw [hi] at hs
      cases hs
    | some r =>
      rw [hi] at hs
      cases hs
      exact simulates_process now h hi (hok r hi)

/-! ### Agreement -/

theorem Initial.sound (h : Initial d s) : Sound d s where
  toSends := h.sends
  handler := by
    rw [h.handler]
    exact nofun
  replies := by
    rw [h.outstanding]
    exact nofun
  mirrors := h.mirrors

theorem Initial.consistent (h : Initial d s) (n : Bytes) : (s.replica d n).Consistent := by
  have hacks : (s.replica d n).acks = [] := by rw [System.replica, h.outstanding]; rfl
  have hrefused : (s.replica d n).refused = none := by
    rw [System.replica, Directory.refusal, h.mutations]
    rfl
  have hwriting : (s.replica d n).writing = none := by rw [System.replica, h.handler]; rfl
  refine ⟨?_, ?_, ?_, .copied ?_ (h.agrees n) ⟨?_, ?_⟩⟩
  · rw [hacks]
    exact nofun
  · rw [hrefused]
    exact nofun
  · rw [hwriting]
    exact nofun
  · exact List.map_eq_nil_iff.2 (h.feed d n).2.2
  · rw [hacks]
    exact nofun
  · rw [hrefused]
    exact nofun

theorem sound_consistent {as : List Action} (hrun : (system d opts).ExecWith (Orderly d) as s) :
    Sound d s ∧ ∀ n, validName n = true → (s.replica d n).Consistent := by
  refine hrun.invariant (I := fun s => Sound d s ∧ ∀ n, validName n = true →
    (s.replica d n).Consistent) (fun s h => ⟨h.sound, fun n _ => h.consistent n⟩) ?_
  intro s a s' ⟨hsound, hcons⟩ hstep hok
  have hsim := simulates_next hsound hstep hok
  exact ⟨hsim.sound, fun n hn => (hcons n hn).steps (hsim.steps n hn)⟩

/-- **Agreement.**  In every run of orderly steps, in every state with no pending event, no message
in flight and no unprocessed reply, the mirror contains a path of the directory if and only if the
disk does. -/
theorem agreement (d : Directory) (opts : RootServer.Options) (as : List Action) (s : System)
    (hrun : (system d opts).ExecWith (Orderly d) as s) (hquiet : Quiet s) (n : Bytes) :
    (d.files s.client.tree n).isSome = true ↔ (s.disk n).isSome = true := by
  obtain ⟨hsound, hcons⟩ := sound_consistent hrun
  by_cases hn : validName n = true
  · obtain ⟨hnoticed, htaken, hinflight⟩ := hquiet.feed d n
    have hagree : (s.replica d n).copy = (s.replica d n).source :=
      (hcons n hn).agrees hnoticed htaken (List.map_eq_nil_iff.2 hinflight)
    exact Bool.eq_iff_iff.1 hagree
  · -- A name that no file can have.
    refine iff_of_false (fun h => hn ?_) fun h => hn ?_
    · exact hsound.mirrors.holds.wf.validName_of_paths (Option.isSome_iff_ne_none.1 h)
    · obtain ⟨a, ha⟩ := Option.isSome_iff_exists.1 h
      exact (hsound.disk n a ha).1

/-- The client creates `q`; first the reply and then the flush of `q` reach it. -/
theorem agreement_create :
    ∃ as s, (system ⟨[], nofun⟩ {}).ExecWith (Orderly ⟨[], nofun⟩) as s ∧ Quiet s ∧
      (s.disk (bytes "q")).isSome = true ∧
      ((Directory.files ⟨[], nofun⟩ s.client.tree (bytes "q")).isSome = true ↔
        (s.disk (bytes "q")).isSome = true) := by
  have hstart : (system ⟨[], nofun⟩ {}).ExecWith (Orderly ⟨[], nofun⟩) [] oneFile :=
    .start initial_oneFile
  have hrequest := hstart.step (.request (.create (bytes "q")) {} 0) trivial rfl
  have hreply := (hrequest.step .load trivial rfl).step .reply trivial rfl
  have hreceive := hreply.step .receive (by rintro b rest ⟨⟩) rfl
  have hprocess := hreceive.step (.process 0 0) (by rintro r ⟨⟩; exact nofun) rfl
  have htake := (hprocess.step (.watch 0) trivial rfl).step .take trivial rfl
  have hassign := htake.step .assign (show 1 + 1 < 2 ^ 64 by decide) rfl
  have hresolve := (hassign.step .resolve trivial rfl).step .finish trivial rfl
  have hsend := (hresolve.step .send trivial rfl).step .done trivial rfl
  have hrun := hsend.step .receive (by rintro b rest ⟨⟩ op hop; exact nofun) rfl
  refine ⟨_, _, hrun, ?_, rfl, agreement _ _ _ _ hrun ?_ _⟩ <;>
    exact ⟨rfl, rfl, rfl, rfl, rfl, rfl⟩

end Agreement

end WslDrive
