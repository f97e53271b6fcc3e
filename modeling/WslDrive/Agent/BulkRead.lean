import WslDrive.Agent.ReadPath

/-!
# Bulk reads

`send_read_many` reads one file after the other and leaves out what does not fit; the client matches
the items of the reply with its paths by their positions, and puts them into the cache with the
versions that it collected at the same positions.

* `ReadPath.readNext_eq_none_iff` — what is left out;
* `ReadPath.readMany_eq` — a bulk request is answered item by item;
* `ReadPath.lookup_store` — where an entry of the cache comes from;
* `ReadPath.bulkRead_agrees` — bulk reads agree with single reads, and what `read` and the
  prefetcher put into the cache is the file that its key names.
-/

namespace WslDrive

namespace ReadPath

open MetadataTree Path Proto RemoteRoot

variable {a : Agent} {c : RemoteRoot} {s : ReadCache} {paths : List Bytes} {path key : Bytes}
  {data : Bytes} {f : File} {total : ℕ} {b : Batch}

/-! ### The agent -/

/-- Why a path has no item in a bulk reply. -/
inductive Skipped (a : Agent) (total : ℕ) (path : Bytes) : Prop where
  | refused (e : Errc) (h : Resolve.resolve a.root (normalizePath path) = .error e)
  | unreadable (h : ∀ f, a.located path = some f → f.opens = false)
  | large (f : File) (h : a.located path = some f) (hlarge : f.contents.length > 16 * 2 ^ 20)
  | full (f : File) (h : a.located path = some f)
    (hfull : total + f.contents.length > kMaxPayload - 64 * 2 ^ 10)

theorem readNext_eq (total : ℕ) (path : Bytes) :
    a.readNext total path = (a.located path).bind fun f =>
      if f.contents.length ≤ kMaxBulkFile ∧ total + f.contents.length ≤ kBulkCap ∧ f.opens = true
      then some f.contents else none := by
  rw [Agent.readNext, Agent.located]
  cases Resolve.resolve a.root (normalizePath path) with
  | error e => rfl
  | ok full =>
    dsimp only
    cases a.file full with
    | none => rfl
    | some f =>
      rw [Option.bind_some]
      dsimp only
      cases f.opens with
      | false => simp
      | true =>
        simp only [Bool.not_true, Bool.false_eq_true, if_false, and_true, gt_iff_lt, ← not_le,
          ← not_and_or]
        by_cases hfit : f.contents.length ≤ kMaxBulkFile ∧ total + f.contents.length ≤ kBulkCap
        · rw [if_neg (not_not.2 hfit), if_pos hfit]
        · rw [if_pos hfit, if_neg hfit]

theorem readNext_eq_some_iff :
    a.readNext total path = some data ↔ ∃ f, a.located path = some f ∧ f.contents = data ∧
      data.length ≤ kMaxBulkFile ∧ total + data.length ≤ kBulkCap ∧ f.opens = true := by
  rw [readNext_eq, Option.bind_eq_some_iff]
  refine exists_congr fun f => and_congr_right fun _ => ?_
  rw [Option.ite_none_right_eq_some, Option.some.injEq, and_comm]
  exact and_congr_right fun heq => by rw [heq]

/-- **What is left out**: a path that is refused, a file that cannot be read, or that is too large,
by itself or behind those before it. -/
theorem readNext_eq_none_iff : a.readNext total path = none ↔ Skipped a total path := by
  rw [readNext_eq]
  cases hf : a.located path with
  | none =>
    exact iff_of_true rfl (.unreadable fun f hf' => by rw [hf] at hf'; cases hf')
  | some f =>
    rw [Option.bind_some, ite_eq_right_iff]
    constructor
    · intro hnot
      by_cases hlarge : f.contents.length ≤ kMaxBulkFile
      · by_cases hfull : total + f.contents.length ≤ kBulkCap
        · refine .unreadable fun f' hf' => ?_
          obtain rfl : f = f' := Option.some.inj (hf.symm.trans hf')
          exact Bool.eq_false_iff.2 fun hopens => by cases hnot ⟨hlarge, hfull, hopens⟩
        · exact .full f hf (Nat.not_le.1 hfull)
      · exact .large f hf (Nat.not_le.1 hlarge)
    · rintro hskip ⟨hlarge, hfull, hopens⟩
      have hsame : ∀ f', a.located path = some f' → f' = f := fun f' hf' =>
        Option.some.inj (hf'.symm.trans hf)
      cases hskip with
      | refused e he =>
        rw [Agent.located, he] at hf
        cases hf
      | unreadable h =>
        rw [h f hf] at hopens
        cases hopens
      | large f' hf' hlarge' =>
        rw [hsame f' hf'] at hlarge'
        exact absurd hlarge (Nat.not_le.2 hlarge')
      | full f' hf' hfull' =>
        rw [hsame f' hf'] at hfull'
        exact absurd hfull (Nat.not_le.2 hfull')

/-- The bytes in some results. -/
def bytesOf (datas : List (Option Bytes)) : ℕ := (datas.map fun d => (d.getD []).length).sum

theorem length_readLoop (total : ℕ) (paths : List Bytes) :
    (a.readLoop total paths).length = paths.length := by
  induction paths generalizing total with
  | nil => rfl
  | cons path paths ih => rw [Agent.readLoop, List.length_cons, ih, List.length_cons]

/-- **Each path is read on its own**, given the bytes of those before it. -/
theorem getElem?_readLoop (total : ℕ) (paths : List Bytes) (i : ℕ) :
    (a.readLoop total paths)[i]? =
      paths[i]?.map (a.readNext (total + bytesOf ((a.readLoop total paths).take i))) := by
  induction paths generalizing total i with
  | nil => rfl
  | cons path paths ih =>
    rw [Agent.readLoop]
    cases i with
    | zero => rfl
    | succ i =>
      rw [List.getElem?_cons_succ, List.getElem?_cons_succ, ih, List.take_succ_cons]
      simp only [bytesOf, List.map_cons, List.sum_cons, Nat.add_assoc]

theorem bytesOf_readLoop (htotal : total ≤ kBulkCap) (paths : List Bytes) :
    total + bytesOf (a.readLoop total paths) ≤ kBulkCap := by
  induction paths generalizing total with
  | nil => exact htotal
  | cons path paths ih =>
    rw [Agent.readLoop]
    have hnext : total + ((a.readNext total path).getD []).length ≤ kBulkCap := by
      cases hr : a.readNext total path with
      | none => exact htotal
      | some data =>
        obtain ⟨f, -, -, -, hfull, -⟩ := readNext_eq_some_iff.1 hr
        exact hfull
    have hrest := ih hnext
    simp only [bytesOf, List.map_cons, List.sum_cons] at hrest ⊢
    omega

theorem length_le_of_mem_readLoop (h : some data ∈ a.readLoop total paths) :
    data.length ≤ kMaxBulkFile := by
  obtain ⟨i, hi⟩ := List.mem_iff_getElem?.1 h
  rw [getElem?_readLoop, Option.map_eq_some_iff] at hi
  obtain ⟨path, -, hr⟩ := hi
  obtain ⟨f, -, -, hlarge, -⟩ := readNext_eq_some_iff.1 hr
  exact hlarge

theorem length_item_lt {it : ReadManyItem} (h : it ∈ (a.sendReadMany ⟨paths⟩).items) :
    it.data.length < 2 ^ 28 := by
  obtain ⟨d, hd, rfl⟩ := List.mem_map.1 h
  cases d with
  | none => exact Nat.two_pow_pos 28
  | some data =>
    have hbound : kMaxBulkFile < 2 ^ 28 := by norm_num [kMaxBulkFile]
    exact lt_of_le_of_lt (length_le_of_mem_readLoop hd) hbound

theorem length_sendReadMany (hn : paths.length ≤ kMaxReadManyPaths) :
    (writeReadManyResponse (a.sendReadMany ⟨paths⟩)).length ≤ kMaxPayload := by
  have hlen : (writeReadManyResponse (a.sendReadMany ⟨paths⟩)).length ≤ _ :=
    length_readManyResponse_le fun it => length_item_lt
  have hsum : ∀ datas : List (Option Bytes),
      ((datas.map Agent.item).map fun it => it.data.length + 5).sum =
        bytesOf datas + 5 * datas.length := by
    intro datas
    induction datas with
    | nil => rfl
    | cons d datas ih =>
      have hd : (Agent.item d).data.length = (d.getD []).length := by cases d <;> rfl
      simp only [bytesOf, List.map_cons, List.sum_cons, List.length_cons] at ih ⊢
      omega
  have hcap : 0 + bytesOf (a.readLoop 0 paths) ≤ kBulkCap := bytesOf_readLoop (Nat.zero_le _) paths
  have hitems : (a.sendReadMany ⟨paths⟩).items = (a.readLoop 0 paths).map Agent.item := rfl
  rw [hitems, hsum, length_readLoop] at hlen
  have hconst : kMaxPayload = 67108864 ∧ kBulkCap = 67043328 ∧ kMaxReadManyPaths = 4096 :=
    ⟨rfl, rfl, rfl⟩
  omega

/-! ### The request -/

theorem sized_of_mem (h : (writeReadManyRequest ⟨paths⟩).length ≤ kMaxPayload)
    (hpath : path ∈ paths) : Sized path := by
  have hlen : path.length ≤ (paths.flatMap Writer.string).length := by
    obtain ⟨l₁, l₂, rfl⟩ := List.append_of_mem hpath
    rw [List.flatMap_append, List.flatMap_cons, Writer.string]
    simp only [List.length_append]
    omega
  rw [writeReadManyRequest, List.length_append, kMaxPayload] at h
  dsimp only at h
  rw [Sized]
  omega

/-- **A bulk request** that fits a frame is answered path by path. -/
theorem readMany_eq (hn : paths.length ≤ kMaxReadManyPaths)
    (hfit : (writeReadManyRequest ⟨paths⟩).length ≤ kMaxPayload) :
    readMany a paths = .ok (a.readLoop 0 paths) := by
  have hrequest : parse readReadManyRequest (writeReadManyRequest ⟨paths⟩) = .ok ⟨paths⟩ :=
    parse_of_reads (reads_readManyRequest hn fun p => sized_of_mem hfit)
  have hreply : parse readReadManyResponse (writeReadManyResponse (a.sendReadMany ⟨paths⟩)) =
      .ok (a.sendReadMany ⟨paths⟩) := by
    refine parse_of_reads (reads_readManyResponse ?_ fun it hit => ?_)
    · rw [Agent.sendReadMany, List.length_map, length_readLoop]
      exact lt_of_le_of_lt hn (by decide)
    · exact (length_item_lt hit).trans (by decide)
  rw [readMany, request, if_neg (Nat.not_lt.2 hfit), Agent.handleReadMany, hrequest]
  simp only [bind, Except.bind, pure, Except.pure]
  rw [if_neg (Nat.not_lt.2 (length_sendReadMany hn))]
  simp only [hreply, Except.ok.injEq]
  -- both lists have an item for each path
  have hlen : (a.readLoop 0 paths).length = paths.length := length_readLoop 0 paths
  refine List.ext_getElem? fun i => ?_
  rw [List.getElem?_map]
  rcases Nat.lt_or_ge i paths.length with hi | hi
  · rw [List.getElem?_range hi, Option.map_some, Agent.sendReadMany, List.getElem?_map,
      List.getElem?_eq_getElem (hlen ▸ hi)]
    cases (a.readLoop 0 paths)[i] <;> rfl
  · rw [List.getElem?_eq_none (by rwa [List.length_range]), List.getElem?_eq_none (hlen ▸ hi)]
    rfl

theorem parse_readManyRequest_of_lt (hn : kMaxReadManyPaths < paths.length)
    (hfit : (writeReadManyRequest ⟨paths⟩).length ≤ kMaxPayload) :
    ∃ e, parse readReadManyRequest (writeReadManyRequest ⟨paths⟩) = .error e := by
  have hcount : (UInt64.ofNat paths.length).toNat = paths.length := by
    refine toNat_ofNat_length ?_
    have hlen := length_le_length_flatMap paths fun p _ => length_string_pos p
    rw [writeReadManyRequest, List.length_append, kMaxPayload] at hfit
    dsimp only at hfit
    omega
  have hread := reads_varint (UInt64.ofNat paths.length) (paths.flatMap Writer.string)
  rw [parse, readReadManyRequest, writeReadManyRequest, Codec.run_bind_ok hread,
    Codec.run_remaining_bind, hcount]
  split_ifs
  · exact ⟨_, rfl⟩
  · exact ⟨_, rfl⟩

theorem readMany_eq_ok {datas : List (Option Bytes)} (h : readMany a paths = .ok datas) :
    datas = a.readLoop 0 paths := by
  rcases Nat.lt_or_ge kMaxPayload (writeReadManyRequest ⟨paths⟩).length with hfit | hfit
  · rw [readMany, request, if_pos hfit] at h
    cases h
  · rcases Nat.lt_or_ge kMaxReadManyPaths paths.length with hn | hn
    · obtain ⟨e, he⟩ := parse_readManyRequest_of_lt hn hfit
      rw [readMany, request, if_neg (Nat.not_lt.2 hfit), Agent.handleReadMany, he] at h
      cases h
    · rw [readMany_eq hn hfit] at h
      exact (Except.ok.inj h).symm

/-! ### The cache -/

/-- The mirror has a file at a path, with this version. -/
def Versioned (c : RemoteRoot) (path : Bytes) (version : Int64 × UInt64) : Prop :=
  ∃ id, c.tree.lookup path c.lookupMode = some id ∧ (c.tree.nodes id).attr.kind = .file ∧
    (c.tree.nodes id).attr.mtimeNs = version.1 ∧ (c.tree.nodes id).attr.size = version.2

/-- **Where an entry comes from** after a batch: it was there, or it is the item of a position, with
its version. -/
theorem lookup_store {versions : List (Int64 × UInt64)} {datas : List (Option Bytes)}
    {e : ReadCache.CacheEntry} (hs : s.Consistent)
    (he : (store paths versions datas s).rcache.lookup key = some e) :
    s.rcache.lookup key = some e ∨ ∃ i : ℕ, paths[i]? = some key ∧
      versions[i]? = some (e.mtimeNs, e.size) ∧ datas[i]? = some (some e.data) := by
  induction paths generalizing versions datas s with
  | nil => exact .inl he
  | cons path paths ih =>
    cases versions with
    | nil => exact .inl he
    | cons version versions =>
      cases datas with
      | nil => exact .inl he
      | cons d datas =>
        have hlater : ∀ {P : Prop}, (P ∨ ∃ i : ℕ, paths[i]? = some key ∧
            versions[i]? = some (e.mtimeNs, e.size) ∧ datas[i]? = some (some e.data)) →
            P ∨ ∃ i : ℕ, (path :: paths)[i]? = some key ∧
              (version :: versions)[i]? = some (e.mtimeNs, e.size) ∧
              (d :: datas)[i]? = some (some e.data) := by
          rintro P (hp | ⟨i, hi⟩)
          · exact .inl hp
          · exact .inr ⟨i + 1, by simpa only [List.getElem?_cons_succ] using hi⟩
        cases d with
        | none => exact hlater (ih hs he)
        | some data =>
          rcases ih (hs.step (.cachePut path version.1 version.2 data)) he with hput | hi
          · rcases hs.lookup_step hput with hold | hnew
            · exact .inl hold
            · obtain ⟨rfl, hmtime, hsize, rfl⟩ := ReadCache.Op.cachePut.inj hnew
              exact .inr ⟨0, rfl, by rw [← hmtime, ← hsize]; rfl, rfl⟩
          · exact hlater (.inr hi)

theorem consistent_store {versions : List (Int64 × UInt64)} {datas : List (Option Bytes)}
    (hs : s.Consistent) : (store paths versions datas s).Consistent := by
  induction paths generalizing versions datas s with
  | nil => exact hs
  | cons path paths ih =>
    cases versions with
    | nil => exact hs
    | cons version versions =>
      cases datas with
      | nil => exact hs
      | cons d datas =>
        cases d with
        | none => exact ih hs
        | some data => exact ih (hs.step (.cachePut path version.1 version.2 data))

/-- What bulk reads leave in a cache: what was there, and whole files that their keys name, under
their versions in the mirror. -/
structure Fetched (c : RemoteRoot) (a : Agent) (s s' : ReadCache) : Prop where
  consistent : s'.Consistent
  entries : ∀ key e, s'.rcache.lookup key = some e → s.rcache.lookup key = some e ∨
    (Versioned c key (e.mtimeNs, e.size) ∧ ∃ f, a.located key = some f ∧ e.data = f.contents)

theorem Fetched.refl (hs : s.Consistent) : Fetched c a s s := ⟨hs, fun _ _ he => .inl he⟩

/-- **A batch**: the positions of paths, versions and items agree. -/
theorem Fetched.store {s' : ReadCache} {versions : List (Int64 × UInt64)}
    {datas : List (Option Bytes)} (h : Fetched c a s s')
    (hb : List.Forall₂ (Versioned c) paths versions) (hread : readMany a paths = .ok datas) :
    Fetched c a s (store paths versions datas s') := by
  refine ⟨consistent_store h.consistent, fun key e he => ?_⟩
  rcases lookup_store h.consistent he with hold | ⟨i, hpath, hversion, hdata⟩
  · exact h.entries key e hold
  · right
    constructor
    · obtain ⟨hi, rfl⟩ := List.getElem?_eq_some_iff.1 hpath
      obtain ⟨hi', heq⟩ := List.getElem?_eq_some_iff.1 hversion
      rw [← heq]
      exact hb.get hi hi'
    · rw [readMany_eq_ok hread, getElem?_readLoop, hpath, Option.map_some,
        Option.some.injEq] at hdata
      obtain ⟨f, hf, hcontents, -⟩ := readNext_eq_some_iff.1 hdata
      exact ⟨f, hf, hcontents.symm⟩

/-! ### Versions -/

theorem versioned_push (h : List.Forall₂ (Versioned c) b.paths b.versions) {mtimeNs : Int64}
    {size : UInt64} (hp : Versioned c path (mtimeNs, size)) :
    List.Forall₂ (Versioned c) (b.push path mtimeNs size).paths
      (b.push path mtimeNs size).versions :=
  List.rel_append h (.cons hp .nil)

theorem versioned_childPath {dir : Bytes} {did child : NodeId} (h : c.tree.WF)
    (hdir : c.tree.lookup dir .exact = some did) (hchild : child ∈ c.tree.children did)
    (hfile : (c.tree.nodes child).attr.kind = .file) :
    Versioned c (childPath c dir child)
      ((c.tree.nodes child).attr.mtimeNs, (c.tree.nodes child).attr.size) :=
  ⟨child, lookup_of_exact (h.lookup_child hdir (h.mem_children.1 hchild)) _, hfile, rfl, rfl⟩

theorem versioned_key (h : c.tree.WF) (hfile : (c.resolveForRead path).isFile = true) :
    Versioned c ((c.resolveForRead path).key path)
      ((c.resolveForRead path).mtimeNs, (c.resolveForRead path).size) := by
  obtain ⟨id, hexact, ht⟩ | ⟨id, hid, ht⟩ | ht := c.resolveForRead_cases path
  · rw [ht] at hfile ⊢
    exact ⟨id, lookup_of_exact hexact _, by simpa [targetOf] using hfile, rfl, rfl⟩
  · rw [ht] at hfile ⊢
    refine ⟨id, ?_, by simpa [targetOf] using hfile, rfl, rfl⟩
    rw [ReadTarget.key]
    split_ifs
    · exact hid
    · exact lookup_of_exact (h.lookup_pathOf (h.lookup_live hid)) _
  · rw [ht] at hfile
    cases hfile

theorem versioned_siblings (h : c.tree.WF) {target : Bytes} {mtimeNs : Int64} {size : UInt64}
    (ht : Versioned c target (mtimeNs, size)) :
    List.Forall₂ (Versioned c) (siblings c target mtimeNs size).paths
      (siblings c target mtimeNs size).versions := by
  have hone : List.Forall₂ (Versioned c) [target] [(mtimeNs, size)] := .cons ht .nil
  rw [siblings]
  cases hdir : c.tree.lookup (splitParent target).1 .exact with
  | none => exact hone
  | some did =>
    dsimp only
    split_ifs
    · refine List.foldlRecOn _ _ (motive := fun b : Batch =>
        List.Forall₂ (Versioned c) b.paths b.versions) hone fun b hb child hchild => ?_
      rw [addSibling]
      dsimp only
      split_ifs with hfull hsmall
      · exact hb
      · exact hb
      · exact hb
      · refine versioned_push hb (versioned_childPath h hdir hchild ?_)
        by_contra hkind
        exact hsmall (.inl hkind)
    · exact hone

theorem versioned_smallFiles (h : c.tree.WF) {dir : Bytes} {m : FileMeta}
    (hm : m ∈ smallFiles c dir) : Versioned c m.path (m.mtimeNs, m.size) := by
  rw [smallFiles] at hm
  cases hdir : c.tree.lookup dir .exact with
  | none =>
    rw [hdir] at hm
    cases hm
  | some did =>
    rw [hdir] at hm
    dsimp only at hm
    split_ifs at hm
    · obtain ⟨child, hchild, hsome⟩ := List.mem_filterMap.1 hm
      rw [Option.ite_none_right_eq_some] at hsome
      obtain ⟨⟨hfile, -⟩, hsome⟩ := hsome
      cases hsome
      exact versioned_childPath h hdir hchild hfile
    · cases hm

/-! ### The prefetcher -/

theorem Fetched.flush {s' : ReadCache} (h : Fetched c a s s')
    (hb : List.Forall₂ (Versioned c) b.paths b.versions) : Fetched c a s (flush a s' b) := by
  rw [ReadPath.flush]
  split_ifs
  · exact h
  · cases hread : readMany a b.paths with
    | error e => exact h
    | ok datas => exact h.store hb hread

/-- **The prefetcher** leaves whole files under their paths and versions. -/
theorem fetched_prefetch (hwf : c.tree.WF) (hs : s.Consistent) (dir : Bytes) :
    Fetched c a s (prefetch c a s dir) := by
  have hrun : let r := (smallFiles c dir).foldl (prefetchFile a) (s, ⟨[], [], 0⟩)
      Fetched c a s r.1 ∧ List.Forall₂ (Versioned c) r.2.paths r.2.versions := by
    refine List.foldlRecOn _ _ (motive := fun r : ReadCache × Batch =>
      Fetched c a s r.1 ∧ List.Forall₂ (Versioned c) r.2.paths r.2.versions)
      ⟨.refl hs, .nil⟩ fun r hr m hm => ?_
    have hpush := versioned_push hr.2 (versioned_smallFiles hwf hm)
    rw [prefetchFile]
    dsimp only
    split_ifs
    · exact hr
    · exact ⟨hr.1.flush hpush, .nil⟩
    · exact ⟨hr.1, hpush⟩
  exact hrun.1.flush hrun.2

/-! ### Reads -/

/-- **A single read** that returns, returns the front of a window of the file. -/
theorem readRemote_eq_ok {q : ReadRequest} (h : readRemote a q = .ok data) :
    ∃ f, a.located q.path = some f ∧ data = window f.contents q.offset.toNat q.length.toNat := by
  rcases Nat.lt_or_ge kMaxPayload (writeReadRequest q).length with hfit | hfit
  · rw [readRemote_of_lt hfit] at h
    cases h
  · rw [readRemote_eq hfit] at h
    cases hf : a.located q.path with
    | none =>
      obtain ⟨e, he⟩ := sendRead_of_not_located hf
      rw [he] at h
      cases h
    | some f =>
      refine ⟨f, rfl, ?_⟩
      rw [sendRead_of_located hf] at h
      split_ifs at h
      exact (Except.ok.inj h).symm

theorem lookup_fetchWhole (hs : s.Consistent) {t : ReadTarget} (ht : t.size ≤ kMaxCacheableFile)
    {k : Bytes} {offset : UInt64} {length : UInt32} {e : ReadCache.CacheEntry}
    (he : (fetchWhole a s k t offset length).1.rcache.lookup key = some e) :
    s.rcache.lookup key = some e ∨ key = k ∧ (e.mtimeNs, e.size) = (t.mtimeNs, t.size) ∧
      ∃ f, a.located key = some f ∧ e.data = f.contents.take e.size.toNat := by
  rw [fetchWhole] at he
  split at he
  · rename_i whole hwhole
    have hstep : (s.step (.cachePut k _ _ whole)).rcache.lookup key = some e := he
    refine (hs.lookup_step hstep).imp_right fun hput => ?_
    obtain ⟨rfl, hmtime, hsize, rfl⟩ := ReadCache.Op.cachePut.inj hput
    obtain ⟨f, hf, hdata⟩ := readRemote_eq_ok hwhole
    refine ⟨rfl, by rw [hmtime, hsize], f, hf, ?_⟩
    rw [hdata, window_eq, ← hsize]
    dsimp only
    rw [toNat_toUInt32_of_le ht]
    rfl
  · exact .inl he

/-- **`read`** leaves whole files from a bulk read, and from a single one as much as the mirror says
they have. -/
theorem lookup_read (hwf : c.tree.WF) (hs : s.Consistent) {offset : UInt64} {length : UInt32}
    {e : ReadCache.CacheEntry}
    (he : (read c a s path offset length).1.rcache.lookup key = some e) :
    s.rcache.lookup key = some e ∨ (Versioned c key (e.mtimeNs, e.size) ∧
      ∃ f, a.located key = some f ∧
        (e.data = f.contents ∨ e.data = f.contents.take e.size.toNat)) := by
  obtain ⟨-, hread⟩ | ⟨hcache, hways⟩ := read_cases c a s path offset length
  · rw [hread] at he
    exact .inl he
  obtain ⟨hfile, hsize⟩ := uncached_eq_false_iff.1 hcache
  have hkey := versioned_key hwf hfile
  obtain ⟨e', -, hread⟩ | ⟨-, ⟨data, datas, hmany, hread⟩ | hread⟩ := hways
  · -- a hit moves the entry to the front
    rw [hread] at he
    have hstep : (s.step (.read _ _ _)).rcache.lookup key = some e := he
    refine .inl ((hs.lookup_step hstep).resolve_right fun hput => ?_)
    cases hput
  · rw [hread] at he
    have hfetched := (Fetched.refl hs).store (versioned_siblings hwf hkey) hmany
    refine (hfetched.entries key e he).imp_right fun hnew => ?_
    obtain ⟨hversion, f, hf, hdata⟩ := hnew
    exact ⟨hversion, f, hf, .inl hdata⟩
  · rw [hread] at he
    refine (lookup_fetchWhole hs hsize he).imp_right ?_
    rintro ⟨rfl, hversion, f, hf, hdata⟩
    rw [hversion]
    exact ⟨hkey, f, hf, .inr hdata⟩

/-! ### Agreement -/

/-- What a bulk read has to return for a path, when it has returned `total` bytes before: the bytes
that a single read of the whole file returns, or nothing for one of four reasons. -/
structure Agrees (a : Agent) (path : Bytes) (total : ℕ) (r : Option Bytes) : Prop where
  single : ∀ data, r = some data → data.length < 2 ^ 32 ∧
    ∀ length : UInt32, data.length ≤ length.toNat →
      a.sendRead { path, offset := 0, length } =
        .ok { fileSize := UInt64.ofNat data.length, data }
  skipped : r = none → Skipped a total path

theorem agrees_readNext (total : ℕ) (path : Bytes) :
    Agrees a path total (a.readNext total path) := by
  refine ⟨fun data hdata => ?_, readNext_eq_none_iff.1⟩
  obtain ⟨f, hf, rfl, hlarge, -, hopens⟩ := readNext_eq_some_iff.1 hdata
  have hbound : kMaxBulkFile = 16777216 ∧ kMaxWindow = 67108800 := ⟨rfl, rfl⟩
  refine ⟨by omega, fun length hlength => ?_⟩
  have hwhole : window f.contents (0 : UInt64).toNat length.toNat = f.contents :=
    window_whole hlength
  rw [sendRead_of_located (q := ⟨path, 0, length⟩) hf]
  dsimp only
  rw [hwhole, if_neg (by omega), if_pos (.inr hopens)]

/-- **Bulk reads agree with single reads and fit a frame.**  Each result is that of a single read of
the whole file, or nothing for one of four reasons; and what `read` and the prefetcher cache is the
file that the key names, under its version in the mirror. -/
theorem bulkRead_agrees (a : Agent) :
    (∀ paths : List Bytes, paths.length ≤ 4096 →
      (writeReadManyRequest ⟨paths⟩).length ≤ kMaxPayload →
      (writeReadManyResponse (a.sendReadMany ⟨paths⟩)).length ≤ kMaxPayload ∧
      ∃ datas, readMany a paths = .ok datas ∧ datas.length = paths.length ∧
        ∀ (i : ℕ) path, paths[i]? = some path →
          ∃ r, datas[i]? = some r ∧ Agrees a path (bytesOf (datas.take i)) r) ∧
    ∀ (c : RemoteRoot) (s : ReadCache), c.tree.WF → s.Consistent →
      (∀ path offset length key e,
        (read c a s path offset length).1.rcache.lookup key = some e →
        s.rcache.lookup key = some e ∨ (Versioned c key (e.mtimeNs, e.size) ∧
          ∃ f, a.located key = some f ∧
            (e.data = f.contents ∨ e.data = f.contents.take e.size.toNat))) ∧
      ∀ dir key e, (prefetch c a s dir).rcache.lookup key = some e →
        s.rcache.lookup key = some e ∨ (Versioned c key (e.mtimeNs, e.size) ∧
          ∃ f, a.located key = some f ∧ e.data = f.contents) := by
  refine ⟨fun paths hn hfit => ⟨length_sendReadMany hn, _, readMany_eq hn hfit,
    length_readLoop 0 paths, fun i path hpath => ?_⟩, fun c s hwf hs =>
    ⟨fun path offset length key e => lookup_read hwf hs,
      fun dir => (fetched_prefetch hwf hs dir).entries⟩⟩
  refine ⟨_, ?_, agrees_readNext _ path⟩
  rw [getElem?_readLoop, hpath, Option.map_some, Nat.zero_add]

/-- An agent with one file. -/
def oneFileAgent : Agent where
  root := ⟨bytes "/r", by decide⟩
  file full :=
    if full = bytes "/r/f" then some { contents := [1, 2, 3], sized := by decide } else none

/-- A file that is there and one that is not. -/
theorem bulkRead_agrees_one :
    oneFileAgent.readLoop 0 [bytes "f", bytes "g"] = [some [1, 2, 3], none] ∧
      ∃ datas, readMany oneFileAgent [bytes "f", bytes "g"] = .ok datas ∧ datas.length = 2 :=
  have h := ((bulkRead_agrees oneFileAgent).1 [bytes "f", bytes "g"] (by decide) (by decide)).2
  ⟨by decide, h.choose, h.choose_spec.1, h.choose_spec.2.1⟩

end ReadPath

end WslDrive
