import WslDrive.Agent.ReadCache
import WslDrive.Agent.Resolve
import WslDrive.Core.Sizes

/-!
# Reading files

The way of the bytes of a file: from the disk into the replies of the agent, and from there into the
cache and to the caller.  The files do not change while they are read.  Unlike `RemoteRoot.read`,
which is about the requests that go out, the functions here compute with the integers of the source
and keep the cache.

A request and its reply go through their encodings.  An `Error` frame is the code and the text that
it carries, and a handler that fails drops the session.

* `ReadPath.sendRead_of_located`, `ReadPath.slice_eq` — the two ways to cut a window out of a file;
* `ReadPath.read_cases` — past the cache, from the cache, with a batch, or the file alone;
* `ReadPath.readRemote_eq` — a request that fits a frame is answered by `send_read`.
-/

namespace WslDrive

namespace ReadPath

open Path Proto RemoteRoot

/-! ### The agent -/

/-- A file as `file_size` and `fopen` find it. -/
structure File where
  contents : Bytes
  /-- `fopen` succeeds. -/
  opens : Bool := true
  /-- Its size is a 64-bit integer. -/
  sized : contents.length < 2 ^ 64

/-- The served root and its files. -/
structure Agent where
  root : Resolve.Root
  /-- What is at a path of the filesystem; nothing if `file_size` fails. -/
  file : Bytes → Option File

/-- The largest file in a bulk reply. -/
def kMaxBulkFile : ℕ := 16 * 2 ^ 20

/-- The most contents in a bulk reply, with headroom for framing. -/
def kBulkCap : ℕ := kMaxPayload - 64 * 2 ^ 10

/-- The most bytes in the reply to a single read. -/
def kMaxWindow : ℕ := kMaxPayload - 64

namespace Agent

variable (a : Agent)

/-- `send_read`: a reply, or the code and the text of an `Error` frame. -/
def sendRead (q : ReadRequest) : Except (Errc × Bytes) ReadResponse :=
  let rel := normalizePath q.path
  match Resolve.resolve a.root rel with
  | .error _ => .error (.invalidPath, bytes "path outside the served root")
  | .ok full =>
    match a.file full with
    | none => .error (.notFound, rel)
    | some f =>
      let size := UInt64.ofNat f.contents.length
      let offset := min q.offset size
      let want := min q.length.toUInt64 (size - offset)
      if want > UInt64.ofNat kMaxWindow then .error (.tooLarge, bytes "read too large")
      -- The file is not opened for an empty window.
      else if want = 0 then .ok { fileSize := size }
      else if !f.opens then .error (.ioError, rel)
      else .ok { fileSize := size, data := (f.contents.drop offset.toNat).take want.toNat }

/-- One round of the loop of `send_read_many`, when `total` bytes have been read. -/
def readNext (total : ℕ) (path : Bytes) : Option Bytes :=
  match Resolve.resolve a.root (normalizePath path) with
  | .error _ => none
  | .ok full =>
    match a.file full with
    | none => none
    | some f =>
      let sz := f.contents.length
      if sz > kMaxBulkFile ∨ total + sz > kBulkCap then none
      else if !f.opens then none
      else some f.contents

/-- The loop of `send_read_many`: what is read of each path. -/
def readLoop : ℕ → List Bytes → List (Option Bytes)
  | _, [] => []
  | total, path :: paths =>
    let data := a.readNext total path
    data :: readLoop (total + (data.getD []).length) paths

theorem valid_skipped : false = false → ([] : Bytes) = [] := fun _ => rfl

theorem valid_read (data : Bytes) : true = false → data = [] := fun h => Bool.noConfusion h

/-- An item of the reply. -/
def item (data : Option Bytes) : ReadManyItem :=
  data.elim { valid := valid_skipped } fun data => { ok := true, data, valid := valid_read data }

/-- `send_read_many`. -/
def sendReadMany (q : ReadManyRequest) : ReadManyResponse := ⟨(a.readLoop 0 q.paths).map item⟩

end Agent

/-! ### Requests -/

/-- What comes back on the channel. -/
inductive Reply where
  | message (payload : Bytes)
  | error (code : Errc) (detail : Bytes)

/-- A reader on a whole payload. -/
def parse {α : Type} (d : Reader α) (payload : Bytes) : Except Errc α :=
  match d.run payload with
  | .ok v _ => .ok v
  | .error e _ => .error e

/-- The handler of a read request: parse it and reply. -/
def Agent.handleRead (a : Agent) (payload : Bytes) : Except Errc Reply := do
  let q ← parse readReadRequest payload
  match a.sendRead q with
  | .ok p => return .message (writeReadResponse p)
  | .error (code, detail) => return .error code detail

/-- The handler of a bulk read request: parse it and reply. -/
def Agent.handleReadMany (a : Agent) (payload : Bytes) : Except Errc Reply := do
  let q ← parse readReadManyRequest payload
  return .message (writeReadManyResponse (a.sendReadMany q))

/-- `request`: both directions refuse a payload that does not fit a frame; a handler that cannot
answer drops the session. -/
def request (handle : Bytes → Except Errc Reply) (payload : Bytes) : Except Errc Bytes :=
  if payload.length > kMaxPayload then .error .tooLarge
  else
    match handle payload with
    | .error _ => .error .connectionClosed
    | .ok (.error code _) => .error code
    | .ok (.message reply) =>
      if reply.length > kMaxPayload then .error .connectionClosed else .ok reply

/-- `read_remote`. -/
def readRemote (a : Agent) (q : ReadRequest) : Except Errc Bytes := do
  let reply ← request a.handleRead (writeReadRequest q)
  let p ← parse readReadResponse reply
  return p.data

/-- `read_many`. -/
def readMany (a : Agent) (paths : List Bytes) : Except Errc (List (Option Bytes)) := do
  let reply ← request a.handleReadMany (writeReadManyRequest ⟨paths⟩)
  let p ← parse readReadManyResponse reply
  return (List.range paths.length).map fun i =>
    p.items[i]?.bind fun it => if it.ok then some it.data else none

/-! ### The client -/

/-- `slice`. -/
def slice (data : Bytes) (offset : UInt64) (length : UInt32) : Bytes :=
  if offset ≥ UInt64.ofNat data.length then []
  else
    let last := min (offset + length.toUInt64) (UInt64.ofNat data.length)
    (data.take last.toNat).drop offset.toNat

/-- A batch of a read-ahead, and the version of each of its files. -/
structure Batch where
  paths : List Bytes
  versions : List (Int64 × UInt64)
  bytes : UInt64

/-- One more file for the batch. -/
def Batch.push (b : Batch) (path : Bytes) (mtimeNs : Int64) (size : UInt64) : Batch :=
  ⟨b.paths ++ [path], b.versions ++ [(mtimeNs, size)], b.bytes + size⟩

/-- The path of a child in a directory. -/
def childPath (c : RemoteRoot) (dir : Bytes) (child : NodeId) : Bytes :=
  if dir = [] then c.tree.name child else dir ++ slash :: c.tree.name child

/-- One sibling of a file that is read. -/
def addSibling (c : RemoteRoot) (dir target : Bytes) (b : Batch) (child : NodeId) : Batch :=
  if b.paths.length ≥ 256 ∨ b.bytes ≥ 2097152 then b
  else
    let attr := (c.tree.nodes child).attr
    if attr.kind ≠ .file ∨ attr.size = 0 ∨ attr.size > kMaxCacheableFile then b
    else
      let p := childPath c dir child
      if p = target then b else b.push p attr.mtimeNs attr.size

/-- The batch of a synchronous read-ahead, the file itself first. -/
def siblings (c : RemoteRoot) (target : Bytes) (mtimeNs : Int64) (size : UInt64) : Batch :=
  let b : Batch := ⟨[target], [(mtimeNs, size)], size⟩
  let dir := (splitParent target).1
  match c.tree.lookup dir .exact with
  | some did =>
    if (c.tree.nodes did).isDir then (c.tree.children did).foldl (addSibling c dir target) b else b
  | none => b

/-- The loop that puts what has come of a batch into the cache, index by index. -/
def store : List Bytes → List (Int64 × UInt64) → List (Option Bytes) → ReadCache → ReadCache
  | path :: paths, version :: versions, data :: datas, s =>
    store paths versions datas
      (match data with
        | some data => s.cachePut path version.1 version.2 data
        | none => s)
  | _, _, _, s => s

/-- The part of `read` that fetches the file on its own. -/
def fetchWhole (a : Agent) (s : ReadCache) (key : Bytes) (t : ReadTarget) (offset : UInt64)
    (length : UInt32) : ReadCache × Except Errc Bytes :=
  match readRemote a { path := key, offset := 0, length := t.size.toUInt32 } with
  | .ok whole => (s.cachePut key t.mtimeNs t.size whole, .ok (slice whole offset length))
  | .error e => (s, .error e)

/-- `read`. -/
def read (c : RemoteRoot) (a : Agent) (s : ReadCache) (path : Bytes) (offset : UInt64)
    (length : UInt32) : ReadCache × Except Errc Bytes :=
  let t := c.resolveForRead path
  let key := t.key path
  if !t.isFile || t.size > kMaxCacheableFile then
    (s, readRemote a { path := key, offset, length })
  else
    match s.find key t.mtimeNs t.size with
    | some e => (s.readCached key t.mtimeNs t.size, .ok (slice e.data offset length))
    | none =>
      let b := siblings c key t.mtimeNs t.size
      match readMany a b.paths with
      | .ok (some data :: datas) =>
        (store b.paths b.versions (some data :: datas) s, .ok (slice data offset length))
      -- The bulk path is unavailable.
      | _ => fetchWhole a s key t offset length

/-- `read_into` a buffer of `room` bytes: what is copied into it. -/
def readInto (c : RemoteRoot) (a : Agent) (s : ReadCache) (path : Bytes) (offset room : UInt64) :
    ReadCache × Except Errc Bytes :=
  let t := c.resolveForRead path
  let key := t.key path
  match if t.isFile && t.size ≤ kMaxCacheableFile then s.find key t.mtimeNs t.size else none with
  | some e =>
    let size := UInt64.ofNat e.data.length
    let n := if offset ≥ size then 0 else min room (size - offset)
    (s.readCached key t.mtimeNs t.size, .ok ((e.data.drop offset.toNat).take n.toNat))
  | none =>
    let (s, data) := read c a s key offset (min room 0xFFFFFFFF).toUInt32
    (s, data.map fun data => data.take (min room (UInt64.ofNat data.length)).toNat)

/-! ### The prefetcher -/

/-- `kPrefetchBatchCount`. -/
def kPrefetchBatchCount : ℕ := 512

/-- `kPrefetchBatchBytes`: 4 MiB. -/
def kPrefetchBatchBytes : UInt64 := 4194304

/-- `FileMeta`. -/
structure FileMeta where
  path : Bytes
  mtimeNs : Int64
  size : UInt64

/-- The small files of a directory. -/
def smallFiles (c : RemoteRoot) (dir : Bytes) : List FileMeta :=
  match c.tree.lookup dir .exact with
  | some did =>
    if (c.tree.nodes did).isDir then
      (c.tree.children did).filterMap fun child =>
        let attr := (c.tree.nodes child).attr
        if attr.kind = .file ∧ attr.size > 0 ∧ attr.size ≤ kMaxCacheableFile then
          some ⟨childPath c dir child, attr.mtimeNs, attr.size⟩
        else none
    else []
  | none => []

/-- `flush` in `prefetch_loop`. -/
def flush (a : Agent) (s : ReadCache) (b : Batch) : ReadCache :=
  if b.paths = [] then s
  else
    match readMany a b.paths with
    | .ok datas => store b.paths b.versions datas s
    | .error _ => s

/-- One file of the loop over a directory. -/
def prefetchFile (a : Agent) (s : ReadCache × Batch) (f : FileMeta) : ReadCache × Batch :=
  if (s.1.find f.path f.mtimeNs f.size).isSome then s
  else
    let b := s.2.push f.path f.mtimeNs f.size
    if b.paths.length ≥ kPrefetchBatchCount ∨ b.bytes ≥ kPrefetchBatchBytes then
      (flush a s.1 b, ⟨[], [], 0⟩)
    else (s.1, b)

/-- `prefetch_loop` on one directory. -/
def prefetch (c : RemoteRoot) (a : Agent) (s : ReadCache) (dir : Bytes) : ReadCache :=
  let (s, b) := (smallFiles c dir).foldl (prefetchFile a) (s, ⟨[], [], 0⟩)
  flush a s b

/-! ### Windows -/

/-- `contents[min(offset, n) .. min(offset + length, n))`, where `n` is the size. -/
def window (contents : Bytes) (offset length : ℕ) : Bytes :=
  (contents.take (min (offset + length) contents.length)).drop (min offset contents.length)

/-- The file that a request for a path is about. -/
def Agent.located (a : Agent) (path : Bytes) : Option File :=
  match Resolve.resolve a.root (normalizePath path) with
  | .error _ => none
  | .ok full => a.file full

variable {a : Agent} {q : ReadRequest} {paths : List Bytes} {path : Bytes} {f : File}

theorem window_eq (contents : Bytes) (offset length : ℕ) :
    window contents offset length = (contents.drop offset).take length := by
  rw [window, List.drop_take]
  rcases Nat.le_total offset contents.length with h | h
  · rw [Nat.min_eq_left h, List.take_eq_take_iff, List.length_drop]
    omega
  · rw [Nat.min_eq_right h, List.drop_length, List.drop_eq_nil_of_le h, List.take_nil,
      List.take_nil]

theorem length_window (contents : Bytes) (offset length : ℕ) :
    (window contents offset length).length = min length (contents.length - offset) := by
  rw [window_eq, List.length_take, List.length_drop]

theorem window_whole {contents : Bytes} {length : ℕ} (h : contents.length ≤ length) :
    window contents 0 length = contents := by
  rw [window_eq, List.drop_zero, List.take_of_length_le h]

/-- **`send_read`** on a file: its window, unless that is too large, or not empty and the file
cannot be opened. -/
theorem sendRead_of_located (h : a.located q.path = some f) :
    let w := window f.contents q.offset.toNat q.length.toNat
    a.sendRead q =
      if w.length > kMaxWindow then .error (.tooLarge, bytes "read too large")
      else if w = [] ∨ f.opens = true then
        .ok { fileSize := UInt64.ofNat f.contents.length, data := w }
      else .error (.ioError, normalizePath q.path) := by
  intro w
  rw [Agent.located] at h
  rw [Agent.sendRead]
  dsimp only
  cases hres : Resolve.resolve a.root (normalizePath q.path) with
  | error e =>
    rw [hres] at h
    cases h
  | ok full =>
    rw [hres] at h
    dsimp only at h ⊢
    rw [h]
    dsimp only
    -- the machine integers are the natural numbers they stand for
    have hsize : (UInt64.ofNat f.contents.length).toNat = f.contents.length :=
      toNat_ofNat_length f.sized
    generalize UInt64.ofNat f.contents.length = size at hsize ⊢
    have hoffset : (min q.offset size).toNat = min q.offset.toNat f.contents.length := by
      rw [UInt64.toNat_min, hsize]
    generalize min q.offset size = offset at hoffset ⊢
    have hle : offset ≤ size := by
      rw [UInt64.le_iff_toNat_le, hoffset, hsize]
      exact Nat.min_le_right _ _
    have hwant : (min q.length.toUInt64 (size - offset)).toNat = w.length := by
      rw [UInt64.toNat_min, UInt64.toNat_sub_of_le _ _ hle, UInt32.toNat_toUInt64, hsize, hoffset,
        length_window]
      omega
    generalize min q.length.toUInt64 (size - offset) = want at hwant ⊢
    have hdata : (f.contents.drop offset.toNat).take want.toNat = w := by
      have hdrop : f.contents.drop (min q.offset.toNat f.contents.length) =
          f.contents.drop q.offset.toNat := by
        rcases Nat.le_total q.offset.toNat f.contents.length with ho | ho
        · rw [Nat.min_eq_left ho]
        · rw [Nat.min_eq_right ho, List.drop_length, List.drop_eq_nil_of_le ho]
      rw [hwant, hoffset, hdrop, length_window, ← List.length_drop, ← List.take_eq_take_min,
        ← window_eq]
    have hlarge : want > UInt64.ofNat kMaxWindow ↔ w.length > kMaxWindow := by
      rw [gt_iff_lt, UInt64.lt_iff_toNat_lt, toNat_ofNat_length (by decide), hwant]
    have hzero : want = 0 ↔ w = [] := by
      rw [← List.length_eq_zero_iff, ← hwant, ← UInt64.toNat_inj]
      rfl
    simp only [hlarge, hzero, hdata]
    split_ifs <;> simp_all

theorem sendRead_of_not_located (h : a.located q.path = none) : ∃ e, a.sendRead q = .error e := by
  rw [Agent.located] at h
  rw [Agent.sendRead]
  dsimp only
  cases hres : Resolve.resolve a.root (normalizePath q.path) with
  | error e => exact ⟨_, rfl⟩
  | ok full =>
    rw [hres] at h
    dsimp only at h ⊢
    rw [h]
    exact ⟨_, rfl⟩

/-- **`slice`** is the window of the bytes that it is given, as many as a vector can hold. -/
theorem slice_eq {data : Bytes} (h : data.length < 2 ^ 63) (offset : UInt64) (length : UInt32) :
    slice data offset length = window data offset.toNat length.toNat := by
  have hsize : (UInt64.ofNat data.length).toNat = data.length := toNat_ofNat_length (by omega)
  rw [slice]
  split_ifs with hoff
  · rw [ge_iff_le, UInt64.le_iff_toNat_le, hsize] at hoff
    rw [window_eq, List.drop_eq_nil_of_le hoff, List.take_nil]
  · rw [ge_iff_le, UInt64.le_iff_toNat_le, hsize, Nat.not_le] at hoff
    have hlength := length.toNat_lt
    -- the sum does not wrap around: the offset is inside the data
    have hsum : (offset + length.toUInt64).toNat = offset.toNat + length.toNat := by
      rw [UInt64.toNat_add, UInt32.toNat_toUInt64]
      omega
    dsimp only
    rw [UInt64.toNat_min, hsum, hsize, window, Nat.min_eq_left hoff.le]

/-! ### The ways of a read -/

/-- Reads of what is no file in the mirror, or too large a file, go past the cache. -/
def uncached (t : ReadTarget) : Bool := !t.isFile || t.size > kMaxCacheableFile

theorem uncached_eq_false_iff {t : ReadTarget} :
    uncached t = false ↔ t.isFile = true ∧ t.size ≤ kMaxCacheableFile := by
  rw [uncached, Bool.or_eq_false_iff, Bool.not_eq_false', decide_eq_false_iff_not, UInt64.not_lt]

theorem toNat_toUInt32_of_le {size : UInt64} (h : size ≤ kMaxCacheableFile) :
    size.toUInt32.toNat = size.toNat := by
  rw [UInt64.le_iff_toNat_le] at h
  have hmax : kMaxCacheableFile.toNat = 8388608 := rfl
  rw [UInt64.toNat_toUInt32]
  omega

/-- **The ways of `read`**: past the cache, from the cache, with a batch, or the file alone. -/
theorem read_cases (c : RemoteRoot) (a : Agent) (s : ReadCache) (path : Bytes) (offset : UInt64)
    (length : UInt32) :
    let t := c.resolveForRead path
    let key := t.key path
    let b := siblings c key t.mtimeNs t.size
    (uncached t = true ∧
        read c a s path offset length = (s, readRemote a { path := key, offset, length })) ∨
      uncached t = false ∧
        ((∃ e, s.find key t.mtimeNs t.size = some e ∧ read c a s path offset length =
            (s.readCached key t.mtimeNs t.size, .ok (slice e.data offset length))) ∨
          s.find key t.mtimeNs t.size = none ∧
            ((∃ data datas, readMany a b.paths = .ok (some data :: datas) ∧
                read c a s path offset length =
                  (store b.paths b.versions (some data :: datas) s,
                    .ok (slice data offset length))) ∨
              read c a s path offset length = fetchWhole a s key t offset length)) := by
  intro t key b
  rw [read]
  dsimp only
  rw [← uncached]
  cases hremote : uncached (c.resolveForRead path) with
  | true => exact .inl ⟨rfl, rfl⟩
  | false =>
    refine .inr ⟨rfl, ?_⟩
    rw [if_neg Bool.false_ne_true]
    cases hfind : s.find key t.mtimeNs t.size with
    | some e => exact .inl ⟨e, rfl, rfl⟩
    | none =>
      refine .inr ⟨rfl, ?_⟩
      cases hread : readMany a b.paths with
      | error e => exact .inr rfl
      | ok datas =>
        rcases datas with _ | ⟨_ | data, datas⟩
        · exact .inr rfl
        · exact .inr rfl
        · exact .inl ⟨data, datas, rfl, rfl⟩

/-! ### Requests that fit a frame -/

theorem parse_of_reads {α : Type} {d : Reader α} {w : Bytes} {v : α} (h : Codec.Reads d w v) :
    parse d w = .ok v := by
  have hrun := h []
  rw [List.append_nil] at hrun
  rw [parse, hrun]

theorem parse_readRequest (h : (writeReadRequest q).length ≤ kMaxPayload) :
    parse readReadRequest (writeReadRequest q) = .ok q := by
  refine parse_of_reads (reads_readRequest ?_)
  have hlen : q.path.length ≤ (writeReadRequest q).length := by
    rw [writeReadRequest, Writer.string, List.length_append, List.length_append, List.length_append]
    omega
  rw [Sized]
  rw [kMaxPayload] at h
  omega

theorem length_sendRead {p : ReadResponse} (h : a.sendRead q = .ok p) :
    p.data.length ≤ kMaxWindow := by
  cases hf : a.located q.path with
  | none =>
    obtain ⟨e, he⟩ := sendRead_of_not_located hf
    rw [he] at h
    cases h
  | some f =>
    rw [sendRead_of_located hf] at h
    split_ifs at h with hlarge
    cases h
    exact Nat.not_lt.1 hlarge

theorem length_readResponse_le {p : ReadResponse} (h : p.data.length ≤ kMaxWindow) :
    (writeReadResponse p).length ≤ kMaxPayload := by
  have hlen : (Writer.varint (UInt64.ofNat p.data.length)).length ≤ 10 := length_varint_le_ten _
  rw [writeReadResponse, Writer.blob, Writer.raw, Writer.u64, List.length_append, length_putLe,
    List.length_append]
  rw [kMaxWindow, kMaxPayload] at h
  rw [kMaxPayload]
  omega

/-- **A single read** whose request fits a frame is answered by `send_read`. -/
theorem readRemote_eq (h : (writeReadRequest q).length ≤ kMaxPayload) :
    readRemote a q = match a.sendRead q with
      | .ok p => .ok p.data
      | .error e => .error e.1 := by
  rw [readRemote, request, if_neg (Nat.not_lt.2 h), Agent.handleRead, parse_readRequest h]
  cases hsend : a.sendRead q with
  | error e => simp only [bind, Except.bind, hsend, pure, Except.pure]
  | ok p =>
    have hdata := length_sendRead hsend
    have hsized : Sized p.data := by
      rw [Sized]
      rw [kMaxWindow, kMaxPayload] at hdata
      omega
    simp only [bind, Except.bind, hsend, pure, Except.pure]
    rw [if_neg (Nat.not_lt.2 (length_readResponse_le hdata))]
    simp only [parse_of_reads (reads_readResponse hsized)]

theorem readRemote_of_lt (h : kMaxPayload < (writeReadRequest q).length) :
    readRemote a q = .error .tooLarge := by
  rw [readRemote, request, if_pos h]
  rfl

end ReadPath

end WslDrive
