import WslDrive.Agent.Exactness
import WslDrive.Core.Protocol

/-!
# Which path a request names

The client resolves the path of a call in its mirror and sends a path to the agent, which may be
case sensitive.  The calls are those that act on an entry of the mirror; what they do to the mirror
when the reply comes is `RemoteRoot.process`.  The caches of contents and link targets are whatever
they are at the moment of the call; `ReadPath` has the reads with the cache as state, and
`ReadPath.read_eq` says that both return the same.

* `RemoteRoot.Call.write_other_spelling` — a write goes out with the spelling of the caller;
* `RemoteRoot.Call.addresses_iff` — the calls whose requests name the entry that was resolved.
-/

namespace WslDrive

namespace RemoteRoot

open MetadataTree Path Proto

/-- The requests of the calls. -/
inductive Request where
  | read (q : ReadRequest)
  | readMany (q : ReadManyRequest)
  | readlink (q : PathRequest)
  | write (q : WriteRequest)
  | truncate (q : TruncateRequest)
  | unlink (q : PathRequest)
  | rmdir (q : PathRequest)
  | rename (q : RenameRequest)
  deriving DecidableEq

/-- The path of the entry that a request is about; the other paths of a bulk read are read-ahead. -/
def Request.target : Request → Bytes
  | .read q => q.path
  | .readMany q => q.paths.headD []
  | .readlink q | .unlink q | .rmdir q => q.path
  | .write q => q.path
  | .truncate q => q.path
  | .rename q => q.source

/-- `CacheEntry`. -/
structure CacheEntry where
  mtimeNs : Int64
  size : UInt64
  data : Bytes

/-- What the client has cached, by the path it was asked for. -/
structure Caches where
  rcache : Bytes → Option CacheEntry := fun _ => none
  linkCache : Bytes → Option Bytes := fun _ => none

/-- What the agent answers to the requests that read. -/
structure Answers where
  read : ReadRequest → Except Errc Bytes := fun _ => .error .notFound
  readMany : ReadManyRequest → Except Errc (List (Option Bytes)) := fun _ => .error .notFound
  readlink : PathRequest → Except Errc Bytes := fun _ => .error .notFound

/-- Largest file that the cache holds. -/
def kMaxCacheableFile : UInt64 := 8388608

/-- `ReadTarget`. -/
structure ReadTarget where
  isFile : Bool := false
  mtimeNs : Int64 := 0
  size : UInt64 := 0
  /-- Set only if the path is spelled in another way than in the tree. -/
  canonical : Bytes := []

variable (c : RemoteRoot) (caches : Caches) (answers : Answers)

/-- `resolve_for_read`. -/
def resolveForRead (path : Bytes) : ReadTarget :=
  let target (id : NodeId) (canonical : Bytes) : ReadTarget :=
    let a := (c.tree.nodes id).attr
    { isFile := a.kind == .file, mtimeNs := a.mtimeNs, size := a.size, canonical }
  match c.tree.lookup path .exact with
  | some id => target id []
  | none =>
    if c.lookupMode = .exact then {}
    else
      match c.tree.lookup path c.lookupMode with
      | some id => target id (c.tree.pathOf id slash)
      | none => {}

/-- What `resolve_for_read` says of a node. -/
def targetOf (id : NodeId) (canonical : Bytes) : ReadTarget where
  isFile := (c.tree.nodes id).attr.kind == .file
  mtimeNs := (c.tree.nodes id).attr.mtimeNs
  size := (c.tree.nodes id).attr.size
  canonical := canonical

/-- **The ways of `resolve_for_read`**: the path as it is spelled, another spelling, or nothing. -/
theorem resolveForRead_cases (path : Bytes) :
    (∃ id, c.tree.lookup path .exact = some id ∧ c.resolveForRead path = c.targetOf id []) ∨
      (∃ id, c.tree.lookup path c.lookupMode = some id ∧
        c.resolveForRead path = c.targetOf id (c.tree.pathOf id slash)) ∨
      c.resolveForRead path = {} := by
  rw [resolveForRead]
  cases hexact : c.tree.lookup path .exact with
  | some id => exact .inl ⟨id, rfl, rfl⟩
  | none =>
    dsimp only
    split_ifs with hmode
    · exact .inr (.inr rfl)
    cases hid : c.tree.lookup path c.lookupMode with
    | none => exact .inr (.inr rfl)
    | some id => exact .inr (.inl ⟨id, rfl, rfl⟩)

/-- The path that the cache and the agent are asked for. -/
def ReadTarget.key (t : ReadTarget) (path : Bytes) : Bytes :=
  if t.canonical = [] then path else t.canonical

/-- The cached contents, if they are those of the version in the mirror. -/
def Caches.hit (t : ReadTarget) (key : Bytes) : Option Bytes :=
  (caches.rcache key).bind fun e =>
    if e.mtimeNs = t.mtimeNs ∧ e.size = t.size then some e.data else none

/-- The part of the data that a read asks for. -/
def slice (data : Bytes) (offset : UInt64) (length : UInt32) : Bytes :=
  (data.drop offset.toNat).take length.toNat

/-- One sibling of a file that is read, on the batch so far and its bytes. -/
def readAhead (dir key : Bytes) (s : List Bytes × UInt64) (child : NodeId) : List Bytes × UInt64 :=
  if s.1.length ≥ 256 ∨ s.2 ≥ 2097152 then s
  else
    let a := (c.tree.nodes child).attr
    if a.kind ≠ .file ∨ a.size = 0 ∨ a.size > kMaxCacheableFile then s
    else
      let p := if dir = [] then c.tree.name child else dir ++ slash :: c.tree.name child
      if p = key then s else (s.1 ++ [p], s.2 + a.size)

/-- The batch of a synchronous read-ahead, the file itself first. -/
def readBatch (key : Bytes) (size : UInt64) : List Bytes :=
  let dir := (splitParent key).1
  match c.tree.lookup dir .exact with
  | some did =>
    if (c.tree.nodes did).isDir then
      ((c.tree.children did).foldl (c.readAhead dir key) ([key], size)).1
    else [key]
  | none => [key]

/-- `read_remote`. -/
def readRemote (q : ReadRequest) : List Request × Except Errc Bytes :=
  ([.read q], answers.read q)

/-- `read`: the requests that go out, and the result. -/
def read (path : Bytes) (offset : UInt64) (length : UInt32) : List Request × Except Errc Bytes :=
  let t := c.resolveForRead path
  let key := t.key path
  if !t.isFile || t.size > kMaxCacheableFile then
    readRemote answers { path := key, offset, length }
  else
    match caches.hit t key with
    | some data => ([], .ok (slice data offset length))
    | none =>
      let q : ReadManyRequest := ⟨c.readBatch key t.size⟩
      match answers.readMany q with
      | .ok (some data :: _) => ([.readMany q], .ok (slice data offset length))
      | _ =>
        -- No answer to the bulk request, or none for this file.
        let (sent, whole) :=
          readRemote answers { path := key, offset := 0, length := t.size.toUInt32 }
        (.readMany q :: sent, whole.map fun data => slice data offset length)

/-- `read_into` a buffer of some size. -/
def readInto (path : Bytes) (offset : UInt64) (room : ℕ) : List Request × Except Errc Bytes :=
  let t := c.resolveForRead path
  let key := t.key path
  let cached := if t.isFile && t.size ≤ kMaxCacheableFile then caches.hit t key else none
  match cached with
  | some data => ([], .ok ((data.drop offset.toNat).take room))
  | none =>
    let (sent, data) := c.read caches answers key offset (UInt32.ofNat (min room 0xFFFFFFFF))
    (sent, data.map fun data => data.take room)

/-- `readlink`. -/
def readlink (path : Bytes) : List Request × Except Errc Bytes :=
  match caches.linkCache path with
  | some target => ([], .ok target)
  | none => ([.readlink ⟨path⟩], answers.readlink ⟨path⟩)

/-- A call that acts on an entry of the mirror. -/
inductive Call where
  | read (path : Bytes) (offset : UInt64) (length : UInt32)
  | readInto (path : Bytes) (offset : UInt64) (room : ℕ)
  | write (path : Bytes) (offset : UInt64) (data : Bytes)
  | truncate (path : Bytes) (size : UInt64)
  | unlink (path : Bytes)
  | rmdir (path : Bytes)
  | readlink (path : Bytes)
  | rename (src dst : Bytes)

namespace Call

/-- The path of the entry, as the caller spells it. -/
def path : Call → Bytes
  | .read p _ _ | .readInto p _ _ | .write p _ _ | .truncate p _ | .unlink p | .rmdir p
  | .readlink p | .rename p _ => p

/-- What a call sends to the agent. -/
def requests : Call → List Request
  | .read p offset length => (c.read caches answers p offset length).1
  | .readInto p offset room => (c.readInto caches answers p offset room).1
  | .write p offset data => [.write { path := p, offset, data }]
  | .truncate p size => [.truncate { path := p, size }]
  | .unlink p => [.unlink ⟨p⟩]
  | .rmdir p => [.rmdir ⟨p⟩]
  | .readlink p => (RemoteRoot.readlink caches answers p).1
  | .rename src dst => [.rename ⟨src, dst⟩]

/-- Whatever is cached and whatever the agent answers, every request of the call names the entry by
its path in the tree. -/
def Addresses (call : Call) (n : NodeId) : Prop :=
  ∀ caches answers, ∀ r ∈ call.requests c caches answers, r.target = c.tree.pathOf n slash

/-- The caller spells the path as the tree does.  A read can be spelled otherwise if only the
folded names lead to the entry. -/
def Spelled (call : Call) (n : NodeId) : Prop :=
  match call with
  | .read p _ _ | .readInto p _ _ =>
    (c.tree.lookup p .exact).isSome = true ∨ n = root → p = c.tree.pathOf n slash
  | call => call.path = c.tree.pathOf n slash

end Call

/-! ### The path of a read -/

variable {c} {caches} {answers} {path : Bytes} {n : NodeId}

/-- The path of a read is that of the caller if it is there exactly, otherwise that of the tree. -/
theorem key_resolveForRead (hmode : c.lookupMode = .caseInsensitive)
    (hn : c.tree.lookup path .caseInsensitive = some n) :
    (c.resolveForRead path).key path =
      if (c.tree.lookup path .exact).isSome = true ∨ c.tree.pathOf n slash = [] then path
      else c.tree.pathOf n slash := by
  rw [resolveForRead, hmode, hn]
  cases c.tree.lookup path .exact with
  | some id => simp [ReadTarget.key]
  | none => simp [ReadTarget.key]

theorem head_readBatch (key : Bytes) (size : UInt64) : (c.readBatch key size).headD [] = key := by
  have hfold : ∀ (ids : List NodeId) (dir : Bytes) (s : List Bytes × UInt64), s.1.head? = some key →
      (ids.foldl (c.readAhead dir key) s).1.head? = some key := by
    intro ids dir
    induction ids with
    | nil => exact fun _ h => h
    | cons id ids ih =>
      intro s h
      refine ih _ ?_
      have happend : ∀ p, (s.1 ++ [p]).head? = some key := fun p => by
        rw [List.head?_append, h, Option.some_or]
      rw [readAhead]
      dsimp only
      split_ifs <;> first | exact h | exact happend _
  rw [readBatch]
  cases c.tree.lookup (splitParent key).1 .exact with
  | none => rfl
  | some did =>
    dsimp only
    split_ifs
    · rw [List.headD_eq_head?_getD, hfold _ _ _ rfl]
      rfl
    · rfl

theorem target_read {offset : UInt64} {length : UInt32} {r : Request}
    (h : r ∈ (c.read caches answers path offset length).1) :
    r.target = (c.resolveForRead path).key path := by
  rw [read] at h
  dsimp only at h
  split_ifs at h
  · rw [List.mem_singleton.1 h]
    rfl
  · cases hhit : caches.hit (c.resolveForRead path) ((c.resolveForRead path).key path) with
    | some data =>
      rw [hhit] at h
      cases h
    | none =>
      rw [hhit] at h
      dsimp only at h
      split at h
      · rw [List.mem_singleton.1 h]
        exact head_readBatch _ _
      · rcases List.mem_cons.1 h with rfl | h
        · exact head_readBatch _ _
        · rw [List.mem_singleton.1 h]
          rfl

theorem exists_mem_read (c : RemoteRoot) (answers : Answers) (path : Bytes) (offset : UInt64)
    (length : UInt32) : ∃ r, r ∈ (c.read {} answers path offset length).1 := by
  rw [read]
  dsimp only
  split_ifs
  · exact ⟨_, List.mem_singleton_self _⟩
  · have hhit : Caches.hit {} (c.resolveForRead path) ((c.resolveForRead path).key path) = none :=
      rfl
    rw [hhit]
    dsimp only
    split
    · exact ⟨_, List.mem_singleton_self _⟩
    · exact ⟨_, List.mem_cons_self⟩

theorem mem_readInto {offset : UInt64} {room : ℕ} {r : Request}
    (h : r ∈ (c.readInto caches answers path offset room).1) :
    ∃ length, r ∈ (c.read caches answers ((c.resolveForRead path).key path) offset length).1 := by
  rw [readInto] at h
  dsimp only at h
  split at h
  · cases h
  · exact ⟨_, h⟩

theorem key_key (hwf : c.tree.WF) (hmode : c.lookupMode = .caseInsensitive)
    (hn : c.tree.lookup path .caseInsensitive = some n) :
    (c.resolveForRead ((c.resolveForRead path).key path)).key ((c.resolveForRead path).key path) =
      (c.resolveForRead path).key path := by
  rw [key_resolveForRead hmode hn]
  split_ifs with h
  · rw [key_resolveForRead hmode hn, if_pos h]
  · have hpath := hwf.lookup_pathOf (hwf.lookup_live hn)
    rw [key_resolveForRead hmode (lookup_of_exact hpath _), hpath, if_pos (.inl rfl)]

theorem key_eq_iff (hwf : c.tree.WF) (hmode : c.lookupMode = .caseInsensitive)
    (hn : c.tree.lookup path .caseInsensitive = some n) :
    (c.resolveForRead path).key path = c.tree.pathOf n slash ↔
      ((c.tree.lookup path .exact).isSome = true ∨ n = root → path = c.tree.pathOf n slash) := by
  have hroot : c.tree.pathOf n slash = [] ↔ n = root := by
    refine ⟨fun h => ?_, fun h => ?_⟩
    · by_contra hne
      exact hwf.pathOf_ne_nil (hwf.lookup_live hn) hne h
    · rw [h, pathOf]
      simp
  rw [key_resolveForRead hmode hn]
  simp only [hroot]
  split_ifs with h
  · exact ⟨fun heq _ => heq, fun himp => himp h⟩
  · exact iff_of_true rfl fun h' => absurd h' h

namespace Call

/-- **Which calls address the entry they resolve.**  In a client that ignores case, with any mirror,
every request of a call about an entry names the path of that entry in the tree exactly if the
caller spelled it so; only the reads also find the spelling of the tree themselves. -/
theorem addresses_iff (c : RemoteRoot) (hwf : c.tree.WF) (hmode : c.lookupMode = .caseInsensitive)
    (call : Call) (n : NodeId) (hn : c.tree.lookup call.path .caseInsensitive = some n) :
    call.Addresses c n ↔ call.Spelled c n := by
  have hone : ∀ {r : Request}, (∀ caches answers, call.requests c caches answers = [r]) →
      (call.Addresses c n ↔ r.target = c.tree.pathOf n slash) := by
    intro r hr
    refine ⟨fun h => h {} {} r (by rw [hr]; simp), fun h caches answers r' hr' => ?_⟩
    rw [hr] at hr'
    rw [List.mem_singleton.1 hr', h]
  cases call with
  | read p offset length =>
    refine Iff.trans ?_ (key_eq_iff hwf hmode hn)
    constructor
    · intro h
      obtain ⟨r, hr⟩ := exists_mem_read c {} p offset length
      rw [← h {} {} r hr, target_read hr]
    · intro h caches answers r hr
      rw [target_read hr, h]
  | readInto p offset room =>
    have hkey := key_key hwf hmode (show c.tree.lookup p .caseInsensitive = some n from hn)
    refine Iff.trans ?_ (key_eq_iff hwf hmode hn)
    constructor
    · intro h
      obtain ⟨r, hr⟩ := exists_mem_read c {} ((c.resolveForRead p).key p) offset
        (UInt32.ofNat (min room 0xFFFFFFFF))
      have hsent : r ∈ (c.readInto {} {} p offset room).1 := by
        rw [RemoteRoot.readInto]
        dsimp only
        rw [show Caches.hit {} (c.resolveForRead p) ((c.resolveForRead p).key p) = none from rfl,
          ite_self]
        exact hr
      rw [← h {} {} r hsent, target_read hr, hkey]
    · intro h caches answers r hr
      obtain ⟨length, hr⟩ := mem_readInto hr
      rw [target_read hr, hkey]
      exact h
  | readlink p =>
    have hsent : Request.readlink ⟨p⟩ ∈ requests c {} {} (.readlink p) := List.mem_singleton_self _
    refine ⟨fun h => h {} {} _ hsent, fun h caches answers r hr => ?_⟩
    simp only [requests, RemoteRoot.readlink] at hr
    split at hr
    · cases hr
    · rw [List.mem_singleton.1 hr]
      exact h
  | write p offset data => exact hone fun _ _ => rfl
  | truncate p size => exact hone fun _ _ => rfl
  | unlink p => exact hone fun _ _ => rfl
  | rmdir p => exact hone fun _ _ => rfl
  | rename src dst => exact hone fun _ _ => rfl

/-- A write to `FOO` resolves to the mirror's `foo`, and asks the agent to write `FOO`. -/
theorem write_other_spelling :
    let call : Call := .write (bytes "FOO") 0 [1]
    (∃ n, lowercase.tree.lookup (bytes "FOO") .caseInsensitive = some n ∧
      lowercase.tree.pathOf n slash = bytes "foo" ∧ ¬ call.Addresses lowercase n) ∧
    call.requests lowercase {} {} = [.write { path := bytes "FOO", data := [1] }] := by
  refine ⟨⟨1, by decide, by decide, fun h => ?_⟩, rfl⟩
  have := h {} {} _ (List.mem_singleton_self _)
  exact absurd this (by decide)

/-- A read of `FOO` asks for `foo`. -/
theorem addresses_read_folded :
    Addresses lowercase (.read (bytes "FOO") 0 1) 1 :=
  (addresses_iff lowercase wf_lowercase rfl (.read (bytes "FOO") 0 1) 1 (by decide)).2 fun h =>
    absurd h (by decide)

end Call

end RemoteRoot

end WslDrive
