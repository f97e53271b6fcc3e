import WslDrive.Core.MetadataTree
import WslDrive.Core.MovePairs

/-!
# The client's mirror

`RemoteRoot` keeps a mirror of the served tree.  Three things change the mirror: invalidation
batches of the agent, which the reader thread applies; replies to the client's own mutations,
which the calling thread applies; and snapshots.  Each is a function on the state that the lock
of the mirror protects.  A function for a mutation is what the client does once the reply has been
received, so it takes the generation that the agent acknowledged.

The caches of contents, link targets and prefetched directories, the statistics and the hooks are
not part of the state.
-/

namespace WslDrive

namespace RemoteRoot

/-- `AppliedChange`: what a batch did to one path of the mirror. -/
structure AppliedChange where
  change : ChangeKind := .unknown
  path : Bytes := []
  cookie : UInt32 := 0
  kind : NodeKind := .file
  /-- The whole mirror was replaced. -/
  rescan : Bool := false
  deriving DecidableEq, Repr

instance : HasChange AppliedChange where
  change op := op.change
  cookie op := op.cookie
  withChange op change cookie := { op with change, cookie }

/-- `kMaxSnapshotReplay`: batches that are recorded during a snapshot request. -/
def kMaxSnapshotReplay : ℕ := 4096

/-- Mutations are forgotten when there are more than this. -/
def kMaxLocalMutations : ℕ := 65536

end RemoteRoot

/-- `RemoteRoot`: the state behind `tree_mu_`, and the request of a rescan. -/
structure RemoteRoot where
  tree : MetadataTree := .fresh
  lookupMode : LookupMode := .exact
  /-- Paths this client mutated, with the generation the agent acknowledged. -/
  localMutations : AList (fun _ : Bytes => UInt64) := ∅
  snapshotInFlight : Bool := false
  /-- Batches that arrived while a snapshot is being fetched. -/
  snapshotReplay : List InvalidationBatch := []
  snapshotReplayOverflow : Bool := false
  rsRequested : Bool := false

namespace RemoteRoot

open MetadataTree Path

variable (c : RemoteRoot)

/-! ### Mutations -/

/-- `note_mutation`: remember the generation of an own mutation, and forget all if there are too
many. -/
def noteMutation (path : Bytes) (generation : UInt64) : RemoteRoot :=
  let table := if c.localMutations.entries.length > kMaxLocalMutations then ∅
    else c.localMutations
  { c with localMutations := table.insert (normalizePath path) generation }

/-- `bump_mtime` at the time `now`. -/
def bumpMtime (now previous : Int64) : Int64 := max now (previous + 1)

/-- `create_file`, after the reply. -/
def createFile (path : Bytes) (attr : Attributes) (gen : UInt64) : RemoteRoot :=
  { c with tree := (c.tree.upsertPath path attr).2 }.noteMutation path gen

/-- `write`, after the reply: the file is at least as long as what was written. -/
def write (now : Int64) (path : Bytes) (offset written gen : UInt64) : RemoteRoot :=
  let last := offset + written
  let tree := match c.tree.lookup path c.lookupMode with
    | some id =>
      let a := (c.tree.nodes id).attr
      (c.tree.setAttributes id
        { a with size := max a.size last, mtimeNs := bumpMtime now a.mtimeNs }).2
    | none =>
      (c.tree.upsertPath path
        { size := last, mtimeNs := bumpMtime now 0, mode := 0o644, kind := .file }).2
  { c with tree }.noteMutation path gen

/-- `truncate`, after the reply. -/
def truncate (now : Int64) (path : Bytes) (size gen : UInt64) : RemoteRoot :=
  let tree := match c.tree.lookup path c.lookupMode with
    | some id =>
      let a := (c.tree.nodes id).attr
      (c.tree.setAttributes id { a with size := size, mtimeNs := bumpMtime now a.mtimeNs }).2
    | none => c.tree
  { c with tree }.noteMutation path gen

/-- `mkdir`, after the reply. -/
def mkdir (path : Bytes) (mode : UInt32) (gen : UInt64) : RemoteRoot :=
  { c with tree := (c.tree.upsertPath path
      { size := 0, mtimeNs := 0, mode, kind := .directory }).2 }.noteMutation path gen

/-- `unlink`, after the reply. -/
def unlink (path : Bytes) (gen : UInt64) : RemoteRoot :=
  { c with tree := (c.tree.removePath path c.lookupMode).2 }.noteMutation path gen

/-- `rmdir`, after the reply. -/
def rmdir (path : Bytes) (gen : UInt64) : RemoteRoot :=
  { c with tree := (c.tree.removePath path c.lookupMode).2 }.noteMutation path gen

/-- Remove what a path resolves to unless that is the node `keep`. -/
def removeOther (t : MetadataTree) (path : Bytes) (mode : LookupMode) (keep : Option NodeId) :
    MetadataTree :=
  match t.lookup path mode with
  | some victim => if some victim ≠ keep then (t.remove victim).2 else t
  | none => t

/-- Move a node over what stands in its way. -/
def moveNode (t : MetadataTree) (mode : LookupMode) (id newParent : NodeId) (nto leaf : Bytes) :
    MetadataTree :=
  match t.rename id newParent leaf with
  | (.ok (), t) => t
  | (.error _, t) => ((removeOther t nto mode (some id)).rename id newParent leaf).2

/-- What `rename` does to the tree, on normalised paths. -/
def renameTree (t : MetadataTree) (mode : LookupMode) (nfrom nto : Bytes) : MetadataTree :=
  let id := t.lookup nfrom mode
  let t := removeOther t nto mode id
  match id with
  -- Not mirrored yet; the watcher's invalidation will add it.
  | none => t
  | some id =>
    let (parent, leaf) := splitParent nto
    match if parent = [] then (.ok root, t) else t.ensureDirectoryPath parent with
    | (.error _, t) => t
    | (.ok newParent, t) => moveNode t mode id newParent nto leaf

/-- `rename`. -/
def rename (src dst : Bytes) (gen : UInt64) : RemoteRoot :=
  let nfrom := normalizePath src
  let nto := normalizePath dst
  if nfrom = nto then c
  else
    let c := (c.noteMutation nfrom gen).noteMutation nto gen
    { c with tree := renameTree c.tree c.lookupMode nfrom nto }

/-- A successful mutation, with what its reply says. -/
inductive Mutation where
  | createFile (path : Bytes) (attr : Attributes) (gen : UInt64)
  | write (now : Int64) (path : Bytes) (offset written gen : UInt64)
  | truncate (now : Int64) (path : Bytes) (size gen : UInt64)
  | mkdir (path : Bytes) (mode : UInt32) (gen : UInt64)
  | unlink (path : Bytes) (gen : UInt64)
  | rmdir (path : Bytes) (gen : UInt64)
  | rename (src dst : Bytes) (gen : UInt64)

/-- The paths a mutation names. -/
def Mutation.touched : Mutation → List Bytes
  | .createFile path _ _ | .write _ path _ _ _ | .truncate _ path _ _ | .mkdir path _ _
  | .unlink path _ | .rmdir path _ => [path]
  | .rename src dst _ => [src, dst]

/-- What the calling thread does when it has the reply. -/
def process : Mutation → RemoteRoot
  | .createFile path attr gen => c.createFile path attr gen
  | .write now path offset written gen => c.write now path offset written gen
  | .truncate now path size gen => c.truncate now path size gen
  | .mkdir path mode gen => c.mkdir path mode gen
  | .unlink path gen => c.unlink path gen
  | .rmdir path gen => c.rmdir path gen
  | .rename src dst gen => c.rename src dst gen

/-! ### Invalidation batches -/

/-- The stale-op filter of `apply_invalidation`: `none` if the op is older than this client's own
mutation of its path, otherwise the table without the mutation it has caught up with. -/
def admits (generation : UInt64) (op : InvalidationOp) : Option RemoteRoot :=
  if op.kind = .rescan then some c
  else
    match c.localMutations.lookup op.path with
    | none => some c
    | some acked =>
      if generation ≤ acked then none
      else some { c with localMutations := c.localMutations.erase op.path }

/-- The change that an op makes, decided against what the mirror held before. -/
def appliedChange (op : InvalidationOp) : Option AppliedChange :=
  let id := c.tree.lookup op.path c.lookupMode
  match op.kind with
  | .upsert =>
    let change := if op.change.isMove then op.change
      else if id.isSome then .modified else .created
    some { change, path := op.path, cookie := op.cookie, kind := op.attr.kind }
  | .remove =>
    if id.isSome || op.change == .movedFrom then
      let kind := id.elim .file fun id => (c.tree.nodes id).attr.kind
      let change := if op.change = .movedFrom then .movedFrom else .removed
      some { change, path := op.path, cookie := op.cookie, kind }
    else none
  | .rescan => none

/-- What an op that passes the filter does to the tree. -/
def applyTree (t : MetadataTree) (mode : LookupMode) (op : InvalidationOp) : MetadataTree :=
  match op.kind with
  | .upsert => (t.upsertPath op.path op.attr).2
  | .remove => (t.removePath op.path mode).2
  | .rescan => t

/-- An op that passes the filter. -/
def perform (op : InvalidationOp) : RemoteRoot :=
  { c with tree := applyTree c.tree c.lookupMode op
           rsRequested := c.rsRequested || op.kind == .rescan }

/-- One round of the loop of `apply_invalidation`. -/
def applyOp (generation : UInt64) (s : RemoteRoot × List AppliedChange) (op : InvalidationOp) :
    RemoteRoot × List AppliedChange :=
  match s.1.admits generation op with
  | none => s
  | some c => (c.perform op, s.2 ++ (c.appliedChange op).toList)

/-- Keep a batch for the snapshot that is being fetched. -/
def record (batch : InvalidationBatch) : RemoteRoot :=
  if !c.snapshotInFlight then c
  else if c.snapshotReplay.length < kMaxSnapshotReplay then
    { c with snapshotReplay := c.snapshotReplay ++ [batch] }
  else { c with snapshotReplayOverflow := true }

/-- `apply_invalidation`, with the changes it reports. -/
def applyInvalidation (batch : InvalidationBatch) : RemoteRoot × List AppliedChange :=
  let s := batch.ops.foldl (applyOp batch.generation) (c, [])
  (s.1.record batch, repairMovePairs s.2)

/-! ### Snapshots -/

/-- The start of `fetch_snapshot`. -/
def beginSnapshot : RemoteRoot := { c with snapshotInFlight := true, snapshotReplay := [] }

/-- `EndRecording`. -/
def endRecording : RemoteRoot :=
  { c with snapshotInFlight := false, snapshotReplay := [], snapshotReplayOverflow := false }

/-- The replay of one batch over a fresh snapshot. -/
def replay (t : MetadataTree) (batch : InvalidationBatch) : MetadataTree :=
  batch.ops.foldl (fun t op => applyTree t .exact op) t

/-- The recorded batches that a snapshot stamped `snapGen` may have missed. -/
def missed (snapGen : UInt64) : List InvalidationBatch :=
  c.snapshotReplay.filter fun b => !(b.generation ≤ snapGen)

/-- The end of `fetch_snapshot`, when the reply has come. -/
def endSnapshot (reply : Except Errc (List SnapshotEntry × UInt64)) :
    Except Errc Unit × RemoteRoot :=
  match reply with
  | .error e => (.error e, c.endRecording)
  | .ok (entries, snapGen) =>
    match c.tree.loadSnapshot entries with
    | (.error e, tree) => (.error e, { c with tree }.endRecording)
    | (.ok (), tree) =>
      (.ok (), { c with tree := (c.missed snapGen).foldl replay tree
                        rsRequested := c.rsRequested || c.snapshotReplayOverflow }.endRecording)

end RemoteRoot

end WslDrive
