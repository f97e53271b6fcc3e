import WslDrive.Agent.Scanner
import WslDrive.Core.Coalescer
import WslDrive.Core.Protocol

/-!
# Flushing the coalescer

The agent's flusher takes the planned operations, asks the disk about each of their paths, adds the
contents of directories that have just appeared, and sends the batch in frames.
-/

namespace WslDrive

namespace RootServer

open Path Scanner

/-- The options of the server that flushing reads, and its ignore rules. -/
structure Options where
  snapshotChunkBytes : ℕ := 4194304
  oneFileSystem : Bool := true
  maxExpandedEntries : ℕ := 100000
  /-- `ignore_.ignored` of a path and whether it is a directory; none if there are no rules. -/
  ignored : Option (Bytes → Bool → Bool) := none

/-- The rules exclude a path. -/
def Options.excludes (opts : Options) (path : Bytes) (isDir : Bool) : Bool :=
  opts.ignored.any fun rule => rule path isDir

/-! ### Resolving -/

/-- The operation for what the disk says about a path now; none for a special file. -/
def resolveOp (op : PlannedOp) (attr : Option Attributes) : Option InvalidationOp :=
  if op.kind = .rescan then
    some { kind := op.kind, path := op.path, change := op.change, cookie := op.cookie }
  else
    match attr with
    | none =>
      let gone := op.change ≠ .movedFrom
      some { kind := .remove, path := op.path
             change := if gone then .removed else op.change
             cookie := if gone then 0 else op.cookie }
    | some attr =>
      if attr.kind = .other then none
      else
        let gone := op.change = .removed ∨ op.change = .movedFrom
        some { kind := .upsert, path := op.path, attr
               change := if gone then .modified else op.change
               cookie := if gone then 0 else op.cookie }

/-- One round of the loop of `flush_loop` over the planned operations, on the operations of the
batch and the directories to expand. -/
def resolveStep (opts : Options) (view : DiskView) (s : List InvalidationOp × List Bytes)
    (op : PlannedOp) : List InvalidationOp × List Bytes :=
  if op.kind != .rescan && (opts.excludes op.path false || opts.excludes op.path true) then s
  else
    match resolveOp op (view.attributes op.path) with
    | none => s
    | some out =>
      let appeared := op.appeared && out.kind == .upsert && out.attr.kind == .directory
      (s.1 ++ [out], if appeared then s.2 ++ [out.path] else s.2)

/-! ### Subtrees -/

/-- What the source leaves open about the memory of `ops` in `append_subtrees`, whose set `present`
holds views of the paths in `ops`.  When the vector outgrows its capacity it moves, and with it the
characters of a short string, which are kept in the string object: its view then dangles.  That a
dangling view makes the set find a path it does not have is left out. -/
structure Storage where
  /-- The capacity of the vector at the call. -/
  capacity : ℕ := 0
  /-- The longest string that is kept in its object. -/
  inlineLength : ℕ := 15
  /-- The lookup of a path after so many others finds its dangling view all the same. -/
  finds : ℕ → Bytes → Bool := fun _ _ => true

/-- The lookup of a path of `present` finds it, with `size` operations in the vector and after
`count` lookups. -/
def Storage.holds (mem : Storage) (size count : ℕ) (path : Bytes) : Bool :=
  size ≤ mem.capacity || mem.inlineLength < path.length || mem.finds count path

/-- The variables of `append_subtrees`. -/
structure Expansion where
  /-- The operations, those of the call first. -/
  ops : List InvalidationOp
  /-- The paths of the entries of the current scan, by index. -/
  rels : List Bytes := []
  /-- The number of entries so far. -/
  appended : ℕ := 0
  /-- There are too many. -/
  isOver : Bool := false

/-- The callback of `append_subtrees`. -/
def Expansion.onEntry (opts : Options) (mem : Storage) (present : List Bytes) (x : Expansion)
    (e : SnapshotEntry) : Expansion :=
  let p := x.rels.getD e.parent.toNat [] ++ slash :: e.name
  let appended := x.appended + 1
  let isOver := x.isOver || appended > opts.maxExpandedEntries
  let found := present.contains p && mem.holds x.ops.length x.appended p
  let op : InvalidationOp := { kind := .upsert, path := p, attr := e.attr, change := .created }
  { ops := if !isOver && !found then x.ops ++ [op] else x.ops
    rels := x.rels ++ [p], appended, isOver }

/-- The loop of `append_subtrees` over the sorted directories. -/
def expandLoop (opts : Options) (mem : Storage) (rounds : ℕ) (view : DiskView)
    (present : List Bytes) : Bytes → List Bytes → Expansion → Expansion
  | _, [], x => x
  | lastRoot, rel :: dirs, x =>
    if lastRoot ≠ [] ∧ pathIsUnder rel lastRoot then
      expandLoop opts mem rounds view present lastRoot dirs x
    else
      let x := (scanTree rounds view rel (Expansion.onEntry opts mem present)
        (fun x sub isDir => x.isOver || opts.excludes (rel ++ slash :: sub) isDir)
        opts.oneFileSystem { x with rels := [rel] }).2
      if x.isOver then x else expandLoop opts mem rounds view present rel dirs x

/-- `append_subtrees`. -/
def appendSubtrees (opts : Options) (mem : Storage) (rounds : ℕ) (view : DiskView)
    (dirs : List Bytes) (ops : List InvalidationOp) : List InvalidationOp :=
  let x := expandLoop opts mem rounds view (ops.map (·.path)) [] (dirs.insertionSort (· ≤ ·))
    { ops }
  if x.isOver then ops ++ [{ kind := .rescan, path := [] }] else x.ops

/-- The batch that `flush_loop` makes of planned operations, on a disk that does not change
meanwhile.  Room for as many operations as are planned is reserved. -/
def resolveBatch (opts : Options) (mem : Storage) (rounds : ℕ) (view : DiskView)
    (planned : List PlannedOp) : List InvalidationOp :=
  let (ops, expandDirs) := planned.foldl (resolveStep opts view) ([], [])
  let mem := { mem with capacity := max mem.capacity planned.length }
  repairMovePairs
    (if expandDirs ≠ [] then appendSubtrees opts mem rounds view expandDirs ops else ops)

/-! ### Sending -/

/-- The operations that still fit into a frame that holds `size` bytes, and the rest. -/
def fitChunk (budget : ℕ) : ℕ → List InvalidationOp → List InvalidationOp × List InvalidationOp
  | _, [] => ([], [])
  | size, op :: ops =>
    let size := size + op.path.length + 32
    if size > budget then ([], op :: ops)
    else
      let (chunk, rest) := fitChunk budget size ops
      (op :: chunk, rest)

/-- The first frame of `broadcast_batch`, which holds an operation at least, and the rest. -/
def firstChunk (opts : Options) : List InvalidationOp → List InvalidationOp × List InvalidationOp
  | [] => ([], [])
  | op :: ops =>
    let budget := min opts.snapshotChunkBytes (Proto.kMaxPayload / 2)
    let (chunk, rest) := fitChunk budget (op.path.length + 32) ops
    (op :: chunk, rest)

/-- The loop of `broadcast_batch`: the operations of its frames. -/
def chunks (opts : Options) : ℕ → List InvalidationOp → List (List InvalidationOp)
  | 0, _ => []
  | _ + 1, [] => []
  | fuel + 1, ops => (firstChunk opts ops).1 :: chunks opts fuel (firstChunk opts ops).2

/-- `broadcast_batch`: the batches of its frames. -/
def broadcastBatch (opts : Options) (batch : InvalidationBatch) : List InvalidationBatch :=
  (chunks opts batch.ops.length batch.ops).map fun ops => ⟨batch.generation, ops⟩

theorem fitChunk_append (budget size : ℕ) (ops : List InvalidationOp) :
    (fitChunk budget size ops).1 ++ (fitChunk budget size ops).2 = ops := by
  induction ops generalizing size with
  | nil => rfl
  | cons op ops ih =>
    rw [fitChunk]
    dsimp only
    split_ifs
    · rfl
    · rw [List.cons_append, ih]

theorem firstChunk_append (opts : Options) (ops : List InvalidationOp) :
    (firstChunk opts ops).1 ++ (firstChunk opts ops).2 = ops := by
  cases ops with
  | nil => rfl
  | cons op ops => rw [firstChunk, List.cons_append, fitChunk_append]

theorem length_firstChunk_lt (opts : Options) {ops : List InvalidationOp} (h : ops ≠ []) :
    (firstChunk opts ops).2.length < ops.length := by
  cases ops with
  | nil => exact absurd rfl h
  | cons op ops =>
    have := congrArg List.length (fitChunk_append
      (min opts.snapshotChunkBytes (Proto.kMaxPayload / 2)) (op.path.length + 32) ops)
    rw [List.length_append] at this
    rw [firstChunk, List.length_cons]
    dsimp only
    omega

/-- **The frames of a batch hold its operations**, in their order. -/
theorem flatten_chunks (opts : Options) {fuel : ℕ} {ops : List InvalidationOp}
    (hfuel : ops.length ≤ fuel) : (chunks opts fuel ops).flatten = ops := by
  induction fuel generalizing ops with
  | zero =>
    rw [List.length_eq_zero_iff.1 (Nat.le_zero.1 hfuel)]
    rfl
  | succ fuel ih =>
    cases ops with
    | nil => rfl
    | cons op ops =>
      have hlt := length_firstChunk_lt opts (List.cons_ne_nil op ops)
      rw [chunks, List.flatten_cons, ih (by omega), firstChunk_append]
      exact List.cons_ne_nil op ops

theorem flatMap_broadcastBatch (opts : Options) (batch : InvalidationBatch) :
    (broadcastBatch opts batch).flatMap (·.ops) = batch.ops := by
  rw [broadcastBatch, List.flatMap_map]
  exact List.flatMap_id.trans (flatten_chunks opts (Nat.le_refl _))

end RootServer

end WslDrive
