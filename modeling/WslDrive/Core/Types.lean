import Mathlib.Data.List.Basic

/-!
# Types shared by the two agents

Byte strings, the attributes of a filesystem entry, the kinds of invalidations and changes, and
the error codes.  Byte strings are lists of bytes: names and paths are not assumed to be text.
-/

namespace WslDrive

/-- A byte string. -/
abbrev Bytes := List UInt8

/-- The bytes of an ASCII literal. -/
def bytes (s : String) : Bytes := s.toList.map fun c => UInt8.ofNat c.toNat

/-- A property of bytes that holds for all 256 values, counted by their two hexadecimal digits. -/
theorem forall_byte {P : UInt8 → Prop}
    (h : ∀ hi < 16, ∀ lo < 16, P (UInt8.ofNat (16 * hi + lo))) (b : UInt8) : P b := by
  have hlt := b.toNat_lt
  have hb := h (b.toNat / 16) (by omega) (b.toNat % 16) (Nat.mod_lt _ (by decide))
  rwa [Nat.div_add_mod, UInt8.ofNat_toNat] at hb

/-- `NodeKind`. -/
inductive NodeKind where
  | file
  | directory
  | symlink
  /-- Sockets, fifos and devices: hidden from the remote view. -/
  | other
  deriving DecidableEq, Repr

/-- The value of a node kind in its 8-bit enumeration. -/
def NodeKind.code : NodeKind → UInt8
  | .file => 0
  | .directory => 1
  | .symlink => 2
  | .other => 3

/-- The node kind with a value. -/
def NodeKind.ofCode (c : UInt8) : Option NodeKind :=
  [NodeKind.file, .directory, .symlink, .other][c.toNat]?

@[simp] theorem NodeKind.ofCode_code (k : NodeKind) : NodeKind.ofCode k.code = some k := by
  cases k <;> rfl

/-- `Attributes`: what the source filesystem reports about an entry. -/
structure Attributes where
  size : UInt64 := 0
  /-- Modification time in nanoseconds since the Unix epoch. -/
  mtimeNs : Int64 := 0
  mode : UInt32 := 0
  kind : NodeKind := .file
  deriving DecidableEq, Repr

/-- `InvalidationKind`: what a mirror must do about a path. -/
inductive InvalidationKind where
  /-- Create or refresh the node with the attached attributes. -/
  | upsert
  /-- Drop the node and everything below it. -/
  | remove
  /-- The watcher lost events; fetch a snapshot again. -/
  | rescan
  deriving DecidableEq, Repr

/-- The value of an invalidation kind in its 8-bit enumeration. -/
def InvalidationKind.code : InvalidationKind → UInt8
  | .upsert => 0
  | .remove => 1
  | .rescan => 2

/-- The invalidation kind with a value. -/
def InvalidationKind.ofCode (c : UInt8) : Option InvalidationKind :=
  [InvalidationKind.upsert, .remove, .rescan][c.toNat]?

@[simp] theorem InvalidationKind.ofCode_code (k : InvalidationKind) :
    InvalidationKind.ofCode k.code = some k := by
  cases k <;> rfl

/-- `ChangeKind`: what actually happened to a path. -/
inductive ChangeKind where
  /-- No watcher event stands behind the op. -/
  | unknown
  | created
  | modified
  | removed
  | movedFrom
  | movedTo
  deriving DecidableEq, Repr

/-- The value of a change kind in its 8-bit enumeration. -/
def ChangeKind.code : ChangeKind → UInt8
  | .unknown => 0
  | .created => 1
  | .modified => 2
  | .removed => 3
  | .movedFrom => 4
  | .movedTo => 5

/-- The change kind with a value; values above `kMaxChangeKind` have none. -/
def ChangeKind.ofCode (c : UInt8) : Option ChangeKind :=
  [ChangeKind.unknown, .created, .modified, .removed, .movedFrom, .movedTo][c.toNat]?

@[simp] theorem ChangeKind.ofCode_code (k : ChangeKind) : ChangeKind.ofCode k.code = some k := by
  cases k <;> rfl

/-- `is_move`: the two halves of a rename, the only ops that carry a cookie. -/
def ChangeKind.isMove : ChangeKind → Bool
  | .movedFrom | .movedTo => true
  | _ => false

/-- `Errc`. -/
inductive Errc where
  | notFound
  | alreadyExists
  | notADirectory
  | isADirectory
  | invalidArgument
  | invalidPath
  /-- The buffer ended before a complete value could be read. -/
  | truncated
  | badMagic
  | unsupportedVersion
  | corrupt
  | ioError
  | tooLarge
  | connectionClosed
  | unsupported
  | timeout
  /-- The peer sent a well-formed frame that was not expected. -/
  | protocolError
  | unauthorized
  deriving DecidableEq, Repr

/-- `InvalidationOp`: one op of an invalidation batch. -/
structure InvalidationOp where
  kind : InvalidationKind
  /-- Normalised path relative to the mount root. -/
  path : Bytes
  attr : Attributes := {}
  change : ChangeKind := .unknown
  /-- Pairs the two halves of a move; 0 otherwise. -/
  cookie : UInt32 := 0
  deriving DecidableEq, Repr

/-- `InvalidationBatch`. -/
structure InvalidationBatch where
  generation : UInt64 := 0
  ops : List InvalidationOp := []
  deriving DecidableEq, Repr

/-- `SnapshotEntry`: one entry of a snapshot.  `parent` is 0 for the root and `k` for the `k`-th
entry of the same snapshot, so parents precede their children. -/
structure SnapshotEntry where
  parent : UInt32
  name : Bytes
  attr : Attributes
  deriving DecidableEq, Repr

end WslDrive
