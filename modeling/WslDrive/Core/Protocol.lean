import Mathlib.Algebra.Ring.Nat
import WslDrive.Core.Types
import WslDrive.Lib.Codec

/-!
# The wire protocol

Every message is a fixed 24-byte little-endian frame header followed by a payload.  Payloads mix
fixed-width integers, LEB128 varints for sizes and counts, and length-prefixed byte strings.

A `Writer` only appends, so what it writes is a byte string and writing one field after another
is concatenation.  A `Reader` keeps a position in its input; here its state is the input from
that position on.  Both keep the names of the source.

Every codec is a writer and a reader of one of the structures of the protocol.  That what is written
is read back is proved in `WslDrive.Core.RoundTrip`.
-/

namespace WslDrive

namespace Proto

open Codec

/-! ### Constants -/

/-- `kMagic`: "WSLD" read as little-endian bytes. -/
def kMagic : ℕ := 0x444C5357

/-- `kVersion`. -/
def kVersion : ℕ := 4

/-- `kHeaderSize`. -/
def kHeaderSize : ℕ := 24

/-- `kMaxPayload`: 64 MiB per frame. -/
def kMaxPayload : ℕ := 64 * 2 ^ 20

/-- `kMaxReadManyPaths`: most paths one bulk read may carry. -/
def kMaxReadManyPaths : ℕ := 4096

/-! ### Integers -/

/-- `put_le`: the low `n` bytes of `v`, lowest first. -/
def putLe (v : ℕ) : ℕ → Bytes
  | 0 => []
  | n + 1 => UInt8.ofNat (v &&& 0xFF) :: putLe (v >>> 8) n

/-- `get_le`. -/
def getLe : Bytes → ℕ
  | [] => 0
  | b :: bs => b.toNat ||| (getLe bs <<< 8)

/-! ### Writer and reader

The functions keep the names of the two classes' members. -/

namespace Writer

/-- One byte. -/
def u8 (v : UInt8) : Bytes := [v]

/-- Two bytes, little-endian. -/
def u16 (v : UInt16) : Bytes := putLe v.toNat 2

/-- Four bytes, little-endian. -/
def u32 (v : UInt32) : Bytes := putLe v.toNat 4

/-- Eight bytes, little-endian. -/
def u64 (v : UInt64) : Bytes := putLe v.toNat 8

/-- Eight bytes, two's complement. -/
def i64 (v : Int64) : Bytes := u64 v.toUInt64

/-- The loop of `Writer::varint`; a 64-bit value has at most nine bytes before its last. -/
def varintLoop : ℕ → ℕ → Bytes
  | 0, v => [UInt8.ofNat v]
  | n + 1, v =>
    if 0x80 ≤ v then UInt8.ofNat ((v &&& 0x7F) ||| 0x80) :: varintLoop n (v >>> 7)
    else [UInt8.ofNat v]

/-- LEB128: seven bits a byte, the high bit on all but the last. -/
def varint (v : UInt64) : Bytes := varintLoop 9 v.toNat

/-- The bytes as they are. -/
def raw (b : Bytes) : Bytes := b

/-- `Writer::string`: the length, then the bytes. -/
def string (s : Bytes) : Bytes := varint (UInt64.ofNat s.length) ++ s

/-- A length, and that many bytes. -/
def blob (b : Bytes) : Bytes := varint (UInt64.ofNat b.length) ++ raw b

end Writer

/-- A `Reader`: the bytes from its position on are its state. -/
abbrev Reader := Decoder Errc UInt8

namespace Reader

/-- The common part of the fixed-width reads. -/
def fixed (n : ℕ) : Reader ℕ := do
  if (← remaining) < n then throw .truncated
  else do
    let s ← get
    set (s.drop n)
    return getLe (s.take n)

/-- One byte. -/
def u8 : Reader UInt8 := do
  match ← get with
  | [] => throw .truncated
  | b :: s => do
    set s
    return b

/-- Two bytes, little-endian. -/
def u16 : Reader UInt16 := return UInt16.ofNat (← fixed 2)

/-- Four bytes, little-endian. -/
def u32 : Reader UInt32 := return UInt32.ofNat (← fixed 4)

/-- Eight bytes, little-endian. -/
def u64 : Reader UInt64 := return UInt64.ofNat (← fixed 8)

/-- Eight bytes, two's complement. -/
def i64 : Reader Int64 := return (← u64).toInt64

/-- The loop of `Reader::varint`; `shift` grows by 7 while it is below 64. -/
def varintLoop : ℕ → ℕ → ℕ → Reader UInt64
  | 0, _, _ => throw .corrupt
  | n + 1, shift, v => do
    let b ← u8
    let v := v ||| (((b &&& 0x7F).toNat <<< shift) % 2 ^ 64)
    if b &&& 0x80 = 0 then
      -- the tenth byte may carry at most one payload bit
      if shift = 63 ∧ 1 < b then throw .corrupt else return UInt64.ofNat v
    else varintLoop n (shift + 7) v

/-- LEB128 of at most ten bytes. -/
def varint : Reader UInt64 := varintLoop 10 0 0

/-- The next `n` bytes. -/
def raw (n : ℕ) : Reader Bytes := do
  if (← remaining) < n then throw .truncated
  else do
    let s ← get
    set (s.drop n)
    return s.take n

/-- A length, and that many bytes. -/
def string : Reader Bytes := do
  let len ← varint
  if (← remaining) < len.toNat then throw .truncated
  else do
    let s ← get
    set (s.drop len.toNat)
    return s.take len.toNat

/-- A length, and that many bytes. -/
def blob : Reader Bytes := do
  let len ← varint
  if (← remaining) < len.toNat then throw .truncated
  else raw len.toNat

end Reader

/-! ### Frame header -/

/-- `MsgType`: the message types that have a name. -/
inductive MsgType where
  | hello | helloAck | snapshotRequest | snapshot | invalidation | readRequest | readResponse
  | error | ping | pong | writeRequest | writeResponse | createRequest | createResponse
  | mkdirRequest | unlinkRequest | rmdirRequest | renameRequest | truncateRequest | ok
  | readManyRequest | readManyResponse | readlinkRequest | readlinkResponse | auth
  deriving DecidableEq, Repr

/-- The message types in the order of their codes, which start at 1. -/
def MsgType.all : List MsgType :=
  [.hello, .helloAck, .snapshotRequest, .snapshot, .invalidation, .readRequest, .readResponse,
    .error, .ping, .pong, .writeRequest, .writeResponse, .createRequest, .createResponse,
    .mkdirRequest, .unlinkRequest, .rmdirRequest, .renameRequest, .truncateRequest, .ok,
    .readManyRequest, .readManyResponse, .readlinkRequest, .readlinkResponse, .auth]

/-- The message type with a code.  The enumeration of the source has a fixed 16-bit type, so a
header can carry codes without a name. -/
def MsgType.ofCode (c : UInt16) : Option MsgType :=
  if c = 0 then none else MsgType.all[c.toNat - 1]?

/-- The code of a message type. -/
def MsgType.code (t : MsgType) : UInt16 := UInt16.ofNat (MsgType.all.idxOf t + 1)

/-- `FrameHeader`. -/
structure FrameHeader where
  /-- Code of the message type. -/
  type : UInt16
  /-- Flag bits. -/
  flags : UInt32 := 0
  /-- Length of the payload. -/
  payloadLen : UInt32 := 0
  /-- Id of the request the frame belongs to. -/
  requestId : UInt64 := 0
  deriving DecidableEq, Repr

/-- `encode_header`. -/
def encodeHeader (h : FrameHeader) : Bytes :=
  putLe kMagic 4 ++ (putLe kVersion 2 ++ (putLe h.type.toNat 2 ++ (putLe h.flags.toNat 4 ++
    (putLe h.payloadLen.toNat 4 ++ putLe h.requestId.toNat 8))))

/-- `decode_header`. -/
def decodeHeader (b : Bytes) : Except Errc FrameHeader :=
  if b.length < kHeaderSize then .error .truncated
  else if getLe (b.take 4) ≠ kMagic then .error .badMagic
  else if getLe ((b.drop 4).take 2) ≠ kVersion then .error .unsupportedVersion
  else
    let h : FrameHeader := {
      type := UInt16.ofNat (getLe ((b.drop 6).take 2))
      flags := UInt32.ofNat (getLe ((b.drop 8).take 4))
      payloadLen := UInt32.ofNat (getLe ((b.drop 12).take 4))
      requestId := UInt64.ofNat (getLe ((b.drop 16).take 8)) }
    if kMaxPayload < h.payloadLen.toNat then .error .tooLarge else .ok h

/-! ### Messages

The messages and their codecs keep the names of the source; the codec of a message reads and
writes its fields one after the other. -/

/-- `Hello`: the message of the handshake, in both directions. -/
structure Hello where
  protocolVersion : UInt32 := 4
  capabilities : UInt64 := 0
  /-- Free-form name and version, for diagnostics. -/
  agent : Bytes := []
  /-- Random value of the sender for this session. -/
  nonce : Bytes := []
  /-- Proof of knowledge of the shared secret. -/
  proof : Bytes := []
  deriving DecidableEq, Repr

/-- `SnapshotHeader`, before the entries. -/
structure SnapshotHeader where
  /-- Generation the agent stamped before its scan. -/
  generation : UInt64
  count : UInt32
  deriving DecidableEq, Repr

/-- `ReadRequest`. -/
structure ReadRequest where
  path : Bytes
  offset : UInt64 := 0
  length : UInt32 := 0
  deriving DecidableEq, Repr

/-- `ReadResponse`. -/
structure ReadResponse where
  fileSize : UInt64 := 0
  data : Bytes := []
  deriving DecidableEq, Repr

/-- `ErrorMessage`, the reply to a request that fails. -/
structure ErrorMessage where
  code : UInt32 := 0
  detail : Bytes := []
  deriving DecidableEq, Repr

/-- `WriteRequest`. -/
structure WriteRequest where
  path : Bytes
  offset : UInt64 := 0
  data : Bytes := []
  deriving DecidableEq, Repr

/-- `MutationAck`, the reply to the other mutations. -/
structure MutationAck where
  /-- Generation of the agent when the mutation completed. -/
  generation : UInt64 := 0
  deriving DecidableEq, Repr

/-- `WriteResponse`. -/
structure WriteResponse where
  written : UInt64 := 0
  /-- Generation of the agent when the write completed. -/
  generation : UInt64 := 0
  deriving DecidableEq, Repr

/-- `CreateRequest` and `MkdirRequest`, which differ in the default of `mode` only. -/
structure ModeRequest where
  path : Bytes
  mode : UInt32
  deriving DecidableEq, Repr

/-- `PathRequest`: of unlink, rmdir and readlink. -/
structure PathRequest where
  path : Bytes
  deriving DecidableEq, Repr

/-- `TruncateRequest`. -/
structure TruncateRequest where
  path : Bytes
  size : UInt64 := 0
  deriving DecidableEq, Repr

/-- `RenameRequest`. -/
structure RenameRequest where
  source : Bytes
  target : Bytes
  deriving DecidableEq, Repr

/-- `ReadManyRequest`. -/
structure ReadManyRequest where
  paths : List Bytes
  deriving DecidableEq, Repr

/-- `ReadManyItem`; its data is valid only if it is ok. -/
structure ReadManyItem where
  ok : Bool := false
  data : Bytes := []
  /-- A file that could not be read has no contents. -/
  valid : ok = false → data = [] := by simp
  deriving DecidableEq

/-- `ReadManyResponse`. -/
structure ReadManyResponse where
  items : List ReadManyItem
  deriving DecidableEq

/-- `ReadlinkResponse`. -/
structure ReadlinkResponse where
  target : Bytes
  deriving DecidableEq, Repr

/-- `write_attributes`. -/
def writeAttributes (a : Attributes) : Bytes :=
  Writer.u8 a.kind.code ++ (Writer.varint a.mode.toUInt64 ++
    (Writer.varint a.size ++ Writer.i64 a.mtimeNs))

/-- A varint that must fit 32 bits, as the mode fields are read. -/
def readVarint32 : Reader UInt32 := do
  let v ← Reader.varint
  if 0xFFFFFFFF < v then throw .corrupt else return v.toUInt32

/-- `read_attributes`. -/
def readAttributes : Reader Attributes := do
  let kind ← Reader.u8
  match NodeKind.ofCode kind with
  | none => throw .corrupt
  | some kind => do
    let mode ← readVarint32
    let size ← Reader.varint
    let mtime ← Reader.i64
    return { size := size, mtimeNs := mtime, mode := mode, kind := kind }

/-- `write_hello`. -/
def writeHello (h : Hello) : Bytes :=
  Writer.u32 h.protocolVersion ++ (Writer.u64 h.capabilities ++ (Writer.string h.agent ++
    (Writer.string h.nonce ++ Writer.string h.proof)))

/-- `read_hello`. -/
def readHello : Reader Hello := do
  let v ← Reader.u32
  let caps ← Reader.u64
  let agent ← Reader.string
  let nonce ← Reader.string
  let proof ← Reader.string
  return { protocolVersion := v, capabilities := caps, agent := agent, nonce := nonce,
           proof := proof }

/-- `write_snapshot_header`. -/
def writeSnapshotHeader (h : SnapshotHeader) : Bytes :=
  Writer.u64 h.generation ++ Writer.u32 h.count

/-- `read_snapshot_header`; an entry takes at least 16 bytes. -/
def readSnapshotHeader : Reader SnapshotHeader := do
  let gen ← Reader.u64
  let count ← Reader.u32
  if (← remaining) < count.toNat * 16 then throw .corrupt
  else return { generation := gen, count := count }

/-- `write_snapshot_entry`. -/
def writeSnapshotEntry (e : SnapshotEntry) : Bytes :=
  Writer.u32 e.parent ++ (writeAttributes e.attr ++ Writer.string e.name)

/-- `read_snapshot_entry`. -/
def readSnapshotEntry : Reader SnapshotEntry := do
  let parent ← Reader.u32
  let attr ← readAttributes
  let name ← Reader.string
  return { parent := parent, name := name, attr := attr }

/-- The loop of `read_snapshot`: what the callback makes of so many entries. -/
def readSnapshotLoop {σ : Type} (onEntry : σ → SnapshotEntry → σ) : ℕ → σ → Reader σ
  | 0, out => return out
  | n + 1, out => do
    let e ← readSnapshotEntry
    readSnapshotLoop onEntry n (onEntry out e)

/-- `read_snapshot`: the generation, and what the callback makes of the entries. -/
def readSnapshot {σ : Type} (onEntry : σ → SnapshotEntry → σ) (out : σ) : Reader (UInt64 × σ) := do
  let hdr ← readSnapshotHeader
  let out ← readSnapshotLoop onEntry hdr.count.toNat out
  return (hdr.generation, out)

/-- One op of `write_invalidation`: attributes for an upsert only, a cookie for a move only. -/
def writeInvalidationOp (op : InvalidationOp) : Bytes :=
  Writer.u8 op.kind.code ++ (Writer.string op.path ++
    ((if op.kind = .upsert then writeAttributes op.attr else []) ++
      (Writer.u8 op.change.code ++ (if op.change.isMove then Writer.u32 op.cookie else []))))

/-- `write_invalidation`. -/
def writeInvalidation (b : InvalidationBatch) : Bytes :=
  Writer.u64 b.generation ++ (Writer.varint (UInt64.ofNat b.ops.length) ++
    b.ops.flatMap writeInvalidationOp)

/-- One round of the loop of `read_invalidation`. -/
def readInvalidationOp : Reader InvalidationOp := do
  let kind ← Reader.u8
  match InvalidationKind.ofCode kind with
  | none => throw .corrupt
  | some kind => do
    let path ← Reader.string
    let attr ← (if kind = .upsert then readAttributes else pure {} : Reader Attributes)
    let change ← Reader.u8
    match ChangeKind.ofCode change with
    | none => throw .corrupt
    | some change => do
      let cookie ← (if change.isMove then Reader.u32 else pure 0 : Reader UInt32)
      return { kind := kind, path := path, attr := attr, change := change, cookie := cookie }

/-- `read_invalidation`. -/
def readInvalidation : Reader InvalidationBatch := do
  let gen ← Reader.u64
  let count ← Reader.varint
  if (← remaining) < count.toNat then throw .corrupt
  else do
    let ops ← readN readInvalidationOp count.toNat
    return { generation := gen, ops := ops }

/-- `write_read_request`. -/
def writeReadRequest (q : ReadRequest) : Bytes :=
  Writer.u64 q.offset ++ (Writer.u32 q.length ++ Writer.string q.path)

/-- `read_read_request`. -/
def readReadRequest : Reader ReadRequest := do
  let off ← Reader.u64
  let len ← Reader.u32
  let path ← Reader.string
  return { path := path, offset := off, length := len }

/-- `write_read_response`. -/
def writeReadResponse (p : ReadResponse) : Bytes :=
  Writer.u64 p.fileSize ++ Writer.blob p.data

/-- `read_read_response`. -/
def readReadResponse : Reader ReadResponse := do
  let size ← Reader.u64
  let data ← Reader.blob
  return { fileSize := size, data := data }

/-- `write_error`. -/
def writeError (e : ErrorMessage) : Bytes := Writer.u32 e.code ++ Writer.string e.detail

/-- `read_error`. -/
def readError : Reader ErrorMessage := do
  let code ← Reader.u32
  let detail ← Reader.string
  return { code := code, detail := detail }

/-- `write_write_request`. -/
def writeWriteRequest (q : WriteRequest) : Bytes :=
  Writer.u64 q.offset ++ (Writer.string q.path ++ Writer.blob q.data)

/-- `read_write_request`. -/
def readWriteRequest : Reader WriteRequest := do
  let off ← Reader.u64
  let path ← Reader.string
  let data ← Reader.blob
  return { path := path, offset := off, data := data }

/-- `write_write_response`. -/
def writeWriteResponse (p : WriteResponse) : Bytes :=
  Writer.u64 p.written ++ Writer.u64 p.generation

/-- `read_write_response`. -/
def readWriteResponse : Reader WriteResponse := do
  let n ← Reader.u64
  let g ← Reader.u64
  return { written := n, generation := g }

/-- `write_mutation_ack`. -/
def writeMutationAck (a : MutationAck) : Bytes := Writer.u64 a.generation

/-- `read_mutation_ack`. -/
def readMutationAck : Reader MutationAck := return { generation := ← Reader.u64 }

/-- `write_create_request` and `write_mkdir_request`. -/
def writeModeRequest (q : ModeRequest) : Bytes :=
  Writer.varint q.mode.toUInt64 ++ Writer.string q.path

/-- `read_create_request` and `read_mkdir_request`. -/
def readModeRequest : Reader ModeRequest := do
  let mode ← readVarint32
  let path ← Reader.string
  return { path := path, mode := mode }

/-- `write_create_request`. -/
def writeCreateRequest : ModeRequest → Bytes := writeModeRequest

/-- `read_create_request`. -/
def readCreateRequest : Reader ModeRequest := readModeRequest

/-- `write_mkdir_request`. -/
def writeMkdirRequest : ModeRequest → Bytes := writeModeRequest

/-- `read_mkdir_request`. -/
def readMkdirRequest : Reader ModeRequest := readModeRequest

/-- `write_path_request`. -/
def writePathRequest (q : PathRequest) : Bytes := Writer.string q.path

/-- `read_path_request`. -/
def readPathRequest : Reader PathRequest := return { path := ← Reader.string }

/-- `write_truncate_request`. -/
def writeTruncateRequest (q : TruncateRequest) : Bytes :=
  Writer.u64 q.size ++ Writer.string q.path

/-- `read_truncate_request`. -/
def readTruncateRequest : Reader TruncateRequest := do
  let size ← Reader.u64
  let path ← Reader.string
  return { path := path, size := size }

/-- `write_rename_request`. -/
def writeRenameRequest (q : RenameRequest) : Bytes :=
  Writer.string q.source ++ Writer.string q.target

/-- `read_rename_request`. -/
def readRenameRequest : Reader RenameRequest := do
  let source ← Reader.string
  let target ← Reader.string
  return { source := source, target := target }

/-- `write_read_many_request`. -/
def writeReadManyRequest (q : ReadManyRequest) : Bytes :=
  Writer.varint (UInt64.ofNat q.paths.length) ++ q.paths.flatMap Writer.string

/-- `read_read_many_request`. -/
def readReadManyRequest : Reader ReadManyRequest := do
  let count ← Reader.varint
  if (← remaining) < count.toNat then throw .corrupt
  else if kMaxReadManyPaths < count.toNat then throw .invalidArgument
  else do
    let paths ← readN Reader.string count.toNat
    return { paths := paths }

/-- One item of `write_read_many_response`. -/
def writeReadManyItem (it : ReadManyItem) : Bytes :=
  Writer.u8 (if it.ok then 1 else 0) ++ (if it.ok then Writer.blob it.data else [])

/-- `write_read_many_response`. -/
def writeReadManyResponse (p : ReadManyResponse) : Bytes :=
  Writer.varint (UInt64.ofNat p.items.length) ++ p.items.flatMap writeReadManyItem

/-- One round of the loop of `read_read_many_response`. -/
def readReadManyItem : Reader ReadManyItem := do
  let ok ← Reader.u8
  if ok ≠ 0 then do
    let data ← Reader.blob
    return { ok := true, data := data }
  else return {}

/-- `read_read_many_response`. -/
def readReadManyResponse : Reader ReadManyResponse := do
  let count ← Reader.varint
  if (← remaining) < count.toNat then throw .corrupt
  else do
    let items ← readN readReadManyItem count.toNat
    return { items := items }

/-- `write_readlink_response`. -/
def writeReadlinkResponse (p : ReadlinkResponse) : Bytes := Writer.string p.target

/-- `read_readlink_response`. -/
def readReadlinkResponse : Reader ReadlinkResponse := return { target := ← Reader.string }

end Proto

/-- `Frame`: what a channel receives. -/
structure Frame where
  header : Proto.FrameHeader
  payload : Bytes
  deriving DecidableEq, Repr

end WslDrive
