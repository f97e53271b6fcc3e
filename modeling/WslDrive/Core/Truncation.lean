import WslDrive.Core.RoundTrip

/-!
# Decoders on bytes that no encoder wrote

A peer can send anything, and a connection can end anywhere.  Every decoder of the protocol stays
within its input, also when it fails; it decodes no more list elements than the input has bytes;
and a success is not changed by bytes that come behind.  So an encoding that was cut short is
never taken for a message.

* `Proto.IsDecoder.forward` — the decoders only move forward, and successes are stable;
* `Proto.MsgKind.elements_le` — the checks on claimed counts bound the list elements that are
  decoded;
* `Proto.decoders_stable` — the three facts for all decoders and all messages.
-/

namespace WslDrive

namespace Proto

open Codec

/-! ### Fields -/

theorem forward_fixed (n : ℕ) : Forward (Reader.fixed n) := Forward.take n Errc.truncated getLe

theorem forward_u8 : Forward Reader.u8 where
  suffix s := by
    cases s with
    | nil => exact List.suffix_rfl
    | cons b s => exact List.suffix_cons b s
  extend {s a rest} h t := by
    cases s with
    | nil => cases h
    | cons b s =>
      cases h
      rfl

theorem forward_u16 : Forward Reader.u16 := (forward_fixed 2).bind fun _ => Forward.pure _

theorem forward_u32 : Forward Reader.u32 := (forward_fixed 4).bind fun _ => Forward.pure _

theorem forward_u64 : Forward Reader.u64 := (forward_fixed 8).bind fun _ => Forward.pure _

theorem forward_i64 : Forward Reader.i64 := forward_u64.bind fun _ => Forward.pure _

theorem forward_varintLoop (n shift v : ℕ) : Forward (Reader.varintLoop n shift v) := by
  induction n generalizing shift v with
  | zero => exact Forward.throw _
  | succ n ih =>
    refine forward_u8.bind fun b => Forward.ite ?_ (ih _ _)
    exact Forward.ite (Forward.throw _) (Forward.pure _)

theorem forward_varint : Forward Reader.varint := forward_varintLoop 10 0 0

theorem forward_raw (n : ℕ) : Forward (Reader.raw n) := Forward.take n Errc.truncated fun s => s

theorem forward_string : Forward Reader.string :=
  forward_varint.bind fun len => Forward.take len.toNat Errc.truncated fun s => s

theorem forward_blob : Forward Reader.blob :=
  forward_varint.bind fun len => Forward.guard (forward_raw len.toNat)

theorem forward_varint32 : Forward readVarint32 :=
  forward_varint.bind fun _ => Forward.ite (Forward.throw _) (Forward.pure _)

/-! ### Messages -/

theorem forward_attributes : Forward readAttributes := by
  refine forward_u8.bind fun kind => ?_
  cases NodeKind.ofCode kind with
  | none => exact Forward.throw _
  | some kind =>
    exact forward_varint32.bind fun _ => forward_varint.bind fun _ =>
      forward_i64.bind fun _ => Forward.pure _

theorem forward_hello : Forward readHello :=
  forward_u32.bind fun _ => forward_u64.bind fun _ => forward_string.bind fun _ =>
    forward_string.bind fun _ => forward_string.bind fun _ => Forward.pure _

theorem forward_snapshotHeader : Forward readSnapshotHeader :=
  forward_u64.bind fun _ => forward_u32.bind fun _ => Forward.guard (Forward.pure _)

theorem forward_snapshotEntry : Forward readSnapshotEntry :=
  forward_u32.bind fun _ => forward_attributes.bind fun _ => forward_string.bind fun _ =>
    Forward.pure _

theorem forward_snapshotLoop {σ : Type} (onEntry : σ → SnapshotEntry → σ) (n : ℕ) (out : σ) :
    Forward (readSnapshotLoop onEntry n out) := by
  induction n generalizing out with
  | zero => exact Forward.pure _
  | succ n ih => exact forward_snapshotEntry.bind fun e => ih (onEntry out e)

theorem forward_snapshot {σ : Type} (onEntry : σ → SnapshotEntry → σ) (out : σ) :
    Forward (readSnapshot onEntry out) :=
  forward_snapshotHeader.bind fun _ => (forward_snapshotLoop onEntry _ out).bind fun _ =>
    Forward.pure _

theorem forward_invalidationOp : Forward readInvalidationOp := by
  refine forward_u8.bind fun kind => ?_
  cases InvalidationKind.ofCode kind with
  | none => exact Forward.throw _
  | some kind =>
    refine forward_string.bind fun _ => (Forward.ite forward_attributes (Forward.pure _)).bind
      fun _ => forward_u8.bind fun change => ?_
    cases ChangeKind.ofCode change with
    | none => exact Forward.throw _
    | some change =>
      exact (Forward.ite forward_u32 (Forward.pure _)).bind fun _ => Forward.pure _

theorem forward_invalidation : Forward readInvalidation :=
  forward_u64.bind fun _ => forward_varint.bind fun _ =>
    Forward.guard ((forward_invalidationOp.readN _).bind fun _ => Forward.pure _)

theorem forward_modeRequest : Forward readModeRequest :=
  forward_varint32.bind fun _ => forward_string.bind fun _ => Forward.pure _

theorem forward_readManyRequest : Forward readReadManyRequest :=
  forward_varint.bind fun _ => Forward.guard (Forward.ite (Forward.throw _)
    ((forward_string.readN _).bind fun _ => Forward.pure _))

theorem forward_readManyItem : Forward readReadManyItem :=
  forward_u8.bind fun _ => Forward.ite (forward_blob.bind fun _ => Forward.pure _) (Forward.pure _)

theorem forward_readManyResponse : Forward readReadManyResponse :=
  forward_varint.bind fun _ =>
    Forward.guard ((forward_readManyItem.readN _).bind fun _ => Forward.pure _)

theorem decodeHeader_append {b : Bytes} (h : kHeaderSize ≤ b.length) (t : Bytes) :
    decodeHeader (b ++ t) = decodeHeader b := by
  have hfield : ∀ i n, i + n ≤ kHeaderSize → ((b ++ t).drop i).take n = (b.drop i).take n := by
    intro i n hin
    rw [List.drop_append_of_le_length (by omega),
      List.take_append_of_le_length (by rw [List.length_drop]; omega)]
  have hlen : ¬ (b ++ t).length < kHeaderSize := by
    rw [List.length_append]
    omega
  have hmagic := hfield 0 4 (by decide)
  rw [List.drop_zero, List.drop_zero] at hmagic
  rw [decodeHeader, decodeHeader, if_neg hlen, if_neg (Nat.not_lt.2 h), hmagic,
    hfield 4 2 (by decide), hfield 6 2 (by decide), hfield 8 4 (by decide),
    hfield 12 4 (by decide), hfield 16 8 (by decide)]

theorem length_of_decodeHeader {b : Bytes} {h : FrameHeader} (hok : decodeHeader b = .ok h) :
    kHeaderSize ≤ b.length := by
  by_contra hlt
  rw [decodeHeader, if_pos (by omega)] at hok
  cases hok

theorem readHeader_run_ok_iff {s rest : Bytes} {h : FrameHeader} :
    readHeader.run s = .ok h rest ↔ decodeHeader s = .ok h ∧ rest = s.drop kHeaderSize := by
  have hget : (get : Reader Bytes).run s = .ok s s := rfl
  rw [readHeader, run_bind_ok hget]
  cases decodeHeader s with
  | error e =>
    constructor
    · intro hrun
      cases hrun
    · rintro ⟨hok, -⟩
      cases hok
  | ok h' =>
    constructor
    · intro hrun
      cases hrun
      exact ⟨rfl, rfl⟩
    · rintro ⟨hok, rfl⟩
      cases hok
      rfl

theorem forward_header : Forward readHeader where
  suffix s := by
    have hget : (get : Reader Bytes).run s = .ok s s := rfl
    rw [readHeader, run_bind_ok hget]
    cases decodeHeader s with
    | error e => exact List.suffix_rfl
    | ok h => exact List.drop_suffix kHeaderSize s
  extend {s h rest} hrun t := by
    obtain ⟨hok, rfl⟩ := readHeader_run_ok_iff.1 hrun
    have hlen := length_of_decodeHeader hok
    refine readHeader_run_ok_iff.2 ⟨?_, ?_⟩
    · rwa [decodeHeader_append hlen]
    · rw [List.drop_append_of_le_length hlen]

theorem MsgKind.forward_read (k : MsgKind) : Forward k.read := by
  cases k with
  | header => exact forward_header
  | hello => exact forward_hello
  | attributes => exact forward_attributes
  | snapshotHeader => exact forward_snapshotHeader
  | snapshotEntry => exact forward_snapshotEntry
  | invalidation => exact forward_invalidation
  | readRequest =>
    exact forward_u64.bind fun _ => forward_u32.bind fun _ => forward_string.bind fun _ =>
      Forward.pure _
  | writeRequest =>
    exact forward_u64.bind fun _ => forward_string.bind fun _ => forward_blob.bind fun _ =>
      Forward.pure _
  | createRequest => exact forward_modeRequest
  | mkdirRequest => exact forward_modeRequest
  | pathRequest => exact forward_string.bind fun _ => Forward.pure _
  | truncateRequest => exact forward_u64.bind fun _ => forward_string.bind fun _ => Forward.pure _
  | renameRequest => exact forward_string.bind fun _ => forward_string.bind fun _ => Forward.pure _
  | readResponse => exact forward_u64.bind fun _ => forward_blob.bind fun _ => Forward.pure _
  | writeResponse => exact forward_u64.bind fun _ => forward_u64.bind fun _ => Forward.pure _
  | readlinkResponse => exact forward_string.bind fun _ => Forward.pure _
  | mutationAck => exact forward_u64.bind fun _ => Forward.pure _
  | error => exact forward_u32.bind fun _ => forward_string.bind fun _ => Forward.pure _
  | readManyRequest => exact forward_readManyRequest
  | readManyResponse => exact forward_readManyResponse

/-- The decoders of the protocol: the members of `Reader`, the functions that decode one message,
and `read_snapshot` with any callback. -/
inductive IsDecoder : {α : Type} → Reader α → Prop where
  | u8 : IsDecoder Reader.u8
  | u16 : IsDecoder Reader.u16
  | u32 : IsDecoder Reader.u32
  | u64 : IsDecoder Reader.u64
  | i64 : IsDecoder Reader.i64
  | varint : IsDecoder Reader.varint
  | raw (n : ℕ) : IsDecoder (Reader.raw n)
  | string : IsDecoder Reader.string
  | blob : IsDecoder Reader.blob
  | message (k : MsgKind) : IsDecoder k.read
  | snapshot {σ : Type} (onEntry : σ → SnapshotEntry → σ) (out : σ) :
      IsDecoder (readSnapshot onEntry out)

/-- **The decoders stay within their input, and a success is stable.** -/
theorem IsDecoder.forward {α : Type} {d : Reader α} (h : IsDecoder d) : Forward d := by
  cases h with
  | u8 => exact forward_u8
  | u16 => exact forward_u16
  | u32 => exact forward_u32
  | u64 => exact forward_u64
  | i64 => exact forward_i64
  | varint => exact forward_varint
  | raw n => exact forward_raw n
  | string => exact forward_string
  | blob => exact forward_blob
  | message k => exact k.forward_read
  | snapshot onEntry out => exact forward_snapshot onEntry out

/-! ### List elements

A decoder of a list reads a count, checks it, and then reads elements until the count is reached
or one of them fails. -/

/-- `read_invalidation` before its loop. -/
def readInvalidationCount : Reader (UInt64 × ℕ) := do
  let gen ← Reader.u64
  let count ← Reader.varint
  if (← remaining) < count.toNat then throw .corrupt
  else return (gen, count.toNat)

/-- `read_read_many_request` before its loop. -/
def readReadManyRequestCount : Reader ℕ := do
  let count ← Reader.varint
  if (← remaining) < count.toNat then throw .corrupt
  else if kMaxReadManyPaths < count.toNat then throw .invalidArgument
  else return count.toNat

/-- `read_read_many_response` before its loop. -/
def readReadManyResponseCount : Reader ℕ := do
  let count ← Reader.varint
  if (← remaining) < count.toNat then throw .corrupt
  else return count.toNat

/-- The rounds of a loop that starts with a count. -/
def roundsAfter {α : Type} (count : Reader ℕ) (d : Reader α) (b : Bytes) : ℕ :=
  match count.run b with
  | .ok n s => rounds d n s
  | .error _ _ => 0

/-- The number of list elements that the decoder of a kind decodes from `b`, whether or not it
succeeds in the end. -/
def MsgKind.elements : MsgKind → Bytes → ℕ
  | invalidation, b => roundsAfter (do return (← readInvalidationCount).2) readInvalidationOp b
  | readManyRequest, b => roundsAfter readReadManyRequestCount Reader.string b
  | readManyResponse, b => roundsAfter readReadManyResponseCount readReadManyItem b
  | _, _ => 0

/-- The number of list elements of a message. -/
def MsgKind.size : (k : MsgKind) → k.Msg → ℕ
  | invalidation, b => b.ops.length
  | readManyRequest, q => q.paths.length
  | readManyResponse, p => p.items.length
  | _, _ => 0

theorem readInvalidation_eq : readInvalidation = do
    let (gen, n) ← readInvalidationCount
    let ops ← readN readInvalidationOp n
    return { generation := gen, ops := ops } := by
  simp only [readInvalidation, readInvalidationCount, bind_assoc, ite_throw_bind, pure_bind]

theorem readReadManyRequest_eq : readReadManyRequest = do
    let n ← readReadManyRequestCount
    let paths ← readN Reader.string n
    return { paths := paths } := by
  simp only [readReadManyRequest, readReadManyRequestCount, bind_assoc, ite_throw_bind, pure_bind]

theorem readReadManyResponse_eq : readReadManyResponse = do
    let n ← readReadManyResponseCount
    let items ← readN readReadManyItem n
    return { items := items } := by
  simp only [readReadManyResponse, readReadManyResponseCount, bind_assoc, ite_throw_bind,
    pure_bind]

theorem roundsAfter_le {α : Type} {count : Reader ℕ} {d : Reader α} {b : Bytes}
    (h : ∀ n s, count.run b = .ok n s → n ≤ b.length) : roundsAfter count d b ≤ b.length := by
  rw [roundsAfter]
  split
  · next n s hrun => exact (rounds_le d n s).trans (h n s hrun)
  · exact Nat.zero_le _

/-- **No more list elements are decoded than there are bytes.** -/
theorem MsgKind.elements_le (k : MsgKind) (b : Bytes) : k.elements b ≤ b.length := by
  cases k with
  | invalidation =>
    refine roundsAfter_le fun n s h => ?_
    obtain ⟨⟨gen, n'⟩, t, hcount, hpure⟩ := run_bind_eq_ok_iff.1 h
    cases hpure
    obtain ⟨_, b', hgen, h⟩ := run_bind_eq_ok_iff.1 hcount
    obtain ⟨c, _, hc, h⟩ := run_bind_eq_ok_iff.1 h
    obtain ⟨hle, hrun⟩ := run_guard_eq_ok_iff.1 h
    cases hrun
    exact hle.trans ((forward_varint.length_le hc).trans (forward_u64.length_le hgen))
  | readManyRequest =>
    refine roundsAfter_le fun n s h => ?_
    obtain ⟨c, s', hc, h⟩ := run_bind_eq_ok_iff.1 h
    obtain ⟨hle, hrun⟩ := run_guard_eq_ok_iff.1 h
    split_ifs at hrun
    · cases hrun
    · cases hrun
      exact hle.trans (forward_varint.length_le hc)
  | readManyResponse =>
    refine roundsAfter_le fun n s h => ?_
    obtain ⟨c, s', hc, h⟩ := run_bind_eq_ok_iff.1 h
    obtain ⟨hle, hrun⟩ := run_guard_eq_ok_iff.1 h
    cases hrun
    exact hle.trans (forward_varint.length_le hc)
  | _ => exact Nat.zero_le _

theorem roundsAfter_eq {α : Type} {count : Reader ℕ} {d : Reader α} {b s rest : Bytes} {n : ℕ}
    {l : List α} (hcount : count.run b = .ok n s) (hl : (readN d n).run s = .ok l rest) :
    roundsAfter count d b = l.length := by
  rw [roundsAfter, hcount]
  exact rounds_eq_length hl

theorem MsgKind.elements_eq_size {k : MsgKind} {b rest : Bytes} {m : k.Msg}
    (h : k.read.run b = .ok m rest) : k.elements b = k.size m := by
  cases k with
  | invalidation =>
    rw [MsgKind.read, readInvalidation_eq] at h
    obtain ⟨⟨gen, n⟩, s, hcount, h⟩ := run_bind_eq_ok_iff.1 h
    obtain ⟨ops, t, hops, hpure⟩ := run_bind_eq_ok_iff.1 h
    cases hpure
    exact roundsAfter_eq (run_bind_ok hcount) hops
  | readManyRequest =>
    rw [MsgKind.read, readReadManyRequest_eq] at h
    obtain ⟨n, s, hcount, h⟩ := run_bind_eq_ok_iff.1 h
    obtain ⟨paths, t, hpaths, hpure⟩ := run_bind_eq_ok_iff.1 h
    cases hpure
    exact roundsAfter_eq hcount hpaths
  | readManyResponse =>
    rw [MsgKind.read, readReadManyResponse_eq] at h
    obtain ⟨n, s, hcount, h⟩ := run_bind_eq_ok_iff.1 h
    obtain ⟨items, t, hitems, hpure⟩ := run_bind_eq_ok_iff.1 h
    cases hpure
    exact roundsAfter_eq hcount hitems
  | _ => rfl

/-! ### Encodings cut short -/

/-- A message whose lengths fit a `std::size_t`, as those of any value of the source do. -/
def MsgKind.Storable : (k : MsgKind) → k.Msg → Prop
  | hello, h => h.Honest
  | snapshotEntry, e => Sized e.name
  | invalidation, b => b.ops.length < 2 ^ 64 ∧ ∀ op ∈ b.ops, Sized op.path
  | readRequest, q => Sized q.path
  | writeRequest, q => Sized q.path ∧ Sized q.data
  | createRequest, q => Sized q.path
  | mkdirRequest, q => Sized q.path
  | pathRequest, q => Sized q.path
  | truncateRequest, q => Sized q.path
  | renameRequest, q => Sized q.source ∧ Sized q.target
  | readResponse, p => Sized p.data
  | readlinkResponse, p => Sized p.target
  | error, e => Sized e.detail
  | readManyRequest, q => q.paths.length < 2 ^ 64 ∧ ∀ p ∈ q.paths, Sized p
  | readManyResponse, p => p.items.length < 2 ^ 64 ∧ ∀ it ∈ p.items, Sized it.data
  | header, _ | attributes, _ | snapshotHeader, _ | writeResponse, _ | mutationAck, _ => True

/-- An op without the fields that are not written. -/
def strip (op : InvalidationOp) : InvalidationOp :=
  { op with
    attr := if op.kind = .upsert then op.attr else {}
    cookie := if op.change.isMove then op.cookie else 0 }

theorem writeInvalidationOp_strip (op : InvalidationOp) :
    writeInvalidationOp (strip op) = writeInvalidationOp op := by
  simp only [writeInvalidationOp, strip]
  split_ifs <;> rfl

theorem honestOp_strip {op : InvalidationOp} (h : Sized op.path) : HonestOp (strip op) := by
  refine ⟨h, fun hk => if_neg hk, fun hc => ?_⟩
  exact if_neg (by simpa [strip] using hc)

/-- What is written of a batch is read back, with the fields that are not written at their
defaults. -/
theorem reads_invalidation_strip {b : InvalidationBatch} (hn : b.ops.length < 2 ^ 64)
    (h : ∀ op ∈ b.ops, Sized op.path) :
    Reads readInvalidation (writeInvalidation b) { b with ops := b.ops.map strip } := by
  have hwrite : writeInvalidation { b with ops := b.ops.map strip } = writeInvalidation b := by
    simp only [writeInvalidation, List.length_map, List.flatMap_map, writeInvalidationOp_strip]
  rw [← hwrite]
  refine reads_invalidation ⟨by simpa using hn, fun op hop => ?_⟩
  obtain ⟨op', hop', rfl⟩ := List.mem_map.1 hop
  exact honestOp_strip (h op' hop')

theorem readManyRequest_refused {q : ReadManyRequest} (hn : q.paths.length < 2 ^ 64)
    (hmax : kMaxReadManyPaths < q.paths.length) (a : ReadManyRequest) (t : Bytes) :
    readReadManyRequest.run (writeReadManyRequest q) ≠ .ok a t := by
  intro h
  rw [readReadManyRequest, writeReadManyRequest, run_bind_ok (reads_varint _ _)] at h
  obtain ⟨-, hrun⟩ := run_guard_eq_ok_iff.1 h
  rw [toNat_ofNat_length hn, if_pos hmax] at hrun
  cases hrun

theorem eq_nil_of_readHeader {h a : FrameHeader} {t : Bytes}
    (hrun : readHeader.run (encodeHeader h) = .ok a t) : t = [] := by
  obtain ⟨-, rfl⟩ := readHeader_run_ok_iff.1 hrun
  exact List.drop_eq_nil_of_le (length_encodeHeader h).le

theorem MsgKind.exists_stops {k : MsgKind} {m : k.Msg} (h : k.Storable m) :
    ∃ rest, ∀ a t, k.read.run (k.write m ++ rest) = .ok a t → t.length ≤ rest.length := by
  have hreads : ∀ {m'}, Reads k.read (k.write m) m' →
      ∃ rest, ∀ a t, k.read.run (k.write m ++ rest) = .ok a t → t.length ≤ rest.length := by
    intro m' hm
    refine ⟨[], fun a t hrun => ?_⟩
    rw [hm []] at hrun
    cases hrun
    exact le_rfl
  cases k with
  | header =>
    refine ⟨[], fun a t hrun => ?_⟩
    rw [List.append_nil] at hrun
    rw [eq_nil_of_readHeader hrun]
  | hello => exact hreads (reads_hello h)
  | attributes => exact hreads (reads_attributes m)
  | snapshotHeader =>
    -- The header alone is refused unless it counts no entries.
    refine ⟨List.replicate ((SnapshotHeader.count m).toNat * 16) 0, fun a t hrun => ?_⟩
    cases hrun.symm.trans (run_snapshotHeader m (List.length_replicate ..).ge)
    exact le_rfl
  | snapshotEntry => exact hreads (reads_snapshotEntry h)
  | invalidation => exact hreads (reads_invalidation_strip h.1 h.2)
  | readRequest => exact hreads (reads_readRequest h)
  | writeRequest => exact hreads (reads_writeRequest h.1 h.2)
  | createRequest => exact hreads (reads_modeRequest h)
  | mkdirRequest => exact hreads (reads_modeRequest h)
  | pathRequest => exact hreads (reads_pathRequest h)
  | truncateRequest => exact hreads (reads_truncateRequest h)
  | renameRequest => exact hreads (reads_renameRequest h.1 h.2)
  | readResponse => exact hreads (reads_readResponse h)
  | writeResponse => exact hreads (reads_writeResponse m)
  | readlinkResponse => exact hreads (reads_readlinkResponse h)
  | mutationAck => exact hreads (reads_mutationAck m)
  | error => exact hreads (reads_error h)
  | readManyRequest =>
    by_cases hmax : kMaxReadManyPaths < m.paths.length
    · refine ⟨[], fun a t hrun => ?_⟩
      rw [List.append_nil] at hrun
      exact absurd hrun (readManyRequest_refused h.1 hmax a t)
    · exact hreads (reads_readManyRequest (Nat.not_lt.1 hmax) h.2)
  | readManyResponse => exact hreads (reads_readManyResponse h.1 h.2)

/-- **Decoders are bounded and stable.**  Every decoder stops within its input, bytes behind it
change no success, a message has at most as many list elements as bytes, and no proper prefix of an
encoding is decoded. -/
theorem decoders_stable :
    (∀ {α : Type} (d : Reader α), IsDecoder d → ∀ b : Bytes, left (d.run b) <:+ b ∧
      ∀ a rest, d.run b = .ok a rest → ∀ s, d.run (b ++ s) = .ok a (rest ++ s)) ∧
    (∀ (k : MsgKind) (b : Bytes), k.elements b ≤ b.length ∧
      ∀ m rest, k.read.run b = .ok m rest → k.size m = k.elements b) ∧
    ∀ (k : MsgKind) (m : k.Msg), k.Storable m → ∀ p, p <+: k.write m → p ≠ k.write m →
      ∀ a rest, k.read.run p ≠ .ok a rest := by
  refine ⟨fun d hd b => ⟨hd.forward.suffix b, fun a rest h s => hd.forward.extend h s⟩,
    fun k b => ⟨k.elements_le b, fun m rest h => (MsgKind.elements_eq_size h).symm⟩,
    fun k m hm p hp hne a rest => ?_⟩
  obtain ⟨more, hstop⟩ := MsgKind.exists_stops hm
  exact k.forward_read.not_ok_of_prefix hstop hp hne a rest

/-- A rename request without its last byte is refused, and its source is read from the front of
it whatever follows. -/
theorem decoders_stable_rename :
    (∀ a rest, readRenameRequest.run [1, 0x61, 1] ≠ .ok a rest) ∧
      ∀ s, Reader.string.run ([1, 0x61] ++ s) = .ok [0x61] s :=
  ⟨decoders_stable.2.2 .renameRequest ⟨[0x61], [0x62]⟩ (by simp [MsgKind.Storable, Sized]) _
      ⟨[0x62], rfl⟩ (by decide),
    fun s => (decoders_stable.1 Reader.string .string [1, 0x61]).2 [0x61] [] rfl s⟩

end Proto

end WslDrive
