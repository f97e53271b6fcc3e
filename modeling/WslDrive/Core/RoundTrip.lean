import WslDrive.Core.Protocol
import Mathlib.Data.Nat.Bitwise
import Mathlib.Tactic.Ring
import Mathlib.Tactic.Linarith

/-!
# The wire protocol round trip

`Proto.MsgKind.Msg k` is the type of the messages of kind `k`.  `Proto.decode_encode` states the
round trip for all of them: the decoder, run on what the encoder wrote and anything after it, gives
the message back and stops at its end.  The checks on claimed counts are part of that: a decoder
refuses a count that the bytes left cannot hold, and an honest encoding never trips them.

The facts about single fields come first (`reads_u64`, `reads_varint`, `reads_string`), then one
lemma for each codec, assembled from them with `Codec.Reads.bind`.
-/

namespace WslDrive

namespace Proto

open Codec

/-! ### Fixed-width integers -/

@[simp] theorem length_putLe (v n : ℕ) : (putLe v n).length = n := by
  induction n generalizing v with
  | zero => rfl
  | succ n ih => simp [putLe, ih]

theorem getLe_putLe (v n : ℕ) : getLe (putLe v n) = v % 256 ^ n := by
  induction n generalizing v with
  | zero => simp [putLe, getLe, Nat.mod_one]
  | succ n ih =>
    have hlow : (UInt8.ofNat (v &&& 0xFF)).toNat = v % 256 := by
      rw [Nat.and_two_pow_sub_one_eq_mod v 8]
      simp
    rw [putLe, getLe, ih, hlow, Nat.shiftRight_eq_div_pow, Nat.or_comm,
      ← Nat.shiftLeft_add_eq_or_of_lt (Nat.mod_lt _ (by norm_num)), Nat.shiftLeft_eq]
    rw [show 256 ^ (n + 1) = 256 * 256 ^ n by ring, Nat.mod_mul]
    norm_num
    ring

theorem getLe_putLe_of_lt {v n : ℕ} (h : v < 256 ^ n) : getLe (putLe v n) = v := by
  rw [getLe_putLe, Nat.mod_eq_of_lt h]

theorem reads_fixed {n : ℕ} {w : Bytes} (h : w.length = n) :
    Reads (Reader.fixed n) w (getLe w) := by
  refine Reads.bind_remaining fun k hk => Reads.ite_neg (by omega) fun rest => ?_
  subst h
  change EStateM.Result.ok (getLe ((w ++ rest).take w.length)) ((w ++ rest).drop w.length) = _
  rw [List.take_left, List.drop_left]

theorem reads_u8 (v : UInt8) : Reads Reader.u8 (Writer.u8 v) v := fun _ => rfl

theorem reads_u32 (v : UInt32) : Reads Reader.u32 (Writer.u32 v) v := by
  have h := (reads_fixed (length_putLe v.toNat 4)).bind_pure UInt32.ofNat
  rw [getLe_putLe_of_lt (by simpa using v.toNat_lt), UInt32.ofNat_toNat] at h
  exact h

theorem reads_u64 (v : UInt64) : Reads Reader.u64 (Writer.u64 v) v := by
  have h := (reads_fixed (length_putLe v.toNat 8)).bind_pure UInt64.ofNat
  rw [getLe_putLe_of_lt (by simpa using v.toNat_lt), UInt64.ofNat_toNat] at h
  exact h

theorem reads_i64 (v : Int64) : Reads Reader.i64 (Writer.i64 v) v := by
  have h := (reads_u64 v.toUInt64).bind_pure UInt64.toInt64
  rwa [show v.toUInt64.toInt64 = v from rfl] at h

/-! ### Varints -/

theorem toNat_and_7F (b : UInt8) : (b &&& 0x7F).toNat = b.toNat % 128 := by
  rw [UInt8.toNat_and]; exact Nat.and_two_pow_sub_one_eq_mod _ 7

theorem and_80_eq_zero_iff (b : UInt8) : b &&& 0x80 = 0 ↔ b.toNat < 128 := by
  have hb := b.toNat_lt
  rw [← UInt8.toNat_inj, UInt8.toNat_and]
  change b.toNat &&& 2 ^ 7 = 0 ↔ _
  rw [Nat.and_two_pow]
  constructor
  · intro h
    by_contra hge
    have : b.toNat.testBit 7 = true := by
      rw [Nat.testBit_eq_decide_div_mod_eq]
      simp; omega
    simp [this] at h
  · intro h
    rw [Nat.testBit_lt_two_pow (by omega)]
    simp

theorem toNat_varint_more (v : ℕ) :
    (UInt8.ofNat ((v &&& 0x7F) ||| 0x80)).toNat = v % 128 + 128 := by
  have hlt : v % 2 ^ 7 < 2 ^ 7 := Nat.mod_lt v (by norm_num)
  have h : v % 2 ^ 7 ||| 0x80 = v % 2 ^ 7 + 128 := by
    rw [Nat.or_comm, Nat.add_comm]
    exact (Nat.two_pow_add_eq_or_of_lt hlt 1).symm
  rw [Nat.and_two_pow_sub_one_eq_mod v 7, h, UInt8.toNat_ofNat']
  omega

theorem or_shift {acc x shift : ℕ} (hacc : acc < 2 ^ shift) (hx : x * 2 ^ shift < 2 ^ 64) :
    acc ||| ((x <<< shift) % 2 ^ 64) = acc + x * 2 ^ shift := by
  rw [Nat.shiftLeft_eq, Nat.mod_eq_of_lt hx, Nat.or_comm, Nat.mul_comm x,
    ← Nat.two_pow_add_eq_or_of_lt hacc, Nat.add_comm]

theorem reads_varint_last (n : ℕ) {shift acc v : ℕ} (hv : v < 128) (h63 : shift = 63 → v ≤ 1)
    (hacc : acc < 2 ^ shift) (hfit : v * 2 ^ shift < 2 ^ 64) :
    Reads (Reader.varintLoop (n + 1) shift acc) [UInt8.ofNat v]
      (UInt64.ofNat (acc + v * 2 ^ shift)) := by
  have hb : (UInt8.ofNat v).toNat = v := by rw [UInt8.toNat_ofNat']; omega
  refine (reads_u8 (UInt8.ofNat v)).bind (v := []) ?_
  refine Reads.ite_pos ((and_80_eq_zero_iff _).2 (by omega)) (Reads.ite_neg ?_ ?_)
  · rintro ⟨hs, hlt⟩
    have : (1 : UInt8).toNat < (UInt8.ofNat v).toNat := UInt8.lt_iff_toNat_lt.1 hlt
    have h1 := h63 hs
    rw [hb] at this
    simp at this
    omega
  · rw [toNat_and_7F, hb, Nat.mod_eq_of_lt hv, or_shift hacc hfit]
    exact Reads.pure _

theorem reads_varint_cons {n shift acc v : ℕ} {w : Bytes} {r : UInt64} (hacc : acc < 2 ^ shift)
    (hfit : v % 128 * 2 ^ shift < 2 ^ 64)
    (h : Reads (Reader.varintLoop n (shift + 7) (acc + v % 128 * 2 ^ shift)) w r) :
    Reads (Reader.varintLoop (n + 1) shift acc) (UInt8.ofNat ((v &&& 0x7F) ||| 0x80) :: w) r := by
  have hb := toNat_varint_more v
  refine (reads_u8 _).bind (v := w) (Reads.ite_neg ?_ ?_)
  · rw [and_80_eq_zero_iff, hb]; omega
  · rw [toNat_and_7F, hb, Nat.add_mod_right, Nat.mod_mod, or_shift hacc hfit]
    exact h

/-- The two varint loops from any group on: `k` more bytes may follow this one, and `acc` holds
the bits read so far. -/
theorem reads_varintLoop (k : ℕ) : ∀ {v acc : ℕ}, k ≤ 9 → v < 2 ^ (7 * k + 1) →
    acc < 2 ^ (7 * (9 - k)) →
    Reads (Reader.varintLoop (k + 1) (7 * (9 - k)) acc) (Writer.varintLoop k v)
      (UInt64.ofNat (acc + v * 2 ^ (7 * (9 - k)))) := by
  induction k with
  | zero =>
    intro v acc _ hv hacc
    have hv2 : v < 2 := by simpa using hv
    change Reads (Reader.varintLoop 1 63 acc) [UInt8.ofNat v] (UInt64.ofNat (acc + v * 2 ^ 63))
    exact reads_varint_last 0 (by omega) (by omega) hacc (by omega)
  | succ k ih =>
    intro v acc hk hv hacc
    -- a value of `7 * (k + 1) + 1` bits ends within the 64 bits of the word
    have hpow : 2 ^ (7 * (k + 1) + 1) * 2 ^ (7 * (9 - (k + 1))) = 2 ^ 64 := by
      rw [← Nat.pow_add]; congr 1; omega
    have hfit : v * 2 ^ (7 * (9 - (k + 1))) < 2 ^ 64 := by
      rw [← hpow]; exact Nat.mul_lt_mul_of_pos_right hv (Nat.two_pow_pos _)
    rw [Writer.varintLoop]
    split_ifs with hmore
    · have hmod : v % 128 * 2 ^ (7 * (9 - (k + 1))) < 2 ^ 64 :=
        lt_of_le_of_lt (Nat.mul_le_mul_right _ (Nat.mod_le v 128)) hfit
      refine reads_varint_cons hacc hmod ?_
      have hs : 7 * (9 - (k + 1)) + 7 = 7 * (9 - k) := by omega
      have h2 : 2 ^ (7 * (9 - k)) = 128 * 2 ^ (7 * (9 - (k + 1))) := by
        rw [← hs, Nat.pow_add, Nat.mul_comm]
      have hv' : v >>> 7 < 2 ^ (7 * k + 1) := by
        rw [Nat.shiftRight_eq_div_pow]
        refine Nat.div_lt_of_lt_mul ?_
        rw [← Nat.pow_add, show 7 + (7 * k + 1) = 7 * (k + 1) + 1 by omega]
        exact hv
      have hacc' : acc + v % 128 * 2 ^ (7 * (9 - (k + 1))) < 2 ^ (7 * (9 - k)) := by
        have := Nat.mod_lt v (by norm_num : 0 < 128)
        rw [h2]
        nlinarith [Nat.two_pow_pos (7 * (9 - (k + 1)))]
      have := ih (by omega) hv' hacc'
      rw [hs]
      convert this using 2
      rw [Nat.shiftRight_eq_div_pow, h2]
      have := Nat.div_add_mod v 128
      calc acc + v * 2 ^ (7 * (9 - (k + 1)))
          = acc + (128 * (v / 128) + v % 128) * 2 ^ (7 * (9 - (k + 1))) := by rw [this]
        _ = acc + v % 128 * 2 ^ (7 * (9 - (k + 1))) +
              v / 2 ^ 7 * (128 * 2 ^ (7 * (9 - (k + 1)))) := by norm_num; ring
    · exact reads_varint_last (k + 1) (by omega) (by omega) hacc hfit

theorem reads_varint (v : UInt64) : Reads Reader.varint (Writer.varint v) v := by
  have h : Reads (Reader.varintLoop 10 0 0) (Writer.varintLoop 9 v.toNat)
      (UInt64.ofNat (0 + v.toNat * 2 ^ 0)) :=
    reads_varintLoop 9 le_rfl (by simpa using v.toNat_lt) (by norm_num)
  rw [Nat.zero_add, Nat.pow_zero, Nat.mul_one, UInt64.ofNat_toNat] at h
  exact h

/-! ### Byte strings -/

/-- The length of a byte string fits its `std::size_t`. -/
def Sized (s : Bytes) : Prop := s.length < 2 ^ 64

theorem toNat_ofNat_length {n : ℕ} (h : n < 2 ^ 64) : (UInt64.ofNat n).toNat = n := by
  rw [UInt64.toNat_ofNat', Nat.mod_eq_of_lt h]

theorem reads_raw (b : Bytes) : Reads (Reader.raw b.length) b b := by
  refine Reads.bind_remaining fun k hk => Reads.ite_neg (by omega) fun rest => ?_
  change EStateM.Result.ok ((b ++ rest).take b.length) ((b ++ rest).drop b.length) = _
  rw [List.take_left, List.drop_left]

theorem reads_string {s : Bytes} (h : Sized s) : Reads Reader.string (Writer.string s) s := by
  refine (reads_varint _).bind (Reads.bind_remaining fun k hk => ?_)
  rw [toNat_ofNat_length h]
  refine Reads.ite_neg (by omega) fun rest => ?_
  change EStateM.Result.ok ((s ++ rest).take s.length) ((s ++ rest).drop s.length) = _
  rw [List.take_left, List.drop_left]

theorem reads_blob {b : Bytes} (h : Sized b) : Reads Reader.blob (Writer.blob b) b := by
  refine (reads_varint _).bind (Reads.bind_remaining fun k hk => ?_)
  rw [toNat_ofNat_length h]
  exact Reads.ite_neg (by simp only [Writer.raw] at hk; omega) (reads_raw b)

theorem length_varint_pos (v : UInt64) : 1 ≤ (Writer.varint v).length := by
  rw [Writer.varint, Writer.varintLoop]
  split_ifs <;> simp

theorem length_string_pos (s : Bytes) : 1 ≤ (Writer.string s).length := by
  have := length_varint_pos (UInt64.ofNat s.length)
  rw [Writer.string, List.length_append]; omega

theorem length_le_length_flatMap {α : Type} {e : α → Bytes} {n : ℕ} (xs : List α)
    (h : ∀ x ∈ xs, n ≤ (e x).length) : xs.length * n ≤ (xs.flatMap e).length := by
  induction xs with
  | nil => simp
  | cons x xs ih =>
    have h1 := h x List.mem_cons_self
    have h2 := ih fun y hy => h y (List.mem_cons_of_mem _ hy)
    rw [List.flatMap_cons, List.length_append, List.length_cons, Nat.succ_mul]
    omega

/-! ### Codecs -/

theorem reads_varint32 (v : UInt32) : Reads readVarint32 (Writer.varint v.toUInt64) v := by
  have h : Reads readVarint32 (Writer.varint v.toUInt64 ++ []) v := by
    refine (reads_varint _).bind (Reads.ite_neg ?_ ?_)
    · have := v.toNat_lt
      rw [UInt64.lt_iff_toNat_lt, UInt32.toNat_toUInt64]
      simp; omega
    · rw [show v.toUInt64.toUInt32 = v by simp]
      exact Reads.pure v
  rwa [List.append_nil] at h

theorem reads_attributes (a : Attributes) : Reads readAttributes (writeAttributes a) a := by
  refine (reads_u8 _).bind ?_
  simp only [NodeKind.ofCode_code]
  exact (reads_varint32 _).bind ((reads_varint _).bind ((reads_i64 _).bind_pure _))

theorem length_attributes (a : Attributes) : 11 ≤ (writeAttributes a).length := by
  have h1 := length_varint_pos a.mode.toUInt64
  have h2 := length_varint_pos a.size
  simp only [writeAttributes, Writer.u8, Writer.i64, Writer.u64, List.length_append,
    length_putLe, List.length_singleton]
  omega

/-- The sizes of the three byte strings of a `Hello`. -/
def Hello.Honest (h : Hello) : Prop := Sized h.agent ∧ Sized h.nonce ∧ Sized h.proof

theorem reads_hello {h : Hello} (hs : h.Honest) : Reads readHello (writeHello h) h :=
  (reads_u32 _).bind ((reads_u64 _).bind ((reads_string hs.1).bind
    ((reads_string hs.2.1).bind ((reads_string hs.2.2).bind_pure _))))

/-- `read_snapshot_header` refuses a count that the bytes left cannot hold, so what follows the
header must hold its entries. -/
theorem run_snapshotHeader (h : SnapshotHeader) {rest : Bytes}
    (hrest : h.count.toNat * 16 ≤ rest.length) :
    readSnapshotHeader.run (writeSnapshotHeader h ++ rest) = .ok h rest := by
  rw [writeSnapshotHeader, List.append_assoc, readSnapshotHeader,
    run_bind_ok (reads_u64 _ _), run_bind_ok (reads_u32 _ _), run_remaining_bind,
    if_neg (by omega)]
  rfl

theorem reads_snapshotEntry {e : SnapshotEntry} (h : Sized e.name) :
    Reads readSnapshotEntry (writeSnapshotEntry e) e :=
  (reads_u32 _).bind ((reads_attributes _).bind ((reads_string h).bind_pure _))

theorem length_snapshotEntry (e : SnapshotEntry) : 16 ≤ (writeSnapshotEntry e).length := by
  have h1 := length_attributes e.attr
  have h2 := length_string_pos e.name
  simp only [writeSnapshotEntry, Writer.u32, List.length_append, length_putLe]
  omega

/-- An op as the agent builds it: only an upsert has attributes, only a move has a cookie. -/
def HonestOp (op : InvalidationOp) : Prop :=
  Sized op.path ∧ (op.kind ≠ .upsert → op.attr = {}) ∧ (op.change.isMove = false → op.cookie = 0)

theorem reads_invalidationOp {op : InvalidationOp} (h : HonestOp op) :
    Reads readInvalidationOp (writeInvalidationOp op) op := by
  obtain ⟨hs, hattr, hcookie⟩ := h
  have ha : Reads (if op.kind = .upsert then readAttributes else pure {})
      (if op.kind = .upsert then writeAttributes op.attr else []) op.attr := by
    split_ifs with hk
    · exact reads_attributes _
    · rw [hattr hk]; exact Reads.pure _
  have hc : Reads (if op.change.isMove then Reader.u32 else pure 0)
      (if op.change.isMove then Writer.u32 op.cookie else []) op.cookie := by
    split_ifs with hk
    · exact reads_u32 _
    · rw [hcookie (by simpa using hk)]; exact Reads.pure _
  refine (reads_u8 _).bind ?_
  simp only [InvalidationKind.ofCode_code]
  refine (reads_string hs).bind (ha.bind ((reads_u8 _).bind ?_))
  simp only [ChangeKind.ofCode_code]
  exact hc.bind_pure _

theorem length_invalidationOp (op : InvalidationOp) : 1 ≤ (writeInvalidationOp op).length := by
  rw [writeInvalidationOp, List.length_append]
  simp only [Writer.u8, List.length_singleton]
  omega

/-- A batch whose ops are honest. -/
def HonestBatch (b : InvalidationBatch) : Prop :=
  b.ops.length < 2 ^ 64 ∧ ∀ op ∈ b.ops, HonestOp op

theorem reads_invalidation {b : InvalidationBatch} (h : HonestBatch b) :
    Reads readInvalidation (writeInvalidation b) b := by
  refine (reads_u64 _).bind ((reads_varint _).bind (Reads.bind_remaining fun k hk => ?_))
  have hlen := length_le_length_flatMap b.ops fun op _ => length_invalidationOp op
  rw [toNat_ofNat_length h.1]
  refine Reads.ite_neg (by omega) ?_
  exact (Reads.readN b.ops fun op hop => reads_invalidationOp (h.2 op hop)).bind_pure _

theorem reads_readRequest {q : ReadRequest} (h : Sized q.path) :
    Reads readReadRequest (writeReadRequest q) q :=
  (reads_u64 _).bind ((reads_u32 _).bind ((reads_string h).bind_pure _))

theorem reads_readResponse {p : ReadResponse} (h : Sized p.data) :
    Reads readReadResponse (writeReadResponse p) p :=
  (reads_u64 _).bind ((reads_blob h).bind_pure _)

theorem reads_error {e : ErrorMessage} (h : Sized e.detail) : Reads readError (writeError e) e :=
  (reads_u32 _).bind ((reads_string h).bind_pure _)

theorem reads_writeRequest {q : WriteRequest} (hp : Sized q.path) (hd : Sized q.data) :
    Reads readWriteRequest (writeWriteRequest q) q :=
  (reads_u64 _).bind ((reads_string hp).bind ((reads_blob hd).bind_pure _))

theorem reads_writeResponse (p : WriteResponse) :
    Reads readWriteResponse (writeWriteResponse p) p :=
  (reads_u64 _).bind ((reads_u64 _).bind_pure _)

theorem reads_mutationAck (a : MutationAck) : Reads readMutationAck (writeMutationAck a) a :=
  (reads_u64 _).bind_pure _

theorem reads_modeRequest {q : ModeRequest} (h : Sized q.path) :
    Reads readModeRequest (writeModeRequest q) q :=
  (reads_varint32 _).bind ((reads_string h).bind_pure _)

theorem reads_pathRequest {q : PathRequest} (h : Sized q.path) :
    Reads readPathRequest (writePathRequest q) q :=
  (reads_string h).bind_pure _

theorem reads_truncateRequest {q : TruncateRequest} (h : Sized q.path) :
    Reads readTruncateRequest (writeTruncateRequest q) q :=
  (reads_u64 _).bind ((reads_string h).bind_pure _)

theorem reads_renameRequest {q : RenameRequest} (hs : Sized q.source) (ht : Sized q.target) :
    Reads readRenameRequest (writeRenameRequest q) q :=
  (reads_string hs).bind ((reads_string ht).bind_pure _)

theorem reads_readManyRequest {q : ReadManyRequest} (hn : q.paths.length ≤ kMaxReadManyPaths)
    (h : ∀ p ∈ q.paths, Sized p) : Reads readReadManyRequest (writeReadManyRequest q) q := by
  refine (reads_varint _).bind (Reads.bind_remaining fun k hk => ?_)
  have hlen := length_le_length_flatMap q.paths fun p _ => length_string_pos p
  rw [toNat_ofNat_length (by simp only [kMaxReadManyPaths] at hn; omega)]
  refine Reads.ite_neg (by omega) (Reads.ite_neg (by omega) ?_)
  exact (Reads.readN q.paths fun p hp => reads_string (h p hp)).bind_pure _

theorem reads_readManyItem {it : ReadManyItem} (h : Sized it.data) :
    Reads readReadManyItem (writeReadManyItem it) it := by
  obtain ⟨ok, data, hvalid⟩ := it
  cases ok with
  | false =>
    obtain rfl := hvalid rfl
    exact (reads_u8 _).bind (Reads.ite_neg (by simp) (Reads.pure _))
  | true =>
    refine (reads_u8 _).bind (Reads.ite_pos (by simp) ?_)
    exact (reads_blob h).bind_pure _

theorem reads_readManyResponse {p : ReadManyResponse} (hn : p.items.length < 2 ^ 64)
    (h : ∀ it ∈ p.items, Sized it.data) :
    Reads readReadManyResponse (writeReadManyResponse p) p := by
  refine (reads_varint _).bind (Reads.bind_remaining fun k hk => ?_)
  have hone : ∀ it : ReadManyItem, 1 ≤ (writeReadManyItem it).length := by
    intro it
    rw [writeReadManyItem, List.length_append]
    simp only [Writer.u8, List.length_singleton]
    omega
  have hlen := length_le_length_flatMap p.items fun it _ => hone it
  rw [toNat_ofNat_length hn]
  refine Reads.ite_neg (by omega) ?_
  exact (Reads.readN p.items fun it hit => reads_readManyItem (h it hit)).bind_pure _

theorem reads_readlinkResponse {p : ReadlinkResponse} (h : Sized p.target) :
    Reads readReadlinkResponse (writeReadlinkResponse p) p :=
  (reads_string h).bind_pure _

/-! ### All message kinds -/

/-- `decode_header` looks at the first 24 bytes; its callers then go on after them. -/
def readHeader : Reader FrameHeader := do
  let s ← get
  match decodeHeader s with
  | .error e => throw e
  | .ok h => do
    set (s.drop kHeaderSize)
    return h

theorem decodeHeader_encodeHeader {h : FrameHeader} (hp : h.payloadLen.toNat ≤ kMaxPayload)
    (rest : Bytes) : decodeHeader (encodeHeader h ++ rest) = .ok h := by
  -- each field starts where the fields before it end
  have hskip : ∀ {v n k : ℕ} {r : Bytes}, n ≤ k →
      (putLe v n ++ r).drop k = r.drop (k - n) := by
    intro v n k r hk
    rw [List.drop_append, length_putLe, List.drop_eq_nil_of_le (by simpa using hk),
      List.nil_append]
  have hhere : ∀ {v n : ℕ} {r : Bytes}, (putLe v n ++ r).take n = putLe v n := by
    intro v n r
    rw [List.take_append, length_putLe, List.take_of_length_le (by simp)]
    simp
  have hlen : ¬ (encodeHeader h ++ rest).length < kHeaderSize := by
    simp [encodeHeader, kHeaderSize]; omega
  rw [decodeHeader, if_neg hlen]
  simp only [encodeHeader, List.append_assoc]
  simp only [hskip, hhere, List.drop_zero, Nat.reduceLeDiff, Nat.reduceSub, le_refl, Nat.sub_self,
    getLe_putLe]
  norm_num [kMagic, kVersion]
  intro hlt
  omega

theorem length_encodeHeader (h : FrameHeader) : (encodeHeader h).length = kHeaderSize := by
  simp [encodeHeader, kHeaderSize]

theorem reads_header {h : FrameHeader} (hp : h.payloadLen.toNat ≤ kMaxPayload) :
    Reads readHeader (encodeHeader h) h := by
  intro rest
  have hget : (get : Reader Bytes).run (encodeHeader h ++ rest) =
      .ok (encodeHeader h ++ rest) (encodeHeader h ++ rest) := rfl
  rw [readHeader, run_bind_ok hget, decodeHeader_encodeHeader hp]
  change EStateM.Result.ok h ((encodeHeader h ++ rest).drop kHeaderSize) = _
  rw [← length_encodeHeader h, List.drop_left]

/-- The kinds of messages. -/
inductive MsgKind where
  | header | hello | attributes | snapshotHeader | snapshotEntry | invalidation
  | readRequest | writeRequest | createRequest | mkdirRequest | pathRequest | truncateRequest
  | renameRequest | readResponse | writeResponse | readlinkResponse | mutationAck | error
  | readManyRequest | readManyResponse

namespace MsgKind

/-- The messages of a kind. -/
def Msg : MsgKind → Type
  | header => FrameHeader
  | hello => Hello
  | attributes => Attributes
  | snapshotHeader => SnapshotHeader
  | snapshotEntry => SnapshotEntry
  | invalidation => InvalidationBatch
  | readRequest => ReadRequest
  | writeRequest => WriteRequest
  | createRequest | mkdirRequest => ModeRequest
  | pathRequest => PathRequest
  | truncateRequest => TruncateRequest
  | renameRequest => RenameRequest
  | readResponse => ReadResponse
  | writeResponse => WriteResponse
  | readlinkResponse => ReadlinkResponse
  | mutationAck => MutationAck
  | error => ErrorMessage
  | readManyRequest => ReadManyRequest
  | readManyResponse => ReadManyResponse

/-- The encoder of a kind. -/
def write : (k : MsgKind) → k.Msg → Bytes
  | header => encodeHeader
  | hello => writeHello
  | attributes => writeAttributes
  | snapshotHeader => writeSnapshotHeader
  | snapshotEntry => writeSnapshotEntry
  | invalidation => writeInvalidation
  | readRequest => writeReadRequest
  | writeRequest => writeWriteRequest
  | createRequest => writeCreateRequest
  | mkdirRequest => writeMkdirRequest
  | pathRequest => writePathRequest
  | truncateRequest => writeTruncateRequest
  | renameRequest => writeRenameRequest
  | readResponse => writeReadResponse
  | writeResponse => writeWriteResponse
  | readlinkResponse => writeReadlinkResponse
  | mutationAck => writeMutationAck
  | error => writeError
  | readManyRequest => writeReadManyRequest
  | readManyResponse => writeReadManyResponse

/-- The decoder of a kind. -/
def read : (k : MsgKind) → Reader k.Msg
  | header => readHeader
  | hello => readHello
  | attributes => readAttributes
  | snapshotHeader => readSnapshotHeader
  | snapshotEntry => readSnapshotEntry
  | invalidation => readInvalidation
  | readRequest => readReadRequest
  | writeRequest => readWriteRequest
  | createRequest => readCreateRequest
  | mkdirRequest => readMkdirRequest
  | pathRequest => readPathRequest
  | truncateRequest => readTruncateRequest
  | renameRequest => readRenameRequest
  | readResponse => readReadResponse
  | writeResponse => readWriteResponse
  | readlinkResponse => readReadlinkResponse
  | mutationAck => readMutationAck
  | error => readError
  | readManyRequest => readReadManyRequest
  | readManyResponse => readReadManyResponse

/-- What a sender guarantees of a message and of the bytes it puts after it.  Lengths fit a
`std::size_t`; a frame is within the frame limit; a bulk read is within the limit on paths; what
follows a snapshot header holds the entries it counts. -/
def Honest : (k : MsgKind) → k.Msg → Bytes → Prop
  | header, h, _ => h.payloadLen.toNat ≤ kMaxPayload
  | hello, h, _ => h.Honest
  | attributes, _, _ => True
  | snapshotHeader, h, rest => ∃ (es : List SnapshotEntry) (more : Bytes),
      es.length = h.count.toNat ∧ rest = es.flatMap writeSnapshotEntry ++ more
  | snapshotEntry, e, _ => Sized e.name
  | invalidation, b, _ => HonestBatch b
  | readRequest, q, _ => Sized q.path
  | writeRequest, q, _ => Sized q.path ∧ Sized q.data
  | createRequest, q, _ => Sized q.path
  | mkdirRequest, q, _ => Sized q.path
  | pathRequest, q, _ => Sized q.path
  | truncateRequest, q, _ => Sized q.path
  | renameRequest, q, _ => Sized q.source ∧ Sized q.target
  | readResponse, p, _ => Sized p.data
  | writeResponse, _, _ => True
  | readlinkResponse, p, _ => Sized p.target
  | mutationAck, _, _ => True
  | error, e, _ => Sized e.detail
  | readManyRequest, q, _ => q.paths.length ≤ kMaxReadManyPaths ∧ ∀ p ∈ q.paths, Sized p
  | readManyResponse, p, _ => p.items.length < 2 ^ 64 ∧ ∀ it ∈ p.items, Sized it.data

end MsgKind

/-- **The wire round trip.**  For every kind, every message a sender may build and every byte
string after it, the decoder gives the message back and stops at its end. -/
theorem decode_encode (k : MsgKind) (m : k.Msg) (rest : Bytes) (h : k.Honest m rest) :
    k.read.run (k.write m ++ rest) = .ok m rest := by
  cases k with
  | header => exact reads_header h rest
  | hello => exact reads_hello h rest
  | attributes => exact reads_attributes m rest
  | snapshotHeader =>
    obtain ⟨es, more, hes, rfl⟩ := h
    refine run_snapshotHeader m ?_
    have := length_le_length_flatMap es fun e _ => length_snapshotEntry e
    rw [List.length_append, ← hes]
    omega
  | snapshotEntry => exact reads_snapshotEntry h rest
  | invalidation => exact reads_invalidation h rest
  | readRequest => exact reads_readRequest h rest
  | writeRequest => exact reads_writeRequest h.1 h.2 rest
  | createRequest => exact reads_modeRequest h rest
  | mkdirRequest => exact reads_modeRequest h rest
  | pathRequest => exact reads_pathRequest h rest
  | truncateRequest => exact reads_truncateRequest h rest
  | renameRequest => exact reads_renameRequest h.1 h.2 rest
  | readResponse => exact reads_readResponse h rest
  | writeResponse => exact reads_writeResponse m rest
  | readlinkResponse => exact reads_readlinkResponse h rest
  | mutationAck => exact reads_mutationAck m rest
  | error => exact reads_error h rest
  | readManyRequest => exact reads_readManyRequest h.1 h.2 rest
  | readManyResponse => exact reads_readManyResponse h.1 h.2 rest

/-- The round trip at a batch with every conditional field, followed by other bytes. -/
theorem decode_encode_moveBatch :
    readInvalidation.run (writeInvalidation
      { generation := 7
        ops := [{ kind := .upsert, path := [0x61], attr := { size := 300, mode := 0o644 },
                  change := .movedTo, cookie := 9 },
                { kind := .remove, path := [0x62], change := .movedFrom, cookie := 9 }] } ++
        [1, 2]) =
      .ok { generation := 7
            ops := [{ kind := .upsert, path := [0x61], attr := { size := 300, mode := 0o644 },
                      change := .movedTo, cookie := 9 },
                    { kind := .remove, path := [0x62], change := .movedFrom, cookie := 9 }] }
        [1, 2] :=
  decode_encode .invalidation _ _ (by
    refine ⟨by simp, ?_⟩
    simp [HonestOp, Sized, ChangeKind.isMove])

end Proto

end WslDrive
