import WslDrive.Agent.Flush
import WslDrive.Core.Sizes
import WslDrive.Net.FrameChannel

/-!
# The frames of a batch

`broadcast_batch` splits a batch by an estimate of 32 bytes and the path for an operation.  An
operation can take 34 bytes and its path.  The estimate keeps a frame below half of what a frame
may hold, so there is room for the difference; a single operation is sent however long it is.

* `RootServer.estimate_firstChunk` — what a frame holds, by the estimate;
* `RootServer.length_chunk_le` — and as it is encoded;
* `RootServer.broadcast_frames` — every frame is within the limit, and the frames say what the batch
  says.
-/

namespace WslDrive

namespace RootServer

open Proto

/-- The bytes that `broadcast_batch` counts for some operations. -/
def estimate (ops : List InvalidationOp) : ℕ := (ops.map fun op => op.path.length + 32).sum

/-- The message of a part of a batch. -/
def invalidationMessage (b : InvalidationBatch) : WslDrive.Message where
  type := MsgType.invalidation.code
  payload := writeInvalidation b

/-- `broadcast_batch`: the frames, as `write_frame` lays them out. -/
def broadcastFrames (opts : Options) (batch : InvalidationBatch) : List Bytes :=
  (broadcastBatch opts batch).map fun chunk => writeFrame [] (invalidationMessage chunk)

/-- A frame with a right header that carries a batch. -/
structure Carries (f : Bytes) (b : InvalidationBatch) (h : FrameHeader) (payload : Bytes) :
    Prop where
  bytes : f = encodeHeader h ++ payload
  header : decodeHeader f = .ok h
  type : h.type = MsgType.invalidation.code
  length : h.payloadLen.toNat = payload.length
  le : payload.length ≤ Proto.kMaxPayload
  batch : readInvalidation.run payload = .ok b []

variable {opts : Options} {ops : List InvalidationOp} {op : InvalidationOp} {budget size fuel : ℕ}

/-! ### The split -/

theorem estimate_fitChunk (h : (fitChunk budget size ops).1 ≠ []) :
    size + estimate (fitChunk budget size ops).1 ≤ budget := by
  induction ops generalizing size with
  | nil => exact absurd rfl h
  | cons op ops ih =>
    rw [fitChunk] at h ⊢
    dsimp only at h ⊢
    split_ifs at h ⊢ with hb
    · exact absurd rfl h
    · simp only [estimate, List.map_cons, List.sum_cons] at ih ⊢
      by_cases hnil : (fitChunk budget (size + op.path.length + 32) ops).1 = []
      · rw [hnil, List.map_nil, List.sum_nil]
        omega
      · have := ih hnil
        omega

theorem estimate_firstChunk (opts : Options) (ops : List InvalidationOp) :
    (firstChunk opts ops).1.length ≤ 1 ∨
      estimate (firstChunk opts ops).1 ≤ Proto.kMaxPayload / 2 := by
  cases ops with
  | nil => exact .inl (Nat.zero_le 1)
  | cons op ops =>
    rw [firstChunk]
    dsimp only
    by_cases hnil : (fitChunk (min opts.snapshotChunkBytes (Proto.kMaxPayload / 2))
        (op.path.length + 32) ops).1 = []
    · rw [hnil]
      exact .inl (Nat.le_refl 1)
    · have := estimate_fitChunk hnil
      rw [estimate, List.map_cons, List.sum_cons, ← estimate]
      exact .inr (this.trans (Nat.min_le_right _ _))

theorem firstChunk_ne_nil (h : ops ≠ []) : (firstChunk opts ops).1 ≠ [] := by
  cases ops with
  | nil => exact absurd rfl h
  | cons op ops => exact List.cons_ne_nil _ _

theorem mem_chunks {chunk : List InvalidationOp} (h : chunk ∈ chunks opts fuel ops) :
    ∃ rest, rest ≠ [] ∧ rest <:+ ops ∧ chunk = (firstChunk opts rest).1 := by
  induction fuel generalizing ops with
  | zero => cases h
  | succ fuel ih =>
    cases ops with
    | nil => cases h
    | cons op ops =>
      rw [chunks] at h
      · rcases List.mem_cons.1 h with rfl | h
        · exact ⟨op :: ops, List.cons_ne_nil _ _, List.suffix_refl _, rfl⟩
        · obtain ⟨rest, hne, hsuffix, rfl⟩ := ih h
          refine ⟨rest, hne, hsuffix.trans ⟨(firstChunk opts (op :: ops)).1, ?_⟩, rfl⟩
          exact firstChunk_append opts (op :: ops)
      · exact List.cons_ne_nil op ops

/-- A round for each operation is enough: further rounds find nothing to send. -/
theorem chunks_congr {fuel' : ℕ} (h : ops.length ≤ fuel) (h' : ops.length ≤ fuel') :
    chunks opts fuel ops = chunks opts fuel' ops := by
  induction fuel generalizing fuel' ops with
  | zero =>
    rw [List.length_eq_zero_iff.1 (Nat.le_zero.1 h)]
    cases fuel' <;> rfl
  | succ fuel ih =>
    cases ops with
    | nil => cases fuel' <;> rfl
    | cons op ops =>
      have hlt := length_firstChunk_lt opts (List.cons_ne_nil op ops)
      cases fuel' with
      | zero => exact absurd h' (by simp)
      | succ fuel' =>
        have hrest : chunks opts fuel (firstChunk opts (op :: ops)).2 =
            chunks opts fuel' (firstChunk opts (op :: ops)).2 := ih (by omega) (by omega)
        rw [chunks, chunks, hrest]
        · exact List.cons_ne_nil op ops
        · exact List.cons_ne_nil op ops

/-! ### Encoded frames -/

theorem sum_map_add_const {α : Type*} (xs : List α) (f : α → ℕ) (c d : ℕ) :
    (xs.map fun x => f x + (c + d)).sum = (xs.map fun x => f x + c).sum + d * xs.length := by
  induction xs with
  | nil => rfl
  | cons x xs ih =>
    rw [List.map_cons, List.sum_cons, ih, List.map_cons, List.sum_cons, List.length_cons]
    ring

theorem mul_length_le_estimate (ops : List InvalidationOp) : 32 * ops.length ≤ estimate ops := by
  induction ops with
  | nil => exact Nat.le_refl 0
  | cons op ops ih =>
    rw [estimate, List.map_cons, List.sum_cons, ← estimate, List.length_cons]
    omega

theorem length_chunk_le (h : ∀ op ∈ ops, op.path.length < Proto.kMaxPayload / 2 - 64)
    (hops : ops.length ≤ 1 ∨ estimate ops ≤ Proto.kMaxPayload / 2) (generation : UInt64) :
    (writeInvalidation ⟨generation, ops⟩).length ≤ Proto.kMaxPayload := by
  have hmax : Proto.kMaxPayload = 67108864 := rfl
  have hhalf : Proto.kMaxPayload / 2 = 33554432 := rfl
  have hlen : (writeInvalidation ⟨generation, ops⟩).length ≤
      18 + (ops.map fun op => op.path.length + 34).sum :=
    length_invalidation_le fun op hop => by
      have := h op hop
      rw [hmax] at this
      omega
  rcases hops with hone | hest
  · obtain rfl | ⟨op, rfl⟩ : ops = [] ∨ ∃ op, ops = [op] := by
      rcases Nat.le_one_iff_eq_zero_or_eq_one.1 hone with h0 | h1
      · exact .inl (List.length_eq_zero_iff.1 h0)
      · exact .inr (List.length_eq_one_iff.1 h1)
    · rw [List.map_nil, List.sum_nil] at hlen
      omega
    · have hpath := h op List.mem_cons_self
      rw [List.map_singleton, List.sum_singleton] at hlen
      omega
  · -- two bytes more than the estimate for each operation, and 32 operations take a kilobyte
    have hsum : (ops.map fun op => op.path.length + 34).sum = estimate ops + 2 * ops.length :=
      sum_map_add_const ops (fun op => op.path.length) 32 2
    have hcount := mul_length_le_estimate ops
    omega

variable {batch b : InvalidationBatch}

theorem mem_of_mem_broadcastBatch (hb : b ∈ broadcastBatch opts batch) :
    b.generation = batch.generation ∧ b.ops ≠ [] ∧ (∀ op ∈ b.ops, op ∈ batch.ops) ∧
      (b.ops.length ≤ 1 ∨ estimate b.ops ≤ Proto.kMaxPayload / 2) := by
  obtain ⟨chunk, hchunk, rfl⟩ := List.mem_map.1 hb
  obtain ⟨rest, hne, hsuffix, rfl⟩ := mem_chunks hchunk
  refine ⟨rfl, firstChunk_ne_nil hne, fun op hop => hsuffix.subset ?_,
    estimate_firstChunk opts rest⟩
  rw [← firstChunk_append opts rest]
  exact List.mem_append_left _ hop

theorem carries_writeFrame (hle : (writeInvalidation b).length ≤ Proto.kMaxPayload)
    (hb : HonestBatch b) :
    Carries (writeFrame [] (invalidationMessage b)) b
      ((invalidationMessage b).header (writeInvalidation b).length) (writeInvalidation b) := by
  have hlen : ((invalidationMessage b).header (writeInvalidation b).length).payloadLen.toNat =
      (writeInvalidation b).length := FrameChannel.toNat_payloadLen hle
  have hbytes := writeFrame_eq [] (invalidationMessage b)
  rw [List.nil_append, WslDrive.Message.wire] at hbytes
  refine ⟨hbytes, ?_, rfl, hlen, hle, ?_⟩
  · rw [hbytes]
    exact decodeHeader_encodeHeader (by rw [← hlen] at hle; exact hle) _
  · rw [← List.append_nil (writeInvalidation b)]
    exact reads_invalidation hb []

/-- **Splitting a batch is invisible and bounded.**  With paths below half a frame the loop ends,
every frame holds an operation and fits the channel, and the frames decode to the operations of the
batch in their order, under its generation. -/
theorem broadcast_frames (opts : Options) (batch : InvalidationBatch)
    (hpath : ∀ op ∈ batch.ops, op.path.length < Proto.kMaxPayload / 2 - 64)
    (hattr : ∀ op ∈ batch.ops, op.kind ≠ .upsert → op.attr = {})
    (hcookie : ∀ op ∈ batch.ops, op.change.isMove = false → op.cookie = 0) :
    (∀ fuel, batch.ops.length ≤ fuel →
      chunks opts fuel batch.ops = chunks opts batch.ops.length batch.ops) ∧
    (∀ f ∈ broadcastFrames opts batch, ∀ ch : FrameChannel, ch.sendRaw f = ch.sendBytes f) ∧
    ∃ bs : List InvalidationBatch,
      List.Forall₂ (fun f b => ∃ h payload, Carries f b h payload) (broadcastFrames opts batch) bs ∧
      (∀ b ∈ bs, b.generation = batch.generation ∧ b.ops ≠ []) ∧
      bs.flatMap (·.ops) = batch.ops := by
  have hcarries : ∀ b ∈ broadcastBatch opts batch,
      Carries (writeFrame [] (invalidationMessage b)) b
        ((invalidationMessage b).header (writeInvalidation b).length) (writeInvalidation b) := by
    intro b hb
    obtain ⟨-, -, hmem, hest⟩ := mem_of_mem_broadcastBatch hb
    have hlt : ∀ op ∈ b.ops, op.path.length < Proto.kMaxPayload / 2 - 64 := fun op hop =>
      hpath op (hmem op hop)
    have hmax : Proto.kMaxPayload / 2 - 64 < 2 ^ 64 := by decide
    refine carries_writeFrame (length_chunk_le hlt hest b.generation) ⟨?_, fun op hop => ?_⟩
    · have := mul_length_le_estimate b.ops
      have hhalf : Proto.kMaxPayload / 2 = 33554432 := rfl
      omega
    · exact ⟨(hlt op hop).trans hmax, hattr op (hmem op hop), hcookie op (hmem op hop)⟩
  refine ⟨fun fuel h => chunks_congr h (Nat.le_refl _), fun f hf ch => ?_,
    broadcastBatch opts batch, ?_, fun b hb => ?_, flatMap_broadcastBatch opts batch⟩
  · obtain ⟨b, hb, rfl⟩ := List.mem_map.1 hf
    have h := hcarries b hb
    rw [FrameChannel.sendRaw, if_neg]
    rw [h.bytes, List.length_append, length_encodeHeader]
    have := h.le
    omega
  · rw [broadcastFrames, List.forall₂_map_left_iff, List.forall₂_same]
    exact fun b hb => ⟨_, _, hcarries b hb⟩
  · obtain ⟨hgen, hne, -⟩ := mem_of_mem_broadcastBatch hb
    exact ⟨hgen, hne⟩

/-- A rename and a new file, with room for one operation in a frame. -/
def renameBatch : InvalidationBatch where
  generation := 7
  ops := [{ kind := .remove, path := bytes "a", change := .movedFrom, cookie := 3 },
    { kind := .upsert, path := bytes "b", change := .movedTo, cookie := 3 },
    { kind := .upsert, path := bytes "c", attr := { size := 5 }, change := .created }]

theorem broadcast_frames_rename :
    (∀ f ∈ broadcastFrames { snapshotChunkBytes := 0 } renameBatch, ∀ ch : FrameChannel,
      ch.sendRaw f = ch.sendBytes f) ∧
    (broadcastBatch { snapshotChunkBytes := 0 } renameBatch).length = 3 :=
  ⟨(broadcast_frames { snapshotChunkBytes := 0 } renameBatch (by decide) (by decide)
    (by decide)).2.1, by decide⟩

end RootServer

end WslDrive
