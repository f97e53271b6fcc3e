import WslDrive.Agent.Broadcast
import WslDrive.Agent.Served
import WslDrive.Agent.SnapshotStream

/-!
# From the disk to the mirror over one connection

The agent scans its disk and sends the entries in frames; between them go the parts of invalidation
batches and replies to other requests.  The bytes arrive in pieces.

* `connection_refines` — the bytes of a connection do to the client what the batches and the reply
  say, which is how the steps of the client are modelled elsewhere;
* `mirror_is_disk` — if nothing changes meanwhile, the client ends up with the disk of the agent.
-/

namespace WslDrive

open Proto FrameChannel

namespace SnapshotStream

open RootServer (broadcastBatch invalidationMessage)

variable {opts : RootServer.Options} {batches : List InvalidationBatch} {ms : List Message}
  {es : List SnapshotEntry} {budget : ℕ} {gen id : UInt64} {rx : FrameChannel}

/-- The messages of a connection on which a snapshot and batches are sent. -/
structure Carried (opts : RootServer.Options) (budget : ℕ) (gen id : UInt64)
    (es : List SnapshotEntry) (batches : List InvalidationBatch) (ms : List Message) : Prop where
  reply : ms.filter (fun m => concerns id m.frame) = frames budget gen id [] es
  parts : ms.filter (fun m => m.type = MsgType.invalidation.code) =
    (batches.flatMap (broadcastBatch opts)).map invalidationMessage
  honest : ∀ b ∈ batches, ∀ op ∈ b.ops, HonestOp op
  fits : ∀ m ∈ ms, m.payload.length ≤ kMaxPayload
  few : es.length ≤ kMaxSnapshotEntries
  bytes : ((frames budget gen id [] es).map (·.payload.length)).sum ≤ kMaxSnapshotBytes

theorem run_readInvalidation {b : InvalidationBatch}
    (hb : b ∈ batches.flatMap (broadcastBatch opts))
    (h : ∀ b ∈ batches, ∀ op ∈ b.ops, HonestOp op) :
    readInvalidation.run (writeInvalidation b) = .ok b [] := by
  obtain ⟨batch, hbatch, hb⟩ := List.mem_flatMap.1 hb
  obtain ⟨-, -, hmem, hest⟩ := RootServer.mem_of_mem_broadcastBatch hb
  have hlen := RootServer.mul_length_le_estimate b.ops
  have hhalf : Proto.kMaxPayload / 2 = 33554432 := rfl
  have := reads_invalidation ⟨by omega, fun op hop => h batch hbatch op (hmem op hop)⟩ []
  rwa [List.append_nil] at this

theorem Reader.client_receive (s : Reader) {bs : List InvalidationBatch}
    (hms : ms.filter (fun m => m.type = MsgType.invalidation.code) =
      bs.map invalidationMessage)
    (hbs : ∀ b ∈ bs, readInvalidation.run (writeInvalidation b) = .ok b []) :
    ((ms.map Message.frame).foldl Reader.receive s).client =
      bs.foldl (fun c b => (c.applyInvalidation b).1) s.client := by
  induction ms generalizing s bs with
  | nil =>
    rw [List.map_eq_nil_iff.1 hms.symm]
    rfl
  | cons m ms ih =>
    rw [List.map_cons, List.foldl_cons]
    by_cases hm : m.type = MsgType.invalidation.code
    · rw [List.filter_cons_of_pos (by simpa using hm)] at hms
      obtain ⟨b, bs, rfl, rfl, hrest⟩ := List.map_eq_cons_iff.1 hms.symm
      have hclient : (s.receive (invalidationMessage b).frame).client =
          (s.client.applyInvalidation b).1 := by
        have hrun : readInvalidation.run (invalidationMessage b).frame.payload =
            .ok b [] := hbs b List.mem_cons_self
        have htype : (invalidationMessage b).frame.header.type = _ := hm
        rw [Reader.receive, if_pos htype, hrun]
      rw [ih _ hrest.symm fun b' hb' => hbs b' (List.mem_cons_of_mem _ hb'), hclient,
        List.foldl_cons]
    · rw [List.filter_cons_of_neg (by simpa using hm)] at hms
      have hclient : (s.receive m.frame).client = s.client := by
        rw [Reader.receive, if_neg (show m.frame.header.type ≠ _ from hm)]
        split_ifs <;> rfl
      rw [ih _ hms hbs, hclient]

/-- The reader when these frames have come since `fetch_snapshot` began. -/
def fetching (c : RemoteRoot) (id : UInt64) (fs : List Frame) : Reader :=
  Reader.run ⟨c.beginSnapshot, id, {}⟩ fs false

namespace Carried

variable (h : Carried opts budget gen id es batches ms)

include h

theorem received (hrx : rx.Ready) (hs : Socket.stream rx.arrivals = ms.flatMap Message.wire) :
    (rx.receives ms.length).1 = (ms.map Message.frame).map .ok := by
  have := receives_frames hrx h.fits hs 0
  rwa [List.replicate_zero, List.append_nil, Nat.add_zero, ← Function.comp_def, ← List.map_map]
    at this

theorem fit : ∀ m ∈ frames budget gen id [] es, m.payload.length ≤ kMaxPayload := fun m hm =>
  h.fits m (List.mem_of_mem_filter (h.reply ▸ hm))

theorem completed (c : RemoteRoot) :
    (fetching c id (ms.map Message.frame)).request.Completed gen es := by
  have hstart : ({} : Request).Waiting 0 [] 0 :=
    ⟨rfl, rfl, ⟨rfl, rfl, rfl, rfl, rfl, Nat.zero_le _⟩, rfl⟩
  have hframes := (receive_frames hstart (by simpa using h.few) h.fit (by simpa using h.bytes)).2
  rw [fetching, Reader.run, if_neg Bool.false_ne_true, Reader.foldl_receive, List.filter_map]
  rwa [← h.reply, List.nil_append, List.nil_append] at hframes

theorem client (c : RemoteRoot) :
    (fetching c id (ms.map Message.frame)).client = (batches.flatMap (broadcastBatch opts)).foldl
      (fun c b => (c.applyInvalidation b).1) c.beginSnapshot := by
  rw [fetching, Reader.run, if_neg Bool.false_ne_true]
  exact Reader.client_receive _ h.parts fun b hb => run_readInvalidation hb h.honest

end Carried

/-- **The connection refines the steps of the client.**  However the bytes are cut, the client takes
the messages off the stream, applies the batches in their order, and completes its request with the
entries and the generation of the agent; then `fetch_snapshot` goes on with these. -/
theorem connection_refines (c : RemoteRoot) (h : Carried opts budget gen id es batches ms)
    (hrx : rx.Ready) (hs : Socket.stream rx.arrivals = ms.flatMap Message.wire) :
    ∃ fs, (rx.receives ms.length).1 = fs.map .ok ∧
      let s := fetching c id fs
      s.request.pending.done = true ∧
      s.client = (batches.flatMap (broadcastBatch opts)).foldl
        (fun c b => (c.applyInvalidation b).1) c.beginSnapshot ∧
      s.fetched = s.client.endSnapshot (.ok (es, gen)) := by
  have hdone := h.completed c
  refine ⟨_, h.received hrx hs, hdone.done, h.client _, ?_⟩
  rw [Reader.fetched, hdone.reply]

open DiskView in
/-- **The mirror is the disk.**  The scan of a readable tree ends, its entries are sent, and
whatever the mirror of the client was, after `fetch_snapshot` over a connection on which no change
is announced it has at each path what the disk of the agent has there, if it is reported and its
names are valid, and nothing else. -/
theorem mirror_is_disk {view : DiskView} (hview : view.IsLinuxTree) {all : List (List Bytes)}
    (hall : ∀ p, view.Has p → p ∈ all) {rounds : ℕ} (hrounds : all.length ≤ rounds)
    (opts : RootServer.Options) (c : RemoteRoot) (gen id : UInt64) :
    ∃ stats es, scanTree rounds view [] (fun es e => es ++ [e]) (fun _ => opts.excludes)
        opts.oneFileSystem [] = (.ok stats, es) ∧
      ∀ (ms : List Message) (tx rx : FrameChannel),
        Carried opts opts.snapshotChunkBytes gen id es [] ms → tx.Sound → rx.Ready →
        Socket.stream rx.arrivals = ms.flatMap Message.wire →
        (sendSnapshot opts rounds view gen id tx).1 = .ok () ∧
        (sendSnapshot opts rounds view gen id tx).2.put =
          tx.put ++ (ms.filter fun m => concerns id m.frame).flatMap Message.wire ∧
        ∃ fs, (rx.receives ms.length).1 = fs.map .ok ∧
          let fetched := (fetching c id fs).fetched
          fetched.1 = .ok () ∧ ∀ p, p ≠ [] → ∀ a, fetched.2.tree.paths p = some a ↔
            view.Reported opts.excludes opts.oneFileSystem p ∧ representable p = true ∧
              view.attributes (joined p) = some a := by
  obtain ⟨stats, es, qs, hscan, -, hqs, -, hspelled⟩ :=
    hview.scanTree_reports opts.excludes opts.oneFileSystem hall hrounds
  refine ⟨stats, es, hscan, fun ms tx rx h htx hrx hs => ?_⟩
  have hsending : ({ ch := tx } : Sending).Holds [] := ⟨rfl, rfl, rfl, htx⟩
  obtain ⟨hok, hput⟩ := sendEntries_spec hsending h.fit
  rw [sendSnapshot_eq gen id tx hscan, h.reply]
  refine ⟨hok, hput, _, h.received hrx hs, ?_⟩
  have hdone := h.completed c
  have hclient : (fetching c id (ms.map Message.frame)).client = c.beginSnapshot := h.client c
  have hmax : kMaxSnapshotEntries < 2 ^ 32 := by decide
  obtain ⟨hload, hpaths, -⟩ := (hspelled (h.few.trans_lt hmax)).loadSnapshot_spec c.tree
  have htree : c.beginSnapshot.tree.loadSnapshot es = (.ok (), (c.tree.loadSnapshot es).2) :=
    Prod.ext hload rfl
  rw [Reader.fetched, hdone.reply, hclient, RemoteRoot.endSnapshot]
  dsimp only
  rw [htree]
  refine ⟨rfl, fun p hp a => ?_⟩
  show (c.tree.loadSnapshot es).2.paths p = some a ↔ _
  rw [hpaths, PathMap.kept, if_neg hp, Option.ite_none_right_eq_some, hqs, and_assoc]

/-- The bytes of some messages in one piece. -/
def arriving (ms : List Message) : FrameChannel := { arrivals := [.data (ms.flatMap Message.wire)] }

theorem ready_arriving (ms : List Message) : (arriving ms).Ready :=
  ⟨fun _ hr => by simp [arriving] at hr, le_rfl, rfl⟩

/-- A batch in three parts between the frames of a snapshot. -/
theorem connection_refines_mixed :
    let es : List SnapshotEntry := [⟨0, bytes "d", { kind := .directory }⟩, ⟨1, bytes "x", {}⟩]
    let ms := (List.zipWith (fun f b => [f, invalidationMessage b]) (frames 1 7 3 [] es)
      (broadcastBatch { snapshotChunkBytes := 0 } RootServer.renameBatch)).flatten
    ms.length = 6 ∧ ∃ fs, ((arriving ms).receives 6).1 = fs.map .ok ∧
      (fetching {} 3 fs).request.pending.done =
        true := by
  intro es ms
  have h : Carried { snapshotChunkBytes := 0 } 1 7 3 es [RootServer.renameBatch] ms :=
    ⟨by decide, by decide, by simp only [HonestOp, Sized]; decide, by decide, by decide, by decide⟩
  obtain ⟨fs, hfs, hdone, -⟩ := connection_refines {} h (ready_arriving ms) (List.append_nil _)
  exact ⟨rfl, fs, hfs, hdone⟩

/-- A directory with a file. -/
theorem mirror_is_disk_crowd :
    let opts : RootServer.Options := { snapshotChunkBytes := 1 }
    ∃ stats es, scanTree 3 (crowd []) [] (fun es e => es ++ [e]) (fun _ => opts.excludes)
        opts.oneFileSystem [] = (.ok stats, es) ∧
      let ms := frames 1 7 3 [] es
      ∃ fs, ((arriving ms).receives ms.length).1 = fs.map .ok ∧
        (fetching {} 3 fs).fetched.1 = .ok () := by
  intro opts
  have hall : ∀ p, (crowd []).Has p → p ∈ [[], [bytes "d"], [bytes "d", bytes "x"]] :=
    fun p hp => by rcases has_crowd List.not_mem_nil hp with rfl | ⟨c, hc, rfl⟩ | rfl <;> simp_all
  obtain ⟨stats, es, hscan, hmirror⟩ := mirror_is_disk
    (isLinuxTree_crowd .nil (by simp) (by simp)) hall (Nat.le_refl 3) opts {} 7 3
  have h : Carried opts 1 7 3 es [] (frames 1 7 3 [] es) := by
    obtain rfl := congrArg Prod.snd hscan
    exact ⟨by decide, by decide, by simp, by decide, by decide, by decide⟩
  obtain ⟨-, -, fs, hfs, hok, -⟩ :=
    hmirror _ {} _ h (fun _ => by simp) (ready_arriving _) (List.append_nil _)
  exact ⟨stats, es, hscan, fs, hfs, hok⟩

end SnapshotStream

end WslDrive
