import WslDrive.Agent.Client
import WslDrive.Agent.Flush
import WslDrive.Net.FrameChannel

/-!
# A snapshot in several frames

The agent encodes the entries of a scan one after the other and sends a frame when enough bytes are
buffered; every frame but the last says that more follow.  The reader of the client adds up the
entries of the frames until it sees the last one, within limits on entries and bytes.

* `sendEntries_spec` — the frames that the agent sends: the entries cut into groups;
* `Request.Progress.receive`, `Request.progress` — what any sequence of frames makes of a request;
* `receive_frames` — what the frames of the agent make of it;
* `snapshot_reassembles` — the stream is put together again, and any other is refused or taken as
  it is.
-/

namespace WslDrive

open Codec Proto

namespace SnapshotStream

/-! ### The agent -/

/-- `kFlagMore`: more frames follow. -/
def kFlagMore : UInt32 := 0x1

/-- The error codes in the order of their values, which start at 1; `kLastErrc` is the last. -/
def errcs : List Errc :=
  [.notFound, .alreadyExists, .notADirectory, .isADirectory, .invalidArgument, .invalidPath,
    .truncated, .badMagic, .unsupportedVersion, .corrupt, .ioError, .tooLarge, .connectionClosed,
    .unsupported, .timeout, .protocolError, .unauthorized]

/-- The variables of `send_snapshot`. -/
structure Sending where
  /-- Encoded entries buffered for the current frame. -/
  entries : Bytes := []
  count : UInt32 := 0
  sendRc : Except Errc Unit := .ok ()
  ch : FrameChannel

section

variable (budget : ℕ) (gen id : UInt64)

/-- The frame that `flush` lays out. -/
def snapshotFrame (more : Bool) (count : UInt32) (entries : Bytes) : Message where
  type := MsgType.snapshot.code
  requestId := id
  flags := if more then kFlagMore else 0
  payload := writeSnapshotHeader ⟨gen, count⟩ ++ entries

/-- `flush`. -/
def Sending.flush (more : Bool) (s : Sending) : Except Errc Unit × Sending :=
  let (r, ch) := s.ch.sendRaw (writeFrame [] (snapshotFrame gen id more s.count s.entries))
  (r, { s with entries := [], count := 0, ch })

/-- An entry of the scan. -/
def Sending.onEntry (s : Sending) (e : SnapshotEntry) : Sending :=
  match s.sendRc with
  -- a previous flush failed; stop buffering
  | .error _ => s
  | .ok () =>
    let s := { s with entries := s.entries ++ writeSnapshotEntry e, count := s.count + 1 }
    if s.entries.length ≥ budget then
      let (r, s) := s.flush gen id true
      { s with sendRc := r }
    else s

/-- The end of `send_snapshot` after a scan. -/
def Sending.finish (s : Sending) : Except Errc Unit × FrameChannel :=
  match s.sendRc with
  | .error e => (.error e, s.ch)
  | .ok () =>
    let (r, s) := s.flush gen id false
    (r, s.ch)

/-- `send_snapshot` for the entries that the scan hands out. -/
def sendEntries (es : List SnapshotEntry) (ch : FrameChannel) : Except Errc Unit × FrameChannel :=
  (es.foldl (Sending.onEntry budget gen id) { ch }).finish gen id

end

/-- `send_snapshot`, with the generation of the agent. -/
def sendSnapshot (opts : RootServer.Options) (rounds : ℕ) (view : DiskView) (gen id : UInt64)
    (ch : FrameChannel) : Except Errc Unit × FrameChannel :=
  match scanTree rounds view [] (Sending.onEntry opts.snapshotChunkBytes gen id)
      (fun _ => opts.excludes) opts.oneFileSystem { ch } with
  | (.error e, s) =>
    s.ch.sendWith MsgType.error.code id
      (writeError { code := UInt32.ofNat (errcs.idxOf e + 1), detail := bytes "scan failed" })
  | (.ok _, s) => s.finish gen id

/-! ### The client -/

/-- `kMaxSnapshotEntries`. -/
def kMaxSnapshotEntries : ℕ := 2 ^ 20

/-- `kMaxSnapshotBytes`: 1 GiB. -/
def kMaxSnapshotBytes : ℕ := 2 ^ 30

/-- `RemoteRoot::Pending`. -/
structure Pending where
  done : Bool := false
  /-- Code of the message type. -/
  type : UInt16 := 0
  payload : Bytes := []
  streaming : Bool
  streamOk : Bool := true
  snapGeneration : UInt64 := 0
  snapBytes : ℕ := 0
  /-- The names of the entries across frames. -/
  snapNames : List Bytes := []
  /-- Their names are filled in at the end. -/
  snapEntries : List SnapshotEntry := []

/-- The loop over the entries of a frame. -/
def Pending.readEntries : ℕ → Pending → Bytes → Pending
  | 0, p, _ => p
  | n + 1, p, input =>
    if p.snapEntries.length ≥ kMaxSnapshotEntries then { p with streamOk := false }
    else
      match readSnapshotEntry.run input with
      | .error _ _ => { p with streamOk := false }
      | .ok e rest =>
        readEntries n
          { p with snapNames := p.snapNames ++ [e.name]
                   snapEntries := p.snapEntries ++ [{ e with name := [] }] } rest

/-- The payload of one frame of the stream. -/
def Pending.addFrame (p : Pending) (payload : Bytes) : Pending :=
  let p := { p with snapBytes := p.snapBytes + payload.length }
  if p.snapBytes > kMaxSnapshotBytes then { p with streamOk := false }
  else
    match readSnapshotHeader.run payload with
    | .error _ _ => { p with streamOk := false }
    | .ok hdr rest =>
      readEntries hdr.count.toNat { p with snapGeneration := hdr.generation } rest

/-- A streaming request: what the client waits for, and whether the reader still knows it. -/
structure Request where
  registered : Bool := true
  pending : Pending := { streaming := true }

/-- A frame with the id of the request. -/
def Request.receive (r : Request) (f : Frame) : Request :=
  if !r.registered then r
  else if r.pending.streaming && f.header.type == MsgType.snapshot.code then
    let p := r.pending.addFrame f.payload
    let more := f.header.flags &&& kFlagMore != 0
    if !more || !p.streamOk then
      { registered := false, pending := { p with type := MsgType.snapshot.code, done := true } }
    else { r with pending := p }
  else
    { registered := false
      pending := { r.pending with type := f.header.type, payload := f.payload, done := true } }

/-- What `fail_all_pending` makes of a request. -/
def Request.fail (r : Request) : Request :=
  if r.registered then
    { registered := false
      pending := { r.pending with type := MsgType.ping.code, payload := [], done := true } }
  else r

/-- The error in an error message. -/
def readErrc (payload : Bytes) : Errc :=
  match readError.run payload with
  | .ok e _ => if e.code = 0 then .protocolError else errcs.getD (e.code.toNat - 1) .protocolError
  | .error _ _ => .protocolError

/-- What `fetch_snapshot` makes of a completed request: the checks at the end of `request` and its
own, and then the entries with their names. -/
def Pending.reply (p : Pending) : Except Errc (List SnapshotEntry × UInt64) :=
  if p.type = MsgType.error.code then .error (readErrc p.payload)
  else if p.payload = [] ∧ p.type = MsgType.ping.code then .error .connectionClosed
  else if p.type ≠ MsgType.snapshot.code then .error .protocolError
  else if !p.streamOk then .error .corrupt
  else
    .ok (List.zipWith (fun e name => { e with name }) p.snapEntries p.snapNames, p.snapGeneration)

/-- The client while a snapshot is requested: the state that `fetch_snapshot` and the reader
share. -/
structure Reader where
  client : RemoteRoot
  id : UInt64
  request : Request := {}

/-- One round of `reader_loop`; frames for other requests do not concern this one. -/
def Reader.receive (s : Reader) (f : Frame) : Reader :=
  if f.header.type = MsgType.invalidation.code then
    match readInvalidation.run f.payload with
    | .error _ _ => s
    | .ok batch _ => { s with client := (s.client.applyInvalidation batch).1 }
  else if f.header.requestId = s.id then { s with request := s.request.receive f }
  else s

/-- `reader_loop` over the frames that arrive, and its end if the connection is lost. -/
def Reader.run (s : Reader) (fs : List Frame) (lost : Bool) : Reader :=
  let s := fs.foldl Reader.receive s
  if lost then { s with request := s.request.fail } else s

/-- The rest of `fetch_snapshot`, when the request is done. -/
def Reader.fetched (s : Reader) : Except Errc Unit × RemoteRoot :=
  s.client.endSnapshot s.request.pending.reply

/-! ### What the agent sends -/

section

variable {budget : ℕ} {gen id : UInt64}

/-- The frame for a group of entries. -/
def groupFrame (gen id : UInt64) (more : Bool) (g : List SnapshotEntry) : Message :=
  snapshotFrame gen id more (UInt32.ofNat g.length) (g.flatMap writeSnapshotEntry)

/-- The entries in groups: a group ends with the entry that reaches the budget, and the last one
with the snapshot.  `acc` is the group that has begun. -/
def frames (budget : ℕ) (gen id : UInt64) :
    List SnapshotEntry → List SnapshotEntry → List Message
  | acc, [] => [groupFrame gen id false acc]
  | acc, e :: es =>
    if budget ≤ ((acc ++ [e]).flatMap writeSnapshotEntry).length then
      groupFrame gen id true (acc ++ [e]) :: frames budget gen id [] es
    else frames budget gen id (acc ++ [e]) es

/-- A group is buffered and nothing has failed. -/
structure Sending.Holds (s : Sending) (acc : List SnapshotEntry) : Prop where
  entries : s.entries = acc.flatMap writeSnapshotEntry
  count : s.count = UInt32.ofNat acc.length
  sendRc : s.sendRc = .ok ()
  sound : s.ch.Sound

theorem Sending.Holds.flush {s : Sending} {acc : List SnapshotEntry} (h : s.Holds acc)
    {more : Bool} (hfit : (groupFrame gen id more acc).payload.length ≤ kMaxPayload) :
    (s.flush gen id more).1 = .ok () ∧ (s.flush gen id more).2.Holds [] ∧
      (s.flush gen id more).2.ch.put = s.ch.put ++ (groupFrame gen id more acc).wire := by
  have hm : snapshotFrame gen id more s.count s.entries = groupFrame gen id more acc := by
    rw [h.count, h.entries, groupFrame]
  have hwire : (FrameChannel.SendCall.sendRaw [groupFrame gen id more acc]).wire =
      (groupFrame gen id more acc).wire := by
    simp [FrameChannel.SendCall.wire, FrameChannel.SendCall.messages]
  obtain ⟨hok, hput, hsound⟩ := FrameChannel.SendCall.run_sound h.sound
    (c := .sendRaw [groupFrame gen id more acc]) (by
      rw [FrameChannel.SendCall.Fits, hwire, Message.length_wire]
      omega)
  have hraw : s.ch.sendRaw (writeFrame [] (groupFrame gen id more acc)) =
      FrameChannel.SendCall.run s.ch (.sendRaw [groupFrame gen id more acc]) := rfl
  rw [hwire] at hput
  unfold Sending.flush
  rw [hm, hraw]
  generalize FrameChannel.SendCall.run s.ch (.sendRaw [groupFrame gen id more acc]) = sent at *
  exact ⟨hok, ⟨rfl, rfl, h.sendRc, hsound⟩, hput⟩

theorem Sending.Holds.onEntry {s : Sending} {acc : List SnapshotEntry} (h : s.Holds acc)
    (budget : ℕ) (gen id : UInt64) (e : SnapshotEntry) :
    ∃ s' : Sending, s'.Holds (acc ++ [e]) ∧ s'.ch = s.ch ∧
      s.onEntry budget gen id e =
        if budget ≤ ((acc ++ [e]).flatMap writeSnapshotEntry).length then
          { (s'.flush gen id true).2 with sendRc := (s'.flush gen id true).1 }
        else s' := by
  have hentries : s.entries ++ writeSnapshotEntry e = (acc ++ [e]).flatMap writeSnapshotEntry := by
    simp [h.entries]
  refine ⟨{ s with entries := s.entries ++ writeSnapshotEntry e, count := s.count + 1 },
    ⟨hentries, ?_, h.sendRc, h.sound⟩, rfl, ?_⟩
  · show s.count + 1 = _
    rw [h.count, List.length_append, UInt32.ofNat_add]
    rfl
  · rw [Sending.onEntry, h.sendRc, ← hentries]

theorem sendEntries_spec {s : Sending} {acc es : List SnapshotEntry} (h : s.Holds acc)
    (hfit : ∀ m ∈ frames budget gen id acc es, m.payload.length ≤ kMaxPayload) :
    ((es.foldl (Sending.onEntry budget gen id) s).finish gen id).1 = .ok () ∧
      ((es.foldl (Sending.onEntry budget gen id) s).finish gen id).2.put =
        s.ch.put ++ (frames budget gen id acc es).flatMap Message.wire := by
  induction es generalizing s acc with
  | nil =>
    obtain ⟨hok, -, hput⟩ := h.flush (hfit _ List.mem_cons_self)
    rw [List.foldl_nil, Sending.finish, h.sendRc]
    generalize s.flush gen id false = sent at hok hput
    exact ⟨hok, by simpa [frames] using hput⟩
  | cons e es ih =>
    obtain ⟨s', hs', hch, hentry⟩ := h.onEntry budget gen id e
    rw [List.foldl_cons, hentry, ← hch]
    rw [frames] at hfit ⊢
    split_ifs at hfit ⊢ with hfull
    · obtain ⟨hok, hholds, hput⟩ := hs'.flush (hfit _ List.mem_cons_self)
      generalize s'.flush gen id true = sent at hok hholds hput ⊢
      have hnext : { sent.2 with sendRc := sent.1 }.Holds [] :=
        ⟨hholds.entries, hholds.count, hok, hholds.sound⟩
      obtain ⟨hfin, hsent⟩ := ih hnext fun m hm => hfit m (List.mem_cons_of_mem _ hm)
      refine ⟨hfin, hsent.trans ?_⟩
      rw [hput, List.flatMap_cons, List.append_assoc]
    · exact ih hs' hfit

theorem sendSnapshot_eq {opts : RootServer.Options} {rounds : ℕ} {view : DiskView}
    {stats : ScanStats} {es : List SnapshotEntry} (gen id : UInt64) (ch : FrameChannel)
    (h : scanTree rounds view [] (fun es e => es ++ [e]) (fun _ => opts.excludes)
      opts.oneFileSystem [] = (.ok stats, es)) :
    sendSnapshot opts rounds view gen id ch = sendEntries opts.snapshotChunkBytes gen id es ch := by
  rw [sendSnapshot, scanTree_eq_foldl, h]
  rfl

end

/-! ### What a frame says -/

/-- The generation and the entries in a frame. -/
def decodeFrame (payload : Bytes) : Option (UInt64 × List SnapshotEntry) :=
  match readSnapshotHeader.run payload with
  | .error _ _ => none
  | .ok hdr rest =>
    match (readN readSnapshotEntry hdr.count.toNat).run rest with
    | .error _ _ => none
    | .ok es _ => some (hdr.generation, es)

/-- The entries are added. -/
def Pending.add (p : Pending) (es : List SnapshotEntry) : Pending :=
  { p with snapNames := p.snapNames ++ es.map (·.name)
           snapEntries := p.snapEntries ++ es.map fun e => { e with name := [] } }

/-- **The loop over the entries** reads them all within the limit, or the stream is broken. -/
theorem Pending.readEntries_spec (n : ℕ) {p : Pending}
    (hp : p.snapEntries.length ≤ kMaxSnapshotEntries) (input : Bytes) :
    (∃ es rest, (readN readSnapshotEntry n).run input = .ok es rest ∧
      p.snapEntries.length + n ≤ kMaxSnapshotEntries ∧ p.readEntries n input = p.add es) ∨
    ((p.readEntries n input).streamOk = false ∧
      ∀ es rest, (readN readSnapshotEntry n).run input = .ok es rest →
        kMaxSnapshotEntries < p.snapEntries.length + n) := by
  induction n generalizing p input with
  | zero =>
    refine .inl ⟨[], input, rfl, hp, ?_⟩
    simp [readEntries, add]
  | succ n ih =>
    rw [readEntries]
    split_ifs with hfull
    · exact .inr ⟨rfl, fun _ _ _ => by omega⟩
    · cases he : readSnapshotEntry.run input with
      | error err rest =>
        refine .inr ⟨rfl, fun es rest' hrun => ?_⟩
        obtain ⟨e, es', s', hd, -⟩ := readN_succ_run_eq_ok_iff.1 hrun
        rw [he] at hd
        cases hd
      | ok e rest =>
        dsimp only
        have hroom : ({ p with
            snapNames := p.snapNames ++ [e.name]
            snapEntries := p.snapEntries ++ [{ e with name := [] }] } :
              Pending).snapEntries.length = p.snapEntries.length + 1 := by simp
        rcases ih (hroom.le.trans (by omega)) rest with
          ⟨es, rest', hrun, hlen, hadd⟩ | ⟨hbroken, hlong⟩
        · refine .inl ⟨e :: es, rest', readN_succ_run_eq_ok_iff.2 ⟨e, es, rest, he, hrun, rfl⟩,
            by omega, hadd.trans ?_⟩
          simp [add]
        · refine .inr ⟨hbroken, fun es rest' hrun => ?_⟩
          obtain ⟨e', es', s', hd, hes, -⟩ := readN_succ_run_eq_ok_iff.1 hrun
          rw [he] at hd
          cases hd
          have := hlong es' rest' hes
          omega

theorem length_of_readN {n : ℕ} {input rest : Bytes} {es : List SnapshotEntry}
    (h : (readN readSnapshotEntry n).run input = .ok es rest) : es.length = n := by
  induction n generalizing input es with
  | zero =>
    cases h
    rfl
  | succ n ih =>
    obtain ⟨e, es', s', -, hes, rfl⟩ := readN_succ_run_eq_ok_iff.1 h
    rw [List.length_cons, ih hes]

/-- **One frame of the stream**: its entries are added, or the stream is broken. -/
theorem Pending.addFrame_spec {p : Pending} (hp : p.snapEntries.length ≤ kMaxSnapshotEntries)
    (payload : Bytes) :
    (∃ gen es, decodeFrame payload = some (gen, es) ∧
      p.snapBytes + payload.length ≤ kMaxSnapshotBytes ∧
      p.snapEntries.length + es.length ≤ kMaxSnapshotEntries ∧
      p.addFrame payload = { p with
        snapBytes := p.snapBytes + payload.length, snapGeneration := gen }.add es) ∨
    ((p.addFrame payload).streamOk = false ∧
      (p.snapBytes + payload.length ≤ kMaxSnapshotBytes →
        ∀ gen es, decodeFrame payload = some (gen, es) →
          kMaxSnapshotEntries < p.snapEntries.length + es.length)) := by
  unfold Pending.addFrame
  dsimp only
  split_ifs with hbytes
  · exact .inr ⟨rfl, fun hle => absurd hle (by omega)⟩
  · rw [decodeFrame]
    cases hh : readSnapshotHeader.run payload with
    | error err rest => exact .inr ⟨rfl, fun _ _ _ h => by cases h⟩
    | ok hdr rest =>
      dsimp only
      rcases readEntries_spec hdr.count.toNat
          (p := { p with
            snapBytes := p.snapBytes + payload.length, snapGeneration := hdr.generation })
          hp rest with
        ⟨es, rest', hrun, hlen, hadd⟩ | ⟨hbroken, hlong⟩
      · refine .inl ⟨hdr.generation, es, ?_, by omega, ?_, hadd⟩
        · rw [hrun]
        · rw [length_of_readN hrun]
          exact hlen
      · refine .inr ⟨hbroken, fun _ gen es hdec => ?_⟩
        cases hrun : (readN readSnapshotEntry hdr.count.toNat).run rest with
        | error err rest' =>
          rw [hrun] at hdec
          cases hdec
        | ok es' rest' =>
          rw [hrun] at hdec
          cases hdec
          rw [length_of_readN hrun]
          exact hlong _ _ hrun

/-! ### Any sequence of frames -/

/-- What the frames of a stream say: the generation of the last and the entries of all of them. -/
inductive Decoded : List Frame → UInt64 → List SnapshotEntry → Prop
  | nil : Decoded [] 0 []
  | concat {fs : List Frame} {gen gen' : UInt64} {es es' : List SnapshotEntry} {f : Frame}
      (h : Decoded fs gen es) (hf : decodeFrame f.payload = some (gen', es')) :
      Decoded (fs ++ [f]) gen' (es ++ es')

/-- A frame of a stream, with the flag that more follow or without it. -/
def IsChunk (more : Bool) (f : Frame) : Prop :=
  f.header.type = MsgType.snapshot.code ∧ (f.header.flags &&& kFlagMore != 0) = more

/-- The stream so far has these entries. -/
structure Pending.Has (p : Pending) (gen : UInt64) (es : List SnapshotEntry) : Prop where
  streaming : p.streaming = true
  streamOk : p.streamOk = true
  generation : p.snapGeneration = gen
  names : p.snapNames = es.map (·.name)
  entries : p.snapEntries = es.map fun e => { e with name := [] }
  few : es.length ≤ kMaxSnapshotEntries

section

variable {p : Pending} {gen : UInt64} {es es' : List SnapshotEntry} {r : Request}
  {f : Frame} {fs : List Frame}

theorem Pending.Has.add (h : p.Has gen es) (bytes : ℕ) (gen' : UInt64)
    (hfew : es.length + es'.length ≤ kMaxSnapshotEntries) :
    ({ p with snapBytes := bytes, snapGeneration := gen' }.add es').Has gen' (es ++ es') where
  streaming := h.streaming
  streamOk := h.streamOk
  generation := rfl
  names := by simp [Pending.add, h.names]
  entries := by simp [Pending.add, h.entries]
  few := by rwa [List.length_append]

theorem Pending.Has.reply (h : p.Has gen es) :
    { p with type := MsgType.snapshot.code, done := true }.reply = .ok (es, gen) := by
  have hnames : List.zipWith (fun (e : SnapshotEntry) name => { e with name })
      (es.map fun e => { e with name := [] }) (es.map (·.name)) = es := by
    rw [List.zipWith_map, List.zipWith_self]
    exact List.map_id' es
  unfold Pending.reply
  dsimp only
  rw [if_neg (by decide), if_neg (fun hping => absurd hping.2 (by decide)), if_neg (by simp),
    h.streamOk, if_neg (by decide), h.entries, h.names, hnames, h.generation]

theorem Pending.reply_error (h : p.type ≠ MsgType.snapshot.code ∨ p.streamOk = false) :
    ∃ e, p.reply = .error e := by
  unfold Pending.reply
  split_ifs with herror hping htype hok
  · exact ⟨_, rfl⟩
  · exact ⟨_, rfl⟩
  · exact ⟨_, rfl⟩
  · exact ⟨_, rfl⟩
  · rw [not_not] at htype
    simp only [Bool.not_eq_true', Bool.not_eq_false] at hok
    rcases h with h | h
    · exact absurd htype h
    · rw [hok] at h
      cases h

/-- What the frames with the id of a request have made of it. -/
inductive Request.Progress (fs : List Frame) (r : Request) : Prop
  /-- The request is not complete: all frames belong to the stream, and more are to follow. -/
  | waiting (gen : UInt64) (es : List SnapshotEntry) (registered : r.registered = true)
      (done : r.pending.done = false) (more : ∀ f ∈ fs, IsChunk true f)
      (decoded : Decoded fs gen es) (has : r.pending.Has gen es)
  /-- The request has the entries of its frames up to the first without the flag. -/
  | complete (own late : List Frame) (f : Frame) (gen : UInt64) (es : List SnapshotEntry)
      (split : fs = own ++ f :: late) (more : ∀ g ∈ own, IsChunk true g) (last : IsChunk false f)
      (decoded : Decoded (own ++ [f]) gen es) (registered : r.registered = false)
      (done : r.pending.done = true) (reply : r.pending.reply = .ok (es, gen))
  | failed (e : Errc) (registered : r.registered = false) (done : r.pending.done = true)
      (reply : r.pending.reply = .error e)

theorem Request.receive_of_not_registered (h : r.registered = false) (f : Frame) :
    r.receive f = r := by
  rw [Request.receive, h]
  rfl

theorem Request.receive_chunk (hreg : r.registered = true) (hs : r.pending.streaming = true)
    {more : Bool} (hf : IsChunk more f) : r.receive f =
      if more = false ∨ (r.pending.addFrame f.payload).streamOk = false then
        { registered := false
          pending := { r.pending.addFrame f.payload with
            type := MsgType.snapshot.code, done := true } }
      else { r with pending := r.pending.addFrame f.payload } := by
  rw [Request.receive, hreg, hs, hf.1]
  dsimp only
  rw [hf.2]
  simp

theorem Request.Progress.receive (h : r.Progress fs) (f : Frame) :
    (r.receive f).Progress (fs ++ [f]) := by
  cases h with
  | waiting gen es hreg hdone hmore hdec has =>
    by_cases htype : f.header.type = MsgType.snapshot.code
    · have hchunk : IsChunk (f.header.flags &&& kFlagMore != 0) f := ⟨htype, rfl⟩
      generalize (f.header.flags &&& kFlagMore != 0) = more at hchunk
      rw [receive_chunk hreg has.streaming hchunk]
      have hroom : r.pending.snapEntries.length ≤ kMaxSnapshotEntries := by
        rw [has.entries, List.length_map]
        exact has.few
      rcases Pending.addFrame_spec hroom f.payload with
        ⟨gen', es', hframe, -, hfew, hadd⟩ | ⟨hbroken, -⟩
      · rw [has.entries, List.length_map] at hfew
        have has' := has.add (r.pending.snapBytes + f.payload.length) gen' hfew
        rw [← hadd] at has'
        rw [has'.streamOk]
        cases more with
        | true =>
          rw [if_neg (by simp)]
          refine .waiting gen' (es ++ es') hreg ?_ ?_ (hdec.concat hframe) has'
          · show (r.pending.addFrame f.payload).done = false
            rw [hadd]
            exact hdone
          · intro g hg
            rcases List.mem_append.1 hg with hg | hg
            · exact hmore g hg
            · rw [List.mem_singleton.1 hg]
              exact hchunk
        | false =>
          rw [if_pos (.inl rfl)]
          exact .complete fs [] f gen' (es ++ es') rfl hmore hchunk (hdec.concat hframe) rfl rfl
            has'.reply
      · rw [if_pos (.inr hbroken)]
        obtain ⟨e, he⟩ := Pending.reply_error (p := { r.pending.addFrame f.payload with
            type := MsgType.snapshot.code, done := true }) (.inr hbroken)
        exact .failed e rfl rfl he
    · -- Any other reply ends the request, and is no snapshot.
      have hrec : r.receive f = { registered := false, pending := { r.pending with
          type := f.header.type, payload := f.payload, done := true } } := by
        rw [Request.receive, hreg, if_neg (by simp), if_neg (by simp [htype])]
      obtain ⟨e, he⟩ := Pending.reply_error (p := { r.pending with
          type := f.header.type, payload := f.payload, done := true }) (.inl htype)
      rw [hrec]
      exact .failed e rfl rfl he
  | complete own late g gen es hsplit hmore hlast hdec hreg hdone hreply =>
    rw [receive_of_not_registered hreg]
    refine .complete own (late ++ [f]) g gen es ?_ hmore hlast hdec hreg hdone hreply
    rw [hsplit, List.append_assoc, List.cons_append]
  | failed e hreg hdone hreply =>
    rw [receive_of_not_registered hreg]
    exact .failed e hreg hdone hreply

theorem Request.progress (fs : List Frame) : (fs.foldl Request.receive {}).Progress fs := by
  induction fs using List.reverseRecOn with
  | nil =>
    exact .waiting 0 [] rfl rfl (List.forall_mem_nil _) .nil
      ⟨rfl, rfl, rfl, rfl, rfl, Nat.zero_le _⟩
  | append_singleton fs f ih =>
    rw [List.foldl_append]
    exact ih.receive f

theorem Request.Progress.fail (h : r.Progress fs) : r.fail.Progress fs := by
  cases h with
  | waiting gen es hreg =>
    rw [Request.fail, if_pos hreg]
    exact .failed .connectionClosed rfl rfl (by
      unfold Pending.reply
      dsimp only
      rw [if_neg (by decide), if_pos ⟨rfl, rfl⟩])
  | complete own late f gen es hsplit hmore hlast hdec hreg hdone hreply =>
    rw [Request.fail, hreg, if_neg Bool.false_ne_true]
    exact .complete own late f gen es hsplit hmore hlast hdec hreg hdone hreply
  | failed e hreg hdone hreply =>
    rw [Request.fail, hreg, if_neg Bool.false_ne_true]
    exact .failed e hreg hdone hreply

end

/-! ### The frames of the agent -/

section

variable {gen gen₀ id : UInt64} {budget : ℕ} {g acc es prev : List SnapshotEntry} {r : Request}
  {more : Bool}

theorem sized_of_groupFrame (hfit : (groupFrame gen id more g).payload.length ≤ kMaxPayload)
    {e : SnapshotEntry} (he : e ∈ g) : Sized e.name := by
  obtain ⟨before, after, rfl⟩ := List.append_of_mem he
  simp only [groupFrame, snapshotFrame, List.flatMap_append, List.flatMap_cons,
    writeSnapshotEntry, Writer.string, List.length_append, kMaxPayload] at hfit
  rw [Sized]
  omega

theorem decodeFrame_groupFrame (hg : g.length ≤ kMaxSnapshotEntries)
    (hfit : (groupFrame gen id more g).payload.length ≤ kMaxPayload) :
    decodeFrame (groupFrame gen id more g).payload = some (gen, g) := by
  have hcount : (UInt32.ofNat g.length).toNat = g.length := by
    rw [UInt32.toNat_ofNat']
    exact Nat.mod_eq_of_lt (hg.trans_lt (by decide))
  have hhead : readSnapshotHeader.run (groupFrame gen id more g).payload =
      .ok ⟨gen, UInt32.ofNat g.length⟩ (g.flatMap writeSnapshotEntry) := by
    apply run_snapshotHeader
    rw [hcount]
    exact length_le_length_flatMap g fun e _ => length_snapshotEntry e
  have hread := Reads.readN g (fun e he => reads_snapshotEntry (sized_of_groupFrame hfit he)) []
  rw [List.append_nil] at hread
  rw [decodeFrame, hhead]
  dsimp only
  rw [hcount, hread]

/-- The request waits for more frames. -/
structure Request.Waiting (r : Request) (gen : UInt64) (es : List SnapshotEntry) (bytes : ℕ) :
    Prop where
  registered : r.registered = true
  done : r.pending.done = false
  has : r.pending.Has gen es
  bytes : r.pending.snapBytes = bytes

/-- The request is complete, with these entries. -/
structure Request.Completed (r : Request) (gen : UInt64) (es : List SnapshotEntry) : Prop where
  done : r.pending.done = true
  streamOk : r.pending.streamOk = true
  generation : r.pending.snapGeneration = gen
  reply : r.pending.reply = .ok (es, gen)

theorem isChunk_groupFrame : IsChunk more (groupFrame gen id more g).frame := by
  refine ⟨rfl, ?_⟩
  show ((if more then kFlagMore else 0) &&& kFlagMore != 0) = more
  cases more <;> decide

theorem Request.Waiting.addFrame {bytes : ℕ} (h : r.Waiting gen₀ prev bytes)
    (hfew : prev.length + g.length ≤ kMaxSnapshotEntries)
    (hfit : (groupFrame gen id more g).payload.length ≤ kMaxPayload)
    (hbytes : bytes + (groupFrame gen id more g).payload.length ≤ kMaxSnapshotBytes) :
    (r.pending.addFrame (groupFrame gen id more g).payload).Has gen (prev ++ g) ∧
      (r.pending.addFrame (groupFrame gen id more g).payload).done = false ∧
      (r.pending.addFrame (groupFrame gen id more g).payload).snapBytes =
        bytes + (groupFrame gen id more g).payload.length := by
  have hroom : r.pending.snapEntries.length = prev.length := by
    rw [h.has.entries, List.length_map]
  have hdec := decodeFrame_groupFrame (by omega) hfit
  rcases Pending.addFrame_spec (hroom.le.trans h.has.few) (groupFrame gen id more g).payload with
    ⟨gen', es', hframe, -, -, hadd⟩ | ⟨-, hlong⟩
  · rw [hdec] at hframe
    cases hframe
    rw [hadd, h.bytes]
    exact ⟨h.has.add _ gen hfew, h.done, rfl⟩
  · rw [h.bytes] at hlong
    have := hlong hbytes gen g hdec
    omega

theorem Request.Waiting.receive_more {bytes : ℕ} (h : r.Waiting gen₀ prev bytes)
    (hfew : prev.length + g.length ≤ kMaxSnapshotEntries)
    (hfit : (groupFrame gen id true g).payload.length ≤ kMaxPayload)
    (hbytes : bytes + (groupFrame gen id true g).payload.length ≤ kMaxSnapshotBytes) :
    (r.receive (groupFrame gen id true g).frame).Waiting gen (prev ++ g)
      (bytes + (groupFrame gen id true g).payload.length) := by
  obtain ⟨has, hdone, hsum⟩ := h.addFrame hfew hfit hbytes
  have hrec : r.receive (groupFrame gen id true g).frame =
      { r with pending := r.pending.addFrame (groupFrame gen id true g).payload } := by
    rw [receive_chunk h.registered h.has.streaming isChunk_groupFrame, if_neg]
    · rfl
    · rintro (hmore | hbroken)
      · cases hmore
      · exact absurd (has.streamOk.symm.trans hbroken) (by decide)
  rw [hrec]
  exact ⟨h.registered, hdone, has, hsum⟩

theorem Request.Waiting.receive_last {bytes : ℕ} (h : r.Waiting gen₀ prev bytes)
    (hfew : prev.length + g.length ≤ kMaxSnapshotEntries)
    (hfit : (groupFrame gen id false g).payload.length ≤ kMaxPayload)
    (hbytes : bytes + (groupFrame gen id false g).payload.length ≤ kMaxSnapshotBytes) :
    (r.receive (groupFrame gen id false g).frame).Completed gen (prev ++ g) := by
  obtain ⟨has, -, -⟩ := h.addFrame hfew hfit hbytes
  rw [receive_chunk h.registered h.has.streaming isChunk_groupFrame, if_pos (.inl rfl)]
  exact ⟨rfl, has.streamOk, has.generation, has.reply⟩

/-- **The frames of the agent** complete the request, the last one and none before. -/
theorem receive_frames {bytes : ℕ} (h : r.Waiting gen₀ prev bytes)
    (hfew : prev.length + (acc ++ es).length ≤ kMaxSnapshotEntries)
    (hfit : ∀ m ∈ frames budget gen id acc es, m.payload.length ≤ kMaxPayload)
    (hbytes : bytes + ((frames budget gen id acc es).map (·.payload.length)).sum ≤
      kMaxSnapshotBytes) :
    (∀ k < (frames budget gen id acc es).length,
      ((((frames budget gen id acc es).map Message.frame).take k).foldl Request.receive
        r).pending.done = false) ∧
    (((frames budget gen id acc es).map Message.frame).foldl Request.receive r).Completed gen
      (prev ++ (acc ++ es)) := by
  induction es generalizing r gen₀ prev bytes acc with
  | nil =>
    simp only [frames, List.append_nil, List.map_cons, List.map_nil, List.sum_cons, List.sum_nil,
      Nat.add_zero, List.length_singleton, Nat.lt_one_iff] at hfit hfew hbytes ⊢
    refine ⟨fun k hk => ?_, h.receive_last hfew (hfit _ List.mem_cons_self) hbytes⟩
    rw [hk]
    exact h.done
  | cons e es ih =>
    have hshift : acc ++ e :: es = (acc ++ [e]) ++ es := by simp
    rw [hshift] at hfew ⊢
    rw [frames] at hfit hbytes ⊢
    split_ifs at hfit hbytes ⊢ with hfull
    · -- The group is sent: what follows starts with an empty one.
      rw [List.map_cons, List.sum_cons] at hbytes
      rw [List.length_append] at hfew
      have hnext := h.receive_more (g := acc ++ [e]) (by omega) (hfit _ List.mem_cons_self)
        (by omega)
      have hfew' : (prev ++ (acc ++ [e])).length + ([] ++ es).length ≤ kMaxSnapshotEntries := by
        rw [List.length_append, List.nil_append]
        omega
      obtain ⟨hbefore, hafter⟩ := ih hnext hfew' (fun m hm =>
        hfit m (List.mem_cons_of_mem _ hm)) (by omega)
      rw [List.nil_append, List.append_assoc] at hafter
      refine ⟨fun k hk => ?_, hafter⟩
      cases k with
      | zero => exact h.done
      | succ k => exact hbefore k (by simpa using hk)
    · exact ih h hfew hfit hbytes

end

/-! ### The reader -/

/-- The frame is a reply to the request. -/
def concerns (id : UInt64) (f : Frame) : Bool :=
  f.header.type != MsgType.invalidation.code && f.header.requestId == id

/-- The replies to other requests and the invalidations leave the request alone. -/
theorem Reader.foldl_receive (s : Reader) (fs : List Frame) :
    (fs.foldl Reader.receive s).request =
      (fs.filter (concerns s.id)).foldl Request.receive s.request := by
  induction fs generalizing s with
  | nil => rfl
  | cons f fs ih =>
    have hstep : (s.receive f).id = s.id ∧ (s.receive f).request =
        if concerns s.id f = true then s.request.receive f else s.request := by
      unfold Reader.receive
      by_cases htype : f.header.type = MsgType.invalidation.code
      · rw [if_pos htype, if_neg (by simp [concerns, htype])]
        cases readInvalidation.run f.payload <;> exact ⟨rfl, rfl⟩
      · rw [if_neg htype]
        by_cases hid : f.header.requestId = s.id
        · rw [if_pos hid, if_pos (by simp [concerns, htype, hid])]
          exact ⟨rfl, rfl⟩
        · rw [if_neg hid, if_neg (by simp [concerns, hid])]
          exact ⟨rfl, rfl⟩
    rw [List.foldl_cons, ih, hstep.1, hstep.2, List.filter_cons]
    split_ifs <;> rfl

theorem Reader.client_foldl_receive (s : Reader) {fs : List Frame}
    (h : ∀ f ∈ fs, f.header.type ≠ MsgType.invalidation.code) :
    (fs.foldl Reader.receive s).client = s.client := by
  induction fs generalizing s with
  | nil => rfl
  | cons f fs ih =>
    rw [List.foldl_cons, ih _ fun g hg => h g (List.mem_cons_of_mem f hg), Reader.receive,
      if_neg (h f List.mem_cons_self)]
    split_ifs <;> rfl

theorem concerns_frames {budget : ℕ} {gen id : UInt64} {acc es : List SnapshotEntry} :
    ∀ f ∈ (frames budget gen id acc es).map Message.frame, concerns id f = true := by
  have hgroup : ∀ more g, concerns id (groupFrame gen id more g).frame = true := by
    intro more g
    have htype : (MsgType.snapshot.code != MsgType.invalidation.code) = true := by decide
    rw [concerns, Bool.and_eq_true, beq_iff_eq]
    exact ⟨htype, rfl⟩
  induction es generalizing acc with
  | nil => simpa [frames] using hgroup false acc
  | cons e es ih =>
    rw [frames]
    split_ifs
    · rw [List.map_cons, List.forall_mem_cons]
      exact ⟨hgroup true _, ih⟩
    · exact ih

/-- **The stream is put together again.**  If the frames of a snapshot are within the limits, the
last one completes the request of the client with the entries of the agent.  Whatever frames arrive,
only invalidations change the mirror before, and a request is complete only with the entries of its
own frames up to the last. -/
theorem snapshot_reassembles (c : RemoteRoot) (id : UInt64) :
    (∀ (budget : ℕ) (gen : UInt64) (es : List SnapshotEntry) (tx rx : FrameChannel),
      es.length ≤ kMaxSnapshotEntries →
      (∀ m ∈ frames budget gen id [] es, m.payload.length ≤ kMaxPayload) →
      ((frames budget gen id [] es).map (·.payload.length)).sum ≤ kMaxSnapshotBytes →
      tx.Sound → rx.Ready →
      Socket.stream rx.arrivals = (frames budget gen id [] es).flatMap Message.wire →
      (sendEntries budget gen id es tx).1 = .ok () ∧
      (sendEntries budget gen id es tx).2.put = tx.put ++ Socket.stream rx.arrivals ∧
      (rx.receives (frames budget gen id [] es).length).1 =
        (frames budget gen id [] es).map (fun m => .ok m.frame) ∧
      (∀ k < (frames budget gen id [] es).length,
        ((Reader.mk c id {}).run (((frames budget gen id [] es).map Message.frame).take k)
          false).request.pending.done = false) ∧
      ((Reader.mk c id {}).run ((frames budget gen id [] es).map Message.frame)
        false).request.Completed gen es) ∧
    ∀ (fs : List Frame) (lost : Bool),
      let s := (Reader.mk c id {}).run fs lost
      ((∀ f ∈ fs, f.header.type ≠ MsgType.invalidation.code) → s.client = c) ∧
      (s.request.pending.done = false ∨
      s.request.pending.done = true ∧
        (∃ e, s.fetched.1 = .error e ∧ s.fetched.2.tree = s.client.tree) ∨
      s.request.pending.done = true ∧
        ∃ own last late gen es, fs.filter (concerns id) = own ++ last :: late ∧
          (∀ f ∈ own, IsChunk true f) ∧ IsChunk false last ∧ Decoded (own ++ [last]) gen es ∧
          s.request.pending.reply = .ok (es, gen)) := by
  refine ⟨fun budget gen es tx rx hfew hfit hbytes htx hrx hs => ?_, fun fs lost => ?_⟩
  · have hstart : ({} : Request).Waiting 0 [] 0 :=
      ⟨rfl, rfl, ⟨rfl, rfl, rfl, rfl, rfl, Nat.zero_le _⟩, rfl⟩
    have hsending : ({ ch := tx } : Sending).Holds [] := ⟨rfl, rfl, rfl, htx⟩
    obtain ⟨hok, hput⟩ := sendEntries_spec hsending hfit
    have hreceived := FrameChannel.receives_frames hrx hfit hs 0
    obtain ⟨hbefore, hafter⟩ :=
      receive_frames hstart (by simpa using hfew) hfit (by simpa using hbytes)
    have hrun : ∀ l, l ⊆ (frames budget gen id [] es).map Message.frame →
        ((Reader.mk c id {}).run l false).request = l.foldl Request.receive {} := by
      intro l hl
      rw [Reader.run, if_neg Bool.false_ne_true, Reader.foldl_receive,
        List.filter_eq_self.2 fun f hf => concerns_frames f (hl hf)]
    refine ⟨hok, ?_, ?_, fun k hk => ?_, ?_⟩
    · rw [hs]
      exact hput
    · simpa using hreceived
    · rw [hrun _ (List.take_subset k _)]
      exact hbefore k hk
    · rw [hrun _ (List.Subset.refl _)]
      simpa using hafter
  · have hprogress : ((Reader.mk c id {}).run fs lost).request.Progress
        (fs.filter (concerns id)) := by
      have hframes := Request.progress (fs.filter (concerns id))
      rw [Reader.run]
      cases lost with
      | false =>
        rw [if_neg Bool.false_ne_true, Reader.foldl_receive]
        exact hframes
      | true =>
        rw [if_pos rfl]
        dsimp only
        rw [Reader.foldl_receive]
        exact hframes.fail
    refine ⟨fun hquiet => ?_, ?_⟩
    · rw [Reader.run]
      cases lost <;> exact Reader.client_foldl_receive _ hquiet
    cases hprogress with
    | waiting gen es hreg hdone => exact .inl hdone
    | failed e hreg hdone hreply =>
      refine .inr (.inl ⟨hdone, e, ?_⟩)
      rw [Reader.fetched, hreply]
      exact ⟨rfl, rfl⟩
    | complete own late f gen es hsplit hmore hlast hdec hreg hdone hreply =>
      exact .inr (.inr ⟨hdone, own, f, late, gen, es, hsplit, hmore, hlast, hdec, hreply⟩)

/-- A directory and a file in it, each in a frame of its own. -/
theorem snapshot_reassembles_small :
    let es : List SnapshotEntry := [⟨0, bytes "d", { kind := .directory }⟩, ⟨1, bytes "x", {}⟩]
    let ms := frames 1 7 3 [] es
    ms.length = 3 ∧
      ((Reader.mk {} 3 {}).run (ms.map Message.frame) false).request.Completed 7 es := by
  intro es ms
  refine ⟨by decide, ((snapshot_reassembles {} 3).1 1 7 es {}
    { arrivals := [.data (ms.flatMap Message.wire)] } (by decide) (by decide) (by decide) ?_
    ⟨?_, le_rfl, rfl⟩ ?_).2.2.2.2⟩
  · exact fun e he => absurd he List.not_mem_nil
  · intro reset hr
    simp at hr
  · exact List.append_nil _

end SnapshotStream

end WslDrive
