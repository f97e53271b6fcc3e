import WslDrive.Core.RoundTrip
import WslDrive.Lib.Buffer
import WslDrive.Net.Socket

/-!
# Frames over a stream socket

A frame is laid out in one of two ways: `write_frame` reserves the header in front of a payload that
is still to be written, `FrameChannel::send` copies header and payload into a buffer that it keeps.
The receiver reads a header, checks it, and reads as many bytes as it says.

* `writeFrame_eq`, `FrameChannel.layOut_eq` — both ways give the same bytes;
* `FrameChannel.receive_frame` — one call of `receive` takes one frame off the stream;
* `FrameChannel.receives_sent` — what is sent is received, however the stream is cut, and then the
  end of the stream;
* `FrameChannel.receive_spec` — on any stream a frame that is returned was taken off its front.
-/

namespace WslDrive

open Proto Socket Buffer

/-! ### Laying out a frame -/

/-- What the caller gives for a frame. -/
structure Message where
  /-- Code of the message type. -/
  type : UInt16
  requestId : UInt64 := 0
  flags : UInt32 := 0
  payload : Bytes
  deriving DecidableEq, Repr

namespace Message

/-- The header of a message, with the length that its payload has. -/
def header (m : Message) (payloadLen : ℕ) : FrameHeader where
  type := m.type
  flags := m.flags
  payloadLen := UInt32.ofNat payloadLen
  requestId := m.requestId

/-- The frame of a message. -/
def frame (m : Message) : Frame := ⟨m.header m.payload.length, m.payload⟩

/-- A frame as it is on the stream. -/
def wire (m : Message) : Bytes := encodeHeader (m.header m.payload.length) ++ m.payload

theorem length_wire (m : Message) : m.wire.length = kHeaderSize + m.payload.length := by
  rw [wire, List.length_append, length_encodeHeader]

end Message

/-- `write_frame`; its body appends the payload. -/
def writeFrame (buf : Bytes) (m : Message) : Bytes :=
  let start := buf.length
  let buf := resize 0 buf (start + kHeaderSize)
  let buf := buf ++ m.payload
  overwrite buf start (encodeHeader (m.header (buf.length - start - kHeaderSize)))

theorem writeFrame_eq (buf : Bytes) (m : Message) : writeFrame buf m = buf ++ m.wire := by
  have hlen : (buf ++ List.replicate kHeaderSize 0 ++ m.payload).length - buf.length -
      kHeaderSize = m.payload.length := by
    simp only [List.length_append, List.length_replicate]
    omega
  rw [writeFrame, resize_length_add, hlen, overwrite_append, Message.wire, List.append_assoc]
  rw [length_encodeHeader, List.length_replicate]

/-! ### The channel -/

/-- `Stats`: what has gone over the channel. -/
structure FrameStats where
  framesSent : ℕ := 0
  bytesSent : ℕ := 0
  framesReceived : ℕ := 0
  bytesReceived : ℕ := 0
  deriving DecidableEq, Repr

/-- `FrameChannel` with its socket: what the kernel will answer, what was put on the stream so far
and what is still to arrive. -/
structure FrameChannel where
  answers : List SendAnswer := []
  put : Bytes := []
  arrivals : List Arrival := []
  sendBuf : Bytes := []
  stats : FrameStats := {}
  maxPayload : ℕ := kMaxPayload
  /-- In milliseconds; 0 for no limit. -/
  frameTimeout : ℕ := 0
  deriving DecidableEq, Repr

namespace FrameChannel

variable (ch : FrameChannel)

/-- `send_all` on the socket of the channel, and the counters. -/
def sendBytes (data : Bytes) : Except Errc Unit × FrameChannel :=
  let (r, put, answers) := sendAll ch.answers data
  let ch := { ch with put := ch.put ++ put, answers }
  match r with
  | .error e => (.error e, ch)
  | .ok () =>
    let stats := { ch.stats with
      framesSent := ch.stats.framesSent + 1
      bytesSent := ch.stats.bytesSent + data.length }
    (.ok (), { ch with stats })

/-- How `send` fills the buffer of the channel. -/
def layOut (m : Message) : Bytes :=
  let buf := resize 0 ch.sendBuf (kHeaderSize + m.payload.length)
  let buf := overwrite buf 0 (encodeHeader (m.header m.payload.length))
  if m.payload ≠ [] then overwrite buf kHeaderSize m.payload else buf

/-- `send`. -/
def send (m : Message) : Except Errc Unit × FrameChannel :=
  if m.payload.length > kMaxPayload then (.error .tooLarge, ch)
  else
    let sendBuf := ch.layOut m
    sendBytes { ch with sendBuf } sendBuf

/-- `send_raw`: frames that are laid out already. -/
def sendRaw (frames : Bytes) : Except Errc Unit × FrameChannel :=
  if frames.length > kHeaderSize + kMaxPayload then (.error .tooLarge, ch)
  else ch.sendBytes frames

/-- `send_with`. -/
def sendWith (type : UInt16) (requestId : UInt64) (payload : Bytes) :
    Except Errc Unit × FrameChannel :=
  ch.sendRaw (writeFrame [] { type, requestId, payload })

/-- `receive`. -/
def receive : Except Errc Frame × FrameChannel :=
  let bounded : Bool := 0 < ch.frameTimeout
  match recvExact bounded kHeaderSize ch.arrivals with
  | (.error e, arrivals) => (.error e, { ch with arrivals })
  | (.ok hdr, arrivals) =>
    match decodeHeader hdr with
    | .error e => (.error e, { ch with arrivals })
    | .ok h =>
      if h.payloadLen.toNat > ch.maxPayload then (.error .tooLarge, { ch with arrivals })
      else
        -- `recv_exact` into an empty buffer returns at once
        match recvExact bounded h.payloadLen.toNat arrivals with
        | (.error e, arrivals) => (.error e, { ch with arrivals })
        | (.ok payload, arrivals) =>
          let stats := { ch.stats with
            framesReceived := ch.stats.framesReceived + 1
            bytesReceived := ch.stats.bytesReceived + kHeaderSize + h.payloadLen.toNat }
          (.ok ⟨h, payload⟩, { ch with arrivals, stats })

/-- `receive` again and again, with what it returned. -/
def receives : ℕ → FrameChannel → List (Except Errc Frame) × FrameChannel
  | 0, ch => ([], ch)
  | n + 1, ch =>
    let (r, ch) := ch.receive
    let (rs, ch) := receives n ch
    (r :: rs, ch)

/-! ### Sending -/

/-- **`send` lays the frame out as `write_frame` does**, whatever its buffer held before. -/
theorem layOut_eq (m : Message) : ch.layOut m = m.wire := by
  have hlen := length_resize 0 ch.sendBuf (kHeaderSize + m.payload.length)
  have hhdr := length_encodeHeader (m.header m.payload.length)
  have hfirst : overwrite (resize 0 ch.sendBuf (kHeaderSize + m.payload.length)) 0
      (encodeHeader (m.header m.payload.length)) = encodeHeader (m.header m.payload.length) ++
        (resize 0 ch.sendBuf (kHeaderSize + m.payload.length)).drop kHeaderSize := by
    rw [overwrite, hhdr, List.take_zero, List.nil_append, Nat.zero_add]
  rw [layOut, hfirst, Message.wire]
  split_ifs with hp
  · rw [overwrite, ← hhdr, List.take_left, hhdr, List.drop_eq_nil_of_le, List.append_nil]
    rw [List.length_append, List.length_drop, hlen, hhdr]
    omega
  · rw [not_not] at hp
    rw [List.drop_eq_nil_of_le, hp]
    rw [hlen, hp]
    exact le_rfl

/-- A way to send frames. -/
inductive SendCall where
  | send (m : Message)
  /-- `write_frame` for each message into one buffer, then `send_raw`. -/
  | sendRaw (ms : List Message)
  | sendWith (type : UInt16) (requestId : UInt64) (payload : Bytes)
  deriving DecidableEq, Repr

namespace SendCall

/-- The messages that a call puts on the stream. -/
def messages : SendCall → List Message
  | .send m => [m]
  | .sendRaw ms => ms
  | .sendWith type requestId payload => [{ type, requestId, payload }]

/-- The call. -/
def run (ch : FrameChannel) : SendCall → Except Errc Unit × FrameChannel
  | .send m => ch.send m
  | .sendRaw ms => ch.sendRaw (ms.foldl writeFrame [])
  | .sendWith type requestId payload => ch.sendWith type requestId payload

/-- The bytes of the call. -/
def wire (c : SendCall) : Bytes := c.messages.flatMap Message.wire

/-- The call is within the limit of a frame. -/
def Fits (c : SendCall) : Prop := c.wire.length ≤ kHeaderSize + kMaxPayload

theorem foldl_writeFrame (ms : List Message) (buf : Bytes) :
    ms.foldl writeFrame buf = buf ++ ms.flatMap Message.wire := by
  induction ms generalizing buf with
  | nil => simp
  | cons m ms ih => rw [List.foldl_cons, ih, writeFrame_eq, List.flatMap_cons, List.append_assoc]

/-- **A call that fits hands its frames to the socket**; another is refused and puts nothing on the
stream. -/
theorem run_eq (c : SendCall) (ch : FrameChannel) :
    (c.Fits ∧ ∃ sendBuf, c.run ch = sendBytes { ch with sendBuf } c.wire) ∨
    (¬ c.Fits ∧ c.run ch = (.error .tooLarge, ch)) := by
  have hraw : ∀ frames : Bytes, frames = c.wire → c.run ch = ch.sendRaw frames →
      (c.Fits ∧ ∃ sendBuf, c.run ch = sendBytes { ch with sendBuf } c.wire) ∨
      (¬ c.Fits ∧ c.run ch = (.error .tooLarge, ch)) := by
    rintro frames rfl hrun
    rw [hrun, FrameChannel.sendRaw]
    split_ifs with hbig
    · exact .inr ⟨by rw [Fits]; omega, rfl⟩
    · exact .inl ⟨by rw [Fits]; omega, ch.sendBuf, rfl⟩
  cases c with
  | send m =>
    have hwire : (SendCall.send m).wire = m.wire := by simp [wire, messages]
    rw [Fits, hwire, m.length_wire]
    by_cases hbig : m.payload.length > kMaxPayload
    · refine .inr ⟨by omega, ?_⟩
      rw [run, FrameChannel.send, if_pos hbig]
    · refine .inl ⟨by omega, m.wire, ?_⟩
      rw [run, FrameChannel.send, if_neg hbig]
      dsimp only
      rw [layOut_eq]
  | sendRaw ms => exact hraw _ (by rw [foldl_writeFrame, List.nil_append]; rfl) rfl
  | sendWith type requestId payload =>
    exact hraw _ (by rw [writeFrame_eq, List.nil_append]; simp [wire, messages]) rfl

end SendCall

/-- The calls one after the other. -/
def sendCalls (calls : List SendCall) : FrameChannel :=
  calls.foldl (fun ch c => (c.run ch).2) ch

/-- A channel whose socket does not fail. -/
def Sound : Prop := ∀ e, SendAnswer.failed e ∉ ch.answers

variable {ch}

theorem SendCall.run_sound (h : ch.Sound) {c : SendCall} (hfits : c.Fits) :
    (c.run ch).1 = .ok () ∧ (c.run ch).2.put = ch.put ++ c.wire ∧ (c.run ch).2.Sound := by
  obtain ⟨-, sendBuf, hrun⟩ | ⟨hnot, -⟩ := c.run_eq ch
  · obtain ⟨left, hsend, hleft⟩ := sendAll_ok h c.wire
    rw [hrun, sendBytes, hsend]
    exact ⟨rfl, rfl, fun e he => h e (hleft.mem he)⟩
  · exact absurd hfits hnot

theorem put_sendCalls (h : ch.Sound) {calls : List SendCall} (hfits : ∀ c ∈ calls, c.Fits) :
    (ch.sendCalls calls).put =
      ch.put ++ (calls.flatMap SendCall.messages).flatMap Message.wire := by
  induction calls generalizing ch with
  | nil => simp [sendCalls]
  | cons c calls ih =>
    obtain ⟨-, hput, hsound⟩ := SendCall.run_sound h (hfits c List.mem_cons_self)
    rw [sendCalls, List.foldl_cons, ← sendCalls,
      ih hsound fun d hd => hfits d (List.mem_cons_of_mem c hd), hput, List.flatMap_cons,
      List.flatMap_append, List.append_assoc]
    rfl

theorem SendCall.Fits.payload_le {c : SendCall} (hfits : c.Fits) {m : Message}
    (hm : m ∈ c.messages) : m.payload.length ≤ kMaxPayload := by
  have hsub : m.wire.length ≤ c.wire.length := by
    obtain ⟨before, after, heq⟩ := List.append_of_mem hm
    rw [SendCall.wire, heq, List.flatMap_append, List.flatMap_cons, List.length_append,
      List.length_append]
    omega
  rw [m.length_wire] at hsub
  rw [SendCall.Fits] at hfits
  omega

/-! ### Receiving -/

theorem payloadLen_le_of_decodeHeader {b : Bytes} {h : FrameHeader} (hd : decodeHeader b = .ok h) :
    h.payloadLen.toNat ≤ kMaxPayload := by
  rw [decodeHeader] at hd
  split_ifs at hd
  dsimp only at hd
  split_ifs at hd with hmax
  cases hd
  exact Nat.le_of_not_lt hmax

/-- **A frame that `receive` returns was the front of the stream**, with at most the largest
payload. -/
theorem receive_spec {f : Frame} {ch' : FrameChannel} (h : ch.receive = (.ok f, ch')) :
    ∃ hdr, hdr.length = kHeaderSize ∧ decodeHeader hdr = .ok f.header ∧
      f.payload.length = f.header.payloadLen.toNat ∧ f.payload.length ≤ kMaxPayload ∧
      f.payload.length ≤ ch.maxPayload ∧
      stream ch.arrivals = hdr ++ f.payload ++ stream ch'.arrivals := by
  rw [receive] at h
  dsimp only at h
  split at h
  · cases h
  · next hdr left hhdr =>
    split at h
    · cases h
    · next hd hdec =>
      split_ifs at h with hmax
      · cases h
      · split at h
        · cases h
        · next payload left' hpay =>
          cases h
          obtain ⟨hlen, hstream⟩ := recvExact_spec hhdr
          obtain ⟨hlen', hstream'⟩ := recvExact_spec hpay
          refine ⟨hdr, hlen, hdec, hlen', ?_, ?_, ?_⟩
          · rw [hlen']
            exact payloadLen_le_of_decodeHeader hdec
          · rw [hlen']
            exact Nat.le_of_not_lt hmax
          · rw [hstream, hstream', List.append_assoc]

/-- A channel with the limits of a new one whose socket does not fail. -/
structure Ready (ch : FrameChannel) : Prop where
  clean : Clean ch.arrivals
  maxPayload : kMaxPayload ≤ ch.maxPayload
  frameTimeout : ch.frameTimeout = 0

theorem toNat_payloadLen {m : Message} (hm : m.payload.length ≤ kMaxPayload) :
    (m.header m.payload.length).payloadLen.toNat = m.payload.length := by
  have : kMaxPayload < 2 ^ 32 := by decide
  exact Nat.mod_eq_of_lt (lt_of_le_of_lt hm this)

theorem receive_header (h : ch.Ready) {m : Message} (hm : m.payload.length ≤ kMaxPayload)
    {rest : Bytes} (hs : stream ch.arrivals = encodeHeader (m.header m.payload.length) ++ rest) :
    ∃ left, Clean left ∧ stream left = rest ∧ ch.receive =
      match recvExact false m.payload.length left with
      | (.error e, arrivals) => (.error e, { ch with arrivals })
      | (.ok payload, arrivals) =>
        (.ok ⟨m.header m.payload.length, payload⟩, { ch with
          arrivals
          stats := { ch.stats with
            framesReceived := ch.stats.framesReceived + 1
            bytesReceived := ch.stats.bytesReceived + kHeaderSize + m.payload.length } }) := by
  have hlen := toNat_payloadLen hm
  obtain ⟨left, hhdr, hclean, hleft⟩ := recvExact_delivers h.clean hs (length_encodeHeader _)
  have hdec : decodeHeader (encodeHeader (m.header m.payload.length) ++ []) =
      .ok (m.header m.payload.length) := decodeHeader_encodeHeader (by rw [hlen]; exact hm) []
  rw [List.append_nil] at hdec
  have hmax : ¬ (m.header m.payload.length).payloadLen.toNat > ch.maxPayload := by
    rw [hlen]
    exact Nat.not_lt.2 (hm.trans h.maxPayload)
  refine ⟨left, hclean, hleft, ?_⟩
  rw [receive, h.frameTimeout]
  dsimp only
  rw [show decide (0 < 0) = false from rfl, hhdr]
  dsimp only
  rw [hdec]
  dsimp only
  rw [if_neg hmax, hlen]

/-- **One call of `receive` takes one frame off the stream.** -/
theorem receive_frame (h : ch.Ready) {m : Message} (hm : m.payload.length ≤ kMaxPayload)
    {rest : Bytes} (hs : stream ch.arrivals = m.wire ++ rest) :
    ∃ ch', ch.receive = (.ok m.frame, ch') ∧ ch'.Ready ∧ stream ch'.arrivals = rest := by
  rw [Message.wire, List.append_assoc] at hs
  obtain ⟨left, hclean, hleft, heq⟩ := receive_header h hm hs
  obtain ⟨left', hpay, hclean', hleft'⟩ := recvExact_delivers hclean hleft rfl
  rw [hpay] at heq
  exact ⟨_, heq, ⟨hclean', h.maxPayload, h.frameTimeout⟩, hleft'⟩

theorem receive_short (h : ch.Ready) (hs : (stream ch.arrivals).length < kHeaderSize) :
    ∃ ch', ch.receive = (.error .connectionClosed, ch') ∧ ch'.Ready ∧ stream ch'.arrivals = [] := by
  obtain ⟨left, hhdr, hclean, hleft⟩ := recvExact_closed h.clean hs
  refine ⟨{ ch with arrivals := left }, ?_, ⟨hclean, h.maxPayload, h.frameTimeout⟩, hleft⟩
  rw [receive, h.frameTimeout]
  dsimp only
  rw [show decide (0 < 0) = false from rfl, hhdr]

theorem receive_cut (h : ch.Ready) {m : Message} (hm : m.payload.length ≤ kMaxPayload)
    (hs : stream ch.arrivals <+: m.wire) (hne : stream ch.arrivals ≠ m.wire) :
    ∃ ch', ch.receive = (.error .connectionClosed, ch') ∧ ch'.Ready ∧ stream ch'.arrivals = [] := by
  by_cases hshort : (stream ch.arrivals).length < kHeaderSize
  · exact receive_short h hshort
  · have hhdr : encodeHeader (m.header m.payload.length) <+: stream ch.arrivals :=
      List.prefix_of_prefix_length_le (List.prefix_append _ _) hs
        (by rw [length_encodeHeader]; omega)
    obtain ⟨part, hpart⟩ := hhdr
    have hlt : part.length < m.payload.length := by
      have hle := hs.length_le
      have hne' : (stream ch.arrivals).length ≠ m.wire.length := fun heq =>
        hne (hs.eq_of_length heq)
      rw [← hpart, m.length_wire, List.length_append, length_encodeHeader] at hle hne'
      omega
    obtain ⟨left, hclean, hleft, heq⟩ := receive_header h hm hpart.symm
    obtain ⟨left', hpay, hclean', hleft'⟩ := recvExact_closed hclean (by rw [hleft]; exact hlt)
    rw [hpay] at heq
    exact ⟨_, heq, ⟨hclean', h.maxPayload, h.frameTimeout⟩, hleft'⟩

theorem receives_closed (h : ch.Ready) (hs : stream ch.arrivals = []) (n : ℕ) :
    (receives n ch).1 = List.replicate n (.error .connectionClosed) := by
  induction n generalizing ch with
  | zero => rfl
  | succ n ih =>
    obtain ⟨ch', heq, h', hs'⟩ := receive_short h (by rw [hs]; decide)
    rw [receives, heq, List.replicate_succ, ← ih h' hs']

theorem receives_frames (h : ch.Ready) {ms : List Message}
    (hms : ∀ m ∈ ms, m.payload.length ≤ kMaxPayload)
    (hs : stream ch.arrivals = ms.flatMap Message.wire) (n : ℕ) :
    (receives (ms.length + n) ch).1 =
      ms.map (fun m => .ok m.frame) ++ List.replicate n (.error .connectionClosed) := by
  induction ms generalizing ch with
  | nil =>
    rw [List.length_nil, Nat.zero_add]
    exact receives_closed h hs n
  | cons m ms ih =>
    rw [List.flatMap_cons] at hs
    obtain ⟨ch', heq, h', hs'⟩ := receive_frame h (hms m List.mem_cons_self) hs
    rw [List.length_cons, Nat.succ_add, receives, heq, List.map_cons, List.cons_append,
      ← ih h' (fun d hd => hms d (List.mem_cons_of_mem m hd)) hs']

theorem receive_badHeader (h : ch.Ready) {hdr rest : Bytes} {e : Errc}
    (hs : stream ch.arrivals = hdr ++ rest) (hlen : hdr.length = kHeaderSize)
    (hdec : decodeHeader hdr = .error e) : ch.receive.1 = .error e := by
  obtain ⟨left, hhdr, -⟩ := recvExact_delivers h.clean hs hlen
  rw [receive, h.frameTimeout]
  dsimp only
  rw [show decide (0 < 0) = false from rfl, hhdr]
  dsimp only
  rw [hdec]

theorem receive_prefix (h : ch.Ready) {ms : List Message}
    (hms : ∀ m ∈ ms, m.payload.length ≤ kMaxPayload)
    (hs : stream ch.arrivals <+: ms.flatMap Message.wire) :
    (∃ m ms' ch', ms = m :: ms' ∧ ch.receive = (.ok m.frame, ch') ∧ ch'.Ready ∧
      stream ch'.arrivals <+: ms'.flatMap Message.wire) ∨
    ∃ ch', ch.receive = (.error .connectionClosed, ch') ∧ ch'.Ready ∧ stream ch'.arrivals = [] := by
  cases ms with
  | nil =>
    obtain hnil : stream ch.arrivals = [] := List.prefix_nil.1 hs
    exact .inr (receive_short h (by rw [hnil]; decide))
  | cons m ms =>
    rw [List.flatMap_cons] at hs
    have hm := hms m List.mem_cons_self
    rcases List.prefix_or_prefix_of_prefix hs (List.prefix_append _ _) with hcut | ⟨rest, hrest⟩
    · by_cases hall : stream ch.arrivals = m.wire
      · obtain ⟨ch', heq, h', hs'⟩ := receive_frame h hm (hall.trans (List.append_nil _).symm)
        exact .inl ⟨m, ms, ch', rfl, heq, h', by rw [hs']; exact List.nil_prefix⟩
      · exact .inr (receive_cut h hm hcut hall)
    · obtain ⟨ch', heq, h', hs'⟩ := receive_frame h hm hrest.symm
      rw [← hrest, List.prefix_append_right_inj] at hs
      exact .inl ⟨m, ms, ch', rfl, heq, h', by rw [hs']; exact hs⟩

/-- **From a stream that is cut off anywhere the first frames are received**, and no others. -/
theorem receives_prefix (h : ch.Ready) {ms : List Message}
    (hms : ∀ m ∈ ms, m.payload.length ≤ kMaxPayload)
    (hs : stream ch.arrivals <+: ms.flatMap Message.wire) (n : ℕ) :
    (receives n ch).1.filterMap Except.toOption <+: ms.map Message.frame := by
  induction n generalizing ch ms with
  | zero => exact List.nil_prefix
  | succ n ih =>
    rw [receives]
    dsimp only
    obtain ⟨m, ms', ch', rfl, heq, h', hs'⟩ | ⟨ch', heq, h', hs'⟩ := receive_prefix h hms hs
    · rw [heq]
      exact (List.prefix_cons_inj _).2 (ih h' (fun d hd => hms d (List.mem_cons_of_mem m hd)) hs')
    · rw [heq]
      exact ih h' hms (by rw [hs']; exact List.nil_prefix)

/-- **The frame stream delimits itself.**  What is sent by calls that fit is received frame by frame
in order, however the stream is cut; and on any stream a frame that is returned was a header and a
payload within the limit at its front. -/
theorem receives_sent (tx rx : FrameChannel) (calls : List SendCall) (htx : tx.Sound)
    (hfits : ∀ c ∈ calls, c.Fits) (hrx : rx.Ready)
    (hs : (tx.sendCalls calls).put = tx.put ++ stream rx.arrivals) :
    (∀ (ch : FrameChannel) m, ch.layOut m = writeFrame [] m) ∧
    (∀ n, (receives ((calls.flatMap SendCall.messages).length + n) rx).1 =
      (calls.flatMap SendCall.messages).map (fun m => .ok m.frame) ++
        List.replicate n (.error .connectionClosed)) ∧
    ∀ (ch ch' : FrameChannel) f, ch.receive = (.ok f, ch') →
      ∃ hdr, hdr.length = kHeaderSize ∧ f.payload.length ≤ kMaxPayload ∧
        stream ch.arrivals = hdr ++ f.payload ++ stream ch'.arrivals := by
  refine ⟨fun ch m => ?_, fun n => ?_, fun ch ch' f hf => ?_⟩
  · rw [layOut_eq, writeFrame_eq, List.nil_append]
  · have hput := put_sendCalls htx hfits
    rw [hs] at hput
    refine receives_frames hrx (fun m hm => ?_) (List.append_cancel_left hput) n
    obtain ⟨c, hc, hmc⟩ := List.mem_flatMap.1 hm
    exact (hfits c hc).payload_le hmc
  · obtain ⟨hdr, hlen, -, -, hmax, -, hstream⟩ := receive_spec hf
    exact ⟨hdr, hlen, hmax, hstream⟩

/-- Two frames, laid out in the two ways, arrive in three pieces that are cut within the header of
the first and within the payload of the second. -/
theorem receives_sent_cut :
    let ping : Message := { type := 9, requestId := 1, payload := [] }
    let read : Message := { type := 6, requestId := 2, payload := bytes "abc" }
    let s := ping.wire ++ read.wire
    let rx : FrameChannel :=
      { arrivals := [.data (s.take 10), .data ((s.drop 10).take 40), .deadline, .data (s.drop 50)] }
    (receives 3 rx).1 = [.ok ping.frame, .ok read.frame, .error .connectionClosed] := by
  intro ping read s rx
  refine (receives_sent {} rx [.send ping, .sendRaw [read]] nofun ?_ ⟨?_, le_rfl, rfl⟩ ?_).2.1 1
  · intro c hc
    rcases List.mem_cons.1 hc with rfl | hc
    · exact (show (24 : ℕ) ≤ 24 + 64 * 2 ^ 20 by decide)
    · rw [List.mem_singleton.1 hc]
      exact (show (27 : ℕ) ≤ 24 + 64 * 2 ^ 20 by decide)
  · intro reset hr
    simp [rx] at hr
  · decide

end FrameChannel

end WslDrive
