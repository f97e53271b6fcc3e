import Mathlib.Tactic.Common
import WslDrive.Core.Types

/-!
# Stream sockets

The loops around `::send` and `::recv`.  What the kernel answers to the calls is a list that the
loops use up: any answers in any order.

* `Socket.sendAll_spec` — `send_all` puts a prefix of its data on the stream, all of it exactly if
  it succeeds;
* `Socket.recvExact_delivers`, `Socket.recvExact_closed` — `recv_exact` gets the next bytes of the
  stream however it is cut, or reports that it ended;
* `Socket.recvExact_spec` — and on any stream it takes what it returns from the front.
-/

namespace WslDrive

namespace Socket

/-! ### Sending -/

/-- The values of `errno` that `send_all` tells apart. -/
inductive SendErrno where
  /-- `EAGAIN` or `EWOULDBLOCK`: the send timeout has passed. -/
  | again
  /-- `EPIPE` or `ECONNRESET`. -/
  | pipe
  | other
  deriving DecidableEq, Repr

/-- The code that `send_all` reports. -/
def SendErrno.errc : SendErrno → Errc
  | .again => .timeout
  | .pipe => .connectionClosed
  | .other => .ioError

/-- An answer to `::send`. -/
inductive SendAnswer where
  /-- So many bytes were taken, all of them if there are fewer. -/
  | sent (n : ℕ)
  /-- `EINTR`. -/
  | interrupted
  | failed (e : SendErrno)
  deriving DecidableEq, Repr

/-- The loop of `send_all`, with the bytes put on the stream and the answers that are left.  Once
there is no answer left the kernel takes everything at once. -/
def sendAll : List SendAnswer → Bytes → Except Errc Unit × Bytes × List SendAnswer
  | [], data => (.ok (), data, [])
  | answer :: answers, data =>
    if data = [] then (.ok (), [], answer :: answers)
    else
      match answer with
      | .sent n =>
        let (r, put, answers) := sendAll answers (data.drop n)
        (r, data.take n ++ put, answers)
      | .interrupted => sendAll answers data
      | .failed e => (.error e.errc, [], answers)

/-- **`send_all` puts a prefix of its data on the stream**: all of it if it succeeds, not all of it
if it fails. -/
theorem sendAll_spec (answers : List SendAnswer) (data : Bytes) :
    ∃ rest, (sendAll answers data).2.1 ++ rest = data ∧
      ((sendAll answers data).1 = .ok () ↔ rest = []) := by
  induction answers generalizing data with
  | nil => exact ⟨[], by simp [sendAll]⟩
  | cons answer answers ih =>
    by_cases hdata : data = []
    · exact ⟨[], by cases answer <;> simp [sendAll, hdata]⟩
    cases answer with
    | sent n =>
      obtain ⟨rest, hput, hok⟩ := ih (data.drop n)
      rw [sendAll, if_neg hdata]
      refine ⟨rest, ?_, hok⟩
      dsimp only
      rw [List.append_assoc, hput, List.take_append_drop]
    | interrupted =>
      rw [sendAll, if_neg hdata]
      exact ih data
    | failed e =>
      rw [sendAll, if_neg hdata]
      exact ⟨data, rfl, by simp [hdata]⟩

theorem sendAll_ok {answers : List SendAnswer} (h : ∀ e, SendAnswer.failed e ∉ answers)
    (data : Bytes) : ∃ left, sendAll answers data = (.ok (), data, left) ∧ left <:+ answers := by
  induction answers generalizing data with
  | nil => exact ⟨[], rfl, List.suffix_refl []⟩
  | cons answer answers ih =>
    have h' : ∀ e, SendAnswer.failed e ∉ answers := fun e he => h e (List.mem_cons_of_mem _ he)
    by_cases hdata : data = []
    · exact ⟨_, by cases answer <;> simp [sendAll, hdata], List.suffix_refl _⟩
    cases answer with
    | sent n =>
      obtain ⟨left, heq, hleft⟩ := ih h' (data.drop n)
      refine ⟨left, ?_, hleft.trans (List.suffix_cons _ _)⟩
      rw [sendAll, if_neg hdata, heq]
      dsimp only
      rw [List.take_append_drop]
    | interrupted =>
      obtain ⟨left, heq, hleft⟩ := ih h' data
      exact ⟨left, by rw [sendAll, if_neg hdata, heq], hleft.trans (List.suffix_cons _ _)⟩
    | failed e => exact absurd List.mem_cons_self (h e)

/-! ### Receiving -/

/-- What happens at the receiving end, in the order of time.  At the end of the list the peer has
closed the connection. -/
inductive Arrival where
  | data (bytes : Bytes)
  /-- The deadline of the call that is waiting passes. -/
  | deadline
  /-- `::recv` fails, with `ECONNRESET` or otherwise. -/
  | failure (reset : Bool)
  deriving DecidableEq, Repr

/-- The bytes of an arrival. -/
def Arrival.payload : Arrival → Bytes
  | .data bytes => bytes
  | .deadline => []
  | .failure _ => []

/-- All bytes that arrive. -/
def stream (arrivals : List Arrival) : Bytes := arrivals.flatMap Arrival.payload

/-- `wait_readable` with the time that is left: whether something arrives before the deadline. -/
def waitReadable : List Arrival → Bool × List Arrival
  | .deadline :: arrivals => (false, arrivals)
  | .data [] :: arrivals => waitReadable arrivals
  | arrivals => (true, arrivals)

/-- `recv_some` into a buffer of `n` bytes, which is not empty. -/
def recvSome (n : ℕ) : List Arrival → Except Errc Bytes × List Arrival
  | [] => (.error .connectionClosed, [])
  | .failure reset :: arrivals =>
    (.error (if reset then .connectionClosed else .ioError), arrivals)
  | .deadline :: arrivals => recvSome n arrivals
  | .data [] :: arrivals => recvSome n arrivals
  | .data (b :: bs) :: arrivals =>
    let left := (b :: bs).drop n
    (.ok ((b :: bs).take n), if left = [] then arrivals else .data left :: arrivals)

theorem recvSome_length {n : ℕ} (hn : 0 < n) {arrivals left : List Arrival} {got : Bytes}
    (h : recvSome n arrivals = (.ok got, left)) : 0 < got.length ∧ got.length ≤ n := by
  induction arrivals with
  | nil => cases h
  | cons a arrivals ih =>
    cases a with
    | failure reset => cases h
    | deadline => exact ih h
    | data bs =>
      cases bs with
      | nil => exact ih h
      | cons b bs =>
        obtain ⟨hgot, -⟩ := Prod.mk.inj h
        cases hgot
        rw [List.length_take, List.length_cons]
        omega

theorem recvSome_stream {n : ℕ} {arrivals left : List Arrival} {got : Bytes}
    (h : recvSome n arrivals = (.ok got, left)) : stream arrivals = got ++ stream left := by
  induction arrivals with
  | nil => cases h
  | cons a arrivals ih =>
    cases a with
    | failure reset => cases h
    | deadline => exact ih h
    | data bs =>
      cases bs with
      | nil => exact ih h
      | cons b bs =>
        obtain ⟨hgot, hleft⟩ := Prod.mk.inj h
        cases hgot
        rw [← hleft, stream, List.flatMap_cons, Arrival.payload]
        split_ifs with hnil
        · rw [List.take_of_length_le (List.drop_eq_nil_iff.1 hnil), stream]
        · rw [stream, List.flatMap_cons, Arrival.payload, ← List.append_assoc,
            List.take_append_drop]

theorem waitReadable_stream (arrivals : List Arrival) :
    stream (waitReadable arrivals).2 = stream arrivals := by
  fun_induction waitReadable arrivals with
  | case1 arrivals => rfl
  | case2 arrivals ih => exact ih
  | case3 arrivals => rfl

/-- The body of the loop of `recv_exact`, with the deadline of the caller or without one. -/
def recvOnce (bounded : Bool) (n : ℕ) (arrivals : List Arrival) :
    Except Errc Bytes × List Arrival :=
  if bounded then
    match waitReadable arrivals with
    | (false, arrivals) => (.error .timeout, arrivals)
    | (true, arrivals) => recvSome n arrivals
  else recvSome n arrivals

theorem recvOnce_ok {bounded : Bool} {n : ℕ} {arrivals left : List Arrival} {got : Bytes}
    (h : recvOnce bounded n arrivals = (.ok got, left)) :
    ∃ waited, stream waited = stream arrivals ∧ recvSome n waited = (.ok got, left) := by
  rw [recvOnce] at h
  split_ifs at h
  · have hstream := waitReadable_stream arrivals
    cases hwait : waitReadable arrivals with
    | mk ready waited =>
      rw [hwait] at h hstream
      cases ready with
      | false => cases h
      | true => exact ⟨waited, hstream, h⟩
  · exact ⟨arrivals, rfl, h⟩

/-- `recv_exact` into a buffer of `n` bytes. -/
def recvExact (bounded : Bool) (n : ℕ) (arrivals : List Arrival) :
    Except Errc Bytes × List Arrival :=
  if hn : n = 0 then (.ok [], arrivals)
  else
    match hrecv : recvOnce bounded n arrivals with
    | (.error e, arrivals) => (.error e, arrivals)
    | (.ok got, arrivals) =>
      have hgot : 0 < got.length := by
        obtain ⟨waited, -, h⟩ := recvOnce_ok hrecv
        exact (recvSome_length (Nat.pos_of_ne_zero hn) h).1
      match recvExact bounded (n - got.length) arrivals with
      | (.error e, arrivals) => (.error e, arrivals)
      | (.ok more, arrivals) => (.ok (got ++ more), arrivals)
termination_by n

/-- **What `recv_exact` returns is taken from the front of the stream**, so many bytes as asked
for. -/
theorem recvExact_spec {bounded : Bool} {n : ℕ} {arrivals left : List Arrival} {got : Bytes}
    (h : recvExact bounded n arrivals = (.ok got, left)) :
    got.length = n ∧ stream arrivals = got ++ stream left := by
  fun_induction recvExact bounded n arrivals generalizing got left with
  | case1 arrivals =>
    cases h
    exact ⟨rfl, rfl⟩
  | case2 n arrivals hn e arrivals' hrecv => cases h
  | case3 n arrivals hn got₁ arrivals₁ hrecv hgot e arrivals₂ heq ih => cases h
  | case4 n arrivals hn got₁ arrivals₁ hrecv hgot more arrivals₂ heq ih =>
    cases h
    obtain ⟨hlen, hstream⟩ := ih heq
    obtain ⟨waited, hwaited, hsome⟩ := recvOnce_ok hrecv
    have hle := (recvSome_length (Nat.pos_of_ne_zero hn) hsome).2
    rw [List.length_append, hlen, ← hwaited, recvSome_stream hsome, hstream, List.append_assoc]
    exact ⟨by omega, rfl⟩

/-- No failure is among the arrivals. -/
def Clean (arrivals : List Arrival) : Prop := ∀ reset, Arrival.failure reset ∉ arrivals

theorem recvSome_clean (n : ℕ) {arrivals : List Arrival} (h : Clean arrivals) :
    (stream arrivals = [] ∧ recvSome n arrivals = (.error .connectionClosed, [])) ∨
    ∃ got left, recvSome n arrivals = (.ok got, left) ∧ Clean left := by
  induction arrivals with
  | nil => exact .inl ⟨rfl, rfl⟩
  | cons a arrivals ih =>
    have h' : Clean arrivals := fun reset hr => h reset (List.mem_cons_of_mem _ hr)
    cases a with
    | failure reset => exact absurd List.mem_cons_self (h reset)
    | deadline => exact ih h'
    | data bs =>
      cases bs with
      | nil => exact ih h'
      | cons b bs =>
        refine .inr ⟨_, _, rfl, fun reset hr => ?_⟩
        split_ifs at hr with hleft
        · exact h' reset hr
        · exact h' reset ((List.mem_cons.1 hr).resolve_left nofun)

theorem recvOnce_clean {n : ℕ} (hn : n ≠ 0) {arrivals : List Arrival} (h : Clean arrivals)
    {r : Except Errc Bytes} {left : List Arrival} (heq : recvOnce false n arrivals = (r, left)) :
    Clean left ∧ ((r = .error .connectionClosed ∧ stream arrivals = [] ∧ left = []) ∨
      ∃ got, r = .ok got ∧ got.length ≤ n ∧ stream arrivals = got ++ stream left) := by
  change recvSome n arrivals = (r, left) at heq
  obtain ⟨hnil, hsome⟩ | ⟨got, left', hsome, hclean⟩ := recvSome_clean n h
  · rw [heq] at hsome
    cases hsome
    exact ⟨nofun, .inl ⟨rfl, hnil, rfl⟩⟩
  · rw [heq] at hsome
    cases hsome
    exact ⟨hclean, .inr ⟨got, rfl, (recvSome_length (Nat.pos_of_ne_zero hn) heq).2,
      recvSome_stream heq⟩⟩

/-- Without failures and a deadline `recv_exact` succeeds exactly if there are enough bytes. -/
theorem recvExact_clean {n : ℕ} {arrivals : List Arrival} (h : Clean arrivals) :
    Clean (recvExact false n arrivals).2 ∧
      (n ≤ (stream arrivals).length → ∃ got, (recvExact false n arrivals).1 = .ok got) ∧
      ((stream arrivals).length < n → (recvExact false n arrivals).1 = .error .connectionClosed ∧
        stream (recvExact false n arrivals).2 = []) := by
  generalize hb : false = bounded
  fun_induction recvExact bounded n arrivals with
  | case1 arrivals => exact ⟨h, fun _ => ⟨[], rfl⟩, fun hlt => absurd hlt (Nat.not_lt_zero _)⟩
  | case2 n arrivals hn e left hrecv =>
    subst hb
    obtain ⟨hclean, ⟨he, hnil, rfl⟩ | ⟨got, hgot, -⟩⟩ := recvOnce_clean hn h hrecv
    · cases he
      refine ⟨hclean, fun hle => ?_, fun _ => ⟨rfl, rfl⟩⟩
      rw [hnil] at hle
      exact absurd (Nat.le_zero.1 hle) hn
    · cases hgot
  | case3 n arrivals hn got left hrecv hpos e left' heq ih =>
    subst hb
    obtain ⟨hclean, ⟨he, -⟩ | ⟨got', hgot, hle, hstream⟩⟩ := recvOnce_clean hn h hrecv
    · cases he
    · cases hgot
      rw [hstream, List.length_append]
      have := ih hclean
      rw [heq] at this
      exact ⟨this.1, fun hn => this.2.1 (by omega), fun hlt => this.2.2 (by omega)⟩
  | case4 n arrivals hn got left hrecv hpos more left' heq ih =>
    subst hb
    obtain ⟨hclean, ⟨he, -⟩ | ⟨got', hgot, hle, hstream⟩⟩ := recvOnce_clean hn h hrecv
    · cases he
    · cases hgot
      rw [hstream, List.length_append]
      have := ih hclean
      rw [heq] at this
      exact ⟨this.1, fun _ => ⟨_, rfl⟩, fun hlt => nomatch (this.2.2 (by omega)).1⟩

/-- **`recv_exact` gets the next bytes however the stream is cut.** -/
theorem recvExact_delivers {n : ℕ} {arrivals : List Arrival} {s rest : Bytes}
    (h : Clean arrivals) (hs : stream arrivals = s ++ rest) (hn : s.length = n) :
    ∃ left, recvExact false n arrivals = (.ok s, left) ∧ Clean left ∧ stream left = rest := by
  obtain ⟨hclean, hok, -⟩ := recvExact_clean (n := n) h
  obtain ⟨got, hgot⟩ := hok (by rw [hs, List.length_append]; omega)
  have heq : recvExact false n arrivals = (.ok got, (recvExact false n arrivals).2) :=
    Prod.ext hgot rfl
  obtain ⟨hlen, hstream⟩ := recvExact_spec heq
  obtain ⟨rfl, hrest⟩ := List.append_inj (hs.symm.trans hstream) (hn.trans hlen.symm)
  exact ⟨_, heq, hclean, hrest.symm⟩

/-- **A stream that ends too early is reported as closed.** -/
theorem recvExact_closed {n : ℕ} {arrivals : List Arrival} (h : Clean arrivals)
    (hlt : (stream arrivals).length < n) :
    ∃ left, recvExact false n arrivals = (.error .connectionClosed, left) ∧ Clean left ∧
      stream left = [] := by
  obtain ⟨hclean, -, hclosed⟩ := recvExact_clean (n := n) h
  exact ⟨_, Prod.ext (hclosed hlt).1 rfl, hclean, (hclosed hlt).2⟩

end Socket

end WslDrive
