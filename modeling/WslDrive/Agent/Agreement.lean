import WslDrive.Agent.Directory
import WslDrive.Agent.Flush
import WslDrive.Lib.Exec

/-!
# One agent and one client over the files of a directory

The agent's disk, its watcher and coalescer, the flusher and the handler of mutations, a channel
that keeps the order, and the client with its two threads, as one transition system.  Everything
that the source does without holding a lock in between is a step of its own: the flusher takes the
events, assigns the generation, resolves the paths one by one and sends the frames; the handler
changes the disk, loads the generation and sends the reply; the client receives messages in their
order and handles a reply some time after it was received.

* `disagreement` — a run that ends in a quiet state in which the mirror lacks a file of the disk;
* `Orderly` — the steps for which this does not happen.
-/

namespace WslDrive

open MetadataTree Path

namespace Agreement

/-! ### The disk -/

/-- The files of the directory on the agent's disk. -/
abbrev Disk := Bytes → Option Attributes

/-- A change of the disk. -/
inductive Change where
  | create (n : Bytes) (attr : Attributes)
  | write (n : Bytes) (attr : Attributes)
  | remove (n : Bytes)
  | rename (src dst : Bytes)

namespace Change

/-- The change is possible. -/
def allowed (disk : Disk) : Change → Bool
  | .create n attr => (disk n).isNone && validName n && attr.kind == .file
  | .write n attr => (disk n).isSome && attr.kind == .file
  | .remove n => (disk n).isSome
  | .rename src dst => (disk src).isSome && validName dst

/-- The disk after a change. -/
def apply (disk : Disk) : Change → Disk
  | .create n attr | .write n attr => Function.update disk n (some attr)
  | .remove n => Function.update disk n none
  | .rename src dst =>
    if src = dst then disk else Function.update (Function.update disk dst (disk src)) src none

/-- The names whose entry changes.  A rename of a file to itself does nothing. -/
def names : Change → List Bytes
  | .create n _ | .write n _ | .remove n => [n]
  | .rename src dst => if src = dst then [] else [src, dst]

/-- What the watcher reports. -/
def events (d : Directory) (cookie : UInt32) : Change → List FsEvent
  | .create n _ => [{ kind := .created, path := d.path n }]
  | .write n _ => [{ kind := .modified, path := d.path n }]
  | .remove n => [{ kind := .removed, path := d.path n }]
  | .rename src dst =>
    if src = dst then []
    else [{ kind := .renamedFrom, path := d.path src, cookie },
      { kind := .renamedTo, path := d.path dst, cookie }]

end Change

/-! ### Requests and replies -/

/-- A request of the client, about files of the directory. -/
inductive Request where
  | create (n : Bytes)
  | write (n : Bytes) (offset written : UInt64)
  | truncate (n : Bytes) (size : UInt64)
  | unlink (n : Bytes)
  | rename (src dst : Bytes)
  deriving DecidableEq

namespace Request

/-- What `handle_mutation` does to the disk; `attr` is what a written file has afterwards. -/
def change (disk : Disk) (attr : Attributes) : Request → Change
  | .create n | .write n _ _ => if (disk n).isNone then .create n attr else .write n attr
  | .truncate n _ => .write n attr
  | .unlink n => .remove n
  | .rename src dst => .rename src dst

/-- Which files are there after the request, of those it changes. -/
def outcome : Request → List (Bytes × Bool)
  | .create n | .write n _ _ | .truncate n _ => [(n, true)]
  | .unlink n => [(n, false)]
  | .rename src dst => if src = dst then [] else [(src, false), (dst, true)]

/-- The file that the client must have in its mirror for its own update to take effect. -/
def needs : Request → Option Bytes
  | .truncate n _ => some n
  | .rename src dst => if src = dst then none else some src
  | _ => none

end Request

/-- A successful reply. -/
structure Reply where
  request : Request
  /-- The attributes in the reply to `create`. -/
  attr : Attributes := {}
  generation : UInt64

/-- What the client does about a reply. -/
def Reply.mutation (d : Directory) (now : Int64) (r : Reply) : RemoteRoot.Mutation :=
  match r.request with
  | .create n => .createFile (d.path n) r.attr r.generation
  | .write n offset written => .write now (d.path n) offset written r.generation
  | .truncate n size => .truncate now (d.path n) size r.generation
  | .unlink n => .unlink (d.path n) r.generation
  | .rename src dst => .rename (d.path src) (d.path dst) r.generation

/-! ### The system -/

/-- Where the flusher is. -/
inductive Flusher where
  | idle
  | taken (planned : List PlannedOp)
  | resolving (generation : UInt64) (todo : List PlannedOp) (ops : List InvalidationOp)
  | sending (generation : UInt64) (ops : List InvalidationOp)

/-- Where the handler of mutations is. -/
inductive Handler where
  | idle
  | changed (request : Request)
  | loaded (reply : Reply)

/-- What the agent sends: batches and replies share one channel. -/
inductive Message where
  | batch (b : InvalidationBatch)
  | reply (r : Reply)

/-- The agent, its channel and the client. -/
structure System where
  disk : Disk
  /-- Events that the watcher has not delivered yet. -/
  watch : List FsEvent := []
  coalescer : Coalescer := {}
  generation : UInt64 := 1
  flusher : Flusher := .idle
  handler : Handler := .idle
  channel : List Message := []
  client : RemoteRoot
  /-- Replies that the client has received and not handled yet. -/
  replies : List Reply := []

/-- The steps. -/
inductive Action where
  /-- Some other process changes the disk. -/
  | external (change : Change) (cookie : UInt32)
  /-- The watcher delivers an event. -/
  | watch (now : ℤ)
  | take
  | assign
  | resolve
  | finish
  | send
  | done
  /-- The handler changes the disk for a request. -/
  | request (request : Request) (attr : Attributes) (cookie : UInt32)
  | load
  | reply
  /-- The client receives a message. -/
  | receive
  /-- The client handles one of the replies it has received. -/
  | process (i : ℕ) (now : Int64)

/-- `read_attributes` of a path. -/
def Disk.stat (d : Directory) (disk : Disk) (path : Bytes) : Option Attributes :=
  if (splitParent path).1 = [slash].intercalate d.names then disk (splitParent path).2 else none

variable (d : Directory) (opts : RootServer.Options)

/-- One step, if it is possible.  No file is a directory, so a flush has nothing to expand. -/
def System.next (s : System) : Action → Option System
  | .external change cookie =>
    if change.allowed s.disk then
      some { s with disk := change.apply s.disk, watch := s.watch ++ change.events d cookie }
    else none
  | .watch now =>
    match s.watch with
    | [] => none
    | ev :: rest => some { s with watch := rest, coalescer := s.coalescer.push ev now }
  | .take =>
    match s.flusher with
    | .idle =>
      if s.coalescer.isEmpty then none
      else some { s with flusher := .taken s.coalescer.take.1, coalescer := s.coalescer.take.2 }
    | _ => none
  | .assign =>
    match s.flusher with
    | .taken planned =>
      some { s with generation := s.generation + 1
                    flusher := .resolving (s.generation + 1) planned [] }
    | _ => none
  | .resolve =>
    match s.flusher with
    | .resolving gen (op :: todo) ops =>
      let out := RootServer.resolveOp op (s.disk.stat d op.path)
      some { s with flusher := .resolving gen todo (ops ++ out.toList) }
    | _ => none
  | .finish =>
    match s.flusher with
    | .resolving gen [] ops => some { s with flusher := .sending gen (repairMovePairs ops) }
    | _ => none
  | .send =>
    match s.flusher with
    | .sending gen (op :: ops) =>
      let (chunk, rest) := RootServer.firstChunk opts (op :: ops)
      some { s with channel := s.channel ++ [.batch ⟨gen, chunk⟩], flusher := .sending gen rest }
    | _ => none
  | .done =>
    match s.flusher with
    | .sending _ [] => some { s with flusher := .idle }
    | _ => none
  | .request request attr cookie =>
    match s.handler with
    | .idle =>
      let change := request.change s.disk attr
      if change.allowed s.disk then
        some { s with disk := change.apply s.disk, watch := s.watch ++ change.events d cookie
                      handler := .changed request }
      else none
    | _ => none
  | .load =>
    match s.handler with
    | .changed (.create n) =>
      match s.disk n with
      | none => some { s with handler := .idle }
      | some attr => some { s with handler := .loaded ⟨.create n, attr, s.generation⟩ }
    | .changed request =>
      some { s with handler := .loaded { request, generation := s.generation } }
    | _ => none
  | .reply =>
    match s.handler with
    | .loaded r => some { s with channel := s.channel ++ [.reply r], handler := .idle }
    | _ => none
  | .receive =>
    match s.channel with
    | [] => none
    | .batch b :: rest =>
      some { s with channel := rest, client := (s.client.applyInvalidation b).1 }
    | .reply r :: rest => some { s with channel := rest, replies := s.replies ++ [r] }
  | .process i now =>
    match s.replies[i]? with
    | none => none
    | some r =>
      some { s with client := s.client.process (r.mutation d now), replies := s.replies.eraseIdx i }

/-- No pending event, no message in flight and no unprocessed reply. -/
structure Quiet (s : System) : Prop where
  watch : s.watch = []
  coalescer : s.coalescer.isEmpty = true
  flusher : s.flusher = .idle
  handler : s.handler = .idle
  channel : s.channel = []
  replies : s.replies = []

/-- Nothing is under way, the directory has nothing but files, and the client remembers no
mutation. -/
structure AtRest (s : System) : Prop extends Quiet s where
  disk : ∀ n a, s.disk n = some a → validName n = true ∧ a.kind = .file
  mutations : s.client.localMutations = ∅

/-- Nothing is under way, and the mirror has the files of the disk. -/
structure Initial (s : System) : Prop extends AtRest s where
  mirrors : d.Mirrors s.client
  agrees : ∀ n, (d.files s.client.tree n).isSome = (s.disk n).isSome

/-- The system. -/
def system : TransSys System Action := .ofNext (Initial d) (System.next d opts)

/-! ### A run that ends in disagreement -/

/-- The served root, with the one file `p` on the disk and in the mirror. -/
def oneFile : System where
  disk n := if n = bytes "p" then some {} else none
  client := { tree := (fresh.upsertPath (bytes "p") {}).2 }

theorem initial_oneFile : Initial ⟨[], nofun⟩ oneFile := by
  have hfresh : Directory.Holds ⟨[], nofun⟩ fresh := by
    refine ⟨wf_fresh, rfl, ⟨kImplicitDirectory, by rw [paths_fresh]; rfl, rfl⟩, fun n a ha => ?_⟩
    rw [Directory.files, paths_fresh] at ha
    simp [PathMap.empty] at ha
  have hb : Directory.Becomes ⟨[], nofun⟩ fresh oneFile.client.tree _ :=
    hfresh.upsertPath (n := bytes "p") (by decide)
  have hof : ∀ n, oneFile.disk n = if n = bytes "p" then some {} else none := fun _ => rfl
  have hfiles : ∀ n, Directory.files ⟨[], nofun⟩ oneFile.client.tree n = oneFile.disk n := by
    intro n
    rw [hb.files, hof]
    by_cases hn : n = bytes "p"
    · rw [hn, Function.update_self, if_pos rfl]
    · rw [Function.update_of_ne hn, if_neg hn, Directory.files, paths_fresh]
      rfl
  have hdisk : ∀ n a, oneFile.disk n = some a → validName n = true ∧ a.kind = .file := by
    intro n a ha
    rw [hof] at ha
    split_ifs at ha with hn
    cases ha
    rw [hn]
    exact ⟨by decide, rfl⟩
  refine ⟨⟨⟨rfl, rfl, rfl, rfl, rfl, rfl⟩, hdisk, rfl⟩,
    ⟨hb.holds hfresh fun n a ha => ?_, rfl⟩, fun n => by rw [hfiles]⟩
  rw [← hb.files, hfiles] at ha
  rw [(hdisk n a ha).2]
  decide

/-- **The mirror can lose a file for good.**  The client unlinks `p`; its reply, acknowledged with
generation 1, has been received.  Another process makes `p` again, and the flush of generation 2
brings it into the mirror.  Then the client handles the reply and removes `p`. -/
theorem disagreement :
    ∃ as s, (system ⟨[], nofun⟩ {}).Exec as s ∧ Quiet s ∧ validName (bytes "p") = true ∧
      (s.disk (bytes "p")).isSome = true ∧
      (Directory.files ⟨[], nofun⟩ s.client.tree (bytes "p")).isSome = false := by
  refine ⟨[.request (.unlink (bytes "p")) {} 0, .load, .reply, .receive,
    .external (.create (bytes "p") {}) 0, .watch 0, .watch 0, .take, .assign, .resolve, .finish,
    .send, .done, .receive, .process 0 0], _, TransSys.exec_ofNext initial_oneFile rfl, ?_⟩
  exact ⟨⟨rfl, rfl, rfl, rfl, rfl, rfl⟩, by decide, rfl, rfl⟩

/-! ### The condition on the steps -/

/-- The names that a request changes. -/
def Request.names (r : Request) : List Bytes := r.outcome.map Prod.fst

/-- The reply in a message, if it is one. -/
def Message.reply? : Message → Option Reply
  | .reply r => some r
  | .batch _ => none

/-- The reply that is made and not sent yet. -/
def Handler.reply? : Handler → Option Reply
  | .loaded r => some r
  | _ => none

/-- The request whose change is on the disk and has no reply yet. -/
def Handler.request? : Handler → Option Request
  | .changed request => some request
  | _ => none

/-- The replies whose generation is loaded and which the client has not handled yet, wherever they
are. -/
def System.outstanding (s : System) : List Reply :=
  s.replies ++ s.channel.filterMap Message.reply? ++ s.handler.reply?.toList

/-- The condition.

* No other process changes a file between the handler's change of it and the load of the
  generation.
* No op about a file is applied while a reply about the file, acknowledged with an older
  generation than the op's, has yet to be handled.
* The reply to a rename or a truncation is handled while the mirror has the file.
* The generation does not wrap around. -/
def Orderly (s : System) : Action → Prop
  | .external change _ => ∀ r ∈ s.handler.request?, ∀ n ∈ change.names, n ∉ r.names
  | .receive => ∀ b rest, s.channel = .batch b :: rest → ∀ op ∈ b.ops, ∀ r ∈ s.outstanding,
      ∀ n ∈ r.request.names, op.path = d.path n → b.generation ≤ r.generation
  | .process i _ => ∀ r, s.replies[i]? = some r → ∀ n ∈ r.request.needs,
      (d.files s.client.tree n).isSome = true
  | .assign => s.generation.toNat + 1 < 2 ^ 64
  | _ => True

end Agreement

end WslDrive
