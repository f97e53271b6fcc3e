import WslDrive.Mount.FusePath
import WslDrive.Mount.Notify
import WslDrive.Mount.WriteBack

/-!
# The bridge's own requests

To make the kernel raise an event, the poke thread of `FsNotifyBridge` performs the operation on
the mount itself.  The request comes back to the handlers of the mount, which recognise it by its
caller, its kind and its paths, and answer it without the agent.  A handler reads and retires the
record of the poke in one critical section, so a request is one step here; between steps the
mirror may change in any way.

* `handle_eq` — every mutation is claimed, refused or forwarded;
* `handle_of_not_self` — for other callers the bridge is not there;
* `outstanding_exec` — the record in place is the last one set, neither claimed nor cleared;
* `pokes_exact` — pokes swallow no operation and let none of their own through.
-/

namespace WslDrive

open Path

/-! ### The record of the poke -/

namespace FsNotifyBridge

/-- `Poke`. -/
inductive Poke where
  | none
  | mknod
  | mkdir
  | unlink
  | rmdir
  | rename
  deriving DecidableEq, Repr

/-- `Pretend`. -/
inductive Pretend where
  | nothing
  /-- The mirror has the new path already; it is hidden. -/
  | absent
  /-- The mirror has dropped the old path already; it is shown. -/
  | present
  deriving DecidableEq, Repr

/-- `Active`: the poke in flight. -/
structure Active where
  what : Poke := .none
  path : Bytes := []
  path2 : Bytes := []
  pretendPath : Pretend := .nothing
  kind : NodeKind := .file
  deriving DecidableEq, Repr

/-- What the handlers see of the bridge: the ids of its thread and process, and the poke in
flight. -/
structure Pokes where
  pokeTid : ℤ
  selfPid : ℤ
  active : Active := {}
  deriving DecidableEq, Repr

namespace Pokes

variable (b : Pokes)

/-- `is_self`. -/
def isSelf (caller : ℤ) : Bool := caller != 0 && (caller == b.pokeTid || caller == b.selfPid)

/-- `set_active`. -/
def setActive (a : Active) : Pokes := { b with active := a }

/-- `clear_active`. -/
def clearActive : Pokes := { b with active := {} }

/-- `pretend`; `kind` is set when something is pretended. -/
def pretend (caller : ℤ) (rel : Bytes) (kind : NodeKind) : Pretend × NodeKind :=
  if !b.isSelf caller then (.nothing, kind)
  else if b.active.pretendPath = .nothing ∨ b.active.path ≠ rel then (.nothing, kind)
  else (b.active.pretendPath, b.active.kind)

/-- `is_poke_thread`. -/
def isPokeThread (caller : ℤ) : Bool := b.isSelf caller

/-- `claim`: the record is retired if it is the one. -/
def claim (caller : ℤ) (what : Poke) (rel rel2 : Bytes) : Bool × Pokes :=
  if !b.isSelf caller then (false, b)
  else if b.active.what ≠ what ∨ b.active.path ≠ rel ∨ b.active.path2 ≠ rel2 then (false, b)
  else (true, { b with active := {} })

end Pokes

end FsNotifyBridge

namespace Mount

open FsNotifyBridge

/-! ### The handlers -/

/-- The error numbers the handlers return. -/
inductive Errno where
  | enoent
  | eexist
  | enotdir
  | eisdir
  | einval
  | etimedout
  | eio
  | eperm
  deriving DecidableEq, Repr

/-- `err_to_errno`. -/
def errToErrno : Errc → Errno
  | .notFound => .enoent
  | .alreadyExists => .eexist
  | .notADirectory => .enotdir
  | .isADirectory => .eisdir
  | .invalidPath | .invalidArgument => .einval
  | .timeout => .etimedout
  | _ => .eio

/-- What `fill_stat` and `fill_ghost_stat` set; access and change time are the modification
time. -/
structure Stat where
  uid : UInt32
  gid : UInt32
  mode : UInt32
  nlink : ℕ
  size : UInt64 := 0
  mtimeSec : Int64 := 0
  mtimeNsec : Int64 := 0
  deriving DecidableEq, Repr

/-- `S_IFMT`. -/
def sIFMT : UInt32 := 0o170000

/-- `S_IFDIR`. -/
def sIFDIR : UInt32 := 0o040000

/-- `S_IFREG`. -/
def sIFREG : UInt32 := 0o100000

/-- `S_IFLNK`. -/
def sIFLNK : UInt32 := 0o120000

/-- A mutation that a handler passes on to the agent. -/
inductive RootCall where
  | createFile (path : Bytes) (mode : UInt32)
  | mkdir (path : Bytes) (mode : UInt32)
  | unlink (path : Bytes)
  | rmdir (path : Bytes)
  | rename (src dst : Bytes)
  deriving DecidableEq, Repr

/-- The reply of the agent to a mutation: the attributes of a file it created, and the generation
it acknowledges. -/
abbrev Reply := Except Errc (Attributes × UInt64)

/-- What a mutation does to the mirror once the agent has acknowledged it. -/
def RootCall.mutation (r : Attributes × UInt64) : RootCall → RemoteRoot.Mutation
  | .createFile path _ => .createFile path r.1 r.2
  | .mkdir path mode => .mkdir path mode r.2
  | .unlink path => .unlink path r.2
  | .rmdir path => .rmdir path r.2
  | .rename src dst => .rename src dst r.2

/-- `Context`, as far as these handlers use it, with the user and group of the mount. -/
structure Context where
  root : RemoteRoot
  writeback : Bool
  notify : Option Pokes
  windows : Bool := false
  uid : UInt32 := 0
  gid : UInt32 := 0

/-- What a handler answers: an error or 0, the handle of a file it opened, the attributes it
filled in, and what it has passed on to the agent. -/
structure Answer where
  errno : Option Errno := none
  fh : Option WriteHandle := none
  stat : Option Stat := none
  forwarded : Option RootCall := none

/-- `PokeVerdict`. -/
inductive PokeVerdict where
  | notOurs
  | claimed
  | refuse
  deriving DecidableEq, Repr

namespace Context

variable (ctx : Context) (caller : ℤ) (reply : Reply)

/-- `fill_stat`. -/
def fillStat (n : MetadataTree.Node) : Stat :=
  let sec := n.attr.mtimeNs / 1000000000
  let nsec := n.attr.mtimeNs % 1000000000
  match n.attr.kind with
  | .directory =>
    { uid := ctx.uid, gid := ctx.gid, mode := sIFDIR ||| 0o755, nlink := 2, mtimeSec := sec,
      mtimeNsec := nsec }
  | .symlink =>
    { uid := ctx.uid, gid := ctx.gid, mode := sIFLNK ||| 0o777, nlink := 1, size := n.attr.size,
      mtimeSec := sec, mtimeNsec := nsec }
  | _ =>
    { uid := ctx.uid, gid := ctx.gid, mode := sIFREG ||| 0o644, nlink := 1, size := n.attr.size,
      mtimeSec := sec, mtimeNsec := nsec }

/-- `fill_ghost_stat`: the attributes that an entry has for a poke. -/
def fillGhostStat (kind : NodeKind) : Stat where
  uid := ctx.uid
  gid := ctx.gid
  mode := if kind = .directory then sIFDIR ||| 0o755 else sIFREG ||| 0o644
  nlink := if kind = .directory then 2 else 1

/-- `claim_poke`. -/
def claimPoke (what : Poke) (rel : Bytes) (rel2 : Bytes := []) : PokeVerdict × Context :=
  match ctx.notify with
  | none => (.notOurs, ctx)
  | some b =>
    match b.claim caller what rel rel2 with
    | (true, b) => (.claimed, { ctx with notify := some b })
    | (false, b) =>
      (if b.isPokeThread caller then .refuse else .notOurs, { ctx with notify := some b })

/-- A mutation is passed on, and the mirror follows if the agent has made it. -/
def forward (call : RootCall) (fh : Option WriteHandle := none) : Answer × Context :=
  match reply with
  | .error e => ({ errno := some (errToErrno e), forwarded := some call }, ctx)
  | .ok r =>
    ({ fh, forwarded := some call }, { ctx with root := ctx.root.process (call.mutation r) })

/-- The switch the handlers of mutations start with. -/
def unlessPoke (what : Poke) (rel rel2 : Bytes) (body : Context → Answer × Context) :
    Answer × Context :=
  match ctx.claimPoke caller what rel rel2 with
  | (.claimed, ctx) => ({}, ctx)
  | (.refuse, ctx) => ({ errno := some .eio }, ctx)
  | (.notOurs, ctx) => body ctx

/-- `op_create`; `fi` is whether there is a place for a handle. -/
def opCreate (path : Option Bytes) (mode : UInt32) (fi : Bool) : Answer × Context :=
  let rel := toRel ctx.windows path
  ctx.unlessPoke caller .mknod rel [] fun ctx =>
    ctx.forward reply (.createFile rel (mode &&& 0o777))
      (if ctx.writeback && fi then some { path := rel } else none)

/-- `op_mknod`. -/
def opMknod (path : Option Bytes) (mode : UInt32) : Answer × Context :=
  let rel := toRel ctx.windows path
  ctx.unlessPoke caller .mknod rel [] fun ctx =>
    -- Devices do not cross the boundary.
    if mode &&& sIFMT ≠ 0 ∧ mode &&& sIFMT ≠ sIFREG then ({ errno := some .eperm }, ctx)
    else ctx.forward reply (.createFile rel (mode &&& 0o777))

/-- `op_mkdir`. -/
def opMkdir (path : Option Bytes) (mode : UInt32) : Answer × Context :=
  let rel := toRel ctx.windows path
  ctx.unlessPoke caller .mkdir rel [] fun ctx => ctx.forward reply (.mkdir rel (mode &&& 0o777))

/-- `op_unlink`. -/
def opUnlink (path : Option Bytes) : Answer × Context :=
  let rel := toRel ctx.windows path
  ctx.unlessPoke caller .unlink rel [] fun ctx => ctx.forward reply (.unlink rel)

/-- `op_rmdir`. -/
def opRmdir (path : Option Bytes) : Answer × Context :=
  let rel := toRel ctx.windows path
  ctx.unlessPoke caller .rmdir rel [] fun ctx => ctx.forward reply (.rmdir rel)

/-- `op_rename`. -/
def opRename (src dst : Option Bytes) : Answer × Context :=
  let rfrom := toRel ctx.windows src
  let rto := toRel ctx.windows dst
  ctx.unlessPoke caller .rename rfrom rto fun ctx => ctx.forward reply (.rename rfrom rto)

/-- What the mirror says about a path. -/
def statOf (rel : Bytes) : Answer :=
  match ctx.root.tree.lookup rel .caseInsensitive with
  | none => { errno := some .enoent }
  | some id => { stat := some (ctx.fillStat (ctx.root.tree.nodes id)) }

/-- `op_getattr`. -/
def opGetattr (path : Option Bytes) : Answer × Context :=
  let rel := toRel ctx.windows path
  match ctx.notify with
  | none => (ctx.statOf rel, ctx)
  | some b =>
    match b.pretend caller rel .file with
    | (.absent, _) => ({ errno := some .enoent }, ctx)
    | (.present, kind) => ({ stat := some (ctx.fillGhostStat kind) }, ctx)
    | (.nothing, _) => (ctx.statOf rel, ctx)

end Context

/-- A request of the kernel. -/
inductive Request where
  | create (path : Option Bytes) (mode : UInt32) (fi : Bool)
  | mknod (path : Option Bytes) (mode : UInt32)
  | mkdir (path : Option Bytes) (mode : UInt32)
  | unlink (path : Option Bytes)
  | rmdir (path : Option Bytes)
  | rename (src dst : Option Bytes)
  | getattr (path : Option Bytes)

namespace Context

variable (ctx : Context)

/-- The dispatch of a request to its operation. -/
def handle (caller : ℤ) (reply : Reply) : Request → Answer × Context
  | .create path mode fi => ctx.opCreate caller reply path mode fi
  | .mknod path mode => ctx.opMknod caller reply path mode
  | .mkdir path mode => ctx.opMkdir caller reply path mode
  | .unlink path => ctx.opUnlink caller reply path
  | .rmdir path => ctx.opRmdir caller reply path
  | .rename src dst => ctx.opRename caller reply src dst
  | .getattr path => ctx.opGetattr caller path

end Context

/-- The poke that a request would be, and its paths; `create` serves the pokes of `mknod`. -/
def Request.poke (windows : Bool) : Request → Option (Poke × Bytes × Bytes)
  | .create path _ _ | .mknod path _ => some (.mknod, toRel windows path, [])
  | .mkdir path _ => some (.mkdir, toRel windows path, [])
  | .unlink path => some (.unlink, toRel windows path, [])
  | .rmdir path => some (.rmdir, toRel windows path, [])
  | .rename src dst => some (.rename, toRel windows src, toRel windows dst)
  | .getattr _ => none

/-- A request that changes something. -/
def Request.isMutation : Request → Bool
  | .getattr _ => false
  | _ => true

/-- A step of the poke thread, of another thread that changes the mirror, or a request of any
caller, with the reply of the agent in case it is asked. -/
inductive Step where
  | setActive (a : Active)
  | clearActive
  | mirror (root : RemoteRoot)
  | request (caller : ℤ) (reply : Reply) (req : Request)

namespace Context

variable (ctx : Context)

/-- One step. -/
def apply : Step → Context
  | .setActive a => { ctx with notify := ctx.notify.map (·.setActive a) }
  | .clearActive => { ctx with notify := ctx.notify.map (·.clearActive) }
  | .mirror root => { ctx with root }
  | .request caller reply req => (ctx.handle caller reply req).2

/-- A run. -/
def exec (steps : List Step) : Context := steps.foldl apply ctx

end Context

/-- A mutation is answered with success, and the agent knows nothing of it. -/
def Step.isLocal (ctx : Context) : Step → Bool
  | .request caller reply req =>
    let a := (ctx.handle caller reply req).1
    req.isMutation && a.errno.isNone && a.forwarded.isNone
  | _ => false

/-- The step announces a poke. -/
def Step.isSetActive : Step → Bool
  | .setActive _ => true
  | _ => false

/-- The step takes the announcement back. -/
def Step.isClearActive : Step → Bool
  | .clearActive => true
  | _ => false

/-- How many mutations are answered with success without the agent. -/
def localCount (ctx : Context) : List Step → ℕ
  | [] => 0
  | s :: steps => (if s.isLocal ctx then 1 else 0) + localCount (ctx.apply s) steps

/-! ### What a request does -/

/-- The part of a handler behind the switch: it does not look at the bridge, and succeeds only
through the agent. -/
structure Passes (body : Context → Answer × Context) : Prop where
  windows : ∀ ctx, (body ctx).2.windows = ctx.windows
  blind : ∀ ctx n, body { ctx with notify := n } =
    ((body ctx).1, { (body ctx).2 with notify := n })
  forwards : ∀ ctx, (body ctx).1.errno = none → (body ctx).1.forwarded ≠ none

variable {ctx : Context} {b : Pokes} {caller : ℤ} {reply : Reply} {req : Request}
  {body : Context → Answer × Context}

theorem Passes.notify (h : Passes body) (ctx : Context) : (body ctx).2.notify = ctx.notify := by
  have := congrArg (fun r => r.2.notify) (h.blind ctx ctx.notify)
  exact this

theorem passes_forward (reply : Reply) (call : RootCall) (fh : Bool → Option WriteHandle) :
    Passes fun ctx => ctx.forward reply call (fh ctx.writeback) := by
  cases reply with
  | error e => exact ⟨fun _ => rfl, fun _ _ => rfl, fun _ h => by cases h⟩
  | ok r => exact ⟨fun _ => rfl, fun _ _ => rfl, fun _ _ h => by cases h⟩

theorem handle_eq (windows : Bool) (reply : Reply) (hreq : req.isMutation = true) :
    ∃ what rel rel2 body, Passes body ∧ req.poke windows = some (what, rel, rel2) ∧
      what ≠ .none ∧ ∀ ctx : Context, ctx.windows = windows → ∀ caller,
        ctx.handle caller reply req = ctx.unlessPoke caller what rel rel2 body := by
  cases req with
  | getattr path => cases hreq
  | create path mode fi =>
    refine ⟨_, _, _, _, passes_forward reply (.createFile (toRel windows path) (mode &&& 0o777))
      fun w => if w && fi then some { path := toRel windows path } else none, rfl, by decide, ?_⟩
    rintro ctx rfl caller
    rfl
  | mknod path mode =>
    refine ⟨_, _, _, fun ctx =>
      if mode &&& sIFMT ≠ 0 ∧ mode &&& sIFMT ≠ sIFREG then ({ errno := some .eperm }, ctx)
      else ctx.forward reply (.createFile (toRel windows path) (mode &&& 0o777)), ?_, rfl,
      by decide, ?_⟩
    · split_ifs
      · exact ⟨fun _ => rfl, fun _ _ => rfl, fun _ h => by cases h⟩
      · exact passes_forward reply _ fun _ => none
    · rintro ctx rfl caller
      rfl
  | mkdir path mode =>
    refine ⟨_, _, _, _, passes_forward reply (.mkdir (toRel windows path) (mode &&& 0o777))
      fun _ => none, rfl, by decide, ?_⟩
    rintro ctx rfl caller
    rfl
  | unlink path =>
    refine ⟨_, _, _, _, passes_forward reply (.unlink (toRel windows path)) fun _ => none, rfl,
      by decide, ?_⟩
    rintro ctx rfl caller
    rfl
  | rmdir path =>
    refine ⟨_, _, _, _, passes_forward reply (.rmdir (toRel windows path)) fun _ => none, rfl,
      by decide, ?_⟩
    rintro ctx rfl caller
    rfl
  | rename src dst =>
    refine ⟨_, _, _, _, passes_forward reply (.rename (toRel windows src) (toRel windows dst))
      fun _ => none, rfl, by decide, ?_⟩
    rintro ctx rfl caller
    rfl

theorem unlessPoke_none (hb : ctx.notify = none) {what : Poke} {rel rel2 : Bytes} :
    ctx.unlessPoke caller what rel rel2 body = body ctx := by
  rw [Context.unlessPoke, Context.claimPoke, hb]

theorem unlessPoke_some (hb : ctx.notify = some b) {what : Poke} {rel rel2 : Bytes} :
    ctx.unlessPoke caller what rel rel2 body =
      if b.isSelf caller = false then body ctx
      else if b.active.what = what ∧ b.active.path = rel ∧ b.active.path2 = rel2 then
        ({}, { ctx with notify := some b.clearActive })
      else ({ errno := some .eio }, ctx) := by
  have hctx : { ctx with notify := some b } = ctx := by rw [← hb]
  rw [Context.unlessPoke, Context.claimPoke, hb]
  dsimp only
  rw [Pokes.claim]
  cases hs : b.isSelf caller with
  | false => simp [Pokes.isPokeThread, hs, hctx]
  | true =>
    by_cases hm : b.active.what = what ∧ b.active.path = rel ∧ b.active.path2 = rel2
    · simp [hm, Pokes.clearActive]
    · have hm' : b.active.what ≠ what ∨ b.active.path ≠ rel ∨ b.active.path2 ≠ rel2 := by tauto
      simp [hm, hm', Pokes.isPokeThread, hs, hctx]

/-- **For other callers the bridge is not there.** -/
theorem handle_of_not_self (hb : ctx.notify = some b) (hself : b.isSelf caller = false)
    (reply : Reply) (req : Request) :
    (ctx.handle caller reply req).1 =
        (Context.handle { ctx with notify := none } caller reply req).1 ∧
      (ctx.handle caller reply req).2.root =
        (Context.handle { ctx with notify := none } caller reply req).2.root := by
  cases hreq : req.isMutation with
  | false =>
    cases req with
    | getattr path =>
      simp only [Context.handle, Context.opGetattr, hb, Pokes.pretend, hself]
      exact ⟨rfl, rfl⟩
    | _ => cases hreq
  | true =>
    obtain ⟨what, rel, rel2, body, hbody, -, -, hhandle⟩ := handle_eq ctx.windows reply hreq
    rw [hhandle ctx rfl, hhandle { ctx with notify := none } rfl, unlessPoke_some hb, if_pos hself,
      unlessPoke_none rfl, hbody.blind ctx none]
    exact ⟨rfl, rfl⟩

theorem handle_of_self (hb : ctx.notify = some b) (hself : b.isSelf caller = true)
    (hreq : req.isMutation = true) (reply : Reply) :
    (ctx.handle caller reply req).1.forwarded = none ∧
      (ctx.handle caller reply req).2.root = ctx.root := by
  obtain ⟨what, rel, rel2, body, -, -, -, hhandle⟩ := handle_eq ctx.windows reply hreq
  rw [hhandle ctx rfl, unlessPoke_some hb, if_neg (by simp [hself])]
  split_ifs <;> exact ⟨rfl, rfl⟩

/-- What a request does to the record: it is retired by a mutation of the bridge that it names,
which is then answered with success, and kept otherwise. -/
theorem request_cases (hb : ctx.notify = some b) (caller : ℤ) (reply : Reply) (req : Request) :
    (ctx.handle caller reply req).2.windows = ctx.windows ∧
    ((Step.request caller reply req).isLocal ctx = true ∧ b.isSelf caller = true ∧
        req.poke ctx.windows = some (b.active.what, b.active.path, b.active.path2) ∧
        b.active.what ≠ .none ∧ (ctx.handle caller reply req).2.notify = some b.clearActive ∨
      (Step.request caller reply req).isLocal ctx = false ∧
        (ctx.handle caller reply req).2.notify = some b) := by
  cases hreq : req.isMutation with
  | false =>
    cases req with
    | getattr path =>
      simp only [Step.isLocal, hreq, Context.handle, Context.opGetattr, hb]
      split <;> exact ⟨rfl, .inr ⟨rfl, hb⟩⟩
    | _ => cases hreq
  | true =>
    obtain ⟨what, rel, rel2, body, hbody, hpoke, hne, hhandle⟩ := handle_eq ctx.windows reply hreq
    simp only [Step.isLocal, hreq, hhandle ctx rfl, unlessPoke_some hb]
    split_ifs with hself hm
    · refine ⟨hbody.windows ctx, .inr ⟨?_, (hbody.notify ctx).trans hb⟩⟩
      cases he : (body ctx).1.errno with
      | some e => rfl
      | none => simpa using Option.isSome_iff_ne_none.2 (hbody.forwards ctx he)
    · obtain ⟨rfl, rfl, rfl⟩ := hm
      exact ⟨rfl, .inl ⟨rfl, by simpa using hself, hpoke, hne, rfl⟩⟩
    · exact ⟨rfl, .inr ⟨rfl, hb⟩⟩

/-! ### Runs -/

theorem exec_concat (ctx : Context) (steps : List Step) (s : Step) :
    ctx.exec (steps ++ [s]) = (ctx.exec steps).apply s := by
  simp [Context.exec]

theorem localCount_concat (ctx : Context) (steps : List Step) (s : Step) :
    localCount ctx (steps ++ [s]) =
      localCount ctx steps + if s.isLocal (ctx.exec steps) then 1 else 0 := by
  induction steps generalizing ctx with
  | nil =>
    simp only [List.nil_append, localCount, Nat.add_zero, Nat.zero_add]
    rfl
  | cons s' steps ih =>
    rw [List.cons_append, localCount, localCount, ih, Nat.add_assoc]
    rfl

/-- No poke is set or cleared in these steps, and none is claimed. -/
structure Quiet (ctx : Context) (steps : List Step) : Prop where
  kept : ∀ s ∈ steps, s.isSetActive = false ∧ s.isClearActive = false
  unclaimed : localCount ctx steps = 0

theorem Quiet.concat {steps : List Step} {s : Step} (h : Quiet ctx steps)
    (hset : s.isSetActive = false) (hclear : s.isClearActive = false)
    (hlocal : s.isLocal (ctx.exec steps) = false) : Quiet ctx (steps ++ [s]) where
  kept s' hs' := by
    rcases List.mem_append.1 hs' with hs' | hs'
    · exact h.kept s' hs'
    · rw [List.mem_singleton.1 hs']
      exact ⟨hset, hclear⟩
  unclaimed := by
    rw [localCount_concat, h.unclaimed, hlocal]
    rfl

/-- The poke is the last one set, and neither claimed nor cleared since. -/
def Outstanding (ctx : Context) (steps : List Step) (a : Active) : Prop :=
  ∃ before after, steps = before ++ .setActive a :: after ∧
    Quiet (ctx.exec (before ++ [.setActive a])) after

theorem Outstanding.concat {steps : List Step} {s : Step} {a : Active}
    (h : Outstanding ctx steps a) (hset : s.isSetActive = false) (hclear : s.isClearActive = false)
    (hlocal : s.isLocal (ctx.exec steps) = false) : Outstanding ctx (steps ++ [s]) a := by
  obtain ⟨before, after, rfl, hquiet⟩ := h
  refine ⟨before, after ++ [s], by simp, hquiet.concat hset hclear ?_⟩
  rw [← hlocal]
  simp [Context.exec]

/-- **The record in place**, if it is one of a poke, is outstanding. -/
theorem outstanding_exec (hb : ctx.notify = some b) (hidle : b.active.what = .none)
    (steps : List Step) :
    (ctx.exec steps).windows = ctx.windows ∧
      ∃ a, (ctx.exec steps).notify = some (b.setActive a) ∧
        (a.what ≠ .none → Outstanding ctx steps a) := by
  induction steps using List.reverseRecOn with
  | nil => exact ⟨rfl, b.active, hb, fun h => absurd hidle h⟩
  | append_singleton steps s ih =>
    obtain ⟨hwin, a, hnotify, hout⟩ := ih
    rw [exec_concat]
    cases s with
    | setActive a' =>
      refine ⟨hwin, a', ?_, fun _ => ⟨steps, [], rfl, ⟨by simp, rfl⟩⟩⟩
      simp only [Context.apply, hnotify]
      rfl
    | clearActive =>
      refine ⟨hwin, {}, ?_, fun h => absurd rfl h⟩
      simp only [Context.apply, hnotify]
      rfl
    | mirror root =>
      exact ⟨hwin, a, hnotify, fun h => (hout h).concat rfl rfl rfl⟩
    | request caller reply req =>
      obtain ⟨hw, ⟨-, -, -, -, hn⟩ | ⟨hlocal, hn⟩⟩ := request_cases hnotify caller reply req
      · exact ⟨hw.trans hwin, {}, hn, fun h => absurd rfl h⟩
      · exact ⟨hw.trans hwin, a, hn, fun h => (hout h).concat rfl rfl hlocal⟩

/-- A poke in flight counts as one. -/
def pending (ctx : Context) : ℕ :=
  match ctx.notify with
  | some b => if b.active.what = .none then 0 else 1
  | none => 0

theorem pending_some (hb : ctx.notify = some b) :
    pending ctx = if b.active.what = .none then 0 else 1 := by
  rw [pending, hb]

theorem pending_apply (hb : ctx.notify = some b) (s : Step) :
    (∃ b', (ctx.apply s).notify = some b') ∧
      (if s.isLocal ctx then 1 else 0) + pending (ctx.apply s) ≤
        (if s.isSetActive then 1 else 0) + pending ctx := by
  cases s with
  | setActive a =>
    have hn : (ctx.apply (.setActive a)).notify = some (b.setActive a) := by
      simp only [Context.apply, hb]
      rfl
    refine ⟨⟨_, hn⟩, ?_⟩
    rw [pending_some hn]
    simp only [Step.isLocal, Step.isSetActive]
    split_ifs <;> simp_all
  | clearActive =>
    have hn : (ctx.apply .clearActive).notify = some b.clearActive := by
      simp only [Context.apply, hb]
      rfl
    refine ⟨⟨_, hn⟩, ?_⟩
    rw [pending_some hn]
    exact Nat.zero_le _
  | mirror root => exact ⟨⟨b, hb⟩, le_rfl⟩
  | request caller reply req =>
    rw [Context.apply]
    obtain ⟨-, ⟨hlocal, -, -, hne, hn⟩ | ⟨hlocal, hn⟩⟩ := request_cases hb caller reply req
    · refine ⟨⟨_, hn⟩, ?_⟩
      rw [pending_some hn, pending_some hb, hlocal, if_neg hne]
      exact le_rfl
    · refine ⟨⟨_, hn⟩, ?_⟩
      rw [pending_some hn, pending_some hb, hlocal]
      exact le_rfl

theorem localCount_le (hb : ctx.notify = some b) (steps : List Step) :
    localCount ctx steps + pending (ctx.exec steps) ≤
      steps.countP Step.isSetActive + pending ctx := by
  induction steps generalizing ctx b with
  | nil => exact le_rfl
  | cons s steps ih =>
    obtain ⟨⟨b', hb'⟩, hstep⟩ := pending_apply hb s
    have := ih hb'
    rw [localCount, List.countP_cons]
    show _ + pending ((ctx.apply s).exec steps) ≤ _
    omega

/-- **Pokes swallow no operation and let none of their own through.**  Mutations answered with
success without the agent are no more than the pokes set, and each is one of the bridge and names
the poke that is in flight; no mutation of the bridge reaches the agent; and for other callers every
handler answers as if there were no bridge. -/
theorem pokes_exact (ctx : Context) (b : Pokes) (hb : ctx.notify = some b) (htid : b.pokeTid ≠ 0)
    (hidle : b.active = {}) (steps : List Step) :
    localCount ctx steps ≤ steps.countP Step.isSetActive ∧
    (∀ caller reply req, (Step.request caller reply req).isLocal (ctx.exec steps) = true →
      b.isSelf caller = true ∧ ∃ a, Outstanding ctx steps a ∧
        req.poke ctx.windows = some (a.what, a.path, a.path2)) ∧
    (∀ caller, caller = b.pokeTid ∨ b.isSelf caller = true →
      ∀ reply (req : Request), req.isMutation = true →
        ((ctx.exec steps).handle caller reply req).1.forwarded = none ∧
          ((ctx.exec steps).handle caller reply req).2.root = (ctx.exec steps).root) ∧
    ∀ caller, b.isSelf caller = false → ∀ reply req,
      ((ctx.exec steps).handle caller reply req).1 =
          (Context.handle { ctx.exec steps with notify := none } caller reply req).1 ∧
        ((ctx.exec steps).handle caller reply req).2.root =
          (Context.handle { ctx.exec steps with notify := none } caller reply req).2.root := by
  have hwhat : b.active.what = .none := by rw [hidle]
  obtain ⟨hwin, a, hnotify, hout⟩ := outstanding_exec hb hwhat steps
  refine ⟨?_, fun caller reply req hlocal => ?_, fun caller hcaller reply req hreq => ?_,
    fun caller hself reply req => handle_of_not_self hnotify hself reply req⟩
  · have := localCount_le hb steps
    rw [pending_some hb, if_pos hwhat] at this
    omega
  · obtain ⟨-, ⟨-, hself, hpoke, hne, -⟩ | ⟨hfalse, -⟩⟩ := request_cases hnotify caller reply req
    · exact ⟨hself, a, hout hne, hwin ▸ hpoke⟩
    · rw [hlocal] at hfalse
      cases hfalse
  · refine handle_of_self hnotify ?_ hreq reply
    rcases hcaller with rfl | hself
    · simp [Pokes.isSelf, Pokes.setActive, htid]
    · exact hself

/-- The bridge unlinks `a`: the request is its own, and a second one of another kind is refused. -/
theorem pokes_exact_unlink :
    let b : Pokes := { pokeTid := 42, selfPid := 41 }
    let ctx : Context := { root := {}, writeback := false, notify := some b }
    let poke : Active := { what := .unlink, path := [0x61], pretendPath := .present }
    let reply : Reply := .ok ({}, 1)
    b.pokeTid ≠ 0 ∧
    (b.isSelf 42 = true ∧ ∃ a, Outstanding ctx [.setActive poke] a ∧
      Request.poke false (.unlink (some [0x2F, 0x61])) = some (a.what, a.path, a.path2)) ∧
    ((ctx.exec [.setActive poke]).handle 42 reply (.rmdir (some [0x2F, 0x61]))).1.forwarded =
      none := by
  intro b ctx poke reply
  obtain ⟨-, hclaimed, hrefused, -⟩ := pokes_exact ctx b rfl (by decide) rfl [.setActive poke]
  exact ⟨by decide, hclaimed 42 reply (.unlink (some [0x2F, 0x61])) (by rfl),
    (hrefused 42 (.inl rfl) reply (.rmdir (some [0x2F, 0x61])) rfl).1⟩

end Mount

end WslDrive
