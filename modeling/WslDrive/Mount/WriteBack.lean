import WslDrive.Core.Protocol
import WslDrive.Lib.Buffer
import WslDrive.Lib.Exec

/-!
# The write-back buffer of the mount

In write-back mode an open file has a handle that collects adjacent writes and passes them on when
it is flushed.  The handle remembers the path it was opened under.  The kernel names the open file
by its current path, under which truncation and renaming pass the handle by.

* `writeBack_ne_writeThrough` — a rename and a truncation after which the two modes differ;
* `Orderly` — the steps for which this does not happen;
* `Behind` — the agent's files in write-back mode, with what is in the buffer written to them, are
  those in write-through mode;
* `writeBack_eq_writeThrough` — in every run of such steps that ends with `op_release` the files
  are the same.
-/

namespace WslDrive

open Proto Buffer

/-! ### The agent's files -/

/-- `kMaxFileOffset`: 16 TiB. -/
def Proto.kMaxFileOffset : ℕ := 2 ^ 44

/-- The contents of the agent's files. -/
abbrev Files := Bytes → Option Bytes

namespace Files

variable (f : Files)

/-- A file with other contents after a write at an offset; it is created if it is missing. -/
def put (p : Bytes) (offset : ℕ) (data : Bytes) : Files :=
  Function.update f p (some (writeAt 0 ((f p).getD []) offset data))

/-- `WriteRequest`, if it succeeds. -/
def write (p : Bytes) (offset : UInt64) (data : Bytes) : Option Files :=
  if kMaxPayload < (writeWriteRequest { path := p, offset, data }).length then none
  else if offset.toNat > kMaxFileOffset then none
  else some (f.put p offset.toNat data)

/-- `TruncateRequest`, if it succeeds. -/
def truncate (p : Bytes) (size : UInt64) : Option Files :=
  if size.toNat > kMaxFileOffset then none
  else (f p).map fun c => Function.update f p (some (resize 0 c size.toNat))

/-- `RenameRequest`, if it succeeds. -/
def rename (src dst : Bytes) : Option Files :=
  (f src).map fun c =>
    if src = dst then f else Function.update (Function.update f src none) dst (some c)

variable {f} {f' : Files} {p data : Bytes} {offset : UInt64}

theorem write_eq_some (h : f.write p offset data = some f') :
    f' = f.put p offset.toNat data ∧ offset.toNat ≤ kMaxFileOffset := by
  rw [write] at h
  split_ifs at h with hlen hoff
  cases h
  exact ⟨rfl, Nat.le_of_not_lt hoff⟩

theorem put_nil (h : (f p).isSome) (offset : ℕ) :
    f.put p offset [] = f := by
  obtain ⟨c, hc⟩ := Option.isSome_iff_exists.1 h
  rw [put, writeAt_nil, hc, Option.getD_some, ← hc, Function.update_eq_self]

theorem put_self (f : Files) (p : Bytes) (offset : ℕ) (data : Bytes) :
    f.put p offset data p = some (writeAt 0 ((f p).getD []) offset data) := Function.update_self ..

theorem put_put (f : Files) (p : Bytes) (offset : ℕ) {data : Bytes} (hd : data ≠ [])
    (more : Bytes) :
    (f.put p offset data).put p (offset + data.length) more = f.put p offset (data ++ more) := by
  rw [put, put_self, Option.getD_some, writeAt_append 0 _ _ hd, put, Function.update_idem, put]

end Files

namespace Mount

/-! ### The handlers -/

/-- `kWriteBackCap`. -/
def kWriteBackCap : ℕ := 8 * 2 ^ 20

/-- `WriteHandle`. -/
structure WriteHandle where
  path : Bytes
  /-- Offset of the first byte of the buffer within the file. -/
  start : UInt64 := 0
  buf : Bytes := []
  deriving DecidableEq, Repr

namespace WriteHandle

variable (h : WriteHandle) (offset : UInt64) (data : Bytes)

/-- The write does not extend the buffer. -/
def Breaks : Prop := h.buf ≠ [] ∧ offset ≠ h.start + UInt64.ofNat h.buf.length

instance : Decidable (h.Breaks offset) := inferInstanceAs (Decidable (_ ∧ _))

/-- The handle once its buffer is written. -/
def flushed : WriteHandle := { h with start := h.start + UInt64.ofNat h.buf.length, buf := [] }

/-- The handle with a write added to its buffer. -/
def collect : WriteHandle :=
  { h with start := if h.buf = [] then offset else h.start, buf := h.buf ++ data }

/-- The buffer is to be flushed. -/
def Full : Prop := kWriteBackCap ≤ h.buf.length

instance : Decidable h.Full := inferInstanceAs (Decidable (_ ≤ _))

end WriteHandle

/-- An open file of a mount. -/
structure OpenFile where
  writeback : Bool
  files : Files
  /-- The path by which the kernel names the file. -/
  current : Bytes
  /-- The handle, in write-back mode. -/
  handle : Option WriteHandle := none

/-- The operations on an open file. -/
inductive Op where
  | write (offset : UInt64) (data : Bytes)
  | read (offset : UInt64) (size : ℕ)
  | truncate (size : UInt64)
  | flush
  | fsync
  | rename (dst : Bytes)
  | release
  deriving DecidableEq, Repr

namespace OpenFile

/-- `op_open`. -/
def opened (writeback : Bool) (files : Files) (path : Bytes) : OpenFile where
  writeback := writeback
  files := files
  current := path
  handle := if writeback then some { path } else none

variable (m : OpenFile)

/-- `flush_handle`, if the agent's call succeeds. -/
def flushHandle : Option OpenFile :=
  match m.handle with
  | none => some m
  | some h =>
    if h.buf = [] then some m
    else (m.files.write h.path h.start h.buf).map fun files =>
      { m with files, handle := some h.flushed }

/-- The way of `op_write` past the handle. -/
def writeThrough (offset : UInt64) (data : Bytes) : Option OpenFile :=
  (m.files.write m.current offset data).map fun files => { m with files }

/-- `op_write`. -/
def opWrite (offset : UInt64) (data : Bytes) : Option OpenFile :=
  match m.handle with
  | none => m.writeThrough offset data
  | some h =>
    if m.writeback then do
      let m ← if h.Breaks offset then m.flushHandle else some m
      let m := { m with handle := m.handle.map fun h => h.collect offset data }
      if ∃ h ∈ m.handle, h.Full then m.flushHandle else some m
    else m.writeThrough offset data

/-- One operation, if every call of the agent succeeds.  What is read does not matter here. -/
def next : Op → Option OpenFile
  | .write offset data => m.opWrite offset data
  | .read _ _ => if m.writeback then m.flushHandle else some m
  | .truncate size => (m.files.truncate m.current size).map fun files => { m with files }
  | .flush | .fsync => m.flushHandle
  | .rename dst =>
    (m.files.rename m.current dst).map fun files => { m with files, current := dst }
  | .release => m.flushHandle.map fun m => { m with handle := none }

end OpenFile

/-- An open file in one of the modes. -/
def system (writeback : Bool) (files : Files) (path : Bytes) : TransSys OpenFile Op :=
  .ofNext (· = .opened writeback files path) OpenFile.next

/-- The operation leaves the two modes in step: the buffer is only flushed under the current path,
the file is not cut within the buffer, and nothing is written to a file that is not there. -/
def WriteHandle.Keeps (h : WriteHandle) (m : OpenFile) : Op → Prop
  | .write offset data =>
    (h.Breaks offset ∨ ((if h.Breaks offset then h.flushed else h).collect offset data).Full →
      h.path = m.current) ∧
    (data = [] → h.buf ≠ [] ∨ (m.files m.current).isSome)
  | .truncate size => h.buf = [] ∨ h.start.toNat + h.buf.length ≤ size.toNat
  | .rename _ => True
  | .read _ _ | .flush | .fsync | .release => h.buf = [] ∨ h.path = m.current

/-- A handle that buffers is kept in step. -/
def Orderly (m : OpenFile) (op : Op) : Prop := ∀ h ∈ m.handle, h.Keeps m op

instance (h : WriteHandle) (m : OpenFile) (op : Op) : Decidable (h.Keeps m op) := by
  cases op <;> unfold WriteHandle.Keeps <;> infer_instance

instance (m : OpenFile) (op : Op) : Decidable (Orderly m op) :=
  inferInstanceAs (Decidable (∀ h ∈ m.handle, h.Keeps m op))

/-! ### What is in the buffer -/

/-- The files with what is in the buffer of a handle. -/
def settle (files : Files) (current : Bytes) : Option WriteHandle → Files
  | none => files
  | some h => if h.buf = [] then files else files.put current h.start.toNat h.buf

theorem settle_empty (files : Files) (current : Bytes) {h : WriteHandle} (hbuf : h.buf = []) :
    settle files current (some h) = files := if_pos hbuf

theorem settle_buffer (files : Files) (current : Bytes) {h : WriteHandle} (hbuf : h.buf ≠ []) :
    settle files current (some h) = files.put current h.start.toNat h.buf := if_neg hbuf

theorem settle_cases (o : Option WriteHandle) :
    (∀ files current, settle files current o = files) ∨
    ∃ h, o = some h ∧ h.buf ≠ [] ∧
      ∀ files current, settle files current o = files.put current h.start.toNat h.buf := by
  cases o with
  | none => exact .inl fun _ _ => rfl
  | some h =>
    by_cases hbuf : h.buf = []
    · exact .inl fun files current => settle_empty files current hbuf
    · exact .inr ⟨h, rfl, hbuf, fun files current => settle_buffer files current hbuf⟩

/-- **The two modes**: `b` has a write-back buffer, `t` writes through. -/
structure Behind (b t : OpenFile) : Prop where
  writeback : b.writeback = true
  through : t.handle = none
  writebackNot : t.writeback = false
  current : t.current = b.current
  files : t.files = settle b.files b.current b.handle
  start_le : ∀ h ∈ b.handle, h.buf ≠ [] → h.start.toNat ≤ kMaxFileOffset

/-- The buffer is not to be flushed. -/
def Small (b : OpenFile) : Prop := ∀ h ∈ b.handle, ¬ h.Full

namespace Behind

variable {b b' t t' : OpenFile} {h : WriteHandle}

theorem flush (hb : Behind b t) (hpath : ∀ h ∈ b.handle, h.buf = [] ∨ h.path = b.current)
    (hf : b.flushHandle = some b') :
    Behind b' t ∧ b'.current = b.current ∧ t.files = b'.files ∧
      b'.handle = b.handle.map (fun h => if h.buf = [] then h else h.flushed) := by
  rw [OpenFile.flushHandle] at hf
  split at hf
  · next hnone =>
    cases hf
    exact ⟨hb, rfl, by rw [hb.files, hnone]; rfl, by rw [hnone]; rfl⟩
  · next h hh =>
    split_ifs at hf with hbuf
    · cases hf
      exact ⟨hb, rfl, by rw [hb.files, hh, settle_empty _ _ hbuf],
        by rw [hh, Option.map_some, if_pos hbuf]⟩
    · obtain ⟨files, hw, rfl⟩ := Option.map_eq_some_iff.1 hf
      obtain ⟨rfl, -⟩ := Files.write_eq_some hw
      have hcur := (hpath h (by rw [hh]; rfl)).resolve_left hbuf
      have hfiles : t.files = b.files.put h.path h.start.toNat h.buf := by
        rw [hb.files, hh, settle_buffer _ _ hbuf, hcur]
      refine ⟨⟨hb.writeback, hb.through, hb.writebackNot, hb.current, hfiles, ?_⟩, rfl, hfiles,
        by rw [hh, Option.map_some, if_neg hbuf]⟩
      · rintro h' ⟨⟩ hne
        exact absurd rfl hne

theorem collect (hb : Behind b t) (hsmall : Small b) (hh : b.handle = some h) {offset : UInt64}
    {data : Bytes} (hadj : ¬ h.Breaks offset)
    (hempty : data = [] → h.buf ≠ [] ∨ (b.files b.current).isSome)
    (ht : t.writeThrough offset data = some t') :
    Behind { b with handle := some (h.collect offset data) } t' := by
  obtain ⟨files, hw, rfl⟩ := Option.map_eq_some_iff.1 ht
  obtain ⟨rfl, hoff⟩ := Files.write_eq_some hw
  refine ⟨hb.writeback, hb.through, hb.writebackNot, hb.current, ?_, ?_⟩
  · show t.files.put t.current offset.toNat data = _
    rw [hb.current, hb.files, hh]
    by_cases hbuf : h.buf = []
    · rw [settle_empty _ _ hbuf]
      by_cases hdata : data = []
      · have hthere := (hempty hdata).resolve_left (not_not.2 hbuf)
        rw [hdata, Files.put_nil hthere, settle_empty _ _ (by simp [WriteHandle.collect, hbuf])]
      · rw [settle_buffer _ _ (by simp [WriteHandle.collect, hdata])]
        simp only [WriteHandle.collect, hbuf, if_true, List.nil_append]
    · rw [settle_buffer _ _ hbuf, settle_buffer _ _ (by simp [WriteHandle.collect, hbuf])]
      have hnext : offset = h.start + UInt64.ofNat h.buf.length := by
        by_contra hne
        exact hadj ⟨hbuf, hne⟩
      -- The sum does not wrap: the agent has accepted the first of the writes.
      have hstart := hb.start_le h (by rw [hh]; rfl) hbuf
      have hlen : h.buf.length < kWriteBackCap := Nat.lt_of_not_le (hsmall h (by rw [hh]; rfl))
      have hsum : offset.toNat = h.start.toNat + h.buf.length := by
        rw [hnext, UInt64.toNat_add, UInt64.toNat_ofNat']
        simp only [kMaxFileOffset, kWriteBackCap] at hstart hlen
        omega
      rw [hsum, Files.put_put _ _ _ hbuf]
      simp only [WriteHandle.collect, if_neg hbuf]
  · rintro h' ⟨⟩ hne
    simp only [WriteHandle.collect]
    split_ifs with hbuf
    · exact hoff
    · exact hb.start_le h (by rw [hh]; rfl) hbuf

theorem small_of_empty (hempty : ∀ h ∈ b.handle, h.buf = []) : Small b := by
  intro h hh hfull
  rw [WriteHandle.Full, hempty h hh] at hfull
  exact absurd hfull (by decide)

theorem flush_full (hb : Behind b t) (hpath : ∀ h ∈ b.handle, h.Full → h.path = b.current)
    (hs : (if ∃ h ∈ b.handle, h.Full then b.flushHandle else some b) = some b') :
    Behind b' t ∧ Small b' := by
  split_ifs at hs with hfull
  · obtain ⟨k, hk, hkfull⟩ := hfull
    have hone : ∀ h ∈ b.handle, h = k := fun h hh => Option.mem_unique hh hk
    obtain ⟨hb', -, -, hhandle⟩ := hb.flush
      (fun h hh => .inr (hpath h hh (by rw [hone h hh]; exact hkfull))) hs
    refine ⟨hb', small_of_empty fun h hh => ?_⟩
    rw [hhandle] at hh
    obtain ⟨h', -, rfl⟩ := Option.map_eq_some_iff.1 hh
    split_ifs with hbuf
    · exact hbuf
    · rfl
  · cases hs
    exact ⟨hb, fun h hh hf => hfull ⟨h, hh, hf⟩⟩

theorem opWrite (hb : Behind b t) (hsmall : Small b) {offset : UInt64} {data : Bytes}
    (hok : Orderly b (.write offset data)) (hs : b.opWrite offset data = some b')
    (ht : t.opWrite offset data = some t') : Behind b' t' ∧ Small b' := by
  rw [OpenFile.opWrite, hb.through] at ht
  cases hh : b.handle with
  | none =>
    rw [OpenFile.opWrite, hh] at hs
    obtain ⟨files, hw, rfl⟩ := Option.map_eq_some_iff.1 hs
    obtain ⟨files', hw', rfl⟩ := Option.map_eq_some_iff.1 ht
    have hfiles : t.files = b.files := by rw [hb.files, hh]; rfl
    rw [hfiles, hb.current, hw] at hw'
    cases hw'
    refine ⟨⟨hb.writeback, hb.through, hb.writebackNot, hb.current, ?_, fun h hm => ?_⟩,
      fun h hm => ?_⟩
    · rw [hh]
      rfl
    · cases hh.symm.trans hm
    · cases hh.symm.trans hm
  | some h =>
    obtain ⟨hpath, hempty⟩ := hok h hh
    rw [OpenFile.opWrite, hh] at hs
    dsimp only at hs
    rw [if_pos hb.writeback] at hs
    by_cases hbr : h.Breaks offset
    · rw [if_pos hbr] at hs hpath
      obtain ⟨b₁, hf, hs⟩ := Option.bind_eq_some_iff.1 hs
      have hcur : h.path = b.current := hpath (.inl hbr)
      obtain ⟨hb₁, hcur₁, hset₁, hh₁⟩ := hb.flush
        (fun k hk => .inr (by rw [← Option.mem_unique hh hk]; exact hcur)) hf
      rw [hh, Option.map_some, if_neg hbr.1] at hh₁
      -- The flush has made the file, if it was not there.
      have hthere : (b₁.files b₁.current).isSome := by
        rw [← hset₁, hb.files, hh, settle_buffer _ _ hbr.1, hcur₁, Files.put_self]
        rfl
      have hsmall₁ : Small b₁ := small_of_empty fun k hk => by
        rw [hh₁] at hk
        cases hk
        rfl
      have hb₂ := hb₁.collect hsmall₁ hh₁ (fun hadj => hadj.1 rfl) (fun _ => .inr hthere) ht
      rw [hh₁, Option.map_some] at hs
      refine hb₂.flush_full (fun k hk hfull => ?_) hs
      cases hk
      exact (hpath (.inr hfull)).trans hcur₁.symm
    · rw [if_neg hbr] at hs hpath
      rw [Option.bind_eq_bind, Option.bind_some, hh, Option.map_some] at hs
      have hb₂ := hb.collect hsmall hh hbr hempty ht
      refine hb₂.flush_full (fun k hk hfull => ?_) hs
      cases hk
      exact hpath (.inr hfull)

theorem truncate (hb : Behind b t) {size : UInt64}
    (hok : Orderly b (.truncate size)) {fb ft : Files}
    (hs : b.files.truncate b.current size = some fb)
    (ht : t.files.truncate t.current size = some ft) :
    Behind { b with files := fb } { t with files := ft } := by
  refine ⟨hb.writeback, hb.through, hb.writebackNot, hb.current, ?_, hb.start_le⟩
  rw [Files.truncate] at hs ht
  split_ifs at hs ht
  obtain ⟨c, hc, rfl⟩ := Option.map_eq_some_iff.1 hs
  rw [hb.current, hb.files] at ht
  show ft = settle (Function.update b.files b.current (some (resize 0 c size.toNat)))
    b.current b.handle
  obtain hnone | ⟨h, hh, hbuf, hput⟩ := settle_cases b.handle
  · rw [hnone, hc, Option.map_some] at ht
    cases ht
    rw [hnone]
  · have hle := (hok h hh).resolve_left hbuf
    rw [hput, Files.put_self, hc, Option.getD_some, Option.map_some] at ht
    cases ht
    rw [hput, Files.put, Files.put, Function.update_idem, Function.update_idem,
      Function.update_self, Option.getD_some, resize_writeAt 0 c hle]

theorem rename (hb : Behind b t) {dst : Bytes} {fb ft : Files}
    (hs : b.files.rename b.current dst = some fb) (ht : t.files.rename t.current dst = some ft) :
    Behind { b with files := fb, current := dst } { t with files := ft, current := dst } := by
  refine ⟨hb.writeback, hb.through, hb.writebackNot, rfl, ?_, hb.start_le⟩
  obtain ⟨c, hc, rfl⟩ := Option.map_eq_some_iff.1 hs
  rw [hb.current, hb.files] at ht
  show ft = settle (if b.current = dst then b.files else
    Function.update (Function.update b.files b.current none) dst (some c)) dst b.handle
  obtain hnone | ⟨h, hh, hbuf, hput⟩ := settle_cases b.handle
  · rw [hnone, Files.rename, hc, Option.map_some] at ht
    cases ht
    rw [hnone]
  · rw [hput, Files.rename, Files.put_self, hc, Option.getD_some, Option.map_some] at ht
    cases ht
    rw [hput]
    by_cases hsame : b.current = dst
    · subst hsame
      rw [if_pos rfl, if_pos rfl]
    · rw [if_neg hsame, if_neg hsame, Files.put, Files.put, Function.update_idem,
        Function.update_idem, Function.update_self, Option.getD_some]

theorem small_flush (hsmall : Small b)
    (hhandle : b'.handle = b.handle.map fun h => if h.buf = [] then h else h.flushed) :
    Small b' := by
  intro h hh
  rw [hhandle] at hh
  obtain ⟨k, hk, rfl⟩ := Option.map_eq_some_iff.1 hh
  split_ifs with hbuf
  · exact hsmall k hk
  · exact (show ¬ kWriteBackCap ≤ 0 by decide)

theorem step (hb : Behind b t) (hsmall : Small b) {op : Op} (hok : Orderly b op)
    (hs : b.next op = some b') (ht : t.next op = some t') : Behind b' t' ∧ Small b' := by
  have hflush : t.flushHandle = some t := by rw [OpenFile.flushHandle, hb.through]
  -- Only a flush is left of the operation.
  have hsync : b.flushHandle = some b' → some t = some t' →
      (∀ h ∈ b.handle, h.buf = [] ∨ h.path = b.current) → Behind b' t' ∧ Small b' := by
    rintro hf ⟨⟩ hpath
    obtain ⟨hb', -, -, hhandle⟩ := hb.flush hpath hf
    exact ⟨hb', small_flush hsmall hhandle⟩
  cases op with
  | write offset data => exact hb.opWrite hsmall hok hs ht
  | read offset size =>
    rw [OpenFile.next, if_pos hb.writeback] at hs
    rw [OpenFile.next, if_neg (by simp [hb.writebackNot])] at ht
    exact hsync hs ht hok
  | flush | fsync =>
    rw [OpenFile.next, hflush] at ht
    exact hsync hs ht hok
  | truncate size =>
    obtain ⟨fb, hfb, rfl⟩ := Option.map_eq_some_iff.1 hs
    obtain ⟨ft, hft, rfl⟩ := Option.map_eq_some_iff.1 ht
    exact ⟨hb.truncate hok hfb hft, hsmall⟩
  | rename dst =>
    obtain ⟨fb, hfb, rfl⟩ := Option.map_eq_some_iff.1 hs
    obtain ⟨ft, hft, rfl⟩ := Option.map_eq_some_iff.1 ht
    exact ⟨hb.rename hfb hft, hsmall⟩
  | release =>
    obtain ⟨b₁, hf, rfl⟩ := Option.map_eq_some_iff.1 hs
    rw [OpenFile.next, hflush] at ht
    cases ht
    obtain ⟨hb₁, -, hset, -⟩ := hb.flush hok hf
    refine ⟨⟨hb₁.writeback, rfl, hb₁.writebackNot, hb₁.current, ?_, nofun⟩, nofun⟩
    exact hset

theorem opened (files : Files) (path : Bytes) :
    Behind (.opened true files path) (.opened false files path) ∧
      Small (.opened true files path) := by
  refine ⟨⟨rfl, rfl, rfl, rfl, rfl, ?_⟩, small_of_empty ?_⟩
  · rintro h ⟨⟩ hne
    exact absurd rfl hne
  · rintro h ⟨⟩
    rfl

theorem run {files : Files} {path : Bytes} {ops : List Op}
    (hb : (system true files path).ExecWith Orderly ops b)
    (ht : ops.foldlM OpenFile.next (.opened false files path) = some t) :
    Behind b t ∧ Small b := by
  induction hb generalizing t with
  | start hinit =>
    cases hinit
    cases ht
    exact opened files path
  | next _ hs hok ih =>
    rw [List.foldlM_append, Option.bind_eq_bind, Option.bind_eq_some_iff] at ht
    obtain ⟨t₁, ht₁, ht⟩ := ht
    rw [List.foldlM_cons, Option.bind_eq_bind, Option.bind_eq_some_iff] at ht
    obtain ⟨t₂, ht₂, ht⟩ := ht
    cases ht
    obtain ⟨hb₁, hsmall₁⟩ := ih ht₁
    exact hb₁.step hsmall₁ hok hs ht₂

end Behind

/-! ### The result -/

/-- **Write-back equals write-through** for every sequence of orderly operations ended by
`op_release`, with every call of the agent succeeding in both modes. -/
theorem writeBack_eq_writeThrough {files : Files} {path : Bytes} {ops : List Op} {b t : OpenFile}
    (hb : (system true files path).ExecWith Orderly (ops ++ [.release]) b)
    (ht : (ops ++ [Op.release]).foldlM OpenFile.next (.opened false files path) = some t) :
    b.files = t.files := by
  have hnone : b.handle = none := by
    obtain ⟨b₁, -, hlast, -⟩ := hb.of_concat
    obtain ⟨b₂, -, rfl⟩ := Option.map_eq_some_iff.1 hlast
    rfl
  rw [(Behind.run hb ht).1.files, hnone]
  rfl

/-- One file. -/
def oneFile : Files := Function.update (fun _ => none) (bytes "a") (some (bytes "xyz"))

/-- Two adjacent writes, a truncation behind them, and a rename after a flush. -/
def adjacentOps : List Op :=
  [.write 0 (bytes "01"), .write 2 (bytes "2"), .truncate 5, .fsync, .rename (bytes "b")]

theorem writeBack_eq_writeThrough_adjacent :
    ∃ b t, (system true oneFile (bytes "a")).ExecWith Orderly (adjacentOps ++ [.release]) b ∧
      (adjacentOps ++ [Op.release]).foldlM OpenFile.next (.opened false oneFile (bytes "a")) =
        some t ∧
      t.files (bytes "b") = some (bytes "012" ++ [0, 0]) ∧ b.files = t.files := by
  have hback : ((adjacentOps ++ [Op.release]).foldlM
      (fun m op => if Orderly m op then m.next op else none)
      (OpenFile.opened true oneFile (bytes "a"))).isSome := by decide
  obtain ⟨b, hb⟩ := Option.isSome_iff_exists.1 hback
  have hthrough : ((adjacentOps ++ [Op.release]).foldlM OpenFile.next
      (OpenFile.opened false oneFile (bytes "a"))).map (fun t => t.files (bytes "b")) =
      some (some (bytes "012" ++ [0, 0])) := by decide
  obtain ⟨t, ht, hfile⟩ := Option.map_eq_some_iff.1 hthrough
  have hexec : (system true oneFile (bytes "a")).ExecWith Orderly (adjacentOps ++ [.release]) b :=
    TransSys.execWith_ofNext rfl hb
  exact ⟨b, t, hexec, ht, hfile, writeBack_eq_writeThrough hexec ht⟩

/-- The files `a` and `b` after operations on `a`. -/
def outcome (writeback : Bool) (ops : List Op) : Option (Option Bytes × Option Bytes) :=
  (ops.foldlM OpenFile.next (OpenFile.opened writeback oneFile (bytes "a"))).map fun m =>
    (m.files (bytes "a"), m.files (bytes "b"))

/-- **A rename or a truncation before the flush.**  After the rename the handle writes to the old
path, which comes back, and the renamed file lacks what was written.  After the truncation what was
cut off is written again. -/
theorem writeBack_ne_writeThrough :
    outcome true [.write 0 (bytes "0"), .rename (bytes "b"), .release] =
      some (some (bytes "0"), some (bytes "xyz")) ∧
    outcome false [.write 0 (bytes "0"), .rename (bytes "b"), .release] =
      some (none, some (bytes "0yz")) ∧
    outcome true [.write 0 (bytes "0"), .truncate 0, .release] = some (some (bytes "0"), none) ∧
    outcome false [.write 0 (bytes "0"), .truncate 0, .release] = some (some [], none) := by
  decide

end Mount

end WslDrive
