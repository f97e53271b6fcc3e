import WslDrive.Agent.BulkRead

/-!
# Windows of files

Four places cut a range of bytes out of a file: `send_read` before it reads, `slice` after a whole
file has been fetched or found in the cache, `read_into` when it copies out of the cache, and again
when it copies what `read` returned.  They take minima and sums in different orders and widths.

* `ReadPath.read_eq`, `ReadPath.readInto_eq` — `RemoteRoot.read` and `RemoteRoot.readInto` return
  what `read` and `readInto` do;
* `ReadPath.reads_agree` — all of them return the same bytes.
-/

namespace WslDrive

namespace ReadPath

open MetadataTree Path Proto RemoteRoot

variable {a : Agent} {c : RemoteRoot} {s : ReadCache} {path : Bytes} {data contents : Bytes}
  {offset : UInt64} {length : UInt32}

/-! ### The batch of a miss -/

theorem siblings_paths (target : Bytes) (mtimeNs : Int64) (size : UInt64) :
    (siblings c target mtimeNs size).paths = c.readBatch target size := by
  have hfold : ∀ (ids : List NodeId) (dir : Bytes) (b : Batch) (r : List Bytes × UInt64),
      (b.paths, b.bytes) = r →
      ((ids.foldl (addSibling c dir target) b).paths,
        (ids.foldl (addSibling c dir target) b).bytes) =
        ids.foldl (c.readAhead dir target) r := by
    intro ids dir
    induction ids with
    | nil => exact fun _ _ h => h
    | cons id ids ih =>
      rintro b _ rfl
      refine ih _ _ ?_
      rw [addSibling, readAhead]
      dsimp only
      rw [← childPath]
      split_ifs <;> rfl
  rw [siblings, readBatch]
  cases c.tree.lookup (splitParent target).1 .exact with
  | none => rfl
  | some did =>
    dsimp only
    split_ifs
    · exact congrArg Prod.fst (hfold _ _ ⟨[target], [(mtimeNs, size)], size⟩ _ rfl)
    · rfl

theorem located_of_siblings {target : Bytes} {mtimeNs : Int64} {size : UInt64}
    {datas : List (Option Bytes)}
    (h : readMany a (siblings c target mtimeNs size).paths = .ok (some data :: datas)) :
    ∃ f, a.located target = some f ∧ f.contents = data ∧ data.length ≤ kMaxBulkFile := by
  have hloop := readMany_eq_ok h
  have hhead := head_readBatch (c := c) target size
  rw [← siblings_paths target mtimeNs size] at hhead
  cases hpaths : (siblings c target mtimeNs size).paths with
  | nil =>
    rw [hpaths] at hloop
    cases hloop
  | cons p ps =>
    rw [hpaths] at hhead hloop
    obtain rfl : p = target := hhead
    obtain ⟨f, hf, hcontents, hlarge, -⟩ := readNext_eq_some_iff.1 (List.cons.inj hloop).1.symm
    exact ⟨f, hf, hcontents, hlarge⟩

/-! ### The model of the requests -/

/-- The replies of an agent, for the model of the requests. -/
def Agent.answers (a : Agent) : Answers where
  read := readRemote a
  readMany q := readMany a q.paths

theorem slice_eq_slice (h : data.length < 2 ^ 63) (offset : UInt64) (length : UInt32) :
    slice data offset length = RemoteRoot.slice data offset length := by
  rw [slice_eq h, window_eq, RemoteRoot.slice]

theorem length_readRemote {q : ReadRequest} (h : readRemote a q = .ok data) :
    data.length < 2 ^ 63 := by
  obtain ⟨f, -, rfl⟩ := readRemote_eq_ok h
  have := q.length.toNat_lt
  rw [length_window]
  omega

theorem fetchWhole_eq (key : Bytes) (t : ReadTarget) (offset : UInt64) (length : UInt32) :
    (fetchWhole a s key t offset length).2 =
      (readRemote a ⟨key, 0, t.size.toUInt32⟩).map fun data =>
        RemoteRoot.slice data offset length := by
  rw [fetchWhole]
  cases hone : readRemote a _ with
  | error e => rfl
  | ok whole =>
    dsimp only [Except.map]
    rw [slice_eq_slice (length_readRemote hone)]

/-- **`RemoteRoot.read` returns what `read` does**, if the cache holds what a vector can hold. -/
theorem read_eq (hs : ∀ key e, s.rcache.lookup key = some e → e.data.length < 2 ^ 63)
    (path : Bytes) (offset : UInt64) (length : UInt32) :
    (read c a s path offset length).2 =
      (RemoteRoot.read c s.caches a.answers path offset length).2 := by
  rw [read, RemoteRoot.read, ReadCache.hit_caches]
  dsimp only
  split_ifs
  · rfl
  cases hfind : s.find ((c.resolveForRead path).key path) (c.resolveForRead path).mtimeNs
      (c.resolveForRead path).size with
  | some e =>
    have he := (Option.filter_eq_some_iff.1 hfind).1
    dsimp only [Option.map_some]
    rw [slice_eq_slice (hs _ _ he)]
  | none =>
    have hanswer : a.answers.readMany ⟨c.readBatch ((c.resolveForRead path).key path)
        (c.resolveForRead path).size⟩ = readMany a (siblings c ((c.resolveForRead path).key path)
          (c.resolveForRead path).mtimeNs (c.resolveForRead path).size).paths := by
      rw [siblings_paths]
      rfl
    dsimp only [Option.map_none]
    rw [hanswer]
    have hwhole := fetchWhole_eq (a := a) (s := s) ((c.resolveForRead path).key path)
      (c.resolveForRead path) offset length
    cases hread : readMany a _ with
    | error e => exact hwhole
    | ok datas =>
      cases datas with
      | nil => exact hwhole
      | cons d datas =>
        cases d with
        | none => exact hwhole
        | some data =>
          obtain ⟨f, -, -, hlarge⟩ := located_of_siblings hread
          have hbound : kMaxBulkFile = 16777216 := rfl
          dsimp only
          rw [slice_eq_slice (by omega)]

theorem take_clamp {contents : Bytes} (h : contents.length < 2 ^ 64) (offset room : UInt64) :
    let size := UInt64.ofNat contents.length
    let n := if offset ≥ size then 0 else min room (size - offset)
    (contents.drop offset.toNat).take n.toNat = window contents offset.toNat room.toNat := by
  intro size n
  have hsize : size.toNat = contents.length := toNat_ofNat_length h
  rw [window_eq]
  by_cases hoff : offset ≥ size
  · have hle : contents.length ≤ offset.toNat := by rwa [← hsize, ← UInt64.le_iff_toNat_le]
    rw [List.drop_eq_nil_of_le hle, List.take_nil, List.take_nil]
  · have hle : offset ≤ size := UInt64.le_of_lt (UInt64.not_le.1 hoff)
    have hn : n.toNat = min room.toNat (contents.length - offset.toNat) := by
      simp only [n, if_neg hoff]
      rw [UInt64.toNat_min, UInt64.toNat_sub_of_le _ _ hle, hsize]
    rw [hn, ← List.length_drop, ← List.take_eq_take_min]

theorem length_read (hs : ∀ key e, s.rcache.lookup key = some e → e.data.length < 2 ^ 63)
    (h : (read c a s path offset length).2 = .ok data) : data.length < 2 ^ 63 := by
  have hslice : ∀ d : Bytes, (RemoteRoot.slice d offset length).length < 2 ^ 63 := by
    intro d
    have hle : (RemoteRoot.slice d offset length).length ≤ length.toNat := List.length_take_le _ _
    have := length.toNat_lt
    omega
  obtain ⟨-, hread⟩ | ⟨-, ⟨e, hfind, hread⟩ | ⟨-, ⟨d, datas, hmany, hread⟩ | hread⟩⟩ :=
    read_cases c a s path offset length
  · rw [hread] at h
    exact length_readRemote h
  · rw [hread, slice_eq_slice (hs _ e (Option.filter_eq_some_iff.1 hfind).1)] at h
    cases h
    exact hslice _
  · obtain ⟨f, -, -, hlarge⟩ := located_of_siblings hmany
    have hbound : kMaxBulkFile = 16777216 := rfl
    rw [hread, slice_eq_slice (by omega)] at h
    cases h
    exact hslice _
  · rw [hread, fetchWhole_eq] at h
    cases hone : readRemote a _ with
    | error e =>
      rw [hone] at h
      cases h
    | ok whole =>
      rw [hone] at h
      cases h
      exact hslice _

/-- **`RemoteRoot.readInto` returns what `read_into` copies.** -/
theorem readInto_eq (hs : ∀ key e, s.rcache.lookup key = some e → e.data.length < 2 ^ 63)
    (path : Bytes) (offset room : UInt64) :
    (readInto c a s path offset room).2 =
      (RemoteRoot.readInto c s.caches a.answers path offset room.toNat).2 := by
  have hlen : UInt32.ofNat (min room.toNat 0xFFFFFFFF) = (min room 0xFFFFFFFF).toUInt32 := by
    rw [← UInt32.toNat_inj, UInt64.toNat_toUInt32, UInt64.toNat_min, UInt32.toNat_ofNat']
    rfl
  rw [readInto, RemoteRoot.readInto, ReadCache.hit_caches]
  dsimp only
  have hmiss : ∀ key, (read c a s key offset (min room 0xFFFFFFFF).toUInt32).2.map
      (fun data => data.take (min room (UInt64.ofNat data.length)).toNat) =
      (RemoteRoot.read c s.caches a.answers key offset
        (UInt32.ofNat (min room.toNat 0xFFFFFFFF))).2.map fun data => data.take room.toNat := by
    intro key
    rw [hlen, ← read_eq hs]
    cases hread : (read c a s key offset (min room 0xFFFFFFFF).toUInt32).2 with
    | error e => rfl
    | ok data =>
      have hdata := length_read hs hread
      dsimp only [Except.map]
      rw [UInt64.toNat_min, toNat_ofNat_length (by omega), ← List.take_eq_take_min]
  split_ifs
  · cases hfind : s.find ((c.resolveForRead path).key path) (c.resolveForRead path).mtimeNs
        (c.resolveForRead path).size with
    | none => exact hmiss _
    | some e =>
      have he := hs _ e (Option.filter_eq_some_iff.1 hfind).1
      dsimp only [Option.map_some]
      rw [take_clamp (by omega), window_eq]
  · exact hmiss _

/-! ### The bytes of a read -/

/-- What a read of a window returns; only reads past the cache are refused. -/
def expected (t : ReadTarget) (w : Bytes) : Except Errc Bytes :=
  if uncached t = true ∧ w.length > kMaxPayload - 64 then .error .tooLarge else .ok w

/-- The agent and the client agree on a file: the agent can read it, the mirror has its size, and
what the cache has of this version are its bytes. -/
structure Agreed (a : Agent) (s : ReadCache) (t : ReadTarget) (key contents : Bytes) : Prop where
  served : ∃ f, a.located key = some f ∧ f.contents = contents ∧ f.opens = true
  size : t.isFile = true → t.size.toNat = contents.length
  cached : ∀ e, s.find key t.mtimeNs t.size = some e → e.data = contents
  /-- A request for it fits a frame, if one goes out. -/
  fits : uncached t = true ∨ s.find key t.mtimeNs t.size = none →
    (writeReadRequest { path := key }).length ≤ kMaxPayload

theorem length_writeReadRequest (q : ReadRequest) :
    (writeReadRequest q).length = (writeReadRequest { path := q.path }).length := by
  simp only [writeReadRequest, Writer.u64, Writer.u32, List.length_append, length_putLe]

variable {t : ReadTarget} {key : Bytes}

/-- **`send_read`** returns the window, unless that is too large. -/
theorem Agreed.sendRead (h : Agreed a s t key contents) (offset : UInt64) (length : UInt32) :
    let w := window contents offset.toNat length.toNat
    a.sendRead { path := key, offset, length } =
      if w.length > kMaxPayload - 64 then .error (.tooLarge, bytes "read too large")
      else .ok { fileSize := UInt64.ofNat contents.length, data := w } := by
  obtain ⟨f, hf, rfl, hopens⟩ := h.served
  intro w
  rw [sendRead_of_located (q := ⟨key, offset, length⟩) hf]
  have hread : w = [] ∨ f.opens = true := .inr hopens
  dsimp only
  rw [if_pos hread]
  rfl

theorem Agreed.readRemote (h : Agreed a s t key contents)
    (hsent : uncached t = true ∨ s.find key t.mtimeNs t.size = none) (offset : UInt64)
    (length : UInt32) :
    let w := window contents offset.toNat length.toNat
    readRemote a { path := key, offset, length } =
      if w.length > kMaxPayload - 64 then .error .tooLarge else .ok w := by
  intro w
  rw [readRemote_eq (by rw [length_writeReadRequest]; exact h.fits hsent), h.sendRead]
  split_ifs
  · rfl
  · rfl

theorem Agreed.length_le (h : Agreed a s t key contents) (hcache : uncached t = false) :
    contents.length ≤ 8388608 := by
  obtain ⟨hfile, hle⟩ := uncached_eq_false_iff.1 hcache
  rw [← h.size hfile]
  exact UInt64.le_iff_toNat_le.1 hle

theorem Agreed.slice_eq (h : Agreed a s t key contents) (hcache : uncached t = false)
    (offset : UInt64) (length : UInt32) :
    slice contents offset length = window contents offset.toNat length.toNat := by
  have hlen := h.length_le hcache
  exact ReadPath.slice_eq (by omega) offset length

theorem Agreed.fetchWhole (h : Agreed a s t key contents) (hcache : uncached t = false)
    (hnone : s.find key t.mtimeNs t.size = none) (offset : UInt64) (length : UInt32) :
    (fetchWhole a s key t offset length).2 =
      .ok (window contents offset.toNat length.toNat) := by
  obtain ⟨hfile, hle⟩ := uncached_eq_false_iff.1 hcache
  have hsize : t.size.toUInt32.toNat = contents.length :=
    (toNat_toUInt32_of_le hle).trans (h.size hfile)
  have hall : window contents (0 : UInt64).toNat t.size.toUInt32.toNat = contents :=
    window_whole hsize.ge
  have hlen := h.length_le hcache
  have hbound : kMaxPayload = 67108864 := rfl
  rw [ReadPath.fetchWhole, h.readRemote (.inr hnone), hall, if_neg (by omega)]
  dsimp only
  rw [h.slice_eq hcache]

/-- **`read`**, whether it hits, fetches a batch or the file alone. -/
theorem read_result
    (h : Agreed a s (c.resolveForRead path) ((c.resolveForRead path).key path) contents) :
    (read c a s path offset length).2 =
      expected (c.resolveForRead path) (window contents offset.toNat length.toNat) := by
  rw [expected]
  obtain ⟨hremote, hread⟩ | ⟨hcache, hways⟩ := read_cases c a s path offset length
  · rw [hread, h.readRemote (.inl hremote)]
    simp only [hremote, true_and]
  rw [hcache, if_neg fun hand => Bool.false_ne_true hand.1]
  obtain ⟨e, hfind, hread⟩ | ⟨hnone, ⟨data, datas, hmany, hread⟩ | hread⟩ := hways
  · rw [hread, h.cached e hfind, h.slice_eq hcache]
  · obtain ⟨f, hf, rfl, -⟩ := located_of_siblings hmany
    obtain ⟨f', hf', rfl, -⟩ := h.served
    obtain rfl : f = f' := Option.some.inj (hf.symm.trans hf')
    rw [hread, h.slice_eq hcache]
  · rw [hread]
    exact h.fetchWhole hcache hnone offset length

/-- The spelling that `read_into` passes on to `read` leads to the same file. -/
theorem resolveForRead_key (h : c.tree.WF) (path : Bytes) :
    let t := c.resolveForRead path
    let t' := c.resolveForRead (t.key path)
    t'.isFile = t.isFile ∧ t'.mtimeNs = t.mtimeNs ∧ t'.size = t.size ∧
      t'.key (t.key path) = t.key path := by
  intro t t'
  by_cases hcan : t.canonical = []
  · have hkey : t.key path = path := if_pos hcan
    have ht : t' = t := by simp only [t', hkey]; rfl
    rw [ht, hkey]
    exact ⟨rfl, rfl, rfl, hkey⟩
  · -- only a path that was found with folded names has another spelling
    obtain ⟨id, hid, ht⟩ : ∃ id, c.tree.lookup path c.lookupMode = some id ∧
        t = c.targetOf id (c.tree.pathOf id slash) := by
      obtain ⟨id, -, ht⟩ | hfolded | ht := c.resolveForRead_cases path
      · exact absurd (congrArg ReadTarget.canonical ht) hcan
      · exact hfolded
      · exact absurd (congrArg ReadTarget.canonical ht) hcan
    have hkey : t.key path = c.tree.pathOf id slash := by
      rw [ReadTarget.key, if_neg hcan, ht]
      rfl
    have ht' : t' = c.targetOf id [] := by
      simp only [t', hkey, resolveForRead, h.lookup_pathOf (h.lookup_live hid)]
      rfl
    rw [ht', ht]
    exact ⟨rfl, rfl, rfl, rfl⟩

theorem Agreed.read_key (hwf : c.tree.WF)
    (h : Agreed a s (c.resolveForRead path) ((c.resolveForRead path).key path) contents)
    (offset : UInt64) (length : UInt32) :
    (read c a s ((c.resolveForRead path).key path) offset length).2 =
      expected (c.resolveForRead path) (window contents offset.toNat length.toNat) := by
  obtain ⟨hfile, hmtime, hsize, hkey⟩ := resolveForRead_key hwf path
  have hagreed : Agreed a s (c.resolveForRead ((c.resolveForRead path).key path))
      ((c.resolveForRead ((c.resolveForRead path).key path)).key
        ((c.resolveForRead path).key path)) contents := by
    rw [hkey]
    refine ⟨h.served, ?_, ?_, ?_⟩
    · rw [hfile, hsize]
      exact h.size
    · rw [hmtime, hsize]
      exact h.cached
    · rw [uncached, hfile, hmtime, hsize, ← uncached]
      exact h.fits
  have hread : (read c a s ((c.resolveForRead path).key path) offset length).2 =
      expected _ (window contents offset.toNat length.toNat) := read_result hagreed
  rwa [expected, uncached, hfile, hsize, ← uncached, ← expected] at hread

theorem toUInt32_min_toUInt64 (length : UInt32) :
    (min length.toUInt64 0xFFFFFFFF).toUInt32 = length := by
  have hlt := length.toNat_lt
  rw [← UInt32.toNat_inj, UInt64.toNat_toUInt32, UInt64.toNat_min, UInt32.toNat_toUInt64]
  have hmax : (0xFFFFFFFF : UInt64).toNat = 4294967295 := rfl
  omega

theorem map_take_expected {w : Bytes} {length : UInt32} (hw : w.length ≤ length.toNat) :
    (expected t w).map (fun data =>
      data.take (min length.toUInt64 (UInt64.ofNat data.length)).toNat) = expected t w := by
  have hlt := length.toNat_lt
  have hroom : (min length.toUInt64 (UInt64.ofNat w.length)).toNat = w.length := by
    rw [UInt64.toNat_min, UInt32.toNat_toUInt64, toNat_ofNat_length (by omega)]
    omega
  rw [expected]
  split_ifs
  · rfl
  · rw [Except.map, hroom, List.take_length]

/-- **`read_into`** a buffer of some length below 4 GiB. -/
theorem readInto_result (hwf : c.tree.WF)
    (h : Agreed a s (c.resolveForRead path) ((c.resolveForRead path).key path) contents) :
    (readInto c a s path offset length.toUInt64).2 =
      expected (c.resolveForRead path) (window contents offset.toNat length.toNat) := by
  have hread := h.read_key hwf offset length
  rw [readInto]
  dsimp only
  generalize c.resolveForRead path = t at h hread ⊢
  generalize t.key path = key at h hread ⊢
  have hmiss : (read c a s key offset (min length.toUInt64 0xFFFFFFFF).toUInt32).2.map
      (fun data => data.take (min length.toUInt64 (UInt64.ofNat data.length)).toNat) =
      expected t (window contents offset.toNat length.toNat) := by
    rw [toUInt32_min_toUInt64, hread]
    refine map_take_expected ?_
    rw [length_window]
    exact Nat.min_le_left _ _
  have hbranch : (t.isFile && decide (t.size ≤ kMaxCacheableFile)) = !uncached t := by
    rw [Bool.eq_iff_iff, Bool.and_eq_true, decide_eq_true_iff, ← uncached_eq_false_iff,
      Bool.not_eq_true']
  rw [hbranch]
  cases hcache : uncached t with
  | true =>
    rw [Bool.not_true, if_neg Bool.false_ne_true]
    exact hmiss
  | false =>
    rw [Bool.not_false, if_pos rfl]
    cases hfind : s.find key t.mtimeNs t.size with
    | none => exact hmiss
    | some e =>
      have hlen := h.length_le hcache
      dsimp only
      rw [h.cached e hfind, take_clamp (by omega), UInt32.toNat_toUInt64, expected, hcache,
        if_neg fun hand => Bool.false_ne_true hand.1]

/-- **All reads return the same bytes**: `read`, from the cache, a batch or a single fetch,
`read_into` and `send_read` return the bytes from `min(offset, n)` up to `min(offset + length, n)`.
A window of more than `kMaxPayload - 64` bytes is refused by `send_read`, and by the others only
past the cache. -/
theorem reads_agree (c : RemoteRoot) (a : Agent) (s : ReadCache) (path contents : Bytes)
    (hwf : c.tree.WF)
    (h : Agreed a s (c.resolveForRead path) ((c.resolveForRead path).key path) contents)
    (offset : UInt64) (length : UInt32) :
    let w := (contents.take (min (offset.toNat + length.toNat) contents.length)).drop
      (min offset.toNat contents.length)
    let t := c.resolveForRead path
    (read c a s path offset length).2 = expected t w ∧
    (readInto c a s path offset length.toUInt64).2 = expected t w ∧
    a.sendRead { path := t.key path, offset, length } =
      if w.length > kMaxPayload - 64 then .error (.tooLarge, bytes "read too large")
      else .ok { fileSize := UInt64.ofNat contents.length, data := w } :=
  ⟨read_result h, readInto_result hwf h, h.sendRead offset length⟩

/-- A client whose mirror has the one file of an agent. -/
def oneFileClient : RemoteRoot where
  tree := (fresh.upsertPath (bytes "f") { size := 3, mtimeNs := 1 }).2

/-- A read across the end of the file, near the end of the 64-bit range, with nothing cached. -/
theorem reads_agree_one :
    (read oneFileClient oneFileAgent {} (bytes "f") 1 0xFFFFFFFF).2 = .ok [2, 3] ∧
      (readInto oneFileClient oneFileAgent {} (bytes "f") 0xFFFFFFFFFFFFFFFF 0xFFFFFFFF).2 =
        .ok [] :=
  have hwf : oneFileClient.tree.WF := (wf_fresh.kept_upsertPath _ _).wf
  have h : Agreed oneFileAgent {} (oneFileClient.resolveForRead (bytes "f"))
      ((oneFileClient.resolveForRead (bytes "f")).key (bytes "f")) [1, 2, 3] :=
    { served := ⟨{ contents := [1, 2, 3], sized := by decide }, rfl, rfl, rfl⟩
      size := fun _ => by decide
      cached := fun e he => by cases he
      fits := fun _ => by decide }
  ⟨(reads_agree _ _ _ _ _ hwf h 1 0xFFFFFFFF).1,
    (reads_agree _ _ _ _ _ hwf h 0xFFFFFFFFFFFFFFFF 0xFFFFFFFF).2.1⟩

end ReadPath

end WslDrive
