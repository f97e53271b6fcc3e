import Mathlib.Algebra.Order.BigOperators.Group.Finset
import Mathlib.Data.List.GetD
import WslDrive.Core.StringPool
import WslDrive.Lib.Buffer

/-!
# The storage of interned names

`StringPool` keeps the bytes of its strings in chunks that it fills one after the other; a string
longer than a quarter of a chunk gets a block of its own.  The entries and the keys of the index are
views into these blocks.  `ChunkPool` is the class with its storage, and it refines the pool of
`WslDrive.Core.StringPool`, which is a list of strings.

* `store_spec` — what is stored lies behind everything that was stored before;
* `Rep.intern` — `intern` refines the one on lists of strings;
* `Rep.internAll` — so does a run of calls;
* `interning_stable` — interned strings keep their bytes, their places and their ids.
-/

namespace WslDrive

open Buffer

namespace ChunkPool

/-! ### The model -/

/-- A byte array that pointers of the pool point into. -/
inductive Block where
  /-- `kEmpty` of `store`. -/
  | static
  | chunk (i : ℕ)
  | large (i : ℕ)
  deriving DecidableEq, Repr

/-- A `const char*`. -/
structure Address where
  block : Block
  offset : ℕ
  deriving DecidableEq, Repr

/-- `Entry`. -/
structure Entry where
  data : Address
  len : UInt32
  deriving DecidableEq, Repr

/-- An element of `index_`: the hash of its key as it was when the element was added, the key, which
is a view, and the id. -/
structure Item where
  hash : UInt64
  data : Address
  size : ℕ
  id : UInt32
  deriving DecidableEq, Repr

/-- `kChunkSize`: 1 MiB. -/
def kChunkSize : ℕ := 2 ^ 20

end ChunkPool

/-- `StringPool` with its storage. -/
structure ChunkPool where
  entries : List ChunkPool.Entry := []
  chunks : List Bytes := []
  large : List Bytes := []
  chunkUsed : ℕ := 0
  chunkCap : ℕ := 0
  bytes : UInt64 := 0
  index : List ChunkPool.Item := []
  deriving DecidableEq, Repr

namespace ChunkPool

/-- The contents of a byte array. -/
def block (pool : ChunkPool) : Block → Bytes
  | .static => [0]
  | .chunk i => pool.chunks.getD i []
  | .large i => pool.large.getD i []

/-- The bytes of a `std::string_view`. -/
def read (pool : ChunkPool) (data : Address) (size : ℕ) : Bytes :=
  slice (pool.block data.block) data.offset size

/-- A fresh chunk, if the string does not fit the last one. -/
def rollOver (pool : ChunkPool) (size : ℕ) : ChunkPool :=
  if pool.chunkCap < pool.chunkUsed + size then
    { pool with
      chunks := pool.chunks ++ [List.replicate kChunkSize 0], chunkUsed := 0,
      chunkCap := kChunkSize }
  else pool

/-- `store`. -/
def store (pool : ChunkPool) (s : Bytes) : Address × ChunkPool :=
  if s = [] then (⟨.static, 0⟩, pool)
  else if kChunkSize / 4 < s.length then
    (⟨.large pool.large.length, 0⟩,
      { pool with large := pool.large ++ [overwrite (List.replicate s.length 0) 0 s] })
  else
    let pool := pool.rollOver s.length
    let back := pool.chunks.length - 1
    (⟨.chunk back, pool.chunkUsed⟩,
      { pool with
        chunks := pool.chunks.set back (overwrite (pool.chunks.getD back []) pool.chunkUsed s),
        chunkUsed := pool.chunkUsed + s.length })

/-- `clear`. -/
def clear (pool : ChunkPool) : ChunkPool :=
  { pool with
    index := [], entries := [], chunks := [], large := [], chunkUsed := 0, chunkCap := 0,
    bytes := 0 }

/-- `size`. -/
def size (pool : ChunkPool) : ℕ := pool.entries.length

/-- `view`; the ids in use are below `size`. -/
def view (pool : ChunkPool) (id : UInt32) : Bytes :=
  match pool.entries[id.toNat]? with
  | none => []
  | some e => pool.read e.data e.len.toNat

section Index

-- `StringHash`; nothing depends on how it is computed.
variable (hash : Bytes → UInt64)

/-- `find`: the element of the index whose key has the hash and the bytes of `s`.  The bytes of a
key are those the storage has now. -/
def find (pool : ChunkPool) (s : Bytes) : Option UInt32 :=
  (pool.index.find? fun item =>
    item.hash == hash s && pool.read item.data item.size == s).map Item.id

/-- `intern`. -/
def intern (pool : ChunkPool) (s : Bytes) : UInt32 × ChunkPool :=
  match pool.find hash s with
  | some id => (id, pool)
  | none =>
    let (data, pool) := pool.store s
    let id := UInt32.ofNat pool.entries.length
    (id, { pool with
      entries := pool.entries ++ [⟨data, UInt32.ofNat s.length⟩]
      index := pool.index ++ [⟨hash (pool.read data s.length), data, s.length, id⟩]
      bytes := pool.bytes + UInt64.ofNat s.length })

/-- Calls of `intern` one after the other: the ids they return, and the pool at the end. -/
def internAll (pool : ChunkPool) : List Bytes → List UInt32 × ChunkPool
  | [] => ([], pool)
  | s :: ss =>
    let (id, pool) := pool.intern hash s
    let (ids, pool) := pool.internAll ss
    (id :: ids, pool)

end Index

/-! ### The storage -/

variable {pool : ChunkPool} {s : Bytes}

/-- The chunks are full-sized, and the last one is the one being filled. -/
structure Layout (pool : ChunkPool) : Prop where
  length_chunk : ∀ c ∈ pool.chunks, c.length = kChunkSize
  used_le : pool.chunkUsed ≤ pool.chunkCap
  cap_eq : pool.chunkCap = if pool.chunks = [] then 0 else kChunkSize

/-- How many bytes of a block have been handed out. -/
def fill (pool : ChunkPool) : Block → ℕ
  | .static => 0
  | .chunk i =>
    if i + 1 < pool.chunks.length then kChunkSize
    else if i + 1 = pool.chunks.length then pool.chunkUsed else 0
  | .large i => (pool.large.getD i []).length

/-- The range has been handed out. -/
def Held (pool : ChunkPool) (data : Address) (size : ℕ) : Prop :=
  data.offset + size ≤ pool.fill data.block

/-- `pool'` has all that was handed out in `pool`, with the same bytes. -/
structure Keeps (pool pool' : ChunkPool) : Prop where
  fill_le : ∀ b, pool.fill b ≤ pool'.fill b
  read_eq : ∀ data size, pool.Held data size → pool'.read data size = pool.read data size

theorem Keeps.refl (pool : ChunkPool) : pool.Keeps pool := ⟨fun _ => le_rfl, fun _ _ _ => rfl⟩

theorem Keeps.held {pool' : ChunkPool} (h : pool.Keeps pool') {data : Address} {size : ℕ}
    (hd : pool.Held data size) : pool'.Held data size :=
  Nat.le_trans hd (h.fill_le data.block)

theorem Keeps.trans {pool' pool'' : ChunkPool} (h : pool.Keeps pool') (h' : pool'.Keeps pool'') :
    pool.Keeps pool'' :=
  ⟨fun b => (h.fill_le b).trans (h'.fill_le b), fun data size hd =>
    (h'.read_eq data size (h.held hd)).trans (h.read_eq data size hd)⟩

theorem Keeps.of_block {pool' : ChunkPool} (hfill : ∀ b, pool.fill b ≤ pool'.fill b)
    (hblock : ∀ b, 0 < pool.fill b → pool'.block b = pool.block b) : pool.Keeps pool' := by
  refine ⟨hfill, fun data size hd => ?_⟩
  rcases Nat.eq_zero_or_pos (pool.fill data.block) with hzero | hpos
  · -- nothing was handed out, so nothing is read
    have hsize : size = 0 := by
      rw [Held, hzero] at hd
      omega
    rw [hsize, read, read, slice, slice, List.take_zero, List.take_zero]
  · rw [read, read, hblock data.block hpos]

theorem Layout.fill_le_length (h : pool.Layout) (b : Block) :
    pool.fill b ≤ (pool.block b).length := by
  cases b with
  | static => exact Nat.zero_le _
  | large i => exact le_rfl
  | chunk i =>
    rw [fill]
    rcases Nat.lt_or_ge i pool.chunks.length with hi | hi
    · have hmem : pool.block (.chunk i) ∈ pool.chunks := by
        rw [block, List.getD_eq_getElem _ _ hi]
        exact List.getElem_mem hi
      have hne : pool.chunks ≠ [] := List.ne_nil_of_mem hmem
      have hused := h.used_le
      rw [h.cap_eq, if_neg hne] at hused
      rw [h.length_chunk _ hmem]
      split_ifs
      · exact le_rfl
      · exact hused
      · exact Nat.zero_le _
    · rw [if_neg (by omega), if_neg (by omega)]
      exact Nat.zero_le _

theorem Layout.rollOver (h : pool.Layout) {n : ℕ} (hpos : 0 < n) (hn : n ≤ kChunkSize) :
    (pool.rollOver n).Layout ∧ pool.Keeps (pool.rollOver n) ∧ (pool.rollOver n).chunks ≠ [] ∧
      (pool.rollOver n).chunkUsed + n ≤ kChunkSize := by
  have hcap := h.cap_eq
  have hused := h.used_le
  rw [ChunkPool.rollOver]
  split_ifs with hfull
  · refine ⟨⟨?_, Nat.zero_le _, by simp⟩, Keeps.of_block ?_ ?_, by simp, by simpa using hn⟩
    · intro c hc
      rcases List.mem_append.1 hc with hc | hc
      · exact h.length_chunk c hc
      · rw [List.mem_singleton.1 hc, List.length_replicate]
    · intro b
      cases b with
      | static => exact le_rfl
      | large i => exact le_rfl
      | chunk i =>
        -- the chunk that was being filled is left with what it has
        have hle : pool.chunkUsed ≤ kChunkSize := by
          split_ifs at hcap <;> omega
        simp only [fill, List.length_append, List.length_singleton]
        split_ifs <;> omega
    · intro b hb
      cases b with
      | static => rfl
      | large i => rfl
      | chunk i =>
        have hi : i < pool.chunks.length := by
          rw [fill] at hb
          split_ifs at hb <;> omega
        rw [block, block, List.getD_append _ _ _ _ hi]
  · have hne : pool.chunks ≠ [] := by
      intro hnil
      rw [if_pos hnil] at hcap
      omega
    rw [if_neg hne] at hcap
    exact ⟨h, Keeps.refl pool, hne, by omega⟩

theorem Layout.append (h : pool.Layout) (hne : pool.chunks ≠ [])
    (hfit : pool.chunkUsed + s.length ≤ kChunkSize) {pool' : ChunkPool}
    (hpool' : pool' =
      { pool with
        chunks := pool.chunks.set (pool.chunks.length - 1)
          (overwrite (pool.chunks.getD (pool.chunks.length - 1) []) pool.chunkUsed s)
        chunkUsed := pool.chunkUsed + s.length }) :
    pool'.Layout ∧ pool.Keeps pool' ∧
      pool'.read ⟨.chunk (pool.chunks.length - 1), pool.chunkUsed⟩ s.length = s := by
  have hlen : 0 < pool.chunks.length := List.length_pos_of_ne_nil hne
  set back := pool.chunks.length - 1 with hback
  have hlt : back < pool.chunks.length := by omega
  have hchunk : (pool.chunks.getD back []).length = kChunkSize := by
    rw [List.getD_eq_getElem _ _ hlt]
    exact h.length_chunk _ (List.getElem_mem hlt)
  have hblock : pool'.block (.chunk back) =
      overwrite (pool.chunks.getD back []) pool.chunkUsed s := by
    rw [hpool', block, List.getD_eq_getElem?_getD, List.getElem?_set_self hlt]
    rfl
  refine ⟨⟨?_, ?_, ?_⟩, ⟨fun b => ?_, fun data size hd => ?_⟩, ?_⟩
  · intro c hc
    rw [hpool'] at hc
    rcases List.mem_or_eq_of_mem_set hc with hc | rfl
    · exact h.length_chunk c hc
    · rw [length_overwrite (by omega), hchunk]
  · rw [hpool']
    change pool.chunkUsed + s.length ≤ pool.chunkCap
    rwa [h.cap_eq, if_neg hne]
  · rw [hpool']
    change pool.chunkCap = _
    rw [h.cap_eq, if_neg hne, if_neg (by simpa using hne)]
  · rw [hpool']
    cases b with
    | static => exact le_rfl
    | large i => exact le_rfl
    | chunk i =>
      simp only [fill, List.length_set]
      split_ifs <;> omega
  · by_cases hb : data.block = .chunk back
    · -- what was handed out of this chunk ends where the new bytes start
      have hle : data.offset + size ≤ pool.chunkUsed := by
        rw [Held, hb, fill, if_neg (by omega), if_pos (by omega)] at hd
        exact hd
      rw [read, read, hb, hblock, slice_overwrite_before (by omega) hle]
      rfl
    · have hsame : pool'.block data.block = pool.block data.block := by
        rw [hpool']
        cases hblk : data.block with
        | static => rfl
        | large i => rfl
        | chunk i =>
          have hne' : back ≠ i := fun hi => hb (by rw [hblk, hi])
          rw [block, block, List.getD_eq_getElem?_getD, List.getElem?_set_ne hne',
            List.getD_eq_getElem?_getD]
      rw [read, read, hsame]
  · rw [read]
    dsimp only
    rw [hblock, slice_overwrite (by omega)]

theorem rollOver_rest (pool : ChunkPool) (n : ℕ) :
    (pool.rollOver n).entries = pool.entries ∧ (pool.rollOver n).index = pool.index ∧
      (pool.rollOver n).bytes = pool.bytes := by
  rw [ChunkPool.rollOver]
  split_ifs <;> exact ⟨rfl, rfl, rfl⟩

theorem store_rest (pool : ChunkPool) (s : Bytes) :
    (pool.store s).2.entries = pool.entries ∧ (pool.store s).2.index = pool.index ∧
      (pool.store s).2.bytes = pool.bytes := by
  rw [store]
  split_ifs
  · exact ⟨rfl, rfl, rfl⟩
  · exact ⟨rfl, rfl, rfl⟩
  · exact pool.rollOver_rest s.length

/-- What `store` gives back for a string: all that was handed out before keeps its bytes, and the
string lies behind it. -/
structure Stored (pool : ChunkPool) (s : Bytes) (r : Address × ChunkPool) : Prop where
  layout : r.2.Layout
  keeps : pool.Keeps r.2
  behind : pool.fill r.1.block ≤ r.1.offset
  held : r.2.Held r.1 s.length
  read_eq : r.2.read r.1 s.length = s

/-- **`store`** puts a string behind everything that was stored before, within its block. -/
theorem store_spec (h : pool.Layout) (s : Bytes) : Stored pool s (pool.store s) := by
  rw [store]
  by_cases hempty : s = []
  · rw [if_pos hempty, hempty]
    exact ⟨h, Keeps.refl pool, le_rfl, le_rfl, rfl⟩
  have hpos : 0 < s.length := List.length_pos_of_ne_nil hempty
  rw [if_neg hempty]
  by_cases hlarge : kChunkSize / 4 < s.length
  · rw [if_pos hlarge]
    set data := overwrite (List.replicate s.length 0) 0 s with hdata
    have hlen : data.length = s.length := by
      rw [hdata, length_overwrite (by simp), List.length_replicate]
    have hnew : (pool.large ++ [data]).getD pool.large.length [] = data := by
      rw [List.getD_append_right _ _ _ _ le_rfl, Nat.sub_self]
      rfl
    refine ⟨⟨h.length_chunk, h.used_le, h.cap_eq⟩, Keeps.of_block ?_ ?_, ?_, ?_, ?_⟩
    · intro b
      cases b with
      | static => exact le_rfl
      | chunk i => exact le_rfl
      | large i =>
        rw [fill, fill]
        rcases Nat.lt_or_ge i pool.large.length with hi | hi
        · rw [List.getD_append _ _ _ _ hi]
        · rw [List.getD_eq_default _ _ hi]
          exact Nat.zero_le _
    · intro b hb
      cases b with
      | static => rfl
      | chunk i => rfl
      | large i =>
        have hi : i < pool.large.length := by
          by_contra hge
          rw [fill, List.getD_eq_default _ _ (Nat.not_lt.1 hge)] at hb
          exact absurd hb (Nat.lt_irrefl 0)
        rw [block, block, List.getD_append _ _ _ _ hi]
    · change (pool.large.getD pool.large.length []).length ≤ 0
      rw [List.getD_eq_default _ _ le_rfl]
      exact le_rfl
    · change 0 + s.length ≤ ((pool.large ++ [data]).getD pool.large.length []).length
      rw [hnew, hlen, Nat.zero_add]
    · change slice ((pool.large ++ [data]).getD pool.large.length []) 0 s.length = s
      rw [hnew, hdata, slice_overwrite (Nat.zero_le _)]
  · rw [if_neg hlarge]
    have hle : s.length ≤ kChunkSize := (Nat.not_lt.1 hlarge).trans (Nat.div_le_self _ _)
    obtain ⟨hroll, hkeeps, hne, hfit⟩ := h.rollOver hpos hle
    obtain ⟨hlayout, hkeeps', hread⟩ := hroll.append hne hfit rfl
    have hlen : 0 < (pool.rollOver s.length).chunks.length := List.length_pos_of_ne_nil hne
    have hlast : (pool.rollOver s.length).chunks.length - 1 + 1 =
        (pool.rollOver s.length).chunks.length := Nat.sub_add_cancel hlen
    refine ⟨hlayout, hkeeps.trans hkeeps', ?_, ?_, hread⟩
    · refine (hkeeps.fill_le _).trans ?_
      change ite _ _ (ite _ _ _) ≤ _
      rw [if_neg (by omega), if_pos hlast]
    · change _ ≤ ite _ _ (ite _ _ _)
      dsimp only
      rw [List.length_set, if_neg (by omega), if_pos hlast]

/-! ### Refinement -/

section Refinement

variable {hash : Bytes → UInt64} {names : StringPool}

/-- The pool holds the strings of `names` under their ids. -/
structure Rep (hash : Bytes → UInt64) (pool : ChunkPool) (names : StringPool) : Prop where
  layout : pool.Layout
  length_entries : pool.entries.length = names.size
  length_index : pool.index.length = names.size
  /-- Entry and key of a string are the same view, and it shows the string. -/
  row : ∀ i < names.size, ∃ data,
    pool.entries[i]? = some ⟨data, UInt32.ofNat (names.view i).length⟩ ∧
    pool.index[i]? =
      some ⟨hash (names.view i), data, (names.view i).length, UInt32.ofNat i⟩ ∧
    pool.Held data (names.view i).length ∧
    pool.read data (names.view i).length = names.view i
  /-- Later strings lie behind earlier ones of the same block. -/
  apart : pool.entries.Pairwise fun e e' =>
    e.data.block = e'.data.block → e.data.offset + e.len.toNat ≤ e'.data.offset
  bytes_eq : pool.bytes = UInt64.ofNat names.strings.flatten.length

theorem rep_empty (hash : Bytes → UInt64) : Rep hash {} StringPool.empty where
  layout := ⟨by simp, le_rfl, rfl⟩
  length_entries := rfl
  length_index := rfl
  row i hi := absurd hi (Nat.not_lt_zero i)
  apart := .nil
  bytes_eq := rfl

theorem Rep.of_mem_index (h : Rep hash pool names) {item : Item} (hitem : item ∈ pool.index) :
    ∃ i < names.size, item.id = UInt32.ofNat i ∧ item.hash = hash (names.view i) ∧
      pool.read item.data item.size = names.view i := by
  obtain ⟨i, hi, rfl⟩ := List.mem_iff_getElem.1 hitem
  have hlt : i < names.size := by rwa [← h.length_index]
  obtain ⟨data, -, hindex, -, hread⟩ := h.row i hlt
  rw [List.getElem?_eq_getElem hi, Option.some.injEq] at hindex
  rw [hindex]
  exact ⟨i, hlt, rfl, rfl, hread⟩

theorem Rep.find_eq (h : Rep hash pool names) (s : Bytes) :
    pool.find hash s = (names.find s).map UInt32.ofNat := by
  have hkey : ∀ item ∈ pool.index, (item.hash == hash s && pool.read item.data item.size == s) →
      ∃ i, names.find s = some i ∧ item.id = UInt32.ofNat i := by
    intro item hitem hp
    obtain ⟨i, hi, hid, -, hread⟩ := h.of_mem_index hitem
    rw [Bool.and_eq_true, beq_iff_eq, beq_iff_eq, hread] at hp
    exact ⟨i, StringPool.find_eq_some_iff.2 ⟨hi, hp.2⟩, hid⟩
  rw [find]
  cases hfind : pool.index.find? fun item =>
      item.hash == hash s && pool.read item.data item.size == s with
  | some item =>
    have hp := List.find?_some hfind
    obtain ⟨i, hi, hid⟩ := hkey item (List.mem_of_find?_eq_some hfind) hp
    rw [hi, Option.map_some, Option.map_some, hid]
  | none =>
    cases hnames : names.find s with
    | none => rfl
    | some i =>
      -- the key of the string would have been found
      obtain ⟨hi, rfl⟩ := StringPool.find_eq_some_iff.1 hnames
      obtain ⟨data, -, hindex, -, hread⟩ := h.row i hi
      have hno := List.find?_eq_none.1 hfind _ (List.mem_of_getElem? hindex)
      simp [hread] at hno

theorem Rep.entry_le_fill (h : Rep hash pool names) {e : Entry} (he : e ∈ pool.entries) :
    e.data.offset + e.len.toNat ≤ pool.fill e.data.block := by
  obtain ⟨i, hi, rfl⟩ := List.mem_iff_getElem.1 he
  obtain ⟨data, hentry, -, hheld, -⟩ := h.row i (by rwa [← h.length_entries])
  rw [List.getElem?_eq_getElem hi, Option.some.injEq] at hentry
  have hlen : (UInt32.ofNat (names.view i).length).toNat ≤ (names.view i).length := by
    rw [UInt32.toNat_ofNat']
    exact Nat.mod_le _ _
  rw [hentry]
  exact (Nat.add_le_add_left hlen _).trans hheld

theorem Rep.add (h : Rep hash pool names) (hnew : names.find s = none) {r : Address × ChunkPool}
    (hr : Stored pool s r) :
    Rep hash
      { r.2 with
        entries := pool.entries ++ [⟨r.1, UInt32.ofNat s.length⟩]
        index := pool.index ++ [⟨hash s, r.1, s.length, UInt32.ofNat names.size⟩]
        bytes := pool.bytes + UInt64.ofNat s.length }
      (names.intern s).2 := by
  obtain ⟨hid, hstrings⟩ := StringPool.intern_of_find_eq_none hnew
  have hsize : (names.intern s).2.size = names.size + 1 := by
    rw [StringPool.size, hstrings, List.length_append]
    rfl
  have hlast : (names.intern s).2.view names.size = s := by
    rw [← hid]
    exact names.view_intern s
  refine ⟨⟨hr.layout.length_chunk, hr.layout.used_le, hr.layout.cap_eq⟩, ?_, ?_, ?_, ?_, ?_⟩
  · rw [hsize, List.length_append, h.length_entries]
    rfl
  · rw [hsize, List.length_append, h.length_index]
    rfl
  · intro i hi
    rw [hsize] at hi
    rcases Nat.lt_succ_iff_lt_or_eq.1 hi with hi | rfl
    · obtain ⟨data, hentry, hindex, hheld, hread⟩ := h.row i hi
      rw [StringPool.view_intern_of_lt hi]
      refine ⟨data, ?_, ?_, hr.keeps.held hheld, (hr.keeps.read_eq _ _ hheld).trans hread⟩
      · rw [List.getElem?_append_left (by rwa [h.length_entries]), hentry]
      · rw [List.getElem?_append_left (by rwa [h.length_index]), hindex]
    · rw [hlast]
      refine ⟨r.1, ?_, ?_, hr.held, hr.read_eq⟩
      · rw [← h.length_entries, List.getElem?_concat_length]
      · rw [← h.length_index, List.getElem?_concat_length, h.length_index]
  · refine List.pairwise_append.2 ⟨h.apart, List.pairwise_singleton _ _, fun e he e' he' => ?_⟩
    rw [List.mem_singleton.1 he']
    intro hblock
    -- what was entered before lies within what had been handed out
    calc e.data.offset + e.len.toNat
        ≤ pool.fill e.data.block := h.entry_le_fill he
      _ = pool.fill r.1.block := congrArg pool.fill hblock
      _ ≤ r.1.offset := hr.behind
  · rw [hstrings, h.bytes_eq, List.flatten_concat, List.length_append, UInt64.ofNat_add]

/-- **`intern` refines the one on lists of strings.** -/
theorem Rep.intern (h : Rep hash pool names) (s : Bytes) :
    (pool.intern hash s).1 = UInt32.ofNat (names.intern s).1 ∧
      Rep hash (pool.intern hash s).2 (names.intern s).2 := by
  have hfind := h.find_eq s
  cases hnames : names.find s with
  | some id =>
    rw [hnames, Option.map_some] at hfind
    rw [ChunkPool.intern, hfind, StringPool.intern_of_find hnames]
    exact ⟨rfl, h⟩
  | none =>
    rw [hnames, Option.map_none] at hfind
    have hstored := store_spec h.layout s
    obtain ⟨hentries, hindex, hbytes⟩ := pool.store_rest s
    have hadd := h.add hnames hstored
    rw [ChunkPool.intern, hfind]
    dsimp only
    rw [hentries, hindex, hbytes, hstored.read_eq, h.length_entries,
      (StringPool.intern_of_find_eq_none hnames).1]
    exact ⟨rfl, hadd⟩

theorem Rep.internAll (h : Rep hash pool names) (ss : List Bytes) :
    (pool.internAll hash ss).1 = (names.internAll ss).1.map UInt32.ofNat ∧
      Rep hash (pool.internAll hash ss).2 (names.internAll ss).2 := by
  induction ss generalizing pool names with
  | nil => exact ⟨rfl, h⟩
  | cons s ss ih =>
    obtain ⟨hid, hrep⟩ := h.intern s
    obtain ⟨hids, hreps⟩ := ih hrep
    refine ⟨?_, hreps⟩
    change (pool.intern hash s).1 :: ((pool.intern hash s).2.internAll hash ss).1 = _
    rw [hid, hids]
    rfl

theorem Rep.size_eq (h : Rep hash pool names) : pool.size = names.size := h.length_entries

/-- An id shows its string, if neither the id nor the length of the string is cut to 32 bits. -/
theorem Rep.view_eq (h : Rep hash pool names) {i : ℕ} (hi : i < names.size) (hid : i < 2 ^ 32)
    (hlen : (names.view i).length < 2 ^ 32) : pool.view (UInt32.ofNat i) = names.view i := by
  obtain ⟨data, hentry, -, -, hread⟩ := h.row i hi
  rw [view, UInt32.toNat_ofNat_of_lt' hid, hentry]
  dsimp only
  rw [UInt32.toNat_ofNat_of_lt' hlen, hread]

theorem Rep.within (h : Rep hash pool names) {e : Entry} (he : e ∈ pool.entries) :
    e.data.offset + e.len.toNat ≤ (pool.block e.data.block).length :=
  (h.entry_le_fill he).trans (h.layout.fill_le_length _)

end Refinement

/-! ### Runs -/

theorem entries_intern (hash : Bytes → UInt64) (pool : ChunkPool) (s : Bytes) :
    pool.entries <+: (pool.intern hash s).2.entries := by
  rw [intern]
  cases pool.find hash s with
  | some id => exact List.prefix_refl _
  | none =>
    dsimp only
    rw [(pool.store_rest s).1]
    exact List.prefix_append _ _

theorem entries_internAll (hash : Bytes → UInt64) (pool : ChunkPool) (ss : List Bytes) :
    pool.entries <+: (pool.internAll hash ss).2.entries := by
  induction ss generalizing pool with
  | nil => exact List.prefix_refl _
  | cons s ss ih => exact (pool.entries_intern hash s).trans (ih _)

theorem internAll_append (hash : Bytes → UInt64) (pool : ChunkPool) (ss tt : List Bytes) :
    (pool.internAll hash (ss ++ tt)).2 = ((pool.internAll hash ss).2.internAll hash tt).2 := by
  induction ss generalizing pool with
  | nil => rfl
  | cons s ss ih => exact ih (pool.intern hash s).2

theorem size_internAll_empty_le (ss : List Bytes) :
    (StringPool.empty.internAll ss).2.size ≤ ss.length :=
  (List.subperm_of_subset (StringPool.nodup _) fun _ =>
    StringPool.mem_internAll_empty.1).length_le

/-- The lengths of the distinct strings add up to what fits a `std::size_t`. -/
theorem sum_length_lt {ss : List Bytes} (hcalls : ss.length < 2 ^ 32)
    (hss : ∀ s ∈ ss, s.length < 2 ^ 32) : ∑ s ∈ ss.toFinset, s.length < 2 ^ 64 := by
  have hcard : ss.toFinset.card ≤ 2 ^ 32 - 1 :=
    (List.toFinset_card_le ss).trans (by omega)
  calc ∑ s ∈ ss.toFinset, s.length
      ≤ ss.toFinset.card * (2 ^ 32 - 1) := by
        refine Finset.sum_le_card_nsmul _ _ _ fun s hs => ?_
        have := hss s (List.mem_toFinset.1 hs)
        omega
    _ ≤ (2 ^ 32 - 1) * (2 ^ 32 - 1) := Nat.mul_le_mul_right _ hcard
    _ < 2 ^ 64 := by decide

/-- **Interning is stable and injective.**  After fewer than `2 ^ 32` calls from a new or cleared
pool, with strings shorter than `2 ^ 32` bytes, every id shows the string it was returned for, no
two strings share an id, the views do not overlap, and `find`, `size` and `bytes` agree with that.
-/
theorem interning_stable (hash : Bytes → UInt64) (start : ChunkPool)
    (hstart : start = {} ∨ ∃ pool : ChunkPool, start = pool.clear) (ss : List Bytes)
    (hcalls : ss.length < 2 ^ 32) (hss : ∀ s ∈ ss, s.length < 2 ^ 32) :
    ∃ ids pool, start.internAll hash ss = (ids, pool) ∧ ids.length = ss.length ∧
      (∀ id s, (id, s) ∈ ids.zip ss → pool.view id = s) ∧
      (∀ k, (start.internAll hash (ss.take k)).2.entries <+: pool.entries) ∧
      pool.entries.Pairwise (fun e e' => e.data.block = e'.data.block →
        e.data.offset + e.len.toNat ≤ e'.data.offset ∨
          e'.data.offset + e'.len.toNat ≤ e.data.offset) ∧
      (∀ e ∈ pool.entries, e.data.offset + e.len.toNat ≤ (pool.block e.data.block).length) ∧
      (∀ c ∈ pool.chunks, c.length = kChunkSize) ∧
      (∀ id s id' s', (id, s) ∈ ids.zip ss → (id', s') ∈ ids.zip ss → (id = id' ↔ s = s')) ∧
      (∀ id, id ∈ ids ↔ id.toNat < pool.size) ∧
      (∀ s, (pool.find hash s).isSome = true ↔ s ∈ ss) ∧
      pool.bytes.toNat = ∑ s ∈ ss.toFinset, s.length := by
  have hclear : start = {} := by
    rcases hstart with rfl | ⟨pool, rfl⟩
    · rfl
    · rfl
  subst hclear
  obtain ⟨hids, hrep⟩ := (rep_empty hash).internAll ss
  have hsize := size_internAll_empty_le ss
  obtain ⟨hspec, -⟩ := StringPool.empty.internAll_spec ss
  have hmem : ∀ t, t ∈ (StringPool.empty.internAll ss).2.strings ↔ t ∈ ss :=
    fun t => StringPool.mem_internAll_empty
  have hused : ∀ i, i ∈ (StringPool.empty.internAll ss).1 ↔
      i < (StringPool.empty.internAll ss).2.size := fun i => StringPool.mem_internAll_ids
  generalize StringPool.empty.internAll ss = r at hids hrep hsize hspec hmem hused
  obtain ⟨nids, names⟩ := r
  dsimp only at hids hrep hsize hspec hmem hused
  have hlt : ∀ {i}, i < names.size → i < 2 ^ 32 := fun hi => hi.trans_le hsize |>.trans hcalls
  -- a call and what it returned, in terms of the strings of the pool
  have hrow : ∀ id s, (id, s) ∈ (ChunkPool.internAll hash {} ss).1.zip ss →
      ∃ i < names.size, id = UInt32.ofNat i ∧ names.view i = s := by
    intro id s hzip
    rw [hids, List.zip_map_left, List.mem_map] at hzip
    obtain ⟨⟨i, s'⟩, hzip, heq⟩ := hzip
    cases heq
    obtain ⟨hi, hview⟩ := (List.forall₂_iff_zip.1 hspec).2 hzip
    exact ⟨i, hi, rfl, hview⟩
  refine ⟨_, _, rfl, ?_, ?_, ?_, ?_, fun e => hrep.within, hrep.layout.length_chunk, ?_, ?_, ?_, ?_⟩
  · rw [hids, List.length_map, hspec.length_eq]
  · intro id s hzip
    obtain ⟨i, hi, rfl, rfl⟩ := hrow id s hzip
    exact hrep.view_eq hi (hlt hi) (hss _ (List.of_mem_zip hzip).2)
  · intro k
    have happ := internAll_append hash {} (ss.take k) (ss.drop k)
    rw [List.take_append_drop] at happ
    rw [happ]
    exact entries_internAll hash _ _
  · exact hrep.apart.imp fun hlow hblock => .inl (hlow hblock)
  · intro id s id' s' hzip hzip'
    obtain ⟨i, hi, rfl, rfl⟩ := hrow id s hzip
    obtain ⟨i', hi', rfl, rfl⟩ := hrow id' s' hzip'
    rw [← UInt32.toNat_inj, UInt32.toNat_ofNat_of_lt' (hlt hi), UInt32.toNat_ofNat_of_lt' (hlt hi')]
    exact ⟨fun h => h ▸ rfl, StringPool.view_injective hi hi'⟩
  · intro id
    rw [hids, hrep.size_eq, List.mem_map]
    constructor
    · rintro ⟨i, hi, rfl⟩
      have hi := (hused i).1 hi
      rwa [UInt32.toNat_ofNat_of_lt' (hlt hi)]
    · exact fun hid => ⟨id.toNat, (hused _).2 hid, UInt32.ofNat_toNat⟩
  · intro s
    rw [hrep.find_eq, Option.isSome_map, Option.isSome_iff_exists, ← hmem]
    simp only [StringPool.find_eq_some_iff, StringPool.mem_strings_iff]
  · have hfin : names.strings.toFinset = ss.toFinset := by
      ext t
      rw [List.mem_toFinset, List.mem_toFinset, hmem]
    have hsum : names.strings.flatten.length = ∑ s ∈ ss.toFinset, s.length := by
      rw [← hfin, List.sum_toFinset _ names.nodup, List.length_flatten]
    rw [hrep.bytes_eq, hsum, UInt64.toNat_ofNat_of_lt' (sum_length_lt hcalls hss)]

/-- Two names and the empty one, with a hash that tells nothing apart. -/
theorem interning_stable_repeated :
    ∃ ids pool, ChunkPool.internAll (fun _ => 0) {} [[0x61], [], [0x61], [0x62]] = (ids, pool) ∧
      (∀ id s, (id, s) ∈ ids.zip [[0x61], [], [0x61], [0x62]] → pool.view id = s) ∧
      pool.bytes.toNat = 2 := by
  obtain ⟨ids, pool, hrun, -, hview, -, -, -, -, -, -, -, hbytes⟩ :=
    interning_stable (fun _ => 0) {} (.inl rfl) [[0x61], [], [0x61], [0x62]] (by decide) (by decide)
  exact ⟨ids, pool, hrun, hview, hbytes.trans (by decide)⟩

end ChunkPool

end WslDrive
