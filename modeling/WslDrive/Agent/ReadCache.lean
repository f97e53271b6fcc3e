import WslDrive.Agent.Spelling
import WslDrive.Lib.Recency

/-!
# The read cache

The client keeps the contents of small files in a map, the keys of the map in a list with the most
recently used one first, and the sum of the sizes of the buffers.  An entry of the map holds the
position of its key, a node of the list.  Every function here runs under `rcache_mu_`.

* `Consistent` — the map, the list and the sum agree;
* `Evicted`, `Erased` — what the calls that evict and the calls that erase leave;
* `readCache_invariant` — the invariant after every sequence of calls.
-/

namespace WslDrive

open Path

namespace ReadCache

/-- `CacheEntry`, with the position of its key in the list. -/
structure CacheEntry where
  mtimeNs : Int64
  size : UInt64
  lru : ℕ
  data : Bytes
  deriving DecidableEq, Repr

end ReadCache

open ReadCache in
/-- The content cache with its list of recently used keys, and the link cache. -/
structure ReadCache where
  rcache : AList fun _ : Bytes => CacheEntry := ∅
  /-- The nodes of the list with their keys, most recently used first. -/
  lru : List (ℕ × Bytes) := []
  bytes : ℕ := 0
  /-- 256 MiB. -/
  cap : ℕ := 268435456
  linkCache : AList fun _ : Bytes => Bytes := ∅
  /-- A name for the next node. -/
  nextNode : ℕ := 0

namespace ReadCache

/-! ### The calls -/

/-- `cache_erase`; `key` is found with the entry `e`. -/
def cacheErase (s : ReadCache) (key : Bytes) (e : CacheEntry) : ReadCache :=
  { s with
    bytes := s.bytes - e.data.length
    lru := s.lru.filter fun n => n.1 ≠ e.lru
    rcache := s.rcache.erase key }

/-- Erases the entry of a key, if there is one. -/
def eraseFound (s : ReadCache) (key : Bytes) : ReadCache :=
  match s.rcache.lookup key with
  | some e => s.cacheErase key e
  | none => s

/-- The loop of `evict_locked`; every round takes a node off the list. -/
def evictLoop : ℕ → ReadCache → ReadCache
  | 0, s => s
  | fuel + 1, s =>
    if s.bytes > s.cap ∧ s.rcache.keys.length > 1 then
      match s.lru.getLast? with
      | none => s
      | some (_, key) =>
        match s.rcache.lookup key with
        | none => evictLoop fuel { s with lru := s.lru.dropLast }
        | some e => evictLoop fuel (s.cacheErase key e)
    else s

/-- `evict_locked`. -/
def evictLocked (s : ReadCache) : ReadCache := evictLoop s.lru.length s

/-- `set_read_cache_limit`. -/
def setReadCacheLimit (s : ReadCache) (bytes : ℕ) : ReadCache := evictLocked { s with cap := bytes }

/-- `cache_put` up to `evict_locked`. -/
def insertEntry (s : ReadCache) (path : Bytes) (mtimeNs : Int64) (size : UInt64) (data : Bytes) :
    ReadCache :=
  let s := s.eraseFound path
  { s with
    bytes := s.bytes + data.length
    lru := (s.nextNode, path) :: s.lru
    rcache := s.rcache.insert path ⟨mtimeNs, size, s.nextNode, data⟩
    nextNode := s.nextNode + 1 }

/-- `cache_put`. -/
def cachePut (s : ReadCache) (path : Bytes) (mtimeNs : Int64) (size : UInt64) (data : Bytes) :
    ReadCache :=
  evictLocked (s.insertEntry path mtimeNs size data)

/-- The entry that `read` and `read_into` may use: the one of the version in the mirror. -/
def find (s : ReadCache) (key : Bytes) (mtimeNs : Int64) (size : UInt64) : Option CacheEntry :=
  (s.rcache.lookup key).filter fun e => e.mtimeNs = mtimeNs ∧ e.size = size

/-- A read in the cache; a hit moves its node to the front. -/
def readCached (s : ReadCache) (key : Bytes) (mtimeNs : Int64) (size : UInt64) : ReadCache :=
  match s.find key mtimeNs size with
  | some e =>
    { s with lru := (s.lru.filter fun n => n.1 = e.lru) ++ s.lru.filter fun n => n.1 ≠ e.lru }
  | none => s

/-- `drop_cached`. -/
def dropCached (s : ReadCache) (path : Bytes) : ReadCache :=
  let s := s.eraseFound path
  { s with linkCache := s.linkCache.erase path }

/-- `under` in `drop_cached_prefix`; the empty path is the root of the served tree. -/
def under (dir key : Bytes) : Bool :=
  dir.isEmpty || key == dir || (dir ++ [slash]).isPrefixOf key

theorem under_iff (dir key : Bytes) :
    under dir key = true ↔ dir = [] ∨ key = dir ∨ dir ++ [slash] <+: key := by
  simp [under, or_assoc]

/-- `drop_cached_prefix`. -/
def dropCachedPrefix (s : ReadCache) (dir : Bytes) : ReadCache :=
  let s' := s.rcache.keys.foldl (fun s key => if under dir key then s.eraseFound key else s) s
  { s' with
    linkCache := s.linkCache.keys.foldl (fun l key => if under dir key then l.erase key else l)
      s.linkCache }

/-- The end of `apply_invalidation`, for the paths of the batch. -/
def dropInvalidated (s : ReadCache) (paths : List Bytes) (rescan : Bool) : ReadCache :=
  let s := paths.foldl dropCached s
  if rescan then { s with linkCache := ∅ } else s

/-- What the rest of the client sees. -/
def caches (s : ReadCache) : RemoteRoot.Caches where
  rcache key := (s.rcache.lookup key).map fun e => ⟨e.mtimeNs, e.size, e.data⟩
  linkCache key := s.linkCache.lookup key

/-- The keys in the order of the list. -/
def keys (s : ReadCache) : List Bytes := s.lru.map Prod.snd

/-- The size of the buffer of a key. -/
def weight (s : ReadCache) (key : Bytes) : ℕ := ((s.rcache.lookup key).map (·.data.length)).getD 0

/-! ### What is kept in step -/

/-- The invariant: map, list and byte count agree. -/
structure Consistent (s : ReadCache) : Prop where
  nodes : (s.lru.map Prod.fst).Nodup
  fresh : ∀ n ∈ s.lru, n.1 < s.nextNode
  keys_nodup : s.keys.Nodup
  mem_keys : ∀ key, key ∈ s.keys ↔ key ∈ s.rcache
  position : ∀ key e, s.rcache.lookup key = some e → (e.lru, key) ∈ s.lru
  bytes : s.bytes = (s.keys.map s.weight).sum

variable {s : ReadCache} {key : Bytes} {e : CacheEntry}

theorem Consistent.empty : Consistent {} where
  nodes := List.nodup_nil
  fresh := List.forall_mem_nil _
  keys_nodup := List.nodup_nil
  mem_keys key := ⟨fun h => absurd h List.not_mem_nil, fun h => absurd h (AList.notMem_empty key)⟩
  position key e h := by cases h
  bytes := rfl

theorem Consistent.node_iff (h : s.Consistent) (he : s.rcache.lookup key = some e) {n : ℕ × Bytes}
    (hn : n ∈ s.lru) : n.1 = e.lru ↔ n.2 = key := by
  have hpos := h.position key e he
  constructor
  · intro heq
    exact congrArg Prod.snd (List.inj_on_of_nodup_map h.nodes hn hpos heq)
  · intro heq
    exact congrArg Prod.fst (List.inj_on_of_nodup_map h.keys_nodup hn hpos heq)

theorem Consistent.filter_keys (h : s.Consistent) (he : s.rcache.lookup key = some e) :
    (s.lru.filter fun n => n.1 ≠ e.lru).map Prod.snd = s.keys.filter (· ≠ key) := by
  rw [keys, List.filter_map]
  refine congrArg _ (List.filter_congr fun n hn => ?_)
  simp [h.node_iff he hn]

theorem keys_cacheErase (h : s.Consistent) (he : s.rcache.lookup key = some e) :
    (s.cacheErase key e).keys = s.keys.filter (· ≠ key) := h.filter_keys he

theorem Consistent.cacheErase (h : s.Consistent) (he : s.rcache.lookup key = some e) :
    (s.cacheErase key e).Consistent := by
  have hsub : (s.lru.filter fun n => n.1 ≠ e.lru).Sublist s.lru := List.filter_sublist
  refine ⟨h.nodes.sublist (hsub.map _), fun n hn => h.fresh n (hsub.subset hn),
    h.keys_nodup.sublist (hsub.map _), fun k => ?_, fun k d hd => ?_, ?_⟩
  · rw [keys_cacheErase h he, List.mem_filter, h.mem_keys]
    simp [ReadCache.cacheErase, AList.mem_erase, and_comm]
  · by_cases hk : k = key
    · subst hk
      simp [ReadCache.cacheErase] at hd
    · rw [ReadCache.cacheErase, AList.lookup_erase_ne hk] at hd
      refine List.mem_filter.2 ⟨h.position k d hd, ?_⟩
      simp [h.node_iff he (h.position k d hd), hk]
  · have hmem : key ∈ s.keys := (h.mem_keys key).2 (AList.lookup_isSome.1 (by rw [he]; rfl))
    have hsum := Recency.sum_filter_ne h.keys_nodup hmem s.weight
    have hweight : s.weight key = e.data.length := by simp [weight, he]
    have hrest : (s.keys.filter (· ≠ key)).map (s.cacheErase key e).weight =
        (s.keys.filter (· ≠ key)).map s.weight := by
      refine List.map_congr_left fun k hk => ?_
      have hne : k ≠ key := by simpa using (List.mem_filter.1 hk).2
      rw [weight, weight, ReadCache.cacheErase, AList.lookup_erase_ne hne]
    rw [keys_cacheErase h he, hrest]
    have hbytes := h.bytes
    show s.bytes - e.data.length = _
    omega

/-- What `eraseFound` leaves: the other entries, and the other keys in their order. -/
structure Erased (s s' : ReadCache) (gone : Bytes → Bool) : Prop where
  consistent : s'.Consistent
  keys : s'.keys = s.keys.filter fun k => !gone k
  lookup : ∀ k, s'.rcache.lookup k = if gone k then none else s.rcache.lookup k

theorem Consistent.eraseFound (h : s.Consistent) (key : Bytes) :
    Erased s (s.eraseFound key) (· == key) := by
  rw [ReadCache.eraseFound]
  cases he : s.rcache.lookup key with
  | some e =>
    refine ⟨h.cacheErase he, ?_, fun k => ?_⟩
    · rw [keys_cacheErase h he]
      exact List.filter_congr fun k _ => by by_cases hk : k = key <;> simp [hk]
    · by_cases hk : k = key
      · subst hk
        simp [ReadCache.cacheErase]
      · simp [ReadCache.cacheErase, hk, AList.lookup_erase_ne]
  | none =>
    have hnot : key ∉ s.keys := fun hmem =>
      AList.lookup_eq_none.1 he ((h.mem_keys key).1 hmem)
    refine ⟨h, ?_, fun k => ?_⟩
    · refine (List.filter_eq_self.2 fun k hk => ?_).symm
      have hne : k ≠ key := fun heq => hnot (heq ▸ hk)
      simp [hne]
    · by_cases hk : k = key
      · subst hk
        simp [he]
      · simp [hk]

theorem Erased.refl (h : s.Consistent) : Erased s s fun _ => false where
  consistent := h
  keys := by simp
  lookup := by simp

theorem Erased.trans {s' s'' : ReadCache} {gone gone' : Bytes → Bool} (h : Erased s s' gone)
    (h' : Erased s' s'' gone') : Erased s s'' fun k => gone k || gone' k where
  consistent := h'.consistent
  keys := by
    rw [h'.keys, h.keys, List.filter_filter]
    exact List.filter_congr fun k _ => by cases gone k <;> cases gone' k <;> rfl
  lookup k := by
    rw [h'.lookup, h.lookup]
    cases gone k <;> cases gone' k <;> rfl

theorem Consistent.eraseKeys (h : s.Consistent) (P : Bytes → Bool) (ks : List Bytes) :
    Erased s (ks.foldl (fun s k => if P k then s.eraseFound k else s) s)
      fun k => ks.any fun k' => P k' && k == k' := by
  induction ks generalizing s with
  | nil => exact .refl h
  | cons k ks ih =>
    rw [List.foldl_cons]
    cases hP : P k with
    | true =>
      have hone := h.eraseFound k
      have hall := hone.trans (ih hone.consistent)
      simpa [hP] using hall
    | false => simpa [hP] using ih h

theorem Consistent.congr {s' : ReadCache} (h : s.Consistent) (hlru : s'.lru = s.lru)
    (hmap : s'.rcache = s.rcache) (hbytes : s'.bytes = s.bytes) (hnode : s'.nextNode = s.nextNode) :
    s'.Consistent := by
  obtain ⟨rcache, lru, bytes, cap, links, node⟩ := s
  obtain ⟨rcache', lru', bytes', cap', links', node'⟩ := s'
  obtain ⟨rfl, rfl, rfl, rfl⟩ : lru' = lru ∧ rcache' = rcache ∧ bytes' = bytes ∧ node' = node :=
    ⟨hlru, hmap, hbytes, hnode⟩
  exact ⟨h.nodes, h.fresh, h.keys_nodup, h.mem_keys, h.position, h.bytes⟩

theorem Erased.congr {s' s'' : ReadCache} {gone : Bytes → Bool} (h : Erased s s' gone)
    (hlru : s''.lru = s'.lru) (hmap : s''.rcache = s'.rcache) (hbytes : s''.bytes = s'.bytes)
    (hnode : s''.nextNode = s'.nextNode) : Erased s s'' gone where
  consistent := h.consistent.congr hlru hmap hbytes hnode
  keys := by rw [ReadCache.keys, hlru, ← h.keys, ReadCache.keys]
  lookup k := by rw [hmap, h.lookup]

theorem Consistent.dropCached (h : s.Consistent) (path : Bytes) :
    Erased s (s.dropCached path) (· == path) :=
  (h.eraseFound path).congr rfl rfl rfl rfl

theorem Consistent.dropCachedPrefix (h : s.Consistent) (dir : Bytes) :
    Erased s (s.dropCachedPrefix dir) (under dir) := by
  have hkeys : Erased s (s.dropCachedPrefix dir) _ :=
    (h.eraseKeys (under dir) s.rcache.keys).congr rfl rfl rfl rfl
  -- The loop runs over all keys of the map, so what is under `dir` and not erased is not there.
  have hany : ∀ k, k ∈ s.rcache →
      (s.rcache.keys.any fun k' => under dir k' && k == k') = under dir k := by
    intro k hk
    rw [Bool.eq_iff_iff, List.any_eq_true]
    constructor
    · rintro ⟨k', -, hk'⟩
      rw [Bool.and_eq_true, beq_iff_eq] at hk'
      exact hk'.2 ▸ hk'.1
    · intro hunder
      exact ⟨k, AList.mem_keys.1 hk, by rw [hunder, beq_self_eq_true]; rfl⟩
  refine ⟨hkeys.consistent, ?_, fun k => ?_⟩
  · rw [hkeys.keys]
    exact List.filter_congr fun k hk => by rw [hany k ((h.mem_keys k).1 hk)]
  · rw [hkeys.lookup]
    by_cases hk : k ∈ s.rcache
    · rw [hany k hk]
    · rw [AList.lookup_eq_none.2 hk, ite_self, ite_self]

theorem Consistent.dropInvalidated (h : s.Consistent) (paths : List Bytes) (rescan : Bool) :
    Erased s (s.dropInvalidated paths rescan) fun k => paths.any (k == ·) := by
  have hloop : Erased s (paths.foldl ReadCache.dropCached s) fun k => paths.any (k == ·) := by
    clear rescan
    induction paths generalizing s with
    | nil => exact .refl h
    | cons path paths ih =>
      have hone := h.dropCached path
      simpa using hone.trans (ih hone.consistent)
  cases rescan with
  | true => exact hloop.congr rfl rfl rfl rfl
  | false => exact hloop

/-! ### Putting and evicting -/

theorem Consistent.insertEntry (h : s.Consistent) (path : Bytes) (mtimeNs : Int64) (size : UInt64)
    (data : Bytes) : (s.insertEntry path mtimeNs size data).Consistent := by
  obtain ⟨hcon, hkeys, hlookup⟩ := h.eraseFound path
  rw [ReadCache.insertEntry]
  generalize s.eraseFound path = s' at hcon hkeys hlookup
  have habsent : path ∉ s'.keys := by simp [hkeys]
  have hkeys' : ∀ r b c l n, (⟨r, (s'.nextNode, path) :: s'.lru, b, c, l, n⟩ : ReadCache).keys =
      path :: s'.keys := fun _ _ _ _ _ => rfl
  refine ⟨?_, ?_, ?_, fun k => ?_, fun k d hd => ?_, ?_⟩
  · refine List.nodup_cons.2 ⟨fun hmem => ?_, hcon.nodes⟩
    obtain ⟨n, hn, heq⟩ := List.mem_map.1 hmem
    have := hcon.fresh n hn
    dsimp only at heq
    omega
  · intro n hn
    rcases List.mem_cons.1 hn with rfl | hn
    · exact Nat.lt_succ_self _
    · exact Nat.lt_succ_of_lt (hcon.fresh n hn)
  · exact List.nodup_cons.2 ⟨habsent, hcon.keys_nodup⟩
  · rw [hkeys', List.mem_cons, AList.mem_insert, hcon.mem_keys]
  · by_cases hk : k = path
    · subst hk
      rw [AList.lookup_insert] at hd
      cases hd
      exact List.mem_cons_self
    · rw [AList.lookup_insert_ne hk] at hd
      exact List.mem_cons_of_mem _ (hcon.position k d hd)
  · rw [hkeys', List.map_cons, List.sum_cons]
    dsimp only
    have hnew : weight ⟨s'.rcache.insert path ⟨mtimeNs, size, s'.nextNode, data⟩,
        (s'.nextNode, path) :: s'.lru, s'.bytes + data.length, s'.cap, s'.linkCache,
        s'.nextNode + 1⟩ path = data.length := by simp [weight]
    have hold : s'.keys.map (weight ⟨s'.rcache.insert path ⟨mtimeNs, size, s'.nextNode, data⟩,
        (s'.nextNode, path) :: s'.lru, s'.bytes + data.length, s'.cap, s'.linkCache,
        s'.nextNode + 1⟩) = s'.keys.map s'.weight := by
      refine List.map_congr_left fun k hk => ?_
      have hne : k ≠ path := fun heq => habsent (heq ▸ hk)
      simp [weight, AList.lookup_insert_ne hne]
    rw [hnew, hold, hcon.bytes, Nat.add_comm]

theorem Consistent.keys_perm (h : s.Consistent) : s.rcache.keys.Perm s.keys :=
  (List.perm_ext_iff_of_nodup s.rcache.keys_nodup h.keys_nodup).2 fun k =>
    AList.mem_keys.symm.trans (h.mem_keys k).symm

/-- What eviction leaves: the front of the list, with the entries as they were. -/
structure Evicted (s s' : ReadCache) : Prop where
  consistent : s'.Consistent
  cap : s'.cap = s.cap
  sheds : Recency.Sheds s.weight s.cap s.keys s'.keys
  lookup : ∀ k ∈ s'.keys, s'.rcache.lookup k = s.rcache.lookup k

theorem Consistent.evictLoop {fuel : ℕ} (h : s.Consistent) (hfuel : s.lru.length ≤ fuel) :
    Evicted s (evictLoop fuel s) := by
  induction fuel generalizing s with
  | zero =>
    have hlen : s.keys.length ≤ 1 := by
      rw [keys, List.length_map]
      omega
    exact ⟨h, rfl, .refl (.inr hlen), fun _ _ => rfl⟩
  | succ fuel ih =>
    have hperm := h.keys_perm.length_eq
    rw [ReadCache.evictLoop]
    by_cases hover : s.bytes > s.cap ∧ s.rcache.keys.length > 1
    · rw [if_pos hover]
      have hlen : 1 < s.keys.length := hperm ▸ hover.2
      cases hlast : s.lru.getLast? with
      | none =>
        rw [List.getLast?_eq_none_iff] at hlast
        rw [keys, hlast] at hlen
        simp at hlen
      | some n =>
        have hkey : s.keys.getLast? = some n.2 := by rw [keys, List.getLast?_map, hlast]; rfl
        cases he : s.rcache.lookup n.2 with
        | none =>
          -- Every key of the list is in the map.
          have hmem := (h.mem_keys n.2).1 (List.mem_of_getLast? hkey)
          exact absurd hmem (AList.lookup_eq_none.1 he)
        | some e =>
          dsimp only
          rw [he]
          have hdrop : (s.cacheErase n.2 e).keys = s.keys.dropLast := by
            rw [keys_cacheErase h he, Recency.filter_ne_getLast h.keys_nodup hkey]
          have hne : ∀ k ∈ s.keys.dropLast, k ≠ n.2 := by
            rw [← Recency.filter_ne_getLast h.keys_nodup hkey]
            intro k hk
            simpa using (List.mem_filter.1 hk).2
          have hsame : ∀ k ∈ s.keys.dropLast,
              (s.cacheErase n.2 e).rcache.lookup k = s.rcache.lookup k := fun k hk =>
            AList.lookup_erase_ne (hne k hk)
          have hshort : (s.cacheErase n.2 e).lru.length ≤ fuel := by
            have := congrArg List.length hdrop
            rw [keys, keys, List.length_map, List.length_dropLast, List.length_map] at this
            omega
          obtain ⟨hcon, hcap, hsheds, hlookup⟩ := ih (h.cacheErase he) hshort
          rw [hdrop] at hsheds
          refine ⟨hcon, hcap, .dropLast ?_ hlen (hsheds.congr fun k hk => ?_), fun k hk => ?_⟩
          · exact h.bytes ▸ hover.1
          · rw [weight, weight, hsame k hk]
          · rw [hlookup k hk, hsame k (hsheds.front.subset hk)]
    · rw [if_neg hover]
      refine ⟨h, rfl, .refl ?_, fun _ _ => rfl⟩
      rw [← h.bytes, ← hperm]
      omega

theorem Consistent.evictLocked (h : s.Consistent) : Evicted s s.evictLocked :=
  h.evictLoop (Nat.le_refl _)

theorem keys_insertEntry (h : s.Consistent) (path : Bytes) (mtimeNs : Int64) (size : UInt64)
    (data : Bytes) :
    (s.insertEntry path mtimeNs size data).keys = path :: s.keys.filter (· ≠ path) := by
  have hkeys := (h.eraseFound path).keys
  have hcons : (s.insertEntry path mtimeNs size data).keys = path :: (s.eraseFound path).keys := rfl
  rw [hcons, hkeys]
  refine congrArg _ (List.filter_congr fun k _ => ?_)
  by_cases hk : k = path <;> simp [hk]

/-- **`cache_put`** puts the entry first, where it stays, and evicts from the end. -/
theorem Consistent.cachePut (h : s.Consistent) (path : Bytes) (mtimeNs : Int64) (size : UInt64)
    (data : Bytes) :
    Evicted (s.insertEntry path mtimeNs size data) (s.cachePut path mtimeNs size data) :=
  (h.insertEntry path mtimeNs size data).evictLocked

theorem Consistent.setReadCacheLimit (h : s.Consistent) (bytes : ℕ) :
    Evicted { s with cap := bytes } (s.setReadCacheLimit bytes) :=
  (show Consistent { s with cap := bytes } from h.congr rfl rfl rfl rfl).evictLocked

theorem Consistent.readCached (h : s.Consistent) (key : Bytes) (mtimeNs : Int64) (size : UInt64) :
    (s.readCached key mtimeNs size).Consistent ∧
      (s.readCached key mtimeNs size).keys =
        if (s.find key mtimeNs size).isSome then key :: s.keys.filter (· ≠ key) else s.keys := by
  rw [ReadCache.readCached]
  cases hfind : s.find key mtimeNs size with
  | none => exact ⟨h, rfl⟩
  | some e =>
    have he : s.rcache.lookup key = some e := (Option.filter_eq_some_iff.1 hfind).1
    have hperm : ((s.lru.filter fun n => n.1 = e.lru) ++ s.lru.filter fun n => n.1 ≠ e.lru).Perm
        s.lru := by
      simpa using List.filter_append_perm (fun n : ℕ × Bytes => n.1 = e.lru) s.lru
    have hfront : (s.lru.filter fun n => n.1 = e.lru).map Prod.snd = [key] := by
      have hfilter : (s.lru.filter fun n => n.1 = e.lru).map Prod.snd =
          s.keys.filter (· = key) := by
        rw [keys, List.filter_map]
        refine congrArg _ (List.filter_congr fun n hn => ?_)
        simp [h.node_iff he hn]
      have hmem : key ∈ s.keys := (h.mem_keys key).2 (AList.lookup_isSome.1 (by rw [he]; rfl))
      rw [hfilter, Recency.filter_eq_singleton h.keys_nodup hmem]
    refine ⟨⟨?_, ?_, ?_, ?_, ?_, ?_⟩, ?_⟩
    · exact (hperm.map _).nodup_iff.2 h.nodes
    · exact fun n hn => h.fresh n (hperm.mem_iff.1 hn)
    · exact (hperm.map _).nodup_iff.2 h.keys_nodup
    · exact fun k => ((hperm.map Prod.snd).mem_iff).trans (h.mem_keys k)
    · exact fun k d hd => hperm.mem_iff.2 (h.position k d hd)
    · exact h.bytes.trans ((hperm.map Prod.snd).map s.weight).sum_eq.symm
    · rw [keys, List.map_append, hfront, h.filter_keys he]
      rfl

/-! ### Runs -/

/-- The calls that use the cache. -/
inductive Op where
  | cachePut (path : Bytes) (mtimeNs : Int64) (size : UInt64) (data : Bytes)
  /-- A `read` or `read_into` of a file that the mirror has with this version. -/
  | read (key : Bytes) (mtimeNs : Int64) (size : UInt64)
  | dropCached (path : Bytes)
  | dropCachedPrefix (dir : Bytes)
  | setReadCacheLimit (bytes : ℕ)
  /-- The paths of a batch of invalidations. -/
  | invalidate (paths : List Bytes) (rescan : Bool)
  deriving DecidableEq

/-- One operation. -/
def step (s : ReadCache) : Op → ReadCache
  | .cachePut path mtimeNs size data => s.cachePut path mtimeNs size data
  | .read key mtimeNs size => s.readCached key mtimeNs size
  | .dropCached path => s.dropCached path
  | .dropCachedPrefix dir => s.dropCachedPrefix dir
  | .setReadCacheLimit bytes => s.setReadCacheLimit bytes
  | .invalidate paths rescan => s.dropInvalidated paths rescan

/-- The key that a call puts or hits. -/
def Op.use (s : ReadCache) : Op → List Bytes
  | .cachePut path _ _ _ => [path]
  | .read key mtimeNs size => if (s.find key mtimeNs size).isSome then [key] else []
  | _ => []

/-- The cache after some calls, and the keys they used, the latest first. -/
def run (ops : List Op) : ReadCache × List Bytes :=
  ops.foldl (fun r op => (r.1.step op, op.use r.1 ++ r.2)) ({}, [])

theorem Consistent.step (h : s.Consistent) (op : Op) : (s.step op).Consistent := by
  cases op with
  | cachePut path mtimeNs size data => exact (h.cachePut path mtimeNs size data).consistent
  | read key mtimeNs size => exact (h.readCached key mtimeNs size).1
  | dropCached path => exact (h.dropCached path).consistent
  | dropCachedPrefix dir => exact (h.dropCachedPrefix dir).consistent
  | setReadCacheLimit bytes => exact (h.setReadCacheLimit bytes).consistent
  | invalidate paths rescan => exact (h.dropInvalidated paths rescan).consistent

theorem Consistent.latest_step {uses : List Bytes} (h : s.Consistent)
    (hl : Recency.Latest uses s.keys) (op : Op) :
    Recency.Latest (op.use s ++ uses) (s.step op).keys := by
  have herased : ∀ {s' gone}, Erased s s' gone → Recency.Latest uses s'.keys := by
    intro s' gone he
    rw [he.keys]
    exact hl.sublist List.filter_sublist
  cases op with
  | cachePut path mtimeNs size data =>
    have hput := h.cachePut path mtimeNs size data
    refine (hl.touch path).sublist ?_
    rw [← keys_insertEntry h path mtimeNs size data]
    exact hput.sheds.front.sublist
  | read key mtimeNs size =>
    obtain ⟨-, hkeys⟩ := h.readCached key mtimeNs size
    rw [ReadCache.step, Op.use, hkeys]
    split_ifs
    · exact hl.touch key
    · exact hl
  | dropCached path => exact herased (h.dropCached path)
  | dropCachedPrefix dir => exact herased (h.dropCachedPrefix dir)
  | setReadCacheLimit bytes => exact hl.sublist (h.setReadCacheLimit bytes).sheds.front.sublist
  | invalidate paths rescan => exact herased (h.dropInvalidated paths rescan)

theorem run_consistent (ops : List Op) :
    (run ops).1.Consistent ∧ Recency.Latest (run ops).2 (run ops).1.keys := by
  induction ops using List.reverseRecOn with
  | nil => exact ⟨.empty, .nil⟩
  | append_singleton ops op ih =>
    rw [run, List.foldl_append]
    exact ⟨ih.1.step op, ih.1.latest_step ih.2 op⟩

theorem Consistent.bytes_eq (h : s.Consistent) :
    s.bytes = (s.rcache.entries.map fun e => e.2.data.length).sum := by
  rw [h.bytes, ← (h.keys_perm.map s.weight).sum_eq, AList.keys, List.keys, List.map_map]
  congr 1
  refine List.map_congr_left fun e he => ?_
  have hlookup : s.rcache.lookup e.1 = some e.2 := AList.mem_lookup_iff.2 he
  simp [weight, hlookup]

theorem Evicted.bounded {s' : ReadCache} (h : Evicted s s') :
    s'.bytes ≤ s'.cap ∨ s'.rcache.keys.length = 1 := by
  have hsum : (s'.keys.map s.weight).sum = s'.bytes := by
    rw [h.consistent.bytes]
    congr 1
    refine List.map_congr_left fun k hk => ?_
    rw [weight, weight, h.lookup k hk]
  have hlen := h.consistent.keys_perm.length_eq
  rcases h.sheds.fits with hfits | hone
  · exact .inl (by rw [h.cap, ← hsum]; exact hfits)
  · rcases Nat.lt_or_ge 0 s'.keys.length with hpos | hnil
    · exact .inr (by omega)
    · have hnil' : s'.keys = [] := List.length_eq_zero_iff.1 (by omega)
      rw [hnil'] at hsum
      exact .inl (by rw [← hsum]; exact Nat.zero_le _)

/-- **The invariant of the read cache.**  After every sequence of calls map, list and byte count
agree, and the list is in the order of latest use.  Evictions go from its end until the budget is
met or one entry is left, never the entry just put, and `drop_cached_prefix` removes what is at or
below a path. -/
theorem readCache_invariant (ops : List Op) :
    let s := (run ops).1
    s.keys.Nodup ∧ (∀ key, key ∈ s.keys ↔ key ∈ s.rcache) ∧ (s.lru.map Prod.fst).Nodup ∧
    (∀ key e, s.rcache.lookup key = some e → (e.lru, key) ∈ s.lru) ∧
    s.bytes = (s.rcache.entries.map fun e => e.2.data.length).sum ∧
    Recency.Latest (run ops).2 s.keys ∧
    (∀ path mtimeNs size data,
      let s' := s.cachePut path mtimeNs size data
      (s'.bytes ≤ s'.cap ∨ s'.rcache.keys.length = 1) ∧
      (∃ evicted, path :: s.keys.filter (· ≠ path) = s'.keys ++ evicted) ∧
      (∃ e, s'.rcache.lookup path = some e ∧
        e.mtimeNs = mtimeNs ∧ e.size = size ∧ e.data = data) ∧
      ∀ key ∈ s'.keys, key ≠ path → s'.rcache.lookup key = s.rcache.lookup key) ∧
    (∀ bytes,
      let s' := s.setReadCacheLimit bytes
      s'.cap = bytes ∧ (s'.bytes ≤ s'.cap ∨ s'.rcache.keys.length = 1) ∧
      (∃ evicted, s.keys = s'.keys ++ evicted) ∧
      ∀ key ∈ s'.keys, s'.rcache.lookup key = s.rcache.lookup key) ∧
    (∀ dir key, (s.dropCachedPrefix dir).rcache.lookup key =
      if dir = [] ∨ key = dir ∨ dir ++ [slash] <+: key then none else s.rcache.lookup key) := by
  obtain ⟨h, hlatest⟩ := run_consistent ops
  generalize (run ops).2 = uses at hlatest
  generalize (run ops).1 = s at h hlatest
  refine ⟨h.keys_nodup, h.mem_keys, h.nodes, h.position, h.bytes_eq, hlatest,
    fun path mtimeNs size data => ?_, fun bytes => ?_, fun dir key => ?_⟩
  · have hput := h.cachePut path mtimeNs size data
    have hkeys := keys_insertEntry h path mtimeNs size data
    have hfront := hput.sheds.front
    rw [hkeys] at hfront
    refine ⟨hput.bounded, hfront.imp fun _ => Eq.symm, ?_, fun key hkey hne => ?_⟩
    · -- What is left is not empty, and `path` is the first key.
      have hmem : path ∈ (s.cachePut path mtimeNs size data).keys := by
        cases hleft : (s.cachePut path mtimeNs size data).keys with
        | nil =>
          have hne : (s.insertEntry path mtimeNs size data).keys ≠ [] := by
            rw [hkeys]
            exact List.cons_ne_nil _ _
          exact absurd hleft (hput.sheds.nonempty hne)
        | cons k ks =>
          rw [hleft] at hfront
          rw [(List.cons_prefix_cons.1 hfront).1]
          exact List.mem_cons_self
      refine ⟨_, (hput.lookup path hmem).trans (AList.lookup_insert _), rfl, rfl, rfl⟩
    · rw [hput.lookup key hkey, ReadCache.insertEntry, AList.lookup_insert_ne hne,
        (h.eraseFound path).lookup, if_neg (by simpa using hne)]
  · have hset := h.setReadCacheLimit bytes
    exact ⟨hset.cap, hset.bounded, hset.sheds.front.imp fun _ => Eq.symm, hset.lookup⟩
  · rw [(h.dropCachedPrefix dir).lookup key]
    exact if_congr (under_iff dir key) rfl rfl

example : (run [.setReadCacheLimit 3, .cachePut [97] 1 1 [1], .cachePut [98] 1 1 [2],
    .read [97] 1 1, .cachePut [99] 1 2 [3, 4]]).1.keys = [[99], [97]] := by decide

theorem Evicted.lookup_of_some {s' : ReadCache} (h : Evicted s s')
    (he : s'.rcache.lookup key = some e) : s.rcache.lookup key = some e := by
  have hmem : key ∈ s'.keys :=
    (h.consistent.mem_keys key).2 (AList.lookup_isSome.1 (by rw [he]; rfl))
  rw [← h.lookup key hmem, he]

theorem Erased.lookup_of_some {s' : ReadCache} {gone : Bytes → Bool} (h : Erased s s' gone)
    (he : s'.rcache.lookup key = some e) : s.rcache.lookup key = some e := by
  rw [h.lookup] at he
  split_ifs at he
  exact he

/-- **Where an entry comes from**: it was there, or it is put. -/
theorem Consistent.lookup_step (h : s.Consistent) {op : Op}
    (he : (s.step op).rcache.lookup key = some e) :
    s.rcache.lookup key = some e ∨ op = .cachePut key e.mtimeNs e.size e.data := by
  cases op with
  | cachePut path mtimeNs size data =>
    have hput := (h.cachePut path mtimeNs size data).lookup_of_some he
    by_cases hkey : key = path
    · subst hkey
      rw [ReadCache.insertEntry, AList.lookup_insert] at hput
      cases hput
      exact .inr rfl
    · rw [ReadCache.insertEntry, AList.lookup_insert_ne hkey] at hput
      exact .inl ((h.eraseFound path).lookup_of_some hput)
  | read path mtimeNs size =>
    rw [ReadCache.step, ReadCache.readCached] at he
    split at he <;> exact .inl he
  | dropCached path => exact .inl ((h.dropCached path).lookup_of_some he)
  | dropCachedPrefix dir => exact .inl ((h.dropCachedPrefix dir).lookup_of_some he)
  | setReadCacheLimit bytes => exact .inl ((h.setReadCacheLimit bytes).lookup_of_some he)
  | invalidate paths rescan => exact .inl ((h.dropInvalidated paths rescan).lookup_of_some he)

theorem hit_caches (s : ReadCache) (t : RemoteRoot.ReadTarget) (key : Bytes) :
    s.caches.hit t key = (s.find key t.mtimeNs t.size).map (·.data) := by
  rw [RemoteRoot.Caches.hit, find]
  dsimp only [caches]
  cases s.rcache.lookup key with
  | none => rfl
  | some e => by_cases he : e.mtimeNs = t.mtimeNs ∧ e.size = t.size <;> simp [he, Option.filter]

end ReadCache

end WslDrive
