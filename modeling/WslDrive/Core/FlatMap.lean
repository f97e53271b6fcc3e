import WslDrive.Lib.Probe
import Mathlib.Data.Finmap

/-!
# The open-addressing map `U64Map`

The metadata tree keeps its two child indexes in `U64Map`, a hash map from 64-bit keys to 32-bit
values with linear probing.  A slot holds a key and a value; two key values are reserved, one for
a slot that was never used and one for a slot whose key was erased (a *tombstone*).

The probe loops of the source have no bound of their own.  Here each looks at no more positions
than the table has slots and answers `none` when it has looked at all of them without ending: a
loop of the source that gets that far visits the same slots again for ever.

`U64Map.WF` is the representation invariant, and `U64Map.Models m f` says that the table `m`
represents the finite map `f`.  `U64Map.run_refines` is the main result: every run of the
operations ends, and everything it returns and everything that can be observed afterwards is
what the finite map gives.

Running out of memory is not modelled.  Table sizes are natural numbers; the source has `size_t`,
in which four times a size does not wrap for tables of fewer than `2 ^ 62` slots.
-/

namespace WslDrive

/-- `kEmpty`: the key of a slot that was never used. -/
def kEmpty : UInt64 := 0xFFFFFFFFFFFFFFFF

/-- `kTombstone`: the key of a slot whose key was erased. -/
def kTombstone : UInt64 := 0xFFFFFFFFFFFFFFFE

/-- `mix64`: the 64-bit finaliser used as the hash function. -/
def mix64 (x : UInt64) : UInt64 :=
  let x := x ^^^ (x >>> 32)
  let x := x * 0xd6e8feb86659fd93
  let x := x ^^^ (x >>> 32)
  let x := x * 0xd6e8feb86659fd93
  x ^^^ (x >>> 32)

/-- A slot of the table (without its padding). -/
structure Slot where
  /-- The key, or one of the two reserved values. -/
  key : UInt64 := kEmpty
  value : UInt32 := 0
  deriving DecidableEq, Repr, Inhabited

/-- The slot holds an entry: its key is neither reserved value. -/
def Slot.live (s : Slot) : Bool := s.key != kEmpty && s.key != kTombstone

/-- The slot is in use: it holds an entry or a tombstone. -/
def Slot.inUse (s : Slot) : Bool := s.key != kEmpty

/-- A key that callers may use: `find`, `erase` and `emplace` assert that it is not reserved. -/
abbrev MapKey := { k : UInt64 // k ≠ kEmpty ∧ k ≠ kTombstone }

/-- Open-addressing hash map from 64-bit keys to 32-bit values. -/
structure U64Map where
  /-- The table; its length is 0 or a power of two. -/
  slots : List Slot := []
  /-- Live entries. -/
  size : ℕ := 0
  /-- Live entries and tombstones. -/
  used : ℕ := 0
  deriving DecidableEq, Repr, Inhabited

namespace U64Map

/-! ### The operations -/

/-- The number of slots. -/
def capacity (m : U64Map) : ℕ := m.slots.length

/-- The slot at position `i`. -/
def slotAt (m : U64Map) (i : ℕ) : Slot := m.slots.getD i {}

/-- The home position of a key. -/
def home (m : U64Map) (key : UInt64) : ℕ := (mix64 key).toNat &&& (m.capacity - 1)

/-- The walk of `find` and `erase`: from the home position to the first slot that holds `key` or
was never used. -/
def probe (m : U64Map) (key : UInt64) : Option ℕ :=
  Probe.walk (fun i => (m.slotAt i).key == key || (m.slotAt i).key == kEmpty) (m.capacity - 1)
    m.capacity (m.home key)

/-- `find`; the outer `none` is a probe loop that does not end. -/
def find (m : U64Map) (key : UInt64) : Option (Option UInt32) :=
  if m.slots.isEmpty then some none
  else (m.probe key).map fun i =>
    if (m.slotAt i).key = key then some (m.slotAt i).value else none

/-- `contains`. -/
def contains (m : U64Map) (key : UInt64) : Option Bool := (m.find key).map Option.isSome

/-- `erase`: the slot becomes a tombstone. -/
def erase (m : U64Map) (key : UInt64) : Option (Bool × U64Map) :=
  if m.slots.isEmpty then some (false, m)
  else (m.probe key).map fun i =>
    if (m.slotAt i).key = key then
      (true, { m with
        slots := m.slots.set i { m.slotAt i with key := kTombstone }
        size := m.size - 1 })
    else (false, m)

/-- The insertion of one old slot during `rehash`: walk from the home position to the first slot
that was never used and put the slot there. -/
def reinsert (m : U64Map) (s : Slot) : Option U64Map :=
  (Probe.walk (fun i => (m.slotAt i).key == kEmpty) (m.capacity - 1) m.capacity
    (m.home s.key)).map fun i =>
      { slots := m.slots.set i s, size := m.size + 1, used := m.used + 1 }

/-- The loop of `rehash` over the old slots. -/
def rehashLoop : List Slot → U64Map → Option U64Map
  | [], m => some m
  | s :: old, m => if s.live then (reinsert m s).bind (rehashLoop old) else rehashLoop old m

/-- `rehash`: move every entry to a fresh table of `newCap` slots. -/
def rehash (m : U64Map) (newCap : ℕ) : Option U64Map :=
  rehashLoop m.slots { slots := List.replicate newCap {}, size := 0, used := 0 }

/-- The loop of `reserve` that doubles the capacity until `n` keys load it by at most 3/4. -/
def reserveCap (n : ℕ) : ℕ → ℕ → ℕ
  | 0, cap => cap
  | fuel + 1, cap => if cap * 3 < n * 4 then reserveCap n fuel (cap * 2) else cap

/-- `reserve`.  In the source `n * 4` is a `size_t`: this is for `n` below `2 ^ 62`. -/
def reserve (m : U64Map) (n : ℕ) : Option U64Map :=
  let cap := reserveCap n n 16
  if m.capacity < cap then m.rehash cap else some m

/-- `clear`: every slot becomes unused; the table keeps its size. -/
def clear (m : U64Map) : U64Map :=
  { slots := m.slots.map fun _ => {}, size := 0, used := 0 }

/-- `grow_if_needed`. -/
def growIfNeeded (m : U64Map) : Option U64Map :=
  if m.slots.isEmpty then m.rehash 16
  else if m.capacity * 3 < (m.used + 1) * 4 then
    -- mostly tombstones: rehash at the same size
    m.rehash (if m.capacity < (m.size + 1) * 2 then m.capacity * 2 else m.capacity)
  else some m

/-- The probe loop of `emplace`; `tomb` is the first tombstone met so far. -/
def emplaceLoop (m : U64Map) (key : UInt64) (value : UInt32) (assign : Bool) :
    ℕ → ℕ → Option ℕ → Option (Bool × U64Map)
  | 0, _, _ => none
  | fuel + 1, i, tomb =>
    let s := m.slotAt i
    if s.key = key then
      some (false,
        if assign then { m with slots := m.slots.set i { s with value := value } } else m)
    else if s.key = kTombstone then
      emplaceLoop m key value assign fuel ((i + 1) &&& (m.capacity - 1))
        (if tomb.isNone then some i else tomb)
    else if s.key = kEmpty then
      some (true, {
        slots := m.slots.set (tomb.getD i) { key := key, value := value }
        size := m.size + 1
        used := if tomb.isNone then m.used + 1 else m.used })
    else emplaceLoop m key value assign fuel ((i + 1) &&& (m.capacity - 1)) tomb

/-- `emplace`: make room, then probe.  The flag says whether a new key was inserted. -/
def emplace (m : U64Map) (key : UInt64) (value : UInt32) (assign : Bool) :
    Option (Bool × U64Map) :=
  m.growIfNeeded.bind fun m => emplaceLoop m key value assign m.capacity (m.home key) none

/-- `insert_or_assign`. -/
def insertOrAssign (m : U64Map) (key : UInt64) (value : UInt32) : Option (Bool × U64Map) :=
  m.emplace key value true

/-- `insert_if_absent`. -/
def insertIfAbsent (m : U64Map) (key : UInt64) (value : UInt32) : Option (Bool × U64Map) :=
  m.emplace key value false

/-- `for_each`: the entries in the order of their slots. -/
def forEach (m : U64Map) : List (UInt64 × UInt32) :=
  (m.slots.filter Slot.live).map fun s => (s.key, s.value)

/-! ### The representation invariant -/

/-- The representation invariant of a table. -/
structure WF (m : U64Map) : Prop where
  /-- The capacity is 0 or a power of two, at least 16. -/
  cap : m.capacity = 0 ∨ ∃ k, 4 ≤ k ∧ m.capacity = 2 ^ k
  /-- `size` counts the live slots. -/
  size_eq : m.size = m.slots.countP Slot.live
  /-- `used` counts the slots in use. -/
  used_eq : m.used = m.slots.countP Slot.inUse
  /-- At most three quarters of the slots are in use. -/
  load : m.used * 4 ≤ m.capacity * 3
  distinct : ∀ i < m.capacity, ∀ j < m.capacity, (m.slotAt i).live = true →
    (m.slotAt i).key = (m.slotAt j).key → i = j
  /-- The walk from the home position of a live key to its slot meets slots in use only. -/
  reach : ∀ i < m.capacity, (m.slotAt i).live = true →
    ∃ d < m.capacity, Probe.pos m.capacity (m.home (m.slotAt i).key) d = i ∧
      ∀ e < d, (m.slotAt (Probe.pos m.capacity (m.home (m.slotAt i).key) e)).inUse = true

/-- The entry `(k, v)` is in the table. -/
def Holds (m : U64Map) (k : UInt64) (v : UInt32) : Prop :=
  ∃ i < m.capacity, (m.slotAt i).live = true ∧ m.slotAt i = ⟨k, v⟩

/-- The table `m` represents the finite map `f`. -/
structure Models (m : U64Map) (f : Finmap fun _ : UInt64 => UInt32) : Prop where
  /-- The table satisfies its invariant. -/
  wf : m.WF
  /-- Its entries are those of `f`. -/
  holds_iff : ∀ k v, m.Holds k v ↔ f.lookup k = some v

variable {m : U64Map} {f : Finmap fun _ : UInt64 => UInt32}

theorem live_iff {s : Slot} : s.live = true ↔ s.key ≠ kEmpty ∧ s.key ≠ kTombstone := by
  simp [Slot.live]

theorem inUse_iff {s : Slot} : s.inUse = true ↔ s.key ≠ kEmpty := by
  simp [Slot.inUse]

theorem live_of_key {s : Slot} {key : UInt64} (hk : key ≠ kEmpty ∧ key ≠ kTombstone)
    (h : s.key = key) : s.live = true := by
  rw [live_iff, h]; exact hk

theorem inUse_of_live {s : Slot} (h : s.live = true) : s.inUse = true :=
  inUse_iff.2 (live_iff.1 h).1

theorem slotAt_eq_getElem {i : ℕ} (hi : i < m.slots.length) : m.slotAt i = m.slots[i] := by
  simp [slotAt, List.getD_eq_getElem?_getD, hi]

theorem home_lt {k : ℕ} (hc : m.capacity = 2 ^ k) (key : UInt64) : m.home key < m.capacity := by
  rw [home, Probe.and_mask hc]
  exact Nat.mod_lt _ (by rw [hc]; exact Nat.two_pow_pos k)

/-- A table with a load of at most 3/4 has a slot that was never used. -/
theorem WF.exists_empty (h : m.WF) (hc : 0 < m.capacity) :
    ∃ i < m.capacity, (m.slotAt i).key = kEmpty := by
  by_contra hno
  push Not at hno
  have hall : m.slots.countP Slot.inUse = m.slots.length := by
    rw [List.countP_eq_length]
    intro s hs
    obtain ⟨i, hi, rfl⟩ := List.getElem_of_mem hs
    rw [← slotAt_eq_getElem hi, inUse_iff]
    exact hno i hi
  have := h.load
  rw [h.used_eq, hall] at this
  simp only [capacity] at this hc
  omega

theorem WF.exists_stop (h : m.WF) {k : ℕ} (hc : m.capacity = 2 ^ k) (key : UInt64) :
    ∃ d < m.capacity,
      ((m.slotAt (Probe.pos m.capacity (m.home key) d)).key = key ∨
        (m.slotAt (Probe.pos m.capacity (m.home key) d)).key = kEmpty) ∧
      ∀ e < d, (m.slotAt (Probe.pos m.capacity (m.home key) e)).key ≠ key ∧
        (m.slotAt (Probe.pos m.capacity (m.home key) e)).key ≠ kEmpty := by
  have hpos : 0 < m.capacity := by rw [hc]; exact Nat.two_pow_pos k
  obtain ⟨i, hi, he⟩ := h.exists_empty hpos
  obtain ⟨d, hd, hP, hfirst⟩ := Probe.exists_first (home_lt hc key)
    (P := fun i => (m.slotAt i).key = key ∨ (m.slotAt i).key = kEmpty) ⟨i, hi, .inr he⟩
  exact ⟨d, hd, hP, fun e he => not_or.1 (hfirst e he)⟩

theorem WF.not_held (h : m.WF) {key : UInt64} (hk : key ≠ kEmpty ∧ key ≠ kTombstone) {d : ℕ}
    (hempty : (m.slotAt (Probe.pos m.capacity (m.home key) d)).key = kEmpty)
    (hfirst : ∀ e < d, (m.slotAt (Probe.pos m.capacity (m.home key) e)).key ≠ key) :
    ∀ j < m.capacity, (m.slotAt j).key ≠ key := by
  intro j hj hkey
  obtain ⟨d', -, hpos, hpath⟩ := h.reach j hj (live_of_key hk hkey)
  rw [hkey] at hpos hpath
  rcases lt_trichotomy d d' with hlt | rfl | hlt
  · exact inUse_iff.1 (hpath d hlt) hempty
  · rw [hpos, hkey] at hempty; exact hk.1 hempty
  · exact hfirst d' hlt (by rw [hpos, hkey])

/-- **The walk of `find` and `erase` ends**, at the slot of the key or at one that was never used.
-/
theorem WF.probe_spec (h : m.WF) {key : UInt64} (hk : key ≠ kEmpty ∧ key ≠ kTombstone)
    (hc : m.capacity ≠ 0) :
    ∃ i < m.capacity, m.probe key = some i ∧
      ((m.slotAt i).key = key ∨
        (m.slotAt i).key = kEmpty ∧ ∀ j < m.capacity, (m.slotAt j).key ≠ key) := by
  obtain ⟨k, -, hk2⟩ := h.cap.resolve_left hc
  obtain ⟨d, hd, hstop, hfirst⟩ := h.exists_stop hk2 key
  have hwalk : m.probe key = some (Probe.pos m.capacity (m.home key) d) := by
    refine Probe.walk_eq_some hk2 (home_lt hk2 key) hd ?_ fun e he => ?_
    · simpa using hstop
    · simpa using hfirst e he
  refine ⟨_, Probe.pos_lt (home_lt hk2 key), hwalk, ?_⟩
  rcases hstop with hkey | hempty
  · exact .inl hkey
  · exact .inr ⟨hempty, h.not_held hk hempty fun e he => (hfirst e he).1⟩

theorem slots_isEmpty_iff : m.slots.isEmpty = true ↔ m.capacity = 0 := by
  simp [capacity]

theorem not_holds_of_forall_ne {key : UInt64} (h : ∀ j < m.capacity, (m.slotAt j).key ≠ key)
    (v : UInt32) : ¬ m.Holds key v := by
  rintro ⟨i, hi, -, hs⟩
  exact h i hi (by rw [hs])

theorem Models.lookup_eq_none (h : Models m f) {key : UInt64}
    (hno : ∀ j < m.capacity, (m.slotAt j).key ≠ key) : f.lookup key = none := by
  rw [Option.eq_none_iff_forall_ne_some]
  intro v hv
  exact not_holds_of_forall_ne hno v ((h.holds_iff key v).2 hv)

theorem Models.lookup_eq_some (h : Models m f) {i : ℕ} (hi : i < m.capacity)
    (hlive : (m.slotAt i).live = true) :
    f.lookup (m.slotAt i).key = some (m.slotAt i).value :=
  (h.holds_iff _ _).1 ⟨i, hi, hlive, rfl⟩

/-- **`find` is lookup in the finite map**, and its loop ends. -/
theorem Models.find_eq (h : Models m f) {key : UInt64} (hk : key ≠ kEmpty ∧ key ≠ kTombstone) :
    m.find key = some (f.lookup key) := by
  unfold find
  by_cases hc : m.capacity = 0
  · rw [if_pos (slots_isEmpty_iff.2 hc), h.lookup_eq_none (by simp [hc])]
  · rw [if_neg (by simpa [capacity] using hc)]
    obtain ⟨i, hi, hprobe, hkey | ⟨hempty, hno⟩⟩ := h.wf.probe_spec hk hc
    · have := h.lookup_eq_some hi (live_of_key hk hkey)
      rw [hkey] at this
      simp [hprobe, hkey, this]
    · rw [hprobe, h.lookup_eq_none hno]
      simp [hempty, hk.1.symm]

/-! ### Writing one slot -/

/-- The table with the slot at `i` overwritten and the two counters set. -/
def put (m : U64Map) (i : ℕ) (s : Slot) (size used : ℕ) : U64Map :=
  { slots := m.slots.set i s, size := size, used := used }

@[simp] theorem put_capacity (m : U64Map) (i : ℕ) (s : Slot) (size used : ℕ) :
    (m.put i s size used).capacity = m.capacity := by
  simp [put, capacity]

@[simp] theorem put_home (m : U64Map) (i : ℕ) (s : Slot) (size used : ℕ) (key : UInt64) :
    (m.put i s size used).home key = m.home key := by
  simp [home]

theorem put_slotAt {i j : ℕ} {s : Slot} {size used : ℕ} (hi : i < m.capacity) :
    (m.put i s size used).slotAt j = if j = i then s else m.slotAt j := by
  simp only [put, slotAt, List.getD_eq_getElem?_getD, List.getElem?_set]
  by_cases h : i = j
  · have hi' : i < m.slots.length := hi
    subst h; simp [hi']
  · simp [h, Ne.symm h]

theorem countP_set_add {p : Slot → Bool} {i : ℕ} (hi : i < m.capacity) (s : Slot) :
    (m.slots.set i s).countP p + (if p (m.slotAt i) then 1 else 0) =
      m.slots.countP p + (if p s then 1 else 0) := by
  rw [slotAt_eq_getElem hi, List.countP_set hi]
  have := List.boole_getElem_le_countP (p := p) hi
  omega

/-- **Overwriting a slot keeps the invariant** if a live key of the new slot is in no other slot and
is reached from its home position. -/
theorem WF.put (h : m.WF) {i : ℕ} (hi : i < m.capacity) {s : Slot} {size used : ℕ}
    (huse : s.inUse = true)
    (hdist : s.live = true → ∀ j < m.capacity, j ≠ i → (m.slotAt j).key ≠ s.key)
    (hreach : s.live = true → ∃ d < m.capacity, Probe.pos m.capacity (m.home s.key) d = i ∧
      ∀ e < d, (m.slotAt (Probe.pos m.capacity (m.home s.key) e)).inUse = true)
    (hsize : size + (if (m.slotAt i).live then 1 else 0) = m.size + (if s.live then 1 else 0))
    (hused : used + (if (m.slotAt i).inUse then 1 else 0) = m.used + 1)
    (hload : used * 4 ≤ m.capacity * 3) : (m.put i s size used).WF where
  cap := by simpa using h.cap
  size_eq := by
    have := countP_set_add (p := Slot.live) hi s
    rw [← h.size_eq] at this
    simp only [U64Map.put]
    omega
  used_eq := by
    have := countP_set_add (p := Slot.inUse) hi s
    rw [← h.used_eq, huse] at this
    simp only [U64Map.put]
    simp only [if_true] at this
    omega
  load := by rw [put_capacity]; exact hload
  distinct := by
    intro a ha b hb hlive hkey
    rw [put_capacity] at ha hb
    rw [put_slotAt hi] at hlive hkey
    rw [put_slotAt hi] at hkey
    by_cases hai : a = i
    · by_cases hbi : b = i
      · rw [hai, hbi]
      · simp only [hai, hbi, if_true, if_false] at hlive hkey
        exact absurd hkey.symm (hdist hlive b hb hbi)
    · by_cases hbi : b = i
      · simp only [hai, hbi, if_true, if_false] at hlive hkey
        have hs : s.live = true := by rw [live_iff, ← hkey]; exact live_iff.1 hlive
        exact absurd hkey (hdist hs a ha hai)
      · simp only [hai, hbi, if_false] at hlive hkey
        exact h.distinct a ha b hb hlive hkey
  reach := by
    intro a ha hlive
    rw [put_capacity] at ha
    -- a slot in use stays in use, so every old walk stays one
    have hmono : ∀ j, (m.slotAt j).inUse = true →
        ((m.put i s size used).slotAt j).inUse = true := by
      intro j hj
      rw [put_slotAt hi]
      split_ifs
      · exact huse
      · exact hj
    simp only [put_capacity, put_home]
    rw [put_slotAt hi] at hlive ⊢
    by_cases hai : a = i
    · simp only [hai, if_true] at hlive ⊢
      obtain ⟨d, hd, hpos, hpath⟩ := hreach hlive
      exact ⟨d, hd, hpos, fun e he => hmono _ (hpath e he)⟩
    · simp only [hai, if_false] at hlive ⊢
      obtain ⟨d, hd, hpos, hpath⟩ := h.reach a ha hlive
      exact ⟨d, hd, hpos, fun e he => hmono _ (hpath e he)⟩

theorem put_holds_iff {i : ℕ} (hi : i < m.capacity) {s : Slot} {size used : ℕ} (k : UInt64)
    (v : UInt32) :
    (m.put i s size used).Holds k v ↔
      s.live = true ∧ s = ⟨k, v⟩ ∨
        ∃ j < m.capacity, j ≠ i ∧ (m.slotAt j).live = true ∧ m.slotAt j = ⟨k, v⟩ := by
  constructor
  · rintro ⟨j, hj, hlive, hs⟩
    rw [put_capacity] at hj
    rw [put_slotAt hi] at hlive hs
    by_cases hji : j = i
    · simp only [hji, if_true] at hlive hs
      exact .inl ⟨hlive, hs⟩
    · simp only [hji, if_false] at hlive hs
      exact .inr ⟨j, hj, hji, hlive, hs⟩
  · rintro (⟨hlive, hs⟩ | ⟨j, hj, hji, hlive, hs⟩)
    · refine ⟨i, by simpa using hi, ?_⟩
      rw [put_slotAt hi]
      simp only [if_true]
      exact ⟨hlive, hs⟩
    · refine ⟨j, by simpa using hj, ?_⟩
      rw [put_slotAt hi]
      simp only [hji, if_false]
      exact ⟨hlive, hs⟩

theorem WF.put_holds_of_key (h : m.WF) {i : ℕ} (hi : i < m.capacity)
    (hlive : (m.slotAt i).live = true) {s : Slot} {size used : ℕ} (k : UInt64) (v : UInt32) :
    (m.put i s size used).Holds k v ↔
      s.live = true ∧ s = ⟨k, v⟩ ∨ k ≠ (m.slotAt i).key ∧ m.Holds k v := by
  rw [put_holds_iff hi]
  refine or_congr Iff.rfl ⟨?_, ?_⟩
  · rintro ⟨j, hj, hji, hl, hs⟩
    refine ⟨fun hk => hji ?_, j, hj, hl, hs⟩
    exact h.distinct j hj i hi hl (by rw [hs, hk])
  · rintro ⟨hk, j, hj, hl, hs⟩
    refine ⟨j, hj, ?_, hl, hs⟩
    rintro rfl
    exact hk (by rw [hs])

theorem put_holds_of_dead {i : ℕ} (hi : i < m.capacity) (hdead : (m.slotAt i).live = false)
    {s : Slot} {size used : ℕ} (k : UInt64) (v : UInt32) :
    (m.put i s size used).Holds k v ↔ s.live = true ∧ s = ⟨k, v⟩ ∨ m.Holds k v := by
  rw [put_holds_iff hi]
  refine or_congr Iff.rfl ⟨?_, ?_⟩
  · rintro ⟨j, hj, -, hl, hs⟩; exact ⟨j, hj, hl, hs⟩
  · rintro ⟨j, hj, hl, hs⟩
    refine ⟨j, hj, ?_, hl, hs⟩
    rintro rfl
    rw [hdead] at hl; exact Bool.false_ne_true hl

/-! ### Erasing -/

theorem live_tombstone (v : UInt32) : (Slot.mk kTombstone v).live = false := by
  simp [Slot.live]

theorem inUse_tombstone (v : UInt32) : (Slot.mk kTombstone v).inUse = true := by
  simp only [Slot.inUse, kTombstone, kEmpty]; decide

/-- **`erase` is removal from the finite map**; the flag says whether the key was there. -/
theorem Models.erase_spec (h : Models m f) {key : UInt64}
    (hk : key ≠ kEmpty ∧ key ≠ kTombstone) :
    ∃ m', m.erase key = some ((f.lookup key).isSome, m') ∧ Models m' (f.erase key) := by
  unfold erase
  by_cases hc : m.capacity = 0
  · rw [if_pos (slots_isEmpty_iff.2 hc)]
    have hnone := h.lookup_eq_none
      (fun j hj => absurd hj (by simp [hc]) : ∀ j < _, (m.slotAt j).key ≠ key)
    refine ⟨m, by simp [hnone], h.wf, fun k v => ?_⟩
    rw [h.holds_iff]
    by_cases hkk : k = key
    · subst hkk; simp [hnone]
    · rw [Finmap.lookup_erase_ne hkk]
  · rw [if_neg (by simpa [capacity] using hc)]
    obtain ⟨i, hi, hprobe, hkey | ⟨hempty, hno⟩⟩ := h.wf.probe_spec hk hc
    · have hlive := live_of_key hk hkey
      have hsome := h.lookup_eq_some hi hlive
      rw [hkey] at hsome
      have hpos : 0 < m.size := by
        rw [h.wf.size_eq, List.countP_pos_iff]
        exact ⟨m.slotAt i, by rw [slotAt_eq_getElem hi]; exact List.getElem_mem hi, hlive⟩
      refine ⟨m.put i ⟨kTombstone, (m.slotAt i).value⟩ (m.size - 1) m.used, ?_, ?_, ?_⟩
      · simp [hprobe, hkey, hsome, U64Map.put]
      · refine h.wf.put hi (inUse_tombstone _) ?_ ?_ ?_ ?_ h.wf.load
        · simp [live_tombstone]
        · simp [live_tombstone]
        · simp only [hlive, live_tombstone, if_true]; simp; omega
        · simp [inUse_of_live hlive]
      · intro k v
        rw [h.wf.put_holds_of_key hi hlive, hkey, h.holds_iff]
        simp only [live_tombstone, Bool.false_eq_true, false_and, false_or]
        by_cases hkk : k = key
        · subst hkk; simp [Finmap.lookup_erase]
        · simp [hkk, Finmap.lookup_erase_ne hkk]
    · have hnone := h.lookup_eq_none hno
      refine ⟨m, by simp [hprobe, hempty, hk.1.symm, hnone], h.wf, fun k v => ?_⟩
      rw [h.holds_iff]
      by_cases hkk : k = key
      · subst hkk; simp [hnone]
      · rw [Finmap.lookup_erase_ne hkk]

/-! ### Inserting a new key -/

/-- **Writing a new key into a free slot** that is reached from its home position inserts it. -/
theorem Models.put_new (h : Models m f) {key : UInt64} {value : UInt32}
    (hk : key ≠ kEmpty ∧ key ≠ kTombstone) (hno : ∀ j < m.capacity, (m.slotAt j).key ≠ key)
    {i d : ℕ} (hi : i < m.capacity) (hdead : (m.slotAt i).live = false) (hd : d < m.capacity)
    (hpos : Probe.pos m.capacity (m.home key) d = i)
    (hpath : ∀ e < d, (m.slotAt (Probe.pos m.capacity (m.home key) e)).inUse = true) {used : ℕ}
    (hused : used + (if (m.slotAt i).inUse then 1 else 0) = m.used + 1)
    (hload : used * 4 ≤ m.capacity * 3) :
    Models (m.put i ⟨key, value⟩ (m.size + 1) used) (f.insert key value) where
  wf := by
    have hlive : (Slot.mk key value).live = true := live_iff.2 hk
    refine h.wf.put hi (inUse_of_live hlive) (fun _ j hj _ => hno j hj)
      (fun _ => ⟨d, hd, hpos, hpath⟩) ?_ hused hload
    simp [hdead, hlive]
  holds_iff k v := by
    have hlive : (Slot.mk key value).live = true := live_iff.2 hk
    rw [put_holds_of_dead hi hdead, h.holds_iff]
    by_cases hkk : k = key
    · subst hkk
      rw [Finmap.lookup_insert, h.lookup_eq_none hno]
      simp [hlive]
    · rw [Finmap.lookup_insert_of_ne _ hkk]
      simp [Ne.symm hkk]

/-! ### Rehashing -/

theorem models_fresh {n k : ℕ} (hk : 4 ≤ k) (hn : n = 2 ^ k) :
    Models { slots := List.replicate n {}, size := 0, used := 0 } ∅ := by
  have hslot : ∀ i, ({ slots := List.replicate n {}, size := 0, used := 0 } : U64Map).slotAt i
      = {} := by
    intro i
    simp only [slotAt, List.getD_eq_getElem?_getD, List.getElem?_replicate]
    split_ifs <;> rfl
  have hdead : ({} : Slot).live = false := by decide
  refine ⟨⟨.inr ⟨k, hk, by simp [capacity, hn]⟩, ?_, ?_, by simp, ?_, ?_⟩, ?_⟩
  · simp [List.countP_replicate, hdead]
  · simp [List.countP_replicate, Slot.inUse]
  · intro i _ j _ hlive; simp [hslot, hdead] at hlive
  · intro i _ hlive; simp [hslot, hdead] at hlive
  · rintro i v
    simp only [Finmap.lookup_empty, reduceCtorEq, iff_false]
    rintro ⟨j, -, hlive, -⟩
    simp [hslot, hdead] at hlive

/-- **The insertion of an old slot during a rehash ends**, at the first unused slot of its
walk. -/
theorem Models.reinsert_spec (h : Models m f) {s : Slot} (hlive : s.live = true)
    (hnew : f.lookup s.key = none) (hload : (m.used + 1) * 4 ≤ m.capacity * 3) :
    ∃ m', m.reinsert s = some m' ∧ Models m' (f.insert s.key s.value) ∧
      m'.capacity = m.capacity ∧ m'.used = m.used + 1 := by
  have hk := live_iff.1 hlive
  have hcap : m.capacity ≠ 0 := by omega
  obtain ⟨k, -, hc⟩ := h.wf.cap.resolve_left hcap
  have hno : ∀ j < m.capacity, (m.slotAt j).key ≠ s.key := by
    intro j hj hkey
    have := h.lookup_eq_some hj (live_of_key hk hkey)
    rw [hkey, hnew] at this
    exact Option.some_ne_none _ this.symm
  have hhome := home_lt hc s.key
  obtain ⟨d, hd, hempty, hfirst⟩ := Probe.exists_first hhome
    (P := fun i => (m.slotAt i).key = kEmpty) (h.wf.exists_empty (by omega))
  have hwalk : Probe.walk (fun i => (m.slotAt i).key == kEmpty) (m.capacity - 1) m.capacity
      (m.home s.key) = some (Probe.pos m.capacity (m.home s.key) d) :=
    Probe.walk_eq_some hc hhome hd (by simpa using hempty) fun e he => by simpa using hfirst e he
  refine ⟨m.put (Probe.pos m.capacity (m.home s.key) d) s (m.size + 1) (m.used + 1), ?_, ?_,
    by simp, rfl⟩
  · simp [reinsert, hwalk, U64Map.put]
  refine h.put_new hk hno (Probe.pos_lt hhome) ?_ hd rfl
    (fun e he => inUse_iff.2 (hfirst e he)) ?_ hload
  · simp [Slot.live, hempty]
  · simp [Slot.inUse, hempty]

/-- The loop of `rehash` ends, and adds the live old slots to the new table. -/
theorem Models.rehashLoop_spec (old : List Slot) :
    ∀ {m : U64Map} {f : Finmap fun _ : UInt64 => UInt32}, Models m f →
      (∀ s ∈ old, s.live = true → f.lookup s.key = none) →
      old.Pairwise (fun s t => s.live = true → s.key ≠ t.key) →
      (m.used + old.countP Slot.live) * 4 ≤ m.capacity * 3 →
      ∃ m' f', rehashLoop old m = some m' ∧ Models m' f' ∧ m'.capacity = m.capacity ∧
        m'.used = m.used + old.countP Slot.live ∧
        ∀ k v, f'.lookup k = some v ↔
          f.lookup k = some v ∨ ∃ s ∈ old, s.live = true ∧ s = ⟨k, v⟩ := by
  induction old with
  | nil => intro m f h _ _ _; exact ⟨m, f, rfl, h, rfl, rfl, by simp⟩
  | cons s old ih =>
    intro m f h hnew hpw hload
    rw [List.pairwise_cons] at hpw
    by_cases hlive : s.live = true
    · rw [List.countP_cons_of_pos hlive] at hload
      obtain ⟨m₁, h₁, hm₁, hc₁, hu₁⟩ := h.reinsert_spec hlive
        (hnew s List.mem_cons_self hlive) (by omega)
      have hnew' : ∀ t ∈ old, t.live = true → (f.insert s.key s.value).lookup t.key = none := by
        intro t ht htl
        rw [Finmap.lookup_insert_of_ne _ (hpw.1 t ht hlive).symm]
        exact hnew t (List.mem_cons_of_mem _ ht) htl
      obtain ⟨m', f', hr, hm', hc', hu', hf'⟩ := ih hm₁ hnew' hpw.2 (by rw [hu₁, hc₁]; omega)
      refine ⟨m', f', by simp [rehashLoop, hlive, h₁, hr], hm', hc'.trans hc₁,
        by rw [hu', hu₁, List.countP_cons_of_pos hlive]; omega, fun k v => ?_⟩
      rw [hf']
      have hs := hnew s List.mem_cons_self hlive
      by_cases hk : k = s.key
      · subst hk
        rw [Finmap.lookup_insert, hs]
        have hold : ¬ ∃ t ∈ old, t.live = true ∧ t = ⟨s.key, v⟩ := by
          rintro ⟨t, ht, -, rfl⟩
          exact hpw.1 _ ht hlive rfl
        simp only [Option.some.injEq, reduceCtorEq, List.exists_mem_cons_iff, hlive, true_and,
          hold, or_false, false_or]
        exact ⟨by rintro rfl; rfl, fun h => by rw [h]⟩
      · rw [Finmap.lookup_insert_of_ne _ hk]
        have hne : s ≠ ⟨k, v⟩ := by rintro rfl; exact hk rfl
        simp only [List.exists_mem_cons_iff, hne, and_false, false_or]
    · have hdead : s.live = false := by simpa using hlive
      rw [List.countP_cons_of_neg (by simp [hdead])] at hload
      obtain ⟨m', f', hr, hm', hc', hu', hf'⟩ := ih h
        (fun t ht => hnew t (List.mem_cons_of_mem _ ht)) hpw.2 hload
      refine ⟨m', f', by simp [rehashLoop, hdead, hr], hm', hc',
        by rw [hu', List.countP_cons_of_neg (by simp [hdead])], fun k v => ?_⟩
      rw [hf']
      simp only [List.exists_mem_cons_iff, hdead, Bool.false_eq_true, false_and, false_or]

theorem WF.pairwise_keys (h : m.WF) :
    m.slots.Pairwise (fun s t => s.live = true → s.key ≠ t.key) := by
  rw [List.pairwise_iff_getElem]
  intro i j hi hj hij hlive hkey
  rw [← slotAt_eq_getElem hi] at hlive hkey
  rw [← slotAt_eq_getElem hj] at hkey
  have := h.distinct i hi j hj hlive hkey
  omega

theorem holds_iff_mem {k : UInt64} {v : UInt32} :
    m.Holds k v ↔ ∃ s ∈ m.slots, s.live = true ∧ s = ⟨k, v⟩ := by
  constructor
  · rintro ⟨i, hi, hlive, hs⟩
    exact ⟨m.slotAt i, by rw [slotAt_eq_getElem hi]; exact List.getElem_mem hi, hlive, hs⟩
  · rintro ⟨s, hs, hlive, rfl⟩
    obtain ⟨i, hi, hget⟩ := List.getElem_of_mem hs
    refine ⟨i, hi, ?_⟩
    rw [slotAt_eq_getElem hi, hget]
    exact ⟨hlive, rfl⟩

/-- **`rehash` keeps the finite map** and drops the tombstones; its loops end. -/
theorem Models.rehash_spec (h : Models m f) {n k : ℕ} (hk : 4 ≤ k) (hn : n = 2 ^ k)
    (hload : m.size * 4 ≤ n * 3) :
    ∃ m', m.rehash n = some m' ∧ Models m' f ∧ m'.capacity = n ∧ m'.used = m.size := by
  obtain ⟨m', f', hr, hm', hc', hu', hf'⟩ := Models.rehashLoop_spec m.slots (models_fresh hk hn)
    (by simp) h.wf.pairwise_keys (by
      rw [← h.wf.size_eq]
      simpa [capacity] using hload)
  refine ⟨m', hr, ⟨hm'.wf, fun k v => ?_⟩, by simpa [capacity] using hc', ?_⟩
  · rw [hm'.holds_iff, hf', ← h.holds_iff, holds_iff_mem]
    simp
  · rw [hu', ← h.wf.size_eq]; simp

theorem WF.size_le_used (h : m.WF) : m.size ≤ m.used := by
  rw [h.size_eq, h.used_eq]
  exact List.countP_mono_left fun s _ hs => inUse_of_live hs

theorem WF.cap_ge (h : m.WF) (hc : m.capacity ≠ 0) :
    ∃ k, 4 ≤ k ∧ m.capacity = 2 ^ k ∧ 16 ≤ m.capacity := by
  obtain ⟨k, hk, he⟩ := h.cap.resolve_left hc
  exact ⟨k, hk, he, by rw [he]; exact Nat.pow_le_pow_right (n := 2) (by omega) hk⟩

/-- **`grow_if_needed` makes room for one more key**, whatever fills the table. -/
theorem Models.growIfNeeded_spec (h : Models m f) :
    ∃ m', m.growIfNeeded = some m' ∧ Models m' f ∧ m'.capacity ≠ 0 ∧
      (m'.used + 1) * 4 ≤ m'.capacity * 3 := by
  have hsu := h.wf.size_le_used
  have hload := h.wf.load
  unfold growIfNeeded
  by_cases hc : m.capacity = 0
  · rw [if_pos (slots_isEmpty_iff.2 hc)]
    have hsize : m.size = 0 := by omega
    obtain ⟨m', hr, hm', hc', hu'⟩ := h.rehash_spec (n := 16) (k := 4) le_rfl rfl (by omega)
    exact ⟨m', hr, hm', by omega, by omega⟩
  · rw [if_neg (by simpa [capacity] using hc)]
    obtain ⟨k, hk, hpow, hge⟩ := h.wf.cap_ge hc
    split_ifs with hfull hgrow
    · obtain ⟨m', hr, hm', hc', hu'⟩ := h.rehash_spec (n := m.capacity * 2) (k := k + 1)
        (by omega) (by rw [hpow, Nat.pow_succ]) (by omega)
      exact ⟨m', hr, hm', by omega, by omega⟩
    · obtain ⟨m', hr, hm', hc', hu'⟩ := h.rehash_spec (n := m.capacity) hk hpow (by omega)
      exact ⟨m', hr, hm', by omega, by omega⟩
    · exact ⟨m, rfl, h, hc, by omega⟩

theorem reserveCap_pow (n : ℕ) : ∀ fuel k, 4 ≤ k →
    ∃ k', 4 ≤ k' ∧ reserveCap n fuel (2 ^ k) = 2 ^ k' := by
  intro fuel
  induction fuel with
  | zero => intro k hk; exact ⟨k, hk, rfl⟩
  | succ fuel ih =>
    intro k hk
    rw [reserveCap]
    split_ifs
    · rw [← Nat.pow_succ]; exact ih (k + 1) (by omega)
    · exact ⟨k, hk, rfl⟩

/-- The doubling loop of `reserve` ends before its bound: the capacity it yields holds `n` keys
at a load of at most 3/4. -/
theorem le_reserveCap (n : ℕ) : ∀ fuel cap, n ≤ cap * 2 ^ fuel →
    n * 4 ≤ reserveCap n (fuel + 1) cap * 3 := by
  intro fuel
  induction fuel with
  | zero =>
    intro cap h
    simp only [reserveCap]
    split_ifs <;> omega
  | succ fuel ih =>
    intro cap h
    rw [reserveCap]
    split_ifs with hlt
    · exact ih (cap * 2) (by rw [Nat.pow_succ] at h; rw [Nat.mul_assoc, Nat.mul_comm 2]; exact h)
    · omega

theorem reserveCap_enough (n : ℕ) : n * 4 ≤ reserveCap n n 16 * 3 := by
  cases n with
  | zero => simp
  | succ n =>
    refine le_reserveCap (n + 1) n 16 ?_
    have := Nat.lt_two_pow_self (n := n)
    omega

/-- **`reserve` keeps the finite map** and makes room for `n` keys. -/
theorem Models.reserve_spec (h : Models m f) (n : ℕ) :
    ∃ m', m.reserve n = some m' ∧ Models m' f ∧ n * 4 ≤ m'.capacity * 3 := by
  have hroom := reserveCap_enough n
  unfold reserve
  obtain ⟨k, hk, hcap⟩ := reserveCap_pow n n 4 le_rfl
  have hcap' : reserveCap n n 16 = 2 ^ k := hcap
  simp only
  split_ifs with hlt
  · have hsu := h.wf.size_le_used
    have hload := h.wf.load
    obtain ⟨m', hr, hm', hc', -⟩ := h.rehash_spec hk hcap' (by omega)
    exact ⟨m', hr, hm', by omega⟩
  · exact ⟨m, rfl, h, by omega⟩

/-- **`clear` empties the finite map**; the table keeps its capacity. -/
theorem Models.clear_spec (h : Models m f) : Models m.clear ∅ := by
  by_cases hc : m.capacity = 0
  · have hnil : m.slots = [] := by simpa [capacity] using hc
    refine ⟨⟨.inl (by simp [clear, capacity, hnil]), by simp [clear, hnil], by simp [clear, hnil],
      by simp [clear], ?_, ?_⟩, ?_⟩
    · intro i hi; simp [clear, capacity, hnil] at hi
    · intro i hi; simp [clear, capacity, hnil] at hi
    · intro k v
      simp only [Finmap.lookup_empty, reduceCtorEq, iff_false]
      rintro ⟨i, hi, -⟩
      simp [clear, capacity, hnil] at hi
  · obtain ⟨k, hk, hpow⟩ := h.wf.cap.resolve_left hc
    have hclear : m.clear = { slots := List.replicate m.capacity {}, size := 0, used := 0 } := by
      simp [clear, capacity, List.map_const']
    rw [hclear]
    exact models_fresh hk hpow

/-! ### `emplace` -/

theorem emplaceLoop_next {key : UInt64} (value : UInt32) (assign : Bool) {k : ℕ}
    (hc : m.capacity = 2 ^ k) {i : ℕ} (hkey : (m.slotAt i).key ≠ key)
    (hempty : (m.slotAt i).key ≠ kEmpty) (fuel : ℕ) (tomb : Option ℕ) :
    emplaceLoop m key value assign (fuel + 1) i tomb =
      emplaceLoop m key value assign fuel ((i + 1) % m.capacity)
        (if (m.slotAt i).key = kTombstone then tomb.or (some i) else tomb) := by
  rw [emplaceLoop, Probe.and_mask hc]
  simp only [hkey, hempty, if_false]
  split_ifs with htomb hnone
  · rw [Option.isNone_iff_eq_none.1 hnone, Option.none_or]
  · obtain ⟨t, rfl⟩ := Option.ne_none_iff_exists'.1 (by simpa using hnone)
    rfl
  · rfl

/-- **The probe loop walks on** over other keys and keeps the first tombstone among them in mind. -/
theorem emplaceLoop_walk {key : UInt64} (value : UInt32) (assign : Bool) {k : ℕ}
    (hc : m.capacity = 2 ^ k) {i : ℕ} (hi : i < m.capacity) {d : ℕ}
    (hpass : ∀ e < d, (m.slotAt (Probe.pos m.capacity i e)).key ≠ key ∧
      (m.slotAt (Probe.pos m.capacity i e)).key ≠ kEmpty) (fuel : ℕ) (tomb : Option ℕ) :
    ∃ tomb', emplaceLoop m key value assign (fuel + d) i tomb =
        emplaceLoop m key value assign fuel (Probe.pos m.capacity i d) tomb' ∧
      (tomb' = tomb ∨ tomb = none ∧ ∃ e < d,
        (m.slotAt (Probe.pos m.capacity i e)).key = kTombstone ∧
          tomb' = some (Probe.pos m.capacity i e)) := by
  induction d generalizing fuel with
  | zero =>
    rw [Probe.pos_zero hi]
    exact ⟨tomb, rfl, .inl rfl⟩
  | succ d ih =>
    obtain ⟨tomb', hrun, htomb'⟩ := ih (fun e he => hpass e (by omega)) (fuel + 1)
    obtain ⟨hkey, hempty⟩ := hpass d (Nat.lt_succ_self d)
    have hpos : (Probe.pos m.capacity i d + 1) % m.capacity = Probe.pos m.capacity i (d + 1) :=
      Nat.mod_add_mod _ _ _
    rw [show fuel + (d + 1) = fuel + 1 + d by omega, hrun,
      emplaceLoop_next value assign hc hkey hempty, hpos]
    refine ⟨_, rfl, ?_⟩
    split_ifs with htomb
    · rcases htomb' with rfl | ⟨hnone, e, he, hslot, rfl⟩
      · -- this slot is the first tombstone, unless there was one
        cases tomb' with
        | some t => exact .inl rfl
        | none => exact .inr ⟨rfl, d, Nat.lt_succ_self d, htomb, rfl⟩
      · exact .inr ⟨hnone, e, by omega, hslot, rfl⟩
    · rcases htomb' with rfl | ⟨hnone, e, he, hslot, rfl⟩
      · exact .inl rfl
      · exact .inr ⟨hnone, e, by omega, hslot, rfl⟩

theorem emplaceLoop_hit {key : UInt64} (value : UInt32) (assign : Bool)
    {k : ℕ} (hc : m.capacity = 2 ^ k) :
    ∀ {fuel i d : ℕ} (tomb : Option ℕ), i < m.capacity → d < fuel →
      (m.slotAt (Probe.pos m.capacity i d)).key = key →
      (∀ e < d, (m.slotAt (Probe.pos m.capacity i e)).key ≠ key ∧
        (m.slotAt (Probe.pos m.capacity i e)).key ≠ kEmpty) →
      emplaceLoop m key value assign fuel i tomb = some (false,
        if assign then m.put (Probe.pos m.capacity i d) ⟨key, value⟩ m.size m.used else m) := by
  intro fuel i d tomb hi hd hkey hfirst
  obtain ⟨n, rfl⟩ : ∃ n, fuel = n + 1 + d := ⟨fuel - d - 1, by omega⟩
  obtain ⟨tomb', hrun, -⟩ := emplaceLoop_walk value assign hc hi hfirst (n + 1) tomb
  rw [hrun, emplaceLoop]
  simp [hkey, U64Map.put]

/-- The probe loop of `emplace` when the walk meets an unused slot first: the key goes to the
remembered tombstone, else to the first tombstone on the way, else to that slot. -/
theorem emplaceLoop_miss {key : UInt64} (hk : key ≠ kEmpty) (value : UInt32) (assign : Bool)
    {k : ℕ} (hc : m.capacity = 2 ^ k) :
    ∀ {fuel i d : ℕ} (tomb : Option ℕ), i < m.capacity → d < fuel →
      (m.slotAt (Probe.pos m.capacity i d)).key = kEmpty →
      (∀ e < d, (m.slotAt (Probe.pos m.capacity i e)).key ≠ key ∧
        (m.slotAt (Probe.pos m.capacity i e)).key ≠ kEmpty) →
      (∃ t, tomb = some t ∧ emplaceLoop m key value assign fuel i tomb =
        some (true, m.put t ⟨key, value⟩ (m.size + 1) m.used)) ∨
      (tomb = none ∧ ∃ e < d, (m.slotAt (Probe.pos m.capacity i e)).key = kTombstone ∧
        emplaceLoop m key value assign fuel i tomb =
          some (true, m.put (Probe.pos m.capacity i e) ⟨key, value⟩ (m.size + 1) m.used)) ∨
      (tomb = none ∧ emplaceLoop m key value assign fuel i tomb =
        some (true, m.put (Probe.pos m.capacity i d) ⟨key, value⟩ (m.size + 1) (m.used + 1))) := by
  intro fuel i d tomb hi hd hempty hfirst
  obtain ⟨n, rfl⟩ : ∃ n, fuel = n + 1 + d := ⟨fuel - d - 1, by omega⟩
  obtain ⟨tomb', hrun, htomb⟩ := emplaceLoop_walk value assign hc hi hfirst (n + 1) tomb
  have hne : kEmpty ≠ kTombstone := by decide
  rw [hrun, emplaceLoop]
  rcases htomb with rfl | ⟨rfl, e, he, hslot, rfl⟩
  · cases tomb' with
    | none => exact .inr (.inr ⟨rfl, by simp [hempty, hk.symm, hne, U64Map.put]⟩)
    | some t => exact .inl ⟨t, rfl, by simp [hempty, hk.symm, hne, U64Map.put]⟩
  · exact .inr (.inl ⟨rfl, e, he, hslot, by simp [hempty, hk.symm, hne, U64Map.put]⟩)

/-- What `emplace` does to the finite map. -/
def specEmplace (f : Finmap fun _ : UInt64 => UInt32) (key : UInt64) (value : UInt32)
    (assign : Bool) : Bool × Finmap fun _ : UInt64 => UInt32 :=
  if key ∈ f then (false, if assign then f.insert key value else f)
  else (true, f.insert key value)

theorem Models.put_value (h : Models m f) {i : ℕ} (hi : i < m.capacity)
    (hlive : (m.slotAt i).live = true) (value : UInt32) :
    Models (m.put i ⟨(m.slotAt i).key, value⟩ m.size m.used)
      (f.insert (m.slotAt i).key value) where
  wf := by
    have hlive' : (Slot.mk (m.slotAt i).key value).live = true := hlive
    refine h.wf.put hi (inUse_of_live hlive') (fun _ j hj hji hkey => hji ?_)
      (fun _ => h.wf.reach i hi hlive) (by simp [hlive, hlive']) (by simp [inUse_of_live hlive])
      h.wf.load
    exact h.wf.distinct j hj i hi (live_of_key (live_iff.1 hlive) hkey) hkey
  holds_iff k v := by
    have hlive' : (Slot.mk (m.slotAt i).key value).live = true := hlive
    rw [h.wf.put_holds_of_key hi hlive, h.holds_iff]
    by_cases hkk : k = (m.slotAt i).key
    · subst hkk
      rw [Finmap.lookup_insert]
      simp [hlive']
    · rw [Finmap.lookup_insert_of_ne _ hkk]
      simp [hkk, Ne.symm hkk]

/-- **`emplace` inserts or assigns in the finite map**: it looks past the tombstones before it
reuses one. -/
theorem Models.emplace_spec (h : Models m f) {key : UInt64}
    (hk : key ≠ kEmpty ∧ key ≠ kTombstone) (value : UInt32) (assign : Bool) :
    ∃ m', m.emplace key value assign = some ((specEmplace f key value assign).1, m') ∧
      Models m' (specEmplace f key value assign).2 := by
  obtain ⟨m₁, hg, h₁, hc, hroom⟩ := h.growIfNeeded_spec
  simp only [emplace, hg, Option.bind_some]
  clear hg h
  obtain ⟨k, -, hpow⟩ := h₁.wf.cap.resolve_left hc
  have hhome := home_lt hpow key
  obtain ⟨d, hd, hkey | hempty, hfirst⟩ := h₁.wf.exists_stop hpow key
  · have hi := Probe.pos_lt (d := d) hhome
    have hlive := live_of_key hk hkey
    have hmem : key ∈ f := by
      have := h₁.lookup_eq_some hi hlive
      rw [hkey] at this
      exact Finmap.mem_of_lookup_eq_some this
    rw [emplaceLoop_hit value assign hpow none hhome hd hkey hfirst]
    simp only [specEmplace, hmem, if_true]
    cases assign
    · exact ⟨m₁, rfl, h₁⟩
    · refine ⟨_, rfl, ?_⟩
      have := h₁.put_value hi hlive value
      rwa [hkey] at this
  · have hno := h₁.wf.not_held hk hempty fun e he => (hfirst e he).1
    have hmem : key ∉ f := Finmap.lookup_eq_none.1 (h₁.lookup_eq_none hno)
    have hpath : ∀ e < d, (m₁.slotAt (Probe.pos m₁.capacity (m₁.home key) e)).inUse = true :=
      fun e he => inUse_iff.2 (hfirst e he).2
    simp only [specEmplace, hmem, if_false]
    rcases emplaceLoop_miss hk.1 value assign hpow none hhome hd hempty hfirst with
      ⟨t, ht, -⟩ | ⟨-, e, he, htomb, hloop⟩ | ⟨-, hloop⟩
    · exact absurd ht (by simp)
    · refine ⟨_, hloop, h₁.put_new hk hno (Probe.pos_lt hhome) ?_ (he.trans hd) rfl
        (fun e' he' => hpath e' (he'.trans he)) ?_ (by omega)⟩
      · simp [Slot.live, htomb]
      · simp [hpath e he]
    · refine ⟨_, hloop, h₁.put_new hk hno (Probe.pos_lt hhome) ?_ hd rfl hpath ?_ hroom⟩
      · simp [Slot.live, hempty]
      · simp [Slot.inUse, hempty]

/-! ### Runs -/

/-- An operation that changes a map. -/
inductive Op where
  | insertOrAssign (key : MapKey) (value : UInt32)
  | insertIfAbsent (key : MapKey) (value : UInt32)
  | erase (key : MapKey)
  | reserve (n : ℕ)
  | clear

/-- One operation on the table: the flag it returns, if it returns one, and the new table. -/
def step (m : U64Map) : Op → Option (Option Bool × U64Map)
  | .insertOrAssign k v => (m.insertOrAssign k v).map fun r => (some r.1, r.2)
  | .insertIfAbsent k v => (m.insertIfAbsent k v).map fun r => (some r.1, r.2)
  | .erase k => (m.erase k).map fun r => (some r.1, r.2)
  | .reserve n => (m.reserve n).map fun m' => (none, m')
  | .clear => some (none, m.clear)

/-- A run of operations: the flags they return, in order, and the table at the end. -/
def run : U64Map → List Op → Option (List (Option Bool) × U64Map)
  | m, [] => some ([], m)
  | m, op :: ops => (m.step op).bind fun r => (run r.2 ops).map fun q => (r.1 :: q.1, q.2)

/-- One operation on the finite map. -/
def specStep (f : Finmap fun _ : UInt64 => UInt32) :
    Op → Option Bool × Finmap fun _ : UInt64 => UInt32
  | .insertOrAssign k v => (some (decide (k.1 ∉ f)), f.insert k v)
  | .insertIfAbsent k v => (some (decide (k.1 ∉ f)), if k.1 ∈ f then f else f.insert k v)
  | .erase k => (some (decide (k.1 ∈ f)), f.erase k)
  | .reserve _ => (none, f)
  | .clear => (none, ∅)

/-- A run of operations on the finite map. -/
def specRun : (Finmap fun _ : UInt64 => UInt32) → List Op →
    List (Option Bool) × Finmap fun _ : UInt64 => UInt32
  | f, [] => ([], f)
  | f, op :: ops =>
    let r := specStep f op
    let q := specRun r.2 ops
    (r.1 :: q.1, q.2)

/-- What can be observed of a table agrees with a finite map, and its loops end. -/
structure Refines (m : U64Map) (f : Finmap fun _ : UInt64 => UInt32) : Prop where
  /-- `find` ends and is lookup. -/
  find_eq : ∀ k : MapKey, m.find k.1 = some (f.lookup k.1)
  /-- `contains` ends and is membership. -/
  contains_eq : ∀ k : MapKey, m.contains k.1 = some (decide (k.1 ∈ f))
  size_eq : m.size = f.keys.card
  /-- `for_each` visits the entries of the map, each once. -/
  forEach_eq : (m.forEach : Multiset (UInt64 × UInt32)) = f.entries.map fun e => (e.1, e.2)
  no_dup : m.slots.Pairwise fun s t => s.live = true → s.key ≠ t.key
  cap : m.capacity = 0 ∨ ∃ k, m.capacity = 2 ^ k
  /-- `used` is the number of slots that are not empty. -/
  used_eq : m.used = m.slots.countP fun s => s.key != kEmpty
  load : m.used * 4 ≤ m.capacity * 3

theorem models_empty : Models {} ∅ := by
  refine ⟨⟨.inl rfl, rfl, rfl, le_rfl, ?_, ?_⟩, ?_⟩
  · intro i hi; exact absurd hi (Nat.not_lt_zero i)
  · intro i hi; exact absurd hi (Nat.not_lt_zero i)
  · intro k v
    simp only [Finmap.lookup_empty, reduceCtorEq, iff_false]
    rintro ⟨i, hi, -⟩
    exact absurd hi (Nat.not_lt_zero i)

theorem Models.nodup_forEach (h : Models m f) : m.forEach.Nodup := by
  rw [forEach, List.Nodup, List.pairwise_map, List.pairwise_filter]
  refine h.wf.pairwise_keys.imp fun {s t} hst hs _ heq => ?_
  exact hst hs (congrArg Prod.fst heq)

theorem mem_forEach {k : UInt64} {v : UInt32} : (k, v) ∈ m.forEach ↔ m.Holds k v := by
  rw [holds_iff_mem]
  simp only [forEach, List.mem_map, List.mem_filter, Prod.mk.injEq]
  constructor
  · rintro ⟨s, ⟨hs, hlive⟩, rfl, rfl⟩; exact ⟨s, hs, hlive, rfl⟩
  · rintro ⟨s, hs, hlive, rfl⟩; exact ⟨_, ⟨hs, hlive⟩, rfl, rfl⟩

theorem Models.forEach_eq (h : Models m f) :
    (m.forEach : Multiset (UInt64 × UInt32)) = f.entries.map fun e => (e.1, e.2) := by
  have hinj : Function.Injective fun e : (_ : UInt64) × UInt32 => (e.1, e.2) := by
    rintro ⟨a, b⟩ ⟨c, d⟩ heq
    simp only [Prod.mk.injEq] at heq
    obtain ⟨rfl, rfl⟩ := heq; rfl
  refine (Multiset.Nodup.ext (Multiset.coe_nodup.2 h.nodup_forEach)
    (f.nodupKeys.nodup.map hinj)).2 ?_
  rintro ⟨k, v⟩
  rw [Multiset.mem_coe, mem_forEach, h.holds_iff, Finmap.lookup_eq_some_iff, Multiset.mem_map]
  constructor
  · intro he; exact ⟨⟨k, v⟩, he, rfl⟩
  · rintro ⟨⟨a, b⟩, he, heq⟩
    simp only [Prod.mk.injEq] at heq
    obtain ⟨rfl, rfl⟩ := heq; exact he

theorem Models.refines (h : Models m f) : Refines m f where
  find_eq k := h.find_eq k.2
  contains_eq k := by
    rw [contains, h.find_eq k.2, Option.map_some, Option.some.injEq, Bool.eq_iff_iff,
      Finmap.lookup_isSome, decide_eq_true_iff]
  size_eq := by
    have hcard := congrArg Multiset.card h.forEach_eq
    rw [Multiset.coe_card, Multiset.card_map, forEach, List.length_map,
      ← List.countP_eq_length_filter, ← h.wf.size_eq] at hcard
    rw [hcard, ← Multiset.card_map Sigma.fst f.entries]
    rfl
  forEach_eq := h.forEach_eq
  no_dup := h.wf.pairwise_keys
  cap := h.wf.cap.imp id fun ⟨k, _, hk⟩ => ⟨k, hk⟩
  used_eq := h.wf.used_eq
  load := h.wf.load

/-- One operation: it ends, returns what the finite map returns, and keeps representing it. -/
theorem Models.step_spec (h : Models m f) (op : Op) :
    ∃ m', m.step op = some ((specStep f op).1, m') ∧ Models m' (specStep f op).2 := by
  cases op with
  | insertOrAssign k v =>
    obtain ⟨m', he, hm'⟩ := h.emplace_spec k.2 v true
    refine ⟨m', ?_, ?_⟩
    · by_cases hmem : k.1 ∈ f <;>
        simp [step, insertOrAssign, he, specStep, specEmplace, hmem]
    · by_cases hmem : k.1 ∈ f <;> simpa [specStep, specEmplace, hmem] using hm'
  | insertIfAbsent k v =>
    obtain ⟨m', he, hm'⟩ := h.emplace_spec k.2 v false
    refine ⟨m', ?_, ?_⟩
    · by_cases hmem : k.1 ∈ f <;>
        simp [step, insertIfAbsent, he, specStep, specEmplace, hmem]
    · by_cases hmem : k.1 ∈ f <;> simpa [specStep, specEmplace, hmem] using hm'
  | erase k =>
    obtain ⟨m', he, hm'⟩ := h.erase_spec k.2
    refine ⟨m', ?_, hm'⟩
    simp only [step, he, Option.map_some, specStep, Option.some.injEq, Prod.mk.injEq, and_true]
    rw [Bool.eq_iff_iff, Finmap.lookup_isSome, decide_eq_true_iff]
  | reserve n =>
    obtain ⟨m', he, hm', -⟩ := h.reserve_spec n
    exact ⟨m', by simp [step, he, specStep], hm'⟩
  | clear => exact ⟨m.clear, rfl, h.clear_spec⟩

theorem Models.run_spec (ops : List Op) : ∀ {m : U64Map} {f : Finmap fun _ : UInt64 => UInt32},
    Models m f → ∃ m', m.run ops = some ((specRun f ops).1, m') ∧ Models m' (specRun f ops).2 := by
  induction ops with
  | nil => intro m f h; exact ⟨m, rfl, h⟩
  | cons op ops ih =>
    intro m f h
    obtain ⟨m₁, hs, h₁⟩ := h.step_spec op
    obtain ⟨m', hr, h'⟩ := ih h₁
    exact ⟨m', by simp [run, hs, hr, specRun], h'⟩

/-- **`U64Map` refines a finite map.**  Every run of the operations from an empty map ends, with
the flags the finite map gives, in a table that cannot be told from the finite map. -/
theorem run_refines (ops : List Op) :
    ∃ m, run {} ops = some ((specRun ∅ ops).1, m) ∧ Refines m (specRun ∅ ops).2 := by
  obtain ⟨m, hr, h⟩ := models_empty.run_spec ops
  exact ⟨m, hr, h.refines⟩

end U64Map

end WslDrive
