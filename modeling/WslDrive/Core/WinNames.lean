import Mathlib.Data.List.Infix
import Mathlib.Data.Set.Function
import WslDrive.Core.Path

/-!
# Names on a Windows volume

Bytes that Windows forbids in a name are shown as code points of the private use area: the byte
`b` as `U+F000 + b`.  A name that holds such a code point itself is shown as it is, and read back
as the byte.

* `WinNames.unescape_escape` — what is read back is what reading the name itself would give;
* `WinNames.unescape_eq_self_iff` — so names are read back as they are exactly if they hold no
  code point of the private use area;
* `WinNames.escape_lossless_iff` — and then no two of them are shown alike.
-/

namespace WslDrive

namespace WinNames

/-- `is_reserved`: `<`, `>`, `:`, `"`, `|`, `?`, `*`, `\` and the control characters. -/
def isReserved (b : UInt8) : Bool :=
  b == 0x3C || b == 0x3E || b == 0x3A || b == 0x22 || b == 0x7C || b == 0x3F || b == 0x2A ||
    b == 0x5C || b < 0x20

/-- `encode_utf8`, up to `U+FFFF`. -/
def encodeUtf8 (cp : ℕ) : Bytes :=
  if cp < 0x80 then [UInt8.ofNat cp]
  else if cp < 0x800 then
    [UInt8.ofNat (0xC0 ||| (cp >>> 6)), UInt8.ofNat (0x80 ||| (cp &&& 0x3F))]
  else
    [UInt8.ofNat (0xE0 ||| (cp >>> 12)), UInt8.ofNat (0x80 ||| ((cp >>> 6) &&& 0x3F)),
      UInt8.ofNat (0x80 ||| (cp &&& 0x3F))]

/-- A name must not end in `.` or a blank. -/
def isDotOrSpace (b : UInt8) : Bool := b == 0x2E || b == 0x20

/-- `needs_escaping`. -/
def needsEscaping (raw : Bytes) : Bool := raw.any isReserved || raw.getLast?.any isDotOrSpace

/-- The loop of `escape_for_windows`. -/
def escapeLoop : Bytes → Bytes
  | [] => []
  | b :: rest =>
    let trailingDotSpace := rest.isEmpty && isDotOrSpace b
    (if isReserved b || trailingDotSpace then encodeUtf8 (0xF000 + b.toNat) else [b]) ++
      escapeLoop rest

/-- `escape_for_windows`. -/
def escapeForWindows (raw : Bytes) : Bytes :=
  if !needsEscaping raw then raw else escapeLoop raw

/-- `unescape_from_windows`. -/
def unescapeFromWindows : Bytes → Bytes
  | b0 :: b1 :: b2 :: rest =>
    let cp := ((b0 &&& 0x0F).toNat <<< 12) ||| ((b1 &&& 0x3F).toNat <<< 6) ||| (b2 &&& 0x3F).toNat
    if b0 = 0xEF ∧ (b1 &&& 0xFC = 0x80 ∧ b2 &&& 0xC0 = 0x80) ∧ 0xF000 ≤ cp ∧ cp ≤ 0xF0FF then
      UInt8.ofNat (cp - 0xF000) :: unescapeFromWindows rest
    else b0 :: unescapeFromWindows (b1 :: b2 :: rest)
  | b :: rest => b :: unescapeFromWindows rest
  | [] => []

/-! ### The private use area -/

/-- How the byte `b` is shown: `U+F000 + b` in UTF-8. -/
def privateUse (b : UInt8) : Bytes := encodeUtf8 (0xF000 + b.toNat)

/-- The bytes of a code point of the private use area.  Only the first of them is `EF`, and none
is ASCII. -/
structure Encodes (b b1 b2 : UInt8) : Prop where
  eq : privateUse b = [0xEF, b1, b2]
  ne_one : b1 ≠ 0xEF
  ne_two : b2 ≠ 0xEF
  le_one : 0x80 ≤ b1
  le_two : 0x80 ≤ b2
  bits_one : b1 &&& 0xFC = 0x80
  bits_two : b2 &&& 0xC0 = 0x80
  value : (((0xEF : UInt8) &&& 0x0F).toNat <<< 12) ||| ((b1 &&& 0x3F).toNat <<< 6) |||
    (b2 &&& 0x3F).toNat = 0xF000 + b.toNat

theorem exists_encodes (b : UInt8) : ∃ b1 b2, Encodes b b1 b2 := by
  have h : ∀ b : UInt8,
      let b1 := UInt8.ofNat (0x80 ||| (((0xF000 + b.toNat) >>> 6) &&& 0x3F))
      let b2 := UInt8.ofNat (0x80 ||| ((0xF000 + b.toNat) &&& 0x3F))
      privateUse b = [0xEF, b1, b2] ∧ b1 ≠ 0xEF ∧ b2 ≠ 0xEF ∧ 0x80 ≤ b1 ∧ 0x80 ≤ b2 ∧
        b1 &&& 0xFC = 0x80 ∧ b2 &&& 0xC0 = 0x80 ∧
        (((0xEF : UInt8) &&& 0x0F).toNat <<< 12) ||| ((b1 &&& 0x3F).toNat <<< 6) |||
          (b2 &&& 0x3F).toNat = 0xF000 + b.toNat :=
    forall_byte (by decide)
  obtain ⟨h1, h2, h3, h4, h5, h6, h7, h8⟩ := h b
  exact ⟨_, _, h1, h2, h3, h4, h5, h6, h7, h8⟩

theorem exists_privateUse {b1 b2 : UInt8} (h1 : b1 &&& 0xFC = 0x80) (h2 : b2 &&& 0xC0 = 0x80) :
    ∃ b, privateUse b = [0xEF, b1, b2] := by
  have hone : ∀ b : UInt8, b &&& 0xFC = 0x80 →
      (b &&& 0x03).toNat < 4 ∧ UInt8.ofNat (0x80 ||| (b &&& 0x03).toNat) = b :=
    forall_byte (by decide)
  have htwo : ∀ b : UInt8, b &&& 0xC0 = 0x80 →
      (b &&& 0x3F).toNat < 64 ∧ UInt8.ofNat (0x80 ||| (b &&& 0x3F).toNat) = b :=
    forall_byte (by decide)
  have hall : ∀ x < 4, ∀ y < 64, privateUse (UInt8.ofNat (x * 64 + y)) =
      [0xEF, UInt8.ofNat (0x80 ||| x), UInt8.ofNat (0x80 ||| y)] := by
    decide
  obtain ⟨hx, hb1⟩ := hone b1 h1
  obtain ⟨hy, hb2⟩ := htwo b2 h2
  have heq := hall _ hx _ hy
  rw [hb1, hb2] at heq
  exact ⟨_, heq⟩

theorem unescape_privateUse (b : UInt8) (rest : Bytes) :
    unescapeFromWindows (privateUse b ++ rest) = b :: unescapeFromWindows rest := by
  obtain ⟨b1, b2, h⟩ := exists_encodes b
  have hlt := b.toNat_lt
  rw [h.eq, List.cons_append, List.cons_append, List.cons_append, List.nil_append,
    unescapeFromWindows, h.value, if_pos ⟨rfl, ⟨h.bits_one, h.bits_two⟩, by omega, by omega⟩,
    Nat.add_sub_cancel_left, UInt8.ofNat_toNat]

theorem unescape_cons {b : UInt8} {rest : Bytes} (h : ∀ c, ¬ privateUse c <+: b :: rest) :
    unescapeFromWindows (b :: rest) = b :: unescapeFromWindows rest := by
  rcases rest with - | ⟨b1, - | ⟨b2, rest⟩⟩
  · rfl
  · rfl
  · rw [unescapeFromWindows, if_neg]
    rintro ⟨rfl, ⟨h1, h2⟩, -⟩
    obtain ⟨c, hc⟩ := exists_privateUse h1 h2
    exact h c (hc ▸ ⟨rest, rfl⟩)

theorem shown_cases {motive : Bytes → Prop} (nil : motive [])
    (escape : ∀ c rest, motive rest → motive (privateUse c ++ rest))
    (plain : ∀ b rest, (∀ c, ¬ privateUse c <+: b :: rest) → motive rest → motive (b :: rest))
    (s : Bytes) : motive s := by
  induction hn : s.length using Nat.strong_induction_on generalizing s with
  | _ n ih =>
    subst hn
    cases s with
    | nil => exact nil
    | cons b rest =>
      by_cases h : ∃ c, privateUse c <+: b :: rest
      · obtain ⟨c, rest', hc⟩ := h
        obtain ⟨b1, b2, he⟩ := exists_encodes c
        rw [← hc] at ih ⊢
        exact escape c rest' (ih _ (by rw [he.eq]; simp; omega) rest' rfl)
      · exact plain b rest (not_exists.1 h) (ih _ (by simp) rest rfl)

theorem privateUse_injective : Function.Injective privateUse := by
  intro b c h
  have := congrArg unescapeFromWindows (congrArg (· ++ []) h)
  simpa only [unescape_privateUse, List.cons.injEq, and_true] using this

theorem infix_privateUse_append {b c : UInt8} {rest : Bytes} :
    privateUse b <:+: privateUse c ++ rest ↔ b = c ∨ privateUse b <:+: rest := by
  obtain ⟨b1, b2, hb⟩ := exists_encodes b
  obtain ⟨c1, c2, hc⟩ := exists_encodes c
  refine ⟨fun h => ?_, ?_⟩
  · rw [hb.eq, hc.eq] at h
    simp only [List.cons_append, List.nil_append, List.infix_cons_iff, List.cons_prefix_cons,
      hc.ne_one.symm, hc.ne_two.symm, false_and, false_or, true_and] at h
    rcases h with ⟨rfl, rfl, -⟩ | h
    · exact .inl (privateUse_injective (hb.eq.trans hc.eq.symm))
    · exact .inr (hb.eq ▸ h)
  · rintro (rfl | h)
    · exact (List.prefix_append _ _).isInfix
    · exact h.trans (List.suffix_append _ _).isInfix

/-! ### Reading names back -/

/-- A name holds no code point of the private use area. -/
def NoPrivateUse (s : Bytes) : Prop := ∀ c, ¬ privateUse c <:+: s

theorem noPrivateUse_cons {b : UInt8} {rest : Bytes} (h : ∀ c, ¬ privateUse c <+: b :: rest) :
    NoPrivateUse (b :: rest) ↔ NoPrivateUse rest :=
  forall_congr' fun c => by rw [List.infix_cons_iff, or_iff_right (h c)]

theorem length_privateUse (b : UInt8) : (privateUse b).length = 3 := by
  obtain ⟨b1, b2, h⟩ := exists_encodes b
  rw [h.eq]
  rfl

theorem length_unescape_le (s : Bytes) : (unescapeFromWindows s).length ≤ s.length := by
  induction s using shown_cases with
  | nil => exact le_rfl
  | escape c rest ih =>
    rw [unescape_privateUse, List.length_append, length_privateUse, List.length_cons]
    omega
  | plain b rest hb ih =>
    rw [unescape_cons hb]
    exact Nat.succ_le_succ ih

/-- **Names are read back as they are** exactly if they hold no code point of the private use
area. -/
theorem unescape_eq_self_iff (s : Bytes) : unescapeFromWindows s = s ↔ NoPrivateUse s := by
  induction s using shown_cases with
  | nil => exact ⟨fun _ c h => by simpa [length_privateUse] using h.length_le, fun _ => rfl⟩
  | escape c rest ih =>
    refine iff_of_false (fun h => ?_) fun h => h c (List.prefix_append _ _).isInfix
    -- What is read back is shorter.
    have hlen := congrArg List.length h
    rw [unescape_privateUse, List.length_append, length_privateUse, List.length_cons] at hlen
    have := length_unescape_le rest
    omega
  | plain b rest hb ih =>
    rw [unescape_cons hb, noPrivateUse_cons hb, ← ih, List.cons.injEq, and_iff_right rfl]

/-- ASCII bytes read back are those of the name and those shown in the private use area. -/
theorem count_unescape {x : UInt8} (hx : x < 0x80) (s : Bytes) :
    s.count x ≤ (unescapeFromWindows s).count x ∧
      ((unescapeFromWindows s).count x = s.count x ↔ ¬ privateUse x <:+: s) := by
  induction s using shown_cases with
  | nil =>
    refine ⟨le_rfl, iff_of_true rfl fun h => ?_⟩
    simpa [length_privateUse] using h.length_le
  | escape c rest ih =>
    obtain ⟨hle, hiff⟩ := ih
    have hzero : (privateUse c).count x = 0 := by
      obtain ⟨b1, b2, h⟩ := exists_encodes c
      have hne : ∀ b : UInt8, 0x80 ≤ b → b ≠ x := fun b hb hbx =>
        absurd (hbx ▸ hx) (UInt8.not_lt.2 hb)
      rw [h.eq]
      simp [hne b1 h.le_one, hne b2 h.le_two, hne 0xEF (by decide)]
    rw [unescape_privateUse, List.count_append, hzero, Nat.zero_add, infix_privateUse_append,
      not_or, ← hiff]
    by_cases hc : x = c
    · subst hc
      rw [List.count_cons_self]
      refine ⟨hle.trans (Nat.le_succ _), iff_of_false (by omega) fun h => h.1 rfl⟩
    · rw [List.count_cons_of_ne (Ne.symm hc), and_iff_right hc]
      exact ⟨hle, Iff.rfl⟩
  | plain b rest hb ih =>
    obtain ⟨hle, hiff⟩ := ih
    rw [unescape_cons hb, List.infix_cons_iff, or_iff_right (hb x), ← hiff, List.count_cons,
      List.count_cons]
    exact ⟨Nat.add_le_add_right hle _, Nat.add_right_cancel_iff⟩

theorem mem_unescape_iff {x : UInt8} (hx : x < 0x80) (s : Bytes) :
    x ∈ unescapeFromWindows s ↔ x ∈ s ∨ privateUse x <:+: s := by
  obtain ⟨hle, hiff⟩ := count_unescape hx s
  rw [← List.count_pos_iff, ← List.count_pos_iff]
  by_cases h : privateUse x <:+: s
  · refine iff_of_true ?_ (.inr h)
    have := mt hiff.1 (not_not.2 h)
    omega
  · rw [hiff.2 h, or_iff_left h]

/-! ### Showing names -/

/-- Is this byte, the last one or not, shown in the private use area? -/
def escapes (b : UInt8) (rest : Bytes) : Bool := isReserved b || (rest.isEmpty && isDotOrSpace b)

theorem escapeLoop_cons (b : UInt8) (rest : Bytes) :
    escapeLoop (b :: rest) =
      (if escapes b rest then privateUse b else [b]) ++ escapeLoop rest := rfl

theorem not_escapes_of_le {b : UInt8} (hb : 0x80 ≤ b) (rest : Bytes) : escapes b rest = false := by
  have h : ∀ b : UInt8, 0x80 ≤ b → isReserved b = false ∧ isDotOrSpace b = false :=
    forall_byte (by decide)
  rw [escapes, (h b hb).1, (h b hb).2, Bool.and_false, Bool.or_false]

theorem needsEscaping_cons (b : UInt8) (rest : Bytes) :
    needsEscaping (b :: rest) = (escapes b rest || needsEscaping rest) := by
  cases rest with
  | nil => simp [needsEscaping, escapes]
  | cons c rest => simp [needsEscaping, escapes, Bool.or_assoc]

/-- The test before the loop only saves work. -/
theorem escapeForWindows_eq (raw : Bytes) : escapeForWindows raw = escapeLoop raw := by
  rw [escapeForWindows]
  split_ifs with h
  · rw [Bool.not_eq_true'] at h
    induction raw with
    | nil => rfl
    | cons b rest ih =>
      rw [needsEscaping_cons, Bool.or_eq_false_iff] at h
      rw [escapeLoop_cons, h.1, ← ih h.2]
      rfl
  · rfl

theorem escapeLoop_privateUse (c : UInt8) (rest : Bytes) :
    escapeLoop (privateUse c ++ rest) = privateUse c ++ escapeLoop rest := by
  obtain ⟨b1, b2, h⟩ := exists_encodes c
  rw [h.eq]
  simp only [List.cons_append, List.nil_append, escapeLoop_cons,
    not_escapes_of_le (show (0x80 : UInt8) ≤ 0xEF by decide), not_escapes_of_le h.le_one,
    not_escapes_of_le h.le_two, Bool.false_eq_true, if_false]

theorem prefix_of_prefix_escapeLoop {y : UInt8} {ys rest : Bytes} (hy : y ≠ 0xEF)
    (h : y :: ys <+: escapeLoop rest) :
    ∃ rest', rest = y :: rest' ∧ ys <+: escapeLoop rest' := by
  cases rest with
  | nil => simp [escapeLoop] at h
  | cons b rest =>
    obtain ⟨b1, b2, hb⟩ := exists_encodes b
    rw [escapeLoop_cons, hb.eq] at h
    split_ifs at h
    · exact absurd (List.cons_prefix_cons.1 h).1 hy
    · obtain ⟨rfl, hys⟩ := List.cons_prefix_cons.1 h
      exact ⟨rest, rfl, hys⟩

/-- Escaping makes no code point of the private use area out of a byte it keeps. -/
theorem not_prefix_escapeLoop {b : UInt8} {rest : Bytes} (h : ∀ c, ¬ privateUse c <+: b :: rest)
    (c : UInt8) : ¬ privateUse c <+: b :: escapeLoop rest := by
  intro hp
  obtain ⟨c1, c2, hc⟩ := exists_encodes c
  rw [hc.eq] at hp
  obtain ⟨rfl, hp₁⟩ := List.cons_prefix_cons.1 hp
  obtain ⟨rest₁, rfl, hp₂⟩ := prefix_of_prefix_escapeLoop hc.ne_one hp₁
  obtain ⟨rest₂, rfl, -⟩ := prefix_of_prefix_escapeLoop hc.ne_two hp₂
  exact h c (hc.eq ▸ ⟨rest₂, rfl⟩)

/-- **What is read back** of the shown name is what reading the name itself gives. -/
theorem unescape_escape (raw : Bytes) :
    unescapeFromWindows (escapeForWindows raw) = unescapeFromWindows raw := by
  rw [escapeForWindows_eq]
  induction raw using shown_cases with
  | nil => rfl
  | escape c rest ih => rw [escapeLoop_privateUse, unescape_privateUse, unescape_privateUse, ih]
  | plain b rest hb ih =>
    rw [escapeLoop_cons, unescape_cons hb, ← ih]
    split_ifs
    · exact unescape_privateUse b _
    · exact unescape_cons (not_prefix_escapeLoop hb)

/-- **Escaping is lossless** on the names of a directory, and shows no two of them alike, exactly
if none of them holds a code point of the private use area. -/
theorem escape_lossless_iff (names : Set Bytes) :
    ((∀ raw ∈ names, unescapeFromWindows (escapeForWindows raw) = raw) ∧
      Set.InjOn escapeForWindows names) ↔ ∀ raw ∈ names, NoPrivateUse raw := by
  have hiff : ∀ raw, unescapeFromWindows (escapeForWindows raw) = raw ↔ NoPrivateUse raw :=
    fun raw => by rw [unescape_escape, unescape_eq_self_iff]
  simp only [hiff]
  refine and_iff_left_of_imp fun h => ?_
  have hinv : Set.LeftInvOn unescapeFromWindows escapeForWindows names :=
    fun raw hraw => (hiff raw).2 (h raw hraw)
  exact hinv.injOn

/-- `U+F03A` is shown as it is, like `:`, and both are read back as `:`. -/
theorem escape_confuses_colon :
    Path.slash ∉ [0xEF, 0x80, 0xBA] ∧
    unescapeFromWindows (escapeForWindows [0xEF, 0x80, 0xBA]) = [0x3A] ∧
    [0x3A] ≠ ([0xEF, 0x80, 0xBA] : Bytes) ∧
    escapeForWindows [0x3A] = escapeForWindows [0xEF, 0x80, 0xBA] := by
  decide

end WinNames

end WslDrive
