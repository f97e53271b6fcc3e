import WslDrive.Core.Tree.Lookup

/-!
# Case folding as a normal form

The bytes `decode_utf8` accepts are exactly the encodings `encode_utf8` gives, so a string is cut
into encoded code points and single bytes that belong to none.  Folding keeps that cut: a folded
code point is encoded again, and a byte that was no part of a sequence stays one, since the
continuation bytes after it are kept.

* `Unicode.decodeUtf8_eq_some_iff` — decoding is the inverse of encoding;
* `Unicode.casefold_casefold`, `Unicode.length_casefold_le` — folding twice is folding once, and
  no string gets longer;
* `MetadataTree.internFolded_eq` — skipping the folding of a name gives the same id;
* `MetadataTree.foldedNames_normal` — the folded names of the tree are the foldings of its names.
-/

namespace WslDrive

namespace Unicode

/-! ### UTF-8 -/

/-- A Unicode scalar value. -/
def Scalar (cp : ℕ) : Prop := cp ≤ 0x10FFFF ∧ ¬ (0xD800 ≤ cp ∧ cp ≤ 0xDFFF)

/-- A continuation byte. -/
def isContinuation (b : UInt8) : Bool := b &&& 0xC0 == 0x80

theorem continuation_bits : ∀ x < 64,
    UInt8.ofNat (0x80 ||| x) &&& 0xC0 = 0x80 ∧ (UInt8.ofNat (0x80 ||| x) &&& 0x3F).toNat = x := by
  decide

theorem eq_continuation (b : UInt8) : b &&& 0xC0 = 0x80 →
    (b &&& 0x3F).toNat < 64 ∧ b = UInt8.ofNat (0x80 ||| (b &&& 0x3F).toNat) := by
  revert b
  exact forall_byte (by decide)

theorem shift_or (cp : ℕ) {x : ℕ} (hx : x < 64) : (cp <<< 6) ||| x = cp * 64 + x := by
  rw [← Nat.shiftLeft_add_eq_or_of_lt (by simpa using hx), Nat.shiftLeft_eq]

theorem low_bits (cp : ℕ) : cp &&& 0x3F = cp % 64 := Nat.and_two_pow_sub_one_eq_mod cp 6

theorem digit_div (cp : ℕ) {x : ℕ} (hx : x < 64) : (cp * 64 + x) / 64 = cp := by omega

theorem digit_mod (cp : ℕ) {x : ℕ} (hx : x < 64) : (cp * 64 + x) % 64 = x := by omega

theorem decodeContinuation_cons (k cp : ℕ) {x : ℕ} (hx : x < 64) (rest : Bytes) :
    decodeContinuation (k + 1) cp (UInt8.ofNat (0x80 ||| x) :: rest) =
      decodeContinuation k (cp * 64 + x) rest := by
  obtain ⟨hc, hl⟩ := continuation_bits x hx
  rw [decodeContinuation, if_neg (not_not.2 hc), hl, shift_or cp hx]

theorem decodeContinuation_digit (k cp : ℕ) (rest : Bytes) :
    decodeContinuation (k + 1) (cp / 64) (UInt8.ofNat (0x80 ||| cp % 64) :: rest) =
      decodeContinuation k cp rest := by
  rw [decodeContinuation_cons k (cp / 64) (Nat.mod_lt cp (by decide)), Nat.div_add_mod']

theorem decodeContinuation_succ {k cp cp' : ℕ} {s rest : Bytes}
    (h : decodeContinuation (k + 1) cp s = some (cp', rest)) :
    ∃ x < 64, ∃ s', s = UInt8.ofNat (0x80 ||| x) :: s' ∧
      decodeContinuation k (cp * 64 + x) s' = some (cp', rest) := by
  cases s with
  | nil => simp [decodeContinuation] at h
  | cons b s =>
    rw [decodeContinuation] at h
    by_cases hb : b &&& 0xC0 = 0x80
    · obtain ⟨hlt, heq⟩ := eq_continuation b hb
      rw [if_neg (not_not.2 hb), shift_or cp hlt] at h
      exact ⟨_, hlt, s, by rw [← heq], h⟩
    · rw [if_pos hb] at h
      cases h

/-- What the first byte of a longer sequence says: its length and the first bits. -/
def lead (b : UInt8) : Option (ℕ × ℕ) :=
  if b &&& 0xE0 = 0xC0 then some (2, (b &&& 0x1F).toNat)
  else if b &&& 0xF0 = 0xE0 then some (3, (b &&& 0x0F).toNat)
  else if b &&& 0xF8 = 0xF0 then some (4, (b &&& 0x07).toNat)
  else none

/-- The last check of `decode_utf8`. -/
def accept (len : ℕ) (r : ℕ × Bytes) : Option (ℕ × Bytes) :=
  if (len = 2 ∧ r.1 < 0x80) ∨ (len = 3 ∧ r.1 < 0x800) ∨ (len = 4 ∧ r.1 < 0x10000) ∨
    0x10FFFF < r.1 ∨ (0xD800 ≤ r.1 ∧ r.1 ≤ 0xDFFF) then none
  else some r

theorem decodeUtf8_cons (b : UInt8) (rest : Bytes) :
    decodeUtf8 (b :: rest) =
      if b < 0x80 then some (b.toNat, rest)
      else (lead b).bind fun l => (decodeContinuation (l.1 - 1) l.2 rest).bind (accept l.1) := by
  rw [decodeUtf8]
  by_cases hb : b < 0x80
  · rw [if_pos hb, if_pos hb]
  rw [if_neg hb, if_neg hb, ← lead]
  cases lead b with
  | none => rfl
  | some l =>
    obtain ⟨len, cp⟩ := l
    dsimp only [Option.bind_some]
    cases decodeContinuation (len - 1) cp rest <;> rfl

theorem decodeUtf8_of_lead {b : UInt8} {k x : ℕ} (hb : ¬ b < 0x80) (hl : lead b = some (k + 1, x))
    (s : Bytes) : decodeUtf8 (b :: s) = (decodeContinuation k x s).bind (accept (k + 1)) := by
  rw [decodeUtf8_cons, if_neg hb, hl]
  rfl

theorem lead_two : ∀ x < 32, ¬ UInt8.ofNat (0xC0 ||| x) < 0x80 ∧
    lead (UInt8.ofNat (0xC0 ||| x)) = some (2, x) := by
  decide

theorem lead_three : ∀ x < 16, ¬ UInt8.ofNat (0xE0 ||| x) < 0x80 ∧
    lead (UInt8.ofNat (0xE0 ||| x)) = some (3, x) := by
  decide

theorem lead_four : ∀ x < 8, ¬ UInt8.ofNat (0xF0 ||| x) < 0x80 ∧
    lead (UInt8.ofNat (0xF0 ||| x)) = some (4, x) := by
  decide

theorem eq_lead (b : UInt8) : ∀ l ∈ lead b,
    (l.1 = 2 ∧ l.2 < 32 ∧ b = UInt8.ofNat (0xC0 ||| l.2)) ∨
    (l.1 = 3 ∧ l.2 < 16 ∧ b = UInt8.ofNat (0xE0 ||| l.2)) ∨
    (l.1 = 4 ∧ l.2 < 8 ∧ b = UInt8.ofNat (0xF0 ||| l.2)) := by
  revert b
  exact forall_byte (by decide)

theorem encodeUtf8_eq (cp : ℕ) :
    encodeUtf8 cp =
      if cp < 0x80 then [UInt8.ofNat cp]
      else if cp < 0x800 then
        [UInt8.ofNat (0xC0 ||| cp / 64), UInt8.ofNat (0x80 ||| cp % 64)]
      else if cp < 0x10000 then
        [UInt8.ofNat (0xE0 ||| cp / 64 / 64), UInt8.ofNat (0x80 ||| cp / 64 % 64),
          UInt8.ofNat (0x80 ||| cp % 64)]
      else
        [UInt8.ofNat (0xF0 ||| cp / 64 / 64 / 64), UInt8.ofNat (0x80 ||| cp / 64 / 64 % 64),
          UInt8.ofNat (0x80 ||| cp / 64 % 64), UInt8.ofNat (0x80 ||| cp % 64)] := by
  simp only [encodeUtf8, low_bits, Nat.shiftRight_eq_div_pow, Nat.div_div_eq_div_mul,
    Nat.reducePow, Nat.reduceMul]

theorem decodeUtf8_encodeUtf8 {cp : ℕ} (h : Scalar cp) (rest : Bytes) :
    decodeUtf8 (encodeUtf8 cp ++ rest) = some (cp, rest) := by
  obtain ⟨hmax, hsurrogate⟩ := h
  rw [encodeUtf8_eq]
  split_ifs with h1 h2 h3 <;> simp only [List.cons_append, List.nil_append]
  · have hnat : (UInt8.ofNat cp).toNat = cp := UInt8.toNat_ofNat_of_lt' (h1.trans (by decide))
    have hlt : UInt8.ofNat cp < 0x80 := UInt8.lt_iff_toNat_lt.2 (hnat.symm ▸ h1)
    rw [decodeUtf8_cons, if_pos hlt, hnat]
  · obtain ⟨hb, hl⟩ := lead_two (cp / 64) (by omega)
    rw [decodeUtf8_of_lead hb hl, decodeContinuation_digit, decodeContinuation, Option.bind_some,
      accept, if_neg]
    dsimp only
    omega
  · obtain ⟨hb, hl⟩ := lead_three (cp / 64 / 64) (by omega)
    rw [decodeUtf8_of_lead hb hl, decodeContinuation_digit, decodeContinuation_digit,
      decodeContinuation, Option.bind_some, accept, if_neg]
    dsimp only
    omega
  · obtain ⟨hb, hl⟩ := lead_four (cp / 64 / 64 / 64) (by omega)
    rw [decodeUtf8_of_lead hb hl, decodeContinuation_digit, decodeContinuation_digit,
      decodeContinuation_digit, decodeContinuation, Option.bind_some, accept, if_neg]
    dsimp only
    omega

/-- **Decoding is the inverse of encoding**: a sequence is accepted exactly if it encodes a
scalar value. -/
theorem decodeUtf8_eq_some_iff {s rest : Bytes} {cp : ℕ} :
    decodeUtf8 s = some (cp, rest) ↔ Scalar cp ∧ s = encodeUtf8 cp ++ rest := by
  refine ⟨fun h => ?_, ?_⟩
  swap
  · rintro ⟨hcp, rfl⟩
    exact decodeUtf8_encodeUtf8 hcp rest
  cases s with
  | nil => simp [decodeUtf8] at h
  | cons b s =>
    rw [decodeUtf8_cons] at h
    split_ifs at h with hb
    · cases h
      have hlt : b.toNat < 0x80 := UInt8.lt_iff_toNat_lt.1 hb
      refine ⟨by simp only [Scalar]; omega, ?_⟩
      rw [encodeUtf8_eq, if_pos hlt, UInt8.ofNat_toNat, List.singleton_append]
    obtain ⟨⟨len, cp₀⟩, hlead, h⟩ := Option.bind_eq_some_iff.1 h
    obtain ⟨⟨cp', rest'⟩, hcont, h⟩ := Option.bind_eq_some_iff.1 h
    rw [accept] at h
    split_ifs at h with hno
    cases h
    dsimp only at hcont hno
    -- The length is the one of the encoding, since shorter encodings are refused.
    have hscalar : Scalar cp := by
      simp only [Scalar]
      omega
    refine ⟨hscalar, ?_⟩
    rcases eq_lead b _ hlead with ⟨rfl, hlt, rfl⟩ | ⟨rfl, hlt, rfl⟩ | ⟨rfl, hlt, rfl⟩ <;>
      dsimp only at hlt ⊢
    · obtain ⟨x, hx, s₁, rfl, h₁⟩ := decodeContinuation_succ hcont
      cases h₁
      rw [encodeUtf8_eq, if_neg (by omega), if_pos (by omega)]
      rw [digit_div _ hx, digit_mod _ hx]
      rfl
    · obtain ⟨x, hx, s₁, rfl, h₁⟩ := decodeContinuation_succ hcont
      obtain ⟨y, hy, s₂, rfl, h₂⟩ := decodeContinuation_succ h₁
      cases h₂
      rw [encodeUtf8_eq, if_neg (by omega), if_neg (by omega), if_pos (by omega)]
      rw [digit_div _ hy, digit_mod _ hy, digit_div _ hx, digit_mod _ hx]
      rfl
    · obtain ⟨x, hx, s₁, rfl, h₁⟩ := decodeContinuation_succ hcont
      obtain ⟨y, hy, s₂, rfl, h₂⟩ := decodeContinuation_succ h₁
      obtain ⟨z, hz, s₃, rfl, h₃⟩ := decodeContinuation_succ h₂
      cases h₃
      rw [encodeUtf8_eq, if_neg (by omega), if_neg (by omega), if_neg (by omega)]
      rw [digit_div _ hz, digit_mod _ hz, digit_div _ hy, digit_mod _ hy, digit_div _ hx,
        digit_mod _ hx]
      rfl

theorem encodeUtf8_ne_nil (cp : ℕ) : encodeUtf8 cp ≠ [] := by
  rw [encodeUtf8]
  split_ifs <;> simp

/-! ### Folding -/

/-- What a string starts with: an encoded code point, or a byte that belongs to none. -/
theorem decode_cases {motive : Bytes → Prop} (nil : motive [])
    (scalar : ∀ cp rest, Scalar cp → motive rest → motive (encodeUtf8 cp ++ rest))
    (stray : ∀ b rest, decodeUtf8 (b :: rest) = none → motive rest → motive (b :: rest))
    (s : Bytes) : motive s := by
  induction hn : s.length using Nat.strong_induction_on generalizing s with
  | _ n ih =>
    subst hn
    cases s with
    | nil => exact nil
    | cons b rest =>
      cases h : decodeUtf8 (b :: rest) with
      | none => exact stray b rest h (ih _ (by simp) rest rfl)
      | some r =>
        obtain ⟨cp, rest'⟩ := r
        obtain ⟨hcp, heq⟩ := decodeUtf8_eq_some_iff.1 h
        rw [heq]
        have hpos := List.length_pos_iff.2 (encodeUtf8_ne_nil cp)
        exact scalar cp rest' hcp (ih _ (by rw [heq, List.length_append]; omega) rest' rfl)

theorem casefoldLoop_succ (fuel : ℕ) (b : UInt8) (rest out : Bytes) :
    casefoldLoop (fuel + 1) (b :: rest) out =
      ((decodeUtf8 (b :: rest)).map fun r =>
        casefoldLoop fuel r.2 (out ++ encodeUtf8 (casefoldCodepoint r.1))).getD
      (casefoldLoop fuel rest (out ++ [b])) := by
  rw [casefoldLoop]
  by_cases hb : b < 0x80
  · rw [if_pos hb, decodeUtf8_cons, if_pos hb]
    have henc : ∀ b : UInt8, b < 0x80 →
        encodeUtf8 (casefoldCodepoint b.toNat) = [if isUpper b then b + 0x20 else b] :=
      forall_byte (by decide)
    rw [Option.map_some, Option.getD_some, henc b hb]
  · rw [if_neg hb]
    cases decodeUtf8 (b :: rest) <;> rfl

theorem casefoldLoop_nil (fuel : ℕ) (out : Bytes) : casefoldLoop fuel [] out = out := by
  cases fuel <;> rfl

theorem casefoldLoop_eq {fuel : ℕ} (s out : Bytes) (h : s.length ≤ fuel) :
    casefoldLoop fuel s out = out ++ casefold s := by
  suffices ∀ s : Bytes, ∃ folded, ∀ fuel out, s.length ≤ fuel →
      casefoldLoop fuel s out = out ++ folded by
    obtain ⟨folded, hf⟩ := this s
    rw [hf fuel out h, casefold, hf s.length [] le_rfl, List.nil_append]
  intro s
  induction s using decode_cases with
  | nil => exact ⟨[], fun fuel out _ => by rw [casefoldLoop_nil, List.append_nil]⟩
  | scalar cp rest hcp ih =>
    obtain ⟨folded, ih⟩ := ih
    refine ⟨encodeUtf8 (casefoldCodepoint cp) ++ folded, fun fuel out hlen => ?_⟩
    have hdec := decodeUtf8_encodeUtf8 hcp rest
    obtain ⟨b, tl, htl⟩ := List.exists_cons_of_ne_nil (encodeUtf8_ne_nil cp)
    rw [htl, List.cons_append] at hdec hlen ⊢
    obtain ⟨fuel, rfl⟩ := Nat.exists_eq_succ_of_ne_zero (n := fuel) (by simp at hlen; omega)
    rw [casefoldLoop_succ, hdec, Option.map_some, Option.getD_some, ih, List.append_assoc]
    simp at hlen
    omega
  | stray b rest hnone ih =>
    obtain ⟨folded, ih⟩ := ih
    refine ⟨b :: folded, fun fuel out hlen => ?_⟩
    obtain ⟨fuel, rfl⟩ := Nat.exists_eq_succ_of_ne_zero (n := fuel) (by simp at hlen; omega)
    rw [casefoldLoop_succ, hnone, Option.map_none, Option.getD_none, ih, List.append_assoc]
    · rfl
    · simpa using hlen

theorem casefold_scalar {cp : ℕ} (hcp : Scalar cp) (rest : Bytes) :
    casefold (encodeUtf8 cp ++ rest) = encodeUtf8 (casefoldCodepoint cp) ++ casefold rest := by
  have hdec := decodeUtf8_encodeUtf8 hcp rest
  obtain ⟨b, tl, htl⟩ := List.exists_cons_of_ne_nil (encodeUtf8_ne_nil cp)
  rw [htl, List.cons_append] at hdec ⊢
  rw [casefold, List.length_cons, casefoldLoop_succ, hdec, Option.map_some, Option.getD_some,
    casefoldLoop_eq _ _ (by simp), List.nil_append]

theorem casefold_stray {b : UInt8} {rest : Bytes} (h : decodeUtf8 (b :: rest) = none) :
    casefold (b :: rest) = b :: casefold rest := by
  rw [casefold, List.length_cons, casefoldLoop_succ, h, Option.map_none, Option.getD_none,
    casefoldLoop_eq _ _ le_rfl]
  rfl

/-- Folding one code point: the tables end before `U+0480`. -/
theorem casefoldCodepoint_table : ∀ cp < 0x480, casefoldCodepoint cp < 0x480 ∧
    casefoldCodepoint (casefoldCodepoint cp) = casefoldCodepoint cp ∧
    (encodeUtf8 (casefoldCodepoint cp)).length ≤ (encodeUtf8 cp).length := by
  decide +kernel

theorem casefoldCodepoint_of_le {cp : ℕ} (h : 0x480 ≤ cp) : casefoldCodepoint cp = cp := by
  rw [casefoldCodepoint, if_neg (by omega), if_neg (by omega), if_neg (by omega),
    if_neg (by omega), if_neg (by omega), if_neg (by omega)]

theorem Scalar.fold {cp : ℕ} (h : Scalar cp) : Scalar (casefoldCodepoint cp) := by
  rcases lt_or_ge cp 0x480 with hlt | hge
  · have hlt := (casefoldCodepoint_table cp hlt).1
    exact ⟨hlt.le.trans (by decide), fun hs => absurd (hs.1.trans_lt hlt) (by decide)⟩
  · rwa [casefoldCodepoint_of_le hge]

theorem casefoldCodepoint_casefoldCodepoint (cp : ℕ) :
    casefoldCodepoint (casefoldCodepoint cp) = casefoldCodepoint cp := by
  rcases lt_or_ge cp 0x480 with hlt | hge
  · exact (casefoldCodepoint_table cp hlt).2.1
  · rw [casefoldCodepoint_of_le hge, casefoldCodepoint_of_le hge]

theorem length_encodeUtf8_casefoldCodepoint (cp : ℕ) :
    (encodeUtf8 (casefoldCodepoint cp)).length ≤ (encodeUtf8 cp).length := by
  rcases lt_or_ge cp 0x480 with hlt | hge
  · exact (casefoldCodepoint_table cp hlt).2.2
  · rw [casefoldCodepoint_of_le hge]

theorem length_casefold_le (s : Bytes) : (casefold s).length ≤ s.length := by
  induction s using decode_cases with
  | nil => exact le_rfl
  | scalar cp rest hcp ih =>
    rw [casefold_scalar hcp, List.length_append, List.length_append]
    exact Nat.add_le_add (length_encodeUtf8_casefoldCodepoint cp) ih
  | stray b rest hnone ih =>
    rw [casefold_stray hnone, List.length_cons, List.length_cons]
    exact Nat.succ_le_succ ih

/-- The continuation bytes a string starts with. -/
def continuation (s : Bytes) : Bytes := s.takeWhile isContinuation

/-- A scalar value is encoded as one byte that is no continuation byte, and continuation
bytes. -/
theorem Scalar.encodeUtf8_eq_cons {cp : ℕ} (h : Scalar cp) :
    ∃ b tl, encodeUtf8 cp = b :: tl ∧ isContinuation b = false ∧
      ∀ c ∈ tl, isContinuation c = true := by
  have hnil : ∀ c ∈ ([] : Bytes), isContinuation c = true := by simp
  have hcons : ∀ (n : ℕ) (tl : Bytes), (∀ c ∈ tl, isContinuation c = true) →
      ∀ c ∈ UInt8.ofNat (0x80 ||| n % 64) :: tl, isContinuation c = true := by
    intro n tl htl
    refine List.forall_mem_cons.2 ⟨?_, htl⟩
    rw [isContinuation, (continuation_bits (n % 64) (Nat.mod_lt n (by decide))).1]
    rfl
  have h1 : ∀ x < 0x80, isContinuation (UInt8.ofNat x) = false := by decide
  have h2 : ∀ x < 32, isContinuation (UInt8.ofNat (0xC0 ||| x)) = false := by decide
  have h3 : ∀ x < 16, isContinuation (UInt8.ofNat (0xE0 ||| x)) = false := by decide
  have h4 : ∀ x < 8, isContinuation (UInt8.ofNat (0xF0 ||| x)) = false := by decide
  rw [encodeUtf8_eq]
  split_ifs with hc1 hc2 hc3
  · exact ⟨_, _, rfl, h1 _ hc1, hnil⟩
  · exact ⟨_, _, rfl, h2 _ (by omega), hcons _ _ hnil⟩
  · exact ⟨_, _, rfl, h3 _ (by omega), hcons _ _ (hcons _ _ hnil)⟩
  · exact ⟨_, _, rfl, h4 _ (by have := h.1; omega), hcons _ _ (hcons _ _ (hcons _ _ hnil))⟩

theorem decodeUtf8_eq_none_congr {b : UInt8} {s s' : Bytes}
    (h : continuation s = continuation s') (hn : decodeUtf8 (b :: s) = none) :
    decodeUtf8 (b :: s') = none := by
  by_contra hsome
  obtain ⟨⟨cp, r⟩, hr⟩ := Option.ne_none_iff_exists'.1 hsome
  obtain ⟨hcp, heq⟩ := decodeUtf8_eq_some_iff.1 hr
  obtain ⟨b', tl, henc, -, htl⟩ := hcp.encodeUtf8_eq_cons
  rw [henc, List.cons_append, List.cons.injEq] at heq
  obtain ⟨rfl, rfl⟩ := heq
  -- The rest of the sequence is among the continuation bytes of both.
  have htake : tl <+: continuation (tl ++ r) := by
    rw [continuation, List.takeWhile_append_of_pos htl]
    exact List.prefix_append _ _
  obtain ⟨r', hr'⟩ := (h ▸ htake).trans (List.takeWhile_prefix isContinuation)
  have hdec := decodeUtf8_encodeUtf8 hcp r'
  rw [henc, List.cons_append, hr', hn] at hdec
  cases hdec

theorem continuation_casefold (s : Bytes) : continuation (casefold s) = continuation s := by
  have hnil : ∀ {cp}, Scalar cp → ∀ rest, continuation (encodeUtf8 cp ++ rest) = [] := by
    intro cp hcp rest
    obtain ⟨b, tl, henc, hb, -⟩ := hcp.encodeUtf8_eq_cons
    simp [continuation, henc, hb]
  induction s using decode_cases with
  | nil => rfl
  | scalar cp rest hcp ih => rw [casefold_scalar hcp, hnil hcp, hnil hcp.fold]
  | stray b rest hnone ih =>
    rw [casefold_stray hnone]
    simp only [continuation, List.takeWhile_cons] at ih ⊢
    rw [ih]

/-- **Folding twice is folding once**, on all byte strings. -/
theorem casefold_casefold (s : Bytes) : casefold (casefold s) = casefold s := by
  induction s using decode_cases with
  | nil => rfl
  | scalar cp rest hcp ih =>
    rw [casefold_scalar hcp, casefold_scalar hcp.fold, casefoldCodepoint_casefoldCodepoint, ih]
  | stray b rest hnone ih =>
    -- The byte is still none of a sequence: what follows it starts with the same bytes.
    have hnone' := decodeUtf8_eq_none_congr (continuation_casefold rest).symm hnone
    rw [casefold_stray hnone, casefold_stray hnone', ih]

end Unicode

namespace MetadataTree

open Unicode

variable {t t' : MetadataTree} {p id : NodeId} {name : Bytes} {attr : Attributes}

/-! ### Folded names -/

/-- **The shortcut**: an ASCII name without capitals is its own folding. -/
theorem internFolded_eq (pool : StringPool) (name : Bytes) :
    internFolded (pool.intern name).2 name (pool.intern name).1 =
      (pool.intern name).2.intern (casefold name) := by
  rw [internFolded]
  split_ifs with h
  · rfl
  · rw [Bool.or_eq_true, not_or, Bool.not_eq_true, Bool.not_eq_true, Bool.not_eq_false'] at h
    rw [casefold_eq_self h.1 h.2]
    refine (StringPool.intern_of_find ?_).symm
    exact StringPool.find_eq_some_iff.2 ⟨pool.intern_lt name, pool.view_intern name⟩

/-- The folded name of a node is the id of the folding of a name. -/
def StoresFolding (t : MetadataTree) (id : NodeId) (name : Bytes) : Prop :=
  ∃ f, (t.nodes id).foldedName = some f ∧ t.names.find (casefold name) = some f

theorem modify_foldedName {f : Node → Node} (t : MetadataTree) (i x : NodeId)
    (hf : ∀ n, (f n).foldedName = n.foldedName) :
    ((t.modify i f).nodes x).foldedName = (t.nodes x).foldedName := by
  rw [modify_nodes]
  split_ifs
  · exact hf _
  · rfl

theorem linkChild_foldedName (t : MetadataTree) (p c x : NodeId) :
    ((t.linkChild p c).nodes x).foldedName = (t.nodes x).foldedName := by
  rw [linkChild]
  refine (modify_foldedName _ _ _ ?_).trans ?_
  · exact fun _ => rfl
  split <;> refine (modify_foldedName _ _ _ ?_).trans (modify_foldedName _ _ _ ?_) <;>
    exact fun _ => rfl

theorem place_storesFolding {f : Node → Node} {fid : NameId}
    (hf : ∀ n, (f n).foldedName = some fid) (hfind : t.names.find (casefold name) = some fid) :
    (t.place p id f).StoresFolding id name := by
  refine ⟨fid, ?_, ?_⟩
  · rw [place, indexNode_nodes, linkChild_foldedName, modify_nodes, if_pos rfl, hf]
  · rw [(place_eq t p id f).1, hfind]

theorem insertNode_storesFolding {nid fid : NameId}
    (hfind : t.names.find (casefold name) = some fid) :
    (t.insertNode p nid fid attr).2.StoresFolding (t.insertNode p nid fid attr).1 name := by
  have hnames : t.allocNode.2.names = t.names := by
    rw [allocNode]
    split <;> rfl
  exact place_storesFolding (t := t.allocNode.2) (fun _ => rfl) (hnames ▸ hfind)

theorem moveNode_storesFolding {nid fid : NameId}
    (hfind : t.names.find (casefold name) = some fid) :
    (t.moveNode id p nid fid).StoresFolding id name := by
  refine place_storesFolding (fun _ => rfl) ?_
  rw [unlinkChild_eq]
  exact (sameEntries_unindexNode t id).names.symm ▸ hfind

theorem find_internFolded (pool : StringPool) (name : Bytes) :
    (internFolded (pool.intern name).2 name (pool.intern name).1).2.find (casefold name) =
      some (internFolded (pool.intern name).2 name (pool.intern name).1).1 := by
  rw [internFolded_eq]
  exact StringPool.find_eq_some_iff.2 ⟨StringPool.intern_lt _ _, StringPool.view_intern _ _⟩

/-- **`insert`** stores the folding of the name, in any tree. -/
theorem insert_storesFolding (h : t.insert p name attr = (.ok id, t')) :
    t'.StoresFolding id name := by
  rw [insert] at h
  split_ifs at h
  iterate 3 cases h
  dsimp only at h
  split_ifs at h <;> cases h
  exact insertNode_storesFolding (t := { t with names := _ }) (find_internFolded t.names name)

/-- **`rename`** stores the folding of the new name if it stores anything, in any tree. -/
theorem rename_storesFolding (h : t.rename id p name = (.ok (), t')) :
    t'.nodes = t.nodes ∨ t'.StoresFolding id name := by
  rw [rename] at h
  split_ifs at h
  iterate 5 cases h
  dsimp only at h
  split at h
  · split_ifs at h <;> cases h
    exact .inl rfl
  · cases h
    exact .inr (moveNode_storesFolding (t := { t with names := _ })
      (find_internFolded t.names name))

theorem WF.rename_storesFolding (hwf : t.WF) (h : t.rename id p name = (.ok (), t')) :
    t'.StoresFolding id name := by
  obtain ⟨kids, hr⟩ := hwf.rep
  obtain ⟨t'', heq, hm, hmoved, kids', h'⟩ | ⟨e, t'', heq, -⟩ := hr.rename_spec id p name <;>
    rw [h] at heq <;> cases heq
  obtain ⟨n, hn⟩ := Option.isSome_iff_exists.1 ((hmoved.isLive id).2 hm.live)
  obtain ⟨f, hf, hlt, hview⟩ := h'.named.folded id n hn
  refine ⟨f, hf, StringPool.find_eq_some_iff.2 ⟨hlt, ?_⟩⟩
  rw [hview, ← name_eq hn, hmoved.name]

/-- **Case folding is a normal form**: folding twice is folding once and makes no string longer; and
the folded name of every node is the id of the folding of its name, also where `insert` and `rename`
do not fold. -/
theorem foldedNames_normal :
    (∀ s, casefold (casefold s) = casefold s ∧ (casefold s).length ≤ s.length) ∧
    (∀ pool name, internFolded (StringPool.intern pool name).2 name (pool.intern name).1 =
      (pool.intern name).2.intern (casefold name)) ∧
    (∀ t p name attr id t', MetadataTree.insert t p name attr = (.ok id, t') →
      t'.StoresFolding id name) ∧
    ∀ t id p name t', MetadataTree.rename t id p name = (.ok (), t') →
      (t'.nodes = t.nodes ∨ t'.StoresFolding id name) ∧ (t.WF → t'.StoresFolding id name) :=
  ⟨fun s => ⟨casefold_casefold s, length_casefold_le s⟩, internFolded_eq,
    fun _ _ _ _ _ _ h => insert_storesFolding h,
    fun _ _ _ _ _ h => ⟨rename_storesFolding h, fun hwf => hwf.rename_storesFolding h⟩⟩

/-- `É` twice, first as it is written and then as a byte that belongs to no sequence, and what
is stored for it. -/
theorem foldedNames_normal_accent :
    casefold (casefold [0xC3, 0x89, 0xC3]) = casefold [0xC3, 0x89, 0xC3] ∧
    (fresh.insert root [0xC3, 0x89, 0xC3] {}).2.StoresFolding 1 [0xC3, 0x89, 0xC3] :=
  ⟨(foldedNames_normal.1 _).1,
    foldedNames_normal.2.2.1 fresh root [0xC3, 0x89, 0xC3] {} 1 _ (by rfl)⟩

end MetadataTree

end WslDrive
