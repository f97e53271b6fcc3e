import WslDrive.Core.Types

/-!
# Case folding

Names are compared without regard to case through a simple folding of their UTF-8 encoding: one
code point is folded to one code point, and bytes that are not part of a valid sequence are kept.

* `Unicode.casefold_eq_self` — ASCII names without capitals are their own folding, so the code
  may skip folding them.
-/

namespace WslDrive

namespace Unicode

/-- The continuation bytes of a sequence, six bits each. -/
def decodeContinuation : ℕ → ℕ → Bytes → Option (ℕ × Bytes)
  | 0, cp, rest => some (cp, rest)
  | _ + 1, _, [] => none
  | k + 1, cp, b :: rest =>
    if b &&& 0xC0 ≠ 0x80 then none
    else decodeContinuation k ((cp <<< 6) ||| (b &&& 0x3F).toNat) rest

/-- `decode_utf8`: the code point at the front and what follows it.  Overlong encodings,
surrogates and code points out of range are refused. -/
def decodeUtf8 : Bytes → Option (ℕ × Bytes)
  | [] => none
  | b0 :: rest =>
    if b0 < 0x80 then some (b0.toNat, rest)
    else
      let start : Option (ℕ × ℕ) :=
        if b0 &&& 0xE0 = 0xC0 then some (2, (b0 &&& 0x1F).toNat)
        else if b0 &&& 0xF0 = 0xE0 then some (3, (b0 &&& 0x0F).toNat)
        else if b0 &&& 0xF8 = 0xF0 then some (4, (b0 &&& 0x07).toNat)
        else none
      match start with
      | none => none
      | some (len, cp0) =>
        match decodeContinuation (len - 1) cp0 rest with
        | none => none
        | some (cp, rest) =>
          if (len = 2 ∧ cp < 0x80) ∨ (len = 3 ∧ cp < 0x800) ∨ (len = 4 ∧ cp < 0x10000) ∨
              0x10FFFF < cp ∨ (0xD800 ≤ cp ∧ cp ≤ 0xDFFF) then none
          else some (cp, rest)

/-- `encode_utf8`. -/
def encodeUtf8 (cp : ℕ) : Bytes :=
  if cp < 0x80 then [UInt8.ofNat cp]
  else if cp < 0x800 then
    [UInt8.ofNat (0xC0 ||| (cp >>> 6)), UInt8.ofNat (0x80 ||| (cp &&& 0x3F))]
  else if cp < 0x10000 then
    [UInt8.ofNat (0xE0 ||| (cp >>> 12)), UInt8.ofNat (0x80 ||| ((cp >>> 6) &&& 0x3F)),
      UInt8.ofNat (0x80 ||| (cp &&& 0x3F))]
  else
    [UInt8.ofNat (0xF0 ||| (cp >>> 18)), UInt8.ofNat (0x80 ||| ((cp >>> 12) &&& 0x3F)),
      UInt8.ofNat (0x80 ||| ((cp >>> 6) &&& 0x3F)), UInt8.ofNat (0x80 ||| (cp &&& 0x3F))]

/-- `casefold_codepoint`: simple folding of Latin, Greek and Cyrillic letters. -/
def casefoldCodepoint (cp : ℕ) : ℕ :=
  if cp < 0x80 then
    if 0x41 ≤ cp ∧ cp ≤ 0x5A then cp + 0x20 else cp
  else if 0xC0 ≤ cp ∧ cp ≤ 0xDE ∧ cp ≠ 0xD7 then cp + 0x20
  else if 0x100 ≤ cp ∧ cp ≤ 0x17F then
    -- Latin Extended-A: pairs of capital and small letters, with irregular ones first.
    if cp = 0x130 then 0x69
    else if cp = 0x131 then 0x131
    else if cp = 0x138 then 0x138
    else if cp = 0x149 then 0x149
    else if cp = 0x178 then 0xFF
    else if cp = 0x17F then 0x73
    else if (0x139 ≤ cp ∧ cp ≤ 0x148) ∨ (0x179 ≤ cp ∧ cp ≤ 0x17E) then
      if cp % 2 = 1 then cp + 1 else cp
    else if cp % 2 = 1 then cp
    else cp + 1
  else if 0x391 ≤ cp ∧ cp ≤ 0x3A9 ∧ cp ≠ 0x3A2 then cp + 0x20
  else if 0x410 ≤ cp ∧ cp ≤ 0x42F then cp + 0x20
  else if 0x400 ≤ cp ∧ cp ≤ 0x40F then cp + 0x50
  else cp

/-- `is_ascii`. -/
def isAscii (s : Bytes) : Bool := s.all (· < 0x80)

/-- A byte is an ASCII capital. -/
def isUpper (b : UInt8) : Bool := 0x41 ≤ b && b ≤ 0x5A

/-- The loop of `casefold_append`.  Every round consumes input. -/
def casefoldLoop : ℕ → Bytes → Bytes → Bytes
  | 0, _, out => out
  | _ + 1, [], out => out
  | fuel + 1, b :: rest, out =>
    if b < 0x80 then casefoldLoop fuel rest (out ++ [if isUpper b then b + 0x20 else b])
    else
      match decodeUtf8 (b :: rest) with
      | none => casefoldLoop fuel rest (out ++ [b])
      | some (cp, rest) => casefoldLoop fuel rest (out ++ encodeUtf8 (casefoldCodepoint cp))

/-- `casefold`. -/
def casefold (s : Bytes) : Bytes := casefoldLoop s.length s []

theorem casefoldLoop_eq_append {s : Bytes} (h : ∀ b ∈ s, b < 0x80 ∧ isUpper b = false)
    (out : Bytes) : casefoldLoop s.length s out = out ++ s := by
  induction s generalizing out with
  | nil => simp [casefoldLoop]
  | cons b s ih =>
    obtain ⟨hb, hu⟩ := h b List.mem_cons_self
    have ih := ih fun x hx => h x (List.mem_cons_of_mem _ hx)
    simp [casefoldLoop, hb, hu, ih]

/-- **ASCII names without capitals are their own folding.** -/
theorem casefold_eq_self {s : Bytes} (ha : isAscii s = true) (hu : s.any isUpper = false) :
    casefold s = s := by
  have h : ∀ b ∈ s, b < 0x80 ∧ isUpper b = false := fun b hb => by
    refine ⟨by simpa using List.all_eq_true.1 ha b hb, ?_⟩
    simpa using List.any_eq_false.1 hu b hb
  rw [casefold, casefoldLoop_eq_append h, List.nil_append]

example : casefold [0x41, 0xC3, 0x89, 0xFF] = [0x61, 0xC3, 0xA9, 0xFF] := by decide

end Unicode

end WslDrive
