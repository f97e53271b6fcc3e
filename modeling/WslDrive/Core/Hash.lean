import Mathlib.Data.List.OfFn
import WslDrive.Core.Types

/-!
# Digests

`Digest` holds the 32 bytes of a BLAKE3 hash, and `Blake3Hasher` hashes data that comes in pieces.
The hash function itself is a parameter: it is a library of its own.

* `Digest.fromHex_hex` — a digest is read back from its hexadecimal form;
* `Digest.hex_injective` — so different digests have different forms.
-/

namespace WslDrive

/-- `Digest`. -/
@[ext]
structure Digest where
  bytes : Fin 32 → UInt8

namespace Digest

/-- `kHexDigits`. -/
def kHexDigits : Bytes := WslDrive.bytes "0123456789abcdef"

/-- The digit of a value below 16. -/
def hexDigit (n : UInt8) : UInt8 := kHexDigits.getD n.toNat 0

/-- `hex_value`; none for what is no digit. -/
def hexValue (c : UInt8) : Option UInt8 :=
  if 0x30 ≤ c ∧ c ≤ 0x39 then some (c - 0x30)
  else if 0x61 ≤ c ∧ c ≤ 0x66 then some (c - 0x61 + 10)
  else if 0x41 ≤ c ∧ c ≤ 0x46 then some (c - 0x41 + 10)
  else none

/-- One digit of `Digest::hex`: each byte has two, the high one first. -/
def hexAt (d : Digest) (k : Fin 64) : UInt8 :=
  let b := d.bytes ⟨k / 2, by omega⟩
  hexDigit (if k.val % 2 = 0 then b >>> 4 else b &&& 0x0F)

/-- `Digest::hex`. -/
def hex (d : Digest) : Bytes := List.ofFn d.hexAt

/-- `Digest::from_hex`. -/
def fromHex (hex : Bytes) : Option Digest :=
  if hex.length ≠ 64 then none
  else
    let hi (i : Fin 32) := hexValue (hex.getD (2 * i) 0)
    let lo (i : Fin 32) := hexValue (hex.getD (2 * i + 1) 0)
    if ∀ i, (hi i).isSome ∧ (lo i).isSome then
      some ⟨fun i => ((hi i).getD 0 <<< 4) ||| (lo i).getD 0⟩
    else none

theorem hexValue_hexDigit (b : UInt8) :
    hexValue (hexDigit (b >>> 4)) = some (b >>> 4) ∧
      hexValue (hexDigit (b &&& 0x0F)) = some (b &&& 0x0F) ∧
      ((b >>> 4) <<< 4) ||| (b &&& 0x0F) = b := by
  revert b
  exact forall_byte (by decide)

theorem length_hex (d : Digest) : d.hex.length = 64 := List.length_ofFn

theorem getD_hex (d : Digest) (i : Fin 32) :
    d.hex.getD (2 * i) 0 = hexDigit (d.bytes i >>> 4) ∧
      d.hex.getD (2 * i + 1) 0 = hexDigit (d.bytes i &&& 0x0F) := by
  have hhi : 2 * i.val / 2 = i.val := by omega
  have hlo : (2 * i.val + 1) / 2 = i.val := by omega
  simp only [hex, List.getD_eq_getElem?_getD, List.getElem?_ofFn, hexAt]
  rw [dif_pos (by omega), dif_pos (by omega), Option.getD_some, Option.getD_some, if_pos (by omega),
    if_neg (by omega)]
  simp only [hhi, hlo, Fin.eta, and_self]

/-- **A digest is read back from its hexadecimal form.** -/
theorem fromHex_hex (d : Digest) : fromHex d.hex = some d := by
  have hhi : ∀ i, hexValue (d.hex.getD (2 * i.val) 0) = some (d.bytes i >>> 4) := fun i => by
    rw [(d.getD_hex i).1, (hexValue_hexDigit (d.bytes i)).1]
  have hlo : ∀ i, hexValue (d.hex.getD (2 * i.val + 1) 0) = some (d.bytes i &&& 0x0F) := fun i => by
    rw [(d.getD_hex i).2, (hexValue_hexDigit (d.bytes i)).2.1]
  rw [fromHex, if_neg (not_not_intro d.length_hex)]
  dsimp only
  rw [if_pos fun i => by rw [hhi, hlo]; exact ⟨rfl, rfl⟩, Option.some_inj]
  ext i
  dsimp only
  rw [hhi, hlo]
  exact congrArg UInt8.toNat (hexValue_hexDigit (d.bytes i)).2.2

theorem hex_injective : Function.Injective hex := fun d d' h =>
  Option.some.inj (by rw [← fromHex_hex d, h, fromHex_hex])

end Digest

/-- `Blake3Hasher`: what it has been given so far. -/
structure Blake3Hasher where
  data : Bytes := []

namespace Blake3Hasher

/-- `Blake3Hasher::update`. -/
def update (h : Blake3Hasher) (s : Bytes) : Blake3Hasher := ⟨h.data ++ s⟩

/-- `Blake3Hasher::finalize`, with the hash function. -/
def finalize (blake3 : Bytes → Digest) (h : Blake3Hasher) : Digest := blake3 h.data

end Blake3Hasher

end WslDrive
