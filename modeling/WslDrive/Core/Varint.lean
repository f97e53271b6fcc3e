import Mathlib.Algebra.BigOperators.Ring.Finset
import Mathlib.Data.Nat.Digits.Lemmas
import WslDrive.Core.Sizes

/-!
# Varints are exact

A varint is a word of bytes with the high bit set and one last byte without it; its value is the
number with the low seven bits of each byte as digits of base 128, least first.  The round trip
says what `Reader::varint` makes of words that `Writer::varint` has written; here it runs on any
input.

* `varintLoop_spec` — what the loop does with any input, from any byte on;
* `varint_ok`, `varint_error` — what is read, and why nothing is;
* `length_varint_lt` — every other word for the same value is longer;
* `varint_exact` — the value is exact, the failures are the three expected ones, and the writer's
  word is the shortest.
-/

namespace WslDrive

namespace Proto

open Codec

/-! ### Words and their values -/

/-- Bytes with the high bit, then one without. -/
inductive IsVarint : Bytes → Prop where
  | last {b : UInt8} : b.toNat < 128 → IsVarint [b]
  | more {b : UInt8} {w : Bytes} : 128 ≤ b.toNat → IsVarint w → IsVarint (b :: w)

/-- The low seven bits of each byte, as digits of base 128. -/
def varintValue (w : Bytes) : ℕ := Nat.ofDigits 128 (w.map fun b => b.toNat % 128)

theorem varintValue_nil : varintValue [] = 0 := rfl

theorem varintValue_cons (b : UInt8) (w : Bytes) :
    varintValue (b :: w) = b.toNat % 128 + 128 * varintValue w := by
  rw [varintValue, List.map_cons, Nat.ofDigits_cons]
  rfl

theorem varintValue_singleton {b : UInt8} (hb : b.toNat < 128) : varintValue [b] = b.toNat := by
  rw [varintValue_cons, varintValue_nil, Nat.mod_eq_of_lt hb, Nat.mul_zero, Nat.add_zero]

theorem varintValue_eq_sum (w : Bytes) :
    varintValue w = ∑ i ∈ Finset.range w.length, (w.getD i 0).toNat % 128 * 128 ^ i := by
  induction w with
  | nil => rfl
  | cons b w ih =>
    rw [varintValue_cons, ih, List.length_cons, Finset.sum_range_succ', Finset.mul_sum]
    simp only [List.getD_cons_succ, List.getD_cons_zero, Nat.pow_zero, Nat.mul_one]
    rw [Nat.add_comm]
    congr 1
    exact Finset.sum_congr rfl fun i _ => by ring

theorem varintValue_lt (w : Bytes) : varintValue w < 128 ^ w.length := by
  have h := Nat.ofDigits_lt_base_pow_length (b := 128) (l := w.map fun b => b.toNat % 128)
    (by decide) (by simp only [List.mem_map]; rintro x ⟨b, -, rfl⟩; omega)
  rwa [List.length_map] at h

theorem group_le_varintValue (w : Bytes) (i : ℕ) :
    (w.getD i 0).toNat % 128 * 2 ^ (7 * i) ≤ varintValue w := by
  induction w generalizing i with
  | nil => simp [varintValue_nil]
  | cons b w ih =>
    rw [varintValue_cons]
    cases i with
    | zero => simp
    | succ i =>
      have hi := ih i
      rw [List.getD_cons_succ, Nat.mul_succ, Nat.pow_add]
      calc (w.getD i 0).toNat % 128 * (2 ^ (7 * i) * 2 ^ 7)
          = 128 * ((w.getD i 0).toNat % 128 * 2 ^ (7 * i)) := by ring
        _ ≤ 128 * varintValue w := Nat.mul_le_mul_left 128 hi
        _ ≤ _ := Nat.le_add_left _ _

theorem not_lt_80 {b : UInt8} (h : 128 ≤ b.toNat) : ¬ b < 0x80 := fun hlt =>
  Nat.not_lt.2 h (UInt8.lt_iff_toNat_lt.1 hlt)

namespace IsVarint

theorem length_pos {w : Bytes} (h : IsVarint w) : 1 ≤ w.length := by
  cases h <;> simp

theorem exists_last {w : Bytes} (h : IsVarint w) :
    ∃ init last, w = init ++ [last] ∧ (∀ b ∈ init, ¬ b < 0x80) ∧ last < 0x80 := by
  induction h with
  | @last b hb => exact ⟨[], b, rfl, by simp, UInt8.lt_iff_toNat_lt.2 hb⟩
  | @more b w hb _ ih =>
    obtain ⟨init, last, rfl, hinit, hlast⟩ := ih
    refine ⟨b :: init, last, rfl, ?_, hlast⟩
    intro x hx
    rcases List.mem_cons.1 hx with rfl | hx
    · exact not_lt_80 hb
    · exact hinit x hx

theorem eq_of_length_eq {w w' : Bytes} (h : IsVarint w) (h' : IsVarint w')
    (hlen : w.length = w'.length) (hval : varintValue w = varintValue w') : w = w' := by
  induction h generalizing w' with
  | last hb =>
    cases h' with
    | last hb' =>
      rw [varintValue_singleton hb, varintValue_singleton hb'] at hval
      rw [UInt8.toNat_inj.1 hval]
    | more hb' hw' =>
      have := hw'.length_pos
      simp only [List.length_cons, List.length_nil] at hlen
      omega
  | more hb hw ih =>
    cases h' with
    | last hb' =>
      have := hw.length_pos
      simp only [List.length_cons, List.length_nil] at hlen
      omega
    | @more b' w' hb' hw' =>
      rename_i b w
      simp only [List.length_cons, Nat.add_right_cancel_iff] at hlen
      rw [varintValue_cons, varintValue_cons] at hval
      have hlt := b.toNat_lt
      have hlt' := b'.toNat_lt
      have hbb : b = b' := UInt8.toNat_inj.1 (by omega)
      rw [hbb, ih hw' hlen (by omega)]

end IsVarint

/-! ### The reader on any input -/

theorem run_varintLoop_last {n shift acc : ℕ} {b : UInt8} {s : Bytes} (hb : b.toNat < 128)
    (hshift : shift + 7 * n = 63) (hacc : acc < 2 ^ shift) :
    (acc + b.toNat * 2 ^ shift < 2 ^ 64 ∧
      (Reader.varintLoop (n + 1) shift acc).run (b :: s) =
        .ok (UInt64.ofNat (acc + b.toNat * 2 ^ shift)) s) ∨
    (2 ^ 64 ≤ acc + b.toNat * 2 ^ shift ∧
      (Reader.varintLoop (n + 1) shift acc).run (b :: s) = .error .corrupt s) := by
  have hu8 : Reader.u8.run (b :: s) = .ok b s := rfl
  rw [Reader.varintLoop, run_bind_ok hu8, if_pos ((and_80_eq_zero_iff b).2 hb), toNat_and_7F,
    Nat.mod_eq_of_lt hb]
  by_cases hover : shift = 63 ∧ 1 < b
  · -- the tenth byte has bits above the 64th
    have hb1 : 1 < b.toNat := UInt8.lt_iff_toNat_lt.1 hover.2
    rw [if_pos hover, hover.1]
    refine .inr ⟨?_, rfl⟩
    omega
  · have hfit : b.toNat * 2 ^ shift < 2 ^ 64 ∧ acc + b.toNat * 2 ^ shift < 2 ^ 64 := by
      by_cases h63 : shift = 63
      · have hb1 : ¬ 1 < b.toNat := fun h => hover ⟨h63, UInt8.lt_iff_toNat_lt.2 h⟩
        subst h63
        omega
      · have hpow : 2 ^ shift ≤ 2 ^ 56 := Nat.pow_le_pow_right (by decide) (by omega)
        have hmul : b.toNat * 2 ^ shift ≤ 127 * 2 ^ 56 := Nat.mul_le_mul (by omega) hpow
        omega
    rw [if_neg hover, or_shift hacc hfit.1]
    exact .inl ⟨hfit.2, rfl⟩

/-- A byte with the high bit, as the loop sees it; the tenth one loses bits, but the loop then
ends. -/
theorem run_varintLoop_more {n shift acc : ℕ} {b : UInt8} {s : Bytes} (hb : 128 ≤ b.toNat)
    (hshift : shift + 7 * n = 63) (hacc : acc < 2 ^ shift) :
    (n = 0 ∧ (Reader.varintLoop (n + 1) shift acc).run (b :: s) = .error .corrupt s) ∨
    (n ≠ 0 ∧ acc + b.toNat % 128 * 2 ^ shift < 2 ^ (shift + 7) ∧
      (Reader.varintLoop (n + 1) shift acc).run (b :: s) =
        (Reader.varintLoop n (shift + 7) (acc + b.toNat % 128 * 2 ^ shift)).run s) := by
  have hu8 : Reader.u8.run (b :: s) = .ok b s := rfl
  rw [Reader.varintLoop, run_bind_ok hu8, if_neg (by rw [and_80_eq_zero_iff]; omega),
    toNat_and_7F]
  cases n with
  | zero => exact .inl ⟨rfl, rfl⟩
  | succ n =>
    have hpow : 2 ^ shift ≤ 2 ^ 56 := Nat.pow_le_pow_right (by decide) (by omega)
    have hmul : b.toNat % 128 * 2 ^ shift ≤ 127 * 2 ^ shift :=
      Nat.mul_le_mul_right _ (by omega)
    rw [or_shift hacc (by omega), Nat.pow_add]
    exact .inr ⟨Nat.succ_ne_zero n, by omega, rfl⟩

/-- **What the loop does with any input**, from bit `shift` on: a word ends and its value fits or is
refused, or all bytes left to read have the high bit, or the input ends first. -/
theorem varintLoop_spec {n : ℕ} : ∀ {shift acc : ℕ} (s : Bytes), shift + 7 * n = 70 →
    acc < 2 ^ shift →
    (∃ w rest, s = w ++ rest ∧ IsVarint w ∧ w.length ≤ n ∧
      acc + varintValue w * 2 ^ shift < 2 ^ 64 ∧
      (Reader.varintLoop n shift acc).run s =
        .ok (UInt64.ofNat (acc + varintValue w * 2 ^ shift)) rest) ∨
    (∃ w rest, s = w ++ rest ∧ IsVarint w ∧ w.length ≤ n ∧
      2 ^ 64 ≤ acc + varintValue w * 2 ^ shift ∧
      (Reader.varintLoop n shift acc).run s = .error .corrupt rest) ∨
    (∃ w rest, s = w ++ rest ∧ (∀ b ∈ w, 128 ≤ b.toNat) ∧ w.length = n ∧
      (Reader.varintLoop n shift acc).run s = .error .corrupt rest) ∨
    (s.length < n ∧ (∀ b ∈ s, 128 ≤ b.toNat) ∧
      (Reader.varintLoop n shift acc).run s = .error .truncated []) := by
  induction n with
  | zero => exact fun s _ _ => .inr (.inr (.inl ⟨[], s, rfl, by simp, rfl, rfl⟩))
  | succ n ih =>
    intro shift acc s hshift hacc
    cases s with
    | nil => exact .inr (.inr (.inr ⟨Nat.succ_pos n, by simp, rfl⟩))
    | cons b s =>
      rcases Nat.lt_or_ge b.toNat 128 with hb | hb
      · have hval := varintValue_singleton hb
        rcases run_varintLoop_last (n := n) (s := s) hb (by omega) hacc with
          ⟨hfit, hrun⟩ | ⟨hbig, hrun⟩
        · exact .inl ⟨[b], s, rfl, .last hb, by simp, by rwa [hval], by rw [hrun, hval]⟩
        · exact .inr (.inl ⟨[b], s, rfl, .last hb, by simp, by rwa [hval], hrun⟩)
      · rcases run_varintLoop_more (n := n) (s := s) hb (by omega) hacc with
          ⟨rfl, hrun⟩ | ⟨-, hacc', hrun⟩
        · exact .inr (.inr (.inl ⟨[b], s, rfl, by simpa using hb, rfl, hrun⟩))
        · have hval : ∀ w, acc + b.toNat % 128 * 2 ^ shift + varintValue w * 2 ^ (shift + 7) =
              acc + varintValue (b :: w) * 2 ^ shift := fun w => by
            rw [varintValue_cons, Nat.pow_add]
            ring
          have hall : ∀ {w : Bytes}, (∀ x ∈ w, 128 ≤ x.toNat) → ∀ x ∈ b :: w, 128 ≤ x.toNat :=
            fun hw x hx => (List.mem_cons.1 hx).elim (fun h => h ▸ hb) (hw x)
          rw [hrun]
          rcases ih s (by omega) hacc' with
            ⟨w, rest, rfl, hw, hlen, hfit, hrest⟩ | ⟨w, rest, rfl, hw, hlen, hbig, hrest⟩ |
            ⟨w, rest, rfl, hw, hlen, hrest⟩ | ⟨hlen, hs, hrest⟩
          · rw [hval] at hfit hrest
            exact .inl ⟨b :: w, rest, rfl, .more hb hw, Nat.succ_le_succ hlen, hfit, hrest⟩
          · rw [hval] at hbig
            exact .inr (.inl ⟨b :: w, rest, rfl, .more hb hw, Nat.succ_le_succ hlen, hbig, hrest⟩)
          · exact .inr (.inr (.inl ⟨b :: w, rest, rfl, hall hw, by simp [hlen], hrest⟩))
          · exact .inr (.inr (.inr ⟨Nat.succ_lt_succ hlen, hall hs, hrest⟩))

theorem varint_ok {s rest : Bytes} {v : UInt64} (h : Reader.varint.run s = .ok v rest) :
    ∃ w, s = w ++ rest ∧ IsVarint w ∧ w.length ≤ 10 ∧ varintValue w < 2 ^ 64 ∧
      v.toNat = varintValue w := by
  rcases @varintLoop_spec 10 0 0 s rfl (by decide) with
    ⟨w, rest', hs, hw, hlen, hfit, hrun⟩ | ⟨_, _, -, -, -, -, hrun⟩ | ⟨_, _, -, -, -, hrun⟩ |
    ⟨-, -, hrun⟩
  · rw [Nat.pow_zero, Nat.mul_one, Nat.zero_add] at hfit hrun
    rw [Reader.varint, hrun] at h
    cases h
    exact ⟨w, hs, hw, hlen, hfit, toNat_ofNat_length hfit⟩
  all_goals
    rw [Reader.varint, hrun] at h
    cases h

theorem varint_error {s rest : Bytes} {e : Errc} (h : Reader.varint.run s = .error e rest) :
    (e = .truncated ∧ s.length < 10 ∧ ∀ b ∈ s, 128 ≤ b.toNat) ∨
    (e = .corrupt ∧ ∃ w, s = w ++ rest ∧ IsVarint w ∧ w.length ≤ 10 ∧ 2 ^ 64 ≤ varintValue w) ∨
    (e = .corrupt ∧ ∃ w, s = w ++ rest ∧ w.length = 10 ∧ ∀ b ∈ w, 128 ≤ b.toNat) := by
  rcases @varintLoop_spec 10 0 0 s rfl (by decide) with
    ⟨_, _, -, -, -, -, hrun⟩ | ⟨w, rest', hs, hw, hlen, hbig, hrun⟩ |
    ⟨w, rest', hs, hw, hlen, hrun⟩ | ⟨hlen, hall, hrun⟩
  all_goals
    rw [Reader.varint, hrun] at h
    cases h
  · rw [Nat.pow_zero, Nat.mul_one, Nat.zero_add] at hbig
    exact .inr (.inl ⟨rfl, w, hs, hw, hlen, hbig⟩)
  · exact .inr (.inr ⟨rfl, w, hs, hlen, hw⟩)
  · exact .inl ⟨rfl, hlen, hall⟩

/-! ### The writer's word -/

theorem isVarint_varint (v : UInt64) :
    IsVarint (Writer.varint v) ∧ varintValue (Writer.varint v) = v.toNat := by
  have hread := reads_varint v []
  rw [List.append_nil] at hread
  obtain ⟨w, hs, hw, -, -, hval⟩ := varint_ok hread
  rw [List.append_nil] at hs
  rw [hs]
  exact ⟨hw, hval.symm⟩

/-- **Every other word for the same value is longer.** -/
theorem length_varint_lt {w : Bytes} {v : UInt64} (hw : IsVarint w) (hval : varintValue w = v.toNat)
    (hne : w ≠ Writer.varint v) : (Writer.varint v).length < w.length := by
  obtain ⟨k, hk⟩ : ∃ k, w.length = k + 1 := ⟨w.length - 1, by have := hw.length_pos; omega⟩
  have hlt : v.toNat < 2 ^ (7 * (k + 1)) := by
    rw [← hval, ← hk, Nat.pow_mul]
    exact varintValue_lt w
  have hle : (Writer.varint v).length ≤ w.length := by
    rw [hk]
    exact length_varint_le hlt
  refine Nat.lt_of_le_of_ne hle fun heq => hne ?_
  obtain ⟨hvarint, hvalue⟩ := isVarint_varint v
  exact hw.eq_of_length_eq hvarint heq.symm (hval.trans hvalue.symm)

/-- **Varints are exact.**  What `Reader::varint` returns is the value of the bytes it has consumed;
it fails only if the input ends first, the value does not fit or ten bytes have no end; and it reads
back what `Writer::varint` writes, the shortest word for the value. -/
theorem varint_exact :
    (∀ (s rest : Bytes) (v : UInt64), Reader.varint.run s = .ok v rest →
      ∃ w, s = w ++ rest ∧ w.length ≤ 10 ∧
        v.toNat = ∑ i ∈ Finset.range w.length, (w.getD i 0).toNat % 128 * 128 ^ i ∧
        ∑ i ∈ Finset.range w.length, (w.getD i 0).toNat % 128 * 128 ^ i < 2 ^ 64 ∧
        ∀ i < w.length, ((w.getD i 0).toNat % 128) <<< (7 * i) < 2 ^ 64) ∧
    (∀ (s rest : Bytes) (e : Errc), Reader.varint.run s = .error e rest →
      (e = .truncated ∧ s.length < 10 ∧ ∀ b ∈ s, ¬ b < 0x80) ∨
      (e = .corrupt ∧ ∃ w, s = w ++ rest ∧
        2 ^ 64 ≤ ∑ i ∈ Finset.range w.length, (w.getD i 0).toNat % 128 * 128 ^ i ∧
        ∃ init last, w = init ++ [last] ∧ (∀ b ∈ init, ¬ b < 0x80) ∧ last < 0x80) ∨
      (e = .corrupt ∧ ∃ w, s = w ++ rest ∧ w.length = 10 ∧ ∀ b ∈ w, ¬ b < 0x80)) ∧
    ∀ v : UInt64,
      (∀ rest, Reader.varint.run (Writer.varint v ++ rest) = .ok v rest) ∧
      ∀ w, Reader.varint.run w = .ok v [] → w ≠ Writer.varint v →
        (Writer.varint v).length < w.length := by
  refine ⟨?_, ?_, fun v => ⟨reads_varint v, ?_⟩⟩
  · intro s rest v hrun
    obtain ⟨w, hs, -, hlen, hfit, hval⟩ := varint_ok hrun
    rw [varintValue_eq_sum] at hval
    refine ⟨w, hs, hlen, hval, by rwa [← varintValue_eq_sum], fun i _ => ?_⟩
    rw [Nat.shiftLeft_eq]
    exact Nat.lt_of_le_of_lt (group_le_varintValue w i) hfit
  · intro s rest e hrun
    rcases varint_error hrun with ⟨he, hlen, hall⟩ | ⟨he, w, hs, hw, -, hbig⟩ |
      ⟨he, w, hs, hlen, hall⟩
    · exact .inl ⟨he, hlen, fun b hb => not_lt_80 (hall b hb)⟩
    · rw [varintValue_eq_sum] at hbig
      exact .inr (.inl ⟨he, w, hs, hbig, hw.exists_last⟩)
    · exact .inr (.inr ⟨he, w, hs, hlen, fun b hb => not_lt_80 (hall b hb)⟩)
  · intro w hrun
    obtain ⟨w', hw', hvarint, -, -, hval⟩ := varint_ok hrun
    rw [List.append_nil] at hw'
    rw [hw']
    exact length_varint_lt hvarint hval.symm

theorem varint_exact_three_hundred :
    (∃ w : Bytes, [0xAC, 0x02, 0xFF] = w ++ [0xFF] ∧ w.length ≤ 10 ∧
      (300 : UInt64).toNat = ∑ i ∈ Finset.range w.length, (w.getD i 0).toNat % 128 * 128 ^ i ∧
      ∑ i ∈ Finset.range w.length, (w.getD i 0).toNat % 128 * 128 ^ i < 2 ^ 64 ∧
      ∀ i < w.length, ((w.getD i 0).toNat % 128) <<< (7 * i) < 2 ^ 64) ∧
    -- a word for 300 with a needless third byte
    (Writer.varint 300).length < [(0xAC : UInt8), 0x82, 0x00].length :=
  ⟨varint_exact.1 [0xAC, 0x02, 0xFF] [0xFF] 300 rfl, (varint_exact.2.2 300).2 _ rfl (by decide)⟩

end Proto

end WslDrive
