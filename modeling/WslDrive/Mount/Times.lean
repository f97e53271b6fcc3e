import WslDrive.Core.RoundTrip
import WslDrive.Mount.Poke

/-!
# Timestamps from the wire to the kernel

An instant travels as one signed count of nanoseconds and is handed to the kernel as seconds and
nanoseconds.  The wire keeps every count.  `fill_stat` cuts it with the division of the language,
which rounds towards zero: the two parts always add up to the count, but before 1970 the
nanoseconds come out negative unless the instant is a whole second.

* `timestamps_survive_iff` — which instants the kernel gets as a valid `timespec`.
-/

namespace WslDrive

namespace Mount

/-- `sec` and `nsec` are a valid `timespec` for the instant `ns`. -/
def IsTimespec (sec nsec ns : ℤ) : Prop :=
  0 ≤ nsec ∧ nsec < 1000000000 ∧ sec * 1000000000 + nsec = ns

instance (sec nsec ns : ℤ) : Decidable (IsTimespec sec nsec ns) :=
  inferInstanceAs (Decidable (_ ∧ _ ∧ _))

/-- Cutting an instant by truncating division gives a valid `timespec` unless a part of a second
before 1970 is left. -/
theorem isTimespec_trunc_iff (ns : ℤ) :
    IsTimespec (ns.tdiv 1000000000) (ns.tmod 1000000000) ns ↔
      0 ≤ ns ∨ (1000000000 : ℤ) ∣ ns := by
  have hsum : ns.tdiv 1000000000 * 1000000000 + ns.tmod 1000000000 = ns :=
    Int.tdiv_mul_add_tmod ns 1000000000
  have hlt : ns.tmod 1000000000 < 1000000000 := Int.tmod_lt_of_pos ns (by decide)
  constructor
  · rintro ⟨hnn, -, -⟩
    rcases Int.le_total 0 ns with hns | hns
    · exact .inl hns
    · -- the remainder has the sign of the count
      have hneg : 0 ≤ (-ns).tmod 1000000000 := Int.tmod_nonneg _ (by omega)
      rw [Int.neg_tmod] at hneg
      exact .inr (Int.dvd_iff_tmod_eq_zero.2 (by omega))
  · rintro (hns | hdvd)
    · exact ⟨Int.tmod_nonneg _ hns, hlt, hsum⟩
    · have hzero : ns.tmod 1000000000 = 0 := Int.dvd_iff_tmod_eq_zero.1 hdvd
      exact ⟨by omega, hlt, hsum⟩

namespace Context

variable (ctx : Context) (n : MetadataTree.Node)

theorem fillStat_mtime :
    (ctx.fillStat n).mtimeSec = n.attr.mtimeNs / 1000000000 ∧
      (ctx.fillStat n).mtimeNsec = n.attr.mtimeNs % 1000000000 := by
  unfold fillStat
  split <;> exact ⟨rfl, rfl⟩

theorem toInt_mtimeSec :
    (ctx.fillStat n).mtimeSec.toInt = n.attr.mtimeNs.toInt.tdiv 1000000000 := by
  rw [(ctx.fillStat_mtime n).1, Int64.toInt_div_of_ne_right _ _ (by decide)]
  rfl

theorem toInt_mtimeNsec :
    (ctx.fillStat n).mtimeNsec.toInt = n.attr.mtimeNs.toInt.tmod 1000000000 := by
  rw [(ctx.fillStat_mtime n).2, Int64.toInt_mod]
  rfl

theorem isTimespec_fillStat_iff :
    IsTimespec (ctx.fillStat n).mtimeSec.toInt (ctx.fillStat n).mtimeNsec.toInt
        n.attr.mtimeNs.toInt ↔
      0 ≤ n.attr.mtimeNs.toInt ∨ (1000000000 : ℤ) ∣ n.attr.mtimeNs.toInt := by
  rw [toInt_mtimeSec, toInt_mtimeNsec]
  exact isTimespec_trunc_iff _

end Context

/-- **Which timestamps survive to the mount.**  Attributes that are written and read back, at a
node of the mirror, are reported with a valid `timespec` for their instant exactly if the instant
is not before 1970 or is a whole second. -/
theorem timestamps_survive_iff (ctx : Context) (a : Attributes) (rest : Bytes) :
    (∃ b, Proto.readAttributes.run (Proto.writeAttributes a ++ rest) = .ok b rest ∧
        ∀ n : MetadataTree.Node, n.attr = b →
          IsTimespec (ctx.fillStat n).mtimeSec.toInt (ctx.fillStat n).mtimeNsec.toInt
            a.mtimeNs.toInt) ↔
      0 ≤ a.mtimeNs.toInt ∨ (1000000000 : ℤ) ∣ a.mtimeNs.toInt := by
  have hread := Proto.reads_attributes a rest
  constructor
  · rintro ⟨b, hb, htimes⟩
    rw [hread] at hb
    cases hb
    exact (ctx.isTimespec_fillStat_iff { attr := a }).1 (htimes { attr := a } rfl)
  · intro hns
    refine ⟨a, hread, ?_⟩
    rintro n rfl
    exact (ctx.isTimespec_fillStat_iff n).2 hns

/-- One nanosecond before 1970 is reported as no seconds and minus one nanosecond. -/
theorem timestamps_before_epoch :
    let ctx : Context := { root := {}, writeback := false, notify := none }
    let n : MetadataTree.Node := { attr := { mtimeNs := -1 } }
    Proto.readAttributes.run (Proto.writeAttributes { mtimeNs := -1 }) = .ok n.attr [] ∧
      (ctx.fillStat n).mtimeSec.toInt = 0 ∧ (ctx.fillStat n).mtimeNsec.toInt = -1 ∧
      ¬ IsTimespec (ctx.fillStat n).mtimeSec.toInt (ctx.fillStat n).mtimeNsec.toInt
        (-1 : Int64).toInt := by
  intro ctx n
  have hread := Proto.reads_attributes { mtimeNs := -1 } []
  rw [List.append_nil] at hread
  exact ⟨hread, by decide, by decide, by decide⟩

end Mount

end WslDrive
