import WslDrive.Core.RoundTrip

/-!
# How long encoded messages are

Upper bounds for what a `Writer` appends.

* `Proto.length_varint_le` — a varint takes a byte for every seven bits;
* `Proto.length_invalidation_le` — an invalidation batch, from the lengths of its paths;
* `Proto.length_readManyResponse_le` — a bulk reply, from the sizes of its files.
-/

namespace WslDrive

namespace Proto

theorem length_varintLoop_le (n : ℕ) {v k : ℕ} (h : v < 2 ^ (7 * (k + 1))) :
    (Writer.varintLoop n v).length ≤ k + 1 := by
  induction k generalizing n v with
  | zero =>
    cases n with
    | zero => exact Nat.le_refl 1
    | succ n => rw [Writer.varintLoop, if_neg (by omega), List.length_singleton]
  | succ k ih =>
    cases n with
    | zero => exact Nat.succ_le_succ (Nat.zero_le _)
    | succ n =>
      rw [Writer.varintLoop]
      split_ifs
      · have hv : v >>> 7 < 2 ^ (7 * (k + 1)) := by
          rw [Nat.shiftRight_eq_div_pow, Nat.div_lt_iff_lt_mul (by decide), ← Nat.pow_add]
          exact h
        exact Nat.succ_le_succ (ih n hv)
      · exact Nat.succ_le_succ (Nat.zero_le _)

theorem length_varint_le {v : UInt64} {k : ℕ} (h : v.toNat < 2 ^ (7 * (k + 1))) :
    (Writer.varint v).length ≤ k + 1 :=
  length_varintLoop_le 9 h

theorem length_varint_le_ten (v : UInt64) : (Writer.varint v).length ≤ 10 :=
  length_varint_le (lt_of_lt_of_le v.toNat_lt (Nat.pow_le_pow_right (by decide) (by decide)))

theorem length_varint_ofNat_le {n k : ℕ} (h : n < 2 ^ (7 * (k + 1))) :
    (Writer.varint (UInt64.ofNat n)).length ≤ k + 1 := by
  refine length_varint_le (lt_of_le_of_lt ?_ h)
  rw [UInt64.toNat_ofNat']
  exact Nat.mod_le _ _

theorem length_string_le {s : Bytes} {k : ℕ} (h : s.length < 2 ^ (7 * (k + 1))) :
    (Writer.string s).length ≤ s.length + (k + 1) := by
  have := length_varint_ofNat_le h
  rw [Writer.string, List.length_append]
  omega

theorem length_attributes_le (a : Attributes) : (writeAttributes a).length ≤ 24 := by
  have hmode : (Writer.varint a.mode.toUInt64).length ≤ 4 + 1 :=
    length_varint_le (by
      rw [UInt32.toNat_toUInt64]
      exact lt_of_lt_of_le a.mode.toNat_lt (Nat.pow_le_pow_right (by decide) (by decide)))
  have hsize := length_varint_le_ten a.size
  simp only [writeAttributes, Writer.u8, Writer.i64, Writer.u64, List.length_append,
    List.length_singleton, length_putLe]
  omega

/-! ### Invalidations -/

theorem length_invalidationOp_le {op : InvalidationOp} (h : op.path.length < 2 ^ 28) :
    (writeInvalidationOp op).length ≤ op.path.length + 34 := by
  have hpath : (Writer.string op.path).length ≤ op.path.length + (3 + 1) := length_string_le h
  have hattr := length_attributes_le op.attr
  simp only [writeInvalidationOp, Writer.u8, Writer.u32, List.length_append, List.length_singleton]
  split_ifs <;> simp only [List.length_nil, length_putLe] <;> omega

theorem length_flatMap_le {α : Type*} {e : α → Bytes} {f : α → ℕ} {xs : List α}
    (h : ∀ x ∈ xs, (e x).length ≤ f x) : (xs.flatMap e).length ≤ (xs.map f).sum := by
  induction xs with
  | nil => exact Nat.le_refl 0
  | cons x xs ih =>
    rw [List.flatMap_cons, List.length_append, List.map_cons, List.sum_cons]
    exact Nat.add_le_add (h x List.mem_cons_self) (ih fun y hy => h y (List.mem_cons_of_mem _ hy))

theorem length_invalidation_le {b : InvalidationBatch}
    (h : ∀ op ∈ b.ops, op.path.length < 2 ^ 28) :
    (writeInvalidation b).length ≤ 18 + (b.ops.map fun op => op.path.length + 34).sum := by
  have hcount := length_varint_le_ten (UInt64.ofNat b.ops.length)
  have hops : (b.ops.flatMap writeInvalidationOp).length ≤ _ :=
    length_flatMap_le fun op hop => length_invalidationOp_le (h op hop)
  simp only [writeInvalidation, Writer.u64, List.length_append, length_putLe]
  omega

/-! ### Bulk replies -/

theorem length_readManyItem_le {it : ReadManyItem} (h : it.data.length < 2 ^ 28) :
    (writeReadManyItem it).length ≤ it.data.length + 5 := by
  have hlen : (Writer.varint (UInt64.ofNat it.data.length)).length ≤ 3 + 1 :=
    length_varint_ofNat_le h
  simp only [writeReadManyItem, Writer.u8, List.length_append, List.length_singleton]
  split_ifs
  · rw [Writer.blob, Writer.raw, List.length_append]
    omega
  · rw [List.length_nil]
    omega

theorem length_readManyResponse_le {p : ReadManyResponse}
    (h : ∀ it ∈ p.items, it.data.length < 2 ^ 28) :
    (writeReadManyResponse p).length ≤ 10 + (p.items.map fun it => it.data.length + 5).sum := by
  have hcount := length_varint_le_ten (UInt64.ofNat p.items.length)
  have hitems : (p.items.flatMap writeReadManyItem).length ≤ _ :=
    length_flatMap_le fun it hit => length_readManyItem_le (h it hit)
  rw [writeReadManyResponse, List.length_append]
  omega

end Proto

end WslDrive
