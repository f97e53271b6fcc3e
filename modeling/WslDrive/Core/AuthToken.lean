import Mathlib.Data.Nat.Digits.Lemmas
import Mathlib.Data.Set.Function
import WslDrive.Core.Hash

/-!
# Handshake proofs

A proof of knowledge of the shared token is the hash of the direction, the token and the two
nonces.  The hash function is a parameter of the development.

* `Auth.constantTimeEqual_iff` — the comparison without early exit is equality;
* `Auth.proofInput_injective` — no two inputs of a proof are hashed from the same bytes;
* `Auth.proofs_unambiguous` — proofs are equal only if all they prove is equal, as long as the hash
  function does not collide on what is hashed.
-/

namespace WslDrive

namespace Auth

/-- `std::to_string` of a size. -/
def decimal (n : ℕ) : Bytes :=
  if n = 0 then [0x30] else (Nat.digits 10 n).reverse.map fun d => 0x30 + UInt8.ofNat d

/-- `feed`: what is hashed for one field, its length first. -/
def feed (s : Bytes) : Bytes := decimal s.length ++ 0x3A :: s

/-- The bytes `auth_proof` hashes. -/
def proofInput (token clientNonce serverNonce : Bytes) (fromServer : Bool) : Bytes :=
  feed (bytes "wsldrive-auth-v1") ++ feed (if fromServer then bytes "server" else bytes "client") ++
    feed token ++ feed clientNonce ++ feed serverNonce

/-- `auth_proof`. -/
def authProof (hash : Bytes → Bytes) (token clientNonce serverNonce : Bytes) (fromServer : Bool) :
    Bytes :=
  hash (proofInput token clientNonce serverNonce fromServer)

/-- `constant_time_equal`. -/
def constantTimeEqual (a b : Bytes) : Bool :=
  if a.length ≠ b.length then false
  else (a.zip b).foldl (fun diff p => diff ||| (p.1 ^^^ p.2)) (0 : UInt8) = 0

/-! ### The comparison -/

theorem or_eq_zero_iff (a b : UInt8) : a ||| b = 0 ↔ a = 0 ∧ b = 0 := by
  rw [← UInt8.toBitVec_inj, UInt8.toBitVec_or, ← UInt8.toBitVec_inj, ← UInt8.toBitVec_inj]
  exact BitVec.or_eq_zero_iff

theorem foldl_diff_eq_zero_iff (ps : List (UInt8 × UInt8)) (d : UInt8) :
    ps.foldl (fun diff p => diff ||| (p.1 ^^^ p.2)) d = 0 ↔ d = 0 ∧ ∀ p ∈ ps, p.1 = p.2 := by
  induction ps generalizing d with
  | nil => simp
  | cons p ps ih =>
    rw [List.foldl_cons, ih, or_eq_zero_iff, UInt8.xor_eq_zero_iff]
    simp [and_assoc]

theorem constantTimeEqual_iff (a b : Bytes) : constantTimeEqual a b = true ↔ a = b := by
  rw [constantTimeEqual]
  split_ifs with h
  · simpa using fun hab => h (by rw [hab])
  · rw [decide_eq_true_iff, foldl_diff_eq_zero_iff]
    simp only [true_and]
    rw [ne_eq, not_not] at h
    constructor
    · intro hz
      refine List.ext_getElem h fun i hi hi' => ?_
      have := hz (a[i], b[i]) (by
        rw [List.mem_iff_getElem]
        exact ⟨i, by simp [hi, hi'], by simp⟩)
      exact this
    · rintro rfl p hp
      obtain ⟨i, hi, rfl⟩ := List.mem_iff_getElem.1 hp
      simp

/-! ### The hashed bytes -/

theorem digit_ne_colon {d : ℕ} (h : d < 10) : (0x30 : UInt8) + UInt8.ofNat d ≠ 0x3A := by
  interval_cases d <;> decide

theorem colon_notMem_decimal (n : ℕ) : 0x3A ∉ decimal n := by
  unfold decimal
  split_ifs with hn
  · decide
  · simp only [List.mem_map, List.mem_reverse, not_exists, not_and]
    exact fun d hd => digit_ne_colon (Nat.digits_lt_base (by omega) hd)

/-- The number written in decimal digits. -/
def decimalValue (b : Bytes) : ℕ := Nat.ofDigits 10 (b.reverse.map fun c => (c - 0x30).toNat)

theorem decimalValue_decimal (n : ℕ) : decimalValue (decimal n) = n := by
  unfold decimal
  split_ifs with hn
  · simpa [decimalValue] using hn.symm
  · have hdigit : ∀ d ∈ Nat.digits 10 n, ((0x30 : UInt8) + UInt8.ofNat d - 0x30).toNat = d := by
      intro d hd
      have hlt : d < 10 := Nat.digits_lt_base (by omega) hd
      interval_cases d <;> rfl
    have hmap : (Nat.digits 10 n).map
        ((fun c : UInt8 => (c - 0x30).toNat) ∘ fun d => 0x30 + UInt8.ofNat d) = Nat.digits 10 n :=
      (List.map_congr_left (g := id) hdigit).trans (List.map_id _)
    rw [decimalValue, ← List.map_reverse, List.reverse_reverse, List.map_map, hmap,
      Nat.ofDigits_digits]

theorem feed_append_inj {s t u v : Bytes} (h : feed s ++ u = feed t ++ v) : s = t ∧ u = v := by
  simp only [feed, List.append_assoc, List.cons_append] at h
  -- The lengths end at the first colon, so they agree, and then the fields do.
  have htake : ∀ n (l : Bytes), (decimal n ++ 0x3A :: l).takeWhile (· != 0x3A) = decimal n := by
    intro n l
    rw [List.takeWhile_append_of_pos, List.takeWhile_cons_of_neg (by simp), List.append_nil]
    intro c hc
    simpa using fun h : c = 0x3A => colon_notMem_decimal n (h ▸ hc)
  have hdec : decimal s.length = decimal t.length := by
    rw [← htake s.length (s ++ u), h, htake]
  have hrest : s ++ u = t ++ v := by
    rw [hdec] at h
    exact List.tail_eq_of_cons_eq (List.append_cancel_left h)
  have hlen : s.length = t.length := by
    rw [← decimalValue_decimal s.length, hdec, decimalValue_decimal]
  exact List.append_inj hrest hlen

/-- **No field can shift bytes into another one.** -/
theorem proofInput_injective {token token' cn cn' sn sn' : Bytes} {d d' : Bool}
    (h : proofInput token cn sn d = proofInput token' cn' sn' d') :
    d = d' ∧ token = token' ∧ cn = cn' ∧ sn = sn' := by
  simp only [proofInput, List.append_assoc] at h
  obtain ⟨-, h⟩ := feed_append_inj h
  obtain ⟨hd, h⟩ := feed_append_inj h
  obtain ⟨ht, h⟩ := feed_append_inj h
  obtain ⟨hc, h⟩ := feed_append_inj h
  have hs := (feed_append_inj (u := []) (v := []) (by simpa using h)).1
  refine ⟨?_, ht, hc, hs⟩
  cases d <;> cases d' <;> first | rfl | exact absurd hd (by decide)

/-- With an injective hash, a proof determines its direction, its token and its nonces. -/
theorem authProof_injective {hash : Bytes → Bytes} (hh : Function.Injective hash)
    {token token' cn cn' sn sn' : Bytes} {d d' : Bool}
    (h : authProof hash token cn sn d = authProof hash token' cn' sn' d') :
    d = d' ∧ token = token' ∧ cn = cn' ∧ sn = sn' :=
  proofInput_injective (hh h)

/-! ### The proof as a digest -/

/-- `feed`, on the hasher. -/
def feedHasher (h : Blake3Hasher) (s : Bytes) : Blake3Hasher :=
  ((h.update (decimal s.length)).update [0x3A]).update s

/-- The hasher of `auth_proof` when it is finalized. -/
def proofHasher (token clientNonce serverNonce : Bytes) (fromServer : Bool) : Blake3Hasher :=
  let h := feedHasher {} (bytes "wsldrive-auth-v1")
  let h := feedHasher h (if fromServer then bytes "server" else bytes "client")
  let h := feedHasher h token
  let h := feedHasher h clientNonce
  feedHasher h serverNonce

/-- `auth_proof` with the hash function that is used. -/
def hashProof (blake3 : Bytes → Digest) (token clientNonce serverNonce : Bytes)
    (fromServer : Bool) : Bytes :=
  ((proofHasher token clientNonce serverNonce fromServer).finalize blake3).hex

theorem data_feedHasher (h : Blake3Hasher) (s : Bytes) :
    (feedHasher h s).data = h.data ++ feed s := by
  simp [feedHasher, Blake3Hasher.update, feed]

theorem data_proofHasher (token cn sn : Bytes) (d : Bool) :
    (proofHasher token cn sn d).data = proofInput token cn sn d := by
  simp only [proofHasher, data_feedHasher, List.nil_append, proofInput]

theorem hashProof_eq_authProof (blake3 : Bytes → Digest) :
    hashProof blake3 = authProof fun b => (blake3 b).hex := by
  funext token cn sn d
  rw [hashProof, Blake3Hasher.finalize, data_proofHasher]
  rfl

/-- **Proofs are unambiguous.**  The bytes that are hashed determine the direction, the token and
both nonces.  If the hash function does not collide on the inputs that occur, then so does the
proof; in particular a server's proof is never a client's proof. -/
theorem proofs_unambiguous (blake3 : Bytes → Digest) (inputs : Set Bytes)
    (hfree : Set.InjOn blake3 inputs) :
    (∀ {token token' cn cn' sn sn' : Bytes} {d d' : Bool},
      (proofHasher token cn sn d).data = (proofHasher token' cn' sn' d').data →
        d = d' ∧ token = token' ∧ cn = cn' ∧ sn = sn') ∧
    ∀ {token token' cn cn' sn sn' : Bytes} {d d' : Bool},
      (proofHasher token cn sn d).data ∈ inputs → (proofHasher token' cn' sn' d').data ∈ inputs →
      (hashProof blake3 token cn sn d = hashProof blake3 token' cn' sn' d' →
        d = d' ∧ token = token' ∧ cn = cn' ∧ sn = sn') ∧
      (d = true → d' = false →
        hashProof blake3 token cn sn d ≠ hashProof blake3 token' cn' sn' d') := by
  have hdata : ∀ {token token' cn cn' sn sn' : Bytes} {d d' : Bool},
      (proofHasher token cn sn d).data = (proofHasher token' cn' sn' d').data →
        d = d' ∧ token = token' ∧ cn = cn' ∧ sn = sn' := by
    intro token token' cn cn' sn sn' d d' h
    rw [data_proofHasher, data_proofHasher] at h
    exact proofInput_injective h
  have hproof : ∀ {token token' cn cn' sn sn' : Bytes} {d d' : Bool},
      (proofHasher token cn sn d).data ∈ inputs → (proofHasher token' cn' sn' d').data ∈ inputs →
      hashProof blake3 token cn sn d = hashProof blake3 token' cn' sn' d' →
        d = d' ∧ token = token' ∧ cn = cn' ∧ sn = sn' := by
    intro token token' cn cn' sn sn' d d' hin hin' h
    exact hdata (hfree hin hin' (Digest.hex_injective h))
  refine ⟨hdata, fun hin hin' => ⟨hproof hin hin', ?_⟩⟩
  rintro rfl rfl h
  exact absurd (hproof hin hin' h).1 (by decide)

/-- A hash function that keeps the first bytes tells the two directions apart. -/
theorem proofs_unambiguous_directions :
    let blake3 : Bytes → Digest := fun b => ⟨fun i => b.getD i 0⟩
    let inputs : Set Bytes :=
      {(proofHasher [1] [2] [3] true).data, (proofHasher [1] [2] [3] false).data}
    Set.InjOn blake3 inputs ∧
      hashProof blake3 [1] [2] [3] true ≠ hashProof blake3 [1] [2] [3] false := by
  intro blake3 inputs
  have hne : blake3 (proofHasher [1] [2] [3] true).data ≠
      blake3 (proofHasher [1] [2] [3] false).data := by
    intro h
    exact absurd (congrFun (congrArg Digest.bytes h) 21) (by decide)
  have hfree : Set.InjOn blake3 inputs := by
    rintro a (rfl | rfl) b (rfl | rfl) h
    · rfl
    · exact absurd h hne
    · exact absurd h hne.symm
    · rfl
  exact ⟨hfree, ((proofs_unambiguous blake3 inputs hfree).2 (.inl rfl) (.inr rfl)).2 rfl rfl⟩

end Auth

end WslDrive
