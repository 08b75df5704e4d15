import LatticeGates.Proofs.Prime.Search
import LatticeGates.Proofs.Prime.Test

/-!
# What passes the test

Main statement: the test is true of the witnesses and of the numbers that are coprime to every witness and a
strong probable prime to it, and of no other number.
-/

namespace LatticeGates.Prime

variable {x a d s : ℕ}

/-- Modulo `x`, where `x - 1 = d * 2 ^ s` with `d` odd, the power `a ^ d` is `1`, or it is `-1` or becomes `-1`
in fewer than `s` squarings. -/
def StrongProbablePrime (x a : ℕ) : Prop :=
  ∃ d s, Odd d ∧ d * 2 ^ s = x - 1 ∧
    (a ^ d ≡ 1 [MOD x] ∨ ∃ r < s, a ^ (d * 2 ^ r) ≡ x - 1 [MOD x])

theorem odd_oddPart {n : ℕ} (hn : n ≠ 0) : Odd (oddPart n).1 := by
  induction n using oddPart.induct with
  | case1 n h =>
    rw [oddPart, if_pos h]
    exact Nat.odd_iff.2 (h.resolve_left hn)
  | case2 n h d s hhalf ih =>
    rw [oddPart, if_neg h, hhalf]
    rw [hhalf] at ih
    exact ih (by omega)

private theorem modEq_pred_iff (hx : 1 < x) (n : ℕ) : n ≡ x - 1 [MOD x] ↔ n % x = x - 1 := by
  rw [Nat.ModEq, Nat.mod_eq_of_lt (Nat.sub_lt (by omega) one_pos)]

private theorem modEq_one_iff (hx : 1 < x) (n : ℕ) : n ≡ 1 [MOD x] ↔ n % x = 1 := by
  rw [Nat.ModEq, Nat.mod_eq_of_lt hx]

theorem squaresToMinusOne_iff (hx : 1 < x) {k : ℕ} : ∀ {y : ℕ},
    squaresToMinusOne x y k = true ↔ ∃ r < k, y ^ 2 ^ (r + 1) ≡ x - 1 [MOD x] := by
  induction k with
  | zero => simp [squaresToMinusOne]
  | succ k ih =>
    intro y
    have hlater (r : ℕ) : (y * y % x) ^ 2 ^ (r + 1) ≡ x - 1 [MOD x] ↔
        y ^ 2 ^ (r + 1 + 1) ≡ x - 1 [MOD x] := by
      rw [pow_succ' 2 (r + 1), pow_mul, pow_two, Nat.ModEq, Nat.ModEq, ← Nat.pow_mod]
    simp only [squaresToMinusOne, Bool.or_eq_true, beq_iff_eq, ih, hlater]
    rw [Nat.exists_lt_succ_left, ← modEq_pred_iff hx, pow_one, pow_two]

theorem passes_iff (hx : 1 < x) (hs : 0 < s) : passes x d s a = true ↔
    a ^ d ≡ 1 [MOD x] ∨ ∃ r < s, a ^ (d * 2 ^ r) ≡ x - 1 [MOD x] := by
  obtain ⟨k, rfl⟩ := Nat.exists_eq_add_one.2 hs
  have hpow (r : ℕ) : (a ^ d % x) ^ 2 ^ (r + 1) ≡ x - 1 [MOD x] ↔
      a ^ (d * 2 ^ (r + 1)) ≡ x - 1 [MOD x] := by
    rw [pow_mul, Nat.ModEq, Nat.ModEq, ← Nat.pow_mod]
  simp only [passes, powMod_eq hx, Bool.or_eq_true, beq_iff_eq, Nat.add_sub_cancel,
    squaresToMinusOne_iff hx, hpow]
  rw [Nat.exists_lt_succ_left, ← modEq_one_iff hx, ← modEq_pred_iff hx, pow_zero, mul_one, or_assoc]

theorem passes_oddPart_iff (hx : 1 < x) (hodd : (x - 1) % 2 = 0) :
    passes x (oddPart (x - 1)).1 (oddPart (x - 1)).2 a = true ↔ StrongProbablePrime x a := by
  have hne : x - 1 ≠ 0 := by omega
  rw [passes_iff hx (oddPart_pos hne hodd)]
  constructor
  · exact fun h => ⟨_, _, odd_oddPart hne, oddPart_mul _, h⟩
  · rintro ⟨d, s, hd, hds, h⟩
    have hpart : oddPart (x - 1) = (d, s) := hds ▸ oddPart_mul_two_pow (Nat.odd_iff.1 hd) s
    rw [hpart]
    exact h

theorem StrongProbablePrime.one_lt (h : StrongProbablePrime x a) : 1 < x := by
  obtain ⟨d, s, hd, hds, -⟩ := h
  have hpos : 0 < d * 2 ^ s := Nat.mul_pos hd.pos (Nat.two_pow_pos s)
  omega

theorem mem_witnesses_of_dvd (h : isPrime x = true) (ha : a ∈ witnesses) (hdvd : a ∣ x) :
    x ∈ witnesses := by
  rw [isPrime, if_neg (two_le_of_isPrime h).not_gt] at h
  split at h
  · rename_i p hp
    exact beq_iff_eq.1 h ▸ List.mem_of_find?_eq_some hp
  · rename_i hnone
    exact absurd (Nat.mod_eq_zero_of_dvd hdvd) (by simpa using List.find?_eq_none.1 hnone a ha)

theorem isPrime_iff : isPrime x = true ↔
    x ∈ witnesses ∨ ∀ a ∈ witnesses, x.Coprime a ∧ StrongProbablePrime x a := by
  have coprime_iff {a : ℕ} (ha : a ∈ witnesses) : x.Coprime a ↔ ¬a ∣ x := by
    rw [Nat.coprime_comm, (prime_of_mem_witnesses a ha).coprime_iff_not_dvd]
  have even_pred (hcoprime : ∀ a ∈ witnesses, ¬a ∣ x) : (x - 1) % 2 = 0 := by
    have := hcoprime 2 (by decide)
    omega
  constructor
  · intro h
    have hx := two_le_of_isPrime h
    by_cases hdvd : ∃ a ∈ witnesses, a ∣ x
    · obtain ⟨a, ha, hdvd⟩ := hdvd
      exact .inl (mem_witnesses_of_dvd h ha hdvd)
    · push Not at hdvd
      rw [isPrime_of_forall_not_dvd hx hdvd, List.all_eq_true] at h
      exact .inr fun a ha =>
        ⟨(coprime_iff ha).2 (hdvd a ha), (passes_oddPart_iff hx (even_pred hdvd)).1 (h a ha)⟩
  · rintro (hmem | h)
    · exact isPrime_of_prime (prime_of_mem_witnesses x hmem)
    · have hx := (h 2 (by decide)).2.one_lt
      have hdvd (a : ℕ) (ha : a ∈ witnesses) : ¬a ∣ x := (coprime_iff ha).1 (h a ha).1
      rw [isPrime_of_forall_not_dvd hx hdvd, List.all_eq_true]
      exact fun a ha => (passes_oddPart_iff hx (even_pred hdvd)).2 (h a ha).2

end LatticeGates.Prime
