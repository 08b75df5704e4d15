import LatticeGates.Modulus.Power
import LatticeGates.Prime

/-!
# Primes pass the test

Main statement: the test is true of every prime. The squarings of a power of a witness end in `1` by Fermat, and
modulo a prime only `1` and `-1` have the square `1`, so the last square before the ones is `-1`.
-/

namespace LatticeGates.Prime

variable {p y : ℕ}

theorem oddPart_mul (n : ℕ) : (oddPart n).1 * 2 ^ (oddPart n).2 = n := by
  induction n using oddPart.induct with
  | case1 n h => simp [oddPart, h]
  | case2 n h d s hhalf ih =>
    rw [hhalf] at ih
    rw [oddPart, if_neg h, hhalf, pow_succ, ← mul_assoc, ih]
    omega

theorem oddPart_pos {n : ℕ} (hn : n ≠ 0) (heven : n % 2 = 0) : 0 < (oddPart n).2 := by
  rw [oddPart, if_neg (by omega)]
  exact Nat.succ_pos _

section Squares

variable [Fact p.Prime]

private theorem eq_one_or_of_square (hy : y < p) (h : (y : ZMod p) * y = 1) : y = 1 ∨ y = p - 1 := by
  have hp : 1 < p := (Fact.out : p.Prime).one_lt
  have of_cast (x : ℕ) (hx : x < p) (hyx : (y : ZMod p) = x) : y = x := by
    rwa [ZMod.natCast_eq_natCast_iff', Nat.mod_eq_of_lt hy, Nat.mod_eq_of_lt hx] at hyx
  rcases mul_self_eq_one_iff.1 h with h | h
  · left
    apply of_cast 1 hp
    simpa using h
  · right
    apply of_cast (p - 1) (by omega)
    rw [h, Nat.cast_sub hp.le]
    simp

/-- A residue that squarings take to one is one, or minus one, or they pass through minus one. -/
theorem squaresToMinusOne_of_pow (k : ℕ) : ∀ y < p, (y : ZMod p) ^ 2 ^ (k + 1) = 1 →
    y = 1 ∨ y = p - 1 ∨ squaresToMinusOne p y k = true := by
  induction k with
  | zero =>
    intro y hy h
    have hsquare : (y : ZMod p) * y = 1 := by simpa [pow_two] using h
    exact (eq_one_or_of_square hy hsquare).imp_right .inl
  | succ k ih =>
    intro y hy h
    have hlt : y * y % p < p := Nat.mod_lt _ (Fact.out : p.Prime).pos
    have hnext : ((y * y % p : ℕ) : ZMod p) ^ 2 ^ (k + 1) = 1 := by
      rw [← h, pow_succ' 2 (k + 1), pow_mul]
      simp [pow_two]
    rcases ih _ hlt hnext with hone | hminus | hlater
    · have hsquare : (y : ZMod p) * y = 1 := by
        rw [← Nat.cast_mul, ← ZMod.natCast_mod, hone, Nat.cast_one]
      exact (eq_one_or_of_square hy hsquare).imp_right .inl
    · simp [squaresToMinusOne, hminus]
    · simp [squaresToMinusOne, hlater]

theorem passes_of_prime {a d s : ℕ} (ha : (a : ZMod p) ≠ 0) (hs : 0 < s) (hd : d * 2 ^ s = p - 1) :
    passes p d s a = true := by
  have hp : 1 < p := (Fact.out : p.Prime).one_lt
  obtain ⟨k, rfl⟩ := Nat.exists_eq_add_one.2 hs
  have hfermat : ((powMod p a d : ℕ) : ZMod p) ^ 2 ^ (k + 1) = 1 := by
    rw [powMod_eq hp, ZMod.natCast_mod, Nat.cast_pow, ← pow_mul, hd]
    exact ZMod.pow_card_sub_one_eq_one ha
  have hlt : powMod p a d < p := by
    rw [powMod_eq hp]
    exact Nat.mod_lt _ (by omega)
  rcases squaresToMinusOne_of_pow k _ hlt hfermat with h | h | h <;> simp [passes, h]

end Squares

theorem prime_of_mem_witnesses : ∀ a ∈ witnesses, a.Prime := by
  simp only [witnesses, List.forall_mem_cons]
  norm_num

theorem isPrime_of_forall_not_dvd {x : ℕ} (hx : 1 < x) (h : ∀ a ∈ witnesses, ¬a ∣ x) : isPrime x =
    witnesses.all (passes x (oddPart (x - 1)).1 (oddPart (x - 1)).2) := by
  have hnone : witnesses.find? (x % · == 0) = none := by
    simpa [Nat.dvd_iff_mod_eq_zero] using h
  rw [isPrime, if_neg (Nat.not_lt.2 hx), hnone]

theorem isPrime_of_prime (hp : p.Prime) : isPrime p = true := by
  by_cases hmem : p ∈ witnesses
  · have hsmall : ∀ a ∈ witnesses, isPrime a = true := by decide +kernel
    exact hsmall p hmem
  · have := Fact.mk hp
    have hnot (a : ℕ) (ha : a ∈ witnesses) : ¬a ∣ p := fun hdvd =>
      hmem ((Nat.prime_dvd_prime_iff_eq (prime_of_mem_witnesses a ha) hp).1 hdvd ▸ ha)
    have hodd : (p - 1) % 2 = 0 := by
      have := hnot 2 (by decide)
      omega
    have hpos : p - 1 ≠ 0 := Nat.sub_ne_zero_of_lt hp.one_lt
    rw [isPrime_of_forall_not_dvd hp.one_lt hnot, List.all_eq_true]
    refine fun a ha => passes_of_prime ?_ (oddPart_pos hpos hodd) (oddPart_mul _)
    rw [Ne, ZMod.natCast_eq_zero_iff, Nat.prime_dvd_prime_iff_eq hp (prime_of_mem_witnesses a ha)]
    exact fun heq => hmem (heq ▸ ha)

end LatticeGates.Prime
