import LatticeGates.Params.Basic
import LatticeGates.Proofs.Prime.Search

/-!
# The modulus of a ring

Main statements: the ring modulus is the largest number up to a power of two that passes the test and is one
modulo the order; the modulus of a security parameter set exists up to `greatestRing`, and above it the search
for one leaves the words.
-/

namespace LatticeGates.Params

variable {size bits m n q l u : ℕ}

/-- The largest number up to `2 ^ size` that passes the test and is one modulo `m`. -/
structure RingModulus (size m q : ℕ) : Prop where
  isPrime : Prime.isPrime q = true
  modEq : q ≡ 1 [MOD m]
  le : q ≤ 2 ^ size
  largest : ∀ c, c ≡ 1 [MOD m] → q < c → c ≤ 2 ^ size → Prime.isPrime c = false

theorem RingModulus.lt (h : RingModulus size m q) : m < q := by
  have htwo := Prime.two_le_of_isPrime h.isPrime
  have hdvd : m ∣ q - 1 := (Nat.modEq_iff_dvd' (by omega)).1 h.modEq.symm
  have := Nat.le_of_dvd (by omega) hdvd
  omega

theorem ringPrime_eq_ok (h : ringPrime size m = .ok q) : RingModulus size m q := by
  obtain ⟨p, hp, h⟩ := Checked.bind_eq_ok.1 h
  obtain ⟨hpower, hmod, -, hfirst⟩ := Prime.above_eq_ok hp
  obtain ⟨hlt, hback, hprime, hskipped⟩ := Prime.below_eq_ok (Prime.above_pos hp) h
  refine ⟨hprime, hback.trans hmod, ?_, fun c hc hqc hle => ?_⟩
  · by_contra hgt
    have hfails := hfirst q (not_le.1 hgt) hlt (hback.trans hmod)
    rw [hprime] at hfails
    cases hfails
  · exact hskipped c hqc (hle.trans_lt hpower) (hc.trans hmod.symm)

theorem exists_ringPrime (hm : 0 < m) (hsize : size < 64) (hl : Prime.isPrime l = true)
    (hlmod : l ≡ 1 [MOD m]) (hle : l ≤ 2 ^ size) (hu : Prime.isPrime u = true)
    (humod : u ≡ 1 [MOD m]) (hlt : 2 ^ size < u) (hword : u < Word.bound) : ∃ q, ringPrime size m = .ok q := by
  obtain ⟨p, hp⟩ := Prime.exists_above hm hsize hlt humod hu hword
  obtain ⟨hpower, hmod, -, -⟩ := Prime.above_eq_ok hp
  obtain ⟨q, hq⟩ := Prime.exists_below hm (hle.trans_lt hpower) (hlmod.trans hmod.symm) hl
  exact ⟨q, by rw [ringPrime, hp, Checked.ok_bind, hq]⟩

theorem ringPrime_eq_error (hm : 0 < m)
    (hnone : ∀ c, c ≡ 1 [MOD m] → c ≤ 2 ^ size → Prime.isPrime c = false) :
    ringPrime size m = .error .overflow := by
  rw [ringPrime]
  rcases Prime.above_cases hm with ⟨p, hp⟩ | herror
  · obtain ⟨-, hmod, -, hfirst⟩ := Prime.above_eq_ok hp
    rw [hp, Checked.ok_bind]
    refine Prime.below_eq_error hm fun c hcp hc => ?_
    rcases le_or_gt c (2 ^ size) with hle | hgt
    · exact hnone c (hc.trans hmod) hle
    · exact hfirst c hgt hcp (hc.trans hmod)
  · rw [herror, Checked.error_bind]

/-! ## The rings of the security parameters -/

/-- The greatest ring dimension that has a modulus of the size of the security parameters. -/
def greatestRing (bits : ℕ) : ℕ := if bits = 11 then 2 ^ 21 else 2 ^ 49

private theorem modEq_of_two_pow {k e c : ℕ} (hk : k < e) (h : 2 ^ e ∣ c - 1) (hc : 1 ≤ c) :
    c ≡ 1 [MOD 2 * 2 ^ k] := by
  rw [← pow_succ']
  exact ((Nat.modEq_iff_dvd' hc).2 ((pow_dvd_pow 2 hk).trans h)).symm

theorem exists_ringModulus {k : ℕ} (hn : n = 2 ^ k) (hle : n ≤ greatestRing bits) :
    ∃ q, ringPrime (ringBits bits) (2 * n) = .ok q := by
  have hm : 0 < 2 * n := by
    rw [hn]
    positivity
  subst hn
  unfold greatestRing at hle
  unfold ringBits
  split_ifs at hle ⊢ with hbits
  · have hk : k < 22 := Nat.lt_succ_of_le ((Nat.pow_le_pow_iff_right one_lt_two).1 hle)
    exact exists_ringPrime (l := 27 * 2 ^ 22 + 1) (u := 5 * 2 ^ 25 + 1) hm (by norm_num)
      (by decide +kernel) (modEq_of_two_pow hk (by norm_num) (by norm_num)) (by norm_num)
      (by decide +kernel) (modEq_of_two_pow hk (by norm_num) (by norm_num)) (by norm_num)
      (by norm_num [Word.bound])
  · have hk : k < 50 := Nat.lt_succ_of_le ((Nat.pow_le_pow_iff_right one_lt_two).1 hle)
    exact exists_ringPrime (l := 7 * 2 ^ 50 + 1) (u := 27 * 2 ^ 56 + 1) hm (by norm_num)
      (by decide +kernel) (modEq_of_two_pow hk (by norm_num) (by norm_num)) (by norm_num)
      (by decide +kernel) (modEq_of_two_pow hk (by norm_num) (by norm_num)) (by norm_num)
      (by norm_num [Word.bound])

private theorem isPrime_eq_false {e d k : ℕ} (hk : e ≤ k + 1)
    (hnone : ∀ j < 2 ^ d, Prime.isPrime (2 ^ e * j + 1) = false) :
    ∀ c, c ≡ 1 [MOD 2 * 2 ^ k] → c ≤ 2 ^ (e + d) → Prime.isPrime c = false := by
  intro c hmod hle
  rcases Nat.eq_zero_or_pos c with rfl | hpos
  · rfl
  · rw [← pow_succ'] at hmod
    obtain ⟨j, hj⟩ := (pow_dvd_pow 2 hk).trans ((Nat.modEq_iff_dvd' hpos).1 hmod.symm)
    have hlt : 2 ^ e * j < 2 ^ e * 2 ^ d := by
      rw [← pow_add]
      omega
    obtain rfl : c = 2 ^ e * j + 1 := by omega
    exact hnone j (Nat.lt_of_mul_lt_mul_left hlt)

theorem ringModulus_eq_error {k : ℕ} (hn : n = 2 ^ k) (hlt : greatestRing bits < n) :
    ringPrime (ringBits bits) (2 * n) = .error .overflow := by
  have hm : 0 < 2 * n := by omega
  subst hn
  refine ringPrime_eq_error hm ?_
  unfold greatestRing at hlt
  unfold ringBits
  split_ifs at hlt ⊢ with hbits
  · have hk : 21 < k := (Nat.pow_lt_pow_iff_right one_lt_two).1 hlt
    exact isPrime_eq_false (e := 23) (d := 4) (by omega) (by decide +kernel)
  · have hk : 49 < k := (Nat.pow_lt_pow_iff_right one_lt_two).1 hlt
    exact isPrime_eq_false (e := 51) (d := 3) (by omega) (by decide +kernel)

end LatticeGates.Params
