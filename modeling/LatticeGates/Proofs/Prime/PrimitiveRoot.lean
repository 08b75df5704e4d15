import LatticeGates.Proofs.Transform.Existence

/-!
# Primitive roots of unity

Main statement: for a prime modulus the search for a root of unity ends at a base below the modulus, and what it
returns is a primitive root: its powers below the order are distinct. Its inverse is its power by Fermat.
-/

namespace LatticeGates.Prime

open Modulus

variable {q : Modulus} {k r : ℕ}

private theorem mod_eq_pred_iff (n : ℕ) : n % q.value = q.value - 1 ↔ (n : ZMod q.value) = -1 := by
  have hlast : ((q.value - 1 : ℕ) : ZMod q.value) = -1 := by simp [Nat.cast_sub q.pos]
  rw [← hlast, ZMod.natCast_eq_natCast_iff', Nat.mod_eq_of_lt (Nat.sub_lt q.pos one_pos)]

private theorem mod_eq_one_iff (n : ℕ) : n % q.value = 1 ↔ (n : ZMod q.value) = 1 := by
  have h := ZMod.natCast_eq_natCast_iff' n 1 q.value
  rw [Nat.mod_eq_of_lt q.one_lt, Nat.cast_one] at h
  exact h.symm

theorem isRootBase_iff {e b : ℕ} : IsRootBase q (2 ^ (k + 1)) e b ↔
    (b ^ e) ^ 2 ^ k % q.value = q.value - 1 := by
  rw [IsRootBase, pow_eq, pow_eq, ← Nat.pow_mod, pow_succ, Nat.mul_div_cancel _ two_pos]

theorem orderOf_of_pow_eq_neg_one (hq : q.value.Prime) (hodd : 2 < q.value)
    (h : (r : ZMod q.value) ^ 2 ^ k = -1) : orderOf (r : ZMod q.value) = 2 ^ (k + 1) := by
  have := Fact.mk hq
  have := Fact.mk hodd
  refine orderOf_eq_prime_pow ?_ ?_
  · rw [h]
    exact ZMod.neg_one_ne_one
  · rw [pow_succ, pow_mul, h, neg_one_sq]

theorem injOn_pow_mod : Set.InjOn (r ^ · % q.value) (Set.Iio (orderOf (r : ZMod q.value))) := by
  intro i hi j hj h
  refine pow_injOn_Iio_orderOf hi hj ?_
  simpa using (ZMod.natCast_eq_natCast_iff' _ _ _).2 h

/-- The root that is found for a prime is the power of the first base that has a power for it, and it is
primitive. -/
theorem rootOfUnity_primitive (hq : q.value.Prime) (hdvd : 2 ^ (k + 1) ∣ q.value - 1) :
    ∃ b r, 2 ≤ b ∧ b < q.value ∧ rootOfUnity (2 ^ (k + 1)) q.value = .ok r ∧
      r = b ^ ((q.value - 1) / 2 ^ (k + 1)) % q.value ∧
      (∀ c, 2 ≤ c → c < b → (c ^ ((q.value - 1) / 2 ^ (k + 1))) ^ 2 ^ k % q.value ≠ q.value - 1) ∧
      r ^ 2 ^ (k + 1) % q.value = 1 ∧ r ^ 2 ^ k % q.value = q.value - 1 ∧
      Set.InjOn (r ^ · % q.value) (Set.Iio (2 ^ (k + 1))) ∧
      q.inv r < q.value ∧ r * q.inv r % q.value = 1 := by
  have hodd : 2 < q.value := by
    have := Nat.le_of_dvd (Nat.sub_pos_of_lt q.one_lt) ((dvd_pow_self 2 k.succ_ne_zero).trans hdvd)
    omega
  obtain ⟨b, hb, hlt, hroot, hskipped⟩ := exists_base hq hdvd
  obtain ⟨-, hr, hpow⟩ := rootOfUnity_eq_ok hroot
  have hr' := pow_eq q b ((q.value - 1) / 2 ^ (k + 1))
  generalize q.pow b ((q.value - 1) / 2 ^ (k + 1)) = r at hroot hr hpow hr'
  rw [pow_succ, Nat.mul_div_cancel _ two_pos] at hpow
  have hzero : (r : ZMod q.value) ≠ 0 := ne_zero_of_pow_eq_neg_one (Nat.two_pow_pos k).ne' hpow
  have hinjective := injOn_pow_mod (q := q) (r := r)
  rw [orderOf_of_pow_eq_neg_one hq hodd hpow] at hinjective
  refine ⟨b, r, hb, hlt, hroot, hr', fun c hc hcb => mt isRootBase_iff.2 (hskipped c hc hcb),
    ?order, (mod_eq_pred_iff _).2 (by rw [Nat.cast_pow, hpow]), hinjective, inv_lt _, ?inverse⟩
  case order =>
    rw [mod_eq_one_iff, Nat.cast_pow, pow_succ, pow_mul, hpow, neg_one_sq]
  case inverse =>
    rw [mod_eq_one_iff, Nat.cast_mul, mul_inv_of_prime hq hzero]

/-- Modulo `97` the base is `5`, as `2`, `3` and `4` are squares. -/
theorem rootOfUnity_primitive_five : ∃ q : Modulus, q.value = 97 ∧ q.value.Prime ∧ 2 ^ 5 ∣ q.value - 1 ∧
    rootOfUnity (2 ^ 5) q.value = .ok 28 ∧ 28 = 5 ^ 3 % q.value ∧ 28 ^ 2 ^ 5 % q.value = 1 ∧
    28 ^ 2 ^ 4 % q.value = q.value - 1 ∧ Set.InjOn (28 ^ · % q.value) (Set.Iio (2 ^ 5)) ∧
    28 * q.inv 28 % q.value = 1 := by
  have hq : (⟨97, by decide, by decide⟩ : Modulus).value.Prime := by norm_num
  have hdvd : 2 ^ 5 ∣ (⟨97, by decide, by decide⟩ : Modulus).value - 1 := by decide
  have hroot : rootOfUnity (2 ^ 5) 97 = .ok 28 := by decide +kernel
  obtain ⟨b, r, -, -, hr, -, -, hone, hminus, hinjective, -, hinverse⟩ :=
    rootOfUnity_primitive (k := 4) hq hdvd
  obtain rfl : 28 = r := Except.ok.inj (hroot.symm.trans hr)
  exact ⟨_, rfl, hq, hdvd, hroot, by decide, hone, hminus, hinjective, hinverse⟩

end LatticeGates.Prime
