import LatticeGates.Proofs.Ring.Values
import LatticeGates.Proofs.Transform.Existence

/-!
# The product by way of the values

Main statement: transformed forward, multiplied entry by entry and transformed back, two polynomials give
the coefficients that schoolbook multiplication modulo `X ^ n + 1` gives, for every power of two `n` and
every prime that is one modulo `2 n`.
-/

namespace LatticeGates

open Finset Modulus Negacyclic

namespace Negacyclic

variable {n q : ℕ}

/-- The coefficients after a product with `X ^ i`. -/
def rotated {R : Type} [Neg R] (n i : ℕ) (c : ℕ → R) (k : ℕ) : R :=
  if i ≤ k then c (k - i) else -c (n + k - i)

theorem x_pow_mul_ofCoeffs [NeZero n] (c : ℕ → ZMod q) {i : ℕ} (hi : i ≤ n) :
    x ^ i * ofCoeffs c = (ofCoeffs (rotated n i c) : Negacyclic n q) := by
  induction i with
  | zero =>
    rw [pow_zero, one_mul]
    exact ofCoeffs_congr fun k _ => by simp [rotated]
  | succ i ih =>
    rw [pow_succ', mul_assoc, ih (by omega), x_mul_ofCoeffs]
    refine ofCoeffs_congr fun k hk => ?_
    rw [shift]
    split
    · rw [rotated, rotated, if_pos (by omega), if_neg (by omega)]
      congr 2
      omega
    · by_cases hik : i + 1 ≤ k
      · rw [rotated, rotated, if_pos (by omega), if_pos hik]
        congr 1
        omega
      · rw [rotated, rotated, if_neg (by omega), if_neg hik]
        congr 2
        omega

/-- Every coefficient of a product is a sum over the pairs of places that meet there; a pair beyond the
end comes back with the sign changed. -/
theorem ofCoeffs_mul_ofCoeffs [NeZero n] (c d : ℕ → ZMod q) :
    ofCoeffs c * ofCoeffs d =
      (ofCoeffs fun k => ∑ i ∈ range n, c i * rotated n i d k : Negacyclic n q) := by
  rw [ofCoeffs_sum, ofCoeffs.eq_1 c, sum_mul]
  refine sum_congr rfl fun i hi => ?_
  rw [mul_assoc, x_pow_mul_ofCoeffs d (mem_range.1 hi).le, ofCoeffs_mul]

end Negacyclic

namespace NegacyclicRing

/-- Schoolbook multiplication modulo `X ^ n + 1` and `q`. -/
def schoolbook (q : Modulus) (n : ℕ) (a b : Poly) : Poly :=
  Array.ofFn fun k : Fin n =>
    q.ofInt (∑ i ∈ range n, (a.getD i 0 : ℤ) * rotated n i (fun j => (b.getD j 0 : ℤ)) k)

variable {ring : NegacyclicRing} {a b r : Poly}

theorem reduced_schoolbook (q : Modulus) (n : ℕ) (a b : Poly) :
    q.Reduced n (schoolbook q n a b) :=
  reduced_ofFn fun _ => ofInt_lt _

theorem element_schoolbook (a b : Poly) :
    ring.element (schoolbook ring.modulus ring.degree a b) = ring.element a * ring.element b := by
  rw [element, element, element, ofCoeffs_mul_ofCoeffs]
  refine ofCoeffs_congr fun k hk => ?_
  rw [schoolbook, entries_ofFn hk, cast_ofInt, Int.cast_sum]
  refine sum_congr rfl fun i _ => ?_
  simp only [rotated]
  split <;> simp [entries]

theorem eq_of_element_eq (ha : ring.modulus.Reduced ring.degree a)
    (hb : ring.modulus.Reduced ring.degree b) (h : ring.element a = ring.element b) : a = b := by
  refine ha.ext hb fun i hi => ?_
  have hcoeff := congrArg (fun p => Negacyclic.constant (monomial (-i) * p)) h
  simpa only [element, constant_monomial_neg_mul _ (show i < 2 * ring.degree by omega), if_pos hi]
    using hcoeff

theorem mulInto_eq_mul (hr : r.size = ring.degree) (ha : a.size = ring.degree)
    (hb : b.size = ring.degree) : ring.mulInto r a b = ring.mul a b := by
  apply Array.ext
  · simp [mul, mulInto, zero, hr]
  · intro i hi _
    have hi : i < ring.degree := by simpa [mulInto, hr] using hi
    simp [mul, mulInto, ha, hb, hi]

theorem exists_check {k n q : ℕ} (hn : n = 2 ^ k) (htwo : 2 ≤ n) (hq : q.Prime)
    (hlt : q < 0x4000000000000000) (hmod : q ≡ 1 [MOD 2 * n]) : ∃ ring, check n q = .ok ring := by
  obtain ⟨t, ht⟩ := Transform.exists_check hn htwo hq hlt hmod
  have hmodulus : Modulus.check q = .ok ⟨q, hq.one_lt, hlt⟩ := dif_pos ⟨hq.one_lt, hlt⟩
  rw [check, hmodulus, Checked.ok_bind, ht, Checked.ok_bind]
  exact ⟨_, rfl⟩

/-- The product by way of the values is the schoolbook product, which is the product of the quotient
ring. -/
theorem backward_mulInto_forward {k n q : ℕ} (hn : n = 2 ^ k) (htwo : 2 ≤ n) (hq : q.Prime)
    (hlt : q < 0x4000000000000000) (hmod : q ≡ 1 [MOD 2 * n]) :
    ∃ ring, check n q = .ok ring ∧ ring.degree = n ∧ ring.modulus.value = q ∧
      ∀ a b r : Poly, ring.modulus.Reduced n a → ring.modulus.Reduced n b → r.size = n →
        ∃ u v, ring.forward a = .ok u ∧ ring.forward b = .ok v ∧
          ring.backward (ring.mulInto r u v) = .ok (schoolbook ring.modulus n a b) ∧
          ring.modulus.Reduced n (schoolbook ring.modulus n a b) ∧
          ring.element (schoolbook ring.modulus n a b) = ring.element a * ring.element b := by
  obtain ⟨ring, hring⟩ := exists_check hn htwo hq hlt hmod
  obtain ⟨hvalid, rfl, rfl, -⟩ := check_valid hq hring
  refine ⟨ring, hring, rfl, rfl, fun a b r ha hb hr => ?_⟩
  obtain ⟨u, hu, hu_red, hu_values⟩ := exists_forward hvalid ha
  obtain ⟨v, hv, hv_red, hv_values⟩ := exists_forward hvalid hb
  obtain ⟨p, hp, hp_red, hp_element⟩ := exists_backward_mul hvalid hu_red hv_red hu_values hv_values
  have hred := reduced_schoolbook ring.modulus ring.degree a b
  have helement : ring.element (schoolbook ring.modulus ring.degree a b) = _ := element_schoolbook a b
  obtain rfl := eq_of_element_eq hp_red hred (hp_element.trans helement.symm)
  refine ⟨u, v, hu, hv, ?_, hred, helement⟩
  rw [mulInto_eq_mul hr hu_red.size_eq hv_red.size_eq, hp]

/-- `(1 + 2 X) (3 + X) = 1 + 2 X` modulo `X ^ 2 + 1` and `5`. -/
theorem backward_mulInto_forward_two : ∃ ring u v, check 2 5 = .ok ring ∧
    ring.forward #[1, 2] = .ok u ∧ ring.forward #[3, 1] = .ok v ∧
    ring.backward (ring.mulInto #[0, 0] u v) = .ok #[1, 2] := by
  have hmod : 5 ≡ 1 [MOD 2 * 2] := rfl
  obtain ⟨ring, hring, -, hvalue, hmul⟩ :=
    backward_mulInto_forward (k := 1) rfl le_rfl Nat.prime_five (by decide) hmod
  have hmodulus : ring.modulus = ⟨5, by decide, by decide⟩ := Modulus.value_injective hvalue
  obtain ⟨u, v, hu, hv, hback, -⟩ := hmul #[1, 2] #[3, 1] #[0, 0] ⟨rfl, by rw [hvalue]; decide⟩
    ⟨rfl, by rw [hvalue]; decide⟩ rfl
  rw [hmodulus] at hback
  exact ⟨ring, u, v, hring, hu, hv, hback⟩

end NegacyclicRing

end LatticeGates
