import LatticeGates.Proofs.Ring.Monomial
import LatticeGates.Proofs.Ring.Product

/-!
# Rotations of a polynomial

Main statement: over any polynomial, a rotation by `k` leaves the product with `X ^ k`, so that rotations add
up, and adding `X ^ k - 1` times a polynomial is adding its rotation and subtracting the polynomial.
-/

namespace LatticeGates.NegacyclicRing

open Modulus Negacyclic

variable {ring : NegacyclicRing} {a c r : Poly} {k l : ℕ}

theorem rotateInto_of_element (ha : ring.modulus.Reduced ring.degree a)
    (hc : ring.modulus.Reduced ring.degree c) (helement : ring.element c = x ^ k * ring.element a)
    (hr : r.size = ring.degree) : ring.rotateInto r a k = .ok c := by
  obtain ⟨s, hs, hs_red, hs_element⟩ := exists_rotateInto ha k
  rw [rotateInto_eq ha k hr reduced_zero.size_eq, hs,
    eq_of_element_eq hs_red hc (hs_element.trans helement.symm)]

theorem rotateInto_rotateInto (ha : ring.modulus.Reduced ring.degree a)
    (hc : ring.modulus.Reduced ring.degree c) (helement : ring.element c = x ^ k * ring.element a)
    (hr : r.size = ring.degree) : ring.rotateInto r c l = ring.rotateInto r a (k + l) := by
  obtain ⟨d, -, hd_red, hd_element⟩ := exists_rotateInto hc l
  rw [rotateInto_of_element hc hd_red hd_element hr]
  rw [helement, ← mul_assoc, ← pow_add, add_comm l k] at hd_element
  exact (rotateInto_of_element ha hd_red hd_element hr).symm

theorem addMonomialMinusOne_eq (hr : ring.modulus.Reduced ring.degree r)
    (ha : ring.modulus.Reduced ring.degree a) (hc : ring.modulus.Reduced ring.degree c)
    (helement : ring.element c = x ^ k * ring.element a) :
    ∃ s, ring.addMonomialMinusOne r a k = .ok s ∧ ring.modulus.Reduced ring.degree s ∧
      (ring.add r c >>= (ring.sub · a)) = .ok s := by
  obtain ⟨s, hs, hs_red, hs_element⟩ := exists_addMonomialMinusOne hr ha k
  obtain ⟨t, ht, ht_red, ht_element⟩ := exists_add hr hc
  obtain ⟨u, hu, hu_red, hu_element⟩ := exists_sub ht_red ha
  have hsu : ring.element u = ring.element s := by
    rw [hu_element, ht_element, hs_element, helement, sub_mul, one_mul, add_sub_assoc]
  rw [ht, Checked.ok_bind, hu, eq_of_element_eq hu_red hs_red hsu]
  exact ⟨s, hs, hs_red, rfl⟩

/-- The monomial operations of every ring are products with powers of `X` in the quotient ring; the places
that they compute are in range. -/
theorem monomial_operations {n q : ℕ} (h : check n q = .ok ring) (ha : ring.modulus.Reduced n a) :
    ring.degree = n ∧ ring.modulus.value = q ∧ ∀ k : ℕ,
      (∀ j < n, j + k % (2 * n) < Word.bound) ∧
      ∃ c, ring.modulus.Reduced n c ∧ ring.element c = x ^ k * ring.element a ∧
        (∀ r : Poly, r.size = n → ring.rotateInto r a k = .ok c ∧
          ∀ l, ring.rotateInto r c l = ring.rotateInto r a (k + l)) ∧
        ∀ r, ring.modulus.Reduced n r → ∃ s, ring.addMonomialMinusOne r a k = .ok s ∧
          ring.modulus.Reduced n s ∧ (ring.add r c >>= (ring.sub · a)) = .ok s := by
  obtain ⟨rfl, rfl, -, -⟩ := check_shape h
  refine ⟨rfl, rfl, fun k => ⟨fun j hj => ?_, ?_⟩⟩
  · have hmod : k % (2 * ring.degree) < 2 * ring.degree := Nat.mod_lt _ (by omega)
    have hdegree := two_mul_degree_lt_modulus h
    have hmodulus := ring.modulus.lt_bound
    have hword : 2 * 0x4000000000000000 < Word.bound := by decide
    omega
  · obtain ⟨c, -, hc_red, hc_element⟩ := exists_rotateInto ha k
    exact ⟨c, hc_red, hc_element, fun r hr => ⟨rotateInto_of_element ha hc_red hc_element hr,
      fun l => rotateInto_rotateInto ha hc_red hc_element hr⟩,
      fun r hr => addMonomialMinusOne_eq hr ha hc_red hc_element⟩

/-- `X ^ 3 (1 + 2 X)` is `2 + 4 X` modulo `X ^ 2 + 1` and `5`. -/
theorem monomial_operations_two : ∃ ring s, check 2 5 = .ok ring ∧
    ring.rotateInto #[3, 0] #[1, 2] 3 = .ok #[2, 4] ∧ ring.rotateInto #[3, 0] #[2, 4] 1 = .ok #[1, 2] ∧
      ring.addMonomialMinusOne #[1, 1] #[1, 2] 3 = .ok s ∧
      (ring.add #[1, 1] #[2, 4] >>= (ring.sub · #[1, 2])) = .ok s := by
  obtain ⟨ring, hring⟩ := exists_check (k := 1) rfl le_rfl Nat.prime_five (by decide)
    (show 5 ≡ 1 [MOD 2 * 2] from rfl)
  have ha : (⟨5, by decide, by decide⟩ : Modulus).Reduced 2 #[1, 2] := ⟨rfl, by decide⟩
  obtain ⟨-, hvalue, -, -⟩ := check_shape hring
  have hmodulus : ring.modulus = ⟨5, by decide, by decide⟩ := Modulus.value_injective hvalue
  rw [← hmodulus] at ha
  obtain ⟨hdegree, -, h⟩ := monomial_operations hring ha
  obtain ⟨-, c, -, -, hrotate, hadd⟩ := h 3
  obtain ⟨hc, hturn⟩ := hrotate #[3, 0] rfl
  have hthree : ring.rotateInto #[3, 0] #[1, 2] 3 = .ok #[2, 4] := by
    simp only [rotateInto, hdegree, hmodulus]
    decide +kernel
  have hfour : ring.rotateInto #[3, 0] #[1, 2] (3 + 1) = .ok #[1, 2] := by
    simp only [rotateInto, hdegree, hmodulus]
    decide +kernel
  cases hc.symm.trans hthree
  obtain ⟨s, hs, -, hsum⟩ := hadd #[1, 1] ⟨rfl, by rw [hvalue]; decide⟩
  exact ⟨ring, s, hring, hthree, (hturn 1).trans hfour, hs, hsum⟩

end LatticeGates.NegacyclicRing
