import LatticeGates.Proofs.Ring.Product

/-!
# The transforms of a ring

Main statement: entry `j` of the transform is the value at power `2 i + 1` of the root of unity, where `i`
has the bits of `j` in reverse order, and the two transforms undo each other. So a constant that is added to
every value is added to the polynomial.
-/

namespace LatticeGates.NegacyclicRing

open Finset Modulus

variable {ring : NegacyclicRing} {a b v : Poly}

private theorem Evaluates.exists_evaluate (hr : ring.Evaluates)
    (ha : ring.modulus.Reduced ring.degree a) :
    ∃ v, ring.forward a = .ok v ∧ ring.modulus.Reduced ring.degree v ∧ ∀ j < ring.degree,
      ring.modulus.entries v j = evaluate ring.degree (ring.modulus.entries a) (ring.leaf j) :=
  Transform.Evaluates.exists_forward hr ha

/-- The leaves of the transform are the odd powers of the root of unity, in bit-reversed order. -/
theorem check_leaf {n q : ℕ} (h : check n q = .ok ring) :
    ∃ psi, Prime.rootOfUnity (2 * n) q = .ok psi ∧ ∀ j < n,
      ring.leaf j = (psi : ZMod ring.modulus.value) ^ (2 * bitReverse ring.logDegree j + 1) := by
  obtain ⟨-, -, h⟩ := Checked.bind_eq_ok.1 h
  obtain ⟨t, ht, h⟩ := Checked.bind_eq_ok.1 h
  cases h
  exact Transform.check_leaf ht

section Inverse

variable (hr : ring.Valid)
include hr

theorem backward_of_forward (ha : ring.modulus.Reduced ring.degree a) (hv : ring.forward a = .ok v) :
    ring.backward v = .ok a := by
  obtain ⟨u, hu, hu_red, hu_values⟩ := exists_forward hr ha
  cases hu.symm.trans hv
  obtain ⟨b, hb, hb_red, hb_values⟩ := exists_backward hr hu_red
  have helement : ring.element b = ring.element a :=
    valuesHom_injective hr (hb_values.trans hu_values)
  rw [hb, eq_of_element_eq hb_red ha helement]

theorem forward_of_backward (hv : ring.modulus.Reduced ring.degree v) (ha : ring.backward v = .ok a) :
    ring.forward a = .ok v := by
  obtain ⟨b, hb, hb_red, hb_values⟩ := exists_backward hr hv
  cases hb.symm.trans ha
  obtain ⟨u, hu, hu_red, hu_values⟩ := exists_forward hr hb_red
  have hvalues : ring.values u = ring.values v := hu_values.trans hb_values
  rw [hu, hu_red.ext hv fun j hj => congrFun hvalues ⟨j, hj⟩]

end Inverse

section Constant

variable {c : ℕ}

def addConstant (q : Modulus) (a : Poly) (c : ℕ) : Poly := a.modify 0 fun x => (x + c) % q.value

theorem reduced_addConstant (ha : ring.modulus.Reduced ring.degree a) :
    ring.modulus.Reduced ring.degree (addConstant ring.modulus a c) := by
  have hsize : (addConstant ring.modulus a c).size = ring.degree := by
    rw [addConstant, Array.size_modify, ha.size_eq]
  refine .of_getElem hsize fun i hi => ?_
  simp only [addConstant, Array.getElem_modify]
  split
  · exact Nat.mod_lt _ ring.modulus.pos
  · exact ha.getElem_lt _

theorem entries_addConstant (ha : ring.modulus.Reduced ring.degree a) {i : ℕ} (hi : i < ring.degree) :
    ring.modulus.entries (addConstant ring.modulus a c) i =
      ring.modulus.entries a i + if i = 0 then (c : ZMod ring.modulus.value) else 0 := by
  have hia : i < a.size := ha.size_eq ▸ hi
  rw [entries_of_lt ((reduced_addConstant ha).size_eq ▸ hi), entries_of_lt hia]
  by_cases hzero : i = 0
  · subst hzero
    simp [addConstant, Array.getElem_modify]
  · simp [addConstant, Array.getElem_modify, hzero, Ne.symm hzero]

theorem evaluate_addConstant (ha : ring.modulus.Reduced ring.degree a) (x : ZMod ring.modulus.value) :
    evaluate ring.degree (ring.modulus.entries (addConstant ring.modulus a c)) x =
      evaluate ring.degree (ring.modulus.entries a) x + c := by
  rw [evaluate_congr fun i hi => entries_addConstant ha hi, evaluate, evaluate]
  simp only [add_mul, sum_add_distrib, ite_mul, zero_mul]
  rw [sum_eq_single_of_mem 0 (mem_range.2 (NeZero.pos ring.degree)) fun i _ hi => if_neg hi, if_pos rfl,
    pow_zero, mul_one]

theorem exists_addScalar (hr : ring.Evaluates) (ha : ring.modulus.Reduced ring.degree a)
    (hv : ring.forward a = .ok v) (hc : c < ring.modulus.value) :
    ∃ s, ring.addScalar v c = .ok s ∧ ring.forward (addConstant ring.modulus a c) = .ok s := by
  obtain ⟨u, hu, hu_red, hu_values⟩ := hr.exists_evaluate ha
  cases hu.symm.trans hv
  obtain ⟨w, hw, hw_red, hw_values⟩ := hr.exists_evaluate (reduced_addConstant (c := c) ha)
  obtain ⟨s, hs, hs_red, hs_entries⟩ := exists_mapChecked (q := ring.modulus)
    (f := (ring.modulus.add · c)) (g := (· + c)) (fun hx => Modulus.exists_add hx hc) hu_red
  obtain rfl : s = w := by
    refine hs_red.ext hw_red fun j hj => ?_
    rw [hs_entries j hj, hu_values j hj, hw_values j hj, evaluate_addConstant ha]
  exact ⟨s, hs, hw⟩

end Constant

private theorem getD_of_evaluate {psi e j : ℕ} (hv : v.getD j 0 < ring.modulus.value)
    (h : ring.modulus.entries v j =
      evaluate ring.degree (ring.modulus.entries a) ((psi : ZMod ring.modulus.value) ^ e)) :
    v.getD j 0 = (∑ i ∈ range ring.degree, a.getD i 0 * psi ^ (i * e)) % ring.modulus.value := by
  refine eq_of_cast_eq hv (Nat.mod_lt _ ring.modulus.pos) ?_
  rw [ZMod.natCast_mod, Nat.cast_sum]
  refine h.trans (sum_congr rfl fun i _ => ?_)
  rw [← pow_mul, mul_comm e, Nat.cast_mul, Nat.cast_pow, entries]

/-- The transform evaluates at the odd powers of the root of unity, in bit-reversed order, and the inverse
transform undoes it on both sides; a constant that is added to every value is added to the polynomial. -/
theorem evaluates_and_inverts {k n q : ℕ} (hn : n = 2 ^ k) (htwo : 2 ≤ n) (hq : q.Prime)
    (hlt : q < 0x4000000000000000) (hmod : q ≡ 1 [MOD 2 * n]) :
    ∃ ring psi, check n q = .ok ring ∧ Prime.rootOfUnity (2 * n) q = .ok psi ∧ ring.degree = n ∧
      ring.modulus.value = q ∧ ∀ a : Poly, ring.modulus.Reduced n a →
        (∃ v, ring.forward a = .ok v ∧ ring.modulus.Reduced n v ∧
          (∀ j < n, v.getD j 0 =
            (∑ i ∈ range n, a.getD i 0 * psi ^ (i * (2 * (BitVec.ofNat k j).reverse.toNat + 1))) % q) ∧
          ring.backward v = .ok a ∧
          ∀ c < q, ∃ s, ring.addScalar v c = .ok s ∧
            ring.backward s = .ok (addConstant ring.modulus a c)) ∧
        ∃ u, ring.backward a = .ok u ∧ ring.modulus.Reduced n u ∧ ring.forward u = .ok a := by
  obtain ⟨ring, hring⟩ := exists_check hn htwo hq hlt hmod
  obtain ⟨hvalid, hdegree, hvalue, -⟩ := check_valid hq hring
  obtain ⟨psi, hpsi, hleaf⟩ := check_leaf hring
  have hlog : ring.logDegree = k := by
    have hpow : ring.degree = 2 ^ ring.logDegree := Transform.size_eq
    rw [hdegree, hn] at hpow
    exact (Nat.pow_right_injective le_rfl hpow).symm
  rw [hlog] at hleaf
  subst hdegree hvalue
  refine ⟨ring, psi, hring, hpsi, rfl, rfl, fun a ha => ⟨?_, ?_⟩⟩
  · obtain ⟨v, hv, hv_red, hv_values⟩ := hvalid.evaluates.exists_evaluate ha
    refine ⟨v, hv, hv_red, fun j hj => ?_, backward_of_forward hvalid ha hv, fun c hc => ?_⟩
    · rw [← bitReverse_eq]
      refine getD_of_evaluate (hv_red.getD_lt j) ?_
      rw [hv_values j hj, hleaf j hj]
    · obtain ⟨s, hs, hforward⟩ := exists_addScalar hvalid.evaluates ha hv hc
      exact ⟨s, hs, backward_of_forward hvalid (reduced_addConstant ha) hforward⟩
  · obtain ⟨u, hu, hu_red, -⟩ := exists_backward hvalid ha
    exact ⟨u, hu, hu_red, forward_of_backward hvalid ha hu⟩

/-- Modulo `5` the root of unity is `2`; `1 + 2 X` has the value `0` at `2` and the value `2` at `2 ^ 3`. -/
theorem evaluates_and_inverts_two : ∃ ring v s, check 2 5 = .ok ring ∧
    ring.forward #[1, 2] = .ok v ∧ v.getD 0 0 = 0 ∧ v.getD 1 0 = 2 ∧ ring.backward v = .ok #[1, 2] ∧
      ring.addScalar v 1 = .ok s ∧ ring.backward s = .ok #[2, 2] := by
  have hmod : 5 ≡ 1 [MOD 2 * 2] := rfl
  obtain ⟨ring, psi, hring, hpsi, -, hvalue, h⟩ :=
    evaluates_and_inverts (k := 1) rfl le_rfl Nat.prime_five (by decide) hmod
  have htwo : Prime.rootOfUnity 4 5 = .ok 2 := by decide +kernel
  cases htwo.symm.trans hpsi
  obtain ⟨⟨v, hv, -, hentries, hback, hadd⟩, -⟩ := h #[1, 2] ⟨rfl, by rw [hvalue]; decide⟩
  obtain ⟨s, hs, hsum⟩ := hadd 1 (by decide)
  have hmodulus : ring.modulus = ⟨5, by decide, by decide⟩ := Modulus.value_injective hvalue
  rw [hmodulus] at hsum
  refine ⟨ring, v, s, hring, hv, ?_, ?_, hback, hs, hsum⟩
  · rw [hentries 0 (by decide)]
    decide
  · rw [hentries 1 (by decide)]
    decide

end LatticeGates.NegacyclicRing
