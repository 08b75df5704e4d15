import LatticeGates.Proofs.Transform.Roots

/-!
# The tables of a transform exist

Main statement: a transform is built for every power of two from two on and every prime modulus that is one
modulo twice the size. The search for a root succeeds at a quadratic non-residue at the latest.
-/

namespace LatticeGates

open Modulus

theorem isPowerOfTwo_two_pow (k : ℕ) : isPowerOfTwo (2 ^ k) = true :=
  isPowerOfTwo_iff.2 ⟨(Nat.two_pow_pos k).ne', by rw [Nat.log2_two_pow]⟩

namespace Prime

variable {q : Modulus} {m e g w : ℕ}

/-- The bases that the search looks for: the power of one is a root of `-1`. -/
def IsRootBase (q : Modulus) (m e b : ℕ) : Prop := q.pow (q.pow b e) (m / 2) = q.value - 1

theorem exists_rootFrom (hg : g ≤ w) (hw : w < q.value + 1) (hbase : IsRootBase q m e w) :
    ∃ b, g ≤ b ∧ b ≤ w ∧ rootFrom q m e g = .ok (q.pow b e) ∧ IsRootBase q m e b ∧
      ∀ c, g ≤ c → c < b → ¬IsRootBase q m e c := by
  induction g using rootFrom.induct q m e with
  | case1 g r hr =>
    exact ⟨g, le_rfl, hg, by rw [rootFrom, if_pos hr], hr, fun c hgc hcg => absurd hcg hgc.not_gt⟩
  | case2 g r hr hlt ih =>
    have hne : g ≠ w := by
      rintro rfl
      exact hr hbase
    obtain ⟨b, hgb, hbw, hroot, hb, hskipped⟩ := ih (by omega)
    refine ⟨b, by omega, hbw, by rw [rootFrom, if_neg hr, if_pos hlt, hroot], hb, fun c hgc hcb => ?_⟩
    rcases hgc.eq_or_lt with rfl | hgc
    · exact hr
    · exact hskipped c hgc hcb
  | case3 g r hr hlt => omega

private theorem exists_pow_eq_neg_one (hq : q.value.Prime) (htwo : 2 ∣ q.value - 1) :
    ∃ w, 2 ≤ w ∧ w < q.value ∧ (w : ZMod q.value) ^ ((q.value - 1) / 2) = -1 := by
  have := Fact.mk hq
  have hhalf : (q.value - 1) / 2 = q.value / 2 := by
    have := q.one_lt
    omega
  have hodd : ringChar (ZMod q.value) ≠ 2 := by
    rw [ZMod.ringChar_zmod_n]
    intro h
    rw [h] at htwo
    omega
  obtain ⟨a, ha⟩ := FiniteField.exists_nonsquare hodd
  have hzero : a ≠ 0 := fun h => ha (h ▸ IsSquare.zero)
  have hone : a ≠ 1 := fun h => ha (h ▸ IsSquare.one)
  have hval : 2 ≤ a.val := by
    have h0 : a.val ≠ 0 := mt (ZMod.val_eq_zero a).1 hzero
    have h1 : a.val ≠ 1 := mt (ZMod.val_eq_one q.one_lt a).1 hone
    omega
  refine ⟨a.val, hval, ZMod.val_lt a, ?_⟩
  rw [ZMod.natCast_zmod_val, hhalf]
  exact (ZMod.pow_div_two_eq_neg_one_or_one q.value hzero).resolve_left
    (mt (ZMod.euler_criterion q.value hzero).2 ha)

section PowerOfTwo

variable {k : ℕ} (hq : q.value.Prime) (hdvd : 2 ^ (k + 1) ∣ q.value - 1)

include hq hdvd

private theorem exists_isRootBase :
    ∃ w, 2 ≤ w ∧ w < q.value ∧ IsRootBase q (2 ^ (k + 1)) ((q.value - 1) / 2 ^ (k + 1)) w := by
  obtain ⟨w, hw, hwlt, hpow⟩ := exists_pow_eq_neg_one hq ((dvd_pow_self 2 k.succ_ne_zero).trans hdvd)
  obtain ⟨c, hc⟩ := hdvd
  have hexp : (q.value - 1) / 2 = c * 2 ^ k := by
    rw [hc, pow_succ, mul_comm (2 ^ k) 2, mul_assoc, Nat.mul_div_cancel_left _ two_pos, mul_comm]
  have hlast : q.value - 1 < q.value := Nat.sub_lt q.pos one_pos
  refine ⟨w, hw, hwlt, eq_of_cast_eq (pow_lt _ _) hlast ?_⟩
  rw [cast_pow, cast_pow, ← pow_mul, hc, Nat.mul_div_cancel_left _ (Nat.two_pow_pos _), pow_succ,
    Nat.mul_div_cancel _ two_pos, ← hexp, hpow, ← pow_succ, ← hc, Nat.cast_sub q.pos]
  simp

/-- Modulo a prime the search ends at a base below the prime. -/
theorem exists_base : ∃ b, 2 ≤ b ∧ b < q.value ∧
    rootOfUnity (2 ^ (k + 1)) q.value = .ok (q.pow b ((q.value - 1) / 2 ^ (k + 1))) ∧
    ∀ c, 2 ≤ c → c < b → ¬IsRootBase q (2 ^ (k + 1)) ((q.value - 1) / 2 ^ (k + 1)) c := by
  obtain ⟨w, hw, hwlt, hbase⟩ := exists_isRootBase hq hdvd
  obtain ⟨b, hb, hbw, hroot, -, hskipped⟩ := exists_rootFrom hw (by omega) hbase
  have hrest : ((q.value - 1) % 2 ^ (k + 1) == 0) = true :=
    beq_iff_eq.2 (Nat.mod_eq_zero_of_dvd hdvd)
  refine ⟨b, hb, hbw.trans_lt hwlt, ?_, hskipped⟩
  rw [rootOfUnity, isPowerOfTwo_two_pow, ensure_true, Checked.ok_bind, Word.sub_of_le q.pos,
    Checked.ok_bind, hrest, ensure_true, Checked.ok_bind, check_value, Checked.ok_bind, hroot]

end PowerOfTwo

theorem exists_rootOfUnity {k n : ℕ} (hn : n.Prime) (hlt : n < 0x4000000000000000)
    (hdvd : 2 ^ (k + 1) ∣ n - 1) : ∃ r, rootOfUnity (2 ^ (k + 1)) n = .ok r := by
  obtain ⟨q, rfl⟩ : ∃ q : Modulus, q.value = n := ⟨⟨n, hn.one_lt, hlt⟩, rfl⟩
  obtain ⟨b, -, -, hroot, -⟩ := exists_base hn hdvd
  exact ⟨_, hroot⟩

end Prime

private theorem size_lt {k q : ℕ} (hq : q.Prime) (hlt : q < 0x4000000000000000)
    (hdvd : 2 * 2 ^ k ∣ q - 1) : 2 ^ k < 0x1000000000000000 := by
  have hpos : 0 < q - 1 := by
    have := hq.two_le
    omega
  have hle := Nat.le_of_dvd hpos hdvd
  rcases Nat.lt_or_ge k 60 with hk | hk
  · exact Nat.pow_lt_pow_right one_lt_two hk
  · have hpow : 2 ^ 60 ≤ 2 ^ k := Nat.pow_le_pow_right two_pos hk
    obtain ⟨c, hc⟩ := hdvd
    obtain rfl : k = 60 := by
      have : 2 ^ k < 2 ^ 61 := by omega
      have := (Nat.pow_lt_pow_iff_right one_lt_two).1 this
      omega
    obtain rfl : c = 1 := by omega
    have hthree : 3 ∣ q := ⟨768614336404564651, by omega⟩
    have := (Nat.prime_dvd_prime_iff_eq Nat.prime_three hq).1 hthree
    omega

theorem Transform.exists_check {k n q : ℕ} (hn : n = 2 ^ k) (htwo : 2 ≤ n) (hq : q.Prime)
    (hlt : q < 0x4000000000000000) (hmod : q ≡ 1 [MOD 2 * n]) : ∃ t, Transform.check n q = .ok t := by
  subst hn
  have hone : 1 < 2 ^ k := htwo
  have hdvd : 2 * 2 ^ k ∣ q - 1 := (Nat.modEq_iff_dvd' hq.one_lt.le).1 hmod.symm
  have hsize := size_lt hq hlt hdvd
  obtain ⟨r, hr⟩ := Prime.exists_rootOfUnity (k := k) hq hlt (by rwa [pow_succ'])
  rw [pow_succ'] at hr
  have hmodulus : Modulus.check q = .ok ⟨q, hq.one_lt, hlt⟩ := dif_pos ⟨hq.one_lt, hlt⟩
  have htwice : Word.mul 2 (2 ^ k) = .ok (2 * 2 ^ k) :=
    Word.mul_of_lt (by simp only [Word.bound]; omega)
  rw [check, isPowerOfTwo_two_pow, decide_eq_true hone, Bool.and_self, ensure_true, Checked.ok_bind,
    hmodulus, Checked.ok_bind, htwice, Checked.ok_bind, hr, Checked.ok_bind,
    Word.checkLength_of_lt hsize, Checked.ok_bind]
  exact ⟨_, rfl⟩

end LatticeGates
