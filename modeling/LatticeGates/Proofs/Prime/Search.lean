import LatticeGates.Prime
import LatticeGates.Proofs.Checked

/-!
# Searches for a prime along an arithmetic progression

A search ends at the first candidate that passes the test, and faults when it has to leave the words before.
Main statements: `above` finds the smallest candidate above a power of two and `below` the largest one below its
start; both find one as soon as some candidate within their reach passes.
-/

namespace LatticeGates.Prime

variable {m p r l u bits : ℕ}

theorem two_le_of_isPrime (h : isPrime p = true) : 2 ≤ p := by
  by_contra hlt
  rw [isPrime, if_pos (not_le.1 hlt)] at h
  cases h

theorem oddPart_mul_two_pow {d : ℕ} (hd : d % 2 = 1) (k : ℕ) : oddPart (d * 2 ^ k) = (d, k) := by
  induction k with
  | zero => rw [pow_zero, mul_one, oddPart, if_pos (.inr hd)]
  | succ k ih =>
    have hpos : 0 < d * 2 ^ (k + 1) := Nat.mul_pos (by omega) (Nat.two_pow_pos _)
    have heven : d * 2 ^ (k + 1) = 2 * (d * 2 ^ k) := by rw [pow_succ, ← mul_assoc, mul_comm]
    have hhalf : d * 2 ^ (k + 1) / 2 = d * 2 ^ k := by rw [heven, Nat.mul_div_cancel_left _ two_pos]
    rw [oddPart, if_neg (by omega), hhalf, ih]

theorem oddPart_two_pow (k : ℕ) : oddPart (2 ^ k) = (1, k) := by
  rw [← one_mul (2 ^ k), oddPart_mul_two_pow rfl]

/-! ## One direction -/

theorem searchUp_eq_ok (h : searchUp m p = .ok r) : p ≤ r ∧ r ≡ p [MOD m] ∧ isPrime r = true ∧
    ∀ c, p ≤ c → c < r → c ≡ p [MOD m] → isPrime c = false := by
  induction p using searchUp.induct m with
  | case1 p hprime =>
    rw [searchUp, if_pos hprime] at h
    cases h
    exact ⟨le_rfl, rfl, hprime, fun c hpc hcp => absurd hcp hpc.not_gt⟩
  | case2 p hprime hnext ih =>
    rw [searchUp, if_neg hprime, dif_pos hnext] at h
    obtain ⟨hle, hmod, hr, hskipped⟩ := ih h
    refine ⟨(Nat.le_add_right p m).trans hle, Nat.modEq_add_modulus_iff.1 hmod, hr,
      fun c hpc hcr hc => ?_⟩
    rcases hpc.eq_or_lt with rfl | hlt
    · exact Bool.eq_false_of_not_eq_true hprime
    · exact hskipped c (hc.symm.add_le_of_lt hlt) hcr (Nat.modEq_add_modulus_iff.2 hc)
  | case3 p hprime hnext =>
    rw [searchUp, if_neg hprime, dif_neg hnext] at h
    cases h

theorem exists_searchUp (hm : 0 < m) (hle : p ≤ u) (hmod : u ≡ p [MOD m]) (hu : isPrime u = true)
    (hlt : u < Word.bound) : ∃ r, searchUp m p = .ok r := by
  induction p using searchUp.induct m with
  | case1 p hprime => exact ⟨p, by rw [searchUp, if_pos hprime]⟩
  | case2 p hprime hnext ih =>
    rw [searchUp, if_neg hprime, dif_pos hnext]
    rcases hle.eq_or_lt with rfl | hpu
    · exact absurd hu hprime
    · exact ih (hmod.symm.add_le_of_lt hpu) (Nat.modEq_add_modulus_iff.2 hmod)
  | case3 p hprime hnext =>
    rcases hle.eq_or_lt with rfl | hpu
    · exact absurd hu hprime
    · exact absurd ⟨hm, (hmod.symm.add_le_of_lt hpu).trans_lt hlt⟩ hnext

theorem searchUp_cases (m p : ℕ) :
    (∃ r, searchUp m p = .ok r) ∨ searchUp m p = .error .overflow := by
  induction p using searchUp.induct m with
  | case1 p hprime => exact .inl ⟨p, by rw [searchUp, if_pos hprime]⟩
  | case2 p hprime hnext ih => rwa [searchUp, if_neg hprime, dif_pos hnext]
  | case3 p hprime hnext => exact .inr (by rw [searchUp, if_neg hprime, dif_neg hnext])

theorem searchDown_eq_ok (h : searchDown m p = .ok r) : r ≤ p ∧ r ≡ p [MOD m] ∧ isPrime r = true ∧
    ∀ c, r < c → c ≤ p → c ≡ p [MOD m] → isPrime c = false := by
  induction p using searchDown.induct m with
  | case1 p hprime =>
    rw [searchDown, if_pos hprime] at h
    cases h
    exact ⟨le_rfl, rfl, hprime, fun c hpc hcp => absurd hcp hpc.not_ge⟩
  | case2 p hprime hnext ih =>
    rw [searchDown, if_neg hprime, dif_pos hnext] at h
    obtain ⟨hle, hmod, hr, hskipped⟩ := ih h
    rw [Nat.modEq_sub_modulus_iff hnext.2] at hmod
    refine ⟨hle.trans (Nat.sub_le p m), hmod, hr, fun c hrc hcp hc => ?_⟩
    rcases hcp.eq_or_lt with rfl | hlt
    · exact Bool.eq_false_of_not_eq_true hprime
    · exact hskipped c hrc (Nat.le_sub_of_add_le (hc.add_le_of_lt hlt))
        ((Nat.modEq_sub_modulus_iff hnext.2).2 hc)
  | case3 p hprime hnext =>
    rw [searchDown, if_neg hprime, dif_neg hnext] at h
    cases h

theorem exists_searchDown (hm : 0 < m) (hle : l ≤ p) (hmod : l ≡ p [MOD m]) (hl : isPrime l = true) :
    ∃ r, searchDown m p = .ok r := by
  induction p using searchDown.induct m with
  | case1 p hprime => exact ⟨p, by rw [searchDown, if_pos hprime]⟩
  | case2 p hprime hnext ih =>
    rw [searchDown, if_neg hprime, dif_pos hnext]
    rcases hle.eq_or_lt with rfl | hlp
    · exact absurd hl hprime
    · exact ih (Nat.le_sub_of_add_le (hmod.add_le_of_lt hlp))
        ((Nat.modEq_sub_modulus_iff hnext.2).2 hmod)
  | case3 p hprime hnext =>
    rcases hle.eq_or_lt with rfl | hlp
    · exact absurd hl hprime
    · exact absurd ⟨hm, (Nat.le_add_left m l).trans (hmod.add_le_of_lt hlp)⟩ hnext

theorem searchDown_cases (hm : 0 < m) (p : ℕ) :
    (∃ r, searchDown m p = .ok r) ∨ searchDown m p = .error .overflow := by
  induction p using searchDown.induct m with
  | case1 p hprime => exact .inl ⟨p, by rw [searchDown, if_pos hprime]⟩
  | case2 p hprime hnext ih => rwa [searchDown, if_neg hprime, dif_pos hnext]
  | case3 p hprime hnext =>
    exact .inr (by rw [searchDown, if_neg hprime, dif_neg hnext, if_neg hm.ne'])

/-- When no candidate passes, the search goes on until it would leave the numbers. -/
theorem searchDown_eq_error (hm : 0 < m)
    (hnone : ∀ c ≤ p, c ≡ p [MOD m] → isPrime c = false) : searchDown m p = .error .overflow := by
  induction p using searchDown.induct m with
  | case1 p hprime => exact absurd hprime (by rw [hnone p le_rfl rfl]; exact Bool.false_ne_true)
  | case2 p hprime hnext ih =>
    rw [searchDown, if_neg hprime, dif_pos hnext]
    exact ih fun c hc hmod => hnone c (hc.trans (Nat.sub_le p m))
      ((Nat.modEq_sub_modulus_iff hnext.2).1 hmod)
  | case3 p hprime hnext => rw [searchDown, if_neg hprime, dif_neg hnext, if_neg hm.ne']

/-! ## From a power of two -/

private theorem start_spec (hm : 0 < m) (r : ℕ) :
    m ∣ r + (m - r % m) % m ∧ ∀ d, m ∣ d → r ≤ d → r + (m - r % m) % m ≤ d := by
  have hlt : r % m < m := Nat.mod_lt r hm
  have hdvd : m ∣ r + (m - r % m) % m := by
    rw [Nat.dvd_iff_mod_eq_zero, Nat.add_mod_mod, ← Nat.mod_add_mod, Nat.add_sub_cancel' hlt.le,
      Nat.mod_self]
  refine ⟨hdvd, fun d hd hle => ?_⟩
  by_contra hgt
  rw [not_le] at hgt
  have hnear := Nat.mod_lt (m - r % m) hm
  have hgap := Nat.le_of_dvd (Nat.sub_pos_of_lt hgt) (Nat.dvd_sub hdvd hd)
  omega

private theorem above_eq (bits : ℕ) (hm : 0 < m) : ∃ start, 2 ^ bits < start ∧ start ≡ 1 [MOD m] ∧
    (∀ c, 2 ^ bits < c → c ≡ 1 [MOD m] → start ≤ c) ∧
    above bits m = if bits < 64 ∧ start < Word.bound then searchUp m start else .error .overflow := by
  obtain ⟨hdvd, hleast⟩ := start_spec hm (2 ^ bits)
  have hle : 2 ^ bits ≤ 2 ^ bits + (m - 2 ^ bits % m) % m := Nat.le_add_right _ _
  have habove : above bits m = (do
      let power ← Word.shiftOne bits
      let rest ← Word.mod power m
      searchUp m (← Word.add (← Word.add power ((m - rest) % m)) 1)) := rfl
  rw [Word.shiftOne, Nat.one_shiftLeft] at habove
  generalize hs : 2 ^ bits + (m - 2 ^ bits % m) % m = s at hdvd hleast hle
  refine ⟨s + 1, Nat.lt_succ_of_le hle, ?_, fun c hc hmod => ?_, ?_⟩
  · exact (Nat.modEq_zero_iff_dvd.2 hdvd).add_right 1
  · have hpred : m ∣ c - 1 := (Nat.modEq_iff_dvd' (Nat.one_le_of_lt hc)).1 hmod.symm
    exact (Nat.le_sub_one_iff_lt (Nat.zero_lt_of_lt hc)).1
      (hleast (c - 1) hpred (Nat.le_sub_one_of_lt hc))
  · rw [habove]
    by_cases hbits : bits < 64
    · rw [if_pos hbits, Checked.ok_bind, Word.mod_of_pos hm, Checked.ok_bind, Word.add, hs]
      by_cases hlt : s + 1 < Word.bound
      · rw [if_pos ⟨hbits, hlt⟩, Word.check_of_lt (Nat.lt_of_succ_lt hlt), Checked.ok_bind,
          Word.add_of_lt hlt, Checked.ok_bind]
      · rw [if_neg (mt And.right hlt), Word.check]
        split
        · rw [Checked.ok_bind, Word.add, Word.check, if_neg hlt, Checked.error_bind]
        · rfl
    · rw [if_neg hbits, if_neg (mt And.left hbits), Checked.error_bind]

theorem above_pos (h : above bits m = .ok p) : 0 < m := by
  obtain ⟨power, -, h⟩ := Checked.bind_eq_ok.1 h
  obtain ⟨rest, hrest, -⟩ := Checked.bind_eq_ok.1 h
  by_contra hzero
  rw [Word.mod, if_pos (Nat.eq_zero_of_not_pos hzero)] at hrest
  cases hrest

/-- The search upwards returns the smallest candidate above the power. -/
theorem above_eq_ok (h : above bits m = .ok p) : 2 ^ bits < p ∧ p ≡ 1 [MOD m] ∧ isPrime p = true ∧
    ∀ c, 2 ^ bits < c → c < p → c ≡ 1 [MOD m] → isPrime c = false := by
  obtain ⟨start, hlt, hstart, hfirst, heq⟩ := above_eq bits (above_pos h)
  rw [heq] at h
  split at h
  · obtain ⟨hle, hmod, hprime, hskipped⟩ := searchUp_eq_ok h
    exact ⟨hlt.trans_le hle, hmod.trans hstart, hprime, fun c hc hcp hcm =>
      hskipped c (hfirst c hc hcm) hcp (hcm.trans hstart.symm)⟩
  · cases h

theorem exists_above (hm : 0 < m) (hbits : bits < 64) (hlt : 2 ^ bits < u) (hmod : u ≡ 1 [MOD m])
    (hu : isPrime u = true) (hword : u < Word.bound) : ∃ p, above bits m = .ok p := by
  obtain ⟨start, -, hstart, hfirst, heq⟩ := above_eq bits hm
  have hle := hfirst u hlt hmod
  rw [heq, if_pos ⟨hbits, hle.trans_lt hword⟩]
  exact exists_searchUp hm hle (hmod.trans hstart.symm) hu hword

theorem above_cases (hm : 0 < m) :
    (∃ p, above bits m = .ok p) ∨ above bits m = .error .overflow := by
  obtain ⟨start, -, -, -, heq⟩ := above_eq bits hm
  rw [heq]
  split
  · exact searchUp_cases m start
  · exact .inr rfl

/-- The search downwards returns the largest candidate below its start. -/
theorem below_eq_ok (hm : 0 < m) (h : below p m = .ok r) : r < p ∧ r ≡ p [MOD m] ∧
    isPrime r = true ∧ ∀ c, r < c → c < p → c ≡ p [MOD m] → isPrime c = false := by
  obtain ⟨start, hstart, h⟩ := Checked.bind_eq_ok.1 h
  obtain ⟨hle, rfl⟩ := Word.sub_eq_ok.1 hstart
  obtain ⟨hr, hmod, hprime, hskipped⟩ := searchDown_eq_ok h
  rw [Nat.modEq_sub_modulus_iff hle] at hmod
  exact ⟨by omega, hmod, hprime, fun c hrc hcp hc =>
    hskipped c hrc (Nat.le_sub_of_add_le (hc.add_le_of_lt hcp))
      ((Nat.modEq_sub_modulus_iff hle).2 hc)⟩

theorem exists_below (hm : 0 < m) (hlt : l < p) (hmod : l ≡ p [MOD m]) (hl : isPrime l = true) :
    ∃ r, below p m = .ok r := by
  have hback : l + m ≤ p := hmod.add_le_of_lt hlt
  have hle : m ≤ p := (Nat.le_add_left m l).trans hback
  rw [below, Word.sub_of_le hle, Checked.ok_bind]
  exact exists_searchDown hm (Nat.le_sub_of_add_le hback)
    ((Nat.modEq_sub_modulus_iff hle).2 hmod) hl

theorem below_cases (hm : 0 < m) (p : ℕ) :
    (∃ r, below p m = .ok r) ∨ below p m = .error .overflow := by
  rw [below, Word.sub]
  split
  · exact searchDown_cases hm (p - m)
  · exact .inr rfl

theorem below_eq_error (hm : 0 < m)
    (hnone : ∀ c < p, c ≡ p [MOD m] → isPrime c = false) : below p m = .error .overflow := by
  rw [below, Word.sub]
  split
  · rename_i hle
    exact searchDown_eq_error hm fun c hc hmod =>
      hnone c (by omega) ((Nat.modEq_sub_modulus_iff hle).1 hmod)
  · rfl

end LatticeGates.Prime
