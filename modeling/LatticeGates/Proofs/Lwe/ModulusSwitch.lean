import LatticeGates.Proofs.Lwe.Decryption

/-!
# The error of a modulus switch

Main statement: switching to another modulus scales the phase, up to half of one more than the absolute sum
of the secret, and exactly where the new modulus is a multiple of the old one.
-/

namespace LatticeGates.Lwe

open Finset

/-- Rounding is off by a half at most, before it wraps. -/
theorem exists_round {m t : ℕ} (hm : 0 < m) (a : ℕ) :
    ∃ (δ : ℚ) (κ : ℤ), |δ| ≤ 1 / 2 ∧ (Modulus.round a m t : ℚ) = t / m * a + δ - t * κ := by
  have hmq : (0 : ℚ) < m := by exact_mod_cast hm
  have hdiv := Nat.div_add_mod (a * t + m / 2) m
  have hlt := Nat.mod_lt (a * t + m / 2) hm
  have hwrap := Nat.div_add_mod ((a * t + m / 2) / m) t
  refine ⟨((a * t + m / 2) / m : ℕ) - t / m * a, ((a * t + m / 2) / m / t : ℕ), ?_, ?_⟩
  · have hhalf : m / 2 * 2 ≤ m ∧ m ≤ m / 2 * 2 + 1 := by omega
    generalize (a * t + m / 2) / m = v at *
    generalize (a * t + m / 2) % m = w at *
    have hscale : (v : ℚ) - t / m * a = (v * m - a * t) / m := by field_simp
    rw [hscale, abs_le, le_div_iff₀ hmq, div_le_iff₀ hmq]
    have hv : (m : ℚ) * v + w = a * t + (m / 2 : ℕ) := by exact_mod_cast hdiv
    have h1 : ((m / 2 : ℕ) : ℚ) * 2 ≤ m := by exact_mod_cast hhalf.1
    have h2 : (m : ℚ) ≤ (m / 2 : ℕ) * 2 + 1 := by exact_mod_cast hhalf.2
    have h3 : (w : ℚ) + 1 ≤ m := by exact_mod_cast hlt
    have h4 : (0 : ℚ) ≤ w := by positivity
    constructor <;> linarith
  · rw [Modulus.round]
    generalize (a * t + m / 2) / m = v at *
    have hv : (t : ℚ) * (v / t : ℕ) + (v % t : ℕ) = v := by exact_mod_cast hwrap
    rw [Int.cast_natCast]
    linarith

namespace Ciphertext

variable {ct : Ciphertext} {t : ℕ}

private theorem getD_map_round (ct : Ciphertext) {i : ℕ} (hi : i < ct.mask.size) :
    (ct.mask.map (Modulus.round · ct.modulus t)).getD i 0 = Modulus.round (ct.mask.getD i 0) ct.modulus t := by
  simp [Array.getD_eq_getD_getElem?, hi]

theorem switchModulus_eq (hm : 0 < ct.modulus) (ht : 0 < t) : ct.switchModulus t =
    .ok ⟨ct.mask.map (Modulus.round · ct.modulus t), Modulus.round ct.body ct.modulus t, t⟩ := by
  have hrescale (a : ℕ) : Modulus.rescale a ct.modulus t = .ok (Modulus.round a ct.modulus t) :=
    Modulus.rescale_of_pos hm ht
  have hmask : mapChecked (Modulus.rescale · ct.modulus t) ct.mask =
      .ok (ct.mask.map (Modulus.round · ct.modulus t)) := by
    rw [mapChecked, tabulate_ok fun i hi => hrescale ct.mask[i]]
    congr 1
    apply Array.ext <;> simp
  rw [switchModulus, hmask, hrescale]
  rfl

theorem exists_switchModulus (hm : 0 < ct.modulus) (ht : 0 < t) :
    ∃ r, ct.switchModulus t = .ok r ∧ r.modulus = t ∧ r.mask.size = ct.mask.size ∧ r.WellFormed ∧
      ∀ s : ℕ → ℤ, ∃ k : ℤ,
        |(r.integerPhase s : ℚ) - t / ct.modulus * ct.integerPhase s - t * k| ≤
          (1 + ∑ i ∈ range ct.mask.size, |(s i : ℚ)|) / 2 := by
  have hlt : ∀ a, Modulus.round a ct.modulus t < t := fun a => Nat.mod_lt _ ht
  refine ⟨_, switchModulus_eq hm ht, rfl, by simp, ⟨fun x hx => ?_, hlt _⟩, fun s => ?_⟩
  · obtain ⟨a, -, rfl⟩ := Array.mem_map.1 hx
    exact hlt a
  · choose δ κ hδ hround using exists_round (t := t) hm
    have hentry : ∀ i ∈ range ct.mask.size,
        (((ct.mask.map (Modulus.round · ct.modulus t)).getD i 0 : ℕ) : ℚ) * s i =
          t / ct.modulus * (ct.mask.getD i 0 * s i) + δ (ct.mask.getD i 0) * s i -
            t * (κ (ct.mask.getD i 0) * s i) := by
      intro i hi
      rw [getD_map_round ct (mem_range.1 hi), hround]
      ring
    refine ⟨∑ i ∈ range ct.mask.size, κ (ct.mask.getD i 0) * s i - κ ct.body, ?_⟩
    have herror : ((integerPhase ⟨ct.mask.map (Modulus.round · ct.modulus t),
          Modulus.round ct.body ct.modulus t, t⟩ s : ℤ) : ℚ) -
        t / ct.modulus * ct.integerPhase s -
        t * ((∑ i ∈ range ct.mask.size, κ (ct.mask.getD i 0) * s i - κ ct.body : ℤ) : ℚ) =
        δ ct.body - ∑ i ∈ range ct.mask.size, δ (ct.mask.getD i 0) * s i := by
      rw [integerPhase, integerPhase, Array.size_map]
      push_cast
      rw [sum_congr rfl hentry, hround, sum_sub_distrib, sum_add_distrib, ← mul_sum, ← mul_sum]
      ring
    rw [herror]
    calc |δ ct.body - ∑ i ∈ range ct.mask.size, δ (ct.mask.getD i 0) * s i|
        ≤ |δ ct.body| + |∑ i ∈ range ct.mask.size, δ (ct.mask.getD i 0) * s i| := abs_sub _ _
      _ ≤ 1 / 2 + ∑ i ∈ range ct.mask.size, 1 / 2 * |(s i : ℚ)| := by
        refine add_le_add (hδ _) ((abs_sum_le_sum_abs _ _).trans (sum_le_sum fun i _ => ?_))
        rw [abs_mul]
        exact mul_le_mul_of_nonneg_right (hδ _) (abs_nonneg _)
      _ = (1 + ∑ i ∈ range ct.mask.size, |(s i : ℚ)|) / 2 := by
        rw [← mul_sum]
        ring

section Switched

variable {q t : Modulus} {sk : Secret} {r : Ciphertext}

theorem Shaped.integerPhase_of_dvd (hct : ct.Shaped q sk.dimension) (hdvd : q.value ∣ t.value)
    (hr : ct.switchModulus t.value = .ok r) (s : ℕ → ℤ) :
    r.integerPhase s = (t.value / q.value : ℕ) * ct.integerPhase s := by
  obtain ⟨c, hc⟩ := hdvd
  have hpos : 0 < c := Nat.pos_of_mul_pos_left (hc ▸ t.pos)
  have hdiv : t.value / q.value = c := by rw [hc, Nat.mul_div_cancel_left _ q.pos]
  rw [switchModulus_eq (hct.modulus_eq ▸ q.pos) t.pos] at hr
  obtain rfl := Except.ok.inj hr
  have hentry : ∀ i ∈ range ct.mask.size,
      (((ct.mask.map (Modulus.round · ct.modulus t.value)).getD i 0 : ℕ) : ℤ) * s i =
        c * (ct.mask.getD i 0 * s i) := by
    intro i hi
    rw [getD_map_round ct (mem_range.1 hi), hct.modulus_eq, hc, Modulus.round_mul (hct.mask.getD_lt i) hpos]
    push_cast
    ring
  rw [integerPhase, integerPhase, Array.size_map, sum_congr rfl hentry, ← mul_sum, hdiv, hct.modulus_eq, hc,
    Modulus.round_mul hct.body_lt hpos]
  push_cast
  ring

/-- The scaled residue stays below the new modulus, so that nothing wraps. -/
theorem Shaped.residuePhase_of_dvd (hct : ct.Shaped q sk.dimension) (hdvd : q.value ∣ t.value)
    (hr : ct.switchModulus t.value = .ok r) (s : ℕ → ℤ) :
    r.residuePhase s = t.value / q.value * ct.residuePhase s := by
  have hphase := hct.integerPhase_of_dvd hdvd hr s
  have hmodulus : r.modulus = t.value := (wellFormed_of_switchModulus hr).1
  have hpos : (0 : ℤ) < (t.value / q.value : ℕ) := by
    exact_mod_cast Nat.div_pos (Nat.le_of_dvd t.pos hdvd) q.pos
  have hproduct : (t.value : ℤ) = (t.value / q.value : ℕ) * q.value := by
    exact_mod_cast (Nat.div_mul_cancel hdvd).symm
  apply Int.natCast_inj.1
  rw [Nat.cast_mul, cast_residuePhase (hmodulus ▸ t.pos), cast_residuePhase (hct.modulus_eq ▸ q.pos), hphase,
    hmodulus, hct.modulus_eq, hproduct, Int.mul_emod_mul_of_pos _ _ hpos]

/-- The phase of a switched ciphertext is the scaled phase of the ciphertext, modulo the new modulus and up to
the rounding of its components. Nothing is rounded to a multiple of the modulus. -/
theorem phase_switchModulus (hct : ct.Shaped q sk.dimension) :
    ∃ r, ct.switchModulus t.value = .ok r ∧ r.Shaped t sk.dimension ∧
      (sk.InRange ct.mask → sk.InRange r.mask →
        ∃ φ ψ : ℕ, ct.phase sk = .ok φ ∧ r.phase sk = .ok ψ ∧
          (∃ k : ℤ, |(ψ : ℚ) - (t.value / q.value * φ + t.value * k)| ≤
            (1 + ∑ i ∈ range sk.dimension, |(sk.coefficient i : ℚ)|) / 2) ∧
          (q.value ∣ t.value → ψ = t.value / q.value * φ)) := by
  obtain ⟨r, hr, hmodulus, hsize, hwf, herror⟩ :=
    exists_switchModulus (t := t.value) (hct.modulus_eq ▸ q.pos) t.pos
  have hshaped : r.Shaped t sk.dimension := shaped_iff.2 ⟨hmodulus, hsize.trans hct.mask.size_eq, hwf⟩
  refine ⟨r, hr, hshaped, fun hrange hrange' => ⟨_, _, hct.phase_of_inRange hrange,
    hshaped.phase_of_inRange hrange', ?_, fun hdvd => ?_⟩⟩
  · obtain ⟨k, hk⟩ := herror sk.coefficient
    obtain ⟨i, hi⟩ := (hct.residue_modEq sk.coefficient).dvd
    obtain ⟨j, hj⟩ := (hshaped.residue_modEq sk.coefficient).dvd
    have hq : (q.value : ℚ) ≠ 0 := by exact_mod_cast q.pos.ne'
    have hφ : (ct.integerPhase sk.coefficient : ℚ) - ct.residuePhase sk.coefficient = q.value * i := by
      exact_mod_cast hi
    have hψ : (r.integerPhase sk.coefficient : ℚ) - r.residuePhase sk.coefficient = t.value * j := by
      exact_mod_cast hj
    have hscaled : (t.value : ℚ) / q.value * (q.value * i) = t.value * i := by field_simp
    rw [← hφ] at hscaled
    refine ⟨k + i - j, ?_⟩
    rw [hct.mask.size_eq, hct.modulus_eq] at hk
    convert hk using 2
    push_cast
    linear_combination hscaled - hψ
  · exact hct.residuePhase_of_dvd hdvd hr sk.coefficient

/-- Modulo `9`, a phase `4`: modulo `4` the mask entry `8` is rounded up to the modulus, so to zero, and the phase
is off by less than two; modulo `27` it is three times as large. -/
theorem phase_switchModulus_nine : ∃ r r' : Ciphertext,
    switchModulus ⟨#[8, 5], 7, 9⟩ 4 = .ok r ∧ switchModulus ⟨#[8, 5], 7, 9⟩ 27 = .ok r' ∧
    phase ⟨#[8, 5], 7, 9⟩ ⟨#[1, -1], .ternary⟩ = .ok 4 ∧
    (∃ (ψ : ℕ) (k : ℤ), r.phase ⟨#[1, -1], .ternary⟩ = .ok ψ ∧ |(ψ : ℚ) - (4 / 9 * 4 + 4 * k)| ≤ 3 / 2) ∧
    r'.phase ⟨#[1, -1], .ternary⟩ = .ok 12 := by
  let ct : Ciphertext := ⟨#[8, 5], 7, 9⟩
  let sk : Secret := ⟨#[1, -1], .ternary⟩
  let q : Modulus := ⟨9, by decide, by decide⟩
  let t : Modulus := ⟨4, by decide, by decide⟩
  let u : Modulus := ⟨27, by decide, by decide⟩
  have hct : ct.Shaped q sk.dimension := ⟨rfl, ⟨rfl, by decide⟩, by decide⟩
  have hternary : sk.Ternary := by simp [sk, Secret.Ternary]
  have hrange {m : Modulus} {c : Ciphertext} (hc : c.Shaped m 2) : sk.InRange c.mask :=
    Secret.inRange_of_natAbs_le hc.mask hternary.natAbs_le (by decide)
  obtain ⟨r, hr, hshaped, hphase⟩ := phase_switchModulus (t := t) hct
  obtain ⟨r', hr', hshaped', hphase'⟩ := phase_switchModulus (t := u) hct
  obtain ⟨φ, ψ, hφ, hψ, ⟨k, hk⟩, -⟩ := hphase (hrange hct) (hrange hshaped)
  obtain ⟨φ', ψ', hφ', hψ', -, hexact⟩ := hphase' (hrange hct) (hrange hshaped')
  have hread : ct.phase sk = .ok 4 := by decide +kernel
  obtain rfl : φ = 4 := Except.ok.inj (hφ.symm.trans hread)
  obtain rfl : φ' = 4 := Except.ok.inj (hφ'.symm.trans hread)
  obtain rfl : ψ' = 12 := (hexact ⟨3, rfl⟩).trans (by decide)
  refine ⟨r, r', hr, hr', hread, ⟨ψ, k, hψ, ?_⟩, hψ'⟩
  have hsum : ∑ i ∈ range sk.dimension, |(sk.coefficient i : ℚ)| = 2 := by
    rw [show sk.dimension = 2 from rfl, sum_range_succ, sum_range_one]
    norm_num [Secret.coefficient, sk]
  rw [hsum] at hk
  convert hk using 1 <;> norm_num

end Switched

end Ciphertext

end LatticeGates.Lwe
