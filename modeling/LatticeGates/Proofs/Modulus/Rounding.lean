import LatticeGates.Proofs.Modulus.Residues

/-!
# What a rounded residue is

Main statement: a residue near the encoding of a message is rounded back to the message, for any number of
messages up to the modulus.
-/

namespace LatticeGates.Modulus

variable {M p m φ : ℕ}

theorem round_lt (hp : 0 < p) : round φ M p < p := Nat.mod_lt _ hp

theorem rescale_of_pos (hM : 0 < M) (hp : 0 < p) : rescale φ M p = .ok (round φ M p) := by
  rw [rescale, if_neg (by omega)]

theorem round_mul {c : ℕ} (hφ : φ < M) (hc : 0 < c) : round φ M (M * c) = c * φ := by
  have hhalf : M / 2 / M = 0 := Nat.div_eq_of_lt (by omega)
  have hlt : c * φ < M * c := by
    rw [mul_comm M]
    exact Nat.mul_lt_mul_of_pos_left hφ hc
  have hscaled : φ * (M * c) = M * (c * φ) := by ring
  rw [round, hscaled, Nat.mul_add_div (by omega), hhalf, add_zero, Nat.mod_eq_of_lt hlt]

section Intervals

/-- A message is encoded into the intervals of `M / p` phases: past the intervals before it by what they have
lost to truncation. -/
theorem round_message (hm : m < p) (hle : p ≤ M) :
    round m p M = m * (M / p) + (m * (M % p) + p / 2) / p := by
  have hsplit : m * M + p / 2 = p * (m * (M / p)) + (m * (M % p) + p / 2) := by
    linear_combination m * (Nat.div_add_mod M p).symm
  have hlt : (m * M + p / 2) / p < M := by
    refine Nat.div_lt_of_lt_mul ?_
    calc m * M + p / 2 < (m + 1) * M := by
          rw [Nat.add_mul, Nat.one_mul]
          omega
      _ ≤ p * M := Nat.mul_le_mul_right M hm
  rw [round, Nat.mod_eq_of_lt hlt, hsplit, Nat.mul_add_div (by omega)]

/-- The start of an interval is rounded to the number of the interval as long as truncation has moved it by
half a unit at most. -/
theorem round_interval_eq_iff (hm : m < p) (hle : p ≤ M) :
    round (m * (M / p)) M p = m ↔ 2 * (m * (M % p)) ≤ M := by
  have hsplit : m * (M / p) * p + m * (M % p) = m * M := by
    linear_combination m * Nat.div_add_mod M p
  have hle' : (m * (M / p) * p + M / 2) / M ≤ m := by
    refine Nat.le_of_lt_succ (Nat.div_lt_of_lt_mul ?_)
    rw [Nat.mul_succ, mul_comm M m]
    omega
  rw [round, Nat.mod_eq_of_lt (hle'.trans_lt hm), ← hle'.ge_iff_eq, Nat.le_div_iff_mul_le (by omega)]
  omega

end Intervals

theorem round_of_near {δ k : ℤ} (hm : m < p) (hδ : 2 * |δ| < M)
    (h : (φ * p : ℤ) = M * m + δ + M * (p * k)) : round φ M p = m := by
  obtain ⟨hlow, hhigh⟩ := abs_le.1 (le_refl |δ|)
  have hsplit : (φ * p + (M / 2 : ℕ) : ℤ) = δ + (M / 2 : ℕ) + M * (m + p * k) := by
    linear_combination h
  have hrest : (δ + (M / 2 : ℕ)) / (M : ℤ) = 0 := Int.ediv_eq_zero_of_lt (by omega) (by omega)
  refine Int.natCast_inj.1 ?_
  rw [round, Int.natCast_mod, Int.natCast_div, Nat.cast_add, Nat.cast_mul φ p, hsplit,
    Int.add_mul_ediv_left _ _ (by omega), hrest, zero_add, Int.add_mul_emod_self_left,
    Int.emod_eq_of_lt (by omega) (by omega)]

private theorem exists_round_mul (hp : 0 < p) : ∃ δ k : ℤ, 2 * |δ| ≤ p ∧
    (round m p M * p : ℤ) = M * m + δ + M * (p * k) := by
  have hdiv := Nat.div_add_mod (m * M + p / 2) p
  have hrest := Nat.mod_lt (m * M + p / 2) hp
  have hwrap := Nat.div_add_mod ((m * M + p / 2) / p) M
  rw [round]
  generalize (m * M + p / 2) / p = v at *
  generalize (m * M + p / 2) % p = w at *
  zify at hdiv hwrap
  refine ⟨(p / 2 : ℕ) - w, -(v / M : ℕ), ?_, ?_⟩
  · have hhalf : |((p / 2 : ℕ) - w : ℤ)| ≤ (p / 2 : ℕ) := abs_le.2 ⟨by omega, by omega⟩
    omega
  · push_cast
    linear_combination p * hwrap + hdiv

/-- A residue is rounded to the message that it encodes up to an error. -/
theorem round_of_modEq {e : ℤ} (hm : m < p) (he : p * (2 * |e| + 1) < M)
    (h : φ ≡ round m p M + e [ZMOD M]) : round φ M p = m := by
  obtain ⟨δ, k, hδ, hround⟩ := exists_round_mul (M := M) (m := m) (Nat.zero_lt_of_lt hm)
  obtain ⟨j, hj⟩ := h.dvd
  refine round_of_near (δ := δ + p * e) (k := k - j) hm ?_ ?_
  · calc 2 * |δ + p * e| ≤ 2 * |δ| + p * (2 * |e|) := by
          have := abs_add_le δ (p * e)
          rw [abs_mul, Nat.abs_cast] at this
          linarith
      _ ≤ p * (2 * |e| + 1) := by linarith
      _ < M := he
  · linear_combination -p * hj + hround

private theorem round_of_exact (hm : m < p) (hle : p ≤ M) (h : φ ≡ round m p M [ZMOD M]) :
    round φ M p = m := by
  obtain ⟨j, hj⟩ := h.dvd
  rcases hle.lt_or_eq with hlt | rfl
  · obtain ⟨δ, k, hδ, hround⟩ := exists_round_mul (M := M) (m := m) (Nat.zero_lt_of_lt hm)
    refine round_of_near (δ := δ) (k := k - j) hm (by omega) ?_
    linear_combination -p * hj + hround
  · have hround : round m p p = m := by
      rw [round, Nat.add_comm, Nat.add_mul_div_right _ _ (by omega), Nat.div_eq_of_lt (by omega),
        Nat.zero_add, Nat.mod_eq_of_lt hm]
    rw [hround] at hj
    refine round_of_near (δ := 0) (k := -j) hm (by simp; omega) ?_
    linear_combination -p * hj

theorem round_of_encoding {e : ℤ} (hm : m < p) (he : e = 0 ∧ p ≤ M ∨ p * (2 * |e| + 1) < M)
    (h : φ ≡ round m p M + e [ZMOD M]) : round φ M p = m := by
  rcases he with ⟨rfl, hle⟩ | he
  · rw [add_zero] at h
    exact round_of_exact hm hle h
  · exact round_of_modEq hm he h

end LatticeGates.Modulus
