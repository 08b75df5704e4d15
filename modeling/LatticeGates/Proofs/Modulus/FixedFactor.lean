import LatticeGates.Modulus.Companion
import Mathlib

/-!
# How far off a companion is

Main statement: a product by way of a companion is the product modulo `q`, for every word and every residue that
is the fixed factor. The quotient that the companion estimates is exact or one too small, so the remainder is
below `2 q`, and it is found exactly although both of the products that it is the difference of wrap around.
-/

namespace LatticeGates.Modulus

variable {q : Modulus} {w : ℕ}

private theorem quotient_near {x h : ℕ} (hle : h * q.value ≤ x) (hlt : x - h * q.value < 2 * q.value) :
    h ≤ x / q.value ∧ x / q.value ≤ h + 1 := by
  have habove : x < (h + 2) * q.value := by
    rw [Nat.add_mul]
    omega
  exact ⟨(Nat.le_div_iff_mul_le q.pos).2 hle,
    Nat.le_of_lt_succ ((Nat.div_lt_iff_lt_mul q.pos).2 habove)⟩

/-- The product of a word and a residue, from the companion of the residue: `h` is the estimate of the quotient,
and `r` the remainder that it leaves, as wrapping arithmetic finds it. -/
theorem mulCompanion_eq_mul (hw : w < q.value) (a : UInt64) : ∃ h r : UInt64,
    h = Word.mulHigh a (q.companion w) ∧ r = a * w.toUInt64 - h * q.value.toUInt64 ∧
    (q.companion w).toNat = w * 2 ^ 64 / q.value ∧ h.toNat = a.toNat * (q.companion w).toNat / 2 ^ 64 ∧
    h.toNat ≤ a.toNat * w / q.value ∧ a.toNat * w / q.value ≤ h.toNat + 1 ∧
    a.toNat * w = h.toNat * q.value + r.toNat ∧ r.toNat < 2 * q.value ∧
    (q.mulCompanion a w.toUInt64 (q.companion w)).toNat = q.mul a.toNat w ∧
    q.mul a.toNat w = a.toNat * w % q.value ∧ q.mul a.toNat w < q.value := by
  obtain ⟨hle, hdifference, hlt⟩ := companion_difference hw a
  obtain ⟨hlow, hhigh⟩ := quotient_near hle (hdifference ▸ hlt)
  refine ⟨_, _, rfl, rfl, toNat_companion hw, Word.toNat_mulHigh _ _, hlow, hhigh, ?_, hlt,
    toNat_mulCompanion hw a, rfl, mul_lt _ _⟩
  rw [hdifference, Nat.add_sub_cancel' hle]

/-- The largest word, for a residue where the estimate is one too small and the subtraction is made. -/
theorem mulCompanion_eq_mul_largest : ∃ (q : Modulus) (w : ℕ) (a : UInt64),
    q.value = 0x3fffffffffffffc7 ∧ w = 0x3671bdf8ccb4929a ∧ a = 0xffffffffffffffff ∧ w < q.value ∧
    (Word.mulHigh a (q.companion w)).toNat + 1 = a.toNat * w / q.value ∧
    (q.mulCompanion a w.toUInt64 (q.companion w)).toNat = q.mul a.toNat w ∧
    q.mul a.toNat w = 0x6db739d841e2987 := by
  have hw : 0x3671bdf8ccb4929a < (⟨0x3fffffffffffffc7, by decide, by decide⟩ : Modulus).value := by decide
  obtain ⟨_, _, -, -, -, -, -, -, -, -, hproduct, -, -⟩ := mulCompanion_eq_mul hw 0xffffffffffffffff
  exact ⟨_, _, _, rfl, rfl, rfl, hw, by decide +kernel, hproduct, by decide +kernel⟩

end LatticeGates.Modulus
