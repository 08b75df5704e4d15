import LatticeGates.Modulus

/-!
# Products with a fixed factor

A factor `w` that is used many times keeps the quotient `⌊w * 2 ^ 64 / q⌋` as its companion. The product
with any word is then two word products and one conditional subtraction. Main statement: the word that they
give is the residue of the product.
-/

namespace LatticeGates.Modulus

variable (q : Modulus)

/-- The quotient `⌊w * 2 ^ 64 / q⌋`, cut to a word, that speeds up products with a fixed `w`. -/
def companion (w : Nat) : UInt64 := (w * Word.bound / q.value).toUInt64

/-- The product of `a` and `w` from the companion `c` of `w`, in wrapping word arithmetic. -/
@[inline] def mulCompanion (a w c : UInt64) : UInt64 :=
  let m := q.value.toUInt64
  let r := a * w - Word.mulHigh a c * m
  if m ≤ r then r - m else r

structure Factor where
  value : UInt64
  companion : UInt64

def factor (w : Nat) : Factor := ⟨w.toUInt64, q.companion w⟩

@[inline] def times (f : Factor) (a : Nat) : Nat :=
  (q.mulCompanion a.toUInt64 f.value f.companion).toNat

variable {q}

/-- The estimate of a quotient by a companion is off by one at most. -/
theorem companion_quotient {q w a : Nat} (hq : 0 < q) (ha : a < Word.bound) :
    a * (w * Word.bound / q) / Word.bound * q ≤ a * w ∧
      a * w < (a * (w * Word.bound / q) / Word.bound + 2) * q := by
  generalize hc : w * Word.bound / q = c
  generalize hh : a * c / Word.bound = h
  have c_le : c * q ≤ w * Word.bound := hc ▸ Nat.div_mul_le_self _ _
  have lt_c : w * Word.bound < (c + 1) * q := by
    have := Nat.lt_div_mul_add (a := w * Word.bound) hq
    rw [hc] at this
    rw [Nat.add_mul, Nat.one_mul]
    exact this
  have h_le : h * Word.bound ≤ a * c := hh ▸ Nat.div_mul_le_self _ _
  have lt_h : a * c < (h + 1) * Word.bound := by
    have := Nat.lt_div_mul_add (a := a * c) (b := Word.bound) (by decide)
    rw [hh] at this
    rw [Nat.add_mul, Nat.one_mul]
    exact this
  constructor
  · apply Nat.le_of_mul_le_mul_right _ (show 0 < Word.bound by decide)
    calc h * q * Word.bound = h * Word.bound * q := by grind
      _ ≤ a * c * q := Nat.mul_le_mul_right q h_le
      _ = a * (c * q) := Nat.mul_assoc ..
      _ ≤ a * (w * Word.bound) := Nat.mul_le_mul_left a c_le
      _ = a * w * Word.bound := (Nat.mul_assoc ..).symm
  · apply Nat.lt_of_mul_lt_mul_right (a := Word.bound)
    calc a * w * Word.bound = a * (w * Word.bound) := Nat.mul_assoc ..
      _ ≤ a * ((c + 1) * q) := Nat.mul_le_mul_left a (Nat.le_of_lt lt_c)
      _ = a * c * q + a * q := by grind
      _ < (h + 1) * Word.bound * q + Word.bound * q :=
        Nat.add_lt_add ((Nat.mul_lt_mul_right hq).2 lt_h) ((Nat.mul_lt_mul_right hq).2 ha)
      _ = (h + 2) * q * Word.bound := by grind

private theorem toNat_mul_sub_mul {a b c d : UInt64} (le : c.toNat * d.toNat ≤ a.toNat * b.toNat)
    (lt : a.toNat * b.toNat < c.toNat * d.toNat + Word.bound) :
    (a * b - c * d).toNat = a.toNat * b.toNat - c.toNat * d.toNat := by
  simp only [Word.bound] at lt
  rw [UInt64.toNat_sub, UInt64.toNat_mul, UInt64.toNat_mul]
  omega

private theorem toNat_reduceOnce {r m : UInt64} (h : r.toNat < 2 * m.toNat) :
    (if m ≤ r then r - m else r).toNat = r.toNat % m.toNat := by
  split
  · rename_i hle
    rw [UInt64.toNat_sub_of_le _ _ hle]
    rw [UInt64.le_iff_toNat_le] at hle
    rw [Nat.mod_eq_sub_mod hle, Nat.mod_eq_of_lt (by omega)]
  · rename_i hlt
    rw [UInt64.le_iff_toNat_le] at hlt
    rw [Nat.mod_eq_of_lt (by omega)]

private theorem toNat_toUInt64 {x : Nat} (h : x < Word.bound) : x.toUInt64.toNat = x := by
  simp only [Nat.toUInt64_eq, UInt64.toNat_ofNat']
  exact Nat.mod_eq_of_lt h

section Product

variable {w : Nat} (hw : w < q.value) (a : UInt64)

include hw

theorem toNat_companion : (q.companion w).toNat = w * Word.bound / q.value := by
  refine toNat_toUInt64 ((Nat.div_lt_iff_lt_mul q.pos).2 ?_)
  exact Nat.mul_comm w _ ▸ (Nat.mul_lt_mul_left (by decide)).2 hw

/-- The product and the multiple of the modulus that is taken from it may leave the words. Their difference
does not, and is below twice the modulus. -/
theorem companion_difference :
    (Word.mulHigh a (q.companion w)).toNat * q.value ≤ a.toNat * w ∧
      (a * w.toUInt64 - Word.mulHigh a (q.companion w) * q.value.toUInt64).toNat =
        a.toNat * w - (Word.mulHigh a (q.companion w)).toNat * q.value ∧
      (a * w.toUInt64 - Word.mulHigh a (q.companion w) * q.value.toUInt64).toNat < 2 * q.value := by
  have hh : (Word.mulHigh a (q.companion w)).toNat =
      a.toNat * (w * Word.bound / q.value) / Word.bound := by
    rw [Word.toNat_mulHigh, toNat_companion hw]
  obtain ⟨below, above⟩ := companion_quotient (w := w) q.pos a.toNat_lt
  rw [Nat.add_mul, ← hh] at above
  rw [← hh] at below
  have hr : (a * w.toUInt64 - Word.mulHigh a (q.companion w) * q.value.toUInt64).toNat =
      a.toNat * w - (Word.mulHigh a (q.companion w)).toNat * q.value := by
    rw [toNat_mul_sub_mul] <;>
      rw [toNat_toUInt64 (Nat.lt_trans hw q.lt_word), toNat_toUInt64 q.lt_word]
    · exact below
    · have := q.lt_bound
      simp only [Word.bound]
      omega
  exact ⟨below, hr, by omega⟩

theorem toNat_mulCompanion :
    (q.mulCompanion a w.toUInt64 (q.companion w)).toNat = a.toNat * w % q.value := by
  obtain ⟨below, difference, lt⟩ := companion_difference hw a
  have hm := toNat_toUInt64 q.lt_word
  rw [mulCompanion, toNat_reduceOnce (by rw [hm]; exact lt), difference, hm, Nat.mul_comm _ q.value,
    Nat.sub_mul_mod (by rw [Nat.mul_comm]; exact below)]

end Product

theorem times_factor {w a : Nat} (hw : w < q.value) (ha : a < Word.bound) :
    q.times (q.factor w) a = a * w % q.value := by
  rw [times, factor, toNat_mulCompanion hw, toNat_toUInt64 ha]

end LatticeGates.Modulus
