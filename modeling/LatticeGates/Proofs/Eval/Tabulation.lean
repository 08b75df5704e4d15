import LatticeGates.Eval.Precision
import LatticeGates.Proofs.Modulus.Rounding

/-!
# Tabulated functions stay within the words

A table asks its function for the phases of the lower half of its circle only. Main statements: a bootstrap
through a function that does not fault there is that of its values, and none of the functions that are
tabulated does: differences do not go below zero and no index is out of bounds.
-/

namespace LatticeGates

/-- A table only asks for the lower half of its domain. -/
theorem BlindRotation.Table.ofChecked_eq {ring : NegacyclicRing} {domain : ℕ} {f : ℕ → Checked ℕ}
    {g : ℕ → ℕ} (h : ∀ x, 2 * x < domain → f x = .ok (g x)) :
    Table.ofChecked ring domain f = Table.ofFn ring domain g := by
  simp only [Table.ofChecked, Table.ofFn]
  rcases Nat.eq_zero_or_pos domain with rfl | hpos
  · rfl
  rw [Word.mod_of_pos hpos, Checked.ok_bind, Checked.ok_bind]
  cases hrest : 2 * ring.degree % domain == 0 with
  | false => rfl
  | true =>
    have hdvd : domain * (2 * ring.degree / domain) = 2 * ring.degree :=
      Nat.mul_div_cancel' (Nat.dvd_of_mod_eq_zero (beq_iff_eq.1 hrest))
    have hvalues : ∀ j, j < ring.degree → (do
        return (← f (j / (2 * ring.degree / domain))) % ring.modulus.value) =
          (.ok (g (j / (2 * ring.degree / domain)) % ring.modulus.value) : Checked ℕ) := by
      intro j hj
      have hle := Nat.div_mul_le_self j (2 * ring.degree / domain)
      generalize 2 * ring.degree / domain = step at *
      have hlower : 2 * (j / step) < domain := by
        by_contra hge
        have := Nat.mul_le_mul_right step (not_lt.1 hge)
        rw [hdvd, mul_assoc] at this
        omega
      rw [h _ hlower]
      rfl
    rw [ensure_true, Checked.ok_bind, Checked.ok_bind, tabulate_ok hvalues]
    rfl

namespace Context

variable {ctx : Context} {key : BootstrapKey} {ct : Lwe.Ciphertext} {offset target Q q m step : ℕ}

theorem bootstrapChecked_eq {f : ℕ → Checked ℕ} {g : ℕ → ℕ}
    (h : ∀ x, 2 * x < ct.modulus → f x = .ok (g x)) :
    ctx.bootstrapChecked key ct offset target f = ctx.bootstrapTable key ct offset target g := by
  rw [bootstrapChecked, bootstrapTable, BlindRotation.Table.ofChecked_eq h]

@[simp]
theorem bootstrapChecked_ok (g : ℕ → ℕ) : (ctx.bootstrapChecked key ct offset target fun x => .ok (g x)) =
    ctx.bootstrapTable key ct offset target g :=
  bootstrapChecked_eq fun _ _ => rfl

theorem signEntry_eq {start x : ℕ} (hq : q < 0x4000000000000000) (hstart : start ≤ q)
    (hx : 2 * x < q) : signEntry Q q start x = .ok (signValue Q q start x) := by
  have hsum : x + q < Word.bound := by
    unfold Word.bound
    omega
  rw [signEntry, signValue, Word.add_of_lt hsum, Checked.ok_bind, Word.sub_of_le (by omega),
    Checked.ok_bind, Word.mod_of_pos (by omega), Checked.ok_bind]
  split
  · rfl
  · exact Word.sub_of_le (Nat.div_le_self Q 8)

theorem bootstrapChecked_move {c : ℕ} (hm : 0 < m) (hQ : 0 < Q) (hc : c ≤ m) :
    ctx.bootstrapChecked key ct offset target
        (fun _ => do Modulus.rescale (← Word.sub m c) m Q) =
      ctx.bootstrapTable key ct offset target fun _ => Modulus.round (m - c) m Q :=
  bootstrapChecked_eq fun _ _ => by rw [Word.sub_of_le hc, Checked.ok_bind, Modulus.rescale_of_pos hm hQ]

theorem residueEntry_eq {x : ℕ} (hm : 0 < m) (hQ : 0 < Q) (hstep : step ≤ m) :
    residueEntry Q m step x = .ok (residueValue Q m step x) := by
  unfold residueEntry residueValue
  split
  · rw [Word.sub_of_le (by omega), Checked.ok_bind, Word.sub_of_le (by omega), Checked.ok_bind]
    exact Modulus.rescale_of_pos hm hQ
  · exact Modulus.rescale_of_pos hm hQ

theorem tableEntry_eq {table : Array ℕ} {x : ℕ} (hx : x < table.size) (hq : 0 < q)
    (hQ : 0 < ctx.params.lwe.ringModulus) :
    ctx.tableEntry table q x = .ok (ctx.tableValue table q x) := by
  rw [tableEntry, Array.getElem?_eq_getElem hx]
  simp only [tableValue, Array.getD_eq_getD_getElem?, Array.getElem?_eq_getElem hx, Option.getD_some,
    Word.mod_of_pos hq, Checked.ok_bind]
  exact Modulus.rescale_of_pos hq hQ

end Context

end LatticeGates
