import LatticeGates.Eval.Gate
import LatticeGates.Proofs.BlindRotation.Bootstrap

/-!
# The sign table

The phases of a bit and the half circles that the gates test. Main statements: a gate passes the start of
the half circle that holds the sums of its inputs for which it is one, and the table of a half circle is
read on the whole circle as the sign that tells the half circle from the rest.
-/

namespace LatticeGates

/-- A phase within a twenty-fourth of the circle of the phase of a bit. -/
def IsPhaseOf (q : ℕ) (bit : Bool) (φ : ℤ) : Prop :=
  ∃ e : ℤ, 24 * |e| < q ∧ φ ≡ bit.toNat * (q / 4 : ℕ) + e [ZMOD q]

/-- Whether a phase lies in the half of the circle from `start` on. -/
def inRegion (q start φ : ℕ) : Bool := decide ((φ + q - start) % q < q / 2)

theorem IsPhaseOf.congr {q : ℕ} {bit : Bool} {φ ψ : ℤ} (h : IsPhaseOf q bit φ)
    (hψ : ψ ≡ φ [ZMOD q]) : IsPhaseOf q bit ψ := by
  obtain ⟨e, he, hφ⟩ := h
  exact ⟨e, he, hψ.trans hφ⟩

section Region

variable {q start φ : ℕ} {t : ℤ}

private theorem distance_eq (hstart : start ≤ q) (h : φ ≡ t [ZMOD q]) (hlow : start ≤ t)
    (hhigh : t < start + q) : ((φ + q - start) % q : ℕ) = t - start := by
  rw [Int.natCast_mod, Nat.cast_sub (by omega), Nat.cast_add]
  have hturn : (φ + q - start : ℤ) ≡ t - start [ZMOD q] := by
    rw [add_sub_right_comm]
    simpa using (h.sub_right (start : ℤ)).add (Int.modEq_zero_iff_dvd.2 (dvd_refl (q : ℤ)))
  exact Eq.trans hturn (Int.emod_eq_of_lt (by omega) (by omega))

private theorem inRegion_of_lt (k : ℕ) (hstart : start ≤ q) (h : φ ≡ t [ZMOD q])
    (hlow : start ≤ t + k * q) (hhigh : t + k * q < start + (q / 2 : ℕ)) :
    inRegion q start φ = true := by
  have hturn := h.trans (Int.modEq_add_fac_self (t := k)).symm
  rw [mul_comm] at hturn
  have := distance_eq hstart hturn hlow (by omega)
  exact decide_eq_true (by omega)

private theorem inRegion_of_le (k : ℕ) (hstart : start ≤ q) (h : φ ≡ t [ZMOD q])
    (hlow : start + (q / 2 : ℕ) ≤ t + k * q) (hhigh : t + k * q < start + q) :
    inRegion q start φ = false := by
  have hturn := h.trans (Int.modEq_add_fac_self (t := k)).symm
  rw [mul_comm] at hturn
  have := distance_eq hstart hturn (by omega) hhigh
  exact decide_eq_false (by omega)

end Region

section Gates

theorem Gate.regionStart_le (q : ℕ) (g : Gate) : g.regionStart q ≤ q := by
  cases g <;> simp only [regionStart] <;> omega

variable {u φ : ℕ} {e : ℤ}

/-- The half circle of a gate holds the sums of its inputs for which it is one. -/
theorem Gate.inRegion_eq (g : Gate) (x y : Bool) (he : 12 * |e| < (8 * u : ℕ))
    (h : φ ≡ (if g.doublesSum then 2 else 1) * ((x.toNat + y.toNat) * (8 * u / 4 : ℕ) + e)
      [ZMOD (8 * u : ℕ)]) :
    inRegion (8 * u) (g.regionStart (8 * u)) φ = g.eval x y := by
  obtain ⟨hlow, hhigh⟩ := abs_lt.1 (show |e| < u by omega)
  have hstart : g.regionStart (8 * u) ≤ 8 * u := by cases g <;> simp only [regionStart] <;> omega
  cases g <;> cases x <;> cases y
  all_goals
    simp only [doublesSum, eval, Bool.toNat_true, Bool.toNat_false, reduceIte, Bool.false_eq_true,
      Bool.or_true, Bool.or_false, Bool.and_true, Bool.and_false, Bool.not_true, Bool.not_false,
      bne_self_eq_false, beq_self_eq_true, regionStart] at h hstart ⊢
    first
      | exact inRegion_of_lt 0 hstart h (by omega) (by omega)
      | exact inRegion_of_lt 1 hstart h (by omega) (by omega)
      | exact inRegion_of_le 0 hstart h (by omega) (by omega)
      | exact inRegion_of_le 1 hstart h (by omega) (by omega)

/-- The half circle of the conjunction tells whether at least two of up to three bits are one. -/
theorem Gate.inRegion_and {m : ℕ} (hm : m ≤ 3) (he : |e| < u)
    (h : φ ≡ m * (8 * u / 4 : ℕ) + e [ZMOD (8 * u : ℕ)]) :
    inRegion (8 * u) (Gate.and.regionStart (8 * u)) φ = decide (2 ≤ m) := by
  obtain ⟨hlow, hhigh⟩ := abs_lt.1 he
  have hstart : Gate.and.regionStart (8 * u) ≤ 8 * u := by
    rw [regionStart]
    omega
  rw [regionStart] at hstart ⊢
  interval_cases m
  · exact inRegion_of_le 1 hstart h (by omega) (by omega)
  · exact inRegion_of_le 1 hstart h (by omega) (by omega)
  · exact inRegion_of_lt 0 hstart h (by omega) (by omega)
  · exact inRegion_of_lt 0 hstart h (by omega) (by omega)

end Gates

section Table

open BlindRotation

variable {ring : NegacyclicRing} {tab : Table} {q start x : ℕ}

private theorem getD_of_ofFn {f : ℕ → ℕ} (h : Table.ofFn ring q f = .ok tab) (hx : x < q / 2) :
    tab.data.getD (x * (2 * ring.degree) / q) 0 = f x % ring.modulus.value := by
  obtain ⟨rest, hrest, h⟩ := Checked.bind_eq_ok.1 h
  obtain ⟨_, hzero, h⟩ := Checked.bind_eq_ok.1 h
  cases h
  rw [Word.mod_of_pos (by omega), Except.ok.injEq] at hrest
  rw [ensure_eq_ok, beq_iff_eq, ← hrest] at hzero
  obtain ⟨step, hstep⟩ := Nat.dvd_of_mod_eq_zero hzero
  have hq : 0 < q := by omega
  have hpos : 0 < step := by
    refine Nat.pos_of_ne_zero fun h0 => ?_
    have := NeZero.pos ring.degree
    rw [h0, mul_zero] at hstep
    omega
  have hread : x * (2 * ring.degree) / q = x * step := by
    rw [hstep, mul_left_comm, Nat.mul_div_cancel_left _ hq]
  have hlt : x * step < ring.degree := by
    have hdouble : 2 * (x * step) < 2 * ring.degree := by
      rw [hstep, ← mul_assoc]
      exact Nat.mul_lt_mul_of_pos_right (by omega) hpos
    omega
  rw [hread, Array.getD_eq_getD_getElem?, Array.getElem?_ofFn, dif_pos hlt, Option.getD_some, hstep,
    Nat.mul_div_cancel_left _ hq, Nat.mul_div_cancel _ hpos]

private theorem signValue_modEq (Q : ℕ) :
    (Context.signValue Q q start x : ℤ) ≡ (if inRegion q start x then 1 else -1) * (Q / 8 : ℕ)
      [ZMOD Q] := by
  simp only [Context.signValue, inRegion, decide_eq_true_eq]
  split
  · rw [one_mul]
  · rw [neg_one_mul, Nat.cast_sub (Nat.div_le_self _ _)]
    exact (Int.modEq_iff_dvd.2 ⟨-1, by ring⟩)

private theorem inRegion_half (hq : 2 ∣ q) (hpos : 0 < q) (hstart : start ≤ q) :
    inRegion q start (x + q / 2) = !inRegion q start x := by
  obtain ⟨h, rfl⟩ := hq
  have hr := Nat.mod_lt (x + 2 * h - start) hpos
  have hturn : (x + 2 * h / 2 + 2 * h - start) % (2 * h) =
      ((x + 2 * h - start) % (2 * h) + h) % (2 * h) := by
    rw [Nat.mod_add_mod]
    congr 1
    omega
  rw [inRegion, inRegion, hturn, ← decide_not, decide_eq_decide]
  generalize (x + 2 * h - start) % (2 * h) = r at hr
  rcases Nat.lt_or_ge r h with hlow | hhigh
  · rw [Nat.mod_eq_of_lt (by omega)]
    omega
  · rw [Nat.mod_eq_sub_mod (by omega), Nat.mod_eq_of_lt (by omega)]
    omega

/-- The sign table reads as an eighth of the ring modulus on the half circle from `start`, and as its
negative on the other half: the upper half of the phases agrees with the lower one, of which it is
the negative. -/
theorem read_signTable
    (h : Table.ofFn ring q (Context.signValue ring.modulus.value q start) = .ok tab) (hx : x < q)
    (hq : 2 ∣ q) (hstart : start ≤ q) :
    tab.read (2 * ring.degree) q x ≡
      (if inRegion q start x then 1 else -1) * (ring.modulus.value / 8 : ℕ)
        [ZMOD ring.modulus.value] := by
  have hentry : ∀ y < q / 2, (tab.data.getD (y * (2 * ring.degree) / q) 0 : ℤ) ≡
      (if inRegion q start y then 1 else -1) * (ring.modulus.value / 8 : ℕ)
        [ZMOD ring.modulus.value] := by
    intro y hy
    rw [getD_of_ofFn h hy, Int.natCast_mod]
    exact (Int.mod_modEq _ _).trans (signValue_modEq _)
  rw [Table.read]
  split
  · rename_i hlow
    exact hentry x hlow
  · rename_i hhigh
    have hturn := inRegion_half (x := x - q / 2) hq (by omega) hstart
    rw [Nat.sub_add_cancel (by omega)] at hturn
    have hneg := (hentry (x - q / 2) (by omega)).neg
    rw [← neg_mul] at hneg
    rw [hturn]
    cases hside : inRegion q start (x - q / 2) <;> simpa [hside] using hneg

end Table

end LatticeGates
