import Mathlib

/-!
# Polynomials modulo `X ^ n + 1`

The ring in which the phases of ring ciphertexts live, the powers of `X` in it, and polynomials with small
coefficients. Main statement: sums, products and products with powers of `X` of small polynomials are
small.
-/

namespace LatticeGates

open Polynomial Finset

/-- The ring of polynomials modulo `X ^ n + 1` with coefficients modulo `q`. -/
abbrev Negacyclic (n q : ℕ) : Type := AdjoinRoot (X ^ n + 1 : (ZMod q)[X])

namespace Negacyclic

variable {n q : ℕ}

noncomputable def x : Negacyclic n q := AdjoinRoot.root _

theorem x_pow : (x : Negacyclic n q) ^ n = -1 := by
  have h := AdjoinRoot.eval₂_root (X ^ n + 1 : (ZMod q)[X])
  simp only [eval₂_add, eval₂_pow, eval₂_X, eval₂_one] at h
  exact eq_neg_of_add_eq_zero_left h

theorem x_pow_double : (x : Negacyclic n q) ^ (2 * n) = 1 := by
  rw [mul_comm, pow_mul, x_pow, neg_one_sq]

theorem x_pow_mod (k : ℕ) : (x : Negacyclic n q) ^ (k % (2 * n)) = x ^ k := by
  conv_rhs => rw [← Nat.mod_add_div k (2 * n), pow_add, pow_mul, x_pow_double, one_pow, mul_one]

/-- The power of `X` with an integer as exponent. -/
noncomputable def monomial (k : ℤ) : Negacyclic n q := x ^ (k % (2 * n : ℕ)).toNat

@[simp] theorem monomial_natCast (k : ℕ) : monomial (k : ℤ) = (x : Negacyclic n q) ^ k := by
  rw [monomial, ← Int.natCast_mod, Int.toNat_natCast, x_pow_mod]

@[simp] theorem monomial_zero : monomial 0 = (1 : Negacyclic n q) := by
  simp [monomial]

theorem monomial_congr {a b : ℤ} (h : a ≡ b [ZMOD (2 * n : ℕ)]) :
    monomial a = (monomial b : Negacyclic n q) := by
  rw [monomial, monomial, h]

theorem monomial_add [NeZero n] (a b : ℤ) :
    monomial (a + b) = (monomial a * monomial b : Negacyclic n q) := by
  have hn : ((2 * n : ℕ) : ℤ) ≠ 0 := by simp [NeZero.ne n]
  have ha : ((a % (2 * n : ℕ)).toNat : ℤ) = a % (2 * n : ℕ) :=
    Int.toNat_of_nonneg (Int.emod_nonneg a hn)
  have hb : ((b % (2 * n : ℕ)).toNat : ℤ) = b % (2 * n : ℕ) :=
    Int.toNat_of_nonneg (Int.emod_nonneg b hn)
  rw [monomial.eq_1 a, monomial.eq_1 b, ← pow_add, ← monomial_natCast]
  apply monomial_congr
  rw [Nat.cast_add, ha, hb]
  exact ((Int.mod_modEq a _).add (Int.mod_modEq b _)).symm

/-- The polynomial with the first `n` coefficients of a sequence. -/
noncomputable def ofCoeffs (c : ℕ → ZMod q) : Negacyclic n q :=
  ∑ i ∈ range n, algebraMap (ZMod q) _ (c i) * x ^ i

theorem ofCoeffs_congr {c d : ℕ → ZMod q} (h : ∀ i < n, c i = d i) :
    (ofCoeffs c : Negacyclic n q) = ofCoeffs d :=
  sum_congr rfl fun i hi => by rw [h i (mem_range.1 hi)]

@[simp] theorem ofCoeffs_zero : (ofCoeffs fun _ => 0 : Negacyclic n q) = 0 := by
  simp [ofCoeffs]

theorem ofCoeffs_add (c d : ℕ → ZMod q) :
    (ofCoeffs fun i => c i + d i : Negacyclic n q) = ofCoeffs c + ofCoeffs d := by
  simp [ofCoeffs, add_mul, sum_add_distrib]

theorem ofCoeffs_sub (c d : ℕ → ZMod q) :
    (ofCoeffs fun i => c i - d i : Negacyclic n q) = ofCoeffs c - ofCoeffs d := by
  simp [ofCoeffs, sub_mul, sum_sub_distrib]

theorem ofCoeffs_neg (c : ℕ → ZMod q) :
    (ofCoeffs fun i => -c i : Negacyclic n q) = -ofCoeffs c := by
  simp [ofCoeffs]

theorem ofCoeffs_mul (k : ZMod q) (c : ℕ → ZMod q) :
    (ofCoeffs fun i => k * c i : Negacyclic n q) = algebraMap _ _ k * ofCoeffs c := by
  simp [ofCoeffs, mul_sum, mul_assoc]

theorem ofCoeffs_sum {ι : Type} (s : Finset ι) (c : ι → ℕ → ZMod q) :
    (ofCoeffs fun k => ∑ i ∈ s, c i k : Negacyclic n q) = ∑ i ∈ s, ofCoeffs (c i) := by
  simp only [ofCoeffs, map_sum, sum_mul]
  exact sum_comm

theorem ofCoeffs_recompose (d b : ℕ) (e : ℕ → ℕ → ZMod q) :
    (ofCoeffs fun i => ∑ l ∈ range d, e l i * (b : ZMod q) ^ l : Negacyclic n q) =
      ∑ l ∈ range d, ofCoeffs (e l) * (b : Negacyclic n q) ^ l := by
  rw [ofCoeffs_sum]
  refine sum_congr rfl fun l _ => ?_
  rw [ofCoeffs_congr fun i _ => mul_comm (e l i) _, ofCoeffs_mul, map_pow, map_natCast, mul_comm]

/-- The coefficients after a product with `X`. -/
def shift {R : Type} [Neg R] (n : ℕ) (c : ℕ → R) (i : ℕ) : R :=
  if i = 0 then -c (n - 1) else c (i - 1)

theorem x_mul_ofCoeffs [NeZero n] (c : ℕ → ZMod q) :
    x * ofCoeffs c = (ofCoeffs (shift n c) : Negacyclic n q) := by
  obtain ⟨m, rfl⟩ := Nat.exists_eq_add_one_of_ne_zero (NeZero.ne n)
  rw [ofCoeffs, ofCoeffs, mul_sum, sum_range_succ, sum_range_succ']
  congr 1
  · apply sum_congr rfl
    intro i _
    simp only [shift, Nat.succ_ne_zero, if_false, Nat.add_sub_cancel]
    ring
  · have hx : (x : Negacyclic (m + 1) q) * x ^ m = -1 := by rw [← pow_succ', x_pow]
    simp only [shift, if_true, Nat.add_sub_cancel, map_neg, pow_zero, mul_one]
    linear_combination algebraMap _ _ (c m) * hx

private theorem ofCoeffs_eq_mk (c : ℕ → ZMod q) :
    (ofCoeffs c : Negacyclic n q) = AdjoinRoot.mk _ (∑ i ∈ range n, C (c i) * X ^ i) := by
  simp [ofCoeffs, x, AdjoinRoot.algebraMap_eq]

section Coefficients

variable [NeZero n]

private theorem monic_modulus : (X ^ n + 1 : (ZMod q)[X]).Monic :=
  monic_X_pow_add_C 1 (NeZero.ne n)

variable [Fact (1 < q)]

private theorem degree_modulus : (X ^ n + 1 : (ZMod q)[X]).degree = n :=
  degree_X_pow_add_C (NeZero.pos n) 1

theorem exists_ofCoeffs (p : Negacyclic n q) : ∃ c, p = ofCoeffs c := by
  obtain ⟨f, rfl⟩ := AdjoinRoot.mk_surjective p
  have hdegree : (f %ₘ (X ^ n + 1)).natDegree < n := by
    have h := natDegree_modByMonic_lt f (monic_modulus (n := n)) fun h => by
      have hzero := degree_modulus (n := n) (q := q)
      rw [h, degree_one] at hzero
      exact NeZero.ne n (by exact_mod_cast hzero.symm)
    rwa [natDegree_eq_of_degree_eq_some degree_modulus] at h
  refine ⟨(f %ₘ (X ^ n + 1)).coeff, ?_⟩
  rw [ofCoeffs_eq_mk, ← as_sum_range_C_mul_X_pow' _ hdegree]
  exact (AdjoinRoot.mk_leftInverse monic_modulus (AdjoinRoot.mk _ f)).symm

theorem ofCoeffs_surjective :
    Function.Surjective fun c : Fin n → ZMod q =>
      (ofCoeffs fun i => c (Fin.ofNat n i) : Negacyclic n q) := by
  intro p
  obtain ⟨c, rfl⟩ := exists_ofCoeffs p
  refine ⟨fun i => c i, ofCoeffs_congr fun i hi => ?_⟩
  change c (Fin.ofNat n i).val = c i
  rw [Fin.val_ofNat, Nat.mod_eq_of_lt hi]

noncomputable def constant : Negacyclic n q →ₗ[ZMod q] ZMod q :=
  (lcoeff (ZMod q) 0).comp (AdjoinRoot.modByMonicHom (monic_modulus (n := n)))

@[simp] theorem constant_ofCoeffs (c : ℕ → ZMod q) :
    constant (ofCoeffs c : Negacyclic n q) = c 0 := by
  have hdegree : (∑ i ∈ range n, C (c i) * X ^ i).degree < (X ^ n + 1 : (ZMod q)[X]).degree := by
    rw [degree_modulus, ← Fin.sum_univ_eq_sum_range fun i => C (c i) * X ^ i]
    exact degree_sum_fin_lt fun i : Fin n => c i
  rw [ofCoeffs_eq_mk, constant, LinearMap.comp_apply, AdjoinRoot.modByMonicHom_mk,
    (modByMonic_eq_self_iff monic_modulus).2 hdegree, lcoeff_apply, finsetSum_coeff]
  simp [coeff_X_pow, NeZero.pos n]

theorem constant_intCast (k : ℤ) : constant (k : Negacyclic n q) = k := by
  have hone : (1 : Negacyclic n q) = ofCoeffs fun i => if i = 0 then 1 else 0 := by
    rw [ofCoeffs, sum_eq_single_of_mem 0 (mem_range.2 (NeZero.pos n)) fun i _ hi => by simp [hi]]
    simp
  rw [← zsmul_one, map_zsmul, hone, constant_ofCoeffs, if_pos rfl, zsmul_one]

theorem constant_x_pow_mul (c : ℕ → ZMod q) {i : ℕ} (hi : i ≤ n) :
    constant (x ^ i * ofCoeffs c : Negacyclic n q) = if i = 0 then c 0 else -c (n - i) := by
  induction i generalizing c with
  | zero => simp
  | succ i ih =>
    rw [pow_succ, mul_assoc, x_mul_ofCoeffs, ih _ (by omega), if_neg (Nat.succ_ne_zero i)]
    by_cases hzero : i = 0
    · simp [hzero, shift]
    · rw [if_neg hzero, shift, if_neg (by omega), Nat.sub_sub]

/-- A table read by a power of `X`: the second half of the turn reads it with the sign changed. -/
theorem constant_monomial_neg_mul (c : ℕ → ZMod q) {j : ℕ} (hj : j < 2 * n) :
    constant (monomial (-j) * ofCoeffs c : Negacyclic n q) = if j < n then c j else -c (j - n) := by
  have hturn : monomial (-j) = (x ^ (2 * n - j) : Negacyclic n q) := by
    rw [← monomial_natCast]
    apply monomial_congr
    rw [Nat.cast_sub hj.le, Int.modEq_iff_dvd]
    exact ⟨1, by ring⟩
  rw [hturn]
  by_cases hlow : j < n
  · rw [show 2 * n - j = n + (n - j) by omega, pow_add, x_pow, neg_one_mul, neg_mul, map_neg,
      constant_x_pow_mul c (Nat.sub_le n j), if_neg (by omega), if_pos hlow, neg_neg,
      Nat.sub_sub_self hlow.le]
  · rw [constant_x_pow_mul c (by omega), if_neg (by omega), if_neg hlow,
      show n - (2 * n - j) = j - n by omega]

theorem constant_ofCoeffs_mul (c d : ℕ → ZMod q) :
    constant (ofCoeffs c * ofCoeffs d : Negacyclic n q) =
      ∑ i ∈ range n, c i * if i = 0 then d 0 else -d (n - i) := by
  rw [ofCoeffs, sum_mul, map_sum]
  apply sum_congr rfl
  intro i hi
  rw [mul_assoc, ← Algebra.smul_def, map_smul, smul_eq_mul,
    constant_x_pow_mul d (mem_range.1 hi).le]

end Coefficients

/-- An element with integer coefficients of absolute value at most `bound`. -/
def Small (bound : ℕ) (p : Negacyclic n q) : Prop :=
  ∃ e : ℕ → ℤ, (∀ i < n, (e i).natAbs ≤ bound) ∧ p = ofCoeffs fun i => (e i : ZMod q)

namespace Small

variable {a b : ℕ} {p r : Negacyclic n q}

theorem mono (h : a ≤ b) : Small a p → Small b p := by
  rintro ⟨e, he, rfl⟩
  exact ⟨e, fun i hi => (he i hi).trans h, rfl⟩

theorem zero : Small 0 (0 : Negacyclic n q) := ⟨fun _ => 0, by simp, by simp⟩

theorem add : Small a p → Small b r → Small (a + b) (p + r) := by
  rintro ⟨e, he, rfl⟩ ⟨f, hf, rfl⟩
  refine ⟨fun i => e i + f i, fun i hi => ?_, ?_⟩
  · exact (Int.natAbs_add_le _ _).trans (add_le_add (he i hi) (hf i hi))
  · simp [← ofCoeffs_add]

theorem neg : Small a p → Small a (-p) := by
  rintro ⟨e, he, rfl⟩
  refine ⟨fun i => -e i, fun i hi => ?_, ?_⟩
  · rw [Int.natAbs_neg]
    exact he i hi
  · simp [← ofCoeffs_neg]

theorem sub (hp : Small a p) (hr : Small b r) : Small (a + b) (p - r) := by
  rw [sub_eq_add_neg]
  exact hp.add hr.neg

theorem intCast_mul {k : ℤ} (hk : k.natAbs ≤ b) : Small a p → Small (b * a) ((k : Negacyclic n q) * p) := by
  rintro ⟨e, he, rfl⟩
  refine ⟨fun i => k * e i, fun i hi => ?_, ?_⟩
  · rw [Int.natAbs_mul]
    exact Nat.mul_le_mul hk (he i hi)
  · simp [ofCoeffs_mul]

theorem sum {d : ℕ} {f : ℕ → Negacyclic n q} (h : ∀ i < d, Small a (f i)) :
    Small (d * a) (∑ i ∈ range d, f i) := by
  induction d with
  | zero => simpa using zero
  | succ d ih =>
    rw [sum_range_succ, Nat.succ_mul]
    exact (ih fun i hi => h i (by omega)).add (h d d.lt_succ_self)

/-- Small means that the centred coefficients are small. -/
theorem ofCoeffs_iff [NeZero n] [Fact (1 < q)] {c : ℕ → ZMod q} :
    Small a (ofCoeffs c : Negacyclic n q) ↔ ∀ i < n, (c i).valMinAbs.natAbs ≤ a := by
  have := NeZero.of_gt (Fact.out : 1 < q)
  constructor
  · rintro ⟨e, he, hce⟩ i hi
    have hi2 : i < 2 * n := by omega
    have hcast := congrArg (fun p => Negacyclic.constant (monomial (-i) * p)) hce
    simp only [constant_monomial_neg_mul _ hi2, if_pos hi] at hcast
    refine (ZMod.natAbs_min_of_le_div_two q _ (e i) ?_ (ZMod.natAbs_valMinAbs_le _)).trans (he i hi)
    rw [ZMod.coe_valMinAbs, hcast]
  · intro h
    exact ⟨fun i => (c i).valMinAbs, h, ofCoeffs_congr fun i _ => (ZMod.coe_valMinAbs _).symm⟩

theorem constant [NeZero n] [Fact (1 < q)] (hp : Small a p) :
    ∃ e : ℤ, e.natAbs ≤ a ∧ Negacyclic.constant p = e := by
  obtain ⟨e, he, rfl⟩ := hp
  exact ⟨e 0, he 0 (NeZero.pos n), constant_ofCoeffs _⟩

variable [NeZero n]

theorem x_mul : Small a p → Small a (x * p) := by
  rintro ⟨e, he, rfl⟩
  refine ⟨shift n e, fun i hi => ?_, ?_⟩
  · rw [shift]
    split
    · rw [Int.natAbs_neg]
      exact he _ (Nat.sub_lt (NeZero.pos n) one_pos)
    · exact he _ (by omega)
  · rw [x_mul_ofCoeffs]
    apply ofCoeffs_congr
    intro i _
    simp only [shift]
    split <;> simp

theorem x_pow_mul (hp : Small a p) (k : ℕ) : Small a (x ^ k * p) := by
  induction k with
  | zero => simpa using hp
  | succ k ih =>
    rw [pow_succ', mul_assoc]
    exact ih.x_mul

theorem monomial_mul (hp : Small a p) (k : ℤ) : Small a (monomial k * p) := hp.x_pow_mul _

theorem mul (hp : Small a p) (hr : Small b r) : Small (n * (a * b)) (p * r) := by
  obtain ⟨e, he, rfl⟩ := hp
  rw [ofCoeffs, sum_mul]
  apply sum
  intro i hi
  simp only [map_intCast, mul_assoc]
  exact (hr.x_pow_mul i).intCast_mul (he i hi)

end Small

end Negacyclic

end LatticeGates
