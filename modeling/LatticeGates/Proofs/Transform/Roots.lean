import LatticeGates.Proofs.Transform.Evaluation

/-!
# The tables of a transform

Main statement: the tables that are built hold the powers of a root of `-1` in bit-reversed order, which are
the square roots that the tree of the transform needs. For a prime modulus they also undo it.
-/

namespace LatticeGates

open Modulus

theorem isPowerOfTwo_iff {n : ℕ} : isPowerOfTwo n = true ↔ n ≠ 0 ∧ 2 ^ n.log2 = n := by
  simp [isPowerOfTwo, Nat.one_shiftLeft]

theorem Modulus.inv_lt {q : Modulus} (a : ℕ) : q.inv a < q.value := pow_lt _ _

theorem Modulus.mul_inv_of_prime {q : Modulus} (hq : q.value.Prime) {a : ℕ}
    (ha : (a : ZMod q.value) ≠ 0) : (a : ZMod q.value) * q.inv a = 1 := by
  have := Fact.mk hq
  have hq2 := hq.two_le
  rw [inv, cast_pow, ← pow_succ', show q.value - 2 + 1 = q.value - 1 by omega]
  exact ZMod.pow_card_sub_one_eq_one ha

theorem Modulus.ne_zero_of_pow_eq_neg_one {q : Modulus} {r n : ℕ} (hn : n ≠ 0)
    (h : (r : ZMod q.value) ^ n = -1) : (r : ZMod q.value) ≠ 0 := by
  have := Fact.mk q.one_lt
  intro hzero
  rw [hzero, zero_pow hn] at h
  exact neg_ne_zero.2 one_ne_zero h.symm

section BitReverse

theorem bitReverse_lt (bits : ℕ) : ∀ k : ℕ, bitReverse bits k < 2 ^ bits := by
  induction bits with
  | zero => simp [bitReverse]
  | succ b ih =>
    intro k
    have hrest := ih (k / 2)
    rw [bitReverse, Nat.shiftLeft_eq, pow_succ]
    rcases Nat.mod_two_eq_zero_or_one k with h | h <;> rw [h] <;> omega

@[simp] theorem bitReverse_zero (bits : ℕ) : bitReverse bits 0 = 0 := by
  induction bits with
  | zero => rfl
  | succ b ih => simp [bitReverse, ih]

theorem bitReverse_succ (bits : ℕ) :
    ∀ k : ℕ, bitReverse (bits + 1) k = 2 * bitReverse bits k + k / 2 ^ bits % 2 := by
  induction bits with
  | zero =>
    intro k
    simp [bitReverse]
  | succ b ih =>
    intro k
    rw [bitReverse, ih, bitReverse, Nat.shiftLeft_eq, Nat.shiftLeft_eq, Nat.div_div_eq_div_mul,
      ← pow_succ' 2 b, pow_succ]
    ring

theorem bitReverse_succ_of_lt (bits : ℕ) {k : ℕ} (hk : k < 2 ^ bits) :
    bitReverse (bits + 1) k = 2 * bitReverse bits k := by
  rw [bitReverse_succ, Nat.div_eq_of_lt hk, Nat.zero_mod, add_zero]

theorem bitReverse_two_pow_add (bits : ℕ) :
    ∀ k : ℕ, bitReverse bits (2 ^ bits + k) = bitReverse bits k := by
  induction bits with
  | zero =>
    intro k
    rfl
  | succ b ih =>
    intro k
    have hlast : (2 ^ (b + 1) + k) % 2 = k % 2 := by
      rw [pow_succ]
      omega
    have hhalf : (2 ^ (b + 1) + k) / 2 = 2 ^ b + k / 2 := by
      rw [pow_succ]
      omega
    rw [bitReverse, hlast, hhalf, ih, bitReverse]

theorem testBit_bitReverse (bits : ℕ) : ∀ k i : ℕ,
    (bitReverse bits k).testBit i = (decide (i < bits) && k.testBit (bits - 1 - i)) := by
  induction bits with
  | zero => simp [bitReverse]
  | succ b ih =>
    intro k i
    rw [bitReverse, Nat.shiftLeft_add_eq_or_of_lt (bitReverse_lt b (k / 2)), Nat.testBit_or,
      Nat.testBit_shiftLeft, ih]
    rcases Nat.lt_trichotomy i b with h | rfl | h
    · have hpos : b + 1 - 1 - i = b - 1 - i + 1 := by omega
      rw [hpos, Nat.testBit_succ]
      simp [h, h.not_ge, Nat.lt_succ_of_lt h]
    · simp [Nat.testBit_zero]
    · have hbit : (k % 2).testBit (i - b) = false := by
        apply Nat.testBit_eq_false_of_lt
        exact (Nat.mod_lt k two_pos).trans_le (Nat.le_self_pow (by omega) 2)
      simp [hbit, h.not_gt, Nat.not_lt.2 (Nat.succ_le_of_lt h)]

theorem bitReverse_eq (bits k : ℕ) : bitReverse bits k = (BitVec.ofNat bits k).reverse.toNat := by
  apply Nat.eq_of_testBit_eq
  intro i
  rw [testBit_bitReverse, BitVec.testBit_toNat, BitVec.getLsbD_reverse, BitVec.getMsbD_eq_getLsbD,
    BitVec.getLsbD_ofNat]
  by_cases h : i < bits
  · have hmirror : bits - 1 - i < bits := by omega
    simp only [h, hmirror, decide_true, Bool.true_and]
  · simp only [h, decide_false, Bool.false_and]

end BitReverse

namespace Prime

theorem rootFrom_eq_ok {q : Modulus} {m e g r : ℕ} (h : rootFrom q m e g = .ok r) :
    r < q.value ∧ (r : ZMod q.value) ^ (m / 2) = -1 := by
  induction g using rootFrom.induct q m e with
  | case1 g r' hr' =>
    rw [rootFrom, if_pos hr'] at h
    cases h
    refine ⟨pow_lt _ _, ?_⟩
    have hcast := congrArg (Nat.cast (R := ZMod q.value)) hr'
    rw [cast_pow, Nat.cast_sub q.pos] at hcast
    simpa only [ZMod.natCast_self, Nat.cast_one, zero_sub] using hcast
  | case2 g r' hr' hg ih =>
    rw [rootFrom, if_neg hr', if_pos hg] at h
    exact ih h
  | case3 g r' hr' hg =>
    rw [rootFrom, if_neg hr', if_neg hg] at h
    cases h

theorem rootOfUnity_eq_ok {m n r : ℕ} (h : rootOfUnity m n = .ok r) :
    m ∣ n - 1 ∧ r < n ∧ (r : ZMod n) ^ (m / 2) = -1 := by
  unfold rootOfUnity at h
  obtain ⟨-, -, h⟩ := Checked.bind_eq_ok.1 h
  obtain ⟨predecessor, hpred, h⟩ := Checked.bind_eq_ok.1 h
  obtain ⟨-, rfl⟩ := Word.sub_eq_ok.1 hpred
  obtain ⟨_, hdvd, h⟩ := Checked.bind_eq_ok.1 h
  obtain ⟨q, hq, h⟩ := Checked.bind_eq_ok.1 h
  obtain rfl := Modulus.check_eq_ok.1 hq
  obtain ⟨hlt, hpow⟩ := rootFrom_eq_ok h
  refine ⟨?_, hlt, hpow⟩
  simpa [ensure_eq_ok, Nat.dvd_iff_mod_eq_zero] using hdvd

end Prime

namespace Transform

section Table

variable {q : Modulus} {w bits : ℕ}

private theorem powerTable_getD_of_lt {m : ℕ} (hm : m < 2 ^ bits) :
    (powerTable q w bits).getD m (q.factor 0) = q.factor (w ^ bitReverse bits m % q.value) := by
  have hm' : m < 1 <<< bits := by rwa [Nat.one_shiftLeft]
  have hrev : bitReverse bits m < 1 <<< bits := by
    rw [Nat.one_shiftLeft]
    exact bitReverse_lt bits m
  rw [Array.getD_eq_getD_getElem?, powerTable, Array.getElem?_ofFn, dif_pos hm', Option.getD_some,
    powers_getD hrev]

private theorem powerTable_isFactor (m : ℕ) :
    q.IsFactor ((powerTable q w bits).getD m (q.factor 0)) := by
  by_cases hm : m < 2 ^ bits
  · exact ⟨_, Nat.mod_lt _ q.pos, powerTable_getD_of_lt hm⟩
  · refine ⟨0, q.pos, ?_⟩
    rw [Array.getD_eq_getD_getElem?, powerTable, Array.getElem?_ofFn,
      dif_neg (by rwa [Nat.one_shiftLeft]), Option.getD_none]

private theorem powerTable_value {m : ℕ} (hm : m < 2 ^ bits) :
    (((powerTable q w bits).getD m (q.factor 0)).value.toNat : ZMod q.value) =
      w ^ bitReverse bits m := by
  rw [powerTable_getD_of_lt hm, toNat_factor (Nat.mod_lt _ q.pos)]
  simp

end Table

private theorem pow_bitReverse_sq {q bits m : ℕ} {w : ZMod q} (hw : w ^ 2 ^ bits = -1)
    (hpos : 0 < m) (hm : m < 2 ^ bits) :
    (w ^ bitReverse bits m) ^ 2 =
      if m % 2 = 0 then w ^ bitReverse bits (m / 2) else -w ^ bitReverse bits (m / 2) := by
  cases bits with
  | zero =>
    rw [pow_zero] at hm
    omega
  | succ b =>
    have hhalf : m / 2 < 2 ^ b := by
      rw [pow_succ] at hm
      omega
    rw [bitReverse_succ_of_lt b hhalf, bitReverse, Nat.shiftLeft_eq, ← pow_mul, add_mul, mul_assoc,
      ← pow_succ, mul_comm _ 2, pow_add, mul_comm _ (2 ^ (b + 1)), pow_mul, hw]
    rcases Nat.mod_two_eq_zero_or_one m with h | h <;> simp [h]

private theorem check_eq_ok {n q : ℕ} {t : Transform} (h : check n q = .ok t) :
    2 * n ∣ q - 1 ∧ 1 < n ∧ 2 ^ n.log2 = n ∧ ∃ (modulus : Modulus) (root : ℕ),
      modulus.value = q ∧ Prime.rootOfUnity (2 * n) q = .ok root ∧
        (root : ZMod modulus.value) ^ n = -1 ∧ t = ⟨modulus, n.log2, powerTable modulus root n.log2,
          powerTable modulus (modulus.inv root) n.log2, modulus.factor (modulus.inv n)⟩ := by
  unfold check at h
  obtain ⟨_, hn, h⟩ := Checked.bind_eq_ok.1 h
  obtain ⟨modulus, hmodulus, h⟩ := Checked.bind_eq_ok.1 h
  obtain ⟨twoN, htwoN, h⟩ := Checked.bind_eq_ok.1 h
  obtain ⟨root, hroot, h⟩ := Checked.bind_eq_ok.1 h
  obtain ⟨-, -, h⟩ := Checked.bind_eq_ok.1 h
  cases h
  obtain ⟨rfl, -⟩ := Word.mul_eq_ok.1 htwoN
  obtain rfl := Modulus.check_eq_ok.1 hmodulus
  obtain ⟨hdvd, -, hpow⟩ := Prime.rootOfUnity_eq_ok hroot
  rw [Nat.mul_div_cancel_left n two_pos] at hpow
  rw [ensure_eq_ok, Bool.and_eq_true, isPowerOfTwo_iff, decide_eq_true_eq] at hn
  exact ⟨hdvd, hn.2, hn.1.2, modulus, root, rfl, hroot, hpow, rfl⟩

theorem check_shape {n q : ℕ} {t : Transform} (h : check n q = .ok t) :
    t.size = n ∧ t.modulus.value = q ∧ 2 * n ∣ q - 1 ∧ 1 < n := by
  obtain ⟨hdvd, hn, hlog, modulus, root, hvalue, -, -, rfl⟩ := check_eq_ok h
  exact ⟨size_eq.trans hlog, hvalue, hdvd, hn⟩

theorem check_evaluates {n q : ℕ} {t : Transform} (h : check n q = .ok t) : t.Evaluates := by
  have hsize := (check_shape h).1
  obtain ⟨-, -, hlog, modulus, root, rfl, -, hpow, rfl⟩ := check_eq_ok h
  rw [← hlog] at hpow
  refine ⟨powerTable_isFactor, ?_, fun m hpos hm => ?_⟩
  · rw [Transform.root, powerTable_value (Nat.two_pow_pos _), bitReverse_zero, pow_zero]
  · have hm := hm.trans_eq (hsize.trans hlog.symm)
    have hhalf : m / 2 < 2 ^ n.log2 := by omega
    rw [point, Transform.root, Transform.root, powerTable_value hm, powerTable_value hhalf]
    exact pow_bitReverse_sq hpow hpos hm

theorem check_runs {n q : ℕ} {t : Transform} (h : check n q = .ok t) : t.Runs := by
  have hevaluates := check_evaluates h
  obtain ⟨-, -, -, modulus, root, rfl, -, -, rfl⟩ := check_eq_ok h
  exact ⟨hevaluates, powerTable_isFactor, ⟨_, inv_lt n, rfl⟩⟩

theorem check_valid {n q : ℕ} {t : Transform} (hq : q.Prime) (h : check n q = .ok t) : t.Valid := by
  obtain ⟨⟨hfactor, hzero, hsq⟩, hinverse, hsizeInverse⟩ := check_runs h
  have hsize := (check_shape h).1
  obtain ⟨hdvd, hn, hlog, modulus, root, rfl, -, hpow, rfl⟩ := check_eq_ok h
  have hroot_ne := ne_zero_of_pow_eq_neg_one (by omega) hpow
  have hn_ne : (n : ZMod modulus.value) ≠ 0 := by
    rw [Ne, ZMod.natCast_eq_zero_iff]
    intro hn_dvd
    have h1 := Nat.le_of_dvd (by omega) hn_dvd
    have h2 := Nat.le_of_dvd (by have := hq.two_le; omega) hdvd
    omega
  refine ⟨hfactor, hinverse, hsizeInverse, hzero, hsq, ?_, ?_⟩
  · intro m hpos hm
    have hm := hm.trans_eq (hsize.trans hlog.symm)
    rw [Transform.root, inverseRoot, powerTable_value hm, powerTable_value hm, ← mul_pow,
      mul_inv_of_prime hq hroot_ne, one_pow]
  · rw [hsize, toNat_factor (inv_lt n)]
    exact mul_inv_of_prime hq hn_ne

private theorem pow_bitReverse_leaf {q b j : ℕ} {w : ZMod q} (hw : w ^ 2 ^ (b + 1) = -1)
    (hj : j < 2 ^ (b + 1)) :
    (if j % 2 = 0 then w ^ bitReverse (b + 1) (2 ^ b + j / 2)
      else -w ^ bitReverse (b + 1) (2 ^ b + j / 2)) = w ^ (2 * bitReverse (b + 1) j + 1) := by
  have hhalf : j / 2 < 2 ^ b := by
    rw [pow_succ] at hj
    omega
  have hfirst : bitReverse (b + 1) (2 ^ b + j / 2) = 2 * bitReverse b (j / 2) + 1 := by
    rw [bitReverse_succ, bitReverse_two_pow_add, Nat.add_div_left _ (Nat.two_pow_pos b),
      Nat.div_eq_of_lt hhalf]
  have hlast : 2 * bitReverse (b + 1) j + 1 = 2 ^ (b + 1) * (j % 2) + (2 * bitReverse b (j / 2) + 1) := by
    rw [bitReverse, Nat.shiftLeft_eq, pow_succ]
    ring
  rw [hfirst, hlast, pow_add w (2 ^ (b + 1) * (j % 2)), pow_mul w (2 ^ (b + 1)), hw]
  rcases Nat.mod_two_eq_zero_or_one j with h | h <;> simp [h]

theorem check_leaf {n q : ℕ} {t : Transform} (h : check n q = .ok t) :
    ∃ w, Prime.rootOfUnity (2 * n) q = .ok w ∧ ∀ j < n,
      t.leaf j = (w : ZMod t.modulus.value) ^ (2 * bitReverse t.logSize j + 1) := by
  have hsize := (check_shape h).1
  obtain ⟨-, hn, hlog, modulus, w, rfl, hw, hpow, rfl⟩ := check_eq_ok h
  refine ⟨w, hw, fun j hj => ?_⟩
  obtain ⟨b, hb⟩ : ∃ b, n.log2 = b + 1 := by
    refine Nat.exists_eq_add_one.2 (Nat.pos_of_ne_zero fun h0 => ?_)
    rw [h0, pow_zero] at hlog
    omega
  rw [hb] at hlog
  rw [← hlog] at hpow hj
  have hlow : (2 ^ (b + 1) + j) % 2 = j % 2 := by
    rw [pow_succ]
    omega
  have hhalf : (2 ^ (b + 1) + j) / 2 = 2 ^ b + j / 2 := by
    rw [pow_succ]
    omega
  have hplace : 2 ^ b + j / 2 < 2 ^ (b + 1) := by
    rw [pow_succ] at hj ⊢
    omega
  rw [leaf, point, hsize, ← hlog, hlow, hhalf, Transform.root]
  dsimp only
  rw [hlog, hb, powerTable_value hplace]
  exact pow_bitReverse_leaf hpow hj

end Transform

end LatticeGates
