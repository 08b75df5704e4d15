import LatticeGates.Proofs.Checked
import LatticeGates.Proofs.Stream.Period
import LatticeGates.Stream.Uniform

/-!
# Uniform draws are unbiased

Main statement: a mask of ones leaves every value below the bound equally many words, and not more than half of
the words are above it. The draw returns the first word of the stream that is not, for every stream that has one.
-/

namespace LatticeGates.Stream

section Mask

variable {q : ℕ}

def maskBits (q : ℕ) : ℕ := max 1 (Word.bitLength (q - 1))

theorem bitLength_eq {x : ℕ} (hx : x ≠ 0) : Word.bitLength x = x.log2 + 1 := if_neg hx

theorem le_two_pow_maskBits (q : ℕ) : q ≤ 2 ^ maskBits q := by
  rw [maskBits]
  by_cases hq : q - 1 = 0
  · have hone : 2 ^ 1 ≤ 2 ^ max 1 (Word.bitLength (q - 1)) :=
      Nat.pow_le_pow_right two_pos (le_max_left _ _)
    omega
  · have hlt : q - 1 < 2 ^ ((q - 1).log2 + 1) := Nat.lt_log2_self
    rw [bitLength_eq hq, max_eq_right (by omega)]
    omega

theorem two_pow_maskBits_le (hq : 1 ≤ q) : 2 ^ maskBits q ≤ 2 * q := by
  rw [maskBits]
  by_cases hone : q - 1 = 0
  · simp [hone, Word.bitLength, hq]
  · have hle : 2 ^ (q - 1).log2 ≤ q - 1 := Nat.log2_self_le hone
    rw [bitLength_eq hone, max_eq_right (by omega), pow_succ]
    omega

theorem maskBits_le (hq : q ≤ 2 ^ 64) : maskBits q ≤ 64 := by
  refine max_le (by decide) ?_
  by_cases hone : q - 1 = 0
  · simp [hone, Word.bitLength]
  · rw [bitLength_eq hone]
    exact (Nat.log2_lt hone).2 (by omega)

theorem toNat_maskOf (hq : q ≤ 2 ^ 64) : (maskOf q).toNat = 2 ^ maskBits q - 1 := by
  have hle : 2 ^ maskBits q ≤ 2 ^ 64 := Nat.pow_le_pow_right two_pos (maskBits_le hq)
  have hpos := Nat.two_pow_pos (maskBits q)
  rw [maskOf, Nat.one_shiftLeft, UInt64.toNat_ofNat']
  exact Nat.mod_eq_of_lt (by rw [← maskBits]; omega)

theorem toNat_and_maskOf (hq : q ≤ 2 ^ 64) (w : UInt64) :
    (w &&& maskOf q).toNat = w.toNat % 2 ^ maskBits q := by
  rw [UInt64.toNat_and, toNat_maskOf hq, Nat.and_two_pow_sub_one_eq_mod]

end Mask

section Counting

variable (P : ℕ → Prop) [DecidablePred P]

theorem ncard_words : {w : UInt64 | P w.toNat}.ncard = Nat.count P (2 ^ 64) := by
  have himage : UInt64.toNat '' {w | P w.toNat} = (Finset.range (2 ^ 64)).filter P := by
    ext n
    simp only [Set.mem_image, Set.mem_ofPred_eq, Finset.coe_filter, Finset.mem_range]
    constructor
    · rintro ⟨w, hw, rfl⟩
      exact ⟨w.toNat_lt, hw⟩
    · rintro ⟨hn, hP⟩
      have hof : (UInt64.ofNat n).toNat = n := UInt64.toNat_ofNat_of_lt hn
      exact ⟨UInt64.ofNat n, by rwa [hof], hof⟩
  rw [Nat.count_eq_card_filter_range, ← Set.ncard_coe_finset, ← himage,
    Set.ncard_image_of_injective _ fun _ _ => UInt64.toNat_inj.1]

theorem count_mod (m c : ℕ) : Nat.count (fun n => P (n % m)) (m * c) = c * Nat.count P m := by
  induction c with
  | zero => simp
  | succ c ih =>
    have hround : Nat.count (fun n => P ((m * c + n) % m)) m = Nat.count P m := by
      simp only [Nat.count_eq_card_filter_range, Nat.mul_add_mod]
      congr 1
      refine Finset.filter_congr fun n hn => ?_
      rw [Nat.mod_eq_of_lt (Finset.mem_range.1 hn)]
    rw [Nat.mul_succ, Nat.count_add, ih, hround, Nat.succ_mul]

/-- What the mask leaves of the words is spread evenly. -/
theorem ncard_and_maskOf {q : ℕ} (hq : q ≤ 2 ^ 64) : {w : UInt64 | P (w &&& maskOf q).toNat}.ncard =
    2 ^ 64 / 2 ^ maskBits q * Nat.count P (2 ^ maskBits q) := by
  have hdvd : 2 ^ maskBits q * (2 ^ 64 / 2 ^ maskBits q) = 2 ^ 64 :=
    Nat.mul_div_cancel' (Nat.pow_dvd_pow 2 (maskBits_le hq))
  simp only [toNat_and_maskOf hq]
  rw [ncard_words fun n => P (n % 2 ^ maskBits q), ← count_mod, hdvd]

private theorem count_eq {v m : ℕ} (hv : v < m) : Nat.count (· = v) m = 1 := by
  rw [Nat.count_eq_card_filter_range, Finset.filter_eq', if_pos (Finset.mem_range.2 hv),
    Finset.card_singleton]

private theorem count_lt {q m : ℕ} (hq : q ≤ m) : Nat.count (· < q) m = q := by
  have hrange : (Finset.range m).filter (· < q) = Finset.range q := by
    ext n
    simp only [Finset.mem_filter, Finset.mem_range]
    omega
  rw [Nat.count_eq_card_filter_range, hrange, Finset.card_range]

end Counting

section Search

variable {max : ℕ} {mask : UInt64} {s t : Stream} {x : ℕ}

/-- What the mask leaves of the word at place `n`. -/
def masked (mask : UInt64) (s : Stream) (n : ℕ) : ℕ := (s.word n &&& mask).toNat

/-- The word at place `n` is the first one to be below `max` under the mask. -/
structure FirstBelow (max : ℕ) (mask : UInt64) (s : Stream) (n : ℕ) : Prop where
  lt : masked mask s n < max
  le_of_lt : ∀ i < n, max ≤ masked mask s i

theorem firstBelow_zero : FirstBelow max mask s 0 ↔ masked mask s 0 < max :=
  ⟨FirstBelow.lt, fun h => ⟨h, fun _ hi => absurd hi (Nat.not_lt_zero _)⟩⟩

theorem firstBelow_succ {n : ℕ} : FirstBelow max mask s (n + 1) ↔
    max ≤ masked mask s 0 ∧ FirstBelow max mask (s.drop 1) n := by
  constructor
  · rintro ⟨hlt, hle⟩
    exact ⟨hle 0 n.succ_pos, hlt, fun i hi => hle (i + 1) (Nat.succ_lt_succ hi)⟩
  · rintro ⟨hzero, hlt, hle⟩
    refine ⟨hlt, fun i hi => ?_⟩
    cases i with
    | zero => exact hzero
    | succ i => exact hle i (Nat.lt_of_succ_lt_succ hi)

theorem rejectFrom_succ (fuel : ℕ) : rejectFrom max mask (fuel + 1) s =
    if masked mask s 0 < max then .ok (masked mask s 0, s.drop 1)
    else rejectFrom max mask fuel (s.drop 1) := rfl

theorem rejectFrom_eq_ok_iff {fuel : ℕ} : rejectFrom max mask fuel s = .ok (x, t) ↔
    ∃ n < fuel, FirstBelow max mask s n ∧ x = masked mask s n ∧ t = s.drop (n + 1) := by
  induction fuel generalizing s with
  | zero => simp [rejectFrom]
  | succ fuel ih =>
    rw [rejectFrom_succ]
    split
    · rename_i hlt
      constructor
      · rintro ⟨⟩
        exact ⟨0, fuel.succ_pos, firstBelow_zero.2 hlt, rfl, rfl⟩
      · rintro ⟨n, -, hfirst, rfl, rfl⟩
        cases n with
        | zero => rfl
        | succ n => exact absurd hlt (firstBelow_succ.1 hfirst).1.not_gt
    · rename_i hle
      rw [ih]
      constructor
      · rintro ⟨n, hn, hfirst, hx, ht⟩
        exact ⟨n + 1, Nat.succ_lt_succ hn, firstBelow_succ.2 ⟨not_lt.1 hle, hfirst⟩, hx, ht⟩
      · rintro ⟨n, hn, hfirst, hx, ht⟩
        cases n with
        | zero => exact absurd hfirst.lt hle
        | succ n => exact ⟨n, Nat.lt_of_succ_lt_succ hn, (firstBelow_succ.1 hfirst).2, hx, ht⟩

theorem rejectFrom_eq_error_iff {fuel : ℕ} {e : Fault} : rejectFrom max mask fuel s = .error e ↔
    e = .exhausted ∧ ∀ i < fuel, max ≤ masked mask s i := by
  induction fuel generalizing s with
  | zero => simp [rejectFrom, eq_comm]
  | succ fuel ih =>
    rw [rejectFrom_succ]
    split
    · rename_i hlt
      simp only [reduceCtorEq, false_iff, not_and, not_forall]
      exact fun _ => ⟨0, fuel.succ_pos, not_le.2 hlt⟩
    · rename_i hle
      rw [ih, Nat.forall_lt_succ_left]
      exact and_congr_right fun _ => (and_iff_right (not_lt.1 hle)).symm

theorem exists_masked_eq (mask : UInt64) (s : Stream) (n : ℕ) :
    ∃ i < period, masked mask s i = masked mask s n := by
  obtain ⟨i, hi, heq⟩ := s.exists_drop_eq n
  exact ⟨i, hi, by rw [masked, word, heq, masked, word]⟩

theorem FirstBelow.lt_period {n : ℕ} (h : FirstBelow max mask s n) : n < period := by
  obtain ⟨i, hi, heq⟩ := exists_masked_eq mask s n
  by_contra hge
  have hle := h.le_of_lt i (hi.trans_le (not_lt.1 hge))
  rw [heq] at hle
  exact h.lt.not_ge hle

/-- A draw finds the first word below the bound, wherever it is. -/
theorem below_eq_ok_iff : below max mask s = .ok (x, t) ↔
    ∃ n, FirstBelow max mask s n ∧ x = masked mask s n ∧ t = s.drop (n + 1) := by
  rw [below, rejectFrom_eq_ok_iff]
  constructor
  · rintro ⟨n, -, h⟩
    exact ⟨n, h⟩
  · rintro ⟨n, hfirst, h⟩
    exact ⟨n, hfirst.lt_period, hfirst, h⟩

/-- A draw is given up only if there is no such word. -/
theorem below_eq_error_iff {e : Fault} : below max mask s = .error e ↔
    e = .exhausted ∧ ∀ n, max ≤ masked mask s n := by
  rw [below, rejectFrom_eq_error_iff]
  refine and_congr_right fun _ => ⟨fun h n => ?_, fun h i _ => h i⟩
  obtain ⟨i, hi, heq⟩ := exists_masked_eq mask s n
  exact heq ▸ h i hi

end Search

theorem uniform_eq_below {q : ℕ} (hq : 1 ≤ q) (s : Stream) : uniform q s = below q (maskOf q) s := by
  rw [uniform, Word.sub_of_le hq, Checked.ok_bind]

/-- The mask is all ones and leaves every value below the bound equally many words, at least half of all words
together. The draw takes the first word that the mask leaves below the bound, and all words up to it; it is given
up only if there is no such word. -/
theorem uniform_unbiased {q : ℕ} (hq : 1 ≤ q) (hword : q < Word.bound) :
    (∃ b, 0 < b ∧ b ≤ 64 ∧ (maskOf q).toNat = 2 ^ b - 1) ∧
    (∀ v < q, {w : UInt64 | (w &&& maskOf q).toNat = v}.ncard = 2 ^ 64 / ((maskOf q).toNat + 1)) ∧
    2 ^ 64 ≤ 2 * {w : UInt64 | (w &&& maskOf q).toNat < q}.ncard ∧
    ∀ s : Stream,
      (∀ x t, uniform q s = .ok (x, t) ↔ ∃ n, (∀ i < n, q ≤ (s.word i &&& maskOf q).toNat) ∧
        (s.word n &&& maskOf q).toNat < q ∧ x = (s.word n &&& maskOf q).toNat ∧ t = s.drop (n + 1)) ∧
      ∀ e, uniform q s = .error e ↔ e = .exhausted ∧ ∀ n, q ≤ (s.word n &&& maskOf q).toNat := by
  have hle : q ≤ 2 ^ 64 := hword.le
  have hcover := le_two_pow_maskBits q
  have hsucc : (maskOf q).toNat + 1 = 2 ^ maskBits q := by
    rw [toNat_maskOf hle, Nat.sub_add_cancel (Nat.two_pow_pos _)]
  refine ⟨⟨maskBits q, by simp [maskBits], maskBits_le hle, toNat_maskOf hle⟩, fun v hv => ?value, ?half,
    fun s => ⟨fun x t => ?found, fun e => ?missed⟩⟩
  case value =>
    rw [ncard_and_maskOf (· = v) hle, count_eq (hv.trans_le hcover), mul_one, hsucc]
  case half =>
    have hdvd : 2 ^ 64 / 2 ^ maskBits q * 2 ^ maskBits q = 2 ^ 64 :=
      Nat.div_mul_cancel (Nat.pow_dvd_pow 2 (maskBits_le hle))
    rw [ncard_and_maskOf (· < q) hle, count_lt hcover]
    calc 2 ^ 64 = 2 ^ 64 / 2 ^ maskBits q * 2 ^ maskBits q := hdvd.symm
      _ ≤ 2 ^ 64 / 2 ^ maskBits q * (2 * q) := Nat.mul_le_mul_left _ (two_pow_maskBits_le hq)
      _ = 2 * (2 ^ 64 / 2 ^ maskBits q * q) := Nat.mul_left_comm _ _ _
  case found =>
    rw [uniform_eq_below hq, below_eq_ok_iff]
    exact exists_congr fun n =>
      ⟨fun ⟨h, hx, ht⟩ => ⟨h.le_of_lt, h.lt, hx, ht⟩, fun ⟨hfirst, hlt, hx, ht⟩ => ⟨⟨hlt, hfirst⟩, hx, ht⟩⟩
  case missed =>
    rw [uniform_eq_below hq]
    exact below_eq_error_iff

/-- Past half of the words all bits count, and the stream of the empty seed has two words above the bound first. -/
theorem uniform_unbiased_past_half :
    1 ≤ 2 ^ 63 + 1 ∧ 2 ^ 63 + 1 < Word.bound ∧
    (∀ v < 2 ^ 63 + 1, {w : UInt64 | (w &&& maskOf (2 ^ 63 + 1)).toNat = v}.ncard = 1) ∧
    2 ^ 64 ≤ 2 * {w : UInt64 | (w &&& maskOf (2 ^ 63 + 1)).toNat < 2 ^ 63 + 1}.ncard ∧
    uniform (2 ^ 63 + 1) (ofSeed #[]) = .ok (4287315583106450476, (ofSeed #[]).drop 3) := by
  have hq : 1 ≤ 2 ^ 63 + 1 := by decide
  have hword : 2 ^ 63 + 1 < Word.bound := by decide
  have hmask : 2 ^ 64 / ((maskOf (2 ^ 63 + 1)).toNat + 1) = 1 := by decide +kernel
  obtain ⟨-, hvalue, hhalf, hstream⟩ := uniform_unbiased hq hword
  refine ⟨hq, hword, fun v hv => (hvalue v hv).trans hmask, hhalf,
    ((hstream (ofSeed #[])).1 _ _).2 ⟨2, ?_⟩⟩
  decide +kernel

end LatticeGates.Stream
