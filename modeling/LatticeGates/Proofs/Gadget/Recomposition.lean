import LatticeGates.Gadget
import LatticeGates.Proofs.Ring.Values

/-!
# Recomposition of gadget digits

Main statements: where the digits have room for every centred residue, a polynomial is the sum of its digit
polynomials, each times a power of the base, and the digit polynomials are small. For every gadget, what
the digits recompose to differs from the residue by the carry out of the last digit, which is dropped.
-/

namespace LatticeGates.Gadget

open Finset Modulus Negacyclic

variable {g : Gadget}

/-- A gadget as it is checked: its base has room for two digits and stays within a word, and its digits
reach every centred residue. -/
structure Valid (g : Gadget) : Prop where
  logBase_pos : 0 < g.logBase
  logBase_lt : g.logBase < 63
  capacity : g.modulus.value / 2 ≤ (g.base / 2 - 1) * (g.base ^ g.digits - 1) / (g.base - 1)

theorem modulus_of_check {q k : ℕ} (h : check q k = .ok g) : g.modulus.value = q := by
  obtain ⟨_, -, h⟩ := Checked.bind_eq_ok.1 h
  obtain ⟨modulus, hmodulus, h⟩ := Checked.bind_eq_ok.1 h
  cases h
  exact Modulus.check_eq_ok.1 hmodulus

theorem logBase_of_check {q k : ℕ} (h : check q k = .ok g) : 0 < g.logBase ∧ g.logBase < 63 := by
  obtain ⟨_, hk, h⟩ := Checked.bind_eq_ok.1 h
  obtain ⟨modulus, -, h⟩ := Checked.bind_eq_ok.1 h
  cases h
  rwa [ensure_eq_ok, decide_eq_true_eq] at hk

theorem check_valid {q k : ℕ} (h : check q k = .ok g)
    (hcapacity : q / 2 ≤ (g.base / 2 - 1) * (g.base ^ g.digits - 1) / (g.base - 1)) :
    g.Valid ∧ g.modulus.value = q := by
  obtain rfl := modulus_of_check h
  obtain ⟨hpos, hlt⟩ := logBase_of_check h
  exact ⟨⟨hpos, hlt, hcapacity⟩, rfl⟩

theorem exists_half (hpos : 0 < g.logBase) (hlt : g.logBase < 63) :
    ∃ h : ℕ, 1 ≤ h ∧ h ≤ 2 ^ 61 ∧ g.base = 2 * h := by
  obtain ⟨k, hk⟩ := Nat.exists_eq_add_of_lt hpos
  refine ⟨2 ^ k, Nat.one_le_two_pow, ?_, ?_⟩
  · exact Nat.pow_le_pow_right two_pos (by omega)
  · rw [base, hk, Nat.one_shiftLeft, zero_add, pow_succ']

namespace Valid

theorem exists_half (hg : g.Valid) : ∃ h : ℕ, 1 ≤ h ∧ h ≤ 2 ^ 61 ∧ g.base = 2 * h :=
  Gadget.exists_half hg.logBase_pos hg.logBase_lt

end Valid

private theorem natAbs_quotient_word {h w : ℕ} {r b : ℤ} (hpos : 1 ≤ h) (hlow : -h ≤ r)
    (hhigh : r < h) (hc : (r + 2 * h * b).natAbs ≤ w) : b.natAbs ≤ w := by
  zify at hc ⊢
  have hk : (0 : ℤ) < 2 * h := by omega
  have hw : (w : ℤ) ≤ h * w := le_mul_of_one_le_left (by positivity) (by exact_mod_cast hpos)
  obtain ⟨hlower, hupper⟩ := abs_le.1 hc
  rw [abs_le]
  constructor
  · have : -b < w + 1 := lt_of_mul_lt_mul_left (by linarith) hk.le
    linarith
  · have : b < w + 1 := lt_of_mul_lt_mul_left (by linarith) hk.le
    linarith

theorem exists_signedDigits_succ (hpos : 0 < g.logBase) (hlt : g.logBase < 63) {c : ℤ}
    (hword : c.natAbs ≤ 2 ^ 61) :
    ∃ r b : ℤ, c = r + g.base * b ∧ -(g.base / 2 : ℕ) ≤ r ∧ r < (g.base / 2 : ℕ) ∧
      b.natAbs ≤ 2 ^ 61 ∧ ∀ count, g.signedDigits (count + 1) c =
        (do return r :: (← g.signedDigits count b)) := by
  obtain ⟨h, hone, hle, hbase⟩ := exists_half hpos hlt
  have hlow := Int.le_bmod (x := c) (m := g.base) (by omega)
  have hhigh := Int.bmod_lt (x := c) (m := g.base) (by omega)
  have hsplit := Int.bmod_add_bdiv c g.base
  generalize hr : c.bmod g.base = r at *
  generalize c.bdiv g.base = b at *
  subst hsplit
  have hbase' : (g.base : ℤ) = 2 * h := by exact_mod_cast hbase
  have hrlow : -(h : ℤ) ≤ r := by omega
  have hrhigh : r < h := by omega
  have hquot : (r + g.base * b - r) / (g.base : ℤ) = b := by
    rw [add_sub_cancel_left, Int.mul_ediv_cancel_left _ (by omega)]
  refine ⟨r, b, rfl, by omega, by omega, ?_, fun count => ?_⟩
  · rw [hbase'] at hword
    exact natAbs_quotient_word hone hrlow hrhigh hword
  · rw [signedDigits, hr, Signed.check_of_range, Checked.ok_bind, hquot]
    · rw [hbase'] at hword ⊢
      omega
    · rw [hbase'] at hword ⊢
      omega

/-- The first balanced digits of a number within a word, and the carry that they leave. -/
theorem exists_signedDigits (hpos : 0 < g.logBase) (hlt : g.logBase < 63) (count : ℕ) :
    ∀ c : ℤ, c.natAbs ≤ 2 ^ 61 → ∃ (ds : List ℤ) (carry : ℤ),
      g.signedDigits count c = .ok ds ∧ ds.length = count ∧
        (∀ d ∈ ds, -(g.base / 2 : ℕ) ≤ d ∧ d < (g.base / 2 : ℕ)) ∧
        c = ∑ l ∈ range count, ds.getD l 0 * (g.base : ℤ) ^ l + carry * (g.base : ℤ) ^ count := by
  induction count with
  | zero =>
    intro c _
    exact ⟨[], c, rfl, rfl, by simp, by simp⟩
  | succ n ih =>
    intro c hword
    obtain ⟨r, b, rfl, hlow, hhigh, hbword, hdigits⟩ := exists_signedDigits_succ hpos hlt hword
    obtain ⟨ds, carry, hds, hlength, hdigit, hsum⟩ := ih b hbword
    refine ⟨r :: ds, carry, by rw [hdigits, hds]; rfl, by simp [hlength], ?_, ?_⟩
    · intro d hd
      rcases List.mem_cons.1 hd with rfl | hd
      · exact ⟨hlow, hhigh⟩
      · exact hdigit d hd
    · have hshift : ∑ l ∈ range n, ds.getD l 0 * (g.base : ℤ) ^ (l + 1)
          = g.base * ∑ l ∈ range n, ds.getD l 0 * (g.base : ℤ) ^ l := by
        rw [mul_sum]
        apply sum_congr rfl
        intro l _
        ring
      conv_lhs => rw [hsum]
      simp only [sum_range_succ', List.getD_cons_succ, List.getD_cons_zero, hshift, pow_zero]
      ring

/-- The largest number that the digits reach: all of them at their greatest. -/
def reach (g : Gadget) : ℕ := (g.base / 2 - 1) * ∑ l ∈ range g.digits, g.base ^ l

theorem reach_eq (g : Gadget) (hpos : 0 < g.logBase) (hlt : g.logBase < 63) :
    g.reach = (g.base / 2 - 1) * (g.base ^ g.digits - 1) / (g.base - 1) := by
  obtain ⟨h, hone, -, hbase⟩ := exists_half hpos hlt
  have hdvd : g.base - 1 ∣ g.base ^ g.digits - 1 := by
    simpa using Nat.sub_dvd_pow_sub_pow g.base 1 g.digits
  rw [reach, Nat.geomSum_eq (by omega), ← Nat.mul_div_assoc _ hdvd]

theorem two_mul_reach_lt (g : Gadget) (hpos : 0 < g.logBase) (hlt : g.logBase < 63) :
    2 * (g.reach : ℤ) < (g.base : ℤ) ^ g.digits := by
  obtain ⟨half, hone, -, hbase⟩ := exists_half hpos hlt
  have hgeom := geom_sum_mul (g.base : ℤ) g.digits
  have hsum : (0 : ℤ) ≤ ∑ l ∈ range g.digits, (g.base : ℤ) ^ l := by positivity
  rw [reach, show g.base / 2 = half by omega]
  push_cast [Nat.cast_sub hone]
  rw [hbase] at hgeom hsum ⊢
  push_cast at hgeom hsum ⊢
  linarith

/-- `e` are the balanced digits of `c`, and `carry` is what they leave. -/
structure Splits (g : Gadget) (c : ℤ) (e : ℕ → ℤ) (carry : ℤ) : Prop where
  digit : ∀ l < g.digits, -(g.base / 2 : ℕ) ≤ e l ∧ e l < (g.base / 2 : ℕ)
  sum_eq : c = ∑ l ∈ range g.digits, e l * (g.base : ℤ) ^ l + carry * (g.base : ℤ) ^ g.digits

namespace Splits

variable {c carry : ℤ} {e : ℕ → ℤ}

/-- Balanced digits sum to one of `base ^ digits` consecutive numbers, the last of them `reach`. -/
theorem sum_bounds (h : g.Splits c e carry) (hpos : 0 < g.logBase) (hlt : g.logBase < 63) :
    (g.reach : ℤ) < ∑ l ∈ range g.digits, e l * (g.base : ℤ) ^ l + (g.base : ℤ) ^ g.digits ∧
      ∑ l ∈ range g.digits, e l * (g.base : ℤ) ^ l ≤ g.reach := by
  obtain ⟨half, hone, -, hbase⟩ := exists_half hpos hlt
  have hhalf : g.base / 2 = half := by omega
  have hbase' : (g.base : ℤ) = 2 * half := by exact_mod_cast hbase
  have hgeom := geom_sum_mul (g.base : ℤ) g.digits
  have hreach : (g.reach : ℤ) = (half - 1) * ∑ l ∈ range g.digits, (g.base : ℤ) ^ l := by
    rw [reach, hhalf]
    push_cast [Nat.cast_sub hone]
    rfl
  have hlow : -half * ∑ l ∈ range g.digits, (g.base : ℤ) ^ l
      ≤ ∑ l ∈ range g.digits, e l * (g.base : ℤ) ^ l := by
    rw [mul_sum]
    apply sum_le_sum
    intro l hl
    have := (h.digit l (mem_range.1 hl)).1
    exact mul_le_mul_of_nonneg_right (by omega) (by positivity)
  have hhigh : ∑ l ∈ range g.digits, e l * (g.base : ℤ) ^ l
      ≤ (half - 1) * ∑ l ∈ range g.digits, (g.base : ℤ) ^ l := by
    rw [mul_sum]
    apply sum_le_sum
    intro l hl
    have := (h.digit l (mem_range.1 hl)).2
    exact mul_le_mul_of_nonneg_right (by omega) (by positivity)
  rw [hreach]
  constructor
  · rw [hbase'] at hgeom hlow ⊢
    linarith
  · exact hhigh

theorem carry_eq_zero (h : g.Splits c e carry) (hpos : 0 < g.logBase) (hlt : g.logBase < 63)
    (hlow : (g.reach : ℤ) < c + (g.base : ℤ) ^ g.digits) (hhigh : c ≤ g.reach) : carry = 0 := by
  obtain ⟨hsum_low, hsum_high⟩ := h.sum_bounds hpos hlt
  have hc := h.sum_eq
  have hone : (0 : ℤ) < (g.base : ℤ) ^ g.digits := by
    obtain ⟨half, hone, -, hbase⟩ := exists_half hpos hlt
    rw [hbase]
    positivity
  have hlt_one : carry < 1 := lt_of_mul_lt_mul_right (by linarith) hone.le
  have hgt_neg : -1 < carry := lt_of_mul_lt_mul_right (by linarith) hone.le
  omega

/-- Beyond the reach of the digits one power of the base is left. -/
theorem carry_eq_one (h : g.Splits c e carry) (hpos : 0 < g.logBase) (hlt : g.logBase < 63)
    (hlow : (g.reach : ℤ) < c) (hhigh : c ≤ (g.base : ℤ) ^ g.digits) : carry = 1 := by
  have hshift : g.Splits (c - (g.base : ℤ) ^ g.digits) e (carry - 1) := by
    refine ⟨h.digit, ?_⟩
    rw [h.sum_eq]
    ring
  have := hshift.carry_eq_zero hpos hlt (by linarith) (by linarith [Int.natCast_nonneg g.reach])
  omega

end Splits

theorem Valid.half_le_reach (hg : g.Valid) : g.modulus.value / 2 ≤ g.reach := by
  rw [g.reach_eq hg.logBase_pos hg.logBase_lt]
  exact hg.capacity

theorem Valid.carry_eq_zero (hg : g.Valid) {a : ℕ} {e : ℕ → ℤ} {carry : ℤ}
    (ha : a < g.modulus.value) (h : g.Splits (g.modulus.centered a) e carry) : carry = 0 := by
  have hsmall := natAbs_centered_le ha
  have hreach := hg.half_le_reach
  have htwice := g.two_mul_reach_lt hg.logBase_pos hg.logBase_lt
  exact h.carry_eq_zero hg.logBase_pos hg.logBase_lt (by omega) (by omega)

theorem exists_digitsOf (hpos : 0 < g.logBase) (hlt : g.logBase < 63) {a : ℕ}
    (ha : a < g.modulus.value) :
    ∃ (ds : Array ℕ) (e : ℕ → ℤ) (carry : ℤ), g.digitsOf a = .ok ds ∧
      (∀ l < g.digits, ds.getD l 0 = g.modulus.ofInt (e l)) ∧
      g.Splits (g.modulus.centered a) e carry := by
  have hword : (g.modulus.centered a).natAbs ≤ 2 ^ 61 := by
    have := g.modulus.lt_bound
    have := natAbs_centered_le ha
    omega
  obtain ⟨ds, carry, hds, hlength, hdigit, hsum⟩ :=
    exists_signedDigits hpos hlt g.digits (g.modulus.centered a) hword
  refine ⟨(ds.map g.modulus.ofInt).toArray, fun l => ds.getD l 0, carry, ?_, fun l hl => ?_,
    fun l hl => ?_, hsum⟩
  · rw [digitsOf, center_of_lt ha, Checked.ok_bind, hds]
    rfl
  · have hl' : l < ds.length := hlength ▸ hl
    simp [Array.getD_eq_getD_getElem?, hl']
  · have hl' : l < ds.length := hlength ▸ hl
    rw [List.getD_eq_getElem _ _ hl']
    exact hdigit _ (List.getElem_mem hl')

theorem exists_decompose (hpos : 0 < g.logBase) (hlt : g.logBase < 63) {n : ℕ} {a : Poly}
    (ha : g.modulus.Reduced n a) :
    ∃ rows, g.decompose a = .ok rows ∧ rows.size = g.digits ∧
      ∃ (e : ℕ → ℕ → ℤ) (carry : ℕ → ℤ),
        (∀ (l : ℕ) (hl : l < rows.size), g.modulus.Reduced n rows[l] ∧
          ∀ i < n, rows[l].getD i 0 = g.modulus.ofInt (e i l)) ∧
        ∀ i < n, g.Splits (g.modulus.centered (a.getD i 0)) (e i) (carry i) := by
  obtain ⟨table, htable, hsize, h⟩ := exists_tabulate (n := a.size) (f := fun i _ => g.digitsOf a[i])
    (P := fun i ds => ∃ (e : ℕ → ℤ) (carry : ℤ),
      (∀ l < g.digits, ds.getD l 0 = g.modulus.ofInt (e l)) ∧
      g.Splits (g.modulus.centered (a.getD i 0)) e carry)
    fun i hi => by
      obtain ⟨ds, e, carry, hds, hdigit, hsplits⟩ := exists_digitsOf hpos hlt (ha.getElem_lt hi)
      rw [Array.getElem_eq_getD 0] at hsplits
      exact ⟨ds, hds, e, carry, hdigit, hsplits⟩
  rw [ha.size_eq] at hsize
  choose! e carry hdigit hsplits using h
  refine ⟨Array.ofFn fun l : Fin g.digits => table.map (·.getD l 0), ?_, Array.size_ofFn, e, carry,
    fun l hl => ?_, fun i hi => hsplits i (hsize ▸ hi)⟩
  · rw [decompose, mapChecked, htable]
    rfl
  · have hl' : l < g.digits := by simpa using hl
    rw [Array.getElem_ofFn]
    refine ⟨.of_getElem (by simpa using hsize) fun i hi => ?_, fun i hi => ?_⟩
    · rw [Array.getElem_map, hdigit i (by simpa using hi) l hl']
      exact ofInt_lt _
    · have hit : i < table.size := hsize ▸ hi
      simpa [Array.getD_eq_getD_getElem?, hit] using hdigit i hit l hl'

theorem Valid.exists_decompose (hg : g.Valid) {n : ℕ} {a : Poly} (ha : g.modulus.Reduced n a) :
    ∃ rows, g.decompose a = .ok rows ∧ rows.size = g.digits ∧ ∃ e : ℕ → ℕ → ℤ,
      (∀ (l : ℕ) (hl : l < rows.size), g.modulus.Reduced n rows[l] ∧ ∀ i < n,
        (e l i).natAbs ≤ g.base / 2 ∧ g.modulus.entries rows[l] i = e l i) ∧
      ∀ i < n, g.modulus.entries a i =
        ∑ l ∈ range g.digits, (e l i : ZMod g.modulus.value) * g.base ^ l := by
  obtain ⟨rows, hrows, hsize, e, carry, hdigit, hsplits⟩ :=
    Gadget.exists_decompose hg.logBase_pos hg.logBase_lt ha
  refine ⟨rows, hrows, hsize, fun l i => e i l, fun l hl => ⟨(hdigit l hl).1, fun i hi => ?_⟩,
    fun i hi => ?_⟩
  · obtain ⟨hlow, hhigh⟩ := (hsplits i hi).digit l (hsize ▸ hl)
    rw [entries, (hdigit l hl).2 i hi, cast_ofInt]
    refine ⟨?_, rfl⟩
    change (e i l).natAbs ≤ g.base / 2
    omega
  · have hcarry := hg.carry_eq_zero (ha.getD_lt i) (hsplits i hi)
    rw [entries, ← cast_centered, (hsplits i hi).sum_eq, hcarry]
    push_cast
    ring

section Recompose

/-- Entry `i` of the rows, each row times its power of the base. -/
def recompose (g : Gadget) (rows : Array Poly) (i : ℕ) : ℕ :=
  ∑ l ∈ range g.digits, (rows.getD l #[]).getD i 0 * g.powers.getD l 0

/-- The carry that the digits of a residue leave, which is dropped: the positive centred residues beyond the
reach of the digits have one. -/
def carry (g : Gadget) (a : ℕ) : ℕ := if a ≤ g.modulus.value / 2 ∧ g.reach < a then 1 else 0

theorem base_eq (g : Gadget) : g.base = 2 ^ g.logBase := Nat.one_shiftLeft _

theorem half_base (g : Gadget) (hpos : 0 < g.logBase) : g.base / 2 = 2 ^ (g.logBase - 1) := by
  rw [base_eq, ← Nat.pow_pred_mul hpos]
  simp

theorem exists_check {q k : ℕ} (hone : 1 < q) (hlt : q < 2 ^ 62) (hpos : 1 ≤ k) (hk : k ≤ 62) :
    ∃ g, check q k = .ok g ∧ g.modulus.value = q ∧ g.logBase = k ∧ q < g.base ^ g.digits := by
  have hmodulus : Modulus.check q = .ok ⟨q, hone, by omega⟩ := dif_pos ⟨hone, by omega⟩
  refine ⟨⟨⟨q, hone, by omega⟩, k, (Word.bitLength q + k - 1) / k⟩, ?_, rfl, rfl, ?_⟩
  · rw [check, decide_eq_true ⟨hpos, by omega⟩, ensure_true, Checked.ok_bind, hmodulus]
    rfl
  · have hbits : Word.bitLength q = q.log2 + 1 := if_neg (by omega)
    have hdiv := Nat.div_add_mod (Word.bitLength q + k - 1) k
    have hmod := Nat.mod_lt (Word.bitLength q + k - 1) hpos
    rw [base_eq, ← pow_mul]
    calc q < 2 ^ (q.log2 + 1) := Nat.lt_log2_self
      _ ≤ 2 ^ (k * ((Word.bitLength q + k - 1) / k)) := Nat.pow_le_pow_right two_pos (by omega)

/-- The powers of the base go beyond the modulus. -/
theorem lt_of_check {q k : ℕ} (h : check q k = .ok g) : q < g.base ^ g.digits := by
  have hk : 0 < k ∧ k < 63 := by
    obtain ⟨_, hk, -⟩ := Checked.bind_eq_ok.1 h
    rwa [ensure_eq_ok, decide_eq_true_eq] at hk
  obtain rfl := modulus_of_check h
  obtain ⟨g', h', -, -, hdigits⟩ :=
    exists_check g.modulus.one_lt g.modulus.lt_bound hk.1 (Nat.le_of_lt_succ hk.2)
  obtain rfl : g = g' := Except.ok.inj (h.symm.trans h')
  exact hdigits

theorem cast_recompose {rows : Array Poly} {e : ℕ → ℤ} {i : ℕ}
    (h : ∀ l < g.digits, (rows.getD l #[]).getD i 0 = g.modulus.ofInt (e l)) :
    (g.recompose rows i : ZMod g.modulus.value) =
      ∑ l ∈ range g.digits, (e l : ZMod g.modulus.value) * g.base ^ l := by
  rw [recompose]
  push_cast
  apply sum_congr rfl
  intro l hl
  have hl' := mem_range.1 hl
  rw [h l hl', powers, powers_getD hl', cast_ofInt]
  simp

theorem Splits.carry_eq {a : ℕ} {e : ℕ → ℤ} {c : ℤ} (h : g.Splits (g.modulus.centered a) e c)
    (hpos : 0 < g.logBase) (hlt : g.logBase < 63) (hdigits : g.modulus.value < g.base ^ g.digits)
    (ha : a < g.modulus.value) : c = g.carry a := by
  have hsmall := natAbs_centered_le ha
  have htwice := g.two_mul_reach_lt hpos hlt
  have hcap : (g.modulus.value : ℤ) < (g.base : ℤ) ^ g.digits := by exact_mod_cast hdigits
  unfold carry
  split_ifs with hover
  · have hcentered : g.modulus.centered a = a := if_neg (by omega)
    rw [hcentered] at h
    exact h.carry_eq_one hpos hlt (by omega) (by omega)
  · refine h.carry_eq_zero hpos hlt (by omega) ?_
    unfold centered at hsmall ⊢
    split <;> omega

/-- The carry is that of the positive centred residues beyond the reach of the digits. -/
theorem carry_eq_ite {a : ℕ} (ha : a < g.modulus.value) :
    g.carry a = if (g.reach : ℤ) < g.modulus.centered a then 1 else 0 := by
  have hiff : (a ≤ g.modulus.value / 2 ∧ g.reach < a) ↔ (g.reach : ℤ) < g.modulus.centered a := by
    unfold centered
    split <;> omega
  rw [carry]
  exact if_congr hiff rfl rfl

theorem carry_mul_eq_zero_iff (g : Gadget) (a : ℕ) :
    ((g.carry a * g.base ^ g.digits : ℕ) : ZMod g.modulus.value) = 0 ↔
      g.carry a = 0 ∨ g.modulus.value ∣ g.base ^ g.digits := by
  rw [ZMod.natCast_eq_zero_iff]
  unfold carry
  split_ifs with hover <;> simp

theorem exists_decomposeInto (hpos : 0 < g.logBase) (hlt : g.logBase < 63) {n length : ℕ} {a : Poly}
    (ha : g.modulus.Reduced n a) (hlength : n ≤ length) :
    ∃ rows, g.decomposeInto g.digits length a = .ok rows ∧ rows.size = g.digits ∧
      ∃ (e : ℕ → ℕ → ℤ) (carry : ℕ → ℤ),
        (∀ i < n, ∀ l < g.digits, (rows.getD l #[]).getD i 0 = g.modulus.ofInt (e i l)) ∧
        ∀ i < n, g.Splits (g.modulus.centered (a.getD i 0)) (e i) (carry i) := by
  obtain ⟨rows, hrows, hsize, e, carry, hdigit, hsplits⟩ := exists_decompose hpos hlt ha
  refine ⟨rows.map (· ++ Array.replicate (length - a.size) 0), ?_, by simp [hsize], e, carry,
    fun i hi l hl => ?_, hsplits⟩
  · simp [decomposeInto, ha.size_eq, hlength, hrows]
  · obtain ⟨hrow, hentry⟩ := hdigit l (hsize ▸ hl)
    rw [← hentry i hi]
    simp [Array.getD_eq_getD_getElem?, Array.getElem?_append, hsize, hl, hrow.size_eq, hi]

/-- The digits of every reduced vector are balanced, and they recompose to it up to the carry out of the
last of them. -/
theorem recompose_decomposeInto {q k : ℕ} (hone : 1 < q) (hlt : q < 2 ^ 62) (hpos : 1 ≤ k)
    (hk : k ≤ 62) :
    ∃ g, check q k = .ok g ∧ g.modulus.value = q ∧ g.base = 2 ^ k ∧
      ∀ (a : Poly) (length : ℕ), (∀ x ∈ a, x < q) → a.size ≤ length →
        ∃ rows, g.decomposeInto g.digits length a = .ok rows ∧ rows.size = g.digits ∧
          ∀ i < a.size,
            (∀ l < g.digits, ∃ d : ℤ, -2 ^ (k - 1) ≤ d ∧ d < 2 ^ (k - 1) ∧
              (rows.getD l #[]).getD i 0 = g.modulus.ofInt d) ∧
            g.recompose rows i + g.carry (a.getD i 0) * g.base ^ g.digits ≡ a.getD i 0 [MOD q] ∧
            (g.recompose rows i ≡ a.getD i 0 [MOD q] ↔
              g.carry (a.getD i 0) = 0 ∨ q ∣ g.base ^ g.digits) := by
  obtain ⟨g, hcheck, rfl, rfl, hdigits⟩ := exists_check hone hlt hpos hk
  refine ⟨g, hcheck, rfl, g.base_eq, fun a length hreduced hsize => ?_⟩
  have ha : g.modulus.Reduced a.size a := ⟨rfl, hreduced⟩
  have hword : g.logBase < 63 := by omega
  obtain ⟨rows, hrows, hrows_size, e, carry, hentry, hsplits⟩ :=
    exists_decomposeInto hpos hword ha hsize
  refine ⟨rows, hrows, hrows_size, fun i hi => ?_⟩
  have hcarry := (hsplits i hi).carry_eq hpos hword hdigits (ha.getD_lt i)
  have hsum : ((g.recompose rows i + g.carry (a.getD i 0) * g.base ^ g.digits : ℕ) :
      ZMod g.modulus.value) = (a.getD i 0 : ℕ) := by
    rw [← cast_centered (a.getD i 0), (hsplits i hi).sum_eq, hcarry]
    push_cast
    rw [cast_recompose (hentry i hi)]
  refine ⟨fun l hl => ⟨e i l, ?_, ?_, hentry i hi l hl⟩, ?_, ?_⟩
  · have hlow := ((hsplits i hi).digit l hl).1
    rw [g.half_base hpos] at hlow
    exact_mod_cast hlow
  · have hhigh := ((hsplits i hi).digit l hl).2
    rw [g.half_base hpos] at hhigh
    exact_mod_cast hhigh
  · exact (ZMod.natCast_eq_natCast_iff _ _ _).1 hsum
  · rw [← ZMod.natCast_eq_natCast_iff, ← hsum, Nat.cast_add, left_eq_add, carry_mul_eq_zero_iff]

/-- Seven digits of two bits, with one residue whose carry is dropped, and a negative one. -/
theorem recompose_decomposeInto_narrow :
    (1 < 12289 ∧ 12289 < 2 ^ 62 ∧ (∀ x ∈ #[6000, 12288], x < 12289)) ∧
    ∃ g rows, check 12289 2 = .ok g ∧ g.decomposeInto g.digits 2 #[6000, 12288] = .ok rows ∧
      g.recompose rows 0 + g.base ^ g.digits ≡ 6000 [MOD 12289] ∧
      g.recompose rows 1 ≡ 12288 [MOD 12289] := by
  have hreduced : ∀ x ∈ #[6000, 12288], x < 12289 := by simp
  refine ⟨⟨by decide, by decide, hreduced⟩, ?_⟩
  obtain ⟨g, hcheck, -, -, h⟩ :=
    recompose_decomposeInto (q := 12289) (k := 2) (by decide) (by decide) (by decide) (by decide)
  obtain ⟨rows, hrows, -, hentry⟩ := h #[6000, 12288] 2 hreduced (by decide)
  have hg : ⟨⟨12289, by decide, by decide⟩, 2, 7⟩ = g := Except.ok.inj hcheck
  have hdropped : g.carry 6000 = 1 := by rw [← hg]; decide
  have hkept : g.carry 12288 = 0 := by rw [← hg]; decide
  refine ⟨g, rows, hcheck, hrows, ?_, (hentry 1 (by decide)).2.2.2 (.inl hkept)⟩
  have hsum : g.recompose rows 0 + g.carry 6000 * g.base ^ g.digits ≡ 6000 [MOD 12289] :=
    (hentry 0 (by decide)).2.1
  rwa [hdropped, one_mul] at hsum

/-- The residue 6000 is beyond the reach of the seven digits, which is 5461. -/
theorem exists_not_recompose :
    ∃ g rows, check 12289 2 = .ok g ∧ (∀ x ∈ #[6000], x < 12289) ∧
      g.decomposeInto g.digits 1 #[6000] = .ok rows ∧ ¬ g.recompose rows 0 ≡ 6000 [MOD 12289] :=
  ⟨⟨⟨12289, by decide, by decide⟩, 2, 7⟩, #[#[0], #[0], #[12288], #[12287], #[0], #[12287], #[12287]],
    rfl, by simp, by decide +kernel, by decide⟩

end Recompose

end LatticeGates.Gadget
