import LatticeGates.Proofs.Gadget.Phases
import LatticeGates.Proofs.Ring.Product

/-!
# Decryption by the last row

The constant coefficient of the phase of the last row is the message times the greatest entry of the gadget, with an
error. Main statement: for every modulus, every base and every message, decryption returns the message exactly when
that number stays within half of the modulus. A base of `k` bits has room for one and minus one unless `k` divides the
position of the highest bit of the modulus.
-/

namespace LatticeGates

open Modulus NegacyclicRing

/-- The multiple of `w` next to `c`, divided by `w`; a half is rounded away from zero. -/
def nearest (c : ℤ) (w : ℕ) : ℤ := (c + c.sign * (w / 2 : ℕ)).tdiv w

section Nearest

variable {c m e : ℤ} {w : ℕ}

theorem nearest_neg (c : ℤ) (w : ℕ) : nearest (-c) w = -nearest c w := by
  rw [nearest, nearest, Int.sign_neg, neg_mul, ← neg_add, Int.neg_tdiv]

theorem nearest_of_nonneg (hc : 0 ≤ c) : nearest c w = if c = 0 then 0 else (c + (w / 2 : ℕ)) / w := by
  rcases hc.eq_or_lt with rfl | hpos
  · simp [nearest]
  · rw [if_neg hpos.ne', nearest, Int.sign_eq_one_of_pos hpos, one_mul, Int.tdiv_eq_ediv_of_nonneg (by omega)]

private theorem two_mul_abs_nearest_of_nonneg (hw : 0 < w) (hc : 0 ≤ c) : 2 * |nearest c w * w - c| ≤ w := by
  rw [nearest_of_nonneg hc]
  split
  · next hzero => simp [hzero]
  · have hdiv := Int.ediv_mul_add_emod (c + (w / 2 : ℕ)) w
    have hnonneg := Int.emod_nonneg (c + (w / 2 : ℕ)) (show (w : ℤ) ≠ 0 by omega)
    have hlt := Int.emod_lt_of_pos (c + (w / 2 : ℕ)) (show (0 : ℤ) < w by omega)
    generalize (c + (w / 2 : ℕ)) / (w : ℤ) * w = v at hdiv ⊢
    rw [← abs_two, ← abs_mul, abs_le]
    omega

theorem two_mul_abs_nearest_sub_le (hw : 0 < w) (c : ℤ) : 2 * |nearest c w * w - c| ≤ w := by
  obtain hc | hc := le_total 0 c
  · exact two_mul_abs_nearest_of_nonneg hw hc
  · have hneg := two_mul_abs_nearest_of_nonneg hw (Int.neg_nonneg_of_nonpos hc)
    rwa [nearest_neg, neg_mul, ← neg_sub', abs_neg] at hneg

theorem nearest_of_near (he : 2 * |e| < w) : nearest (m * w + e) w = m := by
  have hnonneg := abs_nonneg e
  have hw : 0 < w := by omega
  have hround := two_mul_abs_nearest_sub_le hw (m * w + e)
  have hdiff : |nearest (m * w + e) w - m| * w < 1 * w := by
    have htriangle := abs_add_le (nearest (m * w + e) w * w - (m * w + e)) e
    rw [← Nat.abs_cast w, ← abs_mul, Nat.abs_cast]
    calc |(nearest (m * w + e) w - m) * w| = |nearest (m * w + e) w * w - (m * w + e) + e| := by ring_nf
      _ < 1 * w := by omega
  have hlt := lt_of_mul_lt_mul_right hdiff (by omega)
  rwa [Int.abs_lt_one_iff, sub_eq_zero] at hlt

end Nearest

namespace Modulus

variable {q : Modulus} {a w : ℕ} {x m e : ℤ}

theorem centered_eq_of_near (hx : (a : ZMod q.value) = x) (hnear : |q.centered a - x| < q.value) :
    q.centered a = x := by
  have hclass : (q.centered a : ZMod q.value) = x := (cast_centered a).trans hx
  obtain ⟨k, hk⟩ := (ZMod.intCast_eq_intCast_iff_dvd_sub _ _ _).1 hclass
  rw [abs_sub_comm, hk, abs_mul, Nat.abs_cast] at hnear
  have hlt := lt_of_mul_lt_mul_left (hnear.trans_eq (mul_one _).symm) (by omega)
  rw [Int.abs_lt_one_iff] at hlt
  rw [hlt, mul_zero, sub_eq_zero] at hk
  exact hk.symm

/-- The message is found exactly when it does not wrap around the modulus. -/
theorem nearest_centered_eq_iff (hodd : Odd q.value) (ha : a < q.value) (hw : w ≤ q.value) (he : 2 * |e| < w)
    (hx : (a : ZMod q.value) = (m * w + e : ℤ)) :
    nearest (q.centered a) w = m ↔ 2 * |m * w + e| < q.value := by
  have hnonneg := abs_nonneg e
  have hcentered : 2 * |q.centered a| ≤ q.value := by
    have := natAbs_centered_le ha
    rw [Int.abs_eq_natAbs]
    omega
  obtain ⟨half, hhalf⟩ := hodd
  constructor
  · intro hround
    have hstep := two_mul_abs_nearest_sub_le (show 0 < w by omega) (q.centered a)
    rw [hround, abs_sub_comm] at hstep
    have htriangle := abs_sub_le (q.centered a) (m * w) (m * w + e)
    rw [show m * w - (m * w + e) = -e by ring, abs_neg] at htriangle
    rw [← centered_eq_of_near hx (by omega)]
    omega
  · intro hfits
    have htriangle := abs_sub (q.centered a) (m * w + e)
    rw [centered_eq_of_near hx (by omega), nearest_of_near he]

end Modulus

namespace Gadget

variable {g : Gadget} {q k : ℕ}

def weight (g : Gadget) : ℕ := g.base ^ (g.digits - 1)

theorem digits_of_check (h : check q k = .ok g) : g.logBase = k ∧ g.digits = q.log2 / k + 1 := by
  have hone : 1 < q := modulus_of_check h ▸ g.modulus.one_lt
  obtain ⟨hk, -⟩ := logBase_of_check h
  obtain ⟨_, -, h⟩ := Checked.bind_eq_ok.1 h
  obtain ⟨modulus, -, h⟩ := Checked.bind_eq_ok.1 h
  cases h
  have hbits : Word.bitLength q = q.log2 + 1 := if_neg (by omega)
  refine ⟨rfl, ?_⟩
  rw [hbits, show q.log2 + 1 + k - 1 = q.log2 + k by omega, Nat.add_div_right _ hk]

theorem digits_pos (h : check q k = .ok g) : 0 < g.digits := by
  rw [(digits_of_check h).2]
  exact Nat.succ_pos _

theorem weight_eq (h : check q k = .ok g) : g.weight = 2 ^ (k * (q.log2 / k)) := by
  obtain ⟨hk, hdigits⟩ := digits_of_check h
  rw [weight, base_eq, hk, hdigits, Nat.add_sub_cancel, ← pow_mul]

theorem weight_le (h : check q k = .ok g) : g.weight ≤ 2 ^ q.log2 := by
  rw [weight_eq h]
  exact Nat.pow_le_pow_right two_pos (Nat.mul_div_le _ _)

theorem weight_lt (h : check q k = .ok g) (hodd : Odd q) : g.weight < q := by
  have hone : 1 < q := modulus_of_check h ▸ g.modulus.one_lt
  refine lt_of_le_of_ne ((weight_le h).trans (Nat.log2_self_le (by omega))) fun heq => ?_
  rw [← heq, weight_eq h] at hodd hone
  exact Nat.not_odd_iff_even.2 (even_two.pow_of_ne_zero fun hzero => by simp [hzero] at hone) hodd

/-- The greatest entry is below half of the modulus, unless the base has a power with the bits of the modulus. -/
theorem two_mul_weight_lt_iff (h : check q k = .ok g) (hodd : Odd q) : 2 * g.weight < q ↔ ¬k ∣ q.log2 := by
  have hone : 1 < q := modulus_of_check h ▸ g.modulus.one_lt
  rw [weight_eq h]
  constructor
  · intro hfits hdvd
    rw [Nat.mul_div_cancel' hdvd, ← pow_succ'] at hfits
    exact absurd Nat.lt_log2_self (Nat.lt_asymm hfits)
  · intro hdvd
    have hlt : k * (q.log2 / k) < q.log2 :=
      lt_of_le_of_ne (Nat.mul_div_le _ _) fun heq => hdvd ⟨_, heq.symm⟩
    have hle : 2 * 2 ^ (k * (q.log2 / k)) ≤ q := by
      rw [← pow_succ']
      exact (Nat.pow_le_pow_right two_pos hlt).trans (Nat.log2_self_le (by omega))
    refine lt_of_le_of_ne hle fun heq => ?_
    exact Nat.not_odd_iff_even.2 (heq ▸ even_two_mul _) hodd

theorem two_mul_abs_weight_lt_iff (h : check q k = .ok g) (hodd : Odd q) {m : ℤ} (hm : m.natAbs ≤ 1) :
    2 * |m * g.weight| < q ↔ m = 0 ∨ ¬k ∣ q.log2 := by
  have hone : 1 < q := modulus_of_check h ▸ g.modulus.one_lt
  rw [← two_mul_weight_lt_iff h hodd, abs_mul, Nat.abs_cast, Int.abs_eq_natAbs]
  obtain hzero | hunit : m.natAbs = 0 ∨ m.natAbs = 1 := by omega
  · rw [hzero]
    simp [Int.natAbs_eq_zero.1 hzero, show 0 < q by omega]
  · rw [hunit, Nat.cast_one, one_mul]
    have hm : m ≠ 0 := by omega
    simp only [hm, false_or]
    omega

theorem powers_getElem? (h : check q k = .ok g) (hodd : Odd q) : g.powers[g.digits - 1]? = some g.weight := by
  have hlt : g.digits - 1 < g.digits := Nat.sub_one_lt_of_lt (digits_pos h)
  rw [powers, powers_eq, Array.getElem?_map, Array.getElem?_range, if_pos hlt, Option.map_some, Nat.pow_mod,
    Nat.mod_mod, ← Nat.pow_mod, ← weight, modulus_of_check h, Nat.mod_eq_of_lt (weight_lt h hodd)]

end Gadget

namespace Rgsw

variable {ring : NegacyclicRing} {g : Gadget} {q k : ℕ} {sk : Rlwe.Secret} {z : ring.Element} {m : ℤ} {x : Rgsw}
  {e : ℕ → ring.Element}

/-- Decryption rounds the message times the greatest entry, with the constant coefficient of the last error. -/
theorem EncryptsWith.exists_decrypt (hr : ring.Valid) (hgadget : Gadget.check q k = .ok g) (hodd : Odd q)
    (hsk : ring.Takes sk.values (evalHom hr.evaluates z))
    (hx : EncryptsWith hr.evaluates g z m e x) :
    ∃ a < ring.modulus.value, decrypt ring g x sk = .ok (nearest (ring.modulus.centered a) g.weight) ∧
      (a : ZMod ring.modulus.value) = m * g.weight + Negacyclic.constant (e (2 * g.digits - 1)) := by
  have hdigits := Gadget.digits_pos hgadget
  have hsize := hx.size_eq
  have hd : x.digits = g.digits := by
    rw [digits, hsize]
    omega
  have hlast : 2 * g.digits - 1 < x.rows.size := by omega
  have hrow := hx.row _ hlast
  obtain ⟨phase, hphase, htakes⟩ :=
    Takes.exists_sub ⟨hrow.reduced.body, rfl⟩ (Takes.mul ⟨hrow.reduced.mask, rfl⟩ hsk)
  obtain ⟨p, hp, hred, hvalues⟩ := exists_backward hr htakes.reduced
  have helement : ring.element p = gadgetPhase g z m (2 * g.digits - 1) + e (2 * g.digits - 1) := by
    apply valuesHom_injective hr
    rw [hvalues, htakes.values_eq]
    exact hrow.values_eq
  have hgadgetPhase : gadgetPhase g z m (2 * g.digits - 1) = ((m * g.weight : ℤ) : ring.Element) := by
    rw [gadgetPhase, if_neg (by omega), show 2 * g.digits - 1 - g.digits = g.digits - 1 by omega, Gadget.weight]
    push_cast
    rfl
  refine ⟨p.getD 0 0, hred.getD_lt 0, ?_, ?_⟩
  · have hback : x.rows.back? = some x.rows[2 * g.digits - 1] := by
      rw [Array.back?, hsize, Array.getElem?_eq_getElem hlast]
    have hweight : (g.weight != 0) = true := by
      rw [bne_iff_ne, Gadget.weight_eq hgadget]
      positivity
    simp only [decrypt, hback, hphase, hp, hd, Gadget.powers_getElem? hgadget hodd, center_of_lt (hred.getD_lt 0),
      hweight, ensure_true, Checked.ok_bind, Checked.pure_eq, nearest]
  · have hconstant := congrArg Negacyclic.constant helement
    rw [hgadgetPhase, map_add, Negacyclic.constant_intCast, element, Negacyclic.constant_ofCoeffs, entries]
      at hconstant
    rw [hconstant]
    push_cast
    rfl

section Assembled

variable {n : ℕ} {s : Lwe.Secret} {masks : Array Poly} {errors : Array (Array ℤ)} {c : ℤ}

/-- An encryption is decrypted to its message exactly when the message times the greatest entry, with the error of the
last row, stays within half of the modulus. Without an error, one and minus one are lost just where the base has a
power with as many bits as the modulus. -/
theorem decrypt_assemble_eq_iff (hq : q.Prime) (hring : NegacyclicRing.check n q = .ok ring)
    (hgadget : Gadget.check q k = .ok g) (hsk : Rlwe.Secret.ofLwe ring s = .ok sk) (hx : x.Shaped ring g.digits)
    (hmasks : ∀ l < 2 * g.digits, ring.modulus.Reduced ring.degree (masks.getD l #[]))
    (herrors : ∀ l < 2 * g.digits, (errors.getD l #[]).size = ring.degree)
    (hc : (errors.getD (2 * g.digits - 1) #[]).getD 0 0 = c) (hsmall : 2 * |c| < g.base ^ (g.digits - 1)) (m : ℤ) :
    ∃ y v, assemble ring g x sk m masks errors = .ok y ∧ decrypt ring g y sk = .ok v ∧
      (v = m ↔ 2 * |m * g.base ^ (g.digits - 1) + c| < q) ∧
      (c = 0 → m.natAbs ≤ 1 → (v = m ↔ m = 0 ∨ ¬k ∣ q.log2)) ∧
      ∀ sigma maskSource maskRest errorSource errorRest,
        Stream.replicate (2 * g.digits) (Stream.residues ring.modulus ring.degree) maskSource =
          .ok (masks, maskRest) →
        Stream.replicate (2 * g.digits) (Stream.gaussians sigma ring.degree) errorSource =
          .ok (errors, errorRest) →
        encrypt ring g x sk m sigma maskSource errorSource = .ok (y, maskRest, errorRest) := by
  obtain ⟨hr, -, hvalue, ⟨i, hi⟩, -⟩ := NegacyclicRing.check_valid hq hring
  have hodd : Odd q := by
    rw [mul_assoc] at hi
    exact ⟨n * i, by have := hq.one_lt; omega⟩
  have hm : g.modulus = ring.modulus :=
    Modulus.value_injective ((Gadget.modulus_of_check hgadget).trans hvalue.symm)
  obtain ⟨-, -, hred, htakes⟩ := Rlwe.Secret.ofLwe_eq_ok hr hsk
  obtain ⟨y, hy, hrows⟩ := exists_assemble hm hx ⟨hred, htakes⟩ m hmasks herrors
  obtain ⟨a, ha, hdecrypt, hphase⟩ :=
    hrows.encryptsWith_lead.exists_decrypt hr hgadget hodd ⟨hred, htakes⟩
  have hpos := Gadget.digits_pos hgadget
  have hconstant : (a : ZMod ring.modulus.value) = (m * g.weight + c : ℤ) := by
    rw [hphase, signed_eq (herrors _ (by omega)), Negacyclic.constant_ofCoeffs, hc]
    push_cast
    rfl
  have hiff := nearest_centered_eq_iff (hvalue.symm ▸ hodd) ha (hvalue.symm ▸ (Gadget.weight_lt hgadget hodd).le)
    (by exact_mod_cast hsmall) hconstant
  rw [hvalue, Gadget.weight, Nat.cast_pow] at hiff
  refine ⟨y, _, hy, hdecrypt, hiff, fun hzero hternary => ?_, ?_⟩
  · subst hzero
    rw [add_zero] at hiff
    have hternary := Gadget.two_mul_abs_weight_lt_iff hgadget hodd hternary
    rw [Gadget.weight, Nat.cast_pow] at hternary
    exact hiff.trans hternary
  · intro sigma maskSource maskRest errorSource errorRest hmaskDraws herrorDraws
    rw [encrypt_eq hx, hmaskDraws, Checked.ok_bind, herrorDraws, Checked.ok_bind, hy]
    rfl

/-- Modulo `17`, without errors: with a base of three bits a one is found, with a base of one bit it is lost. -/
theorem decrypt_assemble_seventeen : ∃ (ring : NegacyclicRing) (sk : Rlwe.Secret) (g g' : Gadget)
    (y y' : Rgsw) (v : ℤ),
    NegacyclicRing.check 2 17 = .ok ring ∧ Rlwe.Secret.ofLwe ring ⟨#[1, -1], .ternary⟩ = .ok sk ∧
    Gadget.check 17 3 = .ok g ∧ Gadget.check 17 1 = .ok g' ∧
    assemble ring g (zero 2 2) sk 1 (.replicate 4 #[3, 1]) (.replicate 4 #[0, 0]) = .ok y ∧
    decrypt ring g y sk = .ok 1 ∧
    assemble ring g' (zero 2 5) sk 1 (.replicate 10 #[3, 1]) (.replicate 10 #[0, 0]) = .ok y' ∧
    decrypt ring g' y' sk = .ok v ∧ v ≠ 1 := by
  have hprime : Nat.Prime 17 := by norm_num
  obtain ⟨ring, hring⟩ :=
    NegacyclicRing.exists_check (k := 1) (n := 2) (q := 17) rfl le_rfl hprime (by decide) rfl
  obtain ⟨hr, hdegree, hvalue, -⟩ := NegacyclicRing.check_valid hprime hring
  obtain ⟨sk, hsk⟩ := Rlwe.Secret.exists_ofLwe (s := ⟨#[1, -1], .ternary⟩) hr hdegree.symm
  let g : Gadget := ⟨⟨17, by decide, by decide⟩, 3, 2⟩
  let g' : Gadget := ⟨⟨17, by decide, by decide⟩, 1, 5⟩
  have hg : Gadget.check 17 3 = .ok g := by decide
  have hg' : Gadget.check 17 1 = .ok g' := by decide
  have hentry {α : Type} {d l : ℕ} (a b : α) (hl : l < d) : (Array.replicate d a).getD l b = a := by
    simp [Array.getD_eq_getD_getElem?, hl]
  have hmasks (d : ℕ) : ∀ l < d, ring.modulus.Reduced ring.degree ((Array.replicate d #[3, 1]).getD l #[]) := by
    intro l hl
    rw [hentry _ _ hl]
    exact ⟨hdegree.symm, by rw [hvalue]; decide⟩
  have herrors (d : ℕ) : ∀ l < d, ((Array.replicate d #[(0 : ℤ), 0]).getD l #[]).size = ring.degree := by
    intro l hl
    rw [hentry _ _ hl]
    exact hdegree.symm
  obtain ⟨y, v, hy, hv, -, hkept, -⟩ := decrypt_assemble_eq_iff hprime hring hg hsk
    (shaped_zero g.digits) (hmasks _) (herrors _) (c := 0) (by decide) (by decide) 1
  obtain ⟨y', v', hy', hv', -, hlost, -⟩ := decrypt_assemble_eq_iff hprime hring hg' hsk
    (shaped_zero g'.digits) (hmasks _) (herrors _) (c := 0) (by decide) (by decide) 1
  rw [hdegree] at hy hy'
  have hlog : Nat.log2 17 = 4 := by decide
  rw [hlog] at hkept hlost
  obtain rfl : v = 1 := (hkept rfl le_rfl).2 (by decide)
  exact ⟨ring, sk, g, g', y, y', v', hring, hsk, hg, hg', hy, hv, hy', hv',
    fun h => absurd ((hlost rfl le_rfl).1 h) (by decide)⟩

end Assembled

end Rgsw

end LatticeGates
