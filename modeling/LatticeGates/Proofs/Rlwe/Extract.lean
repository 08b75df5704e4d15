import LatticeGates.Proofs.Lwe.Decryption
import LatticeGates.Proofs.Ring.Product
import LatticeGates.Proofs.Rlwe.Phase

/-!
# Sample extraction

Main statement: the extracted ciphertext has the constant coefficient of the phase as its phase, under the
coefficients of the ring secret. One is an inner product of integers, the other is read off the values.
-/

namespace LatticeGates.Rlwe

open Finset Modulus Negacyclic

variable {ring : NegacyclicRing} {s : Lwe.Secret} {sk : Secret}

theorem Secret.element_eq (hr : ring.Valid) (hsk : Secret.ofLwe ring s = .ok sk) :
    sk.element ring = ofCoeffs fun i => (s.coefficient i : ZMod ring.modulus.value) := by
  obtain ⟨hcoefficients, hsize, -, -⟩ := Secret.ofLwe_eq_ok hr hsk
  refine ofCoeffs_congr fun i hi => ?_
  have his : i < s.coefficients.size := hsize ▸ hi
  rw [hcoefficients, entries_ofSigned his, Lwe.Secret.coefficient_of_lt his]

namespace Ciphertext

theorem exists_extracted {ct : Ciphertext} (hct : ct.Reduced ring) :
    ∃ r, ct.sampleExtract ring = .ok r ∧ r.Shaped ring.modulus ring.degree ∧ r.body = ct.body.getD 0 0 ∧
      ∀ j < ring.degree, ring.modulus.entries r.mask j =
        if j = 0 then ring.modulus.entries ct.mask 0
        else -ring.modulus.entries ct.mask (ring.degree - j) := by
  have hpos : 0 < ring.degree := NeZero.pos _
  obtain ⟨mask, hmask, hmask_red, hentries⟩ := exists_tabulate_residues hct.body.size_eq
    (f := fun j _ => if j = 0 then .ok (ct.mask.getD 0 0)
      else ring.modulus.neg (ct.mask.getD (ct.body.size - j) 0))
    (v := fun j => if j = 0 then ring.modulus.entries ct.mask 0
      else -ring.modulus.entries ct.mask (ring.degree - j)) fun j hj => by
    by_cases hzero : j = 0
    · exact ⟨_, if_pos hzero, hct.mask.getD_lt 0, by rw [if_pos hzero, entries]⟩
    · obtain ⟨x, hx, hlt, hcast⟩ := exists_neg (hct.mask.getD_lt (ct.body.size - j))
      refine ⟨x, by rw [if_neg hzero, hx], hlt, ?_⟩
      rw [if_neg hzero, hcast, hct.body.size_eq, entries]
  refine ⟨⟨mask, ct.body.getD 0 0, ring.modulus.value⟩, ?_, ⟨rfl, hmask_red, hct.body.getD_lt 0⟩, rfl,
    hentries⟩
  have hne : (ct.body.size != 0) = true := by
    rw [bne_iff_ne, hct.body.size_eq]
    omega
  simp only [sampleExtract, hne, ensure_true, Checked.ok_bind, hmask, Checked.pure_eq]

theorem exists_sampleExtract (hr : ring.Valid) (hsk : Secret.ofLwe ring s = .ok sk) {ct : Ciphertext}
    (hct : ct.Reduced ring) :
    ∃ r, ct.sampleExtract ring = .ok r ∧ r.Shaped ring.modulus ring.degree ∧
      (r.integerPhase s.coefficient : ZMod ring.modulus.value) =
        constant (ct.phaseElement ring (sk.element ring)) := by
  obtain ⟨r, hextract, hshaped, hbody, hentries⟩ := exists_extracted hct
  refine ⟨r, hextract, hshaped, ?_⟩
  rw [phaseElement, mul_comm, Secret.element_eq hr hsk, map_sub, NegacyclicRing.element,
    NegacyclicRing.element, constant_ofCoeffs, constant_ofCoeffs_mul,
    Lwe.Ciphertext.cast_integerPhase ring.modulus hshaped.mask.size_eq, hbody]
  congr 1
  apply sum_congr rfl
  intro i hi
  rw [hentries i (mem_range.1 hi), mul_comm]

theorem getD_phase_zero (hr : ring.Valid) (hsk : Secret.ofLwe ring s = .ok sk) {ct : Ciphertext}
    (hct : ct.Reduced ring) {p : Poly} {r : Lwe.Ciphertext} (hp : ct.phase ring sk = .ok p)
    (hextract : ct.sampleExtract ring = .ok r) : p.getD 0 0 = r.residuePhase s.coefficient := by
  obtain ⟨p', hp', hred, helement⟩ := exists_phase hr hsk hct
  obtain ⟨r', hextract', hshaped, hphase⟩ := exists_sampleExtract hr hsk hct
  obtain rfl := Except.ok.inj (hp'.symm.trans hp)
  obtain rfl := Except.ok.inj (hextract'.symm.trans hextract)
  have hread := hshaped.residue_modEq s.coefficient
  rw [← ZMod.intCast_eq_intCast_iff, Int.cast_natCast] at hread
  refine eq_of_cast_eq (hred.getD_lt 0) (hshaped.residue_lt _) ?_
  rw [hread, hphase, ← helement, NegacyclicRing.element, constant_ofCoeffs, entries]

/-- Both phases are computed, and the phase of the extracted ciphertext is the constant coefficient of the
phase, for every secret whose inner product with the mask stays in range. -/
theorem phase_sampleExtract {k n q : ℕ} (hn : n = 2 ^ k) (htwo : 2 ≤ n) (hq : q.Prime)
    (hlt : q < 0x4000000000000000) (hmod : q ≡ 1 [MOD 2 * n]) :
    ∃ ring, NegacyclicRing.check n q = .ok ring ∧ ring.degree = n ∧ ring.modulus.value = q ∧
      ∀ (s : Lwe.Secret) (ct : Ciphertext), s.dimension = n → ct.Reduced ring →
        ∃ sk p r, Secret.ofLwe ring s = .ok sk ∧ ct.phase ring sk = .ok p ∧ ring.modulus.Reduced n p ∧
          ct.sampleExtract ring = .ok r ∧ r.Shaped ring.modulus n ∧
          (s.InRange r.mask → r.phase s = .ok (p.getD 0 0)) := by
  obtain ⟨ring, hring⟩ := NegacyclicRing.exists_check hn htwo hq hlt hmod
  obtain ⟨hvalid, rfl, rfl, -⟩ := NegacyclicRing.check_valid hq hring
  refine ⟨ring, hring, rfl, rfl, fun s ct hdim hct => ?_⟩
  obtain ⟨sk, hsk⟩ := Secret.exists_ofLwe hvalid hdim
  obtain ⟨p, hp, hred, -⟩ := exists_phase hvalid hsk hct
  obtain ⟨r, hr, hshaped, -⟩ := exists_sampleExtract hvalid hsk hct
  refine ⟨sk, p, r, hsk, hp, hred, hr, hshaped, fun hrange => ?_⟩
  rw [getD_phase_zero hvalid hsk hct hp hr]
  exact Lwe.Ciphertext.Shaped.phase_of_inRange (hdim ▸ hshaped) hrange

/-- Modulo `X ^ 2 + 1` and `5`, the product of `3 + X` and `1 - X` is `4 - 2 X`, which leaves `3` of `2`. -/
theorem phase_sampleExtract_two : ∃ ring sk p r, NegacyclicRing.check 2 5 = .ok ring ∧
    Secret.ofLwe ring ⟨#[1, -1], .ternary⟩ = .ok sk ∧ phase ring ⟨#[3, 1], #[2, 4]⟩ sk = .ok p ∧
    sampleExtract ring ⟨#[3, 1], #[2, 4]⟩ = .ok r ∧ r.phase ⟨#[1, -1], .ternary⟩ = .ok (p.getD 0 0) ∧
    p.getD 0 0 = 3 := by
  have hmod : 5 ≡ 1 [MOD 2 * 2] := rfl
  obtain ⟨ring, hring, hdegree, hvalue, hphase⟩ :=
    phase_sampleExtract (k := 1) rfl le_rfl Nat.prime_five (by decide) hmod
  have hmodulus : ring.modulus = ⟨5, by decide, by decide⟩ := Modulus.value_injective hvalue
  have hct : Reduced ring ⟨#[3, 1], #[2, 4]⟩ := by
    constructor <;> exact ⟨hdegree.symm, by rw [hvalue]; decide⟩
  obtain ⟨sk, p, r, hsk, hp, -, hr, hshaped, hread⟩ := hphase ⟨#[1, -1], .ternary⟩ _ rfl hct
  have hextract : sampleExtract ring ⟨#[3, 1], #[2, 4]⟩ = .ok ⟨#[3, 4], 2, 5⟩ := by
    rw [sampleExtract, hmodulus]
    rfl
  have hternary : Lwe.Secret.Ternary ⟨#[1, -1], .ternary⟩ := by simp [Lwe.Secret.Ternary]
  have hread := hread (Lwe.Secret.inRange_of_natAbs_le hshaped.mask hternary.natAbs_le (by decide))
  refine ⟨ring, sk, p, r, hring, hsk, hp, hr, hread, ?_⟩
  obtain rfl := Except.ok.inj (hr.symm.trans hextract)
  exact Except.ok.inj (hread.symm.trans (by decide +kernel))

end Ciphertext

end LatticeGates.Rlwe
