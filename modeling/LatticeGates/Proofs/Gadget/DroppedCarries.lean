import LatticeGates.Proofs.Gadget.Phases
import LatticeGates.Proofs.Ring.Product

/-!
# The external product with its dropped carries

Main statement: for every gadget, the phase of an external product is `m` times the phase of the ciphertext less
what the dropped carries stand for, and the errors of the rows times the digits. Nothing is rounded here: where the
digits reach every residue, no carry is dropped.
-/

namespace LatticeGates

open Finset Modulus Negacyclic NegacyclicRing

variable {ring : NegacyclicRing} {g : Gadget} {q k : ℕ}

namespace Gadget

private theorem exists_digitRows (hgadget : check q k = .ok g) {n : ℕ} {a : Poly} (ha : g.modulus.Reduced n a) :
    ∃ digits, g.decompose a = .ok digits ∧ digits.size = g.digits ∧
      (∀ (l : ℕ) (hl : l < digits.size), g.modulus.Reduced n digits[l]) ∧ ∀ i < n,
        g.modulus.entries a i =
          ∑ l ∈ range g.digits, g.modulus.entries (digits.getD l #[]) i * (g.base : ZMod g.modulus.value) ^ l +
            ((g.base ^ g.digits : ℕ) : ZMod g.modulus.value) * (g.carry (a.getD i 0) : ℕ) := by
  obtain ⟨hpos, hlt⟩ := logBase_of_check hgadget
  have hpower : g.modulus.value < g.base ^ g.digits := by
    rw [modulus_of_check hgadget]
    exact lt_of_check hgadget
  obtain ⟨digits, hdigits, hsize, e, carry, hdigit, hsplits⟩ := exists_decompose hpos hlt ha
  refine ⟨digits, hdigits, hsize, fun l hl => (hdigit l hl).1, fun i hi => ?_⟩
  have hcarry := (hsplits i hi).carry_eq hpos hlt hpower (ha.getD_lt i)
  have hentry : ∀ l ∈ range g.digits, g.modulus.entries (digits.getD l #[]) i = e i l := by
    intro l hl
    have hl' : l < digits.size := hsize ▸ mem_range.1 hl
    rw [← Array.getElem_eq_getD (h := hl'), entries, (hdigit l hl').2 i hi, cast_ofInt]
  rw [sum_congr rfl fun l hl => by rw [hentry l hl], entries, ← cast_centered, (hsplits i hi).sum_eq, hcarry]
  push_cast
  ring

/-- The carries that the digits of a polynomial leave, which are dropped: one for each centred coefficient beyond
the greatest number of so many digits. -/
noncomputable def dropped (ring : NegacyclicRing) (g : Gadget) (a : Poly) : ring.Element :=
  ofCoeffs fun i =>
    if (((g.base / 2 - 1) * (g.base ^ g.digits - 1) / (g.base - 1) : ℕ) : ℤ) < ring.modulus.centered (a.getD i 0)
    then 1 else 0

/-- A polynomial is the sum of its digit polynomials, each times its power of the base, and of the carries that
are dropped. -/
theorem exists_decompose_dropped (hgadget : check q k = .ok g) (hm : g.modulus = ring.modulus) {a : Poly}
    (ha : ring.modulus.Reduced ring.degree a) :
    ∃ digits, g.decompose a = .ok digits ∧ digits.size = g.digits ∧
      (∀ (l : ℕ) (hl : l < digits.size), ring.modulus.Reduced ring.degree digits[l]) ∧
      ring.element a = ∑ l ∈ range g.digits, ring.element (digits.getD l #[]) * (g.base : ring.Element) ^ l +
        (g.base : ring.Element) ^ g.digits * dropped ring g a := by
  obtain ⟨hpos, hlt⟩ := logBase_of_check hgadget
  obtain ⟨digits, hdigits, hsize, hred, hentries⟩ := exists_digitRows hgadget (hm ▸ ha)
  rw [hm] at hred hentries
  refine ⟨digits, hdigits, hsize, hred, ?_⟩
  have hdropped : ofCoeffs (fun i => ((g.carry (a.getD i 0) : ℕ) : ZMod ring.modulus.value)) = dropped ring g a := by
    refine ofCoeffs_congr fun i _ => ?_
    rw [carry_eq_ite (hm ▸ ha.getD_lt i), g.reach_eq hpos hlt, hm]
    split <;> simp
  rw [← hdropped, element, ofCoeffs_congr hentries, ofCoeffs_add, ofCoeffs_recompose, ofCoeffs_mul, map_natCast,
    Nat.cast_pow]
  rfl

end Gadget

namespace Rgsw

variable {z : ring.Element} {m : ℤ} {e : ℕ → ring.Element} {x : Rgsw} {ct : Rlwe.Ciphertext}

private theorem EncryptsWith.exists_halves (hr : ring.Valid) (hx : EncryptsWith hr.evaluates g z m e x) :
    ∃ A B : ℕ → ring.Element,
      (∀ (l : ℕ) (hl : l < x.rows.size), ring.Holds hr x.rows[l].mask (A l)) ∧
      (∀ (l : ℕ) (hl : l < x.rows.size), ring.Holds hr x.rows[l].body (B l)) ∧ ∀ l < g.digits,
        B l - A l * z = -((m : ring.Element) * (g.base : ring.Element) ^ l) * z + e l ∧
        B (g.digits + l) - A (g.digits + l) * z =
          (m : ring.Element) * (g.base : ring.Element) ^ l + e (g.digits + l) := by
  have hsize := hx.size_eq
  obtain ⟨A, B, hA, hB, hp⟩ :=
    exists_holds_rows hr fun l hl => ⟨(hx.row l hl).reduced, (hx.row l hl).rowPhase hr⟩
  refine ⟨A, B, hA, hB, fun l hl => ⟨?_, ?_⟩⟩
  · rw [hp l (by omega), gadgetPhase, if_pos hl]
  · rw [hp (g.digits + l) (by omega), gadgetPhase, if_neg (by omega), Nat.add_sub_cancel_left]

private theorem EncryptsWith.exists_externalProduct (hr : ring.Valid) (hgadget : Gadget.check q k = .ok g)
    (hm : g.modulus = ring.modulus) (hx : EncryptsWith hr.evaluates g z m e x) (hct : ct.Reduced ring) :
    ∃ r maskDigits bodyDigits, externalProduct ring g x ct = .ok r ∧ r.Reduced ring ∧
      g.decompose ct.mask = .ok maskDigits ∧ g.decompose ct.body = .ok bodyDigits ∧
      r.phaseElement ring z = (m : ring.Element) * (ct.phaseElement ring z - (g.base : ring.Element) ^ g.digits *
          (g.dropped ring ct.body - g.dropped ring ct.mask * z)) +
        ∑ l ∈ range g.digits, (ring.element (maskDigits.getD l #[]) * e l +
          ring.element (bodyDigits.getD l #[]) * e (g.digits + l)) := by
  have hd : x.digits = g.digits := by
    rw [digits, hx.size_eq]
    omega
  obtain ⟨maskDigits, hmask, hmaskSize, hmaskRed, hmaskSum⟩ :=
    Gadget.exists_decompose_dropped hgadget hm hct.mask
  obtain ⟨bodyDigits, hbody, hbodySize, hbodyRed, hbodySum⟩ :=
    Gadget.exists_decompose_dropped hgadget hm hct.body
  obtain ⟨maskValues, hmaskValues, hmaskValuesSize, hu⟩ :=
    exists_digitValues_of_decompose hr.evaluates hct.mask.size_eq hmask hmaskRed
  obtain ⟨bodyValues, hbodyValues, hbodyValuesSize, hv⟩ :=
    exists_digitValues_of_decompose hr.evaluates hct.body.size_eq hbody hbodyRed
  obtain ⟨A, B, hA, hB, hrows⟩ := hx.exists_halves hr
  obtain ⟨sum, hsum, hsumMask, hsumBody⟩ := exists_combine hx.size_eq (hmaskValuesSize.trans hmaskSize)
    (hbodyValuesSize.trans hbodySize) (fun l hl => ⟨(hu l hl).1, (hu l hl).2⟩)
    (fun l hl => ⟨(hv l hl).1, (hv l hl).2⟩) hA hB
  obtain ⟨mask, hbackMask, hredMask, hmaskElement⟩ := hsumMask.backward
  obtain ⟨body, hbackBody, hredBody, hbodyElement⟩ := hsumBody.backward
  refine ⟨⟨mask, body⟩, maskDigits, bodyDigits, ?_, ⟨hredMask, hredBody⟩, hmask, hbody, ?_⟩
  · simp [externalProduct, hd, hmaskValues, hbodyValues, hsum, hbackMask, hbackBody]
  · rw [Rlwe.Ciphertext.phaseElement, hmaskElement, hbodyElement, phase_combination hrows,
      Rlwe.Ciphertext.phaseElement, hmaskSum, hbodySum]
    ring

/-- The phase of an external product is `m` times the phase of the ciphertext less what the dropped carries stand
for, and the errors of the rows times the digits. -/
theorem phase_externalProduct {n : ℕ} {s : Lwe.Secret} {sk : Rlwe.Secret} (hq : q.Prime)
    (hring : NegacyclicRing.check n q = .ok ring) (hgadget : Gadget.check q k = .ok g)
    (hsk : Rlwe.Secret.ofLwe ring s = .ok sk)
    (hx : EncryptsWith (check_evaluates hring) g (sk.element ring) m e x) (hct : ct.Reduced ring) :
    ∃ r maskDigits bodyDigits φ ψ, externalProduct ring g x ct = .ok r ∧ r.Reduced ring ∧
      g.decompose ct.mask = .ok maskDigits ∧ g.decompose ct.body = .ok bodyDigits ∧
      ct.phase ring sk = .ok φ ∧ r.phase ring sk = .ok ψ ∧
      ring.element ψ = (m : ring.Element) * (ring.element φ - (g.base : ring.Element) ^ g.digits *
          (g.dropped ring ct.body - g.dropped ring ct.mask * sk.element ring)) +
        ∑ l ∈ range g.digits, (ring.element (maskDigits.getD l #[]) * e l +
          ring.element (bodyDigits.getD l #[]) * e (g.digits + l)) := by
  obtain ⟨hr, -, hvalue, -⟩ := NegacyclicRing.check_valid hq hring
  have hm : g.modulus = ring.modulus :=
    Modulus.value_injective ((Gadget.modulus_of_check hgadget).trans hvalue.symm)
  obtain ⟨r, maskDigits, bodyDigits, hr', hred, hmask, hbody, hphase⟩ :=
    EncryptsWith.exists_externalProduct hr hgadget hm hx hct
  obtain ⟨φ, hφ, -, hφelement⟩ := Rlwe.Ciphertext.exists_phase hr hsk hct
  obtain ⟨ψ, hψ, -, hψelement⟩ := Rlwe.Ciphertext.exists_phase hr hsk hred
  exact ⟨r, maskDigits, bodyDigits, φ, ψ, hr', hred, hmask, hbody, hφ, hψ, by rw [hψelement, hφelement, hphase]⟩

/-- Three digits of one bit each modulo `5`: the digits are `-1` and `0`, and each of the coefficients `1` and `2`
leaves a carry. -/
theorem phase_externalProduct_two : ∃ (ring : NegacyclicRing) (hring : NegacyclicRing.check 2 5 = .ok ring)
    (g : Gadget) (sk : Rlwe.Secret) (errors : Array (Array ℤ)) (x : Rgsw) (r : Rlwe.Ciphertext) (φ ψ : Poly),
    Gadget.check 5 1 = .ok g ∧ Rlwe.Secret.ofLwe ring ⟨#[1, -1], .ternary⟩ = .ok sk ∧
    errors = #[#[1, 0], #[0, -1], #[2, 1], #[0, 0], #[-1, 1], #[1, 1]] ∧
    EncryptsWith (check_evaluates hring) g (sk.element ring) 3 (fun l => ring.signed (errors.getD l #[])) x ∧
    externalProduct ring g x ⟨#[1, 4], #[0, 2]⟩ = .ok r ∧
    Rlwe.Ciphertext.phase ring ⟨#[1, 4], #[0, 2]⟩ sk = .ok φ ∧ r.phase ring sk = .ok ψ ∧
    ring.element ψ = 3 * (ring.element φ -
        2 ^ 3 * (ring.element #[0, 1] - ring.element #[1, 0] * sk.element ring)) +
      ∑ l ∈ range 3, (ring.element (#[#[4, 4], #[4, 0], #[4, 0]].getD l #[]) * ring.signed (errors.getD l #[]) +
        ring.element (#[#[0, 0], #[0, 4], #[0, 4]].getD l #[]) * ring.signed (errors.getD (3 + l) #[])) := by
  obtain ⟨ring, hring⟩ := NegacyclicRing.exists_check (k := 1) (n := 2) (q := 5) rfl le_rfl Nat.prime_five
    (by decide) rfl
  obtain ⟨hr, hdegree, hvalue, -⟩ := NegacyclicRing.check_valid Nat.prime_five hring
  let g : Gadget := ⟨⟨5, by decide, by decide⟩, 1, 3⟩
  have hgadget : Gadget.check 5 1 = .ok g := by decide
  have hm : g.modulus = ring.modulus := Modulus.value_injective hvalue.symm
  obtain ⟨sk, hsk⟩ := Rlwe.Secret.exists_ofLwe (s := ⟨#[1, -1], .ternary⟩) hr hdegree.symm
  obtain ⟨-, -, hred, htakes⟩ := Rlwe.Secret.ofLwe_eq_ok hr hsk
  let errors : Array (Array ℤ) := #[#[1, 0], #[0, -1], #[2, 1], #[0, 0], #[-1, 1], #[1, 1]]
  have hreduced {a : Poly} (hsize : a.size = 2) (hlt : ∀ c ∈ a, c < 5) :
      ring.modulus.Reduced ring.degree a := ⟨hsize.trans hdegree.symm, by rwa [hvalue]⟩
  have hmasks : ∀ l < 2 * g.digits, ring.modulus.Reduced ring.degree
      ((Array.replicate 6 #[3, 1]).getD l #[]) := by
    intro l hl
    have hmask : (Array.replicate 6 #[3, 1]).getD l #[] = #[3, 1] := by
      have hl : l < 6 := hl
      simp [Array.getD_eq_getD_getElem?, hl]
    rw [hmask]
    exact hreduced rfl (by decide)
  have herrors : ∀ l < 2 * g.digits, (errors.getD l #[]).size = ring.degree := by
    rw [hdegree]
    decide
  obtain ⟨x, -, hrows⟩ := exists_assemble hm (shaped_zero g.digits) ⟨hred, htakes⟩ 3 hmasks herrors
  have hx := hrows.encryptsWith_lead
  have hct : Rlwe.Ciphertext.Reduced ring ⟨#[1, 4], #[0, 2]⟩ :=
    ⟨hreduced rfl (by decide), hreduced rfl (by decide)⟩
  obtain ⟨r, maskDigits, bodyDigits, φ, ψ, hr', -, hmask, hbody, hφ, hψ, hphase⟩ :=
    phase_externalProduct Nat.prime_five hring hgadget hsk hx hct
  have hmaskDigits : g.decompose #[1, 4] = .ok #[#[4, 4], #[4, 0], #[4, 0]] := by decide +kernel
  have hbodyDigits : g.decompose #[0, 2] = .ok #[#[0, 0], #[0, 4], #[0, 4]] := by decide +kernel
  obtain rfl := Except.ok.inj (hmask.symm.trans hmaskDigits)
  obtain rfl := Except.ok.inj (hbody.symm.trans hbodyDigits)
  have hreach : (g.base / 2 - 1) * (g.base ^ g.digits - 1) / (g.base - 1) = 0 := by decide
  have hdropped {a b : Poly}
      (h : ∀ i < 2, (if 0 < g.modulus.centered (a.getD i 0) then 1 else 0) = b.getD i 0) :
      g.dropped ring a = ring.element b := by
    refine ofCoeffs_congr fun i hi => ?_
    rw [hreach, entries, ← h i (hdegree ▸ hi), hm]
    push_cast
    rfl
  have hdroppedMask : g.dropped ring #[1, 4] = ring.element #[1, 0] := hdropped (by decide)
  have hdroppedBody : g.dropped ring #[0, 2] = ring.element #[0, 1] := hdropped (by decide)
  have hbase : g.base = 2 := rfl
  rw [hdroppedMask, hdroppedBody, hbase, Nat.cast_ofNat, Int.cast_ofNat] at hphase
  exact ⟨ring, hring, g, sk, errors, x, r, φ, ψ, hgadget, hsk, rfl, hx, hr', hφ, hψ, hphase⟩

end Rgsw

end LatticeGates
