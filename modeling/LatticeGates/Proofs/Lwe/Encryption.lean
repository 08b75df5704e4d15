import LatticeGates.Proofs.Draws
import LatticeGates.Proofs.Lwe.PublicKey

/-!
# What encryptions return

Main statements: an encryption returns components below the modulus, or stops. With a secret key it stops
when a draw does not end or the inner product leaves its range, with a public key when a draw does not end
or there are no messages. Put together from given draws, an encryption with a secret key has the encoding of
the message and the error as its phase, and one with a public key adds the rows that the signs pick.
-/

namespace LatticeGates.Lwe

open Finset Modulus

variable {q : Modulus} {n m p : ℕ} {sigma : Float} {ct : Ciphertext} {sk : Secret}

theorem Ciphertext.encode_ends (q : Modulus) (m p : ℕ) :
    (encode m p q.value).Ends (· = Modulus.round (m % p) p q.value)
      (fun e => e = .divisionByZero ∧ p = 0) := by
  by_cases hp : p = 0
  · exact .inr ⟨_, by rw [encode, hp]; rfl, rfl, hp⟩
  · exact .inl ⟨_, encode_of_pos (Nat.pos_of_ne_zero hp) q.pos, rfl⟩

namespace Ciphertext

theorem assemble_ends {mask : Array ℕ} (hmask : q.Reduced n mask) (hdim : sk.dimension = n)
    (hp : 0 < p) (error : ℤ) :
    (assemble sk q m p mask error).Ends
      (fun r => r.Shaped q n ∧ r.mask = mask ∧ r.integerPhase sk.coefficient ≡
        Modulus.round (m % p) p q.value + error [ZMOD q.value])
      (fun e => e = .overflow ∧ ¬sk.InRange mask) := by
  refine (Secret.dot_ends q (hmask.size_eq.trans hdim.symm)).bind ?_
  rintro _ rfl
  obtain ⟨c, hc, rfl⟩ | ⟨e, -, -, rfl⟩ := encode_ends q m p
  · obtain ⟨a, ha, ha_lt, ha_cast⟩ := Modulus.exists_add (ofInt_lt (q := q)
      (∑ i ∈ range sk.dimension, (mask.getD i 0 : ℤ) * sk.coefficient i))
      (round_lt (φ := m % p) (M := p) q.pos)
    obtain ⟨b, hb, hb_lt, hb_cast⟩ := Modulus.exists_add ha_lt (ofInt_lt (q := q) error)
    refine .inl ⟨⟨mask, b, q.value⟩, ?_, ⟨rfl, hmask, hb_lt⟩, rfl, modEq_of_cast_eq ?_⟩
    · rw [hc, Checked.ok_bind, ha, Checked.ok_bind, hb]
      rfl
    · rw [cast_integerPhase q hmask.size_eq, hb_cast, ha_cast, cast_ofInt, cast_ofInt, hdim]
      push_cast
      simp only [entries]
      ring
  · exact absurd hp (lt_irrefl 0)

theorem Shaped.encrypt_ends (hct : ct.Shaped q n) (hdim : sk.dimension = n) (hp : 0 < p)
    (hle : p ≤ q.value) (masks errors : Stream) :
    (ct.encrypt sk m p sigma masks errors).Ends (·.1.Shaped q n) (fun e =>
      e = .exhausted ∧ (Stream.residues q n masks = .error e ∨ Stream.gaussian sigma errors = .error e) ∨
      e = .overflow ∧ ∃ mask rest, Stream.residues q n masks = .ok (mask, rest) ∧
        ¬sk.InRange mask) := by
  have hshape : (ct.dimension == sk.dimension && decide (0 < p ∧ p ≤ ct.modulus)) = true := by
    rw [hct.modulus_eq]
    simpa [dimension, hct.mask.size_eq, hdim] using ⟨hp, hle⟩
  simp only [encrypt, hshape, ensure_true, Checked.ok_bind, hct.check]
  rw [show ct.dimension = n from hct.mask.size_eq]
  refine ((Checked.ends_self _).imp_stops fun e he =>
    .inl ⟨Stream.searches_residues q n _ _ he, .inl he⟩).bind ?_
  rintro ⟨mask, rest⟩ hmask
  refine ((Checked.ends_self _).imp_stops fun e he =>
    .inl ⟨Stream.searches_gaussian sigma _ _ he, .inr he⟩).bind ?_
  rintro ⟨error, left⟩ -
  refine ((assemble_ends (reduced_of_residues hmask) hdim hp error).imp_stops ?_).bind ?_
  · rintro e ⟨rfl, hout⟩
    exact .inr ⟨rfl, mask, rest, hmask, hout⟩
  · exact fun r hr => .inl ⟨_, rfl, hr.1⟩

end Ciphertext

namespace PublicKey

variable {pk : PublicKey}

/-- A public key of residues. -/
structure Fits (q : Modulus) (n : ℕ) (pk : PublicKey) : Prop where
  modulus_eq : pk.modulus = q.value
  matrix : Square q n pk.matrix
  vector : q.Reduced n pk.vector

private theorem exists_addSignedRow {sign : ℤ} (hsign : sign.natAbs ≤ 1) {row : Array ℕ} {entry : ℕ}
    (hrow : q.Reduced n row) (hentry : entry < q.value) {acc : Array ℕ × ℕ}
    (hmask : q.Reduced n acc.1) (hbody : acc.2 < q.value) :
    ∃ r, (if sign = 0 then .ok acc
      else if sign = 1 then
        do return (← q.addVector acc.1 row, ← q.add acc.2 entry)
      else
        do return (← q.subVector acc.1 row, ← q.sub acc.2 entry) : Checked (Array ℕ × ℕ)) = .ok r ∧
      q.Reduced n r.1 ∧ r.2 < q.value ∧
      (∀ j < n, q.entries r.1 j = q.entries acc.1 j + sign * q.entries row j) ∧
      (r.2 : ZMod q.value) = acc.2 + sign * entry := by
  obtain rfl | rfl | rfl : sign = 0 ∨ sign = 1 ∨ sign = -1 := by omega
  · exact ⟨acc, rfl, hmask, hbody, by simp, by simp⟩
  · obtain ⟨sum, hsum, hred, hentries⟩ := exists_addVector hmask hrow
    obtain ⟨b, hb, hlt, hcast⟩ := exists_add hbody hentry
    refine ⟨(sum, b), ?_, hred, hlt, fun j hj => by simp [hentries j hj], by simp [hcast]⟩
    simp [hsum, hb]
  · obtain ⟨difference, hdifference, hred, hentries⟩ := exists_subVector hmask hrow
    obtain ⟨b, hb, hlt, hcast⟩ := exists_sub hbody hentry
    refine ⟨(difference, b), ?_, hred, hlt, fun j hj => by simp [hentries j hj, sub_eq_add_neg],
      by simp [hcast, sub_eq_add_neg]⟩
    simp [hdifference, hb]

theorem Fits.exists_combine (hpk : pk.Fits q n) {signs : Array ℤ} (hsize : signs.size = n)
    (hsigns : ∀ x ∈ signs, x.natAbs ≤ 1) {mask : Array ℕ} {body : ℕ} (hmask : q.Reduced n mask)
    (hbody : body < q.value) :
    ∃ r, pk.combine q signs mask body = .ok r ∧ q.Reduced n r.1 ∧ r.2 < q.value ∧
      (∀ j < n, q.entries r.1 j =
        q.entries mask j + ∑ i ∈ range n, signs.getD i 0 * q.entries (pk.matrix.getD i #[]) j) ∧
      (r.2 : ZMod q.value) = body + ∑ i ∈ range n, signs.getD i 0 * q.entries pk.vector i := by
  obtain rfl := hsize
  refine foldM_ok (fun k (r : Array ℕ × ℕ) => q.Reduced signs.size r.1 ∧ r.2 < q.value ∧
    (∀ j < signs.size, q.entries r.1 j =
      q.entries mask j + ∑ i ∈ range k, signs.getD i 0 * q.entries (pk.matrix.getD i #[]) j) ∧
    (r.2 : ZMod q.value) = body + ∑ i ∈ range k, signs.getD i 0 * q.entries pk.vector i)
    ⟨hmask, hbody, by simp, by simp⟩ ?_
  rintro i hi acc ⟨hred, hlt, hentries, hcast⟩
  have hrow : q.Reduced signs.size (pk.matrix.getD i #[]) := by
    have hi : i < pk.matrix.size := by rwa [hpk.matrix.size_eq]
    rw [← Array.getElem_eq_getD (h := hi)]
    exact hpk.matrix.rows _ (Array.getElem_mem hi)
  obtain ⟨r, hr, hred', hlt', hentries', hcast'⟩ := exists_addSignedRow
    (hsigns _ (Array.getElem_mem hi)) hrow (hpk.vector.getD_lt i) hred hlt
  refine ⟨r, hr, hred', hlt', fun j hj => ?_, ?_⟩
  · rw [hentries' j hj, hentries j hj, sum_range_succ, Array.getElem_eq_getD 0, add_assoc]
  · rw [hcast', hcast, sum_range_succ, Array.getElem_eq_getD 0, add_assoc]
    rfl

theorem Fits.assemble_ends (hpk : pk.Fits q n) {signs maskErrors : Array ℤ} (hsize : signs.size = n)
    (hsigns : ∀ x ∈ signs, x.natAbs ≤ 1) (herrors : maskErrors.size = n) (bodyError : ℤ) :
    (pk.assemble q m p signs maskErrors bodyError).Ends
      (fun r => r.Shaped q n ∧
        (∀ j < n, q.entries r.mask j = (maskErrors.getD j 0 : ℤ) +
          ∑ i ∈ range n, signs.getD i 0 * q.entries (pk.matrix.getD i #[]) j) ∧
        (r.body : ZMod q.value) = bodyError + ∑ i ∈ range n, signs.getD i 0 * q.entries pk.vector i +
          Modulus.round (m % p) p q.value)
      (fun e => e = .divisionByZero ∧ p = 0) := by
  have hmask : q.Reduced n (maskErrors.map q.ofInt) := Reduced.map herrors fun x _ => ofInt_lt x
  obtain ⟨⟨mask, body⟩, hcombine, hred, hlt, hentries, hcast⟩ :=
    hpk.exists_combine hsize hsigns hmask (ofInt_lt (q := q) bodyError)
  simp only [assemble, hcombine, Checked.ok_bind]
  refine (Ciphertext.encode_ends q m p).bind ?_
  rintro _ rfl
  obtain ⟨b, hb, hb_lt, hb_cast⟩ := exists_add hlt (round_lt (φ := m % p) (M := p) q.pos)
  refine .inl ⟨⟨mask, b, q.value⟩, by rw [hb]; rfl, ⟨rfl, hred, hb_lt⟩,
    fun j hj => ?_, ?_⟩
  · have hj' : j < maskErrors.size := herrors ▸ hj
    rw [hentries j hj, entries_map hj', cast_ofInt, Array.getElem_eq_getD 0]
  · rw [hb_cast, hcast, cast_ofInt]

theorem Fits.encrypt_ends (hpk : pk.Fits q n) (hct : ct.Shaped q n) (signs errors : Stream) :
    (pk.encrypt ct m p sigma signs errors).Ends (·.1.Shaped q n) (fun e =>
      e = .exhausted ∧ (Stream.gaussians sigma n errors = .error e ∨
        (∃ r rest, Stream.gaussians sigma n errors = .ok (r, rest) ∧ Stream.gaussian sigma rest = .error e) ∨
        Stream.ternaries n signs = .error e) ∨
      e = .divisionByZero ∧ p = 0) := by
  have hdim : ct.dimension = n := hct.mask.size_eq
  have hpkdim : pk.dimension = n := hpk.vector.size_eq
  have hshape : (ct.dimension == pk.dimension && ct.modulus == pk.modulus) = true := by
    simp [hdim, hpkdim, hct.modulus_eq, hpk.modulus_eq]
  simp only [encrypt, hshape, ensure_true, Checked.ok_bind, hct.check]
  rw [hdim, hpkdim]
  refine ((Checked.ends_self _).imp_stops fun e he =>
    .inl ⟨Stream.searches_gaussians sigma n _ _ he, .inl he⟩).bind ?_
  rintro ⟨maskErrors, rest⟩ hmaskErrors
  refine ((Checked.ends_self _).imp_stops fun e he =>
    .inl ⟨Stream.searches_gaussian sigma _ _ he, .inr (.inl ⟨_, _, hmaskErrors, he⟩)⟩).bind ?_
  rintro ⟨bodyError, left⟩ -
  refine ((Checked.ends_self _).imp_stops fun e he =>
    .inl ⟨Stream.searches_ternaries n _ _ he, .inr (.inr he)⟩).bind ?_
  rintro ⟨r, unused⟩ hr
  obtain ⟨hsize, hsigns⟩ := Stream.ternaries_entries hr
  have hassemble := hpk.assemble_ends (m := m) (p := p) hsize hsigns (Stream.size_of_gaussians hmaskErrors)
    bodyError
  exact (hassemble.imp_stops fun _ => .inr).bind fun r hr => .inl ⟨_, rfl, hr.1⟩

end PublicKey

end LatticeGates.Lwe
