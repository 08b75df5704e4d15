import LatticeGates.Params.Basic
import LatticeGates.Proofs.Lwe.Encryption

/-!
# Encrypted messages are decrypted

Main statements: the phase of a fresh encryption is the encoding of the message plus an error, with a secret key
the one that is drawn, with a public key the one that the errors of the key and of the encryption make. While the
error is small, the message is read again, for any number of messages up to the modulus.
-/

namespace LatticeGates.Lwe

open Finset Modulus

variable {q : Modulus} {p : ℕ} {ct : Ciphertext}

namespace Ciphertext

variable {sk : Secret} {mask : Array ℕ}

/-- What is encrypted under a secret is decrypted under it, whatever mask and error are drawn. -/
theorem decrypt_encrypt (hmodulus : ct.modulus = q.value) (hdim : ct.dimension = sk.dimension)
    (hp : 0 < p) (hle : p ≤ q.value) (hmask : q.Reduced sk.dimension mask) (hrange : sk.InRange mask)
    (m : ℕ) (e : ℤ) :
    ∃ r, assemble sk q m p mask e = .ok r ∧
      (∀ sigma masks errors masksLeft errorsLeft,
        Stream.residues q sk.dimension masks = .ok (mask, masksLeft) →
        Stream.gaussian sigma errors = .ok (e, errorsLeft) →
        ct.encrypt sk m p sigma masks errors = .ok (r, masksLeft, errorsLeft)) ∧
      r.Shaped q sk.dimension ∧ r.mask = mask ∧
      r.phase sk = .ok (q.ofInt (Modulus.round (m % p) p q.value + e)) ∧
      (e = 0 ∨ p * (2 * |e| + 1) < q.value → r.decrypt sk p = .ok (m % p)) := by
  obtain ⟨r, hr, hshaped, rfl, hphase⟩ | ⟨-, -, -, hout⟩ := assemble_ends (m := m) hmask rfl hp e
  · obtain ⟨hread, hdecrypt⟩ := hshaped.decrypt_of_encoding hrange hp hphase
    refine ⟨r, hr, fun sigma masks errors masksLeft errorsLeft hmasks herrors => ?_, hshaped, rfl, hread,
      fun he => hdecrypt (he.imp_left fun h => ⟨h, hle⟩)⟩
    simp [encrypt, hdim, hmodulus, hp, hle, Modulus.check_value, hmasks, herrors, hr]
  · exact (hout hrange).elim

/-- The message `3` of five, which do not divide the modulus: with the error `-7`, and with an error that is
drawn. -/
theorem decrypt_encrypt_three : ∃ q : Modulus, q.value = 1009 ∧
    (∃ r, assemble ⟨#[1, -1], .ternary⟩ q 13 5 #[600, 7] (-7) = .ok r ∧
      r.phase ⟨#[1, -1], .ternary⟩ = .ok 598 ∧ r.decrypt ⟨#[1, -1], .ternary⟩ 5 = .ok 3) ∧
    ∃ e r masksLeft errorsLeft, Stream.gaussian Params.defaultSigma (.ofSeed #[2]) = .ok (e, errorsLeft) ∧
      (zero 2 1009).encrypt ⟨#[1, -1], .ternary⟩ 13 5 Params.defaultSigma (.ofSeed #[1]) (.ofSeed #[2]) =
        .ok (r, masksLeft, errorsLeft) ∧
      r.phase ⟨#[1, -1], .ternary⟩ = .ok (q.ofInt (605 + e)) := by
  let q : Modulus := ⟨1009, by decide, by decide⟩
  let sk : Secret := ⟨#[1, -1], .ternary⟩
  have hternary : sk.Ternary := by simp [sk, Secret.Ternary]
  have hrange {mask : Array ℕ} (hmask : q.Reduced 2 mask) : sk.InRange mask :=
    Secret.inRange_of_natAbs_le hmask hternary.natAbs_le (by decide)
  have hgiven : q.Reduced 2 #[600, 7] := ⟨rfl, by simp [q]⟩
  obtain ⟨⟨mask, masksLeft⟩, hmask⟩ : ∃ x, Stream.residues q 2 (.ofSeed #[1]) = .ok x :=
    Checked.exists_of_isOk (by decide +kernel)
  obtain ⟨⟨e, errorsLeft⟩, herror⟩ : ∃ x, Stream.gaussian Params.defaultSigma (.ofSeed #[2]) = .ok x :=
    Checked.exists_of_isOk (by decide +kernel)
  have hdrawn := reduced_of_residues hmask
  have hmodulus : (zero 2 1009).modulus = q.value := rfl
  have hdim : (zero 2 1009).dimension = sk.dimension := by simp [dimension, zero, Secret.dimension, sk]
  have hp : 0 < 5 ∧ 5 ≤ q.value := by simp [q]
  obtain ⟨r, hr, -, -, -, hphase, hdecrypt⟩ :=
    decrypt_encrypt hmodulus hdim hp.1 hp.2 hgiven (hrange hgiven) 13 (-7)
  obtain ⟨r', -, hencrypt, -, -, hphase', -⟩ :=
    decrypt_encrypt hmodulus hdim hp.1 hp.2 hdrawn (hrange hdrawn) 13 e
  have hencode : Modulus.round (13 % 5) 5 q.value = 605 := by simp [q, Modulus.round]
  rw [hencode] at hphase hphase'
  exact ⟨q, rfl, ⟨r, hr, hphase, hdecrypt (.inr (by decide))⟩, e, r', masksLeft, errorsLeft,
    herror, hencrypt _ _ _ _ _ hmask herror, hphase'⟩

end Ciphertext

namespace PublicKey

variable {pk : PublicKey} {z : Secret} {e : ℕ → ℤ} {r maskErrors : Array ℤ} {bodyError : ℤ}

/-- A public key of a secret with given errors: its vector is `A z + e`. -/
structure Publishes (q : Modulus) (z : Secret) (e : ℕ → ℤ) (pk : PublicKey) : Prop extends
    pk.Fits q z.dimension where
  vector_modEq : ∀ i < z.dimension, (pk.vector.getD i 0 : ℤ) ≡
    ∑ j ∈ range z.dimension, (pk.matrix.getD i #[]).getD j 0 * z.coefficient j + e i [ZMOD q.value]

/-- The error of an encryption: the errors of the key with their signs, and the fresh ones. -/
def encryptionError (z : Secret) (e : ℕ → ℤ) (r maskErrors : Array ℤ) (bodyError : ℤ) : ℤ :=
  ∑ i ∈ range z.dimension, e i * r.getD i 0 + bodyError -
    ∑ j ∈ range z.dimension, maskErrors.getD j 0 * z.coefficient j

private theorem Publishes.phase_modEq (hpk : pk.Publishes q z e) {c : Ciphertext} {k : ℕ}
    (hc : c.Shaped q z.dimension)
    (hmask : ∀ j < z.dimension, q.entries c.mask j = (maskErrors.getD j 0 : ℤ) +
      ∑ i ∈ range z.dimension, r.getD i 0 * q.entries (pk.matrix.getD i #[]) j)
    (hbody : (c.body : ZMod q.value) = bodyError +
      ∑ i ∈ range z.dimension, r.getD i 0 * q.entries pk.vector i + k) :
    c.integerPhase z.coefficient ≡ k + encryptionError z e r maskErrors bodyError [ZMOD q.value] := by
  have hvector : ∑ i ∈ range z.dimension, (r.getD i 0 : ZMod q.value) * q.entries pk.vector i =
      ∑ i ∈ range z.dimension, (r.getD i 0 : ZMod q.value) *
        ∑ j ∈ range z.dimension, q.entries (pk.matrix.getD i #[]) j * z.coefficient j +
      ∑ i ∈ range z.dimension, (e i : ZMod q.value) * r.getD i 0 := by
    rw [← sum_add_distrib]
    refine sum_congr rfl fun i hi => ?_
    have hentry := (ZMod.intCast_eq_intCast_iff _ _ q.value).2 (hpk.vector_modEq i (mem_range.1 hi))
    push_cast at hentry
    simp only [entries]
    rw [hentry]
    ring
  have hproduct : ∑ j ∈ range z.dimension, q.entries c.mask j * (z.coefficient j : ZMod q.value) =
      ∑ j ∈ range z.dimension, (maskErrors.getD j 0 : ZMod q.value) * z.coefficient j +
      ∑ i ∈ range z.dimension, (r.getD i 0 : ZMod q.value) *
        ∑ j ∈ range z.dimension, q.entries (pk.matrix.getD i #[]) j * z.coefficient j := by
    simp only [mul_sum]
    rw [sum_comm, ← sum_add_distrib]
    refine sum_congr rfl fun j hj => ?_
    rw [hmask j (mem_range.1 hj), add_mul, sum_mul]
    congr 1
    exact sum_congr rfl fun i _ => mul_assoc _ _ _
  refine Ciphertext.modEq_of_cast_eq ?_
  rw [Ciphertext.cast_integerPhase q hc.mask.size_eq, encryptionError]
  push_cast
  linear_combination hbody + hvector - hproduct

/-- What is encrypted under a public key is decrypted under its secret, whatever signs and errors are drawn. -/
theorem decrypt_publicEncrypt (hpk : pk.Publishes q z e) (hmodulus : ct.modulus = q.value)
    (hdim : ct.dimension = z.dimension) (hp : 0 < p) (hsize : r.size = z.dimension)
    (hsigns : ∀ x ∈ r, x.natAbs ≤ 1) (herrors : maskErrors.size = z.dimension) (m : ℕ) (bodyError : ℤ) :
    ∃ c, pk.assemble q m p r maskErrors bodyError = .ok c ∧
      (∀ sigma signs errors signsLeft middle errorsLeft,
        Stream.gaussians sigma z.dimension errors = .ok (maskErrors, middle) →
        Stream.gaussian sigma middle = .ok (bodyError, errorsLeft) →
        Stream.ternaries z.dimension signs = .ok (r, signsLeft) →
        pk.encrypt ct m p sigma signs errors = .ok (c, signsLeft, errorsLeft)) ∧
      c.Shaped q z.dimension ∧
      (z.InRange c.mask →
        c.phase z = .ok (q.ofInt (Modulus.round (m % p) p q.value +
          encryptionError z e r maskErrors bodyError)) ∧
        (p * (2 * |encryptionError z e r maskErrors bodyError| + 1) < q.value →
          c.decrypt z p = .ok (m % p))) := by
  obtain ⟨c, hc, hshaped, hmask, hbody⟩ | ⟨-, -, -, rfl⟩ := hpk.toFits.assemble_ends (m := m) (p := p)
    hsize hsigns herrors bodyError
  · refine ⟨c, hc, fun sigma signs errors signsLeft middle errorsLeft hmaskErrors hbodyError hr => ?_,
      hshaped, fun hrange => ?_⟩
    · simp [encrypt, dimension, hpk.vector.size_eq, hpk.modulus_eq, hdim, hmodulus, Modulus.check_value,
        hmaskErrors, hbodyError, hr, hc]
    · obtain ⟨hread, hdecrypt⟩ :=
        hshaped.decrypt_of_encoding hrange hp (hpk.phase_modEq hshaped hmask hbody)
      exact ⟨hread, fun he => hdecrypt (.inr he)⟩
  · exact absurd hp (lt_irrefl 0)

/-- The message `3` of five under a key with the errors `2` and `-1`, with given signs and errors. -/
theorem decrypt_publicEncrypt_three : ∃ q : Modulus, q.value = 1009 ∧
    PublicKey.Publishes q ⟨#[1, -1], .ternary⟩ (fun i => if i = 0 then 2 else -1)
      ⟨#[#[3, 1000], #[500, 7]], #[14, 492], 1009⟩ ∧
    ∃ c, assemble ⟨#[#[3, 1000], #[500, 7]], #[14, 492], 1009⟩ q 13 5 #[-1, 1] #[4, 0] (-3) = .ok c ∧
      c.phase ⟨#[1, -1], .ternary⟩ = .ok 595 ∧ c.decrypt ⟨#[1, -1], .ternary⟩ 5 = .ok 3 := by
  let q : Modulus := ⟨1009, by decide, by decide⟩
  let z : Secret := ⟨#[1, -1], .ternary⟩
  have hternary : z.Ternary := by simp [z, Secret.Ternary]
  have hpk : PublicKey.Publishes q z (fun i => if i = 0 then 2 else -1)
      ⟨#[#[3, 1000], #[500, 7]], #[14, 492], 1009⟩ := by
    refine ⟨⟨rfl, ⟨rfl, fun row hrow => ⟨?_, ?_⟩⟩, ⟨rfl, by decide⟩⟩, ?_⟩
    · revert row
      decide
    · revert row
      decide
    · change ∀ i < 2, _
      decide
  have hmodulus : (Ciphertext.zero 2 1009).modulus = q.value := rfl
  have hsize : (#[-1, 1] : Array ℤ).size = z.dimension ∧ (#[4, 0] : Array ℤ).size = z.dimension := ⟨rfl, rfl⟩
  obtain ⟨c, hc, -, hshaped, hread⟩ := decrypt_publicEncrypt hpk hmodulus rfl (by decide : 0 < 5) hsize.1
    (by decide) hsize.2 13 (-3)
  obtain ⟨hphase, hdecrypt⟩ :=
    hread (Secret.inRange_of_natAbs_le hshaped.mask hternary.natAbs_le (by decide))
  have herror : encryptionError z (fun i => if i = 0 then 2 else -1) #[-1, 1] #[4, 0] (-3) = -10 := by decide
  have hencode : Modulus.round (13 % 5) 5 q.value = 605 := by simp [q, Modulus.round]
  rw [herror, hencode] at hphase
  rw [herror] at hdecrypt
  exact ⟨q, rfl, hpk, c, hc, hphase, hdecrypt (by decide)⟩

end PublicKey

end LatticeGates.Lwe
