import LatticeGates.Proofs.Ring.Values
import LatticeGates.Rlwe

/-!
# The phase of a ring ciphertext

The phase of a ring ciphertext as an element of the quotient ring. Main statement: it is what is computed
by way of the values of the mask and the secret.
-/

namespace LatticeGates.Rlwe

open Finset Modulus Negacyclic

variable {ring : NegacyclicRing}

noncomputable def Secret.element (ring : NegacyclicRing) (sk : Secret) : ring.Element :=
  ring.element (ring.ofSigned sk.coefficients)

theorem reduced_ofSigned {e : Array ℤ} (he : e.size = ring.degree) :
    ring.modulus.Reduced ring.degree (ring.ofSigned e) :=
  Reduced.map he fun x _ => ofInt_lt x

theorem entries_ofSigned {e : Array ℤ} {i : ℕ} (hi : i < e.size) :
    ring.modulus.entries (ring.ofSigned e) i = e[i] := by
  rw [NegacyclicRing.ofSigned, entries_map hi, cast_ofInt]

theorem Secret.exists_ofLwe (hr : ring.Valid) {s : Lwe.Secret} (hdim : s.dimension = ring.degree) :
    ∃ sk, ofLwe ring s = .ok sk := by
  obtain ⟨values, hvalues, -⟩ := NegacyclicRing.exists_forward hr (reduced_ofSigned hdim)
  rw [ofLwe, hdim, beq_self_eq_true, ensure_true, Checked.ok_bind, hvalues]
  exact ⟨_, rfl⟩

theorem Secret.dimension_of_ofLwe {s : Lwe.Secret} {sk : Secret} (h : ofLwe ring s = .ok sk) :
    s.dimension = ring.degree := by
  obtain ⟨_, hsize, -⟩ := Checked.bind_eq_ok.1 h
  rwa [ensure_eq_ok, beq_iff_eq] at hsize

theorem Secret.ofLwe_eq_ok (hr : ring.Valid) {s : Lwe.Secret} {sk : Secret}
    (h : ofLwe ring s = .ok sk) :
    sk.coefficients = s.coefficients ∧ s.coefficients.size = ring.degree ∧
      ring.modulus.Reduced ring.degree sk.values ∧
      ring.values sk.values = ring.valuesHom hr (sk.element ring) := by
  have hsize := dimension_of_ofLwe h
  obtain ⟨_, -, h⟩ := Checked.bind_eq_ok.1 h
  obtain ⟨values, hvalues, h⟩ := Checked.bind_eq_ok.1 h
  obtain ⟨r, hr', hred, hval⟩ := NegacyclicRing.exists_forward hr (reduced_ofSigned hsize)
  cases h
  rw [hvalues] at hr'
  cases hr'
  exact ⟨rfl, hsize, hred, hval⟩

namespace Ciphertext

structure Reduced (ring : NegacyclicRing) (ct : Ciphertext) : Prop where
  mask : ring.modulus.Reduced ring.degree ct.mask
  body : ring.modulus.Reduced ring.degree ct.body

/-- The body less the product of the mask with the secret. -/
noncomputable def phaseElement (ring : NegacyclicRing) (z : ring.Element) (ct : Ciphertext) :
    ring.Element :=
  ring.element ct.body - ring.element ct.mask * z

theorem exists_phase (hr : ring.Valid) {s : Lwe.Secret} {sk : Secret}
    (hsk : Secret.ofLwe ring s = .ok sk) {ct : Ciphertext} (hct : ct.Reduced ring) :
    ∃ p, ct.phase ring sk = .ok p ∧ ring.modulus.Reduced ring.degree p ∧
      ring.element p = ct.phaseElement ring (sk.element ring) := by
  obtain ⟨-, -, hvalues_red, hvalues⟩ := Secret.ofLwe_eq_ok hr hsk
  obtain ⟨f, hf, hfred, hfvalues⟩ := NegacyclicRing.exists_forward hr hct.mask
  obtain ⟨product, hproduct, hproduct_red, hproduct_eq⟩ :=
    NegacyclicRing.exists_backward_mul hr hfred hvalues_red hfvalues hvalues
  obtain ⟨p, hp, hred, helement⟩ := NegacyclicRing.exists_sub hct.body hproduct_red
  refine ⟨p, ?_, hred, ?_⟩
  · simp [phase, maskTimes, hf, hproduct, hp]
  · rw [helement, hproduct_eq, phaseElement]

end Ciphertext

end LatticeGates.Rlwe
