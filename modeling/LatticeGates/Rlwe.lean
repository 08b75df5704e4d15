import LatticeGates.Lwe.Ciphertext
import LatticeGates.NegacyclicRing

/-!
# Ring ciphertexts

Learning with errors over the negacyclic ring. A ring secret is a polynomial with small integer
coefficients, kept with its values; a ciphertext is a mask and a body, whose phase is the body less the
product of the mask with the secret.
-/

namespace LatticeGates.Rlwe

structure Secret where
  coefficients : Array Int
  values : Poly
  deriving DecidableEq

def Secret.ofLwe (ring : NegacyclicRing) (sk : Lwe.Secret) : Checked Secret := do
  ensure (sk.dimension == ring.degree) .shapeMismatch
  return ⟨sk.coefficients, ← ring.forward (ring.ofSigned sk.coefficients)⟩

def Secret.dimension (sk : Secret) : Nat := sk.coefficients.size

structure Ciphertext where
  mask : Poly
  body : Poly
  deriving DecidableEq

namespace Ciphertext

def zero (n : Nat) : Ciphertext := ⟨Array.replicate n 0, Array.replicate n 0⟩

def ofDimension (n : Nat) : Checked Ciphertext := do
  Word.checkLength n
  return zero n

def maskTimes (ring : NegacyclicRing) (sk : Secret) (mask : Poly) : Checked Poly := do
  ring.backward (ring.mul (← ring.forward mask) sk.values)

def assemble (ring : NegacyclicRing) (sk : Secret) (m mask : Poly) (error : Array Int) :
    Checked Ciphertext := do
  let body ← ring.add (← maskTimes ring sk mask) m
  return ⟨mask, ← ring.addSigned body error⟩

/-- A fresh encryption of a polynomial, over the shape of `ct`. -/
def encrypt (ring : NegacyclicRing) (ct : Ciphertext) (sk : Secret) (m : Poly) (sigma : Float)
    (masks errors : Stream) : Checked (Ciphertext × Stream × Stream) := do
  let (mask, masks) ← Stream.residues ring.modulus ct.mask.size masks
  let (error, errors) ← Stream.gaussians sigma ct.body.size errors
  return (← assemble ring sk m mask error, masks, errors)

def phase (ring : NegacyclicRing) (ct : Ciphertext) (sk : Secret) : Checked Poly := do
  ring.sub ct.body (← maskTimes ring sk ct.mask)

/-- The encryption of the constant coefficient under the coefficients of the secret. -/
def sampleExtract (ring : NegacyclicRing) (ct : Ciphertext) : Checked Lwe.Ciphertext := do
  ensure (ct.body.size != 0) .outOfBounds
  let n := ct.body.size
  let mask ← tabulate n fun j _ =>
    if j = 0 then .ok (ct.mask.getD 0 0) else ring.modulus.neg (ct.mask.getD (n - j) 0)
  return { mask, body := ct.body.getD 0 0, modulus := ring.modulus.value }

end Ciphertext

end LatticeGates.Rlwe
