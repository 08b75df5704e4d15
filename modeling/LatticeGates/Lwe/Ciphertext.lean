import LatticeGates.Lwe.Secret

/-!
# Ciphertexts of learning with errors

A ciphertext is a mask, a body and a modulus. Its phase under a secret is the body less the inner product
of the mask with the secret; the message sits in the top bits of the phase.
-/

namespace LatticeGates.Lwe

structure Ciphertext where
  mask : Array Nat
  body : Nat
  modulus : Nat
  deriving DecidableEq

namespace Ciphertext

def zero (n modulus : Nat) : Ciphertext := ⟨Array.replicate n 0, 0, modulus⟩

/-- The zero ciphertext of a dimension that has yet to be checked. -/
def ofShape (n modulus : Nat) : Checked Ciphertext := do
  Word.checkLength n
  return zero n modulus

def WellFormed (ct : Ciphertext) : Prop :=
  (∀ x ∈ ct.mask, x < ct.modulus) ∧ ct.body < ct.modulus

instance (ct : Ciphertext) : Decidable ct.WellFormed :=
  inferInstanceAs (Decidable (_ ∧ _))

def ofParts (mask : Array Nat) (body modulus : Nat) : Checked Ciphertext := do
  let ct : Ciphertext := ⟨mask, body, modulus⟩
  ensure (mask.all (· < modulus) && decide (body < modulus)) .shapeMismatch
  return ct

def dimension (ct : Ciphertext) : Nat := ct.mask.size

/-- The modulus of two ciphertexts that can be combined. -/
def sharedModulus (x y : Ciphertext) : Checked Modulus := do
  ensure (x.dimension == y.dimension && x.modulus == y.modulus) .shapeMismatch
  Modulus.check x.modulus

def add (x y : Ciphertext) : Checked Ciphertext := do
  let q ← sharedModulus x y
  return { x with mask := ← zipChecked q.add x.mask y.mask, body := ← q.add x.body y.body }

def sub (x y : Ciphertext) : Checked Ciphertext := do
  let q ← sharedModulus x y
  return { x with mask := ← zipChecked q.sub x.mask y.mask, body := ← q.sub x.body y.body }

def addConstant (ct : Ciphertext) (c : Nat) : Checked Ciphertext := do
  let q ← Modulus.check ct.modulus
  return { ct with body := ← q.add ct.body (c % q.value) }

def subConstant (ct : Ciphertext) (c : Nat) : Checked Ciphertext := do
  let q ← Modulus.check ct.modulus
  return { ct with body := ← q.sub ct.body (c % q.value) }

def neg (ct : Ciphertext) : Checked Ciphertext := do
  let q ← Modulus.check ct.modulus
  return { ct with mask := ← mapChecked q.neg ct.mask, body := ← q.neg ct.body }

def scale (ct : Ciphertext) (c : Nat) : Checked Ciphertext := do
  let q ← Modulus.check ct.modulus
  let c := c % q.value
  return { ct with mask := ct.mask.map (q.mul · c), body := q.mul ct.body c }

/-- Rounds every component to another modulus. -/
def switchModulus (ct : Ciphertext) (target : Nat) : Checked Ciphertext := do
  return {
    mask := ← mapChecked (Modulus.rescale · ct.modulus target) ct.mask
    body := ← Modulus.rescale ct.body ct.modulus target
    modulus := target }

/-- Reduces every component to a divisor of the modulus. -/
def reduce (ct : Ciphertext) (target : Nat) : Checked Ciphertext := do
  let rest ← Word.mod ct.modulus target
  ensure (rest == 0) (.modulusNotDividing target ct.modulus)
  return { mask := ct.mask.map (· % target), body := ct.body % target, modulus := target }

def lift (ct : Ciphertext) (target : Nat) : Checked Ciphertext := do
  let rest ← Word.mod target ct.modulus
  ensure (rest == 0) (.modulusNotDividing ct.modulus target)
  return { ct with modulus := target }

def phase (ct : Ciphertext) (sk : Secret) : Checked Nat := do
  ensure (ct.dimension == sk.dimension) .shapeMismatch
  let q ← Modulus.check ct.modulus
  q.sub ct.body (← sk.dot q ct.mask)

/-- The multiple of `modulus / p` that is nearest to the phase. -/
def decrypt (ct : Ciphertext) (sk : Secret) (p : Nat) : Checked Nat := do
  Modulus.rescale (← ct.phase sk) ct.modulus p

/-- The phase of an exact encryption of `m` modulo `p`. -/
def encode (m p modulus : Nat) : Checked Nat := do
  Modulus.rescale (← Word.mod m p) p modulus

/-- The encryption of `m` modulo `p` with a given mask and error. -/
def assemble (sk : Secret) (q : Modulus) (m p : Nat) (mask : Array Nat) (error : Int) :
    Checked Ciphertext := do
  let body ← q.add (← sk.dot q mask) (← encode m p q.value)
  return ⟨mask, ← q.add body (q.ofInt error), q.value⟩

/-- A fresh encryption of `m` modulo `p`, over the shape of `ct`. The mask comes from the first stream
and the error from the second one. -/
def encrypt (ct : Ciphertext) (sk : Secret) (m p : Nat) (sigma : Float) (masks errors : Stream) :
    Checked (Ciphertext × Stream × Stream) := do
  ensure (ct.dimension == sk.dimension && decide (0 < p ∧ p ≤ ct.modulus)) .shapeMismatch
  let q ← Modulus.check ct.modulus
  let (mask, masks) ← Stream.residues q ct.dimension masks
  let (error, errors) ← Stream.gaussian sigma errors
  return (← assemble sk q m p mask error, masks, errors)

end Ciphertext

end LatticeGates.Lwe
