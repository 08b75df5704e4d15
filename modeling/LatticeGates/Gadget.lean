import LatticeGates.Transform

/-!
# Balanced gadget decomposition

A residue is centred and split into digits of base `B = 2 ^ logBase` in `[-B/2, B/2)`, least significant
first. The gadget holds the powers of `B`.
-/

namespace LatticeGates

structure Gadget where
  modulus : Modulus
  logBase : Nat
  digits : Nat
  deriving DecidableEq

namespace Gadget

def check (q logBase : Nat) : Checked Gadget := do
  ensure (decide (0 < logBase ∧ logBase < 63)) (.invalidLogBase logBase)
  return ⟨← Modulus.check q, logBase, (Word.bitLength q + logBase - 1) / logBase⟩

variable (g : Gadget)

def base : Nat := 1 <<< g.logBase

/-- The powers of the base, one for each digit, modulo `q`. -/
def powers : Array Nat := g.modulus.powers (g.base % g.modulus.value) g.digits

/-- The next `count` balanced digits of `c`. -/
def signedDigits : (count : Nat) → (c : Int) → Checked (List Int)
  | 0, _ => .ok []
  | count + 1, c => do
    let r := c.bmod g.base
    let rest ← Signed.check (c - r)
    return r :: (← signedDigits count (rest / (g.base : Int)))

def digitsOf (x : Nat) : Checked (Array Nat) := do
  let c ← g.modulus.center x
  return ((← g.signedDigits g.digits c).map g.modulus.ofInt).toArray

/-- Row `l` holds digit `l` of every entry of `a`. -/
def decompose (a : Poly) : Checked (Array Poly) := do
  let entries ← mapChecked g.digitsOf a
  return Array.ofFn fun l : Fin g.digits => entries.map (·.getD l 0)

/-- Fills `rows` zero vectors of the given length with the digits of `a`. -/
def decomposeInto (rows length : Nat) (a : Poly) : Checked (Array Poly) := do
  ensure (rows == g.digits) .shapeMismatch
  ensure (decide (a.size ≤ length)) .outOfBounds
  return (← g.decompose a).map (· ++ Array.replicate (length - a.size) 0)

end Gadget

end LatticeGates
