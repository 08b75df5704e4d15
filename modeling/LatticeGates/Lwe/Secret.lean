import LatticeGates.Stream.Gaussian
import LatticeGates.Tabulate

/-!
# Secrets of learning with errors

A secret is a vector of small integers, together with the distribution that it was drawn from.
-/

namespace LatticeGates

inductive Distribution where
  | ternary
  | gaussian
  deriving DecidableEq, Repr

/-- A draw from the distribution; the deviation is that of the Gaussian. -/
@[inline] def Distribution.draw (d : Distribution) (sigma : Float) : Draw Int :=
  match d with
  | .ternary => Stream.ternary
  | .gaussian => Stream.gaussian sigma

namespace Lwe

structure Secret where
  coefficients : Array Int
  distribution : Distribution
  deriving DecidableEq

namespace Secret

def ofDimension (n : Nat) : Checked Secret := do
  Word.checkLength n
  return ⟨Array.replicate n 0, .ternary⟩

def generate (n : Nat) (d : Distribution) (sigma : Float) : Draw Secret := fun s => do
  Word.checkLength n
  let (xs, s) ← Stream.replicate n (d.draw sigma) s
  return (⟨xs, d⟩, s)

def dimension (sk : Secret) : Nat := sk.coefficients.size

def allTernary : List Int → Checked Bool
  | [] => .ok true
  | x :: rest => do
    let magnitude ← Signed.check x.natAbs
    if magnitude ≤ 1 then allTernary rest else return false

def isTernary (sk : Secret) : Checked Bool := allTernary sk.coefficients.toList

def sumFrom (acc : Array Int) : List Secret → Checked (Option (Array Int))
  | [] => .ok (some acc)
  | sk :: rest =>
    if sk.dimension = acc.size then do
      sumFrom (← zipInto (fun x y => Signed.check (x + y)) acc sk.coefficients) rest
    else return none

/-- The joint secret of a group, when it has members and they agree on the dimension. -/
def sum : List Secret → Checked (Option Secret)
  | [] => .ok none
  | first :: rest => do
    let acc ← sumFrom (Array.replicate first.dimension 0) (first :: rest)
    return acc.map (⟨·, first.distribution⟩)

def dot (sk : Secret) (q : Modulus) (a : Array Nat) : Checked Nat :=
  if h : a.size = sk.coefficients.size then do
    let total ← a.size.foldM (fun i _ acc => Signed.checkWide (acc + a[i] * sk.coefficients[i])) 0
    return q.ofInt total
  else .error .shapeMismatch

end Secret

end Lwe

end LatticeGates
