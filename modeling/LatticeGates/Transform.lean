import LatticeGates.Modulus.Companion
import LatticeGates.Prime
import LatticeGates.Tabulate

/-!
# The negacyclic number-theoretic transform

The transform of size `n` evaluates a polynomial of degree below `n` at the odd powers of a primitive
`2 n`-th root of unity. It walks a binary tree: node `k` holds a residue of the polynomial, and splits it
with the power of the root stored under `k` into the residues at nodes `2 k` and `2 k + 1`. The leaves
come out in bit-reversed order.
-/

namespace LatticeGates

/-- A polynomial by its coefficients, or by its values. -/
abbrev Poly := Array Nat

/-- The lowest `bits` bits of `k`, in reverse order. -/
def bitReverse : (bits k : Nat) → Nat
  | 0, _ => 0
  | bits + 1, k => (k % 2) <<< bits + bitReverse bits (k / 2)

structure Transform where
  modulus : Modulus
  logSize : Nat
  /-- Powers of the root, in bit-reversed order. -/
  powers : Array Modulus.Factor
  /-- Powers of the inverse of the root, in bit-reversed order. -/
  inversePowers : Array Modulus.Factor
  sizeInverse : Modulus.Factor

namespace Transform

def size (t : Transform) : Nat := 1 <<< t.logSize

/-- The first `2 ^ bits` powers of `w` as factors, in bit-reversed order. -/
def powerTable (q : Modulus) (w bits : Nat) : Array Modulus.Factor :=
  let powers := q.powers w (1 <<< bits)
  Array.ofFn fun k : Fin (1 <<< bits) => q.factor (powers.getD (bitReverse bits k) 0)

def check (n q : Nat) : Checked Transform := do
  ensure (isPowerOfTwo n && decide (1 < n)) (.invalidDimension n)
  let modulus ← Modulus.check q
  let root ← Prime.rootOfUnity (← Word.mul 2 n) q
  Word.checkLength n
  return {
    modulus
    logSize := n.log2
    powers := powerTable modulus root n.log2
    inversePowers := powerTable modulus (modulus.inv root) n.log2
    sizeInverse := modulus.factor (modulus.inv n) }

variable (t : Transform)

/-- Splits the residue at a node over the `depth` levels below it. -/
def descend : (depth node : Nat) → Poly → Checked Poly
  | 0, _, a => .ok a
  | depth + 1, node, a => do
    let w := t.powers.getD node (t.modulus.factor 0)
    let low := a.extract 0 (1 <<< depth)
    let high := (a.extract (1 <<< depth) a.size).map (t.modulus.times w)
    let left ← descend depth (2 * node) (← zipChecked t.modulus.add low high)
    let right ← descend depth (2 * node + 1) (← zipChecked t.modulus.sub low high)
    return left ++ right

/-- Joins the residues below a node, up to a factor of two for each level. -/
def ascend : (depth node : Nat) → Poly → Checked Poly
  | 0, _, a => .ok a
  | depth + 1, node, a => do
    let w := t.inversePowers.getD node (t.modulus.factor 0)
    let left ← ascend depth (2 * node) (a.extract 0 (1 <<< depth))
    let right ← ascend depth (2 * node + 1) (a.extract (1 <<< depth) a.size)
    let low ← zipChecked t.modulus.add left right
    let high ← zipChecked t.modulus.sub left right
    return low ++ high.map (t.modulus.times w)

def forward (a : Poly) : Checked Poly := do
  ensure (a.size == t.size) .shapeMismatch
  t.descend t.logSize 1 a

def backward (a : Poly) : Checked Poly := do
  ensure (a.size == t.size) .shapeMismatch
  return (← t.ascend t.logSize 1 a).map (t.modulus.times t.sizeInverse)

end Transform

end LatticeGates
