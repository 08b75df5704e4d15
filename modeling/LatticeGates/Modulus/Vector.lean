import LatticeGates.Modulus
import LatticeGates.Tabulate

/-!
# Vectors of residues

The entrywise operations update a vector with the entries of another one. They go up to the end of the
shorter vector and keep the entries beyond it.
-/

namespace LatticeGates.Modulus

variable (q : Modulus)

@[inline] def addVector (a b : Array Nat) : Checked (Array Nat) := zipInto q.add a b

@[inline] def subVector (a b : Array Nat) : Checked (Array Nat) := zipInto q.sub a b

@[inline] def negVector (a : Array Nat) : Checked (Array Nat) := mapChecked q.neg a

@[inline] def addSigned (a : Array Nat) (e : Array Int) : Checked (Array Nat) :=
  zipInto (fun x y => q.add x (q.ofInt y)) a e

end LatticeGates.Modulus
