import LatticeGates.Lwe.Secret

/-!
# Security levels

For every ring dimension, the largest modulus size that reaches a level of classical security.
-/

namespace LatticeGates

inductive SecurityLevel where
  | classic128
  | classic192
  | classic256
  deriving DecidableEq, Repr

namespace SecurityLevel

def ringDimensions : List Nat := [1024, 2048, 4096, 8192, 16384, 32768]

/-- The largest sizes in bits, one for each ring dimension. -/
def maxBits : Distribution → SecurityLevel → List Nat
  | .ternary, classic128 => [27, 54, 109, 218, 438, 881]
  | .ternary, classic192 => [19, 37, 75, 152, 305, 611]
  | .ternary, classic256 => [14, 29, 58, 118, 237, 476]
  | .gaussian, classic128 => [29, 56, 111, 220, 440, 883]
  | .gaussian, classic192 => [21, 39, 77, 153, 305, 613]
  | .gaussian, classic256 => [16, 31, 60, 120, 239, 478]

/-- The smallest ring dimension that reaches the level for a modulus of the given size. -/
def ringDimension? (level : SecurityLevel) (d : Distribution) (bits : Nat) : Option Nat :=
  ((ringDimensions.zip (maxBits d level)).find? fun entry => bits ≤ entry.2).map (·.1)

end SecurityLevel

end LatticeGates
