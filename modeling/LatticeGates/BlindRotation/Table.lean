import LatticeGates.NegacyclicRing

/-!
# Look-up tables

A table for inputs modulo `domain` is a polynomial whose coefficient `j` is the value at the input
`j / (2 N / domain)`. It lists the inputs of the lower half; in the upper half the ring changes the sign,
so `f (x + domain / 2) = -f x`.
-/

namespace LatticeGates.BlindRotation

structure Table where
  domain : Nat
  data : Poly
  deriving DecidableEq

def Table.ofFn (ring : NegacyclicRing) (domain : Nat) (f : Nat → Nat) : Checked Table := do
  let n := ring.degree
  let rest ← Word.mod (2 * n) domain
  ensure (rest == 0) (.domainNotDividing domain (2 * n))
  let step := 2 * n / domain
  return ⟨domain, Array.ofFn fun j : Fin n => f (j / step) % ring.modulus.value⟩

def Table.ofChecked (ring : NegacyclicRing) (domain : Nat) (f : Nat → Checked Nat) :
    Checked Table := do
  let n := ring.degree
  let rest ← Word.mod (2 * n) domain
  ensure (rest == 0) (.domainNotDividing domain (2 * n))
  let step := 2 * n / domain
  let data ← tabulate n fun j _ => do return (← f (j / step)) % ring.modulus.value
  return ⟨domain, data⟩

end LatticeGates.BlindRotation
