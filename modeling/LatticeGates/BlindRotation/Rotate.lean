import LatticeGates.BlindRotation.Key
import LatticeGates.BlindRotation.Table
import LatticeGates.Lwe.SwitchingKey

/-!
# Blind rotation and the functional bootstrap

Blind rotation turns an encryption of a phase into a ring encryption of the table rotated by that phase.
The bootstrap reads off the constant coefficient and switches it back to the small secret.
-/

namespace LatticeGates.BlindRotation

/-- The update for one coordinate: adds `(X ^ a - 1)` times the product with the positive part and
`(X ^ -a - 1)` times the product with the negative part. -/
def rotateStep (ring : NegacyclicRing) (gadget : Gadget) (pair : Pair) (a : Nat)
    (acc : Rlwe.Ciphertext) : Checked Rlwe.Ciphertext := do
  let maskDigits ← Rgsw.digitValues ring gadget gadget.digits acc.mask
  let bodyDigits ← Rgsw.digitValues ring gadget gadget.digits acc.body
  let plus ← Rgsw.combine ring pair.plus maskDigits bodyDigits
  let minus ← Rgsw.combine ring pair.minus maskDigits bodyDigits
  let back := 2 * ring.degree - a
  let mask ← ring.addMonomialMinusOne acc.mask (← ring.backward plus.mask) a
  let mask ← ring.addMonomialMinusOne mask (← ring.backward minus.mask) back
  let body ← ring.addMonomialMinusOne acc.body (← ring.backward plus.body) a
  let body ← ring.addMonomialMinusOne body (← ring.backward minus.body) back
  return ⟨mask, body⟩

def rotateBlock (ring : NegacyclicRing) (gadget : Gadget) (factor : Nat) (mask : Array Nat)
    (block : Array Pair) (acc : Rlwe.Ciphertext) : Checked Rlwe.Ciphertext :=
  (min block.size mask.size).foldM (fun i h acc => do
    have : i < block.size := by omega
    have : i < mask.size := by omega
    let a := (← Word.mul mask[i] factor) % (2 * ring.degree)
    if a = 0 then return acc else rotateStep ring gadget block[i] a acc) acc

/-- An encryption of `X ^ -phase * table`, with the phase scaled to `2 N`. -/
def rotate (ring : NegacyclicRing) (key : Key) (table : Table) (ct : Lwe.Ciphertext) :
    Checked Rlwe.Ciphertext := do
  let twoN := 2 * ring.degree
  ensure (ct.dimension == key.dimension && table.domain == ct.modulus) .shapeMismatch
  let rest ← Word.mod twoN ct.modulus
  ensure (rest == 0) .shapeMismatch
  let factor := twoN / ct.modulus
  let b := (← Word.mul ct.body factor) % twoN
  let body ← ring.rotateInto ring.zero table.data ((twoN - b) % twoN)
  ensure (key.dimension != 0) .divisionByZero
  key.blocks.size.foldM (fun k _ acc =>
    rotateBlock ring key.gadget factor ct.mask key.blocks[k] acc) ⟨ring.zero, body⟩

/-- Evaluates the table on the phase and returns the result, with the offset added, modulo `target` under
the small secret. -/
def bootstrap (ring : NegacyclicRing) (key : Key) (switching : Lwe.SwitchingKey)
    (ct : Lwe.Ciphertext) (table : Table) (offset target : Nat) : Checked Lwe.Ciphertext := do
  let rotated ← rotate ring key table ct
  let extracted ← rotated.sampleExtract ring
  let shifted ← extracted.addConstant offset
  let switched ← switching.switch (← shifted.switchModulus switching.modulus)
  switched.switchModulus target

end LatticeGates.BlindRotation
