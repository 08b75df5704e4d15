import LatticeGates.Lwe.Ciphertext
import LatticeGates.Modulus.Vector

/-!
# Key switching

A switching key from `z` to `s` holds, for every coordinate `i` of `z`, every digit place `j` and every
digit `v` from `1` on, an encryption under `s` of `v * z i * base ^ j`. Switching subtracts the entries
picked by the digits of the mask.
-/

namespace LatticeGates.Lwe

/-- A body and a mask, in the order in which keys list them. -/
structure Sample where
  body : Nat
  mask : Array Nat
  deriving DecidableEq

structure SwitchingKey where
  base : Nat
  digits : Nat
  source : Nat
  target : Nat
  modulus : Nat
  entries : Array Sample
  deriving DecidableEq

namespace SwitchingKey

/-- How many factors of `base` lead from `power` to the modulus. -/
def digitsFrom (base modulus power : Nat) : Nat :=
  if h : 2 ≤ base ∧ 0 < power ∧ power < modulus then digitsFrom base modulus (power * base) + 1
  else 0
  termination_by modulus - power
  decreasing_by
    have : power * 2 ≤ power * base := Nat.mul_le_mul_left _ h.1
    omega

/-- The digits of a residue; below base two there is no end to them. -/
def digitCount (base modulus : Nat) : Checked Nat :=
  if base < 2 ∧ 1 < modulus then .error .exhausted else .ok (digitsFrom base modulus 1)

def zero (source target base modulus : Nat) : Checked SwitchingKey := do
  let digits ← digitCount base modulus
  let places ← Word.mul source digits
  let entries ← Word.mul places (← Word.sub base 1)
  Word.checkLength (← Word.mul entries (← Word.add target 1))
  return {
    base, digits, source, target, modulus
    entries := Array.ofFn fun _ : Fin entries => ⟨0, Array.replicate target 0⟩ }

/-- Where the entry for coordinate `i`, place `j` and digit `v` stands. -/
def position (key : SwitchingKey) (i j v : Nat) : Nat :=
  (i * key.digits + j) * (key.base - 1) + (v - 1)

/-- An entry with one more share: `⟨mask, s⟩ + message + error`. -/
def shareEntry (entry : Sample) (s : Secret) (q : Modulus) (message error : Int) :
    Checked Sample := do
  let message ← Signed.checkWide message
  let body ← q.add entry.body (← s.dot q entry.mask)
  let body ← q.add body (q.ofInt message)
  return { entry with body := ← q.add body (q.ofInt error) }

/-- What the entry at position `k` encrypts: `v * z i * base ^ j`. -/
def messageAt (key : SwitchingKey) (z : Secret) (powers : Array Nat) (k : Nat) : Int :=
  let v := k % (key.base - 1) + 1
  let place := k / (key.base - 1)
  v * z.coefficients.getD (place / key.digits) 0 * powers.getD (place % key.digits) 0

def addShare (key : SwitchingKey) (q : Modulus) (z s : Secret) (e : Array Int) :
    Checked SwitchingKey := do
  let powers := q.powers (key.base % q.value) key.digits
  let entries ← tabulate key.entries.size fun k _ =>
    shareEntry key.entries[k] s q (key.messageAt z powers k) (e.getD k 0)
  return { key with entries }

def accumulate (key : SwitchingKey) (z s : Secret) (sigma : Float) (errors : Stream) :
    Checked (SwitchingKey × Stream) := do
  ensure (z.dimension == key.source && s.dimension == key.target) .shapeMismatch
  let q ← Modulus.check key.modulus
  let (e, errors) ← Stream.gaussians sigma key.entries.size errors
  return (← key.addShare q z s e, errors)

def generate (z s : Secret) (base modulus : Nat) (sigma : Float) (masks errors : Stream) :
    Checked (SwitchingKey × Stream × Stream) := do
  let key ← zero z.dimension s.dimension base modulus
  let q ← Modulus.check modulus
  let (entries, masks) ← Stream.replicate key.entries.size (fun masks => do
    let (mask, masks) ← Stream.residues q key.target masks
    return ((⟨0, mask⟩ : Sample), masks)) masks
  let (key, errors) ← accumulate { key with entries } z s sigma errors
  return (key, masks, errors)

/-- Adds up the entries of coordinate `i` that the digits of `x` pick, from place `j` on. -/
def pick (key : SwitchingKey) (q : Modulus) (i : Nat) :
    (count j x : Nat) → Sample → Checked Sample
  | 0, _, _, acc => .ok acc
  | count + 1, j, x, acc => do
    let v ← Word.mod x key.base
    let acc ←
      if v = 0 then pure acc
      else match key.entries[key.position i j v]? with
        | some entry =>
          let body ← q.add acc.body entry.body
          pure ⟨body, ← q.addVector acc.mask entry.mask⟩
        | none => .error .outOfBounds
    pick key q i count (j + 1) (x / key.base) acc

/-- A ciphertext under the source secret becomes one under the target secret. -/
def switch (key : SwitchingKey) (ct : Ciphertext) : Checked Ciphertext := do
  ensure (ct.dimension == key.source && ct.modulus == key.modulus) .shapeMismatch
  let q ← Modulus.check key.modulus
  Word.checkLength key.target
  let total ← ct.mask.size.foldM
    (fun i _ acc => key.pick q i key.digits 0 ct.mask[i] acc)
    ⟨0, Array.replicate key.target 0⟩
  return {
    mask := ← q.negVector total.mask
    body := ← q.sub ct.body total.body
    modulus := q.value }

end SwitchingKey

end LatticeGates.Lwe
