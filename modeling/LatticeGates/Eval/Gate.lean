import LatticeGates.Context

/-!
# Gates on encrypted bits

A bit `x` is encrypted as the phase `x * q / 4`. A gate adds its inputs and bootstraps the sum through
the table that is one on half of the phases and zero on the other half.
-/

namespace LatticeGates

inductive Gate where
  | or
  | and
  | nor
  | nand
  | xor
  | xnor
  deriving DecidableEq, Repr

namespace Gate

/-- Where the half of the phases that gives one begins. -/
def regionStart (q : Nat) : Gate → Nat
  | or => q / 8
  | and => 3 * (q / 8)
  | nor => 5 * (q / 8)
  | nand => 7 * (q / 8)
  | xor => q / 4
  | xnor => 3 * (q / 4)

/-- Gates that read the sum of their inputs modulo two. -/
def doublesSum : Gate → Bool
  | xor | xnor => true
  | _ => false

def eval : Gate → Bool → Bool → Bool
  | or, x, y => x || y
  | and, x, y => x && y
  | nor, x, y => !(x || y)
  | nand, x, y => !(x && y)
  | xor, x, y => x != y
  | xnor, x, y => x == y

end Gate

namespace Context

def checkSmall (ctx : Context) (ct : Lwe.Ciphertext) : Attempt Unit :=
  Attempt.require (shapeOf ct == ctx.smallShape)
    (.dimensionMismatch ctx.smallShape (shapeOf ct))

/-- Bootstraps through `f`, which is tabulated on the lower half of the phases with values in the ring. -/
def bootstrapTable (ctx : Context) (key : BootstrapKey) (ct : Lwe.Ciphertext) (offset target : Nat)
    (f : Nat → Nat) : Checked Lwe.Ciphertext := do
  let table ← BlindRotation.Table.ofFn ctx.ring ct.modulus f
  BlindRotation.bootstrap ctx.ring key.rotation key.switching ct table offset target

def bootstrapChecked (ctx : Context) (key : BootstrapKey) (ct : Lwe.Ciphertext)
    (offset target : Nat) (f : Nat → Checked Nat) : Checked Lwe.Ciphertext := do
  let table ← BlindRotation.Table.ofChecked ctx.ring ct.modulus f
  BlindRotation.bootstrap ctx.ring key.rotation key.switching ct table offset target

/-- An eighth of the ring modulus on the half of the phases from `start`, its negative elsewhere. -/
def signValue (ringModulus q start x : Nat) : Nat :=
  let eighth := ringModulus / 8
  if (x + q - start) % q < q / 2 then eighth else ringModulus - eighth

def signEntry (ringModulus q start x : Nat) : Checked Nat := do
  let eighth := ringModulus / 8
  let turned ← Word.mod (← Word.sub (← Word.add x q) start) q
  if turned < q / 2 then return eighth else Word.sub ringModulus eighth

/-- Gives an encryption of one for the phases of half the circle from `start`, and of zero elsewhere. -/
def bootstrapSign (ctx : Context) (ct : Lwe.Ciphertext) (start : Nat) : Attempt Lwe.Ciphertext := do
  let key ← ctx.keys.active
  let q := ct.modulus
  let ringModulus := ctx.params.lwe.ringModulus
  ctx.bootstrapChecked key ct (ringModulus / 8) q (signEntry ringModulus q start)

def evalGate (ctx : Context) (gate : Gate) (x y : Lwe.Ciphertext) : Attempt Lwe.Ciphertext := do
  ctx.checkSmall x
  ctx.checkSmall y
  let sum ← x.add y
  let sum ← (if gate.doublesSum then sum.scale 2 else .ok sum : Checked _)
  ctx.bootstrapSign sum (gate.regionStart x.modulus)

def evalMajority (ctx : Context) (x y z : Lwe.Ciphertext) : Attempt Lwe.Ciphertext := do
  ctx.checkSmall x
  ctx.checkSmall y
  ctx.checkSmall z
  let sum ← (← x.add y).add z
  ctx.bootstrapSign sum (Gate.and.regionStart x.modulus)

def evalIdentity (ctx : Context) (x : Lwe.Ciphertext) : Attempt Lwe.Ciphertext := do
  ctx.checkSmall x
  let shifted ← x.addConstant (x.modulus / 4)
  ctx.bootstrapSign shifted (Gate.and.regionStart x.modulus)

/-- The phase `q / 4` less that of `x`. -/
def evalNot (x : Lwe.Ciphertext) : Checked Lwe.Ciphertext := do
  (← x.neg).addConstant (x.modulus / 4)

/-- The encryption of a bit without mask and noise. -/
def evalConstant (ctx : Context) (bit : Bool) : Checked Lwe.Ciphertext := do
  let q := ctx.params.lwe.modulus
  let body ← Modulus.rescale bit.toNat 4 q
  Word.checkLength ctx.params.lwe.dimension
  Lwe.Ciphertext.ofParts (Array.replicate ctx.params.lwe.dimension 0) body q

end Context

end LatticeGates
