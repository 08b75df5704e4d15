import LatticeGates.Eval.Function

/-!
# Large-precision evaluation

A message at a modulus `M` above `q` is worked on from its low end: a floor clears the low bits of the
phase, and a modulus switch drops them, until the modulus is at most `q`.
-/

namespace LatticeGates.Context

def checkPrecision (ctx : Context) (ct : Lwe.Ciphertext) (min : Nat) : Attempt Unit := do
  let lwe := ctx.params.lwe
  let max := Nat.min lwe.ringModulus lwe.switchingModulus
  let m := ct.modulus
  Attempt.require (ct.dimension == lwe.dimension)
    (.dimensionMismatch ⟨lwe.dimension, m⟩ (shapeOf ct))
  Attempt.require (decide (4 * beta ≤ lwe.modulus)) (.precisionOutOfRange lwe.modulus (4 * beta) max)
  Attempt.require (isPowerOfTwo m && decide (min ≤ m ∧ m ≤ max)) (.precisionOutOfRange m min max)

/-- The residue of a phase modulo `step`, given in the two halves that follow a fold: the residues from
`step / 2` on are read through the change of sign. -/
def residueValue (ringModulus m step x : Nat) : Nat :=
  let v := if x < step / 4 then m - step / 2 - x else x
  Modulus.round v m ringModulus

def residueEntry (ringModulus m step x : Nat) : Checked Nat := do
  let v ← if x < step / 4 then (do Word.sub (← Word.sub m (step / 2)) x) else .ok x
  Modulus.rescale v m ringModulus

/-- Rounds the phase, with the offset added, down to a multiple of `step`. -/
def floorWith (ctx : Context) (key : BootstrapKey) (ct : Lwe.Ciphertext) (step : Nat) :
    Checked Lwe.Ciphertext := do
  let m := ct.modulus
  let ringModulus := ctx.params.lwe.ringModulus
  let shifted ← ct.addConstant beta
  let side ← ctx.bootstrapChecked key (← shifted.reduce step) 0 m
    fun _ => do Modulus.rescale (← Word.sub m (step / 4)) m ringModulus
  let centred ← shifted.sub side
  let residue ← ctx.bootstrapChecked key (← centred.reduce step) 0 m
    (residueEntry ringModulus m step)
  centred.sub residue

/-- Clears the low bits of the phase: those below `q`, or those below `256 * 2 ^ roundBits`. -/
def evalFloor (ctx : Context) (ct : Lwe.Ciphertext) (roundBits : Nat) : Attempt Lwe.Ciphertext := do
  let q := ctx.params.lwe.modulus
  ctx.checkPrecision ct q
  let max := (Prime.oddPart ctx.params.maxPlaintext).2
  Attempt.require (decide (roundBits ≤ max)) (.invalidRoundBits roundBits max)
  let step := if roundBits = 0 then q else (2 * beta) <<< roundBits
  ctx.floorWith (← ctx.keys.active) ct step

def nextModulus (q m : Nat) : Nat := m / q * 2 * beta

theorem nextModulus_lt {q m : Nat} (hq : 4 * beta ≤ q) (hm : q < m) : nextModulus q m < m := by
  have h : m / q * q ≤ m := Nat.div_mul_le_self m q
  have : m / q * (4 * beta) ≤ m / q * q := Nat.mul_le_mul_left _ hq
  simp only [nextModulus, beta] at *
  omega

/-- The number of zero bits at the end of a modulus. -/
def logModulus (m : Nat) : Nat := (Prime.oddPart m).2

def dropDigit (ctx : Context) (q : Nat) (ct : Lwe.Ciphertext) (m : Nat) : Attempt Lwe.Ciphertext := do
  let key ← ctx.keys.forPrecision (logModulus m)
  let cleared ← ctx.floorWith key ct q
  cleared.switchModulus (nextModulus q m)

/-- Drops digits until the modulus `m` is at most `q`, and returns what was dropped as well. -/
def dropDigits (ctx : Context) (q m : Nat) (ct : Lwe.Ciphertext) (digits : Bool)
    (dropped : Array Lwe.Ciphertext) : Attempt (Array Lwe.Ciphertext × Lwe.Ciphertext × Nat) := do
  if h : 4 * beta ≤ q ∧ q < m then
    have := nextModulus_lt h.1 h.2
    let dropped ← (if digits then dropped.push <$> ct.reduce q else .ok dropped : Checked _)
    let ct ← ctx.dropDigit q ct m
    dropDigits ctx q (nextModulus q m) ct digits dropped
  else return (dropped, ct, m)
  termination_by m

/-- An encryption of one if the phase lies in the upper half of the circle, of zero elsewhere. -/
def evalSign (ctx : Context) (ct : Lwe.Ciphertext) : Attempt Lwe.Ciphertext := do
  let q := ctx.params.lwe.modulus
  ctx.checkPrecision ct (2 * q % Word.bound)
  let (_, last, m) ← ctx.dropDigits q ct.modulus ct false #[]
  let shifted ← last.addConstant beta
  let key ← ctx.keys.forPrecision (logModulus m)
  let quarter := ctx.params.lwe.ringModulus / 4
  let sign ← ctx.bootstrapChecked key shifted 0 q fun _ => .ok quarter
  sign.subConstant (q / 4)

/-- The digits of the phase in base `q / 256`, least significant first. All but the last are at modulus
`q`; the last one keeps the modulus that is left. -/
def evalDigits (ctx : Context) (ct : Lwe.Ciphertext) : Attempt (Array Lwe.Ciphertext) := do
  let q := ctx.params.lwe.modulus
  ctx.checkPrecision ct (2 * q % Word.bound)
  let (digits, last, _) ← ctx.dropDigits q ct.modulus ct true #[]
  return digits.push last

end LatticeGates.Context
