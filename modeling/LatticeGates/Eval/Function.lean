import LatticeGates.Eval.Gate

/-!
# Functions on encrypted messages

A table has one entry for every phase modulo `q`. Negacyclic tables take one bootstrap. Other tables take
two: the first one folds the phase into the half that a bootstrap reads as it is.
-/

namespace LatticeGates

inductive TableClass where
  /-- The upper half is the negative of the lower one. -/
  | negacyclic
  /-- The upper half repeats the lower one. -/
  | periodic
  | arbitrary
  deriving DecidableEq, Repr

def cancels (q : Nat) : List (Nat × Nat) → Checked Bool
  | [] => .ok true
  | (x, y) :: rest => do
    let total ← Word.add x y
    if (← Word.mod total q) = 0 then cancels q rest else return false

def TableClass.ofTable (table : Array Nat) (q : Nat) : Checked TableClass := do
  let low := table.extract 0 (table.size / 2)
  let high := table.extract (table.size / 2) table.size
  if ← cancels q (low.toList.zip high.toList) then return .negacyclic
  else if low = high then return .periodic
  else return .arbitrary

namespace Context

def tableValue (ctx : Context) (table : Array Nat) (q x : Nat) : Nat :=
  Modulus.round (table.getD x 0 % q) q ctx.params.lwe.ringModulus

def tableEntry (ctx : Context) (table : Array Nat) (q x : Nat) : Checked Nat := do
  let some y := table[x]? | .error .outOfBounds
  Modulus.rescale (← Word.mod y q) q ctx.params.lwe.ringModulus

/-- Moves a phase that lies in the upper half of the circle down by half a turn, and both to the half
that a table reads as it is. -/
def foldPhase (ctx : Context) (key : BootstrapKey) (ct : Lwe.Ciphertext) :
    Checked Lwe.Ciphertext := do
  let m := ct.modulus
  let quarter := m / 4
  let side ← ctx.bootstrapChecked key (← ct.addConstant beta) 0 m
    fun _ => do Modulus.rescale (← Word.sub m quarter) m ctx.params.lwe.ringModulus
  let folded ← ct.sub side
  (← folded.addConstant beta).subConstant quarter

/-- An encryption of the entry of the table at the phase. -/
def evalFunction (ctx : Context) (ct : Lwe.Ciphertext) (table : Array Nat) :
    Attempt Lwe.Ciphertext := do
  ctx.checkSmall ct
  let q := ct.modulus
  Attempt.require (table.size == q) (.tableSize q table.size)
  let key ← ctx.keys.active
  let entry := ctx.tableEntry table q
  match ← TableClass.ofTable table q with
  | .negacyclic => ctx.bootstrapChecked key (← ct.addConstant beta) 0 q entry
  | .periodic => ctx.bootstrapChecked key (← ctx.foldPhase key ct) 0 q entry
  | .arbitrary =>
    let n := ctx.params.lwe.ringDimension
    Attempt.require (decide (q ≤ n)) (.functionModulusTooLarge q n)
    ctx.bootstrapChecked key (← ctx.foldPhase key (← ct.lift (2 * q))) 0 q entry

def outputsFrom (f : Nat → Nat → Nat) (p interval : Nat) :
    (count input : Nat) → Array Nat → Attempt (Array Nat)
  | 0, _, outputs => pure outputs
  | count + 1, input, outputs => do
    let output := f input p
    Attempt.require (decide (output < p)) (.functionRange input output p)
    outputsFrom f p interval count (input + 1) (outputs.push (output * interval))

/-- The table of a function on messages modulo `p`. Each message fills an interval of `q / p` phases; the
last one also takes the phases that are left over. -/
def generateTable (ctx : Context) (f : Nat → Nat → Nat) (p : Nat) : Attempt (Array Nat) := do
  let q := ctx.params.lwe.modulus
  Attempt.require (isPowerOfTwo p && decide (p ≤ q)) (.invalidModulus p)
  let interval := q / p
  Word.checkLength p
  let outputs ← outputsFrom f p interval p 0 #[]
  Word.checkLength q
  return Array.ofFn fun i : Fin q => outputs.getD (min (i / interval) (p - 1)) 0

end Context

end LatticeGates
