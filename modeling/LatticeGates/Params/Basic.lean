import LatticeGates.Error
import LatticeGates.Gadget
import LatticeGates.Params.Security
import LatticeGates.Registry

/-!
# Parameters

Parameters come from explicit values, from a security profile with the size of the largest modulus, or
from the catalogue. The parts for small ciphertexts and for gadget ciphertexts agree on the ring and on
the small modulus.
-/

namespace LatticeGates

/-- The offset added before every bootstrap of a table; it bounds the noise that is tolerated. -/
def beta : Nat := 128

def trailingZeros (width x : Nat) : Nat := if x = 0 then width else (Prime.oddPart x).2

@[simp] theorem trailingZeros_zero (width : Nat) : trailingZeros width 0 = width := rfl

structure LweParams where
  dimension : Nat
  ringDimension : Nat
  modulus : Nat
  ringModulus : Nat
  switchingModulus : Nat
  sigma : Float
  switchingBase : Nat
  distribution : Distribution

structure RgswParams where
  ringDimension : Nat
  ringModulus : Nat
  modulus : Nat
  gadgetBase : Nat
  refreshBase : Nat
  method : Method
  sigma : Float
  /-- The gadgets of all bases for which keys can be made at once. -/
  gadgets : Registry (Array Nat)

structure Params where
  lwe : LweParams
  rgsw : RgswParams
  parties : Nat
  /-- Make keys for every base that has a gadget. -/
  everyBase : Bool

namespace RgswParams

def logBase (p : RgswParams) : Nat := trailingZeros 32 p.gadgetBase

def gadgetFor (p : RgswParams) (base : Nat) : Checked Gadget := do
  ensure (isPowerOfTwo base) (.invalidGadgetBase base)
  Gadget.check p.ringModulus (trailingZeros 32 base)

def gadget (p : RgswParams) : Checked Gadget := p.gadgetFor p.gadgetBase

end RgswParams

def gadgetsOf (ringModulus : Nat) (bases : List Nat) : Checked (Registry (Array Nat)) :=
  bases.foldlM (fun r base => do
    let g ← Gadget.check ringModulus (trailingZeros 64 base)
    return r.insert base g.powers) Registry.empty

/-- The gadget base preferred for a modulus of the given size. -/
def preferredBase (bits : Nat) : Nat :=
  if 25 < bits then 1 <<< 14 else if 16 < bits then 1 <<< 18 else 1 <<< 27

namespace Params

def defaultSigma : Float := 3.19

def multiBases : List Nat := [1 <<< 14, 1 <<< 18, 1 <<< 27]

/-- The largest prime up to `2 ^ bits` that is one modulo `m`. -/
def ringPrime (bits m : Nat) : Checked Nat := do
  Prime.below (← Prime.above bits m) m

/-- Parameters as given, for one party and without validation. -/
def explicit (dimension ringDimension modulus ringModulus : Nat) (sigma : Float)
    (switchingBase gadgetBase refreshBase : Nat) (method : Method) : Params where
  lwe := {
    dimension, ringDimension, modulus, ringModulus, sigma, switchingBase
    switchingModulus := ringModulus
    distribution := .ternary }
  rgsw := {
    ringDimension, ringModulus, modulus, gadgetBase, refreshBase, method, sigma
    gadgets := .empty }
  parties := 1
  everyBase := false

/-- The small dimension of the profiles that resolve to security parameters. -/
def securityDimension? : Profile → Option Nat
  | .toy => some 32
  | .std128 => some 1305
  | _ => none

/-- The size of the ring modulus, which is smaller for the smallest modulus. -/
def ringBits (bits : Nat) : Nat := if bits = 11 then 27 else 54

def filedGadgets (everyBase : Bool) (ringModulus : Nat) : Checked (Registry (Array Nat)) :=
  if everyBase then gadgetsOf ringModulus multiBases else .ok .empty

def overRing (dimension n : Nat) (arbitrary : Bool) (bits : Nat) (method : Method)
    (everyBase : Bool) : Checked Params := do
  let twoN ← Word.mul 2 n
  let ringModulus ← ringPrime (ringBits bits) twoN
  let modulus := if arbitrary then n else twoN
  let everyBase := everyBase && bits != 11
  let gadgets ← filedGadgets everyBase ringModulus
  return {
    lwe := {
      dimension, modulus, ringModulus
      ringDimension := n
      switchingModulus := 1 <<< 35
      sigma := defaultSigma
      switchingBase := 32
      distribution := .ternary }
    rgsw := {
      ringModulus, modulus, method, gadgets
      ringDimension := n
      gadgetBase := if bits = 11 then 1 <<< 5 else preferredBase bits
      refreshBase := 23
      sigma := defaultSigma }
    parties := 1
    everyBase }

/-- Parameters of a security profile for a largest modulus of the given size. A ring dimension other than
zero raises the one that the profile needs. -/
def ofSecurity (profile : Profile) (arbitrary : Bool) (bits ringDimension : Nat) (method : Method)
    (everyBase : Bool) : Attempt Params := do
  Attempt.require (method == .ginx) (.unsupportedMethod method)
  let some dimension := securityDimension? profile | Attempt.fail (.unsupportedProfile profile)
  Attempt.require (decide (11 ≤ bits ∧ bits ≤ 29)) (.modulusOutOfRange bits)
  Attempt.require (ringDimension == 0 || isPowerOfTwo ringDimension)
    (.invalidRingDimension ringDimension)
  let some least := SecurityLevel.classic128.ringDimension? .ternary (ringBits bits)
    | Attempt.fail (.modulusOutOfRange bits)
  overRing dimension (max least ringDimension) arbitrary bits method everyBase

def ofProfile (profile : Profile) (method : Method) (parties : Nat) : Checked Params := do
  let row := profile.row
  let ringDimension := row.order / 2
  let ringModulus ← ringPrime row.bits row.order
  return {
    lwe := {
      ringDimension, ringModulus
      dimension := row.dimension
      modulus := row.modulus
      switchingModulus := row.switchingModulus.getD ringModulus
      sigma := defaultSigma
      switchingBase := row.switchingBase
      distribution := row.distribution }
    rgsw := {
      ringDimension, ringModulus, method
      modulus := row.modulus
      gadgetBase := row.gadgetBase
      refreshBase := row.refreshBase
      sigma := defaultSigma
      gadgets := .empty }
    parties
    everyBase := false }

def profileOfName (name : String) : Attempt Profile :=
  match Profile.ofName? name with
  | some p => pure p
  | none => Attempt.fail (.unknownProfile name)

def ofName (name : String) (method : Method) (parties : Nat) : Attempt Params := do
  let profile ← profileOfName name
  ofProfile profile method parties

/-- The largest plaintext modulus that the bootstrap of a table supports. -/
def maxPlaintext (p : Params) : Nat := p.lwe.modulus / (2 * beta)

end Params

end LatticeGates
