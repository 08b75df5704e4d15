import LatticeGates.Rgsw

/-!
# Blind rotation keys

For every coordinate of a ternary secret the key has a pair of gadget ciphertexts, of the positive and of
the negative part. A joint key has one block of pairs for each party.
-/

namespace LatticeGates.BlindRotation

structure Pair where
  plus : Rgsw
  minus : Rgsw
  deriving DecidableEq

structure Key where
  gadget : Gadget
  dimension : Nat
  blocks : Array (Array Pair)
  deriving DecidableEq

/-- The positive and the negative part of a ternary coefficient. -/
def ternarySplit (s : Int) : Int × Int :=
  if s = 1 then (1, 0) else if s = -1 then (0, 1) else (0, 0)

/-- A block for a ternary secret, with each part encrypted by `encrypt` from two streams. -/
def encryptBlock (sk : Lwe.Secret)
    (encrypt : Int → Stream → Stream → Checked (Rgsw × Stream × Stream)) (x y : Stream) :
    Checked (Array Pair × Stream × Stream) := do
  ensure (← sk.isTernary) .secretNotTernary
  sk.coefficients.size.foldM (fun i _ acc => do
    let (pairs, x, y) := acc
    let (p, m) := ternarySplit sk.coefficients[i]
    let (plus, x, y) ← encrypt p x y
    let (minus, x, y) ← encrypt m x y
    return (pairs.push ⟨plus, minus⟩, x, y)) (#[], x, y)

namespace Key

def empty (dimension : Nat) (gadget : Gadget) : Key := ⟨gadget, dimension, #[]⟩

def generate (ring : NegacyclicRing) (gadget : Gadget) (z : Rlwe.Secret) (sk : Lwe.Secret)
    (sigma : Float) (masks errors : Stream) : Checked (Key × Stream × Stream) := do
  let shape := Rgsw.zero ring.degree gadget.digits
  let (block, masks, errors) ← encryptBlock sk
    (fun m masks errors => Rgsw.encrypt ring gadget shape z m sigma masks errors) masks errors
  return (⟨gadget, sk.dimension, #[block]⟩, masks, errors)

/-- Appends the block of another party, made from an encryption of zero under the joint secret. -/
def append (ring : NegacyclicRing) (key : Key) (pk : Rgsw) (sk : Lwe.Secret) (sigma : Float)
    (ternaries errors : Stream) : Checked (Key × Stream × Stream) := do
  ensure (sk.dimension == key.dimension) .shapeMismatch
  let shape := Rgsw.zero ring.degree key.gadget.digits
  let (block, ternaries, errors) ← encryptBlock sk
    (fun m ternaries errors =>
      Rgsw.encryptPublic ring key.gadget shape pk m sigma ternaries errors) ternaries errors
  return ({ key with blocks := key.blocks.push block }, ternaries, errors)

def blockCount (key : Key) : Checked Nat :=
  if key.dimension = 0 then .error .divisionByZero else .ok key.blocks.size

end Key

end LatticeGates.BlindRotation
