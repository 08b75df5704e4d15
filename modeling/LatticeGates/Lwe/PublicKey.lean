import LatticeGates.Lwe.Ciphertext
import LatticeGates.Modulus.Vector

/-!
# Public keys

A public key of a secret `z` is a uniform square matrix `A` with the vector `A z + e`. Parties that
share `A` add up their vectors to a public key of the sum of their secrets.
-/

namespace LatticeGates.Lwe

structure PublicKey where
  matrix : Array (Array Nat)
  vector : Array Nat
  modulus : Nat
  deriving DecidableEq

namespace PublicKey

def dimension (pk : PublicKey) : Nat := pk.vector.size

/-- Adds the share `A z + e` of the secret `z` to the vector. -/
def addShare (pk : PublicKey) (q : Modulus) (z : Secret) (e : Array Int) : Checked PublicKey := do
  let share ← q.addSigned (← mapChecked (z.dot q) pk.matrix) e
  return { pk with vector := ← q.addVector pk.vector share }

def accumulate (pk : PublicKey) (z : Secret) (sigma : Float) (errors : Stream) :
    Checked (PublicKey × Stream) := do
  ensure (z.dimension == pk.dimension) .shapeMismatch
  let q ← Modulus.check pk.modulus
  let (e, errors) ← Stream.gaussians sigma pk.dimension errors
  return (← pk.addShare q z e, errors)

def generate (z : Secret) (modulus : Nat) (sigma : Float) (masks errors : Stream) :
    Checked (PublicKey × Stream × Stream) := do
  let n := z.dimension
  Word.checkLength (n * n)
  let q ← Modulus.check modulus
  let (matrix, masks) ← Stream.replicate n (Stream.residues q n) masks
  let (pk, errors) ← accumulate ⟨matrix, Array.replicate n 0, modulus⟩ z sigma errors
  return (pk, masks, errors)

/-- Adds the rows that the signs pick, each with its entry of the vector. -/
def combine (pk : PublicKey) (q : Modulus) (signs : Array Int) (mask : Array Nat) (body : Nat) :
    Checked (Array Nat × Nat) :=
  signs.size.foldM (fun i _ acc =>
    let row := pk.matrix.getD i #[]
    let entry := pk.vector.getD i 0
    if signs[i] = 0 then .ok acc
    else if signs[i] = 1 then
      return (← q.addVector acc.1 row, ← q.add acc.2 entry)
    else
      return (← q.subVector acc.1 row, ← q.sub acc.2 entry)) (mask, body)

/-- The encryption of `m` modulo `p` with given signs and errors. -/
def assemble (pk : PublicKey) (q : Modulus) (m p : Nat) (signs maskErrors : Array Int)
    (bodyError : Int) : Checked Ciphertext := do
  let (mask, body) ← pk.combine q signs (maskErrors.map q.ofInt) (q.ofInt bodyError)
  return ⟨mask, ← q.add body (← Ciphertext.encode m p q.value), q.value⟩

/-- A fresh encryption of `m` modulo `p`, over the shape of `ct`. The signs come from the first stream
and the errors from the second one. -/
def encrypt (pk : PublicKey) (ct : Ciphertext) (m p : Nat) (sigma : Float) (signs errors : Stream) :
    Checked (Ciphertext × Stream × Stream) := do
  ensure (ct.dimension == pk.dimension && ct.modulus == pk.modulus) .shapeMismatch
  let q ← Modulus.check ct.modulus
  let (maskErrors, errors) ← Stream.gaussians sigma ct.dimension errors
  let (bodyError, errors) ← Stream.gaussian sigma errors
  let (r, signs) ← Stream.ternaries pk.dimension signs
  return (← pk.assemble q m p r maskErrors bodyError, signs, errors)

end PublicKey

end LatticeGates.Lwe
