import LatticeGates.Gadget
import LatticeGates.Rlwe

/-!
# Gadget ciphertexts

A gadget ciphertext of `m` with `d` digits has `2 d` ring ciphertexts, held by their values. Row `l < d`
encrypts `-m * B ^ l * z` and row `d + l` encrypts `m * B ^ l`. The external product with a ring
ciphertext multiplies its message by `m`.
-/

namespace LatticeGates

structure Rgsw where
  rows : Array Rlwe.Ciphertext
  deriving DecidableEq

/-- Uniform polynomials shared by all parties, one for each row, by their values. -/
structure CommonReference where
  rows : Array Poly
  deriving DecidableEq

/-- The number of rows for a number of digits. Each row is an array of its own, whose header takes three
words. -/
def Rgsw.rowCount (digits : Nat) : Checked Nat := do
  let rows ← Word.mul 2 digits
  Word.checkLength (3 * rows)
  return rows

def CommonReference.generate (ring : NegacyclicRing) (digits : Nat) : Draw CommonReference :=
  fun s => do
    let (rows, s) ← Stream.replicate (← Rgsw.rowCount digits) (Stream.residues ring.modulus ring.degree) s
    return (⟨rows⟩, s)

namespace Rgsw

def zero (n digits : Nat) : Rgsw := ⟨Array.replicate (2 * digits) (Rlwe.Ciphertext.zero n)⟩

/-- The zero ciphertext of a dimension and a number of digits that have yet to be checked. -/
def ofShape (n digits : Nat) : Checked Rgsw := do
  Word.checkLength n
  let rows ← rowCount digits
  return ⟨Array.ofFn fun _ : Fin rows => Rlwe.Ciphertext.zero n⟩

def digits (x : Rgsw) : Nat := x.rows.size / 2

def modifyRow (x : Rgsw) (l : Nat) (f : Rlwe.Ciphertext → Checked Rlwe.Ciphertext) :
    Checked Rgsw :=
  if h : l < x.rows.size then do
    let row ← f x.rows[l]
    return ⟨x.rows.set l row⟩
  else .error .outOfBounds

/-- Adds `m` times the gadget: to the masks of the first half, to the bodies of the second one. -/
def addGadget (ring : NegacyclicRing) (g : Gadget) (m : Int) (x : Rgsw) : Checked Rgsw :=
  let q := ring.modulus
  let d := x.digits
  let powers := g.powers
  let m := q.ofInt m
  powers.size.foldM (fun l _ x => do
    let c := q.mul m powers[l]
    let x ← modifyRow x l fun row => return { row with mask := ← ring.addScalar row.mask c }
    modifyRow x (d + l) fun row => return { row with body := ← ring.addScalar row.body c }) x

def valuesOf (ring : NegacyclicRing) (e : Array Int) : Checked Poly := ring.forward (ring.ofSigned e)

/-- The encryption of `m` with given masks and errors. -/
def assemble (ring : NegacyclicRing) (g : Gadget) (x : Rgsw) (sk : Rlwe.Secret) (m : Int)
    (masks : Array Poly) (errors : Array (Array Int)) : Checked Rgsw := do
  let rows ← tabulate x.rows.size fun l _ => do
    let mask := masks.getD l #[]
    let e ← valuesOf ring (errors.getD l #[])
    return ⟨mask, ← ring.add (ring.mulInto x.rows[l].body mask sk.values) e⟩
  addGadget ring g m ⟨rows⟩

def encrypt (ring : NegacyclicRing) (g : Gadget) (x : Rgsw) (sk : Rlwe.Secret) (m : Int)
    (sigma : Float) (masks errors : Stream) : Checked (Rgsw × Stream × Stream) := do
  let (a, masks) ← Stream.collect x.rows.size
    (fun l _ => Stream.residues ring.modulus x.rows[l].mask.size) masks
  let (e, errors) ← Stream.replicate x.rows.size (Stream.gaussians sigma ring.degree) errors
  return (← assemble ring g x sk m a e, masks, errors)

/-- The small polynomials that rerandomise a row: `u (a, b) + (maskError, bodyError)`. -/
structure RowNoise where
  maskError : Array Int
  bodyError : Array Int

def drawRowNoise (ring : NegacyclicRing) (sigma : Float) : Draw RowNoise := fun s => do
  let (maskError, s) ← Stream.gaussians sigma ring.degree s
  let (bodyError, s) ← Stream.gaussians sigma ring.degree s
  return ({ maskError, bodyError }, s)

/-- The rows of `pk` rerandomised, plus `m` times the gadget. -/
def rerandomise (ring : NegacyclicRing) (g : Gadget) (x pk : Rgsw) (m : Int)
    (ternaries : Array (Array Int)) (noise : Array RowNoise) : Checked Rgsw := do
  let rows ← tabulate x.rows.size fun l _ => do
    let row := x.rows[l]
    let key := pk.rows.getD l (Rlwe.Ciphertext.zero 0)
    let e := noise.getD l ⟨#[], #[]⟩
    let u ← valuesOf ring (ternaries.getD l #[])
    let mask ← ring.add (ring.mulInto row.mask u key.mask) (← valuesOf ring e.maskError)
    let body ← ring.add (ring.mulInto row.body u key.body) (← valuesOf ring e.bodyError)
    return ⟨mask, body⟩
  addGadget ring g m ⟨rows⟩

/-- An encryption of `m` made from an encryption of zero. -/
def encryptPublic (ring : NegacyclicRing) (g : Gadget) (x pk : Rgsw) (m : Int) (sigma : Float)
    (ternaries errors : Stream) : Checked (Rgsw × Stream × Stream) := do
  ensure (pk.rows.size == x.rows.size) .shapeMismatch
  let (u, ternaries) ← Stream.replicate x.rows.size (Stream.ternaries ring.degree) ternaries
  let (e, errors) ← Stream.replicate x.rows.size (drawRowNoise ring sigma) errors
  return (← rerandomise ring g x pk m u e, ternaries, errors)

/-- The share of one party in an encryption under a joint secret, with given errors; the lead party alone
adds the masks and the message. -/
def assembleShare (ring : NegacyclicRing) (g : Gadget) (x : Rgsw) (reference : CommonReference)
    (sk : Rlwe.Secret) (m : Int) (lead : Bool) (errors : Array (Array Int)) : Checked Rgsw := do
  let rows ← tabulate x.rows.size fun l _ => do
    let row := x.rows[l]
    let a := reference.rows.getD l #[]
    ensure (!lead || a.size == row.mask.size) .shapeMismatch
    let mask := if lead then a else Array.replicate row.mask.size 0
    let e ← valuesOf ring (errors.getD l #[])
    return ⟨mask, ← ring.add (ring.mulInto row.body a sk.values) e⟩
  if lead then addGadget ring g m ⟨rows⟩ else return ⟨rows⟩

/-- A share with fresh errors, over the shape of `x`. -/
def encryptShare (ring : NegacyclicRing) (g : Gadget) (x : Rgsw) (reference : CommonReference)
    (sk : Rlwe.Secret) (m : Int) (lead : Bool) (sigma : Float) (errors : Stream) :
    Checked (Rgsw × Stream) := do
  ensure (reference.rows.size == x.rows.size) .shapeMismatch
  let (e, errors) ← Stream.replicate x.rows.size (Stream.gaussians sigma ring.degree) errors
  return (← assembleShare ring g x reference sk m lead e, errors)

def add (ring : NegacyclicRing) (x y : Rgsw) : Checked Rgsw := do
  ensure (x.rows.size == y.rows.size) .shapeMismatch
  return ⟨← zipChecked (fun r s => return ⟨← ring.add r.mask s.mask, ← ring.add r.body s.body⟩)
    x.rows y.rows⟩

/-- Rounds the constant coefficient of the last row's phase to a multiple of the last gadget entry. -/
def decrypt (ring : NegacyclicRing) (g : Gadget) (x : Rgsw) (sk : Rlwe.Secret) : Checked Int := do
  match x.rows.back? with
  | none => .error .overflow
  | some last =>
    let phase ← ring.backward (← ring.sub last.body (ring.mul last.mask sk.values))
    let some weight := g.powers[x.digits - 1]? | .error .outOfBounds
    let c ← ring.modulus.center (phase.getD 0 0)
    ensure (weight != 0) .divisionByZero
    return (c + c.sign * (weight / 2 : Nat)).tdiv weight

/-- The sum of the rows at entry `i`, each times its digit: the digits of the mask go with the first half
of the rows and those of the body with the second one. -/
def entrySum (rows maskDigits bodyDigits : Array Poly) (d i : Nat) : Nat :=
  d.fold (fun l _ acc =>
    acc + (maskDigits.getD l #[]).getD i 0 * (rows.getD l #[]).getD i 0
      + (bodyDigits.getD l #[]).getD i 0 * (rows.getD (d + l) #[]).getD i 0) 0

/-- The sum of all rows, each times its digit. -/
def combine (ring : NegacyclicRing) (x : Rgsw) (maskDigits bodyDigits : Array Poly) :
    Checked Rlwe.Ciphertext := do
  let d := x.digits
  ensure (decide (d ≤ maskDigits.size ∧ d ≤ bodyDigits.size)) .outOfBounds
  let entry (rows : Array Poly) : Poly := Array.ofFn fun i : Fin ring.degree =>
    entrySum rows maskDigits bodyDigits d i % ring.modulus.value
  return ⟨entry (x.rows.map (·.mask)), entry (x.rows.map (·.body))⟩

def digitValues (ring : NegacyclicRing) (g : Gadget) (rows : Nat) (a : Poly) :
    Checked (Array Poly) := do
  mapChecked ring.forward (← g.decomposeInto rows ring.degree a)

def externalProduct (ring : NegacyclicRing) (g : Gadget) (x : Rgsw) (ct : Rlwe.Ciphertext) :
    Checked Rlwe.Ciphertext := do
  let maskDigits ← digitValues ring g x.digits ct.mask
  let bodyDigits ← digitValues ring g x.digits ct.body
  let r ← combine ring x maskDigits bodyDigits
  return ⟨← ring.backward r.mask, ← ring.backward r.body⟩

end Rgsw

end LatticeGates
