import LatticeGates.Modulus.Vector
import LatticeGates.Transform

/-!
# The ring of polynomials modulo `X ^ n + 1`

Operations on polynomials with coefficients modulo `q`. An operation that updates a polynomial with the
entries of another one goes up to the end of the shorter one and keeps the rest.
-/

namespace LatticeGates

structure NegacyclicRing where
  transform : Transform

namespace NegacyclicRing

def check (n q : Nat) : Checked NegacyclicRing := do
  let _ ← Modulus.check q
  return ⟨← Transform.check n q⟩

variable (ring : NegacyclicRing)

def degree : Nat := ring.transform.size

def logDegree : Nat := ring.transform.logSize

def modulus : Modulus := ring.transform.modulus

def zero : Poly := Array.replicate ring.degree 0

def forward (a : Poly) : Checked Poly := ring.transform.forward a

def backward (a : Poly) : Checked Poly := ring.transform.backward a

def add (a b : Poly) : Checked Poly := ring.modulus.addVector a b

def sub (a b : Poly) : Checked Poly := ring.modulus.subVector a b

def neg (a : Poly) : Checked Poly := ring.modulus.negVector a

def addSigned (a : Poly) (e : Array Int) : Checked Poly := ring.modulus.addSigned a e

def ofSigned (e : Array Int) : Poly := e.map ring.modulus.ofInt

/-- Adds a constant to every entry; on values this adds the constant polynomial. -/
def addScalar (a : Poly) (c : Nat) : Checked Poly := mapChecked (ring.modulus.add · c) a

/-- Entrywise products, written over `r`. -/
def mulInto (r a b : Poly) : Poly :=
  Array.ofFn fun i : Fin r.size =>
    if h : i.1 < a.size ∧ i.1 < b.size then
      have := h.1
      have := h.2
      ring.modulus.mul a[i.1] b[i.1]
    else r[i]

/-- Entrywise products, added to `r`. -/
def mulAddInto (r a b : Poly) : Poly :=
  Array.ofFn fun i : Fin r.size =>
    if h : i.1 < a.size ∧ i.1 < b.size then
      have := h.1
      have := h.2
      ring.modulus.mulAdd r[i] a[i.1] b[i.1]
    else r[i]

def mul (a b : Poly) : Poly := ring.mulInto ring.zero a b

/-- Replaces the entry at `i`, which has to exist. -/
@[inline] def modifyAt (r : Poly) (i : Nat) (f : Nat → Checked Nat) : Checked Poly :=
  if h : i < r.size then do
    let x ← f r[i]
    return r.set i x
  else .error .outOfBounds

/-- Writes the entries of `X ^ k * a` into `r`. -/
def rotateInto (r a : Poly) (k : Nat) : Checked Poly :=
  let n := ring.degree
  let k := k % (2 * n)
  a.size.foldM (fun j _ r =>
    let x := a[j]
    if j + k < n then modifyAt r (j + k) fun _ => .ok x
    else if j + k < 2 * n then modifyAt r (j + k - n) fun _ => ring.modulus.neg x
    else modifyAt r (j + k - 2 * n) fun _ => .ok x) r

/-- Adds `(X ^ k - 1) * a` to `r`. -/
def addMonomialMinusOne (r a : Poly) (k : Nat) : Checked Poly :=
  let n := ring.degree
  let k := k % (2 * n)
  if k = 0 then .ok r
  else
    a.size.foldM (fun j _ r => do
      let x := a[j]
      let r ←
        if j + k < n then modifyAt r (j + k) (ring.modulus.add · x)
        else if j + k < 2 * n then modifyAt r (j + k - n) (ring.modulus.sub · x)
        else modifyAt r (j + k - 2 * n) (ring.modulus.add · x)
      modifyAt r j (ring.modulus.sub · x)) r

end NegacyclicRing

end LatticeGates
