import LatticeGates.Modulus

/-!
# Primes and roots of unity

The strong probable-prime test to the twelve smallest prime bases, searches for a prime along an
arithmetic progression, and primitive roots of unity whose order is a power of two.
-/

namespace LatticeGates

def isPowerOfTwo (m : Nat) : Bool := m != 0 && 1 <<< m.log2 == m

namespace Prime

def witnesses : List Nat := [2, 3, 5, 7, 11, 13, 17, 19, 23, 29, 31, 37]

def oddPart (n : Nat) : Nat × Nat :=
  if n = 0 ∨ n % 2 = 1 then (n, 0)
  else
    let (d, s) := oddPart (n / 2)
    (d, s + 1)
  termination_by n
  decreasing_by omega

/-- Whether one of the next `k` squarings of `y` gives `-1`. -/
def squaresToMinusOne (x : Nat) : (y k : Nat) → Bool
  | _, 0 => false
  | y, k + 1 => y * y % x == x - 1 || squaresToMinusOne x (y * y % x) k

/-- `x` is a strong probable prime to base `a`, where `x - 1 = d * 2 ^ s` with `d` odd. -/
def passes (x d s a : Nat) : Bool :=
  let y := powMod x a d
  y == 1 || y == x - 1 || squaresToMinusOne x y (s - 1)

/-- Trial division by the witnesses, then the strong test to each of them. -/
def isPrime (x : Nat) : Bool :=
  if x < 2 then false
  else match witnesses.find? (x % · == 0) with
    | some p => x == p
    | none =>
      let (d, s) := oddPart (x - 1)
      witnesses.all (passes x d s)

/-- The first prime of `p, p + m, p + 2 m, …`. -/
def searchUp (m p : Nat) : Checked Nat :=
  if isPrime p then .ok p
  else if _h : 0 < m ∧ p + m < Word.bound then searchUp m (p + m)
  else .error .overflow
  termination_by Word.bound - p

/-- The first prime of `p, p - m, p - 2 m, …`. -/
def searchDown (m p : Nat) : Checked Nat :=
  if isPrime p then .ok p
  else if _h : 0 < m ∧ m ≤ p then searchDown m (p - m)
  else .error (if m = 0 then .exhausted else .overflow)
  termination_by p

/-- The smallest prime above `2 ^ bits` that is one modulo `m`. -/
def above (bits m : Nat) : Checked Nat := do
  let r ← Word.shiftOne bits
  let rest ← Word.mod r m
  let start ← Word.add r ((m - rest) % m)
  searchUp m (← Word.add start 1)

/-- The largest prime below `p` that is congruent to `p` modulo `m`. -/
def below (p m : Nat) : Checked Nat := do
  searchDown m (← Word.sub p m)

/-- The first power `g ^ exponent`, for `g` onwards, of exact order `m`. Bases repeat modulo `q`, so the
search is over after `q + 1`. -/
def rootFrom (q : Modulus) (m exponent g : Nat) : Checked Nat :=
  let r := q.pow g exponent
  if q.pow r (m / 2) = q.value - 1 then .ok r
  else if g < q.value + 1 then rootFrom q m exponent (g + 1)
  else .error .exhausted
  termination_by q.value + 1 - g

/-- A primitive `m`-th root of unity modulo the prime `q`, for a power of two `m` dividing `q - 1`. -/
def rootOfUnity (m q : Nat) : Checked Nat := do
  ensure (isPowerOfTwo m) (.invalidOrder m)
  let predecessor ← Word.sub q 1
  ensure (predecessor % m == 0) (.orderNotDividing m predecessor)
  rootFrom (← Modulus.check q) m (predecessor / m) 2

end Prime

end LatticeGates
