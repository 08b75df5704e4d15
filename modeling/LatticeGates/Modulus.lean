import LatticeGates.Word

/-!
# Residues modulo a word-sized number

A modulus lies strictly between `1` and `2 ^ 62`. Residues are natural numbers below it; the operations
also accept unreduced words, and fault when a sum or a difference leaves the range of a word.
-/

namespace LatticeGates

/-- `res * base ^ e`, by squaring the base and halving the exponent. -/
def powModFrom (m res base e : Nat) : Nat :=
  if e = 0 then res
  else powModFrom m (if e % 2 = 1 then res * base % m else res) (base * base % m) (e / 2)
  termination_by e
  decreasing_by omega

def powMod (m a e : Nat) : Nat := powModFrom m 1 (a % m) e

structure Modulus where
  value : Nat
  one_lt : 1 < value
  lt_bound : value < 0x4000000000000000
  deriving DecidableEq

namespace Modulus

def check (q : Nat) : Checked Modulus :=
  if h : 1 < q ∧ q < 0x4000000000000000 then .ok ⟨q, h.1, h.2⟩ else .error (.invalidModulus q)

theorem check_value (q : Modulus) : check q.value = .ok q :=
  dif_pos ⟨q.one_lt, q.lt_bound⟩

theorem pos (q : Modulus) : 0 < q.value := Nat.lt_trans Nat.zero_lt_one q.one_lt

theorem lt_word (q : Modulus) : q.value < Word.bound := Nat.lt_trans q.lt_bound (by decide)

variable (q : Modulus)

/-- The word sum with one conditional subtraction. -/
@[inline] def add (a b : Nat) : Checked Nat :=
  match Word.add a b with
  | .ok s => .ok (if q.value ≤ s then s - q.value else s)
  | .error e => .error e

@[inline] def sub (a b : Nat) : Checked Nat :=
  if b ≤ a then .ok (a - b)
  else match Word.add a q.value with
    | .ok s => Word.sub s b
    | .error e => .error e

@[inline] def neg (a : Nat) : Checked Nat :=
  if a = 0 then .ok 0 else Word.sub q.value a

@[inline] def mul (a b : Nat) : Nat := a * b % q.value

@[inline] def mulAdd (acc a b : Nat) : Nat := (acc + a * b) % q.value

def pow (a e : Nat) : Nat := powMod q.value a e

def powers (w n : Nat) : Array Nat :=
  (n.fold (fun _ _ (acc : Array Nat × Nat) => (acc.1.push acc.2, q.mul acc.2 w))
    (Array.emptyWithCapacity n, 1)).1

/-- The inverse of a unit, when the modulus is prime. -/
def inv (a : Nat) : Nat := q.pow a (q.value - 2)

/-- The representative in `(-q/2, q/2]` of a residue. -/
@[inline] def center (a : Nat) : Checked Int :=
  if q.value / 2 < a then Signed.check (Signed.ofWord a - q.value) else .ok a

@[inline] def ofInt (x : Int) : Nat := (x % q.value).toNat

/-- The integer nearest to `a * target / source`, halves up, modulo `target`. -/
@[inline] def round (a source target : Nat) : Nat := (a * target + source / 2) / source % target

/-- Carries a residue modulo `source` over to the modulus `target`. -/
@[inline] def rescale (a source target : Nat) : Checked Nat :=
  if source = 0 ∨ target = 0 then .error .divisionByZero else .ok (round a source target)

variable {q}

theorem mul_lt (a b : Nat) : q.mul a b < q.value := Nat.mod_lt _ q.pos

theorem ofInt_lt (x : Int) : q.ofInt x < q.value := by
  have h := q.pos
  have := Int.emod_lt_of_pos x (b := (q.value : Int)) (by omega)
  have := Int.emod_nonneg x (b := (q.value : Int)) (by omega)
  simp only [ofInt]
  omega

theorem add_of_lt {a b : Nat} (ha : a < q.value) (hb : b < q.value) :
    q.add a b = .ok ((a + b) % q.value) := by
  have h := q.lt_bound
  have hs : a + b < Word.bound := by simp only [Word.bound]; omega
  simp only [add, Word.add_of_lt hs]
  split
  · rw [Nat.mod_eq_sub_mod (by assumption), Nat.mod_eq_of_lt (by omega)]
  · rw [Nat.mod_eq_of_lt (by omega)]

theorem sub_of_lt {a b : Nat} (ha : a < q.value) (hb : b < q.value) :
    q.sub a b = .ok ((a + (q.value - b)) % q.value) := by
  have h := q.lt_bound
  have hs : a + q.value < Word.bound := by simp only [Word.bound]; omega
  simp only [sub, Word.add_of_lt hs]
  split
  · rw [Nat.mod_eq_sub_mod (by omega), Nat.mod_eq_of_lt (by omega)]
    congr 1; omega
  · rw [Word.sub_of_le (by omega), Nat.mod_eq_of_lt (by omega)]
    congr 1; omega

theorem neg_of_lt {a : Nat} (ha : a < q.value) : q.neg a = .ok ((q.value - a) % q.value) := by
  simp only [neg]
  split
  · simp [*]
  · rw [Word.sub_of_le (by omega), Nat.mod_eq_of_lt (by omega)]

end Modulus

end LatticeGates
