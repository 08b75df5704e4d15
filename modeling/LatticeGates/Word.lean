import LatticeGates.Fault

/-!
# Machine words

Natural numbers below `2 ^ 64` and integers of 64 and 128 bits, with arithmetic that faults as soon as
a result leaves its range.
-/

namespace LatticeGates

namespace Word

@[inline] def bound : Nat := 0x10000000000000000

@[inline] def check (x : Nat) : Checked Nat :=
  if x < bound then .ok x else .error .overflow

@[inline] def add (a b : Nat) : Checked Nat := check (a + b)

@[inline] def sub (a b : Nat) : Checked Nat :=
  if b ≤ a then .ok (a - b) else .error .overflow

@[inline] def mul (a b : Nat) : Checked Nat := check (a * b)

@[inline] def div (a b : Nat) : Checked Nat :=
  if b = 0 then .error .divisionByZero else .ok (a / b)

@[inline] def mod (a b : Nat) : Checked Nat :=
  if b = 0 then .error .divisionByZero else .ok (a % b)

/-- `2 ^ k`, for a shift amount below the width of a word. -/
def shiftOne (k : Nat) : Checked Nat :=
  if k < 64 then .ok (1 <<< k) else .error .overflow

def bitLength (x : Nat) : Nat := if x = 0 then 0 else x.log2 + 1

/-- An array must fit in half of the address space. -/
def checkBytes (n : Nat) : Checked Unit := ensure (n < 0x8000000000000000) .overflow

/-- The length of an array of words. -/
def checkLength (n : Nat) : Checked Unit := checkBytes (8 * n)

theorem check_of_lt {x : Nat} (h : x < bound) : check x = .ok x := if_pos h

theorem add_of_lt {a b : Nat} (h : a + b < bound) : add a b = .ok (a + b) := check_of_lt h

theorem sub_of_le {a b : Nat} (h : b ≤ a) : sub a b = .ok (a - b) := if_pos h

theorem mul_of_lt {a b : Nat} (h : a * b < bound) : mul a b = .ok (a * b) := check_of_lt h

theorem mod_of_pos {a b : Nat} (h : 0 < b) : mod a b = .ok (a % b) := if_neg (by omega)

theorem checkBytes_of_lt {n : Nat} (h : n < 0x8000000000000000) : checkBytes n = .ok () := by
  simp only [checkBytes, h, decide_true, ensure_true]

theorem checkLength_of_lt {n : Nat} (h : n < 0x1000000000000000) : checkLength n = .ok () :=
  checkBytes_of_lt (by omega)

/-- The high word of a product, from the products of half words. -/
@[inline] def mulHigh (a b : UInt64) : UInt64 :=
  let a0 := a &&& 0xffffffff
  let a1 := a >>> 32
  let b0 := b &&& 0xffffffff
  let b1 := b >>> 32
  let p01 := a0 * b1
  let p10 := a1 * b0
  let middle := ((a0 * b0) >>> 32) + (p01 &&& 0xffffffff) + (p10 &&& 0xffffffff)
  a1 * b1 + (p01 >>> 32) + (p10 >>> 32) + (middle >>> 32)

private theorem toNat_low (a : UInt64) : (a &&& 0xffffffff).toNat = a.toNat % 4294967296 := by
  rw [UInt64.toNat_and]
  exact Nat.and_two_pow_sub_one_eq_mod a.toNat 32

private theorem toNat_high (a : UInt64) : (a >>> 32).toNat = a.toNat / 4294967296 := by
  rw [UInt64.toNat_shiftRight]
  exact Nat.shiftRight_eq_div_pow a.toNat 32

private theorem mul_halves (x0 x1 y0 y1 : Nat) :
    (4294967296 * x1 + x0) * (4294967296 * y1 + y0) =
      18446744073709551616 * (x1 * y1) + 4294967296 * (x0 * y1 + x1 * y0) + x0 * y0 := by
  grind

theorem toNat_mulHigh (a b : UInt64) : (mulHigh a b).toNat = a.toNat * b.toNat / bound := by
  have ha := a.toNat_lt
  have hb := b.toNat_lt
  simp only [mulHigh, UInt64.toNat_add, UInt64.toNat_mul, toNat_low, toNat_high]
  have expand := mul_halves (a.toNat % 4294967296) (a.toNat / 4294967296)
    (b.toNat % 4294967296) (b.toNat / 4294967296)
  rw [Nat.div_add_mod, Nat.div_add_mod] at expand
  have small {u v : Nat} (hu : u < 4294967296) (hv : v < 4294967296) :
      u * v ≤ 18446744065119617025 :=
    Nat.mul_le_mul (show u ≤ 4294967295 by omega) (show v ≤ 4294967295 by omega)
  have hx0 : a.toNat % 4294967296 < 4294967296 := by omega
  have hx1 : a.toNat / 4294967296 < 4294967296 := by omega
  have hy0 : b.toNat % 4294967296 < 4294967296 := by omega
  have hy1 : b.toNat / 4294967296 < 4294967296 := by omega
  have h00 := small hx0 hy0
  have h01 := small hx0 hy1
  have h10 := small hx1 hy0
  have h11 := small hx1 hy1
  rw [expand]
  generalize a.toNat % 4294967296 * (b.toNat % 4294967296) = p00 at *
  generalize a.toNat % 4294967296 * (b.toNat / 4294967296) = p01 at *
  generalize a.toNat / 4294967296 * (b.toNat % 4294967296) = p10 at *
  generalize a.toNat / 4294967296 * (b.toNat / 4294967296) = p11 at *
  clear ha hb hx0 hx1 hy0 hy1 expand small
  simp only [bound]
  omega

end Word

namespace Signed

/-- The signed 64-bit range. -/
@[inline] def check (x : Int) : Checked Int :=
  if -0x8000000000000000 ≤ x ∧ x < 0x8000000000000000 then .ok x else .error .overflow

/-- The signed 128-bit range. -/
@[inline] def checkWide (x : Int) : Checked Int :=
  if -0x80000000000000000000000000000000 ≤ x ∧ x < 0x80000000000000000000000000000000 then .ok x
  else .error .overflow

@[inline] def ofWord (a : Nat) : Int :=
  if a < 0x8000000000000000 then a else (a : Int) - 0x10000000000000000

theorem check_of_range {x : Int} (lo : -0x8000000000000000 ≤ x) (hi : x < 0x8000000000000000) :
    check x = .ok x :=
  if_pos ⟨lo, hi⟩

theorem checkWide_of_range {x : Int} (lo : -0x80000000000000000000000000000000 ≤ x)
    (hi : x < 0x80000000000000000000000000000000) : checkWide x = .ok x :=
  if_pos ⟨lo, hi⟩

end Signed

end LatticeGates
