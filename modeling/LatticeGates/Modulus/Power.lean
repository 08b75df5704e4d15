import LatticeGates.Modulus
import Mathlib

/-!
# Powers by repeated squaring

Main statement: repeated squaring computes the residue of a power.
-/

namespace LatticeGates

private theorem powModFrom_eq (m res base e : Nat) :
    powModFrom m res base e % m = res * base ^ e % m := by
  induction e using Nat.strongRecOn generalizing res base with
  | _ e ih =>
    unfold powModFrom
    split
    · simp [*]
    · have half : base ^ e = (base * base) ^ (e / 2) * base ^ (e % 2) := by
        rw [← Nat.pow_two, ← Nat.pow_mul, ← Nat.pow_add, Nat.div_add_mod]
      have square (x : Nat) : x * (base * base % m) ^ (e / 2) % m =
          x * (base * base) ^ (e / 2) % m := by
        rw [← Nat.mul_mod_mod, ← Nat.pow_mod, Nat.mul_mod_mod]
      rw [ih (e / 2) (by omega), square, half]
      split
      · rename_i hodd
        rw [Nat.mod_mul_mod, hodd, Nat.pow_one, Nat.mul_assoc, Nat.mul_comm base]
      · rename_i heven
        rw [show e % 2 = 0 by omega, Nat.pow_zero, Nat.mul_one]

private theorem powModFrom_lt {m res base e : Nat} (h : res < m) : powModFrom m res base e < m := by
  induction e using Nat.strongRecOn generalizing res base with
  | _ e ih =>
    unfold powModFrom
    split
    · exact h
    · apply ih _ (by omega)
      split
      · exact Nat.mod_lt _ (by omega)
      · exact h

theorem powMod_eq {m : Nat} (hm : 1 < m) (a e : Nat) : powMod m a e = a ^ e % m := by
  rw [powMod, ← Nat.mod_eq_of_lt (powModFrom_lt hm), powModFrom_eq]
  simp [← Nat.pow_mod]

theorem Modulus.pow_eq (q : Modulus) (a e : Nat) : q.pow a e = a ^ e % q.value :=
  powMod_eq q.one_lt a e

end LatticeGates
