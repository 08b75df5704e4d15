import LatticeGates.Stream.Basic
import Mathlib

/-!
# The period of a stream

A stream is read as the sequence of its words of 64 bits. Main statement: every word has its like among the first
ones, because the counter of the blocks goes round.
-/

namespace LatticeGates.Stream

open Function

/-- The stream without its first word of 32 bits. -/
def skip (s : Stream) : Stream := s.next32.2

/-- The stream without its first `n` words of 64 bits. -/
def drop (n : ℕ) (s : Stream) : Stream := (fun s => s.next64.2)^[n] s

def word (s : Stream) (n : ℕ) : UInt64 := (s.drop n).next64.1

theorem drop_eq_skip (n : ℕ) (s : Stream) : s.drop n = skip^[2 * n] s := by
  rw [iterate_mul]
  rfl

variable (k : ChaCha.Key) (c : UInt64)

theorem skip_pending : ∀ (words : List UInt32) (h : words.length < 16),
    skip^[words.length] ⟨k, c, words, h⟩ = atBlock k c
  | [], _ => rfl
  | w :: words, h => by
    rw [List.length_cons, iterate_succ_apply]
    exact skip_pending words ((Nat.lt_succ_self _).trans h)

theorem skip_block : skip^[16] (atBlock k c) = atBlock k (c + 1) :=
  skip_pending k (c + 1) (ChaCha.block k c).tail (by simp)

theorem skip_blocks (n : ℕ) : skip^[16 * n] (atBlock k c) = atBlock k (c + UInt64.ofNat n) := by
  induction n generalizing c with
  | zero => exact congrArg (atBlock k) (UInt64.add_zero c).symm
  | succ n ih =>
    rw [Nat.mul_succ, iterate_add_apply, skip_block, ih, UInt64.ofNat_add, UInt64.add_assoc,
      UInt64.add_comm 1]
    rfl

theorem isPeriodicPt_atBlock : IsPeriodicPt skip period (atBlock k c) := by
  have hblocks : period = 16 * 2 ^ 64 := by norm_num [period]
  have hround : UInt64.ofNat (2 ^ 64) = 0 := by decide
  rw [IsPeriodicPt, IsFixedPt, hblocks, skip_blocks, hround, UInt64.add_zero]

variable (s : Stream) {n : ℕ}

theorem isPeriodicPt_skip (hn : 16 ≤ n) : IsPeriodicPt skip period (skip^[n] s) := by
  have hle : s.pending.length ≤ n := s.pending_lt.le.trans hn
  have hblock : skip^[n] s = skip^[n - s.pending.length] (atBlock s.key s.counter) := by
    rw [← skip_pending s.key s.counter s.pending s.pending_lt, ← iterate_add_apply,
      Nat.sub_add_cancel hle]
  rw [hblock]
  exact (isPeriodicPt_atBlock s.key s.counter).apply_iterate _

theorem drop_add_period (hn : 8 ≤ n) : s.drop (n + 2 ^ 67) = s.drop n := by
  have hround : 2 * (n + 2 ^ 67) = period + 2 * n := by
    rw [period]
    omega
  rw [drop_eq_skip, drop_eq_skip, hround, iterate_add_apply]
  exact isPeriodicPt_skip s (by omega)

/-- What comes at any place has come before the end of the first two rounds. -/
theorem exists_drop_eq (n : ℕ) : ∃ i < period, s.drop i = s.drop n := by
  induction n using Nat.strongRecOn with
  | ind n ih =>
    rcases Nat.lt_or_ge n period with hlt | hge
    · exact ⟨n, hlt, rfl⟩
    · rw [period] at hge
      obtain ⟨i, hi, heq⟩ := ih (n - 2 ^ 67) (by omega)
      refine ⟨i, hi, heq.trans ?_⟩
      rw [← drop_add_period s (by omega), Nat.sub_add_cancel (by omega)]

end LatticeGates.Stream
