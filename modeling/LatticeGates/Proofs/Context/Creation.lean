import LatticeGates.Proofs.Params.Resolution
import LatticeGates.Proofs.Prime.Test

/-!
# Which parameters a context is made from

Main statement: the answer to every ring dimension and ring modulus. Dimensions that are no powers of two and
moduli that are no suitable primes are refused; of the others the limits of a word and of a modulus are met
without a check, and a context is made within them.
-/

namespace LatticeGates.Context

variable {params : Params} {seed : Array UInt8} {n q k : ℕ}

private theorem checked_iff (hk : 0 < k) (hexact : Prime.isPrime q = true → q.Prime) :
    (q % 2 ^ (k + 1) == 1 && Prime.isPrime q) = true ↔ q.Prime ∧ q ≡ 1 [MOD 2 ^ (k + 1)] := by
  have hone : 1 % 2 ^ (k + 1) = 1 := Nat.mod_eq_of_lt (Nat.one_lt_two_pow (by omega))
  rw [Bool.and_eq_true, beq_iff_eq, Nat.ModEq, hone, and_comm]
  exact and_congr_left' ⟨hexact, Prime.isPrime_of_prime⟩

theorem ofSeed_of_dimension (hn : ¬∃ k, 0 < k ∧ params.rgsw.ringDimension = 2 ^ k) :
    ofSeed params seed = Attempt.fail (.invalidRingDimension params.rgsw.ringDimension) := by
  have hrefused : (decide (2 ≤ params.rgsw.ringDimension) &&
      isPowerOfTwo params.rgsw.ringDimension) = false := by
    apply Bool.eq_false_of_not_eq_true
    rw [Bool.and_eq_true, decide_eq_true_eq, isPowerOfTwo_iff]
    rintro ⟨htwo, -, hlog⟩
    apply hn
    exact ⟨_, (Nat.le_log2 (by omega)).2 (by simpa using htwo), hlog.symm⟩
  rw [ofSeed, hrefused, Attempt.require_false, Attempt.fail_bind]

private theorem check_double (hsmall : k < 63) : Word.check (2 ^ (k + 1)) = .ok (2 ^ (k + 1)) :=
  Word.check_of_lt (Nat.pow_lt_pow_right one_lt_two (Nat.succ_lt_succ hsmall))

section PowerOfTwo

variable (hk : 0 < k) (hn : params.rgsw.ringDimension = 2 ^ k)

include hk hn

private theorem ofSeed_eq : ofSeed params seed = (do
    let twoN ← Word.check (2 ^ (k + 1))
    Attempt.require (params.rgsw.ringModulus % twoN == 1 && Prime.isPrime params.rgsw.ringModulus)
      (.invalidRingModulus params.rgsw.ringModulus twoN)
    let ring ← NegacyclicRing.check params.rgsw.ringDimension params.rgsw.ringModulus
    return ⟨params, ring, .empty params.rgsw.gadgetBase, .ofSeed seed⟩) := by
  have htwo : 2 ≤ 2 ^ k := Nat.le_self_pow hk.ne' 2
  rw [ofSeed, hn, decide_eq_true htwo, isPowerOfTwo_two_pow, Word.mul, ← pow_succ']
  rfl

theorem ofSeed_of_double (hlarge : 63 ≤ k) :
    ofSeed params seed = liftM (Except.error Fault.overflow : Checked Context) := by
  have hword : ¬2 ^ (k + 1) < Word.bound :=
    not_lt.2 (Nat.pow_le_pow_right two_pos (Nat.succ_le_succ hlarge))
  rw [ofSeed_eq hk hn, Word.check, if_neg hword, Attempt.liftM_error_bind]

variable (hsmall : k < 63)

include hsmall

theorem ofSeed_of_modulus
    (hrefused : (params.rgsw.ringModulus % 2 ^ (k + 1) == 1 &&
      Prime.isPrime params.rgsw.ringModulus) = false) : ofSeed params seed =
      Attempt.fail (.invalidRingModulus params.rgsw.ringModulus (2 ^ (k + 1))) := by
  rw [ofSeed_eq hk hn, check_double hsmall, Attempt.liftM_ok, pure_bind, hrefused,
    Attempt.require_false, Attempt.fail_bind]

theorem ofSeed_of_large
    (haccepted : (params.rgsw.ringModulus % 2 ^ (k + 1) == 1 &&
      Prime.isPrime params.rgsw.ringModulus) = true)
    (hlarge : 2 ^ 62 ≤ params.rgsw.ringModulus) : ofSeed params seed =
      liftM (Except.error (Fault.invalidModulus params.rgsw.ringModulus) : Checked Context) := by
  have hmodulus : Modulus.check params.rgsw.ringModulus =
      .error (.invalidModulus params.rgsw.ringModulus) := dif_neg (by omega)
  rw [ofSeed_eq hk hn, check_double hsmall, Attempt.liftM_ok, pure_bind, haccepted,
    Attempt.require_true, pure_bind, NegacyclicRing.check, hmodulus, Checked.error_bind,
    Attempt.liftM_error_bind]

end PowerOfTwo

/-- The answer to all parameters, if the test is right about the ring modulus. A dimension is a power of two
from two on, a modulus a prime that is one modulo twice the dimension, or they are refused in this order.
Within the limits of words and moduli a context is made, and beyond them the parameters fault. -/
theorem ofSeed_outcome (params : Params) (seed : Array UInt8)
    (hexact : Prime.isPrime params.rgsw.ringModulus = true → params.rgsw.ringModulus.Prime) :
    let n := params.rgsw.ringDimension
    let q := params.rgsw.ringModulus
    ((¬∃ k, 0 < k ∧ n = 2 ^ k) →
      ofSeed params seed = Attempt.fail (.invalidRingDimension n)) ∧
    ∀ k, 0 < k → n = 2 ^ k →
      (63 ≤ k → ofSeed params seed = liftM (Except.error Fault.overflow : Checked Context)) ∧
      (k < 63 → ¬(q.Prime ∧ q ≡ 1 [MOD 2 * n]) →
        ofSeed params seed = Attempt.fail (.invalidRingModulus q (2 * n))) ∧
      (k < 63 → q.Prime → q ≡ 1 [MOD 2 * n] → 2 ^ 62 ≤ q →
        ofSeed params seed = liftM (Except.error (Fault.invalidModulus q) : Checked Context)) ∧
      (q.Prime → q ≡ 1 [MOD 2 * n] → q < 2 ^ 62 → ∃ ring, NegacyclicRing.check n q = .ok ring ∧
        ofSeed params seed = pure ⟨params, ring, .empty params.rgsw.gadgetBase, .ofSeed seed⟩) := by
  refine ⟨ofSeed_of_dimension, fun k hk hn => ⟨ofSeed_of_double hk hn, ?_, ?_, ?_⟩⟩
  · intro hsmall hrefused
    rw [hn, ← pow_succ'] at hrefused ⊢
    rw [← checked_iff hk hexact, Bool.not_eq_true] at hrefused
    exact ofSeed_of_modulus hk hn hsmall hrefused
  · intro hsmall hprime hmod hlarge
    rw [hn, ← pow_succ'] at hmod
    exact ofSeed_of_large hk hn hsmall ((checked_iff hk hexact).2 ⟨hprime, hmod⟩) hlarge
  · intro hprime hmod hbound
    have htwo : 2 ≤ params.rgsw.ringDimension := hn ▸ Nat.le_self_pow hk.ne' 2
    obtain ⟨ctx, hctx⟩ :=
      exists_ofSeed hn htwo (Prime.isPrime_of_prime hprime) hmod hbound hprime seed
    obtain ⟨ring, hring, rfl⟩ := ofSeed_eq_pure hctx
    exact ⟨ring, hring, hctx⟩

private theorem prime_goldilocks : Nat.Prime 18446744069414584321 := by
  have hpow (e : ℕ) : (7 : ZMod 18446744069414584321) ^ e = 1 ↔
      powMod 18446744069414584321 7 e = 1 := by
    rw [powMod_eq (by norm_num), ← Nat.one_mod_eq_one.2 (show 18446744069414584321 ≠ 1 by norm_num),
      ← ZMod.natCast_eq_natCast_iff']
    simp
  apply lucas_primality _ (7 : ZMod 18446744069414584321)
  · rw [hpow]
    decide +kernel
  · intro r hr hdvd
    have hfactors : 18446744069414584321 - 1 = 2 ^ 32 * 3 * 5 * 17 * 257 * 65537 := by norm_num
    rw [hfactors] at hdvd
    rw [ne_eq, hpow]
    have hprimes : Nat.Prime 2 ∧ Nat.Prime 3 ∧ Nat.Prime 5 ∧ Nat.Prime 17 ∧ Nat.Prime 257 ∧
        Nat.Prime 65537 := by norm_num
    obtain ⟨h2, h3, h5, h17, h257, h65537⟩ := hprimes
    simp only [hr.dvd_mul, Nat.prime_dvd_prime_iff_eq hr, h3, h5, h17, h257, h65537] at hdvd
    rcases hdvd with ((((hdvd | rfl) | rfl) | rfl) | rfl) | rfl
    · obtain rfl := (Nat.prime_dvd_prime_iff_eq hr h2).1 (hr.dvd_of_dvd_pow hdvd)
      decide +kernel
    all_goals decide +kernel

/-- The prime `12289` makes a context of dimension 256, and the prime `2 ^ 64 - 2 ^ 32 + 1` faults. -/
theorem ofSeed_outcome_goldilocks :
    (∃ ctx, ofSeed (.explicit 16 256 512 12289 Params.defaultSigma 32 128 23 .ginx) #[] = pure ctx) ∧
    ofSeed (.explicit 16 256 512 18446744069414584321 Params.defaultSigma 32 128 23 .ginx) #[] =
      liftM (Except.error (Fault.invalidModulus 18446744069414584321) : Checked Context) := by
  constructor
  · obtain ⟨-, h⟩ := ofSeed_outcome (.explicit 16 256 512 12289 Params.defaultSigma 32 128 23 .ginx)
      #[] fun _ => show Nat.Prime 12289 by norm_num
    obtain ⟨-, -, -, h⟩ := h 8 (by norm_num) rfl
    obtain ⟨ring, -, h⟩ := h (show Nat.Prime 12289 by norm_num) rfl (by decide)
    exact ⟨_, h⟩
  · obtain ⟨-, h⟩ := ofSeed_outcome
      (.explicit 16 256 512 18446744069414584321 Params.defaultSigma 32 128 23 .ginx) #[]
      fun _ => prime_goldilocks
    obtain ⟨-, -, h, -⟩ := h 8 (by norm_num) rfl
    exact h (by norm_num) prime_goldilocks rfl (by decide)

end LatticeGates.Context
