import LatticeGates.Proofs.Params.RingModulus
import LatticeGates.Proofs.Prime.Test

/-!
# The largest prime up to a power of two

A search skips no prime, since the test passes every prime; whether it is right about a number that it passes
is only asked of the number that is returned. Main statement: the search upwards returns the smallest prime
above a power of two, the search downwards the largest one below its start and both together the largest one
up to the power, or they leave the words.
-/

namespace LatticeGates.Params

open LatticeGates.Prime

variable {bits m p r : ℕ}

private theorem not_prime_of_isPrime {c : ℕ} (h : isPrime c = false) : ¬c.Prime := fun hc => by
  rw [isPrime_of_prime hc] at h
  cases h

theorem above_isLeast (h : above bits m = .ok p) (hp : p.Prime) :
    IsLeast {c | c.Prime ∧ 2 ^ bits < c ∧ c ≡ 1 [MOD m]} p := by
  obtain ⟨hlt, hmod, -, hskipped⟩ := above_eq_ok h
  refine ⟨⟨hp, hlt, hmod⟩, fun c ⟨hc, hlt, hmod⟩ => ?_⟩
  by_contra hcp
  exact not_prime_of_isPrime (hskipped c hlt (not_le.1 hcp) hmod) hc

theorem below_isGreatest (hm : 0 < m) (h : below p m = .ok r) (hr : r.Prime) :
    IsGreatest {c | c.Prime ∧ c < p ∧ c ≡ p [MOD m]} r := by
  obtain ⟨hlt, hmod, -, hskipped⟩ := below_eq_ok hm h
  refine ⟨⟨hr, hlt, hmod⟩, fun c ⟨hc, hlt, hmod⟩ => ?_⟩
  by_contra hrc
  exact not_prime_of_isPrime (hskipped c (not_le.1 hrc) hlt hmod) hc

theorem RingModulus.isGreatest (h : RingModulus bits m r) (hr : r.Prime) :
    IsGreatest {c | c.Prime ∧ c ≤ 2 ^ bits ∧ c ≡ 1 [MOD m]} r := by
  refine ⟨⟨hr, h.le, h.modEq⟩, fun c ⟨hc, hle, hmod⟩ => ?_⟩
  by_contra hrc
  exact not_prime_of_isPrime (h.largest c hmod (not_le.1 hrc) hle) hc

theorem ringPrime_cases (hm : 0 < m) :
    (∃ r, ringPrime bits m = .ok r) ∨ ringPrime bits m = .error .overflow := by
  rw [ringPrime]
  rcases above_cases hm with ⟨p, hp⟩ | herror
  · rw [hp, Checked.ok_bind]
    exact below_cases hm p
  · exact .inr (by rw [herror, Checked.error_bind])

/-- The searches end in the primes that are wanted, if the test is right about what they return, or leave
the words; they do return when there is such a prime among the words. -/
theorem prime_searches (bits : ℕ) {m : ℕ} (hm : 0 < m) :
    (above bits m).Ends
      (fun p => isPrime p = true ∧ ((isPrime p = true → p.Prime) →
        IsLeast {c | c.Prime ∧ 2 ^ bits < c ∧ c ≡ 1 [MOD m]} p))
      (· = .overflow) ∧
    (∀ p, (below p m).Ends
      (fun r => isPrime r = true ∧ ((isPrime r = true → r.Prime) →
        IsGreatest {c | c.Prime ∧ c < p ∧ c ≡ p [MOD m]} r))
      (· = .overflow)) ∧
    (ringPrime bits m).Ends
      (fun r => isPrime r = true ∧ ((isPrime r = true → r.Prime) →
        IsGreatest {c | c.Prime ∧ c ≤ 2 ^ bits ∧ c ≡ 1 [MOD m]} r))
      (· = .overflow) ∧
    (∀ u, u.Prime → 2 ^ bits < u → u ≡ 1 [MOD m] → u < Word.bound → ∃ p, above bits m = .ok p) ∧
    ∀ p l, l.Prime → l < p → l ≡ p [MOD m] → ∃ r, below p m = .ok r := by
  refine ⟨?above, fun p => ?below, ?both, fun u hu hlt hmod hword => ?_, fun p l hl hlt hmod => ?_⟩
  case above =>
    refine (above_cases hm).imp (fun ⟨p, hp⟩ => ⟨p, hp, ?_⟩) fun h => ⟨_, h, rfl⟩
    obtain ⟨-, -, hprime, -⟩ := above_eq_ok hp
    exact ⟨hprime, fun hexact => above_isLeast hp (hexact hprime)⟩
  case below =>
    refine (below_cases hm p).imp (fun ⟨r, hr⟩ => ⟨r, hr, ?_⟩) fun h => ⟨_, h, rfl⟩
    obtain ⟨-, -, hprime, -⟩ := below_eq_ok hm hr
    exact ⟨hprime, fun hexact => below_isGreatest hm hr (hexact hprime)⟩
  case both =>
    refine (ringPrime_cases hm).imp (fun ⟨r, hr⟩ => ⟨r, hr, ?_⟩) fun h => ⟨_, h, rfl⟩
    have hmodulus := ringPrime_eq_ok hr
    exact ⟨hmodulus.isPrime, fun hexact => hmodulus.isGreatest (hexact hmodulus.isPrime)⟩
  · have hbits : bits < 64 := (Nat.pow_lt_pow_iff_right one_lt_two).1 (hlt.trans hword)
    exact exists_above hm hbits hlt hmod (isPrime_of_prime hu) hword
  · exact exists_below hm hlt hmod (isPrime_of_prime hl)

/-- Around `16`, which is not a multiple of `6`. -/
theorem prime_searches_six :
    above 4 6 = .ok 19 ∧ IsLeast {c | c.Prime ∧ 2 ^ 4 < c ∧ c ≡ 1 [MOD 6]} 19 ∧
    below 19 6 = .ok 13 ∧ IsGreatest {c | c.Prime ∧ c < 19 ∧ c ≡ 19 [MOD 6]} 13 ∧
    ringPrime 4 6 = .ok 13 ∧ IsGreatest {c | c.Prime ∧ c ≤ 2 ^ 4 ∧ c ≡ 1 [MOD 6]} 13 := by
  obtain ⟨habove, hbelow, hboth, -⟩ := prime_searches 4 (show 0 < 6 by decide)
  have hp : above 4 6 = .ok 19 := by decide +kernel
  have hr : below 19 6 = .ok 13 := by decide +kernel
  have hq : ringPrime 4 6 = .ok 13 := by rw [ringPrime, hp, Checked.ok_bind, hr]
  exact ⟨hp, (habove.value_of_eq_ok hp).2 fun _ => by norm_num,
    hr, ((hbelow 19).value_of_eq_ok hr).2 fun _ => by norm_num,
    hq, (hboth.value_of_eq_ok hq).2 fun _ => by norm_num⟩

end LatticeGates.Params
