import LatticeGates.Proofs.Eval.Totality

/-!
# The rounds come to an end

A round divides the modulus by `q / 256`, so that powers of two fall to at most `q` and stay at least `512`.
Main statement: evaluation of large precision is that many rounds, every bootstrap that it makes reads a phase
modulo a divisor of twice the degree, and it ends in its result unless there is no key for it.
-/

namespace LatticeGates.Context

section Moduli

/-- `k` rounds take the modulus `t` down to at most `q`. -/
structure Rounds (q t k : ℕ) : Prop where
  above : ∀ i < k, q < (nextModulus q)^[i] t
  falls : ∀ i < k, (nextModulus q)^[i + 1] t < (nextModulus q)^[i] t
  dvd : ∀ i < k, q ∣ (nextModulus q)^[i] t
  two_pow : ∀ i ≤ k, ∃ a, (nextModulus q)^[i] t = 2 ^ a
  ge : 512 ≤ (nextModulus q)^[k] t
  le : (nextModulus q)^[k] t ≤ q
  split : t / 256 = (q / 256) ^ k * ((nextModulus q)^[k] t / 256)

variable {q t k : ℕ}

theorem Rounds.zero (ht : ∃ a, t = 2 ^ a) (hge : 512 ≤ t) (hle : t ≤ q) : Rounds q t 0 where
  above := fun i hi => absurd hi i.not_lt_zero
  falls := fun i hi => absurd hi i.not_lt_zero
  dvd := fun i hi => absurd hi i.not_lt_zero
  two_pow := fun i hi => by rwa [Nat.le_zero.1 hi]
  ge := hge
  le := hle
  split := by rw [pow_zero, one_mul, Function.iterate_zero_apply]

theorem Rounds.succ (h : Rounds q (nextModulus q t) k) (hstep : 512 ≤ q) (hq : ∃ a, q = 2 ^ a)
    (ht : ∃ a, t = 2 ^ a) (hlt : q < t) : Rounds q t (k + 1) := by
  obtain ⟨hnext, hnext_ge, hsplit⟩ := nextModulus_two_pow hstep hq ht hlt
  refine ⟨?above, ?falls, ?dvd, ?two_pow, h.ge, h.le, ?split⟩
  case above =>
    rintro (_ | i) hi
    · exact hlt
    · exact h.above i (Nat.lt_of_succ_lt_succ hi)
  case falls =>
    rintro (_ | i) hi
    · exact nextModulus_lt hstep hlt
    · exact h.falls i (Nat.lt_of_succ_lt_succ hi)
  case dvd =>
    rintro (_ | i) hi
    · exact dvd_of_two_pow_lt hq ht hlt
    · exact h.dvd i (Nat.lt_of_succ_lt_succ hi)
  case two_pow =>
    rintro (_ | i) hi
    · exact ht
    · exact h.two_pow i (Nat.le_of_succ_le_succ hi)
  case split =>
    obtain ⟨c, hc⟩ : 256 ∣ nextModulus q t := ⟨t / q, by rw [nextModulus, beta]; ring⟩
    calc t / 256 = 256 * (q / 256 * c) / 256 := by rw [mul_left_comm, ← hc, mul_comm, ← hsplit]
      _ = q / 256 * (nextModulus q t / 256) := by
          rw [hc, Nat.mul_div_cancel_left _ (by decide), Nat.mul_div_cancel_left _ (by decide)]
      _ = (q / 256) ^ (k + 1) * ((nextModulus q)^[k + 1] t / 256) := by
          rw [h.split, pow_succ', mul_assoc, Function.iterate_succ_apply]

theorem exists_rounds (hstep : 512 ≤ q) (hq : ∃ a, q = 2 ^ a) (ht : ∃ a, t = 2 ^ a) (hge : 512 ≤ t) :
    ∃ k, Rounds q t k := by
  induction t using Nat.strong_induction_on with
  | _ t ih =>
    by_cases hlt : q < t
    · obtain ⟨hnext, hnext_ge, -⟩ := nextModulus_two_pow hstep hq ht hlt
      obtain ⟨k, hk⟩ := ih _ (nextModulus_lt hstep hlt) hnext hnext_ge
      exact ⟨k + 1, hk.succ hstep hq ht hlt⟩
    · exact ⟨0, .zero ht hge (not_lt.1 hlt)⟩

end Moduli

section Loop

variable {ctx : Context} {q t k m : ℕ} {ct last : Lwe.Ciphertext} {digits : Bool}
  {dropped ds : Array Lwe.Ciphertext}

def dropTimes (ctx : Context) (q : ℕ) : (k m : ℕ) → Lwe.Ciphertext → Bool → Array Lwe.Ciphertext →
    Attempt (Array Lwe.Ciphertext × Lwe.Ciphertext × ℕ)
  | 0, m, ct, _, dropped => pure (dropped, ct, m)
  | k + 1, m, ct, digits, dropped => do
    let dropped ← (if digits then dropped.push <$> ct.reduce q else .ok dropped : Checked _)
    let ct ← ctx.dropDigit q ct m
    dropTimes ctx q k (nextModulus q m) ct digits dropped

theorem dropDigits_eq (hstep : 512 ≤ q) (habove : ∀ i < k, q < (nextModulus q)^[i] t)
    (hle : (nextModulus q)^[k] t ≤ q) :
    ctx.dropDigits q t ct digits dropped = ctx.dropTimes q k t ct digits dropped := by
  induction k generalizing t ct dropped with
  | zero => exact dropDigits_of_le hle
  | succ k ih =>
    have hguard : 4 * beta ≤ q ∧ q < t := ⟨hstep, habove 0 k.succ_pos⟩
    rw [dropDigits, dif_pos hguard, dropTimes]
    refine bind_congr fun dropped => bind_congr fun out => ?_
    exact ih (fun i hi => habove (i + 1) (Nat.succ_lt_succ hi)) hle

theorem size_of_dropTimes (h : ctx.dropTimes q k t ct true dropped = pure (ds, last, m)) :
    ds.size = dropped.size + k := by
  induction k generalizing t ct dropped with
  | zero =>
    cases Attempt.pure_injective h
    rfl
  | succ k ih =>
    obtain ⟨pushed, hpushed, h⟩ := Attempt.bind_eq_pure.1 h
    obtain ⟨out, -, h⟩ := Attempt.bind_eq_pure.1 h
    obtain ⟨digit, -, hdigit⟩ := Checked.bind_eq_ok.1 (Attempt.liftM_eq_pure.1 hpushed)
    cases hdigit
    rw [ih h, Array.size_push]
    omega

end Loop

section Calls

/-- The bootstraps of an evaluation of large precision: those of its rounds, and the one that reads the sign of
what the rounds leave. -/
inductive PrecisionCall (ctx : Context) (ct : Lwe.Ciphertext) : TableCall → Prop
  | round {i x key call} : Reached ctx ctx.params.lwe.modulus ct i x → ctx.params.lwe.modulus < x.modulus →
      ctx.keys.forPrecision (logModulus x.modulus) = pure key →
      FloorCall ctx key x ctx.params.lwe.modulus call → PrecisionCall ctx ct call
  | sign {i last shifted} : Reached ctx ctx.params.lwe.modulus ct i last →
      last.modulus ≤ ctx.params.lwe.modulus → last.addConstant beta = .ok shifted →
      PrecisionCall ctx ct (signCall ctx.params.lwe.modulus shifted)

variable {ctx : Context} {key : BootstrapKey} {q i k : ℕ} {ct x : Lwe.Ciphertext} {call : TableCall}

theorem Reached.modulus_eq (h : Reached ctx q ct i x) : x.modulus = (nextModulus q)^[i] ct.modulus := by
  induction h with
  | start => rfl
  | next _ _ hout ih => rw [(wellFormed_of_dropDigit hout).1, ih, Function.iterate_succ_apply']

theorem Reached.le (h : Reached ctx q ct i x) (hk : Rounds q ct.modulus k) : i ≤ k := by
  induction h with
  | start => exact k.zero_le
  | next hreach hlt _ ih =>
    refine ih.lt_of_ne fun heq => ?_
    rw [hreach.modulus_eq, heq] at hlt
    exact hlt.not_ge hk.le

private theorem FloorCall.modulus_eq (h : FloorCall ctx key x q call) : call.input.modulus = q := by
  have hreduce {y r : Lwe.Ciphertext} (h : y.reduce q = .ok r) : r.modulus = q := by
    obtain ⟨rest, -, h⟩ := Checked.bind_eq_ok.1 h
    obtain ⟨_, -, h⟩ := Checked.bind_eq_ok.1 h
    cases h
    rfl
  cases h with
  | side _ hresidue => exact hreduce hresidue
  | residue _ _ _ _ hlow => exact hreduce hlow

private theorem modulus_of_addConstant {c : ℕ} {r : Lwe.Ciphertext} (h : x.addConstant c = .ok r) :
    r.modulus = x.modulus := by
  obtain ⟨_, -, h⟩ := Checked.bind_eq_ok.1 h
  obtain ⟨_, -, h⟩ := Checked.bind_eq_ok.1 h
  cases h
  rfl

/-- The phases that the bootstraps read are modulo `q`, and modulo what the rounds leave of the modulus. -/
theorem PrecisionCall.modulus_dvd (h : PrecisionCall ctx ct call) (hq : ∃ a, ctx.params.lwe.modulus = 2 ^ a)
    (hk : Rounds ctx.params.lwe.modulus ct.modulus k) : call.input.modulus ∣ ctx.params.lwe.modulus := by
  cases h with
  | round _ _ _ hcall => rw [hcall.modulus_eq]
  | sign hreach hle hshifted =>
    obtain ⟨b, hb⟩ := hq
    obtain ⟨a, ha⟩ := hk.two_pow _ (hreach.le hk)
    rw [← hreach.modulus_eq] at ha
    rw [signCall, modulus_of_addConstant hshifted, ha, hb]
    rw [ha, hb] at hle
    exact pow_dvd_pow 2 ((Nat.pow_le_pow_iff_right one_lt_two).1 hle)

end Calls

section Main

variable {ctx : Context} {ct : Lwe.Ciphertext} {k : ℕ} {e : Error}

/-- What large precision is evaluated on: a ring of the parameters, keys that go with it as far as there are
any, and a ciphertext of the small dimension that is within the bounds. -/
structure AdmitsPrecision (ctx : Context) (ct : Lwe.Ciphertext) : Prop where
  ring : NegacyclicRing.check ctx.params.lwe.ringDimension ctx.params.lwe.ringModulus = .ok ctx.ring
  fits : ∀ {bits key}, ctx.keys.forPrecision bits = pure key →
    key.Fits ctx.ring ctx.params.lwe.dimension
  wellFormed : ct.WellFormed
  dimension_eq : ct.dimension = ctx.params.lwe.dimension
  le : ct.modulus ≤ ctx.maxModulus

/-- The error where the active key is not there. -/
def MissesKey (ctx : Context) (e : Error) : Prop :=
  e = .missingBootstrapKey ctx.keys.activeBase ∧ ctx.keys.get? ctx.keys.activeBase = none

theorem missesKey_of_active (h : ctx.keys.active = Attempt.fail e) : ctx.MissesKey e := by
  unfold KeyStore.active at h
  split at h
  · cases h
  · rename_i hnone
    cases h
    exact ⟨rfl, hnone⟩

section Ends

variable (hct : AdmitsPrecision ctx ct) (hstep : 512 ≤ ctx.params.lwe.modulus)
  (hq : ∃ a, ctx.params.lwe.modulus = 2 ^ a) (ht : ∃ a, ct.modulus = 2 ^ a)
  (hlt : ctx.params.lwe.modulus < ct.modulus) (hdvd : ctx.params.lwe.modulus ∣ 2 * ctx.ring.degree)
include hct

theorem AdmitsPrecision.lt_bound : ct.modulus < 0x4000000000000000 := by
  obtain ⟨-, hvalue, -⟩ := NegacyclicRing.check_shape hct.ring
  have hbound := ctx.ring.modulus.lt_bound
  have hle := (le_min_iff.1 hct.le).1
  omega

include hlt hdvd in
theorem AdmitsPrecision.exists_keysFit (htwo : 2 ≤ ctx.params.lwe.modulus) :
    ∃ q : Modulus, ctx.params.lwe.modulus = q.value ∧ ctx.KeysFit q := by
  refine ⟨⟨ctx.params.lwe.modulus, htwo, hlt.trans hct.lt_bound⟩, rfl, ?_⟩
  exact {
    runs := NegacyclicRing.check_runs hct.ring
    degree_lt := NegacyclicRing.two_mul_degree_lt_modulus hct.ring
    ringModulus_pos := (NegacyclicRing.check_shape hct.ring).2.1 ▸ ctx.ring.modulus.pos
    modulus_eq := rfl
    modulus_dvd := hdvd
    fits := hct.fits }

include hstep hq ht hlt

theorem AdmitsPrecision.missesKey (he : ctx.PrecisionError ct (2 * ctx.params.lwe.modulus) e ∨
    ctx.keys.active = Attempt.fail e) : ctx.MissesKey e := by
  refine missesKey_of_active (he.resolve_left fun he => ?_)
  cases he with
  | dimension hne => exact hne hct.dimension_eq
  | step hsmall => exact hsmall.not_ge hstep
  | modulus hne =>
    refine hne ⟨ht, ?_, hct.le⟩
    obtain ⟨c, hc⟩ := dvd_of_two_pow_lt hq ht hlt
    have hone : 1 < c := by
      refine Nat.lt_of_mul_lt_mul_left (a := ctx.params.lwe.modulus) ?_
      rwa [mul_one, ← hc]
    rw [hc, mul_comm]
    exact Nat.mul_le_mul_left _ hone

include hdvd

theorem AdmitsPrecision.ends_evalSign : (ctx.evalSign ct).Ends
    (fun out => out.WellFormed ∧ out.modulus = ctx.params.lwe.modulus ∧ out.dimension = ct.dimension)
    ctx.MissesKey := by
  obtain ⟨q, hmodulus, hfit⟩ := hct.exists_keysFit hlt hdvd (by omega)
  have hends := hfit.ends_evalSign hct.wellFormed (by omega) hct.lt_bound
  refine (hends.imp_error fun e he => hct.missesKey hstep hq ht hlt he).imp_value fun out hout => ?_
  obtain ⟨hout_modulus, hout_dim, hout_wf⟩ := Lwe.Ciphertext.shaped_iff.1 hout
  exact ⟨hout_wf, hout_modulus.trans hmodulus.symm, hout_dim.trans hct.dimension_eq.symm⟩

theorem AdmitsPrecision.ends_evalDigits (hk : Rounds ctx.params.lwe.modulus ct.modulus k) :
    (ctx.evalDigits ct).Ends (fun outs => outs.size = k + 1 ∧ ∀ out ∈ outs, out.WellFormed)
      ctx.MissesKey := by
  obtain ⟨q, hmodulus, hfit⟩ := hct.exists_keysFit hlt hdvd (by omega)
  obtain ⟨outs, houts, hwf⟩ | ⟨e, herror, he⟩ :=
    hfit.ends_evalDigits hct.wellFormed (by omega) hct.lt_bound
  · refine .inl ⟨outs, houts, ?_, hwf⟩
    obtain ⟨_, -, hrun⟩ := Attempt.bind_eq_pure.1 houts
    obtain ⟨⟨ds, last, m⟩, hdrop, hrun⟩ := Attempt.bind_eq_pure.1 hrun
    obtain rfl := Attempt.pure_injective hrun
    rw [dropDigits_eq hstep hk.above hk.le] at hdrop
    rw [Array.size_push, size_of_dropTimes hdrop, Array.size_empty, zero_add]
  · exact .inr ⟨e, herror, hct.missesKey hstep hq ht hlt he⟩

end Ends

/-- Evaluation of large precision is as many rounds as take the modulus down to `q`. With `q` a divisor of
twice the degree, so is the modulus of every phase that a bootstrap of it reads, and the evaluation ends in
its result, or in an error for the one key that it cannot do without. -/
theorem precision_terminates {q t : ℕ} (hstep : 512 ≤ q) (hq : ∃ a, q = 2 ^ a) (ht : ∃ a, t = 2 ^ a)
    (hlt : q < t) : ∃ k, Rounds q t k ∧
      ∀ (ctx : Context) (ct : Lwe.Ciphertext), ctx.params.lwe.modulus = q → ct.modulus = t →
        (∀ digits dropped, ctx.dropDigits q t ct digits dropped = ctx.dropTimes q k t ct digits dropped) ∧
        (q ∣ 2 * ctx.ring.degree →
          (∀ call, PrecisionCall ctx ct call → call.input.modulus ∣ 2 * ctx.ring.degree) ∧
          (AdmitsPrecision ctx ct →
            (ctx.evalSign ct).Ends
              (fun out => out.WellFormed ∧ out.modulus = q ∧ out.dimension = ct.dimension)
              ctx.MissesKey ∧
            (ctx.evalDigits ct).Ends
              (fun outs => outs.size = k + 1 ∧ ∀ out ∈ outs, out.WellFormed)
              ctx.MissesKey)) := by
  obtain ⟨k, hk⟩ := exists_rounds hstep hq ht (hstep.trans hlt.le)
  refine ⟨k, hk, ?_⟩
  rintro ctx ct rfl rfl
  refine ⟨fun digits dropped => dropDigits_eq hstep hk.above hk.le, fun hdvd => ⟨fun call hcall => ?_, ?_⟩⟩
  · exact (hcall.modulus_dvd hq hk).trans hdvd
  · exact fun hct => ⟨hct.ends_evalSign hstep hq ht hlt hdvd, hct.ends_evalDigits hstep hq ht hlt hdvd hk⟩

/-- From modulus 8192 two rounds lead to 512: with a key there is a sign, and there are three digits. -/
theorem precision_terminates_sample : Rounds 1024 8192 2 ∧
    ∃ (ctx : Context) (out : Lwe.Ciphertext) (outs : Array Lwe.Ciphertext),
      (∀ call, PrecisionCall ctx sampleInput call → call.input.modulus ∣ 2 * ctx.ring.degree) ∧
      ctx.evalSign sampleInput = pure out ∧ out.modulus = 1024 ∧
      ctx.evalDigits sampleInput = pure outs ∧ outs.size = 3 := by
  obtain ⟨ctx, key, h⟩ := exists_sample
  have hmodulus : ctx.params.lwe.modulus = 1024 := by
    rw [h.params_eq]
    rfl
  obtain ⟨k, hk, hrun⟩ :=
    precision_terminates (q := 1024) (t := 8192) (by decide) ⟨10, rfl⟩ ⟨13, rfl⟩ (by decide)
  obtain rfl : k = 2 := by
    have hle : ¬2 < k := fun hlt => absurd (hk.above 2 hlt) (by decide)
    have hlast := hk.le
    interval_cases k
    · exact absurd hlast (by decide)
    · exact absurd hlast (by decide)
    · rfl
  have hct : AdmitsPrecision ctx sampleInput := by
    refine ⟨?_, fun {bits key'} hkey => ?_, by decide, ?_, ?_⟩
    · rw [h.params_eq]
      exact h.ring
    · obtain rfl := Attempt.pure_injective (hkey.symm.trans (h.forPrecision bits))
      rw [h.params_eq]
      exact h.fits
    · rw [h.params_eq]
      rfl
    · rw [maxModulus, h.params_eq]
      decide
  have hkey {e : Error} (he : ctx.MissesKey e) : False := by
    have hactive := h.active
    rw [KeyStore.active, he.2] at hactive
    cases hactive
  obtain ⟨-, hdomains⟩ := hrun ctx sampleInput hmodulus rfl
  obtain ⟨hcalls, hends⟩ := hdomains (by rw [h.degree_eq]; exact ⟨2, rfl⟩)
  obtain ⟨⟨out, hout, -, hout_modulus, -⟩ | ⟨e, -, he⟩, ⟨outs, houts, hsize, -⟩ | ⟨e', -, he'⟩⟩ := hends hct
  · exact ⟨hk, ctx, out, outs, hcalls, hout, hout_modulus, houts, hsize⟩
  · exact (hkey he').elim
  · exact (hkey he).elim
  · exact (hkey he).elim

end Main

end LatticeGates.Context
