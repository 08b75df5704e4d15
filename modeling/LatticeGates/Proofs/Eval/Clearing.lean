import LatticeGates.Proofs.Eval.Precision
import LatticeGates.Proofs.Prime.Search

/-!
# Clearing the low bits of a message

Main statement: where the noise and the errors of the two bootstraps stay below the offset, the floor of a
large-precision ciphertext rounds its phase down to a multiple of the step that the number of bits asks for,
up to the error of the last bootstrap.
-/

namespace LatticeGates.Context

variable {ctx : Context} {active : BootstrapKey} {secrets : List Lwe.Secret} {s : Lwe.Secret}
  {q : Modulus} {ct : Lwe.Ciphertext} {k roundBits : ℕ}

/-- The power of two below which a floor clears the phase. -/
def floorStep (q roundBits : ℕ) : ℕ := if roundBits = 0 then q else 256 * 2 ^ roundBits

section Step

theorem shiftLeft_eq_floorStep (q roundBits : ℕ) :
    (if roundBits = 0 then q else (2 * beta) <<< roundBits) = floorStep q roundBits := by
  rw [Nat.shiftLeft_eq]
  rfl

theorem exists_floorStep (hk : q.value = 2 ^ (k + 8)) (hle : roundBits ≤ k) :
    ∃ d : Modulus, d.value = floorStep q.value roundBits ∧ d.value ∣ q.value ∧
      (512 ≤ q.value → 512 ≤ d.value) := by
  unfold floorStep
  by_cases hzero : roundBits = 0
  · exact ⟨q, by rw [if_pos hzero], dvd_rfl, id⟩
  · have hstep : 256 * 2 ^ roundBits = 2 ^ (roundBits + 8) := by
      rw [pow_add, mul_comm]
      rfl
    have hdvd : 2 ^ (roundBits + 8) ∣ q.value := hk ▸ pow_dvd_pow 2 (by omega)
    have hnine : 2 ^ 9 ≤ 2 ^ (roundBits + 8) := Nat.pow_le_pow_right two_pos (by omega)
    exact ⟨⟨2 ^ (roundBits + 8), by omega, (Nat.le_of_dvd q.pos hdvd).trans_lt q.lt_bound⟩,
      by rw [if_neg hzero, hstep], hdvd, fun _ => hnine⟩

theorem oddPart_maxPlaintext (hk : ctx.params.lwe.modulus = 2 ^ (k + 8)) :
    (Prime.oddPart ctx.params.maxPlaintext).2 = k := by
  have hspread : 2 ^ (k + 8) / (2 * beta) = 2 ^ k := by
    rw [pow_add]
    exact Nat.mul_div_cancel _ (by decide)
  rw [Params.maxPlaintext, hk, hspread, Prime.oddPart_two_pow]

theorem eq_two_pow_log2 {n m : ℕ} (hpow : ∃ b, m = 2 ^ b) (hle : 2 ^ n ≤ m) :
    m = 2 ^ (Nat.log2 (m / 2 ^ n) + n) := by
  obtain ⟨b, rfl⟩ := hpow
  have hb : n ≤ b := (Nat.pow_le_pow_iff_right one_lt_two).1 hle
  rw [Nat.pow_div hb two_pos, Nat.log2_two_pow, Nat.sub_add_cancel hb]

theorem mul_div_step {d m : ℕ} (hd : 256 ∣ d) : 256 * m / d = m / (d / 256) := by
  obtain ⟨c, rfl⟩ := hd
  rw [Nat.mul_div_mul_left _ _ (by decide), Nat.mul_div_cancel_left _ (by decide)]

theorem evalFloor_eq (hcheck : ctx.checkPrecision ct ctx.params.lwe.modulus = pure ())
    (hk : ctx.params.lwe.modulus = 2 ^ (k + 8)) (hle : roundBits ≤ k)
    (hactive : ctx.keys.active = pure active) : ctx.evalFloor ct roundBits =
      liftM (ctx.floorWith active ct (floorStep ctx.params.lwe.modulus roundBits)) := by
  simp [evalFloor, hcheck, oddPart_maxPlaintext hk, hle, hactive, shiftLeft_eq_floorStep]

end Step

/-- The floor of a message keeps its phase down to a multiple of the step. -/
theorem evalFloor_phase {m φ η : ℕ} {e : ℤ} (hprime : ctx.params.lwe.ringModulus.Prime)
    (hring : NegacyclicRing.check ctx.params.lwe.ringDimension ctx.params.lwe.ringModulus = .ok ctx.ring)
    (hdvd : ctx.params.lwe.modulus ∣ 2 * ctx.params.lwe.ringDimension)
    (hstep : 512 ≤ ctx.params.lwe.modulus) (hactive : ctx.keys.active = pure active)
    (hfits : active.Fits ctx.ring ctx.params.lwe.dimension)
    (hsecret : ctx.JointSecret active secrets s) (hpow : ∃ k, ct.modulus = 2 ^ k)
    (hlow : ctx.params.lwe.modulus ≤ ct.modulus)
    (hhigh : ct.modulus ≤ Nat.min ctx.params.lwe.ringModulus ctx.params.lwe.switchingModulus)
    (hbits : roundBits ≤ Nat.log2 (ctx.params.lwe.modulus / 256))
    (hdim : ct.dimension = ctx.params.lwe.dimension) (hwf : ct.WellFormed)
    (hphase : ct.phase s = .ok φ) (hmessage : φ ≡ 256 * m + e [ZMOD ct.modulus])
    (he : |e| + η < 128)
    (hreads : ∀ call, FloorCall ctx active ct (floorStep ctx.params.lwe.modulus roundBits) call →
      call.ReadsWithin ctx active s η) :
    ∃ out ψ, ∃ e' : ℤ, ctx.evalFloor ct roundBits = pure out ∧ out.modulus = ct.modulus ∧
      out.dimension = ctx.params.lwe.dimension ∧ out.WellFormed ∧ out.phase s = .ok ψ ∧ |e'| ≤ η ∧
      ψ ≡ floorStep ctx.params.lwe.modulus roundBits *
        (256 * m / floorStep ctx.params.lwe.modulus roundBits : ℕ) + e' [ZMOD ct.modulus] := by
  obtain ⟨hdegree, hmodulus, -, -⟩ := NegacyclicRing.check_shape hring
  have hbound := ctx.ring.modulus.lt_bound
  have hle := (le_min_iff.1 hhigh).1
  rw [← hdegree] at hdvd
  have h := hsecret.operates hprime hring (hsecret.dimension_eq ▸ hfits)
  obtain ⟨q, hq⟩ : ∃ q : Modulus, q.value = ctx.params.lwe.modulus :=
    ⟨⟨ctx.params.lwe.modulus, by omega, by omega⟩, rfl⟩
  obtain ⟨t, ht⟩ : ∃ t : Modulus, t.value = ct.modulus := ⟨⟨ct.modulus, by omega, by omega⟩, rfl⟩
  have hct : ct.Shaped t s.dimension :=
    Lwe.Ciphertext.shaped_iff.2 ⟨ht.symm, hdim.trans hsecret.dimension_eq.symm, hwf⟩
  rw [h.phase_eq hct, Except.ok.injEq] at hphase
  -- all moduli are powers of two: the step divides the small one, which divides that of the message
  have hb : ctx.params.lwe.modulus = 2 ^ (Nat.log2 (ctx.params.lwe.modulus / 256) + 8) :=
    eq_two_pow_log2 (n := 8) (NegacyclicRing.exists_two_pow hdvd) ((by decide : 2 ^ 8 ≤ 512).trans hstep)
  have hcheck := checkPrecision_eq hdim hstep hpow hlow hhigh
  obtain ⟨j, hj⟩ := hpow
  have hqt : q.value ∣ t.value := by
    rw [hq, ht, hj, hb]
    rw [hb, hj] at hlow
    exact pow_dvd_pow 2 ((Nat.pow_le_pow_iff_right one_lt_two).1 hlow)
  obtain ⟨d, hd, hd_dvd, hd_le⟩ := exists_floorStep (hq.trans hb) hbits
  rw [evalFloor_eq hcheck hb hbits hactive]
  rw [← hq] at hdvd hstep hreads ⊢
  rw [← hd] at hreads ⊢
  have hd_base : 256 ∣ d.value :=
    NegacyclicRing.two_pow_dvd (k := 8) (hd_dvd.trans hdvd) ((by decide : 2 ^ 8 ≤ 512).trans (hd_le hstep))
  have hmessage' : ct.integerPhase s.coefficient ≡ 256 * m + e [ZMOD t.value] := by
    rw [← hphase, ← ht] at hmessage
    exact (hct.residue_modEq _).symm.trans hmessage
  obtain ⟨out, hout, hshaped, d', hd', hout_phase⟩ := h.exists_floorWith hct (hd_dvd.trans hdvd)
    (hd_le hstep) (hd_dvd.trans hqt) hmessage' he hreads
  obtain ⟨hout_modulus, hout_dim, hout_wf⟩ := Lwe.Ciphertext.shaped_iff.1 hshaped
  refine ⟨out, _, -d', by rw [hout, Attempt.liftM_ok], hout_modulus.trans ht,
    hout_dim.trans hsecret.dimension_eq, hout_wf, h.phase_eq hshaped, by rwa [abs_neg], ?_⟩
  rw [← ht, mul_div_step hd_base, ← sub_eq_add_neg]
  exact (hshaped.residue_modEq _).trans hout_phase

/-- The lowest bit of 19 is cleared. -/
theorem evalFloor_phase_nineteen : ∃ (ctx : Context) (out : Lwe.Ciphertext) (ψ : ℕ) (e : ℤ),
    ctx.evalFloor sampleInput 1 = pure out ∧ out.phase sampleSecret = .ok ψ ∧ |e| ≤ 1 ∧
      ψ ≡ 256 * 18 + e [ZMOD 8192] := by
  obtain ⟨ctx, key, h⟩ := exists_sample
  have hmodulus : ctx.params.lwe.modulus = 1024 := by rw [h.params_eq]; rfl
  have hbits : 1 ≤ Nat.log2 (ctx.params.lwe.modulus / 256) := by rw [hmodulus]; decide
  have hdim : sampleInput.dimension = ctx.params.lwe.dimension := by rw [h.params_eq]; rfl
  have hreads (call : TableCall) : FloorCall ctx key sampleInput (floorStep ctx.params.lwe.modulus 1) call →
      call.ReadsWithin ctx key sampleSecret 1 := by
    intro hcall
    rw [hmodulus] at hcall
    exact hcall.readsWithin (q := ⟨512, by decide, by decide⟩) (t := ⟨8192, by decide, by decide⟩)
      h.operates h.encrypts h.ringModulus_eq (by rw [h.degree_eq]; exact ⟨4, rfl⟩) rfl
      (h.error_lt 8192 le_rfl)
  have hphase : sampleInput.phase sampleSecret = .ok 4964 := by decide
  have hmessage : ((4964 : ℕ) : ℤ) ≡ 256 * (19 : ℕ) + 100 [ZMOD sampleInput.modulus] := by decide
  obtain ⟨out, ψ, e, hout, -, -, -, hψ, he, hfloor⟩ := evalFloor_phase
    (by rw [h.params_eq]; exact prime_sample) (by rw [h.params_eq]; exact h.ring)
    (by rw [h.params_eq]; exact ⟨2, rfl⟩) (by rw [hmodulus]; decide) h.active
    (by rw [h.params_eq]; exact h.fits) h.secret ⟨13, rfl⟩ (by rw [hmodulus]; decide)
    (by rw [h.params_eq]; decide) hbits hdim (by decide) hphase hmessage (by decide) hreads
  rw [hmodulus] at hfloor
  exact ⟨ctx, out, ψ, e, hout, hψ, he, hfloor⟩

end LatticeGates.Context
