import LatticeGates.Proofs.Eval.Rounds
import LatticeGates.Proofs.Transform.Existence

/-!
# Large-precision messages

Main statements: where the errors of the rounds stay below the offset, the sign of a message is its top bit,
and its digits are those in base `q / 256`, the last of them at the modulus that is left.
-/

namespace LatticeGates.Context

open Finset

variable {ctx : Context} {active : BootstrapKey} {secrets : List Lwe.Secret} {s : Lwe.Secret}
  {q t : Modulus} {ct : Lwe.Ciphertext} {m φ : ℕ} {e : ℤ} {η : ℕ → ℕ}

section Setup

theorem exists_forPrecision {keys : KeyStore} (h : keys.active = pure active) (bits : ℕ) :
    ∃ key, keys.forPrecision bits = pure key := by
  rw [KeyStore.forPrecision]
  cases keys.get? (preferredBase bits) with
  | some key => exact ⟨key, rfl⟩
  | none => exact ⟨active, h⟩

theorem checkPrecision_eq {min : ℕ} (hdim : ct.dimension = ctx.params.lwe.dimension)
    (hstep : 512 ≤ ctx.params.lwe.modulus) (hpow : ∃ k, ct.modulus = 2 ^ k) (hlow : min ≤ ct.modulus)
    (hhigh : ct.modulus ≤ Nat.min ctx.params.lwe.ringModulus ctx.params.lwe.switchingModulus) :
    ctx.checkPrecision ct min = pure () := by
  obtain ⟨k, hk⟩ := hpow
  have hpow : isPowerOfTwo ct.modulus = true := hk ▸ isPowerOfTwo_two_pow k
  have hrange : decide (min ≤ ct.modulus ∧ ct.modulus ≤
      Nat.min ctx.params.lwe.ringModulus ctx.params.lwe.switchingModulus) = true :=
    decide_eq_true ⟨hlow, hhigh⟩
  have hstep : decide (4 * beta ≤ ctx.params.lwe.modulus) = true := decide_eq_true hstep
  simp only [checkPrecision, hdim, beq_self_eq_true, hstep, hpow, hrange, Bool.and_self,
    Attempt.require_true, pure_bind]

theorem Carries.decrypt_eq (h : Carries s t m ct)
    (hphase : ct.phase s = .ok (ct.residuePhase s.coefficient)) (hdvd : 256 ∣ t.value) :
    decrypt s ct (ct.modulus / 256) = pure m := by
  obtain ⟨p, hp⟩ := hdvd
  obtain ⟨e, herror, he⟩ := h.error
  have hlt := h.lt
  have hmodulus := h.shaped.modulus_eq
  have hbase : ct.modulus / 256 = p := by omega
  rw [HasError, hmodulus] at herror
  rw [hbase]
  exact Context.decrypt_eq h.shaped.mask.size_eq (by omega) (by omega)
    (h.shaped.decrypt_eq (w := 256) hphase hp (by omega) (by omega) herror)

end Setup

section Digits

/-- The digits of a message in base `b`: the first `n` of them, and what they leave. -/
def digit (b n m i : ℕ) : ℕ := if i < n then m / b ^ i % b else m / b ^ i

theorem digit_of_lt {b n i : ℕ} (hi : i < n) : digit b n m i = m / b ^ i % b := if_pos hi

theorem digit_self (b n m : ℕ) : digit b n m n = m / b ^ n := if_neg (Nat.lt_irrefl n)

theorem sum_digit (b n m : ℕ) : ∑ i ∈ range (n + 1), digit b n m i * b ^ i = m := by
  have hlow : ∀ k ≤ n, ∑ i ∈ range k, digit b n m i * b ^ i = m % b ^ k := by
    intro k hk
    induction k with
    | zero => rw [sum_range_zero, pow_zero, Nat.mod_one]
    | succ k ih => rw [sum_range_succ, ih (by omega), digit_of_lt hk, Nat.mod_pow_succ, mul_comm (b ^ k)]
  rw [sum_range_succ, hlow n le_rfl, digit_self, mul_comm, Nat.mod_add_div]

end Digits

section Sign

/-- The bootstrap that tells the half circle of a phase, by a quarter of the circle of its result. -/
def signCall (q : ℕ) (shifted : Lwe.Ciphertext) : TableCall := ⟨shifted, q, fun _ => q / 4⟩

private theorem round_quarter {q n : ℕ} (hq : 4 ∣ q) (hpos : 0 < q) (hn : 4 ∣ n - 1) (hone : 1 < n) :
    Modulus.round (q / 4) q n = n / 4 := by
  obtain ⟨w, rfl⟩ := hq
  obtain ⟨a, ha⟩ := hn
  obtain rfl : n = 4 * a + 1 := by omega
  have hquarter : 4 * w / 4 = w := by omega
  have hhalf : 4 * w / 2 = 2 * w := by omega
  have hscaled : w * (4 * a + 1) + 2 * w = (4 * w) * a + 3 * w := by ring
  rw [Modulus.round, hquarter, hhalf, hscaled, Nat.mul_add_div (by omega), Nat.div_eq_of_lt (by omega),
    Nat.mod_eq_of_lt (by omega)]
  omega

theorem signCall_run {key : BootstrapKey} {shifted : Lwe.Ciphertext} {q : ℕ} (hq : 4 ∣ q) (hpos : 0 < q)
    (hring : 4 ∣ ctx.params.lwe.ringModulus - 1) (hone : 1 < ctx.params.lwe.ringModulus) :
    (signCall q shifted).run ctx key =
      ctx.bootstrapTable key shifted 0 q fun _ => ctx.params.lwe.ringModulus / 4 := by
  rw [signCall, TableCall.run]
  simp only [round_quarter hq hpos hring hone]

theorem Operates.readsWithin_signCall {key : BootstrapKey} {large : Lwe.Secret}
    {rowError switchError δ i : ℕ} {last shifted : Lwe.Ciphertext} (h : ctx.Operates key s)
    (hkey : key.Encrypts ctx.ring large secrets s rowError switchError)
    (hring : ctx.ring.modulus.value = ctx.params.lwe.ringModulus)
    (hdegree : q.value ∣ 2 * ctx.ring.degree) (hstep : 512 ≤ q.value)
    (hct : ct.Shaped t ct.dimension) (ht : ∃ k, t.value = 2 ^ k) (hle : 512 ≤ t.value)
    (hreach : Reached ctx q.value ct i last) (hlast : last.modulus ≤ q.value)
    (hshifted : last.addConstant beta = .ok shifted)
    (hδ : key.error ctx.ring large secrets.length s rowError switchError q.value < δ + 1) :
    (signCall q.value shifted).ReadsWithin ctx key s δ := by
  obtain ⟨r, hlast_shaped, ⟨a, ha⟩, -⟩ :=
    hreach.exists_shaped hstep (NegacyclicRing.exists_two_pow hdegree) hct ht hle
  have hshaped := Lwe.Ciphertext.shaped_of_addConstant hlast_shaped hshifted
  have hr_dvd : r.value ∣ 2 * ctx.ring.degree := by
    rw [hlast_shaped.modulus_eq] at hlast
    exact (ha ▸ NegacyclicRing.two_pow_dvd hdegree (ha ▸ hlast)).trans hdegree
  intro φ out ψ hφ
  have hdim : last.dimension = s.dimension :=
    hshaped.mask.size_eq.symm.trans (Lwe.Ciphertext.dimension_of_phase hφ)
  have hinput : (signCall q.value shifted).input.Shaped r s.dimension := hdim ▸ hshaped
  exact h.readsWithin (t := q) hkey hring hinput hr_dvd rfl hδ φ out ψ hφ

private theorem Operates.exists_sign {key : BootstrapKey} {δ : ℕ} (h : ctx.Operates key s)
    (hct : Carries s t m ct) (ht : t.value ∣ 2 * ctx.ring.degree) (hle : 512 ≤ t.value)
    (hq : 4 ∣ q.value) (hδ : 8 * δ < q.value)
    (hread : ∀ shifted, ct.addConstant beta = .ok shifted →
      (signCall q.value shifted).ReadsWithin ctx key s δ) :
    ∃ shifted sign out, ct.addConstant beta = .ok shifted ∧
      (signCall q.value shifted).run ctx key = .ok sign ∧ sign.subConstant (q.value / 4) = .ok out ∧
      out.modulus = q.value ∧ decrypt s out 2 = pure (if t.value / 512 ≤ m then 1 else 0) := by
  obtain ⟨c, hc⟩ : 512 ∣ t.value := NegacyclicRing.two_pow_dvd (k := 9) ht hle
  obtain ⟨w, hw⟩ := hq
  obtain ⟨e, herror, he⟩ := hct.error
  rw [HasError, hct.shaped.modulus_eq] at herror
  have hlt := hct.lt
  have habs := abs_lt.1 he
  obtain ⟨u, hu⟩ := Int.eq_ofNat_of_zero_le (a := 256 * m + 128 + e) (by omega)
  obtain ⟨shifted, hshifted, hshift_shaped, hshift_phase⟩ :=
    Lwe.Ciphertext.exists_addConstant hct.shaped beta s.coefficient
  have hsum : (256 * m + e + beta : ℤ) = u := by
    rw [← hu, beta]
    push_cast
    ring
  have hresidue : shifted.residuePhase s.coefficient = u := by
    exact_mod_cast hshift_shaped.residue_eq (t := u) (by omega) (by omega)
      ((hshift_phase.trans (herror.add_right _)).trans (congrArg (· % _) hsum))
  obtain ⟨sign, hsign, hsign_shaped, d, hd, hsign_phase⟩ :=
    h.exists_read (t := q) (hread shifted hshifted) hshift_shaped ht rfl
  obtain ⟨out, hout, hout_shaped, hout_phase⟩ :=
    Lwe.Ciphertext.exists_subConstant hsign_shaped (q.value / 4) s.coefficient
  refine ⟨shifted, sign, out, hshifted, hsign, hout, hout_shaped.modulus_eq, ?_⟩
  refine Context.decrypt_eq hout_shaped.mask.size_eq two_pos
    (by rw [hout_shaped.modulus_eq]; have := q.one_lt; omega)
    (hout_shaped.decrypt_eq (w := 2 * w) (e := d) (h.phase_eq hout_shaped) (by omega) (by split <;> omega)
      (by omega) ?_)
  have hread_u := hout_phase.trans (hsign_phase.sub_right _)
  rw [signCall, TableCall.ideal, hresidue, hshift_shaped.modulus_eq, hw, hc] at hread_u
  rw [hw, hc]
  refine hread_u.trans ?_
  by_cases hhigh : 512 * c / 512 ≤ m
  · rw [if_neg (by omega), if_pos hhigh]
    exact Int.modEq_iff_dvd.2 ⟨1, by push_cast; omega⟩
  · rw [if_pos (by omega), if_neg hhigh]
    exact congrArg (· % _) (by push_cast; omega)

end Sign

section Main

variable (hprime : ctx.params.lwe.ringModulus.Prime)
  (hring : NegacyclicRing.check ctx.params.lwe.ringDimension ctx.params.lwe.ringModulus = .ok ctx.ring)
  (hdvd : ctx.params.lwe.modulus ∣ 2 * ctx.params.lwe.ringDimension)
  (hstep : 512 ≤ ctx.params.lwe.modulus) (hactive : ctx.keys.active = pure active)
  (hfits : ∀ bits key, ctx.keys.forPrecision bits = pure key →
    key.Fits ctx.ring ctx.params.lwe.dimension)
  (hsecret : ctx.JointSecret active secrets s) (hpow : ∃ k, ct.modulus = 2 ^ k)
  (hlow : 2 * ctx.params.lwe.modulus ≤ ct.modulus)
  (hhigh : ct.modulus ≤ Nat.min ctx.params.lwe.ringModulus ctx.params.lwe.switchingModulus)
  (hdim : ct.dimension = ctx.params.lwe.dimension) (hwf : ct.WellFormed) (hm : m < ct.modulus / 256)
  (hphase : ct.phase s = .ok φ) (hmessage : φ ≡ 256 * m + e [ZMOD ct.modulus])
  (he : |e| + η ct.modulus < 128) (hquiet : ctx.QuietRounds s η ctx.params.lwe.modulus m ct)
include hprime hring hdvd hstep hactive hfits hsecret hpow hlow hhigh hdim hwf hm hphase hmessage he

private theorem exists_enters : ∃ q t : Modulus, q.value = ctx.params.lwe.modulus ∧ t.value = ct.modulus ∧
    q.value ∣ 2 * ctx.ring.degree ∧
    (∀ bits, ∃ key, ctx.keys.forPrecision bits = pure key ∧ ctx.Operates key s) ∧
    ctx.checkPrecision ct (2 * ctx.params.lwe.modulus % Word.bound) = pure () ∧
    Enters ctx s η q m ct 0 t ct := by
  obtain ⟨hdegree, hmodulus, -, -⟩ := NegacyclicRing.check_shape hring
  have hbound := ctx.ring.modulus.lt_bound
  have hle := (le_min_iff.1 hhigh).1
  rw [← hdegree] at hdvd
  have hkeys : ∀ bits, ∃ key, ctx.keys.forPrecision bits = pure key ∧ ctx.Operates key s := by
    intro bits
    obtain ⟨key, hkey⟩ := exists_forPrecision hactive bits
    exact ⟨key, hkey, hsecret.operates hprime hring (hsecret.dimension_eq ▸ hfits bits key hkey)⟩
  refine ⟨⟨ctx.params.lwe.modulus, by omega, by omega⟩, ⟨ct.modulus, by omega, by omega⟩, rfl, rfl, hdvd,
    hkeys, ?_, ?_⟩
  · rw [Nat.mod_eq_of_lt (by simp only [Word.bound]; omega)]
    exact checkPrecision_eq hdim hstep hpow hlow hhigh
  · have hct : ct.Shaped ⟨ct.modulus, by omega, by omega⟩ s.dimension :=
      Lwe.Ciphertext.shaped_iff.2 ⟨rfl, hdim.trans hsecret.dimension_eq.symm, hwf⟩
    obtain ⟨key, -, hop⟩ := hkeys 0
    rw [hop.phase_eq hct, Except.ok.injEq] at hphase
    refine ⟨.start, hct, hpow, by simp only; omega, by simpa using hm, e, ?_, ?_⟩
    · rw [HasError, pow_zero, Nat.div_one]
      exact ((hct.residue_modEq _).symm.trans (by rw [hphase])).trans hmessage
    · rw [if_pos (by simp only; omega)]
      exact he

include hquiet

/-- The sign is one for the messages of the upper half, and zero for those of the lower half. -/
theorem decrypt_evalSign {δ : ℕ} (hδ : 8 * δ < ctx.params.lwe.modulus)
    (hsign : ∀ i last shifted key, Reached ctx ctx.params.lwe.modulus ct i last →
      last.modulus ≤ ctx.params.lwe.modulus → last.addConstant beta = .ok shifted →
      ctx.keys.forPrecision (logModulus last.modulus) = pure key →
      (signCall ctx.params.lwe.modulus shifted).ReadsWithin ctx key s δ) :
    ∃ out, ctx.evalSign ct = pure out ∧ out.modulus = ctx.params.lwe.modulus ∧
      decrypt s out 2 = pure (if ct.modulus / 512 ≤ m then 1 else 0) := by
  obtain ⟨q, t, hq, ht, hdegree, hkeys, hcheck, henters⟩ := exists_enters hprime hring hdvd hstep hactive
    hfits hsecret hpow hlow hhigh hdim hwf hm hphase hmessage he
  rw [← hq] at hstep hquiet hδ hsign ⊢
  obtain ⟨ds, last, r, hrun, hlast, hle, hsplit, -⟩ :=
    henters.exists_dropDigits hkeys hdegree hstep hquiet false #[]
  obtain ⟨key, hkey, hop⟩ := hkeys (logModulus r.value)
  have hr := hlast.shaped.modulus_eq
  obtain ⟨a, ha⟩ := hlast.two_pow
  have hr_dvd : r.value ∣ q.value := ha ▸ NegacyclicRing.two_pow_dvd hdegree (ha ▸ hle)
  have hfour : 4 ∣ q.value := NegacyclicRing.two_pow_dvd (k := 2) hdegree (by omega)
  obtain ⟨shifted, sign, out, hshifted, hcall, hout, hmodulus, hdecrypt⟩ := hop.exists_sign
    hlast.carries (hr_dvd.trans hdegree) hlast.le hfour hδ fun shifted hshifted =>
      hsign _ last shifted key hlast.reached (hr ▸ hle) hshifted (hr ▸ hkey)
  refine ⟨out, ?_, hmodulus, hdecrypt.trans ?_⟩
  · obtain ⟨hdegree_eq, -, hpred, -⟩ := NegacyclicRing.check_shape hring
    rw [← hdegree_eq] at hpred
    rw [signCall_run hfour q.pos (hfour.trans (hdegree.trans hpred)) hprime.one_lt] at hcall
    rw [ht, hq] at hrun
    rw [hq] at hcall hout
    simp [evalSign, hcheck, hrun, hshifted, hkey, hcall, hout]
  · obtain ⟨c, hc⟩ : 512 ∣ r.value := NegacyclicRing.two_pow_dvd (k := 9) (hr_dvd.trans hdegree) hlast.le
    have hpos : 0 < (q.value / 256) ^ ds.length := Nat.pow_pos (by omega)
    have htop : r.value / 512 ≤ m / (q.value / 256) ^ (0 + ds.length) ↔ ct.modulus / 512 ≤ m := by
      rw [Nat.zero_add, Nat.le_div_iff_mul_le hpos, ← ht, hsplit, hc, mul_assoc,
        Nat.mul_div_cancel_left _ (by decide), Nat.mul_div_cancel_left _ (by decide)]
    rw [if_congr htop rfl rfl]

/-- The digits of a message in base `q / 256`, all but the last of them at the modulus `q`. -/
theorem decrypt_evalDigits : ∃ (cts : Array Lwe.Ciphertext) (digit : ℕ → ℕ),
    ctx.evalDigits ct = pure cts ∧ 0 < cts.size ∧
    (∀ (i : ℕ) (hi : i < cts.size), decrypt s cts[i] (cts[i].modulus / 256) = pure (digit i)) ∧
    (∀ (i : ℕ) (hi : i + 1 < cts.size), cts[i].modulus = ctx.params.lwe.modulus) ∧
    (cts.toList.map (·.modulus / 256)).prod = ct.modulus / 256 ∧
    m = ∑ i ∈ range cts.size, digit i * (ctx.params.lwe.modulus / 256) ^ i := by
  obtain ⟨q, t, hq, ht, hdegree, hkeys, hcheck, henters⟩ := exists_enters hprime hring hdvd hstep hactive
    hfits hsecret hpow hlow hhigh hdim hwf hm hphase hmessage he
  rw [← hq] at hstep hquiet ⊢
  obtain ⟨ds, last, r, hrun, hlast, hle, hsplit, hds⟩ :=
    henters.exists_dropDigits hkeys hdegree hstep hquiet true #[]
  obtain ⟨key, -, hop⟩ := hkeys 0
  have hbase : 256 ∣ q.value := NegacyclicRing.two_pow_dvd (k := 8) hdegree (by omega)
  have hr_base : 256 ∣ r.value := by
    obtain ⟨a, ha⟩ := hlast.two_pow
    have hr_dvd : r.value ∣ q.value := ha ▸ NegacyclicRing.two_pow_dvd hdegree (ha ▸ hle)
    exact NegacyclicRing.two_pow_dvd (k := 8) (hr_dvd.trans hdegree) (by have := hlast.le; omega)
  refine ⟨(ds ++ [last]).toArray, digit (q.value / 256) ds.length m, ?_, by simp, ?_, ?_, ?_, ?_⟩
  · rw [ht, hq] at hrun
    simp [evalDigits, hcheck, hrun]
  · intro i hi
    simp only [List.getElem_toArray, List.getElem_append]
    split
    · rename_i hlt
      have hcarries := hds i hlt
      rw [Nat.zero_add] at hcarries
      rw [digit_of_lt hlt]
      exact hcarries.decrypt_eq (hop.phase_eq hcarries.shaped) hbase
    · obtain rfl : i = ds.length := by
        rw [List.size_toArray, List.length_append, List.length_singleton] at hi
        omega
      have hcarries := hlast.carries
      rw [Nat.zero_add] at hcarries
      rw [List.getElem_singleton, digit_self]
      exact hcarries.decrypt_eq (hop.phase_eq hcarries.shaped) hr_base
  · intro i hi
    have hlt : i < ds.length := by simpa using hi
    simpa [List.getElem_append, hlt] using (hds i hlt).shaped.modulus_eq
  · have hdropped : ∀ b ∈ ds.map (·.modulus / 256), b = q.value / 256 := by
      intro b hb
      obtain ⟨d, hd, rfl⟩ := List.mem_map.1 hb
      obtain ⟨i, hi, rfl⟩ := List.mem_iff_getElem.1 hd
      rw [(hds i hi).shaped.modulus_eq]
    obtain ⟨c, hc⟩ := hr_base
    rw [List.map_append, List.prod_append, List.prod_eq_pow_card _ _ hdropped, List.length_map,
      List.map_singleton, List.prod_singleton, hlast.shaped.modulus_eq, ← ht, hsplit, hc, mul_assoc,
      Nat.mul_div_cancel_left _ (by decide), Nat.mul_div_cancel_left _ (by decide), mul_comm]
  · rw [List.size_toArray, List.length_append, List.length_singleton, sum_digit]

end Main

section Sample

def sampleInput : Lwe.Ciphertext := ⟨#[5], 4969, 8192⟩

private theorem sampleInput_wellFormed : sampleInput.WellFormed := by decide

variable {key : BootstrapKey}

private theorem Sample.modulus_eq (h : Sample ctx key) : ctx.params.lwe.modulus = 1024 := by
  rw [h.params_eq]
  rfl

private theorem Sample.eq_of_forPrecision (h : Sample ctx key) {bits : ℕ} {key' : BootstrapKey}
    (hkey : ctx.keys.forPrecision bits = pure key') : key' = key :=
  Attempt.pure_injective (hkey.symm.trans (h.forPrecision bits))

private theorem Sample.quietRounds (h : Sample ctx key) :
    QuietRounds ctx sampleSecret (fun _ => 1) ctx.params.lwe.modulus 19 sampleInput := by
  rw [h.modulus_eq]
  have hkeys : ∀ bits key', ctx.keys.forPrecision bits = pure key' →
      ctx.Operates key' sampleSecret ∧
      key'.Encrypts ctx.ring (Lwe.Secret.zero 1024) [sampleSecret] sampleSecret 0 0 ∧ ∀ target ≤ 8192,
        key'.error ctx.ring (Lwe.Secret.zero 1024) 1 sampleSecret 0 0 target < 1 + 1 := by
    intro bits key' hkey
    rw [h.eq_of_forPrecision hkey]
    exact ⟨h.operates, h.encrypts, h.error_lt⟩
  exact QuietRounds.of_error (q := ⟨1024, by decide, by decide⟩) h.ringModulus_eq
    (by rw [h.degree_eq]; exact ⟨2, rfl⟩) (by decide) (by decide) hkeys (by decide)

private theorem Sample.readsWithin_signCall (h : Sample ctx key) {i : ℕ} {last shifted : Lwe.Ciphertext}
    (hreach : Reached ctx ctx.params.lwe.modulus sampleInput i last)
    (hlast : last.modulus ≤ ctx.params.lwe.modulus) (hshifted : last.addConstant beta = .ok shifted) :
    (signCall ctx.params.lwe.modulus shifted).ReadsWithin ctx key sampleSecret 1 := by
  rw [h.modulus_eq] at hreach hlast ⊢
  exact h.operates.readsWithin_signCall (q := ⟨1024, by decide, by decide⟩)
    (t := ⟨8192, by decide, by decide⟩) h.encrypts h.ringModulus_eq (by rw [h.degree_eq]; exact ⟨2, rfl⟩)
    (by decide) ⟨rfl, ⟨rfl, by decide⟩, by decide⟩ ⟨13, rfl⟩ (by decide) hreach hlast hshifted
    (h.error_lt 1024 (by decide))

/-- 19 is in the upper half of the messages below 32. -/
theorem decrypt_evalSign_nineteen : ∃ (ctx : Context) (out : Lwe.Ciphertext),
    ctx.evalSign sampleInput = pure out ∧ decrypt sampleSecret out 2 = pure 1 := by
  obtain ⟨ctx, key, h⟩ := exists_sample
  have hmodulus := h.modulus_eq
  obtain ⟨out, hout, -, hdecrypt⟩ := decrypt_evalSign (e := 100) (η := fun _ => 1) (δ := 1)
    (by rw [h.params_eq]; exact prime_sample) (by rw [h.params_eq]; exact h.ring)
    (by rw [h.params_eq]; exact ⟨2, rfl⟩) (by rw [hmodulus]; decide) h.active
    (fun bits key' hkey => by rw [h.eq_of_forPrecision hkey, h.params_eq]; exact h.fits) h.secret
    ⟨13, rfl⟩ (by rw [hmodulus]; decide) (by rw [h.params_eq]; decide) (by rw [h.params_eq]; rfl)
    sampleInput_wellFormed (by decide) (φ := 4964) (by decide) (by decide) (by decide) h.quietRounds
    (by rw [hmodulus]; decide) fun i last shifted key' hreach hle hshifted hkey => by
      rw [h.eq_of_forPrecision hkey]
      exact h.readsWithin_signCall hreach hle hshifted
  exact ⟨ctx, out, hout, hdecrypt⟩

/-- The digits of 19 sum up to it. -/
theorem decrypt_evalDigits_nineteen : ∃ (ctx : Context) (cts : Array Lwe.Ciphertext) (digit : ℕ → ℕ),
    ctx.evalDigits sampleInput = pure cts ∧
      (∀ (i : ℕ) (hi : i < cts.size),
        decrypt sampleSecret cts[i] (cts[i].modulus / 256) = pure (digit i)) ∧
      19 = ∑ i ∈ range cts.size, digit i * 4 ^ i := by
  obtain ⟨ctx, key, h⟩ := exists_sample
  have hmodulus := h.modulus_eq
  obtain ⟨cts, digit, hcts, -, hdecrypt, -, -, hsum⟩ := decrypt_evalDigits (e := 100) (η := fun _ => 1)
    (by rw [h.params_eq]; exact prime_sample) (by rw [h.params_eq]; exact h.ring)
    (by rw [h.params_eq]; exact ⟨2, rfl⟩) (by rw [hmodulus]; decide) h.active
    (fun bits key' hkey => by rw [h.eq_of_forPrecision hkey, h.params_eq]; exact h.fits) h.secret
    ⟨13, rfl⟩ (by rw [hmodulus]; decide) (by rw [h.params_eq]; decide) (by rw [h.params_eq]; rfl)
    sampleInput_wellFormed (by decide) (φ := 4964) (by decide) (by decide) (by decide) h.quietRounds
  rw [hmodulus] at hsum
  exact ⟨ctx, cts, digit, hcts, hdecrypt, hsum⟩

end Sample

end LatticeGates.Context
