import LatticeGates.Proofs.Eval.Floor
import LatticeGates.Proofs.Lwe.ModulusSwitch

/-!
# Rounds of a large-precision message

A round clears the lowest digit of the message, in base `q / 256`, and drops it with a modulus switch.
Main statement: while the errors stay below the offset, the rounds take a message apart into the digits that
they drop and what is left at a modulus up to `q`.
-/

namespace LatticeGates.Context

open Finset

/-- What the rounds make of a ciphertext, with the number of rounds. -/
inductive Reached (ctx : Context) (q : ℕ) (start : Lwe.Ciphertext) : ℕ → Lwe.Ciphertext → Prop
  | start : Reached ctx q start 0 start
  | next {i ct out} : Reached ctx q start i ct → q < ct.modulus →
      ctx.dropDigit q ct ct.modulus = pure out → Reached ctx q start (i + 1) out

/-- The phase is that of a message, up to an error. -/
def HasError (s : Lwe.Secret) (ct : Lwe.Ciphertext) (m : ℕ) (e : ℤ) : Prop :=
  ct.integerPhase s.coefficient ≡ 256 * m + e [ZMOD ct.modulus]

variable {ctx : Context} {key : BootstrapKey} {s : Lwe.Secret} {q t : Modulus} {η : ℕ}
  {ct : Lwe.Ciphertext} {m : ℕ}

section Unfold

variable {p n : ℕ} {digit cleared out : Lwe.Ciphertext} {digits : Bool} {dropped : Array Lwe.Ciphertext}

theorem dropDigit_eq (hkey : ctx.keys.forPrecision (logModulus n) = pure key)
    (hcleared : ctx.floorWith key ct p = .ok cleared) :
    ctx.dropDigit p ct n = liftM (cleared.switchModulus (nextModulus p n)) := by
  rw [dropDigit, hkey, pure_bind, hcleared, Attempt.liftM_ok, pure_bind]

theorem dropDigits_next (hstep : 512 ≤ p) (hlt : p < n) (hdigit : ct.reduce p = .ok digit) :
    ctx.dropDigits p n ct digits dropped = ctx.dropDigit p ct n >>= fun out =>
      ctx.dropDigits p (nextModulus p n) out digits (if digits then dropped.push digit else dropped) := by
  have hguard : 4 * beta ≤ p ∧ p < n := ⟨hstep, hlt⟩
  rw [dropDigits, dif_pos hguard]
  cases digits with
  | true => simp [hdigit]
  | false => simp

theorem dropDigits_of_lt (hstep : 512 ≤ p) (hlt : p < n) (hdigit : ct.reduce p = .ok digit)
    (hout : ctx.dropDigit p ct n = pure out) : ctx.dropDigits p n ct digits dropped =
      ctx.dropDigits p (nextModulus p n) out digits (if digits then dropped.push digit else dropped) := by
  rw [dropDigits_next hstep hlt hdigit, hout, pure_bind]

theorem dropDigits_of_le (hle : n ≤ p) : ctx.dropDigits p n ct digits dropped = pure (dropped, ct, n) := by
  rw [dropDigits, dif_neg fun h => h.2.not_ge hle]

end Unfold

section Step

private theorem switched_error {q c high d k₁ k₂ S b φ ψ : ℚ} (hq : 0 < q) (hc : 0 < c)
    (hφ : φ = q * high - d + q * c * k₁)
    (hψ : |ψ - 256 * c / (q * c) * φ - 256 * c * k₂| ≤ (1 + S) / 2) (hd : |d| ≤ b) :
    2 * q * |ψ - 256 * high - 256 * c * (k₁ + k₂)| ≤ 512 * b + q * (1 + S) := by
  have hsplit : ψ - 256 * high - 256 * c * (k₁ + k₂) =
      (ψ - 256 * c / (q * c) * φ - 256 * c * k₂) - 256 / q * d := by
    rw [hφ]
    field_simp
    ring
  have hscaled : |256 / q * d| ≤ 256 / q * b := by
    rw [abs_mul, abs_of_pos (div_pos (by norm_num) hq)]
    gcongr
  calc 2 * q * |ψ - 256 * high - 256 * c * (k₁ + k₂)|
      ≤ 2 * q * ((1 + S) / 2 + 256 / q * b) := by
        rw [hsplit]
        gcongr
        exact (abs_sub _ _).trans (add_le_add hψ hscaled)
    _ = 512 * b + q * (1 + S) := by
        field_simp
        ring

/-- A round drops the lowest digit of the message. -/
theorem Operates.exists_dropDigit (h : ctx.Operates key s)
    (hkey : ctx.keys.forPrecision (logModulus t.value) = pure key) (hct : ct.Shaped t s.dimension)
    (hdegree : q.value ∣ 2 * ctx.ring.degree) (hstep : 512 ≤ q.value) (hdvd : q.value ∣ t.value) {e : ℤ}
    (hphase : ct.integerPhase s.coefficient ≡ 256 * m + e [ZMOD t.value]) (he : |e| + η < 128)
    (hreads : ∀ call, FloorCall ctx key ct q.value call → call.ReadsWithin ctx key s η)
    {r : Modulus} (hr : r.value = nextModulus q.value t.value) :
    ∃ out, ctx.dropDigit q.value ct t.value = pure out ∧ out.Shaped r s.dimension ∧
      ∃ d : ℤ, 2 * q.value * |d| ≤ 512 * η + q.value * (1 + ∑ i ∈ range s.dimension, |s.coefficient i|) ∧
        out.integerPhase s.coefficient ≡ 256 * (m / (q.value / 256) : ℕ) + d [ZMOD r.value] := by
  obtain ⟨cleared, hcleared, hclear_shaped, d, hd, hclear_phase⟩ :=
    h.exists_floorWith hct hdegree hstep hdvd hphase he hreads
  generalize m / (q.value / 256) = high at *
  have hpos : 0 < cleared.modulus := hclear_shaped.modulus_eq ▸ t.pos
  obtain ⟨out, hout, hout_modulus, hout_size, hout_wf, hswitch⟩ :=
    Lwe.Ciphertext.exists_switchModulus hpos r.pos
  obtain ⟨k₁, hk₁⟩ := hclear_phase.symm.dvd
  obtain ⟨k₂, hk₂⟩ := hswitch s.coefficient
  have hsize := hclear_shaped.mask.size_eq
  refine ⟨out, ?_, Lwe.Ciphertext.shaped_iff.2 ⟨hout_modulus, hout_size.trans hsize, hout_wf⟩,
    out.integerPhase s.coefficient - 256 * high - r.value * (k₁ + k₂), ?_, ?_⟩
  · rw [dropDigit_eq hkey hcleared, ← hr, hout, Attempt.liftM_ok]
  · obtain ⟨c, hc⟩ := hdvd
    have hcpos : 0 < c := Nat.pos_of_ne_zero fun h0 => by
      have := t.pos
      rw [hc, h0, mul_zero] at this
      omega
    have hr : (r.value : ℚ) = 256 * c := by
      rw [hr, nextModulus, hc, Nat.mul_div_cancel_left _ q.pos]
      push_cast [beta]
      ring
    have hcleared_phase : (cleared.integerPhase s.coefficient : ℚ) =
        q.value * high - d + q.value * c * k₁ := by
      rw [eq_add_of_sub_eq' hk₁, hc]
      push_cast
      ring
    rw [hclear_shaped.modulus_eq, hsize, hr, hc, Nat.cast_mul] at hk₂
    have hbound := switched_error (Nat.cast_pos.2 q.pos) (Nat.cast_pos.2 hcpos) hcleared_phase hk₂
      (b := η) (by exact_mod_cast hd)
    rw [← hr] at hbound
    refine (Int.cast_le (R := ℚ)).1 ?_
    push_cast at hbound ⊢
    exact hbound
  · refine Int.modEq_iff_dvd.2 ⟨-(k₁ + k₂), ?_⟩
    ring

end Step

section Moduli

private theorem dvd_of_two_pow_le {t : ℕ} (ht : ∃ k, t = 2 ^ k) (hle : 512 ≤ t) : 256 ∣ t := by
  obtain ⟨a, rfl⟩ := ht
  have ha : 9 ≤ a := (Nat.pow_le_pow_iff_right one_lt_two).1 hle
  exact show 2 ^ 8 ∣ 2 ^ a from pow_dvd_pow 2 (by omega)

variable {q t : ℕ} (hstep : 512 ≤ q) (hq : ∃ k, q = 2 ^ k) (ht : ∃ k, t = 2 ^ k) (hlt : q < t)
include hq ht hlt

omit hstep in
theorem dvd_of_two_pow_lt : q ∣ t := by
  obtain ⟨b, rfl⟩ := hq
  obtain ⟨a, rfl⟩ := ht
  exact pow_dvd_pow 2 ((Nat.pow_lt_pow_iff_right one_lt_two).1 hlt).le

include hstep

theorem nextModulus_two_pow : (∃ k, nextModulus q t = 2 ^ k) ∧ 512 ≤ nextModulus q t ∧
    t = nextModulus q t * (q / 256) := by
  have hbase := dvd_of_two_pow_le hq hstep
  obtain ⟨c, rfl⟩ := dvd_of_two_pow_lt hq ht hlt
  obtain ⟨b, rfl⟩ := hq
  obtain ⟨a, ha⟩ := ht
  obtain ⟨k, -, rfl⟩ := (Nat.dvd_prime_pow Nat.prime_two).1 (Dvd.intro_left _ ha)
  have hk : 1 < 2 ^ k := by
    refine Nat.lt_of_mul_lt_mul_left (a := 2 ^ b) ?_
    rwa [mul_one]
  have hnext : nextModulus (2 ^ b) (2 ^ b * 2 ^ k) = 2 ^ k * 256 := by
    rw [nextModulus, Nat.mul_div_cancel_left _ (Nat.two_pow_pos b), mul_assoc]
    rfl
  rw [hnext]
  refine ⟨⟨k + 8, (pow_add 2 k 8).symm⟩, by omega, ?_⟩
  rw [mul_assoc, Nat.mul_div_cancel' hbase, mul_comm]

end Moduli

section Run

/-- While a ciphertext is worked on, every bootstrap errs by at most `η` of its output modulus, and the error
that enters a round leaves room for it. Of the error that a round leaves, this has to be known only where it
is as small as the bootstraps and the switch of the round make it. -/
structure QuietRounds (ctx : Context) (s : Lwe.Secret) (η : ℕ → ℕ) (q m : ℕ)
    (start : Lwe.Ciphertext) : Prop where
  reads : ∀ {i ct key call}, Reached ctx q start i ct → q < ct.modulus →
    ctx.keys.forPrecision (logModulus ct.modulus) = pure key → FloorCall ctx key ct q call →
    call.ReadsWithin ctx key s (η ct.modulus)
  error : ∀ {i ct out}, Reached ctx q start i ct → q < ct.modulus →
    ctx.dropDigit q ct ct.modulus = pure out →
    (∃ d, HasError s out (m / (q / 256) ^ (i + 1)) d ∧ 2 * q * |d| ≤
      512 * η ct.modulus + q * (1 + ∑ j ∈ range s.dimension, |s.coefficient j|)) →
    ∃ e, HasError s out (m / (q / 256) ^ (i + 1)) e ∧
      |e| + (if q < out.modulus then η out.modulus else 0 : ℕ) < 128

theorem wellFormed_of_dropDigit {q m : ℕ} {out : Lwe.Ciphertext} (h : ctx.dropDigit q ct m = pure out) :
    out.modulus = nextModulus q m ∧ out.WellFormed := by
  obtain ⟨key, -, h⟩ := Attempt.bind_eq_pure.1 h
  obtain ⟨cleared, -, h⟩ := Attempt.bind_eq_pure.1 h
  exact Lwe.Ciphertext.wellFormed_of_switchModulus (Attempt.liftM_eq_pure.1 h)

theorem Reached.modulus_le {q i : ℕ} {start : Lwe.Ciphertext} (hstep : 512 ≤ q)
    (h : Reached ctx q start i ct) : ct.modulus ≤ start.modulus := by
  induction h with
  | start => exact le_rfl
  | next _ hlt hout ih =>
    rw [(wellFormed_of_dropDigit hout).1]
    exact (nextModulus_lt hstep hlt).le.trans ih

theorem Reached.exists_shaped {q i : ℕ} {start : Lwe.Ciphertext} (hstep : 512 ≤ q) (hq : ∃ k, q = 2 ^ k)
    (hstart : start.Shaped t start.dimension) (ht : ∃ k, t.value = 2 ^ k) (hle : 512 ≤ t.value)
    (h : Reached ctx q start i ct) :
    ∃ r : Modulus, ct.Shaped r ct.dimension ∧ (∃ k, r.value = 2 ^ k) ∧ 512 ≤ r.value := by
  induction h with
  | start => exact ⟨t, hstart, ht, hle⟩
  | @next i ct out _ hlt hout ih =>
    obtain ⟨r, hshaped, hr, hr_le⟩ := ih
    rw [hshaped.modulus_eq] at hlt hout
    obtain ⟨hmodulus, hwf⟩ := wellFormed_of_dropDigit hout
    obtain ⟨hnext, hnext_le, -⟩ := nextModulus_two_pow hstep hq hr hlt
    exact ⟨⟨nextModulus q r.value, by omega, (nextModulus_lt hstep hlt).trans r.lt_bound⟩,
      Lwe.Ciphertext.shaped_iff.2 ⟨hmodulus, rfl, hwf⟩, hnext, hnext_le⟩

/-- With keys of bounded errors the rounds are quiet, whatever the message is, where the errors of a round,
scaled down, and those of the bootstraps after it stay below the offset. -/
theorem QuietRounds.of_error {large : Lwe.Secret} {secrets : List Lwe.Secret} {rowError switchError η : ℕ}
    {start : Lwe.Ciphertext} (hring : ctx.ring.modulus.value = ctx.params.lwe.ringModulus)
    (hdegree : q.value ∣ 2 * ctx.ring.degree) (hstep : 512 ≤ q.value)
    (hstart : start.modulus < 0x4000000000000000)
    (hkeys : ∀ bits key, ctx.keys.forPrecision bits = pure key → ctx.Operates key s ∧
      key.Encrypts ctx.ring large secrets s rowError switchError ∧ ∀ target ≤ start.modulus,
        key.error ctx.ring large secrets.length s rowError switchError target < η + 1)
    (hη : 512 * η + q.value * (1 + ∑ j ∈ range s.dimension, |s.coefficient j|) + 2 * q.value * η <
      256 * q.value) :
    QuietRounds ctx s (fun _ => η) q.value m start := by
  constructor
  · intro i ct key call hreach hlt hkey hcall
    obtain ⟨hop, hencrypts, herror⟩ := hkeys _ key hkey
    have hle := hreach.modulus_le hstep
    exact hcall.readsWithin (t := ⟨ct.modulus, by omega, by omega⟩) hop hencrypts hring hdegree rfl
      (herror _ hle)
  · rintro i ct out - - - ⟨d, hd, hbound⟩
    refine ⟨d, hd, ?_⟩
    have hroom : (if q.value < out.modulus then η else 0 : ℕ) ≤ (η : ℤ) := by split <;> omega
    have hscaled : 2 * q.value * (|d| + η) < 2 * q.value * 128 := by linarith
    have := lt_of_mul_lt_mul_left hscaled (by positivity)
    omega

/-- An encryption of a message, with an error below the offset. -/
structure Carries (s : Lwe.Secret) (t : Modulus) (m : ℕ) (ct : Lwe.Ciphertext) : Prop where
  shaped : ct.Shaped t s.dimension
  lt : m < t.value / 256
  error : ∃ e : ℤ, HasError s ct m e ∧ |e| < 128

/-- What enters a round: an encryption of what is left of the message, with room for the bootstraps of the
round if there is one. -/
structure Enters (ctx : Context) (s : Lwe.Secret) (η : ℕ → ℕ) (q : Modulus) (m : ℕ)
    (start : Lwe.Ciphertext) (i : ℕ) (t : Modulus) (ct : Lwe.Ciphertext) : Prop where
  reached : Reached ctx q.value start i ct
  shaped : ct.Shaped t s.dimension
  two_pow : ∃ k, t.value = 2 ^ k
  le : 512 ≤ t.value
  lt : m / (q.value / 256) ^ i < t.value / 256
  error : ∃ e, HasError s ct (m / (q.value / 256) ^ i) e ∧
    |e| + (if q.value < t.value then η t.value else 0 : ℕ) < 128

variable {η : ℕ → ℕ} {start : Lwe.Ciphertext} {i : ℕ}
  (hkeys : ∀ bits, ∃ key, ctx.keys.forPrecision bits = pure key ∧ ctx.Operates key s)
  (hdegree : q.value ∣ 2 * ctx.ring.degree) (hstep : 512 ≤ q.value)
  (hquiet : QuietRounds ctx s η q.value m start)

theorem Enters.carries (h : Enters ctx s η q m start i t ct) :
    Carries s t (m / (q.value / 256) ^ i) ct := by
  obtain ⟨e, herror, he⟩ := h.error
  exact ⟨h.shaped, h.lt, e, herror, by omega⟩

include hdegree hstep

theorem Enters.exists_reduce (h : Enters ctx s η q m start i t ct) (hlt : q.value < t.value) :
    ∃ digit, ct.reduce q.value = .ok digit ∧
      Carries s q (m / (q.value / 256) ^ i % (q.value / 256)) digit := by
  have hdvd := dvd_of_two_pow_lt (NegacyclicRing.exists_two_pow hdegree) h.two_pow hlt
  obtain ⟨k, hk⟩ : 256 ∣ q.value := NegacyclicRing.two_pow_dvd (k := 8) hdegree (by omega)
  obtain ⟨e, herror, he⟩ := h.error
  obtain ⟨digit, hdigit, hdigit_shaped, hdigit_phase⟩ :=
    Lwe.Ciphertext.exists_reduce h.shaped hdvd s.coefficient
  refine ⟨digit, hdigit, hdigit_shaped, Nat.mod_lt _ (by omega), e, ?_, by omega⟩
  rw [HasError, h.shaped.modulus_eq] at herror
  rw [HasError, hdigit_shaped.modulus_eq]
  refine hdigit_phase.trans ((herror.of_dvd (Int.natCast_dvd_natCast.2 hdvd)).trans ?_)
  have hbase : q.value / 256 = k := by omega
  have hsplit := Nat.div_add_mod (m / (q.value / 256) ^ i) (q.value / 256)
  refine Int.modEq_iff_dvd.2 ⟨-(m / (q.value / 256) ^ i / (q.value / 256) : ℕ), ?_⟩
  rw [hbase] at hsplit ⊢
  generalize m / k ^ i = w at *
  generalize w / k = high at *
  generalize w % k = low at *
  rw [hk, ← hsplit]
  push_cast
  ring

include hkeys hquiet

theorem Enters.exists_next (h : Enters ctx s η q m start i t ct) (hlt : q.value < t.value) :
    ∃ (r : Modulus) (out : Lwe.Ciphertext), r.value = nextModulus q.value t.value ∧
      ctx.dropDigit q.value ct t.value = pure out ∧ Enters ctx s η q m start (i + 1) r out := by
  have hpow := NegacyclicRing.exists_two_pow hdegree
  have hdvd := dvd_of_two_pow_lt hpow h.two_pow hlt
  have hmodulus := h.shaped.modulus_eq
  obtain ⟨hr_pow, hr_le, hsplit⟩ := nextModulus_two_pow hstep hpow h.two_pow hlt
  obtain ⟨r, hr⟩ : ∃ r : Modulus, r.value = nextModulus q.value t.value :=
    ⟨⟨nextModulus q.value t.value, by omega, (nextModulus_lt hstep hlt).trans t.lt_bound⟩, rfl⟩
  obtain ⟨key, hkey, hop⟩ := hkeys (logModulus t.value)
  obtain ⟨e, herror, he⟩ := h.error
  rw [if_pos hlt] at he
  rw [HasError, hmodulus] at herror
  obtain ⟨out, hout, hout_shaped, d, hd, hout_phase⟩ := hop.exists_dropDigit hkey h.shaped hdegree hstep
    hdvd herror he (fun call hcall => hmodulus ▸ hquiet.reads h.reached (hmodulus ▸ hlt)
      (hmodulus ▸ hkey) hcall) hr
  rw [← hout_shaped.modulus_eq, Nat.div_div_eq_div_mul, ← pow_succ] at hout_phase
  rw [← hmodulus] at hlt hout
  have hreached := Reached.next h.reached hlt hout
  obtain ⟨d', hd'⟩ := hquiet.error h.reached hlt hout ⟨d, hout_phase, by rwa [hmodulus]⟩
  rw [hmodulus] at hout
  rw [← hr] at hr_pow hr_le hsplit
  refine ⟨r, out, hr, hout, hreached, hout_shaped, hr_pow, hr_le, ?_, d', hout_shaped.modulus_eq ▸ hd'⟩
  obtain ⟨c, hc⟩ := dvd_of_two_pow_le hr_pow hr_le
  rw [pow_succ, ← Nat.div_div_eq_div_mul]
  refine Nat.div_lt_of_lt_mul ?_
  calc m / (q.value / 256) ^ i < t.value / 256 := h.lt
    _ = q.value / 256 * (r.value / 256) := by
      rw [hsplit, hc, mul_assoc, Nat.mul_div_cancel_left _ (by decide), Nat.mul_div_cancel_left _ (by decide),
        mul_comm]

/-- The rounds drop the digits of the message, and leave the rest at a modulus up to `q`. -/
theorem Enters.exists_dropDigits (h : Enters ctx s η q m start i t ct) (digits : Bool)
    (dropped : Array Lwe.Ciphertext) :
    ∃ (ds : List Lwe.Ciphertext) (last : Lwe.Ciphertext) (r : Modulus),
      ctx.dropDigits q.value t.value ct digits dropped =
        pure (if digits then dropped ++ ds.toArray else dropped, last, r.value) ∧
      Enters ctx s η q m start (i + ds.length) r last ∧ r.value ≤ q.value ∧
      t.value = r.value * (q.value / 256) ^ ds.length ∧
      ∀ (k : ℕ) (hk : k < ds.length),
        Carries s q (m / (q.value / 256) ^ (i + k) % (q.value / 256)) ds[k] := by
  -- by induction on the modulus, which a round divides by the base; `Enters` is what a round keeps
  obtain ⟨n, hn⟩ : ∃ n, t.value = n := ⟨_, rfl⟩
  induction n using Nat.strong_induction_on generalizing i t ct dropped with
  | _ n ih =>
    by_cases hlt : q.value < t.value
    · obtain ⟨digit, hdigit, hdigit_carries⟩ := h.exists_reduce hdegree hstep hlt
      obtain ⟨r, out, hr, hout, hnext⟩ := h.exists_next hkeys hdegree hstep hquiet hlt
      have hpow := NegacyclicRing.exists_two_pow hdegree
      obtain ⟨-, -, hsplit⟩ := nextModulus_two_pow hstep hpow h.two_pow hlt
      obtain ⟨ds, last, l, hrun, hlast, hle, hmodulus, hds⟩ := ih r.value
        (hn ▸ hr ▸ nextModulus_lt hstep hlt) hnext (if digits then dropped.push digit else dropped) rfl
      rw [← hr] at hsplit
      refine ⟨digit :: ds, last, l, ?_, ?_, hle, ?_, ?_⟩
      · rw [dropDigits_of_lt hstep hlt hdigit hout, ← hr, hrun]
        cases digits with
        | true => simp
        | false => rfl
      · rwa [List.length_cons, Nat.add_comm ds.length, ← Nat.add_assoc]
      · rw [hsplit, hmodulus, List.length_cons, pow_succ, mul_assoc]
      · intro k hk
        cases k with
        | zero => exact hdigit_carries
        | succ k =>
          have := hds k (by simpa using hk)
          rwa [Nat.add_right_comm, Nat.add_assoc] at this
    · refine ⟨[], ct, t, ?_, h, by omega, by rw [List.length_nil, pow_zero, mul_one], ?_⟩
      · rw [dropDigits_of_le (not_lt.1 hlt)]
        simp
      · intro k hk
        exact (Nat.not_lt_zero k hk).elim

end Run

end LatticeGates.Context
