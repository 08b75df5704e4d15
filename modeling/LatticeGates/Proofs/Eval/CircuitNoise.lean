import LatticeGates.Proofs.Eval.Noise

/-!
# Circuits under keys with errors

Main statement: when the errors of the keys leave a bootstrap less than a twenty-fourth of the circle, every
bootstrap of a circuit gives the sign that its table has for the phase of its input.
-/

namespace LatticeGates

section Quarter

variable {q Q : ℕ}

private theorem abs_quarter_sub_le (hQ : 0 < Q) (hq : 8 ∣ q) :
    |(q / Q * (2 * (Q / 8 : ℕ)) : ℚ) - (q / 4 : ℕ)| ≤ q / Q * (7 / 4) := by
  obtain ⟨u, rfl⟩ := hq
  have hquarter : 8 * u / 4 = 2 * u := by omega
  have hQpos : (0 : ℚ) < Q := Nat.cast_pos.2 hQ
  have hmod : (Q % 8 : ℕ) ≤ (7 : ℚ) := by exact_mod_cast Nat.le_of_lt_succ (Nat.mod_lt Q (by decide))
  have hsplit : (8 * (Q / 8 : ℕ) + (Q % 8 : ℕ) : ℚ) = Q := by exact_mod_cast Nat.div_add_mod Q 8
  have hdiff : ((8 * u : ℕ) / Q * (2 * (Q / 8 : ℕ)) : ℚ) - (8 * u / 4 : ℕ) =
      -((8 * u : ℕ) / Q * ((Q % 8 : ℕ) / 4)) := by
    rw [hquarter]
    push_cast
    field_simp
    linear_combination (8 * u : ℚ) * hsplit
  rw [hdiff, abs_neg, abs_of_nonneg (by positivity)]
  gcongr

private theorem abs_sign_sub_le (hQ : 0 < Q) (hq : 8 ∣ q) {bit : Bool} {r j : ℤ}
    (hr : (if bit then 1 else -1) * (Q / 8 : ℕ) - r = Q * j) :
    |(q / Q * (r + (Q / 8 : ℕ)) : ℚ) + q * j - bit.toNat * (q / 4 : ℕ)| ≤ q / Q * (7 / 4) := by
  have hQpos : (0 : ℚ) < Q := Nat.cast_pos.2 hQ
  have hquarter := abs_quarter_sub_le hQ hq
  generalize Q / 8 = eighth at hr hquarter ⊢
  generalize q / 4 = quarter at hquarter ⊢
  have hturn : (q / Q * (r + eighth) : ℚ) + q * j = q / Q * (r + eighth + Q * j) := by
    field_simp
  have hr : (((if bit then 1 else -1) * eighth - r : ℤ) : ℚ) = Q * j := by exact_mod_cast hr
  rw [hturn, ← hr]
  cases bit with
  | true =>
    refine (le_of_eq (congrArg _ ?_)).trans hquarter
    simp only [reduceIte, Bool.toNat_true]
    push_cast
    ring
  | false =>
    simp only [Bool.false_eq_true, reduceIte, Bool.toNat_false]
    push_cast
    rw [show (r + eighth + (-1 * eighth - r) : ℚ) = 0 by ring, mul_zero, zero_mul, sub_zero, abs_zero]
    positivity

private theorem isPhaseOf_of_abs_le {bit : Bool} {φ j k : ℤ} {c a b : ℚ} (hφ : |φ - c - q * k| ≤ a)
    (hc : |c + q * j - bit.toNat * (q / 4 : ℕ)| ≤ b) (hlt : 24 * (a + b) < q) : IsPhaseOf q bit φ := by
  unfold IsPhaseOf
  generalize q / 4 = quarter at hc ⊢
  refine ⟨φ - bit.toNat * quarter - q * (k - j), ?_, Int.modEq_iff_dvd.2 ⟨j - k, by ring⟩⟩
  have hsplit : ((φ - bit.toNat * quarter - q * (k - j) : ℤ) : ℚ) =
      (φ - c - q * k) + (c + q * j - bit.toNat * quarter) := by
    push_cast
    ring
  have herror : |((φ - bit.toNat * quarter - q * (k - j) : ℤ) : ℚ)| ≤ a + b := by
    rw [hsplit]
    exact (abs_add_le _ _).trans (add_le_add hφ hc)
  have hlt : (24 * |((φ - bit.toNat * quarter - q * (k - j) : ℤ) : ℚ)|) < q := by linarith
  exact_mod_cast hlt

end Quarter

namespace Context

/-- Keys whose errors leave a bootstrap to the modulus `q` less than a twenty-fourth of the circle. -/
structure Quiet (ctx : Context) (key : BootstrapKey) (large : Lwe.Secret) (secrets : List Lwe.Secret)
    (s : Lwe.Secret) (rowError switchError : ℕ) (q : Modulus) : Prop extends ctx.Operates key s where
  encrypts : key.Encrypts ctx.ring large secrets s rowError switchError
  ringModulus_eq : ctx.ring.modulus.value = ctx.params.lwe.ringModulus
  modulus_dvd : q.value ∣ 2 * ctx.ring.degree
  error_lt : 24 * (key.error ctx.ring large secrets.length s rowError switchError q.value +
    2 * (q.value / ctx.ring.modulus.value)) < q.value

variable {ctx : Context} {key : BootstrapKey} {s large : Lwe.Secret} {secrets : List Lwe.Secret}
  {rowError switchError start : ℕ} {q : Modulus} {ct : Lwe.Ciphertext}

/-- A bootstrap of the sign table errs by less than a twenty-fourth of the circle. -/
theorem Quiet.readsSign (h : ctx.Quiet key large secrets s rowError switchError q) (hq : 8 ∣ q.value)
    (hct : ct.Shaped q s.dimension) (hstart : start ≤ q.value) : ctx.ReadsSign key s ct start := by
  have hmodulus := hct.modulus_eq
  obtain ⟨tab, out, htab, hout, hshaped, k, hk⟩ := h.toOperates.exists_bootstrapTable h.encrypts hct
    h.modulus_dvd (ctx.ring.modulus.value / 8) q (signValue ctx.ring.modulus.value q.value start)
  rw [hmodulus] at htab hk
  obtain ⟨j, hj⟩ := Int.modEq_iff_dvd.1
    (read_signTable htab (hct.residue_lt s.coefficient) ((Dvd.intro 4 rfl).trans hq) hstart)
  have hsign := abs_sign_sub_le ctx.ring.modulus.pos hq hj
  unfold ReadsSign
  rw [← h.ringModulus_eq, hmodulus]
  refine ⟨_, out, _, h.phase_eq hct, hout, h.phase_eq hshaped,
    IsPhaseOf.congr ?_ (hshaped.residue_modEq s.coefficient)⟩
  have hunit : (0 : ℚ) ≤ q.value / ctx.ring.modulus.value := by positivity
  exact isPhaseOf_of_abs_le hk hsign (lt_of_le_of_lt (by linarith) h.error_lt)

end Context

namespace Instruction

variable {n : ℕ} {ctx : Context} {s : Lwe.Secret} {q : Modulus} {wires : Fin n → Lwe.Ciphertext}
  {i : Instruction n} {ct : Lwe.Ciphertext} {start : ℕ}

theorem Bootstraps.shaped (h : i.Bootstraps wires ct start) (hwires : ∀ w, (wires w).Shaped q s.dimension) :
    ct.Shaped q s.dimension ∧ start ≤ q.value := by
  cases h with
  | @gate g x y sum ct hsum hct =>
    obtain ⟨_, hsum', hsum_shaped, -⟩ := Lwe.Ciphertext.exists_add (hwires x) (hwires y) s.coefficient
    cases hsum.symm.trans hsum'
    obtain ⟨_, hct', hct_shaped, -⟩ := Context.exists_operand g hsum_shaped s.coefficient
    cases hct.symm.trans hct'
    exact ⟨hct_shaped, (hwires x).modulus_eq ▸ g.regionStart_le _⟩
  | @majority x y z sum ct hsum hct =>
    obtain ⟨_, hsum', hsum_shaped, -⟩ := Lwe.Ciphertext.exists_add (hwires x) (hwires y) s.coefficient
    cases hsum.symm.trans hsum'
    obtain ⟨_, hct', hct_shaped, -⟩ := Lwe.Ciphertext.exists_add hsum_shaped (hwires z) s.coefficient
    cases hct.symm.trans hct'
    exact ⟨hct_shaped, (hwires x).modulus_eq ▸ Gate.and.regionStart_le _⟩
  | @identity x ct hct =>
    obtain ⟨_, hct', hct_shaped, -⟩ :=
      Lwe.Ciphertext.exists_addConstant (hwires x) ((wires x).modulus / 4) s.coefficient
    cases hct.symm.trans hct'
    exact ⟨hct_shaped, (hwires x).modulus_eq ▸ Gate.and.regionStart_le _⟩

end Instruction

namespace Circuit

variable {inputs : ℕ} {ctx : Context} {key : BootstrapKey} {large s : Lwe.Secret}
  {secrets : List Lwe.Secret} {rowError switchError u bound : ℕ} {q : Modulus} {bits : Fin inputs → Bool}
  {cts : Fin inputs → Lwe.Ciphertext}

/-- Under quiet keys all bootstraps of a circuit give what their tables have. The induction is on the
circuit: as those before it do, the wires are ciphertexts of bits, and so are of the shape that a bootstrap
of the sign table asks for. -/
theorem readsSigns (h : ctx.Ready s q u bound) (hbound : 0 < bound) (hkey : ctx.keys.active = pure key)
    (hquiet : ctx.Quiet key large secrets s rowError switchError q)
    (hcts : ∀ i, ctx.EncryptsBit s (bits i) (cts i)) {n : ℕ} (c : Circuit inputs n) :
    c.ReadsSigns ctx key s cts := by
  induction c with
  | inputs => trivial
  | extend c i ih =>
    refine ⟨ih, fun wires hrun ct start hct => ?_⟩
    obtain ⟨wires', hrun', hwires⟩ := exists_run h hbound hkey hcts c ih
    cases Attempt.pure_injective (hrun.symm.trans hrun')
    obtain ⟨hshaped, hstart⟩ := hct.shaped fun w => (h.encryptsBit_iff.1 (hwires w)).1
    exact hquiet.readsSign ⟨u, h.value_eq⟩ hshaped hstart

theorem readsSigns_sample {ctx : Context} {key : BootstrapKey} (h : Context.Sample ctx key)
    (hcts : ∀ i, ctx.EncryptsBit Context.sampleSecret (bits i) (cts i)) {n : ℕ} (c : Circuit inputs n) :
    c.ReadsSigns ctx key Context.sampleSecret cts := by
  have hmodulus : ctx.params.lwe.modulus = 1024 := by
    rw [h.params_eq]
    rfl
  obtain ⟨q, u, bound, hbound, hready⟩ :=
    h.secret.exists_ready h.ring (by rw [hmodulus]; decide) (by rw [hmodulus]; decide)
  have hq : q.value = 1024 := hready.modulus_eq.symm.trans hmodulus
  have hdvd : q.value ∣ 2 * ctx.ring.degree := by
    rw [hq, h.degree_eq]
    decide
  refine readsSigns hready hbound h.active ⟨h.operates, h.encrypts, h.ringModulus_eq, hdvd, ?_⟩ hcts c
  have herror := h.error_lt q.value (by rw [hq]; decide)
  rw [hq] at herror
  rw [(NegacyclicRing.check_shape h.ring).2.1, hq, List.length_singleton]
  norm_num at herror ⊢
  linarith

end Circuit

end LatticeGates
