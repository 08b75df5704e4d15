import LatticeGates.Proofs.BlindRotation.Rotation
import LatticeGates.Proofs.Lwe.KeySwitch
import LatticeGates.Proofs.Rlwe.Extract

/-!
# The functional bootstrap

Main statement: the bootstrap reads the table at the phase of its input, up to the error of the blind
rotation and of the two modulus switches and the key switch after it, each scaled to the output modulus.
-/

namespace LatticeGates.BlindRotation

open Finset Modulus Negacyclic

variable {ring : NegacyclicRing}

section Reduced

theorem reduced_of_combine {x : Rgsw} {maskDigits bodyDigits : Array Poly} {r : Rlwe.Ciphertext}
    (h : Rgsw.combine ring x maskDigits bodyDigits = .ok r) : r.Reduced ring := by
  obtain ⟨_, -, h⟩ := Checked.bind_eq_ok.1 h
  cases h
  exact ⟨reduced_ofFn fun i => Nat.mod_lt _ ring.modulus.pos,
    reduced_ofFn fun i => Nat.mod_lt _ ring.modulus.pos⟩

theorem reduced_of_backward (hr : ring.Valid) {a r : Poly}
    (ha : ring.modulus.Reduced ring.degree a) (h : ring.backward a = .ok r) :
    ring.modulus.Reduced ring.degree r := by
  obtain ⟨r', hr', hred, -⟩ := NegacyclicRing.exists_backward hr ha
  rw [h] at hr'
  cases hr'
  exact hred

theorem reduced_of_addMonomialMinusOne {r a s : Poly} {k : ℕ}
    (hr : ring.modulus.Reduced ring.degree r) (ha : ring.modulus.Reduced ring.degree a)
    (h : ring.addMonomialMinusOne r a k = .ok s) : ring.modulus.Reduced ring.degree s := by
  obtain ⟨s', hs', hred, -⟩ := NegacyclicRing.exists_addMonomialMinusOne hr ha k
  rw [h] at hs'
  cases hs'
  exact hred

theorem reduced_of_rotateStep (hr : ring.Valid) {g : Gadget} {pair : Pair} {a : ℕ}
    {acc acc' : Rlwe.Ciphertext} (hacc : acc.Reduced ring)
    (h : rotateStep ring g pair a acc = .ok acc') : acc'.Reduced ring := by
  obtain ⟨maskDigits, -, h⟩ := Checked.bind_eq_ok.1 h
  obtain ⟨bodyDigits, -, h⟩ := Checked.bind_eq_ok.1 h
  obtain ⟨plus, hplus, h⟩ := Checked.bind_eq_ok.1 h
  obtain ⟨minus, hminus, h⟩ := Checked.bind_eq_ok.1 h
  obtain ⟨pm, hpm, h⟩ := Checked.bind_eq_ok.1 h
  obtain ⟨mask₁, hmask₁, h⟩ := Checked.bind_eq_ok.1 h
  obtain ⟨mm, hmm, h⟩ := Checked.bind_eq_ok.1 h
  obtain ⟨mask₂, hmask₂, h⟩ := Checked.bind_eq_ok.1 h
  obtain ⟨pb, hpb, h⟩ := Checked.bind_eq_ok.1 h
  obtain ⟨body₁, hbody₁, h⟩ := Checked.bind_eq_ok.1 h
  obtain ⟨mb, hmb, h⟩ := Checked.bind_eq_ok.1 h
  obtain ⟨body₂, hbody₂, h⟩ := Checked.bind_eq_ok.1 h
  cases h
  have hp := reduced_of_combine hplus
  have hm := reduced_of_combine hminus
  exact ⟨reduced_of_addMonomialMinusOne (reduced_of_addMonomialMinusOne hacc.mask
      (reduced_of_backward hr hp.mask hpm) hmask₁) (reduced_of_backward hr hm.mask hmm) hmask₂,
    reduced_of_addMonomialMinusOne (reduced_of_addMonomialMinusOne hacc.body
      (reduced_of_backward hr hp.body hpb) hbody₁) (reduced_of_backward hr hm.body hmb) hbody₂⟩

theorem reduced_of_rotateBlock (hr : ring.Valid) {g : Gadget} {factor : ℕ} {mask : Array ℕ}
    {block : Array Pair} {acc acc' : Rlwe.Ciphertext} (hacc : acc.Reduced ring)
    (h : rotateBlock ring g factor mask block acc = .ok acc') : acc'.Reduced ring := by
  refine foldM_eq_ok (fun _ acc => acc.Reduced ring) hacc ?_ h
  intro i hi acc next hacc h
  obtain ⟨scaled, -, h⟩ := Checked.bind_eq_ok.1 h
  dsimp only at h
  split at h
  · cases h
    exact hacc
  · exact reduced_of_rotateStep hr hacc h

theorem reduced_of_rotate (hr : ring.Valid) {key : Key} {tab : Table} {ct : Lwe.Ciphertext}
    {acc : Rlwe.Ciphertext} (htable : ring.modulus.Reduced ring.degree tab.data)
    (h : rotate ring key tab ct = .ok acc) : acc.Reduced ring := by
  obtain ⟨_, -, h⟩ := Checked.bind_eq_ok.1 h
  obtain ⟨rest, -, h⟩ := Checked.bind_eq_ok.1 h
  obtain ⟨_, -, h⟩ := Checked.bind_eq_ok.1 h
  obtain ⟨scaled, -, h⟩ := Checked.bind_eq_ok.1 h
  obtain ⟨body, hbody, h⟩ := Checked.bind_eq_ok.1 h
  obtain ⟨_, -, h⟩ := Checked.bind_eq_ok.1 h
  obtain ⟨body', hbody', hred, -⟩ := NegacyclicRing.exists_rotateInto htable
    ((2 * ring.degree - scaled % (2 * ring.degree)) % (2 * ring.degree))
  rw [hbody] at hbody'
  cases hbody'
  exact foldM_eq_ok (fun _ acc => acc.Reduced ring) ⟨NegacyclicRing.reduced_zero, hred⟩
    (fun k hk acc next hacc h => reduced_of_rotateBlock hr hacc h) h

end Reduced

/-- What a table gives for a phase modulo `m`: the upper half of the phases is read with the sign
changed. -/
def Table.read (tab : Table) (twoN m x : ℕ) : ℤ :=
  if x < m / 2 then tab.data.getD (x * twoN / m) 0
  else -(tab.data.getD ((x - m / 2) * twoN / m) 0 : ℤ)

/-- The phases modulo a divisor of the number of places have the same number of places each. -/
theorem exists_places {m : ℕ} (hm : 2 ≤ m) (hdvd : m ∣ 2 * ring.degree) :
    ∃ h c, 0 < c ∧ m = 2 * h ∧ ring.degree = h * c ∧ ∀ y, y * (2 * ring.degree) / m = y * c := by
  obtain ⟨h, rfl⟩ := NegacyclicRing.two_pow_dvd (k := 1) hdvd hm
  obtain ⟨c, hc⟩ := hdvd
  have hdegree : ring.degree = h * c := by
    rw [mul_assoc] at hc
    exact Nat.eq_of_mul_eq_mul_left two_pos hc
  have hpos : 0 < c := by
    refine Nat.pos_of_ne_zero fun h0 => ?_
    rw [h0, mul_zero] at hdegree
    exact NeZero.ne ring.degree hdegree
  refine ⟨h, c, hpos, rfl, hdegree, fun y => ?_⟩
  rw [hc, mul_left_comm]
  exact Nat.mul_div_cancel_left _ (by omega)

/-- Turned back by a phase, a table has what it gives for the phase as its constant coefficient. -/
theorem constant_turn {tab : Table} {m x : ℕ} (hm : 2 ≤ m) (hdvd : m ∣ 2 * ring.degree)
    (hx : x < m) :
    constant (monomial (-(x * (2 * ring.degree / m : ℕ))) * ring.element tab.data) =
      (tab.read (2 * ring.degree) m x : ZMod ring.modulus.value) := by
  obtain ⟨h, c, hpos, rfl, hdegree, hplace⟩ := exists_places hm hdvd
  have hstep : 2 * ring.degree / (2 * h) = c := by simpa using hplace 1
  have hscaled : x * c < 2 * ring.degree := by
    rw [hdegree, ← mul_assoc]
    exact Nat.mul_lt_mul_of_pos_right hx hpos
  rw [hstep, ← Nat.cast_mul, NegacyclicRing.element, constant_monomial_neg_mul _ hscaled, Table.read,
    Nat.mul_div_cancel_left h two_pos, hplace, hplace, hdegree]
  by_cases hlow : x < h
  · rw [if_pos hlow, if_pos (Nat.mul_lt_mul_of_pos_right hlow hpos), entries, Int.cast_natCast]
  · have hhigh : ¬x * c < h * c := Nat.not_lt.2 (Nat.mul_le_mul_right c (by omega))
    rw [if_neg hlow, if_neg hhigh, ← Nat.sub_mul, entries, Int.cast_neg, Int.cast_natCast]

section Bootstrap

variable {n q offset target rotationError switchError : ℕ} {large small : Lwe.Secret}
  {sk : Rlwe.Secret} {key : Key} {switching : Lwe.SwitchingKey} {middle : Modulus} {tab : Table}
  {ct : Lwe.Ciphertext} {acc : Rlwe.Ciphertext} {p : Poly}

private theorem exists_extracted {m x : ℕ} (hr : ring.Valid) (hsk : Rlwe.Secret.ofLwe ring large = .ok sk)
    (hacc : acc.Reduced ring) (hp : acc.phase ring sk = .ok p) (hm : 2 ≤ m)
    (hdvd : m ∣ 2 * ring.degree) (hx : x < m)
    (hsmall : Small rotationError
      (ring.element p - monomial (-(x * (2 * ring.degree / m : ℕ))) * ring.element tab.data)) :
    ∃ r, acc.sampleExtract ring = .ok r ∧ r.Shaped ring.modulus ring.degree ∧
      ∃ e : ℤ, e.natAbs ≤ rotationError ∧ r.integerPhase large.coefficient ≡
        tab.read (2 * ring.degree) m x + e [ZMOD ring.modulus.value] := by
  obtain ⟨p', hp', -, hphase⟩ := Rlwe.Ciphertext.exists_phase hr hsk hacc
  rw [hp] at hp'
  cases hp'
  obtain ⟨r, hextract, hshaped, hr_phase⟩ := Rlwe.Ciphertext.exists_sampleExtract hr hsk hacc
  obtain ⟨e, he, hconstant⟩ := hsmall.constant
  refine ⟨r, hextract, hshaped, e, he, Lwe.Ciphertext.modEq_of_cast_eq ?_⟩
  rw [map_sub, constant_turn hm hdvd hx, hphase, ← hr_phase, sub_eq_iff_eq_add'] at hconstant
  rw [hconstant]
  push_cast
  ring

private theorem scaled_error {t q out x r e a b k₁ k₂ : ℚ} (hq : 0 < q) (ht : 0 ≤ t)
    (hx : x = r + e + q * k₁) (hout : |out - t / q * x - t * k₂| ≤ b) (he : |e| ≤ a) :
    |out - t / q * r - t * (k₁ + k₂)| ≤ t / q * a + b := by
  have hsplit : out - t / q * r - t * (k₁ + k₂) = t / q * e + (out - t / q * x - t * k₂) := by
    rw [hx]
    field_simp
    ring
  rw [hsplit]
  refine (abs_add_le _ _).trans (add_le_add ?_ hout)
  rw [abs_mul, abs_of_nonneg (div_nonneg ht hq.le)]
  gcongr

/-- After a rotation that turns the table back by a phase, the bootstrap gives what the table has for the
phase. -/
theorem exists_bootstrap_of_rotate (hr : ring.Valid) (hsk : Rlwe.Secret.ofLwe ring large = .ok sk)
    (htable : ring.modulus.Reduced ring.degree tab.data) (hmodulus : 2 ≤ ct.modulus)
    (hdvd : ct.modulus ∣ 2 * ring.degree) (hrotate : rotate ring key tab ct = .ok acc)
    (hp : acc.phase ring sk = .ok p) {x : ℕ} (hx : x < ct.modulus)
    (hsmall : Small rotationError
      (ring.element p - monomial (-(x * (2 * ring.degree / ct.modulus : ℕ))) * ring.element tab.data))
    (hswitching : switching.Encrypts middle large small switchError) (htarget : 0 < target)
    (offset : ℕ) :
    ∃ out, bootstrap ring key switching ct tab offset target = .ok out ∧ out.modulus = target ∧
      out.dimension = small.dimension ∧ out.WellFormed ∧ ∃ k : ℤ,
        |(out.integerPhase small.coefficient : ℚ) -
            target / ring.modulus.value * (tab.read (2 * ring.degree) ct.modulus x + offset) -
            target * k| ≤
          target / ring.modulus.value * rotationError +
          target / middle.value * ((1 + ∑ i ∈ range ring.degree, |(large.coefficient i : ℚ)|) / 2 +
            ring.degree * switching.digits * switchError) +
          (1 + ∑ i ∈ range small.dimension, |(small.coefficient i : ℚ)|) / 2 := by
  have hacc := reduced_of_rotate hr htable hrotate
  have hdim : large.dimension = ring.degree := (Rlwe.Secret.ofLwe_eq_ok hr hsk).2.1
  have hpos : 0 < large.dimension := hdim ▸ NeZero.pos ring.degree
  obtain ⟨extracted, hextracted, hext_shaped, e, he, hread⟩ :=
    exists_extracted hr hsk hacc hp hmodulus hdvd hx hsmall
  obtain ⟨shifted, hshifted, hshift_shaped, hshift_phase⟩ :=
    Lwe.Ciphertext.exists_addConstant hext_shaped offset large.coefficient
  obtain ⟨k₁, hk₁⟩ := ((hread.add_right (offset : ℤ)).symm.trans hshift_phase.symm).dvd
  rw [← hdim] at hshift_shaped
  obtain ⟨scaled, switched, out, hscaled, hswitched, hout, hout_modulus, hout_dim, hout_wf, k₂, hk₂⟩ :=
    hswitching.exists_switchDown hpos hshift_shaped htarget
  refine ⟨out, ?_, hout_modulus, hout_dim, hout_wf, k₁ + k₂, ?_⟩
  · simp [bootstrap, hrotate, hextracted, hshifted, hscaled, hswitched, hout]
  · have hshift_eq : (shifted.integerPhase large.coefficient : ℚ) =
        (tab.read (2 * ring.degree) ct.modulus x + offset) + e + ring.modulus.value * k₁ := by
      have := eq_add_of_sub_eq' hk₁
      rw [this]
      push_cast
      ring
    have hbound := scaled_error (Nat.cast_pos.2 ring.modulus.pos) (Nat.cast_nonneg target) hshift_eq
      hk₂ (Lwe.abs_cast_le he)
    rw [hdim, ← add_assoc] at hbound
    push_cast
    exact hbound

/-- The bootstrap gives what the table has for the phase, with the offset added and scaled to the target
modulus. -/
theorem bootstrap_phase (hq : q.Prime) (hring : NegacyclicRing.check n q = .ok ring)
    (hsk : Rlwe.Secret.ofLwe ring large = .ok sk)
    (htable : ring.modulus.Reduced n tab.data) (hmodulus : 2 ≤ ct.modulus)
    (hdvd : ct.modulus ∣ 2 * n)
    (hrotate : rotate ring key tab ct = .ok acc) (hp : acc.phase ring sk = .ok p)
    (hsmall : Small rotationError
      (ring.element p - monomial (-(ct.residuePhase small.coefficient * (2 * n / ct.modulus : ℕ))) *
        ring.element tab.data))
    (hswitching : switching.Encrypts middle large small switchError) (htarget : 2 ≤ target) :
    ∃ out, bootstrap ring key switching ct tab offset target = .ok out ∧ out.modulus = target ∧
      out.dimension = small.dimension ∧ out.WellFormed ∧ ∃ k : ℤ,
        |(out.integerPhase small.coefficient : ℚ) -
            target / q * (tab.read (2 * n) ct.modulus (ct.residuePhase small.coefficient) + offset) -
            target * k| ≤
          target / q * rotationError +
          target / middle.value * ((1 + ∑ i ∈ range n, |(large.coefficient i : ℚ)|) / 2 +
            n * switching.digits * switchError) +
          (1 + ∑ i ∈ range small.dimension, |(small.coefficient i : ℚ)|) / 2 := by
  obtain ⟨hr, rfl, rfl, -, -⟩ := NegacyclicRing.check_valid hq hring
  exact exists_bootstrap_of_rotate hr hsk htable hmodulus hdvd hrotate hp
    (Lwe.Ciphertext.residuePhase_lt (by omega)) hsmall hswitching (Nat.zero_lt_of_lt htarget) offset

end Bootstrap

section Sample

/-- The switching key without noise from `1 - X` to `1`, modulo 5 and of base 2. -/
def sampleSwitching : Lwe.SwitchingKey :=
  ⟨2, 3, 2, 1, 5, #[⟨1, #[0]⟩, ⟨2, #[0]⟩, ⟨4, #[0]⟩, ⟨4, #[0]⟩, ⟨3, #[0]⟩, ⟨1, #[0]⟩]⟩

private theorem encrypts_sampleSwitching : sampleSwitching.Encrypts ⟨5, by decide, by decide⟩
    ⟨#[1, -1], .ternary⟩ ⟨#[1], .ternary⟩ 0 := by
  refine ⟨rfl, ⟨Array.replicate 6 ⟨0, #[0]⟩, by decide +kernel⟩, ?_⟩
  intro i hi j hj v hv0 hv
  change i < 2 at hi
  change j < 3 at hj
  change v < 2 at hv
  obtain rfl : v = 1 := by omega
  interval_cases i <;> interval_cases j
  all_goals
    refine ⟨_, rfl, ⟨rfl, ⟨rfl, by decide⟩, by decide⟩, 0, le_rfl, ?_⟩
    decide

/-- The table `1 + 2 X` has `-1` for the phase `2`; at the modulus 4 this is `-4 / 5`. -/
theorem bootstrap_phase_two : ∃ ring out, NegacyclicRing.check 2 5 = .ok ring ∧
    bootstrap ring (sampleKey ring) sampleSwitching sampleCiphertext sampleTable 0 4 = .ok out ∧
    ∃ k : ℤ, |(out.integerPhase (Lwe.Secret.coefficient ⟨#[1], .ternary⟩) : ℚ) + 4 / 5 - 4 * k| ≤
      4 / 5 * (3 / 2) + 1 := by
  obtain ⟨ring, sk, hring, hsk⟩ := exists_sampleRing
  obtain ⟨hr, hdegree, hvalue, -⟩ := NegacyclicRing.check_valid Nat.prime_five hring
  have htable := reduced_sampleTable hvalue
  have hwf : sampleCiphertext.WellFormed := by decide
  obtain ⟨hg, hgvalue⟩ := Gadget.check_valid check_sampleGadget sampleGadget_capacity
  have hdvd : sampleCiphertext.modulus ∣ 2 * ring.degree := ⟨1, by rw [hdegree, mul_one]; rfl⟩
  obtain ⟨acc, hacc, h⟩ := (encrypts_sampleKey (z := sk.element ring) hr).exists_rotate hr
    (NegacyclicRing.two_mul_degree_lt hring) hg (Modulus.value_injective (hgvalue.trans hvalue.symm))
    one_ne_zero (hdegree ▸ htable) hwf rfl rfl hdvd
  have h := h.congr (j := -((2 : ℕ) * (2 * 2 / 4 : ℕ) : ℤ)) (Nat.le_zero.2 (by simp [stepError]))
    (congrArg (· % _) (by rw [hdegree]; rfl))
  obtain ⟨p, hp, -, hphase⟩ := Rlwe.Ciphertext.exists_phase hr hsk h.reduced
  have htarget : 2 ≤ 4 := by decide
  obtain ⟨out, hout, -, -, -, k, hbound⟩ := bootstrap_phase Nat.prime_five hring hsk htable (by decide)
    ⟨1, rfl⟩ hacc hp (hphase ▸ h.small) encrypts_sampleSwitching htarget
  refine ⟨ring, out, hring, hout, k, ?_⟩
  have hread : sampleTable.read (2 * 2) sampleCiphertext.modulus
      (sampleCiphertext.residuePhase (Lwe.Secret.coefficient ⟨#[1], .ternary⟩)) = -1 := by
    decide
  have hlarge : ∑ i ∈ range 2, |(Lwe.Secret.coefficient ⟨#[1, -1], .ternary⟩ i : ℚ)| = 2 := by
    simp [sum_range_succ, Lwe.Secret.coefficient]
    norm_num
  have hsmall : ∑ i ∈ range 1, |(Lwe.Secret.coefficient ⟨#[1], .ternary⟩ i : ℚ)| = 1 := by
    simp [Lwe.Secret.coefficient]
  rw [hread, hlarge] at hbound
  change _ ≤ _ + (1 + ∑ i ∈ range 1, |(Lwe.Secret.coefficient ⟨#[1], .ternary⟩ i : ℚ)|) / 2 at hbound
  rw [hsmall] at hbound
  norm_num at hbound ⊢
  exact hbound

end Sample

end LatticeGates.BlindRotation
