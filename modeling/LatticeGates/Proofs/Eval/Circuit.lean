import LatticeGates.Proofs.Action
import LatticeGates.Proofs.Eval.Sign
import LatticeGates.Proofs.Eval.Tabulation
import LatticeGates.Proofs.Lwe.Homomorphism

/-!
# Circuits

Main statement: every wire of a circuit decrypts to its bit, as long as every bootstrap gives what its table
has for the phase of its input. The operations keep the phase of a wire within a twenty-fourth of the circle
of that of its bit.
-/

namespace LatticeGates

open Finset

namespace Context

/-- A small ciphertext with the phase of a bit. -/
structure EncryptsBit (ctx : Context) (s : Lwe.Secret) (bit : Bool) (ct : Lwe.Ciphertext) :
    Prop where
  shape_eq : shapeOf ct = ctx.smallShape
  wellFormed : ct.WellFormed
  phase : ∃ φ, ct.phase s = .ok φ ∧ IsPhaseOf ct.modulus bit φ

/-- The bootstrap through the sign table gives the encryption of one if the phase of its input lies in the
half circle from `start` on, and that of zero if not. -/
def ReadsSign (ctx : Context) (key : BootstrapKey) (s : Lwe.Secret) (ct : Lwe.Ciphertext)
    (start : ℕ) : Prop :=
  let Q := ctx.params.lwe.ringModulus
  ∃ φ out ψ, ct.phase s = .ok φ ∧
    ctx.bootstrapTable key ct (Q / 8) ct.modulus (signValue Q ct.modulus start) = .ok out ∧
    out.phase s = .ok ψ ∧ IsPhaseOf ct.modulus (inRegion ct.modulus start φ) ψ

/-- The small secret of a key with a block for each secret of a group. The pairs of all blocks fill one
array. -/
structure JointSecret (ctx : Context) (key : BootstrapKey) (secrets : List Lwe.Secret)
    (s : Lwe.Secret) : Prop where
  sum_eq : Lwe.Secret.sum secrets = .ok (some s)
  ternary : ∀ sk ∈ secrets, sk.Ternary
  dimension_eq : s.dimension = ctx.params.lwe.dimension
  size_eq : key.rotation.blocks.size = secrets.length
  fits : Word.checkLength (key.rotation.blocks.size * s.dimension) = .ok ()

/-- The modulus is a multiple of eight, and phases under the secret are computed without a fault. -/
structure Ready (ctx : Context) (s : Lwe.Secret) (q : Modulus) (u bound : ℕ) : Prop where
  modulus_eq : ctx.params.lwe.modulus = q.value
  value_eq : q.value = 8 * u
  dimension_eq : s.dimension = ctx.params.lwe.dimension
  coefficient_le : ∀ i, (s.coefficient i).natAbs ≤ bound
  fits : bound * s.dimension < 2 ^ 60

/-- The coefficients of a joint secret are so small that inner products do not leave the wide range. -/
theorem JointSecret.exists_bound {ctx : Context} {key : BootstrapKey} {secrets : List Lwe.Secret}
    {s : Lwe.Secret} (hsecret : ctx.JointSecret key secrets s) :
    ∃ bound, 0 < bound ∧ (∀ i, (s.coefficient i).natAbs ≤ bound) ∧
      bound * s.dimension < 2 ^ 60 := by
  obtain ⟨-, hcoefficient⟩ := Lwe.Secret.sum_eq_ok hsecret.sum_eq
  have hfits := hsecret.fits
  rw [Word.checkLength, Word.checkBytes, ensure_eq_ok, decide_eq_true_eq, hsecret.size_eq] at hfits
  refine ⟨secrets.length, ?_, ?_, by omega⟩
  · rw [List.length_pos_iff]
    rintro rfl
    cases hsecret.sum_eq
  · rw [hcoefficient]
    exact Lwe.Secret.natAbs_jointCoefficient_le hsecret.ternary

theorem JointSecret.exists_ready {ctx : Context} {key : BootstrapKey} {secrets : List Lwe.Secret}
    {s : Lwe.Secret} {N Q : ℕ} (hsecret : ctx.JointSecret key secrets s)
    (hring : NegacyclicRing.check N Q = .ok ctx.ring) (hmodulus : 8 ≤ ctx.params.lwe.modulus)
    (hdvd : ctx.params.lwe.modulus ∣ 2 * N) :
    ∃ (q : Modulus) (u bound : ℕ), 0 < bound ∧ ctx.Ready s q u bound := by
  rw [← (NegacyclicRing.check_shape hring).1] at hdvd
  obtain ⟨q, hq⟩ := NegacyclicRing.exists_modulus_of_dvd hring ((by decide : 2 ≤ 8).trans hmodulus) hdvd
  obtain ⟨u, hu⟩ : 8 ∣ ctx.params.lwe.modulus := NegacyclicRing.two_pow_dvd (k := 3) hdvd hmodulus
  obtain ⟨bound, hpos, hle, hfits⟩ := hsecret.exists_bound
  exact ⟨q, u, bound, hpos, hq, hq ▸ hu, hsecret.dimension_eq, hle, hfits⟩

section Operations

variable {ctx : Context} {s : Lwe.Secret} {q : Modulus} {u bound : ℕ} {bit : Bool}
  {ct x y z : Lwe.Ciphertext}

theorem Ready.phase_eq (h : Ready ctx s q u bound) (hct : ct.Shaped q s.dimension) :
    ct.phase s = .ok (ct.residuePhase s.coefficient) :=
  hct.phase_eq h.coefficient_le h.fits

theorem Ready.encryptsBit_iff (h : Ready ctx s q u bound) :
    ctx.EncryptsBit s bit ct ↔
      ct.Shaped q s.dimension ∧ IsPhaseOf q.value bit (ct.integerPhase s.coefficient) := by
  constructor
  · rintro ⟨hshape, hwf, φ, hφ, hphase⟩
    simp only [shapeOf, smallShape, Shape.mk.injEq] at hshape
    have hct : ct.Shaped q s.dimension := Lwe.Ciphertext.shaped_iff.2
      ⟨hshape.2.trans h.modulus_eq, hshape.1.trans h.dimension_eq.symm, hwf⟩
    rw [h.phase_eq hct, Except.ok.injEq] at hφ
    rw [hct.modulus_eq, ← hφ] at hphase
    exact ⟨hct, hphase.congr (hct.residue_modEq _).symm⟩
  · rintro ⟨hct, hphase⟩
    obtain ⟨hmodulus, hdim, hwf⟩ := Lwe.Ciphertext.shaped_iff.1 hct
    refine ⟨?_, hwf, _, h.phase_eq hct, ?_⟩
    · rw [shapeOf, smallShape, hdim, hmodulus, h.dimension_eq, h.modulus_eq]
    · rw [hmodulus]
      exact hphase.congr (hct.residue_modEq _)

theorem checkSmall_eq (hshape : shapeOf ct = ctx.smallShape) : ctx.checkSmall ct = pure () := by
  rw [checkSmall, hshape, beq_self_eq_true, Attempt.require_true]

theorem Ready.checkSmall_eq (h : Ready ctx s q u bound) (hct : ct.Shaped q s.dimension) :
    ctx.checkSmall ct = pure () := by
  obtain ⟨hmodulus, hdim, -⟩ := Lwe.Ciphertext.shaped_iff.1 hct
  refine Context.checkSmall_eq ?_
  rw [shapeOf, smallShape, hdim, hmodulus, h.dimension_eq, h.modulus_eq]

theorem decrypt_eq {p d : ℕ} (hdim : ct.dimension = s.dimension) (hpos : 0 < p) (hle : p ≤ ct.modulus)
    (h : ct.decrypt s p = .ok d) : decrypt s ct p = pure d := by
  have hdim : (s.dimension == ct.dimension) = true := beq_iff_eq.2 hdim.symm
  rw [decrypt, checkDimension, hdim, Attempt.require_true, pure_bind,
    checkPlaintext_eq_pure.2 ⟨hpos, hle⟩, pure_bind, h, Attempt.liftM_ok]

theorem Ready.decrypt_eq (h : Ready ctx s q u bound) (hct : ctx.EncryptsBit s bit ct) :
    decrypt s ct 4 = pure bit.toNat := by
  obtain ⟨hct, e, he, hphase⟩ := h.encryptsBit_iff.1 hct
  have hmodulus := hct.modulus_eq
  have hq := h.value_eq
  have hbit := Bool.toNat_lt bit
  rw [show q.value / 4 = 2 * u by omega, mul_comm] at hphase
  exact Context.decrypt_eq hct.mask.size_eq (by decide) (by have := q.pos; omega)
    (hct.decrypt_eq (w := 2 * u) (h.phase_eq hct) (by omega) (by omega) (by omega) hphase)

theorem Ready.exists_evalConstant (h : Ready ctx s q u bound) (hbound : 0 < bound) (bit : Bool) :
    ∃ out, ctx.evalConstant bit = .ok out ∧ ctx.EncryptsBit s bit out := by
  have hlength : Word.checkLength ctx.params.lwe.dimension = .ok () := by
    have hle := Nat.le_mul_of_pos_left s.dimension hbound
    have hfits := h.fits
    rw [← h.dimension_eq]
    exact Word.checkLength_of_lt (by omega)
  have hu : 0 < u := by
    have := q.pos
    have := h.value_eq
    omega
  have hround : Modulus.round bit.toNat 4 q.value = bit.toNat * (q.value / 4) := by
    rw [Modulus.round, h.value_eq]
    cases bit with
    | true => rw [Bool.toNat_true, Nat.mod_eq_of_lt (by omega)]; omega
    | false => rw [Bool.toNat_false, Nat.mod_eq_of_lt (by omega)]; omega
  have hrescale : Modulus.rescale bit.toNat 4 q.value = .ok (bit.toNat * (q.value / 4)) := by
    rw [Modulus.rescale_of_pos (by decide) q.pos, hround]
  have hbody : bit.toNat * (q.value / 4) < q.value := by
    rw [← hround]
    exact Nat.mod_lt _ q.pos
  have hct : Lwe.Ciphertext.Shaped q s.dimension
      ⟨Array.replicate s.dimension 0, bit.toNat * (q.value / 4), q.value⟩ :=
    ⟨rfl, Modulus.reduced_replicate, hbody⟩
  have hparts : Lwe.Ciphertext.ofParts (Array.replicate s.dimension 0) (bit.toNat * (q.value / 4))
      q.value = .ok ⟨Array.replicate s.dimension 0, bit.toNat * (q.value / 4), q.value⟩ := by
    have hmask : (Array.replicate s.dimension 0).all (· < q.value) = true :=
      Array.all_eq_true.2 fun i hi => by rw [Array.getElem_replicate, decide_eq_true q.pos]
    dsimp only [Lwe.Ciphertext.ofParts]
    rw [hmask, decide_eq_true hbody, Bool.and_self, ensure_true, Checked.ok_bind, Checked.pure_eq]
  refine ⟨_, ?_, h.encryptsBit_iff.2 ⟨hct, 0, by simpa using q.pos, congrArg (· % _) ?_⟩⟩
  · rw [evalConstant, h.modulus_eq, hlength, ← h.dimension_eq, hrescale, Checked.ok_bind,
      Checked.ok_bind, hparts]
  · rw [Lwe.Ciphertext.integerPhase_replicate, add_zero, Nat.cast_mul]

theorem Ready.exists_evalNot (h : Ready ctx s q u bound) (hct : ctx.EncryptsBit s bit ct) :
    ∃ out, evalNot ct = .ok out ∧ ctx.EncryptsBit s (!bit) out := by
  obtain ⟨hct, e, he, hphase⟩ := h.encryptsBit_iff.1 hct
  obtain ⟨out, hout, hshaped, hnegated⟩ := Context.exists_evalNot hct s.coefficient
  refine ⟨out, hout, h.encryptsBit_iff.2 ⟨hshaped, -e, by rwa [abs_neg], ?_⟩⟩
  refine hnegated.trans ((hphase.sub_left _).trans (congrArg (· % _) ?_))
  cases bit with
  | true => simp
  | false => simp [sub_eq_add_neg]

private theorem wellFormed_of_bootstrapTable {key : BootstrapKey} {offset target : ℕ} {f : ℕ → ℕ}
    {out : Lwe.Ciphertext} (h : ctx.bootstrapTable key ct offset target f = .ok out) :
    out.modulus = target ∧ out.WellFormed := by
  obtain ⟨tab, -, h⟩ := Checked.bind_eq_ok.1 h
  obtain ⟨rotated, -, h⟩ := Checked.bind_eq_ok.1 h
  obtain ⟨extracted, -, h⟩ := Checked.bind_eq_ok.1 h
  obtain ⟨shifted, -, h⟩ := Checked.bind_eq_ok.1 h
  obtain ⟨scaled, -, h⟩ := Checked.bind_eq_ok.1 h
  obtain ⟨switched, -, h⟩ := Checked.bind_eq_ok.1 h
  exact Lwe.Ciphertext.wellFormed_of_switchModulus h

theorem bootstrapSign_eq {key : BootstrapKey} {start : ℕ} (hkey : ctx.keys.active = pure key)
    (hbound : ct.modulus < 0x4000000000000000) (hstart : start ≤ ct.modulus) :
    ctx.bootstrapSign ct start = liftM (ctx.bootstrapTable key ct (ctx.params.lwe.ringModulus / 8)
      ct.modulus (signValue ctx.params.lwe.ringModulus ct.modulus start)) := by
  rw [bootstrapSign, hkey, pure_bind,
    ← bootstrapChecked_eq fun x hx => signEntry_eq hbound hstart hx]

theorem Ready.exists_bootstrapSign (h : Ready ctx s q u bound) {key : BootstrapKey}
    (hkey : ctx.keys.active = pure key) {start : ℕ} (hstart : start ≤ q.value)
    (hct : ct.Shaped q s.dimension) (hreads : ctx.ReadsSign key s ct start) :
    ∃ out, ctx.bootstrapSign ct start = pure out ∧
      ctx.EncryptsBit s (inRegion q.value start (ct.residuePhase s.coefficient)) out := by
  obtain ⟨φ, out, ψ, hφ, hout, hψ, hphase⟩ := hreads
  rw [h.phase_eq hct, Except.ok.injEq] at hφ
  subst hφ
  rw [hct.modulus_eq] at hphase
  obtain ⟨hout_modulus, hout_wf⟩ := wellFormed_of_bootstrapTable hout
  have hout_shaped : out.Shaped q s.dimension := Lwe.Ciphertext.shaped_iff.2
    ⟨hout_modulus.trans hct.modulus_eq, Lwe.Ciphertext.dimension_of_phase hψ, hout_wf⟩
  rw [h.phase_eq hout_shaped, Except.ok.injEq] at hψ
  subst hψ
  refine ⟨out, ?_, h.encryptsBit_iff.2
    ⟨hout_shaped, hphase.congr (hout_shaped.residue_modEq _).symm⟩⟩
  rw [bootstrapSign_eq hkey (hct.modulus_eq ▸ q.lt_bound) (hct.modulus_eq ▸ hstart), hout,
    Attempt.liftM_ok]

/-- What a gate bootstraps: the sum of its inputs, or twice the sum. -/
theorem exists_operand {sum : Lwe.Ciphertext} {n : ℕ} (g : Gate) (hsum : sum.Shaped q n) (s : ℕ → ℤ) :
    ∃ ct, (if g.doublesSum then sum.scale 2 else .ok sum) = .ok ct ∧ ct.Shaped q n ∧
      ct.integerPhase s ≡ (if g.doublesSum then 2 else 1) * sum.integerPhase s [ZMOD q.value] := by
  cases g.doublesSum with
  | true => exact Lwe.Ciphertext.exists_scale hsum 2 s
  | false => exact ⟨sum, rfl, hsum, by rw [if_neg Bool.false_ne_true, one_mul]⟩

theorem evalGate_eq {g : Gate} {sum : Lwe.Ciphertext} (hx : ctx.checkSmall x = pure ())
    (hy : ctx.checkSmall y = pure ()) (hsum : x.add y = .ok sum)
    (hct : (if g.doublesSum then sum.scale 2 else .ok sum) = .ok ct) :
    ctx.evalGate g x y = ctx.bootstrapSign ct (g.regionStart x.modulus) := by
  rw [evalGate, hx, hy, pure_bind, pure_bind, hsum, Attempt.liftM_ok, pure_bind, hct, Attempt.liftM_ok,
    pure_bind]

theorem evalMajority_eq {two : Lwe.Ciphertext} (hx : ctx.checkSmall x = pure ())
    (hy : ctx.checkSmall y = pure ()) (hz : ctx.checkSmall z = pure ()) (htwo : x.add y = .ok two)
    (hct : two.add z = .ok ct) :
    ctx.evalMajority x y z = ctx.bootstrapSign ct (Gate.and.regionStart x.modulus) := by
  rw [evalMajority, hx, hy, hz, pure_bind, pure_bind, pure_bind, htwo, Attempt.liftM_ok, pure_bind, hct,
    Attempt.liftM_ok, pure_bind]

theorem evalIdentity_eq (hx : ctx.checkSmall x = pure ()) (hct : x.addConstant (x.modulus / 4) = .ok ct) :
    ctx.evalIdentity x = ctx.bootstrapSign ct (Gate.and.regionStart x.modulus) := by
  rw [evalIdentity, hx, pure_bind, hct, Attempt.liftM_ok, pure_bind]

theorem Ready.exists_evalGate (h : Ready ctx s q u bound) {key : BootstrapKey}
    (hkey : ctx.keys.active = pure key) (g : Gate) {a b : Bool} (hx : ctx.EncryptsBit s a x)
    (hy : ctx.EncryptsBit s b y)
    (hreads : ∀ sum ct, x.add y = .ok sum →
      (if g.doublesSum then sum.scale 2 else .ok sum) = .ok ct →
      ctx.ReadsSign key s ct (g.regionStart x.modulus)) :
    ∃ out, ctx.evalGate g x y = pure out ∧ ctx.EncryptsBit s (g.eval a b) out := by
  obtain ⟨hx, e₁, he₁, hx_phase⟩ := h.encryptsBit_iff.1 hx
  obtain ⟨hy, e₂, he₂, hy_phase⟩ := h.encryptsBit_iff.1 hy
  obtain ⟨sum, hsum, hsum_shaped, hsum_phase⟩ := Lwe.Ciphertext.exists_add hx hy s.coefficient
  obtain ⟨ct, hct, hct_shaped, hct_phase⟩ := exists_operand g hsum_shaped s.coefficient
  obtain ⟨out, hout, henc⟩ := h.exists_bootstrapSign hkey (hx.modulus_eq ▸ g.regionStart_le x.modulus)
    hct_shaped (hreads sum ct hsum hct)
  refine ⟨out, ?_, ?_⟩
  · rw [evalGate_eq (h.checkSmall_eq hx) (h.checkSmall_eq hy) hsum hct, hout]
  · have hphase := (hct_shaped.residue_modEq _).trans
      (hct_phase.trans ((hsum_phase.trans (hx_phase.add hy_phase)).mul_left _))
    rw [h.value_eq] at hphase he₁ he₂
    have he := abs_add_le e₁ e₂
    rwa [hx.modulus_eq, h.value_eq, g.inRegion_eq a b (e := e₁ + e₂) (by omega)
      (hphase.trans (congrArg (· % _) (by ring)))] at henc

theorem Ready.exists_evalMajority (h : Ready ctx s q u bound) {key : BootstrapKey}
    (hkey : ctx.keys.active = pure key) {a b c : Bool} (hx : ctx.EncryptsBit s a x)
    (hy : ctx.EncryptsBit s b y) (hz : ctx.EncryptsBit s c z)
    (hreads : ∀ sum ct, x.add y = .ok sum → sum.add z = .ok ct →
      ctx.ReadsSign key s ct (Gate.and.regionStart x.modulus)) :
    ∃ out, ctx.evalMajority x y z = pure out ∧
      ctx.EncryptsBit s (decide (2 ≤ a.toNat + b.toNat + c.toNat)) out := by
  obtain ⟨hx, e₁, he₁, hx_phase⟩ := h.encryptsBit_iff.1 hx
  obtain ⟨hy, e₂, he₂, hy_phase⟩ := h.encryptsBit_iff.1 hy
  obtain ⟨hz, e₃, he₃, hz_phase⟩ := h.encryptsBit_iff.1 hz
  obtain ⟨sum, hsum, hsum_shaped, hsum_phase⟩ := Lwe.Ciphertext.exists_add hx hy s.coefficient
  obtain ⟨ct, hct, hct_shaped, hct_phase⟩ := Lwe.Ciphertext.exists_add hsum_shaped hz s.coefficient
  obtain ⟨out, hout, henc⟩ := h.exists_bootstrapSign hkey
    (hx.modulus_eq ▸ Gate.and.regionStart_le x.modulus) hct_shaped (hreads sum ct hsum hct)
  refine ⟨out, ?_, ?_⟩
  · rw [evalMajority_eq (h.checkSmall_eq hx) (h.checkSmall_eq hy) (h.checkSmall_eq hz) hsum hct, hout]
  · have hphase := (hct_shaped.residue_modEq _).trans
      (hct_phase.trans ((hsum_phase.trans (hx_phase.add hy_phase)).add hz_phase))
    rw [h.value_eq] at hphase he₁ he₂ he₃
    have he := abs_add_three e₁ e₂ e₃
    have hcount : a.toNat + b.toNat + c.toNat ≤ 3 := by
      have := a.toNat_le
      have := b.toNat_le
      have := c.toNat_le
      omega
    rwa [hx.modulus_eq, h.value_eq, Gate.inRegion_and (e := e₁ + e₂ + e₃) hcount (by omega)
      (hphase.trans (congrArg (· % _) (by push_cast; ring)))] at henc

theorem Ready.exists_evalIdentity (h : Ready ctx s q u bound) {key : BootstrapKey}
    (hkey : ctx.keys.active = pure key) {a : Bool} (hx : ctx.EncryptsBit s a x)
    (hreads : ∀ ct, x.addConstant (x.modulus / 4) = .ok ct →
      ctx.ReadsSign key s ct (Gate.and.regionStart x.modulus)) :
    ∃ out, ctx.evalIdentity x = pure out ∧ ctx.EncryptsBit s a out := by
  obtain ⟨hx, e, he, hx_phase⟩ := h.encryptsBit_iff.1 hx
  obtain ⟨ct, hct, hct_shaped, hct_phase⟩ :=
    Lwe.Ciphertext.exists_addConstant hx (x.modulus / 4) s.coefficient
  obtain ⟨out, hout, henc⟩ := h.exists_bootstrapSign hkey
    (hx.modulus_eq ▸ Gate.and.regionStart_le x.modulus) hct_shaped (hreads ct hct)
  refine ⟨out, ?_, ?_⟩
  · rw [evalIdentity_eq (h.checkSmall_eq hx) hct, hout]
  · have hphase := (hct_shaped.residue_modEq _).trans (hct_phase.trans (hx_phase.add_right _))
    rw [hx.modulus_eq, h.value_eq] at hphase
    rw [h.value_eq] at he
    have hcount : a.toNat + 1 ≤ 3 := by
      have := a.toNat_le
      omega
    have hbit : decide (2 ≤ a.toNat + 1) = a := by cases a <;> rfl
    rwa [hx.modulus_eq, h.value_eq, Gate.inRegion_and (e := e) hcount (by omega)
      (hphase.trans (congrArg (· % _) (by push_cast; ring))), hbit] at henc

end Operations

end Context

/-- A computation of one more wire. -/
inductive Instruction (n : ℕ) where
  | constant (bit : Bool)
  | not (x : Fin n)
  | gate (g : Gate) (x y : Fin n)
  | majority (x y z : Fin n)
  | identity (x : Fin n)

namespace Instruction

variable {n : ℕ}

def eval (bits : Fin n → Bool) : Instruction n → Bool
  | constant bit => bit
  | not x => !bits x
  | gate g x y => g.eval (bits x) (bits y)
  | majority x y z => decide (2 ≤ (bits x).toNat + (bits y).toNat + (bits z).toNat)
  | identity x => bits x

def run (ctx : Context) (wires : Fin n → Lwe.Ciphertext) :
    Instruction n → Attempt Lwe.Ciphertext
  | constant bit => ctx.evalConstant bit
  | not x => Context.evalNot (wires x)
  | gate g x y => ctx.evalGate g (wires x) (wires y)
  | majority x y z => ctx.evalMajority (wires x) (wires y) (wires z)
  | identity x => ctx.evalIdentity (wires x)

/-- The ciphertext that an instruction bootstraps, and the start of the half circle that it passes. -/
inductive Bootstraps (wires : Fin n → Lwe.Ciphertext) : Instruction n → Lwe.Ciphertext → ℕ → Prop
  | gate {g x y sum ct} : (wires x).add (wires y) = .ok sum →
      (if g.doublesSum then sum.scale 2 else .ok sum) = .ok ct →
      Bootstraps wires (.gate g x y) ct (g.regionStart (wires x).modulus)
  | majority {x y z sum ct} : (wires x).add (wires y) = .ok sum → sum.add (wires z) = .ok ct →
      Bootstraps wires (.majority x y z) ct (Gate.and.regionStart (wires x).modulus)
  | identity {x ct} : (wires x).addConstant ((wires x).modulus / 4) = .ok ct →
      Bootstraps wires (.identity x) ct (Gate.and.regionStart (wires x).modulus)

/-- An instruction keeps the phases of the wires near those of their bits. -/
theorem exists_run {ctx : Context} {s : Lwe.Secret} {q : Modulus} {u bound : ℕ}
    (h : ctx.Ready s q u bound) (hbound : 0 < bound) {key : BootstrapKey}
    (hkey : ctx.keys.active = pure key) {wires : Fin n → Lwe.Ciphertext} {bits : Fin n → Bool}
    (hwires : ∀ w, ctx.EncryptsBit s (bits w) (wires w)) (i : Instruction n)
    (hreads : ∀ ct start, i.Bootstraps wires ct start → ctx.ReadsSign key s ct start) :
    ∃ out, i.run ctx wires = pure out ∧ ctx.EncryptsBit s (i.eval bits) out := by
  cases i with
  | constant bit =>
    obtain ⟨out, hout, henc⟩ := h.exists_evalConstant hbound bit
    exact ⟨out, Attempt.liftM_eq_pure.2 hout, henc⟩
  | not x =>
    obtain ⟨out, hout, henc⟩ := h.exists_evalNot (hwires x)
    exact ⟨out, Attempt.liftM_eq_pure.2 hout, henc⟩
  | gate g x y =>
    exact h.exists_evalGate hkey g (hwires x) (hwires y)
      fun sum ct hsum hct => hreads ct _ (.gate hsum hct)
  | majority x y z =>
    exact h.exists_evalMajority hkey (hwires x) (hwires y) (hwires z)
      fun sum ct hsum hct => hreads ct _ (.majority hsum hct)
  | identity x =>
    exact h.exists_evalIdentity hkey (hwires x) fun ct hct => hreads ct _ (.identity hct)

end Instruction

/-- A straight-line program over some inputs, whose wires are the inputs and the results of its
instructions. -/
inductive Circuit (inputs : ℕ) : ℕ → Type
  | inputs : Circuit inputs inputs
  | extend {n : ℕ} (c : Circuit inputs n) (i : Instruction n) : Circuit inputs (n + 1)

namespace Circuit

variable {inputs : ℕ}

def eval (bits : Fin inputs → Bool) : {n : ℕ} → Circuit inputs n → Fin n → Bool
  | _, .inputs => bits
  | _, .extend c i => Fin.lastCases (i.eval (c.eval bits)) (c.eval bits)

def run (ctx : Context) (cts : Fin inputs → Lwe.Ciphertext) :
    {n : ℕ} → Circuit inputs n → Attempt (Fin n → Lwe.Ciphertext)
  | _, .inputs => pure cts
  | _, .extend c i => do
    let wires ← c.run ctx cts
    let out ← i.run ctx wires
    return Fin.lastCases out wires

/-- Every bootstrap of a run gives what its table has for the phase of its input. -/
def ReadsSigns (ctx : Context) (key : BootstrapKey) (s : Lwe.Secret)
    (cts : Fin inputs → Lwe.Ciphertext) : {n : ℕ} → Circuit inputs n → Prop
  | _, .inputs => True
  | _, .extend c i => c.ReadsSigns ctx key s cts ∧ ∀ wires, c.run ctx cts = pure wires →
      ∀ ct start, i.Bootstraps wires ct start → ctx.ReadsSign key s ct start

variable {ctx : Context} {key : BootstrapKey} {secrets : List Lwe.Secret} {s : Lwe.Secret}
  {bits : Fin inputs → Bool} {cts : Fin inputs → Lwe.Ciphertext}

theorem exists_run {q : Modulus} {u bound : ℕ} (h : ctx.Ready s q u bound)
    (hbound : 0 < bound) (hkey : ctx.keys.active = pure key)
    (hcts : ∀ i, ctx.EncryptsBit s (bits i) (cts i)) {n : ℕ} (c : Circuit inputs n)
    (hreads : c.ReadsSigns ctx key s cts) :
    ∃ wires, c.run ctx cts = pure wires ∧ ∀ w, ctx.EncryptsBit s (c.eval bits w) (wires w) := by
  induction c with
  | inputs => exact ⟨cts, rfl, hcts⟩
  | extend c i ih =>
    obtain ⟨hc, hi⟩ := hreads
    obtain ⟨wires, hrun, hwires⟩ := ih hc
    obtain ⟨out, hout, henc⟩ := i.exists_run h hbound hkey hwires (hi wires hrun)
    refine ⟨Fin.lastCases out wires, ?_, fun w => ?_⟩
    · rw [run, hrun, pure_bind, hout, pure_bind]
    · refine Fin.lastCases ?_ (fun w => ?_) w
      · simpa only [eval, Fin.lastCases_last] using henc
      · simpa only [eval, Fin.lastCases_castSucc] using hwires w

/-- Every wire of a circuit decrypts to its bit, and its phase stays near that of the bit. -/
theorem decrypt_run {N Q n : ℕ} (hring : NegacyclicRing.check N Q = .ok ctx.ring)
    (hmodulus : 8 ≤ ctx.params.lwe.modulus) (hdvd : ctx.params.lwe.modulus ∣ 2 * N)
    (hkey : ctx.keys.active = pure key) (hsecret : ctx.JointSecret key secrets s)
    (hcts : ∀ i, ctx.EncryptsBit s (bits i) (cts i)) (c : Circuit inputs n)
    (hreads : c.ReadsSigns ctx key s cts) :
    ∃ wires, c.run ctx cts = pure wires ∧ ∀ w,
      Context.decrypt s (wires w) 4 = pure (c.eval bits w).toNat ∧
        ctx.EncryptsBit s (c.eval bits w) (wires w) := by
  obtain ⟨q, u, bound, hbound, h⟩ := hsecret.exists_ready hring hmodulus hdvd
  obtain ⟨wires, hrun, hwires⟩ := exists_run h hbound hkey hcts c hreads
  exact ⟨wires, hrun, fun w => ⟨h.decrypt_eq (hwires w), hwires w⟩⟩

section Sample

open BlindRotation

private def nandKey : BootstrapKey where
  base := 32
  rotation := ⟨⟨⟨17, by decide, by decide⟩, 5, 1⟩, 1, #[#[
    ⟨⟨#[⟨#[1, 1, 1, 1], #[0, 0, 0, 0]⟩, ⟨#[0, 0, 0, 0], #[1, 1, 1, 1]⟩]⟩, Rgsw.zero 4 1⟩]]⟩
  switching := ⟨17, 1, 4, 1, 17,
    Array.ofFn fun k : Fin 64 => ⟨(k.1 / 16 % 2) * (k.1 % 16 + 1), #[0]⟩⟩

private def nandContext (ring : NegacyclicRing) : Context where
  params := Params.explicit 1 4 8 17 Params.defaultSigma 17 32 32 .ginx
  ring
  keys := (KeyStore.empty 32).install nandKey.rotation nandKey.switching
  source := .ofSeed #[]

private def nandInputs (i : Fin 2) : Lwe.Ciphertext := if i = 0 then ⟨#[3], 5, 8⟩ else ⟨#[6], 6, 8⟩

private theorem exists_nandRing : ∃ ring, NegacyclicRing.check 4 17 = .ok ring ∧
    (nandContext ring).bootstrapTable nandKey ⟨#[1], 3, 8⟩
      ((nandContext ring).params.lwe.ringModulus / 8) 8
      (Context.signValue (nandContext ring).params.lwe.ringModulus 8 7) = .ok ⟨#[0], 2, 8⟩ :=
  Checked.bind_eq_ok.1 (by decide +kernel)

/-- The negated conjunction of one and zero, and its negation. -/
theorem decrypt_run_nand : ∃ (ctx : Context) (wires : Fin 4 → Lwe.Ciphertext),
    ctx.keys.active = pure nandKey ∧
    ((Circuit.inputs.extend (.gate .nand 0 1)).extend (.not 2)).run ctx nandInputs = pure wires ∧
      ∀ w, Context.decrypt ⟨#[1], .ternary⟩ (wires w) 4 =
        pure ((((Circuit.inputs.extend (.gate .nand 0 1)).extend (.not 2)).eval (· = 0) w).toNat) := by
  obtain ⟨ring, hring, hbootstrap⟩ := exists_nandRing
  have hsecret : (nandContext ring).JointSecret nandKey [⟨#[1], .ternary⟩] ⟨#[1], .ternary⟩ :=
    ⟨by decide, by simp [Lwe.Secret.Ternary], rfl, rfl, by decide⟩
  have hinputs : ∀ i, (nandContext ring).EncryptsBit ⟨#[1], .ternary⟩ (decide (i = 0))
      (nandInputs i) := by
    intro i
    fin_cases i
    · exact ⟨rfl, by decide, 2, by decide, 0, by decide, rfl⟩
    · exact ⟨rfl, by decide, 0, by decide, 0, by decide, rfl⟩
  have hreads : ((Circuit.inputs.extend (.gate .nand 0 1)).extend (.not 2)).ReadsSigns
      (nandContext ring) nandKey ⟨#[1], .ternary⟩ nandInputs := by
    refine ⟨⟨trivial, fun wires hwires ct start h => ?_⟩, fun wires hwires ct start h => ?_⟩
    · cases Attempt.pure_injective hwires
      have hadd : (nandInputs 0).add (nandInputs 1) = .ok ⟨#[1], 3, 8⟩ := by decide
      cases h with
      | gate hsum hct =>
        rw [hadd] at hsum
        cases hsum
        cases hct
        exact ⟨2, ⟨#[0], 2, 8⟩, 2, by decide, hbootstrap, by decide, 0, by decide, rfl⟩
    · cases h
  obtain ⟨wires, hrun, hwires⟩ := decrypt_run hring (le_refl 8) ⟨1, rfl⟩ rfl hsecret hinputs _ hreads
  exact ⟨_, wires, rfl, hrun, fun w => (hwires w).1⟩

end Sample

end Circuit

end LatticeGates
