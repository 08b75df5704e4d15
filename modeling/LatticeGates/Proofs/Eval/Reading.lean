import LatticeGates.Proofs.BlindRotation.Totality
import LatticeGates.Proofs.Eval.Circuit

/-!
# Bootstraps of tables

Main statement: with keys that go with the ring and the secret, the bootstrap of a table does not fault, and
where its error is bounded, the phase of the result is what the table stands for at the phase of the input,
up to that error.
-/

namespace LatticeGates.Context

/-- A bootstrap of a table, which lists residues modulo the modulus of the result for the phases of the lower
half. -/
structure TableCall where
  input : Lwe.Ciphertext
  target : ℕ
  value : ℕ → ℕ

namespace TableCall

/-- The residues are scaled to the ring modulus, and the bootstrap scales them back. -/
def run (ctx : Context) (key : BootstrapKey) (call : TableCall) : Checked Lwe.Ciphertext :=
  ctx.bootstrapTable key call.input 0 call.target fun x =>
    Modulus.round (call.value x) call.target ctx.params.lwe.ringModulus

/-- What the table stands for at a phase: the upper half of the phases is read with the sign changed. -/
def ideal (call : TableCall) (φ : ℕ) : ℤ :=
  if φ < call.input.modulus / 2 then call.value φ else -call.value (φ - call.input.modulus / 2)

/-- If the bootstrap ends, the phase of its result is within `η` of what the table stands for at the phase of
the input. -/
def ReadsWithin (ctx : Context) (key : BootstrapKey) (s : Lwe.Secret) (η : ℕ) (call : TableCall) :
    Prop :=
  ∀ φ out ψ, call.input.phase s = .ok φ → call.run ctx key = .ok out → out.phase s = .ok ψ →
    ∃ e : ℤ, |e| ≤ η ∧ ψ ≡ call.ideal φ + e [ZMOD call.target]

end TableCall

/-- The key goes with the ring and the secret, and phases under the secret are computed without a fault. -/
structure Operates (ctx : Context) (key : BootstrapKey) (s : Lwe.Secret) : Prop where
  valid : ctx.ring.Valid
  degree_lt : 2 * ctx.ring.degree < ctx.ring.modulus.value
  ringModulus_pos : 0 < ctx.params.lwe.ringModulus
  fits : key.Fits ctx.ring s.dimension
  phase_eq : ∀ {q : Modulus} {ct : Lwe.Ciphertext}, ct.Shaped q s.dimension →
    ct.phase s = .ok (ct.residuePhase s.coefficient)

theorem JointSecret.operates {ctx : Context} {active key : BootstrapKey} {secrets : List Lwe.Secret}
    {s : Lwe.Secret} {N : ℕ} (hsecret : ctx.JointSecret active secrets s)
    (hprime : ctx.params.lwe.ringModulus.Prime)
    (hring : NegacyclicRing.check N ctx.params.lwe.ringModulus = .ok ctx.ring) (hkey : key.Fits ctx.ring s.dimension) :
    ctx.Operates key s := by
  obtain ⟨bound, -, hbound, hfits⟩ := hsecret.exists_bound
  exact ⟨(NegacyclicRing.check_valid hprime hring).1, NegacyclicRing.two_mul_degree_lt_modulus hring,
    hprime.pos, hkey, fun hct => hct.phase_eq hbound hfits⟩

section Run

variable {ctx : Context} {key : BootstrapKey} {s : Lwe.Secret} {call : TableCall} {m t : Modulus}

theorem exists_bootstrapTable {ct : Lwe.Ciphertext} {n target : ℕ} (hr : ctx.ring.Runs)
    (hdegree : 2 * ctx.ring.degree < ctx.ring.modulus.value) (hkey : key.Fits ctx.ring n)
    (hct : ct.Shaped m n) (hdvd : m.value ∣ 2 * ctx.ring.degree) (htarget : target = t.value) (offset : ℕ)
    (f : ℕ → ℕ) :
    ∃ out, ctx.bootstrapTable key ct offset target f = .ok out ∧ out.Shaped t n := by
  obtain ⟨hmodulus, hdim, hwf⟩ := Lwe.Ciphertext.shaped_iff.1 hct
  rw [← hmodulus] at hdvd
  obtain ⟨tab, htab, hdomain, htab_red, -⟩ :=
    BlindRotation.Table.exists_ofFn (hmodulus ▸ m.one_lt) hdvd f
  obtain ⟨out, hout, hout_modulus, hout_dim, hout_wf⟩ :=
    BlindRotation.exists_bootstrap hr (hdegree.trans ctx.ring.modulus.lt_word) hkey htab_red hwf hdim
      hdomain hdvd offset (htarget ▸ t.pos : 0 < target)
  refine ⟨out, ?_, Lwe.Ciphertext.shaped_iff.2 ⟨hout_modulus.trans htarget, hout_dim, hout_wf⟩⟩
  rw [bootstrapTable, htab, Checked.ok_bind, hout]

theorem Operates.exists_run (h : ctx.Operates key s) (hinput : call.input.Shaped m s.dimension)
    (hdvd : m.value ∣ 2 * ctx.ring.degree) (htarget : call.target = t.value) :
    ∃ out, call.run ctx key = .ok out ∧ out.Shaped t s.dimension :=
  exists_bootstrapTable h.valid.runs h.degree_lt h.fits hinput hdvd htarget 0 _

theorem Operates.exists_read (h : ctx.Operates key s) {η : ℕ} (hread : call.ReadsWithin ctx key s η)
    (hinput : call.input.Shaped m s.dimension) (hdvd : m.value ∣ 2 * ctx.ring.degree)
    (htarget : call.target = t.value) :
    ∃ out, call.run ctx key = .ok out ∧ out.Shaped t s.dimension ∧ ∃ e : ℤ, |e| ≤ η ∧
      out.integerPhase s.coefficient ≡
        call.ideal (call.input.residuePhase s.coefficient) + e [ZMOD t.value] := by
  obtain ⟨out, hout, hshaped⟩ := h.exists_run hinput hdvd htarget
  obtain ⟨e, he, hphase⟩ := hread _ out _ (h.phase_eq hinput) hout (h.phase_eq hshaped)
  rw [htarget] at hphase
  exact ⟨out, hout, hshaped, e, he, (hshaped.residue_modEq _).symm.trans hphase⟩

end Run

end LatticeGates.Context
