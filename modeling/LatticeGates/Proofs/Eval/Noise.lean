import LatticeGates.Proofs.Eval.Reading
import LatticeGates.Proofs.Ring.Product

/-!
# The error of a bootstrap

Main statement: with keys whose errors are bounded, the bootstrap of a table errs by no more than the errors
of the blind rotation, of the rounded table, of the key switch and of the last modulus switch, each scaled to
the modulus of the result.
-/

namespace LatticeGates

open Finset BlindRotation

/-- The keys are those of some secrets, under a ring secret and with bounded errors. -/
structure BootstrapKey.Encrypts (ring : NegacyclicRing) (large : Lwe.Secret) (secrets : List Lwe.Secret)
    (s : Lwe.Secret) (rowError switchError : ℕ) (key : BootstrapKey) : Prop where
  coefficient_eq : s.coefficient = Lwe.Secret.jointCoefficient secrets
  dimension_eq : large.dimension = ring.degree
  gadget : key.rotation.gadget.Valid
  rotation : ∀ sk, Rlwe.Secret.ofLwe ring large = .ok sk →
    key.rotation.Encrypts ring (sk.element ring) rowError secrets
  switching : ∃ middle, key.switching.Encrypts middle large s switchError

/-- What the bootstrap of a table to a modulus may err by. -/
def BootstrapKey.error (ring : NegacyclicRing) (large : Lwe.Secret) (parties : ℕ) (s : Lwe.Secret)
    (rowError switchError : ℕ) (key : BootstrapKey) (target : ℕ) : ℚ :=
  target / ring.modulus.value *
      ((parties * (key.rotation.dimension * stepError ring key.rotation.gadget rowError) : ℕ) + 1 / 2) +
    target / key.switching.modulus * ((1 + ∑ i ∈ range ring.degree, |(large.coefficient i : ℚ)|) / 2 +
      ring.degree * key.switching.digits * switchError) +
    (1 + ∑ i ∈ range s.dimension, |(s.coefficient i : ℚ)|) / 2

namespace Context

variable {ctx : Context} {key : BootstrapKey} {s large : Lwe.Secret} {secrets : List Lwe.Secret}
  {rowError switchError η : ℕ} {call : TableCall} {m t : Modulus}

private theorem exists_scaled {target n : ℕ} (htarget : 0 < target) (hn : 0 < n) (a : ℕ) :
    ∃ κ : ℤ, |(target / n * (Modulus.round a target n % n : ℕ) : ℚ) - a - target * κ| ≤
      target / n * (1 / 2) := by
  obtain ⟨δ, κ, hδ, hround⟩ := Lwe.exists_round (t := n) htarget a
  have htq : (0 : ℚ) < target := Nat.cast_pos.2 htarget
  have hnq : (0 : ℚ) < n := Nat.cast_pos.2 hn
  have hlt : Modulus.round a target n < n := Nat.mod_lt _ hn
  have herror : (target / n * (Modulus.round a target n % n : ℕ) : ℚ) - a - target * (-κ : ℤ) =
      target / n * δ := by
    rw [Nat.mod_eq_of_lt hlt, hround]
    push_cast
    field_simp
    ring
  refine ⟨-κ, ?_⟩
  rw [herror, abs_mul, abs_of_pos (div_pos htq hnq)]
  gcongr

private theorem exists_ideal {n : ℕ} (htarget : 0 < call.target) (hn : 0 < n) (x : ℕ) :
    ∃ κ : ℤ, |(call.target / n * ((if x < call.input.modulus / 2 then
          ((Modulus.round (call.value x) call.target n % n : ℕ) : ℤ)
        else -(Modulus.round (call.value (x - call.input.modulus / 2)) call.target n % n : ℕ) : ℤ) : ℚ)) -
      call.ideal x - call.target * κ| ≤ call.target / n * (1 / 2) := by
  rw [TableCall.ideal]
  split
  · obtain ⟨κ, hκ⟩ := exists_scaled htarget hn (call.value x)
    exact ⟨κ, by exact_mod_cast hκ⟩
  · obtain ⟨κ, hκ⟩ := exists_scaled htarget hn (call.value (x - call.input.modulus / 2))
    refine ⟨-κ, ?_⟩
    generalize Modulus.round (call.value (x - call.input.modulus / 2)) call.target n % n = r at hκ ⊢
    rw [← abs_neg] at hκ
    refine (le_of_eq (congrArg _ ?_)).trans hκ
    push_cast
    ring

private theorem exists_error {x y k : ℤ} {n : ℕ} {b : ℚ} (h : |(x : ℚ) - y - n * k| ≤ b)
    (hb : b < η + 1) : ∃ e : ℤ, |e| ≤ η ∧ x ≡ y + e [ZMOD n] := by
  refine ⟨x - y - n * k, ?_, Int.modEq_iff_dvd.2 ⟨-k, by ring⟩⟩
  have hlt : ((|x - y - n * k| : ℤ) : ℚ) < (η + 1 : ℤ) := by
    push_cast
    exact h.trans_lt hb
  exact Int.lt_add_one_iff.1 (Int.cast_lt.1 hlt)

private theorem total_error {x c y t k κ a b : ℚ} (h : |x - c - t * k| ≤ a) (hκ : |c - y - t * κ| ≤ b) :
    |x - y - t * (k + κ)| ≤ a + b := by
  have hsplit : x - y - t * (k + κ) = (x - c - t * k) + (c - y - t * κ) := by ring
  rw [hsplit]
  exact (abs_add_le _ _).trans (add_le_add h hκ)

/-- With bounded errors of the keys, the bootstrap of a table gives what the table has for the phase and the
offset, scaled to the modulus of the result. -/
theorem Operates.exists_bootstrapTable (h : ctx.Operates key s)
    (hkey : key.Encrypts ctx.ring large secrets s rowError switchError) {ct : Lwe.Ciphertext}
    (hct : ct.Shaped m s.dimension) (hdvd : m.value ∣ 2 * ctx.ring.degree) (offset : ℕ) (t : Modulus)
    (f : ℕ → ℕ) :
    ∃ tab out, BlindRotation.Table.ofFn ctx.ring ct.modulus f = .ok tab ∧
      ctx.bootstrapTable key ct offset t.value f = .ok out ∧ out.Shaped t s.dimension ∧ ∃ k : ℤ,
        |(out.integerPhase s.coefficient : ℚ) - t.value / ctx.ring.modulus.value *
            (tab.read (2 * ctx.ring.degree) ct.modulus (ct.residuePhase s.coefficient) + offset) -
            t.value * k| ≤
          key.error ctx.ring large secrets.length s rowError switchError t.value -
            t.value / ctx.ring.modulus.value * (1 / 2) := by
  obtain ⟨hmodulus, hdim, hwf⟩ := Lwe.Ciphertext.shaped_iff.1 hct
  obtain ⟨sk, hsk⟩ := Rlwe.Secret.exists_ofLwe h.valid hkey.dimension_eq
  obtain ⟨middle, hswitching⟩ := hkey.switching
  have hword := h.degree_lt.trans ctx.ring.modulus.lt_word
  have hres := hct.residue_lt s.coefficient
  rw [← hmodulus] at hdvd hres
  have hm : 2 ≤ ct.modulus := hmodulus ▸ m.one_lt
  obtain ⟨tab, htab, hdomain, htab_red, -⟩ := BlindRotation.Table.exists_ofFn hm hdvd f
  obtain ⟨acc, hacc, hsmall⟩ := (hkey.rotation sk hsk).exists_rotate h.valid hword hkey.gadget
    h.fits.rotation.modulus_eq h.fits.rotation.dimension_ne htab_red hwf
    (hdim.trans h.fits.dimension_eq.symm) hdomain hdvd
  rw [← hkey.coefficient_eq] at hsmall
  obtain ⟨p, hp, -, hphase⟩ := Rlwe.Ciphertext.exists_phase h.valid hsk hsmall.reduced
  have hsmall := (hsmall.scaled_congr hdvd (hmodulus ▸ hct.residue_modEq s.coefficient)).small
  rw [← hphase] at hsmall
  obtain ⟨out, hout, hout_modulus, hout_dim, hout_wf, k, hk⟩ := exists_bootstrap_of_rotate h.valid hsk
    htab_red hm hdvd hacc hp hres hsmall hswitching t.pos offset
  refine ⟨tab, out, htab, ?_, Lwe.Ciphertext.shaped_iff.2 ⟨hout_modulus, hout_dim, hout_wf⟩, k, hk.trans ?_⟩
  · rw [bootstrapTable, htab, Checked.ok_bind, hout]
  · rw [BootstrapKey.error, hswitching.modulus_eq]
    exact le_of_eq (by ring)

/-- The bootstraps with a key err by no more than its errors make them. -/
theorem Operates.readsWithin (h : ctx.Operates key s)
    (hkey : key.Encrypts ctx.ring large secrets s rowError switchError)
    (hring : ctx.ring.modulus.value = ctx.params.lwe.ringModulus)
    (hinput : call.input.Shaped m s.dimension) (hdvd : m.value ∣ 2 * ctx.ring.degree)
    (htarget : call.target = t.value)
    (hη : key.error ctx.ring large secrets.length s rowError switchError call.target < η + 1) :
    call.ReadsWithin ctx key s η := by
  intro φ out ψ hφ hrun hψ
  have hres := hinput.residue_lt s.coefficient
  have hpos : 0 < call.target := htarget ▸ t.pos
  obtain ⟨tab, out', htab, hout, hout_shaped, k, hk⟩ := h.exists_bootstrapTable hkey hinput hdvd 0 t
    fun x => Modulus.round (call.value x) call.target ctx.params.lwe.ringModulus
  rw [← hinput.modulus_eq] at hdvd hres
  obtain ⟨_, htab', -, -, hread⟩ := BlindRotation.Table.exists_ofFn (hinput.modulus_eq ▸ m.one_lt) hdvd
    fun x => Modulus.round (call.value x) call.target ctx.params.lwe.ringModulus
  cases htab.symm.trans htab'
  rw [← htarget] at hout hk
  cases hout.symm.trans hrun
  rw [h.phase_eq hinput, Except.ok.injEq] at hφ
  rw [h.phase_eq hout_shaped, Except.ok.injEq] at hψ
  obtain ⟨κ, hκ⟩ := exists_ideal hpos ctx.ring.modulus.pos (call.input.residuePhase s.coefficient)
  rw [hread _ hres, ← hring, Nat.cast_zero, add_zero] at hk
  rw [hφ] at hk hκ
  have htotal := total_error hk hκ
  rw [sub_add_cancel, ← Int.cast_add] at htotal
  obtain ⟨e, he, hmod⟩ := exists_error htotal hη
  refine ⟨e, he, Int.ModEq.trans ?_ hmod⟩
  rw [← hψ, htarget]
  exact hout_shaped.residue_modEq _

end Context

namespace KeyStore

variable {store : KeyStore} {rotation : Key} {switching : Lwe.SwitchingKey}

theorem active_install :
    (store.install rotation switching).active = pure ⟨store.activeBase, rotation, switching⟩ := by
  have hget : (store.install rotation switching).get? store.activeBase = _ := get?_install _
  rw [if_pos rfl] at hget
  simp only [active, show (store.install rotation switching).activeBase = store.activeBase from rfl, hget]

theorem forPrecision_install (bits : ℕ) : (store.install rotation switching).forPrecision bits =
    pure ⟨store.activeBase, rotation, switching⟩ := by
  rw [forPrecision, get?_install]
  split
  · rename_i key hkey
    split at hkey
    · cases hkey
      rfl
    · cases hkey
  · exact active_install

end KeyStore

section Noiseless

variable {ring : NegacyclicRing} {g : Gadget} {s : Lwe.Secret}

namespace Lwe

theorem SwitchingKey.encrypts_of_zero {q : Modulus} {n base : ℕ} {key : SwitchingKey}
    (h : SwitchingKey.zero n s.dimension base q.value = .ok key) :
    key.Fits q n s.dimension ∧ key.Encrypts q (Secret.zero n) s 0 := by
  have hzero := h
  obtain ⟨rfl, -, -⟩ := eq_of_zero h
  generalize digitsFrom base q.value 1 = digits at *
  have hentry : ∀ entry ∈ (Array.ofFn fun _ : Fin (n * digits * (base - 1)) =>
      (⟨0, Array.replicate s.dimension 0⟩ : Sample)), entry = ⟨0, Array.replicate s.dimension 0⟩ := by
    intro entry hmem
    obtain ⟨i, rfl⟩ := Array.mem_ofFn.1 hmem
    rfl
  have hshaped : (Sample.toCiphertext q ⟨0, Array.replicate s.dimension 0⟩).Shaped q s.dimension :=
    ⟨rfl, Modulus.reduced_replicate, q.pos⟩
  have hfits : SwitchingKey.Fits q n s.dimension ⟨base, digits, n, s.dimension, q.value,
      Array.ofFn fun _ : Fin (n * digits * (base - 1)) => ⟨0, Array.replicate s.dimension 0⟩⟩ :=
    ⟨rfl, ⟨_, hzero⟩, Array.size_ofFn, fun entry hmem => hentry entry hmem ▸ hshaped⟩
  refine ⟨hfits, rfl, ⟨_, by simpa using hzero⟩, fun i hi j hj v hpos hv => ?_⟩
  obtain ⟨entry, hget, hmem⟩ := hfits.exists_entry hi hj hpos hv
  obtain rfl := hentry entry hmem
  refine ⟨_, hget, hshaped, 0, le_rfl, ?_⟩
  rw [Sample.toCiphertext, Ciphertext.integerPhase_replicate, Secret.coefficient_zero, mul_zero, zero_mul,
    add_zero, Nat.cast_zero]

end Lwe

namespace BlindRotation

theorem Key.Encrypts.fits {key : Key} {z : ring.Element} {bound : ℕ} {secrets : List Lwe.Secret}
    (h : key.Encrypts ring z bound secrets) (hg : key.gadget.Valid)
    (hm : key.gadget.modulus = ring.modulus) (hdim : key.dimension ≠ 0) : key.Fits ring := by
  refine ⟨hm, hg.logBase_pos, hg.logBase_lt, hdim, fun block hblock pair hpair => ?_⟩
  obtain ⟨k, hk, rfl⟩ := Array.mem_iff_getElem.1 hblock
  obtain ⟨i, hi, rfl⟩ := Array.mem_iff_getElem.1 hpair
  have hencrypts := (h.block k (h.size_eq ▸ hk) hk).pair i hi
  exact ⟨hencrypts.plus.size_eq, hencrypts.minus.size_eq⟩

/-- The rotation key of a secret without masks and errors. -/
def Key.noiseless (ring : NegacyclicRing) (g : Gadget) (s : Lwe.Secret) : Key :=
  ⟨g, s.dimension, #[Array.ofFn fun i : Fin s.dimension =>
    ⟨Rgsw.noiseless ring g (ternarySplit (s.coefficient i)).1,
      Rgsw.noiseless ring g (ternarySplit (s.coefficient i)).2⟩]⟩

theorem Key.encrypts_noiseless (hr : ring.Valid) (hs : s.Ternary) {z : ring.Element} :
    (Key.noiseless ring g s).Encrypts ring z 0 [s] := by
  refine ⟨rfl, fun sk hsk => by rw [List.mem_singleton.1 hsk]; rfl, fun k hk hk' => ?_⟩
  obtain rfl := Nat.lt_one_iff.1 hk
  refine ⟨Array.size_ofFn, hs, fun i hi => ?_⟩
  simp only [Key.noiseless, List.getElem_toArray, List.getElem_cons_zero, Array.getElem_ofFn]
  exact ⟨Rgsw.encrypts_noiseless hr, Rgsw.encrypts_noiseless hr⟩

end BlindRotation

end Noiseless

namespace Context

section Sample

def sampleSecret : Lwe.Secret := ⟨#[1], .ternary⟩

def sampleGadget : Gadget := ⟨⟨12289, by decide, by decide⟩, 5, 3⟩

/-- A context with a ring of dimension 1024 modulo 12289 and a key without noise. -/
structure Sample (ctx : Context) (key : BootstrapKey) : Prop where
  params_eq : ctx.params = Params.explicit 1 1024 1024 12289 Params.defaultSigma 12289 32 32 .ginx
  ring : NegacyclicRing.check 1024 12289 = .ok ctx.ring
  active : ctx.keys.active = pure key
  forPrecision : ∀ bits, ctx.keys.forPrecision bits = pure key
  fits : key.Fits ctx.ring 1
  secret : ctx.JointSecret key [sampleSecret] sampleSecret
  encrypts : key.Encrypts ctx.ring (Lwe.Secret.zero 1024) [sampleSecret] sampleSecret 0 0
  error_lt : ∀ target ≤ 8192,
    key.error ctx.ring (Lwe.Secret.zero 1024) 1 sampleSecret 0 0 target < 1 + 1

theorem prime_sample : Nat.Prime 12289 := by norm_num

namespace Sample

variable {ctx : Context} {key : BootstrapKey} (h : Sample ctx key)
include h

theorem degree_eq : ctx.ring.degree = 1024 := (NegacyclicRing.check_shape h.ring).1

theorem ringModulus_eq : ctx.ring.modulus.value = ctx.params.lwe.ringModulus := by
  rw [h.params_eq]
  exact (NegacyclicRing.check_shape h.ring).2.1

theorem operates : ctx.Operates key sampleSecret :=
  h.secret.operates (by rw [h.params_eq]; exact prime_sample) (by rw [h.params_eq]; exact h.ring) h.fits

end Sample

private theorem exists_zero_sample : ∃ switching : Lwe.SwitchingKey,
    Lwe.SwitchingKey.zero 1024 sampleSecret.dimension 12289 12289 = .ok switching := by
  change ∃ switching, Lwe.SwitchingKey.zero 1024 1 12289 12289 = .ok switching
  have hdigits : Lwe.SwitchingKey.digitsFrom 12289 12289 1 = 1 := by
    rw [Lwe.SwitchingKey.digitsFrom, dif_pos (by decide), Lwe.SwitchingKey.digitsFrom,
      dif_neg (by decide)]
  rw [Lwe.SwitchingKey.zero, Lwe.SwitchingKey.digitCount, if_neg (by decide), hdigits]
  exact ⟨_, rfl⟩

theorem exists_sample : ∃ ctx key, Sample ctx key := by
  obtain ⟨ring, hring⟩ := NegacyclicRing.exists_check (k := 10) (n := 1024) rfl (by decide) prime_sample
    (by decide) rfl
  obtain ⟨hr, hdegree, hvalue, -⟩ := NegacyclicRing.check_valid prime_sample hring
  obtain ⟨hg, -⟩ := Gadget.check_valid (g := sampleGadget) (q := 12289) (k := 5) (by decide) (by decide)
  have hm : sampleGadget.modulus = ring.modulus := Modulus.value_injective hvalue.symm
  have hs : sampleSecret.Ternary := by simp [Lwe.Secret.Ternary, sampleSecret]
  obtain ⟨switching, hzero⟩ := exists_zero_sample
  obtain ⟨hswitching, hencrypts⟩ := Lwe.SwitchingKey.encrypts_of_zero (q := sampleGadget.modulus) hzero
  have hrotation {z : ring.Element} := Key.encrypts_noiseless (g := sampleGadget) (z := z) hr hs
  refine ⟨{ params := Params.explicit 1 1024 1024 12289 Params.defaultSigma 12289 32 32 .ginx
            ring
            keys := (KeyStore.empty 32).install (.noiseless ring sampleGadget sampleSecret) switching
            source := .ofSeed #[] },
    ⟨32, .noiseless ring sampleGadget sampleSecret, switching⟩, rfl, hring, KeyStore.active_install,
    fun bits => KeyStore.forPrecision_install bits, ?_, ?_, ?_, ?_⟩
  · exact ⟨(hrotation (z := 0)).fits hg hm one_ne_zero, rfl, _, hdegree ▸ hswitching⟩
  · exact ⟨by decide, by simpa using hs, rfl, rfl, rfl⟩
  · exact ⟨by funext i; simp [Lwe.Secret.jointCoefficient], by simp [hdegree], hg, fun sk _ => hrotation,
      _, hencrypts⟩
  · intro target htarget
    have hq : (target : ℚ) ≤ 8192 := by exact_mod_cast htarget
    have hsum : ∑ i ∈ range sampleSecret.dimension, |(sampleSecret.coefficient i : ℚ)| = 1 := by
      simp [sampleSecret, Lwe.Secret.dimension, Lwe.Secret.coefficient]
    rw [BootstrapKey.error, hvalue, hencrypts.modulus_eq, hsum]
    simp only [stepError, mul_zero, Nat.cast_zero, zero_add, Lwe.Secret.coefficient_zero, Int.cast_zero,
      abs_zero, sum_const_zero, add_zero, sampleGadget]
    norm_num
    linarith

end Sample

end Context

end LatticeGates
