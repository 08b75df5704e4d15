import LatticeGates.Eval.Precision
import LatticeGates.Proofs.Eval.Noise

/-!
# The floor of a phase

The low part of a phase is turned to the middle of its circle, where one bootstrap reads it as it is.
Main statement: where the noise and the errors of the bootstraps stay below the offset, the floor clears
the lowest digit of the message, up to the error of the bootstrap that reads it.
-/

namespace LatticeGates.Context

/-- The bootstrap that tells the half circle of a residue modulo `step`, by a quarter of `step`. -/
def sideCall (m step : ℕ) (residue : Lwe.Ciphertext) : TableCall := ⟨residue, m, fun _ => m - step / 4⟩

/-- The bootstrap that reads a residue modulo `step` in the middle half of its circle. -/
def residueCall (m step : ℕ) (residue : Lwe.Ciphertext) : TableCall :=
  ⟨residue, m, fun x => if x < step / 4 then m - step / 2 - x else x⟩

/-- The bootstraps that a floor makes. -/
inductive FloorCall (ctx : Context) (key : BootstrapKey) (ct : Lwe.Ciphertext) (step : ℕ) :
    TableCall → Prop
  | side {shifted residue} : ct.addConstant beta = .ok shifted → shifted.reduce step = .ok residue →
      FloorCall ctx key ct step (sideCall ct.modulus step residue)
  | residue {shifted residue side centred low} : ct.addConstant beta = .ok shifted →
      shifted.reduce step = .ok residue → (sideCall ct.modulus step residue).run ctx key = .ok side →
      shifted.sub side = .ok centred → centred.reduce step = .ok low →
      FloorCall ctx key ct step (residueCall ct.modulus step low)

variable {ctx : Context} {key : BootstrapKey} {s : Lwe.Secret} {q t : Modulus} {η : ℕ}
  {ct : Lwe.Ciphertext}

theorem sideCall_run (m step : ℕ) (ct : Lwe.Ciphertext) : (sideCall m step ct).run ctx key =
    ctx.bootstrapTable key ct 0 m fun _ =>
      Modulus.round (m - step / 4) m ctx.params.lwe.ringModulus := rfl

theorem residueCall_run (m step : ℕ) (ct : Lwe.Ciphertext) : (residueCall m step ct).run ctx key =
    ctx.bootstrapTable key ct 0 m (residueValue ctx.params.lwe.ringModulus m step) := rfl

theorem floorWith_eq {step : ℕ} {shifted low side centred rest residue : Lwe.Ciphertext}
    (hpos : 0 < ct.modulus) (hring : 0 < ctx.params.lwe.ringModulus) (hle : step ≤ ct.modulus)
    (hshifted : ct.addConstant beta = .ok shifted) (hlow : shifted.reduce step = .ok low)
    (hside : (sideCall ct.modulus step low).run ctx key = .ok side)
    (hcentred : shifted.sub side = .ok centred) (hrest : centred.reduce step = .ok rest)
    (hresidue : (residueCall ct.modulus step rest).run ctx key = .ok residue) :
    ctx.floorWith key ct step = centred.sub residue := by
  rw [sideCall_run, ← bootstrapChecked_move hpos hring (by omega)] at hside
  rw [residueCall_run, ← bootstrapChecked_eq fun x _ => residueEntry_eq hpos hring hle] at hresidue
  rw [floorWith, hshifted, Checked.ok_bind, hlow, Checked.ok_bind, hside, Checked.ok_bind, hcentred,
    Checked.ok_bind, hrest, Checked.ok_bind, hresidue, Checked.ok_bind]

theorem FloorCall.readsWithin {large : Lwe.Secret} {secrets : List Lwe.Secret}
    {rowError switchError : ℕ} {call : TableCall} (hcall : FloorCall ctx key ct q.value call)
    (h : ctx.Operates key s) (hkey : key.Encrypts ctx.ring large secrets s rowError switchError)
    (hring : ctx.ring.modulus.value = ctx.params.lwe.ringModulus)
    (hdegree : q.value ∣ 2 * ctx.ring.degree) (ht : ct.modulus = t.value)
    (hη : key.error ctx.ring large secrets.length s rowError switchError ct.modulus < η + 1) :
    call.ReadsWithin ctx key s η := by
  obtain ⟨hshaped, htarget⟩ :
      call.input.Shaped q call.input.dimension ∧ call.target = ct.modulus := by
    cases hcall with
    | side _ hresidue => exact ⟨Lwe.Ciphertext.shaped_of_reduce hresidue, rfl⟩
    | residue _ _ _ _ hlow => exact ⟨Lwe.Ciphertext.shaped_of_reduce hlow, rfl⟩
  intro φ out ψ hφ
  rw [show call.input.dimension = s.dimension from Lwe.Ciphertext.dimension_of_phase hφ] at hshaped
  exact h.readsWithin hkey hring hshaped hdegree (htarget.trans ht) (htarget ▸ hη) φ out ψ hφ

private def turn (step x : ℕ) : ℤ := if x < step / 2 then (step / 4 : ℕ) else -(step / 4 : ℕ)

private theorem sub_side_modEq {m step x : ℕ} {residue : Lwe.Ciphertext} {φ ψ u e : ℤ}
    (hmodulus : residue.modulus = step) (hle : step ≤ m) (hφ : φ ≡ u [ZMOD m])
    (hψ : ψ ≡ (sideCall m step residue).ideal x + e [ZMOD m]) :
    φ - ψ ≡ u + turn step x - e [ZMOD m] := by
  refine (hφ.sub hψ).trans (Int.modEq_iff_dvd.2 ?_)
  rw [sideCall, TableCall.ideal, hmodulus, turn, Nat.cast_sub (show step / 4 ≤ m by omega)]
  split
  · exact ⟨1, by ring⟩
  · exact ⟨-1, by ring⟩

private theorem turned_mem {h r x : ℕ} {e d : ℤ} (hr : r < 2 * h) (hx : (x : ℤ) = 256 * r + 128 + e)
    (hsmall : |e| + |d| < 128) :
    (128 * h : ℤ) ≤ x + turn (512 * h) x - d ∧ x + turn (512 * h) x - d < 384 * h := by
  have he := abs_le.1 (le_refl |e|)
  have hd := abs_le.1 (le_refl |d|)
  rw [turn]
  split <;> omega

private theorem residue_ideal {m h y : ℕ} {residue : Lwe.Ciphertext}
    (hmodulus : residue.modulus = 512 * h) (hle : 512 * h ≤ m) (hlow : 128 * h ≤ y) (hhigh : y < 384 * h) :
    (residueCall m (512 * h) residue).ideal y ≡ y [ZMOD m] := by
  rw [residueCall, TableCall.ideal, hmodulus]
  dsimp only
  by_cases hside : y < 512 * h / 2
  · rw [if_pos hside, if_neg (by omega)]
  · rw [if_neg hside, if_pos (by omega)]
    refine Int.modEq_iff_dvd.2 ⟨1, ?_⟩
    omega

section Steps

variable {v : ℤ} {shifted centred : Lwe.Ciphertext} (h : ctx.Operates key s)
  (hdegree : q.value ∣ 2 * ctx.ring.degree) (hdvd : q.value ∣ t.value) (hv : (q.value : ℤ) ∣ v)
include h hdegree hdvd hv

omit h hdegree in
private theorem exists_residue {ct : Lwe.Ciphertext} (hct : ct.Shaped t s.dimension) {x : ℕ}
    (hx : x < q.value) (hphase : ct.integerPhase s.coefficient ≡ v + x [ZMOD t.value]) :
    ∃ low, ct.reduce q.value = .ok low ∧ low.Shaped q s.dimension ∧
      low.residuePhase s.coefficient = x := by
  obtain ⟨low, hlow, hlow_shaped, hlow_phase⟩ :=
    Lwe.Ciphertext.exists_reduce hct hdvd s.coefficient
  refine ⟨low, hlow, hlow_shaped, ?_⟩
  have hmod : v + x ≡ x [ZMOD q.value] := by
    simpa using (Int.modEq_zero_iff_dvd.2 hv).add_right (x : ℤ)
  exact_mod_cast hlow_shaped.residue_eq (Int.natCast_nonneg x) (by exact_mod_cast hx)
    ((hlow_phase.trans (hphase.of_dvd (Int.natCast_dvd_natCast.2 hdvd))).trans hmod)

private theorem Operates.exists_centred (hshifted : shifted.Shaped t s.dimension) {x : ℕ}
    (hx : x < q.value) (hphase : shifted.integerPhase s.coefficient ≡ v + x [ZMOD t.value])
    (hread : ∀ residue, shifted.reduce q.value = .ok residue →
      (sideCall t.value q.value residue).ReadsWithin ctx key s η) :
    ∃ residue side centred, shifted.reduce q.value = .ok residue ∧
      (sideCall t.value q.value residue).run ctx key = .ok side ∧
      shifted.sub side = .ok centred ∧ centred.Shaped t s.dimension ∧ ∃ d : ℤ, |d| ≤ η ∧
        centred.integerPhase s.coefficient ≡ v + (x + turn q.value x - d) [ZMOD t.value] := by
  obtain ⟨residue, hresidue, hresidue_shaped, hresidue_eq⟩ := exists_residue hdvd hv hshifted hx hphase
  obtain ⟨side, hside, hside_shaped, d, hd, hside_phase⟩ := h.exists_read (t := t)
    (hread residue hresidue) hresidue_shaped hdegree rfl
  obtain ⟨centred, hcentred, hcentred_shaped, hcentred_phase⟩ :=
    Lwe.Ciphertext.exists_sub hshifted hside_shaped s.coefficient
  refine ⟨residue, side, centred, hresidue, hside, hcentred, hcentred_shaped, d, hd, ?_⟩
  rw [show (sideCall t.value q.value residue).input = residue from rfl, hresidue_eq] at hside_phase
  refine hcentred_phase.trans ((sub_side_modEq hresidue_shaped.modulus_eq
    (Nat.le_of_dvd t.pos hdvd) hphase hside_phase).trans (congrArg (· % _) ?_))
  ring

private theorem Operates.exists_cleared (hcentred : centred.Shaped t s.dimension) {k y : ℕ}
    (hk : q.value = 512 * k) (hlow : 128 * k ≤ y) (hhigh : y < 384 * k)
    (hphase : centred.integerPhase s.coefficient ≡ v + y [ZMOD t.value])
    (hread : ∀ low, centred.reduce q.value = .ok low →
      (residueCall t.value q.value low).ReadsWithin ctx key s η) :
    ∃ low residue out, centred.reduce q.value = .ok low ∧
      (residueCall t.value q.value low).run ctx key = .ok residue ∧
      centred.sub residue = .ok out ∧ out.Shaped t s.dimension ∧ ∃ d : ℤ, |d| ≤ η ∧
        out.integerPhase s.coefficient ≡ v - d [ZMOD t.value] := by
  obtain ⟨low, hreduce, hlow_shaped, hlow_eq⟩ :=
    exists_residue hdvd hv hcentred (by omega : y < q.value) hphase
  obtain ⟨residue, hresidue, hresidue_shaped, d, hd, hresidue_phase⟩ := h.exists_read (t := t)
    (hread low hreduce) hlow_shaped hdegree rfl
  obtain ⟨out, hout, hout_shaped, hout_phase⟩ :=
    Lwe.Ciphertext.exists_sub hcentred hresidue_shaped s.coefficient
  refine ⟨low, residue, out, hreduce, hresidue, hout, hout_shaped, d, hd, ?_⟩
  rw [show (residueCall t.value q.value low).input = low from rfl, hlow_eq, hk] at hresidue_phase
  have hideal := residue_ideal (hk ▸ hlow_shaped.modulus_eq) (hk ▸ Nat.le_of_dvd t.pos hdvd) hlow hhigh
  refine hout_phase.trans ((hphase.sub (hresidue_phase.trans (hideal.add_right _))).trans
    (congrArg (· % _) ?_))
  ring

end Steps

/-- The floor clears the lowest digit of a message in base `q / 256`. -/
theorem Operates.exists_floorWith (h : ctx.Operates key s) (hct : ct.Shaped t s.dimension)
    (hdegree : q.value ∣ 2 * ctx.ring.degree) (hstep : 512 ≤ q.value) (hdvd : q.value ∣ t.value) {m : ℕ}
    {e : ℤ} (hphase : ct.integerPhase s.coefficient ≡ 256 * m + e [ZMOD t.value])
    (he : |e| + η < 128)
    (hreads : ∀ call, FloorCall ctx key ct q.value call → call.ReadsWithin ctx key s η) :
    ∃ out, ctx.floorWith key ct q.value = .ok out ∧ out.Shaped t s.dimension ∧ ∃ d : ℤ, |d| ≤ η ∧
      out.integerPhase s.coefficient ≡ q.value * (m / (q.value / 256) : ℕ) - d [ZMOD t.value] := by
  obtain ⟨k, hk⟩ : 512 ∣ q.value := NegacyclicRing.two_pow_dvd (k := 9) hdegree hstep
  have hmodulus := hct.modulus_eq
  have hbase : q.value / 256 = 2 * k := by omega
  -- the message is `2 k high + r`: the floor keeps `high`, and `r` is in the low part of the phase
  have hr : m % (2 * k) < 2 * k := Nat.mod_lt _ (by omega)
  have hm := Nat.div_add_mod m (2 * k)
  rw [hbase]
  generalize m / (2 * k) = high at *
  generalize m % (2 * k) = r at *
  have habs := abs_le.1 (le_refl |e|)
  obtain ⟨x, hx⟩ := Int.eq_ofNat_of_zero_le (a := 256 * r + 128 + e) (by omega)
  have hv : (q.value : ℤ) ∣ q.value * high := dvd_mul_right _ _
  obtain ⟨shifted, hshifted, hshift_shaped, hshift_phase⟩ :=
    Lwe.Ciphertext.exists_addConstant hct beta s.coefficient
  have hshift_phase : shifted.integerPhase s.coefficient ≡ q.value * high + x [ZMOD t.value] := by
    refine hshift_phase.trans ((hphase.add_right _).trans (congrArg (· % _) ?_))
    rw [← hx, hk, ← hm]
    push_cast [beta]
    ring
  obtain ⟨residue, side, centred, hresidue, hside, hcentred, hcentred_shaped, d, hd, hcentred_phase⟩ :=
    h.exists_centred hdegree hdvd hv hshift_shaped (by omega) hshift_phase fun residue hresidue =>
      hmodulus ▸ hreads _ (.side hshifted hresidue)
  obtain ⟨hlow, hhigh⟩ := turned_mem (d := d) hr hx.symm (by omega)
  rw [← hk] at hlow hhigh
  obtain ⟨y, hy⟩ := Int.eq_ofNat_of_zero_le (a := x + turn q.value x - d) (by omega)
  rw [hy] at hcentred_phase hlow hhigh
  rw [← hmodulus] at hside
  obtain ⟨low, residue', out, hlow', hresidue', hout, hout_shaped, hout_phase⟩ :=
    h.exists_cleared hdegree hdvd hv hcentred_shaped hk (by omega) (by omega) hcentred_phase
      fun low hlow => hmodulus ▸ hreads _ (.residue hshifted hresidue hside hcentred hlow)
  refine ⟨out, ?_, hout_shaped, hout_phase⟩
  have hle : q.value ≤ ct.modulus := hmodulus ▸ Nat.le_of_dvd t.pos hdvd
  have hpos : 0 < ct.modulus := hmodulus ▸ t.pos
  rw [← hmodulus] at hresidue'
  rw [floorWith_eq hpos h.ringModulus_pos hle hshifted hresidue hside hcentred hlow' hresidue', hout]

end LatticeGates.Context
