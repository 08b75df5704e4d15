import LatticeGates.Eval.Gate
import LatticeGates.Proofs.Lwe.Decryption

/-!
# Phases under linear operations and changes of modulus

Main statements: each linear operation on ciphertexts is that operation on phases, and negating a bit
twice gives the ciphertext itself; a ciphertext that is reduced or lifted keeps the residue of its phase,
and a lift is undone by every reduction.
-/

namespace LatticeGates

open Finset

namespace Lwe.Ciphertext

variable {q : Modulus} {x y : Ciphertext} {sk : Secret} {n : ℕ}

section Extensionality

theorem integerPhase_zero (x : Ciphertext) : x.integerPhase 0 = x.body := by
  simp [integerPhase]

theorem integerPhase_single (x : Ciphertext) (i : ℕ) :
    x.integerPhase (Pi.single i 1) = x.body - x.mask.getD i 0 := by
  rw [integerPhase]
  congr 1
  by_cases hi : i < x.mask.size
  · rw [sum_eq_single_of_mem i (mem_range.2 hi) fun j _ hj => by rw [Pi.single_eq_of_ne hj, mul_zero],
      Pi.single_eq_same, mul_one]
  · rw [Array.getD_eq_getD_getElem?, Array.getElem?_eq_none (Nat.not_lt.1 hi)]
    refine sum_eq_zero fun j hj => ?_
    have hne : j ≠ i := by
      have := mem_range.1 hj
      omega
    rw [Pi.single_eq_of_ne hne, mul_zero]

/-- Ciphertexts that have the same phase under every secret are equal. -/
theorem Shaped.ext_phase (hx : x.Shaped q n) (hy : y.Shaped q n)
    (h : ∀ s, x.integerPhase s ≡ y.integerPhase s [ZMOD q.value]) : x = y := by
  have hcast (s : ℕ → ℤ) : (x.integerPhase s : ZMod q.value) = y.integerPhase s :=
    (ZMod.intCast_eq_intCast_iff _ _ _).2 (h s)
  have hbody : (x.body : ZMod q.value) = y.body := by
    simpa only [integerPhase_zero, Int.cast_natCast] using hcast 0
  have hmask : x.mask = y.mask := by
    refine hx.mask.ext hy.mask fun i _ => ?_
    have hi := hcast (Pi.single i 1)
    simp only [integerPhase_single, Int.cast_sub, Int.cast_natCast, hbody] at hi
    exact sub_right_injective hi
  obtain ⟨mask, body, modulus⟩ := x
  obtain ⟨mask', body', modulus'⟩ := y
  rw [mk.injEq]
  exact ⟨hmask, Modulus.eq_of_cast_eq hx.body_lt hy.body_lt hbody,
    hx.modulus_eq.trans hy.modulus_eq.symm⟩

end Extensionality

/-- The computation gives a ciphertext of the dimension of the secret with components below the modulus.
Its phase is the residue of an integer, unless the inner product leaves the wide range. -/
def HasPhase (q : Modulus) (sk : Secret) (c : Checked Ciphertext) (φ : ℤ) : Prop :=
  ∃ r, c = .ok r ∧ r.Shaped q sk.dimension ∧
    (r.phase sk).Ends (· = q.ofInt φ) fun e => e = .overflow ∧ ¬sk.InRange r.mask

theorem hasPhase_of_modEq {c : Checked Ciphertext} {φ ψ : ℤ}
    (h : ∃ r, c = .ok r ∧ r.Shaped q sk.dimension ∧
      r.integerPhase sk.coefficient ≡ ψ [ZMOD q.value]) (hψ : ψ ≡ φ [ZMOD q.value]) :
    HasPhase q sk c φ := by
  obtain ⟨r, hr, hshaped, hmod⟩ := h
  refine ⟨r, hr, hshaped, ?_⟩
  rw [← hshaped.residue_eq_ofInt (hmod.trans hψ)]
  exact hshaped.phase_ends

end Lwe.Ciphertext

namespace Context

open Lwe.Ciphertext

variable {q : Modulus} {x : Lwe.Ciphertext} {n : ℕ}

theorem exists_evalNot (hx : x.Shaped q n) (s : ℕ → ℤ) :
    ∃ r, evalNot x = .ok r ∧ r.Shaped q n ∧
      r.integerPhase s ≡ (q.value / 4 : ℕ) - x.integerPhase s [ZMOD q.value] := by
  obtain ⟨negated, hnegated, hnegated_shaped, hneg⟩ := exists_neg hx s
  obtain ⟨r, hr, hshaped, hadd⟩ := exists_addConstant hnegated_shaped (x.modulus / 4) s
  refine ⟨r, by rw [evalNot, hnegated, Checked.ok_bind, hr], hshaped, hadd.trans ?_⟩
  rw [hx.modulus_eq, sub_eq_neg_add]
  exact hneg.add_right _

theorem evalNot_evalNot (hx : x.Shaped q n) : (evalNot x >>= evalNot) = .ok x := by
  obtain ⟨negated, hnegated, hnegated_shaped, -⟩ := exists_evalNot hx 0
  obtain ⟨r, hr, hshaped, -⟩ := exists_evalNot hnegated_shaped 0
  have heq : r = x := by
    refine hshaped.ext_phase hx fun s => ?_
    obtain ⟨negated', hnegated', -, hinner⟩ := exists_evalNot hx s
    obtain rfl : negated' = negated := Except.ok.inj (hnegated'.symm.trans hnegated)
    obtain ⟨r', hr', -, houter⟩ := exists_evalNot hnegated_shaped s
    obtain rfl : r' = r := Except.ok.inj (hr'.symm.trans hr)
    calc r'.integerPhase s
        ≡ (q.value / 4 : ℕ) - negated'.integerPhase s [ZMOD q.value] := houter
      _ ≡ (q.value / 4 : ℕ) - ((q.value / 4 : ℕ) - x.integerPhase s) [ZMOD q.value] :=
        hinner.sub_left _
      _ = x.integerPhase s := sub_sub_cancel _ _
  rw [hnegated, Checked.ok_bind, hr, heq]

end Context

namespace Lwe.Ciphertext

variable {q : Modulus} {x y : Ciphertext} {sk : Secret}

/-- The linear operations on ciphertexts are those on phases. -/
theorem phase_linear {φ ψ : ℕ} (hx : x.Shaped q sk.dimension) (hy : y.Shaped q sk.dimension)
    (hφ : x.phase sk = .ok φ) (hψ : y.phase sk = .ok ψ) (c : ℕ) :
    HasPhase q sk (x.add y) (φ + ψ) ∧ HasPhase q sk (x.sub y) (φ - ψ) ∧
      HasPhase q sk x.neg (-φ) ∧ HasPhase q sk (x.scale c) (c * φ) ∧
      HasPhase q sk (x.addConstant c) (φ + c) ∧ HasPhase q sk (x.subConstant c) (φ - c) ∧
      HasPhase q sk (Context.evalNot x) ((q.value / 4 : ℕ) - φ) ∧
      (Context.evalNot x >>= Context.evalNot) = .ok x := by
  have hx' := hx.modEq_of_phase hφ
  have hy' := hy.modEq_of_phase hψ
  refine ⟨?add, ?sub, ?neg, ?scale, ?addConstant, ?subConstant, ?evalNot, Context.evalNot_evalNot hx⟩
  case add => exact hasPhase_of_modEq (exists_add hx hy _) (hx'.add hy')
  case sub => exact hasPhase_of_modEq (exists_sub hx hy _) (hx'.sub hy')
  case neg => exact hasPhase_of_modEq (exists_neg hx _) hx'.neg
  case scale => exact hasPhase_of_modEq (exists_scale hx c _) (hx'.mul_left _)
  case addConstant => exact hasPhase_of_modEq (exists_addConstant hx c _) (hx'.add_right _)
  case subConstant => exact hasPhase_of_modEq (exists_subConstant hx c _) (hx'.sub_right _)
  case evalNot => exact hasPhase_of_modEq (Context.exists_evalNot hx _) (hx'.sub_left _)

/-- A secret with a negative coefficient, components at both ends, a modulus that four does not divide, a
constant beyond it. -/
theorem phase_linear_of_signed :
    let q : Modulus := ⟨14, by decide, by decide⟩
    let sk : Secret := ⟨#[1, -1], .ternary⟩
    let x : Ciphertext := ⟨#[13, 0], 3, 14⟩
    let y : Ciphertext := ⟨#[1, 13], 13, 14⟩
    let φ : ℕ := 4
    let ψ : ℕ := 11
    HasPhase q sk (x.add y) (φ + ψ) ∧ HasPhase q sk (x.sub y) (φ - ψ) ∧
      HasPhase q sk x.neg (-φ) ∧ HasPhase q sk (x.scale 100) ((100 : ℕ) * φ) ∧
      HasPhase q sk (x.addConstant 100) (φ + (100 : ℕ)) ∧
      HasPhase q sk (x.subConstant 100) (φ - (100 : ℕ)) ∧
      HasPhase q sk (Context.evalNot x) ((q.value / 4 : ℕ) - φ) ∧
      (Context.evalNot x >>= Context.evalNot) = .ok x := by
  intro q sk x y φ ψ
  have hx : x.Shaped q sk.dimension := shaped_iff.2 (by decide)
  have hy : y.Shaped q sk.dimension := shaped_iff.2 (by decide)
  have hφ : x.phase sk = .ok φ := by decide
  have hψ : y.phase sk = .ok ψ := by decide
  exact phase_linear hx hy hφ hψ 100

section Residues

variable {ct : Ciphertext} {d : ℕ}

theorem Shaped.reduce_self {n : ℕ} (hct : ct.Shaped q n) : ct.reduce q.value = .ok ct := by
  have hmask : ct.mask.map (· % q.value) = ct.mask :=
    Array.ext (Array.size_map ..) fun i _ hi => by
      rw [Array.getElem_map, Nat.mod_eq_of_lt (hct.mask.getElem_lt hi)]
  rw [reduce_eq q.pos (dvd_of_eq hct.modulus_eq.symm), hmask, Nat.mod_eq_of_lt hct.body_lt,
    ← hct.modulus_eq]

theorem reduce_lifted {t : ℕ} (hpos : 0 < d) (hdvd : d ∣ ct.modulus) (hmul : ct.modulus ∣ t) :
    reduce { ct with modulus := t } d = ct.reduce d := by
  rw [reduce_eq hpos (hdvd.trans hmul), reduce_eq hpos hdvd]

/-- A reduction takes the residue of the phase. A lift keeps the residue, though not the phase itself, and
every reduction undoes it. -/
theorem phase_reduce_lift {φ : ℕ} (hct : ct.Shaped q sk.dimension) (hφ : ct.phase sk = .ok φ)
    (t : Modulus) :
    (t.value ∣ q.value → HasPhase t sk (ct.reduce t.value) φ) ∧
      (q.value ∣ t.value → ∃ r ψ, ct.lift t.value = .ok r ∧ r.Shaped t sk.dimension ∧
        r.phase sk = .ok ψ ∧ ψ ≡ φ [MOD q.value] ∧ r.reduce q.value = .ok ct ∧
        ∀ d, d ∣ q.value → ∃ c, ct.reduce d = .ok c ∧ r.reduce d = .ok c) := by
  have hmod := hct.modEq_of_phase hφ
  refine ⟨fun hdvd => ?reduce, fun hdvd => ?lift⟩
  case reduce =>
    exact hasPhase_of_modEq (exists_reduce hct hdvd _)
      (hmod.of_dvd (Int.natCast_dvd_natCast.2 hdvd))
  case lift =>
    have hmul : ct.modulus ∣ t.value := hct.modulus_eq ▸ hdvd
    have hlift := lift_eq (hct.modulus_eq ▸ q.pos) hmul
    obtain ⟨r, hr, hshaped, hphase⟩ := exists_lift hct hdvd
    obtain rfl : r = { ct with modulus := t.value } := Except.ok.inj (hr.symm.trans hlift)
    have hrange : sk.InRange ct.mask := inRange_of_phase hφ
    have hψ := hshaped.phase_of_inRange hrange
    refine ⟨_, _, hr, hshaped, hψ, ?_, ?_, fun d hd => ?_⟩
    · rw [← Int.natCast_modEq_iff]
      refine ((hshaped.residue_modEq _).of_dvd (Int.natCast_dvd_natCast.2 hdvd)).trans ?_
      rwa [hphase]
    · rw [reduce_lifted q.pos (dvd_of_eq hct.modulus_eq.symm) hmul, hct.reduce_self]
    · have hpos : 0 < d := Nat.pos_of_dvd_of_pos hd q.pos
      have hdvd' : d ∣ ct.modulus := hct.modulus_eq ▸ hd
      exact ⟨_, reduce_eq hpos hdvd', by rw [reduce_lifted hpos hdvd' hmul, reduce_eq hpos hdvd']⟩

/-- Modulo 12 the phase is 11. Lifted to 36 it is 35, and reduced to 4 it is 3. -/
theorem phase_reduce_lift_of_signed :
    let q : Modulus := ⟨12, by decide, by decide⟩
    let t : Modulus := ⟨36, by decide, by decide⟩
    let sk : Secret := ⟨#[1, -1], .ternary⟩
    let ct : Ciphertext := ⟨#[11, 7], 3, 12⟩
    (∃ r, ct.lift t.value = .ok r ∧ r.phase sk = .ok 35 ∧ r.reduce q.value = .ok ct) ∧
      HasPhase ⟨4, by decide, by decide⟩ sk (ct.reduce 4) (11 : ℕ) := by
  intro q t sk ct
  have hct : ct.Shaped q sk.dimension := shaped_iff.2 (by decide)
  have hφ : ct.phase sk = .ok 11 := by decide
  obtain ⟨r, -, hr, -, -, -, hback, -⟩ := (phase_reduce_lift hct hφ t).2 (by decide)
  obtain rfl : r = { ct with modulus := 36 } := Except.ok.inj (hr.symm.trans (by decide))
  exact ⟨⟨_, hr, by decide, hback⟩, (phase_reduce_lift hct hφ _).1 (by decide)⟩

end Residues

end Lwe.Ciphertext

end LatticeGates
