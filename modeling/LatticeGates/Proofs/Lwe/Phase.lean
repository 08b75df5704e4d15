import LatticeGates.Lwe.Ciphertext
import LatticeGates.Proofs.Modulus.Residues

/-!
# Phases as integers

The phase of a ciphertext before it is reduced: the body less the inner product of the mask with the
secret, over the integers.
-/

namespace LatticeGates.Lwe

open Finset

namespace Secret

/-- The coefficients as a sequence that vanishes beyond its end. -/
def coefficient (sk : Secret) (i : ℕ) : ℤ := sk.coefficients.getD i 0

def Ternary (sk : Secret) : Prop := ∀ x ∈ sk.coefficients, x.natAbs ≤ 1

/-- The coefficients of the sum of some secrets. -/
def jointCoefficient (secrets : List Secret) (i : ℕ) : ℤ := (secrets.map (·.coefficient i)).sum

variable {sk : Secret}

theorem coefficient_of_lt {i : ℕ} (hi : i < sk.coefficients.size) :
    sk.coefficient i = sk.coefficients[i] :=
  (Array.getElem_eq_getD (h := hi) _).symm

theorem Ternary.natAbs_le (hs : sk.Ternary) (i : ℕ) : (sk.coefficient i).natAbs ≤ 1 := by
  by_cases hi : i < sk.coefficients.size
  · rw [coefficient_of_lt hi]
    exact hs _ (Array.getElem_mem hi)
  · rw [coefficient, Array.getD_eq_getD_getElem?, Array.getElem?_eq_none (by omega)]
    decide

theorem jointCoefficient_cons (sk : Secret) (secrets : List Secret) (i : ℕ) :
    jointCoefficient (sk :: secrets) i = sk.coefficient i + jointCoefficient secrets i := rfl

theorem jointCoefficient_take_succ {secrets : List Secret} {k : ℕ} (hk : k < secrets.length)
    (i : ℕ) :
    jointCoefficient (secrets.take (k + 1)) i =
      jointCoefficient (secrets.take k) i + secrets[k].coefficient i := by
  rw [jointCoefficient, jointCoefficient, List.take_succ_eq_append_getElem hk, List.map_append,
    List.sum_append, List.map_singleton, List.sum_singleton]

end Secret

namespace Ciphertext

variable {q : Modulus} {ct x y : Ciphertext} {s : ℕ → ℤ} {n : ℕ}

/-- The body less the inner product of the mask with a sequence. -/
def integerPhase (ct : Ciphertext) (s : ℕ → ℤ) : ℤ :=
  ct.body - ∑ i ∈ range ct.mask.size, ct.mask.getD i 0 * s i

theorem integerPhase_replicate (n body modulus : ℕ) (s : ℕ → ℤ) :
    integerPhase ⟨Array.replicate n 0, body, modulus⟩ s = body := by
  refine sub_eq_self.2 (sum_eq_zero fun i _ => ?_)
  rw [Modulus.getD_replicate, Nat.cast_zero, zero_mul]

def residuePhase (ct : Ciphertext) (s : ℕ → ℤ) : ℕ := (ct.integerPhase s % ct.modulus).toNat

theorem cast_residuePhase (h : 0 < ct.modulus) :
    (ct.residuePhase s : ℤ) = ct.integerPhase s % ct.modulus :=
  Int.toNat_of_nonneg (Int.emod_nonneg _ (by omega))

theorem residuePhase_lt (h : 0 < ct.modulus) : ct.residuePhase s < ct.modulus := by
  have := Int.emod_lt_of_pos (ct.integerPhase s) (b := ct.modulus) (by omega)
  have := cast_residuePhase (s := s) h
  omega

theorem residuePhase_modEq (h : 0 < ct.modulus) :
    (ct.residuePhase s : ℤ) ≡ ct.integerPhase s [ZMOD ct.modulus] := by
  rw [cast_residuePhase h]
  exact Int.mod_modEq _ _

theorem cast_integerPhase (q : Modulus) (hsize : ct.mask.size = n) :
    (ct.integerPhase s : ZMod q.value) = ct.body - ∑ i ∈ range n, q.entries ct.mask i * s i := by
  rw [integerPhase, hsize]
  push_cast
  rfl

theorem modEq_of_cast_eq {a b : ℤ} (h : (a : ZMod q.value) = b) : a ≡ b [ZMOD q.value] :=
  (ZMod.intCast_eq_intCast_iff a b q.value).1 h

/-- A ciphertext of a dimension with components below the modulus. -/
structure Shaped (q : Modulus) (n : ℕ) (ct : Ciphertext) : Prop where
  modulus_eq : ct.modulus = q.value
  mask : q.Reduced n ct.mask
  body_lt : ct.body < q.value

theorem shaped_iff : ct.Shaped q n ↔ ct.modulus = q.value ∧ ct.dimension = n ∧ ct.WellFormed := by
  constructor
  · rintro ⟨hmod, hmask, hbody⟩
    exact ⟨hmod, hmask.size_eq, by rw [hmod]; exact hmask.lt, by rwa [hmod]⟩
  · rintro ⟨hmod, hdim, hmask, hbody⟩
    rw [hmod] at hmask hbody
    exact ⟨hmod, ⟨hdim, hmask⟩, hbody⟩

theorem Shaped.residue_modEq (h : ct.Shaped q n) (s : ℕ → ℤ) :
    (ct.residuePhase s : ℤ) ≡ ct.integerPhase s [ZMOD q.value] := by
  rw [← h.modulus_eq]
  exact Ciphertext.residuePhase_modEq (h.modulus_eq ▸ q.pos)

theorem Shaped.residue_lt (h : ct.Shaped q n) (s : ℕ → ℤ) : ct.residuePhase s < q.value := by
  rw [← h.modulus_eq]
  exact Ciphertext.residuePhase_lt (h.modulus_eq ▸ q.pos)

theorem Shaped.residue_eq (h : ct.Shaped q n) {t : ℤ} (hlow : 0 ≤ t) (hhigh : t < q.value)
    (hmod : ct.integerPhase s ≡ t [ZMOD q.value]) : (ct.residuePhase s : ℤ) = t := by
  have hres := (h.residue_modEq s).trans hmod
  have hlt := h.residue_lt s
  rwa [Int.ModEq, Int.emod_eq_of_lt (by omega) (by omega), Int.emod_eq_of_lt hlow hhigh] at hres

theorem Shaped.residue_eq_ofInt (h : ct.Shaped q n) {t : ℤ}
    (hmod : ct.integerPhase s ≡ t [ZMOD q.value]) : ct.residuePhase s = q.ofInt t := by
  rw [residuePhase, h.modulus_eq, hmod]
  rfl

theorem Shaped.check (h : ct.Shaped q n) : Modulus.check ct.modulus = .ok q := by
  rw [h.modulus_eq, Modulus.check_value]

theorem sharedModulus_eq (hx : x.Shaped q n) (hy : y.Shaped q n) : sharedModulus x y = .ok q := by
  simp [sharedModulus, dimension, hx.mask.size_eq, hy.mask.size_eq, hy.modulus_eq,
    hx.modulus_eq, Modulus.check_value]

private theorem cast_phase_combination {r : Ciphertext} {u v : ZMod q.value} (hr : r.mask.size = n)
    (hx : x.Shaped q n) (hy : y.Shaped q n)
    (hmask : ∀ i < n, q.entries r.mask i = u * q.entries x.mask i + v * q.entries y.mask i)
    (hbody : (r.body : ZMod q.value) = u * x.body + v * y.body) :
    (r.integerPhase s : ZMod q.value) = u * x.integerPhase s + v * y.integerPhase s := by
  have hsum : ∑ i ∈ range n, q.entries r.mask i * s i =
      u * ∑ i ∈ range n, q.entries x.mask i * s i + v * ∑ i ∈ range n, q.entries y.mask i * s i := by
    rw [mul_sum, mul_sum, ← sum_add_distrib]
    refine sum_congr rfl fun i hi => ?_
    rw [hmask i (mem_range.1 hi)]
    ring
  rw [cast_integerPhase q hr, cast_integerPhase q hx.mask.size_eq, cast_integerPhase q hy.mask.size_eq]
  linear_combination hbody - hsum

theorem exists_add (hx : x.Shaped q n) (hy : y.Shaped q n) (s : ℕ → ℤ) :
    ∃ r, x.add y = .ok r ∧ r.Shaped q n ∧
      r.integerPhase s ≡ x.integerPhase s + y.integerPhase s [ZMOD q.value] := by
  obtain ⟨mask, hmask, hred, hentries⟩ := Modulus.exists_zipChecked Modulus.exists_add hx.mask hy.mask
  obtain ⟨body, hbody, hlt, hcast⟩ := Modulus.exists_add hx.body_lt hy.body_lt
  refine ⟨⟨mask, body, x.modulus⟩, ?_, ⟨hx.modulus_eq, hred, hlt⟩, modEq_of_cast_eq ?_⟩
  · simp [add, sharedModulus_eq hx hy, hmask, hbody]
  · have hadd (a b : ZMod q.value) : a + b = 1 * a + 1 * b := by ring
    rw [Int.cast_add, hadd]
    refine cast_phase_combination hred.size_eq hx hy (fun i hi => ?_) ?_
    · rw [hentries i hi, hadd]
    · rw [hcast, hadd]

theorem exists_sub (hx : x.Shaped q n) (hy : y.Shaped q n) (s : ℕ → ℤ) :
    ∃ r, x.sub y = .ok r ∧ r.Shaped q n ∧
      r.integerPhase s ≡ x.integerPhase s - y.integerPhase s [ZMOD q.value] := by
  obtain ⟨mask, hmask, hred, hentries⟩ := Modulus.exists_zipChecked Modulus.exists_sub hx.mask hy.mask
  obtain ⟨body, hbody, hlt, hcast⟩ := Modulus.exists_sub hx.body_lt hy.body_lt
  refine ⟨⟨mask, body, x.modulus⟩, ?_, ⟨hx.modulus_eq, hred, hlt⟩, modEq_of_cast_eq ?_⟩
  · simp [sub, sharedModulus_eq hx hy, hmask, hbody]
  · have hsub (a b : ZMod q.value) : a - b = 1 * a + -1 * b := by ring
    rw [Int.cast_sub, hsub]
    refine cast_phase_combination hred.size_eq hx hy (fun i hi => ?_) ?_
    · rw [hentries i hi, hsub]
    · rw [hcast, hsub]

private theorem phase_of_body (hx : x.Shaped q n) {body : ℕ} {d : ℤ}
    (hcast : (body : ZMod q.value) = x.body + d) :
    integerPhase { x with body } s ≡ x.integerPhase s + d [ZMOD q.value] := by
  have hsize : ({ x with body } : Ciphertext).mask.size = n := hx.mask.size_eq
  refine modEq_of_cast_eq ?_
  rw [Int.cast_add, cast_integerPhase q hsize, cast_integerPhase q hx.mask.size_eq]
  linear_combination hcast

theorem exists_addConstant (hx : x.Shaped q n) (c : ℕ) (s : ℕ → ℤ) :
    ∃ r, x.addConstant c = .ok r ∧ r.Shaped q n ∧
      r.integerPhase s ≡ x.integerPhase s + c [ZMOD q.value] := by
  obtain ⟨body, hbody, hlt, hcast⟩ := Modulus.exists_add hx.body_lt (Nat.mod_lt c q.pos)
  refine ⟨{ x with body }, ?_, ⟨hx.modulus_eq, hx.mask, hlt⟩, phase_of_body hx ?_⟩
  · simp [addConstant, hx.check, hbody]
  · rw [hcast, ZMod.natCast_mod, Int.cast_natCast]

theorem shaped_of_addConstant (hx : x.Shaped q n) {c : ℕ} {r : Ciphertext}
    (h : x.addConstant c = .ok r) : r.Shaped q n := by
  obtain ⟨r', hr', hshaped, -⟩ := exists_addConstant hx c fun _ => 0
  obtain rfl : r = r' := Except.ok.inj (h.symm.trans hr')
  exact hshaped

theorem exists_subConstant (hx : x.Shaped q n) (c : ℕ) (s : ℕ → ℤ) :
    ∃ r, x.subConstant c = .ok r ∧ r.Shaped q n ∧
      r.integerPhase s ≡ x.integerPhase s - c [ZMOD q.value] := by
  obtain ⟨body, hbody, hlt, hcast⟩ := Modulus.exists_sub hx.body_lt (Nat.mod_lt c q.pos)
  refine ⟨{ x with body }, ?_, ⟨hx.modulus_eq, hx.mask, hlt⟩, phase_of_body hx ?_⟩
  · simp [subConstant, hx.check, hbody]
  · rw [hcast, ZMod.natCast_mod, Int.cast_neg, Int.cast_natCast, sub_eq_add_neg]

theorem exists_neg (hx : x.Shaped q n) (s : ℕ → ℤ) :
    ∃ r, x.neg = .ok r ∧ r.Shaped q n ∧ r.integerPhase s ≡ -x.integerPhase s [ZMOD q.value] := by
  obtain ⟨mask, hmask, hred, hentries⟩ := Modulus.exists_mapChecked Modulus.exists_neg hx.mask
  obtain ⟨body, hbody, hlt, hcast⟩ := Modulus.exists_neg hx.body_lt
  refine ⟨⟨mask, body, x.modulus⟩, ?_, ⟨hx.modulus_eq, hred, hlt⟩, modEq_of_cast_eq ?_⟩
  · simp [neg, hx.check, hmask, hbody]
  · have hneg (a : ZMod q.value) : -a = -1 * a + 0 * a := by ring
    rw [Int.cast_neg, hneg]
    refine cast_phase_combination hred.size_eq hx hx (fun i hi => ?_) ?_
    · rw [hentries i hi, hneg]
    · rw [hcast, hneg]

theorem exists_scale (hx : x.Shaped q n) (c : ℕ) (s : ℕ → ℤ) :
    ∃ r, x.scale c = .ok r ∧ r.Shaped q n ∧
      r.integerPhase s ≡ c * x.integerPhase s [ZMOD q.value] := by
  have hred : q.Reduced n (x.mask.map (q.mul · (c % q.value))) :=
    Modulus.Reduced.map hx.mask.size_eq fun y _ => Modulus.mul_lt _ _
  refine ⟨⟨x.mask.map (q.mul · (c % q.value)), q.mul x.body (c % q.value), x.modulus⟩, ?_,
    ⟨hx.modulus_eq, hred, Modulus.mul_lt _ _⟩, modEq_of_cast_eq ?_⟩
  · simp [scale, hx.check]
  · have hscale (a : ZMod q.value) : c * a = c * a + 0 * a := by ring
    rw [Int.cast_mul, Int.cast_natCast, hscale]
    refine cast_phase_combination hred.size_eq hx hx (fun i hi => ?_) ?_
    · have hix : i < x.mask.size := hx.mask.size_eq ▸ hi
      rw [Modulus.entries_map hix, Modulus.cast_mul, ZMod.natCast_mod, Modulus.entries_of_lt hix,
        ← hscale, mul_comm]
    · rw [Modulus.cast_mul, ZMod.natCast_mod, ← hscale, mul_comm]

theorem reduce_eq {d : ℕ} (hpos : 0 < d) (hdvd : d ∣ x.modulus) :
    x.reduce d = .ok ⟨x.mask.map (· % d), x.body % d, d⟩ := by
  have hrest : Word.mod x.modulus d = .ok 0 := by
    rw [Word.mod_of_pos hpos, Nat.mod_eq_zero_of_dvd hdvd]
  simp [reduce, hrest]

theorem exists_reduce (hx : x.Shaped q n) {d : Modulus} (hdvd : d.value ∣ q.value) (s : ℕ → ℤ) :
    ∃ r, x.reduce d.value = .ok r ∧ r.Shaped d n ∧
      r.integerPhase s ≡ x.integerPhase s [ZMOD d.value] := by
  have hmask : d.Reduced n (x.mask.map (· % d.value)) :=
    Modulus.Reduced.map hx.mask.size_eq fun y _ => Nat.mod_lt y d.pos
  refine ⟨_, reduce_eq d.pos (hx.modulus_eq ▸ hdvd), ⟨rfl, hmask, Nat.mod_lt _ d.pos⟩,
    modEq_of_cast_eq ?_⟩
  have hsum : ∑ i ∈ range n, d.entries (x.mask.map (· % d.value)) i * (s i : ZMod d.value) =
      ∑ i ∈ range n, d.entries x.mask i * s i := by
    refine sum_congr rfl fun i hi => ?_
    have hix : i < x.mask.size := hx.mask.size_eq ▸ mem_range.1 hi
    rw [Modulus.entries_map hix, ZMod.natCast_mod, Modulus.entries_of_lt hix]
  rw [cast_integerPhase d hmask.size_eq, cast_integerPhase d hx.mask.size_eq, hsum, ZMod.natCast_mod]

theorem shaped_of_reduce {r : Ciphertext} {d : Modulus} (h : x.reduce d.value = .ok r) :
    r.Shaped d r.dimension := by
  obtain ⟨rest, -, h⟩ := Checked.bind_eq_ok.1 h
  obtain ⟨_, -, h⟩ := Checked.bind_eq_ok.1 h
  cases h
  exact ⟨rfl, Modulus.Reduced.map Array.size_map.symm fun y _ => Nat.mod_lt y d.pos, Nat.mod_lt _ d.pos⟩

theorem lift_eq {t : ℕ} (hpos : 0 < x.modulus) (hdvd : x.modulus ∣ t) :
    x.lift t = .ok { x with modulus := t } := by
  have hrest : Word.mod t x.modulus = .ok 0 := by
    rw [Word.mod_of_pos hpos, Nat.mod_eq_zero_of_dvd hdvd]
  simp [lift, hrest]

/-- Read modulo a multiple of the modulus, a ciphertext keeps its integer phase. -/
theorem exists_lift (hx : x.Shaped q n) {t : Modulus} (hdvd : q.value ∣ t.value) :
    ∃ r, x.lift t.value = .ok r ∧ r.Shaped t n ∧ ∀ s, r.integerPhase s = x.integerPhase s := by
  have hle : q.value ≤ t.value := Nat.le_of_dvd t.pos hdvd
  refine ⟨_, lift_eq (hx.modulus_eq ▸ q.pos) (hx.modulus_eq ▸ hdvd),
    ⟨rfl, ⟨hx.mask.size_eq, fun y hy => ?_⟩, ?_⟩, fun s => rfl⟩
  · exact (hx.mask.lt y hy).trans_le hle
  · exact hx.body_lt.trans_le hle

end Ciphertext

end LatticeGates.Lwe
