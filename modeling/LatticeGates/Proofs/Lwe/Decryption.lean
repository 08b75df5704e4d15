import LatticeGates.Proofs.Lwe.Phase
import LatticeGates.Proofs.Modulus.Rounding

/-!
# The phase that decryption reads

Main statement: under a sum of ternary secrets the phase of a ciphertext is computed without a fault, and it
is the integer phase modulo the modulus.
-/

namespace LatticeGates.Lwe

open Finset

namespace Secret

variable {sk : Secret} {secrets : List Secret}

private theorem check_eq_ok {x y : ℤ} (h : Signed.check x = .ok y) : y = x := by
  unfold Signed.check at h
  split at h
  · exact (Except.ok.inj h).symm
  · cases h

private theorem coefficient_of_zip {acc r : Array ℤ} {sk : Secret} (hsize : sk.dimension = acc.size)
    (h : zipInto (fun x y => Signed.check (x + y)) acc sk.coefficients = .ok r) :
    r.size = acc.size ∧ ∀ i, r.getD i 0 = acc.getD i 0 + sk.coefficient i := by
  obtain ⟨hr, hentry⟩ := tabulate_eq_ok h
  refine ⟨hr, fun i => ?_⟩
  by_cases hi : i < acc.size
  · have hsk : i < sk.coefficients.size := by rwa [← hsize] at hi
    have h := hentry i hi
    rw [dif_pos hsk] at h
    rw [coefficient_of_lt hsk, ← Array.getElem_eq_getD (h := hi) 0, ← check_eq_ok h,
      Array.getElem_eq_getD 0]
  · rw [dimension] at hsize
    simp [coefficient, Array.getD_eq_getD_getElem?, hr, hsize, Nat.not_lt.1 hi]

private theorem coefficient_of_sumFrom {acc r : Array ℤ} (h : sumFrom acc secrets = .ok (some r)) :
    (∀ sk ∈ secrets, sk.dimension = r.size) ∧ r.size = acc.size ∧
      ∀ i, r.getD i 0 = acc.getD i 0 + jointCoefficient secrets i := by
  induction secrets generalizing acc with
  | nil =>
    rw [sumFrom, Except.ok.injEq, Option.some.injEq] at h
    subst h
    exact ⟨fun _ hsk => (List.not_mem_nil hsk).elim, rfl, fun i => by simp [jointCoefficient]⟩
  | cons sk rest ih =>
    rw [sumFrom] at h
    split at h
    · rename_i hdim
      obtain ⟨next, hnext, h⟩ := Checked.bind_eq_ok.1 h
      obtain ⟨hsize, hcoefficient⟩ := coefficient_of_zip hdim hnext
      obtain ⟨hrest, hr, hsum⟩ := ih h
      refine ⟨List.forall_mem_cons.2 ⟨by omega, hrest⟩, hr.trans hsize, fun i => ?_⟩
      rw [hsum, hcoefficient, add_assoc]
      rfl
    · cases h

theorem sum_eq_ok (h : sum secrets = .ok (some sk)) :
    (∀ s ∈ secrets, s.dimension = sk.dimension) ∧ sk.coefficient = jointCoefficient secrets := by
  cases secrets with
  | nil => cases h
  | cons first rest =>
    obtain ⟨acc, hacc, h⟩ := Checked.bind_eq_ok.1 h
    cases acc with
    | none => cases h
    | some r =>
      cases h
      obtain ⟨hdim, -, hsum⟩ := coefficient_of_sumFrom hacc
      exact ⟨hdim, funext fun i => (hsum i).trans (add_eq_right.2 (Modulus.getD_replicate _ _ _))⟩

theorem natAbs_jointCoefficient_le (hternary : ∀ s ∈ secrets, s.Ternary) (i : ℕ) :
    (jointCoefficient secrets i).natAbs ≤ secrets.length := by
  induction secrets with
  | nil => exact Nat.le_refl 0
  | cons sk rest ih =>
    obtain ⟨hsk, hrest⟩ := List.forall_mem_cons.1 hternary
    have hhead := hsk.natAbs_le i
    have htail := ih hrest
    rw [jointCoefficient] at htail ⊢
    rw [List.map_cons, List.sum_cons, List.length_cons]
    omega

/-- The inner product with a vector stays in the wide range on the way. -/
def InRange (sk : Secret) (a : Array ℕ) : Prop :=
  ∀ k ≤ a.size, -2 ^ 127 ≤ ∑ i ∈ range k, (a.getD i 0 : ℤ) * sk.coefficient i ∧
    ∑ i ∈ range k, (a.getD i 0 : ℤ) * sk.coefficient i < 2 ^ 127

variable {q : Modulus} {a : Array ℕ}

/-- The inner product is the one over the integers, reduced, unless it leaves the wide range on the way. -/
theorem dot_ends (q : Modulus) (hdim : a.size = sk.dimension) :
    (sk.dot q a).Ends (· = q.ofInt (∑ i ∈ range sk.dimension, a.getD i 0 * sk.coefficient i))
      (fun e => e = .overflow ∧ ¬sk.InRange a) := by
  have hsize : a.size = sk.coefficients.size := hdim
  have loop : (a.size.foldM (fun i h acc => Signed.checkWide (acc + a[i] * sk.coefficients[i])) 0).Ends
      (· = ∑ i ∈ range a.size, (a.getD i 0 : ℤ) * sk.coefficient i)
      (fun e => e = .overflow ∧ ¬sk.InRange a) := by
    refine foldM_ends (fun n acc => acc = ∑ i ∈ range n, (a.getD i 0 : ℤ) * sk.coefficient i)
      (by simp) ?_
    rintro i hi acc rfl
    have hentry : (a[i] : ℤ) * sk.coefficients[i] = a.getD i 0 * sk.coefficient i := by
      rw [coefficient_of_lt (hsize ▸ hi), Array.getElem_eq_getD 0]
    rw [hentry, ← sum_range_succ, Signed.checkWide]
    split
    · exact .inl ⟨_, rfl, rfl⟩
    · rename_i hout
      exact .inr ⟨_, rfl, rfl, fun h => hout (by simpa using h (i + 1) hi)⟩
  rw [dot, dif_pos hsize]
  refine loop.bind ?_
  rintro _ rfl
  exact .inl ⟨_, rfl, by rw [hdim]⟩

theorem InRange.dot_eq (h : sk.InRange a) (hdim : a.size = sk.dimension) :
    sk.dot q a =
      .ok (q.ofInt (∑ i ∈ range sk.dimension, a.getD i 0 * sk.coefficient i)) := by
  obtain ⟨d, hd, rfl⟩ | ⟨e, -, -, hout⟩ := dot_ends q hdim
  · exact hd
  · exact (hout h).elim

theorem dot_eq_ok {d : ℕ} (h : sk.dot q a = .ok d) :
    d = q.ofInt (∑ i ∈ range sk.dimension, a.getD i 0 * sk.coefficient i) := by
  have hdim : a.size = sk.dimension := by
    unfold dot at h
    split at h
    · assumption
    · cases h
  exact (dot_ends q hdim).value_of_eq_ok h

theorem inRange_of_dot {d : ℕ} (h : sk.dot q a = .ok d) : sk.InRange a := by
  unfold dot at h
  split at h
  · rename_i hsize
    obtain ⟨total, hloop, -⟩ := Checked.bind_eq_ok.1 h
    -- The sums up to the one that is reached have been checked.
    refine (foldM_eq_ok (fun n acc => acc = ∑ i ∈ range n, (a.getD i 0 : ℤ) * sk.coefficient i ∧
      ∀ k ≤ n, -2 ^ 127 ≤ ∑ i ∈ range k, (a.getD i 0 : ℤ) * sk.coefficient i ∧
        ∑ i ∈ range k, (a.getD i 0 : ℤ) * sk.coefficient i < 2 ^ 127) ⟨rfl, ?_⟩ ?_ hloop).2
    · intro k hk
      simp [Nat.le_zero.1 hk]
    · rintro i hi acc next ⟨rfl, hchecked⟩ hnext
      rw [Array.getElem_eq_getD 0, ← coefficient_of_lt (hsize ▸ hi), ← sum_range_succ,
        Signed.checkWide] at hnext
      split at hnext
      · rename_i hin
        refine ⟨(Except.ok.inj hnext).symm, fun k hk => ?_⟩
        obtain hk | rfl := Nat.lt_succ_iff_lt_or_eq.1 (Nat.lt_succ_of_le hk)
        · exact hchecked k (Nat.le_of_lt_succ hk)
        · simpa using hin
      · cases hnext
  · cases h

theorem inRange_of_natAbs_le {bound : ℕ} (ha : q.Reduced sk.dimension a)
    (hbound : ∀ i, (sk.coefficient i).natAbs ≤ bound) (hfits : bound * sk.dimension < 2 ^ 60) :
    sk.InRange a := by
  intro k hk
  have hterm (i : ℕ) : ((a.getD i 0 : ℤ) * sk.coefficient i).natAbs ≤ 2 ^ 62 * bound := by
    rw [Int.natAbs_mul, Int.natAbs_natCast]
    exact Nat.mul_le_mul ((ha.getD_lt i).trans q.lt_bound).le (hbound i)
  have hsum : (∑ i ∈ range k, (a.getD i 0 : ℤ) * sk.coefficient i).natAbs ≤ 2 ^ 122 := by
    calc (∑ i ∈ range k, (a.getD i 0 : ℤ) * sk.coefficient i).natAbs
        ≤ ∑ i ∈ range k, ((a.getD i 0 : ℤ) * sk.coefficient i).natAbs := Int.natAbs_sum_le _ _
      _ ≤ ∑ i ∈ range k, 2 ^ 62 * bound := sum_le_sum fun i _ => hterm i
      _ = k * (2 ^ 62 * bound) := by rw [sum_const, card_range, smul_eq_mul]
      _ ≤ sk.dimension * (2 ^ 62 * bound) := Nat.mul_le_mul_right _ (by rwa [ha.size_eq] at hk)
      _ = 2 ^ 62 * (bound * sk.dimension) := by ring
      _ ≤ 2 ^ 62 * 2 ^ 60 := Nat.mul_le_mul_left _ hfits.le
      _ = 2 ^ 122 := by norm_num
  omega

end Secret

namespace Ciphertext

variable {q : Modulus} {ct : Ciphertext} {sk : Secret}

private theorem Shaped.sub_dot (h : ct.Shaped q sk.dimension) :
    q.sub ct.body (q.ofInt (∑ i ∈ range sk.dimension, ct.mask.getD i 0 * sk.coefficient i)) =
      .ok (ct.residuePhase sk.coefficient) := by
  obtain ⟨φ, hφ, hlt, hcast⟩ := Modulus.exists_sub h.body_lt
    (Modulus.ofInt_lt (q := q) (∑ i ∈ range sk.dimension, ct.mask.getD i 0 * sk.coefficient i))
  have hmod := h.residue_modEq sk.coefficient
  rw [← ZMod.intCast_eq_intCast_iff, Int.cast_natCast] at hmod
  rw [hφ]
  congr 1
  refine Modulus.eq_of_cast_eq hlt (h.residue_lt _) ?_
  rw [hmod, hcast, Modulus.cast_ofInt, cast_integerPhase q h.mask.size_eq]
  push_cast
  rfl

/-- The phase is the integer phase modulo the modulus, unless the inner product leaves the wide range. -/
theorem Shaped.phase_ends (h : ct.Shaped q sk.dimension) :
    (ct.phase sk).Ends (· = ct.residuePhase sk.coefficient)
      (fun e => e = .overflow ∧ ¬sk.InRange ct.mask) := by
  have hdim : (ct.dimension == sk.dimension) = true := beq_iff_eq.2 h.mask.size_eq
  rw [phase, hdim, ensure_true, Checked.ok_bind, h.check, Checked.ok_bind]
  refine (Secret.dot_ends q h.mask.size_eq).bind ?_
  rintro _ rfl
  exact .inl ⟨_, h.sub_dot, rfl⟩

theorem Shaped.phase_of_inRange (h : ct.Shaped q sk.dimension) (hrange : sk.InRange ct.mask) :
    ct.phase sk = .ok (ct.residuePhase sk.coefficient) := by
  obtain ⟨_, hφ, rfl⟩ | ⟨_, -, -, hout⟩ := h.phase_ends
  · exact hφ
  · exact (hout hrange).elim

theorem Shaped.phase_eq_ok (h : ct.Shaped q sk.dimension) {φ : ℕ} (hφ : ct.phase sk = .ok φ) :
    φ = ct.residuePhase sk.coefficient :=
  h.phase_ends.value_of_eq_ok hφ

theorem Shaped.modEq_of_phase (h : ct.Shaped q sk.dimension) {φ : ℕ} (hφ : ct.phase sk = .ok φ) :
    ct.integerPhase sk.coefficient ≡ φ [ZMOD q.value] := by
  rw [h.phase_eq_ok hφ]
  exact (h.residue_modEq _).symm

theorem inRange_of_phase {φ : ℕ} (hφ : ct.phase sk = .ok φ) : sk.InRange ct.mask := by
  obtain ⟨_, -, hφ⟩ := Checked.bind_eq_ok.1 hφ
  obtain ⟨_, -, hφ⟩ := Checked.bind_eq_ok.1 hφ
  obtain ⟨_, hdot, -⟩ := Checked.bind_eq_ok.1 hφ
  exact Secret.inRange_of_dot hdot

theorem Shaped.phase_eq {bound : ℕ} (h : ct.Shaped q sk.dimension)
    (hbound : ∀ i, (sk.coefficient i).natAbs ≤ bound) (hfits : bound * sk.dimension < 2 ^ 60) :
    ct.phase sk = .ok (ct.residuePhase sk.coefficient) :=
  h.phase_of_inRange (Secret.inRange_of_natAbs_le h.mask hbound hfits)

theorem encode_of_pos {m p t : ℕ} (hp : 0 < p) (ht : 0 < t) :
    encode m p t = .ok (Modulus.round (m % p) p t) := by
  rw [encode, Word.mod_of_pos hp, Checked.ok_bind, Modulus.rescale_of_pos hp ht]

private theorem round_eq {w p d φ : ℕ} {e : ℤ} (hd : d < p) (he : 2 * |e| < w)
    (h : φ ≡ w * d + e [ZMOD (w * p : ℕ)]) : Modulus.round φ (w * p) p = d := by
  have hp : (0 : ℤ) < p := by omega
  obtain ⟨k, hk⟩ := h.dvd
  refine Modulus.round_of_near (δ := e * p) (k := -k) hd ?_ ?_
  · rw [abs_mul, Nat.abs_cast, ← mul_assoc, Nat.cast_mul]
    exact mul_lt_mul_of_pos_right he hp
  · push_cast at hk ⊢
    linear_combination -(p : ℤ) * hk

theorem Shaped.decrypt_eq {w p d : ℕ} {e : ℤ} (h : ct.Shaped q sk.dimension)
    (hphase : ct.phase sk = .ok (ct.residuePhase sk.coefficient)) (hq : q.value = w * p) (hd : d < p)
    (he : 2 * |e| < w) (hmod : ct.integerPhase sk.coefficient ≡ w * d + e [ZMOD q.value]) :
    ct.decrypt sk p = .ok d := by
  have hread := (h.residue_modEq sk.coefficient).trans hmod
  rw [hq] at hread
  have hpos : 0 < ct.modulus := h.modulus_eq ▸ q.pos
  rw [decrypt, hphase, Checked.ok_bind, Modulus.rescale_of_pos hpos (by omega), h.modulus_eq, hq,
    round_eq hd he hread]

/-- A ciphertext whose phase encodes a message up to an error: the phase is computed, and decrypted to the
message when the error is zero or small. -/
theorem Shaped.decrypt_of_encoding {m p : ℕ} {e : ℤ} (h : ct.Shaped q sk.dimension)
    (hrange : sk.InRange ct.mask) (hp : 0 < p)
    (hmod : ct.integerPhase sk.coefficient ≡ Modulus.round (m % p) p q.value + e [ZMOD q.value]) :
    ct.phase sk = .ok (q.ofInt (Modulus.round (m % p) p q.value + e)) ∧
      (e = 0 ∧ p ≤ q.value ∨ p * (2 * |e| + 1) < q.value → ct.decrypt sk p = .ok (m % p)) := by
  have hphase := h.phase_of_inRange hrange
  refine ⟨by rw [hphase, h.residue_eq_ofInt hmod], fun he => ?_⟩
  rw [decrypt, hphase, Checked.ok_bind, h.modulus_eq, Modulus.rescale_of_pos q.pos hp,
    Modulus.round_of_encoding (Nat.mod_lt m hp) he ((h.residue_modEq sk.coefficient).trans hmod)]

theorem dimension_of_phase {ct : Ciphertext} {φ : ℕ} (h : ct.phase sk = .ok φ) :
    ct.dimension = sk.dimension := by
  obtain ⟨_, hdim, -⟩ := Checked.bind_eq_ok.1 h
  exact beq_iff_eq.1 (ensure_eq_ok.1 hdim)

theorem wellFormed_of_switchModulus {ct r : Ciphertext} {t : ℕ} (h : ct.switchModulus t = .ok r) :
    r.modulus = t ∧ r.WellFormed := by
  have hlt : ∀ {a b}, Modulus.rescale a ct.modulus t = .ok b → b < t := by
    intro a b h
    rw [Modulus.rescale] at h
    split at h
    · cases h
    · cases h
      exact Nat.mod_lt _ (by omega)
  obtain ⟨mask, hmask, h⟩ := Checked.bind_eq_ok.1 h
  obtain ⟨body, hbody, h⟩ := Checked.bind_eq_ok.1 h
  cases h
  obtain ⟨hsize, hentry⟩ := tabulate_eq_ok hmask
  refine ⟨rfl, fun x hx => ?_, hlt hbody⟩
  obtain ⟨i, hi, rfl⟩ := Array.mem_iff_getElem.1 hx
  exact hlt (hentry i (hsize ▸ hi))

end Ciphertext

end LatticeGates.Lwe
