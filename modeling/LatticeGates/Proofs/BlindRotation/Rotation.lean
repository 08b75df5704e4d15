import LatticeGates.BlindRotation.Rotate
import LatticeGates.Proofs.Gadget.ExternalProduct
import LatticeGates.Proofs.Lwe.Phase
import LatticeGates.Proofs.Ring.Monomial

/-!
# Blind rotation

Main statement: blind rotation multiplies the table by the power of `X` whose exponent is minus the scaled
phase, up to the errors of the external products. Every coordinate of every block turns the accumulator by
the mask entry times the coefficient of the secret, whatever was accumulated before.
-/

namespace LatticeGates.BlindRotation

open Finset Modulus Negacyclic

variable {ring : NegacyclicRing} {g : Gadget} {z table : ring.Element} {bound : ℕ}

/-- A pair of encryptions of the two parts of a ternary coefficient. -/
structure Pair.Encrypts (ring : NegacyclicRing) (g : Gadget) (z : ring.Element) (bound : ℕ) (s : ℤ)
    (pair : Pair) : Prop where
  plus : Rgsw.Encrypts ring g z bound (ternarySplit s).1 pair.plus
  minus : Rgsw.Encrypts ring g z bound (ternarySplit s).2 pair.minus

/-- The phase of the accumulator is the table times a power of `X`, up to a small error. -/
structure Accumulates (ring : NegacyclicRing) (z table : ring.Element) (error : ℕ) (k : ℤ)
    (acc : Rlwe.Ciphertext) : Prop where
  reduced : acc.Reduced ring
  small : Small error (acc.phaseElement ring z - monomial k * table)

def stepError (ring : NegacyclicRing) (g : Gadget) (bound : ℕ) : ℕ :=
  4 * (g.digits * (ring.degree * (g.base * bound)))

private theorem turn_eq {n q : ℕ} {s : ℤ} (hs : s.natAbs ≤ 1) (a : ℤ) :
    1 + (monomial a - 1) * ((ternarySplit s).1 : Negacyclic n q) +
      (monomial (-a) - 1) * ((ternarySplit s).2 : Negacyclic n q) = monomial (a * s) := by
  obtain rfl | rfl | rfl : s = 1 ∨ s = -1 ∨ s = 0 := by omega
  all_goals simp [ternarySplit]

private theorem x_pow_back {a : ℕ} (ha : a ≤ 2 * ring.degree) :
    (x ^ (2 * ring.degree - a) : ring.Element) = monomial (-a) := by
  rw [← monomial_natCast]
  apply monomial_congr
  rw [Nat.cast_sub ha, Int.modEq_iff_dvd]
  exact ⟨-1, by ring⟩

/-- One coordinate turns the phase by its mask entry times its coefficient. -/
theorem exists_rotateStep (hr : ring.Valid) (hg : g.Valid) (hm : g.modulus = ring.modulus) {s : ℤ}
    (hs : s.natAbs ≤ 1) {pair : Pair} (hpair : pair.Encrypts ring g z bound s) {a : ℕ}
    (ha : a ≤ 2 * ring.degree) {acc : Rlwe.Ciphertext} (hacc : acc.Reduced ring) :
    ∃ acc', rotateStep ring g pair a acc = .ok acc' ∧ acc'.Reduced ring ∧
      Small (stepError ring g bound)
        (acc'.phaseElement ring z - monomial (a * s) * acc.phaseElement ring z) := by
  obtain ⟨maskDigits, hmd, hmsize, u, hu, hmask⟩ := Rgsw.exists_digitValues hr hg hm hacc.mask
  obtain ⟨bodyDigits, hbd, hbsize, v, hv, hbody⟩ := Rgsw.exists_digitValues hr hg hm hacc.body
  obtain ⟨plus, hplus, plusMask, plusBody, hplusMask, hplusBody, hplusSmall⟩ :=
    hpair.plus.exists_combine hr hg hmsize hbsize hu hv hmask hbody
  obtain ⟨minus, hminus, minusMask, minusBody, hminusMask, hminusBody, hminusSmall⟩ :=
    hpair.minus.exists_combine hr hg hmsize hbsize hu hv hmask hbody
  obtain ⟨pm, hpm, hpm_red, hpm_eq⟩ := hplusMask.backward
  obtain ⟨pb, hpb, hpb_red, hpb_eq⟩ := hplusBody.backward
  obtain ⟨mm, hmm, hmm_red, hmm_eq⟩ := hminusMask.backward
  obtain ⟨mb, hmb, hmb_red, hmb_eq⟩ := hminusBody.backward
  obtain ⟨mask₁, hmask₁, hmask₁_red, hmask₁_eq⟩ :=
    NegacyclicRing.exists_addMonomialMinusOne hacc.mask hpm_red a
  obtain ⟨mask₂, hmask₂, hmask₂_red, hmask₂_eq⟩ :=
    NegacyclicRing.exists_addMonomialMinusOne hmask₁_red hmm_red (2 * ring.degree - a)
  obtain ⟨body₁, hbody₁, hbody₁_red, hbody₁_eq⟩ :=
    NegacyclicRing.exists_addMonomialMinusOne hacc.body hpb_red a
  obtain ⟨body₂, hbody₂, hbody₂_red, hbody₂_eq⟩ :=
    NegacyclicRing.exists_addMonomialMinusOne hbody₁_red hmb_red (2 * ring.degree - a)
  refine ⟨⟨mask₂, body₂⟩, ?_, ⟨hmask₂_red, hbody₂_red⟩, ?_⟩
  · simp [rotateStep, hmd, hbd, hplus, hminus, hpm, hpb, hmm, hmb, hmask₁, hmask₂, hbody₁, hbody₂]
  have hphase : Rlwe.Ciphertext.phaseElement ring z ⟨mask₂, body₂⟩ -
      monomial (a * s) * acc.phaseElement ring z =
      (monomial a * (plusBody - plusMask * z -
          ((ternarySplit s).1 : ring.Element) * acc.phaseElement ring z) -
        (plusBody - plusMask * z -
          ((ternarySplit s).1 : ring.Element) * acc.phaseElement ring z)) +
      (monomial (-a) * (minusBody - minusMask * z -
          ((ternarySplit s).2 : ring.Element) * acc.phaseElement ring z) -
        (minusBody - minusMask * z -
          ((ternarySplit s).2 : ring.Element) * acc.phaseElement ring z)) := by
    rw [← turn_eq hs, Rlwe.Ciphertext.phaseElement, hmask₂_eq, hmask₁_eq, hbody₂_eq, hbody₁_eq,
      hpm_eq, hpb_eq, hmm_eq, hmb_eq, x_pow_back ha, ← monomial_natCast, Rlwe.Ciphertext.phaseElement]
    ring
  rw [hphase]
  refine (((hplusSmall.monomial_mul a).sub hplusSmall).add
    ((hminusSmall.monomial_mul (-a)).sub hminusSmall)).mono (le_of_eq ?_)
  rw [stepError]
  ring

theorem Accumulates.turn {error extra : ℕ} {k j : ℤ} {acc acc' : Rlwe.Ciphertext}
    (hacc : Accumulates ring z table error k acc) (hred : acc'.Reduced ring)
    (hsmall : Small extra (acc'.phaseElement ring z - monomial j * acc.phaseElement ring z)) :
    Accumulates ring z table (error + extra) (k + j) acc' := by
  refine ⟨hred, ?_⟩
  have hsplit : acc'.phaseElement ring z - monomial (k + j) * table =
      monomial j * (acc.phaseElement ring z - monomial k * table) +
        (acc'.phaseElement ring z - monomial j * acc.phaseElement ring z) := by
    rw [monomial_add]
    ring
  rw [hsplit]
  exact (hacc.small.monomial_mul j).add hsmall

theorem Accumulates.congr {error error' : ℕ} {k j : ℤ} {acc : Rlwe.Ciphertext}
    (hacc : Accumulates ring z table error k acc) (herror : error ≤ error')
    (h : k ≡ j [ZMOD (2 * ring.degree : ℕ)]) : Accumulates ring z table error' j acc :=
  ⟨hacc.reduced, monomial_congr (n := ring.degree) h ▸ hacc.small.mono herror⟩

/-- A phase that is scaled to `2 N` counts modulo the modulus only. -/
theorem Accumulates.scaled_congr {error m : ℕ} {φ ψ : ℤ} {acc : Rlwe.Ciphertext}
    (hacc : Accumulates ring z table error (-(φ * (2 * ring.degree / m : ℕ))) acc)
    (hdvd : m ∣ 2 * ring.degree) (h : ψ ≡ φ [ZMOD m]) :
    Accumulates ring z table error (-(ψ * (2 * ring.degree / m : ℕ))) acc := by
  have hturn := (h.mul_right' (c := (2 * ring.degree / m : ℕ))).neg.symm
  rw [← Nat.cast_mul, Nat.mul_div_cancel' hdvd] at hturn
  exact hacc.congr le_rfl hturn

/-- A block of pairs for the coefficients of a secret. -/
structure BlockEncrypts (ring : NegacyclicRing) (g : Gadget) (z : ring.Element) (bound : ℕ)
    (sk : Lwe.Secret) (block : Array Pair) : Prop where
  size_eq : block.size = sk.dimension
  ternary : sk.Ternary
  pair : ∀ (i : ℕ) (hi : i < block.size), block[i].Encrypts ring g z bound (sk.coefficient i)

theorem BlockEncrypts.exists_rotateBlock (hr : ring.Valid) (hg : g.Valid)
    (hm : g.modulus = ring.modulus) {sk : Lwe.Secret} {block : Array Pair}
    (hblock : BlockEncrypts ring g z bound sk block) {factor : ℕ} {mask : Array ℕ}
    (hsize : mask.size = sk.dimension) (hword : ∀ x ∈ mask, x * factor < Word.bound) {error : ℕ}
    {k : ℤ} {acc : Rlwe.Ciphertext} (hacc : Accumulates ring z table error k acc) :
    ∃ acc', rotateBlock ring g factor mask block acc = .ok acc' ∧
      Accumulates ring z table (error + sk.dimension * stepError ring g bound)
        (k + ∑ i ∈ range sk.dimension, (mask.getD i 0 * factor : ℕ) * sk.coefficient i) acc' := by
  have hmin : min block.size mask.size = sk.dimension := by rw [hblock.size_eq, hsize, min_self]
  obtain ⟨acc', hacc', h⟩ : ∃ acc', rotateBlock ring g factor mask block acc = .ok acc' ∧
      Accumulates ring z table (error + min block.size mask.size * stepError ring g bound)
        (k + ∑ i ∈ range (min block.size mask.size),
          (mask.getD i 0 * factor : ℕ) * sk.coefficient i) acc' := by
    refine foldM_ok (fun n acc => Accumulates ring z table (error + n * stepError ring g bound)
      (k + ∑ i ∈ range n, (mask.getD i 0 * factor : ℕ) * sk.coefficient i) acc)
      (by simpa using hacc) ?_
    intro i hi acc hacc
    have him : i < mask.size := by omega
    have hget : mask[i] = mask.getD i 0 := Array.getElem_eq_getD _
    have hmul := Word.mul_of_lt (hword _ (Array.getElem_mem him))
    have hmod : ((mask.getD i 0 * factor % (2 * ring.degree) : ℕ) : ℤ) * sk.coefficient i ≡
        (mask.getD i 0 * factor : ℕ) * sk.coefficient i [ZMOD (2 * ring.degree : ℕ)] := by
      rw [Int.natCast_mod]
      exact (Int.mod_modEq _ _).mul_right _
    simp only [hmul, Checked.ok_bind, sum_range_succ, ← add_assoc, add_one_mul i]
    rw [hget]
    by_cases hzero : mask.getD i 0 * factor % (2 * ring.degree) = 0
    · refine ⟨acc, if_pos hzero, hacc.congr (Nat.le_add_right _ _) ?_⟩
      rw [hzero, Nat.cast_zero, zero_mul] at hmod
      simpa using hmod.add_left (k + ∑ i ∈ range i, (mask.getD i 0 * factor : ℕ) * sk.coefficient i)
    · have hpos : 0 < ring.degree := NeZero.pos _
      obtain ⟨acc', hacc', hred, hsmall⟩ := exists_rotateStep hr hg hm (hblock.ternary.natAbs_le i)
        (hblock.pair i (by omega)) (Nat.mod_lt _ (by omega)).le hacc.reduced
      refine ⟨acc', ?_, (hacc.turn hred hsmall).congr le_rfl (hmod.add_left _)⟩
      rw [if_neg hzero]
      exact hacc'
  rw [hmin] at h
  exact ⟨acc', hacc', h⟩

/-- A rotation key with one block for each secret of a group. -/
structure Key.Encrypts (ring : NegacyclicRing) (z : ring.Element) (bound : ℕ)
    (secrets : List Lwe.Secret) (key : Key) : Prop where
  size_eq : key.blocks.size = secrets.length
  dimension_eq : ∀ sk ∈ secrets, sk.dimension = key.dimension
  block : ∀ (k : ℕ) (hs : k < secrets.length) (hk : k < key.blocks.size),
    BlockEncrypts ring key.gadget z bound secrets[k] key.blocks[k]

section Rotate

variable {key : Key} {secrets : List Lwe.Secret} {ct : Lwe.Ciphertext} {tab : Table}

private theorem accumulates_start {b : ℕ} (hb : b < 2 * ring.degree)
    (htable : ring.modulus.Reduced ring.degree tab.data) :
    ∃ body, ring.rotateInto ring.zero tab.data ((2 * ring.degree - b) % (2 * ring.degree)) = .ok body ∧
      Accumulates ring z (ring.element tab.data) 0 (-b) ⟨ring.zero, body⟩ := by
  obtain ⟨body, hrotate, hred, hbody⟩ := NegacyclicRing.exists_rotateInto htable
    ((2 * ring.degree - b) % (2 * ring.degree))
  have hback : (x ^ ((2 * ring.degree - b) % (2 * ring.degree)) : ring.Element) = monomial (-b) := by
    rw [x_pow_mod, x_pow_back hb.le]
  refine ⟨body, hrotate, ⟨NegacyclicRing.reduced_zero, hred⟩, ?_⟩
  rw [Rlwe.Ciphertext.phaseElement, hbody, hback, NegacyclicRing.element_zero]
  simpa using Small.zero

theorem Key.Encrypts.exists_rotateBlocks (hr : ring.Valid) (hg : key.gadget.Valid)
    (hm : key.gadget.modulus = ring.modulus) (hkey : key.Encrypts ring z bound secrets) {factor : ℕ}
    {mask : Array ℕ} (hsize : mask.size = key.dimension) (hword : ∀ y ∈ mask, y * factor < Word.bound)
    {j : ℤ} {start : Rlwe.Ciphertext} (hstart : Accumulates ring z table 0 j start) :
    ∃ acc, key.blocks.size.foldM (fun k _ acc =>
        rotateBlock ring key.gadget factor mask key.blocks[k] acc) start = .ok acc ∧
      Accumulates ring z table (secrets.length * (key.dimension * stepError ring key.gadget bound))
        (j + ∑ i ∈ range key.dimension, (mask.getD i 0 * factor : ℕ) *
          Lwe.Secret.jointCoefficient secrets i) acc := by
  obtain ⟨acc, hacc, h⟩ : ∃ acc, key.blocks.size.foldM (fun k _ acc =>
        rotateBlock ring key.gadget factor mask key.blocks[k] acc) start = .ok acc ∧
      Accumulates ring z table (key.blocks.size * (key.dimension * stepError ring key.gadget bound))
        (j + ∑ i ∈ range key.dimension, (mask.getD i 0 * factor : ℕ) *
          Lwe.Secret.jointCoefficient (secrets.take key.blocks.size) i) acc := by
    refine foldM_ok (fun k acc => Accumulates ring z table
      (k * (key.dimension * stepError ring key.gadget bound))
      (j + ∑ i ∈ range key.dimension, (mask.getD i 0 * factor : ℕ) *
        Lwe.Secret.jointCoefficient (secrets.take k) i) acc) ?_ ?_
    · simpa [Lwe.Secret.jointCoefficient] using hstart
    · intro k hk acc hacc
      have hks : k < secrets.length := hkey.size_eq ▸ hk
      have hkdim := hkey.dimension_eq _ (List.getElem_mem hks)
      obtain ⟨acc', hacc', h⟩ := (hkey.block k hks hk).exists_rotateBlock hr hg hm
        (hsize.trans hkdim.symm) hword hacc
      refine ⟨acc', hacc', ?_⟩
      simpa only [hkdim, Lwe.Secret.jointCoefficient_take_succ hks, mul_add, sum_add_distrib,
        add_assoc, add_one_mul k] using h
  rw [hkey.size_eq, List.take_length] at h
  exact ⟨acc, hacc, h⟩

theorem scaled_lt {m y : ℕ} (hdvd : m ∣ 2 * ring.degree) (hy : y < m) :
    y * (2 * ring.degree / m) < 2 * ring.degree := by
  have hpos : 0 < 2 * ring.degree := by
    have := NeZero.pos ring.degree
    omega
  have hfactor : 0 < 2 * ring.degree / m :=
    Nat.div_pos (Nat.le_of_dvd hpos hdvd) (Nat.zero_lt_of_lt hy)
  calc y * (2 * ring.degree / m) < m * (2 * ring.degree / m) :=
        Nat.mul_lt_mul_of_pos_right hy hfactor
    _ = 2 * ring.degree := Nat.mul_div_cancel' hdvd

private theorem rotate_eq_bind (hword : 2 * ring.degree < Word.bound) (hct : ct.WellFormed)
    (hsize : ct.dimension = key.dimension) (hdomain : tab.domain = ct.modulus)
    (hdvd : ct.modulus ∣ 2 * ring.degree) {body : Poly}
    (hbody : ring.rotateInto ring.zero tab.data
      ((2 * ring.degree - ct.body * (2 * ring.degree / ct.modulus)) % (2 * ring.degree)) = .ok body) :
    rotate ring key tab ct = (ensure (key.dimension != 0) .divisionByZero >>= fun _ =>
      key.blocks.size.foldM (fun k _ acc =>
        rotateBlock ring key.gadget (2 * ring.degree / ct.modulus) ct.mask key.blocks[k] acc)
          ⟨ring.zero, body⟩) := by
  have hscaled := scaled_lt hdvd hct.2
  have hrest : Word.mod (2 * ring.degree) ct.modulus = .ok 0 := by
    rw [Word.mod_of_pos (Nat.zero_lt_of_lt hct.2), Nat.mod_eq_zero_of_dvd hdvd]
  simp only [rotate, hsize, hdomain, hrest, Word.mul_of_lt (hscaled.trans hword),
    Nat.mod_eq_of_lt hscaled, hbody, beq_self_eq_true, Bool.and_self, ensure_true, Checked.ok_bind]

theorem rotate_eq (hword : 2 * ring.degree < Word.bound) (hdim : key.dimension ≠ 0)
    (hct : ct.WellFormed) (hsize : ct.dimension = key.dimension) (hdomain : tab.domain = ct.modulus)
    (hdvd : ct.modulus ∣ 2 * ring.degree) {body : Poly}
    (hbody : ring.rotateInto ring.zero tab.data
      ((2 * ring.degree - ct.body * (2 * ring.degree / ct.modulus)) % (2 * ring.degree)) = .ok body) :
    rotate ring key tab ct = key.blocks.size.foldM (fun k _ acc =>
      rotateBlock ring key.gadget (2 * ring.degree / ct.modulus) ct.mask key.blocks[k] acc)
        ⟨ring.zero, body⟩ := by
  have hne : (key.dimension != 0) = true := bne_iff_ne.2 hdim
  rw [rotate_eq_bind hword hct hsize hdomain hdvd hbody, hne, ensure_true, Checked.ok_bind]

theorem rotate_of_dimension_zero (hword : 2 * ring.degree < Word.bound) (hdim : key.dimension = 0)
    (htable : ring.modulus.Reduced ring.degree tab.data) (hct : ct.WellFormed)
    (hsize : ct.dimension = key.dimension) (hdomain : tab.domain = ct.modulus)
    (hdvd : ct.modulus ∣ 2 * ring.degree) : rotate ring key tab ct = .error .divisionByZero := by
  obtain ⟨body, hbody, -, -⟩ := NegacyclicRing.exists_rotateInto htable
    ((2 * ring.degree - ct.body * (2 * ring.degree / ct.modulus)) % (2 * ring.degree))
  rw [rotate_eq_bind hword hct hsize hdomain hdvd hbody, hdim]
  rfl

/-- Blind rotation turns the table back by the phase under the sum of the secrets. -/
theorem Key.Encrypts.exists_rotate (hr : ring.Valid) (hword : 2 * ring.degree < Word.bound)
    (hg : key.gadget.Valid) (hm : key.gadget.modulus = ring.modulus)
    (hkey : key.Encrypts ring z bound secrets) (hdim : key.dimension ≠ 0)
    (htable : ring.modulus.Reduced ring.degree tab.data) (hct : ct.WellFormed)
    (hsize : ct.dimension = key.dimension) (hdomain : tab.domain = ct.modulus)
    (hdvd : ct.modulus ∣ 2 * ring.degree) :
    ∃ acc, rotate ring key tab ct = .ok acc ∧
      Accumulates ring z (ring.element tab.data)
        (secrets.length * (key.dimension * stepError ring key.gadget bound))
        (-(ct.integerPhase (Lwe.Secret.jointCoefficient secrets) *
          (2 * ring.degree / ct.modulus : ℕ))) acc := by
  obtain ⟨body, hbody, hstart⟩ := accumulates_start (z := z) (scaled_lt hdvd hct.2) htable
  obtain ⟨acc, hacc, h⟩ := hkey.exists_rotateBlocks hr hg hm hsize
    (fun y hy => (scaled_lt hdvd (hct.1 y hy)).trans hword) hstart
  refine ⟨acc, by rw [rotate_eq hword hdim hct hsize hdomain hdvd hbody, hacc],
    h.congr le_rfl (congrArg (· % _) ?_)⟩
  rw [Lwe.Ciphertext.integerPhase, ← hsize, Lwe.Ciphertext.dimension, sub_mul, sum_mul, neg_sub,
    sub_eq_neg_add]
  push_cast
  congr 1
  apply sum_congr rfl
  intro i _
  ring

/-- Blind rotation multiplies the table by `X ^ -(φ * 2 N / m)`, where `φ` is the phase under the sum of
the secrets: every coordinate of every block adds to the error what its two external products add. -/
theorem rotate_phase {n q k : ℕ} {large : Lwe.Secret} {sk : Rlwe.Secret} {φ : ℤ} (hq : q.Prime)
    (hring : NegacyclicRing.check n q = .ok ring) (hgadget : Gadget.check q k = .ok key.gadget)
    (hcapacity : q / 2 ≤ (key.gadget.base / 2 - 1) * (key.gadget.base ^ key.gadget.digits - 1) /
      (key.gadget.base - 1))
    (hsk : Rlwe.Secret.ofLwe ring large = .ok sk)
    (hkey : key.Encrypts ring (sk.element ring) bound secrets) (hdim : 1 ≤ key.dimension)
    (htable : ring.modulus.Reduced n tab.data) (hdomain : tab.domain = ct.modulus)
    (hct : ct.WellFormed) (hsize : ct.dimension = key.dimension) (hdvd : ct.modulus ∣ 2 * n)
    (hφ : φ ≡ ct.integerPhase (Lwe.Secret.jointCoefficient secrets) [ZMOD ct.modulus]) :
    ∃ acc p, rotate ring key tab ct = .ok acc ∧ acc.phase ring sk = .ok p ∧
      ring.modulus.Reduced n p ∧
      Small (4 * secrets.length * key.dimension * key.gadget.digits * n * key.gadget.base * bound)
        (ring.element p - monomial (-(φ * (2 * n / ct.modulus : ℕ))) * ring.element tab.data) := by
  obtain ⟨hr, rfl, rfl, -⟩ := NegacyclicRing.check_valid hq hring
  obtain ⟨hg, hvalue⟩ := Gadget.check_valid hgadget hcapacity
  have hm : key.gadget.modulus = ring.modulus := Modulus.value_injective hvalue
  have hword := NegacyclicRing.two_mul_degree_lt hring
  obtain ⟨acc, hacc, h⟩ := hkey.exists_rotate hr hword hg hm (by omega) htable hct hsize hdomain hdvd
  obtain ⟨p, hp, hred, hphase⟩ := Rlwe.Ciphertext.exists_phase hr hsk h.reduced
  refine ⟨acc, p, hacc, hp, hred, ?_⟩
  rw [hphase]
  refine (h.scaled_congr hdvd hφ).small.mono (le_of_eq ?_)
  rw [stepError]
  ring

end Rotate

section Sample

def sampleGadget : Gadget := ⟨⟨5, by decide, by decide⟩, 3, 1⟩

theorem check_sampleGadget : Gadget.check 5 3 = .ok sampleGadget := by decide

theorem sampleGadget_capacity : 5 / 2 ≤ (sampleGadget.base / 2 - 1) *
    (sampleGadget.base ^ sampleGadget.digits - 1) / (sampleGadget.base - 1) := by decide

def sampleKey (ring : NegacyclicRing) : Key :=
  ⟨sampleGadget, 1, #[#[⟨Rgsw.noiseless ring sampleGadget 1, Rgsw.noiseless ring sampleGadget 0⟩]]⟩

theorem encrypts_sampleKey (hr : ring.Valid) :
    (sampleKey ring).Encrypts ring z 0 [⟨#[1], .ternary⟩] := by
  refine ⟨rfl, fun sk hsk => by rw [List.mem_singleton.1 hsk]; rfl,
    fun k hs hk => ?_⟩
  obtain rfl := Nat.lt_one_iff.1 hk
  refine ⟨rfl, by simp [Lwe.Secret.Ternary], fun i hi => ?_⟩
  obtain rfl := Nat.lt_one_iff.1 hi
  exact ⟨Rgsw.encrypts_noiseless hr, Rgsw.encrypts_noiseless hr⟩

theorem exists_sampleRing : ∃ ring sk, NegacyclicRing.check 2 5 = .ok ring ∧
    Rlwe.Secret.ofLwe ring ⟨#[1, -1], .ternary⟩ = .ok sk := by
  have h : (NegacyclicRing.check 2 5 >>= fun ring =>
      Rlwe.Secret.ofLwe ring ⟨#[1, -1], .ternary⟩ >>= fun _ => .ok ()) = .ok () := by decide +kernel
  obtain ⟨ring, hring, h⟩ := Checked.bind_eq_ok.1 h
  obtain ⟨sk, hsk, -⟩ := Checked.bind_eq_ok.1 h
  exact ⟨ring, sk, hring, hsk⟩

def sampleTable : Table := ⟨4, #[1, 2]⟩

theorem reduced_sampleTable {q : Modulus} (hq : q.value = 5) : q.Reduced 2 sampleTable.data :=
  ⟨rfl, by rw [hq]; decide⟩

def sampleCiphertext : Lwe.Ciphertext := ⟨#[1], 3, 4⟩

/-- The table turned back by the phase `2`. -/
theorem rotate_phase_two : ∃ ring sk acc p, NegacyclicRing.check 2 5 = .ok ring ∧
    Rlwe.Secret.ofLwe ring ⟨#[1, -1], .ternary⟩ = .ok sk ∧
    rotate ring (sampleKey ring) sampleTable sampleCiphertext = .ok acc ∧
    acc.phase ring sk = .ok p ∧
    Small 0 (ring.element p - monomial (-2) * ring.element #[1, 2]) := by
  obtain ⟨ring, sk, hring, hsk⟩ := exists_sampleRing
  obtain ⟨hr, -, hvalue, -⟩ := NegacyclicRing.check_valid Nat.prime_five hring
  have hgadget : Gadget.check 5 3 = .ok (sampleKey ring).gadget := check_sampleGadget
  have hwf : sampleCiphertext.WellFormed := by decide
  have hphase : 2 ≡ sampleCiphertext.integerPhase
      (Lwe.Secret.jointCoefficient [⟨#[1], .ternary⟩]) [ZMOD 4] := rfl
  obtain ⟨acc, p, hacc, hp, -, hsmall⟩ := rotate_phase Nat.prime_five hring hgadget
    sampleGadget_capacity hsk (encrypts_sampleKey hr) le_rfl (reduced_sampleTable hvalue) rfl hwf rfl
    ⟨1, rfl⟩ hphase
  exact ⟨ring, sk, acc, p, hring, hsk, hacc, hp, hsmall⟩

end Sample

end LatticeGates.BlindRotation
