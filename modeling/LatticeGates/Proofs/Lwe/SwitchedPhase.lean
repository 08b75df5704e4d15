import LatticeGates.Params.Basic
import LatticeGates.Proofs.Lwe.SwitchingShares

/-!
# The phase after a key switch

Main statement: a key switch subtracts from the phase the errors of exactly the entries that the digits of the mask
pick, for every base, whether or not the modulus is a power of it. Generated keys have the form that this asks for:
the error of each entry is the one that is drawn at its position.
-/

namespace LatticeGates.Lwe.SwitchingKey

open Finset

variable {q : Modulus} {z s : Secret} {base : ℕ} {key : SwitchingKey}

theorem Sums.encryptsWith {masks : Array (Array ℕ)} {e : Noise (count q z.dimension base)}
    (h : Sums q z.dimension s.dimension base masks key (share q z.dimension s.dimension base masks z s e))
    (hmasks : Masks q z.dimension s.dimension base masks) (hbase : 2 ≤ base)
    (hwidth : s.dimension + 1 < Word.bound)
    (hcapacity : 8 * (count q z.dimension base * (s.dimension + 1)) < 0x8000000000000000) :
    key.EncryptsWith q z s fun i j v => e.at (key.position i j v) := by
  have hsize := h.size_eq.trans hmasks.size_eq
  obtain ⟨entries, rfl⟩ := h.shape
  refine ⟨⟨rfl, _, exists_zero hbase hwidth hcapacity⟩, fun i hi j hj v hpos hv => ?_⟩
  have hk : (ofEntries q z.dimension s.dimension base entries).position i j v <
      (ofEntries q z.dimension s.dimension base entries).entries.size := by
    rw [hsize]
    exact position_lt hi hj hpos hv
  obtain ⟨hlt, hcast⟩ := h.body _ hk
  have hmask := hmasks.reduced _ (h.mask_mem hk)
  refine ⟨_, Array.getElem?_eq_getElem hk, ⟨rfl, hmask, hlt⟩, Ciphertext.modEq_of_cast_eq ?_⟩
  rw [share, message_position entries _ hj hpos hv, ← h.mask_eq hk] at hcast
  rw [Ciphertext.cast_integerPhase q hmask.size_eq]
  push_cast at hcast ⊢
  simp only [Sample.toCiphertext, ofEntries] at hcast ⊢
  linear_combination hcast

/-- A switch moves the phase by the errors of the entries that the digits of the mask pick, and keys that are
generated hold the errors that are drawn. The bound on the target secret is that of any vector in memory. -/
theorem phase_switch (hfits : s.dimension < 2 ^ 60) :
    (∀ (key : SwitchingKey) (e : ℕ → ℕ → ℕ → ℤ), key.EncryptsWith q z s e →
      ∀ ct : Ciphertext, ct.Shaped q z.dimension →
        ∃ r, key.switch ct = .ok r ∧ r.Shaped q s.dimension ∧
          (z.InRange ct.mask → s.InRange r.mask → ∃ φ : ℕ, ct.phase z = .ok φ ∧
            r.phase s = .ok (q.ofInt
              (φ - ∑ i ∈ range z.dimension, pickedErrors key.base (e i) (ct.mask.getD i 0))))) ∧
    ∀ base, 2 ≤ base → count q z.dimension base * (s.dimension + 1) < 2 ^ 60 →
      MessagesInRange q z.dimension base z →
      ∀ (e : Noise (count q z.dimension base)) (masks rest : Stream) (samples : Array Sample),
        Stream.replicate (count q z.dimension base) (drawEntry q s.dimension) masks = .ok (samples, rest) →
        (∀ sample ∈ samples, s.InRange sample.mask) →
        ∃ key, generate z s base q.value e.sigma masks e.source = .ok (key, rest, e.rest) ∧
          key.base = base ∧ key.EncryptsWith q z s fun i j v => e.at (key.position i j v) := by
  constructor
  · intro key e hkey ct hct
    have hlength : Word.checkLength key.target = .ok () := by
      rw [hkey.target_eq]
      exact Word.checkLength_of_lt (by omega)
    obtain ⟨r, hr, hshaped, hphase⟩ := hkey.exists_switch hlength hct
    refine ⟨r, hr, hshaped, fun hz hs => ⟨_, hct.phase_of_inRange hz, ?_⟩⟩
    rw [hshaped.phase_of_inRange hs]
    exact congrArg _ (hshaped.residue_eq_ofInt
      (hphase.trans ((hct.residue_modEq z.coefficient).symm.sub_right _)))
  · intro base hbase hcapacity hmessages e masks rest samples hdrawn hrange
    have hwidth : s.dimension + 1 < Word.bound := by
      unfold Word.bound
      omega
    have hmasks : ∀ mask ∈ samples.map (·.mask), s.InRange mask := by
      simpa using hrange
    obtain ⟨key, hkey, hsums⟩ :=
      exists_generate hbase hwidth (by omega) hdrawn rfl rfl hmasks hmessages e
    have hwith := hsums.encryptsWith (masks_of_replicate hdrawn) hbase hwidth (by omega)
    obtain ⟨entries, rfl⟩ := hsums.shape
    exact ⟨_, hkey, rfl, hwith⟩

/-- From the secret `-1` to the secret `1` modulo `5`, which is no power of the base `3`: a mask entry `4` has the
digits `1` and `1`, and both entries have the error `1`. -/
theorem phase_switch_three : ∃ (q : Modulus) (key : SwitchingKey), q.value = 5 ∧ key.base = 3 ∧
    key.EncryptsWith q ⟨#[-1], .ternary⟩ ⟨#[1], .ternary⟩ (fun _ j v => if j = 0 then 2 - v else v) ∧
    (∃ r, key.switch ⟨#[4], 3, 5⟩ = .ok r ∧ Ciphertext.phase ⟨#[4], 3, 5⟩ ⟨#[-1], .ternary⟩ = .ok 2 ∧
      r.phase ⟨#[1], .ternary⟩ = .ok 0) ∧
    ∃ (made : SwitchingKey) (drawn : Array ℤ) (masksLeft errorsLeft : Stream),
      Stream.gaussians Params.defaultSigma 4 (.ofSeed #[2]) = .ok (drawn, errorsLeft) ∧
      generate ⟨#[-1], .ternary⟩ ⟨#[1], .ternary⟩ 3 5 Params.defaultSigma (.ofSeed #[1]) (.ofSeed #[2]) =
        .ok (made, masksLeft, errorsLeft) ∧
      made.EncryptsWith q ⟨#[-1], .ternary⟩ ⟨#[1], .ternary⟩
        (fun i j v => drawn.getD (made.position i j v) 0) := by
  let q : Modulus := ⟨5, by decide, by decide⟩
  let z : Secret := ⟨#[-1], .ternary⟩
  let s : Secret := ⟨#[1], .ternary⟩
  have hternary : z.Ternary ∧ s.Ternary := by simp [z, s, Secret.Ternary]
  have hz {mask : Array ℕ} (hmask : q.Reduced 1 mask) : z.InRange mask :=
    Secret.inRange_of_natAbs_le hmask hternary.1.natAbs_le (by decide)
  have hs {mask : Array ℕ} (hmask : q.Reduced 1 mask) : s.InRange mask :=
    Secret.inRange_of_natAbs_le hmask hternary.2.natAbs_le (by decide)
  have hdigits : digitsFrom 3 q.value 1 = 2 := by simp [digitsFrom, q]
  have hcount : count q z.dimension 3 = 4 := by
    rw [count, hdigits]
    rfl
  obtain ⟨hswitch, hgenerate⟩ := phase_switch (q := q) (z := z) (s := s) (by decide)
  have hkey : (⟨3, 2, 1, 1, 5, #[⟨1, #[1]⟩, ⟨0, #[2]⟩, ⟨1, #[3]⟩, ⟨0, #[4]⟩]⟩ : SwitchingKey).EncryptsWith q z s
      (fun _ j v => if j = 0 then 2 - v else v) := by
    have hzero := exists_zero (q := q) (n := 1) (m := 1) (show 2 ≤ 3 by decide) (by decide)
      (by rw [show count q 1 3 = 4 from hcount]; decide)
    rw [ofEntries, hdigits] at hzero
    refine ⟨⟨rfl, _, hzero⟩, ?_⟩
    simp only
    intro i hi j hj v hpos hv
    obtain rfl : i = 0 := by omega
    interval_cases j <;> interval_cases v <;>
      exact ⟨_, rfl, ⟨rfl, ⟨rfl, by decide⟩, by decide⟩, by decide⟩
  have hct : Ciphertext.Shaped q z.dimension ⟨#[4], 3, 5⟩ := ⟨rfl, ⟨rfl, by decide⟩, by decide⟩
  obtain ⟨r, hr, hshaped, hphases⟩ := hswitch _ _ hkey _ hct
  obtain ⟨φ, hφ, hphase⟩ := hphases (hz hct.mask) (hs hshaped.mask)
  have hread : Ciphertext.phase ⟨#[4], 3, 5⟩ z = .ok 2 := by decide +kernel
  obtain rfl : φ = 2 := Except.ok.inj (hφ.symm.trans hread)
  have hpicked : pickedErrors 3 (fun j v => if j = 0 then 2 - v else v) 4 = 2 := by simp [pickedErrors]
  rw [show z.dimension = 1 from rfl, sum_range_one] at hphase
  change r.phase s = .ok (q.ofInt (2 - pickedErrors 3 _ 4)) at hphase
  rw [hpicked] at hphase
  obtain ⟨⟨samples, masksLeft⟩, hsamples⟩ :
      ∃ x, Stream.replicate 4 (drawEntry q 1) (.ofSeed #[1]) = .ok x :=
    Checked.exists_of_isOk (by decide +kernel)
  obtain ⟨⟨drawn, errorsLeft⟩, hdrawn⟩ :
      ∃ x, Stream.gaussians Params.defaultSigma 4 (.ofSeed #[2]) = .ok x :=
    Checked.exists_of_isOk (by decide +kernel)
  rw [← hcount] at hsamples
  obtain ⟨made, hmade, -, hwith⟩ := hgenerate 3 (by decide) (by rw [hcount]; decide)
    (messagesInRange_of_ternary hternary.1 (by decide)) ⟨_, _, drawn, errorsLeft, hcount ▸ hdrawn⟩ _ _ samples
    hsamples fun sample hsample =>
      hs ((masks_of_replicate hsamples).reduced _ (Array.mem_map.2 ⟨sample, hsample, rfl⟩))
  exact ⟨q, _, rfl, rfl, hkey, ⟨r, hr, hread, hphase⟩, made, drawn, _, _, hdrawn, hmade, hwith⟩

end LatticeGates.Lwe.SwitchingKey
