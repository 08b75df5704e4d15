import LatticeGates.Proofs.BlindRotation.Totality

/-!
# The keys that a bootstrap ends with

Main statement: a bootstrap that ends had a rotation key of the dimension of its input and a switching key
that starts from the ring, with a modulus in range, whatever these keys hold. Its result has the dimension
that the switching key leads to, which nothing compares with that of the input.
-/

namespace LatticeGates

namespace NegacyclicRing

variable {ring : NegacyclicRing} {r s a : Poly} {i k : ℕ}

theorem size_of_modifyAt {f : ℕ → Checked ℕ} (h : modifyAt r i f = .ok s) : s.size = r.size := by
  unfold modifyAt at h
  split at h
  · obtain ⟨x, -, h⟩ := Checked.bind_eq_ok.1 h
    cases h
    exact Array.size_set ‹_›
  · cases h

private theorem size_of_modifyAt_modifyAt {j : ℕ} {f g : ℕ → Checked ℕ}
    (h : (modifyAt r i f >>= fun t => modifyAt t j g) = .ok s) : s.size = r.size := by
  obtain ⟨t, ht, h⟩ := Checked.bind_eq_ok.1 h
  exact (size_of_modifyAt h).trans (size_of_modifyAt ht)

theorem size_of_rotateInto (h : ring.rotateInto r a k = .ok s) : s.size = r.size := by
  refine foldM_eq_ok (fun _ t => t.size = r.size) rfl (fun j hj t t' ht hstep => ?_) h
  dsimp only at hstep
  split at hstep
  · exact (size_of_modifyAt hstep).trans ht
  · split at hstep <;> exact (size_of_modifyAt hstep).trans ht

theorem size_of_addMonomialMinusOne (h : ring.addMonomialMinusOne r a k = .ok s) : s.size = r.size := by
  unfold addMonomialMinusOne at h
  dsimp only at h
  split at h
  · cases h
    rfl
  · refine foldM_eq_ok (fun _ t => t.size = r.size) rfl (fun j hj t t' ht hstep => ?_) h
    split at hstep
    · exact (size_of_modifyAt_modifyAt hstep).trans ht
    · split at hstep <;> exact (size_of_modifyAt_modifyAt hstep).trans ht

end NegacyclicRing

namespace Lwe

variable {ct r : Ciphertext}

theorem Ciphertext.dimension_of_addConstant {c : ℕ} (h : ct.addConstant c = .ok r) :
    r.dimension = ct.dimension := by
  obtain ⟨q, -, h⟩ := Checked.bind_eq_ok.1 h
  obtain ⟨body, -, h⟩ := Checked.bind_eq_ok.1 h
  cases h
  rfl

theorem Ciphertext.dimension_of_switchModulus {target : ℕ} (h : ct.switchModulus target = .ok r) :
    r.dimension = ct.dimension := by
  obtain ⟨mask, hmask, h⟩ := Checked.bind_eq_ok.1 h
  obtain ⟨body, -, h⟩ := Checked.bind_eq_ok.1 h
  cases h
  exact (tabulate_eq_ok hmask).1

theorem SwitchingKey.source_of_switch {key : SwitchingKey} (h : key.switch ct = .ok r) :
    key.source = ct.dimension ∧ ∃ q : Modulus, key.modulus = q.value := by
  obtain ⟨_, hshape, h⟩ := Checked.bind_eq_ok.1 h
  obtain ⟨q, hq, -⟩ := Checked.bind_eq_ok.1 h
  have hsource := (Bool.and_eq_true _ _ ▸ ensure_eq_ok.1 hshape).1
  exact ⟨(beq_iff_eq.1 hsource).symm, q, (Modulus.check_eq_ok.1 hq).symm⟩

end Lwe

theorem Rlwe.Ciphertext.dimension_of_sampleExtract {ring : NegacyclicRing} {ct : Rlwe.Ciphertext}
    {r : Lwe.Ciphertext} (h : ct.sampleExtract ring = .ok r) : r.dimension = ct.body.size := by
  obtain ⟨_, -, h⟩ := Checked.bind_eq_ok.1 h
  obtain ⟨mask, hmask, h⟩ := Checked.bind_eq_ok.1 h
  cases h
  exact (tabulate_eq_ok hmask).1

namespace BlindRotation

variable {ring : NegacyclicRing} {g : Gadget} {key : Key} {switching : Lwe.SwitchingKey} {tab : Table}
  {ct out : Lwe.Ciphertext} {acc acc' : Rlwe.Ciphertext} {offset target : ℕ}

private theorem size_of_rotateStep {pair : Pair} {a : ℕ} (h : rotateStep ring g pair a acc = .ok acc') :
    acc'.body.size = acc.body.size := by
  obtain ⟨maskDigits, -, h⟩ := Checked.bind_eq_ok.1 h
  obtain ⟨bodyDigits, -, h⟩ := Checked.bind_eq_ok.1 h
  obtain ⟨plus, -, h⟩ := Checked.bind_eq_ok.1 h
  obtain ⟨minus, -, h⟩ := Checked.bind_eq_ok.1 h
  obtain ⟨_, -, h⟩ := Checked.bind_eq_ok.1 h
  obtain ⟨_, -, h⟩ := Checked.bind_eq_ok.1 h
  obtain ⟨_, -, h⟩ := Checked.bind_eq_ok.1 h
  obtain ⟨_, -, h⟩ := Checked.bind_eq_ok.1 h
  obtain ⟨_, -, h⟩ := Checked.bind_eq_ok.1 h
  obtain ⟨body₁, hbody₁, h⟩ := Checked.bind_eq_ok.1 h
  obtain ⟨_, -, h⟩ := Checked.bind_eq_ok.1 h
  obtain ⟨body₂, hbody₂, h⟩ := Checked.bind_eq_ok.1 h
  cases h
  exact (NegacyclicRing.size_of_addMonomialMinusOne hbody₂).trans
    (NegacyclicRing.size_of_addMonomialMinusOne hbody₁)

private theorem size_of_rotateBlock {factor : ℕ} {mask : Array ℕ} {block : Array Pair}
    (h : rotateBlock ring g factor mask block acc = .ok acc') : acc'.body.size = acc.body.size := by
  refine foldM_eq_ok (fun _ t => t.body.size = acc.body.size) rfl (fun i hi t t' ht hstep => ?_) h
  obtain ⟨scaled, -, hstep⟩ := Checked.bind_eq_ok.1 hstep
  dsimp only at hstep
  split at hstep
  · cases hstep
    exact ht
  · exact (size_of_rotateStep hstep).trans ht

theorem size_of_rotate (h : rotate ring key tab ct = .ok acc) :
    key.dimension = ct.dimension ∧ acc.body.size = ring.degree := by
  obtain ⟨_, hshape, h⟩ := Checked.bind_eq_ok.1 h
  obtain ⟨rest, -, h⟩ := Checked.bind_eq_ok.1 h
  obtain ⟨_, -, h⟩ := Checked.bind_eq_ok.1 h
  obtain ⟨b, -, h⟩ := Checked.bind_eq_ok.1 h
  obtain ⟨body, hbody, h⟩ := Checked.bind_eq_ok.1 h
  obtain ⟨_, -, h⟩ := Checked.bind_eq_ok.1 h
  have hsize := (Bool.and_eq_true _ _ ▸ ensure_eq_ok.1 hshape).1
  refine ⟨(beq_iff_eq.1 hsize).symm, ?_⟩
  refine foldM_eq_ok (fun _ t => t.body.size = ring.degree) ?_ (fun k hk t t' ht hstep => ?_) h
  · exact (NegacyclicRing.size_of_rotateInto hbody).trans Array.size_replicate
  · exact (size_of_rotateBlock hstep).trans ht

/-- The rotation key takes ciphertexts of dimension `n` and the switching key takes what is extracted from
the ring. -/
structure Connects (degree n : ℕ) (key : Key) (switching : Lwe.SwitchingKey) : Prop where
  dimension_eq : key.dimension = n
  source_eq : switching.source = degree
  modulus_eq : ∃ q : Modulus, switching.modulus = q.value

/-- A bootstrap that ends had keys that connect the dimension of its input with the ring. -/
theorem connects_of_bootstrap (h : bootstrap ring key switching ct tab offset target = .ok out) :
    Connects ring.degree ct.dimension key switching := by
  obtain ⟨rotated, hrotated, h⟩ := Checked.bind_eq_ok.1 h
  obtain ⟨extracted, hextracted, h⟩ := Checked.bind_eq_ok.1 h
  obtain ⟨shifted, hshifted, h⟩ := Checked.bind_eq_ok.1 h
  obtain ⟨scaled, hscaled, h⟩ := Checked.bind_eq_ok.1 h
  obtain ⟨switched, hswitched, -⟩ := Checked.bind_eq_ok.1 h
  obtain ⟨hdim, hsize⟩ := size_of_rotate hrotated
  obtain ⟨hsource, hmodulus⟩ := Lwe.SwitchingKey.source_of_switch hswitched
  refine ⟨hdim, ?_, hmodulus⟩
  calc switching.source = scaled.dimension := hsource
    _ = shifted.dimension := Lwe.Ciphertext.dimension_of_switchModulus hscaled
    _ = extracted.dimension := Lwe.Ciphertext.dimension_of_addConstant hshifted
    _ = rotated.body.size := Rlwe.Ciphertext.dimension_of_sampleExtract hextracted
    _ = ring.degree := hsize

end BlindRotation

end LatticeGates
