import LatticeGates.Proofs.Ring.Values

/-!
# Products with powers of `X`

Writing or adding a polynomial at places that are turned by `k` is a product with `X ^ k`: a place beyond
the end comes back at the front with the sign changed.
-/

namespace LatticeGates.NegacyclicRing

open Finset Modulus Negacyclic

variable {ring : NegacyclicRing}

section Place

variable {r : Poly} {i : ℕ}

theorem element_update {s : Poly} (hi : i < ring.degree) {d : ZMod ring.modulus.value}
    (h : ∀ j < ring.degree, ring.modulus.entries s j =
      ring.modulus.entries r j + if j = i then d else 0) :
    ring.element s = ring.element r + algebraMap _ _ d * x ^ i := by
  rw [element, element, ofCoeffs_congr h, ofCoeffs_add]
  congr 1
  rw [ofCoeffs, sum_eq_single_of_mem i (mem_range.2 hi)]
  · simp
  · intro j _ hj
    simp [hj]

theorem exists_modifyAt (hr : ring.modulus.Reduced ring.degree r) (hi : i < ring.degree)
    {f : ℕ → Checked ℕ} {d : ZMod ring.modulus.value}
    (hf : ∀ y < ring.modulus.value, (y : ZMod ring.modulus.value) = ring.modulus.entries r i →
      ∃ z, f y = .ok z ∧ z < ring.modulus.value ∧ (z : ZMod ring.modulus.value) = y + d) :
    ∃ s, modifyAt r i f = .ok s ∧ ring.modulus.Reduced ring.degree s ∧
      ring.element s = ring.element r + algebraMap _ _ d * x ^ i ∧
      ∀ j ≠ i, ring.modulus.entries s j = ring.modulus.entries r j := by
  have hir : i < r.size := hr.size_eq ▸ hi
  obtain ⟨z, hz, hlt, hcast⟩ := hf r[i] (hr.getElem_lt hir) (entries_of_lt hir).symm
  have hentries : ∀ j, ring.modulus.entries (r.set i z) j =
      ring.modulus.entries r j + if j = i then d else 0 := by
    intro j
    by_cases hj : j < r.size
    · rw [entries_of_lt (by simpa using hj), entries_of_lt hj, Array.getElem_set]
      by_cases hij : i = j
      · subst hij
        simp [hcast]
      · simp [hij, Ne.symm hij]
    · rw [entries_of_le (by simpa using hj), entries_of_le (by omega), if_neg (by omega), add_zero]
  refine ⟨r.set i z, ?_, ?_, element_update hi fun j _ => hentries j, fun j hj => ?_⟩
  · simp [modifyAt, hir, hz]
  · refine .of_getElem (by simpa using hr.size_eq) fun j hj => ?_
    rw [Array.getElem_set]
    split
    · exact hlt
    · exact hr.getElem_lt _
  · rw [hentries j, if_neg hj, add_zero]

end Place

private theorem wrap_cases {n q m : ℕ} (hm : m < 3 * n) :
    (m < n ∧ m % n = m ∧ (x : Negacyclic n q) ^ m = x ^ (m % n)) ∨
    (¬m < n ∧ m < 2 * n ∧ m % n = m - n ∧ (x : Negacyclic n q) ^ m = -x ^ (m % n)) ∨
    (¬m < n ∧ ¬m < 2 * n ∧ m % n = m - 2 * n ∧ (x : Negacyclic n q) ^ m = x ^ (m % n)) := by
  by_cases h1 : m < n
  · have hmod := Nat.mod_eq_of_lt h1
    exact .inl ⟨h1, hmod, by rw [hmod]⟩
  · refine .inr ?_
    by_cases h2 : m < 2 * n
    · have hmod : m % n = m - n := by
        rw [Nat.mod_eq_sub_mod (by omega), Nat.mod_eq_of_lt (by omega)]
      refine .inl ⟨h1, h2, hmod, ?_⟩
      rw [hmod, ← neg_one_mul, ← x_pow, ← pow_add, Nat.add_sub_of_le (by omega)]
    · have hmod : m % n = m - 2 * n := by
        rw [Nat.mod_eq_sub_mod (by omega), Nat.mod_eq_sub_mod (by omega), Nat.mod_eq_of_lt (by omega)]
        omega
      refine .inr ⟨h1, h2, hmod, ?_⟩
      rw [hmod, ← one_mul (x ^ (m - 2 * n)), ← x_pow_double, ← pow_add,
        Nat.add_sub_of_le (by omega)]

private theorem add_mod_ne {n i j k : ℕ} (hi : i < n) (hj : j < n) (h : i ≠ j) :
    (i + k) % n ≠ (j + k) % n := by
  intro hmod
  have hcancel : i ≡ j [MOD n] := Nat.ModEq.add_right_cancel' k hmod
  exact h (hcancel.eq_of_lt_of_lt hi hj)

section Rotate

variable {r a s : Poly} {k j : ℕ}

private theorem exists_turned {v : ℕ} (hk : k < 2 * ring.degree) (hj : j < ring.degree)
    (hv : v < ring.modulus.value) :
    ∃ z < ring.modulus.value,
      algebraMap _ ring.Element (z : ZMod ring.modulus.value) * x ^ ((j + k) % ring.degree) =
        algebraMap _ _ (v : ZMod ring.modulus.value) * x ^ (j + k) ∧
      ∀ s : Poly,
        (if j + k < ring.degree then modifyAt s (j + k) fun _ => .ok v
        else if j + k < 2 * ring.degree then modifyAt s (j + k - ring.degree) fun _ => ring.modulus.neg v
        else modifyAt s (j + k - 2 * ring.degree) fun _ => .ok v) =
          modifyAt s ((j + k) % ring.degree) fun _ => .ok z := by
  rcases wrap_cases (q := ring.modulus.value) (show j + k < 3 * ring.degree by omega) with
    ⟨h1, hmod, hx⟩ | ⟨h1, h2, hmod, hx⟩ | ⟨h1, h2, hmod, hx⟩
  · exact ⟨v, hv, by rw [hx], fun s => by rw [if_pos h1, hmod]⟩
  · obtain ⟨z, hz, hzlt, hcast⟩ := exists_neg hv
    exact ⟨z, hzlt, by rw [hx, hcast, map_neg]; ring, fun s => by rw [if_neg h1, if_pos h2, hmod, hz]⟩
  · exact ⟨v, hv, by rw [hx], fun s => by rw [if_neg h1, if_neg h2, hmod]⟩

private structure Written (ring : NegacyclicRing) (a : Poly) (k j : ℕ) (s : Poly) : Prop where
  reduced : ring.modulus.Reduced ring.degree s
  element_eq : ring.element s =
    ∑ i ∈ range j, algebraMap _ _ (ring.modulus.entries a i) * x ^ (i + k)
  free : ∀ i, j ≤ i → i < ring.degree →
    ring.modulus.entries s ((i + k) % ring.degree) = 0

private theorem Written.step (hs : Written ring a k j s) (hj : j < ring.degree) {f : ℕ → Checked ℕ}
    {z : ℕ} (hf : ∀ y, f y = .ok z) (hz : z < ring.modulus.value)
    (hterm : algebraMap _ ring.Element (z : ZMod ring.modulus.value) * x ^ ((j + k) % ring.degree) =
      algebraMap _ _ (ring.modulus.entries a j) * x ^ (j + k)) :
    ∃ s', modifyAt s ((j + k) % ring.degree) f = .ok s' ∧ Written ring a k (j + 1) s' := by
  obtain ⟨s', hs', hred, helement, hframe⟩ :=
    exists_modifyAt hs.reduced (Nat.mod_lt (j + k) (NeZero.pos ring.degree)) (f := f) (d := z)
      fun y _ hy => ⟨z, hf y, hz, by rw [hy, hs.free j le_rfl hj, zero_add]⟩
  refine ⟨s', hs', hred, ?_, fun i hi hin => ?_⟩
  · rw [helement, hs.element_eq, sum_range_succ, hterm]
  · rw [hframe _ (add_mod_ne hin hj (by omega)), hs.free i (by omega) hin]

theorem exists_rotateInto (ha : ring.modulus.Reduced ring.degree a) (k : ℕ) :
    ∃ s, ring.rotateInto ring.zero a k = .ok s ∧ ring.modulus.Reduced ring.degree s ∧
      ring.element s = x ^ k * ring.element a := by
  have hpos : 0 < ring.degree := NeZero.pos _
  have hk : k % (2 * ring.degree) < 2 * ring.degree := Nat.mod_lt _ (by omega)
  obtain ⟨s, hs, hwritten⟩ : ∃ s, ring.rotateInto ring.zero a k = .ok s ∧
      Written ring a (k % (2 * ring.degree)) a.size s := by
    refine foldM_ok _ ⟨reduced_zero, by simp, fun i _ _ => entries_replicate _⟩ ?_
    intro j hj s hs
    have hjn := ha.size_eq ▸ hj
    obtain ⟨z, hz, hterm, hround⟩ := exists_turned hk hjn (ha.getElem_lt hj)
    rw [← entries_of_lt hj] at hterm
    obtain ⟨s', hs', hwritten⟩ := hs.step hjn (fun _ => rfl) hz hterm
    exact ⟨s', (hround s).trans hs', hwritten⟩
  refine ⟨s, hs, hwritten.reduced, ?_⟩
  rw [hwritten.element_eq, ha.size_eq, element, ofCoeffs, mul_sum]
  apply sum_congr rfl
  intro i _
  rw [pow_add, x_pow_mod]
  ring

private theorem exists_written (ha : ring.modulus.Reduced ring.degree a) (k : ℕ) :
    ∃ z : ℕ → ℕ, ∀ r : Poly, r.size = ring.degree → ∃ s, ring.rotateInto r a k = .ok s ∧
      s.size = ring.degree ∧
      ∀ j < ring.degree, s[(j + k % (2 * ring.degree)) % ring.degree]? = some (z j) := by
  have hpos : 0 < ring.degree := NeZero.pos _
  have hk : k % (2 * ring.degree) < 2 * ring.degree := Nat.mod_lt _ (by omega)
  choose! z _ _ hround using fun j (hj : j < ring.degree) => exists_turned hk hj (ha.getD_lt j)
  refine ⟨z, fun r hr => ?_⟩
  obtain ⟨s, hs, hsize, hentries⟩ : ∃ s, ring.rotateInto r a k = .ok s ∧ s.size = ring.degree ∧
      ∀ j < a.size, s[(j + k % (2 * ring.degree)) % ring.degree]? = some (z j) := by
    refine foldM_ok (fun j (s : Poly) => s.size = ring.degree ∧
      ∀ i < j, s[(i + k % (2 * ring.degree)) % ring.degree]? = some (z i)) ⟨hr, by simp⟩ ?_
    intro j hj s ⟨hsize, hs⟩
    have hjn := ha.size_eq ▸ hj
    have hplace := (Nat.mod_lt (j + k % (2 * ring.degree)) hpos).trans_eq hsize.symm
    refine ⟨s.set _ (z j) hplace, ?_, by rw [Array.size_set, hsize], fun i hi => ?_⟩
    · have hwrite := hround j hjn s
      rw [← Array.getElem_eq_getD (h := hj)] at hwrite
      exact hwrite.trans (by simp [modifyAt, hplace])
    · rcases Nat.lt_succ_iff_lt_or_eq.1 hi with hlt | rfl
      · rw [Array.getElem?_set, if_neg (add_mod_ne hjn (hlt.trans hjn) hlt.ne'), hs i hlt]
      · rw [Array.getElem?_set, if_pos rfl]
  exact ⟨s, hs, hsize, fun j hj => hentries j (hj.trans_eq ha.size_eq.symm)⟩

/-- Every place is written, so that what was there before does not matter. -/
theorem rotateInto_eq (ha : ring.modulus.Reduced ring.degree a) (k : ℕ) {r t : Poly}
    (hr : r.size = ring.degree) (ht : t.size = ring.degree) :
    ring.rotateInto r a k = ring.rotateInto t a k := by
  obtain ⟨z, hz⟩ := exists_written ha k
  obtain ⟨s, hs, hs_size, hs_entries⟩ := hz r hr
  obtain ⟨u, hu, hu_size, hu_entries⟩ := hz t ht
  -- different entries go to different places, hence every place is reached
  have hplaces : Function.Surjective fun j : Fin ring.degree =>
      (⟨(j + k % (2 * ring.degree)) % ring.degree, Nat.mod_lt _ (NeZero.pos _)⟩ : Fin ring.degree) := by
    refine Finite.surjective_of_injective fun i j h => ?_
    by_contra hne
    exact add_mod_ne i.2 j.2 (Fin.val_ne_of_ne hne) (congrArg Fin.val h)
  rw [hs, hu]
  congr 1
  apply Array.ext_getElem?
  intro i
  by_cases hi : i < ring.degree
  · obtain ⟨j, hj⟩ := hplaces ⟨i, hi⟩
    obtain rfl := congrArg Fin.val hj
    rw [hs_entries j j.2, hu_entries j j.2]
  · rw [Array.getElem?_eq_none (by omega), Array.getElem?_eq_none (by omega)]

private structure Added (ring : NegacyclicRing) (r a : Poly) (k j : ℕ) (s : Poly) : Prop where
  reduced : ring.modulus.Reduced ring.degree s
  element_eq : ring.element s = ring.element r +
    ∑ i ∈ range j, algebraMap _ _ (ring.modulus.entries a i) * (x ^ (i + k) - x ^ i)

private theorem Added.step (hs : Added ring r a k j s) (hj : j < ring.degree) {z : ℕ}
    (hz : z < ring.modulus.value) (hentry : ring.modulus.entries a j = z) {f : ℕ → Checked ℕ}
    {d : ZMod ring.modulus.value}
    (hf : ∀ y < ring.modulus.value,
      ∃ y', f y = .ok y' ∧ y' < ring.modulus.value ∧ (y' : ZMod ring.modulus.value) = y + d)
    (hterm : algebraMap _ ring.Element d * x ^ ((j + k) % ring.degree) =
      algebraMap _ _ (z : ZMod ring.modulus.value) * x ^ (j + k)) :
    ∃ s', (modifyAt s ((j + k) % ring.degree) f >>= fun s =>
      modifyAt s j (ring.modulus.sub · z)) = .ok s' ∧ Added ring r a k (j + 1) s' := by
  obtain ⟨t, ht, htred, htelement, -⟩ := exists_modifyAt hs.reduced
    (Nat.mod_lt (j + k) (NeZero.pos ring.degree)) fun y hy _ => hf y hy
  obtain ⟨s', hs', hred, helement, -⟩ := exists_modifyAt (d := -z) htred hj
    (f := (ring.modulus.sub · z)) fun y hy _ => by
      obtain ⟨y', hy', hlt, hcast⟩ := Modulus.exists_sub hy hz
      exact ⟨y', hy', hlt, by rw [hcast, sub_eq_add_neg]⟩
  refine ⟨s', by rw [ht, Checked.ok_bind, hs'], hred, ?_⟩
  rw [helement, htelement, hs.element_eq, sum_range_succ, hterm, hentry, map_neg]
  ring

theorem exists_addMonomialMinusOne (hr : ring.modulus.Reduced ring.degree r)
    (ha : ring.modulus.Reduced ring.degree a) (k : ℕ) :
    ∃ s, ring.addMonomialMinusOne r a k = .ok s ∧ ring.modulus.Reduced ring.degree s ∧
      ring.element s = ring.element r + (x ^ k - 1) * ring.element a := by
  have hpos : 0 < ring.degree := NeZero.pos _
  have hk : k % (2 * ring.degree) < 2 * ring.degree := Nat.mod_lt _ (by omega)
  by_cases hzero : k % (2 * ring.degree) = 0
  · refine ⟨r, if_pos hzero, hr, ?_⟩
    rw [← x_pow_mod, hzero, pow_zero, sub_self, zero_mul, add_zero]
  obtain ⟨s, hs, hadded⟩ : ∃ s, ring.addMonomialMinusOne r a k = .ok s ∧
      Added ring r a (k % (2 * ring.degree)) a.size s := by
    simp only [addMonomialMinusOne, hzero, if_false]
    refine foldM_ok _ ⟨hr, by simp⟩ ?_
    intro j hj s hs
    have hlt := ha.getElem_lt hj
    have hentry := entries_of_lt (q := ring.modulus) hj
    rw [ha.size_eq] at hj
    rcases wrap_cases (q := ring.modulus.value) (show j + k % (2 * ring.degree) < 3 * ring.degree by
      omega) with ⟨h1, hmod, hx⟩ | ⟨h1, h2, hmod, hx⟩ | ⟨h1, h2, hmod, hx⟩
    · rw [if_pos h1]
      nth_rewrite 1 [← hmod]
      exact hs.step hj hlt hentry (fun y hy => Modulus.exists_add hy hlt) (by rw [hx])
    · rw [if_neg h1, if_pos h2, ← hmod]
      refine hs.step hj hlt hentry (d := -a[j]) (fun y hy => ?_) (by rw [hx, map_neg]; ring)
      obtain ⟨y', hy', hlt, hcast⟩ := Modulus.exists_sub hy hlt
      exact ⟨y', hy', hlt, by rw [hcast, sub_eq_add_neg]⟩
    · rw [if_neg h1, if_neg h2, ← hmod]
      exact hs.step hj hlt hentry (fun y hy => Modulus.exists_add hy hlt) (by rw [hx])
  refine ⟨s, hs, hadded.reduced, ?_⟩
  rw [hadded.element_eq, ha.size_eq, element.eq_1 ring a, ofCoeffs, mul_sum]
  congr 1
  apply sum_congr rfl
  intro i _
  rw [pow_add, x_pow_mod]
  ring

end Rotate

end LatticeGates.NegacyclicRing
