import LatticeGates.NegacyclicRing
import LatticeGates.Proofs.Ring.Quotient
import LatticeGates.Proofs.Transform.Roots

/-!
# The ring operations in the quotient ring

A polynomial is read as an element of the quotient by its coefficients. Main statements: the values at the
leaves of the transform are a ring homomorphism that determines an element, the transforms go between an
element and its values, and the operations on polynomials are those of the quotient.
-/

namespace LatticeGates

open Finset Modulus Negacyclic

instance (q : Modulus) : Fact (1 < q.value) := ⟨q.one_lt⟩

namespace NegacyclicRing

variable {ring : NegacyclicRing}

instance : NeZero ring.degree := ⟨by rw [degree, Transform.size_eq]; positivity⟩

def Valid (ring : NegacyclicRing) : Prop := ring.transform.Valid

theorem check_shape {n q : ℕ} (h : check n q = .ok ring) :
    ring.degree = n ∧ ring.modulus.value = q ∧ 2 * n ∣ q - 1 ∧ 1 < n := by
  obtain ⟨-, -, h⟩ := Checked.bind_eq_ok.1 h
  obtain ⟨t, ht, h⟩ := Checked.bind_eq_ok.1 h
  cases h
  exact Transform.check_shape ht

theorem check_valid {n q : ℕ} (hq : q.Prime) (h : check n q = .ok ring) :
    ring.Valid ∧ ring.degree = n ∧ ring.modulus.value = q ∧ 2 * n ∣ q - 1 ∧ 1 < n := by
  refine ⟨?_, check_shape h⟩
  obtain ⟨-, -, h⟩ := Checked.bind_eq_ok.1 h
  obtain ⟨t, ht, h⟩ := Checked.bind_eq_ok.1 h
  cases h
  exact Transform.check_valid hq ht

theorem check_length {n q : ℕ} (h : check n q = .ok ring) : Word.checkLength n = .ok () := by
  obtain ⟨-, -, h⟩ := Checked.bind_eq_ok.1 h
  obtain ⟨t, ht, -⟩ := Checked.bind_eq_ok.1 h
  obtain ⟨_, -, ht⟩ := Checked.bind_eq_ok.1 ht
  obtain ⟨_, -, ht⟩ := Checked.bind_eq_ok.1 ht
  obtain ⟨_, -, ht⟩ := Checked.bind_eq_ok.1 ht
  obtain ⟨_, -, ht⟩ := Checked.bind_eq_ok.1 ht
  obtain ⟨_, hlength, -⟩ := Checked.bind_eq_ok.1 ht
  exact hlength

theorem two_mul_degree_lt_modulus {n q : ℕ} (h : check n q = .ok ring) :
    2 * ring.degree < ring.modulus.value := by
  obtain ⟨rfl, rfl, hdvd, -⟩ := check_shape h
  have hone := ring.modulus.one_lt
  have := Nat.le_of_dvd (by omega) hdvd
  omega

theorem two_mul_degree_lt {n q : ℕ} (h : check n q = .ok ring) : 2 * ring.degree < Word.bound :=
  (two_mul_degree_lt_modulus h).trans ring.modulus.lt_word

theorem exists_modulus_of_dvd {n q m : ℕ} (h : check n q = .ok ring) (hm : 2 ≤ m)
    (hdvd : m ∣ 2 * ring.degree) : ∃ t : Modulus, m = t.value := by
  have hle := Nat.le_of_dvd (Nat.mul_pos two_pos (NeZero.pos ring.degree)) hdvd
  have hlt := (two_mul_degree_lt_modulus h).trans ring.modulus.lt_bound
  exact ⟨⟨m, hm, hle.trans_lt hlt⟩, rfl⟩

theorem exists_two_pow {m : ℕ} (hdvd : m ∣ 2 * ring.degree) : ∃ k, m = 2 ^ k := by
  rw [degree, Transform.size_eq, ← pow_succ'] at hdvd
  obtain ⟨k, -, hk⟩ := (Nat.dvd_prime_pow Nat.prime_two).1 hdvd
  exact ⟨k, hk⟩

theorem two_pow_dvd {m k : ℕ} (hdvd : m ∣ 2 * ring.degree) (hle : 2 ^ k ≤ m) : 2 ^ k ∣ m := by
  obtain ⟨j, rfl⟩ := exists_two_pow hdvd
  exact pow_dvd_pow 2 ((Nat.pow_le_pow_iff_right one_lt_two).1 hle)

/-- The quotient ring to which the polynomials belong. -/
abbrev Element (ring : NegacyclicRing) : Type := Negacyclic ring.degree ring.modulus.value

noncomputable def element (ring : NegacyclicRing) (a : Poly) : ring.Element :=
  ofCoeffs (ring.modulus.entries a)

/-- The value at which entry `j` of a transform is taken. -/
def leaf (ring : NegacyclicRing) (j : ℕ) : ZMod ring.modulus.value := ring.transform.leaf j

/-- The tables let the transform evaluate. -/
def Evaluates (ring : NegacyclicRing) : Prop := ring.transform.Evaluates

/-- The tables let both transforms be computed. -/
def Runs (ring : NegacyclicRing) : Prop := ring.transform.Runs

theorem Valid.runs (hr : ring.Valid) : ring.Runs := Transform.Valid.runs hr

theorem Runs.evaluates (hr : ring.Runs) : ring.Evaluates := Transform.Runs.toEvaluates hr

theorem Valid.evaluates (hr : ring.Valid) : ring.Evaluates := hr.runs.evaluates

theorem check_runs {n q : ℕ} (h : check n q = .ok ring) : ring.Runs := by
  obtain ⟨-, -, h⟩ := Checked.bind_eq_ok.1 h
  obtain ⟨t, ht, h⟩ := Checked.bind_eq_ok.1 h
  cases h
  exact Transform.check_runs ht

theorem check_evaluates {n q : ℕ} (h : check n q = .ok ring) : ring.Evaluates := (check_runs h).evaluates

theorem Evaluates.leaf_pow (hr : ring.Evaluates) {j : ℕ} (hj : j < ring.degree) :
    ring.leaf j ^ ring.degree = -1 :=
  Transform.Evaluates.leaf_pow hr hj

private theorem eval₂_leaf (hr : ring.Evaluates) (j : Fin ring.degree) :
    Polynomial.eval₂ (RingHom.id _) (ring.leaf j)
      (Polynomial.X ^ ring.degree + 1 : Polynomial (ZMod ring.modulus.value)) = 0 := by
  rw [Polynomial.eval₂_add, Polynomial.eval₂_pow, Polynomial.eval₂_X, Polynomial.eval₂_one]
  exact add_eq_zero_iff_eq_neg.2 (hr.leaf_pow j.2)

/-- The values of an element at the leaves of the transform. -/
noncomputable def evalHom (hr : ring.Evaluates) :
    ring.Element →+* (Fin ring.degree → ZMod ring.modulus.value) :=
  RingHom.pi fun j => AdjoinRoot.lift (RingHom.id _) (ring.leaf j) (eval₂_leaf hr j)

/-- The values of an element, for tables that also undo the transform. -/
noncomputable def valuesHom (hr : ring.Valid) :
    ring.Element →+* (Fin ring.degree → ZMod ring.modulus.value) :=
  evalHom hr.evaluates

def values (ring : NegacyclicRing) (a : Poly) : Fin ring.degree → ZMod ring.modulus.value :=
  fun j => ring.modulus.entries a j

theorem evalHom_ofCoeffs (hr : ring.Evaluates) (c : ℕ → ZMod ring.modulus.value)
    (j : Fin ring.degree) :
    evalHom hr (ofCoeffs c) j = evaluate ring.degree c (ring.leaf j) := by
  rw [evalHom, RingHom.pi_apply, ofCoeffs, evaluate, map_sum]
  apply sum_congr rfl
  intro i _
  rw [map_mul, map_pow, x, AdjoinRoot.lift_root, AdjoinRoot.algebraMap_eq, AdjoinRoot.lift_of,
    RingHom.id_apply]

theorem valuesHom_ofCoeffs (hr : ring.Valid) (c : ℕ → ZMod ring.modulus.value)
    (j : Fin ring.degree) :
    valuesHom hr (ofCoeffs c) j = evaluate ring.degree c (ring.leaf j) :=
  evalHom_ofCoeffs hr.evaluates c j

theorem Evaluates.exists_forward (hr : ring.Evaluates) {a : Poly}
    (ha : ring.modulus.Reduced ring.degree a) :
    ∃ r, ring.forward a = .ok r ∧ ring.modulus.Reduced ring.degree r ∧
      ring.values r = evalHom hr (ring.element a) := by
  obtain ⟨r, hr', hred, hvalues⟩ := Transform.Evaluates.exists_forward hr ha
  refine ⟨r, hr', hred, ?_⟩
  funext j
  rw [element, evalHom_ofCoeffs]
  exact hvalues j j.2

theorem exists_forward (hr : ring.Valid) {a : Poly} (ha : ring.modulus.Reduced ring.degree a) :
    ∃ r, ring.forward a = .ok r ∧ ring.modulus.Reduced ring.degree r ∧
      ring.values r = valuesHom hr (ring.element a) :=
  hr.evaluates.exists_forward ha

theorem Runs.exists_backward (hr : ring.Runs) {a : Poly} (ha : ring.modulus.Reduced ring.degree a) :
    ∃ r, ring.backward a = .ok r ∧ ring.modulus.Reduced ring.degree r ∧
      ∀ hvalid : ring.Valid, valuesHom hvalid (ring.element r) = ring.values a := by
  obtain ⟨r, hr', hred, hvalues⟩ := Transform.Runs.exists_backward hr ha
  refine ⟨r, hr', hred, fun hvalid => ?_⟩
  funext j
  rw [element, valuesHom_ofCoeffs]
  exact hvalues hvalid j j.2

theorem exists_backward (hr : ring.Valid) {a : Poly} (ha : ring.modulus.Reduced ring.degree a) :
    ∃ r, ring.backward a = .ok r ∧ ring.modulus.Reduced ring.degree r ∧
      valuesHom hr (ring.element r) = ring.values a := by
  obtain ⟨r, hback, hred, hvalues⟩ := hr.runs.exists_backward ha
  exact ⟨r, hback, hred, hvalues hr⟩

theorem valuesHom_surjective (hr : ring.Valid) : Function.Surjective (valuesHom hr) := by
  intro v
  have hv : ring.values (Array.ofFn fun j => (v j).val) = v := by
    funext j
    rw [values, entries_ofFn j.2]
    simp
  obtain ⟨r, -, -, hvalues⟩ := exists_backward hr (reduced_ofFn fun j => ZMod.val_lt (v j))
  exact ⟨ring.element r, hvalues.trans hv⟩

/-- An element is determined by its values: every list of values is taken, and there are as many of
them as lists of coefficients. -/
theorem valuesHom_injective (hr : ring.Valid) : Function.Injective (valuesHom hr) := by
  have hsurjective := (valuesHom_surjective hr).comp ofCoeffs_surjective
  exact (Finite.injective_iff_surjective.2 hsurjective).of_comp_right ofCoeffs_surjective

section Operations

variable {a b : Poly}

@[simp] theorem element_zero : ring.element ring.zero = 0 :=
  (ofCoeffs_congr fun i _ => entries_replicate i).trans ofCoeffs_zero

theorem reduced_zero : ring.modulus.Reduced ring.degree ring.zero := reduced_replicate

theorem exists_add (ha : ring.modulus.Reduced ring.degree a)
    (hb : ring.modulus.Reduced ring.degree b) :
    ∃ r, ring.add a b = .ok r ∧ ring.modulus.Reduced ring.degree r ∧
      ring.element r = ring.element a + ring.element b := by
  obtain ⟨r, hr, hred, hentries⟩ := exists_addVector ha hb
  exact ⟨r, hr, hred, (ofCoeffs_congr hentries).trans (ofCoeffs_add _ _)⟩

theorem exists_sub (ha : ring.modulus.Reduced ring.degree a)
    (hb : ring.modulus.Reduced ring.degree b) :
    ∃ r, ring.sub a b = .ok r ∧ ring.modulus.Reduced ring.degree r ∧
      ring.element r = ring.element a - ring.element b := by
  obtain ⟨r, hr, hred, hentries⟩ := exists_subVector ha hb
  exact ⟨r, hr, hred, (ofCoeffs_congr hentries).trans (ofCoeffs_sub _ _)⟩

theorem reduced_mul (ha : ring.modulus.Reduced ring.degree a)
    (hb : ring.modulus.Reduced ring.degree b) : ring.modulus.Reduced ring.degree (ring.mul a b) := by
  have hsize : (ring.mul a b).size = ring.degree := by simp [mul, mulInto, zero]
  refine .of_getElem hsize fun i hi => ?_
  have hi' : i < ring.degree := hsize ▸ hi
  simp only [mul, mulInto, Array.getElem_ofFn, ha.size_eq, hb.size_eq, hi', and_self, dite_true]
  exact mul_lt _ _

theorem values_mul (ha : ring.modulus.Reduced ring.degree a)
    (hb : ring.modulus.Reduced ring.degree b) :
    ring.values (ring.mul a b) = ring.values a * ring.values b := by
  funext j
  have hj : j.1 < (ring.mul a b).size := by rw [(reduced_mul ha hb).size_eq]; exact j.2
  have hja : j.1 < a.size := by rw [ha.size_eq]; exact j.2
  have hjb : j.1 < b.size := by rw [hb.size_eq]; exact j.2
  rw [Pi.mul_apply, values, values, values, entries_of_lt hj, entries_of_lt hja, entries_of_lt hjb]
  simp [mul, mulInto, hja, hjb]

theorem exists_backward_mul (hr : ring.Valid) (ha : ring.modulus.Reduced ring.degree a)
    (hb : ring.modulus.Reduced ring.degree b) {x y : ring.Element}
    (hx : ring.values a = valuesHom hr x) (hy : ring.values b = valuesHom hr y) :
    ∃ r, ring.backward (ring.mul a b) = .ok r ∧ ring.modulus.Reduced ring.degree r ∧
      ring.element r = x * y := by
  obtain ⟨r, hback, hred, hvalues⟩ := exists_backward hr (reduced_mul ha hb)
  refine ⟨r, hback, hred, valuesHom_injective hr ?_⟩
  rw [hvalues, values_mul ha hb, hx, hy, map_mul]

end Operations

end NegacyclicRing

end LatticeGates
