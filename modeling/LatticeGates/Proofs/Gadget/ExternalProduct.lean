import LatticeGates.Proofs.Gadget.Recomposition
import LatticeGates.Proofs.Rlwe.Phase
import LatticeGates.Rgsw

/-!
# The external product

Main statement: the product of a gadget encryption of `m` with a ring ciphertext has `m` times the phase
of the ciphertext as its phase, up to the errors of the rows times the digits.
-/

namespace LatticeGates

open Finset Modulus Negacyclic

/-- A polynomial held by its values stands for an element. -/
structure NegacyclicRing.Holds {ring : NegacyclicRing} (hr : ring.Valid) (a : Poly)
    (p : ring.Element) : Prop where
  reduced : ring.modulus.Reduced ring.degree a
  values_eq : ring.values a = ring.valuesHom hr p

namespace NegacyclicRing.Holds

variable {ring : NegacyclicRing} {hr : ring.Valid} {a : Poly} {p : ring.Element}

theorem backward (ha : ring.Holds hr a p) : ∃ r, ring.backward a = .ok r ∧
    ring.modulus.Reduced ring.degree r ∧ ring.element r = p := by
  obtain ⟨r, hback, hred, hvalues⟩ := exists_backward hr ha.reduced
  exact ⟨r, hback, hred, valuesHom_injective hr (hvalues.trans ha.values_eq)⟩

theorem of_backward (ha : ring.modulus.Reduced ring.degree a) {r : Poly}
    (h : ring.backward a = .ok r) : ring.Holds hr a (ring.element r) := by
  obtain ⟨r', hback, -, hvalues⟩ := exists_backward hr ha
  obtain rfl : r' = r := by
    rw [hback] at h
    exact Except.ok.inj h
  exact ⟨ha, hvalues.symm⟩

theorem entries_eq (ha : ring.Holds hr a p) (j : Fin ring.degree) :
    ring.modulus.entries a j = ring.valuesHom hr p j :=
  congrFun ha.values_eq j

theorem replicate (hr : ring.Valid) (c : ℤ) :
    ring.Holds hr (Array.replicate ring.degree (ring.modulus.ofInt c)) (c : ring.Element) := by
  refine ⟨⟨Array.size_replicate, fun x hx => ?_⟩, ?_⟩
  · rw [(Array.mem_replicate.1 hx).2]
    exact ofInt_lt c
  · funext j
    have hj : j.1 < (Array.replicate ring.degree (ring.modulus.ofInt c)).size := by
      rw [Array.size_replicate]
      exact j.2
    rw [NegacyclicRing.values, entries_of_lt hj, Array.getElem_replicate, cast_ofInt, map_intCast]
    rfl

end NegacyclicRing.Holds

namespace Rgsw

variable {ring : NegacyclicRing} {g : Gadget} {z : ring.Element} {bound : ℕ} {m : ℤ} {x : Rgsw}

/-- The phase of a row, which is held by its values. -/
def RowPhase (ring : NegacyclicRing) (z : ring.Element) (row : Rlwe.Ciphertext)
    (p : ring.Element) : Prop :=
  ∃ mask body, ring.backward row.mask = .ok mask ∧ ring.backward row.body = .ok body ∧
    Rlwe.Ciphertext.phaseElement ring z ⟨mask, body⟩ = p

/-- A gadget encryption of `m` under `z`, with errors up to the bound. -/
structure Encrypts (ring : NegacyclicRing) (g : Gadget) (z : ring.Element) (bound : ℕ) (m : ℤ)
    (x : Rgsw) : Prop where
  size_eq : x.rows.size = 2 * g.digits
  reduced : ∀ (l : ℕ) (hl : l < x.rows.size), x.rows[l].Reduced ring
  maskRow : ∀ (l : ℕ) (hl : l < x.rows.size), l < g.digits → ∃ e, Small bound e ∧
    RowPhase ring z x.rows[l] (-((m : ring.Element) * (g.base : ring.Element) ^ l) * z + e)
  bodyRow : ∀ (l : ℕ) (hl : g.digits + l < x.rows.size), ∃ e, Small bound e ∧
    RowPhase ring z x.rows[g.digits + l] ((m : ring.Element) * (g.base : ring.Element) ^ l + e)

section DigitValues

theorem exists_digitValues_of_decompose (hr : ring.Evaluates) {a : Poly} (hsize : a.size = ring.degree)
    {digits : Array Poly} (hdigits : g.decompose a = .ok digits)
    (hred : ∀ (l : ℕ) (hl : l < digits.size), ring.modulus.Reduced ring.degree digits[l]) :
    ∃ rows, digitValues ring g g.digits a = .ok rows ∧ rows.size = digits.size ∧
      ∀ (l : ℕ) (hl : l < rows.size), ring.modulus.Reduced ring.degree rows[l] ∧
        ring.values rows[l] = NegacyclicRing.evalHom hr (ring.element (digits.getD l #[])) := by
  obtain ⟨rows, hrows, hrows_size, hforward⟩ := exists_tabulate (n := digits.size)
    (f := fun l hl => ring.forward digits[l]) (P := fun l r => ring.modulus.Reduced ring.degree r ∧
      ring.values r = NegacyclicRing.evalHom hr (ring.element (digits.getD l #[]))) fun l hl => by
      have hforward := hr.exists_forward (hred l hl)
      rwa [Array.getElem_eq_getD #[]] at hforward ⊢
  refine ⟨rows, ?_, hrows_size, hforward⟩
  simp [digitValues, Gadget.decomposeInto, hdigits, hsize, mapChecked, hrows]

/-- The values of the digits of a polynomial: small elements that recompose to it. -/
theorem exists_digitValues (hr : ring.Valid) (hg : g.Valid) (hm : g.modulus = ring.modulus)
    {a : Poly} (ha : ring.modulus.Reduced ring.degree a) :
    ∃ rows, digitValues ring g g.digits a = .ok rows ∧ rows.size = g.digits ∧
      ∃ d : ℕ → ring.Element,
        (∀ (l : ℕ) (hl : l < rows.size), Small (g.base / 2) (d l) ∧ ring.Holds hr rows[l] (d l)) ∧
        ring.element a = ∑ l ∈ range g.digits, d l * (g.base : ring.Element) ^ l := by
  obtain ⟨digits, hdigits, hsize, e, hdigit, hsum⟩ := hg.exists_decompose (hm ▸ ha)
  rw [hm] at hsum hdigit
  obtain ⟨rows, hrows, hrows_size, hvalues⟩ := exists_digitValues_of_decompose hr.evaluates ha.size_eq hdigits
    fun l hl => (hdigit l hl).1
  have helement (l : ℕ) (hl : l < digits.size) : ring.element (digits.getD l #[]) =
      ofCoeffs fun i => (e l i : ZMod ring.modulus.value) := by
    rw [← Array.getElem_eq_getD (h := hl)]
    exact ofCoeffs_congr fun i hi => ((hdigit l hl).2 i hi).2
  refine ⟨rows, hrows, hrows_size.trans hsize, fun l => ofCoeffs fun i => (e l i : ZMod ring.modulus.value),
    fun l hl => ⟨⟨e l, fun i hi => ?_, rfl⟩, ?_⟩, ?_⟩
  · exact ((hdigit l (hrows_size ▸ hl)).2 i hi).1
  · have hrow := hvalues l hl
    rw [helement l (hrows_size ▸ hl)] at hrow
    exact ⟨hrow.1, hrow.2⟩
  · rw [NegacyclicRing.element, ofCoeffs_congr hsum]
    exact ofCoeffs_recompose _ _ _

end DigitValues

section Combine

variable {maskDigits bodyDigits : Array Poly}

private theorem fold_add (f g : ℕ → ℕ) (n : ℕ) :
    n.fold (fun l _ acc => acc + f l + g l) 0 = ∑ l ∈ range n, (f l + g l) := by
  induction n with
  | zero => rfl
  | succ n ih => rw [Nat.fold_succ, ih, sum_range_succ, add_assoc]

theorem cast_entrySum (q : Modulus) (rows : Array Poly) (d i : ℕ) :
    (entrySum rows maskDigits bodyDigits d i : ZMod q.value) =
      ∑ l ∈ range d, (q.entries (maskDigits.getD l #[]) i * q.entries (rows.getD l #[]) i +
        q.entries (bodyDigits.getD l #[]) i * q.entries (rows.getD (d + l) #[]) i) := by
  rw [entrySum, fold_add]
  push_cast
  rfl

private theorem holds_entry {hr : ring.Valid} {rows : Array Poly} {d : ℕ}
    (hrows : rows.size = 2 * d) (hmask : maskDigits.size = d) (hbody : bodyDigits.size = d)
    {u v A : ℕ → ring.Element}
    (hu : ∀ (l : ℕ) (hl : l < maskDigits.size), ring.Holds hr maskDigits[l] (u l))
    (hv : ∀ (l : ℕ) (hl : l < bodyDigits.size), ring.Holds hr bodyDigits[l] (v l))
    (hA : ∀ (l : ℕ) (hl : l < rows.size), ring.Holds hr rows[l] (A l)) :
    ring.Holds hr (Array.ofFn fun i : Fin ring.degree =>
        entrySum rows maskDigits bodyDigits d i % ring.modulus.value)
      (∑ l ∈ range d, (u l * A l + v l * A (d + l))) := by
  refine ⟨reduced_ofFn fun i => Nat.mod_lt _ ring.modulus.pos, ?_⟩
  funext j
  rw [NegacyclicRing.values, entries_ofFn j.2, ZMod.natCast_mod, cast_entrySum, map_sum,
    Finset.sum_apply]
  apply sum_congr rfl
  intro l hl
  have hl := mem_range.1 hl
  have hd (rows : Array Poly) (i : ℕ) (hi : i < rows.size) : rows.getD i #[] = rows[i] :=
    (Array.getElem_eq_getD (h := hi) _).symm
  rw [hd maskDigits l (by omega), hd bodyDigits l (by omega), hd rows l (by omega),
    hd rows (d + l) (by omega), (hu l _).entries_eq, (hv l _).entries_eq, (hA l _).entries_eq,
    (hA (d + l) _).entries_eq, map_add, map_mul, map_mul]
  rfl

theorem exists_combine {hr : ring.Valid} {d : ℕ} (hrows : x.rows.size = 2 * d)
    (hmask : maskDigits.size = d) (hbody : bodyDigits.size = d) {u v A B : ℕ → ring.Element}
    (hu : ∀ (l : ℕ) (hl : l < maskDigits.size), ring.Holds hr maskDigits[l] (u l))
    (hv : ∀ (l : ℕ) (hl : l < bodyDigits.size), ring.Holds hr bodyDigits[l] (v l))
    (hA : ∀ (l : ℕ) (hl : l < x.rows.size), ring.Holds hr x.rows[l].mask (A l))
    (hB : ∀ (l : ℕ) (hl : l < x.rows.size), ring.Holds hr x.rows[l].body (B l)) :
    ∃ r, combine ring x maskDigits bodyDigits = .ok r ∧
      ring.Holds hr r.mask (∑ l ∈ range d, (u l * A l + v l * A (d + l))) ∧
      ring.Holds hr r.body (∑ l ∈ range d, (u l * B l + v l * B (d + l))) := by
  have hd : x.digits = d := by
    rw [digits, hrows]
    omega
  have hmasks : (x.rows.map (·.mask)).size = 2 * d := by rw [Array.size_map, hrows]
  have hbodies : (x.rows.map (·.body)).size = 2 * d := by rw [Array.size_map, hrows]
  have hmaskSum := holds_entry hmasks hmask hbody hu hv fun l hl => by
    rw [Array.getElem_map]
    exact hA l (by simpa using hl)
  have hbodySum := holds_entry hbodies hmask hbody hu hv fun l hl => by
    rw [Array.getElem_map]
    exact hB l (by simpa using hl)
  have hcombine : combine ring x maskDigits bodyDigits = .ok
      ⟨Array.ofFn fun i : Fin ring.degree =>
        entrySum (x.rows.map (·.mask)) maskDigits bodyDigits d i % ring.modulus.value,
      Array.ofFn fun i : Fin ring.degree =>
        entrySum (x.rows.map (·.body)) maskDigits bodyDigits d i % ring.modulus.value⟩ := by
    rw [combine, hd, hmask, hbody]
    simp only [le_refl, and_self, decide_true, ensure_true, Checked.ok_bind, Checked.pure_eq]
  exact ⟨_, hcombine, hmaskSum, hbodySum⟩

end Combine

theorem RowPhase.exists_holds (hr : ring.Valid) {row : Rlwe.Ciphertext} {p : ring.Element}
    (hrow : row.Reduced ring) (h : RowPhase ring z row p) :
    ∃ a b, ring.Holds hr row.mask a ∧ ring.Holds hr row.body b ∧ b - a * z = p := by
  obtain ⟨mask, body, hm, hb, hp⟩ := h
  exact ⟨_, _, .of_backward hrow.mask hm, .of_backward hrow.body hb, hp⟩

theorem exists_holds_rows (hr : ring.Valid) {p : ℕ → ring.Element}
    (h : ∀ (l : ℕ) (hl : l < x.rows.size), x.rows[l].Reduced ring ∧ RowPhase ring z x.rows[l] (p l)) :
    ∃ A B : ℕ → ring.Element,
      (∀ (l : ℕ) (hl : l < x.rows.size), ring.Holds hr x.rows[l].mask (A l)) ∧
      (∀ (l : ℕ) (hl : l < x.rows.size), ring.Holds hr x.rows[l].body (B l)) ∧
      ∀ l < x.rows.size, B l - A l * z = p l := by
  have hrow (l : ℕ) (hl : l < x.rows.size) : ∃ a b, ring.Holds hr x.rows[l].mask a ∧
      ring.Holds hr x.rows[l].body b ∧ b - a * z = p l := (h l hl).2.exists_holds hr (h l hl).1
  choose! A B hA hB hp using hrow
  exact ⟨A, B, hA, hB, hp⟩

private theorem Encrypts.exists_rows (hr : ring.Valid) (hx : Encrypts ring g z bound m x) :
    ∃ A B : ℕ → ring.Element,
      (∀ (l : ℕ) (hl : l < x.rows.size), ring.Holds hr x.rows[l].mask (A l)) ∧
      (∀ (l : ℕ) (hl : l < x.rows.size), ring.Holds hr x.rows[l].body (B l)) ∧
      ∃ e : ℕ → ring.Element, (∀ l < 2 * g.digits, Small bound (e l)) ∧ ∀ l < g.digits,
        B l - A l * z = -((m : ring.Element) * (g.base : ring.Element) ^ l) * z + e l ∧
        B (g.digits + l) - A (g.digits + l) * z =
          (m : ring.Element) * (g.base : ring.Element) ^ l + e (g.digits + l) := by
  have hsize := hx.size_eq
  have hrow : ∀ l, l < x.rows.size → ∃ e, Small bound e ∧ ∀ hl : l < x.rows.size,
      RowPhase ring z x.rows[l] ((if l < g.digits then -((m : ring.Element) * (g.base : ring.Element) ^ l) * z
        else (m : ring.Element) * (g.base : ring.Element) ^ (l - g.digits)) + e) := by
    intro l hl
    by_cases hlow : l < g.digits
    · obtain ⟨e, he, hphase⟩ := hx.maskRow l hl hlow
      exact ⟨e, he, fun _ => by rwa [if_pos hlow]⟩
    · obtain ⟨k, rfl⟩ := Nat.exists_eq_add_of_le (not_lt.1 hlow)
      obtain ⟨e, he, hphase⟩ := hx.bodyRow k (by omega)
      exact ⟨e, he, fun _ => by rwa [if_neg hlow, Nat.add_sub_cancel_left]⟩
  choose! e he hphase using hrow
  obtain ⟨A, B, hA, hB, hp⟩ :=
    exists_holds_rows hr fun l hl => ⟨hx.reduced l hl, hphase l hl hl⟩
  refine ⟨A, B, hA, hB, e, fun l hl => he l (by omega), fun l hl => ⟨?_, ?_⟩⟩
  · rw [hp l (by omega), if_pos hl]
  · rw [hp (g.digits + l) (by omega), if_neg (by omega), Nat.add_sub_cancel_left]

/-- The phase of a sum of rows, each times its digit: `m` times the phase that the digits recompose to, and the
errors of the rows times the digits. -/
theorem phase_combination {d : ℕ} {w : ring.Element} {A B e u v : ℕ → ring.Element}
    (hrows : ∀ l < d, B l - A l * z = -((m : ring.Element) * w ^ l) * z + e l ∧
      B (d + l) - A (d + l) * z = (m : ring.Element) * w ^ l + e (d + l)) :
    ∑ l ∈ range d, (u l * B l + v l * B (d + l)) - (∑ l ∈ range d, (u l * A l + v l * A (d + l))) * z =
      m * (∑ l ∈ range d, v l * w ^ l - (∑ l ∈ range d, u l * w ^ l) * z) +
        ∑ l ∈ range d, (u l * e l + v l * e (d + l)) := by
  rw [sum_mul, sum_mul, mul_sub, mul_sum, mul_sum, ← sum_sub_distrib, ← sum_sub_distrib, ← sum_add_distrib]
  apply sum_congr rfl
  intro l hl
  obtain ⟨hlow, hhigh⟩ := hrows l (mem_range.1 hl)
  linear_combination u l * hlow + v l * hhigh

theorem Encrypts.exists_combine (hr : ring.Valid) (hg : g.Valid) (hx : Encrypts ring g z bound m x)
    {maskDigits bodyDigits : Array Poly} (hmask : maskDigits.size = g.digits)
    (hbody : bodyDigits.size = g.digits) {u v : ℕ → ring.Element}
    (hu : ∀ (l : ℕ) (hl : l < maskDigits.size),
      Small (g.base / 2) (u l) ∧ ring.Holds hr maskDigits[l] (u l))
    (hv : ∀ (l : ℕ) (hl : l < bodyDigits.size),
      Small (g.base / 2) (v l) ∧ ring.Holds hr bodyDigits[l] (v l))
    {a b : ring.Element} (ha : a = ∑ l ∈ range g.digits, u l * (g.base : ring.Element) ^ l)
    (hb : b = ∑ l ∈ range g.digits, v l * (g.base : ring.Element) ^ l) :
    ∃ r, combine ring x maskDigits bodyDigits = .ok r ∧ ∃ mask body : ring.Element,
      ring.Holds hr r.mask mask ∧ ring.Holds hr r.body body ∧
      Small (g.digits * (ring.degree * (g.base * bound)))
        (body - mask * z - (m : ring.Element) * (b - a * z)) := by
  obtain ⟨A, B, hA, hB, e, he, hrows⟩ := hx.exists_rows hr
  obtain ⟨r, hr', hrmask, hrbody⟩ := Rgsw.exists_combine hx.size_eq hmask hbody
    (fun l hl => (hu l hl).2) (fun l hl => (hv l hl).2) hA hB
  refine ⟨r, hr', _, _, hrmask, hrbody, ?_⟩
  rw [phase_combination hrows, ← ha, ← hb, add_sub_cancel_left]
  apply Small.sum
  intro l hl
  obtain ⟨h, -, -, hbase⟩ := hg.exists_half
  have hhalf : g.base / 2 = h := by omega
  refine (((hu l (by omega)).1.mul (he l (by omega))).add
    ((hv l (by omega)).1.mul (he (g.digits + l) (by omega)))).mono (le_of_eq ?_)
  rw [hhalf, hbase]
  ring

/-- The external product with an encryption of `m` multiplies the phase by `m`. -/
theorem Encrypts.exists_externalProduct (hr : ring.Valid) (hg : g.Valid)
    (hm : g.modulus = ring.modulus) (hx : Encrypts ring g z bound m x) {ct : Rlwe.Ciphertext}
    (hct : ct.Reduced ring) :
    ∃ r, externalProduct ring g x ct = .ok r ∧ r.Reduced ring ∧
      Small (g.digits * (ring.degree * (g.base * bound)))
        (r.phaseElement ring z - (m : ring.Element) * ct.phaseElement ring z) := by
  have hd : x.digits = g.digits := by
    rw [digits, hx.size_eq]
    omega
  obtain ⟨maskDigits, hmd, hmsize, u, hu, ha⟩ := exists_digitValues hr hg hm hct.mask
  obtain ⟨bodyDigits, hbd, hbsize, v, hv, hb⟩ := exists_digitValues hr hg hm hct.body
  obtain ⟨r, hcombine, mask, body, hrmask, hrbody, hsmall⟩ :=
    hx.exists_combine hr hg hmsize hbsize hu hv ha hb
  obtain ⟨rmask, hbackm, hredm, helm⟩ := hrmask.backward
  obtain ⟨rbody, hbackb, hredb, helb⟩ := hrbody.backward
  refine ⟨⟨rmask, rbody⟩, ?_, ⟨hredm, hredb⟩, ?_⟩
  · simp [externalProduct, hd, hmd, hbd, hcombine, hbackm, hbackb]
  · rw [Rlwe.Ciphertext.phaseElement, helm, helb]
    exact hsmall

section Noiseless

/-- The gadget ciphertext of `m` without masks and errors: the gadget itself. -/
def noiseless (ring : NegacyclicRing) (g : Gadget) (m : ℤ) : Rgsw :=
  let value (c : ℤ) : Poly := Array.replicate ring.degree (ring.modulus.ofInt c)
  ⟨Array.ofFn fun l : Fin (2 * g.digits) =>
    if l < g.digits then ⟨value (m * g.base ^ l.1), value 0⟩
    else ⟨value 0, value (m * g.base ^ (l - g.digits))⟩⟩

private theorem rowPhase_replicate (hr : ring.Valid) (a b : ℤ) :
    RowPhase ring z ⟨Array.replicate ring.degree (ring.modulus.ofInt a),
      Array.replicate ring.degree (ring.modulus.ofInt b)⟩ (b - a * z) := by
  obtain ⟨mask, hmask, -, ha⟩ := (NegacyclicRing.Holds.replicate hr a).backward
  obtain ⟨body, hbody, -, hb⟩ := (NegacyclicRing.Holds.replicate hr b).backward
  exact ⟨mask, body, hmask, hbody, by rw [Rlwe.Ciphertext.phaseElement, ha, hb]⟩

theorem encrypts_noiseless (hr : ring.Valid) : (noiseless ring g m).Encrypts ring g z 0 m := by
  refine ⟨Array.size_ofFn, fun l hl => ?_, fun l hl hlow => ⟨0, Small.zero, ?_⟩,
    fun l hl => ⟨0, Small.zero, ?_⟩⟩
  · simp only [noiseless, Array.getElem_ofFn]
    split <;>
      exact ⟨(NegacyclicRing.Holds.replicate hr _).reduced, (NegacyclicRing.Holds.replicate hr _).reduced⟩
  · simp only [noiseless, Array.getElem_ofFn, if_pos hlow]
    convert rowPhase_replicate hr (m * g.base ^ l) 0 using 1
    push_cast
    ring
  · have hhigh : ¬g.digits + l < g.digits := by omega
    simp only [noiseless, Array.getElem_ofFn, if_neg hhigh, Nat.add_sub_cancel_left]
    convert rowPhase_replicate hr 0 (m * g.base ^ l) using 1
    push_cast
    ring

end Noiseless

end Rgsw

end LatticeGates
