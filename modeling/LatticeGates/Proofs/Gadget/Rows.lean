import LatticeGates.Proofs.Rlwe.Phase
import LatticeGates.Rgsw

/-!
# Gadget ciphertexts by the values of their rows

The rows of a gadget ciphertext are held by their values. Main statements: rows with given values add up entry by
entry, and adding a multiple of the gadget adds a constant to the masks of the first half and to the bodies of the
second one. None of this needs the transform to be undone, so it holds for any modulus.
-/

namespace LatticeGates

open Finset Modulus

namespace NegacyclicRing

variable {ring : NegacyclicRing}

abbrev Values (ring : NegacyclicRing) : Type := Fin ring.degree → ZMod ring.modulus.value

/-- A polynomial that is held by given values. -/
structure Takes (ring : NegacyclicRing) (a : Poly) (v : ring.Values) : Prop where
  reduced : ring.modulus.Reduced ring.degree a
  values_eq : ring.values a = v

noncomputable def signed (ring : NegacyclicRing) (e : Array ℤ) : ring.Element :=
  ring.element (ring.ofSigned e)

theorem signed_eq {e : Array ℤ} (he : e.size = ring.degree) :
    ring.signed e = Negacyclic.ofCoeffs fun i => ((e.getD i 0 : ℤ) : ZMod ring.modulus.value) := by
  refine Negacyclic.ofCoeffs_congr fun i hi => ?_
  have hie : i < e.size := he ▸ hi
  rw [Rlwe.entries_ofSigned hie, Array.getElem_eq_getD]

namespace Takes

variable {a b : Poly} {v w : ring.Values}

theorem ext (ha : ring.Takes a v) (hb : ring.Takes b v) : a = b :=
  ha.reduced.ext hb.reduced fun i hi =>
    congrFun (ha.values_eq.trans hb.values_eq.symm) (⟨i, hi⟩ : Fin ring.degree)

theorem of_entries (ha : ring.modulus.Reduced ring.degree a)
    (h : ∀ i (hi : i < ring.degree), ring.modulus.entries a i = v ⟨i, hi⟩) : ring.Takes a v :=
  ⟨ha, funext fun j => h j j.2⟩

theorem entries_eq (ha : ring.Takes a v) {i : ℕ} (hi : i < ring.degree) :
    ring.modulus.entries a i = v ⟨i, hi⟩ :=
  congrFun ha.values_eq ⟨i, hi⟩

theorem zero : ring.Takes (Array.replicate ring.degree 0) 0 :=
  of_entries reduced_replicate fun i _ => entries_replicate i

theorem exists_add (ha : ring.Takes a v) (hb : ring.Takes b w) :
    ∃ r, ring.add a b = .ok r ∧ ring.Takes r (v + w) := by
  obtain ⟨r, hr, hred, hentries⟩ := exists_addVector ha.reduced hb.reduced
  refine ⟨r, hr, of_entries hred fun i hi => ?_⟩
  rw [hentries i hi, ha.entries_eq hi, hb.entries_eq hi]
  rfl

theorem exists_sub (ha : ring.Takes a v) (hb : ring.Takes b w) :
    ∃ r, ring.sub a b = .ok r ∧ ring.Takes r (v - w) := by
  obtain ⟨r, hr, hred, hentries⟩ := exists_subVector ha.reduced hb.reduced
  refine ⟨r, hr, of_entries hred fun i hi => ?_⟩
  rw [hentries i hi, ha.entries_eq hi, hb.entries_eq hi]
  rfl

theorem mul (ha : ring.Takes a v) (hb : ring.Takes b w) : ring.Takes (ring.mul a b) (v * w) := by
  refine ⟨reduced_mul ha.reduced hb.reduced, ?_⟩
  rw [values_mul ha.reduced hb.reduced, ha.values_eq, hb.values_eq]

theorem exists_addScalar (ha : ring.Takes a v) {c : ℕ} (hc : c < ring.modulus.value) :
    ∃ r, ring.addScalar a c = .ok r ∧ ring.Takes r (v + fun _ => (c : ZMod ring.modulus.value)) := by
  have hadd {x : ℕ} (hx : x < ring.modulus.value) :
      ∃ r, ring.modulus.add x c = .ok r ∧ r < ring.modulus.value ∧
        (r : ZMod ring.modulus.value) = x + c := Modulus.exists_add hx hc
  obtain ⟨r, hr, hred, hentries⟩ := exists_mapChecked (g := (· + (c : ZMod ring.modulus.value))) hadd ha.reduced
  refine ⟨r, hr, of_entries hred fun i hi => ?_⟩
  rw [hentries i hi, ha.entries_eq hi]
  rfl

theorem mulInto (ha : ring.Takes a v) (hb : ring.Takes b w) {r : Poly} (hr : r.size = ring.degree) :
    ring.Takes (ring.mulInto r a b) (v * w) := by
  have hsize : (ring.mulInto r a b).size = ring.degree := by rw [NegacyclicRing.mulInto, Array.size_ofFn, hr]
  have hentry (i : ℕ) (hi : i < (ring.mulInto r a b).size) : ∃ (hia : i < a.size) (hib : i < b.size),
      (ring.mulInto r a b)[i] = ring.modulus.mul a[i] b[i] := by
    have hia : i < a.size := by rw [ha.reduced.size_eq, ← hsize]; exact hi
    have hib : i < b.size := by rw [hb.reduced.size_eq, ← hsize]; exact hi
    exact ⟨hia, hib, by simp [NegacyclicRing.mulInto, hia, hib]⟩
  refine of_entries (.of_getElem hsize fun i hi => ?_) fun i hi => ?_
  · obtain ⟨_, _, h⟩ := hentry i hi
    rw [h]
    exact mul_lt _ _
  · have hi' : i < (ring.mulInto r a b).size := hsize ▸ hi
    obtain ⟨hia, hib, h⟩ := hentry i hi'
    rw [entries_of_lt hi', h, cast_mul, ← entries_of_lt hia, ← entries_of_lt hib, ha.entries_eq hi,
      hb.entries_eq hi]
    rfl

theorem exists_valuesOf (hr : ring.Evaluates) {e : Array ℤ} (he : e.size = ring.degree) :
    ∃ r, Rgsw.valuesOf ring e = .ok r ∧ ring.Takes r (evalHom hr (ring.signed e)) := by
  obtain ⟨r, hforward, hred, hvalues⟩ := hr.exists_forward (Rlwe.reduced_ofSigned he)
  exact ⟨r, hforward, hred, hvalues⟩

end Takes

end NegacyclicRing

theorem Rlwe.Secret.exists_takes {ring : NegacyclicRing} (hr : ring.Evaluates) {s : Lwe.Secret}
    (hdim : s.dimension = ring.degree) : ∃ sk, Rlwe.Secret.ofLwe ring s = .ok sk ∧
      ring.Takes sk.values (NegacyclicRing.evalHom hr (ring.signed s.coefficients)) := by
  obtain ⟨values, hvalues, htakes⟩ := NegacyclicRing.Takes.exists_valuesOf hr hdim
  refine ⟨⟨s.coefficients, values⟩, ?_, htakes⟩
  rw [Rlwe.Secret.ofLwe, hdim, beq_self_eq_true, ensure_true, Checked.ok_bind]
  exact Checked.bind_eq_ok.2 ⟨values, hvalues, rfl⟩

namespace Rgsw

open NegacyclicRing

variable {ring : NegacyclicRing} {d : ℕ} {x y : Rgsw}

abbrev RowValues (ring : NegacyclicRing) : Type := ring.Values × ring.Values

variable {v w : ℕ → RowValues ring}

structure RowTakes (ring : NegacyclicRing) (row : Rlwe.Ciphertext) (v : RowValues ring) : Prop where
  mask : ring.Takes row.mask v.1
  body : ring.Takes row.body v.2

/-- A gadget ciphertext of `2 d` rows with given values. -/
structure HasRows (ring : NegacyclicRing) (d : ℕ) (x : Rgsw) (v : ℕ → RowValues ring) : Prop where
  size_eq : x.rows.size = 2 * d
  row : ∀ (l : ℕ) (hl : l < x.rows.size), RowTakes ring x.rows[l] (v l)

namespace HasRows

theorem congr (h : HasRows ring d x v) (hvw : ∀ l < 2 * d, v l = w l) : HasRows ring d x w :=
  ⟨h.size_eq, fun l hl => hvw l (h.size_eq ▸ hl) ▸ h.row l hl⟩

theorem ext (hx : HasRows ring d x v) (hy : HasRows ring d y v) : x = y := by
  obtain ⟨rows⟩ := x
  obtain ⟨rows'⟩ := y
  congr 1
  apply Array.ext
  · exact hx.size_eq.trans hy.size_eq.symm
  · intro l hl hl'
    have hmask := (hx.row l hl).mask.ext (hy.row l hl').mask
    have hbody := (hx.row l hl).body.ext (hy.row l hl').body
    change rows[l].mask = rows'[l].mask at hmask
    change rows[l].body = rows'[l].body at hbody
    generalize rows[l] = row at hmask hbody ⊢
    generalize rows'[l] = row' at hmask hbody ⊢
    cases row
    cases row'
    exact congrArg₂ Rlwe.Ciphertext.mk hmask hbody

theorem getD (h : HasRows ring d x v) {l : ℕ} (hl : l < 2 * d) :
    RowTakes ring (x.rows.getD l (.zero 0)) (v l) := by
  have hl : l < x.rows.size := h.size_eq ▸ hl
  rw [← Array.getElem_eq_getD (h := hl)]
  exact h.row l hl

theorem exists_tabulate {n : ℕ} {f : (l : ℕ) → l < n → Checked Rlwe.Ciphertext} (hn : n = 2 * d)
    (hf : ∀ l hl, ∃ row, f l hl = .ok row ∧ RowTakes ring row (v l)) :
    ∃ rows, tabulate n f = .ok rows ∧ HasRows ring d ⟨rows⟩ v := by
  obtain ⟨rows, hrows, hsize, hrow⟩ := LatticeGates.exists_tabulate hf
  exact ⟨rows, hrows, hsize.trans hn, hrow⟩

theorem exists_add (hx : HasRows ring d x v) (hy : HasRows ring d y w) :
    ∃ r, add ring x y = .ok r ∧ HasRows ring d r (v + w) := by
  have hsize : min x.rows.size y.rows.size = 2 * d := by rw [hx.size_eq, hy.size_eq, min_self]
  obtain ⟨rows, hrows, hhas⟩ : ∃ rows, zipChecked (fun r s : Rlwe.Ciphertext =>
      (do return ⟨← ring.add r.mask s.mask, ← ring.add r.body s.body⟩ : Checked Rlwe.Ciphertext))
        x.rows y.rows = .ok rows ∧ HasRows ring d ⟨rows⟩ (v + w) := by
    refine exists_tabulate hsize fun l hl => ?_
    have hlx : l < x.rows.size := by omega
    have hly : l < y.rows.size := by omega
    obtain ⟨mask, hmask, hmaskTakes⟩ := (hx.row l hlx).mask.exists_add (hy.row l hly).mask
    obtain ⟨body, hbody, hbodyTakes⟩ := (hx.row l hlx).body.exists_add (hy.row l hly).body
    refine ⟨⟨mask, body⟩, ?_, hmaskTakes, hbodyTakes⟩
    exact Checked.bind_eq_ok.2 ⟨mask, hmask, Checked.bind_eq_ok.2 ⟨body, hbody, rfl⟩⟩
  refine ⟨⟨rows⟩, ?_, hhas⟩
  rw [add, hx.size_eq, hy.size_eq, beq_self_eq_true, ensure_true, Checked.ok_bind, hrows]
  rfl

theorem exists_modifyRow (h : HasRows ring d x v) {k : ℕ} (hk : k < 2 * d) {r : RowValues ring}
    {f : Rlwe.Ciphertext → Checked Rlwe.Ciphertext}
    (hf : ∀ row, RowTakes ring row (v k) → ∃ row', f row = .ok row' ∧ RowTakes ring row' r) :
    ∃ y, modifyRow x k f = .ok y ∧ HasRows ring d y (Function.update v k r) := by
  have hkx : k < x.rows.size := h.size_eq ▸ hk
  obtain ⟨row, hrow, htakes⟩ := hf _ (h.row k hkx)
  refine ⟨⟨x.rows.set k row⟩, ?_, by rw [Array.size_set, h.size_eq], fun l hl => ?_⟩
  · rw [modifyRow, dif_pos hkx, hrow]
    rfl
  · have hlx : l < x.rows.size := by rwa [Array.size_set] at hl
    by_cases hlk : k = l
    · subst hlk
      rwa [Function.update_self, Array.getElem_set_self]
    · rw [Function.update_of_ne (Ne.symm hlk), Array.getElem_set_ne hkx hlx hlk]
      exact h.row l hlx

theorem exists_addToMask (h : HasRows ring d x v) {k : ℕ} (hk : k < 2 * d) {c : ℕ}
    (hc : c < ring.modulus.value) :
    ∃ y, modifyRow x k (fun row => return { row with mask := ← ring.addScalar row.mask c }) = .ok y ∧
      HasRows ring d y (Function.update v k (v k + (fun _ => (c : ZMod ring.modulus.value), 0))) := by
  refine h.exists_modifyRow hk fun row hrow => ?_
  obtain ⟨mask, hmask, htakes⟩ := hrow.mask.exists_addScalar hc
  refine ⟨⟨mask, row.body⟩, by rw [hmask]; rfl, htakes, ?_⟩
  rw [Prod.snd_add, add_zero]
  exact hrow.body

theorem exists_addToBody (h : HasRows ring d x v) {k : ℕ} (hk : k < 2 * d) {c : ℕ}
    (hc : c < ring.modulus.value) :
    ∃ y, modifyRow x k (fun row => return { row with body := ← ring.addScalar row.body c }) = .ok y ∧
      HasRows ring d y (Function.update v k (v k + (0, fun _ => (c : ZMod ring.modulus.value)))) := by
  refine h.exists_modifyRow hk fun row hrow => ?_
  obtain ⟨body, hbody, htakes⟩ := hrow.body.exists_addScalar hc
  refine ⟨⟨row.mask, body⟩, by rw [hbody]; rfl, ?_, htakes⟩
  rw [Prod.fst_add, add_zero]
  exact hrow.mask

end HasRows

section Gadget

variable {g : Gadget} {k : ℕ} (m : ℤ)

def scaledPower (ring : NegacyclicRing) (g : Gadget) (m : ℤ) (l : ℕ) : ring.Values :=
  fun _ => m * (g.base : ZMod ring.modulus.value) ^ l

private def gadgetRows (ring : NegacyclicRing) (g : Gadget) (m : ℤ) (k l : ℕ) : RowValues ring :=
  (if l < k then scaledPower ring g m l else 0,
    if g.digits ≤ l ∧ l < g.digits + k then scaledPower ring g m (l - g.digits) else 0)

/-- What the gadget adds to a row: a constant to the mask in the first half, to the body in the second. -/
def gadgetRow (ring : NegacyclicRing) (g : Gadget) (m : ℤ) (l : ℕ) : RowValues ring :=
  if l < g.digits then (scaledPower ring g m l, 0) else (0, scaledPower ring g m (l - g.digits))

private theorem update_gadgetRows (hk : k < g.digits) :
    Function.update (Function.update (v + gadgetRows ring g m k) k
        ((v + gadgetRows ring g m k) k + (scaledPower ring g m k, 0))) (g.digits + k)
        ((v + gadgetRows ring g m k) (g.digits + k) + (0, scaledPower ring g m k)) =
      v + gadgetRows ring g m (k + 1) := by
  funext l
  by_cases hlk : l = k
  · subst hlk
    have hne : l ≠ g.digits + l := by omega
    have hbelow : ¬g.digits ≤ l := by omega
    rw [Function.update_of_ne hne, Function.update_self]
    simp [gadgetRows, hbelow, add_assoc]
  · by_cases hdk : l = g.digits + k
    · subst hdk
      have habove : ¬g.digits + k < k + 1 := by omega
      rw [Function.update_self]
      simp [gadgetRows, habove, add_assoc]
    · rw [Function.update_of_ne hdk, Function.update_of_ne hlk]
      have hmask : l < k ↔ l < k + 1 := by omega
      have hbody : (g.digits ≤ l ∧ l < g.digits + k) ↔ (g.digits ≤ l ∧ l < g.digits + (k + 1)) := by omega
      simp only [Pi.add_apply, gadgetRows, hmask, hbody]

private theorem gadgetRows_digits {l : ℕ} (hl : l < 2 * g.digits) :
    gadgetRows ring g m g.digits l = gadgetRow ring g m l := by
  by_cases hlow : l < g.digits
  · have hbelow : ¬g.digits ≤ l := by omega
    simp [gadgetRows, gadgetRow, hlow, hbelow]
  · have habove : g.digits ≤ l ∧ l < g.digits + g.digits := by omega
    simp [gadgetRows, gadgetRow, hlow, habove]

private theorem cast_mul_power (hg : g.modulus = ring.modulus) {l : ℕ} (hl : l < g.powers.size) :
    (ring.modulus.mul (ring.modulus.ofInt m) g.powers[l] : ZMod ring.modulus.value) =
      m * (g.base : ZMod ring.modulus.value) ^ l := by
  have hdigit : l < g.digits := by simpa [Gadget.powers, powers_eq] using hl
  have hpower : g.powers[l] = (g.base % ring.modulus.value) ^ l % ring.modulus.value := by
    rw [← hg, ← powers_getD hdigit, ← Gadget.powers]
    exact Array.getElem_eq_getD (h := hl) 0
  rw [cast_mul, cast_ofInt, hpower]
  simp

private theorem HasRows.exists_gadgetRound (h : HasRows ring g.digits x (v + gadgetRows ring g m k))
    (hk : k < g.digits) {c : ℕ} (hc : c < ring.modulus.value)
    (hcast : (c : ZMod ring.modulus.value) = m * (g.base : ZMod ring.modulus.value) ^ k) :
    ∃ y, (do
      let x ← modifyRow x k fun row => return { row with mask := ← ring.addScalar row.mask c }
      modifyRow x (g.digits + k) fun row => return { row with body := ← ring.addScalar row.body c }) = .ok y ∧
      HasRows ring g.digits y (v + gadgetRows ring g m (k + 1)) := by
  have hpower : (fun _ => (c : ZMod ring.modulus.value)) = scaledPower ring g m k := funext fun _ => hcast
  obtain ⟨x', hx', hrows'⟩ := h.exists_addToMask (k := k) (by omega) hc
  obtain ⟨y, hy, hrows⟩ := hrows'.exists_addToBody (k := g.digits + k) (by omega) hc
  refine ⟨y, by rw [hx', Checked.ok_bind, hy], ?_⟩
  have hne : g.digits + k ≠ k := by omega
  rwa [Function.update_of_ne hne, hpower, update_gadgetRows m hk] at hrows

theorem HasRows.exists_addGadget (h : HasRows ring g.digits x v) (hg : g.modulus = ring.modulus) :
    ∃ y, addGadget ring g m x = .ok y ∧ HasRows ring g.digits y (v + gadgetRow ring g m) := by
  have hdigits : x.digits = g.digits := by
    rw [digits, h.size_eq]
    omega
  have hpowers : g.powers.size = g.digits := by simp [Gadget.powers, powers_eq]
  have hstart : HasRows ring g.digits x (v + gadgetRows ring g m 0) := h.congr fun l _ => by
    have hnone : ¬(g.digits ≤ l ∧ l < g.digits) := by omega
    simp [gadgetRows, hnone]
  unfold addGadget
  rw [hdigits]
  -- Before round `k`, the first `k` powers stand in the masks of the one half and in the bodies of the other.
  obtain ⟨y, hy, hrows⟩ := foldM_ok (fun k x' => HasRows ring g.digits x' (v + gadgetRows ring g m k)) hstart
    fun k hk x' hx' => hx'.exists_gadgetRound m (hpowers ▸ hk) (mul_lt _ _) (cast_mul_power m hg hk)
  refine ⟨y, hy, hrows.congr fun l hl => ?_⟩
  rw [Pi.add_apply, Pi.add_apply, hpowers, gadgetRows_digits m hl]

end Gadget

end Rgsw

end LatticeGates
