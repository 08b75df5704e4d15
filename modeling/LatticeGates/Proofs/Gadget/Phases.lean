import LatticeGates.Proofs.Gadget.ExternalProduct
import LatticeGates.Proofs.Gadget.Rows

/-!
# The phases of shares and of rerandomised rows

The phase of a row is read off its values. Main statements: the rows of a share and of a rerandomised gadget
ciphertext by their values, and the errors that the rows of a rerandomised encryption of zero are left with.
-/

namespace LatticeGates.Rgsw

open NegacyclicRing Modulus

variable {ring : NegacyclicRing} {hr : ring.Evaluates} {g : Gadget} {z p : ring.Element} {m : ℤ} {x : Rgsw}
  {v : ℕ → RowValues ring} {e : ℕ → ring.Element}

/-- A row whose phase under `z` has the values of `p`. -/
structure PhaseTakes (hr : ring.Evaluates) (z p : ring.Element) (row : Rlwe.Ciphertext) : Prop where
  reduced : row.Reduced ring
  values_eq : ring.values row.body - ring.values row.mask * evalHom hr z = evalHom hr p

/-- Where the transform can be undone, the row has the phase itself. -/
theorem PhaseTakes.rowPhase (hr : ring.Valid) {row : Rlwe.Ciphertext}
    (h : PhaseTakes hr.evaluates z p row) : RowPhase ring z row p := by
  obtain ⟨mask, hmask, -, hmaskValues⟩ := exists_backward hr h.reduced.mask
  obtain ⟨body, hbody, -, hbodyValues⟩ := exists_backward hr h.reduced.body
  refine ⟨mask, body, hmask, hbody, valuesHom_injective hr ?_⟩
  rw [Rlwe.Ciphertext.phaseElement, map_sub, map_mul, hmaskValues, hbodyValues]
  exact h.values_eq

/-- What `m` times the gadget adds to the phases of the rows under `z`. -/
noncomputable def gadgetPhase (g : Gadget) (z : ring.Element) (m : ℤ) (l : ℕ) : ring.Element :=
  if l < g.digits then -((m : ring.Element) * (g.base : ring.Element) ^ l) * z
  else (m : ring.Element) * (g.base : ring.Element) ^ (l - g.digits)

/-- A gadget encryption of `m` under `z` with given errors in its rows. -/
structure EncryptsWith (hr : ring.Evaluates) (g : Gadget) (z : ring.Element) (m : ℤ)
    (e : ℕ → ring.Element) (x : Rgsw) : Prop where
  size_eq : x.rows.size = 2 * g.digits
  row : ∀ (l : ℕ) (hl : l < x.rows.size), PhaseTakes hr z (gadgetPhase g z m l + e l) x.rows[l]

theorem EncryptsWith.encrypts (hr : ring.Valid) {bound : ℕ} (h : EncryptsWith hr.evaluates g z m e x)
    (hsmall : ∀ l < 2 * g.digits, Negacyclic.Small bound (e l)) : Encrypts ring g z bound m x := by
  have hsize := h.size_eq
  refine ⟨hsize, fun l hl => (h.row l hl).reduced, fun l hl hlow => ⟨e l, hsmall l (by omega), ?_⟩,
    fun l hl => ⟨e (g.digits + l), hsmall _ (by omega), ?_⟩⟩
  · have hphase := (h.row l hl).rowPhase hr
    rwa [gadgetPhase, if_pos hlow] at hphase
  · have hphase := (h.row _ hl).rowPhase hr
    rwa [gadgetPhase, if_neg (by omega), Nat.add_sub_cancel_left] at hphase

theorem gadgetPhase_zero (l : ℕ) : gadgetPhase g z 0 l = 0 := by
  unfold gadgetPhase
  split <;> simp

theorem gadgetRow_phase (hr : ring.Evaluates) (g : Gadget) (z : ring.Element) (m : ℤ) (l : ℕ) :
    (gadgetRow ring g m l).2 - (gadgetRow ring g m l).1 * evalHom hr z = evalHom hr (gadgetPhase g z m l) := by
  have hpower (l : ℕ) : scaledPower ring g m l =
      evalHom hr ((m : ring.Element) * (g.base : ring.Element) ^ l) := by
    rw [map_mul, map_pow, map_intCast, map_natCast]
    rfl
  unfold gadgetRow gadgetPhase
  split
  · dsimp only
    rw [hpower, zero_sub, neg_mul, map_neg, map_mul (evalHom hr) _ z]
  · dsimp only
    rw [hpower, zero_mul, sub_zero]

theorem HasRows.encryptsWith (h : HasRows ring g.digits x v)
    (hv : ∀ l < 2 * g.digits,
      (v l).2 - (v l).1 * evalHom hr z = evalHom hr (gadgetPhase g z m l + e l)) :
    EncryptsWith hr g z m e x := by
  refine ⟨h.size_eq, fun l hl => ⟨⟨(h.row l hl).mask.reduced, (h.row l hl).body.reduced⟩, ?_⟩⟩
  rw [(h.row l hl).mask.values_eq, (h.row l hl).body.values_eq, hv l (h.size_eq ▸ hl)]

theorem EncryptsWith.exists_hasRows (h : EncryptsWith hr g z m e x) : ∃ v, HasRows ring g.digits x v ∧
    ∀ l < 2 * g.digits, (v l).2 - (v l).1 * evalHom hr z = evalHom hr (gadgetPhase g z m l + e l) := by
  have hrow (l : ℕ) (hl : l < x.rows.size) : x.rows.getD l (.zero 0) = x.rows[l] :=
    (Array.getElem_eq_getD (h := hl) _).symm
  refine ⟨fun l => (ring.values (x.rows.getD l (.zero 0)).mask, ring.values (x.rows.getD l (.zero 0)).body),
    ⟨h.size_eq, fun l hl => ?_⟩, fun l hl => ?_⟩
  · rw [hrow l hl]
    exact ⟨⟨(h.row l hl).reduced.mask, rfl⟩, ⟨(h.row l hl).reduced.body, rfl⟩⟩
  · have hl : l < x.rows.size := h.size_eq ▸ hl
    dsimp only
    rw [hrow l hl]
    exact (h.row l hl).values_eq

/-- Ciphertexts to write over: two rows for each digit, of the length of the ring. -/
structure Shaped (ring : NegacyclicRing) (d : ℕ) (x : Rgsw) : Prop where
  size_eq : x.rows.size = 2 * d
  mask : ∀ (l : ℕ) (hl : l < x.rows.size), x.rows[l].mask.size = ring.degree
  body : ∀ (l : ℕ) (hl : l < x.rows.size), x.rows[l].body.size = ring.degree

theorem shaped_zero (d : ℕ) : Shaped ring d (zero ring.degree d) := by
  refine ⟨Array.size_replicate, fun l hl => ?_, fun l hl => ?_⟩ <;>
    simp [zero, Rlwe.Ciphertext.zero]

section Share

variable {reference : CommonReference} {sk : Rlwe.Secret} {errors : Array (Array ℤ)}

/-- The uniform part of a row. -/
def referenceRow (ring : NegacyclicRing) (reference : CommonReference) (l : ℕ) : ring.Values :=
  ring.values (reference.rows.getD l #[])

/-- The values of a share: only the lead has the uniform part in its mask, and the message. -/
noncomputable def shareRow (hr : ring.Evaluates) (g : Gadget) (reference : CommonReference) (z : ring.Element)
    (m : ℤ) (lead : Bool) (e : ℕ → ring.Element) (l : ℕ) : RowValues ring :=
  (if lead then (referenceRow ring reference l, 0) + gadgetRow ring g m l else 0) +
    (0, referenceRow ring reference l * evalHom hr z + evalHom hr (e l))

private theorem exists_shareRow (hsk : ring.Takes sk.values (evalHom hr z)) (lead : Bool)
    {row : Rlwe.Ciphertext} (hmask : row.mask.size = ring.degree) (hbody : row.body.size = ring.degree)
    {a : Poly} {A : ring.Values} (ha : ring.Takes a A) {e : Array ℤ} (he : e.size = ring.degree) :
    ∃ r, (do
      ensure (!lead || a.size == row.mask.size) .shapeMismatch
      let mask := if lead then a else Array.replicate row.mask.size 0
      let e ← valuesOf ring e
      return ⟨mask, ← ring.add (ring.mulInto row.body a sk.values) e⟩ : Checked Rlwe.Ciphertext) = .ok r ∧
      RowTakes ring r (if lead then A else 0, A * evalHom hr z + evalHom hr (ring.signed e)) := by
  obtain ⟨error, herror, herrorTakes⟩ := Takes.exists_valuesOf hr he
  obtain ⟨body, hbodyEq, hbodyTakes⟩ := (ha.mulInto hsk hbody).exists_add herrorTakes
  have hensure : (!lead || a.size == row.mask.size) = true := by
    rw [ha.reduced.size_eq, hmask, beq_self_eq_true, Bool.or_true]
  refine ⟨⟨if lead then a else Array.replicate row.mask.size 0, body⟩, ?_, ?_, hbodyTakes⟩
  · simp only [hensure, ensure_true, Checked.ok_bind, herror, hbodyEq, Checked.pure_eq]
  · cases lead with
    | true => exact ha
    | false =>
      rw [if_neg Bool.false_ne_true, if_neg Bool.false_ne_true, hmask]
      exact Takes.zero

theorem exists_assembleShare (hg : g.modulus = ring.modulus) (hx : x.Shaped ring g.digits)
    (hreference : ∀ l < 2 * g.digits, ring.modulus.Reduced ring.degree (reference.rows.getD l #[]))
    (hsk : ring.Takes sk.values (evalHom hr z)) (m : ℤ) (lead : Bool)
    (herrors : ∀ l < 2 * g.digits, (errors.getD l #[]).size = ring.degree) :
    ∃ y, assembleShare ring g x reference sk m lead errors = .ok y ∧
      HasRows ring g.digits y (shareRow hr g reference z m lead fun l => ring.signed (errors.getD l #[])) := by
  have ha (l : ℕ) (hl : l < 2 * g.digits) :
      ring.Takes (reference.rows.getD l #[]) (referenceRow ring reference l) := ⟨hreference l hl, rfl⟩
  have hrow (l : ℕ) (hl : l < x.rows.size) := exists_shareRow hsk lead (hx.mask l hl) (hx.body l hl)
    (ha l (hx.size_eq ▸ hl)) (herrors l (hx.size_eq ▸ hl))
  obtain ⟨rows, hrows, hstart⟩ := HasRows.exists_tabulate hx.size_eq hrow
  cases lead with
  | true =>
    obtain ⟨y, hy, hhas⟩ := hstart.exists_addGadget m hg
    refine ⟨y, Checked.bind_eq_ok.2 ⟨rows, hrows, hy⟩, hhas.congr fun l _ => ?_⟩
    apply Prod.ext <;> simp [shareRow, add_comm]
  | false =>
    refine ⟨⟨rows⟩, Checked.bind_eq_ok.2 ⟨rows, hrows, rfl⟩, hstart.congr fun l _ => ?_⟩
    simp [shareRow]

/-- An encryption is the share of a lead party with nobody else in its group. -/
theorem assemble_eq {masks : Array Poly}
    (h : ∀ (l : ℕ) (hl : l < x.rows.size), (masks.getD l #[]).size = x.rows[l].mask.size) :
    assemble ring g x sk m masks errors = assembleShare ring g x ⟨masks⟩ sk m true errors := by
  have hrow : ∀ (l : ℕ) (hl : l < x.rows.size),
      ensure (!true || (masks.getD l #[]).size == x.rows[l].mask.size) .shapeMismatch = .ok () := by
    intro l hl
    rw [h l hl, beq_self_eq_true, Bool.or_true, ensure_true]
  simp only [assemble, assembleShare, hrow, Checked.ok_bind, if_true]

theorem exists_assemble (hg : g.modulus = ring.modulus) (hx : x.Shaped ring g.digits)
    (hsk : ring.Takes sk.values (evalHom hr z)) (m : ℤ) {masks : Array Poly}
    (hmasks : ∀ l < 2 * g.digits, ring.modulus.Reduced ring.degree (masks.getD l #[]))
    (herrors : ∀ l < 2 * g.digits, (errors.getD l #[]).size = ring.degree) :
    ∃ y, assemble ring g x sk m masks errors = .ok y ∧
      HasRows ring g.digits y (shareRow hr g ⟨masks⟩ z m true fun l => ring.signed (errors.getD l #[])) := by
  rw [assemble_eq fun l hl => (hmasks l (hx.size_eq ▸ hl)).size_eq.trans (hx.mask l hl).symm]
  exact exists_assembleShare hg hx hmasks hsk m true herrors

theorem encrypt_eq (hx : x.Shaped ring g.digits) (m : ℤ) (sigma : Float) (maskSource errorSource : Stream) :
    encrypt ring g x sk m sigma maskSource errorSource = do
      let masks ← Stream.replicate (2 * g.digits) (Stream.residues ring.modulus ring.degree) maskSource
      let errors ← Stream.replicate (2 * g.digits) (Stream.gaussians sigma ring.degree) errorSource
      let y ← assemble ring g x sk m masks.1 errors.1
      return (y, masks.2, errors.2) := by
  simp only [encrypt, hx.mask]
  rw [← hx.size_eq]
  rfl

theorem HasRows.encryptsWith_lead
    (h : HasRows ring g.digits x (shareRow hr g reference z m true e)) : EncryptsWith hr g z m e x := by
  refine h.encryptsWith fun l _ => ?_
  have hgadget := gadgetRow_phase hr g z m l
  simp only [shareRow, if_true, Prod.fst_add, Prod.snd_add, map_add]
  linear_combination hgadget

theorem exists_encrypt (hg : g.modulus = ring.modulus) (hx : x.Shaped ring g.digits)
    (hsk : ring.Takes sk.values (evalHom hr z)) (m : ℤ) {sigma : Float}
    {maskSource maskRest errorSource errorRest : Stream} {masks : Array Poly}
    (hmasks : Stream.replicate (2 * g.digits) (Stream.residues ring.modulus ring.degree) maskSource =
      .ok (masks, maskRest))
    (herrors : Stream.replicate (2 * g.digits) (Stream.gaussians sigma ring.degree) errorSource =
      .ok (errors, errorRest)) :
    ∃ y, encrypt ring g x sk m sigma maskSource errorSource = .ok (y, maskRest, errorRest) ∧
      HasRows ring g.digits y (shareRow hr g ⟨masks⟩ z m true fun l => ring.signed (errors.getD l #[])) := by
  obtain ⟨y, hy, hrows⟩ := exists_assemble hg hx hsk m
    (fun l hl => Stream.replicate_getD #[] (fun _ _ _ => reduced_of_residues) hmasks hl)
    fun l hl => Stream.replicate_getD #[] (fun _ _ _ => Stream.size_of_gaussians) herrors hl
  refine ⟨y, ?_, hrows⟩
  rw [encrypt_eq hx, hmasks, Checked.ok_bind, herrors, Checked.ok_bind, hy]
  rfl

end Share

section Rerandomise

variable {pk : Rgsw} {ternaries : Array (Array ℤ)} {noise : Array RowNoise}

/-- The values of a rerandomised row: a small multiple of the row, and small errors. -/
noncomputable def rerandomisedRow (hr : ring.Evaluates) (v : RowValues ring)
    (u maskError bodyError : ring.Element) : RowValues ring :=
  (evalHom hr u * v.1 + evalHom hr maskError, evalHom hr u * v.2 + evalHom hr bodyError)

private theorem exists_rerandomisedRow (hr : ring.Evaluates) {row key : Rlwe.Ciphertext} {w : RowValues ring}
    (hmask : row.mask.size = ring.degree) (hbody : row.body.size = ring.degree) (hkey : RowTakes ring key w)
    {u : Array ℤ} (hu : u.size = ring.degree) {e : RowNoise} (hmaskError : e.maskError.size = ring.degree)
    (hbodyError : e.bodyError.size = ring.degree) :
    ∃ r, (do
      let u ← valuesOf ring u
      let mask ← ring.add (ring.mulInto row.mask u key.mask) (← valuesOf ring e.maskError)
      let body ← ring.add (ring.mulInto row.body u key.body) (← valuesOf ring e.bodyError)
      return ⟨mask, body⟩ : Checked Rlwe.Ciphertext) = .ok r ∧
      RowTakes ring r
        (rerandomisedRow hr w (ring.signed u) (ring.signed e.maskError) (ring.signed e.bodyError)) := by
  obtain ⟨small, hsmall, hsmallTakes⟩ := Takes.exists_valuesOf hr hu
  obtain ⟨e₁, he₁, he₁Takes⟩ := Takes.exists_valuesOf hr hmaskError
  obtain ⟨e₂, he₂, he₂Takes⟩ := Takes.exists_valuesOf hr hbodyError
  obtain ⟨mask, hmaskEq, hmaskTakes⟩ := (hsmallTakes.mulInto hkey.mask hmask).exists_add he₁Takes
  obtain ⟨body, hbodyEq, hbodyTakes⟩ := (hsmallTakes.mulInto hkey.body hbody).exists_add he₂Takes
  refine ⟨⟨mask, body⟩, ?_, hmaskTakes, hbodyTakes⟩
  simp only [hsmall, he₁, he₂, hmaskEq, hbodyEq, Checked.ok_bind, Checked.pure_eq]

theorem exists_rerandomise (hr : ring.Evaluates) (hg : g.modulus = ring.modulus) (hx : x.Shaped ring g.digits)
    (hpk : HasRows ring g.digits pk v) (m : ℤ)
    (hternaries : ∀ l < 2 * g.digits, (ternaries.getD l #[]).size = ring.degree)
    (hmask : ∀ l < 2 * g.digits, (noise.getD l ⟨#[], #[]⟩).maskError.size = ring.degree)
    (hbody : ∀ l < 2 * g.digits, (noise.getD l ⟨#[], #[]⟩).bodyError.size = ring.degree) :
    ∃ y, rerandomise ring g x pk m ternaries noise = .ok y ∧ HasRows ring g.digits y fun l =>
      rerandomisedRow hr (v l) (ring.signed (ternaries.getD l #[]))
        (ring.signed (noise.getD l ⟨#[], #[]⟩).maskError) (ring.signed (noise.getD l ⟨#[], #[]⟩).bodyError) +
        gadgetRow ring g m l := by
  have hrow (l : ℕ) (hl : l < x.rows.size) :=
    have hl' : l < 2 * g.digits := hx.size_eq ▸ hl
    exists_rerandomisedRow hr (hx.mask l hl) (hx.body l hl) (hpk.getD hl') (hternaries l hl') (hmask l hl')
      (hbody l hl')
  obtain ⟨rows, hrows, hstart⟩ := HasRows.exists_tabulate hx.size_eq hrow
  obtain ⟨y, hy, hhas⟩ := hstart.exists_addGadget m hg
  exact ⟨y, Checked.bind_eq_ok.2 ⟨rows, hrows, hy⟩, hhas⟩

/-- A rerandomised encryption of zero with a multiple of the gadget encrypts the multiple. -/
theorem EncryptsWith.exists_rerandomise (hpk : EncryptsWith hr g z 0 e pk) (hg : g.modulus = ring.modulus)
    (hx : x.Shaped ring g.digits) (m : ℤ)
    (hternaries : ∀ l < 2 * g.digits, (ternaries.getD l #[]).size = ring.degree)
    (hmask : ∀ l < 2 * g.digits, (noise.getD l ⟨#[], #[]⟩).maskError.size = ring.degree)
    (hbody : ∀ l < 2 * g.digits, (noise.getD l ⟨#[], #[]⟩).bodyError.size = ring.degree) :
    ∃ y, rerandomise ring g x pk m ternaries noise = .ok y ∧ EncryptsWith hr g z m (fun l =>
      ring.signed (ternaries.getD l #[]) * e l + ring.signed (noise.getD l ⟨#[], #[]⟩).bodyError -
        ring.signed (noise.getD l ⟨#[], #[]⟩).maskError * z) y := by
  obtain ⟨v, hrows, hv⟩ := hpk.exists_hasRows
  obtain ⟨y, hy, hhas⟩ := Rgsw.exists_rerandomise hr hg hx hrows m hternaries hmask hbody
  refine ⟨y, hy, hhas.encryptsWith fun l hl => ?_⟩
  have hzero := hv l hl
  rw [gadgetPhase_zero, zero_add] at hzero
  have hgadget := gadgetRow_phase hr g z m l
  simp only [rerandomisedRow, Prod.fst_add, Prod.snd_add, map_add, map_sub, map_mul]
  linear_combination evalHom hr (ring.signed (ternaries.getD l #[])) * hzero + hgadget

end Rerandomise

end LatticeGates.Rgsw
