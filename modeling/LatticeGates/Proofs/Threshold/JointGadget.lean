import LatticeGates.Proofs.Action
import LatticeGates.Proofs.BlindRotation.Rotation
import LatticeGates.Proofs.Gadget.Phases
import LatticeGates.Proofs.Lwe.Decryption
import LatticeGates.Threshold

/-!
# Joint gadget keys

Main statement: the shares of all parties, added in any order, are an encryption of the lead's message under the
sum of the ring secrets, and an encryption of zero that is rerandomised with a message encrypts the message. Both
are said row by row, with the error that the row is left with.
-/

namespace LatticeGates

open NegacyclicRing Modulus Rgsw

variable {ring : NegacyclicRing} {g : Gadget} {d : ℕ}

/-- Two rows of residues for each digit. -/
structure CommonReference.Shaped (ring : NegacyclicRing) (d : ℕ) (reference : CommonReference) : Prop where
  size_eq : reference.rows.size = 2 * d
  reduced : ∀ a ∈ reference.rows, ring.modulus.Reduced ring.degree a

theorem CommonReference.shaped_of_generate {reference : CommonReference} {s t : Stream}
    (h : generate ring d s = .ok (reference, t)) : reference.Shaped ring d := by
  obtain ⟨count, hcount, h⟩ := Checked.bind_eq_ok.1 h
  obtain ⟨⟨rows, rest⟩, hrows, h⟩ := Checked.bind_eq_ok.1 h
  obtain ⟨double, hdouble, hcount⟩ := Checked.bind_eq_ok.1 hcount
  obtain ⟨_, -, hcount⟩ := Checked.bind_eq_ok.1 hcount
  cases h
  cases hcount
  obtain ⟨rfl, -⟩ := Word.mul_eq_ok.1 hdouble
  exact ⟨(reduced_of_replicate hrows).1, (reduced_of_replicate hrows).2⟩

theorem CommonReference.Shaped.row {reference : CommonReference} (h : reference.Shaped ring d) {l : ℕ}
    (hl : l < 2 * d) : ring.modulus.Reduced ring.degree (reference.rows.getD l #[]) := by
  have hl : l < reference.rows.size := h.size_eq ▸ hl
  rw [← Array.getElem_eq_getD (h := hl)]
  exact h.reduced _ (Array.getElem_mem hl)

/-- A party that makes a share: its secret and its role, the ciphertext that it writes over, and the errors that
its stream holds next. -/
structure GadgetParty (ring : NegacyclicRing) (d : ℕ) where
  secret : Lwe.Secret
  lead : Bool
  message : ℤ
  buffer : Rgsw
  sigma : Float
  source : Stream
  errors : Array (Array ℤ)
  rest : Stream
  dimension_eq : secret.dimension = ring.degree
  shaped : buffer.Shaped ring d
  drawn : Stream.replicate (2 * d) (Stream.gaussians sigma ring.degree) source = .ok (errors, rest)

namespace GadgetParty

variable {parties : List (GadgetParty ring d)} {reference : CommonReference} {m : ℤ} {hr : ring.Evaluates}

def share (g : Gadget) (reference : CommonReference) (P : GadgetParty ring d) : Checked Rgsw := do
  let sk ← Rlwe.Secret.ofLwe ring P.secret
  return (← encryptShare ring g P.buffer reference sk P.message P.lead P.sigma P.source).1

noncomputable def key (P : GadgetParty ring d) : ring.Element := ring.signed P.secret.coefficients

noncomputable def error (P : GadgetParty ring d) (l : ℕ) : ring.Element := ring.signed (P.errors.getD l #[])

noncomputable def jointKey (parties : List (GadgetParty ring d)) : ring.Element := (parties.map key).sum

theorem jointKey_eq {s : Lwe.Secret} (h : Lwe.Secret.sum (parties.map (·.secret)) = .ok (some s)) :
    jointKey parties = ring.signed s.coefficients := by
  obtain ⟨hdimension, hcoefficient⟩ := Lwe.Secret.sum_eq_ok h
  have hkey (parties : List (GadgetParty ring d)) : jointKey parties = Negacyclic.ofCoeffs fun i =>
      ((Lwe.Secret.jointCoefficient (parties.map (·.secret)) i : ℤ) : ZMod ring.modulus.value) := by
    induction parties with
    | nil => simp [jointKey, Lwe.Secret.jointCoefficient]
    | cons P parties ih =>
      simp only [List.map_cons, Lwe.Secret.jointCoefficient_cons, Int.cast_add]
      rw [Negacyclic.ofCoeffs_add, ← ih, jointKey, List.map_cons, List.sum_cons, key, signed_eq P.dimension_eq]
      rfl
  cases parties with
  | nil => cases h
  | cons P parties =>
    have hsize : s.coefficients.size = ring.degree := (hdimension _ List.mem_cons_self).symm.trans P.dimension_eq
    rw [hkey, signed_eq hsize, ← hcoefficient]
    rfl

noncomputable def jointError (parties : List (GadgetParty ring d)) (l : ℕ) : ring.Element :=
  (parties.map (error · l)).sum

noncomputable def row (hr : ring.Evaluates) (g : Gadget) (reference : CommonReference) (P : GadgetParty ring d) :
    ℕ → RowValues ring :=
  shareRow hr g reference P.key P.message P.lead P.error

private theorem exists_encryptShare (hr : ring.Evaluates) (hg : g.modulus = ring.modulus)
    (hreference : reference.Shaped ring g.digits) (P : GadgetParty ring g.digits) :
    ∃ sk x, Rlwe.Secret.ofLwe ring P.secret = .ok sk ∧
      encryptShare ring g P.buffer reference sk P.message P.lead P.sigma P.source = .ok (x, P.rest) ∧
      HasRows ring g.digits x (P.row hr g reference) := by
  obtain ⟨sk, hsk, htakes⟩ := Rlwe.Secret.exists_takes hr P.dimension_eq
  obtain ⟨x, hx, hrows⟩ := exists_assembleShare hg P.shaped (fun l => hreference.row) htakes P.message P.lead
    fun l hl => Stream.replicate_getD #[] (fun _ _ _ => Stream.size_of_gaussians) P.drawn hl
  refine ⟨sk, x, hsk, ?_, hrows⟩
  simp [encryptShare, hreference.size_eq, P.shaped.size_eq, P.drawn, hx]

theorem exists_share (hr : ring.Evaluates) (hg : g.modulus = ring.modulus)
    (hreference : reference.Shaped ring g.digits) (P : GadgetParty ring g.digits) :
    ∃ x, P.share g reference = .ok x ∧ HasRows ring g.digits x (P.row hr g reference) := by
  obtain ⟨sk, x, hsk, hx, hrows⟩ := exists_encryptShare hr hg hreference P
  exact ⟨x, Checked.bind_eq_ok.2 ⟨sk, hsk, Checked.bind_eq_ok.2 ⟨(x, P.rest), hx, rfl⟩⟩, hrows⟩

theorem exists_gadgetShare {ctx : Context} (hr : ctx.ring.Evaluates) (hg : g.modulus = ctx.ring.modulus)
    (hgadget : ctx.params.rgsw.gadget = .ok g) (hreference : reference.Shaped ctx.ring g.digits)
    (P : GadgetParty ctx.ring g.digits) (hbuffer : P.buffer = Rgsw.zero ctx.ring.degree g.digits)
    (hsigma : P.sigma = ctx.params.rgsw.sigma) (hsource : P.source = ctx.source) :
    ∃ x, P.share g reference = .ok x ∧
      (Context.gadgetShare reference P.secret P.message P.lead).Gives ctx x { ctx with source := P.rest } := by
  obtain ⟨sk, x, hsk, hx, -⟩ := exists_encryptShare hr hg hreference P
  refine ⟨x, Checked.bind_eq_ok.2 ⟨sk, hsk, Checked.bind_eq_ok.2 ⟨(x, P.rest), hx, rfl⟩⟩, ?_⟩
  rw [hbuffer, hsigma, hsource] at hx
  simp only [Context.gadgetShare, Action.bind_gives, Action.get_gives, Action.liftM_gives, Action.draw_gives]
  exact ⟨ctx, ctx, ⟨rfl, rfl⟩, sk, ctx, ⟨hsk, rfl⟩, g, ctx, ⟨hgadget, rfl⟩, P.rest, hx, rfl⟩

/-- The shares add up to the values of an encryption under the joint key, if there is one lead. -/
theorem sum_row (hmessage : ∀ P ∈ parties, P.lead = true → P.message = m) (l : ℕ) :
    (parties.map (row hr g reference)).sum l =
      parties.countP (·.lead) • ((referenceRow ring reference l, 0) + gadgetRow ring g m l) +
        (0, referenceRow ring reference l * evalHom hr (jointKey parties) +
          evalHom hr (jointError parties l)) := by
  induction parties with
  | nil =>
    simp [jointKey, jointError]
    rfl
  | cons P parties ih =>
    obtain ⟨hP, hparties⟩ := List.forall_mem_cons.1 hmessage
    have hkey : jointKey (P :: parties) = P.key + jointKey parties := rfl
    have herror : jointError (P :: parties) l = P.error l + jointError parties l := rfl
    have hbody : ((0, referenceRow ring reference l * evalHom hr (jointKey (P :: parties)) +
        evalHom hr (jointError (P :: parties) l)) : RowValues ring) =
        (0, referenceRow ring reference l * evalHom hr P.key + evalHom hr (P.error l)) +
          (0, referenceRow ring reference l * evalHom hr (jointKey parties) +
            evalHom hr (jointError parties l)) := by
      rw [hkey, herror, map_add, map_add, Prod.mk_add_mk, add_zero]
      congr 1
      ring
    rw [List.map_cons, List.sum_cons, Pi.add_apply, ih hparties, List.countP_cons, hbody, row, shareRow]
    -- The products with the secrets add up for everyone; only the lead brings the uniform part and the message.
    cases hlead : P.lead with
    | true =>
      rw [hP hlead]
      simp only [if_true, add_smul, one_smul]
      abel
    | false =>
      simp only [Bool.false_eq_true, if_false, add_zero, zero_add]
      abel

private theorem exists_sum {xs : List Rgsw} {f : GadgetParty ring d → ℕ → RowValues ring} {x : Rgsw}
    {v : ℕ → RowValues ring} (h : HasRows ring d x v)
    (hxs : List.Forall₂ (fun y P => HasRows ring d y (f P)) xs parties) :
    ∃ y, xs.foldlM (Rgsw.add ring) x = .ok y ∧ HasRows ring d y (v + (parties.map f).sum) := by
  induction hxs generalizing x v with
  | nil => exact ⟨x, rfl, by rwa [List.map_nil, List.sum_nil, add_zero]⟩
  | cons hy _ ih =>
    obtain ⟨y, hsum, hrows⟩ := h.exists_add hy
    obtain ⟨w, hfold, hw⟩ := ih hrows
    refine ⟨w, by rw [List.foldlM_cons, hsum, Checked.ok_bind, hfold], ?_⟩
    rwa [List.map_cons, List.sum_cons, ← add_assoc]

private theorem exists_shares (hr : ring.Evaluates) (hg : g.modulus = ring.modulus)
    (hreference : reference.Shaped ring g.digits) (parties : List (GadgetParty ring g.digits)) :
    ∃ shares, parties.mapM (share g reference) = .ok shares ∧
      ∀ first rest, (first :: rest).Perm shares → ∃ sum, rest.foldlM (Rgsw.add ring) first = .ok sum ∧
        HasRows ring g.digits sum (parties.map (row hr g reference)).sum := by
  obtain ⟨shares, hshares, hrows⟩ := exists_mapM fun P (_ : P ∈ parties) => exists_share hr hg hreference P
  refine ⟨shares, hshares, fun first rest hperm => ?_⟩
  obtain ⟨order, hforall, horder⟩ := List.perm_comp_forall₂ hperm hrows
  obtain ⟨P, others, hfirst, hrest, rfl⟩ := List.forall₂_cons_left_iff.1 hforall
  obtain ⟨sum, hsum, hsumRows⟩ := exists_sum hfirst hrest
  rw [← (horder.map (row hr g reference)).sum_eq]
  exact ⟨sum, hsum, hsumRows⟩

private theorem encryptsWith_of_hasRows {x : Rgsw} {parties : List (GadgetParty ring g.digits)}
    (hlead : parties.countP (·.lead) = 1) (hmessage : ∀ P ∈ parties, P.lead = true → P.message = m)
    (h : HasRows ring g.digits x (parties.map (row hr g reference)).sum) :
    EncryptsWith hr g (jointKey parties) m (jointError parties) x := by
  refine h.encryptsWith fun l _ => ?_
  have hgadget := gadgetRow_phase hr g (jointKey parties) m l
  rw [sum_row hmessage, hlead, one_smul, map_add, ← hgadget]
  simp only [Prod.fst_add, Prod.snd_add]
  ring

/-- The shares of all parties, exactly one of which leads, add up in any order to one encryption of the lead's
message under the sum of the ring secrets. -/
theorem exists_jointShares (hr : ring.Evaluates) (hg : g.modulus = ring.modulus)
    (hreference : reference.Shaped ring g.digits)
    {parties : List (GadgetParty ring g.digits)} (hlead : parties.countP (·.lead) = 1)
    (hmessage : ∀ P ∈ parties, P.lead = true → P.message = m) :
    ∃ shares sum, parties.mapM (share g reference) = .ok shares ∧
      (∀ first rest, (first :: rest).Perm shares → rest.foldlM (Rgsw.add ring) first = .ok sum) ∧
      EncryptsWith hr g (jointKey parties) m (jointError parties) sum := by
  obtain ⟨shares, hshares, hfold⟩ := exists_shares hr hg hreference parties
  cases shares with
  | nil =>
    obtain ⟨P, hP, -⟩ := List.countP_pos_iff.1 (hlead ▸ one_pos)
    obtain ⟨share, hmem, -⟩ := (mapM_eq_ok hshares).2 P hP
    cases hmem
  | cons first rest =>
    obtain ⟨sum, -, hrows⟩ := hfold first rest (.refl _)
    refine ⟨first :: rest, sum, hshares, fun first' rest' hperm => ?_,
      encryptsWith_of_hasRows hlead hmessage hrows⟩
    obtain ⟨sum', hsum', hrows'⟩ := hfold first' rest' hperm
    rw [hsum', hrows'.ext hrows]

end GadgetParty

/-- What rerandomises a gadget ciphertext: the ciphertext that is written over, and the small polynomials that
two streams hold next. -/
structure Rerandomiser (ring : NegacyclicRing) (d : ℕ) where
  buffer : Rgsw
  sigma : Float
  ternarySource : Stream
  ternaries : Array (Array ℤ)
  ternaryRest : Stream
  errorSource : Stream
  noise : Array RowNoise
  errorRest : Stream
  shaped : buffer.Shaped ring d
  drawnTernaries : Stream.replicate (2 * d) (Stream.ternaries ring.degree) ternarySource =
    .ok (ternaries, ternaryRest)
  drawnNoise : Stream.replicate (2 * d) (drawRowNoise ring sigma) errorSource = .ok (noise, errorRest)

namespace Rerandomiser

variable (R : Rerandomiser ring d) (l : ℕ)

noncomputable def multiplier : ring.Element := ring.signed (R.ternaries.getD l #[])

noncomputable def maskError : ring.Element := ring.signed (R.noise.getD l ⟨#[], #[]⟩).maskError

noncomputable def bodyError : ring.Element := ring.signed (R.noise.getD l ⟨#[], #[]⟩).bodyError

theorem natAbs_le {u : Array ℤ} (hu : u ∈ R.ternaries) {c : ℤ} (hc : c ∈ u) : c.natAbs ≤ 1 :=
  (Stream.replicate_entries (P := fun u : Array ℤ => ∀ c ∈ u, c.natAbs ≤ 1)
    (fun _ _ _ h => (Stream.ternaries_entries h).2) R.drawnTernaries).2 u hu c hc

private theorem size_of_drawRowNoise {sigma : Float} {s t : Stream} {e : RowNoise}
    (h : drawRowNoise ring sigma s = .ok (e, t)) :
    e.maskError.size = ring.degree ∧ e.bodyError.size = ring.degree := by
  obtain ⟨⟨maskError, s'⟩, hmask, h⟩ := Checked.bind_eq_ok.1 h
  obtain ⟨⟨bodyError, t'⟩, hbody, h⟩ := Checked.bind_eq_ok.1 h
  cases h
  exact ⟨Stream.size_of_gaussians hmask, Stream.size_of_gaussians hbody⟩

theorem exists_encryptPublic {hr : ring.Evaluates} (hg : g.modulus = ring.modulus) {z : ring.Element}
    {e : ℕ → ring.Element} {pk : Rgsw} (hpk : EncryptsWith hr g z 0 e pk) (m : ℤ)
    (R : Rerandomiser ring g.digits) :
    ∃ x, encryptPublic ring g R.buffer pk m R.sigma R.ternarySource R.errorSource =
        .ok (x, R.ternaryRest, R.errorRest) ∧
      EncryptsWith hr g z m (fun l => R.multiplier l * e l + R.bodyError l - R.maskError l * z) x := by
  have hnoise {l : ℕ} (hl : l < 2 * g.digits) :=
    Stream.replicate_getD ⟨#[], #[]⟩ (fun _ _ _ => size_of_drawRowNoise) R.drawnNoise hl
  obtain ⟨x, hx, hencrypts⟩ := hpk.exists_rerandomise hg R.shaped m
    (fun l hl => Stream.replicate_getD #[] (P := fun u : Array ℤ => u.size = ring.degree)
      (fun _ _ _ h => (Stream.ternaries_entries h).1) R.drawnTernaries hl)
    (fun l hl => (hnoise hl).1) (fun l hl => (hnoise hl).2)
  refine ⟨x, ?_, hencrypts⟩
  simp [encryptPublic, hpk.size_eq, R.shaped.size_eq, R.drawnTernaries, R.drawnNoise, hx]

end Rerandomiser

namespace GadgetParty

/-- For every ring and gadget: the shares of the parties add up in any order to one encryption of the lead's
message under the sum of the ring secrets, and a rerandomised encryption of zero encrypts the message that it is
given. -/
theorem exists_jointEncryption {n q k : ℕ} (hring : NegacyclicRing.check n q = .ok ring)
    (hgadget : Gadget.check q k = .ok g) :
    (∀ (reference : CommonReference) (parties : List (GadgetParty ring g.digits)) (m : ℤ),
      reference.Shaped ring g.digits → parties.countP (·.lead) = 1 →
      (∀ P ∈ parties, P.lead = true → P.message = m) →
      ∃ shares sum, parties.mapM (share g reference) = .ok shares ∧
        (∀ first rest, (first :: rest).Perm shares → rest.foldlM (Rgsw.add ring) first = .ok sum) ∧
        EncryptsWith (check_evaluates hring) g (jointKey parties) m (jointError parties) sum) ∧
    ∀ (R : Rerandomiser ring g.digits) (pk : Rgsw) (z : ring.Element) (e : ℕ → ring.Element) (m : ℤ),
      EncryptsWith (check_evaluates hring) g z 0 e pk →
      (∀ u ∈ R.ternaries, ∀ c ∈ u, c.natAbs ≤ 1) ∧
      ∃ x, encryptPublic ring g R.buffer pk m R.sigma R.ternarySource R.errorSource =
          .ok (x, R.ternaryRest, R.errorRest) ∧
        EncryptsWith (check_evaluates hring) g z m
          (fun l => R.multiplier l * e l + R.bodyError l - R.maskError l * z) x := by
  obtain ⟨-, hvalue, -⟩ := check_shape hring
  have hg : g.modulus = ring.modulus :=
    Modulus.value_injective ((Gadget.modulus_of_check hgadget).trans hvalue.symm)
  refine ⟨fun reference parties m hreference hlead hmessage => ?_, fun R pk z e m hpk => ⟨?_, ?_⟩⟩
  · exact exists_jointShares (check_evaluates hring) hg hreference hlead hmessage
  · exact fun u hu c hc => R.natAbs_le hu hc
  · exact Rerandomiser.exists_encryptPublic hg hpk m R

/-- An encryption of zero that two parties make, rerandomised with the message `3`. -/
theorem exists_jointEncryption_two : ∃ (ring : NegacyclicRing) (hring : NegacyclicRing.check 2 5 = .ok ring)
    (reference : CommonReference) (lead other : GadgetParty ring 1) (R : Rerandomiser ring 1)
    (shares : List Rgsw) (sum x : Rgsw), lead.secret = ⟨#[1, -1], .ternary⟩ ∧
    other.secret = ⟨#[0, 1], .ternary⟩ ∧ lead.lead = true ∧ lead.message = 0 ∧ other.lead = false ∧
    [lead, other].mapM (share BlindRotation.sampleGadget reference) = .ok shares ∧
    (∀ first rest, (first :: rest).Perm shares → rest.foldlM (Rgsw.add ring) first = .ok sum) ∧
    EncryptsWith (check_evaluates hring) BlindRotation.sampleGadget (jointKey [lead, other]) 0
      (jointError [lead, other]) sum ∧
    encryptPublic ring BlindRotation.sampleGadget R.buffer sum 3 R.sigma R.ternarySource R.errorSource =
      .ok (x, R.ternaryRest, R.errorRest) ∧
    EncryptsWith (check_evaluates hring) BlindRotation.sampleGadget (jointKey [lead, other]) 3
      (fun l => R.multiplier l * jointError [lead, other] l + R.bodyError l -
        R.maskError l * jointKey [lead, other]) x := by
  obtain ⟨ring, -, hring, -⟩ := BlindRotation.exists_sampleRing
  obtain ⟨hdegree, hvalue, -⟩ := check_shape hring
  have hmodulus : ring.modulus = ⟨5, by decide, by decide⟩ := Modulus.value_injective hvalue
  have herrors (seed : Array UInt8)
      (h : (Stream.replicate 2 (Stream.gaussians Params.defaultSigma 2) (.ofSeed seed)).isOk = true) :
      ∃ x, Stream.replicate 2 (Stream.gaussians Params.defaultSigma ring.degree) (.ofSeed seed) = .ok x := by
    rw [hdegree]
    exact Checked.exists_of_isOk h
  obtain ⟨⟨errors, rest⟩, hdrawn⟩ := herrors #[1] (by decide +kernel)
  obtain ⟨⟨errors', rest'⟩, hdrawn'⟩ := herrors #[2] (by decide +kernel)
  obtain ⟨⟨reference, referenceRest⟩, hreference⟩ :
      ∃ x, CommonReference.generate ring 1 (.ofSeed #[3]) = .ok x := by
    simp only [CommonReference.generate, hdegree, hmodulus]
    exact Checked.exists_of_isOk (by decide +kernel)
  obtain ⟨⟨ternaries, ternaryRest⟩, hternaries⟩ :
      ∃ x, Stream.replicate 2 (Stream.ternaries ring.degree) (.ofSeed #[4]) = .ok x := by
    rw [hdegree]
    exact Checked.exists_of_isOk (by decide +kernel)
  obtain ⟨⟨noise, noiseRest⟩, hnoise⟩ :
      ∃ x, Stream.replicate 2 (drawRowNoise ring Params.defaultSigma) (.ofSeed #[5]) = .ok x := by
    unfold drawRowNoise
    rw [hdegree]
    exact Checked.exists_of_isOk (by decide +kernel)
  let lead : GadgetParty ring 1 := ⟨⟨#[1, -1], .ternary⟩, true, 0, Rgsw.zero ring.degree 1, _, _, errors, rest,
    hdegree.symm, shaped_zero 1, hdrawn⟩
  let other : GadgetParty ring 1 := ⟨⟨#[0, 1], .ternary⟩, false, 2, Rgsw.zero ring.degree 1, _, _, errors',
    rest', hdegree.symm, shaped_zero 1, hdrawn'⟩
  let R : Rerandomiser ring 1 := ⟨Rgsw.zero ring.degree 1, _, _, ternaries, ternaryRest, _, noise, noiseRest,
    shaped_zero 1, hternaries, hnoise⟩
  obtain ⟨hjoint, hpublic⟩ := exists_jointEncryption hring BlindRotation.check_sampleGadget
  obtain ⟨shares, sum, hshares, hfold, hsum⟩ := hjoint reference [lead, other] 0
    (CommonReference.shaped_of_generate hreference) rfl
    (List.forall_mem_cons.2 ⟨fun _ => rfl, List.forall_mem_singleton.2 fun h => (Bool.false_ne_true h).elim⟩)
  obtain ⟨-, x, hx, hencrypts⟩ := hpublic R sum _ _ 3 hsum
  exact ⟨ring, hring, reference, lead, other, R, shares, sum, x, rfl, rfl, rfl, rfl, rfl, hshares, hfold, hsum,
    hx, hencrypts⟩

end GadgetParty

end LatticeGates
