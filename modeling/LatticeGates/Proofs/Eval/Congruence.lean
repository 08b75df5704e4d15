import LatticeGates.Proofs.Eval.Totality

/-!
# Tables with the same residues

The entries of a table are read modulo `q`, but whether the upper half repeats the lower one is asked of the entries as
they are. Main statement: on tables with the same residues an evaluation has the same outcome where the tables have the
same class, and beyond the dimension of the ring only there; it faults where the class of a table cannot be found.
-/

namespace LatticeGates

/-- The entries are the same modulo `q`. -/
structure SameResidues (q : ℕ) (table table' : Array ℕ) : Prop where
  size_eq : table.size = table'.size
  mod_eq : ∀ x < table.size, table.getD x 0 % q = table'.getD x 0 % q

namespace SameResidues

variable {q : ℕ} {table table' : Array ℕ}

theorem modEq (h : SameResidues q table table') (x : ℕ) : table.getD x 0 ≡ table'.getD x 0 [MOD q] := by
  by_cases hx : x < table.size
  · exact h.mod_eq x hx
  · have hx' : ¬x < table'.size := h.size_eq ▸ hx
    rw [Array.getD_eq_getD_getElem?, Array.getD_eq_getD_getElem?, Array.getElem?_eq_none (not_lt.1 hx),
      Array.getElem?_eq_none (not_lt.1 hx')]

theorem isNegacyclic_iff (h : SameResidues q table table') : IsNegacyclic table q ↔ IsNegacyclic table' q :=
  forall₂_congr fun x _ => ((h.modEq x).add (h.modEq (x + q / 2))).dvd_iff dvd_rfl

end SameResidues

namespace TableClass

variable {q : ℕ} {table table' : Array ℕ}

theorem ofTable_of_fits (hq : 0 < q) (heven : 2 ∣ q) (hsize : table.size = q) (hfits : ¬Overflows table q) :
    ofTable table q = .ok (if IsNegacyclic table q then .negacyclic
      else if IsPeriodic table q then .periodic else .arbitrary) := by
  obtain ⟨hover, -⟩ | ⟨-, hneg, hclass⟩ | ⟨-, hneg, hper, hclass⟩ | ⟨-, hneg, hper, hclass⟩ :=
    ofTable_outcome hq heven hsize
  · exact (hfits hover).elim
  · rw [hclass, if_pos hneg]
  · rw [hclass, if_neg hneg, if_pos hper]
  · rw [hclass, if_neg hneg, if_neg hper]

/-- Entries are compared as they are, so that the residues alone do not tell a periodic table from an arbitrary one. -/
theorem ofTable_eq_iff (hq : 0 < q) (heven : 2 ∣ q) (hsize : table.size = q) (hsame : SameResidues q table table')
    (hfits : ¬Overflows table q) (hfits' : ¬Overflows table' q) :
    ofTable table q = ofTable table' q ↔ IsNegacyclic table q ∨ (IsPeriodic table q ↔ IsPeriodic table' q) := by
  rw [ofTable_of_fits hq heven hsize hfits, ofTable_of_fits hq heven (hsame.size_eq.symm.trans hsize) hfits']
  by_cases hneg : IsNegacyclic table q
  · simp [hneg, hsame.isNegacyclic_iff.1 hneg]
  · have hneg' := mt hsame.isNegacyclic_iff.2 hneg
    by_cases hper : IsPeriodic table q <;> by_cases hper' : IsPeriodic table' q <;>
      simp [hneg, hneg', hper, hper']

end TableClass

namespace Context

variable {ctx : Context} {key : BootstrapKey} {q : Modulus} {ct : Lwe.Ciphertext} {table table' : Array ℕ}

theorem tableEntry_congr {m : ℕ} (h : SameResidues m table table') :
    ctx.tableEntry table m = ctx.tableEntry table' m := by
  funext x
  by_cases hx : x < table.size
  · have hx' : x < table'.size := h.size_eq ▸ hx
    have hmod := h.mod_eq x hx
    rw [← Array.getElem_eq_getD (h := hx), ← Array.getElem_eq_getD (h := hx')] at hmod
    simp only [tableEntry, Array.getElem?_eq_getElem hx, Array.getElem?_eq_getElem hx', Word.mod, hmod]
  · have hx' : ¬x < table'.size := h.size_eq ▸ hx
    rw [tableEntry, tableEntry, Array.getElem?_eq_none (not_lt.1 hx), Array.getElem?_eq_none (not_lt.1 hx')]

/-- In any context and for any ciphertext, an evaluation is determined by the residues of the table and its class. -/
theorem evalFunction_congr (h : SameResidues ct.modulus table table')
    (hclass : TableClass.ofTable table ct.modulus = TableClass.ofTable table' ct.modulus) :
    ctx.evalFunction ct table = ctx.evalFunction ct table' := by
  simp only [evalFunction, h.size_eq, hclass, tableEntry_congr h]

theorem faults_evalFunction_of_modulus_one (hkey : ctx.keys.active = pure key) (hshape : shapeOf ct = ctx.smallShape)
    (hone : ct.modulus = 1) (hsize : table.size = 1) : (ctx.evalFunction ct table).Faults := by
  have hcheck : ct.addConstant beta = .error (.invalidModulus 1) := by
    rw [Lwe.Ciphertext.addConstant, hone]
    rfl
  have hclass : TableClass.ofTable table 1 = .ok .negacyclic := by
    rw [TableClass.ofTable, hsize]
    simp [cancels]
  exact ⟨.invalidModulus 1, by simp [evalFunction, checkSmall_eq hshape, hone, hsize, hkey, hclass, hcheck]⟩

namespace Bootstraps

theorem modulus_of_shape (h : ctx.Bootstraps q) (hshape : shapeOf ct = ctx.smallShape) : ct.modulus = q.value :=
  (congrArg Shape.modulus hshape).trans h.modulus_eq

section Outcome

variable (h : ctx.Bootstraps q) (hct : ct.WellFormed) (hshape : shapeOf ct = ctx.smallShape)
  (hsize : table.size = q.value)
include h hshape hsize

private theorem faults_evalFunction (hover : Overflows table q.value) :
    (ctx.evalFunction ct table).Faults := by
  obtain ⟨key, hkey⟩ := h.exists_active
  obtain ⟨-, hclass⟩ | ⟨hfits, -⟩ | ⟨hfits, -⟩ | ⟨hfits, -⟩ := TableClass.ofTable_outcome q.pos h.two_dvd hsize
  · exact ⟨.overflow, by
      simp [evalFunction, checkSmall_eq hshape, h.modulus_of_shape hshape, hsize, hkey, hclass]⟩
  all_goals exact (hfits hover).elim

private theorem evalFunction_of_arbitrary (hlarge : ctx.params.lwe.ringDimension < q.value)
    (hclass : TableClass.ofTable table q.value = .ok .arbitrary) : ctx.evalFunction ct table =
      Attempt.fail (.functionModulusTooLarge q.value ctx.params.lwe.ringDimension) := by
  obtain ⟨key, hkey⟩ := h.exists_active
  simp [evalFunction, checkSmall_eq hshape, h.modulus_of_shape hshape, hsize, hkey, hclass, hlarge.not_ge]

include hct

private theorem exists_of_periodic (hfits : ¬Overflows table q.value)
    (hclass : TableClass.ofTable table q.value = .ok .periodic) :
    ∃ out, ctx.evalFunction ct table = pure out := by
  obtain ⟨out, hout, -⟩ | ⟨e, -, herror⟩ := h.ends_evalFunction_of_fits hct hfits
  · exact ⟨out, hout⟩
  · cases herror with
    | shape herror =>
      cases herror with
      | shape hne => exact (hne hshape).elim
    | size hne => exact (hne (hsize.trans (h.modulus_of_shape hshape).symm)).elim
    | modulus harbitrary =>
      rw [h.modulus_of_shape hshape, hclass] at harbitrary
      cases harbitrary

/-- An evaluation faults just where the class of its table cannot be found. -/
theorem faults_evalFunction_iff : (ctx.evalFunction ct table).Faults ↔ Overflows table q.value := by
  refine ⟨fun hfaults => ?_, h.faults_evalFunction hshape hsize⟩
  by_contra hfits
  exact (h.ends_evalFunction_of_fits hct hfits).not_faults hfaults

private theorem evalFunction_ne (hsize' : table'.size = q.value) (hlarge : ctx.params.lwe.ringDimension < q.value)
    (hfits : ¬Overflows table q.value) (hfits' : ¬Overflows table' q.value) (hneg : ¬IsNegacyclic table q.value)
    (hneg' : ¬IsNegacyclic table' q.value) (hper : IsPeriodic table q.value) (hper' : ¬IsPeriodic table' q.value) :
    ctx.evalFunction ct table ≠ ctx.evalFunction ct table' := by
  have hclass := TableClass.ofTable_of_fits q.pos h.two_dvd hsize hfits
  have hclass' := TableClass.ofTable_of_fits q.pos h.two_dvd hsize' hfits'
  rw [if_neg hneg, if_pos hper] at hclass
  rw [if_neg hneg', if_neg hper'] at hclass'
  obtain ⟨out, hout⟩ := h.exists_of_periodic hct hshape hsize hfits hclass
  rw [hout, h.evalFunction_of_arbitrary hshape hsize' hlarge hclass']
  intro heq
  cases heq

/-- An evaluation faults just where the class of its table cannot be found. Otherwise tables with the same residues have
the same outcome if they are negacyclic, or if both repeat their lower half or neither does. Only the first of these
depends on the residues alone, and a modulus beyond the dimension of the ring tells all other tables apart. -/
theorem evalFunction_sameResidues (hsame : SameResidues q.value table table') :
    ((ctx.evalFunction ct table).Faults ↔ Overflows table q.value) ∧
    ((ctx.evalFunction ct table').Faults ↔ Overflows table' q.value) ∧
    (¬Overflows table q.value → ¬Overflows table' q.value →
      (IsNegacyclic table q.value ∨ (IsPeriodic table q.value ↔ IsPeriodic table' q.value) →
        ctx.evalFunction ct table = ctx.evalFunction ct table') ∧
      (ctx.params.lwe.ringDimension < q.value → ctx.evalFunction ct table = ctx.evalFunction ct table' →
        IsNegacyclic table q.value ∨ (IsPeriodic table q.value ↔ IsPeriodic table' q.value))) := by
  have hmodulus := h.modulus_of_shape hshape
  have hsize' : table'.size = q.value := hsame.size_eq.symm.trans hsize
  refine ⟨h.faults_evalFunction_iff hct hshape hsize, h.faults_evalFunction_iff hct hshape hsize',
    fun hfits hfits' => ⟨fun hsimilar => ?_, fun hlarge heq => ?_⟩⟩
  · have hclass := (TableClass.ofTable_eq_iff q.pos h.two_dvd hsize hsame hfits hfits').2 hsimilar
    rw [← hmodulus] at hsame hclass
    exact evalFunction_congr hsame hclass
  · by_cases hneg : IsNegacyclic table q.value
    · exact .inl hneg
    have hneg' := mt hsame.isNegacyclic_iff.2 hneg
    refine .inr ⟨fun hper => ?_, fun hper' => ?_⟩ <;> by_contra hnot
    · exact h.evalFunction_ne hct hshape hsize hsize' hlarge hfits hfits' hneg hneg' hper hnot heq
    · exact h.evalFunction_ne hct hshape hsize' hsize hlarge hfits' hfits hneg' hneg hper' hnot heq.symm

end Outcome

/-- Modulo eight, twice the dimension of the ring: a table that repeats its lower half is read, also with eight added to
every entry; with eight added to the first entry it is refused, and two entries of more than `2 ^ 63` are a fault. -/
theorem evalFunction_sameResidues_eight : ∃ start ctx : Context, ofSeed KeyStore.sampleParams #[1] = pure start ∧
    KeyCall.Reaches start [(.generate ⟨#[1], .ternary⟩ .symmetric, .ok ())] ctx ∧
    ¬(ctx.evalFunction ⟨#[3], 2, 8⟩ #[1, 2, 3, 4, 1, 2, 3, 4]).Faults ∧
    ctx.evalFunction ⟨#[3], 2, 8⟩ #[1, 2, 3, 4, 1, 2, 3, 4] =
      ctx.evalFunction ⟨#[3], 2, 8⟩ #[9, 10, 11, 12, 9, 10, 11, 12] ∧
    ¬(ctx.evalFunction ⟨#[3], 2, 8⟩ #[9, 2, 3, 4, 1, 2, 3, 4]).Faults ∧
    ctx.evalFunction ⟨#[3], 2, 8⟩ #[1, 2, 3, 4, 1, 2, 3, 4] ≠
      ctx.evalFunction ⟨#[3], 2, 8⟩ #[9, 2, 3, 4, 1, 2, 3, 4] ∧
    (ctx.evalFunction ⟨#[3], 2, 8⟩ #[2 ^ 63 + 1, 2, 3, 4, 2 ^ 63 + 1, 2, 3, 4]).Faults := by
  obtain ⟨start, ctx, hstart, hreaches⟩ := KeyCall.exists_generated
  obtain ⟨q, h⟩ := exists_bootstraps hstart hreaches rfl rfl rfl (by decide) (by decide) ⟨1, rfl⟩
  have hparams := params_of_reaches hstart hreaches
  obtain rfl : q = ⟨8, by decide, by decide⟩ := Modulus.value_injective (by rw [← h.modulus_eq, hparams]; rfl)
  have hshape : shapeOf ⟨#[3], 2, 8⟩ = ctx.smallShape := by
    rw [smallShape, hparams]
    rfl
  have hlarge : ctx.params.lwe.ringDimension < 8 := by
    rw [hparams]
    decide
  have hct : Lwe.Ciphertext.WellFormed ⟨#[3], 2, 8⟩ := by decide
  have hrun {table : Array ℕ} (hsame : SameResidues 8 #[1, 2, 3, 4, 1, 2, 3, 4] table) :=
    h.evalFunction_sameResidues hct hshape rfl hsame
  obtain ⟨hfaults, -, hsame⟩ := @hrun #[9, 10, 11, 12, 9, 10, 11, 12] ⟨rfl, by decide⟩
  obtain ⟨-, hfaults', hother⟩ := @hrun #[9, 2, 3, 4, 1, 2, 3, 4] ⟨rfl, by decide⟩
  obtain ⟨-, hover, -⟩ := @hrun #[2 ^ 63 + 1, 2, 3, 4, 2 ^ 63 + 1, 2, 3, 4] ⟨rfl, by decide⟩
  refine ⟨start, ctx, hstart, hreaches, mt hfaults.1 (by decide), ?_, mt hfaults'.1 (by decide), fun heq => ?_,
    hover.2 (by decide)⟩
  · exact (hsame (by decide) (by decide)).1 (by decide)
  · exact absurd ((hother (by decide) (by decide)).2 hlarge heq) (by decide)

end Bootstraps

end Context

end LatticeGates
