import LatticeGates.Proofs.Eval.Clearing
import LatticeGates.Proofs.Eval.Function
import LatticeGates.Proofs.KeyStore.Shape
import LatticeGates.Proofs.KeyStore.Totality

/-!
# Evaluation does not fault

Main statement: once keys were generated, every evaluation of ciphertexts with components below their moduli
ends in such ciphertexts, or in an error that its arguments account for. Nothing is asked of the noise, and
the inputs need not encrypt anything.
-/

namespace LatticeGates.Context

/-- What the evaluators are asked for. -/
inductive Evaluation where
  | gate (gate : Gate) (x y : Lwe.Ciphertext)
  | majority (x y z : Lwe.Ciphertext)
  | identity (x : Lwe.Ciphertext)
  | not (x : Lwe.Ciphertext)
  | function (x : Lwe.Ciphertext) (table : Array ℕ)
  | floor (x : Lwe.Ciphertext) (roundBits : ℕ)
  | sign (x : Lwe.Ciphertext)
  | digits (x : Lwe.Ciphertext)

namespace Evaluation

def inputs : Evaluation → List Lwe.Ciphertext
  | gate _ x y => [x, y]
  | majority x y z => [x, y, z]
  | identity x | not x | function x _ | floor x _ | sign x | digits x => [x]

def entries : Evaluation → Array ℕ
  | function _ table => table
  | _ => #[]

def run (ctx : Context) : Evaluation → Attempt (Array Lwe.Ciphertext)
  | gate g x y => do return #[← ctx.evalGate g x y]
  | majority x y z => do return #[← ctx.evalMajority x y z]
  | identity x => do return #[← ctx.evalIdentity x]
  | not x => do return #[← evalNot x]
  | function x table => do return #[← ctx.evalFunction x table]
  | floor x roundBits => do return #[← ctx.evalFloor x roundBits]
  | sign x => do return #[← ctx.evalSign x]
  | digits x => ctx.evalDigits x

end Evaluation

/-! ## Errors -/

def maxModulus (ctx : Context) : ℕ := min ctx.params.lwe.ringModulus ctx.params.lwe.switchingModulus

/-- The error for a ciphertext that is not of the small shape. -/
inductive ShapeError (ctx : Context) (ct : Lwe.Ciphertext) : Error → Prop
  | shape : shapeOf ct ≠ ctx.smallShape →
      ShapeError ctx ct (.dimensionMismatch ctx.smallShape (shapeOf ct))

/-- The errors for a ciphertext and a table that do not go together. -/
inductive FunctionError (ctx : Context) (ct : Lwe.Ciphertext) (table : Array ℕ) : Error → Prop
  | shape {e} : ShapeError ctx ct e → FunctionError ctx ct table e
  | size : table.size ≠ ct.modulus → FunctionError ctx ct table (.tableSize ct.modulus table.size)
  | modulus : TableClass.ofTable table ct.modulus = .ok .arbitrary →
      ctx.params.lwe.ringDimension < ct.modulus → FunctionError ctx ct table
        (.functionModulusTooLarge ct.modulus ctx.params.lwe.ringDimension)

/-- The errors for a message of large precision at a modulus that should be `least` at least. -/
inductive PrecisionError (ctx : Context) (ct : Lwe.Ciphertext) (least : ℕ) : Error → Prop
  | dimension : ct.dimension ≠ ctx.params.lwe.dimension → PrecisionError ctx ct least
      (.dimensionMismatch ⟨ctx.params.lwe.dimension, ct.modulus⟩ (shapeOf ct))
  | step : ctx.params.lwe.modulus < 4 * beta → PrecisionError ctx ct least
      (.precisionOutOfRange ctx.params.lwe.modulus (4 * beta) ctx.maxModulus)
  | modulus : ¬((∃ k, ct.modulus = 2 ^ k) ∧ least ≤ ct.modulus ∧ ct.modulus ≤ ctx.maxModulus) →
      PrecisionError ctx ct least (.precisionOutOfRange ct.modulus least ctx.maxModulus)

/-- The errors of a floor. Messages keep eight bits of noise below them. -/
inductive FloorError (ctx : Context) (ct : Lwe.Ciphertext) (roundBits : ℕ) : Error → Prop
  | precision {e} : PrecisionError ctx ct ctx.params.lwe.modulus e → FloorError ctx ct roundBits e
  | roundBits {k} : ctx.params.lwe.modulus = 2 ^ (k + 8) → k < roundBits →
      FloorError ctx ct roundBits (.invalidRoundBits roundBits k)

/-- The errors that the arguments of an evaluation account for. -/
def Evaluation.Refused (ctx : Context) : Evaluation → Error → Prop
  | gate _ x y, e => ctx.ShapeError x e ∨ ctx.ShapeError y e
  | majority x y z, e => ctx.ShapeError x e ∨ ctx.ShapeError y e ∨ ctx.ShapeError z e
  | identity x, e => ctx.ShapeError x e
  | not _, _ => False
  | function x table, e => ctx.FunctionError x table e
  | floor x roundBits, e => ctx.FloorError x roundBits e
  | sign x, e | digits x, e => ctx.PrecisionError x (2 * ctx.params.lwe.modulus) e

/-- The ring and the keys are of the shape that the parameters ask for. -/
structure Bootstraps (ctx : Context) (q : Modulus) : Prop where
  runs : ctx.ring.Runs
  degree_lt : 2 * ctx.ring.degree < ctx.ring.modulus.value
  degree_eq : ctx.ring.degree = ctx.params.lwe.ringDimension
  ringModulus_pos : 0 < ctx.params.lwe.ringModulus
  modulus_eq : ctx.params.lwe.modulus = q.value
  modulus_dvd : q.value ∣ 2 * ctx.ring.degree
  exists_active : ∃ key, ctx.keys.active = pure key
  fits : ∀ {b key}, ctx.keys.get? b = some key → key.Fits ctx.ring ctx.params.lwe.dimension

/-- The same for a modulus that the gates divide into eighths. -/
structure Equipped (ctx : Context) (q : Modulus) : Prop extends Bootstraps ctx q where
  eight_le : 8 ≤ q.value

/-- The ring, and the keys as far as there are any, are of the shape that the parameters ask for. -/
structure KeysFit (ctx : Context) (q : Modulus) : Prop where
  runs : ctx.ring.Runs
  degree_lt : 2 * ctx.ring.degree < ctx.ring.modulus.value
  ringModulus_pos : 0 < ctx.params.lwe.ringModulus
  modulus_eq : ctx.params.lwe.modulus = q.value
  modulus_dvd : q.value ∣ 2 * ctx.ring.degree
  fits : ∀ {bits key}, ctx.keys.forPrecision bits = pure key → key.Fits ctx.ring ctx.params.lwe.dimension

variable {ctx : Context} {key : BootstrapKey} {q t d : Modulus} {ct x y z : Lwe.Ciphertext} {n : ℕ}
  {table : Array ℕ}

section Keys

theorem get?_of_active {keys : KeyStore} (h : keys.active = pure key) : ∃ b, keys.get? b = some key := by
  unfold KeyStore.active at h
  split at h
  · rename_i hkey
    cases h
    exact ⟨_, hkey⟩
  · cases h

theorem get?_of_forPrecision {keys : KeyStore} {bits : ℕ} (h : keys.forPrecision bits = pure key) :
    ∃ b, keys.get? b = some key := by
  unfold KeyStore.forPrecision at h
  split at h
  · rename_i hkey
    cases h
    exact ⟨_, hkey⟩
  · exact get?_of_active h

theorem Bootstraps.exists_fits (h : ctx.Bootstraps q) :
    ∃ key, ctx.keys.active = pure key ∧ key.Fits ctx.ring ctx.params.lwe.dimension := by
  obtain ⟨key, hkey⟩ := h.exists_active
  obtain ⟨b, hb⟩ := get?_of_active hkey
  exact ⟨key, hkey, h.fits hb⟩

theorem Bootstraps.keysFit (h : ctx.Bootstraps q) : ctx.KeysFit q where
  runs := h.runs
  degree_lt := h.degree_lt
  ringModulus_pos := h.ringModulus_pos
  modulus_eq := h.modulus_eq
  modulus_dvd := h.modulus_dvd
  fits := fun hkey => by
    obtain ⟨b, hb⟩ := get?_of_forPrecision hkey
    exact h.fits hb

theorem KeysFit.ends_forPrecision (h : ctx.KeysFit q) (bits : ℕ) :
    (ctx.keys.forPrecision bits).Ends (·.Fits ctx.ring ctx.params.lwe.dimension)
      (ctx.keys.active = Attempt.fail ·) := by
  have hfits : ∀ {key}, ctx.keys.forPrecision bits = pure key →
      key.Fits ctx.ring ctx.params.lwe.dimension := h.fits
  unfold KeyStore.forPrecision at hfits ⊢
  split at hfits
  · exact .inl ⟨_, rfl, hfits rfl⟩
  · unfold KeyStore.active at hfits ⊢
    split at hfits
    · exact .inl ⟨_, rfl, hfits rfl⟩
    · exact .inr ⟨_, rfl, rfl⟩

theorem Bootstraps.not_fail (h : ctx.Bootstraps q) {e : Error} : ctx.keys.active ≠ Attempt.fail e := by
  obtain ⟨key, hkey⟩ := h.exists_active
  rw [hkey]
  exact fun he => nomatch he

end Keys

theorem KeysFit.exists_run (h : ctx.KeysFit q) (call : TableCall) (hkey : key.Fits ctx.ring n)
    (hinput : call.input.Shaped d n) (hdvd : d.value ∣ 2 * ctx.ring.degree)
    (htarget : call.target = t.value) : ∃ out, call.run ctx key = .ok out ∧ out.Shaped t n :=
  exists_bootstrapTable h.runs h.degree_lt hkey hinput hdvd htarget 0 _

theorem Bootstraps.exists_run (h : ctx.Bootstraps q) (call : TableCall) (hkey : key.Fits ctx.ring n)
    (hinput : call.input.Shaped d n) (hdvd : d.value ∣ 2 * ctx.ring.degree)
    (htarget : call.target = t.value) : ∃ out, call.run ctx key = .ok out ∧ out.Shaped t n :=
  h.keysFit.exists_run call hkey hinput hdvd htarget

section Small

theorem Bootstraps.ends_checkSmall (h : ctx.Bootstraps q) (hct : ct.WellFormed) :
    (ctx.checkSmall ct).Ends (fun _ => ct.Shaped q ctx.params.lwe.dimension) (ctx.ShapeError ct) := by
  refine (Attempt.ends_require fun hshape => .shape (beq_eq_false_iff_ne.1 hshape)).imp_value
    fun _ hshape => ?_
  simp only [beq_iff_eq, shapeOf, smallShape, Shape.mk.injEq] at hshape
  exact Lwe.Ciphertext.shaped_iff.2 ⟨hshape.2.trans h.modulus_eq, hshape.1, hct⟩

theorem Equipped.exists_bootstrapSign (h : ctx.Equipped q) {start : ℕ}
    (hct : ct.Shaped q ctx.params.lwe.dimension) (hstart : start ≤ ct.modulus) :
    ∃ out, ctx.bootstrapSign ct start = pure out ∧ out.Shaped q ctx.params.lwe.dimension := by
  obtain ⟨key, hkey, hfits⟩ := h.exists_fits
  obtain ⟨out, hout, hshaped⟩ := exists_bootstrapTable h.runs h.degree_lt hfits hct h.modulus_dvd
    hct.modulus_eq (ctx.params.lwe.ringModulus / 8)
    (signValue ctx.params.lwe.ringModulus ct.modulus start)
  refine ⟨out, ?_, hshaped⟩
  rw [bootstrapSign_eq hkey (hct.modulus_eq ▸ q.lt_bound) hstart, hout, Attempt.liftM_ok]

theorem Equipped.ends_evalGate (h : ctx.Equipped q) (g : Gate) (hx : x.WellFormed) (hy : y.WellFormed) :
    (ctx.evalGate g x y).Ends (·.Shaped q ctx.params.lwe.dimension)
      fun e => ctx.ShapeError x e ∨ ctx.ShapeError y e := by
  refine ((h.ends_checkSmall hx).imp_error fun _ => .inl).bind fun _ hx => ?_
  refine ((h.ends_checkSmall hy).imp_error fun _ => .inr).bind fun _ hy => ?_
  obtain ⟨sum, hsum, hsum_shaped, -⟩ := Lwe.Ciphertext.exists_add hx hy fun _ => 0
  obtain ⟨ct, hct, hct_shaped, -⟩ := exists_operand g hsum_shaped fun _ => 0
  rw [hsum, Attempt.liftM_ok, pure_bind, hct, Attempt.liftM_ok, pure_bind]
  refine Attempt.ends_of_exists (h.exists_bootstrapSign hct_shaped ?_)
  rw [hx.modulus_eq, hct_shaped.modulus_eq]
  exact g.regionStart_le q.value

theorem Equipped.ends_evalMajority (h : ctx.Equipped q) (hx : x.WellFormed) (hy : y.WellFormed)
    (hz : z.WellFormed) : (ctx.evalMajority x y z).Ends (·.Shaped q ctx.params.lwe.dimension)
      fun e => ctx.ShapeError x e ∨ ctx.ShapeError y e ∨ ctx.ShapeError z e := by
  refine ((h.ends_checkSmall hx).imp_error fun _ => .inl).bind fun _ hx => ?_
  refine ((h.ends_checkSmall hy).imp_error fun _ he => .inr (.inl he)).bind fun _ hy => ?_
  refine ((h.ends_checkSmall hz).imp_error fun _ he => .inr (.inr he)).bind fun _ hz => ?_
  obtain ⟨two, htwo, htwo_shaped, -⟩ := Lwe.Ciphertext.exists_add hx hy fun _ => 0
  obtain ⟨sum, hsum, hsum_shaped, -⟩ := Lwe.Ciphertext.exists_add htwo_shaped hz fun _ => 0
  rw [htwo, Attempt.liftM_ok, pure_bind, hsum, Attempt.liftM_ok, pure_bind]
  refine Attempt.ends_of_exists (h.exists_bootstrapSign hsum_shaped ?_)
  rw [hx.modulus_eq, hsum_shaped.modulus_eq]
  exact Gate.regionStart_le q.value .and

theorem Equipped.ends_evalIdentity (h : ctx.Equipped q) (hx : x.WellFormed) :
    (ctx.evalIdentity x).Ends (·.Shaped q ctx.params.lwe.dimension) (ctx.ShapeError x) := by
  refine (h.ends_checkSmall hx).bind fun _ hx => ?_
  obtain ⟨shifted, hshifted, hshaped, -⟩ :=
    Lwe.Ciphertext.exists_addConstant hx (x.modulus / 4) fun _ => 0
  rw [hshifted, Attempt.liftM_ok, pure_bind]
  refine Attempt.ends_of_exists (h.exists_bootstrapSign hshaped ?_)
  rw [hx.modulus_eq, hshaped.modulus_eq]
  exact Gate.regionStart_le q.value .and

end Small

section Tables

theorem Bootstraps.two_dvd (h : ctx.Bootstraps q) : 2 ∣ q.value :=
  NegacyclicRing.two_pow_dvd (k := 1) h.modulus_dvd q.one_lt

theorem Bootstraps.exists_foldPhase (h : ctx.Bootstraps q) (hkey : key.Fits ctx.ring n)
    (hct : ct.Shaped t n) (hdvd : t.value ∣ 2 * ctx.ring.degree) :
    ∃ folded, ctx.foldPhase key ct = .ok folded ∧ folded.Shaped t n := by
  obtain ⟨shifted, hshifted, hshift_shaped, -⟩ := Lwe.Ciphertext.exists_addConstant hct beta fun _ => 0
  obtain ⟨side, hside, hside_shaped⟩ :=
    h.exists_run (foldCall ct.modulus shifted) hkey hshift_shaped hdvd hct.modulus_eq
  obtain ⟨moved, hmoved, hmoved_shaped, -⟩ := Lwe.Ciphertext.exists_sub hct hside_shaped fun _ => 0
  obtain ⟨back, hback, hback_shaped, -⟩ :=
    Lwe.Ciphertext.exists_addConstant hmoved_shaped beta fun _ => 0
  obtain ⟨folded, hfolded, hfolded_shaped, -⟩ :=
    Lwe.Ciphertext.exists_subConstant hback_shaped (ct.modulus / 4) fun _ => 0
  refine ⟨folded, ?_, hfolded_shaped⟩
  rw [foldPhase_eq (hct.modulus_eq ▸ t.pos) h.ringModulus_pos hshifted hside hmoved hback, hfolded]

theorem Bootstraps.exists_readTable (h : ctx.Bootstraps q) (hkey : key.Fits ctx.ring n) (hct : ct.Shaped t n)
    (hdvd : t.value ∣ 2 * ctx.ring.degree) (hle : t.value ≤ 2 * q.value) (hsize : table.size = q.value) :
    ∃ out, ctx.bootstrapChecked key ct 0 q.value (ctx.tableEntry table q.value) = .ok out ∧
      out.Shaped q n := by
  rw [bootstrapChecked_table q.pos h.ringModulus_pos (by rw [hct.modulus_eq, hsize]; exact hle)]
  exact h.exists_run (tableCall table q.value ct) hkey hct hdvd rfl

/-- A table whose class is found is read without a fault, whatever its entries are. -/
theorem Bootstraps.ends_evalFunction_of_fits (h : ctx.Bootstraps q) (hct : ct.WellFormed)
    (hfits : ¬Overflows table q.value) : (ctx.evalFunction ct table).Ends
      (·.Shaped q ctx.params.lwe.dimension) (ctx.FunctionError ct table) := by
  refine ((h.ends_checkSmall hct).imp_error fun _ => .shape).bind fun _ hct => ?_
  have hmodulus := hct.modulus_eq
  refine (Attempt.ends_require fun hsize => .size (beq_eq_false_iff_ne.1 hsize)).bind fun _ hsize => ?_
  obtain ⟨key, hkey, hkey_fits⟩ := h.exists_fits
  rw [beq_iff_eq, hmodulus] at hsize
  rw [hkey, pure_bind, hmodulus]
  obtain ⟨hover, -⟩ | ⟨-, -, hclass⟩ | ⟨-, -, -, hclass⟩ | ⟨-, -, -, hclass⟩ :=
    TableClass.ofTable_outcome q.pos h.two_dvd hsize
  · exact (hfits hover).elim
  · obtain ⟨shifted, hshifted, hshift_shaped, -⟩ :=
      Lwe.Ciphertext.exists_addConstant hct beta fun _ => 0
    rw [hclass, Attempt.liftM_ok, pure_bind]
    dsimp only
    rw [hshifted, Attempt.liftM_ok, pure_bind]
    exact Attempt.ends_liftM (h.exists_readTable hkey_fits hshift_shaped h.modulus_dvd (by omega) hsize)
  · obtain ⟨folded, hfolded, hfold_shaped⟩ := h.exists_foldPhase hkey_fits hct h.modulus_dvd
    rw [hclass, Attempt.liftM_ok, pure_bind]
    dsimp only
    rw [hfolded, Attempt.liftM_ok, pure_bind]
    exact Attempt.ends_liftM (h.exists_readTable hkey_fits hfold_shaped h.modulus_dvd (by omega) hsize)
  · rw [hclass, Attempt.liftM_ok, pure_bind]
    refine (Attempt.ends_require fun hlarge => ?_).bind fun _ hle => ?_
    · rw [← hmodulus] at hlarge hclass ⊢
      exact .modulus hclass (not_le.1 (of_decide_eq_false hlarge))
    have hle : q.value ≤ ctx.params.lwe.ringDimension := of_decide_eq_true hle
    obtain ⟨k, hk⟩ := NegacyclicRing.exists_two_pow h.modulus_dvd
    have hlift : 2 * q.value ∣ 2 * ctx.ring.degree := by
      refine mul_dvd_mul_left 2 ?_
      rw [hk]
      exact NegacyclicRing.two_pow_dvd (dvd_mul_left _ _) (by rwa [← hk, h.degree_eq])
    obtain ⟨t, lifted, ht, hlifted, hlift_shaped, -⟩ := exists_lifted h.degree_lt hct hlift
    obtain ⟨folded, hfolded, hfold_shaped⟩ := h.exists_foldPhase hkey_fits hlift_shaped (ht ▸ hlift)
    rw [hmodulus] at hlifted
    rw [hlifted, Attempt.liftM_ok, pure_bind, hfolded, Attempt.liftM_ok, pure_bind]
    exact Attempt.ends_liftM (h.exists_readTable hkey_fits hfold_shaped (ht ▸ hlift) ht.le hsize)

theorem Equipped.ends_evalFunction (h : ctx.Equipped q) (hct : ct.WellFormed)
    (htable : ∀ y ∈ table, y < q.value) : (ctx.evalFunction ct table).Ends
      (·.Shaped q ctx.params.lwe.dimension) (ctx.FunctionError ct table) := by
  refine h.ends_evalFunction_of_fits hct fun ⟨x, _, hlarge, _⟩ => ?_
  have hentry : ∀ x, table.getD x 0 < q.value := by
    intro x
    by_cases hx : x < table.size
    · rw [← Array.getElem_eq_getD (h := hx)]
      exact htable _ (Array.getElem_mem hx)
    · rw [Array.getD_eq_getD_getElem?, Array.getElem?_eq_none (not_lt.1 hx)]
      exact q.pos
  have hlow := hentry x
  have hhigh := hentry (x + q.value / 2)
  have hbound := q.lt_bound
  simp only [Word.bound] at hlarge
  omega

end Tables

section Precision

theorem KeysFit.ends_checkPrecision (h : ctx.KeysFit q) (hct : ct.WellFormed) (hmodulus : 2 ≤ ct.modulus)
    (hbound : ct.modulus < 0x4000000000000000) (least : ℕ) :
    (ctx.checkPrecision ct least).Ends (fun _ => 512 ≤ q.value ∧ ∃ t : Modulus,
        ct.Shaped t ctx.params.lwe.dimension ∧ (∃ k, t.value = 2 ^ k) ∧ least ≤ t.value)
      (ctx.PrecisionError ct least) := by
  refine (Attempt.ends_require fun hdim => .dimension (beq_eq_false_iff_ne.1 hdim)).bind fun _ hdim => ?_
  refine (Attempt.ends_require fun hstep => .step (not_le.1 (of_decide_eq_false hstep))).bind
    fun _ hstep => ?_
  refine (Attempt.ends_require fun hrange => .modulus ?_).imp_value fun _ hrange => ?_
  · rw [Bool.and_eq_true, isPowerOfTwo_iff, decide_eq_true_eq] at hrange
    obtain ⟨⟨-, hlog⟩, hle, -⟩ := hrange
    rw [beq_iff_eq] at hdim
    exact ⟨h.modulus_eq ▸ of_decide_eq_true hstep, ⟨ct.modulus, hmodulus, hbound⟩,
      Lwe.Ciphertext.shaped_iff.2 ⟨rfl, hdim, hct⟩, ⟨_, hlog.symm⟩, hle⟩
  · rintro ⟨⟨k, hk⟩, hbounds⟩
    rw [hk, isPowerOfTwo_two_pow, Bool.true_and, decide_eq_false_iff_not, ← hk] at hrange
    exact hrange hbounds

theorem KeysFit.exists_floorWith (h : ctx.KeysFit q) (hkey : key.Fits ctx.ring n) (hct : ct.Shaped t n)
    (hdvd : d.value ∣ t.value) (hdegree : d.value ∣ 2 * ctx.ring.degree) :
    ∃ out, ctx.floorWith key ct d.value = .ok out ∧ out.Shaped t n := by
  have hmodulus := hct.modulus_eq
  have hle : d.value ≤ ct.modulus := hmodulus ▸ Nat.le_of_dvd t.pos hdvd
  have hpos : 0 < ct.modulus := hmodulus ▸ t.pos
  obtain ⟨shifted, hshifted, hshift_shaped, -⟩ := Lwe.Ciphertext.exists_addConstant hct beta fun _ => 0
  obtain ⟨low, hlow, hlow_shaped, -⟩ := Lwe.Ciphertext.exists_reduce hshift_shaped hdvd fun _ => 0
  obtain ⟨side, hside, hside_shaped⟩ :=
    h.exists_run (sideCall ct.modulus d.value low) hkey hlow_shaped hdegree hmodulus
  obtain ⟨centred, hcentred, hcentred_shaped, -⟩ :=
    Lwe.Ciphertext.exists_sub hshift_shaped hside_shaped fun _ => 0
  obtain ⟨rest, hrest, hrest_shaped, -⟩ := Lwe.Ciphertext.exists_reduce hcentred_shaped hdvd fun _ => 0
  obtain ⟨residue, hresidue, hresidue_shaped⟩ :=
    h.exists_run (residueCall ct.modulus d.value rest) hkey hrest_shaped hdegree hmodulus
  obtain ⟨out, hout, hout_shaped, -⟩ :=
    Lwe.Ciphertext.exists_sub hcentred_shaped hresidue_shaped fun _ => 0
  refine ⟨out, ?_, hout_shaped⟩
  rw [floorWith_eq hpos h.ringModulus_pos hle hshifted hlow hside hcentred hrest hresidue, hout]

theorem Equipped.ends_evalFloor (h : ctx.Equipped q) (hct : ct.WellFormed) (hmodulus : 2 ≤ ct.modulus)
    (hbound : ct.modulus < 0x4000000000000000) (roundBits : ℕ) :
    (ctx.evalFloor ct roundBits).Ends
      (fun out => ∃ t : Modulus, out.Shaped t ctx.params.lwe.dimension)
      (ctx.FloorError ct roundBits) := by
  refine ((h.keysFit.ends_checkPrecision hct hmodulus hbound _).imp_error fun _ => .precision).bind
    fun _ hprecision => ?_
  obtain ⟨hstep, t, hct, ⟨j, hj⟩, hle⟩ := hprecision
  obtain ⟨b, hb⟩ := NegacyclicRing.exists_two_pow h.modulus_dvd
  obtain ⟨k, rfl⟩ : ∃ k, b = k + 8 := by
    have : 9 ≤ b := (Nat.pow_le_pow_iff_right one_lt_two).1 (hb ▸ hstep)
    exact ⟨b - 8, by omega⟩
  have hmax := oddPart_maxPlaintext (h.modulus_eq.trans hb)
  refine (Attempt.ends_require fun hbits => ?_).bind fun _ hbits => ?_
  · rw [hmax] at hbits ⊢
    exact .roundBits (h.modulus_eq.trans hb) (not_le.1 (of_decide_eq_false hbits))
  · rw [hmax, decide_eq_true_eq] at hbits
    obtain ⟨key, hkey, hfits⟩ := h.exists_fits
    obtain ⟨d, hd, hdvd, -⟩ := exists_floorStep hb hbits
    have hqt : q.value ∣ t.value := by
      rw [h.modulus_eq, hb, hj] at hle
      rw [hb, hj]
      exact pow_dvd_pow 2 ((Nat.pow_le_pow_iff_right one_lt_two).1 hle)
    obtain ⟨out, hout, hshaped⟩ := h.keysFit.exists_floorWith (d := d) hfits hct (hdvd.trans hqt)
      (hdvd.trans h.modulus_dvd)
    rw [hkey, pure_bind, shiftLeft_eq_floorStep, h.modulus_eq, ← hd, hout]
    exact Attempt.ends_liftM ⟨out, rfl, t, hshaped⟩

theorem KeysFit.ends_dropDigit (h : ctx.KeysFit q) (hct : ct.Shaped t ctx.params.lwe.dimension)
    (hdvd : q.value ∣ t.value) {r : Modulus} (hr : r.value = nextModulus q.value t.value) :
    (ctx.dropDigit q.value ct t.value).Ends (·.Shaped r ctx.params.lwe.dimension)
      (ctx.keys.active = Attempt.fail ·) := by
  refine (h.ends_forPrecision (logModulus t.value)).bind fun key hfits => ?_
  obtain ⟨cleared, hcleared, hclear_shaped⟩ := h.exists_floorWith hfits hct hdvd h.modulus_dvd
  obtain ⟨out, hout, hout_modulus, hout_size, hout_wf, -⟩ :=
    Lwe.Ciphertext.exists_switchModulus (hclear_shaped.modulus_eq ▸ t.pos) r.pos
  rw [hcleared, Attempt.liftM_ok, pure_bind, ← hr]
  exact Attempt.ends_liftM ⟨out, hout, Lwe.Ciphertext.shaped_iff.2
    ⟨hout_modulus, hout_size.trans hclear_shaped.mask.size_eq, hout_wf⟩⟩

/-- The rounds end at a modulus that divides the small one, and all that they drop is well-formed. -/
theorem KeysFit.ends_dropDigits (h : ctx.KeysFit q) (hstep : 512 ≤ q.value)
    (hct : ct.Shaped t ctx.params.lwe.dimension) (ht : ∃ k, t.value = 2 ^ k) (digits : Bool)
    {dropped : Array Lwe.Ciphertext} (hdropped : ∀ digit ∈ dropped, digit.WellFormed) :
    (ctx.dropDigits q.value t.value ct digits dropped).Ends
      (fun (ds, last, m) => ∃ r : Modulus, m = r.value ∧ last.Shaped r ctx.params.lwe.dimension ∧
        r.value ∣ q.value ∧ ∀ digit ∈ ds, digit.WellFormed)
      (ctx.keys.active = Attempt.fail ·) := by
  have hpow := NegacyclicRing.exists_two_pow h.modulus_dvd
  -- by induction on the modulus, which a round makes smaller
  obtain ⟨n, hn⟩ : ∃ n, t.value = n := ⟨_, rfl⟩
  induction n using Nat.strong_induction_on generalizing t ct dropped with
  | _ n ih =>
    by_cases hlt : q.value < t.value
    · have hdvd := dvd_of_two_pow_lt hpow ht hlt
      obtain ⟨hnext_pow, hnext_le, -⟩ := nextModulus_two_pow hstep hpow ht hlt
      have hnext_lt := nextModulus_lt (q := q.value) hstep hlt
      obtain ⟨r, hr⟩ : ∃ r : Modulus, r.value = nextModulus q.value t.value :=
        ⟨⟨nextModulus q.value t.value, by omega, hnext_lt.trans t.lt_bound⟩, rfl⟩
      obtain ⟨digit, hdigit, hdigit_shaped, -⟩ := Lwe.Ciphertext.exists_reduce hct hdvd fun _ => 0
      have hpushed : ∀ c ∈ if digits then dropped.push digit else dropped, c.WellFormed := by
        intro c hc
        split at hc
        · rcases Array.mem_push.1 hc with hc | rfl
          · exact hdropped c hc
          · exact (Lwe.Ciphertext.shaped_iff.1 hdigit_shaped).2.2
        · exact hdropped c hc
      rw [dropDigits_next hstep hlt hdigit]
      refine (h.ends_dropDigit hct hdvd hr).bind fun out hout => ?_
      rw [← hr]
      exact ih r.value (hn ▸ hr ▸ hnext_lt) hout (hr ▸ hnext_pow) hpushed rfl
    · rw [dropDigits_of_le (not_lt.1 hlt)]
      refine Attempt.ends_of_exists ⟨_, rfl, t, rfl, hct, ?_, hdropped⟩
      obtain ⟨a, ha⟩ := ht
      obtain ⟨b, hb⟩ := hpow
      rw [ha, hb] at hlt ⊢
      exact pow_dvd_pow 2 ((Nat.pow_le_pow_iff_right one_lt_two).1 (not_lt.1 hlt))

private theorem KeysFit.double_mod (h : ctx.KeysFit q) :
    2 * ctx.params.lwe.modulus % Word.bound = 2 * ctx.params.lwe.modulus := by
  have := q.lt_bound
  rw [h.modulus_eq]
  exact Nat.mod_eq_of_lt (by simp only [Word.bound]; omega)

theorem KeysFit.ends_evalSign (h : ctx.KeysFit q) (hct : ct.WellFormed) (hmodulus : 2 ≤ ct.modulus)
    (hbound : ct.modulus < 0x4000000000000000) : (ctx.evalSign ct).Ends
      (·.Shaped q ctx.params.lwe.dimension)
      fun e => ctx.PrecisionError ct (2 * ctx.params.lwe.modulus) e ∨ ctx.keys.active = Attempt.fail e := by
  rw [evalSign, h.double_mod]
  refine ((h.ends_checkPrecision hct hmodulus hbound _).imp_error fun _ => .inl).bind fun _ hprecision => ?_
  obtain ⟨hstep, t, hct, ht, -⟩ := hprecision
  rw [hct.modulus_eq, h.modulus_eq]
  refine ((h.ends_dropDigits hstep hct ht false (by simp)).imp_error fun _ => .inr).bind fun run hrun => ?_
  obtain ⟨_, last, m⟩ := run
  obtain ⟨r, hr, hlast, hdvd, -⟩ := hrun
  obtain ⟨shifted, hshifted, hshift_shaped, -⟩ :=
    Lwe.Ciphertext.exists_addConstant hlast beta fun _ => 0
  dsimp only
  rw [hshifted, Attempt.liftM_ok, pure_bind]
  refine ((h.ends_forPrecision (logModulus _)).imp_error fun _ => .inr).bind fun key hfits => ?_
  obtain ⟨sign, hsign, hsign_shaped⟩ := exists_bootstrapTable h.runs h.degree_lt hfits hshift_shaped
    (hdvd.trans h.modulus_dvd) (t := q) rfl 0 fun _ => ctx.params.lwe.ringModulus / 4
  obtain ⟨out, hout, hshaped, -⟩ :=
    Lwe.Ciphertext.exists_subConstant hsign_shaped (q.value / 4) fun _ => 0
  rw [bootstrapChecked_ok, hsign, Attempt.liftM_ok, pure_bind]
  exact Attempt.ends_liftM ⟨out, hout, hshaped⟩

theorem Equipped.ends_evalSign (h : ctx.Equipped q) (hct : ct.WellFormed) (hmodulus : 2 ≤ ct.modulus)
    (hbound : ct.modulus < 0x4000000000000000) : (ctx.evalSign ct).Ends
      (·.Shaped q ctx.params.lwe.dimension) (ctx.PrecisionError ct (2 * ctx.params.lwe.modulus)) :=
  (h.keysFit.ends_evalSign hct hmodulus hbound).imp_error fun _ he => he.resolve_right h.not_fail

theorem KeysFit.ends_evalDigits (h : ctx.KeysFit q) (hct : ct.WellFormed) (hmodulus : 2 ≤ ct.modulus)
    (hbound : ct.modulus < 0x4000000000000000) : (ctx.evalDigits ct).Ends
      (fun outs => ∀ out ∈ outs, out.WellFormed)
      fun e => ctx.PrecisionError ct (2 * ctx.params.lwe.modulus) e ∨ ctx.keys.active = Attempt.fail e := by
  rw [evalDigits, h.double_mod]
  refine ((h.ends_checkPrecision hct hmodulus hbound _).imp_error fun _ => .inl).bind fun _ hprecision => ?_
  obtain ⟨hstep, t, hct, ht, -⟩ := hprecision
  rw [hct.modulus_eq, h.modulus_eq]
  refine ((h.ends_dropDigits hstep hct ht true (by simp)).imp_error fun _ => .inr).bind fun run hrun => ?_
  obtain ⟨ds, last, m⟩ := run
  obtain ⟨r, -, hlast, -, hds⟩ := hrun
  refine Attempt.ends_of_exists ⟨_, rfl, fun out hout => ?_⟩
  rcases Array.mem_push.1 hout with hout | rfl
  · exact hds out hout
  · exact (Lwe.Ciphertext.shaped_iff.1 hlast).2.2

theorem Equipped.ends_evalDigits (h : ctx.Equipped q) (hct : ct.WellFormed) (hmodulus : 2 ≤ ct.modulus)
    (hbound : ct.modulus < 0x4000000000000000) : (ctx.evalDigits ct).Ends
      (fun outs => ∀ out ∈ outs, out.WellFormed)
      (ctx.PrecisionError ct (2 * ctx.params.lwe.modulus)) :=
  (h.keysFit.ends_evalDigits hct hmodulus hbound).imp_error fun _ he => he.resolve_right h.not_fail

end Precision

section Requests

private theorem ends_singleton {outcome : Attempt Lwe.Ciphertext} {error : Error → Prop}
    (h : outcome.Ends (fun out => ∃ t : Modulus, out.Shaped t n) error) :
    (do return #[← outcome] : Attempt (Array Lwe.Ciphertext)).Ends
      (fun outs => ∀ out ∈ outs, out.WellFormed) error := by
  refine h.bind fun out hout => Attempt.ends_of_exists ⟨_, rfl, fun out' hmem => ?_⟩
  obtain ⟨t, hshaped⟩ := hout
  obtain rfl := Array.mem_singleton.1 hmem
  exact (Lwe.Ciphertext.shaped_iff.1 hshaped).2.2

theorem Equipped.ends_run (h : ctx.Equipped q) {request : Evaluation}
    (hinputs : ∀ ct ∈ request.inputs,
      ct.WellFormed ∧ 2 ≤ ct.modulus ∧ ct.modulus < 0x4000000000000000)
    (hentries : ∀ y ∈ request.entries, y < q.value) :
    (request.run ctx).Ends (fun outs => ∀ out ∈ outs, out.WellFormed) (request.Refused ctx) := by
  have hsmall {ct : Lwe.Ciphertext} (hct : ct.Shaped q ctx.params.lwe.dimension) :
      ∃ t : Modulus, ct.Shaped t ctx.params.lwe.dimension := ⟨q, hct⟩
  cases request with
  | gate g x y =>
    obtain ⟨⟨hx, -⟩, hy⟩ := List.forall_mem_cons.1 hinputs
    have hy := (List.forall_mem_singleton.1 hy).1
    exact ends_singleton ((h.ends_evalGate g hx hy).imp_value fun _ => hsmall)
  | majority x y z =>
    obtain ⟨⟨hx, -⟩, hrest⟩ := List.forall_mem_cons.1 hinputs
    obtain ⟨⟨hy, -⟩, hz⟩ := List.forall_mem_cons.1 hrest
    have hz := (List.forall_mem_singleton.1 hz).1
    exact ends_singleton ((h.ends_evalMajority hx hy hz).imp_value fun _ => hsmall)
  | identity x =>
    obtain ⟨hx, -⟩ := List.forall_mem_singleton.1 hinputs
    exact ends_singleton ((h.ends_evalIdentity hx).imp_value fun _ => hsmall)
  | not x =>
    obtain ⟨hx, hmodulus, hbound⟩ := List.forall_mem_singleton.1 hinputs
    obtain ⟨out, hout, hshaped, -⟩ := exists_evalNot (q := ⟨x.modulus, hmodulus, hbound⟩)
      (Lwe.Ciphertext.shaped_iff.2 ⟨rfl, rfl, hx⟩) 0
    exact ends_singleton (Attempt.ends_liftM ⟨out, hout, _, hshaped⟩)
  | function x table =>
    obtain ⟨hx, -⟩ := List.forall_mem_singleton.1 hinputs
    exact ends_singleton ((h.ends_evalFunction hx hentries).imp_value fun _ => hsmall)
  | floor x roundBits =>
    obtain ⟨hx, hmodulus, hbound⟩ := List.forall_mem_singleton.1 hinputs
    exact ends_singleton (h.ends_evalFloor hx hmodulus hbound roundBits)
  | sign x =>
    obtain ⟨hx, hmodulus, hbound⟩ := List.forall_mem_singleton.1 hinputs
    exact ends_singleton ((h.ends_evalSign hx hmodulus hbound).imp_value fun _ => hsmall)
  | digits x =>
    obtain ⟨hx, hmodulus, hbound⟩ := List.forall_mem_singleton.1 hinputs
    exact h.ends_evalDigits hx hmodulus hbound

variable {params : Params} {seed : Array UInt8} {start : Context}
  {history : List (KeyCall × Except Error Unit)} {sk : Lwe.Secret} {mode : KeyMode}

theorem params_of_reaches (hstart : ofSeed params seed = pure start) (hreaches : KeyCall.Reaches start history ctx) :
    ctx.params = params := by
  obtain ⟨ring, -, rfl⟩ := ofSeed_eq_pure hstart
  exact (hreaches.explained rfl).params_eq

/-- A context bootstraps after a generation of keys, whatever calls failed afterwards. -/
theorem exists_bootstraps (hstart : ofSeed params seed = pure start)
    (hreaches : KeyCall.Reaches start history ctx)
    (hdone : KeyCall.lastDone history = some (.generate sk mode))
    (hdegree : params.lwe.ringDimension = params.rgsw.ringDimension)
    (hring : params.lwe.ringModulus = params.rgsw.ringModulus) (hdim : 1 ≤ params.lwe.dimension)
    (hmodulus : 2 ≤ params.lwe.modulus) (hdvd : params.lwe.modulus ∣ 2 * params.lwe.ringDimension) :
    ∃ q, ctx.Bootstraps q := by
  obtain ⟨ring, hcheck, rfl⟩ := ofSeed_eq_pure hstart
  obtain ⟨hparams, hring_eq, -⟩ := hreaches.explained rfl
  obtain ⟨hdegree_eq, hvalue, -⟩ := NegacyclicRing.check_shape hcheck
  obtain ⟨hactive, hfits⟩ := hreaches.fits rfl hvalue (Nat.one_le_iff_ne_zero.1 hdim) hdone
  have hlt := NegacyclicRing.two_mul_degree_lt_modulus hcheck
  rw [hdegree, ← hdegree_eq] at hdvd
  obtain ⟨q, hq⟩ := NegacyclicRing.exists_modulus_of_dvd hcheck hmodulus hdvd
  refine ⟨q, ?_⟩
  dsimp only at hparams hring_eq
  rw [← hring_eq] at hcheck hlt hdegree_eq hvalue hdvd
  exact {
    runs := NegacyclicRing.check_runs hcheck
    degree_lt := hlt
    degree_eq := by rw [hdegree_eq, hparams, hdegree]
    ringModulus_pos := by rw [hparams, hring, ← hvalue]; exact ctx.ring.modulus.pos
    modulus_eq := by rw [hparams, hq]
    modulus_dvd := hq ▸ hdvd
    exists_active := hactive
    fits := fun hkey => hfits _ _ hkey }

theorem exists_equipped (hstart : ofSeed params seed = pure start)
    (hreaches : KeyCall.Reaches start history ctx)
    (hdone : KeyCall.lastDone history = some (.generate sk mode))
    (hdegree : params.lwe.ringDimension = params.rgsw.ringDimension)
    (hring : params.lwe.ringModulus = params.rgsw.ringModulus) (hdim : 1 ≤ params.lwe.dimension)
    (hmodulus : 8 ≤ params.lwe.modulus) (hdvd : params.lwe.modulus ∣ 2 * params.lwe.ringDimension) :
    ∃ q, ctx.Equipped q := by
  obtain ⟨q, h⟩ := exists_bootstraps hstart hreaches hdone hdegree hring hdim
    ((by decide : 2 ≤ 8).trans hmodulus) hdvd
  exact ⟨q, h, by rwa [← h.modulus_eq, params_of_reaches hstart hreaches]⟩

/-- Once keys were generated, an evaluation of ciphertexts with components below their moduli ends without a
fault: in ciphertexts with components below their moduli, or in an error that the arguments account for. -/
theorem Evaluation.ends_of_reaches {request : Evaluation} (hstart : ofSeed params seed = pure start)
    (hreaches : KeyCall.Reaches start history ctx)
    (hdone : KeyCall.lastDone history = some (.generate sk mode))
    (hdegree : params.lwe.ringDimension = params.rgsw.ringDimension)
    (hring : params.lwe.ringModulus = params.rgsw.ringModulus) (hdim : 1 ≤ params.lwe.dimension)
    (hmodulus : 8 ≤ params.lwe.modulus) (hdvd : params.lwe.modulus ∣ 2 * params.lwe.ringDimension)
    (hinputs : ∀ ct ∈ request.inputs, ct.WellFormed ∧ 2 ≤ ct.modulus ∧ ct.modulus < 2 ^ 62)
    (hentries : ∀ y ∈ request.entries, y < params.lwe.modulus) :
    (request.run ctx).Ends (fun outs => ∀ out ∈ outs, out.WellFormed) (request.Refused ctx) := by
  obtain ⟨q, h⟩ := exists_equipped hstart hreaches hdone hdegree hring hdim hmodulus hdvd
  have hparams : ctx.params = params := by
    obtain ⟨ring, -, rfl⟩ := ofSeed_eq_pure hstart
    exact (hreaches.explained rfl).params_eq
  refine h.ends_run hinputs fun y hy => ?_
  rw [← h.modulus_eq, hparams]
  exact hentries y hy

/-- A gate on two ciphertexts that nobody encrypted. -/
theorem Evaluation.ends_of_reaches_nand : ∃ (start ctx : Context) (outs : Array Lwe.Ciphertext),
    ofSeed KeyStore.sampleParams #[1] = pure start ∧
    KeyCall.Reaches start [(.generate ⟨#[1], .ternary⟩ .symmetric, .ok ())] ctx ∧
    (Evaluation.gate .nand ⟨#[3], 2, 8⟩ ⟨#[5], 7, 8⟩).run ctx = pure outs ∧
    ∀ out ∈ outs, out.WellFormed := by
  obtain ⟨start, ctx, hstart, hreaches⟩ := KeyCall.exists_generated
  have hinputs : ∀ ct ∈ (Evaluation.gate .nand ⟨#[3], 2, 8⟩ ⟨#[5], 7, 8⟩).inputs,
      ct.WellFormed ∧ 2 ≤ ct.modulus ∧ ct.modulus < 2 ^ 62 :=
    List.forall_mem_cons.2 ⟨by decide, List.forall_mem_singleton.2 (by decide)⟩
  have hends := ends_of_reaches hstart hreaches rfl rfl rfl (by decide) (by decide) ⟨1, rfl⟩ hinputs
    (by simp [entries])
  obtain ⟨ring, -, rfl⟩ := ofSeed_eq_pure hstart
  have hsmall {ct : Lwe.Ciphertext} {e : Error} (h : ctx.ShapeError ct e) : shapeOf ct ≠ ⟨1, 8⟩ := by
    cases h with
    | shape hne => rwa [smallShape, (hreaches.explained rfl).params_eq] at hne
  rcases hends with ⟨outs, houts, hwf⟩ | ⟨e, -, hx | hy⟩
  · exact ⟨_, ctx, outs, hstart, hreaches, houts, hwf⟩
  · exact (hsmall hx rfl).elim
  · exact (hsmall hy rfl).elim

end Requests

end LatticeGates.Context
