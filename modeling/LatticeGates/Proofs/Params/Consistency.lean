import LatticeGates.Proofs.Params.Resolution

/-!
# Consistency of parameters

Main statement: the parts of every parameter set that a security profile or the catalogue resolves to fit
together, and the small dimension is below that of the ring in all of them but two kinds.
-/

namespace LatticeGates.Params

variable {profile : Profile} {arbitrary everyBase : Bool} {bits ringDimension : ℕ} {method : Method}
  {params : Params}

/-- The parts of a parameter set fit together. -/
structure Consistent (params : Params) : Prop where
  ringDimension_eq : params.rgsw.ringDimension = params.lwe.ringDimension
  ringModulus_eq : params.rgsw.ringModulus = params.lwe.ringModulus
  modulus_eq : params.rgsw.modulus = params.lwe.modulus
  modulus_le : params.lwe.modulus ≤ params.lwe.ringModulus
  modulus_two_pow : ∃ k, params.lwe.modulus = 2 ^ k
  modulus_dvd : params.lwe.modulus ∣ 2 * params.lwe.ringDimension
  gadgetBase_two_pow : ∃ k, 0 < k ∧ params.rgsw.gadgetBase = 2 ^ k

private theorem OverRing.consistent {dimension n k : ℕ} (hn : n = 2 ^ k)
    (h : OverRing dimension n arbitrary bits everyBase params) : params.Consistent := by
  have hlt := h.ringModulus.lt
  refine ⟨?_, h.ringModulus_eq.symm, h.rgswModulus_eq, ?_, ?_, ?_, ?_⟩
  · rw [h.rgswRing_eq, h.lweRing_eq]
  · rw [h.lweModulus_eq, h.ringModulus_eq]
    split_ifs <;> omega
  · rw [h.lweModulus_eq, hn]
    split_ifs
    · exact ⟨k, rfl⟩
    · exact ⟨k + 1, (pow_succ' 2 k).symm⟩
  · rw [h.lweModulus_eq, h.lweRing_eq]
    split_ifs
    · exact dvd_mul_left n 2
    · exact dvd_rfl
  · rw [h.gadgetBase_eq]
    split_ifs
    · exact ⟨5, by norm_num, rfl⟩
    · obtain ⟨k, hpos, -, hk⟩ := exists_log_multiBases _ (preferredBase_mem bits)
      exact ⟨k, hpos, hk⟩

/-- The small dimension of a security profile is below that of the ring, but for one: `STD128` at the
smallest modulus over its smallest ring. -/
theorem ofSecurity_dimension_lt
    (h : ofSecurity profile arbitrary bits ringDimension method everyBase = pure params) :
    params.lwe.dimension < params.lwe.ringDimension ↔
      ¬(profile = .std128 ∧ bits = 11 ∧ ringDimension ≤ 1024) := by
  obtain ⟨dimension, k, hdimension, hargument, hk, hover⟩ := ofSecurity_eq_pure h
  rw [hover.dimension_eq, hover.lweRing_eq]
  unfold securityDimension? at hdimension
  split at hdimension
  · cases hdimension
    have := (leastRing_le bits).1
    simp
    omega
  · cases hdimension
    unfold leastRing
    rcases hargument with rfl | hpower
    · split_ifs with hbits <;> simp [hbits]
    · have hlog := (isPowerOfTwo_iff.1 hpower).2
      rcases le_or_gt ringDimension.log2 10 with hsmall | hlarge
      · have hle : ringDimension ≤ 2 ^ 10 := hlog ▸ Nat.pow_le_pow_right two_pos hsmall
        split_ifs with hbits
        · simp [hbits]
          omega
        · simp [hbits]
      · have hge : 2 ^ 11 ≤ ringDimension := hlog ▸ Nat.pow_le_pow_right two_pos hlarge
        split_ifs with hbits
        · simp [hbits]
          omega
        · simp [hbits]
  · cases hdimension

/-! ## The catalogue -/

private theorem row_powers (profile : Profile) : isPowerOfTwo profile.row.modulus = true ∧
    profile.row.modulus ∣ profile.row.order ∧ 2 ∣ profile.row.order ∧ 0 < profile.row.order ∧
    isPowerOfTwo profile.row.gadgetBase = true ∧ 1 < profile.row.gadgetBase := by
  cases profile <;> decide

private theorem row_dimension_lt (profile : Profile) :
    profile.row.dimension < profile.row.order / 2 ↔ profile ≠ .std256Q := by
  cases profile <;> decide

private theorem exists_rowPrime (profile : Profile) :
    ∃ q, ringPrime profile.row.bits profile.row.order = .ok q := by
  apply Checked.exists_of_isOk
  cases profile <;> decide +kernel

theorem exists_ofProfile (profile : Profile) (method : Method) (parties : ℕ) :
    ∃ params, ofProfile profile method parties = .ok params ∧ params.Consistent ∧
      (params.lwe.dimension < params.lwe.ringDimension ↔ profile ≠ .std256Q) := by
  obtain ⟨q, hq⟩ := exists_rowPrime profile
  obtain ⟨hpower, hdvd, heven, hpos, hbase, hone⟩ := row_powers profile
  have hlt := (ringPrime_eq_ok hq).lt
  rw [ofProfile, hq, Checked.ok_bind]
  refine ⟨_, rfl, ⟨rfl, rfl, rfl, ?_, ?_, ?_, ?_⟩, row_dimension_lt profile⟩
  · exact (Nat.le_of_dvd hpos hdvd).trans hlt.le
  · exact ⟨_, (isPowerOfTwo_iff.1 hpower).2.symm⟩
  · rwa [Nat.mul_div_cancel' heven]
  · exact ⟨_, (Nat.le_log2 (by omega)).2 hone, (isPowerOfTwo_iff.1 hbase).2.symm⟩

/-! ## Resolution -/

/-- Where parameters are taken from. -/
inductive Source where
  | security (profile : Profile) (arbitrary : Bool) (bits ringDimension : ℕ) (method : Method)
      (everyBase : Bool)
  | catalogue (name : String) (method : Method) (parties : ℕ)

namespace Source

def resolve : Source → Attempt Params
  | security profile arbitrary bits ringDimension method everyBase =>
    ofSecurity profile arbitrary bits ringDimension method everyBase
  | catalogue name method parties => ofName name method parties

/-- The security profile has an answer, or the name stands in the catalogue. -/
def Accepted : Source → Prop
  | security profile arbitrary bits ringDimension method everyBase =>
    ∃ params, ofSecurity profile arbitrary bits ringDimension method everyBase = pure params
  | catalogue name _ _ => ∃ profile, Profile.ofName? name = some profile

/-- The small dimension has no room below that of the ring. -/
def Crowded : Source → Prop
  | security profile _ bits ringDimension _ _ => profile = .std128 ∧ bits = 11 ∧ ringDimension ≤ 1024
  | catalogue name _ _ => Profile.ofName? name = some .std256Q

/-- An accepted source resolves, to parts that fit together. The small dimension is below that of the ring but
for two exceptions: a security profile at the smallest modulus, and a row of the catalogue. -/
theorem exists_consistent {source : Source} (h : source.Accepted) :
    ∃ params, source.resolve = pure params ∧ params.Consistent ∧
      (params.lwe.dimension < params.lwe.ringDimension ↔ ¬source.Crowded) := by
  cases source with
  | security profile arbitrary bits ringDimension method everyBase =>
    obtain ⟨params, hparams⟩ := h
    obtain ⟨dimension, k, -, -, hk, hover⟩ := ofSecurity_eq_pure hparams
    exact ⟨params, hparams, hover.consistent hk, ofSecurity_dimension_lt hparams⟩
  | catalogue name method parties =>
    obtain ⟨profile, hname⟩ := h
    obtain ⟨params, hparams, hconsistent, hlt⟩ := exists_ofProfile profile method parties
    refine ⟨params, ?_, hconsistent, hlt.trans (not_congr ?_)⟩
    · rw [resolve, ofName, profileOfName, hname]
      exact Attempt.liftM_eq_pure.2 hparams
    · rw [Crowded, hname, Option.some.injEq]

/-- Both exceptions. -/
theorem exists_consistent_std :
    (∃ params, (security .std128 false 11 0 .ginx false).resolve = pure params ∧ params.Consistent ∧
      params.lwe.ringDimension ≤ params.lwe.dimension) ∧
    ∃ params, (catalogue "STD256Q" .ginx 1).resolve = pure params ∧ params.Consistent ∧
      params.lwe.ringDimension ≤ params.lwe.dimension := by
  have hname : Profile.ofName? "STD256Q" = some .std256Q := by decide +kernel
  constructor
  · obtain ⟨params, hparams, hconsistent, hlt⟩ :=
      @exists_consistent (security .std128 false 11 0 .ginx false) (exists_ofSecurity rfl (Nat.zero_le _))
    exact ⟨params, hparams, hconsistent, not_lt.1 fun h => hlt.1 h ⟨rfl, rfl, Nat.zero_le _⟩⟩
  · obtain ⟨params, hparams, hconsistent, hlt⟩ :=
      @exists_consistent (catalogue "STD256Q" .ginx 1) ⟨_, hname⟩
    exact ⟨params, hparams, hconsistent, not_lt.1 fun h => hlt.1 h hname⟩

end Source

end LatticeGates.Params
