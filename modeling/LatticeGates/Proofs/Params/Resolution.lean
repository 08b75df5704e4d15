import LatticeGates.Context
import LatticeGates.Proofs.Attempt
import LatticeGates.Proofs.Gadget.Recomposition
import LatticeGates.Proofs.Params.RingModulus
import LatticeGates.Proofs.Ring.Product

/-!
# Resolution of parameters

Main statements: what the resolution of a security profile answers to every argument; a parameter set that
it returns can be used, and a context is made from it.
-/

namespace LatticeGates

/-! ## Gadgets -/

theorem trailingZeros_two_pow (width k : ℕ) : trailingZeros width (2 ^ k) = k := by
  rw [trailingZeros, if_neg (Nat.two_pow_pos k).ne', Prime.oddPart_two_pow]

theorem Gadget.powers_eq {g : Gadget} {q k : ℕ} (h : Gadget.check q k = .ok g) :
    g.powers = Array.ofFn fun l : Fin g.digits => (2 ^ k) ^ l.1 % q := by
  obtain ⟨_, -, h⟩ := Checked.bind_eq_ok.1 h
  obtain ⟨modulus, hmodulus, h⟩ := Checked.bind_eq_ok.1 h
  cases h
  obtain rfl := Modulus.check_eq_ok.1 hmodulus
  ext i hi hi'
  · simp [powers, Modulus.powers_eq]
  · simp [powers, Modulus.powers_eq, base, Nat.one_shiftLeft, Nat.pow_mod]

private theorem exists_gadget {q : ℕ} {bases : List ℕ}
    (hbases : ∀ base ∈ bases, ∃ k, 0 < k ∧ k < 63 ∧ base = 2 ^ k) (hq : 1 < q)
    (hbound : q < 0x4000000000000000) :
    ∀ base ∈ bases, ∃ g, Gadget.check q (trailingZeros 64 base) = .ok g := by
  intro base hbase
  obtain ⟨k, hpos, hlt, rfl⟩ := hbases base hbase
  rw [trailingZeros_two_pow]
  obtain ⟨g, hg, -⟩ := Gadget.exists_check hq hbound hpos (by omega)
  exact ⟨g, hg⟩

/-- Every base whose gadget can be made gets its powers filed, and no other base. -/
theorem exists_gadgetsOf {q : ℕ} {bases : List ℕ}
    (h : ∀ base ∈ bases, ∃ g, Gadget.check q (trailingZeros 64 base) = .ok g) :
    ∃ r, gadgetsOf q bases = .ok r ∧ (∀ base ∉ bases, r.get? base = none) ∧ ∀ base ∈ bases,
      ∃ g, Gadget.check q (trailingZeros 64 base) = .ok g ∧ r.get? base = some g.powers := by
  suffices hfold : ∀ start : Registry (Array ℕ), ∃ r, bases.foldlM (fun r base => do
      let g ← Gadget.check q (trailingZeros 64 base)
      return r.insert base g.powers) start = .ok r ∧
      (∀ base ∉ bases, r.get? base = start.get? base) ∧ ∀ base ∈ bases,
        ∃ g, Gadget.check q (trailingZeros 64 base) = .ok g ∧ r.get? base = some g.powers from
    hfold .empty
  induction bases with
  | nil => exact fun start => ⟨start, rfl, fun _ _ => rfl, fun _ hbase => nomatch hbase⟩
  | cons first bases ih =>
    intro start
    obtain ⟨hfirst, hrest⟩ := List.forall_mem_cons.1 h
    obtain ⟨g, hg⟩ := hfirst
    obtain ⟨r, hr, hother, hfiled⟩ := ih hrest (start.insert first g.powers)
    refine ⟨r, ?_, fun base hbase => ?_, List.forall_mem_cons.2 ⟨?_, hfiled⟩⟩
    · rw [List.foldlM_cons, hg, Checked.ok_bind]
      exact hr
    · obtain ⟨hne, hnot⟩ := not_or.1 (mt List.mem_cons.2 hbase)
      rw [hother base hnot, Registry.get?_insert, if_neg hne]
    · by_cases hagain : first ∈ bases
      · exact hfiled first hagain
      · exact ⟨g, hg, by rw [hother first hagain, Registry.get?_insert, if_pos rfl]⟩

/-- The gadgets filed with the parameters: the base in use has one, and under each base stand its
powers, as many as its decomposition has digits. -/
structure RgswParams.FilesGadgets (p : RgswParams) : Prop where
  active : (p.gadgets.get? p.gadgetBase).isSome
  powers : ∀ base table, p.gadgets.get? base = some table → ∃ g, p.gadgetFor base = .ok g ∧
    table = Array.ofFn fun l : Fin g.digits => base ^ l.1 % p.ringModulus

theorem RgswParams.filesGadgets {p : RgswParams} {bases : List ℕ}
    (hbases : ∀ base ∈ bases, ∃ k, 0 < k ∧ k < 63 ∧ base = 2 ^ k) (hactive : p.gadgetBase ∈ bases)
    (hq : 1 < p.ringModulus) (hbound : p.ringModulus < 0x4000000000000000)
    (h : gadgetsOf p.ringModulus bases = .ok p.gadgets) : p.FilesGadgets := by
  obtain ⟨r, hr, hother, hfiled⟩ := exists_gadgetsOf (exists_gadget hbases hq hbound)
  obtain rfl : p.gadgets = r := Except.ok.inj (h.symm.trans hr)
  refine ⟨?_, fun base table htable => ?_⟩
  · obtain ⟨g, -, hg⟩ := hfiled _ hactive
    rw [hg]
    rfl
  · have hbase : base ∈ bases := by
      by_contra hnot
      rw [hother base hnot] at htable
      cases htable
    obtain ⟨g, hg, hpowers⟩ := hfiled base hbase
    obtain ⟨k, -, -, rfl⟩ := hbases base hbase
    rw [hpowers, Option.some_inj] at htable
    rw [trailingZeros_two_pow] at hg
    refine ⟨g, ?_, htable.symm.trans (Gadget.powers_eq hg)⟩
    rw [gadgetFor, isPowerOfTwo_two_pow, ensure_true, Checked.ok_bind, trailingZeros_two_pow, hg]

namespace Params

variable {profile : Profile} {arbitrary everyBase : Bool} {bits ringDimension dimension n : ℕ}
  {method : Method} {params : Params}

/-! ## Parameters over a ring -/

/-- What parameters over a ring of dimension `n` are put together from. -/
structure OverRing (dimension n : ℕ) (arbitrary : Bool) (bits : ℕ) (everyBase : Bool)
    (params : Params) : Prop where
  dimension_eq : params.lwe.dimension = dimension
  lweRing_eq : params.lwe.ringDimension = n
  rgswRing_eq : params.rgsw.ringDimension = n
  lweModulus_eq : params.lwe.modulus = if arbitrary then n else 2 * n
  rgswModulus_eq : params.rgsw.modulus = params.lwe.modulus
  ringModulus_eq : params.lwe.ringModulus = params.rgsw.ringModulus
  ringModulus : RingModulus (ringBits bits) (2 * n) params.rgsw.ringModulus
  gadgetBase_eq : params.rgsw.gadgetBase = if bits = 11 then 2 ^ 5 else preferredBase bits
  everyBase_eq : params.everyBase = (everyBase && bits != 11)
  gadgets_eq : filedGadgets params.everyBase params.rgsw.ringModulus = .ok params.rgsw.gadgets

theorem overRing_eq_ok (h : overRing dimension n arbitrary bits method everyBase = .ok params) :
    OverRing dimension n arbitrary bits everyBase params := by
  obtain ⟨twoN, htwoN, h⟩ := Checked.bind_eq_ok.1 h
  obtain ⟨q, hq, h⟩ := Checked.bind_eq_ok.1 h
  obtain ⟨gadgets, hgadgets, h⟩ := Checked.bind_eq_ok.1 h
  cases h
  obtain ⟨rfl, -⟩ := Word.mul_eq_ok.1 htwoN
  exact ⟨rfl, rfl, rfl, rfl, rfl, rfl, ringPrime_eq_ok hq, rfl, rfl, hgadgets⟩

theorem preferredBase_mem (bits : ℕ) : preferredBase bits ∈ multiBases := by
  unfold preferredBase multiBases
  split_ifs <;> simp

theorem exists_log_multiBases : ∀ base ∈ multiBases, ∃ k, 0 < k ∧ k < 63 ∧ base = 2 ^ k := by
  simp only [multiBases, List.forall_mem_cons]
  exact ⟨⟨14, by norm_num, by norm_num, rfl⟩, ⟨18, by norm_num, by norm_num, rfl⟩,
    ⟨27, by norm_num, by norm_num, rfl⟩, fun _ hbase => nomatch hbase⟩

theorem ringBits_le (bits : ℕ) : ringBits bits ≤ 54 := by
  unfold ringBits
  split_ifs <;> norm_num

theorem RingModulus.lt_bound {m q : ℕ} (h : RingModulus (ringBits bits) m q) :
    q < 0x4000000000000000 := by
  have hle : q ≤ 2 ^ 54 := h.le.trans (Nat.pow_le_pow_right two_pos (ringBits_le bits))
  omega

private theorem exists_filedGadgets {q : ℕ} (everyBase : Bool) (hq : 1 < q)
    (hbound : q < 0x4000000000000000) : ∃ gadgets, filedGadgets everyBase q = .ok gadgets := by
  cases everyBase with
  | false => exact ⟨_, rfl⟩
  | true =>
    obtain ⟨r, hr, -⟩ := exists_gadgetsOf (exists_gadget exists_log_multiBases hq hbound)
    exact ⟨r, hr⟩

theorem exists_overRing {k : ℕ} (hn : n = 2 ^ k) (hle : n ≤ greatestRing bits) :
    ∃ params, overRing dimension n arbitrary bits method everyBase = .ok params := by
  obtain ⟨q, hq⟩ := exists_ringModulus hn hle
  have hring := ringPrime_eq_ok hq
  have hlt := hring.lt_bound
  have htwice : Word.mul 2 n = .ok (2 * n) := Word.mul_of_lt (by
    have := hring.lt
    unfold Word.bound
    omega)
  obtain ⟨gadgets, hgadgets⟩ := exists_filedGadgets (everyBase && bits != 11)
    (Prime.two_le_of_isPrime hring.isPrime) hlt
  simp only [overRing, htwice, hq, hgadgets, Checked.ok_bind]
  exact ⟨_, rfl⟩

theorem overRing_eq_error {k : ℕ} (hn : n = 2 ^ k) (hlt : greatestRing bits < n) :
    overRing dimension n arbitrary bits method everyBase = .error .overflow := by
  unfold overRing
  rcases lt_or_ge (2 * n) Word.bound with htwice | htwice
  · rw [Word.mul_of_lt htwice, Checked.ok_bind, ringModulus_eq_error hn hlt, Checked.error_bind]
  · rw [Word.mul, Word.check, if_neg htwice.not_gt, Checked.error_bind]

/-! ## Security profiles -/

/-- The first argument that the resolution of a security profile refuses. -/
def refusal? (profile : Profile) (bits ringDimension : ℕ) (method : Method) : Option Error :=
  if method ≠ .ginx then some (.unsupportedMethod method)
  else if securityDimension? profile = none then some (.unsupportedProfile profile)
  else if bits < 11 ∨ 29 < bits then some (.modulusOutOfRange bits)
  else if ringDimension ≠ 0 ∧ isPowerOfTwo ringDimension = false then
    some (.invalidRingDimension ringDimension)
  else none

def leastRing (bits : ℕ) : ℕ := if bits = 11 then 1024 else 2048

theorem ofSecurity_of_refusal {e : Error}
    (h : refusal? profile bits ringDimension method = some e) :
    ofSecurity profile arbitrary bits ringDimension method everyBase = Attempt.fail e := by
  unfold refusal? at h
  unfold ofSecurity
  split_ifs at h with hmethod hprofile hbits hring
  · cases h
    rw [beq_false_of_ne hmethod, Attempt.require_false, Attempt.fail_bind]
  · cases h
    rw [not_not.1 hmethod, hprofile]
    rfl
  · cases h
    obtain ⟨dimension, hdimension⟩ := Option.ne_none_iff_exists'.1 hprofile
    have hrange : decide (11 ≤ bits ∧ bits ≤ 29) = false := decide_eq_false (by omega)
    rw [not_not.1 hmethod, hdimension, hrange]
    rfl
  · cases h
    obtain ⟨dimension, hdimension⟩ := Option.ne_none_iff_exists'.1 hprofile
    have hrange : decide (11 ≤ bits ∧ bits ≤ 29) = true := decide_eq_true (by omega)
    rw [not_not.1 hmethod, hdimension, hrange, hring.2, beq_false_of_ne hring.1]
    rfl

theorem ofSecurity_of_accepted (h : refusal? profile bits ringDimension method = none) :
    ∃ dimension, securityDimension? profile = some dimension ∧
      (ringDimension = 0 ∨ isPowerOfTwo ringDimension = true) ∧
      ofSecurity profile arbitrary bits ringDimension method everyBase =
        liftM (overRing dimension (max (leastRing bits) ringDimension) arbitrary bits method
          everyBase) := by
  unfold refusal? at h
  split_ifs at h with hmethod hprofile hbits hring
  obtain ⟨dimension, hdimension⟩ := Option.ne_none_iff_exists'.1 hprofile
  have hrange : decide (11 ≤ bits ∧ bits ≤ 29) = true := decide_eq_true (by omega)
  have hargument : ringDimension = 0 ∨ isPowerOfTwo ringDimension = true := by
    rcases eq_or_ne ringDimension 0 with hzero | hzero
    · exact .inl hzero
    · exact .inr (Bool.eq_true_of_not_eq_false fun hfalse => hring ⟨hzero, hfalse⟩)
  have hleast : SecurityLevel.classic128.ringDimension? .ternary (ringBits bits) =
      some (leastRing bits) := by
    unfold ringBits leastRing
    split_ifs <;> rfl
  refine ⟨dimension, hdimension, hargument, ?_⟩
  have hcheck : (ringDimension == 0 || isPowerOfTwo ringDimension) = true := by
    rwa [Bool.or_eq_true, beq_iff_eq]
  rw [ofSecurity, not_not.1 hmethod, hdimension, hrange, hcheck, hleast]
  rfl

theorem leastRing_le (bits : ℕ) : 1024 ≤ leastRing bits ∧ leastRing bits ≤ greatestRing bits := by
  unfold leastRing greatestRing
  split_ifs <;> norm_num

private theorem exists_log_max (h : ringDimension = 0 ∨ isPowerOfTwo ringDimension = true) :
    ∃ k, max (leastRing bits) ringDimension = 2 ^ k := by
  have hleast : ∃ k, leastRing bits = 2 ^ k := by
    unfold leastRing
    split_ifs
    · exact ⟨10, rfl⟩
    · exact ⟨11, rfl⟩
  rcases le_total ringDimension (leastRing bits) with hle | hle
  · rwa [max_eq_left hle]
  · rw [max_eq_right hle]
    rcases h with rfl | h
    · have := (leastRing_le bits).1
      omega
    · exact ⟨_, (isPowerOfTwo_iff.1 h).2.symm⟩

theorem exists_ofSecurity (h : refusal? profile bits ringDimension method = none)
    (hle : ringDimension ≤ greatestRing bits) :
    ∃ params, ofSecurity profile arbitrary bits ringDimension method everyBase = pure params := by
  obtain ⟨dimension, -, hargument, heq⟩ := ofSecurity_of_accepted h
  obtain ⟨k, hk⟩ := exists_log_max hargument
  obtain ⟨params, hparams⟩ := exists_overRing hk (max_le (leastRing_le bits).2 hle)
  exact ⟨params, by rw [heq, hparams]; rfl⟩

theorem ofSecurity_eq_fault (h : refusal? profile bits ringDimension method = none)
    (hlt : greatestRing bits < ringDimension) :
    ofSecurity profile arbitrary bits ringDimension method everyBase =
      liftM (Except.error Fault.overflow : Checked Params) := by
  obtain ⟨dimension, -, hargument, heq⟩ := ofSecurity_of_accepted h
  obtain ⟨k, hk⟩ := exists_log_max hargument
  rw [heq, overRing_eq_error hk (lt_max_of_lt_right hlt)]

/-- The answer of the resolution to all arguments: the error of the first one that it refuses, and otherwise
parameters as long as the ring dimension is at most `greatestRing`. Beyond, the search for a ring modulus
faults. -/
theorem ofSecurity_outcome (profile : Profile) (arbitrary : Bool) (bits ringDimension : ℕ)
    (method : Method) (everyBase : Bool) :
    match refusal? profile bits ringDimension method with
    | some e => ofSecurity profile arbitrary bits ringDimension method everyBase = Attempt.fail e
    | none =>
      if ringDimension ≤ greatestRing bits then
        ∃ params, ofSecurity profile arbitrary bits ringDimension method everyBase = pure params
      else ofSecurity profile arbitrary bits ringDimension method everyBase =
        liftM (Except.error Fault.overflow : Checked Params) := by
  cases hrefusal : refusal? profile bits ringDimension method with
  | some e => exact ofSecurity_of_refusal hrefusal
  | none =>
    dsimp only
    split_ifs with hle
    · exact exists_ofSecurity hrefusal hle
    · exact ofSecurity_eq_fault hrefusal (not_le.1 hle)

theorem ofSecurity_eq_pure
    (h : ofSecurity profile arbitrary bits ringDimension method everyBase = pure params) :
    ∃ dimension k, securityDimension? profile = some dimension ∧
      (ringDimension = 0 ∨ isPowerOfTwo ringDimension = true) ∧
      max (leastRing bits) ringDimension = 2 ^ k ∧
      OverRing dimension (max (leastRing bits) ringDimension) arbitrary bits everyBase params := by
  cases hrefusal : refusal? profile bits ringDimension method with
  | some e =>
    rw [ofSecurity_of_refusal hrefusal] at h
    cases h
  | none =>
    obtain ⟨dimension, hdimension, hargument, heq⟩ := ofSecurity_of_accepted hrefusal
    obtain ⟨k, hk⟩ := exists_log_max hargument
    rw [heq, Attempt.liftM_eq_pure] at h
    exact ⟨dimension, k, hdimension, hargument, hk, overRing_eq_ok h⟩

end Params

theorem Context.ofSeed_eq_pure {params : Params} {seed : Array UInt8} {start : Context}
    (h : ofSeed params seed = pure start) : ∃ ring,
      NegacyclicRing.check params.rgsw.ringDimension params.rgsw.ringModulus = .ok ring ∧
      start = ⟨params, ring, .empty params.rgsw.gadgetBase, .ofSeed seed⟩ := by
  obtain ⟨_, -, h⟩ := Attempt.bind_eq_pure.1 h
  obtain ⟨_, -, h⟩ := Attempt.bind_eq_pure.1 h
  obtain ⟨_, -, h⟩ := Attempt.bind_eq_pure.1 h
  obtain ⟨ring, hring, h⟩ := Attempt.bind_eq_pure.1 h
  exact ⟨ring, Attempt.liftM_eq_pure.1 hring, (Attempt.pure_injective h).symm⟩

theorem Context.exists_ofSeed {params : Params} {k : ℕ} (hn : params.rgsw.ringDimension = 2 ^ k)
    (htwo : 2 ≤ params.rgsw.ringDimension) (htest : Prime.isPrime params.rgsw.ringModulus = true)
    (hmod : params.rgsw.ringModulus ≡ 1 [MOD 2 * params.rgsw.ringDimension])
    (hbound : params.rgsw.ringModulus < 0x4000000000000000) (hprime : params.rgsw.ringModulus.Prime)
    (seed : Array UInt8) : ∃ ctx, ofSeed params seed = pure ctx := by
  obtain ⟨ring, hring⟩ := NegacyclicRing.exists_check hn htwo hprime hbound hmod
  have hdvd : 2 * params.rgsw.ringDimension ∣ params.rgsw.ringModulus - 1 :=
    (Nat.modEq_iff_dvd' hprime.one_lt.le).1 hmod.symm
  have htwice : Word.mul 2 params.rgsw.ringDimension = .ok (2 * params.rgsw.ringDimension) := by
    apply Word.mul_of_lt
    have := Nat.le_of_dvd (Nat.sub_pos_of_lt hprime.one_lt) hdvd
    unfold Word.bound
    omega
  have hdimension : (decide (2 ≤ params.rgsw.ringDimension) &&
      isPowerOfTwo params.rgsw.ringDimension) = true := by
    rw [decide_eq_true htwo, hn, isPowerOfTwo_two_pow, Bool.and_self]
  have hmodulus : (params.rgsw.ringModulus % (2 * params.rgsw.ringDimension) == 1 &&
      Prime.isPrime params.rgsw.ringModulus) = true := by
    rw [htest, Bool.and_true, beq_iff_eq, hmod, Nat.mod_eq_of_lt (by omega)]
  simp only [ofSeed, hdimension, htwice, hmodulus, hring, Attempt.require_true, Attempt.liftM_ok,
    pure_bind]
  exact ⟨_, rfl⟩

theorem Context.exists_ofSeed_four {params : Params} (hn : params.rgsw.ringDimension = 4)
    (hq : params.rgsw.ringModulus = 17) (seed : Array UInt8) : ∃ ctx, ofSeed params seed = pure ctx := by
  have hprime : Nat.Prime 17 := by norm_num
  have hmod : 17 ≡ 1 [MOD 2 * 4] := rfl
  apply exists_ofSeed (show params.rgsw.ringDimension = 2 ^ 2 from hn)
  · rw [hn]
    decide
  · rw [hq]
    decide +kernel
  · rw [hq, hn]
    exact hmod
  · rw [hq]
    decide
  · rw [hq]
    exact hprime

namespace Params

variable {profile : Profile} {arbitrary everyBase : Bool} {bits ringDimension : ℕ} {method : Method}
  {params : Params}

/-- What the resolution of a security profile returns can be used: the ring modulus is the largest one of
its size that passes the test, the gadgets are those of the decompositions, and a context is made if the
test is right about the ring modulus. -/
theorem usable_of_ofSecurity
    (h : ofSecurity profile arbitrary bits ringDimension method everyBase = pure params) :
    (∃ k, params.rgsw.ringDimension = 2 ^ k) ∧ max ringDimension 1024 ≤ params.rgsw.ringDimension ∧
    RingModulus (if bits = 11 then 27 else 54) (2 * params.rgsw.ringDimension)
      params.rgsw.ringModulus ∧
    params.everyBase = (everyBase && bits != 11) ∧
    (params.everyBase = false → params.rgsw.gadgets = .empty) ∧
    (params.everyBase = true → params.rgsw.FilesGadgets) ∧
    ((Prime.isPrime params.rgsw.ringModulus = true → params.rgsw.ringModulus.Prime) →
      ∀ seed, ∃ ctx, Context.ofSeed params seed = pure ctx) := by
  obtain ⟨dimension, k, -, -, hk, hover⟩ := ofSecurity_eq_pure h
  have hleast := (leastRing_le bits).1
  have hring := hover.ringModulus
  have hbound := hring.lt_bound
  have hgadgets := hover.gadgets_eq
  unfold filedGadgets at hgadgets
  rw [hover.rgswRing_eq]
  refine ⟨⟨k, hk⟩, ?_, hring, hover.everyBase_eq, fun hnone => ?_, fun hall => ?_,
    fun hexact seed => ?_⟩
  · exact max_le (le_max_right _ _) (hleast.trans (le_max_left _ _))
  · rw [hnone, if_neg Bool.false_ne_true] at hgadgets
    exact (Except.ok.inj hgadgets).symm
  · rw [if_pos hall] at hgadgets
    rw [hover.everyBase_eq, Bool.and_eq_true, bne_iff_ne] at hall
    have hactive : params.rgsw.gadgetBase ∈ multiBases := by
      rw [hover.gadgetBase_eq, if_neg hall.2]
      exact preferredBase_mem bits
    exact RgswParams.filesGadgets exists_log_multiBases hactive
      (Prime.two_le_of_isPrime hring.isPrime) hbound hgadgets
  · have hleast := hleast.trans (le_max_left _ ringDimension)
    rw [← hover.rgswRing_eq] at hk hring hleast
    exact Context.exists_ofSeed hk (by omega) hring.isPrime hring.modEq hbound
      (hexact hring.isPrime) seed

/-- The smallest toy parameters: the only prime that is one modulo 2048 and within 2048 of `2 ^ 27`. -/
theorem usable_of_ofSecurity_toy : ∃ params, ofSecurity .toy false 11 0 .ginx false = pure params ∧
    params.rgsw.ringModulus = 134215681 ∧ ∃ ctx, Context.ofSeed params #[] = pure ctx := by
  obtain ⟨params, hparams⟩ : ∃ params, ofSecurity .toy false 11 0 .ginx false = pure params :=
    exists_ofSecurity rfl (Nat.zero_le _)
  obtain ⟨dimension, k, -, -, -, hover⟩ := ofSecurity_eq_pure hparams
  obtain ⟨-, -, hring, -, -, -, hcontext⟩ := usable_of_ofSecurity hparams
  have hdimension : params.rgsw.ringDimension = 1024 := hover.rgswRing_eq
  have hmodulus : params.rgsw.ringModulus = 134215681 := by
    obtain ⟨-, hmod, hle, hlargest⟩ := hring
    rw [hdimension] at hmod hlargest
    have htest : Prime.isPrime 134215681 = true := by decide +kernel
    have hge : 134215681 ≤ params.rgsw.ringModulus := by
      by_contra hlt
      have := hlargest 134215681 rfl (not_le.1 hlt) (by norm_num)
      rw [htest] at this
      cases this
    rw [if_pos rfl] at hle
    unfold Nat.ModEq at hmod
    omega
  refine ⟨params, hparams, hmodulus, hcontext (fun _ => ?_) #[]⟩
  rw [hmodulus]
  norm_num

end Params

end LatticeGates
