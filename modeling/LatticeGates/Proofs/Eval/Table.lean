import LatticeGates.Eval.Function
import LatticeGates.Proofs.Attempt

/-!
# Tables of functions

Main statements: the table of a function repeats each output over the interval of its message, and the class
of a table says whether its upper half is the negative of the lower one modulo `q`, or else repeats it, unless
the sum of two entries is no word.
-/

namespace LatticeGates

def IsNegacyclic (table : Array ℕ) (q : ℕ) : Prop :=
  ∀ x < q / 2, q ∣ table.getD x 0 + table.getD (x + q / 2) 0

def IsPeriodic (table : Array ℕ) (q : ℕ) : Prop :=
  ∀ x < q / 2, table.getD x 0 = table.getD (x + q / 2) 0

/-- The sum of two opposite entries is no word, and it is looked at: all sums before it are zero modulo `q`. -/
def Overflows (table : Array ℕ) (q : ℕ) : Prop :=
  ∃ x < q / 2, Word.bound ≤ table.getD x 0 + table.getD (x + q / 2) 0 ∧
    ∀ y < x, q ∣ table.getD y 0 + table.getD (y + q / 2) 0

instance (table : Array ℕ) (q : ℕ) : Decidable (IsNegacyclic table q) :=
  inferInstanceAs (Decidable (∀ x < q / 2, q ∣ table.getD x 0 + table.getD (x + q / 2) 0))

instance (table : Array ℕ) (q : ℕ) : Decidable (IsPeriodic table q) :=
  inferInstanceAs (Decidable (∀ x < q / 2, table.getD x 0 = table.getD (x + q / 2) 0))

instance (table : Array ℕ) (q : ℕ) : Decidable (Overflows table q) :=
  inferInstanceAs (Decidable (∃ x < q / 2, Word.bound ≤ table.getD x 0 + table.getD (x + q / 2) 0 ∧
    ∀ y < x, q ∣ table.getD y 0 + table.getD (y + q / 2) 0))

section Class

variable {q h : ℕ} {table : Array ℕ}

private theorem exists_lt_succ_iff {n : ℕ} {P Q : ℕ → Prop} :
    (∃ x < n + 1, P x ∧ ∀ y < x, Q y) ↔ P 0 ∨ Q 0 ∧ ∃ x < n, P (x + 1) ∧ ∀ y < x, Q (y + 1) := by
  constructor
  · rintro ⟨x, hx, hP, hQ⟩
    cases x with
    | zero => exact .inl hP
    | succ x =>
      exact .inr ⟨hQ 0 x.succ_pos, x, Nat.lt_of_succ_lt_succ hx, hP, fun y hy => hQ _ (Nat.succ_lt_succ hy)⟩
  · rintro (hP | ⟨hQ, x, hx, hP, hrest⟩)
    · exact ⟨0, n.succ_pos, hP, fun y hy => (Nat.not_lt_zero y hy).elim⟩
    · refine ⟨x + 1, Nat.succ_lt_succ hx, hP, fun y hy => ?_⟩
      cases y with
      | zero => exact hQ
      | succ y => exact hrest y (Nat.lt_of_succ_lt_succ hy)

private theorem cancels_outcome (hq : 0 < q) (n : ℕ) (f : ℕ → ℕ × ℕ) :
    ((∃ x < n, Word.bound ≤ (f x).1 + (f x).2 ∧ ∀ y < x, q ∣ (f y).1 + (f y).2) ∧
      cancels q ((List.range n).map f) = .error .overflow) ∨
    ((¬∃ x < n, Word.bound ≤ (f x).1 + (f x).2 ∧ ∀ y < x, q ∣ (f y).1 + (f y).2) ∧
      ∃ b, cancels q ((List.range n).map f) = .ok b ∧ (b = true ↔ ∀ x < n, q ∣ (f x).1 + (f x).2)) := by
  induction n generalizing f with
  | zero => exact .inr ⟨fun ⟨x, hx, _⟩ => Nat.not_lt_zero x hx, true, rfl, by simp⟩
  | succ n ih =>
    rw [List.range_succ_eq_map, List.map_cons, List.map_map, cancels, exists_lt_succ_iff]
    obtain hword | hword := lt_or_ge ((f 0).1 + (f 0).2) Word.bound
    · rw [Word.add_of_lt hword, Checked.ok_bind, Word.mod_of_pos hq, Checked.ok_bind]
      by_cases hzero : q ∣ (f 0).1 + (f 0).2
      · rw [if_pos (Nat.mod_eq_zero_of_dvd hzero)]
        have hall : (∀ x < n + 1, q ∣ (f x).1 + (f x).2) ↔ ∀ x < n, q ∣ (f (x + 1)).1 + (f (x + 1)).2 := by
          rw [Nat.forall_lt_succ_left, and_iff_right hzero]
        rw [hall]
        refine (ih (f ∘ Nat.succ)).imp (And.imp_left fun h => .inr ⟨hzero, h⟩) (And.imp_left fun h => ?_)
        rintro (hlarge | ⟨-, hrest⟩)
        · exact hlarge.not_gt hword
        · exact h hrest
      · rw [if_neg (mt Nat.dvd_of_mod_eq_zero hzero)]
        refine .inr ⟨?_, false, rfl, iff_of_false Bool.false_ne_true fun h => hzero (h 0 n.succ_pos)⟩
        rintro (hlarge | ⟨hdvd, -⟩)
        · exact hlarge.not_gt hword
        · exact hzero hdvd
    · refine .inl ⟨.inl hword, ?_⟩
      rw [Word.add, Word.check, if_neg hword.not_gt]
      rfl

private theorem zip_halves (hsize : table.size = h + h) :
    (table.extract 0 h).toList.zip (table.extract h (h + h)).toList =
      (List.range h).map fun x => (table.getD x 0, table.getD (x + h) 0) := by
  apply List.ext_getElem
  · simp [hsize]
  · intro i hi hi'
    have hih : i < h := by simpa using hi'
    simp [Array.getD_eq_getD_getElem?, hsize, Nat.add_comm h i, show i < h + h by omega, hih]

private theorem halves_eq_iff (hsize : table.size = h + h) :
    table.extract 0 h = table.extract h (h + h) ↔
      ∀ x < h, table.getD x 0 = table.getD (x + h) 0 := by
  have hread : ∀ x, x < h → ∀ l u, (hu : u ≤ h + h) → (hx : x < (table.extract l u).size) →
      (table.extract l u)[x] = table.getD (x + l) 0 := by
    intro x hx l u hu hxu
    have hlt : l + x < table.size := by
      rw [Array.size_extract] at hxu
      omega
    rw [Array.getElem_extract, Array.getElem_eq_getD 0, Nat.add_comm]
  have hlow : (table.extract 0 h).size = h := by simp [hsize]
  have hhigh : (table.extract h (h + h)).size = h := by simp [hsize]
  constructor
  · intro heq x hx
    have := congrArg (·.getD x 0) heq
    rw [← Array.getElem_eq_getD (h := hlow.symm ▸ hx), ← Array.getElem_eq_getD (h := hhigh.symm ▸ hx),
      hread x hx 0 h (by omega), hread x hx h (h + h) le_rfl] at this
    exact this
  · intro heq
    apply Array.ext
    · rw [hlow, hhigh]
    · intro x hx hx'
      have hxh : x < h := hlow ▸ hx
      rw [hread x hxh 0 h (by omega), hread x hxh h (h + h) le_rfl]
      exact heq x hxh

/-- The class of a table is the relation of its halves, unless a sum that is looked at is no word. -/
theorem TableClass.ofTable_outcome (hq : 0 < q) (heven : 2 ∣ q) (hsize : table.size = q) :
    (Overflows table q ∧ ofTable table q = .error .overflow) ∨
    (¬Overflows table q ∧ IsNegacyclic table q ∧ ofTable table q = .ok .negacyclic) ∨
    (¬Overflows table q ∧ ¬IsNegacyclic table q ∧ IsPeriodic table q ∧ ofTable table q = .ok .periodic) ∨
    (¬Overflows table q ∧ ¬IsNegacyclic table q ∧ ¬IsPeriodic table q ∧ ofTable table q = .ok .arbitrary) := by
  obtain ⟨h, hh⟩ := heven
  obtain rfl : q = h + h := by omega
  have hhalf : (h + h) / 2 = h := by omega
  have houtcome := cancels_outcome hq h fun x => (table.getD x 0, table.getD (x + h) 0)
  rw [← zip_halves hsize] at houtcome
  rw [Overflows, IsNegacyclic, IsPeriodic, hhalf, ofTable, hsize, hhalf]
  obtain ⟨hover, hcancels⟩ | ⟨hfits, b, hcancels, hb⟩ := houtcome
  · exact .inl ⟨hover, by rw [hcancels]; rfl⟩
  · rw [hcancels, Checked.ok_bind, ← hb, ← halves_eq_iff hsize]
    cases b with
    | true => exact .inr (.inl ⟨hfits, rfl, rfl⟩)
    | false =>
      by_cases hper : table.extract 0 h = table.extract h (h + h)
      · exact .inr (.inr (.inl ⟨hfits, Bool.false_ne_true, hper, if_pos hper⟩))
      · exact .inr (.inr (.inr ⟨hfits, Bool.false_ne_true, hper, if_neg hper⟩))

theorem TableClass.ofTable_cases (heven : 2 ∣ q) (hword : q + q ≤ Word.bound)
    (hsize : table.size = q) (hentry : ∀ x, table.getD x 0 < q) :
    (IsNegacyclic table q ∧ ofTable table q = .ok .negacyclic) ∨
    (¬IsNegacyclic table q ∧ IsPeriodic table q ∧ ofTable table q = .ok .periodic) ∨
    (¬IsNegacyclic table q ∧ ¬IsPeriodic table q ∧ ofTable table q = .ok .arbitrary) := by
  have hfits : ¬Overflows table q := fun ⟨x, _, hlarge, _⟩ =>
    (Nat.add_lt_add (hentry x) (hentry (x + q / 2))).not_ge (hword.trans hlarge)
  obtain ⟨hover, -⟩ | ⟨-, hclass⟩ | ⟨-, hclass⟩ | ⟨-, hclass⟩ :=
    ofTable_outcome (Nat.zero_lt_of_lt (hentry 0)) heven hsize
  · exact (hfits hover).elim
  · exact .inl hclass
  · exact .inr (.inl hclass)
  · exact .inr (.inr hclass)

end Class

namespace Context

variable {ctx : Context} {f : ℕ → ℕ → ℕ} {p interval : ℕ} {table : Array ℕ}

private theorem outputsFrom_eq_pure {count input : ℕ} {outputs : Array ℕ}
    (h : outputsFrom f p interval count input outputs = pure table) (hsize : outputs.size = input)
    (hlisted : ∀ x < input, f x p < p ∧ outputs.getD x 0 = f x p * interval) :
    ∀ x < input + count, f x p < p ∧ table.getD x 0 = f x p * interval := by
  induction count generalizing input outputs with
  | zero =>
    cases Attempt.pure_injective h
    exact hlisted
  | succ count ih =>
    obtain ⟨_, hrange, h⟩ := Attempt.bind_eq_pure.1 h
    rw [Attempt.require_eq_pure, decide_eq_true_eq] at hrange
    rw [show input + (count + 1) = input + 1 + count by omega]
    refine ih h (by rw [Array.size_push, hsize]) fun x hx => ?_
    rw [Array.getD_eq_getD_getElem?, Array.getElem?_push, hsize]
    split
    · subst x
      exact ⟨hrange, rfl⟩
    · rw [← Array.getD_eq_getD_getElem?]
      exact hlisted x (by omega)

/-- The table of a function repeats each output over the interval of its message. -/
theorem generateTable_eq_pure (h : ctx.generateTable f p = pure table) :
    (∃ k, p = 2 ^ k) ∧ table.size = ctx.params.lwe.modulus ∧ (∀ x < p, f x p < p) ∧
      ∀ i < ctx.params.lwe.modulus, table.getD i 0 =
        f (min (i / (ctx.params.lwe.modulus / p)) (p - 1)) p * (ctx.params.lwe.modulus / p) := by
  obtain ⟨_, hp, h⟩ := Attempt.bind_eq_pure.1 h
  obtain ⟨_, -, h⟩ := Attempt.bind_eq_pure.1 h
  obtain ⟨outputs, houtputs, h⟩ := Attempt.bind_eq_pure.1 h
  obtain ⟨_, -, h⟩ := Attempt.bind_eq_pure.1 h
  obtain rfl := Attempt.pure_injective h
  rw [Attempt.require_eq_pure, Bool.and_eq_true] at hp
  obtain ⟨hpos, hpow⟩ : p ≠ 0 ∧ 2 ^ p.log2 = p := by
    simpa [isPowerOfTwo, Nat.one_shiftLeft] using hp.1
  have hlisted := outputsFrom_eq_pure houtputs rfl fun x hx => (Nat.not_lt_zero x hx).elim
  rw [Nat.zero_add] at hlisted
  refine ⟨⟨_, hpow.symm⟩, Array.size_ofFn, fun x hx => (hlisted x hx).1, fun i hi => ?_⟩
  rw [Array.getD_eq_getD_getElem?, Array.getElem?_ofFn, dif_pos hi, Option.getD_some]
  exact (hlisted _ (by omega)).2

theorem generateTable_entry_lt (h : ctx.generateTable f p = pure table) (hpos : 0 < p)
    (hle : p ≤ ctx.params.lwe.modulus) (x : ℕ) : table.getD x 0 < ctx.params.lwe.modulus := by
  obtain ⟨-, hsize, hrange, hentry⟩ := generateTable_eq_pure h
  by_cases hx : x < ctx.params.lwe.modulus
  · rw [hentry x hx]
    calc f (min (x / (ctx.params.lwe.modulus / p)) (p - 1)) p * (ctx.params.lwe.modulus / p)
        < p * (ctx.params.lwe.modulus / p) :=
          Nat.mul_lt_mul_of_pos_right (hrange _ (by omega)) (Nat.div_pos hle hpos)
      _ ≤ ctx.params.lwe.modulus := Nat.mul_div_le _ _
  · rw [Array.getD_eq_getD_getElem?, Array.getElem?_eq_none (by omega), Option.getD_none]
    omega

private theorem exists_outputsFrom {count input : ℕ} (hrange : ∀ x < input + count, f x p < p)
    (outputs : Array ℕ) : ∃ r, outputsFrom f p interval count input outputs = pure r := by
  induction count generalizing input outputs with
  | zero => exact ⟨outputs, rfl⟩
  | succ count ih =>
    have hinput : f input p < p := hrange input (by omega)
    rw [outputsFrom, decide_eq_true hinput, Attempt.require_true, pure_bind]
    exact ih (fun x hx => hrange x (by omega)) _

private theorem exists_outputs (hrange : ∀ x < p, f x p < p) (interval : ℕ) :
    ∃ outputs, outputsFrom f p interval p 0 #[] = pure outputs :=
  exists_outputsFrom (by rwa [Nat.zero_add]) #[]

section Range

variable (hpow : isPowerOfTwo p = true) (hle : p ≤ ctx.params.lwe.modulus)
  (hrange : ∀ x < p, f x p < p)
include hpow hle hrange

theorem exists_generateTable (hroom : ctx.params.lwe.modulus < 2 ^ 60) :
    ∃ table, ctx.generateTable f p = pure table := by
  have hcheck : (isPowerOfTwo p && decide (p ≤ ctx.params.lwe.modulus)) = true := by
    rw [hpow, decide_eq_true hle, Bool.and_self]
  obtain ⟨outputs, houtputs⟩ := exists_outputs hrange (ctx.params.lwe.modulus / p)
  exact ⟨_, Attempt.bind_eq_pure.2 ⟨(), Attempt.require_eq_pure.2 hcheck, Attempt.bind_eq_pure.2
    ⟨(), Attempt.liftM_eq_pure.2 (Word.checkLength_of_lt (by omega)), Attempt.bind_eq_pure.2
      ⟨outputs, houtputs, Attempt.bind_eq_pure.2
        ⟨(), Attempt.liftM_eq_pure.2 (Word.checkLength_of_lt hroom), rfl⟩⟩⟩⟩⟩

theorem generateTable_of_large (hroom : 2 ^ 60 ≤ ctx.params.lwe.modulus) :
    ctx.generateTable f p = liftM (Except.error .overflow : Checked (Array ℕ)) := by
  have hlarge {n : ℕ} (hn : 2 ^ 60 ≤ n) : Word.checkLength n = .error .overflow := by
    obtain ⟨_, -, hsmall⟩ | ⟨_, hcheck, rfl, -⟩ := Word.checkLength_ends n
    · omega
    · exact hcheck
  rw [generateTable, hpow, decide_eq_true hle, Bool.and_self, Attempt.require_true, pure_bind]
  obtain hp | hp := Nat.lt_or_ge p (2 ^ 60)
  · obtain ⟨outputs, houtputs⟩ := exists_outputs hrange (ctx.params.lwe.modulus / p)
    rw [Word.checkLength_of_lt hp, Attempt.liftM_ok, pure_bind, houtputs, pure_bind, hlarge hroom,
      Attempt.liftM_error_bind]
  · rw [hlarge hp, Attempt.liftM_error_bind]

end Range

section Generated

private theorem input_lt {q x : ℕ} (hdvd : p ∣ q) (hx : x < q) : x / (q / p) < p := by
  refine Nat.div_lt_of_lt_mul ?_
  rwa [Nat.div_mul_cancel hdvd]

variable (h : ctx.generateTable f p = pure table) (hpos : 0 < p) (hdvd : p ∣ ctx.params.lwe.modulus)
include h hpos hdvd

theorem generateTable_entry {x : ℕ} (hx : x < ctx.params.lwe.modulus) :
    table.getD x 0 = f (x / (ctx.params.lwe.modulus / p)) p * (ctx.params.lwe.modulus / p) := by
  obtain ⟨-, -, -, hentry⟩ := generateTable_eq_pure h
  have hlt := input_lt hdvd hx
  rw [hentry x hx, Nat.min_eq_left (by omega)]

/-- The table of a function on one message is zero. -/
theorem generateTable_negacyclic_or_even : IsNegacyclic table ctx.params.lwe.modulus ∨ 2 ∣ p := by
  obtain ⟨⟨k, rfl⟩, -, hrange, -⟩ := generateTable_eq_pure h
  obtain rfl | hk := Nat.eq_zero_or_pos k
  · have hzero : ∀ x < ctx.params.lwe.modulus, table.getD x 0 = 0 := by
      intro x hx
      have houtput := hrange _ (input_lt hdvd hx)
      rw [pow_zero] at houtput
      rw [generateTable_entry h hpos hdvd hx, pow_zero, Nat.lt_one_iff.1 houtput, zero_mul]
    refine .inl fun x hx => ?_
    rw [hzero x (by omega), hzero _ (by omega)]
    exact dvd_zero _
  · exact .inr (dvd_pow_self 2 hk.ne')

end Generated

end Context

end LatticeGates
