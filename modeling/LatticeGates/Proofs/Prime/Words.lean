import LatticeGates.Proofs.Prime.StrongTest

/-!
# The test in machine words

The test once more, as it is carried out on a machine: products are double words, everything else is a word, and
the halvings are counted in half a word. Main statement: on words nothing leaves its range, no halving goes on
for ever, and what comes out is the test.
-/

namespace LatticeGates.Prime

namespace Words

/-- The product of two double words modulo `m`. -/
def mul (m a b : ℕ) : Checked ℕ :=
  if a * b < 2 ^ 128 then Word.mod (a * b) m else .error .overflow

def pow (m res base e : ℕ) : Checked ℕ :=
  if e = 0 then Word.check res
  else if e % 2 = 1 then do pow m (← mul m res base) (← mul m base base) (e / 2)
  else do pow m res (← mul m base base) (e / 2)
  termination_by e
  decreasing_by all_goals omega

/-- Halves `d` until it is odd, where zero is halved for ever. -/
def halve (d s : ℕ) : Checked (ℕ × ℕ) :=
  if d % 2 = 1 then .ok (d, s)
  else if d = 0 then .error .exhausted
  else if s + 1 < 2 ^ 32 then halve (d / 2) (s + 1)
  else .error .overflow
  termination_by d
  decreasing_by omega

def squares (x : ℕ) : (y k : ℕ) → Checked Bool
  | _, 0 => .ok false
  | y, k + 1 => do
    let y ← Word.check (← mul x y y)
    if y = (← Word.sub x 1) then .ok true else squares x y k

def passes (x d s a : ℕ) : Checked Bool := do
  let y ← pow x 1 a d
  if y = 1 then .ok true
  else if y = (← Word.sub x 1) then .ok true
  else squares x y (s - 1)

def isPrime (x : ℕ) : Checked Bool :=
  if x < 2 then .ok false
  else match witnesses.find? (x % · == 0) with
    | some p => .ok (x == p)
    | none => do
      let (d, s) ← halve (← Word.sub x 1) 0
      witnesses.allM (passes x d s)

variable {m x y a b d s e : ℕ}

theorem mul_of_lt (hm : m < Word.bound) (ha : a < m) (hb : b < m) : mul m a b = .ok (a * b % m) := by
  have hrange : a * b < 2 ^ 128 :=
    calc a * b < m * m := Nat.mul_lt_mul'' ha hb
      _ ≤ Word.bound * Word.bound := Nat.mul_le_mul hm.le hm.le
      _ = 2 ^ 128 := by norm_num [Word.bound]
  rw [mul, if_pos hrange, Word.mod_of_pos (Nat.zero_lt_of_lt ha)]

theorem pow_of_lt (hm : m < Word.bound) : ∀ {res base : ℕ}, res < m → base < m →
    pow m res base e = .ok (powModFrom m res base e) := by
  induction e using Nat.strongRecOn with
  | ind e ih =>
    intro res base hres hbase
    have hpos : 0 < m := Nat.zero_lt_of_lt hres
    have hsquare : base * base % m < m := Nat.mod_lt _ hpos
    rw [pow, powModFrom]
    split
    · exact Word.check_of_lt (hres.trans hm)
    · rw [mul_of_lt hm hres hbase, mul_of_lt hm hbase hbase]
      split
      · exact ih (e / 2) (by omega) (Nat.mod_lt _ hpos) hsquare
      · exact ih (e / 2) (by omega) hres hsquare

theorem squares_of_lt (hx : x < Word.bound) {k : ℕ} : ∀ {y : ℕ}, y < x →
    squares x y k = .ok (squaresToMinusOne x y k) := by
  induction k with
  | zero => exact fun _ => rfl
  | succ k ih =>
    intro y hy
    have hpos : 0 < x := Nat.zero_lt_of_lt hy
    have hnext : y * y % x < x := Nat.mod_lt _ hpos
    rw [squares, squaresToMinusOne, mul_of_lt hx hy hy, Checked.ok_bind,
      Word.check_of_lt (hnext.trans hx), Checked.ok_bind, Word.sub_of_le hpos, Checked.ok_bind]
    split
    · rename_i hminus
      rw [hminus, beq_self_eq_true, Bool.true_or]
    · rename_i hminus
      rw [beq_false_of_ne hminus, Bool.false_or]
      exact ih hnext

theorem passes_of_lt (hx : x < Word.bound) (hone : 1 < x) (ha : a < x) :
    passes x d s a = .ok (Prime.passes x d s a) := by
  have hlt : powMod x a d < x := by
    rw [powMod_eq hone]
    exact Nat.mod_lt _ (by omega)
  have hpow : pow x 1 a d = .ok (powMod x a d) := by
    rw [pow_of_lt hx hone ha, powMod, Nat.mod_eq_of_lt ha]
  rw [passes, hpow, Checked.ok_bind, Word.sub_of_le hone.le, Prime.passes]
  generalize powMod x a d = y at hlt
  by_cases h1 : y = 1
  · simp [h1]
  · by_cases hminus : y = x - 1
    · simp [hminus]
    · simp [h1, hminus, squares_of_lt hx hlt]

/-- The halvings are counted without an overflow, since a word has at most `64` of them. -/
theorem halve_of_lt (hd : d ≠ 0) (hlt : d * 2 ^ s < Word.bound) :
    halve d s = .ok ((oddPart d).1, s + (oddPart d).2) := by
  induction d using oddPart.induct generalizing s with
  | case1 d h =>
    rw [halve, if_pos (h.resolve_left hd), oddPart, if_pos h, add_zero]
  | case2 d h d' s' hhalf ih =>
    have heven : d / 2 * 2 ^ (s + 1) = d * 2 ^ s := by
      rw [pow_succ, mul_comm (2 ^ s), ← mul_assoc, Nat.div_mul_cancel (by omega)]
    have hcount : s + 1 < 2 ^ 32 := by
      have hpow : 2 ^ (s + 1) < 2 ^ 64 := by
        calc 2 ^ (s + 1) ≤ d / 2 * 2 ^ (s + 1) := Nat.le_mul_of_pos_left _ (by omega)
          _ < 2 ^ 64 := by rw [heven]; exact hlt
      have := (Nat.pow_lt_pow_iff_right one_lt_two).1 hpow
      omega
    rw [halve, if_neg (by omega), if_neg hd, if_pos hcount, ih (by omega) (by rwa [heven]), hhalf,
      oddPart, if_neg h, hhalf, add_right_comm, add_assoc]

private theorem allM_of_ok {p : ℕ → Checked Bool} {q : ℕ → Bool} {l : List ℕ}
    (h : ∀ a ∈ l, p a = .ok (q a)) : l.allM p = .ok (l.all q) := by
  induction l with
  | nil => rfl
  | cons a l ih =>
    obtain ⟨ha, hl⟩ := List.forall_mem_cons.1 h
    rw [List.allM, ha, Checked.ok_bind, ih hl, List.all_cons]
    cases q a <;> rfl

private theorem lt_of_find_eq_none (htwo : 2 ≤ x) (hnone : witnesses.find? (x % · == 0) = none)
    (ha : a ∈ witnesses) : a < x := by
  have hle : ∀ a ∈ witnesses, a ≤ 37 := by decide
  have hfound : ∀ x ≤ 37, 2 ≤ x → witnesses.find? (x % · == 0) ≠ none := by decide
  by_contra hlt
  exact hfound x ((Nat.le_of_not_lt hlt).trans (hle a ha)) htwo hnone

/-- On words the test is carried out in machine words. -/
theorem isPrime_eq (hx : x < Word.bound) : isPrime x = .ok (Prime.isPrime x) := by
  rw [isPrime, Prime.isPrime]
  by_cases htwo : x < 2
  · rw [if_pos htwo, if_pos htwo]
  · rw [if_neg htwo, if_neg htwo]
    cases hfind : witnesses.find? (x % · == 0) with
    | some p => rfl
    | none =>
      dsimp only
      rw [Word.sub_of_le (by omega), Checked.ok_bind, halve_of_lt (by omega) (by omega),
        Checked.ok_bind, Nat.zero_add]
      exact allM_of_ok fun a ha =>
        passes_of_lt hx (by omega) (lt_of_find_eq_none (by omega) hfind ha)

end Words

/-- On words the test ends in range. It is true of every prime, and it is true of the witnesses and of strong
probable primes to all of them only; where those are primes, it is true of primes only. -/
theorem isPrime_accepts {x : ℕ} (hx : x < Word.bound) :
    Words.isPrime x = .ok (isPrime x) ∧ (x.Prime → isPrime x = true) ∧
    (isPrime x = true ↔ x ∈ witnesses ∨ ∀ a ∈ witnesses, x.Coprime a ∧ StrongProbablePrime x a) ∧
    (((∀ a ∈ witnesses, StrongProbablePrime x a) → x.Prime) → (isPrime x = true ↔ x.Prime)) := by
  refine ⟨Words.isPrime_eq hx, isPrime_of_prime, isPrime_iff, fun hexact => ⟨fun h => ?_, isPrime_of_prime⟩⟩
  rcases isPrime_iff.1 h with hmem | hstrong
  · exact prime_of_mem_witnesses x hmem
  · exact hexact fun a ha => (hstrong a ha).2

/-- A prime, and a composite number that the four smallest bases do not tell from one. -/
theorem isPrime_accepts_twelve_bases :
    Words.isPrime 12289 = .ok true ∧ Nat.Prime 12289 ∧
    Words.isPrime 3215031751 = .ok false ∧ ¬Nat.Prime 3215031751 ∧
    ¬∀ a ∈ witnesses, StrongProbablePrime 3215031751 a := by
  obtain ⟨hword, hprime, -, hexact⟩ := isPrime_accepts (x := 12289) (by decide)
  have hp : Nat.Prime 12289 := by norm_num
  obtain ⟨hword', -, haccepts, -⟩ := isPrime_accepts (x := 3215031751) (by decide)
  have hrefused : isPrime 3215031751 = false := by decide +kernel
  have hcoprime : ∀ a ∈ witnesses, Nat.Coprime 3215031751 a := by decide +kernel
  refine ⟨by rw [hword, (hexact fun _ => hp).2 hp], hp, by rw [hword', hrefused], by norm_num, fun h => ?_⟩
  have : isPrime 3215031751 = true := haccepts.2 (.inr fun a ha => ⟨hcoprime a ha, h a ha⟩)
  rw [hrefused] at this
  cases this

end LatticeGates.Prime
