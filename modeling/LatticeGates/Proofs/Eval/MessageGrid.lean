import LatticeGates.Proofs.Eval.Table
import LatticeGates.Proofs.Lwe.Decryption
import LatticeGates.Proofs.Params.Resolution

/-!
# Tables and the encoding of messages

A table cuts the phases into intervals of `q / p`, rounded down, while messages are encoded and decoded by
rounding `m * q / p`. Main statement: which entry the encoding of a message meets and to what it is decoded,
for all functions and messages. A table answers every message with the value of its function, whatever the
function is, just if `2 * (p - 1) * (q % p) ≤ q`, as when `p` divides `q`.
-/

namespace LatticeGates

/-- A function that takes messages modulo `p` to such messages. -/
def MapsMessages (p : ℕ) (f : ℕ → ℕ → ℕ) : Prop := ∀ x < p, f x p < p

/-- The interval that holds the encoding of a message. The last one has the phases that are left over. -/
def messageInterval (q p m : ℕ) : ℕ := min (Modulus.round m p q / (q / p)) (p - 1)

/-- What a table gives for a message: the entry at its encoding, decoded. -/
def answer (table : Array ℕ) (q p m : ℕ) : Checked ℕ := do
  let x ← Lwe.Ciphertext.encode m p q
  match table[x]? with
  | some y => Modulus.rescale y q p
  | none => .error .outOfBounds

section Grid

variable {q p m : ℕ} (hle : p ≤ q)
include hle

/-- Up to the last interval a message meets its own one as long as truncation has moved it by less than an
interval. -/
theorem messageInterval_eq_iff (hm : m < p) :
    messageInterval q p m = m ↔ m + 1 = p ∨ m * (q % p) + p / 2 < p * (q / p) := by
  have hpos : 0 < q / p := Nat.div_pos hle (by omega)
  have hoffset : (m * (q % p) + p / 2) / p < q / p ↔ m * (q % p) + p / 2 < p * (q / p) := by
    rw [Nat.div_lt_iff_lt_mul (by omega), mul_comm p]
  rw [messageInterval, Modulus.round_message hm hle, mul_comm m (q / p), Nat.mul_add_div hpos, ← hoffset,
    ← Nat.div_eq_zero_iff_lt hpos]
  generalize (m * (q % p) + p / 2) / p / (q / p) = ahead
  omega

theorem messageInterval_eq_self (hm : m < p) (hdrift : 2 * ((p - 1) * (q % p)) ≤ q) :
    messageInterval q p m = m := by
  rw [messageInterval_eq_iff hle hm, or_iff_not_imp_left]
  intro hlast
  have hdiv := Nat.div_add_mod q p
  have hnext : (m + 1) * (q % p) ≤ (p - 1) * (q % p) := Nat.mul_le_mul_right _ (by omega)
  rw [Nat.succ_mul] at hnext
  obtain hlt | rfl := hle.lt_or_eq
  · omega
  · rw [Nat.mod_self] at *
    omega

theorem forall_round_eq_iff (hp : 0 < p) :
    (∀ f, MapsMessages p f → ∀ m < p,
      Modulus.round (f (messageInterval q p m) p * (q / p)) q p = f m p) ↔
      2 * ((p - 1) * (q % p)) ≤ q := by
  constructor
  · intro h
    have hgreatest := h (fun _ _ => p - 1) (fun _ _ => Nat.sub_one_lt_of_lt hp) 0 hp
    exact (Modulus.round_interval_eq_iff (Nat.sub_one_lt_of_lt hp) hle).1 hgreatest
  · intro hdrift f hf m hm
    rw [messageInterval_eq_self hle hm hdrift, Modulus.round_interval_eq_iff (hf m hm) hle]
    have hvalue := Nat.mul_le_mul_right (q % p) (Nat.le_sub_one_of_lt (hf m hm))
    omega

end Grid

namespace Context

variable {ctx : Context} {f : ℕ → ℕ → ℕ} {p m : ℕ} {table : Array ℕ}

/-- The entry at the encoding of a message is that of the interval which the encoding lies in. -/
theorem answer_generateTable (h : ctx.generateTable f p = pure table)
    (hle : p ≤ ctx.params.lwe.modulus) (hm : m < p) :
    let q := ctx.params.lwe.modulus
    table.getD (Modulus.round m p q) 0 = f (messageInterval q p m) p * (q / p) ∧
      answer table q p m = .ok (Modulus.round (f (messageInterval q p m) p * (q / p)) q p) := by
  intro q
  obtain ⟨-, hsize, -, hentry⟩ := generateTable_eq_pure h
  have hq : 0 < q := by omega
  have hlt : Modulus.round m p q < q := Modulus.round_lt hq
  have hencode : Lwe.Ciphertext.encode m p q = .ok (Modulus.round m p q) := by
    rw [Lwe.Ciphertext.encode_of_pos (by omega) hq, Nat.mod_eq_of_lt hm]
  have hread : table[Modulus.round m p q]? = some (table.getD (Modulus.round m p q) 0) := by
    rw [Array.getElem?_eq_getElem (hsize ▸ hlt), Array.getElem_eq_getD 0]
  refine ⟨hentry _ hlt, ?_⟩
  rw [answer, hencode, Checked.ok_bind, hread, hentry _ hlt]
  exact Modulus.rescale_of_pos hq (by omega)

section Answers

variable (hpow : isPowerOfTwo p = true) (hle : p ≤ ctx.params.lwe.modulus)
  (hroom : ctx.params.lwe.modulus < 2 ^ 60)
include hpow hle hroom

/-- A function into the messages has a table of phases, and what that gives for a message is known. -/
theorem exists_answers (hf : MapsMessages p f) :
    let q := ctx.params.lwe.modulus
    ∃ table, ctx.generateTable f p = pure table ∧ table.size = q ∧ (∀ y ∈ table, y < q) ∧
      ∀ m < p, table.getD (Modulus.round m p q) 0 = f (messageInterval q p m) p * (q / p) ∧
        answer table q p m = .ok (Modulus.round (f (messageInterval q p m) p * (q / p)) q p) := by
  intro q
  have hp : 0 < p := Nat.pos_of_ne_zero (isPowerOfTwo_iff.1 hpow).1
  obtain ⟨table, htable⟩ := exists_generateTable hpow hle hf hroom
  refine ⟨table, htable, (generateTable_eq_pure htable).2.1, fun y hy => ?_,
    fun m hm => answer_generateTable htable hle hm⟩
  obtain ⟨x, hx, rfl⟩ := Array.mem_iff_getElem.1 hy
  rw [Array.getElem_eq_getD 0]
  exact generateTable_entry_lt htable hp hle x

theorem forall_answer_iff :
    let q := ctx.params.lwe.modulus
    (∀ f, MapsMessages p f →
      ∃ table, ctx.generateTable f p = pure table ∧ ∀ m < p, answer table q p m = .ok (f m p)) ↔
        2 * ((p - 1) * (q % p)) ≤ q := by
  intro q
  have hp : 0 < p := Nat.pos_of_ne_zero (isPowerOfTwo_iff.1 hpow).1
  rw [← forall_round_eq_iff hle hp]
  refine forall₂_congr fun f hf => ?_
  obtain ⟨table, htable, -, -, hread⟩ := exists_answers hpow hle hroom hf
  constructor
  · rintro ⟨table', htable', hright⟩ m hm
    obtain rfl : table' = table := Attempt.pure_injective (htable'.symm.trans htable)
    exact Except.ok.inj ((hread m hm).2.symm.trans (hright m hm))
  · intro hright
    exact ⟨table, htable, fun m hm => by rw [(hread m hm).2, hright m hm]⟩

end Answers

/-- The table of a function has an entry for each phase, unless it does not fit in memory. At the encoding of
a message stands the output for the interval which that lies in. The encoding meets its own interval, the start
of an interval is decoded to its number, and so all messages are answered right whatever the function is,
exactly as far as truncation has not moved the intervals. -/
theorem generateTable_outcome (ctx : Context) (hpow : isPowerOfTwo p = true)
    (hle : p ≤ ctx.params.lwe.modulus) :
    let q := ctx.params.lwe.modulus
    (2 ^ 60 ≤ q → ∀ f, MapsMessages p f →
      ctx.generateTable f p = liftM (Except.error .overflow : Checked (Array ℕ))) ∧
      (q < 2 ^ 60 → ∀ f, MapsMessages p f →
        ∃ table, ctx.generateTable f p = pure table ∧ table.size = q ∧ (∀ y ∈ table, y < q) ∧
          ∀ m < p, table.getD (Modulus.round m p q) 0 = f (messageInterval q p m) p * (q / p) ∧
            answer table q p m =
              .ok (Modulus.round (f (messageInterval q p m) p * (q / p)) q p)) ∧
      (∀ m < p, messageInterval q p m = m ↔ m + 1 = p ∨ m * (q % p) + p / 2 < p * (q / p)) ∧
      (∀ y < p, Modulus.round (y * (q / p)) q p = y ↔ 2 * (y * (q % p)) ≤ q) ∧
      (q < 2 ^ 60 → ((∀ f, MapsMessages p f →
        ∃ table, ctx.generateTable f p = pure table ∧ ∀ m < p, answer table q p m = .ok (f m p)) ↔
          2 * ((p - 1) * (q % p)) ≤ q)) := by
  intro q
  refine ⟨?large, ?tables, ?intervals, ?values, ?right⟩
  case large => exact fun hroom f hf => generateTable_of_large hpow hle hf hroom
  case tables => exact fun hroom f hf => exists_answers hpow hle hroom hf
  case intervals => exact fun m hm => messageInterval_eq_iff hle hm
  case values => exact fun y hy => Modulus.round_interval_eq_iff hy hle
  case right => exact fun hroom => forall_answer_iff hpow hle hroom

section Sample

def gridParams (q : ℕ) : Params := .explicit 1 4 q 17 Params.defaultSigma 2 32 32 .ginx

private theorem exists_grid (q : ℕ) :
    ∃ ctx, ofSeed (gridParams q) #[1] = pure ctx ∧ ctx.params.lwe.modulus = q := by
  have hdegree : (gridParams q).rgsw.ringDimension = 4 := rfl
  obtain ⟨ctx, hctx⟩ := exists_ofSeed_four hdegree rfl #[1]
  obtain ⟨ring, -, rfl⟩ := ofSeed_eq_pure hctx
  exact ⟨_, hctx, rfl⟩

/-- Modulo 1000 sixteen messages are answered right by the tables of all functions, 64 messages are not. -/
theorem generateTable_outcome_thousand : ∃ ctx, ofSeed (gridParams 1000) #[1] = pure ctx ∧
    (∀ f, MapsMessages 16 f → ∃ table, ctx.generateTable f 16 = pure table ∧
      ∀ m < 16, answer table 1000 16 m = .ok (f m 16)) ∧
    ¬∀ f, MapsMessages 64 f → ∃ table, ctx.generateTable f 64 = pure table ∧
      ∀ m < 64, answer table 1000 64 m = .ok (f m 64) := by
  obtain ⟨ctx, hctx, hq⟩ := exists_grid 1000
  have hsixteen := generateTable_outcome (p := 16) ctx (by decide) (by rw [hq]; decide)
  have hmany := generateTable_outcome (p := 64) ctx (by decide) (by rw [hq]; decide)
  rw [hq] at hsixteen hmany
  refine ⟨ctx, hctx, (hsixteen.2.2.2.2 (by decide)).2 (by decide), ?_⟩
  rw [hmany.2.2.2.2 (by decide)]
  decide

/-- Modulo five, the last of four messages is answered by the one before it. A table of `2 ^ 60` entries does
not fit in memory. -/
theorem exists_answer_ne :
    (∃ ctx table, ofSeed (gridParams 5) #[1] = pure ctx ∧
      ctx.generateTable (fun x _ => x) 4 = pure table ∧ table = #[0, 1, 2, 3, 3] ∧
      answer table 5 4 3 = .ok 2) ∧
    ∃ ctx, ofSeed (gridParams (2 ^ 60)) #[1] = pure ctx ∧
      ctx.generateTable (fun x _ => x) 4 = liftM (Except.error .overflow : Checked (Array ℕ)) := by
  obtain ⟨ctx, hctx, hq⟩ := exists_grid 5
  obtain ⟨large, hlarge, hq'⟩ := exists_grid (2 ^ 60)
  refine ⟨⟨ctx, #[0, 1, 2, 3, 3], hctx, ?_, rfl, by decide⟩, large, hlarge,
    generateTable_of_large (by decide) (by rw [hq']; decide) (fun x hx => hx) hq'.ge⟩
  rw [generateTable, hq]
  rfl

end Sample

end Context

end LatticeGates
