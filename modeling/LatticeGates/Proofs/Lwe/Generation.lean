import LatticeGates.Proofs.Draws
import LatticeGates.Proofs.Lwe.SwitchingShares

/-!
# Keys of ternary secrets

Main statements: a switching key and a public key of ternary secrets are made, unless a draw does not end or
there is no room for them.
-/

namespace LatticeGates.Lwe

variable {q : Modulus} {n m base : ℕ} {z s : Secret}

theorem Secret.generate_ends (hroom : Word.checkLength n = .ok ()) (sigma : Float) (source : Stream) :
    (generate n .ternary sigma source).Ends (fun r => r.1.dimension = n ∧ r.1.Ternary)
      (fun e => e = .exhausted ∧ Stream.ternaries n source = .error .exhausted) := by
  rw [generate, hroom, Checked.ok_bind]
  refine ((Stream.searches_replicate Stream.searches_ternary n).ends source).bind ?_
  rintro ⟨xs, rest⟩ hxs
  exact .inl ⟨_, rfl, Stream.ternaries_entries hxs⟩

namespace SwitchingKey

def HasRoom (q : Modulus) (n m base : ℕ) : Prop := 8 * (count q n base * (m + 1)) < 2 ^ 63

def Endless (q : Modulus) (n m base : ℕ) (sigma : Float) (masks errors : Stream) : Prop :=
  Stream.replicate (count q n base) (drawEntry q m) masks = .error .exhausted ∨
    Stream.gaussians sigma (count q n base) errors = .error .exhausted

/-- With a base below two the search for the number of digits does not end. -/
theorem generate_of_base_lt_two (hbase : base < 2) (z s : Secret) (sigma : Float) (masks errors : Stream) :
    generate z s base q.value sigma masks errors = .error .exhausted := by
  have hdigits : digitCount base q.value = .error .exhausted :=
    digitCount_eq_error_iff.2 ⟨rfl, pow_lt_of_base_lt_two hbase q.one_lt⟩
  rw [generate, zero, hdigits]
  rfl

theorem zero_ends (n m : ℕ) (hbase : 2 ≤ base) :
    (zero n m base q.value).Ends (fun _ => HasRoom q n m base) (· = .overflow) := by
  have hdigits : digitCount base q.value = .ok (digitsFrom base q.value 1) := if_neg (by omega)
  rw [zero, hdigits, Checked.ok_bind]
  refine (Word.check_ends _).bind ?_
  rintro _ rfl
  refine (Word.sub_ends _ _).bind ?_
  rintro _ rfl
  refine (Word.check_ends _).bind ?_
  rintro _ rfl
  refine (Word.check_ends _).bind ?_
  rintro _ rfl
  refine (Word.check_ends _).bind ?_
  rintro _ rfl
  exact ((Word.checkLength_ends _).imp_stops fun _ => And.left).bind fun _ h => .inl ⟨_, rfl, h⟩

theorem searches_drawEntry (q : Modulus) (m : ℕ) : Stream.Searches (drawEntry q m) := by
  intro s e he
  obtain ⟨r, hr, -⟩ | ⟨e', he', rfl, -⟩ := (Stream.searches_residues q m).ends s
  · simp [drawEntry, hr] at he
  · simp only [drawEntry, he', Checked.error_bind, Except.error.injEq] at he
    exact he.symm

theorem HasRoom.bounds (h : HasRoom q n m base) (hbase : 2 ≤ base) (hn : 0 < n) :
    n < 2 ^ 60 ∧ base ≤ 2 ^ 60 ∧ m < 2 ^ 60 := by
  have hdigits : 0 < digitsFrom base q.value 1 := by
    rw [digitsFrom, dif_pos ⟨hbase, one_pos, q.one_lt⟩]
    exact Nat.succ_pos _
  have hn_le : n ≤ count q n base := by
    rw [count, mul_assoc]
    exact Nat.le_mul_of_pos_right _ (Nat.mul_pos hdigits (by omega))
  have hbase_le : base - 1 ≤ count q n base := Nat.le_mul_of_pos_left _ (Nat.mul_pos hn hdigits)
  unfold HasRoom at h
  generalize count q n base = entries at *
  have hentries : entries ≤ entries * (m + 1) := Nat.le_mul_of_pos_right _ (Nat.succ_pos _)
  have hm : m + 1 ≤ entries * (m + 1) := Nat.le_mul_of_pos_left _ (by omega)
  omega

variable {masks : Array (Array ℕ)} {key : SwitchingKey} {b : ℕ → ZMod q.value}

private theorem Sums.accumulate_ends (h : Sums q n m base masks key b) (hmasks : Masks q n m base masks)
    (hroom : HasRoom q n m base) (hbase : 2 ≤ base) (hn : 0 < n) (hz : z.dimension = n)
    (hs : s.dimension = m) (hzt : z.Ternary) (hst : s.Ternary) (sigma : Float) (errors : Stream) :
    (key.accumulate z s sigma errors).Ends
      (fun _ => ∃ r, Stream.gaussians sigma (count q n base) errors = .ok r)
      (fun e => e = .exhausted ∧ Stream.gaussians sigma (count q n base) errors = .error .exhausted) := by
  obtain ⟨-, hbase_le, hm⟩ := hroom.bounds hbase hn
  have hrange : ∀ mask ∈ masks, s.InRange mask := by
    intro mask hmask
    have hreduced := hmasks.reduced mask hmask
    rw [← hs] at hreduced
    exact Secret.inRange_of_natAbs_le hreduced hst.natAbs_le (by omega)
  obtain ⟨⟨e, rest⟩, hdrawn, -⟩ | ⟨fault, hdrawn, rfl, -⟩ :=
    (Stream.searches_gaussians sigma (count q n base)).ends errors
  · obtain ⟨key', hkey', -⟩ := h.exists_accumulate hmasks hbase hz hs hrange
      (messagesInRange_of_ternary hzt (by omega)) ⟨sigma, errors, e, rest, hdrawn⟩
    exact .inl ⟨_, hkey', _, hdrawn⟩
  · refine .inr ⟨.exhausted, ?_, rfl, hdrawn⟩
    have hcount : key.entries.size = count q n base := h.size_eq.trans hmasks.size_eq
    obtain ⟨entries, rfl⟩ := h.shape
    have hdims : (z.dimension == n && s.dimension == m) = true := by simp [hz, hs]
    simp only [ofEntries] at hcount
    simp only [accumulate, ofEntries, hdims, ensure_true, Modulus.check_value, hcount, hdrawn,
      Checked.ok_bind, Checked.error_bind]

theorem generate_ends (hbase : 2 ≤ base) (hn : 0 < n) (hz : z.dimension = n) (hs : s.dimension = m)
    (hzt : z.Ternary) (hst : s.Ternary) (sigma : Float) (masks errors : Stream) :
    (generate z s base q.value sigma masks errors).Ends
      (fun _ => HasRoom q n m base ∧ ∃ r, Stream.gaussians sigma (count q n base) errors = .ok r)
      (fun e => (HasRoom q n m base ∧ e = .exhausted ∧ Endless q n m base sigma masks errors) ∨
        ¬HasRoom q n m base ∧ e = .overflow) := by
  by_cases hroom : HasRoom q n m base
  · obtain ⟨-, -, hm⟩ := hroom.bounds hbase hn
    have hwidth : m + 1 < Word.bound := by
      unfold Word.bound
      omega
    rw [generate_eq hbase hwidth hroom hz hs]
    refine Checked.Ends.imp_stops ?_ fun _ he => .inl ⟨hroom, he⟩
    refine (((Stream.searches_replicate (searches_drawEntry q m) _).ends masks).imp_stops
      fun _ => And.imp_right .inl).bind ?_
    rintro ⟨samples, rest⟩ hdrawn
    refine (((sums_of_replicate hdrawn).accumulate_ends (masks_of_replicate hdrawn) hroom hbase hn hz hs
      hzt hst sigma errors).imp_stops fun _ => And.imp_right .inr).bind ?_
    rintro _ herrors
    exact .inl ⟨_, rfl, hroom, herrors⟩
  · obtain ⟨_, -, h⟩ | ⟨e, he, rfl⟩ := zero_ends (q := q) n m hbase
    · exact (hroom h).elim
    · refine .inr ⟨.overflow, ?_, .inr ⟨hroom, rfl⟩⟩
      rw [generate, hz, hs, he]
      rfl

end SwitchingKey

namespace PublicKey

variable {matrix : Array (Array ℕ)} {pk : PublicKey} {v : ℕ → ZMod q.value}

def Endless (q : Modulus) (n : ℕ) (sigma : Float) (masks errors : Stream) : Prop :=
  Stream.replicate n (Stream.residues q n) masks = .error .exhausted ∨
    Stream.gaussians sigma n errors = .error .exhausted

private theorem Sums.accumulate_ends (h : Sums q n matrix pk v) (hmatrix : Square q n matrix)
    (hz : z.dimension = n) (hzt : z.Ternary) (hroom : n < 2 ^ 60) (sigma : Float) (errors : Stream) :
    (pk.accumulate z sigma errors).Ends (fun _ => True)
      (fun e => e = .exhausted ∧ Stream.gaussians sigma n errors = .error .exhausted) := by
  have hrange : ∀ row ∈ matrix, z.InRange row := by
    intro row hrow
    have hreduced := hmatrix.rows row hrow
    rw [← hz] at hreduced
    exact Secret.inRange_of_natAbs_le hreduced hzt.natAbs_le (by omega)
  obtain ⟨⟨e, rest⟩, hdrawn, -⟩ | ⟨fault, hdrawn, rfl, -⟩ := (Stream.searches_gaussians sigma n).ends errors
  · obtain ⟨pk', hpk', -⟩ := h.exists_accumulate hmatrix hz hrange ⟨sigma, errors, e, rest, hdrawn⟩
    exact .inl ⟨_, hpk', trivial⟩
  · refine .inr ⟨.exhausted, ?_, rfl, hdrawn⟩
    have hdim : pk.dimension = n := h.reduced.size_eq
    simp only [accumulate, hz, hdim, beq_self_eq_true, ensure_true, h.modulus_eq, Modulus.check_value,
      hdrawn, Checked.ok_bind, Checked.error_bind]

theorem generate_ends (hz : z.dimension = n) (hzt : z.Ternary) (sigma : Float) (masks errors : Stream) :
    (generate z q.value sigma masks errors).Ends (fun _ => 8 * (n * n) < 2 ^ 63)
      (fun e => (e = .exhausted ∧ Endless q n sigma masks errors) ∨
        e = .overflow ∧ 2 ^ 63 ≤ 8 * (n * n)) := by
  simp only [generate, hz]
  refine ((Word.checkLength_ends (n * n)).imp_stops fun _ => .inr).bind fun _ hroom => ?_
  rw [Modulus.check_value, Checked.ok_bind]
  refine Checked.Ends.imp_stops ?_ fun _ => .inl
  refine (((Stream.searches_replicate (Stream.searches_residues q n) n).ends masks).imp_stops
    fun _ => And.imp_right .inl).bind ?_
  rintro ⟨matrix, rest⟩ hdrawn
  have hsums : Sums q n matrix ⟨matrix, Array.replicate n 0, q.value⟩ 0 :=
    ⟨rfl, rfl, Modulus.reduced_replicate, fun i _ => Modulus.entries_replicate i⟩
  have hle : n ≤ n * n := Nat.le_mul_self n
  exact ((hsums.accumulate_ends (square_of_replicate hdrawn) hz hzt (by omega) sigma errors).imp_stops
    fun _ => And.imp_right .inr).bind fun _ _ => .inl ⟨_, rfl, hroom⟩

end PublicKey

end LatticeGates.Lwe
