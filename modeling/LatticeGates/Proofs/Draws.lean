import LatticeGates.Proofs.Stream.Uniform
import LatticeGates.Stream.Gaussian

/-!
# Draws that do not end

Main statement: no draw stops for another reason than that its search has gone on for too long.
-/

namespace LatticeGates.Stream

variable {α : Type}

/-- The draw returns, or searches on without an end. -/
def Searches (draw : Draw α) : Prop := ∀ s e, draw s = .error e → e = .exhausted

/-- A draw returns, or is itself one that does not end. -/
theorem Searches.ends {draw : Draw α} (h : Searches draw) (s : Stream) :
    (draw s).Ends (fun r => draw s = .ok r) (fun e => e = .exhausted ∧ draw s = .error .exhausted) :=
  (Checked.ends_self _).imp_stops fun e he => ⟨h s e he, h s e he ▸ he⟩

theorem searches_replicate {draw : Draw α} (hdraw : Searches draw) (n : ℕ) :
    Searches (replicate n draw) := by
  have rounds : ∀ (k i : ℕ) (h : i + k = n) (acc : Array α),
      Searches (collectFrom (fun _ _ => draw) k i h acc) := by
    intro k
    induction k with
    | zero =>
      intro i h acc s e he
      cases he
    | succ k ih =>
      intro i h acc s e he
      rw [collectFrom] at he
      split at he
      · exact ih _ _ _ _ _ he
      · rename_i e' he'
        cases he
        exact hdraw _ _ he'
  exact rounds n 0 (Nat.zero_add n) _

theorem searches_below (max : ℕ) (mask : UInt64) : Searches (below max mask) :=
  fun _ _ he => (below_eq_error_iff.1 he).1

theorem searches_residues (q : Modulus) (n : ℕ) : Searches (residues q n) :=
  searches_replicate (searches_below _ _) n

theorem searches_ternary : Searches ternary := by
  intro s e he
  obtain ⟨r, hr, -⟩ | ⟨e', he', rfl, -⟩ := (searches_below 3 3).ends s
  · simp [ternary, hr] at he
  · simp only [ternary, he', Checked.error_bind, Except.error.injEq] at he
    exact he.symm

theorem searches_ternaries (n : ℕ) : Searches (ternaries n) := searches_replicate searches_ternary n

private theorem searches_tailFrom (fuel : ℕ) : ∀ x y, Searches (Ziggurat.tailFrom fuel x y) := by
  induction fuel with
  | zero =>
    intro x y s e he
    cases he
    rfl
  | succ fuel ih =>
    intro x y s e he
    simp only [Ziggurat.tailFrom] at he
    split at he
    · exact ih _ _ _ _ he
    · cases he

private theorem searches_normalFrom (fuel : ℕ) : Searches (Ziggurat.normalFrom fuel) := by
  induction fuel with
  | zero =>
    intro s e he
    cases he
    rfl
  | succ fuel ih =>
    intro s e he
    simp only [Ziggurat.normalFrom] at he
    split at he
    · cases he
    · split at he
      · split at he
        · cases he
        · rename_i e' he'
          cases he
          exact searches_tailFrom _ _ _ _ _ he'
      · split at he
        · cases he
        · exact ih _ _ he

theorem searches_gaussian (sigma : Float) : Searches (gaussian sigma) := by
  have search : ∀ bound fuel, Searches (gaussianFrom sigma bound fuel) := by
    intro bound fuel
    induction fuel with
    | zero =>
      intro s e he
      cases he
      rfl
    | succ fuel ih =>
      intro s e he
      simp only [gaussianFrom] at he
      split at he
      · split at he
        · cases he
        · exact ih _ _ he
      · rename_i e' he'
        cases he
        exact searches_normalFrom _ _ _ he'
  unfold gaussian
  dsimp only
  split
  · exact search _ _
  · intro s e he
    cases he
    rfl

theorem searches_gaussians (sigma : Float) (n : ℕ) : Searches (gaussians sigma n) :=
  searches_replicate (searches_gaussian sigma) n

theorem gaussians_of_negative {sigma : Float} (h : ¬0 ≤ gaussianBound sigma) (n : ℕ) (s : Stream) :
    gaussians sigma (n + 1) s = .error .exhausted := by
  rw [gaussians, show gaussian sigma = fun _ => .error .exhausted from if_neg h]
  rfl

end LatticeGates.Stream
