import LatticeGates.Fault

/-!
# Arrays computed entry by entry

`tabulate n f` collects `f 0, …, f (n - 1)` and stops at the first fault. The entrywise operations on
vectors are instances of it.
-/

namespace LatticeGates

variable {α β γ : Type}

@[specialize] def tabulateFrom {n : Nat} (f : (i : Nat) → i < n → Checked α) :
    (k : Nat) → k ≤ n → Array α → Checked (Array α)
  | 0, _, acc => .ok acc
  | k + 1, h, acc =>
    match f (n - (k + 1)) (by omega) with
    | .ok x => tabulateFrom f k (by omega) (acc.push x)
    | .error e => .error e

@[inline] def tabulate (n : Nat) (f : (i : Nat) → i < n → Checked α) : Checked (Array α) :=
  tabulateFrom f n (Nat.le_refl n) (Array.emptyWithCapacity n)

private theorem tabulateFrom_ok {n : Nat} {f : (i : Nat) → i < n → Checked α}
    {g : (i : Nat) → i < n → α} (hf : ∀ i h, f i h = .ok (g i h)) :
    ∀ (k : Nat) (hk : k ≤ n) (acc : Array α) (_ : acc.size = n - k)
      (_ : ∀ (i : Nat) (h : i < acc.size) (hn : i < n), acc[i] = g i hn),
      tabulateFrom f k hk acc = .ok (Array.ofFn fun i : Fin n => g i i.2)
  | 0, hk, acc, hsize, hacc => by
    simp only [tabulateFrom, Except.ok.injEq]
    apply Array.ext
    · simpa using hsize
    · intro i h _
      simpa using hacc i h (by omega)
  | k + 1, hk, acc, hsize, hacc => by
    simp only [tabulateFrom, hf]
    refine tabulateFrom_ok hf k (by omega) _ (by simp [hsize]; omega) ?_
    intro i h hn
    rw [Array.getElem_push]
    split
    · exact hacc i _ hn
    · simp only [Array.size_push] at h
      have : i = n - (k + 1) := by omega
      subst this
      rfl

theorem tabulate_ok {n : Nat} {f : (i : Nat) → i < n → Checked α} {g : (i : Nat) → i < n → α}
    (hf : ∀ i h, f i h = .ok (g i h)) :
    tabulate n f = .ok (Array.ofFn fun i : Fin n => g i i.2) :=
  tabulateFrom_ok hf n _ _ (by simp) (by simp)

private theorem tabulateFrom_eq_ok {n : Nat} {f : (i : Nat) → i < n → Checked α} {r : Array α} :
    ∀ (k : Nat) (hk : k ≤ n) (acc : Array α) (_ : acc.size = n - k)
      (_ : ∀ (i : Nat) (h : i < acc.size) (hn : i < n), f i hn = .ok acc[i]),
      tabulateFrom f k hk acc = .ok r →
      ∃ h : r.size = n, ∀ (i : Nat) (hi : i < n), f i hi = .ok r[i]
  | 0, hk, acc, hsize, hacc, h => by
    simp only [tabulateFrom, Except.ok.injEq] at h
    subst h
    exact ⟨by omega, fun i hi => hacc i (by omega) hi⟩
  | k + 1, hk, acc, hsize, hacc, h => by
    simp only [tabulateFrom] at h
    split at h
    · rename_i x hx
      refine tabulateFrom_eq_ok k (by omega) _ (by simp [hsize]; omega) ?_ h
      intro i hi hn
      rw [Array.getElem_push]
      split
      · exact hacc i _ hn
      · simp only [Array.size_push] at hi
        have : i = n - (k + 1) := by omega
        subst this
        exact hx
    · simp at h

/-- What a tabulation returns has an entry for every index, each without a fault. -/
theorem tabulate_eq_ok {n : Nat} {f : (i : Nat) → i < n → Checked α} {r : Array α}
    (h : tabulate n f = .ok r) : ∃ h : r.size = n, ∀ (i : Nat) (hi : i < n), f i hi = .ok r[i] :=
  tabulateFrom_eq_ok n _ _ (by simp) (by simp) h

@[inline] def mapChecked (f : α → Checked β) (a : Array α) : Checked (Array β) :=
  tabulate a.size fun i _ => f a[i]

/-- Combines the entries of two vectors, up to the end of the shorter one. -/
@[inline] def zipChecked (f : α → β → Checked γ) (a : Array α) (b : Array β) : Checked (Array γ) :=
  tabulate (min a.size b.size) fun i h =>
    have ha : i < a.size := by omega
    have hb : i < b.size := by omega
    f a[i] b[i]

/-- Combines the entries of `b` into those of `r`; the entries of `r` beyond `b` stay. -/
@[inline] def zipInto (f : α → β → Checked α) (r : Array α) (b : Array β) : Checked (Array α) :=
  tabulate r.size fun i _ => if h : i < b.size then f r[i] b[i] else .ok r[i]

end LatticeGates
