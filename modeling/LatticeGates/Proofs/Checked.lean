import LatticeGates.Tabulate
import LatticeGates.Word
import Mathlib

/-!
# Checked computations

How a computation that may fault is taken apart: its binds, its guards and its loops. A loop whose
rounds keep an invariant and never fault ends in the invariant; a loop that did end has kept whatever
its rounds keep.
-/

namespace LatticeGates

variable {α β : Type}

namespace Checked

@[simp] theorem ok_bind (a : α) (f : α → Checked β) : (Except.ok a >>= f) = f a := rfl

@[simp] theorem error_bind (e : Fault) (f : α → Checked β) :
    (Except.error e >>= f) = .error e := rfl

@[simp] theorem pure_eq (a : α) : (pure a : Checked α) = .ok a := rfl

theorem bind_eq_ok {x : Checked α} {f : α → Checked β} {b : β} :
    (x >>= f) = .ok b ↔ ∃ a, x = .ok a ∧ f a = .ok b := by
  cases x <;> simp

theorem exists_of_isOk {x : Checked α} (h : x.isOk = true) : ∃ a, x = .ok a := by
  cases x with
  | ok a => exact ⟨a, rfl⟩
  | error e => cases h

/-- The computation ends in a value of one kind, or stops with a fault of another. -/
def Ends (x : Checked α) (value : α → Prop) (stops : Fault → Prop) : Prop :=
  (∃ a, x = .ok a ∧ value a) ∨ ∃ e, x = .error e ∧ stops e

section Ends

variable {x : Checked α} {value : α → Prop} {result : β → Prop} {stops stops' : Fault → Prop}

theorem Ends.bind {f : α → Checked β} (hx : x.Ends value stops)
    (hf : ∀ a, value a → (f a).Ends result stops) : (x >>= f).Ends result stops := by
  obtain ⟨a, rfl, ha⟩ | ⟨e, rfl, he⟩ := hx
  · rw [ok_bind]
    exact hf a ha
  · exact .inr ⟨e, rfl, he⟩

theorem Ends.imp_value {value' : α → Prop} (hx : x.Ends value stops) (h : ∀ a, value a → value' a) :
    x.Ends value' stops :=
  Or.imp_left (fun ⟨a, hxa, ha⟩ => ⟨a, hxa, h a ha⟩) hx

theorem Ends.imp_stops (hx : x.Ends value stops) (h : ∀ e, stops e → stops' e) :
    x.Ends value stops' :=
  Or.imp_right (fun ⟨e, hxe, he⟩ => ⟨e, hxe, h e he⟩) hx

theorem Ends.eq_ok (hx : x.Ends value stops) : x.Ends (fun a => x = .ok a ∧ value a) stops :=
  Or.imp_left (fun ⟨a, hxa, ha⟩ => ⟨a, hxa, hxa, ha⟩) hx

theorem Ends.value_of_eq_ok (hx : x.Ends value stops) {a : α} (h : x = .ok a) : value a := by
  obtain ⟨a', rfl, ha⟩ | ⟨e, rfl, -⟩ := hx
  · cases h
    exact ha
  · cases h

theorem ends_self (x : Checked α) : x.Ends (x = .ok ·) (x = .error ·) := by
  cases x with
  | ok a => exact .inl ⟨a, rfl, rfl⟩
  | error e => exact .inr ⟨e, rfl, rfl⟩

end Ends

end Checked

theorem ensure_eq_ok {condition : Bool} {fault : Fault} {u : Unit} :
    ensure condition fault = .ok u ↔ condition = true := by
  cases condition <;> simp [ensure]

namespace Word

theorem check_eq_ok {x y : ℕ} : check x = .ok y ↔ y = x ∧ x < Word.bound := by
  unfold check
  split
  · simp [*, eq_comm]
  · simp [*]

theorem mul_eq_ok {a b c : ℕ} : mul a b = .ok c ↔ c = a * b ∧ a * b < Word.bound :=
  check_eq_ok

theorem sub_eq_ok {a b c : ℕ} : sub a b = .ok c ↔ b ≤ a ∧ c = a - b := by
  unfold sub
  split <;> simp [*, eq_comm]

theorem check_ends (x : ℕ) : (check x).Ends (· = x) (· = .overflow) := by
  unfold check
  split
  · exact .inl ⟨x, rfl, rfl⟩
  · exact .inr ⟨_, rfl, rfl⟩

theorem sub_ends (a b : ℕ) : (sub a b).Ends (· = a - b) (· = .overflow) := by
  unfold sub
  split
  · exact .inl ⟨_, rfl, rfl⟩
  · exact .inr ⟨_, rfl, rfl⟩

theorem checkLength_ends (n : ℕ) : (checkLength n).Ends (fun _ => 8 * n < 2 ^ 63)
    (fun e => e = .overflow ∧ 2 ^ 63 ≤ 8 * n) := by
  by_cases h : 8 * n < 0x8000000000000000
  · exact .inl ⟨(), checkBytes_of_lt h, h⟩
  · refine .inr ⟨.overflow, ?_, rfl, by omega⟩
    simp [checkLength, checkBytes, h]

end Word

private theorem exists_rounds {n : ℕ} (f : (i : ℕ) → i < n → β → Checked β) (init : β) :
    ∃ rounds : (k : ℕ) → k ≤ n → β → Checked β,
      n.foldM f init = rounds n le_rfl init ∧ (∀ h b, rounds 0 h b = .ok b) ∧
      ∀ k (h : k + 1 ≤ n) (hlt : n - k - 1 < n) b,
        rounds (k + 1) h b = f (n - k - 1) hlt b >>= rounds k (Nat.le_of_succ_le h) :=
  ⟨_, rfl, fun _ _ => rfl, fun _ _ _ _ => rfl⟩

/-- A loop ends in any invariant that its rounds keep, or stops as one of them does. -/
theorem foldM_ends {n : ℕ} {f : (i : ℕ) → i < n → β → Checked β} {init : β} (P : ℕ → β → Prop)
    {stops : Fault → Prop} (start : P 0 init)
    (step : ∀ i h b, P i b → (f i h b).Ends (P (i + 1)) stops) : (n.foldM f init).Ends (P n) stops := by
  obtain ⟨rounds, hloop, hzero, hsucc⟩ := exists_rounds f init
  have run : ∀ k (hk : k ≤ n) b, P (n - k) b → (rounds k hk b).Ends (P n) stops := by
    intro k
    induction k with
    | zero => exact fun hk b hb => .inl ⟨b, hzero hk b, by simpa using hb⟩
    | succ k ih =>
      intro hk b hb
      rw [hsucc k hk (by omega)]
      refine (step (n - k - 1) (by omega) b (by rwa [Nat.sub_sub])).bind fun c hc => ?_
      exact ih (by omega) c (by rwa [show n - k = n - k - 1 + 1 by omega])
  rw [hloop]
  exact run n le_rfl init (by rwa [Nat.sub_self])

theorem foldM_ok {n : ℕ} {f : (i : ℕ) → i < n → β → Checked β} {init : β} (P : ℕ → β → Prop)
    (start : P 0 init)
    (step : ∀ i h b, P i b → ∃ b', f i h b = .ok b' ∧ P (i + 1) b') :
    ∃ b, n.foldM f init = .ok b ∧ P n b := by
  obtain h | ⟨e, -, h⟩ : (n.foldM f init).Ends (P n) fun _ => False :=
    foldM_ends P start fun i h b hb => .inl (step i h b hb)
  · exact h
  · exact h.elim

/-- A loop that has ended is in any invariant that its rounds keep. -/
theorem foldM_eq_ok {n : ℕ} {f : (i : ℕ) → i < n → β → Checked β} {init b : β}
    (P : ℕ → β → Prop) (start : P 0 init)
    (step : ∀ i h b b', P i b → f i h b = .ok b' → P (i + 1) b') (h : n.foldM f init = .ok b) :
    P n b := by
  have hends : (n.foldM f init).Ends (P n) fun _ => True := foldM_ends P start fun i h b hb =>
    ((Checked.ends_self _).imp_value fun b' => step i h b b' hb).imp_stops fun _ _ => trivial
  exact hends.value_of_eq_ok h

theorem mapM_eq_ok {f : α → Checked β} {xs : List α} {ys : List β} (h : xs.mapM f = .ok ys) :
    (∀ y ∈ ys, ∃ x ∈ xs, f x = .ok y) ∧ ∀ x ∈ xs, ∃ y ∈ ys, f x = .ok y := by
  induction xs generalizing ys with
  | nil =>
    cases h
    exact ⟨fun _ hy => (List.not_mem_nil hy).elim, fun _ hx => (List.not_mem_nil hx).elim⟩
  | cons x xs ih =>
    rw [List.mapM_cons] at h
    obtain ⟨y, hy, h⟩ := Checked.bind_eq_ok.1 h
    obtain ⟨ys, hys, h⟩ := Checked.bind_eq_ok.1 h
    cases h
    obtain ⟨hvalues, hmembers⟩ := ih hys
    refine ⟨List.forall_mem_cons.2 ⟨⟨x, List.mem_cons_self, hy⟩, fun v hv => ?_⟩,
      List.forall_mem_cons.2 ⟨⟨y, List.mem_cons_self, hy⟩, fun u hu => ?_⟩⟩
    · obtain ⟨u, hu, huv⟩ := hvalues v hv
      exact ⟨u, List.mem_cons_of_mem _ hu, huv⟩
    · obtain ⟨v, hv, huv⟩ := hmembers u hu
      exact ⟨v, List.mem_cons_of_mem _ hv, huv⟩

theorem mapM_ends {f : α → Checked β} {P : α → Prop} {stops : Fault → Prop} {xs : List α}
    (h : ∀ x ∈ xs, (f x).Ends (fun _ => P x) stops) : (xs.mapM f).Ends (fun _ => ∀ x ∈ xs, P x) stops := by
  induction xs with
  | nil => exact .inl ⟨[], rfl, by simp⟩
  | cons x xs ih =>
    obtain ⟨hx, hxs⟩ := List.forall_mem_cons.1 h
    rw [List.mapM_cons]
    refine hx.bind fun y hy => (ih hxs).bind fun ys hys => ?_
    exact .inl ⟨y :: ys, rfl, List.forall_mem_cons.2 ⟨hy, hys⟩⟩

theorem exists_mapM {f : α → Checked β} {P : β → α → Prop} {xs : List α}
    (h : ∀ x ∈ xs, ∃ y, f x = .ok y ∧ P y x) : ∃ ys, xs.mapM f = .ok ys ∧ List.Forall₂ P ys xs := by
  induction xs with
  | nil => exact ⟨[], rfl, .nil⟩
  | cons x xs ih =>
    obtain ⟨hx, hxs⟩ := List.forall_mem_cons.1 h
    obtain ⟨y, hy, hP⟩ := hx
    obtain ⟨ys, hys, hforall⟩ := ih hxs
    refine ⟨y :: ys, ?_, .cons hP hforall⟩
    rw [List.mapM_cons, hy, Checked.ok_bind, hys]
    rfl

section Shares

variable {γ M : Type} [AddCommMonoid M] {step : β → γ → Checked β} {share : γ → M} {xs : List γ}
  {b : β} {v : M}

theorem exists_foldlM_add (Holds : β → M → Prop)
    (hstep : ∀ x ∈ xs, ∀ b v, Holds b v → ∃ c, step b x = .ok c ∧ Holds c (v + share x))
    (h : Holds b v) : ∃ c, xs.foldlM step b = .ok c ∧ Holds c (v + (xs.map share).sum) := by
  induction xs generalizing b v with
  | nil => exact ⟨b, rfl, by rwa [List.map_nil, List.sum_nil, add_zero]⟩
  | cons x xs ih =>
    obtain ⟨hx, hxs⟩ := List.forall_mem_cons.1 hstep
    obtain ⟨c, hc, hcv⟩ := hx b v h
    obtain ⟨d, hd, hdv⟩ := ih hxs hcv
    refine ⟨d, ?_, ?_⟩
    · rw [List.foldlM_cons, hc, Checked.ok_bind, hd]
    · rwa [List.map_cons, List.sum_cons, ← add_assoc]

/-- When a value is known by what it stands for, the order of the rounds does not matter. -/
theorem exists_foldlM_perm (Holds : β → M → Prop)
    (hext : ∀ b c v, Holds b v → Holds c v → b = c)
    (hstep : ∀ x ∈ xs, ∀ b v, Holds b v → ∃ c, step b x = .ok c ∧ Holds c (v + share x))
    (h : Holds b v) : ∃ c, Holds c (v + (xs.map share).sum) ∧
      ∀ ys : List γ, ys.Perm xs → ys.foldlM step b = .ok c := by
  obtain ⟨c, -, hc⟩ := exists_foldlM_add Holds hstep h
  refine ⟨c, hc, fun ys hperm => ?_⟩
  obtain ⟨d, hd, hdv⟩ := exists_foldlM_add Holds (fun y hy => hstep y (hperm.subset hy)) h
  rw [(hperm.map share).sum_eq] at hdv
  rw [hd, hext d c _ hdv hc]

end Shares

theorem exists_tabulate {n : ℕ} {f : (i : ℕ) → i < n → Checked α} {P : ℕ → α → Prop}
    (h : ∀ i hi, ∃ x, f i hi = .ok x ∧ P i x) :
    ∃ r, tabulate n f = .ok r ∧ r.size = n ∧ ∀ (i : ℕ) (hi : i < r.size), P i r[i] := by
  choose g hg hP using h
  exact ⟨_, tabulate_ok hg, Array.size_ofFn, fun i hi => by simpa using hP i _⟩

end LatticeGates
