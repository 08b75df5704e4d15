import LatticeGates.Context
import LatticeGates.Proofs.Attempt

/-!
# Actions

How an action is taken apart: the context that each part starts from, what the parts that only read it
leave, and where an error comes from.
-/

namespace LatticeGates.Action

variable {α β : Type} {ctx next : Context}

/-- An action that gives a value and the next context. -/
def Gives (x : Action α) (ctx : Context) (a : α) (next : Context) : Prop :=
  x.run.run ctx = .ok (.ok a, next)

theorem bind_gives {x : Action α} {f : α → Action β} {b : β} :
    (x >>= f).Gives ctx b next ↔ ∃ a mid, x.Gives ctx a mid ∧ (f a).Gives mid b next := by
  unfold Gives
  rw [ExceptT.run_bind, StateT.run_bind, Checked.bind_eq_ok]
  constructor
  · rintro ⟨⟨result, mid⟩, hx, h⟩
    cases result with
    | ok a => exact ⟨a, mid, hx, h⟩
    | error e => cases h
  · rintro ⟨a, mid, hx, h⟩
    exact ⟨(.ok a, mid), hx, h⟩

theorem get_gives {a : Context} : (get : Action Context).Gives ctx a next ↔ a = ctx ∧ next = ctx := by
  constructor
  · intro h
    cases h
    exact ⟨rfl, rfl⟩
  · rintro ⟨rfl, rfl⟩
    rfl

theorem set_gives {new : Context} {u : PUnit} :
    (set new : Action PUnit).Gives ctx u next ↔ next = new := by
  constructor
  · intro h
    cases h
    rfl
  · rintro rfl
    rfl

theorem ofAttempt_gives {x : Attempt α} {a : α} :
    (ofAttempt x).Gives ctx a next ↔ x = pure a ∧ next = ctx := by
  constructor
  · intro h
    match x, h with
    | .ok (.ok _), h => cases h; exact ⟨rfl, rfl⟩
    | .ok (.error _), h => cases h
    | .error _, h => cases h
  · rintro ⟨rfl, rfl⟩
    rfl

theorem liftM_gives {x : Checked α} {a : α} :
    (liftM x : Action α).Gives ctx a next ↔ x = .ok a ∧ next = ctx := by
  constructor
  · intro h
    match x, h with
    | .ok _, h => cases h; exact ⟨rfl, rfl⟩
    | .error _, h => cases h
  · rintro ⟨rfl, rfl⟩
    rfl

theorem require_gives {condition : Bool} {e : Error} {u : Unit} :
    (require condition e).Gives ctx u next ↔ condition = true ∧ next = ctx := by
  cases condition with
  | true =>
    constructor
    · intro h
      cases h
      exact ⟨rfl, rfl⟩
    · rintro ⟨-, rfl⟩
      rfl
  | false => exact ⟨fun h => (nomatch h), fun h => (nomatch h.1)⟩

theorem pure_gives {a b : α} : (pure a : Action α).Gives ctx b next ↔ b = a ∧ next = ctx := by
  constructor
  · intro h
    cases h
    exact ⟨rfl, rfl⟩
  · rintro ⟨rfl, rfl⟩
    rfl

theorem draw_gives {f : Draw α} {a : α} : (draw f).Gives ctx a next ↔
    ∃ source, f ctx.source = .ok (a, source) ∧ next = { ctx with source } := by
  unfold Gives draw
  constructor
  · intro h
    obtain ⟨⟨x, source⟩, hx, h⟩ := Checked.bind_eq_ok.1 h
    cases h
    exact ⟨source, hx, rfl⟩
  · rintro ⟨source, hx, rfl⟩
    exact Checked.bind_eq_ok.2 ⟨(a, source), hx, rfl⟩

def Fails (x : Action α) (ctx : Context) (e : Error) (next : Context) : Prop :=
  x.run.run ctx = .ok (.error e, next)

section Fails

variable {e e' : Error}

theorem bind_fails {x : Action α} {f : α → Action β} :
    (x >>= f).Fails ctx e next ↔
      x.Fails ctx e next ∨ ∃ a mid, x.Gives ctx a mid ∧ (f a).Fails mid e next := by
  unfold Fails Gives
  rw [ExceptT.run_bind, StateT.run_bind, Checked.bind_eq_ok]
  constructor
  · rintro ⟨⟨result, mid⟩, hx, h⟩
    cases result with
    | ok a => exact .inr ⟨a, mid, hx, h⟩
    | error e' =>
      cases h
      exact .inl hx
  · rintro (hx | ⟨a, mid, hx, h⟩)
    · exact ⟨(.error e, next), hx, rfl⟩
    · exact ⟨(.ok a, mid), hx, h⟩

theorem not_get_fails : ¬(get : Action Context).Fails ctx e next := fun h => nomatch h

theorem not_pure_fails {a : α} : ¬(pure a : Action α).Fails ctx e next := fun h => nomatch h

theorem fail_fails : (fail e' : Action α).Fails ctx e next ↔ e = e' ∧ next = ctx := by
  constructor
  · intro h
    cases h
    exact ⟨rfl, rfl⟩
  · rintro ⟨rfl, rfl⟩
    rfl

theorem not_draw_fails {f : Draw α} : ¬(draw f).Fails ctx e next := by
  intro h
  obtain ⟨_, -, h⟩ := Checked.bind_eq_ok.1 h
  cases h

theorem not_set_fails {new : Context} : ¬(set new : Action PUnit).Fails ctx e next :=
  fun h => nomatch h

theorem ofAttempt_fails {x : Attempt α} :
    (ofAttempt x).Fails ctx e next ↔ x = Attempt.fail e ∧ next = ctx := by
  constructor
  · intro h
    match x, h with
    | .ok (.ok _), h => cases h
    | .ok (.error _), h => cases h; exact ⟨rfl, rfl⟩
    | .error _, h => cases h
  · rintro ⟨rfl, rfl⟩
    rfl

theorem not_liftM_fails {x : Checked α} : ¬(liftM x : Action α).Fails ctx e next := by
  intro h
  match x, h with
  | .ok _, h => cases h
  | .error _, h => cases h

theorem require_fails {condition : Bool} :
    (require condition e').Fails ctx e next ↔ condition = false ∧ e = e' ∧ next = ctx := by
  cases condition with
  | true => exact ⟨fun h => (nomatch h), fun h => (nomatch h.1)⟩
  | false =>
    constructor
    · intro h
      cases h
      exact ⟨rfl, rfl, rfl⟩
    · rintro ⟨-, rfl, rfl⟩
      rfl

end Fails

def Faults (x : Action α) (ctx : Context) (fault : Fault) : Prop := x.run.run ctx = .error fault

section Faults

variable {fault : Fault}

theorem bind_faults {x : Action α} {f : α → Action β} :
    (x >>= f).Faults ctx fault ↔
      x.Faults ctx fault ∨ ∃ a mid, x.Gives ctx a mid ∧ (f a).Faults mid fault := by
  unfold Faults Gives
  rw [ExceptT.run_bind, StateT.run_bind]
  constructor
  · intro h
    match hx : x.run.run ctx, h with
    | .ok (.ok a, mid), h => exact .inr ⟨a, mid, rfl, h⟩
    | .ok (.error _, _), h => cases h
    | .error _, h =>
      cases h
      exact .inl rfl
  · rintro (hx | ⟨a, mid, hx, h⟩)
    · rw [hx]
      rfl
    · rw [hx]
      exact h

theorem ofAttempt_faults {x : Attempt α} :
    (ofAttempt x).Faults ctx fault ↔ x = liftM (Except.error fault : Checked α) := by
  constructor
  · intro h
    match x, h with
    | .ok (.ok _), h => cases h
    | .ok (.error _), h => cases h
    | .error _, h => cases h; rfl
  · rintro rfl
    rfl

theorem draw_faults {f : Draw α} : (draw f).Faults ctx fault ↔ f ctx.source = .error fault := by
  unfold Faults draw
  constructor
  · intro h
    match hf : f ctx.source with
    | .ok _ =>
      rw [ExceptT.run_mk, StateT.run, hf] at h
      cases h
    | .error _ =>
      rw [ExceptT.run_mk, StateT.run, hf] at h
      cases h
      rfl
  · intro h
    rw [ExceptT.run_mk, StateT.run, h]
    rfl

end Faults

def Unfailing (x : Action α) : Prop := ∀ ctx e next, ¬x.Fails ctx e next

/-- An action that leaves the context as it was when it ends in an error. -/
def Clean (x : Action α) : Prop := ∀ ctx e next, x.Fails ctx e next → next = ctx

/-- An action that never changes the context. -/
structure Reads (x : Action α) : Prop where
  clean : x.Clean
  keeps : ∀ ctx a next, x.Gives ctx a next → next = ctx

section Clean

variable {x : Action α} {f : α → Action β}

theorem Unfailing.bind (hx : x.Unfailing) (hf : ∀ a, (f a).Unfailing) : (x >>= f).Unfailing := by
  intro ctx e next h
  rcases bind_fails.1 h with h | ⟨a, mid, -, h⟩
  · exact hx ctx e next h
  · exact hf a mid e next h

theorem Unfailing.clean (hx : x.Unfailing) : x.Clean := fun ctx e next h => (hx ctx e next h).elim

theorem Reads.bind (hx : x.Reads) (hf : ∀ a, (f a).Clean) : (x >>= f).Clean := by
  intro ctx e next h
  rcases bind_fails.1 h with h | ⟨a, mid, hgives, h⟩
  · exact hx.clean ctx e next h
  · rw [← hx.keeps ctx a mid hgives]
    exact hf a mid e next h

theorem unfailing_pure (a : α) : (pure a : Action α).Unfailing := fun _ _ _ => not_pure_fails

theorem unfailing_get : (get : Action Context).Unfailing := fun _ _ _ => not_get_fails

theorem unfailing_draw (f : Draw α) : (draw f).Unfailing := fun _ _ _ => not_draw_fails

theorem unfailing_liftM (x : Checked α) : (liftM x : Action α).Unfailing := fun _ _ _ => not_liftM_fails

theorem reads_get : (get : Action Context).Reads :=
  ⟨unfailing_get.clean, fun _ _ _ h => (get_gives.1 h).2⟩

theorem reads_liftM (x : Checked α) : (liftM x : Action α).Reads :=
  ⟨(unfailing_liftM x).clean, fun _ _ _ h => (liftM_gives.1 h).2⟩

theorem reads_ofAttempt (x : Attempt α) : (ofAttempt x).Reads :=
  ⟨fun _ _ _ h => (ofAttempt_fails.1 h).2, fun _ _ _ h => (ofAttempt_gives.1 h).2⟩

theorem reads_require (condition : Bool) (e : Error) : (require condition e).Reads :=
  ⟨fun _ _ _ h => (require_fails.1 h).2.2, fun _ _ _ h => (require_gives.1 h).2⟩

theorem clean_fail (e : Error) : (fail e : Action α).Clean := fun _ _ _ h => (fail_fails.1 h).2

end Clean

end LatticeGates.Action

namespace LatticeGates.Context

variable {p t : ℕ}

theorem checkPlaintext_eq_pure : checkPlaintext p t = pure () ↔ 0 < p ∧ p ≤ t := by
  rw [checkPlaintext, Attempt.require_eq_pure, decide_eq_true_iff]

theorem checkPlaintext_eq_fail (h : ¬(0 < p ∧ p ≤ t)) :
    checkPlaintext p t = Attempt.fail (.invalidModulus p) := by
  rw [checkPlaintext, decide_eq_false h, Attempt.require_false]

end LatticeGates.Context
