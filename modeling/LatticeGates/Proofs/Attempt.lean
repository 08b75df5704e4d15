import LatticeGates.Error
import LatticeGates.Proofs.Checked

/-!
# Attempts

How an attempt that succeeds is taken apart, when a checked computation or a requirement inside an attempt
succeeds, and how attempts that cannot fault are put together.
-/

namespace LatticeGates.Attempt

variable {α β : Type}

@[simp] theorem liftM_ok (a : α) : (liftM (Except.ok a : Checked α) : Attempt α) = pure a := rfl

@[simp] theorem require_true (e : Error) : require true e = pure () := rfl

@[simp] theorem require_false (e : Error) : require false e = fail e := rfl

@[simp] theorem fail_bind (e : Error) (f : α → Attempt β) : (fail e >>= f) = fail e := rfl

@[simp] theorem liftM_error_bind (fault : Fault) (f : α → Attempt β) :
    ((liftM (Except.error fault : Checked α) : Attempt α) >>= f) =
      liftM (Except.error fault : Checked β) := rfl

theorem require_eq_pure {condition : Bool} {e : Error} {u : Unit} :
    require condition e = pure u ↔ condition = true := by
  cases condition with
  | true => exact iff_of_true rfl rfl
  | false => exact iff_of_false (fun h => by cases h) Bool.false_ne_true

theorem pure_injective {a b : α} (h : (pure a : Attempt α) = pure b) : a = b := by
  cases h
  rfl

theorem bind_eq_pure {x : Attempt α} {f : α → Attempt β} {b : β} :
    (x >>= f) = pure b ↔ ∃ a, x = pure a ∧ f a = pure b := by
  constructor
  · intro h
    match x, h with
    | Except.ok (Except.ok a), h => exact ⟨a, rfl, h⟩
    | Except.ok (Except.error e), h => cases h
    | Except.error e, h => cases h
  · rintro ⟨a, rfl, h⟩
    rwa [pure_bind]

theorem liftM_eq_pure {x : Checked α} {a : α} : (liftM x : Attempt α) = pure a ↔ x = .ok a := by
  constructor
  · intro h
    match x, h with
    | .ok b, h => cases h; rfl
    | .error e, h => cases h
  · rintro rfl
    rfl

/-- The attempt ends, in a value of one kind or in an error of another, and does not fault. -/
def Ends (x : Attempt α) (value : α → Prop) (error : Error → Prop) : Prop :=
  (∃ a, x = pure a ∧ value a) ∨ ∃ e, x = fail e ∧ error e

section Ends

variable {x : Attempt α} {value : α → Prop} {result : β → Prop} {error error' : Error → Prop}

theorem Ends.bind {f : α → Attempt β} (hx : x.Ends value error)
    (hf : ∀ a, value a → (f a).Ends result error) : (x >>= f).Ends result error := by
  obtain ⟨a, rfl, ha⟩ | ⟨e, rfl, he⟩ := hx
  · rw [pure_bind]
    exact hf a ha
  · exact .inr ⟨e, rfl, he⟩

theorem Ends.imp_value {value' : α → Prop} (hx : x.Ends value error) (h : ∀ a, value a → value' a) :
    x.Ends value' error :=
  hx.imp_left fun ⟨a, hxa, ha⟩ => ⟨a, hxa, h a ha⟩

theorem Ends.imp_error (hx : x.Ends value error) (h : ∀ e, error e → error' e) : x.Ends value error' :=
  hx.imp_right fun ⟨e, hxe, he⟩ => ⟨e, hxe, h e he⟩

theorem ends_require {condition : Bool} {e : Error} (he : condition = false → error e) :
    (require condition e).Ends (fun _ => condition = true) error := by
  cases condition with
  | true => exact .inl ⟨(), rfl, rfl⟩
  | false => exact .inr ⟨e, rfl, he rfl⟩

theorem ends_of_exists (h : ∃ a, x = pure a ∧ value a) : x.Ends value error := .inl h

theorem ends_liftM {y : Checked α} (h : ∃ a, y = .ok a ∧ value a) :
    (liftM y : Attempt α).Ends value error := by
  obtain ⟨a, rfl, ha⟩ := h
  exact .inl ⟨a, rfl, ha⟩

end Ends

def Faults (x : Attempt α) : Prop := ∃ fault, x = liftM (Except.error fault : Checked α)

theorem Ends.not_faults {x : Attempt α} {value : α → Prop} {error : Error → Prop} (hx : x.Ends value error) :
    ¬x.Faults := by
  rintro ⟨fault, hfault⟩
  obtain ⟨a, ha, -⟩ | ⟨e, he, -⟩ := hx
  · cases ha.symm.trans hfault
  · cases he.symm.trans hfault

theorem Faults.bind {x : Attempt α} (hx : x.Faults) (f : α → Attempt β) : (x >>= f).Faults := by
  obtain ⟨fault, rfl⟩ := hx
  exact ⟨fault, liftM_error_bind fault f⟩

theorem faults_liftM {x : Checked α} (h : ∀ a, x ≠ .ok a) : (liftM x : Attempt α).Faults := by
  cases x with
  | ok a => exact (h a rfl).elim
  | error fault => exact ⟨fault, rfl⟩

end LatticeGates.Attempt
