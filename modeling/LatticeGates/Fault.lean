/-!
# Faults

A fault is a computation that left its defined range: a machine word overflowed, an index was out of
bounds, or a stated requirement on the arguments failed. Requirements with a wording of their own
carry the values that the wording shows.
-/

namespace LatticeGates

inductive Fault where
  | overflow
  | divisionByZero
  | outOfBounds
  | shapeMismatch
  | exhausted
  | invalidModulus (q : Nat)
  | invalidLogBase (logBase : Nat)
  | invalidDimension (n : Nat)
  | invalidOrder (m : Nat)
  | orderNotDividing (m predecessor : Nat)
  | invalidGadgetBase (base : Nat)
  | secretNotTernary
  | domainNotDividing (domain twoN : Nat)
  | modulusNotDividing (divisor modulus : Nat)
  deriving Repr, DecidableEq

def Fault.message : Fault → Option String
  | .overflow | .divisionByZero | .outOfBounds | .shapeMismatch | .exhausted => none
  | .invalidModulus q => some s!"invalid modulus: {q}"
  | .invalidLogBase k => some s!"invalid log_base: {k}"
  | .invalidDimension n => some s!"n must be a power of two but is {n}"
  | .invalidOrder m => some s!"m must be a power of two but is {m}"
  | .orderNotDividing m p => some s!"m={m} does not divide q-1={p}"
  | .invalidGadgetBase b => some s!"gadget base {b} is not a power of two"
  | .secretNotTernary => some "CGGI requires a ternary LWE secret"
  | .domainNotDividing d n => some s!"domain={d} must divide 2N={n}"
  | .modulusNotDividing d m => some s!"{d} does not divide {m}"

/-- A value, or the fault met while computing it. -/
abbrev Checked := Except Fault

@[inline] def ensure (condition : Bool) (fault : Fault) : Checked Unit :=
  if condition then .ok () else .error fault

@[simp] theorem ensure_true (fault : Fault) : ensure true fault = .ok () := rfl

@[simp] theorem ensure_false (fault : Fault) : ensure false fault = .error fault := rfl

end LatticeGates
