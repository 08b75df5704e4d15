import LatticeGates.Params.Profile

/-!
# Errors

What the library refuses: arguments outside their range and keys that are missing.
-/

namespace LatticeGates

structure Shape where
  dimension : Nat
  modulus : Nat
  deriving DecidableEq, Repr

inductive Error where
  | unsupportedMethod (method : Method)
  | unsupportedProfile (profile : Profile)
  | unknownProfile (name : String)
  | modulusOutOfRange (bits : Nat)
  | invalidRingDimension (n : Nat)
  | invalidRingModulus (modulus twoN : Nat)
  | dimensionMismatch (expected found : Shape)
  | invalidModulus (p : Nat)
  | functionRange (input output modulus : Nat)
  | incompleteShares (expected received leads : Nat)
  | missingBootstrapKey (base : Nat)
  | missingSwitchingKey
  | unsupportedSecret
  | tableSize (expected found : Nat)
  | invalidRoundBits (bits max : Nat)
  | precisionOutOfRange (modulus min max : Nat)
  | functionModulusTooLarge (q ringDimension : Nat)
  deriving DecidableEq, Repr

def Error.message : Error → String
  | .unsupportedMethod m =>
    s!"unsupported bootstrapping method {m.name}: CGGI is the only supported method"
  | .unsupportedProfile p =>
    s!"unsupported security profile {p.name}: STD128 and TOY are the only supported sets"
  | .unknownProfile name => s!"unknown parameter set: {name}"
  | .modulusOutOfRange bits => s!"logQ={bits} is out of range [11, 29]"
  | .invalidRingDimension n => s!"ring dimension {n} is not a power of two"
  | .invalidRingModulus q twoN =>
    s!"ring modulus {q} is not a prime congruent to 1 mod 2N={twoN}"
  | .dimensionMismatch ⟨n, q⟩ ⟨m, p⟩ =>
    s!"dimension mismatch: expected (n={n}, modulus={q}), got (n={m}, modulus={p})"
  | .invalidModulus p => s!"invalid plaintext modulus {p}"
  | .functionRange x y p => s!"function output {y} at input {x} is outside Z_{p}"
  | .incompleteShares expected received leads =>
    s!"incomplete decryption shares: expected {expected} with one lead share, " ++
      s!"received {received} ({leads} lead)"
  | .missingBootstrapKey base =>
    s!"no bootstrapping key for gadget base {base}; run the bootstrapping key generation first"
  | .missingSwitchingKey =>
    "no key-switching key; run the bootstrapping key generation first"
  | .unsupportedSecret => "CGGI bootstrapping requires a ternary LWE secret"
  | .tableSize expected found => s!"lookup table has {found} entries, expected {expected}"
  | .invalidRoundBits bits max => s!"roundbits={bits} is out of range [0, {max}]"
  | .precisionOutOfRange m min max =>
    s!"ciphertext modulus {m} is outside [{min}, {max}] or not a power of two"
  | .functionModulusTooLarge q n =>
    s!"arbitrary function evaluation requires q={q} <= N={n}"

/-- A value, an error, or a fault met on the way. -/
abbrev Attempt (α : Type) := ExceptT Error Checked α

namespace Attempt

@[inline] def fail {α : Type} (e : Error) : Attempt α := ExceptT.mk (.ok (.error e))

@[inline] def require (condition : Bool) (e : Error) : Attempt Unit :=
  if condition then pure () else fail e

end Attempt

end LatticeGates
