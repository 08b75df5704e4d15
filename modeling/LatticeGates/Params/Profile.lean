import LatticeGates.Lwe.Secret

/-!
# The catalogue of parameter sets

Every profile has a name and a row of values from which parameters are resolved.
-/

namespace LatticeGates

/-- How a bootstrap accumulates the phase. -/
inductive Method where
  | ap
  | ginx
  | lmkcdey
  deriving DecidableEq, Repr

def Method.name : Method → String
  | .ap => "Ap"
  | .ginx => "Ginx"
  | .lmkcdey => "Lmkcdey"

inductive Profile where
  | toy
  | medium
  | std128Lmkcdey
  | std128Ap
  | std128Apopt
  | std128
  | std128Opt
  | std192
  | std192Opt
  | std256
  | std256Opt
  | std128Q
  | std128QOpt
  | std192Q
  | std192QOpt
  | std256Q
  | std256QOpt
  | signedModTest
  deriving DecidableEq, Repr

namespace Profile

def all : List Profile :=
  [toy, medium, std128Lmkcdey, std128Ap, std128Apopt, std128, std128Opt, std192, std192Opt, std256,
    std256Opt, std128Q, std128QOpt, std192Q, std192QOpt, std256Q, std256QOpt, signedModTest]

def name : Profile → String
  | toy => "TOY"
  | medium => "MEDIUM"
  | std128Lmkcdey => "STD128_LMKCDEY"
  | std128Ap => "STD128_AP"
  | std128Apopt => "STD128_APOPT"
  | std128 => "STD128"
  | std128Opt => "STD128_OPT"
  | std192 => "STD192"
  | std192Opt => "STD192_OPT"
  | std256 => "STD256"
  | std256Opt => "STD256_OPT"
  | std128Q => "STD128Q"
  | std128QOpt => "STD128Q_OPT"
  | std192Q => "STD192Q"
  | std192QOpt => "STD192Q_OPT"
  | std256Q => "STD256Q"
  | std256QOpt => "STD256Q_OPT"
  | signedModTest => "SIGNED_MOD_TEST"

/-- The profile of that name, in upper or lower case letters of ASCII. -/
def ofName? (s : String) : Option Profile :=
  all.find? fun p => p.name.toList.map Char.toLower == s.toList.map Char.toLower

/-- A row of the catalogue. Without a switching modulus, the ring modulus serves as one. -/
structure Row where
  bits : Nat
  order : Nat
  dimension : Nat
  modulus : Nat
  switchingModulus : Option Nat
  switchingBase : Nat
  gadgetBase : Nat
  refreshBase : Nat
  distribution : Distribution

def row : Profile → Row
  | toy => ⟨27, 1024, 64, 512, none, 25, 1 <<< 9, 23, .ternary⟩
  | medium => ⟨28, 2048, 422, 1024, some (1 <<< 14), 1 <<< 7, 1 <<< 10, 32, .ternary⟩
  | std128Lmkcdey => ⟨28, 2048, 458, 1024, some (1 <<< 14), 1 <<< 7, 1 <<< 10, 32, .gaussian⟩
  | std128Ap => ⟨27, 2048, 512, 1024, some (1 <<< 14), 1 <<< 7, 1 <<< 9, 32, .ternary⟩
  | std128Apopt => ⟨27, 2048, 502, 1024, some (1 <<< 14), 1 <<< 7, 1 <<< 9, 32, .ternary⟩
  | std128 => ⟨27, 2048, 512, 1024, some (1 <<< 14), 1 <<< 7, 1 <<< 7, 32, .ternary⟩
  | std128Opt => ⟨27, 2048, 502, 1024, some (1 <<< 14), 1 <<< 7, 1 <<< 7, 32, .ternary⟩
  | std192 => ⟨37, 4096, 1024, 1024, some (1 <<< 19), 28, 1 <<< 13, 32, .ternary⟩
  | std192Opt => ⟨37, 4096, 805, 1024, some (1 <<< 15), 32, 1 <<< 13, 32, .ternary⟩
  | std256 => ⟨29, 4096, 1024, 2048, some (1 <<< 14), 1 <<< 7, 1 <<< 8, 46, .ternary⟩
  | std256Opt => ⟨29, 4096, 990, 2048, some (1 <<< 14), 1 <<< 7, 1 <<< 8, 46, .ternary⟩
  | std128Q => ⟨50, 4096, 1024, 1024, some (1 <<< 25), 32, 1 <<< 25, 32, .ternary⟩
  | std128QOpt => ⟨50, 4096, 585, 1024, some (1 <<< 15), 32, 1 <<< 25, 32, .ternary⟩
  | std192Q => ⟨35, 4096, 1024, 1024, some (1 <<< 17), 64, 1 <<< 12, 32, .ternary⟩
  | std192QOpt => ⟨35, 4096, 875, 1024, some (1 <<< 15), 32, 1 <<< 12, 32, .ternary⟩
  | std256Q => ⟨27, 4096, 2048, 2048, some (1 <<< 16), 16, 1 <<< 7, 46, .ternary⟩
  | std256QOpt => ⟨27, 4096, 1225, 1024, some (1 <<< 16), 16, 1 <<< 7, 32, .ternary⟩
  | signedModTest => ⟨28, 2048, 512, 1024, none, 25, 1 <<< 7, 23, .ternary⟩

end Profile

end LatticeGates
