import LatticeGates.Modulus
import LatticeGates.Stream.Basic

/-!
# Uniform draws

A value below a bound is the first word of the stream that falls below it once masked.
-/

namespace LatticeGates.Stream

def rejectFrom (max : Nat) (mask : UInt64) : Nat → Draw Nat
  | 0, _ => .error .exhausted
  | fuel + 1, s =>
    let (w, s) := s.next64
    let x := (w &&& mask).toNat
    if x < max then .ok (x, s) else rejectFrom max mask fuel s

/-- The first masked word below `max`. The search is given up after a period of the stream, as it would not
end. -/
def below (max : Nat) (mask : UInt64) : Draw Nat := rejectFrom max mask period

theorem lt_of_rejectFrom {max : Nat} {mask : UInt64} :
    ∀ (fuel : Nat) {s t : Stream} {x : Nat}, rejectFrom max mask fuel s = .ok (x, t) → x < max
  | 0, _, _, _, h => by cases h
  | fuel + 1, s, t, x, h => by
    simp only [rejectFrom] at h
    split at h
    · rename_i hlt
      cases h
      exact hlt
    · exact lt_of_rejectFrom fuel h

theorem lt_of_below {max : Nat} {mask : UInt64} {s t : Stream} {x : Nat}
    (h : below max mask s = .ok (x, t)) : x < max :=
  lt_of_rejectFrom period h

/-- The fewest low bits, one at least, that hold every residue modulo `q`. -/
def maskOf (q : Nat) : UInt64 := UInt64.ofNat (1 <<< max 1 (Word.bitLength (q - 1)) - 1)

def uniform (q : Nat) : Draw Nat := fun s => do
  let _ ← Word.sub q 1
  below q (maskOf q) s

def residues (q : Modulus) (n : Nat) : Draw (Array Nat) :=
  let mask := maskOf q.value
  replicate n (below q.value mask)

theorem residues_entries {q : Modulus} {n : Nat} {s t : Stream} {r : Array Nat}
    (h : residues q n s = .ok (r, t)) : r.size = n ∧ ∀ x ∈ r, x < q.value :=
  replicate_entries (fun _ _ _ => lt_of_below) h

def ternary : Draw Int := fun s => do
  let (x, s) ← below 3 3 s
  return ((x : Int) - 1, s)

def ternaries (n : Nat) : Draw (Array Int) := replicate n ternary

theorem natAbs_le_of_ternary {s t : Stream} {x : Int} (h : ternary s = .ok (x, t)) :
    x.natAbs ≤ 1 := by
  unfold ternary at h
  cases hx : below 3 3 s with
  | error e => simp [hx, bind, Except.bind] at h
  | ok r =>
    simp only [hx, bind, Except.bind, pure, Except.pure, Except.ok.injEq, Prod.mk.injEq] at h
    have := lt_of_below hx
    omega

theorem ternaries_entries {n : Nat} {s t : Stream} {r : Array Int}
    (h : ternaries n s = .ok (r, t)) : r.size = n ∧ ∀ x ∈ r, x.natAbs ≤ 1 :=
  replicate_entries (fun _ _ _ => natAbs_le_of_ternary) h

/-- A uniform float between two bounds, from 53 bits. -/
def float (min max : Float) (s : Stream) : Float × Stream :=
  let (w, s) := s.next64
  (min + ((w <<< 11) >>> 11).toFloat / 9007199254740992.0 * (max - min), s)

end LatticeGates.Stream
