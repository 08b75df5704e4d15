import LatticeGates.Stream.Uniform
import LatticeGates.Stream.Ziggurat

/-!
# Rounded Gaussian draws

A standard normal float by the ziggurat method, scaled, cut off at six standard deviations and rounded.
-/

namespace LatticeGates

namespace Ziggurat

def openUnit (s : Stream) : Float × Stream :=
  let (w, s) := s.next64
  (Float.ofBits ((0x3ff0000000000000 : UInt64) ||| w >>> 12) - (1.0 - 1.1102230246251565e-16), s)

def tailFrom : Nat → (x y : Float) → Draw Float
  | 0, _, _, _ => .error .exhausted
  | fuel + 1, x, y, s =>
    if -2.0 * y < x * x then
      let (a, s) := openUnit s
      let (b, s) := openUnit s
      tailFrom fuel (a.log / tail) b.log s
    else .ok (x, s)

def normalFrom : Nat → Draw Float
  | 0, _ => .error .exhausted
  | fuel + 1, s =>
    let (bits, s) := s.next64
    let i := (bits &&& 0xff).toNat
    let u := Float.ofBits ((0x4000000000000000 : UInt64) ||| bits >>> 12) - 3.0
    let x := u * edges.getD i 0
    if x.abs < edges.getD (i + 1) 0 then .ok (x, s)
    else if i = 0 then
      match tailFrom Stream.attempts 1.0 0.0 s with
      | .ok (t, s) => .ok (if u < 0 then t - tail else tail - t, s)
      | .error e => .error e
    else
      let (w, s) := s.next64
      let low := heights.getD i 0
      let high := heights.getD (i + 1) 0
      let level := high + (low - high) * ((w >>> 11).toFloat * 1.1102230246251565e-16)
      if level < (-x * x / 2.0).exp then .ok (x, s) else normalFrom fuel s

def normal : Draw Float := normalFrom Stream.attempts

end Ziggurat

namespace Stream

/-- The cut-off, in standard deviations. -/
def sixSigma : Float := 6.0

def gaussianBound (sigma : Float) : Float := sixSigma * sigma

def gaussianFrom (sigma bound : Float) : Nat → Draw Int
  | 0, _ => .error .exhausted
  | fuel + 1, s =>
    match Ziggurat.normal s with
    | .ok (z, s) =>
      let x := sigma * z
      if x.abs ≤ bound then .ok (x.round.toInt64.toInt, s) else gaussianFrom sigma bound fuel s
    | .error e => .error e

/-- A rounded Gaussian integer within six standard deviations. Below zero there is no such integer, and the
search for one is not begun. -/
def gaussian (sigma : Float) : Draw Int :=
  let bound := gaussianBound sigma
  if 0 ≤ bound then gaussianFrom sigma bound attempts else fun _ => .error .exhausted

def gaussians (sigma : Float) (n : Nat) : Draw (Array Int) := replicate n (gaussian sigma)

theorem size_of_gaussians {sigma : Float} {n : Nat} {s t : Stream} {r : Array Int}
    (h : gaussians sigma n s = .ok (r, t)) : r.size = n :=
  (replicate_entries (P := fun _ => True) (fun _ _ _ _ => trivial) h).1

end Stream

end LatticeGates
