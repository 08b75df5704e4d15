import LatticeGates.Fault
import LatticeGates.Stream.ChaCha

/-!
# Streams of random words

A stream is the endless sequence of keystream words of its seed. Every draw takes words from its front;
a branch is a stream whose seed is drawn from another one.
-/

namespace LatticeGates

structure Stream where
  key : ChaCha.Key
  /-- The counter of the first block not yet begun. -/
  counter : UInt64
  /-- The words left of the block before it. -/
  pending : List UInt32
  pending_lt : pending.length < 16
  deriving DecidableEq

/-- A value drawn from a stream, and what is left of the stream. -/
abbrev Draw (α : Type) := Stream → Checked (α × Stream)

namespace Stream

def atBlock (key : ChaCha.Key) (counter : UInt64) : Stream := ⟨key, counter, [], by decide⟩

def ofKey (key : ChaCha.Key) : Stream := atBlock key 0

/-- The little-endian word at byte `i`. -/
def wordAt (bytes : Array UInt8) (i : Nat) : UInt32 :=
  let b (k : Nat) : UInt32 := (bytes.getD (i + k) 0).toUInt32
  b 0 ||| b 1 <<< 8 ||| b 2 <<< 16 ||| b 3 <<< 24

/-- The stream of a seed of 32 bytes. -/
def ofSeed (seed : Array UInt8) : Stream :=
  let w (i : Nat) := wordAt seed (4 * i)
  ofKey ⟨w 0, w 1, w 2, w 3, w 4, w 5, w 6, w 7⟩

private theorem length_lt_of_pending {s : Stream} {w : UInt32} {rest : List UInt32}
    (h : s.pending = w :: rest) : rest.length < 16 := by
  have := s.pending_lt
  rw [h, List.length_cons] at this
  omega

def next32 (s : Stream) : UInt32 × Stream :=
  match h : s.pending with
  | w :: rest => (w, ⟨s.key, s.counter, rest, length_lt_of_pending h⟩)
  | [] =>
    let words := ChaCha.block s.key s.counter
    (words.headD 0, ⟨s.key, s.counter + 1, words.tail, by simp [words]⟩)

/-- Two words, the low half first. -/
@[inline] def next64 (s : Stream) : UInt64 × Stream :=
  let (low, s) := s.next32
  let (high, s) := s.next32
  (low.toUInt64 ||| high.toUInt64 <<< 32, s)

def words : (n : Nat) → Stream → List UInt32 × Stream
  | 0, s => ([], s)
  | n + 1, s =>
    let (w, s) := s.next32
    let (ws, s) := words n s
    (w :: ws, s)

def bytesOfWord (w : UInt32) : List UInt8 :=
  [w.toUInt8, (w >>> 8).toUInt8, (w >>> 16).toUInt8, (w >>> 24).toUInt8]

/-- The next `n` bytes; what is left of the last word is dropped. -/
def bytes (n : Nat) (s : Stream) : Array UInt8 × Stream :=
  let (ws, s) := s.words ((n + 3) / 4)
  (((ws.flatMap bytesOfWord).take n).toArray, s)

def seed (s : Stream) : Array UInt8 × Stream := s.bytes 32

/-- A stream seeded from this one, and what is left of this one. -/
def branch (s : Stream) : Stream × Stream :=
  let (seed, s) := s.seed
  (ofSeed seed, s)

@[specialize] def collectFrom {α : Type} {n : Nat} (draw : (i : Nat) → i < n → Draw α) :
    (k i : Nat) → i + k = n → Array α → Draw (Array α)
  | 0, _, _, acc, s => .ok (acc, s)
  | k + 1, i, h, acc, s =>
    match draw i (by omega) s with
    | .ok (x, s) => collectFrom draw k (i + 1) (by omega) (acc.push x) s
    | .error e => .error e

/-- One draw for every index below `n`, in order. -/
@[inline] def collect {α : Type} (n : Nat) (draw : (i : Nat) → i < n → Draw α) : Draw (Array α) :=
  collectFrom draw n 0 (Nat.zero_add n) (Array.emptyWithCapacity n)

@[inline] def replicate {α : Type} (n : Nat) (draw : Draw α) : Draw (Array α) :=
  collect n fun _ _ => draw

private theorem collectFrom_entries {α : Type} {n : Nat} {draw : (i : Nat) → i < n → Draw α}
    {P : Nat → α → Prop} (hdraw : ∀ i h s x t, draw i h s = .ok (x, t) → P i x) :
    ∀ (k i : Nat) (h : i + k = n) (acc : Array α) (s : Stream) {r : Array α} {t : Stream}
      (_ : acc.size = i) (_ : ∀ (j : Nat) (hj : j < acc.size), P j acc[j]),
      collectFrom draw k i h acc s = .ok (r, t) →
      r.size = n ∧ ∀ (j : Nat) (hj : j < r.size), P j r[j]
  | 0, i, h, acc, s, r, t, hsize, hacc, heq => by
    simp only [collectFrom, Except.ok.injEq, Prod.mk.injEq] at heq
    obtain ⟨rfl, -⟩ := heq
    exact ⟨by omega, hacc⟩
  | k + 1, i, h, acc, s, r, t, hsize, hacc, heq => by
    rw [collectFrom] at heq
    split at heq
    · rename_i x s' hx
      refine collectFrom_entries hdraw k (i + 1) (by omega) _ s' (by simp [hsize]) ?_ heq
      intro j hj
      rw [Array.getElem_push]
      split
      · exact hacc j _
      · have : j = i := by
          rw [Array.size_push] at hj
          omega
        exact this ▸ hdraw i _ s x s' hx
    · cases heq

/-- A collection has one entry for every index, and each is what its draw can return. -/
theorem collect_entries {α : Type} {n : Nat} {draw : (i : Nat) → i < n → Draw α}
    {P : Nat → α → Prop} (hdraw : ∀ i h s x t, draw i h s = .ok (x, t) → P i x) {s t : Stream}
    {r : Array α} (heq : collect n draw s = .ok (r, t)) :
    r.size = n ∧ ∀ (j : Nat) (hj : j < r.size), P j r[j] :=
  collectFrom_entries hdraw n 0 _ _ s (by simp) (by simp) heq

theorem replicate_entries {α : Type} {n : Nat} {draw : Draw α} {P : α → Prop}
    (hdraw : ∀ s x t, draw s = .ok (x, t) → P x) {s t : Stream} {r : Array α}
    (heq : replicate n draw s = .ok (r, t)) : r.size = n ∧ ∀ x ∈ r, P x := by
  obtain ⟨hsize, hr⟩ := collect_entries (P := fun _ => P) (fun _ _ => hdraw) heq
  refine ⟨hsize, fun x hx => ?_⟩
  obtain ⟨j, hj, rfl⟩ := Array.mem_iff_getElem.1 hx
  exact hr j hj

theorem replicate_getD {α : Type} {n : Nat} {draw : Draw α} {P : α → Prop} {s t : Stream} {r : Array α}
    (default : α) (hdraw : ∀ s x t, draw s = .ok (x, t) → P x) (heq : replicate n draw s = .ok (r, t))
    {i : Nat} (hi : i < n) : P (r.getD i default) := by
  obtain ⟨hsize, hr⟩ := replicate_entries hdraw heq
  have hi : i < r.size := hsize ▸ hi
  rw [← Array.getElem_eq_getD (h := hi)]
  exact hr _ (Array.getElem_mem hi)

/-- How often a draw by rejection is tried. -/
def attempts : Nat := 0x4000000000000000

/-- The number of words after which a stream repeats itself: it has `2 ^ 64` blocks of sixteen words. -/
def period : Nat := 0x100000000000000000

end Stream

end LatticeGates
