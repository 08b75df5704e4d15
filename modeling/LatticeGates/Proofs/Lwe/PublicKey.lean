import LatticeGates.Lwe.PublicKey
import LatticeGates.Proofs.Lwe.Decryption

/-!
# Shares of a public key

Main statement: adding the share of a secret to a public key adds the inner products of the rows with the
secret, and the errors, to its vector. The matrix stays.
-/

namespace LatticeGates

/-- Errors that a stream holds next. -/
structure Noise (n : ℕ) where
  sigma : Float
  source : Stream
  errors : Array ℤ
  rest : Stream
  drawn : Stream.gaussians sigma n source = .ok (errors, rest)

variable {n : ℕ}

theorem Noise.size_eq (e : Noise n) : e.errors.size = n := Stream.size_of_gaussians e.drawn

def Noise.at (e : Noise n) (i : ℕ) : ℤ := e.errors.getD i 0

namespace Lwe.PublicKey

open Finset

variable {q : Modulus} {matrix : Array (Array ℕ)} {pk pk' : PublicKey} {v : ℕ → ZMod q.value}
  {z : Secret}

structure Square (q : Modulus) (n : ℕ) (matrix : Array (Array ℕ)) : Prop where
  size_eq : matrix.size = n
  rows : ∀ row ∈ matrix, q.Reduced n row

theorem square_of_replicate {s t : Stream}
    (h : Stream.replicate n (Stream.residues q n) s = .ok (matrix, t)) : Square q n matrix :=
  ⟨(Modulus.reduced_of_replicate h).1, (Modulus.reduced_of_replicate h).2⟩

/-- A public key with a given matrix, whose vector is known modulo `q`. -/
structure Sums (q : Modulus) (n : ℕ) (matrix : Array (Array ℕ)) (pk : PublicKey)
    (v : ℕ → ZMod q.value) : Prop where
  matrix_eq : pk.matrix = matrix
  modulus_eq : pk.modulus = q.value
  reduced : q.Reduced n pk.vector
  entries : ∀ i < n, q.entries pk.vector i = v i

theorem Sums.ext (h : Sums q n matrix pk v) (h' : Sums q n matrix pk' v) : pk = pk' := by
  obtain ⟨A, u, m⟩ := pk
  obtain ⟨A', u', m'⟩ := pk'
  have hA : A = A' := h.matrix_eq.trans h'.matrix_eq.symm
  have hm : m = m' := h.modulus_eq.trans h'.modulus_eq.symm
  have hu : u = u' := h.reduced.ext h'.reduced fun i hi => (h.entries i hi).trans (h'.entries i hi).symm
  rw [hA, hm, hu]

/-- What the share of a secret adds to entry `i` of the vector. -/
def share (q : Modulus) (matrix : Array (Array ℕ)) (z : Secret) (e : Noise n) (i : ℕ) : ZMod q.value :=
  ∑ j ∈ range n, q.entries (matrix.getD i #[]) j * z.coefficient j + e.at i

private theorem exists_products (hmatrix : Square q n matrix) (hdim : z.dimension = n)
    (hrange : ∀ row ∈ matrix, z.InRange row) :
    ∃ r, mapChecked (z.dot q) matrix = .ok r ∧ q.Reduced n r ∧ ∀ i < n,
      q.entries r i = ∑ j ∈ range n, q.entries (matrix.getD i #[]) j * z.coefficient j := by
  refine Modulus.exists_tabulate_residues hmatrix.size_eq fun i hi => ?_
  have hrow := Array.getElem_mem hi
  refine ⟨_, (hrange _ hrow).dot_eq ((hmatrix.rows _ hrow).size_eq.trans hdim.symm),
    Modulus.ofInt_lt _, ?_⟩
  rw [Modulus.cast_ofInt, hdim, ← Array.getElem_eq_getD (h := hi)]
  push_cast
  rfl

theorem Sums.exists_accumulate (h : Sums q n matrix pk v) (hmatrix : Square q n matrix)
    (hdim : z.dimension = n) (hrange : ∀ row ∈ matrix, z.InRange row) (e : Noise n) :
    ∃ pk', pk.accumulate z e.sigma e.source = .ok (pk', e.rest) ∧
      Sums q n matrix pk' (v + share q matrix z e) := by
  obtain ⟨A, u, modulus⟩ := pk
  obtain ⟨rfl, rfl, hu, hv⟩ := h
  obtain ⟨products, hproducts, hreduced, hentries⟩ := exists_products hmatrix hdim hrange
  obtain ⟨noisy, hnoisy, hnoisyReduced, hnoisyEntries⟩ := Modulus.exists_addSigned hreduced e.size_eq
  obtain ⟨next, hnext, hnextReduced, hnextEntries⟩ := Modulus.exists_addVector hu hnoisyReduced
  have hsize : (z.dimension == n) = true := beq_iff_eq.2 hdim
  refine ⟨⟨A, next, q.value⟩, ?_, ⟨rfl, rfl, hnextReduced, fun i hi => ?_⟩⟩
  · simp [accumulate, addShare, dimension, hsize, Modulus.check_value, hu.size_eq, e.drawn, hproducts,
      hnoisy, hnext]
  · rw [hnextEntries i hi, hnoisyEntries i hi, hentries i hi, hv i hi]
    rfl

theorem exists_generate {masks rest : Stream} (hcapacity : Word.checkLength (n * n) = .ok ())
    (hdrawn : Stream.replicate n (Stream.residues q n) masks = .ok (matrix, rest))
    (hdim : z.dimension = n) (hrange : ∀ row ∈ matrix, z.InRange row) (e : Noise n) :
    ∃ pk, generate z q.value e.sigma masks e.source = .ok (pk, rest, e.rest) ∧
      Sums q n matrix pk (share q matrix z e) := by
  have hstart : Sums q n matrix ⟨matrix, Array.replicate n 0, q.value⟩ 0 :=
    ⟨rfl, rfl, Modulus.reduced_replicate, fun i _ => Modulus.entries_replicate i⟩
  obtain ⟨pk, hpk, hsums⟩ :=
    hstart.exists_accumulate (square_of_replicate hdrawn) hdim hrange e
  rw [zero_add] at hsums
  exact ⟨pk, by simp [generate, hdim, hcapacity, Modulus.check_value, hdrawn, hpk], hsums⟩

end Lwe.PublicKey

end LatticeGates
