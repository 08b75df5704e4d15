import LatticeGates.Proofs.Gadget.Phases
import LatticeGates.Proofs.KeyStore.Generation
import LatticeGates.Proofs.Lwe.Generation
import LatticeGates.Proofs.Params.Resolution

/-!
# A generation of keys ends when its draws do

Main statements: a rotation key for a ternary secret is made from any streams that last for its draws, and so
are the keys of a store. What the errors are makes no difference.
-/

namespace LatticeGates

theorem Stream.exists_chain {α : Type} {n : ℕ} {draw : Draw α} {s t : Stream} {r : Array α}
    (h : replicate n draw s = .ok (r, t)) :
    ∃ x : ℕ → Stream, x 0 = s ∧ x n = t ∧ ∀ i < n, ∃ a, draw (x i) = .ok (a, x (i + 1)) := by
  have run (k : ℕ) : ∀ (i : ℕ) (hi : i + k = n) (acc : Array α) (s : Stream),
      collectFrom (fun _ _ => draw) k i hi acc s = .ok (r, t) →
      ∃ x : ℕ → Stream, x 0 = s ∧ x k = t ∧ ∀ i < k, ∃ a, draw (x i) = .ok (a, x (i + 1)) := by
    induction k with
    | zero =>
      intro i hi acc s h
      cases h
      exact ⟨fun _ => t, rfl, rfl, fun i hi => (Nat.not_lt_zero i hi).elim⟩
    | succ k ih =>
      intro i hi acc s h
      rw [collectFrom] at h
      split at h
      · rename_i a s' ha
        obtain ⟨x, rfl, hlast, hx⟩ := ih (i + 1) (by omega) _ s' h
        refine ⟨fun j => Nat.casesOn j s x, rfl, hlast, fun j hj => ?_⟩
        cases j with
        | zero => exact ⟨a, ha⟩
        | succ j => exact hx j (Nat.lt_of_succ_lt_succ hj)
      · cases h
  exact run n 0 (Nat.zero_add n) _ s h

theorem Lwe.Secret.ternary_of_isTernary {sk : Secret} (h : sk.isTernary = .ok true) : sk.Ternary := by
  have run (xs : List ℤ) : allTernary xs = .ok true → ∀ x ∈ xs, x.natAbs ≤ 1 := by
    induction xs with
    | nil => exact fun _ x hx => (List.not_mem_nil hx).elim
    | cons x xs ih =>
      intro h
      obtain ⟨magnitude, hmagnitude, h⟩ := Checked.bind_eq_ok.1 h
      obtain rfl : magnitude = x.natAbs := by
        unfold Signed.check at hmagnitude
        split at hmagnitude
        · cases hmagnitude
          rfl
        · cases hmagnitude
      split at h
      · rename_i hsmall
        exact List.forall_mem_cons.2 ⟨by omega, ih h⟩
      · cases h
  exact fun x hx => run _ h x (Array.mem_toList_iff.2 hx)

theorem Lwe.Secret.ternary_of_generate {n : ℕ} {sigma : Float} {source rest : Stream} {z : Secret}
    (h : generate n .ternary sigma source = .ok (z, rest)) : z.dimension = n ∧ z.Ternary := by
  obtain ⟨_, -, h⟩ := Checked.bind_eq_ok.1 h
  obtain ⟨⟨xs, _⟩, hxs, h⟩ := Checked.bind_eq_ok.1 h
  cases h
  exact Stream.ternaries_entries hxs

namespace BlindRotation

variable {sk : Lwe.Secret} {x y : ℕ → Stream}

theorem exists_encryptBlock {encrypt : ℤ → Stream → Stream → Checked (Rgsw × Stream × Stream)}
    (hsk : sk.isTernary = .ok true)
    (h : ∀ i < 2 * sk.dimension, ∀ m, ∃ r, encrypt m (x i) (y i) = .ok (r, x (i + 1), y (i + 1))) :
    ∃ block, encryptBlock sk encrypt (x 0) (y 0) =
      .ok (block, x (2 * sk.dimension), y (2 * sk.dimension)) := by
  have hround : ∀ i (hi : i < sk.coefficients.size) (acc : Array Pair × Stream × Stream),
      acc.2 = (x (2 * i), y (2 * i)) → ∃ next, (do
        let plus ← encrypt (ternarySplit sk.coefficients[i]).1 acc.2.1 acc.2.2
        let minus ← encrypt (ternarySplit sk.coefficients[i]).2 plus.2.1 plus.2.2
        return (acc.1.push ⟨plus.1, minus.1⟩, minus.2)) = (.ok next : Checked _) ∧
          next.2 = (x (2 * (i + 1)), y (2 * (i + 1))) := by
    rintro i hi ⟨pairs, _, _⟩ hacc
    cases hacc
    have hlt : 2 * i + 1 < 2 * sk.dimension := by
      unfold Lwe.Secret.dimension
      omega
    obtain ⟨plus, hplus⟩ := h (2 * i) (by omega) (ternarySplit sk.coefficients[i]).1
    obtain ⟨minus, hminus⟩ := h (2 * i + 1) hlt (ternarySplit sk.coefficients[i]).2
    simp only [hplus, hminus, Checked.ok_bind]
    exact ⟨_, rfl, rfl⟩
  have hstart : ((#[], x 0, y 0) : Array Pair × Stream × Stream).2 = (x (2 * 0), y (2 * 0)) := rfl
  obtain ⟨⟨block, _, _⟩, hblock, hrest⟩ := foldM_ok
    (fun i (acc : Array Pair × Stream × Stream) => acc.2 = (x (2 * i), y (2 * i))) hstart hround
  cases hrest
  rw [encryptBlock, hsk, Checked.ok_bind, ensure_true, Checked.ok_bind]
  exact ⟨block, hblock⟩

theorem Key.exists_generate {ring : NegacyclicRing} {hr : ring.Evaluates} {g : Gadget} {z : Rlwe.Secret}
    {Z : ring.Element} {sigma : Float} {masks masks' errors errors' : Stream}
    {maskRows : Array (Array Poly)} {errorRows : Array (Array (Array ℤ))} (hg : g.modulus = ring.modulus)
    (hz : ring.Takes z.values (NegacyclicRing.evalHom hr Z)) (hsk : sk.isTernary = .ok true)
    (hmasks : Stream.replicate (2 * sk.dimension) (Stream.replicate (2 * g.digits)
      (Stream.residues ring.modulus ring.degree)) masks = .ok (maskRows, masks'))
    (herrors : Stream.replicate (2 * sk.dimension) (Stream.replicate (2 * g.digits)
      (Stream.gaussians sigma ring.degree)) errors = .ok (errorRows, errors')) :
    ∃ key, generate ring g z sk sigma masks errors = .ok (key, masks', errors') := by
  obtain ⟨x, rfl, rfl, hx⟩ := Stream.exists_chain hmasks
  obtain ⟨y, rfl, rfl, hy⟩ := Stream.exists_chain herrors
  obtain ⟨block, hblock⟩ := exists_encryptBlock hsk fun i hi m => by
    obtain ⟨masks, hmasks⟩ := hx i hi
    obtain ⟨errors, herrors⟩ := hy i hi
    obtain ⟨r, hr, -⟩ := Rgsw.exists_encrypt hg (Rgsw.shaped_zero g.digits) hz m hmasks herrors
    exact ⟨r, hr⟩
  rw [generate, hblock]
  exact ⟨_, rfl⟩

end BlindRotation

namespace KeyStore

open Lwe.SwitchingKey (count drawEntry)

variable {params : Params} {ring : NegacyclicRing} {sk : Lwe.Secret} {mode : KeyMode} {store : KeyStore}
  {source rest : Stream} {drawn : Array Lwe.Sample}

theorem branchTasks_singleton (base : ℕ) (source : Stream) : branchTasks [base] source =
    ([(base, source.branch.1, source.branch.2.branch.1)], source.branch.2.branch.2) := by
  unfold branchTasks
  generalize source.branch = first
  obtain ⟨masks, source⟩ := first
  dsimp only
  generalize source.branch = second
  obtain ⟨errors, source⟩ := second
  rfl

theorem basesToMake_eq (hevery : params.everyBase = false) :
    store.basesToMake params = [store.activeBase] := by
  rw [basesToMake, hevery]
  rfl

/-- What the keys of a store ask of the parameters: the ring, and room for a switching key. -/
structure Supports (params : Params) (ring : NegacyclicRing) : Prop where
  ring_eq : NegacyclicRing.check params.lwe.ringDimension params.rgsw.ringModulus = .ok ring
  two_le_base : 2 ≤ params.lwe.switchingBase
  capacity : ∀ q, Modulus.check params.lwe.switchingModulus = .ok q →
    8 * (count q params.lwe.ringDimension params.lwe.switchingBase * (params.lwe.dimension + 1)) <
      0x8000000000000000

/-- The draws of a generation of keys for one base that publishes, in their order, with the entries drawn for
the switching key. -/
def drawKeys (params : Params) (q : Modulus) (base : ℕ) (source : Stream) :
    Checked (Array Lwe.Sample × Stream) := do
  let lwe := params.lwe
  let middle ← Modulus.check lwe.switchingModulus
  let gadget ← params.rgsw.gadgetFor base
  let (_, source) ← Lwe.Secret.generate lwe.ringDimension .ternary lwe.sigma source
  let entries := count middle lwe.ringDimension lwe.switchingBase
  let (drawn, masks) ← Stream.replicate entries (drawEntry middle lwe.dimension) source.branch.1
  let source := source.branch.2
  let (_, errors) ← Stream.gaussians lwe.sigma entries source.branch.1
  let source := source.branch.2
  let _ ← Stream.replicate lwe.ringDimension (Stream.residues q lwe.ringDimension) masks
  let _ ← Stream.gaussians lwe.sigma lwe.ringDimension errors
  let rows := 2 * gadget.digits
  let _ ← Stream.replicate (2 * lwe.dimension)
    (Stream.replicate rows (Stream.residues q lwe.ringDimension)) source.branch.1
  let source := source.branch.2
  let _ ← Stream.replicate (2 * lwe.dimension)
    (Stream.replicate rows (Stream.gaussians params.rgsw.sigma lwe.ringDimension)) source.branch.1
  return (drawn, source.branch.2)

section Draws

variable {middle : Modulus}

theorem Supports.room (h : Supports params ring)
    (hmiddle : Modulus.check params.lwe.switchingModulus = .ok middle) :
    params.lwe.ringDimension < 2 ^ 60 ∧ params.lwe.switchingBase ≤ 2 ^ 60 ∧
      params.lwe.dimension < 2 ^ 60 := by
  obtain ⟨-, -, -, hring⟩ := NegacyclicRing.check_shape h.ring_eq
  exact Lwe.SwitchingKey.HasRoom.bounds (h.capacity middle hmiddle) h.two_le_base (by omega)

variable {z : Lwe.Secret} {masks masks' : Stream}

private theorem exists_switching (h : Supports params ring)
    (hmiddle : Modulus.check params.lwe.switchingModulus = .ok middle) (hz : z.Ternary)
    (hzdim : z.dimension = params.lwe.ringDimension) (hsk : sk.Ternary)
    (hdim : sk.dimension = params.lwe.dimension)
    (hdrawn : Stream.replicate (count middle params.lwe.ringDimension params.lwe.switchingBase)
      (drawEntry middle params.lwe.dimension) masks = .ok (drawn, masks'))
    (e : Noise (count middle params.lwe.ringDimension params.lwe.switchingBase)) :
    ∃ key, Lwe.SwitchingKey.generate z sk params.lwe.switchingBase params.lwe.switchingModulus e.sigma masks
        e.source = .ok (key, masks', e.rest) ∧
      key.entries.map (·.mask) = drawn.map (·.mask) := by
  obtain ⟨-, hbase, hroom⟩ := h.room hmiddle
  have hwidth : params.lwe.dimension + 1 < Word.bound := by
    unfold Word.bound
    omega
  have hrange : ∀ mask ∈ drawn.map (·.mask), sk.InRange mask := by
    intro mask hmask
    have hreduced := (Lwe.SwitchingKey.masks_of_replicate hdrawn).reduced mask hmask
    rw [← hdim] at hreduced
    exact Lwe.Secret.inRange_of_natAbs_le hreduced hsk.natAbs_le (by omega)
  obtain ⟨key, hkey, hsums⟩ := Lwe.SwitchingKey.exists_generate h.two_le_base hwidth
    (h.capacity middle hmiddle) hdrawn hzdim hdim hrange
    (Lwe.SwitchingKey.messagesInRange_of_ternary hz (by omega)) e
  rw [Modulus.check_eq_ok.1 hmiddle] at hkey
  exact ⟨key, hkey, hsums.masks_eq⟩

private theorem exists_public {q : Modulus} {n : ℕ} {matrix : Array (Array ℕ)} (hz : z.Ternary)
    (hzdim : z.dimension = n) (hroom : n * n < 2 ^ 60)
    (hmatrix : Stream.replicate n (Stream.residues q n) masks = .ok (matrix, masks')) (e : Noise n) :
    ∃ pk, Lwe.PublicKey.generate z q.value e.sigma masks e.source = .ok (pk, masks', e.rest) := by
  have hrange : ∀ row ∈ matrix, z.InRange row := by
    intro row hrow
    have hreduced := (Lwe.PublicKey.square_of_replicate hmatrix).rows row hrow
    have hle : n ≤ n * n := Nat.le_mul_self n
    rw [← hzdim] at hreduced
    exact Lwe.Secret.inRange_of_natAbs_le hreduced hz.natAbs_le (by omega)
  obtain ⟨pk, hpk, -⟩ := Lwe.PublicKey.exists_generate (Word.checkLength_of_lt hroom) hmatrix hzdim hrange e
  exact ⟨pk, hpk⟩

/-- The keys for one base are made from a stream that lasts for them. A public key asks for a ring modulus
that both parts of the parameters agree on, and for room. -/
theorem exists_refresh (hsupports : Supports params ring)
    (hbases : store.basesToMake params = [store.activeBase]) (hternary : sk.isTernary = .ok true)
    (hdim : sk.dimension = params.lwe.dimension)
    (hpublic : mode = .publishing → params.lwe.ringModulus = params.rgsw.ringModulus ∧
      params.lwe.ringDimension * params.lwe.ringDimension < 2 ^ 60)
    (hdraws : drawKeys params ring.modulus store.activeBase source = .ok (drawn, rest)) :
    ∃ store' key, store.refresh params ring sk mode source = .ok (store', rest) ∧
      store'.switchingKey = some key ∧ key.entries.map (·.mask) = drawn.map (·.mask) := by
  obtain ⟨hdegree, hvalue, -, -⟩ := NegacyclicRing.check_shape hsupports.ring_eq
  obtain ⟨middle, hmiddle, hdraws⟩ := Checked.bind_eq_ok.1 hdraws
  obtain ⟨gadget, hgadget, hdraws⟩ := Checked.bind_eq_ok.1 hdraws
  obtain ⟨⟨z, afterSecret⟩, hz, hdraws⟩ := Checked.bind_eq_ok.1 hdraws
  obtain ⟨⟨entries, masks⟩, hentries, hdraws⟩ := Checked.bind_eq_ok.1 hdraws
  obtain ⟨⟨entryErrors, errors⟩, hentryErrors, hdraws⟩ := Checked.bind_eq_ok.1 hdraws
  obtain ⟨⟨matrix, masksLeft⟩, hmatrix, hdraws⟩ := Checked.bind_eq_ok.1 hdraws
  obtain ⟨⟨vectorErrors, errorsLeft⟩, hvectorErrors, hdraws⟩ := Checked.bind_eq_ok.1 hdraws
  obtain ⟨⟨_, _⟩, hkeyMasks, hdraws⟩ := Checked.bind_eq_ok.1 hdraws
  obtain ⟨⟨_, _⟩, hkeyErrors, hdraws⟩ := Checked.bind_eq_ok.1 hdraws
  cases hdraws
  obtain ⟨hzdim, hzternary⟩ := Lwe.Secret.ternary_of_generate hz
  have hsk := Lwe.Secret.ternary_of_isTernary hternary
  obtain ⟨switching, hswitching, hmasks⟩ := exists_switching hsupports hmiddle hzternary hzdim hsk hdim
    hentries ⟨_, _, _, _, hentryErrors⟩
  obtain ⟨s, hs, htakes⟩ := Rlwe.Secret.exists_takes (NegacyclicRing.check_evaluates hsupports.ring_eq)
    (hzdim.trans hdegree.symm)
  have hmodulus : gadget.modulus = ring.modulus := by
    obtain ⟨_, -, hcheck⟩ := Checked.bind_eq_ok.1 hgadget
    exact Modulus.value_injective ((Gadget.modulus_of_check hcheck).trans hvalue.symm)
  rw [← hdim, ← hdegree] at hkeyMasks hkeyErrors
  obtain ⟨rotation, hrotation⟩ :=
    BlindRotation.Key.exists_generate hmodulus htakes hternary hkeyMasks hkeyErrors
  have hkeys : (branchTasks (store.basesToMake params) afterSecret.branch.2.branch.2).1.mapM
      (makeKey params ring s sk switching) = .ok [⟨store.activeBase, rotation, switching⟩] := by
    rw [hbases, branchTasks_singleton, List.mapM_cons, List.mapM_nil]
    simp only [makeKey, hgadget, hrotation, Checked.ok_bind]
    rfl
  have hrest : (branchTasks (store.basesToMake params) afterSecret.branch.2.branch.2).2 =
      afterSecret.branch.2.branch.2.branch.2.branch.2 := by
    rw [hbases, branchTasks_singleton]
  cases mode with
  | symmetric =>
    simp only [refresh, hz, hs, hswitching, Checked.ok_bind, Checked.pure_eq, hkeys, hrest]
    exact ⟨_, switching, rfl, rfl, hmasks⟩
  | publishing =>
    obtain ⟨hagree, hroom⟩ := hpublic rfl
    obtain ⟨pk, hpk⟩ := exists_public hzternary hzdim hroom hmatrix ⟨_, _, _, _, hvectorErrors⟩
    rw [hvalue, ← hagree] at hpk
    simp only [refresh, hz, hs, hswitching, hpk, Checked.ok_bind, Checked.pure_eq, hkeys, hrest]
    exact ⟨_, switching, rfl, rfl, hmasks⟩

end Draws

end KeyStore

section Sample

open KeyStore

/-- A secret of one coefficient, a ring of dimension four, and gadgets of one digit. -/
def KeyStore.sampleParams : Params := .explicit 1 4 8 17 Params.defaultSigma 2 32 32 .ginx

def KeyStore.sampleFor (everyBase : Bool) : Params := { sampleParams with everyBase }

theorem KeyStore.ternary_sample : Lwe.Secret.Ternary ⟨#[1], .ternary⟩ := by simp [Lwe.Secret.Ternary]

theorem KeyStore.supports_sample {ring : NegacyclicRing} (hring : NegacyclicRing.check 4 17 = .ok ring)
    (everyBase : Bool) : Supports (sampleFor everyBase) ring := by
  refine ⟨hring, le_rfl, fun q hq => ?_⟩
  have hvalue : q.value = 17 := Modulus.check_eq_ok.1 hq
  have hcount : Lwe.SwitchingKey.count q 4 2 = 20 := by
    simp [Lwe.SwitchingKey.count, Lwe.SwitchingKey.digitsFrom, hvalue]
  change 8 * (Lwe.SwitchingKey.count q 4 2 * 2) < _
  omega

/-- The stream lasts for the keys of the sample twice, and the switching keys get other masks. -/
theorem KeyStore.exists_sampleDraws {q : Modulus} (hq : q.value = 17) : ∃ drawn drawn' rest rest',
    drawKeys sampleParams q 32 (.ofSeed #[1]) = .ok (drawn, rest) ∧
    drawKeys sampleParams q 32 rest = .ok (drawn', rest') ∧
    drawn.map (·.mask) ≠ drawn'.map (·.mask) := by
  have hdraws : (do
      let (drawn, rest) ← drawKeys sampleParams q 32 (.ofSeed #[1])
      let (drawn', _) ← drawKeys sampleParams q 32 rest
      ensure (decide (drawn.map (·.mask) ≠ drawn'.map (·.mask))) .exhausted) = (.ok () : Checked Unit) := by
    obtain rfl : q = ⟨17, by decide, by decide⟩ := Modulus.value_injective hq
    decide +kernel
  obtain ⟨⟨drawn, rest⟩, hdrawn, hdraws⟩ := Checked.bind_eq_ok.1 hdraws
  obtain ⟨⟨drawn', rest'⟩, hdrawn', hdraws⟩ := Checked.bind_eq_ok.1 hdraws
  exact ⟨drawn, drawn', rest, rest', hdrawn, hdrawn', of_decide_eq_true (ensure_eq_ok.1 hdraws)⟩

end Sample

end LatticeGates
