import LatticeGates.Params.Basic
import LatticeGates.Proofs.Lwe.SwitchingShares

/-!
# Joint public and switching keys

Main statement: the keys that the lead starts, with the shares of the other parties added in any order, are keys
of the sums of the secrets. The uniform parts are those of the lead, and the errors of all parties add up.
-/

namespace LatticeGates

open Lwe Finset

variable {q : Modulus} {n m base : ℕ}

/-- A party with its two secrets, and the errors that it adds to a public and to a switching key. -/
structure KeyParty (q : Modulus) (n base : ℕ) where
  large : Lwe.Secret
  small : Lwe.Secret
  keyNoise : Noise n
  switchNoise : Noise (SwitchingKey.count q n base)

namespace KeyParty

/-- The secrets have the dimensions of the keys, and their products with the uniform parts can be computed. -/
structure Fits (P : KeyParty q n base) (m : ℕ) (matrix masks : Array (Array ℕ)) : Prop where
  large_dimension : P.large.dimension = n
  small_dimension : P.small.dimension = m
  rows : ∀ row ∈ matrix, P.large.InRange row
  masks : ∀ mask ∈ masks, P.small.InRange mask
  messages : SwitchingKey.MessagesInRange q n base P.large

def addToPublicKey (pk : PublicKey) (P : KeyParty q n base) : Checked PublicKey := do
  return (← pk.accumulate P.large P.keyNoise.sigma P.keyNoise.source).1

def addToSwitchingKey (key : SwitchingKey) (P : KeyParty q n base) : Checked SwitchingKey := do
  return (← key.accumulate P.large P.small P.switchNoise.sigma P.switchNoise.source).1

/-- The coefficients of the sum of the large secrets. -/
def jointLarge (parties : List (KeyParty q n base)) : ℕ → ℤ :=
  Secret.jointCoefficient (parties.map (·.large))

def jointSmall (parties : List (KeyParty q n base)) : ℕ → ℤ :=
  Secret.jointCoefficient (parties.map (·.small))

variable {parties : List (KeyParty q n base)} {matrix masks : Array (Array ℕ)}

private theorem sum_keyShare (parties : List (KeyParty q n base)) (i : ℕ) :
    (parties.map fun P => PublicKey.share q matrix P.large P.keyNoise).sum i =
      ∑ j ∈ range n, q.entries (matrix.getD i #[]) j * jointLarge parties j +
        (parties.map fun P => P.keyNoise.at i).sum := by
  induction parties with
  | nil => simp [jointLarge, Secret.jointCoefficient]
  | cons P parties ih =>
    rw [List.map_cons, List.sum_cons, Pi.add_apply, ih, List.map_cons, List.sum_cons]
    simp only [PublicKey.share, jointLarge, List.map_cons, Secret.jointCoefficient_cons, Int.cast_add, mul_add,
      sum_add_distrib]
    ring

private theorem sum_switchShare (parties : List (KeyParty q n base)) (k : ℕ) :
    (parties.map fun P => SwitchingKey.share q n m base masks P.large P.small P.switchNoise).sum k =
      ∑ i ∈ range m, q.entries (masks.getD k #[]) i * jointSmall parties i +
        SwitchingKey.message q base (jointLarge parties) k +
          (parties.map fun P => P.switchNoise.at k).sum := by
  induction parties with
  | nil => simp [jointLarge, jointSmall, SwitchingKey.message, Secret.jointCoefficient]
  | cons P parties ih =>
    rw [List.map_cons, List.sum_cons, Pi.add_apply, ih, List.map_cons, List.sum_cons]
    simp only [SwitchingKey.share, SwitchingKey.message, jointLarge, jointSmall, List.map_cons,
      Secret.jointCoefficient_cons, Int.cast_add, Int.cast_mul, mul_add, add_mul, sum_add_distrib]
    ring

/-- A public key of the sum of the large secrets, with the errors of all parties. -/
structure PublicKeyOf (parties : List (KeyParty q n base)) (matrix : Array (Array ℕ)) (pk : PublicKey) :
    Prop where
  matrix_eq : pk.matrix = matrix
  modulus_eq : pk.modulus = q.value
  reduced : q.Reduced n pk.vector
  vector : ∀ i < n, (pk.vector.getD i 0 : ℤ) ≡
    ∑ j ∈ range n, (matrix.getD i #[]).getD j 0 * jointLarge parties j +
      (parties.map fun P => P.keyNoise.at i).sum [ZMOD q.value]

/-- A switching key from the sum of the large secrets to the sum of the small ones, with the errors of all
parties. -/
structure SwitchingKeyOf (parties : List (KeyParty q n base)) (m : ℕ) (masks : Array (Array ℕ))
    (key : SwitchingKey) : Prop where
  shape : ∃ entries, key = SwitchingKey.ofEntries q n m base entries
  masks_eq : key.entries.map (·.mask) = masks
  entry : ∀ i < n, ∀ j < key.digits, ∀ v, 0 < v → v < base →
    ∃ entry, key.entries[key.position i j v]? = some entry ∧ entry.body < q.value ∧
      (entry.body : ℤ) ≡ ∑ k ∈ range m, entry.mask.getD k 0 * jointSmall parties k +
        v * jointLarge parties i * base ^ j +
          (parties.map fun P => P.switchNoise.at (key.position i j v)).sum [ZMOD q.value]

theorem publicKeyOf_of_sums (parties : List (KeyParty q n base)) {pk : PublicKey}
    (h : PublicKey.Sums q n matrix pk
      (parties.map fun P => PublicKey.share q matrix P.large P.keyNoise).sum) :
    PublicKeyOf parties matrix pk := by
  refine ⟨h.matrix_eq, h.modulus_eq, h.reduced, fun i hi => ?_⟩
  have hentry := h.entries i hi
  rw [sum_keyShare] at hentry
  refine Ciphertext.modEq_of_cast_eq (q := q) ?_
  push_cast
  simpa [Modulus.entries] using hentry

theorem switchingKeyOf_of_sums (parties : List (KeyParty q n base)) {key : SwitchingKey}
    (hmasks : SwitchingKey.Masks q n m base masks)
    (h : SwitchingKey.Sums q n m base masks key
      (parties.map fun P => SwitchingKey.share q n m base masks P.large P.small P.switchNoise).sum) :
    SwitchingKeyOf parties m masks key := by
  refine ⟨h.shape, h.masks_eq, fun i hi j hj v hpos hv => ?_⟩
  have hsize := h.size_eq.trans hmasks.size_eq
  obtain ⟨entries, rfl⟩ := h.shape
  have hk : (SwitchingKey.ofEntries q n m base entries).position i j v <
      (SwitchingKey.ofEntries q n m base entries).entries.size := by
    rw [hsize]
    exact SwitchingKey.position_lt hi hj hpos hv
  obtain ⟨hlt, hcast⟩ := h.body _ hk
  refine ⟨_, Array.getElem?_eq_getElem hk, hlt, Ciphertext.modEq_of_cast_eq (q := q) ?_⟩
  rw [sum_switchShare, SwitchingKey.message_position entries _ hj hpos hv, ← h.mask_eq hk] at hcast
  push_cast
  simpa [Modulus.entries] using hcast

theorem SwitchingKeyOf.encrypts {key : SwitchingKey} {z s : Lwe.Secret} {bound : ℕ}
    (h : SwitchingKeyOf parties m masks key) (hmasks : SwitchingKey.Masks q n m base masks)
    (hbase : 2 ≤ base) (hwidth : m + 1 < Word.bound)
    (hcapacity : 8 * (SwitchingKey.count q n base * (m + 1)) < 0x8000000000000000)
    (hz : z.dimension = n) (hlarge : z.coefficient = jointLarge parties)
    (hs : s.dimension = m) (hsmall : s.coefficient = jointSmall parties)
    (hnoise : ∀ k, Int.natAbs (parties.map fun P => P.switchNoise.at k).sum ≤ bound) :
    key.Encrypts q z s bound := by
  obtain ⟨entries, rfl⟩ := h.shape
  have hzero := SwitchingKey.exists_zero (q := q) (n := n) hbase hwidth hcapacity
  refine ⟨rfl, ⟨_, by rw [hz, hs]; exact hzero⟩, fun i hi j hj v hpos hv => ?_⟩
  obtain ⟨entry, hentry, hlt, hbody⟩ := h.entry i hi j hj v hpos hv
  have hmask : q.Reduced m entry.mask := by
    refine hmasks.reduced _ ?_
    rw [← h.masks_eq]
    exact Array.mem_map.2 ⟨entry, Array.mem_of_getElem? hentry, rfl⟩
  have hphase := hbody.sub_right (∑ k ∈ range m, (entry.mask.getD k 0 : ℤ) * jointSmall parties k)
  rw [add_assoc, add_sub_cancel_left, ← hmask.size_eq, ← hlarge, ← hsmall] at hphase
  exact ⟨entry, hentry, ⟨rfl, hs ▸ hmask, hlt⟩, _, hnoise _, hphase⟩

section Joint

variable (lead : KeyParty q n base) (others : List (KeyParty q n base))
  {rowMasks rowRest entryMasks entryRest : Stream} {samples : Array Sample}

private theorem exists_publicKey (hcapacity : Word.checkLength (n * n) = .ok ())
    (hrows : Stream.replicate n (Stream.residues q n) rowMasks = .ok (matrix, rowRest))
    (hfits : ∀ P ∈ lead :: others, P.Fits m matrix masks) : ∃ start pk,
      PublicKey.generate lead.large q.value lead.keyNoise.sigma rowMasks lead.keyNoise.source =
        .ok (start, rowRest, lead.keyNoise.rest) ∧
      PublicKeyOf (lead :: others) matrix pk ∧
      ∀ order : List (KeyParty q n base), order.Perm others → order.foldlM addToPublicKey start = .ok pk := by
  obtain ⟨hlead, hothers⟩ := List.forall_mem_cons.1 hfits
  obtain ⟨start, hstart, hsums⟩ := PublicKey.exists_generate hcapacity hrows hlead.large_dimension hlead.rows
    lead.keyNoise
  have hstep : ∀ P ∈ others, ∀ (pk : PublicKey) v, PublicKey.Sums q n matrix pk v →
      ∃ next, addToPublicKey pk P = .ok next ∧
        PublicKey.Sums q n matrix next (v + PublicKey.share q matrix P.large P.keyNoise) := by
    intro P hP pk v hpk
    obtain ⟨next, hnext, hnextSums⟩ := hpk.exists_accumulate (PublicKey.square_of_replicate hrows)
      (hothers P hP).large_dimension (hothers P hP).rows P.keyNoise
    exact ⟨next, by rw [addToPublicKey, hnext]; rfl, hnextSums⟩
  obtain ⟨pk, hpk, hfold⟩ := exists_foldlM_perm (PublicKey.Sums q n matrix)
    (fun _ _ _ => PublicKey.Sums.ext) hstep hsums
  exact ⟨start, pk, hstart, publicKeyOf_of_sums (lead :: others) hpk, hfold⟩

private theorem exists_switchingKey (hbase : 2 ≤ base) (hwidth : m + 1 < Word.bound)
    (hcapacity : 8 * (SwitchingKey.count q n base * (m + 1)) < 0x8000000000000000)
    (hentries : Stream.replicate (SwitchingKey.count q n base) (SwitchingKey.drawEntry q m) entryMasks =
      .ok (samples, entryRest))
    (hfits : ∀ P ∈ lead :: others, P.Fits m matrix (samples.map (·.mask))) : ∃ start key,
      SwitchingKey.generate lead.large lead.small base q.value lead.switchNoise.sigma entryMasks
        lead.switchNoise.source = .ok (start, entryRest, lead.switchNoise.rest) ∧
      SwitchingKeyOf (lead :: others) m (samples.map (·.mask)) key ∧
      ∀ order : List (KeyParty q n base), order.Perm others →
        order.foldlM addToSwitchingKey start = .ok key := by
  obtain ⟨hlead, hothers⟩ := List.forall_mem_cons.1 hfits
  have hmasks := SwitchingKey.masks_of_replicate hentries
  obtain ⟨start, hstart, hsums⟩ := SwitchingKey.exists_generate hbase hwidth hcapacity hentries
    hlead.large_dimension hlead.small_dimension hlead.masks hlead.messages lead.switchNoise
  have hstep : ∀ P ∈ others, ∀ (key : SwitchingKey) b,
      SwitchingKey.Sums q n m base (samples.map (·.mask)) key b →
      ∃ next, addToSwitchingKey key P = .ok next ∧ SwitchingKey.Sums q n m base (samples.map (·.mask)) next
        (b + SwitchingKey.share q n m base (samples.map (·.mask)) P.large P.small P.switchNoise) := by
    intro P hP key b hkey
    have hP := hothers P hP
    obtain ⟨next, hnext, hnextSums⟩ := hkey.exists_accumulate hmasks hbase hP.large_dimension
      hP.small_dimension hP.masks hP.messages P.switchNoise
    exact ⟨next, by rw [addToSwitchingKey, hnext]; rfl, hnextSums⟩
  obtain ⟨key, hkey, hfold⟩ := exists_foldlM_perm
    (SwitchingKey.Sums q n m base (samples.map (·.mask))) (fun _ _ _ => SwitchingKey.Sums.ext) hstep hsums
  exact ⟨start, key, hstart, switchingKeyOf_of_sums (lead :: others) hmasks hkey, hfold⟩

/-- The keys that the lead starts, with the shares of the other parties added in any order, are one public key
and one switching key of the sums of the secrets, over the lead's uniform parts. -/
theorem exists_jointKeys (hbase : 2 ≤ base) (hmatrix : n * n < 2 ^ 60) (hwidth : m + 1 < 2 ^ 64)
    (hcapacity : SwitchingKey.count q n base * (m + 1) < 2 ^ 60)
    (hrows : Stream.replicate n (Stream.residues q n) rowMasks = .ok (matrix, rowRest))
    (hentries : Stream.replicate (SwitchingKey.count q n base) (SwitchingKey.drawEntry q m) entryMasks =
      .ok (samples, entryRest))
    (hfits : ∀ P ∈ lead :: others, P.Fits m matrix (samples.map (·.mask))) :
    ∃ startPublic startSwitching pk key,
      PublicKey.generate lead.large q.value lead.keyNoise.sigma rowMasks lead.keyNoise.source =
        .ok (startPublic, rowRest, lead.keyNoise.rest) ∧
      SwitchingKey.generate lead.large lead.small base q.value lead.switchNoise.sigma entryMasks
        lead.switchNoise.source = .ok (startSwitching, entryRest, lead.switchNoise.rest) ∧
      (∀ order : List (KeyParty q n base), order.Perm others →
        order.foldlM addToPublicKey startPublic = .ok pk ∧
        order.foldlM addToSwitchingKey startSwitching = .ok key) ∧
      PublicKeyOf (lead :: others) matrix pk ∧
      SwitchingKeyOf (lead :: others) m (samples.map (·.mask)) key := by
  have hlength : Word.checkLength (n * n) = .ok () := Word.checkLength_of_lt (by omega)
  have hbound : m + 1 < Word.bound := by
    unfold Word.bound
    omega
  obtain ⟨startPublic, pk, hstartPublic, hpk, hfoldPublic⟩ := exists_publicKey lead others hlength hrows hfits
  obtain ⟨startSwitching, key, hstartSwitching, hkey, hfoldSwitching⟩ :=
    exists_switchingKey lead others hbase hbound (by omega) hentries hfits
  exact ⟨startPublic, startSwitching, pk, key, hstartPublic, hstartSwitching,
    fun order hperm => ⟨hfoldPublic order hperm, hfoldSwitching order hperm⟩, hpk, hkey⟩

end Joint

/-- Two parties whose large secrets `1` and `-1` cancel. -/
theorem exists_jointKeys_two : ∃ (q : Modulus) (lead other : KeyParty q 1 2) (matrix : Array (Array ℕ))
    (samples : Array Sample) (startPublic pk : PublicKey) (startSwitching key : SwitchingKey),
    q.value = 5 ∧ lead.large = ⟨#[1], .ternary⟩ ∧ other.large = ⟨#[-1], .ternary⟩ ∧
    (∀ order : List (KeyParty q 1 2), order.Perm [other] →
      order.foldlM addToPublicKey startPublic = .ok pk ∧
      order.foldlM addToSwitchingKey startSwitching = .ok key) ∧
    PublicKeyOf [lead, other] matrix pk ∧ SwitchingKeyOf [lead, other] 1 (samples.map (·.mask)) key := by
  let q : Modulus := ⟨5, by decide, by decide⟩
  have hcount : SwitchingKey.count q 1 2 = 3 := by
    simp [SwitchingKey.count, SwitchingKey.digitsFrom, q]
  have hnoise (n : ℕ) (seed : Array UInt8)
      (h : (Stream.gaussians Params.defaultSigma n (.ofSeed seed)).isOk = true) : Nonempty (Noise n) := by
    obtain ⟨⟨errors, rest⟩, hdrawn⟩ := Checked.exists_of_isOk h
    exact ⟨⟨_, _, errors, rest, hdrawn⟩⟩
  obtain ⟨keyNoise⟩ := hnoise 1 #[1] (by decide +kernel)
  obtain ⟨keyNoise'⟩ := hnoise 1 #[2] (by decide +kernel)
  obtain ⟨switchNoise⟩ := hnoise 3 #[3] (by decide +kernel)
  obtain ⟨switchNoise'⟩ := hnoise 3 #[4] (by decide +kernel)
  obtain ⟨⟨matrix, rowRest⟩, hrows⟩ :
      ∃ x, Stream.replicate 1 (Stream.residues q 1) (.ofSeed #[5]) = .ok x :=
    Checked.exists_of_isOk (by decide +kernel)
  obtain ⟨⟨samples, entryRest⟩, hentries⟩ :
      ∃ x, Stream.replicate 3 (SwitchingKey.drawEntry q 1) (.ofSeed #[6]) = .ok x :=
    Checked.exists_of_isOk (by decide +kernel)
  rw [← hcount] at switchNoise switchNoise' hentries
  let lead : KeyParty q 1 2 := ⟨⟨#[1], .ternary⟩, ⟨#[1], .ternary⟩, keyNoise, switchNoise⟩
  let other : KeyParty q 1 2 := ⟨⟨#[-1], .ternary⟩, ⟨#[1], .ternary⟩, keyNoise', switchNoise'⟩
  have hinRange {sk : Lwe.Secret} {a : Array ℕ} (hdim : sk.dimension = 1) (hsk : sk.Ternary)
      (ha : q.Reduced 1 a) : sk.InRange a :=
    Secret.inRange_of_natAbs_le (hdim ▸ ha) hsk.natAbs_le (by rw [hdim]; decide)
  have hfits (P : KeyParty q 1 2) (hlarge : P.large.dimension = 1) (hsmall : P.small.dimension = 1)
      (hlargeTernary : P.large.Ternary) (hsmallTernary : P.small.Ternary) :
      P.Fits 1 matrix (samples.map (·.mask)) :=
    ⟨hlarge, hsmall,
      fun row hrow => hinRange hlarge hlargeTernary ((PublicKey.square_of_replicate hrows).rows row hrow),
      fun mask hmask =>
        hinRange hsmall hsmallTernary ((SwitchingKey.masks_of_replicate hentries).reduced mask hmask),
      SwitchingKey.messagesInRange_of_ternary hlargeTernary (by decide)⟩
  obtain ⟨startPublic, startSwitching, pk, key, -, -, hfold, hpk, hkey⟩ :=
    exists_jointKeys lead [other] le_rfl (by decide) (by decide)
      (by rw [hcount]; decide) hrows hentries (List.forall_mem_cons.2
        ⟨hfits lead rfl rfl (by simp [Secret.Ternary, lead]) (by simp [Secret.Ternary, lead]),
          List.forall_mem_singleton.2 (hfits other rfl rfl (by simp [Secret.Ternary, other])
            (by simp [Secret.Ternary, other]))⟩)
  exact ⟨q, lead, other, matrix, samples, startPublic, pk, startSwitching, key, rfl, rfl, rfl, hfold, hpk,
    hkey⟩

end KeyParty

end LatticeGates
