import LatticeGates.Proofs.Action
import LatticeGates.Proofs.BlindRotation.Rotation
import LatticeGates.Proofs.Lwe.Decryption
import LatticeGates.Threshold

/-!
# Threshold decryption

Main statement: the shares of all parties, fused in any order, are the rounded phase under the sum of their
secrets, with the sum of their errors added. A fusion without all shares, without exactly one lead or over
several moduli is refused.
-/

namespace LatticeGates

open Lwe

/-- A party with the error that its stream holds next. -/
structure Party where
  secret : Lwe.Secret
  ctx : Context
  error : ℤ
  rest : Stream
  drawn : Stream.gaussian ctx.params.lwe.sigma ctx.source = .ok (error, rest)

namespace Party

/-- The context of a party once it has drawn its error. -/
def next (P : Party) : Context := { P.ctx with source := P.rest }

/-- The inner product of the party's secret with the mask of a ciphertext can be computed. -/
structure Fits (P : Party) (ct : Ciphertext) : Prop where
  dimension_eq : P.secret.dimension = ct.dimension
  inRange : P.secret.InRange ct.mask

end Party

namespace DecryptionShare

variable {q : Modulus} {shares : List DecryptionShare}

/-- A share with the phase that a party sees, up to the party's error. -/
structure Reveals (share : DecryptionShare) (q : Modulus) (φ : ℤ) (P : Party) : Prop where
  modulus_eq : share.modulus = q.value
  value_lt : share.value < q.value
  cast_value : (share.value : ZMod q.value) = φ + P.error

theorem exists_sum {acc : ℕ} (hacc : acc < q.value) (h : ∀ share ∈ shares, share.value < q.value) :
    ∃ r, shares.foldlM (fun acc share => q.add acc share.value) acc = .ok r ∧ r < q.value ∧
      (r : ZMod q.value) = acc + (shares.map fun share => (share.value : ZMod q.value)).sum := by
  have hstep : ∀ share ∈ shares, ∀ (r : ℕ) (v : ZMod q.value), r < q.value ∧ (r : ZMod q.value) = v →
      ∃ next, q.add r share.value = .ok next ∧ next < q.value ∧
        (next : ZMod q.value) = v + share.value := by
    rintro share hshare r v ⟨hr, rfl⟩
    exact Modulus.exists_add hr (h share hshare)
  exact exists_foldlM_add (fun (r : ℕ) (v : ZMod q.value) => r < q.value ∧ (r : ZMod q.value) = v)
    hstep ⟨hacc, rfl⟩

end DecryptionShare

namespace Context

variable {q : Modulus} {ct : Ciphertext} {P : Party} {ctx : Context} {p : ℕ}
  {shares : List DecryptionShare}

/-- The part of a ciphertext that a party sees. -/
def seen (ct : Ciphertext) (lead : Bool) : Ciphertext := if lead then ct else { ct with body := 0 }

private theorem shaped_seen {n : ℕ} (h : ct.Shaped q n) (lead : Bool) : (seen ct lead).Shaped q n := by
  cases lead with
  | true => exact h
  | false => exact ⟨h.modulus_eq, h.mask, q.pos⟩

private theorem seen_eq {n : ℕ} (h : ct.Shaped q n) (lead : Bool) :
    (if lead then .ok ct else Ciphertext.ofParts ct.mask 0 ct.modulus) = .ok (seen ct lead) := by
  cases lead with
  | true => rfl
  | false =>
    have hmask : (ct.mask.all (· < ct.modulus) && decide (0 < ct.modulus)) = true := by
      simp only [h.modulus_eq, Bool.and_eq_true, Array.all_eq_true_iff_forall_mem, decide_eq_true_eq]
      exact ⟨h.mask.lt, q.pos⟩
    simp [seen, Ciphertext.ofParts, hmask]

theorem exists_decryptShare (hct : ct.Shaped q ct.dimension) (hfits : P.Fits ct) (lead : Bool) :
    ∃ share, (decryptShare P.secret ct lead).Gives P.ctx share P.next ∧ share.lead = lead ∧
      share.Reveals q ((seen ct lead).integerPhase P.secret.coefficient) P := by
  have hshaped : (seen ct lead).Shaped q P.secret.dimension := by
    rw [hfits.dimension_eq]
    exact shaped_seen hct lead
  have hmask : (seen ct lead).mask = ct.mask := by
    unfold seen
    split <;> rfl
  have hphase := hshaped.phase_of_inRange (by rw [hmask]; exact hfits.inRange)
  obtain ⟨value, hvalue, hlt, hcast⟩ := Modulus.exists_add (hshaped.residue_lt P.secret.coefficient)
    (Modulus.ofInt_lt (q := q) P.error)
  refine ⟨⟨value, ct.modulus, lead⟩, ?_, rfl, hct.modulus_eq, hlt, ?_⟩
  · have hdim : checkDimension P.secret ct = pure () := by
      rw [checkDimension, hfits.dimension_eq, beq_self_eq_true, Attempt.require_true]
    simp only [decryptShare, Action.bind_gives, Action.get_gives, Action.ofAttempt_gives,
      Action.liftM_gives, Action.draw_gives, Action.pure_gives]
    exact ⟨_, _, ⟨rfl, rfl⟩, (), _, ⟨hdim, rfl⟩, q, _, ⟨hct.check, rfl⟩, _, _, ⟨seen_eq hct lead, rfl⟩,
      _, _, ⟨hphase, rfl⟩, _, _, ⟨P.rest, P.drawn, rfl⟩, _, _, ⟨hvalue, rfl⟩, rfl, rfl⟩
  · have hmod := hshaped.residue_modEq P.secret.coefficient
    rw [← ZMod.intCast_eq_intCast_iff, Int.cast_natCast] at hmod
    rw [hcast, hmod, Modulus.cast_ofInt]

/-- A fusion of all shares, with one lead and over one modulus, rounds the sum of their values. -/
theorem exists_fuse (hparties : ctx.params.parties = shares.length)
    (hlead : shares.countP (·.lead) = 1) (hmodulus : ∀ share ∈ shares, share.modulus = q.value)
    (hvalue : ∀ share ∈ shares, share.value < q.value) (hp : 0 < p) (hle : p ≤ q.value) :
    ∃ r, r < q.value ∧
      (r : ZMod q.value) = (shares.map fun share => (share.value : ZMod q.value)).sum ∧
        ctx.fuse shares p = pure (Modulus.round r q.value p) := by
  obtain ⟨r, hr, hlt, hsum⟩ := DecryptionShare.exists_sum q.pos hvalue
  refine ⟨r, hlt, by rw [hsum, Nat.cast_zero, zero_add], ?_⟩
  have hhead : (shares.head?.map (·.modulus)).getD 0 = q.value := by
    cases shares with
    | nil => cases hlead
    | cons share rest => exact hmodulus share List.mem_cons_self
  have hfind : (shares.find? fun share => share.modulus != q.value) = none := by
    refine List.find?_eq_none.2 fun share hshare => ?_
    rw [hmodulus share hshare, bne_self_eq_false]
    exact Bool.false_ne_true
  simp only [fuse, hparties, hlead, beq_self_eq_true, Bool.and_self, Attempt.require_true, hhead, hfind,
    checkPlaintext_eq_pure.2 ⟨hp, hle⟩, Modulus.check_value, hr, Modulus.rescale_of_pos q.pos hp,
    Attempt.liftM_ok, pure_bind]

/-- Shares are refused when some are missing or their leads are not one. -/
theorem fuse_incomplete
    (h : shares.length ≠ ctx.params.parties ∨ shares.countP (·.lead) ≠ 1) :
    ctx.fuse shares p = Attempt.fail
      (.incompleteShares ctx.params.parties shares.length (shares.countP (·.lead))) := by
  have hcondition : (shares.length == ctx.params.parties && shares.countP (·.lead) == 1) = false := by
    rw [Bool.and_eq_false_iff, beq_eq_false_iff_ne, beq_eq_false_iff_ne]
    exact h
  rw [fuse, hcondition]
  rfl

theorem exists_fuse_fail {x y : DecryptionShare} (hx : x ∈ shares) (hy : y ∈ shares)
    (hne : x.modulus ≠ y.modulus) : ∃ e, ctx.fuse shares p = Attempt.fail e := by
  by_cases hall : shares.length = ctx.params.parties ∧ shares.countP (·.lead) = 1
  · obtain ⟨hparties, hlead⟩ := hall
    have hother : ∃ share ∈ shares, share.modulus ≠ (shares.head?.map (·.modulus)).getD 0 := by
      by_contra hnone
      push Not at hnone
      exact hne ((hnone x hx).trans (hnone y hy).symm)
    obtain ⟨share, hfind⟩ : ∃ share, (shares.find? fun share =>
        share.modulus != (shares.head?.map (·.modulus)).getD 0) = some share := by
      rw [← Option.isSome_iff_exists, List.find?_isSome]
      simpa using hother
    refine ⟨.dimensionMismatch ⟨1, (shares.head?.map (·.modulus)).getD 0⟩ ⟨1, share.modulus⟩, ?_⟩
    simp only [fuse, hparties, hlead, beq_self_eq_true, Bool.and_self, Attempt.require_true, hfind, pure_bind]
    rfl
  · exact ⟨_, fuse_incomplete (by tauto)⟩

private theorem integerPhase_cons (ct : Ciphertext) (sk : Lwe.Secret) (secrets : List Lwe.Secret) :
    ct.integerPhase (Secret.jointCoefficient (sk :: secrets)) = ct.integerPhase sk.coefficient +
      (seen ct false).integerPhase (Secret.jointCoefficient secrets) := by
  simp only [seen, Ciphertext.integerPhase, Secret.jointCoefficient, List.map_cons, List.sum_cons, mul_add,
    Finset.sum_add_distrib, Bool.false_eq_true, if_false, Nat.cast_zero]
  ring

private theorem exists_decryptShares (hct : ct.Shaped q ct.dimension) {others : List Party}
    (hfits : ∀ P ∈ others, P.Fits ct) : ∃ rest : List DecryptionShare,
      List.Forall₂ (fun P share => (decryptShare P.secret ct false).Gives P.ctx share P.next) others rest ∧
      (∀ share ∈ rest, share.lead = false ∧ share.modulus = q.value ∧ share.value < q.value) ∧
      (rest.map fun share => (share.value : ZMod q.value)).sum =
        (seen ct false).integerPhase (Secret.jointCoefficient (others.map (·.secret))) +
          (others.map (·.error)).sum := by
  induction others with
  | nil =>
    exact ⟨[], .nil, fun _ h => (List.not_mem_nil h).elim, by
      simp [seen, Ciphertext.integerPhase, Secret.jointCoefficient]⟩
  | cons P others ih =>
    obtain ⟨hP, hothers⟩ := List.forall_mem_cons.1 hfits
    obtain ⟨share, hgives, hlead, hreveals⟩ := exists_decryptShare hct hP false
    obtain ⟨rest, hrest, hall, hsum⟩ := ih hothers
    refine ⟨share :: rest, .cons hgives hrest, List.forall_mem_cons.2
      ⟨⟨hlead, hreveals.modulus_eq, hreveals.value_lt⟩, hall⟩, ?_⟩
    have hphase := integerPhase_cons (seen ct false) P.secret (others.map (·.secret))
    rw [List.map_cons, List.sum_cons, hsum, hreveals.cast_value, List.map_cons, hphase, List.map_cons,
      List.sum_cons]
    simp only [seen, Bool.false_eq_true, if_false]
    push_cast
    ring

/-- The parties that a context asks for, whose secrets fit a ciphertext. -/
structure Quorum (ctx : Context) (ct : Ciphertext) where
  lead : Party
  others : List Party
  fits : ∀ P ∈ lead :: others, P.Fits ct
  parties_eq : ctx.params.parties = others.length + 1

namespace Quorum

variable (group : Quorum ctx ct)

def secrets : List Lwe.Secret := (group.lead :: group.others).map (·.secret)

def error : ℤ := ((group.lead :: group.others).map (·.error)).sum

def phase : ℕ := ct.residuePhase (Secret.jointCoefficient group.secrets)

/-- What each party of a group computes, the lead first. -/
def Shares (first : DecryptionShare) (rest : List DecryptionShare) : Prop :=
  (decryptShare group.lead.secret ct true).Gives group.lead.ctx first group.lead.next ∧
    List.Forall₂ (fun P share => (decryptShare P.secret ct false).Gives P.ctx share P.next)
      group.others rest

variable {group}

theorem phase_eq_ok (hct : ct.Shaped q ct.dimension) {joint : Lwe.Secret} {φ : ℕ}
    (hjoint : Secret.sum group.secrets = .ok (some joint)) (hφ : ct.phase joint = .ok φ) :
    φ = group.phase := by
  obtain ⟨-, hcoefficient⟩ := Secret.sum_eq_ok hjoint
  rw [Ciphertext.dimension_of_phase hφ] at hct
  rw [hct.phase_eq_ok hφ, hcoefficient]
  rfl

private theorem exists_fuse_shares (group : Quorum ctx ct) (hct : ct.Shaped q ct.dimension) (hp : 0 < p)
    (hle : p ≤ q.value) : ∃ first rest, group.Shares first rest ∧
      ∀ shares, shares.Perm (first :: rest) →
        ctx.fuse shares p = pure (Modulus.round (q.ofInt (group.phase + group.error)) q.value p) := by
  obtain ⟨hlead, hothers⟩ := List.forall_mem_cons.1 group.fits
  obtain ⟨first, hfirst, hfirstLead, hreveals⟩ := exists_decryptShare hct hlead true
  obtain ⟨rest, hrest, hall, hsum⟩ := exists_decryptShares hct hothers
  refine ⟨first, rest, ⟨hfirst, hrest⟩, fun shares hperm => ?_⟩
  have hmodulus : ∀ share ∈ shares, share.modulus = q.value := fun share hshare =>
    (List.mem_cons.1 (hperm.subset hshare)).elim (· ▸ hreveals.modulus_eq) fun h => (hall share h).2.1
  have hvalue : ∀ share ∈ shares, share.value < q.value := fun share hshare =>
    (List.mem_cons.1 (hperm.subset hshare)).elim (· ▸ hreveals.value_lt) fun h => (hall share h).2.2
  have hparties : ctx.params.parties = shares.length := by
    rw [group.parties_eq, hperm.length_eq, List.length_cons, hrest.length_eq]
  have hleads : shares.countP (·.lead) = 1 := by
    have hnone : rest.countP (·.lead) = 0 := by
      rw [List.countP_eq_zero]
      exact fun share hshare => by rw [(hall share hshare).1]; exact Bool.false_ne_true
    rw [hperm.countP_eq, List.countP_cons_of_pos hfirstLead, hnone]
  obtain ⟨r, hlt, hr, hfuse⟩ := exists_fuse hparties hleads hmodulus hvalue hp hle
  rw [hfuse]
  congr 2
  refine Modulus.eq_of_cast_eq hlt (Modulus.ofInt_lt _) ?_
  have hphase := hct.residue_modEq (Secret.jointCoefficient group.secrets)
  rw [← ZMod.intCast_eq_intCast_iff] at hphase
  rw [hr, (hperm.map _).sum_eq, List.map_cons, List.sum_cons, hreveals.cast_value, hsum, Modulus.cast_ofInt,
    phase, error, Int.cast_add, hphase, secrets, List.map_cons, integerPhase_cons, List.map_cons,
    List.sum_cons]
  simp only [seen, if_true]
  push_cast
  ring

end Quorum

/-- The shares of all parties, fused in any order, are the rounded phase under the sum of the secrets with the
errors added. So they give back a message whenever the errors are small enough. Shares that are not those of
all parties, do not have one lead or have several moduli are refused. -/
theorem fuse_shares (ctx : Context) (ct : Ciphertext) (p : ℕ) :
    (∀ (q : Modulus) (group : Quorum ctx ct), ct.modulus = q.value → ct.WellFormed → 0 < p →
      p ≤ ct.modulus → ∃ first rest, group.Shares first rest ∧
        (∀ joint φ, Secret.sum group.secrets = .ok (some joint) → ct.phase joint = .ok φ →
          φ = group.phase) ∧
        ∀ shares, shares.Perm (first :: rest) →
          ctx.fuse shares p =
            pure (Modulus.round ((group.phase + group.error) % ct.modulus).toNat ct.modulus p) ∧
          ∀ m (e : ℤ), m < p → group.phase ≡ Modulus.round m p ct.modulus + e [ZMOD ct.modulus] →
            p * (2 * |e + group.error| + 1) < ct.modulus → ctx.fuse shares p = pure m) ∧
    ∀ shares, (shares.length ≠ ctx.params.parties ∨ shares.countP (·.lead) ≠ 1 ∨
        ∃ x ∈ shares, ∃ y ∈ shares, x.modulus ≠ y.modulus) →
      ∃ e, ctx.fuse shares p = Attempt.fail e := by
  constructor
  · intro q group hmodulus hwf hp hle
    have hct : ct.Shaped q ct.dimension := Ciphertext.shaped_iff.2 ⟨hmodulus, rfl, hwf⟩
    rw [hmodulus] at hle ⊢
    obtain ⟨first, rest, hshares, hfuse⟩ := group.exists_fuse_shares hct hp hle
    refine ⟨first, rest, hshares, fun joint φ => Quorum.phase_eq_ok hct, fun shares hperm =>
      ⟨hfuse shares hperm, fun m e hm hmod herror => ?_⟩⟩
    have hnear : (q.ofInt (group.phase + group.error) : ℤ) ≡
        Modulus.round m p q.value + (e + group.error) [ZMOD q.value] := by
      refine Int.ModEq.trans (Ciphertext.modEq_of_cast_eq (by simp)) ((hmod.add_right group.error).trans ?_)
      rw [add_assoc]
    rw [hfuse shares hperm, Modulus.round_of_modEq hm herror hnear]
  · rintro shares (hlength | hlead | ⟨x, hx, y, hy, hne⟩)
    · exact ⟨_, fuse_incomplete (.inl hlength)⟩
    · exact ⟨_, fuse_incomplete (.inr hlead)⟩
    · exact exists_fuse_fail hx hy hne

/-- Two parties whose secrets `1` and `-1` cancel, and a ciphertext that is off by just their errors. -/
theorem fuse_shares_two : ∃ (ctx : Context) (ct : Ciphertext) (group : Quorum ctx ct)
    (first : DecryptionShare) (rest : List DecryptionShare), ctx.params.parties = 2 ∧ ct.modulus = 16 ∧
      ct.WellFormed ∧ group.Shares first rest ∧
      (∀ shares, shares.Perm (first :: rest) → ctx.fuse shares 2 = pure 1) ∧
      ∃ e, ctx.fuse rest 2 = Attempt.fail e := by
  obtain ⟨ring, -, -, -⟩ := BlindRotation.exists_sampleRing
  obtain ⟨⟨e, rest⟩, hdrawn⟩ : ∃ x, Stream.gaussian Params.defaultSigma (.ofSeed #[]) = .ok x :=
    Checked.exists_of_isOk (by decide +kernel)
  obtain ⟨⟨e', rest'⟩, hdrawn'⟩ : ∃ x, Stream.gaussian Params.defaultSigma (.ofSeed #[1]) = .ok x :=
    Checked.exists_of_isOk (by decide +kernel)
  let params : Params :=
    { Params.explicit 1 2 16 5 Params.defaultSigma 2 8 32 .ginx with parties := 2 }
  let lead : Party := ⟨⟨#[1], .ternary⟩, ⟨params, ring, .empty 8, .ofSeed #[]⟩, e, rest, hdrawn⟩
  let other : Party := ⟨⟨#[-1], .ternary⟩, ⟨params, ring, .empty 8, .ofSeed #[1]⟩, e', rest', hdrawn'⟩
  let q : Modulus := ⟨16, by decide, by decide⟩
  let ct : Ciphertext := ⟨#[3], q.ofInt (8 - (e + e')), 16⟩
  have hmask : q.Reduced 1 ct.mask := ⟨rfl, show ∀ x ∈ #[3], x < 16 by decide⟩
  have hwf : ct.WellFormed := ⟨hmask.lt, Modulus.ofInt_lt _⟩
  have hfits (P : Party) (hdim : P.secret.dimension = 1) (hternary : P.secret.Ternary) : P.Fits ct :=
    ⟨hdim, Secret.inRange_of_natAbs_le (hdim ▸ hmask) hternary.natAbs_le (by rw [hdim]; decide)⟩
  let group : Quorum lead.ctx ct := ⟨lead, [other], List.forall_mem_cons.2
    ⟨hfits lead rfl (by simp [Secret.Ternary, lead]), List.forall_mem_singleton.2
      (hfits other rfl (by simp [Secret.Ternary, other]))⟩, rfl⟩
  have hphase : (group.phase : ℤ) ≡ Modulus.round 1 2 16 + -(e + e') [ZMOD 16] := by
    have hct : ct.Shaped q 1 := ⟨rfl, hmask, Modulus.ofInt_lt _⟩
    refine (hct.residue_modEq _).trans (Ciphertext.modEq_of_cast_eq (q := q) ?_)
    simp [Ciphertext.integerPhase, Secret.jointCoefficient, Secret.coefficient, group, lead, other, ct,
      Quorum.secrets, Modulus.round]
    ring
  obtain ⟨hfuse, hfail⟩ := fuse_shares lead.ctx ct 2
  obtain ⟨first, shares, hshares, -, hround⟩ :=
    hfuse q group rfl hwf (by decide) (show 2 ≤ 16 by decide)
  have herror : e + (e' + 0) = group.error := rfl
  refine ⟨lead.ctx, ct, group, first, shares, rfl, rfl, hwf, hshares, fun order hperm => ?_, ?_⟩
  · refine (hround order hperm).2 1 _ (by decide) hphase ?_
    rw [← herror, add_zero, neg_add_cancel]
    exact show (2 * (2 * |0| + 1) : ℤ) < 16 by decide
  · refine hfail shares (.inl ?_)
    rw [← hshares.2.length_eq]
    exact show 1 ≠ 2 by decide

end Context

end LatticeGates
