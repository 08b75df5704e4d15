import LatticeGates.Proofs.Action
import LatticeGates.Proofs.KeyStore.Totality
import LatticeGates.Proofs.Lwe.Encryption

/-!
# Encryption under a secret

Main statement: how an encryption ends, for all arguments. A plaintext modulus out of range is the one thing
that is refused with an error. A ciphertext modulus that is no modulus is not refused, and faults; at a
modulus a ciphertext is returned as soon as the draws have ended.
-/

namespace LatticeGates.Context

open LatticeGates.Action

variable {ctx : Context} {sk : Lwe.Secret} {m p : ℕ} {modulus : Option ℕ}

def encryptionModulus (ctx : Context) (sk : Lwe.Secret) (modulus : Option ℕ) : ℕ :=
  let lwe := ctx.params.lwe
  modulus.getD (if sk.dimension = lwe.dimension then lwe.modulus else lwe.ringModulus)

theorem encrypt_fails (h : ¬(0 < p ∧ p ≤ ctx.encryptionModulus sk modulus)) :
    (encrypt sk m p modulus).Fails ctx (.invalidModulus p) ctx :=
  bind_fails.2 (.inr ⟨ctx, ctx, get_gives.2 ⟨rfl, rfl⟩,
    bind_fails.2 (.inl (ofAttempt_fails.2 ⟨checkPlaintext_eq_fail h, rfl⟩))⟩)

section Accepted

/-- The run of the encryption on a new branch and the stream of the context. -/
def drawEncryption (ctx : Context) (sk : Lwe.Secret) (m p t : ℕ) :
    Checked (Lwe.Ciphertext × Stream × Stream) :=
  (Lwe.Ciphertext.zero sk.dimension t).encrypt sk m p ctx.params.lwe.sigma ctx.source.branch.1
    ctx.source.branch.2

variable (hp : 0 < p ∧ p ≤ ctx.encryptionModulus sk modulus)
include hp

theorem encrypt_gives {r : Lwe.Ciphertext} {masks source : Stream}
    (h : ctx.drawEncryption sk m p (ctx.encryptionModulus sk modulus) = .ok (r, masks, source)) :
    (encrypt sk m p modulus).Gives ctx r { ctx with source } := by
  refine bind_gives.2 ⟨ctx, ctx, get_gives.2 ⟨rfl, rfl⟩, bind_gives.2
    ⟨(), ctx, ofAttempt_gives.2 ⟨checkPlaintext_eq_pure.2 hp, rfl⟩, draw_gives.2 ⟨source, ?_, rfl⟩⟩⟩
  exact Checked.bind_eq_ok.2 ⟨_, h, rfl⟩

theorem encrypt_faults {e : Fault}
    (h : ctx.drawEncryption sk m p (ctx.encryptionModulus sk modulus) = .error e) :
    (encrypt sk m p modulus).Faults ctx e := by
  refine bind_faults.2 (.inr ⟨ctx, ctx, get_gives.2 ⟨rfl, rfl⟩, bind_faults.2 (.inr
    ⟨(), ctx, ofAttempt_gives.2 ⟨checkPlaintext_eq_pure.2 hp, rfl⟩, draw_faults.2 ?_⟩)⟩)
  exact congrArg (· >>= _) h

end Accepted

theorem drawEncryption_of_not_modulus {t : ℕ} (hp : 0 < p ∧ p ≤ t) (ht : ¬(1 < t ∧ t < 2 ^ 62)) :
    ctx.drawEncryption sk m p t = .error (.invalidModulus t) := by
  have hcheck : Modulus.check t = .error (.invalidModulus t) := dif_neg ht
  simp [drawEncryption, Lwe.Ciphertext.encrypt, Lwe.Ciphertext.zero, Lwe.Ciphertext.dimension, hp, hcheck]

theorem drawEncryption_ends {q : Modulus} (hsk : sk.Ternary) (hroom : sk.dimension < 2 ^ 60)
    (hp : 0 < p ∧ p ≤ q.value) :
    (ctx.drawEncryption sk m p q.value).Ends (·.1.Shaped q sk.dimension) fun e => e = .exhausted ∧
      (Stream.residues q sk.dimension ctx.source.branch.1 = .error e ∨
        Stream.gaussian ctx.params.lwe.sigma ctx.source.branch.2 = .error e) := by
  have hzero : (Lwe.Ciphertext.zero sk.dimension q.value).Shaped q sk.dimension :=
    ⟨rfl, Modulus.reduced_replicate, q.pos⟩
  refine (hzero.encrypt_ends rfl hp.1 hp.2 _ _).imp_stops ?_
  rintro e (hdraw | ⟨-, mask, rest, hmask, hout⟩)
  · exact hdraw
  · exact absurd (Lwe.Secret.inRange_of_natAbs_le (Modulus.reduced_of_residues hmask) hsk.natAbs_le
      (by omega)) hout

/-- How an encryption under a ternary secret ends. -/
theorem encrypt_outcome (ctx : Context) (hsk : sk.Ternary) (hroom : sk.dimension < 2 ^ 60) (m p : ℕ)
    (modulus : Option ℕ) :
    let t := ctx.encryptionModulus sk modulus
    (¬(0 < p ∧ p ≤ t) → (encrypt sk m p modulus).Fails ctx (.invalidModulus p) ctx) ∧
      (0 < p ∧ p ≤ t → ¬(1 < t ∧ t < 2 ^ 62) →
        (encrypt sk m p modulus).Faults ctx (.invalidModulus t)) ∧
      (0 < p ∧ p ≤ t → ∀ q : Modulus, q.value = t →
        (∃ ct source, (encrypt sk m p modulus).Gives ctx ct { ctx with source } ∧
          ct.modulus = t ∧ ct.dimension = sk.dimension ∧ ct.WellFormed) ∨
        (encrypt sk m p modulus).Faults ctx .exhausted ∧
          (Stream.residues q sk.dimension ctx.source.branch.1 = .error .exhausted ∨
            Stream.gaussian ctx.params.lwe.sigma ctx.source.branch.2 = .error .exhausted)) := by
  intro t
  refine ⟨encrypt_fails, fun hp ht => encrypt_faults hp (drawEncryption_of_not_modulus hp ht), ?_⟩
  intro hp q hq
  have hends := ctx.drawEncryption_ends (m := m) hsk hroom (hq ▸ hp)
  rw [hq] at hends
  obtain ⟨⟨ct, masks, source⟩, hdraw, hshaped⟩ | ⟨e, hdraw, rfl, hsearch⟩ := hends
  · exact .inl ⟨ct, source, encrypt_gives hp hdraw, hq ▸ Lwe.Ciphertext.shaped_iff.1 hshaped⟩
  · exact .inr ⟨encrypt_faults hp hdraw, hsearch⟩

/-- In a fresh context: the plaintext modulus zero is refused, `2 ^ 62` and one are faults, and a message is
encrypted at the modulus that the context has for the secret. -/
theorem encrypt_outcome_sample : ∃ start ct source,
    let sk : Lwe.Secret := ⟨#[1], .ternary⟩
    ofSeed KeyStore.sampleParams #[1] = pure start ∧
      (encrypt sk 1 0 none).Fails start (.invalidModulus 0) start ∧
      (encrypt sk 1 4 (some (2 ^ 62))).Faults start (.invalidModulus (2 ^ 62)) ∧
      (encrypt sk 1 1 (some 1)).Faults start (.invalidModulus 1) ∧
      (encrypt sk 1 4 none).Gives start ct { start with source } ∧
      ct.modulus = 8 ∧ ct.dimension = 1 ∧ ct.WellFormed := by
  have hdegree : KeyStore.sampleParams.rgsw.ringDimension = 4 := rfl
  obtain ⟨start, hstart⟩ := exists_ofSeed_four hdegree rfl #[1]
  obtain ⟨ring, -, rfl⟩ := ofSeed_eq_pure hstart
  let q : Modulus := ⟨8, by decide, by decide⟩
  obtain ⟨masks, hmasks⟩ : ∃ r, Stream.residues q 1 (Stream.ofSeed #[1]).branch.1 = .ok r :=
    Checked.exists_of_isOk (by decide +kernel)
  obtain ⟨errors, herrors⟩ : ∃ r,
      Stream.gaussian Params.defaultSigma (Stream.ofSeed #[1]).branch.2 = .ok r :=
    Checked.exists_of_isOk (by decide +kernel)
  let start : Context := ⟨KeyStore.sampleParams, ring, .empty 32, .ofSeed #[1]⟩
  have hdefault : start.encryptionModulus ⟨#[1], .ternary⟩ none = 8 := rfl
  have hgiven (t : ℕ) : start.encryptionModulus ⟨#[1], .ternary⟩ (some t) = t := rfl
  have houtcome := encrypt_outcome start KeyStore.ternary_sample (by decide) 1
  have hrefused := (houtcome 0 none).1 (by rw [hdefault]; decide)
  have hlarge := (houtcome 4 (some (2 ^ 62))).2.1
  have hone := (houtcome 1 (some 1)).2.1
  have hdrawn := (houtcome 4 none).2.2
  rw [hgiven] at hlarge hone
  rw [hdefault] at hdrawn
  obtain ⟨ct, source, hgives⟩ | ⟨-, hsearch | hsearch⟩ := hdrawn (by decide) q rfl
  · exact ⟨start, ct, source, hstart, hrefused, hlarge (by norm_num) (by norm_num),
      hone (by decide) (by decide), hgives⟩
  · cases hmasks.symm.trans hsearch
  · cases herrors.symm.trans hsearch

end LatticeGates.Context
