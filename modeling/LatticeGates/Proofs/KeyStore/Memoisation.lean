import LatticeGates.Proofs.KeyStore.History

/-!
# Asking for the keys of a secret again

Main statement: without keys for every base, a call that succeeded is not repeated. Later calls for the same
secret leave the context as it is, in any order of the modes, except the first one that asks for a public key
where there is none: it makes all keys anew, and the calls after it leave those.
-/

namespace LatticeGates.KeyCall

open KeyStore

variable {start first ctx next : Context} {history : List (KeyCall × Except Error Unit)} {sk : Lwe.Secret}
  {mode : KeyMode}

/-- A context that holds the active key of a secret, and makes no others. -/
structure Serves (ctx : Context) (sk : Lwe.Secret) : Prop where
  everyBase : ctx.params.everyBase = false
  admits : Admits ctx.params sk
  fingerprint : ctx.keys.fingerprint = some (Digest.fingerprint sk.coefficients)
  active : (ctx.keys.get? ctx.keys.activeBase).isSome

theorem Serves.kept_eq (h : Serves ctx sk) : ctx.keys.kept sk = ctx.keys := if_pos h.fingerprint

theorem serves_of_step (hevery : ctx.params.everyBase = false)
    (h : step ctx (.generate sk mode) = some next) : Serves next sk := by
  have hparams := params_of_step h
  obtain ⟨keys, source, hgenerate, -⟩ := step_generate h
  refine ⟨by rwa [hparams], ?_, fingerprint_of_step h, isSome_active_of_step h⟩
  rw [hparams]
  exact admits_of_generate hgenerate

theorem Serves.step_eq (h : Serves ctx sk) (hpublic : mode = .publishing → ctx.keys.publicKey.isSome) :
    step ctx (.generate sk mode) = some ctx := by
  have hgenerate : ctx.keys.generate ctx.params ctx.ring sk mode ctx.source = pure (ctx.keys, ctx.source) := by
    rw [h.admits.generate_eq h.everyBase, h.kept_eq, if_pos ⟨h.active, hpublic⟩]
  exact step_eq_some.2 (Context.bootstrapKeyGen_gives hgenerate)

theorem Serves.not_fails (h : Serves ctx sk) {e : Error} :
    ¬(generate sk mode).action.Fails ctx e next := by
  intro hfails
  rcases Action.bind_fails.1 hfails with hget | ⟨_, _, hget, hrest⟩
  · exact Action.not_get_fails hget
  obtain ⟨rfl, rfl⟩ := Action.get_gives.1 hget
  rcases Action.bind_fails.1 hrest with hgenerate | ⟨_, _, -, hset⟩
  · have hrefused := (Action.ofAttempt_fails.1 hgenerate).1
    rw [h.admits.generate_eq h.everyBase] at hrefused
    split at hrefused
    · cases hrefused
    · generalize KeyStore.refresh _ _ _ _ _ _ = made at hrefused
      cases made <;> cases hrefused
  · exact Action.not_set_fails hset

private theorem not_kept {store : KeyStore} (hnone : store.publicKey = none) :
    ¬((store.get? store.activeBase).isSome ∧
      (KeyMode.publishing = .publishing → store.publicKey.isSome)) := by
  rintro ⟨-, hpublic⟩
  have hsome := hpublic rfl
  rw [hnone] at hsome
  cases hsome

theorem Serves.exists_refreshed (h : Serves ctx sk) (hnone : ctx.keys.publicKey = none)
    (hstep : step ctx (.generate sk .publishing) = some next) :
    ∃ fresh, Generates ctx.params sk .publishing ctx.source fresh ∧
      ctx.keys.Refreshed ctx.params ctx.ring sk fresh next.keys := by
  obtain ⟨keys, source, hgenerate, rfl⟩ := step_generate hstep
  rw [h.admits.generate_eq h.everyBase, h.kept_eq, if_neg (not_kept hnone)] at hgenerate
  exact KeyStore.exists_refreshed (Attempt.liftM_eq_pure.1 hgenerate)

theorem Serves.exists_publishing {drawn : Array Lwe.Sample} {rest : Stream} (h : Serves ctx sk)
    (hsupports : Supports ctx.params ctx.ring) (hnone : ctx.keys.publicKey = none)
    (hagree : ctx.params.lwe.ringModulus = ctx.params.rgsw.ringModulus)
    (hroom : ctx.params.lwe.ringDimension * ctx.params.lwe.ringDimension < 2 ^ 60)
    (hdraws : drawKeys ctx.params ctx.ring.modulus ctx.keys.activeBase ctx.source = .ok (drawn, rest)) :
    ∃ next, step ctx (.generate sk .publishing) = some next := by
  have hmissing := not_kept hnone
  rw [← h.kept_eq, kept_activeBase] at hmissing
  obtain ⟨keys, key, hstep, -⟩ := exists_step ctx hsupports (basesToMake_eq h.everyBase) h.admits
    (fun _ => ⟨hagree, hroom⟩) (fun hthere => hmissing hthere.2) hdraws
  exact ⟨_, hstep⟩

theorem Serves.exists_active {base : ℕ} (h : Serves ctx sk) (hstart : start.keys = .empty base)
    (hreaches : Reaches start history ctx) :
    ∃ key, ctx.keys.active = pure key ∧ ctx.keys.switchingKey = some key.switching := by
  obtain ⟨key, hkey⟩ := Option.isSome_iff_exists.1 h.active
  refine ⟨key, ?_, ((hreaches.explained hstart).holds.entry hkey).2⟩
  rw [KeyStore.active, hkey]

/-- A run of calls in any order of the modes. The induction is on the modes; once a call has published,
`Serves` and its public key carry the rest. -/
theorem Serves.run_eq (h : Serves ctx sk) (modes : List KeyMode) :
    run ctx (modes.map (.generate sk)) =
      if .publishing ∈ modes ∧ ctx.keys.publicKey = none then step ctx (.generate sk .publishing)
      else some ctx := by
  induction modes generalizing ctx with
  | nil => rfl
  | cons mode modes ih =>
    rw [List.map_cons, run_cons]
    by_cases hmade : mode = .publishing ∧ ctx.keys.publicKey = none
    · obtain ⟨rfl, hnone⟩ := hmade
      rw [if_pos ⟨List.mem_cons_self, hnone⟩]
      cases hstep : step ctx (.generate sk .publishing) with
      | none => rfl
      | some next =>
        have hsome := isSome_publicKey_of_publishing hstep
        rw [Option.bind_some, ih (serves_of_step h.everyBase hstep), if_neg]
        rintro ⟨-, hnone⟩
        rw [hnone] at hsome
        cases hsome
    · have hpublic : mode = .publishing → ctx.keys.publicKey.isSome := fun hmode =>
        Option.isSome_iff_ne_none.2 fun hnone => hmade ⟨hmode, hnone⟩
      have hasked : .publishing ∈ mode :: modes ∧ ctx.keys.publicKey = none ↔
          .publishing ∈ modes ∧ ctx.keys.publicKey = none := by
        rw [List.mem_cons]
        tauto
      rw [h.step_eq hpublic, Option.bind_some, ih h]
      exact if_congr hasked.symm rfl rfl

/-- Without keys for every base, and after a call that succeeded: calls for the same secret leave the context
as it is, unless one of them asks for a public key where there is none. The first one that does makes all keys
anew, and the calls after it leave those. None of them ends in an error, and the one that makes keys ends when
its draws do, if the parameters support keys, agree on the ring modulus and leave room for a public key. -/
theorem run_generate (hevery : ctx.params.everyBase = false)
    (hfirst : step ctx (.generate sk mode) = some first) :
    (mode = .publishing → first.keys.publicKey.isSome) ∧
    (∀ modes : List KeyMode, run first (modes.map (.generate sk)) =
      if .publishing ∈ modes ∧ first.keys.publicKey = none then step first (.generate sk .publishing)
      else some first) ∧
    (∀ mode' e next, ¬(generate sk mode').action.Fails first e next) ∧
    (∀ next, first.keys.publicKey = none → step first (.generate sk .publishing) = some next →
      ∃ fresh, Generates first.params sk .publishing first.source fresh ∧
        next.keys.MadeFrom first.params first.ring sk fresh ∧ next.keys.publicKey = fresh.publicKey) ∧
    ∀ drawn rest, first.keys.publicKey = none → Supports first.params first.ring →
      first.params.lwe.ringModulus = first.params.rgsw.ringModulus →
      first.params.lwe.ringDimension * first.params.lwe.ringDimension < 2 ^ 60 →
      drawKeys first.params first.ring.modulus first.keys.activeBase first.source = .ok (drawn, rest) →
      ∃ next, step first (.generate sk .publishing) = some next := by
  have hserves := serves_of_step hevery hfirst
  refine ⟨?_, hserves.run_eq, fun mode' e next => hserves.not_fails, ?_, ?_⟩
  · rintro rfl
    exact isSome_publicKey_of_publishing hfirst
  · intro next hnone hstep
    obtain ⟨fresh, hfresh, hrefreshed⟩ := hserves.exists_refreshed hnone hstep
    refine ⟨fresh, hfresh, hrefreshed.madeFrom, ?_⟩
    obtain ⟨_, _, _, -, -, pk, _, hpk, -⟩ := hfresh
    rw [hrefreshed.publicKey_eq, hpk]
    rfl
  · intro drawn rest hnone hsupports hagree hroom hdraws
    exact hserves.exists_publishing hsupports hnone hagree hroom hdraws

section Sample

/-- A call, one that asks for a public key as well, and a third one. -/
theorem run_generate_sample : ∃ start first next, Context.ofSeed sampleParams #[1] = pure start ∧
    step start (.generate ⟨#[1], .ternary⟩ .symmetric) = some first ∧
    run first [.generate ⟨#[1], .ternary⟩ .symmetric, .generate ⟨#[1], .ternary⟩ .publishing,
      .generate ⟨#[1], .ternary⟩ .symmetric] = some next ∧
    step first (.generate ⟨#[1], .ternary⟩ .publishing) = some next := by
  obtain ⟨start, first, -, -, -, drawn, rest, hstart, hstep, -, ⟨hparams, hsupports⟩, hdraws, -⟩ :=
    exists_sampleSteps false .symmetric .publishing (.inr ⟨rfl, rfl⟩)
  obtain ⟨hevery, hnone⟩ : start.params.everyBase = false ∧ first.keys.publicKey = none := by
    obtain ⟨ring, -, rfl⟩ := Context.ofSeed_eq_pure hstart
    exact ⟨rfl, publicKey_of_symmetric hstep⟩
  obtain ⟨-, hrun, -, -, hends⟩ := run_generate hevery hstep
  rw [hparams] at hends
  obtain ⟨next, hnext⟩ := hends drawn rest hnone hsupports rfl (by decide) hdraws
  have hrun := hrun [.symmetric, .publishing, .symmetric]
  rw [if_pos ⟨by decide, hnone⟩, hnext] at hrun
  exact ⟨start, first, next, hstart, hstep, hrun, hnext⟩

/-- A call that asks for a public key as well replaces the active key of the first call. -/
theorem exists_replaced : ∃ start first next sk key key',
    Context.ofSeed sampleParams #[1] = pure start ∧ start.params.everyBase = false ∧
    step start (.generate sk .symmetric) = some first ∧ step first (.generate sk .publishing) = some next ∧
    first.keys.active = pure key ∧ next.keys.active = pure key' ∧ key.switching ≠ key'.switching := by
  obtain ⟨start, first, next, key, key', -, -, hstart, hstep, hnext, -, -, hkey, hkey', hne⟩ :=
    exists_sampleSteps false .symmetric .publishing (.inr ⟨rfl, rfl⟩)
  have hreaches := Reaches.start.call (step_eq_some.1 hstep)
  have hlater := hreaches.call (step_eq_some.1 hnext)
  obtain ⟨ring, -, rfl⟩ := Context.ofSeed_eq_pure hstart
  have hserves := serves_of_step rfl hstep
  have hserves' := serves_of_step hserves.everyBase hnext
  obtain ⟨active, hactive, hswitching⟩ := hserves.exists_active rfl hreaches
  obtain ⟨active', hactive', hswitching'⟩ := hserves'.exists_active rfl hlater
  refine ⟨_, first, next, _, active, active', hstart, rfl, hstep, hnext, hactive, hactive', ?_⟩
  cases hkey.symm.trans hswitching
  cases hkey'.symm.trans hswitching'
  exact hne

end Sample

end LatticeGates.KeyCall
