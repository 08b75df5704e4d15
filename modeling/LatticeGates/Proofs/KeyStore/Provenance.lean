import LatticeGates.Proofs.Action
import LatticeGates.Proofs.BlindRotation.Rotation
import LatticeGates.Proofs.KeyStore.Totality
import LatticeGates.Threshold

/-!
# Where the keys of a store come from

Main statement: after any calls, the public key and the switching keys of a store were made by one call
exactly when keys are not made for every base or the last call published. Else the public key is left from
an earlier call than the one that made the switching keys, and each of the two drew a large secret of its own.
-/

namespace LatticeGates

open KeyStore

theorem Context.bootstrapKeyGen_gives {ctx : Context} {sk : Lwe.Secret} {mode : KeyMode} {keys : KeyStore}
    {source : Stream}
    (h : ctx.keys.generate ctx.params ctx.ring sk mode ctx.source = pure (keys, source)) :
    (bootstrapKeyGen sk mode).Gives ctx () { ctx with keys, source } :=
  Action.bind_gives.2 ⟨_, _, Action.get_gives.2 ⟨rfl, rfl⟩,
    Action.bind_gives.2 ⟨_, _, Action.ofAttempt_gives.2 ⟨h, rfl⟩, Action.set_gives.2 rfl⟩⟩

/-- A call that makes or replaces the keys of a context. -/
inductive KeyCall where
  | generate (sk : Lwe.Secret) (mode : KeyMode)
  | install (rotation : BlindRotation.Key) (switching : Lwe.SwitchingKey)

namespace KeyCall

def action : KeyCall → Action Unit
  | generate sk mode => Context.bootstrapKeyGen sk mode
  | install rotation switching => Context.installJointKey rotation switching

/-- The context after a call, if the call succeeds. -/
def step (ctx : Context) (call : KeyCall) : Option Context :=
  match call.action.run.run ctx with
  | .ok (.ok _, next) => some next
  | _ => none

/-- The context after some calls, if all of them succeed. -/
def run (start : Context) (calls : List KeyCall) : Option Context := calls.foldlM step start

def publishes : KeyCall → Bool
  | generate _ .publishing => true
  | _ => false

variable {start ctx next : Context} {calls rest : List KeyCall} {call : KeyCall} {i j : ℕ}

theorem run_cons : run start (call :: calls) = (step start call).bind (run · calls) := List.foldlM_cons ..

theorem run_concat : run start (calls ++ [call]) = (run start calls).bind (step · call) := by
  rw [run, List.foldlM_append]
  exact bind_congr fun ctx => bind_pure _

theorem step_eq_some : step ctx call = some next ↔ call.action.Gives ctx () next := by
  unfold step Action.Gives
  constructor
  · intro h
    split at h
    · rename_i hrun
      cases h
      exact hrun
    · cases h
  · intro h
    rw [h]

theorem step_generate {sk : Lwe.Secret} {mode : KeyMode}
    (h : step ctx (.generate sk mode) = some next) : ∃ keys source,
      ctx.keys.generate ctx.params ctx.ring sk mode ctx.source = pure (keys, source) ∧
        next = { ctx with keys, source } := by
  obtain ⟨_, _, hget, hrest⟩ := Action.bind_gives.1 (step_eq_some.1 h)
  obtain ⟨rfl, rfl⟩ := Action.get_gives.1 hget
  obtain ⟨⟨keys, source⟩, _, hgenerate, hset⟩ := Action.bind_gives.1 hrest
  obtain ⟨hkeys, rfl⟩ := Action.ofAttempt_gives.1 hgenerate
  exact ⟨keys, source, hkeys, Action.set_gives.1 hset⟩

theorem step_install {rotation : BlindRotation.Key} {switching : Lwe.SwitchingKey}
    (h : step ctx (.install rotation switching) = some next) :
    next = { ctx with keys := ctx.keys.install rotation switching } := by
  obtain ⟨_, _, hget, hrest⟩ := Action.bind_gives.1 (step_eq_some.1 h)
  obtain ⟨rfl, rfl⟩ := Action.get_gives.1 hget
  obtain ⟨blocks, _, hblocks, hrest⟩ := Action.bind_gives.1 hrest
  obtain ⟨-, rfl⟩ := Action.liftM_gives.1 hblocks
  obtain ⟨_, _, hrequire, hset⟩ := Action.bind_gives.1 hrest
  obtain ⟨-, rfl⟩ := Action.require_gives.1 hrequire
  exact Action.set_gives.1 hset

section Generate

variable {sk : Lwe.Secret} {mode : KeyMode}

theorem activeBase_of_step (h : step ctx (.generate sk mode) = some next) :
    next.keys.activeBase = ctx.keys.activeBase := by
  obtain ⟨keys, source, hgenerate, rfl⟩ := step_generate h
  rcases generate_cases hgenerate with ⟨-, -, rfl⟩ | ⟨-, hrefresh⟩
  · exact kept_activeBase
  · obtain ⟨fresh, -, hrefreshed⟩ := exists_refreshed hrefresh
    exact hrefreshed.activeBase_eq.trans kept_activeBase

theorem params_of_step (h : step ctx (.generate sk mode) = some next) : next.params = ctx.params := by
  obtain ⟨keys, source, -, rfl⟩ := step_generate h
  rfl

theorem isSome_active_of_step (h : step ctx (.generate sk mode) = some next) :
    (next.keys.get? next.keys.activeBase).isSome := by
  rw [activeBase_of_step h]
  obtain ⟨keys, source, hgenerate, rfl⟩ := step_generate h
  rcases generate_cases hgenerate with ⟨-, hactive, rfl⟩ | ⟨-, hrefresh⟩
  · exact hactive
  · obtain ⟨fresh, -, -, -, -, hactive⟩ := refresh_eq_ok hrefresh
    rwa [kept_activeBase] at hactive

theorem fingerprint_of_step (h : step ctx (.generate sk mode) = some next) :
    next.keys.fingerprint = some (Digest.fingerprint sk.coefficients) := by
  obtain ⟨keys, source, hgenerate, rfl⟩ := step_generate h
  rcases generate_cases hgenerate with ⟨-, -, rfl⟩ | ⟨-, hrefresh⟩
  · exact kept_fingerprint _ _
  · obtain ⟨fresh, -, hrefreshed⟩ := exists_refreshed hrefresh
    exact hrefreshed.fingerprint_eq.trans (kept_fingerprint _ _)

theorem publicKey_of_symmetric (h : step ctx (.generate sk .symmetric) = some next) :
    next.keys.publicKey = (ctx.keys.kept sk).publicKey := by
  obtain ⟨keys, source, hgenerate, rfl⟩ := step_generate h
  rcases generate_cases hgenerate with ⟨-, -, rfl⟩ | ⟨-, hrefresh⟩
  · rfl
  · obtain ⟨fresh, ⟨_, _, _, -, -, hnone⟩, -, hpublic, -⟩ := refresh_eq_ok hrefresh
    change keys.publicKey = _
    rw [hpublic, hnone]
    rfl

theorem isSome_publicKey_of_publishing (h : step ctx (.generate sk .publishing) = some next) :
    next.keys.publicKey.isSome := by
  obtain ⟨keys, source, hgenerate, rfl⟩ := step_generate h
  rw [(admits_of_generate hgenerate).generate_eq_ite] at hgenerate
  split at hgenerate
  · rename_i hkept
    cases Attempt.pure_injective hgenerate
    exact hkept.2.2 rfl
  · obtain ⟨fresh, ⟨_, _, _, -, -, pk, _, hpk, -⟩, hrefreshed⟩ :=
      exists_refreshed (Attempt.liftM_eq_pure.1 hgenerate)
    change keys.publicKey.isSome
    rw [hrefreshed.publicKey_eq, hpk]
    rfl

theorem exists_step (ctx : Context) {drawn : Array Lwe.Sample} {rest : Stream}
    (hsupports : Supports ctx.params ctx.ring)
    (hbases : ctx.keys.basesToMake ctx.params = [ctx.keys.activeBase]) (hadmits : Admits ctx.params sk)
    (hpublic : mode = .publishing → ctx.params.lwe.ringModulus = ctx.params.rgsw.ringModulus ∧
      ctx.params.lwe.ringDimension * ctx.params.lwe.ringDimension < 2 ^ 60)
    (hmissing : ¬(ctx.params.everyBase = false ∧ ((ctx.keys.kept sk).get? ctx.keys.activeBase).isSome ∧
      (mode = .publishing → (ctx.keys.kept sk).publicKey.isSome)))
    (hdraws : drawKeys ctx.params ctx.ring.modulus ctx.keys.activeBase ctx.source = .ok (drawn, rest)) :
    ∃ keys key, step ctx (.generate sk mode) = some { ctx with keys, source := rest } ∧
      keys.switchingKey = some key ∧ key.entries.map (·.mask) = drawn.map (·.mask) := by
  have hkept : (ctx.keys.kept sk).basesToMake ctx.params = [(ctx.keys.kept sk).activeBase] := by
    rw [kept_basesToMake, kept_activeBase, hbases]
  rw [← kept_activeBase] at hdraws
  obtain ⟨keys, key, hrefresh, hkey, hmasks⟩ := exists_refresh hsupports hkept hadmits.ternary
    hadmits.dimension_eq hpublic hdraws
  have hgenerate : ctx.keys.generate ctx.params ctx.ring sk mode ctx.source = pure (keys, rest) := by
    rw [hadmits.generate_eq_ite, if_neg hmissing, hrefresh, Attempt.liftM_ok]
  exact ⟨keys, key, step_eq_some.2 (Context.bootstrapKeyGen_gives hgenerate), hkey, hmasks⟩

end Generate

/-- Call `i` of a run made some keys. -/
def Made (start : Context) (calls : List KeyCall) (i : ℕ) (fresh : Fresh) : Prop :=
  ∃ sk mode ctx, calls[i]? = some (.generate sk mode) ∧ run start (calls.take i) = some ctx ∧
    Generates ctx.params sk mode ctx.source fresh

theorem Made.lt {fresh : Fresh} (h : Made start calls i fresh) : i < calls.length := by
  obtain ⟨sk, mode, ctx, hcall, -, -⟩ := h
  exact (List.getElem?_eq_some_iff.1 hcall).1

theorem Made.concat {fresh : Fresh} (h : Made start calls i fresh) :
    Made start (calls ++ [call]) i fresh := by
  have hi := h.lt
  obtain ⟨sk, mode, ctx, hcall, hrun, hfresh⟩ := h
  refine ⟨sk, mode, ctx, ?_, ?_, hfresh⟩
  · rwa [List.getElem?_append_left hi]
  · rwa [List.take_append_of_le_length hi.le]

theorem made_last {sk : Lwe.Secret} {mode : KeyMode} {fresh : Fresh} (hrun : run start calls = some ctx)
    (h : Generates ctx.params sk mode ctx.source fresh) :
    Made start (calls ++ [.generate sk mode]) calls.length fresh := by
  refine ⟨sk, mode, ctx, List.getElem?_concat_length, ?_, h⟩
  rwa [List.take_left]

theorem Made.unique {x y : Fresh} (hx : Made start calls i x) (hy : Made start calls i y) : x = y := by
  obtain ⟨sk, mode, ctx, hcall, hrun, hx⟩ := hx
  obtain ⟨sk', mode', ctx', hcall', hrun', hy⟩ := hy
  cases hcall.symm.trans hcall'
  cases hrun.symm.trans hrun'
  exact hx.unique hy

/-- Call `i` of a run made the public key of a store, and call `j` its switching key, which is also that of
all its bootstrap keys. -/
structure Origins (start : Context) (calls : List KeyCall) (store : KeyStore) (i j : ℕ)
    (published made : Fresh) : Prop where
  published_by : Made start calls i published
  made_by : Made start calls j made
  publicKey_eq : store.publicKey = published.publicKey
  switchesBy : store.SwitchesBy made.switching

/-- What a run keeps: a public key has its origin, and the active key is there with it. -/
structure Invariant (start : Context) (calls : List KeyCall) (ctx : Context) : Prop where
  active : ctx.keys.publicKey.isSome → (ctx.keys.get? ctx.keys.activeBase).isSome
  origins : ctx.keys.publicKey.isSome → ∃ i j published made,
    Origins start calls ctx.keys i j published made ∧
      (i = j ↔ ctx.params.everyBase = false ∨ calls.getLast?.any publishes)

variable {sk : Lwe.Secret} {mode : KeyMode} {source : Stream} {store : KeyStore} {fresh : Fresh}

private theorem Invariant.keep (h : Invariant start calls ctx) (heach : ctx.params.everyBase = false)
    (hactive : ((ctx.keys.kept sk).get? ctx.keys.activeBase).isSome) :
    Invariant start (calls ++ [call]) { ctx with keys := ctx.keys.kept sk, source } := by
  refine ⟨fun _ => ?_, fun hpk => ?_⟩
  · change ((ctx.keys.kept sk).get? (ctx.keys.kept sk).activeBase).isSome
    rwa [kept_activeBase]
  · obtain ⟨pk, hpk⟩ := Option.isSome_iff_exists.1 hpk
    have hkept : ctx.keys.kept sk = ctx.keys := kept_publicKey hpk
    change (ctx.keys.kept sk).publicKey = some pk at hpk
    rw [hkept] at hpk ⊢
    obtain ⟨i, j, published, made, horigins, hiff⟩ := h.origins (by rw [hpk]; rfl)
    have hij : i = j := hiff.2 (.inl heach)
    refine ⟨i, j, published, made, ⟨horigins.published_by.concat, horigins.made_by.concat,
      horigins.publicKey_eq, horigins.switchesBy⟩, ?_⟩
    exact iff_of_true hij (.inl heach)

private theorem Invariant.publish {old : Option Lwe.PublicKey} (hrun : run start calls = some ctx)
    (hfresh : Generates ctx.params sk .publishing ctx.source fresh)
    (hswitches : store.SwitchesBy fresh.switching)
    (hpk : store.publicKey = (fresh.publicKey <|> old))
    (hactive : (store.get? store.activeBase).isSome) :
    Invariant start (calls ++ [.generate sk .publishing]) { ctx with keys := store, source } := by
  have hmade := made_last hrun hfresh
  obtain ⟨_, _, _, -, -, pk, _, hsome, -⟩ := hfresh
  have hpublished : store.publicKey = fresh.publicKey := by
    rw [hpk, hsome]
    rfl
  refine ⟨fun _ => hactive, fun _ => ⟨_, _, fresh, fresh, ⟨hmade, hmade, hpublished, hswitches⟩, ?_⟩⟩
  refine iff_of_true rfl (.inr ?_)
  rw [List.getLast?_concat]
  rfl

private theorem Invariant.part (h : Invariant start calls ctx) (hrun : run start calls = some ctx)
    (hwhy : ctx.params.everyBase = true ∨
      ¬((ctx.keys.kept sk).get? ctx.keys.activeBase).isSome ∨ KeyMode.symmetric = .publishing)
    (hfresh : Generates ctx.params sk .symmetric ctx.source fresh)
    (hswitches : store.SwitchesBy fresh.switching)
    (hpk : store.publicKey = (fresh.publicKey <|> (ctx.keys.kept sk).publicKey))
    (hactive : (store.get? store.activeBase).isSome) :
    Invariant start (calls ++ [.generate sk .symmetric]) { ctx with keys := store, source } := by
  have hmade := made_last hrun hfresh
  obtain ⟨_, _, _, -, -, hnone⟩ := hfresh
  have hold : store.publicKey = (ctx.keys.kept sk).publicKey := by
    rw [hpk, hnone]
    rfl
  refine ⟨fun _ => hactive, fun hsome => ?_⟩
  obtain ⟨pk, hsome⟩ := Option.isSome_iff_exists.1 hsome
  have hkept : ctx.keys.kept sk = ctx.keys := kept_publicKey (hold.symm.trans hsome)
  rw [hkept] at hold hwhy
  have hthere : ctx.keys.publicKey.isSome := by
    rw [← hold]
    exact Option.isSome_iff_exists.2 ⟨pk, hsome⟩
  -- The active key is there, so the call made keys only because it does so for every base.
  have heach : ctx.params.everyBase = true :=
    hwhy.resolve_right fun h' => h'.elim (· (h.active hthere)) (nomatch ·)
  obtain ⟨i, j, published, made, horigins, -⟩ := h.origins hthere
  refine ⟨i, calls.length, published, fresh, ⟨horigins.published_by.concat, hmade,
    hold.trans horigins.publicKey_eq, hswitches⟩, ?_⟩
  refine iff_of_false horigins.published_by.lt.ne ?_
  rw [List.getLast?_concat, not_or]
  exact ⟨by rw [heach]; decide, fun hpublishes => (nomatch hpublishes)⟩

theorem Invariant.generate (h : Invariant start calls ctx)
    (hrun : run start calls = some ctx) (hstep : step ctx (.generate sk mode) = some next) :
    Invariant start (calls ++ [.generate sk mode]) next := by
  obtain ⟨keys, source, hgenerate, rfl⟩ := step_generate hstep
  rcases generate_cases hgenerate with ⟨heach, hactive, rfl⟩ | ⟨hwhy, hrefresh⟩
  · exact h.keep heach hactive
  · obtain ⟨fresh, hfresh, hswitches, hpk, hbase, hactive⟩ := refresh_eq_ok hrefresh
    rw [← hbase] at hactive
    cases mode with
    | symmetric => exact h.part hrun hwhy hfresh hswitches hpk hactive
    | publishing => exact .publish hrun hfresh hswitches hpk hactive

theorem Invariant.install {rotation : BlindRotation.Key} {switching : Lwe.SwitchingKey}
    (hstep : step ctx (.install rotation switching) = some next) :
    Invariant start (calls ++ [.install rotation switching]) next := by
  rw [step_install hstep]
  exact ⟨fun h => (nomatch h), fun h => (nomatch h)⟩

private theorem invariant_of_run {base : ℕ} (hstart : start.keys = .empty base)
    (hrun : run start calls = some ctx) : Invariant start calls ctx := by
  induction calls using List.reverseRecOn generalizing ctx with
  | nil =>
    cases hrun
    have hnone : start.keys.publicKey = none := by rw [hstart]; rfl
    exact ⟨fun h => by simp [hnone] at h, fun h => by simp [hnone] at h⟩
  | append_singleton calls call ih =>
    rw [run_concat, Option.bind_eq_some_iff] at hrun
    obtain ⟨mid, hmid, hstep⟩ := hrun
    cases call with
    | generate sk mode => exact (ih hmid).generate hmid hstep
    | install rotation switching => exact .install hstep

/-- A stored public key is of the same call as the switching keys exactly when keys are not made for every
base or the last call published. -/
theorem origins_of_run {base : ℕ} (hstart : start.keys = .empty base)
    (hrun : run start calls = some ctx) :
    ctx.keys.publicKey = none ∨ ∃ i j published made,
      Origins start calls ctx.keys i j published made ∧ (i = j → published = made) ∧
        (i = j ↔ ctx.params.everyBase = false ∨ calls.getLast?.any publishes) := by
  rcases hpk : ctx.keys.publicKey with _ | pk
  · exact .inl rfl
  · have hsome : ctx.keys.publicKey.isSome := by
      rw [hpk]
      rfl
    obtain ⟨i, j, published, made, horigins, hiff⟩ := (invariant_of_run hstart hrun).origins hsome
    refine .inr ⟨i, j, published, made, horigins, fun hij => ?_, hiff⟩
    have hmade := horigins.made_by
    rw [← hij] at hmade
    exact horigins.published_by.unique hmade

section Sample

def sampleCall (mode : KeyMode) : KeyCall := .generate ⟨#[1], .ternary⟩ mode

/-- A call for the keys of the sample in a fresh context, and another one that makes keys anew. -/
theorem exists_sampleSteps (everyBase : Bool) (mode mode' : KeyMode)
    (hmade : everyBase = true ∨ mode = .symmetric ∧ mode' = .publishing) :
    ∃ start first next key key' drawn rest, Context.ofSeed (sampleFor everyBase) #[1] = pure start ∧
      step start (sampleCall mode) = some first ∧ step first (sampleCall mode') = some next ∧
      (first.params = sampleFor everyBase ∧ Supports (sampleFor everyBase) first.ring) ∧
      drawKeys (sampleFor everyBase) first.ring.modulus first.keys.activeBase first.source =
        .ok (drawn, rest) ∧
      first.keys.switchingKey = some key ∧ next.keys.switchingKey = some key' ∧ key ≠ key' := by
  have hdegree : (sampleFor everyBase).rgsw.ringDimension = 4 := rfl
  obtain ⟨start, hstart⟩ := Context.exists_ofSeed_four hdegree rfl #[1]
  obtain ⟨ring, hring, rfl⟩ := Context.ofSeed_eq_pure hstart
  obtain ⟨-, hvalue, -⟩ := NegacyclicRing.check_shape hring
  have hsupports := supports_sample hring everyBase
  have hadmits : Admits (sampleFor everyBase) ⟨#[1], .ternary⟩ := ⟨rfl, rfl, rfl⟩
  have hbases (store : KeyStore) : store.basesToMake (sampleFor everyBase) = [store.activeBase] := by
    cases everyBase <;> rfl
  have hpublic (mode : KeyMode) (_ : mode = .publishing) :
      (sampleFor everyBase).lwe.ringModulus = (sampleFor everyBase).rgsw.ringModulus ∧
        (sampleFor everyBase).lwe.ringDimension * (sampleFor everyBase).lwe.ringDimension < 2 ^ 60 :=
    ⟨rfl, show 4 * 4 < 2 ^ 60 by norm_num⟩
  obtain ⟨drawn, drawn', rest, rest', hdrawn, hdrawn', hne⟩ := exists_sampleDraws hvalue
  obtain ⟨keys, key, hstep, hkey, hmasks⟩ := exists_step ⟨sampleFor everyBase, ring, .empty 32, .ofSeed #[1]⟩
    hsupports (hbases _) hadmits (hpublic mode) (fun h => Bool.false_ne_true h.2.1) hdrawn
  have hactive : keys.activeBase = 32 := activeBase_of_step hstep
  have hmissing : ¬(everyBase = false ∧ ((keys.kept ⟨#[1], .ternary⟩).get? keys.activeBase).isSome ∧
      (mode' = .publishing → (keys.kept ⟨#[1], .ternary⟩).publicKey.isSome)) := by
    rintro ⟨rfl, -, hsome⟩
    obtain hevery | ⟨rfl, rfl⟩ := hmade
    · exact Bool.false_ne_true hevery
    · obtain ⟨pk, hpk⟩ := Option.isSome_iff_exists.1 (hsome rfl)
      have hnone : keys.publicKey = none := publicKey_of_symmetric hstep
      rw [kept_publicKey hpk, hnone] at hpk
      cases hpk
  rw [← hactive] at hdrawn'
  obtain ⟨keys', key', hstep', hkey', hmasks'⟩ := exists_step ⟨sampleFor everyBase, ring, keys, rest⟩
    hsupports (hbases _) hadmits (hpublic mode') hmissing hdrawn'
  refine ⟨_, _, _, key, key', drawn', rest', hstart, hstep, hstep', ⟨rfl, hsupports⟩, hdrawn', hkey, hkey', ?_⟩
  rintro rfl
  exact hne (hmasks.symm.trans hmasks')

/-- With keys for every base: a call that publishes makes the public key and the switching key, and one after
it that does not publish makes another switching key and leaves the public key. -/
theorem origins_of_run_sample : ∃ start first next,
    Context.ofSeed (sampleFor true) #[1] = pure start ∧
    run start [sampleCall .publishing] = some first ∧
    run start [sampleCall .publishing, sampleCall .symmetric] = some next ∧
    first.keys.publicKey.isSome ∧ next.keys.publicKey = first.keys.publicKey ∧
    next.keys.switchingKey ≠ first.keys.switchingKey ∧
    (∃ i made, Origins start [sampleCall .publishing] first.keys i i made made) ∧
    ∃ i j published made, i ≠ j ∧
      Origins start [sampleCall .publishing, sampleCall .symmetric] next.keys i j published made := by
  obtain ⟨start, first, next, key, key', -, -, hstart, hstep, hstep', ⟨hparams, -⟩, -, hkey, hkey', hne⟩ :=
    exists_sampleSteps true .publishing .symmetric (.inl rfl)
  have hempty : start.keys = .empty 32 := by
    obtain ⟨ring, -, rfl⟩ := Context.ofSeed_eq_pure hstart
    rfl
  have hfirst : run start [sampleCall .publishing] = some first := by rw [run_cons, hstep]; rfl
  have hnext : run start [sampleCall .publishing, sampleCall .symmetric] = some next := by
    rw [run_cons, hstep, Option.bind_some, run_cons, hstep']
    rfl
  have hpublic := isSome_publicKey_of_publishing hstep
  have hkept : first.keys.kept ⟨#[1], .ternary⟩ = first.keys := if_pos (fingerprint_of_step hstep)
  have hsame : next.keys.publicKey = first.keys.publicKey :=
    (publicKey_of_symmetric hstep').trans (congrArg _ hkept)
  refine ⟨start, first, next, hstart, hfirst, hnext, hpublic, hsame, ?_, ?_, ?_⟩
  · rw [hkey, hkey']
    exact fun h => hne (Option.some.inj h).symm
  · obtain hnone | ⟨i, j, published, made, horigins, hmade, hiff⟩ := origins_of_run hempty hfirst
    · rw [hnone] at hpublic
      cases hpublic
    · obtain rfl : i = j := hiff.2 (.inr rfl)
      obtain rfl := hmade rfl
      exact ⟨i, published, horigins⟩
  · obtain hnone | ⟨i, j, published, made, horigins, -, hiff⟩ := origins_of_run hempty hnext
    · rw [← hsame, hnone] at hpublic
      cases hpublic
    · have hevery : next.params.everyBase = true := by
        rw [params_of_step hstep', hparams]
        rfl
      refine ⟨i, j, published, made, fun hij => ?_, horigins⟩
      rw [hevery] at hiff
      exact (hiff.1 hij).elim (nomatch ·) (nomatch ·)

end Sample

end KeyCall

end LatticeGates
