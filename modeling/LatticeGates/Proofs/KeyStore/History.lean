import LatticeGates.Proofs.KeyStore.Provenance

/-!
# The keys of a store after any calls

Main statement: whatever calls were made, and whether they succeeded or not, a store holds no keys before
the first success, then those of one large secret for the secret of the last success, or the joint key that
it installed. Keys of two calls never stand side by side.
-/

namespace LatticeGates.KeyCall

open KeyStore

/-- The contexts that calls lead to, with the calls and their answers, the last one first. A call may answer
with an error. -/
inductive Reaches (start : Context) : List (KeyCall × Except Error Unit) → Context → Prop
  | start : Reaches start [] start
  | call {history : List (KeyCall × Except Error Unit)} {ctx next : Context} {call : KeyCall}
      {answer : Except Error Unit} (before : Reaches start history ctx)
      (run : call.action.run.run ctx = .ok (answer, next)) :
      Reaches start ((call, answer) :: history) next

def lastDone : List (KeyCall × Except Error Unit) → Option KeyCall
  | [] => none
  | (call, .ok _) :: _ => some call
  | (_, .error _) :: history => lastDone history

variable {start ctx next : Context} {history : List (KeyCall × Except Error Unit)} {call : KeyCall}

theorem mem_of_lastDone (h : lastDone history = some call) : (call, .ok ()) ∈ history := by
  induction history with
  | nil => cases h
  | cons entry history ih =>
    obtain ⟨last, _ | _⟩ := entry
    · exact List.mem_cons_of_mem _ (ih h)
    · cases h
      exact List.mem_cons_self

theorem eq_of_fails {e : Error} (h : call.action.Fails ctx e next) : next = ctx := by
  cases call with
  | generate sk mode =>
    rcases Action.bind_fails.1 h with hget | ⟨_, _, hget, hrest⟩
    · exact (Action.not_get_fails hget).elim
    obtain ⟨rfl, rfl⟩ := Action.get_gives.1 hget
    rcases Action.bind_fails.1 hrest with hgenerate | ⟨_, _, -, hset⟩
    · exact (Action.ofAttempt_fails.1 hgenerate).2
    · exact (Action.not_set_fails hset).elim
  | install rotation switching =>
    rcases Action.bind_fails.1 h with hget | ⟨_, _, hget, hrest⟩
    · exact (Action.not_get_fails hget).elim
    obtain ⟨rfl, rfl⟩ := Action.get_gives.1 hget
    rcases Action.bind_fails.1 hrest with hblocks | ⟨blocks, _, hblocks, hrest⟩
    · exact (Action.not_liftM_fails hblocks).elim
    obtain ⟨-, rfl⟩ := Action.liftM_gives.1 hblocks
    rcases Action.bind_fails.1 hrest with hrequire | ⟨_, _, -, hset⟩
    · exact (Action.require_fails.1 hrequire).2.2
    · exact (Action.not_set_fails hset).elim

/-- A call of the history that succeeded asked for keys of `sk`, and its stream is that of `fresh`. -/
def Generated (start : Context) (history : List (KeyCall × Except Error Unit)) (sk : Lwe.Secret)
    (fresh : Fresh) : Prop :=
  ∃ mode earlier ctx, ((generate sk mode, .ok ()) :: earlier) <:+ history ∧
    Reaches start earlier ctx ∧ Generates ctx.params sk mode ctx.source fresh

variable {sk : Lwe.Secret} {mode : KeyMode} {fresh : Fresh} {base : ℕ} {store : KeyStore}
  {done : Option KeyCall}

theorem Generated.cons (h : Generated start history sk fresh) (entry : KeyCall × Except Error Unit) :
    Generated start (entry :: history) sk fresh := by
  obtain ⟨mode, earlier, ctx, hsuffix, hreaches, hfresh⟩ := h
  exact ⟨mode, earlier, ctx, hsuffix.trans (List.suffix_cons _ _), hreaches, hfresh⟩

theorem Generated.mem (h : Generated start history sk fresh) :
    ∃ mode, (generate sk mode, .ok ()) ∈ history := by
  obtain ⟨mode, earlier, ctx, hsuffix, -, -⟩ := h
  exact ⟨mode, hsuffix.subset List.mem_cons_self⟩

/-- What a store holds, by the last call that succeeded. The keys of a secret may be those that an earlier
call made of a secret with the same fingerprint. -/
inductive Holds (start : Context) (history : List (KeyCall × Except Error Unit)) (base : ℕ) :
    Option KeyCall → KeyStore → Prop
  | nothing : Holds start history base none (.empty base)
  | installed (rotation : BlindRotation.Key) (switching : Lwe.SwitchingKey) :
      Holds start history base (some (.install rotation switching))
        ((KeyStore.empty base).install rotation switching)
  | generated {store : KeyStore} {sk made : Lwe.Secret} {mode : KeyMode} {fresh : Fresh}
      (origin : Generated start history made fresh)
      (same : Digest.fingerprint made.coefficients = Digest.fingerprint sk.coefficients)
      (fingerprint_eq : store.fingerprint = some (Digest.fingerprint sk.coefficients))
      (activeBase_eq : store.activeBase = base)
      (madeFrom : store.MadeFrom start.params start.ring made fresh)
      (bases : ∀ b, (store.get? b).isSome ↔
        (start.params.everyBase = true ∧ b ∈ start.params.rgsw.gadgets.keys) ∨ b = base) :
      Holds start history base (some (.generate sk mode)) store

theorem Holds.cons (h : Holds start history base done store)
    (entry : KeyCall × Except Error Unit) : Holds start (entry :: history) base done store := by
  cases h with
  | nothing => exact .nothing
  | installed rotation switching => exact .installed rotation switching
  | generated origin same fingerprint_eq activeBase_eq madeFrom bases =>
    exact .generated (origin.cons entry) same fingerprint_eq activeBase_eq madeFrom bases

theorem Holds.activeBase_eq (h : Holds start history base done store) : store.activeBase = base := by
  cases h with
  | nothing => rfl
  | installed => rfl
  | generated _ _ _ h => exact h

/-- What a run keeps: the parameters, the ring, and a store that the last success explains. -/
structure Explained (start : Context) (history : List (KeyCall × Except Error Unit)) (base : ℕ)
    (ctx : Context) : Prop where
  params_eq : ctx.params = start.params
  ring_eq : ctx.ring = start.ring
  holds : Holds start history base (lastDone history) ctx.keys

theorem Explained.fail {e : Error} (h : Explained start history base ctx)
    (hfails : call.action.Fails ctx e next) :
    Explained start ((call, .error e) :: history) base next := by
  rw [eq_of_fails hfails]
  exact ⟨h.params_eq, h.ring_eq, h.holds.cons _⟩

theorem Explained.install {rotation : BlindRotation.Key} {switching : Lwe.SwitchingKey}
    (h : Explained start history base ctx)
    (hgives : (install rotation switching).action.Gives ctx () next) :
    Explained start ((install rotation switching, .ok ()) :: history) base next := by
  rw [step_install (step_eq_some.2 hgives)]
  refine ⟨h.params_eq, h.ring_eq, ?_⟩
  have hinstall : ctx.keys.install rotation switching =
      (KeyStore.empty base).install rotation switching := by
    rw [← h.holds.activeBase_eq]
    rfl
  change Holds _ _ _ _ (ctx.keys.install rotation switching)
  rw [hinstall]
  exact .installed rotation switching

private theorem Holds.keep (h : Holds start history base done store)
    (hsome : ((store.kept sk).get? store.activeBase).isSome) (entry : KeyCall × Except Error Unit) :
    Holds start (entry :: history) base (some (.generate sk mode)) (store.kept sk) := by
  have hkept := kept_of_isSome hsome
  have hfingerprint : store.fingerprint = some (Digest.fingerprint sk.coefficients) := by
    rw [← kept_fingerprint store sk, hkept]
  rw [hkept]
  cases h with
  | nothing => cases hfingerprint
  | installed => cases hfingerprint
  | generated origin same fingerprint_eq activeBase_eq madeFrom bases =>
    have hsk := Option.some.inj (fingerprint_eq.symm.trans hfingerprint)
    exact .generated (origin.cons entry) (same.trans hsk) hfingerprint activeBase_eq madeFrom bases

theorem Explained.generate (h : Explained start history base ctx) (hreaches : Reaches start history ctx)
    (hgives : (generate sk mode).action.Gives ctx () next) :
    Explained start ((.generate sk mode, .ok ()) :: history) base next := by
  obtain ⟨keys, source, hgenerate, rfl⟩ := step_generate (step_eq_some.2 hgives)
  refine ⟨h.params_eq, h.ring_eq, ?_⟩
  rcases generate_cases hgenerate with ⟨-, hsome, rfl⟩ | ⟨-, hrefresh⟩
  · exact h.holds.keep hsome _
  · obtain ⟨fresh, hfresh, hrefreshed⟩ := exists_refreshed hrefresh
    have hbase : (ctx.keys.kept sk).activeBase = base := by
      rw [kept_activeBase, h.holds.activeBase_eq]
    refine .generated ⟨mode, history, ctx, List.suffix_rfl, hreaches, hfresh⟩ rfl
      (hrefreshed.fingerprint_eq.trans (kept_fingerprint _ _)) (hrefreshed.activeBase_eq.trans hbase) ?_
      fun b => ?_
    · rw [← h.params_eq, ← h.ring_eq]
      exact hrefreshed.madeFrom
    · rw [hrefreshed.isSome_get?, mem_basesToMake, hbase, h.params_eq]

theorem Reaches.explained (hstart : start.keys = .empty base) (h : Reaches start history ctx) :
    Explained start history base ctx := by
  induction h with
  | start =>
    refine ⟨rfl, rfl, ?_⟩
    rw [hstart]
    exact .nothing
  | @call history ctx next call answer before run ih =>
    match answer, run with
    | .error e, run => exact ih.fail run
    | .ok (), run =>
      cases call with
      | generate sk mode => exact ih.generate before run
      | install rotation switching => exact ih.install run

/-- No two secrets of the successful calls have the same fingerprint. -/
def Distinguishes (history : List (KeyCall × Except Error Unit)) : Prop :=
  ∀ sk sk' mode mode', (generate sk mode, .ok ()) ∈ history → (generate sk' mode', .ok ()) ∈ history →
    Digest.fingerprint sk.coefficients = Digest.fingerprint sk'.coefficients →
      sk.coefficients = sk'.coefficients

/-- All refresh keys are those that a call made for the secret of the last success, or the joint key which
the last success installed. -/
def OfLast (start : Context) (history : List (KeyCall × Except Error Unit)) (ctx : Context) : Prop :=
  match lastDone history with
  | none => ∀ b, ctx.keys.get? b = none
  | some (.generate sk _) => ∃ made fresh, made.coefficients = sk.coefficients ∧
      Generated start history made fresh ∧ ctx.keys.MadeFrom ctx.params ctx.ring sk fresh
  | some (.install rotation switching) =>
      ∀ b key, ctx.keys.get? b = some key → key = ⟨ctx.keys.activeBase, rotation, switching⟩

theorem Holds.entry (h : Holds start history base done store) {b : ℕ} {key : BootstrapKey}
    (hkey : store.get? b = some key) : key.base = b ∧ store.switchingKey = some key.switching := by
  cases h with
  | nothing => cases hkey
  | installed rotation switching =>
    rw [get?_install] at hkey
    split at hkey
    · rename_i hb
      cases hkey
      exact ⟨hb.symm, rfl⟩
    · cases hkey
  | generated _ _ _ _ madeFrom _ =>
    have hswitches := madeFrom.switchesBy
    exact ⟨madeFrom.base_eq hkey, hswitches.stored.trans (by rw [hswitches.refresh b key hkey])⟩

private theorem eq_singleton {xs : List ℕ} {x : ℕ} (hxs : xs.Pairwise (· < ·))
    (h : ∀ y, y ∈ xs ↔ y = x) : xs = [x] := by
  have hnodup : xs.Nodup := hxs.imp Nat.ne_of_lt
  refine List.perm_singleton.1 ((List.perm_ext_iff_of_nodup hnodup (List.nodup_singleton x)).2 fun y => ?_)
  rw [h y, List.mem_singleton]

private theorem Holds.bases (h : Holds start history base done store) : store.bases = [] ∨
    store.bases = [base] ∨ (start.params.everyBase = true ∧ (∃ sk mode, done = some (generate sk mode)) ∧
      ∀ b, b ∈ store.bases ↔ b ∈ start.params.rgsw.gadgets.keys ∨ b = base) := by
  cases h with
  | nothing => exact .inl rfl
  | installed rotation switching => exact .inr (.inl rfl)
  | @generated _ sk _ mode _ _ _ _ _ _ bases =>
    have hmem (b : ℕ) : b ∈ store.bases ↔
        (start.params.everyBase = true ∧ b ∈ start.params.rgsw.gadgets.keys) ∨ b = base := by
      rw [← bases b]
      exact Registry.mem_keys _ _
    cases heach : start.params.everyBase with
    | true =>
      simp only [heach, true_and] at hmem
      exact .inr (.inr ⟨rfl, ⟨sk, mode, rfl⟩, hmem⟩)
    | false =>
      simp only [heach, Bool.false_eq_true, false_and, false_or] at hmem
      exact .inr (.inl (eq_singleton (Registry.keys_increasing _) hmem))

private theorem MadeFrom.of_coefficients {params : Params} {ring : NegacyclicRing} {made : Lwe.Secret}
    (h : store.MadeFrom params ring made fresh) (hsk : made.coefficients = sk.coefficients) :
    store.MadeFrom params ring sk fresh := by
  obtain ⟨coefficients, d⟩ := made
  obtain ⟨_, d'⟩ := sk
  cases hsk
  exact ⟨h.stored, h.refresh⟩

private theorem Explained.ofLast (h : Explained start history base ctx)
    (hdistinct : Distinguishes history) : OfLast start history ctx := by
  have hholds := h.holds
  unfold OfLast
  generalize hdone : lastDone history = done at hholds
  generalize hkeys : ctx.keys = store at hholds
  cases hholds with
  | nothing => exact fun b => rfl
  | installed rotation switching =>
    intro b key hkey
    rw [get?_install] at hkey
    split at hkey
    · cases hkey
      rfl
    · cases hkey
  | @generated _ sk made mode fresh origin same _ _ madeFrom _ =>
    obtain ⟨mode', hmade⟩ := origin.mem
    have hsk := hdistinct made sk mode' mode hmade (mem_of_lastDone hdone) same
    refine ⟨made, fresh, hsk, origin, ?_⟩
    rw [h.params_eq, h.ring_eq]
    exact MadeFrom.of_coefficients madeFrom hsk

/-- After any calls, successful or not: refresh keys stand under their own bases and share the switching key
of the store; the active base has one if any base has; the bases are none, the active one, or all of them;
and the keys are all of one call. -/
theorem keys_of_reaches (hstart : start.keys = .empty base) (h : Reaches start history ctx) :
    (∀ b key, ctx.keys.get? b = some key →
      key.base = b ∧ ctx.keys.switchingKey = some key.switching) ∧
    (ctx.keys.bases ≠ [] → ctx.keys.activeBase ∈ ctx.keys.bases) ∧
    (ctx.keys.bases = [] ∨ ctx.keys.bases = [ctx.keys.activeBase] ∨
      (ctx.params.everyBase = true ∧ (∃ sk mode, lastDone history = some (generate sk mode)) ∧
        ∀ b, b ∈ ctx.keys.bases ↔ b ∈ ctx.params.rgsw.gadgets.keys ∨ b = ctx.keys.activeBase)) ∧
    (Distinguishes history → OfLast start history ctx) := by
  have hexplained := h.explained hstart
  have hbases := hexplained.holds.bases
  rw [← hexplained.params_eq, ← hexplained.holds.activeBase_eq] at hbases
  refine ⟨fun b key hkey => hexplained.holds.entry hkey, fun hne => ?_, hbases, hexplained.ofLast⟩
  rcases hbases with hnone | hactive | ⟨-, -, hall⟩
  · exact (hne hnone).elim
  · rw [hactive]
    exact List.mem_singleton_self _
  · exact (hall _).2 (.inr rfl)

section Sample

theorem exists_generated : ∃ start next, Context.ofSeed sampleParams #[1] = pure start ∧
    Reaches start [(sampleCall .symmetric, .ok ())] next := by
  obtain ⟨start, next, -, -, -, -, -, hstart, hstep, -⟩ :=
    exists_sampleSteps false .symmetric .publishing (.inr ⟨rfl, rfl⟩)
  exact ⟨start, next, hstart, .call .start (step_eq_some.1 hstep)⟩

/-- Keys are generated, and again with a public key, and then a secret is refused: the keys are those of a call
for the secret of the second one. A joint key that is installed after that replaces them. -/
theorem keys_of_reaches_sample : ∃ start history ctx held rotation switching,
    Context.ofSeed sampleParams #[1] = pure start ∧ Reaches start history ctx ∧
    history = [(generate ⟨#[2], .gaussian⟩ .symmetric, .error .unsupportedSecret),
      (sampleCall .publishing, .ok ()), (sampleCall .symmetric, .ok ())] ∧
    (∀ b key, ctx.keys.get? b = some key →
      key.base = b ∧ ctx.keys.switchingKey = some key.switching) ∧
    ctx.keys.bases = [32] ∧ Distinguishes history ∧
    (∃ made fresh, made.coefficients = #[1] ∧ Generated start history made fresh ∧
      ctx.keys.MadeFrom ctx.params ctx.ring ⟨#[1], .ternary⟩ fresh) ∧
    Reaches start ((install rotation switching, .ok ()) :: history) held ∧ held.keys.bases = [32] ∧
    ∀ b key, held.keys.get? b = some key → key = ⟨held.keys.activeBase, rotation, switching⟩ := by
  obtain ⟨start, first, ctx, -, -, -, -, hstart, hstep, hstep', ⟨hparams, -⟩, -⟩ :=
    exists_sampleSteps false .symmetric .publishing (.inr ⟨rfl, rfl⟩)
  have hempty : start.keys = .empty 32 := by
    obtain ⟨ring, -, rfl⟩ := Context.ofSeed_eq_pure hstart
    rfl
  rw [← params_of_step hstep'] at hparams
  have hactive := isSome_active_of_step hstep'
  have hgenerated := (Reaches.start.call (step_eq_some.1 hstep)).call (step_eq_some.1 hstep')
  have hbase := (hgenerated.explained hempty).holds.activeBase_eq
  obtain ⟨params, ring, keys, source⟩ := ctx
  cases hparams
  have hrefused : (generate ⟨#[2], .gaussian⟩ .symmetric).action.run.run ⟨sampleParams, ring, keys, source⟩ =
      .ok (.error .unsupportedSecret, ⟨sampleParams, ring, keys, source⟩) := rfl
  let switching : Lwe.SwitchingKey := ⟨2, 5, 4, 1, 17, #[]⟩
  have hinstalled : (install (BlindRotation.sampleKey ring) switching).action.run.run
      ⟨sampleParams, ring, keys, source⟩ = .ok (.ok (), ⟨sampleParams, ring,
        keys.install (BlindRotation.sampleKey ring) switching, source⟩) := rfl
  have hreaches := hgenerated.call hrefused
  have hheld := hreaches.call hinstalled
  have hdistinct : Distinguishes [(generate ⟨#[2], .gaussian⟩ .symmetric, .error .unsupportedSecret),
      (sampleCall .publishing, .ok ()), (sampleCall .symmetric, .ok ())] := by
    rintro sk sk' mode mode' hsk hsk' -
    simp only [sampleCall, List.mem_cons, Prod.mk.injEq, generate.injEq, List.not_mem_nil, reduceCtorEq,
      and_false, and_true, false_or, or_false] at hsk hsk'
    obtain ⟨rfl, -⟩ | ⟨rfl, -⟩ := hsk <;> obtain ⟨rfl, -⟩ | ⟨rfl, -⟩ := hsk' <;> rfl
  obtain ⟨hentry, -, hbases, hlast⟩ := keys_of_reaches hempty hreaches
  obtain ⟨-, -, -, hinstall⟩ := keys_of_reaches hempty hheld
  refine ⟨start, _, _, _, _, switching, hstart, hreaches, rfl, hentry, ?_, hdistinct, hlast hdistinct, hheld,
    congrArg (fun base => [base]) hbase, hinstall ?_⟩
  · obtain hnone | hone | ⟨hevery, -⟩ := hbases
    · have hmem : keys.activeBase ∈ keys.bases := (Registry.mem_keys _ _).2 hactive
      rw [hnone] at hmem
      exact (List.not_mem_nil hmem).elim
    · exact hone.trans (congrArg (fun base => [base]) hbase)
    · cases hevery
  · rintro sk sk' mode mode' hsk hsk'
    refine hdistinct sk sk' mode mode' ?_ ?_
    · exact (List.mem_cons.1 hsk).resolve_left fun h => (nomatch h)
    · exact (List.mem_cons.1 hsk').resolve_left fun h => (nomatch h)

end Sample

end LatticeGates.KeyCall
