import LatticeGates.KeyStore
import LatticeGates.Proofs.Attempt

/-!
# What a generation of keys makes

Main statement: a generation either keeps the keys of the store or replaces the switching key and all
bootstrap keys by those of a fresh large secret, one for every base to make. Only a publishing one replaces
the public key.
-/

namespace LatticeGates.KeyStore

variable {params : Params} {ring : NegacyclicRing} {sk : Lwe.Secret} {mode : KeyMode}
  {source source' : Stream} {store store' : KeyStore}

/-- The large secret of a generation, with the keys that come from it. -/
structure Fresh where
  secret : Lwe.Secret
  switching : Lwe.SwitchingKey
  publicKey : Option Lwe.PublicKey

def Generates (params : Params) (sk : Lwe.Secret) (mode : KeyMode) (source : Stream) (fresh : Fresh) :
    Prop :=
  let lwe := params.lwe
  ∃ rest masks errors,
    Lwe.Secret.generate lwe.ringDimension .ternary lwe.sigma source = .ok (fresh.secret, rest) ∧
    Lwe.SwitchingKey.generate fresh.secret sk lwe.switchingBase lwe.switchingModulus lwe.sigma
      rest.branch.1 rest.branch.2.branch.1 = .ok (fresh.switching, masks, errors) ∧
    match mode with
    | .symmetric => fresh.publicKey = none
    | .publishing => ∃ pk rest, fresh.publicKey = some pk ∧
      Lwe.PublicKey.generate fresh.secret lwe.ringModulus lwe.sigma masks errors = .ok (pk, rest)

theorem Generates.unique {x y : Fresh} (hx : Generates params sk mode source x)
    (hy : Generates params sk mode source y) : x = y := by
  obtain ⟨z, key, pk⟩ := x
  obtain ⟨z', key', pk'⟩ := y
  obtain ⟨rest, masks, errors, hz, hkey, hpk⟩ := hx
  obtain ⟨rest', masks', errors', hz', hkey', hpk'⟩ := hy
  cases hz.symm.trans hz'
  cases hkey.symm.trans hkey'
  cases mode with
  | symmetric =>
    cases hpk
    cases hpk'
    rfl
  | publishing =>
    obtain ⟨_, _, hpk, h⟩ := hpk
    obtain ⟨_, _, hpk', h'⟩ := hpk'
    cases hpk
    cases hpk'
    cases h.symm.trans h'
    rfl

/-- The switching key of a store, which is also that of all its bootstrap keys. -/
structure SwitchesBy (store : KeyStore) (key : Lwe.SwitchingKey) : Prop where
  stored : store.switchingKey = some key
  refresh : ∀ base entry, store.get? base = some entry → entry.switching = key

theorem mem_basesToMake {base : ℕ} : base ∈ store.basesToMake params ↔
    (params.everyBase = true ∧ base ∈ params.rgsw.gadgets.keys) ∨ base = store.activeBase := by
  have hgadgets : base ∈ (if params.everyBase then params.rgsw.gadgets.keys else []) ↔
      params.everyBase = true ∧ base ∈ params.rgsw.gadgets.keys := by
    split <;> simp [*]
  rw [basesToMake, ← hgadgets]
  generalize (if params.everyBase then params.rgsw.gadgets.keys else []) = bases
  split
  · rename_i hmem
    have hactive : store.activeBase ∈ bases := List.contains_iff_mem.1 hmem
    exact ⟨.inl, fun h => h.elim id fun h => h ▸ hactive⟩
  · rw [List.mem_append, List.mem_singleton]

section Refresh

variable {switching : Lwe.SwitchingKey} {z : Rlwe.Secret} {fresh : Fresh}

theorem makeKey_eq_ok {task : ℕ × Stream × Stream} {key : BootstrapKey}
    (h : makeKey params ring z sk switching task = .ok key) :
    key.base = task.1 ∧ key.switching = switching ∧ ∃ logBase gadget streams,
      Gadget.check params.rgsw.ringModulus logBase = .ok gadget ∧
      BlindRotation.Key.generate ring gadget z sk params.rgsw.sigma task.2.1 task.2.2 =
        .ok (key.rotation, streams) := by
  obtain ⟨gadget, hgadget, h⟩ := Checked.bind_eq_ok.1 h
  obtain ⟨⟨rotation, streams⟩, hrotation, h⟩ := Checked.bind_eq_ok.1 h
  obtain ⟨_, -, hgadget⟩ := Checked.bind_eq_ok.1 hgadget
  cases h
  exact ⟨rfl, rfl, _, gadget, streams, hgadget, hrotation⟩

/-- A store whose keys are all those of one large secret, each made for the base it is filed under. -/
structure MadeFrom (params : Params) (ring : NegacyclicRing) (sk : Lwe.Secret) (fresh : Fresh)
    (store : KeyStore) : Prop where
  stored : store.switchingKey = some fresh.switching
  refresh : ∀ base key, store.get? base = some key → ∃ z masks errors,
    Rlwe.Secret.ofLwe ring fresh.secret = .ok z ∧
      makeKey params ring z sk fresh.switching (base, masks, errors) = .ok key

theorem MadeFrom.base_eq (h : store.MadeFrom params ring sk fresh) {base : ℕ} {key : BootstrapKey}
    (hkey : store.get? base = some key) : key.base = base := by
  obtain ⟨z, masks, errors, -, hmade⟩ := h.refresh base key hkey
  exact (makeKey_eq_ok hmade).1

theorem MadeFrom.switchesBy (h : store.MadeFrom params ring sk fresh) :
    store.SwitchesBy fresh.switching := by
  refine ⟨h.stored, fun base key hkey => ?_⟩
  obtain ⟨z, masks, errors, -, hmade⟩ := h.refresh base key hkey
  exact (makeKey_eq_ok hmade).2.1

theorem branchTasks_bases (bases : List ℕ) (source : Stream) :
    (branchTasks bases source).1.map (·.1) = bases := by
  induction bases generalizing source with
  | nil => rfl
  | cons base rest ih => exact congrArg (base :: ·) (ih _)

private theorem get?_foldl (keys : List BootstrapKey) (store : KeyStore) {base : ℕ}
    {key : BootstrapKey} (h : (keys.foldl insertIfAbsent store).get? base = some key) :
    store.get? base = some key ∨ (key ∈ keys ∧ key.base = base) := by
  induction keys generalizing store with
  | nil => exact .inl h
  | cons k keys ih =>
    rcases ih _ h with h | h
    · rw [get?, insertIfAbsent, Registry.get?_insertIfAbsent] at h
      split at h
      · rename_i hbase
        cases hk : store.refreshKeys.get? k.base with
        | none =>
          rw [hk] at h
          cases h
          exact .inr ⟨List.mem_cons_self, hbase.symm⟩
        | some old =>
          rw [hk] at h
          exact .inl (by rw [get?, hbase, hk, ← h]; rfl)
      · exact .inl h
    · exact .inr ⟨List.mem_cons_of_mem _ h.1, h.2⟩

private theorem isSome_get?_foldl (keys : List BootstrapKey) (store : KeyStore) (base : ℕ) :
    ((keys.foldl insertIfAbsent store).get? base).isSome ↔
      (store.get? base).isSome ∨ base ∈ keys.map (·.base) := by
  induction keys generalizing store with
  | nil => simp
  | cons k keys ih =>
    have hfiled : ((store.insertIfAbsent k).get? base).isSome ↔
        base = k.base ∨ (store.get? base).isSome := by
      rw [get?, insertIfAbsent, Registry.get?_insertIfAbsent]
      by_cases hbase : base = k.base
      · simp [hbase]
      · rw [if_neg hbase]
        exact ⟨.inr, fun h => h.resolve_left hbase⟩
    rw [List.foldl_cons, ih, hfiled, List.map_cons, List.mem_cons]
    tauto

private theorem foldl_insertIfAbsent (keys : List BootstrapKey) (store : KeyStore) :
    keys.foldl insertIfAbsent store =
      { store with refreshKeys := (keys.foldl insertIfAbsent store).refreshKeys } := by
  induction keys generalizing store with
  | nil => rfl
  | cons k keys ih => exact ih _

private theorem filed_of_mapM (store : KeyStore) {tasks : List (ℕ × Stream × Stream)} {keys : List BootstrapKey}
    (h : tasks.mapM (makeKey params ring z sk switching) = .ok keys) (hnone : store.refreshKeys = .empty)
    (base : ℕ) :
    (∀ key, (keys.foldl insertIfAbsent store).get? base = some key →
      ∃ masks errors, makeKey params ring z sk switching (base, masks, errors) = .ok key) ∧
    (((keys.foldl insertIfAbsent store).get? base).isSome ↔ base ∈ tasks.map (·.1)) := by
  obtain ⟨hvalues, hmembers⟩ := mapM_eq_ok h
  have hempty : store.get? base = none := by
    rw [get?, hnone]
    rfl
  constructor
  · intro key hkey
    rcases get?_foldl keys store hkey with hold | ⟨hmem, rfl⟩
    · rw [hempty] at hold
      cases hold
    · obtain ⟨⟨base, masks, errors⟩, -, htask⟩ := hvalues key hmem
      obtain rfl := (makeKey_eq_ok htask).1
      exact ⟨masks, errors, htask⟩
  · rw [isSome_get?_foldl, hempty, List.mem_map, List.mem_map]
    constructor
    · rintro (hold | ⟨key, hkey, rfl⟩)
      · cases hold
      · obtain ⟨task, htask, hmade⟩ := hvalues key hkey
        exact ⟨task, htask, (makeKey_eq_ok hmade).1.symm⟩
    · rintro ⟨task, htask, rfl⟩
      obtain ⟨key, hkey, hmade⟩ := hmembers task htask
      exact .inr ⟨key, hkey, (makeKey_eq_ok hmade).1⟩

/-- A store in which fresh keys took the place of all keys. -/
structure Refreshed (params : Params) (ring : NegacyclicRing) (sk : Lwe.Secret) (fresh : Fresh)
    (store store' : KeyStore) : Prop where
  madeFrom : store'.MadeFrom params ring sk fresh
  isSome_get? : ∀ base, (store'.get? base).isSome ↔ base ∈ store.basesToMake params
  activeBase_eq : store'.activeBase = store.activeBase
  fingerprint_eq : store'.fingerprint = store.fingerprint
  publicKey_eq : store'.publicKey = (fresh.publicKey <|> store.publicKey)

private theorem refreshed_of_mapM {keys : List BootstrapKey} {rest : Stream}
    (hz : Rlwe.Secret.ofLwe ring fresh.secret = .ok z)
    (h : (branchTasks (store.basesToMake params) rest).1.mapM
      (makeKey params ring z sk fresh.switching) = .ok keys) :
    store.Refreshed params ring sk fresh
      { keys.foldl insertIfAbsent { store with refreshKeys := .empty } with
        publicKey := fresh.publicKey <|> store.publicKey
        switchingKey := some fresh.switching } := by
  have hfiled := filed_of_mapM { store with refreshKeys := .empty } h rfl
  rw [branchTasks_bases] at hfiled
  have hrest := foldl_insertIfAbsent keys { store with refreshKeys := .empty }
  refine ⟨⟨rfl, fun base key hkey => ?_⟩, fun base => (hfiled base).2, ?_, ?_, rfl⟩
  · obtain ⟨masks, errors, hmade⟩ := (hfiled base).1 key hkey
    exact ⟨z, masks, errors, hz, hmade⟩
  · rw [hrest]
  · rw [hrest]

theorem exists_refreshed (h : store.refresh params ring sk mode source = .ok (store', source')) :
    ∃ fresh, Generates params sk mode source fresh ∧
      store.Refreshed params ring sk fresh store' := by
  unfold refresh at h
  obtain ⟨⟨z, rest⟩, hz, h⟩ := Checked.bind_eq_ok.1 h
  dsimp only at h
  obtain ⟨ringSecret, hring, h⟩ := Checked.bind_eq_ok.1 h
  obtain ⟨⟨switching, masks, errors⟩, hswitching, h⟩ := Checked.bind_eq_ok.1 h
  cases mode with
  | symmetric =>
    obtain ⟨_, hkept, h⟩ := Checked.bind_eq_ok.1 h
    cases hkept
    obtain ⟨keys, hkeys, h⟩ := Checked.bind_eq_ok.1 h
    cases h
    exact ⟨⟨z, switching, none⟩, ⟨rest, masks, errors, hz, hswitching, rfl⟩,
      refreshed_of_mapM hring hkeys⟩
  | publishing =>
    obtain ⟨⟨pk, r⟩, hpk, h⟩ := Checked.bind_eq_ok.1 h
    obtain ⟨_, hpublished, h⟩ := Checked.bind_eq_ok.1 h
    cases hpublished
    obtain ⟨keys, hkeys, h⟩ := Checked.bind_eq_ok.1 h
    cases h
    exact ⟨⟨z, switching, some pk⟩, ⟨rest, masks, errors, hz, hswitching, pk, r, rfl, hpk⟩,
      refreshed_of_mapM hring hkeys⟩

/-- Keys made anew come from one generation. The public key stays unless the generation publishes. -/
theorem refresh_eq_ok (h : store.refresh params ring sk mode source = .ok (store', source')) :
    ∃ fresh, Generates params sk mode source fresh ∧ store'.SwitchesBy fresh.switching ∧
      store'.publicKey = (fresh.publicKey <|> store.publicKey) ∧
      store'.activeBase = store.activeBase ∧ (store'.get? store.activeBase).isSome := by
  obtain ⟨fresh, hfresh, hrefreshed⟩ := exists_refreshed h
  exact ⟨fresh, hfresh, hrefreshed.madeFrom.switchesBy, hrefreshed.publicKey_eq,
    hrefreshed.activeBase_eq, (hrefreshed.isSome_get? _).2 (mem_basesToMake.2 (.inr rfl))⟩

end Refresh

/-- The store that a generation starts from: that of another secret is dropped. -/
def kept (store : KeyStore) (sk : Lwe.Secret) : KeyStore :=
  if store.fingerprint = some (Digest.fingerprint sk.coefficients) then store
  else store.reset (some (Digest.fingerprint sk.coefficients))

theorem kept_cases (store : KeyStore) (sk : Lwe.Secret) : store.kept sk = store ∨
    store.kept sk = store.reset (some (Digest.fingerprint sk.coefficients)) :=
  ite_eq_or_eq _ _ _

theorem kept_activeBase : (store.kept sk).activeBase = store.activeBase := by
  unfold kept
  split <;> rfl

theorem kept_basesToMake : (store.kept sk).basesToMake params = store.basesToMake params := by
  rw [basesToMake, basesToMake, kept_activeBase]

theorem kept_fingerprint (store : KeyStore) (sk : Lwe.Secret) :
    (store.kept sk).fingerprint = some (Digest.fingerprint sk.coefficients) := by
  unfold kept
  split
  · assumption
  · rfl

theorem kept_of_isSome {base : ℕ} (h : ((store.kept sk).get? base).isSome) :
    store.kept sk = store := by
  refine (kept_cases store sk).resolve_right fun hreset => ?_
  rw [hreset] at h
  cases h

theorem kept_publicKey {pk : Lwe.PublicKey} (h : (store.kept sk).publicKey = some pk) :
    store.kept sk = store := by
  refine (kept_cases store sk).resolve_right fun hreset => ?_
  rw [hreset] at h
  cases h

/-- A secret of which keys can be made. -/
structure Admits (params : Params) (sk : Lwe.Secret) : Prop where
  method_eq : params.rgsw.method = .ginx
  ternary : sk.isTernary = .ok true
  dimension_eq : sk.dimension = params.lwe.dimension

theorem admits_of_generate (h : store.generate params ring sk mode source = pure (store', source')) :
    Admits params sk := by
  unfold generate at h
  obtain ⟨_, hmethod, h⟩ := Attempt.bind_eq_pure.1 h
  obtain ⟨ternary, hternary, h⟩ := Attempt.bind_eq_pure.1 h
  obtain ⟨_, htrue, h⟩ := Attempt.bind_eq_pure.1 h
  obtain ⟨_, hdim, -⟩ := Attempt.bind_eq_pure.1 h
  obtain rfl := Attempt.require_eq_pure.1 htrue
  exact ⟨beq_iff_eq.1 (Attempt.require_eq_pure.1 hmethod), Attempt.liftM_eq_pure.1 hternary,
    beq_iff_eq.1 (Attempt.require_eq_pure.1 hdim)⟩

theorem Admits.generate_eq_ite (h : Admits params sk) :
    store.generate params ring sk mode source =
      if params.everyBase = false ∧ ((store.kept sk).get? store.activeBase).isSome ∧
          (mode = .publishing → (store.kept sk).publicKey.isSome) then
        pure (store.kept sk, source)
      else liftM ((store.kept sk).refresh params ring sk mode source) := by
  simp only [generate, h.method_eq, h.ternary, h.dimension_eq, beq_self_eq_true, Attempt.require_true,
    Attempt.liftM_ok, pure_bind]
  change (if (!params.everyBase && ((store.kept sk).get? (store.kept sk).activeBase).isSome &&
      !(mode == .publishing && (store.kept sk).publicKey.isNone)) = true then
    (pure (store.kept sk, source) : Attempt _) else
      liftM ((store.kept sk).refresh params ring sk mode source)) = _
  rw [kept_activeBase]
  congr 1
  cases mode <;> simp [and_assoc]

theorem Admits.generate_eq (h : Admits params sk) (hevery : params.everyBase = false) :
    store.generate params ring sk mode source =
      if ((store.kept sk).get? store.activeBase).isSome ∧
          (mode = .publishing → (store.kept sk).publicKey.isSome) then
        pure (store.kept sk, source)
      else liftM ((store.kept sk).refresh params ring sk mode source) := by
  rw [h.generate_eq_ite]
  simp only [hevery, true_and]

/-- Without keys for every base, a store is left as it is when it has the active key and a public key, or
the mode does not ask for one; else all keys are made anew. -/
theorem generate_cases (h : store.generate params ring sk mode source = pure (store', source')) :
    (params.everyBase = false ∧ ((store.kept sk).get? store.activeBase).isSome ∧
      store' = store.kept sk) ∨
    ((params.everyBase = true ∨ ¬((store.kept sk).get? store.activeBase).isSome ∨
        mode = .publishing) ∧
      (store.kept sk).refresh params ring sk mode source = .ok (store', source')) := by
  unfold generate at h
  obtain ⟨_, -, h⟩ := Attempt.bind_eq_pure.1 h
  obtain ⟨ternary, -, h⟩ := Attempt.bind_eq_pure.1 h
  obtain ⟨_, -, h⟩ := Attempt.bind_eq_pure.1 h
  obtain ⟨_, -, h⟩ := Attempt.bind_eq_pure.1 h
  change (if (!params.everyBase && ((store.kept sk).get? (store.kept sk).activeBase).isSome &&
      !(mode == .publishing && (store.kept sk).publicKey.isNone)) = true then
    pure (store.kept sk, source) else liftM ((store.kept sk).refresh params ring sk mode source)) = _ at h
  rw [kept_activeBase] at h
  split at h
  · rename_i hkept
    simp only [Bool.and_eq_true, Bool.not_eq_true'] at hkept
    cases Attempt.pure_injective h
    exact .inl ⟨hkept.1.1, hkept.1.2, rfl⟩
  · rename_i hmade
    refine .inr ⟨?_, Attempt.liftM_eq_pure.1 h⟩
    by_contra hnone
    rw [not_or, not_or, not_not, Bool.not_eq_true] at hnone
    obtain ⟨heach, hactive, hmode⟩ := hnone
    exact hmade (by rw [heach, hactive, beq_false_of_ne hmode]; rfl)

end LatticeGates.KeyStore
