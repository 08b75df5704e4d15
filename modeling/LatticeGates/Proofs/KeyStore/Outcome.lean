import LatticeGates.Proofs.KeyStore.Provenance

/-!
# How a call for keys ends

Main statement: the answer of a context to a call for the keys of a ternary secret. A secret of another
dimension is refused, and keys that are there are kept. Else all keys are made anew. This does not end with a
base to switch by below two; with any other one it succeeds unless one of its draws does not end, there is no
room for a key, or there is no gadget of one of the bases.
-/

namespace LatticeGates

/-- A base of which there is a gadget. -/
def IsGadgetBase (base : ℕ) : Prop := ∃ k, 0 < k ∧ k < 63 ∧ base = 2 ^ k

theorem RgswParams.gadgetFor_ends {p : RgswParams} {q : Modulus} (hq : p.ringModulus = q.value) (base : ℕ) :
    (p.gadgetFor base).Ends (fun g => IsGadgetBase base ∧ g.modulus = q) (fun e => ¬IsGadgetBase base ∧
      (e = .invalidGadgetBase base ∨ e = .invalidLogBase (trailingZeros 32 base))) := by
  rw [gadgetFor, hq]
  by_cases hpower : isPowerOfTwo base = true
  · obtain ⟨k, rfl⟩ : ∃ k, base = 2 ^ k := ⟨_, (isPowerOfTwo_iff.1 hpower).2.symm⟩
    rw [hpower, ensure_true, Checked.ok_bind, trailingZeros_two_pow]
    by_cases hk : 0 < k ∧ k < 63
    · obtain ⟨g, hg, hvalue, -⟩ := Gadget.exists_check q.one_lt q.lt_bound hk.1 (Nat.le_of_lt_succ hk.2)
      exact .inl ⟨g, hg, ⟨k, hk.1, hk.2, rfl⟩, Modulus.value_injective hvalue⟩
    · refine .inr ⟨.invalidLogBase k, ?_, ?_, .inr rfl⟩
      · rw [Gadget.check, decide_eq_false hk]
        rfl
      · rintro ⟨j, hpos, hlt, hj⟩
        exact hk (Nat.pow_right_injective le_rfl hj ▸ ⟨hpos, hlt⟩)
  · refine .inr ⟨.invalidGadgetBase base, ?_, ?_, .inl rfl⟩
    · rw [Bool.not_eq_true] at hpower
      rw [hpower]
      rfl
    · rintro ⟨k, -, -, rfl⟩
      exact hpower (isPowerOfTwo_two_pow k)

theorem Rgsw.encrypt_ends {ring : NegacyclicRing} {hr : ring.Evaluates} {g : Gadget} {x : Rgsw}
    {sk : Rlwe.Secret} {z : ring.Element} (hg : g.modulus = ring.modulus) (hx : x.Shaped ring g.digits)
    (hsk : ring.Takes sk.values (NegacyclicRing.evalHom hr z)) (m : ℤ) (sigma : Float)
    (masks errors : Stream) :
    (encrypt ring g x sk m sigma masks errors).Ends (fun _ => True) (· = .exhausted) := by
  rw [encrypt_eq hx]
  refine (((Stream.searches_replicate (Stream.searches_residues _ _) _).ends masks).imp_stops
    fun _ => And.left).bind ?_
  rintro ⟨a, rest⟩ ha
  refine (((Stream.searches_replicate (Stream.searches_gaussians _ _) _).ends errors).imp_stops
    fun _ => And.left).bind ?_
  rintro ⟨e, left⟩ he
  obtain ⟨y, hy, -⟩ := exists_assemble hg hx hsk m
    (fun l hl => Stream.replicate_getD #[] (fun _ _ _ => Modulus.reduced_of_residues) ha hl)
    fun l hl => Stream.replicate_getD #[] (fun _ _ _ => Stream.size_of_gaussians) he hl
  exact .inl ⟨_, by rw [hy]; rfl, trivial⟩

namespace BlindRotation

variable {sk : Lwe.Secret}

private theorem encryptBlock_ends {encrypt : ℤ → Stream → Stream → Checked (Rgsw × Stream × Stream)}
    {stops : Fault → Prop} (hsk : sk.isTernary = .ok true)
    (hencrypt : ∀ m x y, (encrypt m x y).Ends (fun _ => True) stops) (x y : Stream) :
    (encryptBlock sk encrypt x y).Ends (fun _ => True) stops := by
  rw [encryptBlock, hsk, Checked.ok_bind, ensure_true, Checked.ok_bind]
  refine foldM_ends (fun _ _ => True) trivial ?_
  rintro i hi ⟨pairs, x, y⟩ -
  dsimp only
  generalize ternarySplit sk.coefficients[i] = parts
  obtain ⟨p, m⟩ := parts
  refine (hencrypt p x y).bind ?_
  rintro ⟨plus, x, y⟩ -
  refine (hencrypt m x y).bind ?_
  rintro ⟨minus, x, y⟩ -
  exact .inl ⟨_, rfl, trivial⟩

/-- A draw of a key of a secret of dimension `n` does not end. -/
def Key.Endless (ring : NegacyclicRing) (g : Gadget) (n : ℕ) (sigma : Float) (masks errors : Stream) : Prop :=
  Stream.replicate (2 * n) (Stream.replicate (2 * g.digits)
      (Stream.residues ring.modulus ring.degree)) masks = .error .exhausted ∨
    Stream.replicate (2 * n) (Stream.replicate (2 * g.digits)
      (Stream.gaussians sigma ring.degree)) errors = .error .exhausted

theorem Key.generate_ends {ring : NegacyclicRing} {hr : ring.Evaluates} {g : Gadget} {z : Rlwe.Secret}
    {Z : ring.Element} (hg : g.modulus = ring.modulus)
    (hz : ring.Takes z.values (NegacyclicRing.evalHom hr Z)) (hsk : sk.isTernary = .ok true)
    (sigma : Float) (masks errors : Stream) :
    (generate ring g z sk sigma masks errors).Ends (fun _ => True)
      (fun e => e = .exhausted ∧ Endless ring g sk.dimension sigma masks errors) := by
  have hends : (generate ring g z sk sigma masks errors).Ends (fun _ => True) (· = .exhausted) :=
    (encryptBlock_ends hsk (fun m x y => Rgsw.encrypt_ends hg (Rgsw.shaped_zero g.digits) hz m sigma x y)
      masks errors).bind fun _ _ => .inl ⟨_, rfl, trivial⟩
  have hsearches {α : Type} {draw : Draw α} (h : Stream.Searches draw) :=
    Stream.searches_replicate (Stream.searches_replicate h (2 * g.digits)) (2 * sk.dimension)
  obtain ⟨⟨_, _⟩, hmasks, -⟩ | ⟨_, -, -, hmasks⟩ :=
    (hsearches (Stream.searches_residues ring.modulus ring.degree)).ends masks
  · obtain ⟨⟨_, _⟩, herrors, -⟩ | ⟨_, -, -, herrors⟩ :=
      (hsearches (Stream.searches_gaussians sigma ring.degree)).ends errors
    · obtain ⟨key, hkey⟩ := exists_generate hg hz hsk hmasks herrors
      exact .inl ⟨_, hkey, trivial⟩
    · exact hends.imp_stops fun _ he => ⟨he, .inr herrors⟩
  · exact hends.imp_stops fun _ he => ⟨he, .inl hmasks⟩

end BlindRotation

theorem Lwe.Secret.Ternary.isTernary {sk : Secret} (h : sk.Ternary) : sk.isTernary = .ok true := by
  have run (xs : List ℤ) : (∀ x ∈ xs, x.natAbs ≤ 1) → allTernary xs = .ok true := by
    induction xs with
    | nil => exact fun _ => rfl
    | cons x xs ih =>
      intro h
      obtain ⟨hx, hxs⟩ := List.forall_mem_cons.1 h
      rw [allTernary, Signed.check_of_range (by omega) (by omega), Checked.ok_bind,
        if_pos (by exact_mod_cast hx), ih hxs]
  exact run _ fun x hx => h x (Array.mem_toList_iff.1 hx)

namespace KeyStore

open Lwe.SwitchingKey (HasRoom)

variable {params : Params} {ring : NegacyclicRing} {sk : Lwe.Secret} {mode : KeyMode} {store : KeyStore}
  {middle : Modulus}

/-- Parameters that agree on the ring, with a modulus to switch by. -/
structure Agrees (params : Params) (ring : NegacyclicRing) (middle : Modulus) : Prop where
  ring_eq : NegacyclicRing.check params.rgsw.ringDimension params.rgsw.ringModulus = .ok ring
  ringDimension_eq : params.lwe.ringDimension = params.rgsw.ringDimension
  ringModulus_eq : params.lwe.ringModulus = params.rgsw.ringModulus
  switchingModulus_eq : params.lwe.switchingModulus = middle.value

/-- What keys ask for: a gadget of every base, and room. -/
structure Feasible (params : Params) (middle : Modulus) (mode : KeyMode) (bases : List ℕ) : Prop where
  gadget : ∀ base ∈ bases, IsGadgetBase base
  switching : HasRoom middle params.lwe.ringDimension params.lwe.dimension params.lwe.switchingBase
  publicKey : mode = .publishing → 8 * (params.lwe.ringDimension * params.lwe.ringDimension) < 2 ^ 63

/-- The generation of keys from a stream comes to a draw that does not end: of the large secret, of its
switching key or its public key, or of the rotation key for a base. -/
inductive Endless (params : Params) (ring : NegacyclicRing) (middle : Modulus) (sk : Lwe.Secret)
    (mode : KeyMode) (bases : List ℕ) (source : Stream) : Prop
  | secret (h : Stream.ternaries params.lwe.ringDimension source = .error .exhausted)
  | switching {z : Lwe.Secret} {rest : Stream}
    (hz : Lwe.Secret.generate params.lwe.ringDimension .ternary params.lwe.sigma source = .ok (z, rest))
    (h : Lwe.SwitchingKey.Endless middle params.lwe.ringDimension params.lwe.dimension
      params.lwe.switchingBase params.lwe.sigma rest.branch.1 rest.branch.2.branch.1)
  | publicKey {z : Lwe.Secret} {rest masks errors : Stream} {key : Lwe.SwitchingKey}
    (hmode : mode = .publishing)
    (hz : Lwe.Secret.generate params.lwe.ringDimension .ternary params.lwe.sigma source = .ok (z, rest))
    (hkey : Lwe.SwitchingKey.generate z sk params.lwe.switchingBase params.lwe.switchingModulus
      params.lwe.sigma rest.branch.1 rest.branch.2.branch.1 = .ok (key, masks, errors))
    (h : Lwe.PublicKey.Endless ring.modulus params.lwe.ringDimension params.lwe.sigma masks errors)
  | rotation {z : Lwe.Secret} {rest masks errors : Stream} {base : ℕ} {gadget : Gadget}
    (hz : Lwe.Secret.generate params.lwe.ringDimension .ternary params.lwe.sigma source = .ok (z, rest))
    (htask : (base, masks, errors) ∈ (branchTasks bases rest.branch.2.branch.2).1)
    (hgadget : params.rgsw.gadgetFor base = .ok gadget)
    (h : BlindRotation.Key.Endless ring gadget params.lwe.dimension params.rgsw.sigma masks errors)

/-- The causes for which keys are not made from a stream, each with its fault. -/
inductive Stops (params : Params) (ring : NegacyclicRing) (middle : Modulus) (sk : Lwe.Secret)
    (mode : KeyMode) (bases : List ℕ) (source : Stream) : Fault → Prop
  | draw (h : Endless params ring middle sk mode bases source) :
    Stops params ring middle sk mode bases source .exhausted
  /-- There is no room for the switching key. -/
  | switching (h : ¬HasRoom middle params.lwe.ringDimension params.lwe.dimension params.lwe.switchingBase) :
    Stops params ring middle sk mode bases source .overflow
  /-- There is no room for the public key. -/
  | publicKey (hmode : mode = .publishing)
    (h : 2 ^ 63 ≤ 8 * (params.lwe.ringDimension * params.lwe.ringDimension)) :
    Stops params ring middle sk mode bases source .overflow
  /-- There is no gadget of a base. -/
  | gadget {base : ℕ} {fault : Fault} (hmem : base ∈ bases) (h : ¬IsGadgetBase base)
    (hfault : fault = .invalidGadgetBase base ∨ fault = .invalidLogBase (trailingZeros 32 base)) :
    Stops params ring middle sk mode bases source fault

private theorem makeKey_ends {hr : ring.Evaluates} {z : Rlwe.Secret} {Z : ring.Element}
    {switching : Lwe.SwitchingKey} (hq : params.rgsw.ringModulus = ring.modulus.value)
    (hz : ring.Takes z.values (NegacyclicRing.evalHom hr Z)) (hsk : sk.isTernary = .ok true)
    (task : ℕ × Stream × Stream) :
    (makeKey params ring z sk switching task).Ends (fun _ => IsGadgetBase task.1) (fun e =>
      (e = .exhausted ∧ ∃ gadget, params.rgsw.gadgetFor task.1 = .ok gadget ∧
        BlindRotation.Key.Endless ring gadget sk.dimension params.rgsw.sigma task.2.1 task.2.2) ∨
      ¬IsGadgetBase task.1 ∧
        (e = .invalidGadgetBase task.1 ∨ e = .invalidLogBase (trailingZeros 32 task.1))) := by
  obtain ⟨base, masks, errors⟩ := task
  refine ((RgswParams.gadgetFor_ends hq base).eq_ok.imp_stops fun _ => .inr).bind ?_
  rintro gadget ⟨hgadget, hbase, hmodulus⟩
  refine ((BlindRotation.Key.generate_ends hmodulus hz hsk _ masks errors).imp_stops ?_).bind
    fun _ _ => .inl ⟨_, rfl, hbase⟩
  rintro _ ⟨rfl, hdraw⟩
  exact .inl ⟨rfl, gadget, hgadget, hdraw⟩

private theorem largeSecret_ends (h : Agrees params ring middle) (source : Stream) :
    (Lwe.Secret.generate params.lwe.ringDimension .ternary params.lwe.sigma source).Ends
      (fun r => r.1.dimension = params.lwe.ringDimension ∧ r.1.Ternary ∧ ∃ s Z,
        Rlwe.Secret.ofLwe ring r.1 = .ok s ∧ ring.Takes s.values
          (NegacyclicRing.evalHom (NegacyclicRing.check_evaluates h.ring_eq) Z))
      (fun e => e = .exhausted ∧ Stream.ternaries params.lwe.ringDimension source = .error .exhausted) := by
  have hlength := NegacyclicRing.check_length h.ring_eq
  have hdegree := (NegacyclicRing.check_shape h.ring_eq).1
  rw [← h.ringDimension_eq] at hlength hdegree
  refine (Lwe.Secret.generate_ends hlength _ source).imp_value fun r hr => ⟨hr.1, hr.2, ?_⟩
  obtain ⟨s, hs, htakes⟩ := Rlwe.Secret.exists_takes (NegacyclicRing.check_evaluates h.ring_eq)
    (hr.1.trans hdegree.symm)
  exact ⟨s, _, hs, htakes⟩

private theorem refresh_of_switching {z : Lwe.Secret} {s : Rlwe.Secret} {source rest : Stream} {fault : Fault}
    (hz : Lwe.Secret.generate params.lwe.ringDimension .ternary params.lwe.sigma source = .ok (z, rest))
    (hs : Rlwe.Secret.ofLwe ring z = .ok s)
    (h : Lwe.SwitchingKey.generate z sk params.lwe.switchingBase params.lwe.switchingModulus params.lwe.sigma
      rest.branch.1 rest.branch.2.branch.1 = .error fault) :
    store.refresh params ring sk .symmetric source = .error fault := by
  simp only [refresh, hz, hs, h, Checked.ok_bind, Checked.error_bind]

private theorem refresh_of_gadget {z : Lwe.Secret} {s : Rlwe.Secret} {source rest : Stream} {fault : Fault}
    {switching : Lwe.SwitchingKey × Stream × Stream} (hevery : params.everyBase = false)
    (hz : Lwe.Secret.generate params.lwe.ringDimension .ternary params.lwe.sigma source = .ok (z, rest))
    (hs : Rlwe.Secret.ofLwe ring z = .ok s)
    (hswitching : Lwe.SwitchingKey.generate z sk params.lwe.switchingBase params.lwe.switchingModulus
      params.lwe.sigma rest.branch.1 rest.branch.2.branch.1 = .ok switching)
    (h : params.rgsw.gadgetFor store.activeBase = .error fault) :
    store.refresh params ring sk .symmetric source = .error fault := by
  simp only [refresh, hz, hs, hswitching, basesToMake_eq hevery, branchTasks_singleton, List.mapM_cons,
    makeKey, h, Checked.ok_bind, Checked.error_bind, Checked.pure_eq]

/-- With a base to switch by below two no keys are made, whatever is drawn. -/
theorem refresh_of_base_lt_two (h : Agrees params ring middle) (hbase : params.lwe.switchingBase < 2)
    (source : Stream) : store.refresh params ring sk mode source = .error .exhausted := by
  unfold refresh
  obtain ⟨⟨z, rest⟩, hz, -, -, s, -, hs, -⟩ | ⟨_, hz, rfl, -⟩ := largeSecret_ends h source
  · simp only [hz, hs, Checked.ok_bind, h.switchingModulus_eq,
      Lwe.SwitchingKey.generate_of_base_lt_two hbase, Checked.error_bind]
  · simp only [hz, Checked.error_bind]

/-- Keys are made only where they are feasible, and it is one of the causes when they are not made. -/
theorem refresh_ends (h : Agrees params ring middle) (hbase : 2 ≤ params.lwe.switchingBase)
    (hsk : sk.Ternary) (hdim : sk.dimension = params.lwe.dimension) (source : Stream) :
    (store.refresh params ring sk mode source).Ends
      (fun _ => Feasible params middle mode (store.basesToMake params))
      (Stops params ring middle sk mode (store.basesToMake params) source) := by
  obtain ⟨-, hvalue, -, hone⟩ := NegacyclicRing.check_shape h.ring_eq
  rw [← h.ringDimension_eq] at hone
  unfold refresh
  refine ((largeSecret_ends h source).eq_ok.imp_stops ?_).bind ?_
  · rintro _ ⟨rfl, hdraw⟩
    exact .draw (.secret hdraw)
  rintro ⟨z, rest⟩ ⟨hz, hzdim, hzternary, s, Z, hs, htakes⟩
  simp only [hs, Checked.ok_bind, h.switchingModulus_eq]
  refine ((Lwe.SwitchingKey.generate_ends hbase (by omega) hzdim hdim hzternary hsk _ _ _).eq_ok.imp_stops
    ?_).bind ?_
  · rintro _ (⟨-, rfl, hdraw⟩ | ⟨hroom, rfl⟩)
    · exact .draw (.switching hz hdraw)
    · exact .switching hroom
  rintro ⟨switching, masks, errors⟩ ⟨hkey, hswitching, -⟩
  have hkeys : ((branchTasks (store.basesToMake params) rest.branch.2.branch.2).1.mapM
      (makeKey params ring s sk switching)).Ends (fun _ => ∀ base ∈ store.basesToMake params, IsGadgetBase base)
      (Stops params ring middle sk mode (store.basesToMake params) source) := by
    have hbases := branchTasks_bases (store.basesToMake params) rest.branch.2.branch.2
    refine (mapM_ends fun task htask => (makeKey_ends hvalue.symm htakes hsk.isTernary task).imp_stops
      ?_).imp_value ?_
    · rintro e (⟨rfl, gadget, hgadget, hdraw⟩ | ⟨hnone, hfault⟩)
      · rw [hdim] at hdraw
        exact .draw (.rotation hz htask hgadget hdraw)
      · exact .gadget (hbases ▸ List.mem_map_of_mem htask) hnone hfault
    · intro keys hall base hmem
      rw [← hbases] at hmem
      obtain ⟨task, htask, rfl⟩ := List.mem_map.1 hmem
      exact hall task htask
  cases mode with
  | symmetric =>
    refine hkeys.bind fun keys hall => .inl ⟨_, rfl, hall, hswitching, ?_⟩
    rintro ⟨⟩
  | publishing =>
    have hmodulus : params.lwe.ringModulus = ring.modulus.value := h.ringModulus_eq.trans hvalue.symm
    rw [← h.switchingModulus_eq] at hkey
    simp only [hmodulus]
    refine ((Lwe.PublicKey.generate_ends hzdim hzternary _ masks errors).imp_stops ?_).bind ?_
    · rintro _ (⟨rfl, hdraw⟩ | ⟨rfl, hroom⟩)
      · exact .draw (.publicKey rfl hz hkey hdraw)
      · exact .publicKey rfl hroom
    rintro ⟨pk, _, _⟩ hroom
    exact hkeys.bind fun keys hall => .inl ⟨_, rfl, hall, hswitching, fun _ => hroom⟩

end KeyStore

namespace Context

open KeyStore

variable {ctx : Context} {sk : Lwe.Secret} {mode : KeyMode}

private theorem bootstrapKeyGen_fails {e : Error}
    (h : ctx.keys.generate ctx.params ctx.ring sk mode ctx.source = Attempt.fail e) :
    (bootstrapKeyGen sk mode).Fails ctx e ctx :=
  Action.bind_fails.2 (.inr ⟨_, _, Action.get_gives.2 ⟨rfl, rfl⟩,
    Action.bind_fails.2 (.inl (Action.ofAttempt_fails.2 ⟨h, rfl⟩))⟩)

private theorem bootstrapKeyGen_faults {fault : Fault}
    (h : ctx.keys.generate ctx.params ctx.ring sk mode ctx.source =
      liftM (Except.error fault : Checked (KeyStore × Stream))) :
    (bootstrapKeyGen sk mode).Faults ctx fault :=
  Action.bind_faults.2 (.inr ⟨_, _, Action.get_gives.2 ⟨rfl, rfl⟩,
    Action.bind_faults.2 (.inl (Action.ofAttempt_faults.2 h))⟩)

/-- The answer to a call for the keys of a ternary secret, in a context that was made from parameters which
agree on the ring, whatever keys it holds and whatever it has drawn. A secret of another dimension is
refused. Keys that are there are kept, if they need not be made for every base. Else keys are made anew. With
a base to switch by below two this does not end, as no power of the base reaches the modulus. With any other
base the call succeeds only where keys are feasible, and then there is a key for every base to make, or it
faults for one of the causes. -/
theorem bootstrapKeyGen_outcome {params : Params} {seed : Array UInt8} {start : Context} {middle : Modulus}
    (hstart : ofSeed params seed = pure start) (hmethod : params.rgsw.method = .ginx)
    (hdimension : params.lwe.ringDimension = params.rgsw.ringDimension)
    (hmodulus : params.lwe.ringModulus = params.rgsw.ringModulus)
    (hmiddle : params.lwe.switchingModulus = middle.value) (hsk : sk.Ternary) (mode : KeyMode)
    (keys : KeyStore) (source : Stream) :
    let ctx : Context := { start with keys, source }
    let lwe := params.lwe
    let store := keys.kept sk
    let bases := store.basesToMake params
    let there := params.everyBase = false ∧ (store.get? keys.activeBase).isSome ∧
      (mode = .publishing → store.publicKey.isSome)
    (sk.dimension ≠ lwe.dimension → (bootstrapKeyGen sk mode).Fails ctx
      (.dimensionMismatch ⟨lwe.dimension, lwe.modulus⟩ ⟨sk.dimension, lwe.modulus⟩) ctx) ∧
    (sk.dimension = lwe.dimension → there → (bootstrapKeyGen sk mode).Gives ctx () ctx) ∧
    (sk.dimension = lwe.dimension → ¬there → lwe.switchingBase < 2 →
      (∀ digits, lwe.switchingBase ^ digits < middle.value) ∧
      (bootstrapKeyGen sk mode).Faults ctx .exhausted) ∧
    (sk.dimension = lwe.dimension → ¬there → 2 ≤ lwe.switchingBase →
      (∃ next, (bootstrapKeyGen sk mode).Gives ctx () next ∧ Feasible params middle mode bases ∧
        ∀ base ∈ bases, (next.keys.get? base).isSome) ∨
      ∃ fault, (bootstrapKeyGen sk mode).Faults ctx fault ∧
        Stops params start.ring middle sk mode bases source fault) := by
  obtain ⟨ring, hring, rfl⟩ := ofSeed_eq_pure hstart
  have hternary := hsk.isTernary
  have hagrees : Agrees params ring middle := ⟨hring, hdimension, hmodulus, hmiddle⟩
  have hmade (hdim : sk.dimension = params.lwe.dimension) (hmissing : ¬(params.everyBase = false ∧
      ((keys.kept sk).get? keys.activeBase).isSome ∧ (mode = .publishing → (keys.kept sk).publicKey.isSome))) :
      keys.generate params ring sk mode source = liftM ((keys.kept sk).refresh params ring sk mode source) :=
    Admits.generate_eq_ite ⟨hmethod, hternary, hdim⟩ |>.trans (if_neg hmissing)
  refine ⟨fun hdim => bootstrapKeyGen_fails ?_, fun hdim hthere => bootstrapKeyGen_gives ?_,
    fun hdim hmissing hbase => ⟨Lwe.SwitchingKey.pow_lt_of_base_lt_two hbase middle.one_lt,
      bootstrapKeyGen_faults ?_⟩, fun hdim hmissing hbase => ?_⟩
  · have hne : (sk.dimension == params.lwe.dimension) = false := beq_false_of_ne hdim
    simp only [KeyStore.generate, hmethod, hternary, hne, beq_self_eq_true, Attempt.require_true,
      Attempt.require_false, Attempt.liftM_ok, pure_bind, Attempt.fail_bind]
  · have hadmits : Admits params sk := ⟨hmethod, hternary, hdim⟩
    refine hadmits.generate_eq_ite.trans ?_
    rw [if_pos hthere, kept_of_isSome hthere.2.1]
  · exact (hmade hdim hmissing).trans (congrArg _ (refresh_of_base_lt_two hagrees hbase source))
  · have hmade := hmade hdim hmissing
    obtain ⟨⟨keys', rest⟩, hrefresh, hfeasible⟩ | ⟨fault, hrefresh, hstops⟩ :=
      refresh_ends hagrees hbase hsk hdim source
    · obtain ⟨fresh, -, hrefreshed⟩ := exists_refreshed hrefresh
      rw [hrefresh, Attempt.liftM_ok] at hmade
      exact .inl ⟨_, bootstrapKeyGen_gives hmade, hfeasible,
        fun base hmem => (hrefreshed.isSome_get? base).2 hmem⟩
    · rw [hrefresh] at hmade
      exact .inr ⟨fault, bootstrapKeyGen_faults hmade, hstops⟩

/-- In a fresh context the keys of the sample are made, and so they are feasible. -/
theorem bootstrapKeyGen_outcome_sample : ∃ start next, ofSeed sampleParams #[1] = pure start ∧
    (bootstrapKeyGen ⟨#[1], .ternary⟩ .symmetric).Gives start () next ∧
    Feasible sampleParams ⟨17, by decide, by decide⟩ .symmetric [32] ∧
    ∀ base ∈ [32], (next.keys.get? base).isSome := by
  obtain ⟨start, first, -, -, -, -, -, hstart, hstep, -⟩ :=
    KeyCall.exists_sampleSteps false .symmetric .publishing (.inr ⟨rfl, rfl⟩)
  have hfirst := KeyCall.step_eq_some.1 hstep
  obtain ⟨ring, -, rfl⟩ := ofSeed_eq_pure hstart
  have hmiddle : sampleParams.lwe.switchingModulus = (⟨17, by decide, by decide⟩ : Modulus).value := rfl
  have houtcome := bootstrapKeyGen_outcome hstart rfl rfl rfl hmiddle ternary_sample .symmetric (.empty 32)
    (.ofSeed #[1])
  obtain ⟨next, hgives⟩ | ⟨fault, hfaults, -⟩ :=
    houtcome.2.2.2 rfl (fun hthere => Bool.false_ne_true hthere.2.1) le_rfl
  · exact ⟨_, next, hstart, hgives⟩
  · cases hfirst.symm.trans hfaults

end Context

section Faults

open KeyStore
open Lwe.SwitchingKey (HasRoom count digitsFrom)

/-- The sample with other errors, another base to switch by and another base of the gadget. -/
def KeyStore.sampleWith (sigma : Float) (switchingBase base : ℕ) : Params :=
  .explicit 1 4 8 17 sigma switchingBase base 32 .ginx

/-- In a fresh context a call for the keys of such a sample ends neither with success nor with an error. -/
def Context.FaultsAt (sigma : Float) (switchingBase base : ℕ) (fault : Fault) : Prop :=
  ∃ start, ofSeed (sampleWith sigma switchingBase base) #[1] = pure start ∧
    (bootstrapKeyGen ⟨#[1], .ternary⟩ .symmetric).Faults start fault

variable {ring : NegacyclicRing} {sigma : Float} {switchingBase base : ℕ} {fault : Fault}

private theorem exists_sampleKeys (hring : NegacyclicRing.check 4 17 = .ok ring) : ∃ z s rest switching,
    Lwe.Secret.generate 4 .ternary Params.defaultSigma (.ofSeed #[1]) = .ok (z, rest) ∧
    Rlwe.Secret.ofLwe ring z = .ok s ∧
    Lwe.SwitchingKey.generate z ⟨#[1], .ternary⟩ 2 17 Params.defaultSigma rest.branch.1
      rest.branch.2.branch.1 = .ok switching := by
  obtain ⟨-, hvalue, -⟩ := NegacyclicRing.check_shape hring
  obtain ⟨drawn, -, rest, -, hdrawn, -⟩ := exists_sampleDraws hvalue
  obtain ⟨keys, hkeys⟩ : ∃ keys, (empty 32).refresh sampleParams ring ⟨#[1], .ternary⟩ .symmetric
      (.ofSeed #[1]) = .ok (keys, rest) := by
    have hbase : (empty 32).activeBase = 32 := rfl
    rw [← hbase] at hdrawn
    have hmode : KeyMode.symmetric ≠ .publishing := by decide
    have htest : Lwe.Secret.isTernary ⟨#[1], .ternary⟩ = .ok true := rfl
    have hdim : Lwe.Secret.dimension ⟨#[1], .ternary⟩ = sampleParams.lwe.dimension := rfl
    obtain ⟨keys, -, hkeys, -⟩ :=
      exists_refresh (supports_sample hring false) (basesToMake_eq rfl) htest hdim (fun h => (hmode h).elim)
        hdrawn
    exact ⟨keys, hkeys⟩
  obtain ⟨⟨z, rest⟩, hz, h⟩ := Checked.bind_eq_ok.1 hkeys
  obtain ⟨s, hs, h⟩ := Checked.bind_eq_ok.1 h
  obtain ⟨switching, hswitching, -⟩ := Checked.bind_eq_ok.1 h
  exact ⟨z, s, rest, switching, hz, hs, hswitching⟩

private theorem faultsAt_of_refresh (h : ∀ ring, NegacyclicRing.check 4 17 = .ok ring →
    ∀ store : KeyStore, store.activeBase = base → store.refresh (sampleWith sigma switchingBase base) ring
      ⟨#[1], .ternary⟩ .symmetric (.ofSeed #[1]) = .error fault) :
    Context.FaultsAt sigma switchingBase base fault := by
  have hdegree : (sampleWith sigma switchingBase base).rgsw.ringDimension = 4 := rfl
  obtain ⟨start, hstart⟩ := Context.exists_ofSeed_four hdegree rfl #[1]
  obtain ⟨ring, hring, rfl⟩ := Context.ofSeed_eq_pure hstart
  have hadmits : Admits (sampleWith sigma switchingBase base) ⟨#[1], .ternary⟩ := ⟨rfl, rfl, rfl⟩
  refine ⟨_, hstart, Context.bootstrapKeyGen_faults (hadmits.generate_eq_ite.trans ?_)⟩
  rw [if_neg fun hthere => Bool.false_ne_true hthere.2.1]
  exact congrArg _ (h ring hring _ kept_activeBase)

private theorem faultsAt_of_switching (h : ∀ (z : Lwe.Secret) (masks errors : Stream), z.dimension = 4 →
    z.Ternary → Lwe.SwitchingKey.generate z ⟨#[1], .ternary⟩ switchingBase 17 sigma masks errors =
      .error fault) : Context.FaultsAt sigma switchingBase base fault := by
  refine faultsAt_of_refresh fun ring hring store _ => ?_
  obtain ⟨z, s, rest, -, hz, hs, -⟩ := exists_sampleKeys hring
  obtain ⟨hdim, hternary⟩ := Lwe.Secret.ternary_of_generate hz
  exact refresh_of_switching hz hs (h z _ _ hdim hternary)

private theorem faultsAt_of_gadget
    (h : (sampleWith Params.defaultSigma 2 base).rgsw.gadgetFor base = .error fault) :
    Context.FaultsAt Params.defaultSigma 2 base fault := by
  refine faultsAt_of_refresh fun ring hring store hbase => ?_
  obtain ⟨z, s, rest, switching, hz, hs, hswitching⟩ := exists_sampleKeys hring
  exact refresh_of_gadget rfl hz hs hswitching (hbase ▸ h)

/-- A call for keys faults with a base that is no power of two or is one, with a base to switch by that leaves
no room for the key, and with errors of negative width. With a base to switch by of zero or one it does not
end. -/
theorem Context.bootstrapKeyGen_faults_sample :
    FaultsAt Params.defaultSigma 2 96 (.invalidGadgetBase 96) ∧
    FaultsAt Params.defaultSigma 2 1 (.invalidLogBase 0) ∧
    FaultsAt Params.defaultSigma (2 ^ 62) 32 .overflow ∧ FaultsAt (-1.0) 2 32 .exhausted ∧
    FaultsAt Params.defaultSigma 0 32 .exhausted ∧ FaultsAt Params.defaultSigma 1 32 .exhausted := by
  have hdim : Lwe.Secret.dimension ⟨#[1], .ternary⟩ = 1 := rfl
  let q : Modulus := ⟨17, by decide, by decide⟩
  refine ⟨faultsAt_of_gadget rfl, faultsAt_of_gadget (by decide +kernel), ?_, ?_,
    faultsAt_of_switching fun z masks errors _ _ =>
      Lwe.SwitchingKey.generate_of_base_lt_two (q := q) zero_lt_two z _ _ masks errors,
    faultsAt_of_switching fun z masks errors _ _ =>
      Lwe.SwitchingKey.generate_of_base_lt_two (q := q) one_lt_two z _ _ masks errors⟩
  · have hbase : 2 ≤ 2 ^ 62 := by decide
    have hroom : ¬HasRoom q 4 1 (2 ^ 62) := by simp [HasRoom, count, digitsFrom, q]
    refine faultsAt_of_switching fun z masks errors hz hternary => ?_
    obtain ⟨_, -, h, -⟩ | ⟨_, hfault, ⟨h, -⟩ | ⟨-, rfl⟩⟩ :=
      Lwe.SwitchingKey.generate_ends (q := q) hbase four_pos hz hdim hternary ternary_sample _ masks errors
    · exact (hroom h).elim
    · exact (hroom h).elim
    · exact hfault
  · have hroom : HasRoom q 4 1 2 := by simp [HasRoom, count, digitsFrom, q]
    have hentries : count q 4 2 = 19 + 1 := by simp [count, digitsFrom, q]
    have hnegative : ¬0 ≤ Stream.gaussianBound (-1.0) := by decide +kernel
    refine faultsAt_of_switching fun z masks errors hz hternary => ?_
    obtain ⟨_, -, -, r, hr⟩ | ⟨_, hfault, ⟨-, rfl, -⟩ | ⟨h, -⟩⟩ :=
      Lwe.SwitchingKey.generate_ends (q := q) le_rfl four_pos hz hdim hternary ternary_sample (-1.0) masks
        errors
    · rw [hentries, Stream.gaussians_of_negative hnegative] at hr
      cases hr
    · exact hfault
    · exact (h hroom).elim

end Faults

end LatticeGates
