import LatticeGates.Proofs.BlindRotation.Dimensions
import LatticeGates.Proofs.Eval.Totality
import LatticeGates.Threshold

/-!
# What the installation of a joint key lets through

Main statement: a joint key is refused for its number of blocks and for nothing else. Once it is installed,
the gates end exactly when the rotation key has the small dimension and the switching key starts from the
ring, and they return ciphertexts of the dimension that the switching key leads to.
-/

namespace LatticeGates

/-! ## Keys as they are made -/

namespace BlindRotation.Key

/-- Rotation keys as they are made, without blocks or from a secret, and then block by block. Every step may
be over a ring of its own. -/
inductive Built : Key → Prop
  | empty {q logBase : ℕ} {gadget : Gadget} (dimension : ℕ) (check : Gadget.check q logBase = .ok gadget) :
      Built (.empty dimension gadget)
  | generate {q logBase : ℕ} {gadget : Gadget} {ring : NegacyclicRing} {z : Rlwe.Secret} {sk : Lwe.Secret}
      {sigma : Float} {masks errors : Stream} {key : Key} {rest : Stream × Stream}
      (check : Gadget.check q logBase = .ok gadget)
      (run : Key.generate ring gadget z sk sigma masks errors = .ok (key, rest)) : Built key
  | append {ring : NegacyclicRing} {zero : Rgsw} {sk : Lwe.Secret} {sigma : Float}
      {ternaries errors : Stream} {key key' : Key} {rest : Stream × Stream} (before : Built key)
      (run : Key.append ring key zero sk sigma ternaries errors = .ok (key', rest)) : Built key'

variable {key : Key}

private theorem Built.rows (h : key.Built) :
    (0 < key.gadget.logBase ∧ key.gadget.logBase < 63) ∧
    ∀ block ∈ key.blocks, ∀ pair ∈ block,
      pair.plus.Fits key.gadget ∧ pair.minus.Fits key.gadget := by
  induction h with
  | empty dimension check =>
    exact ⟨Gadget.logBase_of_check check, fun _ hblock => by simp [Key.empty] at hblock⟩
  | generate check run =>
    obtain ⟨⟨block, _⟩, hblock, run⟩ := Checked.bind_eq_ok.1 run
    cases run
    refine ⟨Gadget.logBase_of_check check, fun block' hmem => ?_⟩
    obtain rfl := List.mem_singleton.1 (List.mem_toArray.1 hmem)
    exact pair_of_encryptBlock (P := Rgsw.Fits _) (fun _ _ _ _ _ => Rgsw.fits_of_encrypt) hblock
  | append before run ih =>
    obtain ⟨_, -, run⟩ := Checked.bind_eq_ok.1 run
    obtain ⟨⟨block, _⟩, hblock, run⟩ := Checked.bind_eq_ok.1 run
    cases run
    refine ⟨ih.1, fun block' hmem => ?_⟩
    rcases Array.mem_push.1 hmem with hmem | rfl
    · exact ih.2 block' hmem
    · exact pair_of_encryptBlock (P := Rgsw.Fits _) (fun _ _ _ _ _ => Rgsw.fits_of_encryptPublic) hblock

/-- A key goes with every ring of the modulus of its gadget, whatever rings it was made over. -/
theorem Built.fits {ring : NegacyclicRing} (h : key.Built) (hm : key.gadget.modulus = ring.modulus)
    (hdim : key.dimension ≠ 0) : key.Fits ring :=
  ⟨hm, h.rows.1.1, h.rows.1.2, hdim, h.rows.2⟩

end BlindRotation.Key

namespace Lwe.SwitchingKey

/-- Switching keys as they are made, of zeros or from a pair of secrets, and then share by share. -/
inductive Built : SwitchingKey → Prop
  | zero {source target base modulus : ℕ} {key : SwitchingKey}
      (run : SwitchingKey.zero source target base modulus = .ok key) : Built key
  | generate {z s : Secret} {base modulus : ℕ} {sigma : Float} {masks errors : Stream} {key : SwitchingKey}
      {rest : Stream × Stream}
      (run : SwitchingKey.generate z s base modulus sigma masks errors = .ok (key, rest)) : Built key
  | accumulate {z s : Secret} {sigma : Float} {errors rest : Stream} {key key' : SwitchingKey}
      (before : Built key) (run : key.accumulate z s sigma errors = .ok (key', rest)) : Built key'

variable {key key' : SwitchingKey} {q : Modulus} {source target : ℕ}

theorem Fits.source_eq (h : key.Fits q source target) : key.source = source := by
  obtain ⟨_, hzero⟩ := h.shape
  exact (zero_eq_ok hzero).1

theorem Fits.target_eq (h : key.Fits q source target) : key.target = target := by
  obtain ⟨_, hzero⟩ := h.shape
  exact (zero_eq_ok hzero).2.1

private theorem modulus_of_accumulate {z s : Secret} {sigma : Float} {errors rest : Stream}
    (h : key.accumulate z s sigma errors = .ok (key', rest)) : key'.modulus = key.modulus := by
  obtain ⟨_, -, h⟩ := Checked.bind_eq_ok.1 h
  obtain ⟨r, -, h⟩ := Checked.bind_eq_ok.1 h
  obtain ⟨⟨e, _⟩, -, h⟩ := Checked.bind_eq_ok.1 h
  obtain ⟨shared, hshared, h⟩ := Checked.bind_eq_ok.1 h
  cases h
  obtain ⟨entries, -, hshared⟩ := Checked.bind_eq_ok.1 hshared
  cases hshared
  rfl

/-- A key whose modulus is in range has the shape for its dimensions. -/
theorem Built.fits (h : key.Built) (hmodulus : key.modulus = q.value) :
    key.Fits q key.source key.target := by
  induction h with
  | @zero source target base modulus key run =>
    obtain ⟨rfl, -, -⟩ := eq_of_zero run
    obtain rfl : modulus = q.value := hmodulus
    have hfits := (encrypts_of_zero (s := Secret.zero target) (by simpa using run)).1
    rwa [Secret.dimension_zero] at hfits
  | generate run =>
    obtain ⟨r, hfits⟩ := fits_of_generate run
    obtain rfl := Modulus.value_injective (hfits.modulus_eq.symm.trans hmodulus)
    rwa [hfits.source_eq, hfits.target_eq]
  | accumulate before run ih =>
    have hfits := (ih ((modulus_of_accumulate run).symm.trans hmodulus)).accumulate run
    rwa [hfits.source_eq, hfits.target_eq]

end Lwe.SwitchingKey

namespace Context

open BlindRotation

variable {ctx : Context} {rotation : Key} {switching : Lwe.SwitchingKey} {q : Modulus}
  {ct : Lwe.Ciphertext} {request : Evaluation} {start : ℕ}

/-! ## Gates with a joint key -/

/-- The evaluations that are one bootstrap of a small ciphertext. -/
def Evaluation.IsGate : Evaluation → Prop
  | gate .. | majority .. | identity .. => True
  | _ => False

private theorem exists_bootstrapped (hgate : request.IsGate) (hmodulus : ctx.params.lwe.modulus = q.value)
    (hinputs : ∀ ct ∈ request.inputs, ct.WellFormed ∧ shapeOf ct = ctx.smallShape) :
    ∃ ct start, ct.Shaped q ctx.params.lwe.dimension ∧ start ≤ ct.modulus ∧
      request.run ctx = do return #[← ctx.bootstrapSign ct start] := by
  have hshaped {ct : Lwe.Ciphertext} (h : ct.WellFormed ∧ shapeOf ct = ctx.smallShape) :
      ct.Shaped q ctx.params.lwe.dimension := by
    obtain ⟨hwf, hshape⟩ := h
    simp only [shapeOf, smallShape, Shape.mk.injEq] at hshape
    exact Lwe.Ciphertext.shaped_iff.2 ⟨hshape.2.trans hmodulus, hshape.1, hwf⟩
  cases request with
  | gate g x y =>
    obtain ⟨hx, hy⟩ := List.forall_mem_cons.1 hinputs
    have hy := List.forall_mem_singleton.1 hy
    obtain ⟨sum, hsum, hsum_shaped, -⟩ := Lwe.Ciphertext.exists_add (hshaped hx) (hshaped hy) fun _ => 0
    obtain ⟨ct, hct, hct_shaped, -⟩ := exists_operand g hsum_shaped fun _ => 0
    refine ⟨ct, g.regionStart x.modulus, hct_shaped, ?_, ?_⟩
    · rw [(hshaped hx).modulus_eq, hct_shaped.modulus_eq]
      exact g.regionStart_le q.value
    · rw [Evaluation.run, evalGate_eq (checkSmall_eq hx.2) (checkSmall_eq hy.2) hsum hct]
  | majority x y z =>
    obtain ⟨hx, hrest⟩ := List.forall_mem_cons.1 hinputs
    obtain ⟨hy, hz⟩ := List.forall_mem_cons.1 hrest
    have hz := List.forall_mem_singleton.1 hz
    obtain ⟨two, htwo, htwo_shaped, -⟩ := Lwe.Ciphertext.exists_add (hshaped hx) (hshaped hy) fun _ => 0
    obtain ⟨sum, hsum, hsum_shaped, -⟩ := Lwe.Ciphertext.exists_add htwo_shaped (hshaped hz) fun _ => 0
    refine ⟨sum, Gate.and.regionStart x.modulus, hsum_shaped, ?_, ?_⟩
    · rw [(hshaped hx).modulus_eq, hsum_shaped.modulus_eq]
      exact Gate.regionStart_le q.value .and
    · rw [Evaluation.run,
        evalMajority_eq (checkSmall_eq hx.2) (checkSmall_eq hy.2) (checkSmall_eq hz.2) htwo hsum]
  | identity x =>
    have hx := List.forall_mem_singleton.1 hinputs
    obtain ⟨shifted, hshifted, hshift_shaped, -⟩ :=
      Lwe.Ciphertext.exists_addConstant (hshaped hx) (x.modulus / 4) fun _ => 0
    refine ⟨shifted, Gate.and.regionStart x.modulus, hshift_shaped, ?_, ?_⟩
    · rw [(hshaped hx).modulus_eq, hshift_shaped.modulus_eq]
      exact Gate.regionStart_le q.value .and
    · rw [Evaluation.run, evalIdentity_eq (checkSmall_eq hx.2) hshifted]
  | not | function | floor | sign | digits => exact hgate.elim

private structure Joined (ctx : Context) (q : Modulus) (rotation : Key) (switching : Lwe.SwitchingKey) :
    Prop where
  runs : ctx.ring.Runs
  degree_lt : 2 * ctx.ring.degree < ctx.ring.modulus.value
  modulus_eq : ctx.params.lwe.modulus = q.value
  modulus_dvd : q.value ∣ 2 * ctx.ring.degree
  active_eq : ctx.keys.active = pure ⟨ctx.keys.activeBase, rotation, switching⟩
  dimension_ne : rotation.dimension ≠ 0

private theorem Joined.bootstrapSign_eq (h : ctx.Joined q rotation switching)
    (hct : ct.Shaped q ctx.params.lwe.dimension) (hstart : start ≤ ct.modulus) : ∃ tab,
      tab.domain = ct.modulus ∧ ctx.ring.modulus.Reduced ctx.ring.degree tab.data ∧
      ctx.bootstrapSign ct start = liftM (BlindRotation.bootstrap ctx.ring rotation switching ct tab
        (ctx.params.lwe.ringModulus / 8) q.value) := by
  obtain ⟨tab, htab, hdomain, hred, -⟩ := Table.exists_ofFn q.one_lt h.modulus_dvd
    (signValue ctx.params.lwe.ringModulus q.value start)
  rw [hct.modulus_eq] at hstart
  refine ⟨tab, hdomain.trans hct.modulus_eq.symm, hred, ?_⟩
  rw [Context.bootstrapSign_eq h.active_eq (hct.modulus_eq ▸ q.lt_bound) (hct.modulus_eq ▸ hstart),
    bootstrapTable, hct.modulus_eq, htab, Checked.ok_bind]

private theorem Joined.faults_bootstrapSign (h : ctx.Joined q rotation switching)
    (hconnects : ¬Connects ctx.ring.degree ctx.params.lwe.dimension rotation switching)
    (hct : ct.Shaped q ctx.params.lwe.dimension) (hstart : start ≤ ct.modulus) :
    (ctx.bootstrapSign ct start).Faults := by
  obtain ⟨tab, -, -, hrun⟩ := h.bootstrapSign_eq hct hstart
  rw [hrun]
  refine Attempt.faults_liftM fun out hout => hconnects ?_
  have hdim : ct.dimension = ctx.params.lwe.dimension := hct.mask.size_eq
  exact hdim ▸ connects_of_bootstrap hout

private theorem Joined.exists_bootstrapSign (h : ctx.Joined q rotation switching) (hrotation : rotation.Built)
    (hswitching : switching.Built) (hgadget : rotation.gadget.modulus = ctx.ring.modulus)
    (hconnects : Connects ctx.ring.degree ctx.params.lwe.dimension rotation switching)
    (hct : ct.Shaped q ctx.params.lwe.dimension) (hstart : start ≤ ct.modulus) :
    ∃ out, ctx.bootstrapSign ct start = pure out ∧ out.modulus = q.value ∧
      out.dimension = switching.target ∧ out.WellFormed := by
  obtain ⟨tab, hdomain, hred, hrun⟩ := h.bootstrapSign_eq hct hstart
  obtain ⟨middle, hmiddle⟩ := hconnects.modulus_eq
  obtain ⟨hmodulus, hdim, hwf⟩ := Lwe.Ciphertext.shaped_iff.1 hct
  obtain ⟨out, hout, hshape⟩ := exists_bootstrap_of_fits h.runs (h.degree_lt.trans ctx.ring.modulus.lt_word)
    (hrotation.fits hgadget h.dimension_ne) (hconnects.source_eq ▸ hswitching.fits hmiddle) hred hwf
    (hdim.trans hconnects.dimension_eq.symm) hdomain (hmodulus ▸ h.modulus_dvd)
    (ctx.params.lwe.ringModulus / 8) q.pos
  exact ⟨out, by rw [hrun, hout, Attempt.liftM_ok], hshape⟩

/-! ## The installation -/

private theorem installJointKey_run : (installJointKey rotation switching).run.run ctx =
    if rotation.dimension = 0 then .error .divisionByZero
    else if rotation.blocks.size = ctx.params.parties then
      .ok (.ok (), { ctx with keys := ctx.keys.install rotation switching })
    else .ok (.error (.incompleteShares ctx.params.parties rotation.blocks.size 1), ctx) := by
  by_cases hdim : rotation.dimension = 0
  · have hcount : rotation.blockCount = .error .divisionByZero := if_pos hdim
    rw [if_pos hdim, installJointKey, hcount]
    rfl
  · have hcount : rotation.blockCount = .ok rotation.blocks.size := if_neg hdim
    have hrun : (installJointKey rotation switching).run.run ctx = (do
        Action.require (rotation.blocks.size == ctx.params.parties)
          (.incompleteShares ctx.params.parties rotation.blocks.size 1)
        set { ctx with keys := ctx.keys.install rotation switching } : Action Unit).run.run ctx := by
      rw [installJointKey, hcount]
      rfl
    rw [if_neg hdim, hrun]
    by_cases hblocks : rotation.blocks.size = ctx.params.parties
    · rw [if_pos hblocks, hblocks, beq_self_eq_true]
      rfl
    · rw [if_neg hblocks, beq_false_of_ne hblocks]
      rfl

variable {params : Params} {seed : Array UInt8} {fresh : Context}

/-- Installed keys that fit equip a context as generated ones do, so that no evaluation faults. The base of
their gadget does not matter. -/
theorem exists_equipped_install (hstart : ofSeed params seed = pure fresh) (hrotation : rotation.Built)
    (hswitching : switching.Built) (hdegree : params.lwe.ringDimension = params.rgsw.ringDimension)
    (hring : params.lwe.ringModulus = params.rgsw.ringModulus) (hdim : 1 ≤ params.lwe.dimension)
    (hmodulus : 8 ≤ params.lwe.modulus) (hdvd : params.lwe.modulus ∣ 2 * params.lwe.ringDimension)
    (hconnects : Connects params.rgsw.ringDimension params.lwe.dimension rotation switching)
    (htarget : switching.target = params.lwe.dimension)
    (hgadget : rotation.gadget.modulus.value = params.rgsw.ringModulus) (keys : KeyStore)
    (source : Stream) : ∃ q, Equipped { fresh with keys := keys.install rotation switching, source } q := by
  obtain ⟨ring, hcheck, rfl⟩ := ofSeed_eq_pure hstart
  obtain ⟨hdegree_eq, hvalue, -⟩ := NegacyclicRing.check_shape hcheck
  rw [hdegree, ← hdegree_eq] at hdvd
  obtain ⟨q, hq⟩ := NegacyclicRing.exists_modulus_of_dvd hcheck ((by decide : 2 ≤ 8).trans hmodulus) hdvd
  obtain ⟨middle, hmiddle⟩ := hconnects.modulus_eq
  have hfits : BootstrapKey.Fits ring params.lwe.dimension ⟨keys.activeBase, rotation, switching⟩ := {
    rotation := hrotation.fits (Modulus.value_injective (hgadget.trans hvalue.symm))
      (hconnects.dimension_eq ▸ Nat.one_le_iff_ne_zero.1 hdim)
    dimension_eq := hconnects.dimension_eq
    switching := ⟨middle, by
      have hswitching := hswitching.fits hmiddle
      rwa [hconnects.source_eq, htarget, ← hdegree_eq] at hswitching⟩ }
  exact ⟨q, {
    runs := NegacyclicRing.check_runs hcheck
    degree_lt := NegacyclicRing.two_mul_degree_lt_modulus hcheck
    degree_eq := hdegree_eq.trans hdegree.symm
    ringModulus_pos := by rw [hring, ← hvalue]; exact ring.modulus.pos
    modulus_eq := hq
    modulus_dvd := hq ▸ hdvd
    eight_le := hq ▸ hmodulus
    exists_active := ⟨_, KeyStore.active_install⟩
    fits := fun {b key} hkey => by
      rw [KeyStore.get?_install] at hkey
      split at hkey
      · cases hkey
        exact hfits
      · cases hkey }⟩

/-- The answer to a joint key and the gates after it. The key is refused for its number of blocks and for
nothing else, and the store is left as it was. Once it is installed, whatever was drawn since, gates on small
ciphertexts fault unless the rotation key has the small dimension and the switching key starts from the ring;
with a gadget over the ring they end in a ciphertext of the dimension that the switching key leads to. -/
theorem installJointKey_outcome (hstart : ofSeed params seed = pure fresh) (hrotation : rotation.Built)
    (hswitching : switching.Built) (hmodulus : 2 ≤ params.lwe.modulus)
    (hdvd : params.lwe.modulus ∣ 2 * params.rgsw.ringDimension) (keys : KeyStore) (source : Stream) :
    ((installJointKey rotation switching).run.run { fresh with keys, source } =
      if rotation.dimension = 0 then .error .divisionByZero
      else if rotation.blocks.size = params.parties then
        .ok (.ok (), { fresh with keys := keys.install rotation switching, source })
      else .ok (.error (.incompleteShares params.parties rotation.blocks.size 1),
        { fresh with keys, source })) ∧
    (rotation.dimension ≠ 0 → ∀ (rest : Stream) (request : Evaluation), request.IsGate →
      (∀ ct ∈ request.inputs, ct.WellFormed ∧ shapeOf ct = fresh.smallShape) →
      (¬Connects params.rgsw.ringDimension params.lwe.dimension rotation switching →
        (request.run { fresh with keys := keys.install rotation switching, source := rest }).Faults) ∧
      (Connects params.rgsw.ringDimension params.lwe.dimension rotation switching →
        rotation.gadget.modulus.value = params.rgsw.ringModulus → ∃ out,
          request.run { fresh with keys := keys.install rotation switching, source := rest } = pure #[out] ∧
          out.modulus = params.lwe.modulus ∧ out.dimension = switching.target ∧ out.WellFormed)) := by
  obtain ⟨ring, hcheck, rfl⟩ := ofSeed_eq_pure hstart
  obtain ⟨hdegree, hvalue, -⟩ := NegacyclicRing.check_shape hcheck
  refine ⟨installJointKey_run, fun hdim rest request hgate hinputs => ?_⟩
  rw [← hdegree] at hdvd ⊢
  obtain ⟨q, hq⟩ := NegacyclicRing.exists_modulus_of_dvd hcheck hmodulus hdvd
  let after : Context := ⟨params, ring, keys.install rotation switching, rest⟩
  have hjoined : after.Joined q rotation switching := {
    runs := NegacyclicRing.check_runs hcheck
    degree_lt := NegacyclicRing.two_mul_degree_lt_modulus hcheck
    modulus_eq := hq
    modulus_dvd := hq ▸ hdvd
    active_eq := KeyStore.active_install
    dimension_ne := hdim }
  obtain ⟨ct, start, hct, hstart, hrun⟩ := exists_bootstrapped hgate hjoined.modulus_eq hinputs
  refine ⟨fun hconnects => ?_, fun hconnects hgadget => ?_⟩
  · rw [hrun]
    exact (hjoined.faults_bootstrapSign hconnects hct hstart).bind _
  · have hgadget := Modulus.value_injective (hgadget.trans hvalue.symm)
    obtain ⟨out, hout, hout_modulus, hshape⟩ :=
      hjoined.exists_bootstrapSign hrotation hswitching hgadget hconnects hct hstart
    exact ⟨out, by rw [hrun, hout]; rfl, hout_modulus.trans hq.symm, hshape⟩

end Context

/-! ## Generated keys, installed -/

open KeyStore

theorem KeyStore.MadeFrom.built {params params' : Params} {ring : NegacyclicRing} {sk : Lwe.Secret}
    {mode : KeyMode} {source : Stream} {fresh : Fresh} {store : KeyStore} {base : ℕ} {key : BootstrapKey}
    (h : store.MadeFrom params ring sk fresh) (hfresh : Generates params' sk mode source fresh)
    (hkey : store.get? base = some key) :
    key.rotation.Built ∧ key.switching.Built ∧ key.rotation.blocks.size = 1 := by
  obtain ⟨rest, masks, errors, -, hswitching, -⟩ := hfresh
  obtain ⟨z, masks, errors, -, hmade⟩ := h.refresh base key hkey
  obtain ⟨-, hkey_switching, _, gadget, _, hgadget, hrotation⟩ := makeKey_eq_ok hmade
  rw [← hkey_switching] at hswitching
  refine ⟨.generate hgadget hrotation, .generate hswitching, ?_⟩
  obtain ⟨⟨block, _⟩, -, hblock⟩ := Checked.bind_eq_ok.1 hrotation
  injection hblock with hblock
  rw [← (Prod.mk.inj hblock).1]
  rfl

private theorem exists_sampleJointKey : ∃ (rotation : BlindRotation.Key) (switching : Lwe.SwitchingKey),
    rotation.Built ∧ switching.Built ∧ rotation.blocks.size = 1 ∧
    BlindRotation.Connects 4 1 rotation switching ∧ switching.target = 1 ∧
    rotation.gadget.modulus.value = 17 := by
  obtain ⟨start, ctx, hstart, hreaches⟩ := KeyCall.exists_generated
  obtain ⟨ring, hring, rfl⟩ := Context.ofSeed_eq_pure hstart
  obtain ⟨hdegree, hvalue, -⟩ := NegacyclicRing.check_shape hring
  obtain ⟨hparams, hring_eq, hholds⟩ := hreaches.explained rfl
  obtain ⟨⟨key, hactive⟩, hfits⟩ := hreaches.fits rfl hvalue one_ne_zero rfl
  obtain ⟨base, hkey⟩ := Context.get?_of_active hactive
  have hfits := hfits base key hkey
  obtain ⟨middle, hswitching⟩ := hfits.switching
  rw [hparams, hring_eq] at hfits hswitching
  dsimp only [KeyCall.lastDone] at hholds
  generalize ctx.keys = store at hholds hkey
  cases hholds with
  | generated origin _ _ _ madeFrom =>
    obtain ⟨mode, _, _, -, -, hfresh⟩ := origin
    obtain ⟨hrotation_built, hswitching_built, hblocks⟩ := madeFrom.built hfresh hkey
    exact ⟨key.rotation, key.switching, hrotation_built, hswitching_built, hblocks,
      ⟨hfits.dimension_eq, hswitching.source_eq.trans hdegree, middle, hswitching.modulus_eq⟩,
      hswitching.target_eq, congrArg Modulus.value hfits.rotation.modulus_eq |>.trans hvalue⟩

/-- The keys of the sample pass in a context for one coefficient, where they are of use, and in one for two
coefficients, where the gates fault. -/
theorem Context.installJointKey_outcome_sample :
    ∃ (rotation : BlindRotation.Key) (switching : Lwe.SwitchingKey), rotation.Built ∧ switching.Built ∧
    (∃ start next out, ofSeed (.explicit 1 4 8 17 Params.defaultSigma 2 32 32 .ginx) #[1] = pure start ∧
      (installJointKey rotation switching).run.run start = .ok (.ok (), next) ∧
      (Evaluation.gate .nand ⟨#[3], 2, 8⟩ ⟨#[5], 7, 8⟩).run next = pure #[out] ∧ out.dimension = 1) ∧
    ∃ start next, ofSeed (.explicit 2 4 8 17 Params.defaultSigma 2 32 32 .ginx) #[1] = pure start ∧
      (installJointKey rotation switching).run.run start = .ok (.ok (), next) ∧
      ((Evaluation.gate .nand ⟨#[3, 0], 2, 8⟩ ⟨#[5, 1], 7, 8⟩).run next).Faults := by
  obtain ⟨rotation, switching, hrotation, hswitching, hblocks, hconnects, htarget, hgadget⟩ :=
    exists_sampleJointKey
  have hdim : rotation.dimension ≠ 0 := hconnects.dimension_eq ▸ one_ne_zero
  refine ⟨rotation, switching, hrotation, hswitching, ?_, ?_⟩
  · obtain ⟨start, hstart⟩ := exists_ofSeed_four (show sampleParams.rgsw.ringDimension = 4 from rfl) rfl #[1]
    obtain ⟨hrun, hgates⟩ := installJointKey_outcome hstart hrotation hswitching (by decide) (by decide)
      start.keys start.source
    obtain ⟨ring, -, rfl⟩ := ofSeed_eq_pure hstart
    have hinputs : ∀ ct ∈ (Evaluation.gate .nand ⟨#[3], 2, 8⟩ ⟨#[5], 7, 8⟩).inputs,
        ct.WellFormed ∧ shapeOf ct = ⟨1, 8⟩ :=
      List.forall_mem_cons.2 ⟨⟨by decide, rfl⟩, List.forall_mem_singleton.2 ⟨by decide, rfl⟩⟩
    obtain ⟨-, hends⟩ :=
      hgates hdim (.ofSeed #[1]) (.gate .nand ⟨#[3], 2, 8⟩ ⟨#[5], 7, 8⟩) trivial hinputs
    obtain ⟨out, hout, -, hout_dim, -⟩ := hends hconnects hgadget
    exact ⟨_, _, out, hstart, hrun.trans ((if_neg hdim).trans (if_pos hblocks)), hout,
      hout_dim.trans htarget⟩
  · have hdegree : (Params.explicit 2 4 8 17 Params.defaultSigma 2 32 32 .ginx).rgsw.ringDimension = 4 := rfl
    obtain ⟨start, hstart⟩ := exists_ofSeed_four hdegree rfl #[1]
    obtain ⟨hrun, hgates⟩ := installJointKey_outcome hstart hrotation hswitching (by decide) (by decide)
      start.keys start.source
    obtain ⟨ring, -, rfl⟩ := ofSeed_eq_pure hstart
    have hinputs : ∀ ct ∈ (Evaluation.gate .nand ⟨#[3, 0], 2, 8⟩ ⟨#[5, 1], 7, 8⟩).inputs,
        ct.WellFormed ∧ shapeOf ct = ⟨2, 8⟩ :=
      List.forall_mem_cons.2 ⟨⟨by decide, rfl⟩, List.forall_mem_singleton.2 ⟨by decide, rfl⟩⟩
    obtain ⟨hfaults, -⟩ :=
      hgates hdim (.ofSeed #[1]) (.gate .nand ⟨#[3, 0], 2, 8⟩ ⟨#[5, 1], 7, 8⟩) trivial hinputs
    refine ⟨_, _, hstart, hrun.trans ((if_neg hdim).trans (if_pos hblocks)), hfaults fun h => ?_⟩
    have htwo : rotation.dimension = 2 := h.dimension_eq
    rw [hconnects.dimension_eq] at htwo
    exact absurd htwo (by decide)

end LatticeGates
