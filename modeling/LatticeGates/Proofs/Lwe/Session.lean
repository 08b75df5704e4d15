import LatticeGates.Proofs.BlindRotation.Totality
import LatticeGates.Proofs.Lwe.Encryption

/-!
# Sessions of ciphertexts

The operations that make ciphertexts, and the sessions that call one after the other on what was made
before. Main statement: every ciphertext of a session has its components below its modulus, and the next
operation returns another one or stops for a listed cause, of which none is a sum or a difference of words.
-/

namespace LatticeGates.Lwe

open Modulus

/-- Components below a number that moduli can be. -/
def Ciphertext.Proper (ct : Ciphertext) : Prop := ∃ q, ct.Shaped q ct.dimension

theorem Ciphertext.Shaped.proper {q : Modulus} {n : ℕ} {ct : Ciphertext} (h : ct.Shaped q n) :
    ct.Proper := by
  refine ⟨q, ?_⟩
  rwa [dimension, h.mask.size_eq]

theorem Ciphertext.Proper.wellFormed {ct : Ciphertext} (h : ct.Proper) : ct.WellFormed := by
  obtain ⟨q, hq⟩ := h
  exact (shaped_iff.1 hq).2.2

/-- The operations that make a ciphertext, with their arguments. -/
inductive Operation where
  | zero (n : ℕ) (q : Modulus)
  | ofParts (mask : Array ℕ) (body : ℕ) (q : Modulus)
  | encrypt (x : Ciphertext) (sk : Secret) (m p : ℕ) (sigma : Float) (masks errors : Stream)
  | encryptPublic (x : Ciphertext) (pk : PublicKey) (m p : ℕ) (sigma : Float) (signs errors : Stream)
  | add (x y : Ciphertext)
  | sub (x y : Ciphertext)
  | addConstant (x : Ciphertext) (c : ℕ)
  | subConstant (x : Ciphertext) (c : ℕ)
  | neg (x : Ciphertext)
  | scale (x : Ciphertext) (c : ℕ)
  | switchModulus (x : Ciphertext) (target : Modulus)
  | reduce (x : Ciphertext) (target : Modulus)
  | lift (x : Ciphertext) (target : Modulus)
  | switch (key : SwitchingKey) (x : Ciphertext)
  | extract (ring : NegacyclicRing) (x : Rlwe.Ciphertext)
  | bootstrap (ring : NegacyclicRing) (rotation : BlindRotation.Key) (switching : SwitchingKey)
      (x : Ciphertext) (table : BlindRotation.Table) (offset : ℕ) (target : Modulus)

/-- A ring, keys and a table that a ciphertext can be bootstrapped with. -/
structure Bootstraps (ring : NegacyclicRing) (rotation : BlindRotation.Key) (switching : SwitchingKey)
    (table : BlindRotation.Table) (x : Ciphertext) : Prop where
  ring_check : ∃ n q, NegacyclicRing.check n q = .ok ring
  dimension_eq : x.dimension = rotation.dimension
  rotation_fits : rotation.dimension = 0 ∨ rotation.Fits ring
  switching_fits : ∃ middle n, switching.Fits middle ring.degree n
  table_reduced : ring.modulus.Reduced ring.degree table.data
  domain_eq : table.domain = x.modulus
  modulus_dvd : x.modulus ∣ 2 * ring.degree

namespace Operation

def operands : Operation → List Ciphertext
  | zero _ _ | ofParts _ _ _ | extract _ _ => []
  | add x y | sub x y => [x, y]
  | encrypt x _ _ _ _ _ _ | encryptPublic x _ _ _ _ _ _ | addConstant x _ | subConstant x _ | neg x
  | scale x _ | switchModulus x _ | reduce x _ | lift x _ | switch _ x | bootstrap _ _ _ x _ _ _ => [x]

def run : Operation → Checked Ciphertext
  | zero n q => Ciphertext.ofShape n q.value
  | ofParts mask body q => Ciphertext.ofParts mask body q.value
  | encrypt x sk m p sigma masks errors => do
    let (r, _) ← x.encrypt sk m p sigma masks errors
    return r
  | encryptPublic x pk m p sigma signs errors => do
    let (r, _) ← pk.encrypt x m p sigma signs errors
    return r
  | add x y => x.add y
  | sub x y => x.sub y
  | addConstant x c => x.addConstant c
  | subConstant x c => x.subConstant c
  | neg x => x.neg
  | scale x c => x.scale c
  | switchModulus x target => x.switchModulus target.value
  | reduce x target => x.reduce target.value
  | lift x target => x.lift target.value
  | switch key x => key.switch x
  | extract ring x => x.sampleExtract ring
  | bootstrap ring rotation switching x table offset target =>
    BlindRotation.bootstrap ring rotation switching x table offset target.value

/-- What an operation requires of its arguments: parts that are accepted, keys, tables and ring ciphertexts
that are reduced, and dimensions and moduli that go together. -/
def Admissible : Operation → Prop
  | ofParts mask body q => (Ciphertext.ofParts mask body q.value).isOk
  | encrypt x sk _ p _ _ _ => sk.dimension = x.dimension ∧ 0 < p ∧ p ≤ x.modulus
  | encryptPublic x pk _ _ _ _ _ => ∃ q : Modulus, x.modulus = q.value ∧ pk.Fits q x.dimension
  | add x y | sub x y => x.dimension = y.dimension ∧ x.modulus = y.modulus
  | reduce x target => target.value ∣ x.modulus
  | lift x target => x.modulus ∣ target.value
  | switch key x => ∃ (q : Modulus) (n : ℕ), x.modulus = q.value ∧ key.Fits q x.dimension n
  | extract ring x => x.Reduced ring
  | bootstrap ring rotation switching x table _ _ => Bootstraps ring rotation switching table x
  | zero _ _ | addConstant _ _ | subConstant _ _ | neg _ | scale _ _ | switchModulus _ _ => True

/-- The causes for which an operation stops, each with its fault. -/
inductive Stops : Operation → Fault → Prop
  /-- There is no room for so many components. -/
  | room {n : ℕ} {q : Modulus} (h : 2 ^ 63 ≤ 8 * n) : Stops (zero n q) .overflow
  /-- A draw does not end. -/
  | draw {x : Ciphertext} {sk : Secret} {m p : ℕ} {sigma : Float} {masks errors : Stream} {q : Modulus}
    (hmodulus : x.modulus = q.value)
    (h : Stream.residues q x.dimension masks = .error .exhausted ∨
      Stream.gaussian sigma errors = .error .exhausted) :
    Stops (encrypt x sk m p sigma masks errors) .exhausted
  /-- The inner product of the drawn mask with the secret leaves the range of 128 bits. -/
  | product {x : Ciphertext} {sk : Secret} {m p : ℕ} {sigma : Float} {masks errors rest : Stream}
    {q : Modulus} {mask : Array ℕ} (hmodulus : x.modulus = q.value)
    (hmask : Stream.residues q x.dimension masks = .ok (mask, rest)) (hout : ¬sk.InRange mask) :
    Stops (encrypt x sk m p sigma masks errors) .overflow
  /-- A draw does not end. -/
  | drawPublic {x : Ciphertext} {pk : PublicKey} {m p : ℕ} {sigma : Float} {signs errors : Stream}
    (h : Stream.gaussians sigma x.dimension errors = .error .exhausted ∨
      (∃ r rest, Stream.gaussians sigma x.dimension errors = .ok (r, rest) ∧
        Stream.gaussian sigma rest = .error .exhausted) ∨
      Stream.ternaries x.dimension signs = .error .exhausted) :
    Stops (encryptPublic x pk m p sigma signs errors) .exhausted
  /-- There are no messages. -/
  | messages {x : Ciphertext} {pk : PublicKey} {m : ℕ} {sigma : Float} {signs errors : Stream} :
    Stops (encryptPublic x pk m 0 sigma signs errors) .divisionByZero
  /-- There is no room for the components under the target secret. -/
  | target {key : SwitchingKey} {x : Ciphertext} (h : 2 ^ 63 ≤ 8 * key.target) :
    Stops (switch key x) .overflow
  /-- The secret of the rotation key has no coordinates. -/
  | blocks {ring : NegacyclicRing} {rotation : BlindRotation.Key} {switching : SwitchingKey}
    {x : Ciphertext} {table : BlindRotation.Table} {offset : ℕ} {target : Modulus}
    (h : rotation.dimension = 0) :
    Stops (bootstrap ring rotation switching x table offset target) .divisionByZero

private theorem zero_ends (n : ℕ) (q : Modulus) :
    (zero n q).run.Ends Ciphertext.Proper (zero n q).Stops := by
  refine ((Word.checkLength_ends n).imp_stops ?_).bind fun _ _ => .inl ⟨_, rfl, ?_⟩
  · rintro e ⟨rfl, h⟩
    exact .room h
  · have hshaped : (Ciphertext.zero n q.value).Shaped q n := ⟨rfl, reduced_replicate, q.pos⟩
    exact hshaped.proper

private theorem ofParts_ends {mask : Array ℕ} {body : ℕ} {q : Modulus}
    (h : (ofParts mask body q).Admissible) :
    (ofParts mask body q).run.Ends Ciphertext.Proper (ofParts mask body q).Stops := by
  obtain ⟨r, hr⟩ := Checked.exists_of_isOk h
  obtain ⟨_, hparts, h⟩ := Checked.bind_eq_ok.1 hr
  cases h
  obtain ⟨hmask, hbody⟩ : (∀ i (hi : i < mask.size), mask[i] < q.value) ∧ body < q.value := by
    simpa using ensure_eq_ok.1 hparts
  have hshaped : Ciphertext.Shaped q mask.size ⟨mask, body, q.value⟩ :=
    ⟨rfl, .of_getElem rfl hmask, hbody⟩
  exact .inl ⟨_, hr, hshaped.proper⟩

section Ends

variable {x : Ciphertext} {q : Modulus} {n m p : ℕ} {sigma : Float}

private theorem encrypt_ends {sk : Secret} {masks errors : Stream} (hx : x.Shaped q x.dimension)
    (h : (encrypt x sk m p sigma masks errors).Admissible) :
    (encrypt x sk m p sigma masks errors).run.Ends Ciphertext.Proper
      (encrypt x sk m p sigma masks errors).Stops := by
  obtain ⟨hdim, hp, hle⟩ := h
  refine ((hx.encrypt_ends hdim hp (hx.modulus_eq ▸ hle) masks errors).imp_stops ?_).bind
    fun r hr => .inl ⟨_, rfl, hr.proper⟩
  rintro e (⟨rfl, hdraw⟩ | ⟨rfl, mask, rest, hmask, hout⟩)
  · exact .draw hx.modulus_eq hdraw
  · exact .product hx.modulus_eq hmask hout

private theorem encryptPublic_ends {pk : PublicKey} {signs errors : Stream}
    (hx : x.Shaped q x.dimension) (h : (encryptPublic x pk m p sigma signs errors).Admissible) :
    (encryptPublic x pk m p sigma signs errors).run.Ends Ciphertext.Proper
      (encryptPublic x pk m p sigma signs errors).Stops := by
  obtain ⟨q', hmodulus, hpk⟩ := h
  obtain rfl : q = q' := value_injective (hx.modulus_eq.symm.trans hmodulus)
  refine ((hpk.encrypt_ends hx signs errors).imp_stops ?_).bind fun r hr => .inl ⟨_, rfl, hr.proper⟩
  rintro e (⟨rfl, hdraw⟩ | ⟨rfl, rfl⟩)
  · exact .drawPublic hdraw
  · exact .messages

private theorem switch_ends {key : SwitchingKey} (hx : x.Shaped q x.dimension)
    (h : (switch key x).Admissible) :
    (switch key x).run.Ends Ciphertext.Proper (switch key x).Stops := by
  obtain ⟨q', n, hmodulus, hkey⟩ := h
  obtain rfl : q = q' := value_injective (hx.modulus_eq.symm.trans hmodulus)
  have hzero := hkey.encrypts_zero
  have hsource : key.source = x.dimension := hzero.source_eq.trans (Secret.dimension_zero _)
  obtain ⟨⟨⟩, hlength, -⟩ | ⟨e, hlength, rfl, hroom⟩ := Word.checkLength_ends key.target
  · rw [← Secret.dimension_zero x.dimension] at hx
    obtain ⟨r, hr, hshaped, -⟩ := hzero.exists_switch hlength hx
    exact .inl ⟨r, hr, hshaped.proper⟩
  · refine .inr ⟨.overflow, ?_, .target hroom⟩
    have hcheck : check key.modulus = .ok q := check_eq_ok.2 hkey.modulus_eq.symm
    have hshape : (x.dimension == key.source && x.modulus == key.modulus) = true := by
      simp [hsource, hmodulus, hkey.modulus_eq]
    simp only [run, SwitchingKey.switch, hshape, ensure_true, Checked.ok_bind, hcheck, hlength,
      Checked.error_bind]

private theorem bootstrap_ends {ring : NegacyclicRing} {rotation : BlindRotation.Key}
    {switching : SwitchingKey} {table : BlindRotation.Table} {offset : ℕ} {target : Modulus}
    (hx : x.Proper) (h : (bootstrap ring rotation switching x table offset target).Admissible) :
    (bootstrap ring rotation switching x table offset target).run.Ends Ciphertext.Proper
      (bootstrap ring rotation switching x table offset target).Stops := by
  obtain ⟨⟨_, _, hring⟩, hdim, hrotation, ⟨_, _, hswitching⟩, htable, hdomain, hdvd⟩ := h
  have hword := NegacyclicRing.two_mul_degree_lt hring
  obtain hzero | hrotation := hrotation
  · refine .inr ⟨.divisionByZero, ?_, .blocks hzero⟩
    rw [run, BlindRotation.bootstrap, BlindRotation.rotate_of_dimension_zero hword hzero htable
      hx.wellFormed hdim hdomain hdvd]
    rfl
  · obtain ⟨r, hr, hmodulus, -, hwf⟩ := BlindRotation.exists_bootstrap_of_fits
      (NegacyclicRing.check_runs hring) hword hrotation hswitching htable hx.wellFormed hdim hdomain
      hdvd offset target.pos
    exact .inl ⟨r, hr, target, Ciphertext.shaped_iff.2 ⟨hmodulus, rfl, hwf⟩⟩

/-- An operation on proper ciphertexts that is admissible returns a proper one, or stops for a listed
cause. -/
theorem ends {op : Operation} (hproper : ∀ x ∈ op.operands, x.Proper) (h : op.Admissible) :
    op.run.Ends Ciphertext.Proper op.Stops := by
  have returns {op : Operation} {q : Modulus} {n : ℕ} {phase : Ciphertext → Prop}
      (h : ∃ r, op.run = .ok r ∧ r.Shaped q n ∧ phase r) : op.run.Ends Ciphertext.Proper op.Stops := by
    obtain ⟨r, hr, hshaped, -⟩ := h
    exact .inl ⟨r, hr, hshaped.proper⟩
  have combines {x y : Ciphertext} (hx : x.Proper) (hy : y.Proper)
      (h : x.dimension = y.dimension ∧ x.modulus = y.modulus) :
      ∃ q, x.Shaped q x.dimension ∧ y.Shaped q x.dimension := by
    obtain ⟨q, hx⟩ := hx
    obtain ⟨q', hy⟩ := hy
    obtain rfl : q = q' := value_injective (hx.modulus_eq.symm.trans (h.2.trans hy.modulus_eq))
    exact ⟨q, hx, h.1 ▸ hy⟩
  cases op with
  | zero n q => exact zero_ends n q
  | ofParts mask body q => exact ofParts_ends h
  | encrypt x sk m p sigma masks errors =>
    obtain ⟨q, hx⟩ := hproper x (by simp [operands])
    exact encrypt_ends hx h
  | encryptPublic x pk m p sigma signs errors =>
    obtain ⟨q, hx⟩ := hproper x (by simp [operands])
    exact encryptPublic_ends hx h
  | add x y =>
    obtain ⟨q, hx, hy⟩ := combines (hproper x (by simp [operands])) (hproper y (by simp [operands])) h
    exact returns (Ciphertext.exists_add hx hy fun _ => 0)
  | sub x y =>
    obtain ⟨q, hx, hy⟩ := combines (hproper x (by simp [operands])) (hproper y (by simp [operands])) h
    exact returns (Ciphertext.exists_sub hx hy fun _ => 0)
  | addConstant x c =>
    obtain ⟨q, hx⟩ := hproper x (by simp [operands])
    exact returns (Ciphertext.exists_addConstant hx c fun _ => 0)
  | subConstant x c =>
    obtain ⟨q, hx⟩ := hproper x (by simp [operands])
    exact returns (Ciphertext.exists_subConstant hx c fun _ => 0)
  | neg x =>
    obtain ⟨q, hx⟩ := hproper x (by simp [operands])
    exact returns (Ciphertext.exists_neg hx fun _ => 0)
  | scale x c =>
    obtain ⟨q, hx⟩ := hproper x (by simp [operands])
    exact returns (Ciphertext.exists_scale hx c fun _ => 0)
  | switchModulus x target =>
    obtain ⟨q, hx⟩ := hproper x (by simp [operands])
    obtain ⟨r, hr, hmodulus, -, hwf, -⟩ :=
      Ciphertext.exists_switchModulus (hx.modulus_eq ▸ q.pos) target.pos
    exact .inl ⟨r, hr, target, Ciphertext.shaped_iff.2 ⟨hmodulus, rfl, hwf⟩⟩
  | reduce x target =>
    obtain ⟨q, hx⟩ := hproper x (by simp [operands])
    exact returns (Ciphertext.exists_reduce hx (hx.modulus_eq ▸ h) fun _ => 0)
  | lift x target =>
    obtain ⟨q, hx⟩ := hproper x (by simp [operands])
    exact returns (Ciphertext.exists_lift hx (hx.modulus_eq ▸ h))
  | switch key x =>
    obtain ⟨q, hx⟩ := hproper x (by simp [operands])
    exact switch_ends hx h
  | extract ring x => exact returns (Rlwe.Ciphertext.exists_extracted h)
  | bootstrap ring rotation switching x table offset target =>
    exact bootstrap_ends (hproper x (by simp [operands])) h

end Ends

end Operation

/-- A list of operations with the ciphertexts that they have made. Each one is called on ciphertexts that
were made before it. -/
inductive Session : List Operation → List Ciphertext → Prop
  | start : Session [] []
  | call {ops : List Operation} {made : List Ciphertext} {op : Operation} {r : Ciphertext}
    (h : Session ops made) (hoperands : op.operands ⊆ made) (hadmissible : op.Admissible)
    (hrun : op.run = .ok r) : Session (ops ++ [op]) (made ++ [r])

namespace Session

variable {ops : List Operation} {made : List Ciphertext}

theorem proper (h : Session ops made) : ∀ ct ∈ made, ct.Proper := by
  induction h with
  | start => simp
  | call h hoperands hadmissible hrun ih =>
    intro ct hct
    rcases List.mem_append.1 hct with hct | hct
    · exact ih ct hct
    · rw [List.mem_singleton.1 hct]
      exact (Operation.ends (fun x hx => ih x (hoperands hx)) hadmissible).value_of_eq_ok hrun

/-- All ciphertexts of a session have their components below their moduli, and whatever is admissible next
returns such a ciphertext or stops for a listed cause. -/
theorem wellFormed_and_ends (h : Session ops made) :
    (∀ ct ∈ made, ct.WellFormed) ∧ ∀ op : Operation, op.operands ⊆ made → op.Admissible →
      op.run.Ends Ciphertext.WellFormed op.Stops := by
  constructor
  · intro ct hct
    exact (h.proper ct hct).wellFormed
  · intro op hoperands hadmissible
    exact (Operation.ends (fun x hx => h.proper x (hoperands hx)) hadmissible).imp_value
      fun _ => Ciphertext.Proper.wellFormed

section Short

def eight : Modulus := ⟨8, by decide, by decide⟩

def shortKey : SwitchingKey := ⟨2, 3, 2, 1, 8, Array.replicate 6 ⟨1, #[7]⟩⟩

private theorem shortKey_fits : shortKey.Fits eight 2 1 := by
  refine ⟨rfl, ⟨Array.replicate 6 ⟨0, #[0]⟩, ?_⟩, rfl, fun entry hentry => ?_⟩
  · simp [SwitchingKey.zero, SwitchingKey.digitCount, SwitchingKey.digitsFrom, shortKey, Word.mul,
      Word.sub, Word.add, Word.check, Word.bound, Word.checkLength, Word.checkBytes]
    rfl
  · obtain rfl : entry = ⟨1, #[7]⟩ := by simpa [shortKey] using hentry
    exact ⟨rfl, ⟨rfl, by decide⟩, by decide⟩

theorem wellFormed_and_ends_short :
    Session [.ofParts #[3, 5] 6 eight, .add ⟨#[3, 5], 6, 8⟩ ⟨#[3, 5], 6, 8⟩]
        [⟨#[3, 5], 6, 8⟩, ⟨#[6, 2], 4, 8⟩] ∧
      (∀ ct ∈ [(⟨#[3, 5], 6, 8⟩ : Ciphertext), ⟨#[6, 2], 4, 8⟩], ct.WellFormed) ∧
      (Operation.switch shortKey ⟨#[6, 2], 4, 8⟩).run.Ends Ciphertext.WellFormed
        (Operation.switch shortKey ⟨#[6, 2], 4, 8⟩).Stops := by
  have hrun : (Operation.ofParts #[3, 5] 6 eight).run = .ok ⟨#[3, 5], 6, 8⟩ := by
    simp [Operation.run, Ciphertext.ofParts, eight]
  have hparts : (Operation.ofParts #[3, 5] 6 eight).Admissible := congrArg Except.isOk hrun
  have hsum : (Operation.add ⟨#[3, 5], 6, 8⟩ ⟨#[3, 5], 6, 8⟩).Admissible := ⟨rfl, rfl⟩
  have h : Session [.ofParts #[3, 5] 6 eight, .add ⟨#[3, 5], 6, 8⟩ ⟨#[3, 5], 6, 8⟩]
      [⟨#[3, 5], 6, 8⟩, ⟨#[6, 2], 4, 8⟩] :=
    .call (.call .start (by simp [Operation.operands]) hparts hrun) (by simp [Operation.operands]) hsum rfl
  obtain ⟨hmade, hnext⟩ := h.wellFormed_and_ends
  exact ⟨h, hmade, hnext _ (by simp [Operation.operands]) ⟨eight, 1, rfl, shortKey_fits⟩⟩

end Short

end Session

end LatticeGates.Lwe
