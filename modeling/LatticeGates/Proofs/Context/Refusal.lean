import LatticeGates.Proofs.BlindRotation.Rotation
import LatticeGates.Proofs.KeyStore.History
import LatticeGates.Threshold

/-!
# What a refused operation leaves

Main statement: an operation that ends in an error leaves the context as it was, and the results after it are
those of a session without it. The exception is a public encryption to the small shape that is refused after
its plaintext modulus was accepted: by then it has drawn, and the results after it are those of a session
with the encryption to the large shape in its place.
-/

namespace LatticeGates.Context

/-- The operations of a context that may change it, by the kind of their result. -/
inductive Operation : Type → Type
  | keyGen : Operation Lwe.Secret
  | keyGenLarge : Operation Lwe.Secret
  | publicKeyGen (sk : Lwe.Secret) : Operation Lwe.PublicKey
  | keyPairGen : Operation KeyPair
  | switchingKeyGen (sk large : Lwe.Secret) : Operation Lwe.SwitchingKey
  | bootstrapKeyGen (sk : Lwe.Secret) (mode : KeyMode) : Operation Unit
  | encrypt (sk : Lwe.Secret) (m p : ℕ) (modulus : Option ℕ) : Operation Lwe.Ciphertext
  | encryptPublic (pk : Lwe.PublicKey) (m : ℕ) (size : CiphertextSize) (p : ℕ) : Operation Lwe.Ciphertext
  | jointKeyGen (secrets : List Lwe.Secret) : Operation KeyPair
  | jointPublicKeyGen (z : Lwe.Secret) (previous : Option Lwe.PublicKey) : Operation Lwe.PublicKey
  | jointSwitchingKeyGen (s z : Lwe.Secret) (previous : Option Lwe.SwitchingKey) :
      Operation Lwe.SwitchingKey
  | commonReference : Operation CommonReference
  | gadgetShare (reference : CommonReference) (z : Lwe.Secret) (m : ℤ) (lead : Bool) : Operation Rgsw
  | jointRotationKeyGen (s : Lwe.Secret) (zero : Rgsw) (previous : Option BlindRotation.Key) :
      Operation BlindRotation.Key
  | installJointKey (rotation : BlindRotation.Key) (switching : Lwe.SwitchingKey) : Operation Unit
  | decryptShare (sk : Lwe.Secret) (ct : Lwe.Ciphertext) (lead : Bool) : Operation DecryptionShare

namespace Operation

variable {α : Type}

def action : Operation α → Action α
  | keyGen => Context.keyGen
  | keyGenLarge => Context.keyGenLarge
  | publicKeyGen sk => Context.publicKeyGen sk
  | keyPairGen => Context.keyPairGen
  | switchingKeyGen sk large => Context.switchingKeyGen sk large
  | bootstrapKeyGen sk mode => Context.bootstrapKeyGen sk mode
  | encrypt sk m p modulus => Context.encrypt sk m p modulus
  | encryptPublic pk m size p => Context.encryptPublic pk m size p
  | jointKeyGen secrets => Context.jointKeyGen secrets
  | jointPublicKeyGen z previous => Context.jointPublicKeyGen z previous
  | jointSwitchingKeyGen s z previous => Context.jointSwitchingKeyGen s z previous
  | commonReference => Context.commonReference
  | gadgetShare reference z m lead => Context.gadgetShare reference z m lead
  | jointRotationKeyGen s zero previous => Context.jointRotationKeyGen s zero previous
  | installJointKey rotation switching => Context.installJointKey rotation switching
  | decryptShare sk ct lead => Context.decryptShare sk ct lead

/-- A public encryption that has drawn before it looks for the switching key. -/
def DrawsFirst : Operation α → Prop
  | encryptPublic pk _ .small p => 0 < p ∧ p ≤ pk.modulus
  | _ => False

def large : Operation α → Operation α
  | encryptPublic pk m _ p => encryptPublic pk m .large p
  | op => op

end Operation

open LatticeGates.Action

variable {α : Type} {ctx next start last : Context} {e : Error} {p : ℕ}

private theorem unfailing_publicKeyGen (sk : Lwe.Secret) : (publicKeyGen sk).Unfailing :=
  unfailing_get.bind fun _ => unfailing_draw _

private theorem unfailing_switchingKeyGen (sk large : Lwe.Secret) :
    (switchingKeyGen sk large).Unfailing :=
  unfailing_get.bind fun _ => unfailing_draw _

private theorem unfailing_keyPairGen : keyPairGen.Unfailing := by
  apply Unfailing.bind
  · exact unfailing_get.bind fun _ => unfailing_draw _
  · intro secret
    exact (unfailing_publicKeyGen secret).bind fun _ => unfailing_pure _

private theorem clean_encrypt (sk : Lwe.Secret) (m p : ℕ) (modulus : Option ℕ) :
    (encrypt sk m p modulus).Clean :=
  reads_get.bind fun _ => (reads_ofAttempt _).bind fun _ => (unfailing_draw _).clean

private theorem clean_jointKeyGen (secrets : List Lwe.Secret) : (jointKeyGen secrets).Clean := by
  apply reads_get.bind
  intro ctx
  apply (reads_liftM _).bind
  intro joint
  cases joint with
  | some secret => exact ((unfailing_publicKeyGen secret).bind fun _ => unfailing_pure _).clean
  | none =>
    cases secrets with
    | nil => exact clean_fail _
    | cons first rest => exact clean_fail _

private theorem clean_jointPublicKeyGen (z : Lwe.Secret) (previous : Option Lwe.PublicKey) :
    (jointPublicKeyGen z previous).Clean := by
  cases previous with
  | none => exact (unfailing_publicKeyGen z).clean
  | some previous => exact reads_get.bind fun _ => (unfailing_draw _).clean

private theorem clean_jointSwitchingKeyGen (s z : Lwe.Secret) (previous : Option Lwe.SwitchingKey) :
    (jointSwitchingKeyGen s z previous).Clean := by
  cases previous with
  | none => exact (unfailing_switchingKeyGen s z).clean
  | some previous => exact reads_get.bind fun _ => (unfailing_draw _).clean

private theorem clean_jointRotationKeyGen (s : Lwe.Secret) (zero : Rgsw)
    (previous : Option BlindRotation.Key) : (jointRotationKeyGen s zero previous).Clean := by
  apply reads_get.bind
  intro ctx
  apply (reads_liftM _).bind
  intro ternary
  apply (reads_require _ _).bind
  intro
  apply (reads_require _ _).bind
  intro
  apply Unfailing.clean
  have happend (key : BlindRotation.Key) : (drawBranched
      (BlindRotation.Key.append ctx.ring key zero s ctx.params.rgsw.sigma)).Unfailing := unfailing_draw _
  cases previous with
  | some key => exact (unfailing_pure key).bind happend
  | none => exact (unfailing_liftM _).bind fun _ => (unfailing_pure _).bind happend

private theorem clean_decryptShare (sk : Lwe.Secret) (ct : Lwe.Ciphertext) (lead : Bool) :
    (decryptShare sk ct lead).Clean := by
  apply reads_get.bind
  intro ctx
  apply (reads_ofAttempt _).bind
  intro
  apply Unfailing.clean
  apply (unfailing_liftM _).bind
  intro q
  apply (unfailing_liftM _).bind
  intro part
  apply (unfailing_liftM _).bind
  intro phase
  apply (unfailing_draw _).bind
  intro noise
  exact (unfailing_liftM _).bind fun _ => unfailing_pure _

private theorem encryptPublic_fails {pk : Lwe.PublicKey} {m : ℕ} {size : CiphertextSize}
    (h : (encryptPublic pk m size p).Fails ctx e next) :
    (¬(0 < p ∧ p ≤ pk.modulus) ∧ next = ctx) ∨
      (size = .small ∧ (0 < p ∧ p ≤ pk.modulus) ∧ ∃ ct, (encryptPublic pk m .large p).Gives ctx ct next) := by
  rcases bind_fails.1 h with hget | ⟨_, _, hget, hrest⟩
  · exact (not_get_fails hget).elim
  obtain ⟨rfl, rfl⟩ := get_gives.1 hget
  rcases bind_fails.1 hrest with hrefused | ⟨_, _, haccepted, hrest⟩
  · obtain ⟨hrefused, rfl⟩ := ofAttempt_fails.1 hrefused
    refine .inl ⟨fun haccepted => ?_, rfl⟩
    rw [checkPlaintext_eq_pure.2 haccepted] at hrefused
    cases hrefused
  obtain ⟨hcheck, rfl⟩ := ofAttempt_gives.1 haccepted
  have hmodulus := checkPlaintext_eq_pure.1 hcheck
  rcases bind_fails.1 hrest with hdraw | ⟨ct, drawn, hdraw, hswitch⟩
  · exact (not_draw_fails hdraw).elim
  have hlarge : (encryptPublic pk m .large p).Gives _ ct drawn := bind_gives.2 ⟨_, _, hget,
    bind_gives.2 ⟨(), _, haccepted, bind_gives.2 ⟨ct, drawn, hdraw, pure_gives.2 ⟨rfl, rfl⟩⟩⟩⟩
  cases size with
  | large => exact (not_pure_fails hswitch).elim
  | small =>
    have hnext : next = drawn := by
      split at hswitch
      · exact (not_pure_fails hswitch).elim
      · exact (ofAttempt_fails.1 hswitch).2
      · exact (fail_fails.1 hswitch).2
    rw [hnext]
    exact .inr ⟨rfl, hmodulus, ct, hlarge⟩

private theorem encryptPublic_large_gives {pk : Lwe.PublicKey} {m : ℕ} {ct : Lwe.Ciphertext}
    (h : (encryptPublic pk m .large p).Gives ctx ct next) : next = { ctx with source := next.source } := by
  obtain ⟨_, _, hget, hrest⟩ := bind_gives.1 h
  obtain ⟨rfl, rfl⟩ := get_gives.1 hget
  obtain ⟨_, _, hcheck, hrest⟩ := bind_gives.1 hrest
  obtain ⟨-, rfl⟩ := ofAttempt_gives.1 hcheck
  obtain ⟨_, _, hdraw, hpure⟩ := bind_gives.1 hrest
  obtain ⟨source, -, rfl⟩ := draw_gives.1 hdraw
  obtain ⟨-, rfl⟩ := pure_gives.1 hpure
  rfl

namespace Operation

variable {op : Operation α}

theorem eq_of_fails (h : op.action.Fails ctx e next) (hearly : ¬op.DrawsFirst) : next = ctx := by
  cases op with
  | keyGen => exact (unfailing_get.bind fun _ => unfailing_draw _).clean ctx e next h
  | keyGenLarge => exact (unfailing_get.bind fun _ => unfailing_draw _).clean ctx e next h
  | publicKeyGen sk => exact (unfailing_publicKeyGen sk).clean ctx e next h
  | keyPairGen => exact unfailing_keyPairGen.clean ctx e next h
  | switchingKeyGen sk large => exact (unfailing_switchingKeyGen sk large).clean ctx e next h
  | bootstrapKeyGen sk mode => exact KeyCall.eq_of_fails (show (KeyCall.generate sk mode).action.Fails ctx e next from h)
  | encrypt sk m p modulus => exact clean_encrypt sk m p modulus ctx e next h
  | encryptPublic pk m size p =>
    rcases encryptPublic_fails h with ⟨-, hnext⟩ | ⟨rfl, haccepted, -⟩
    · exact hnext
    · exact (hearly haccepted).elim
  | jointKeyGen secrets => exact clean_jointKeyGen secrets ctx e next h
  | jointPublicKeyGen z previous => exact clean_jointPublicKeyGen z previous ctx e next h
  | jointSwitchingKeyGen s z previous => exact clean_jointSwitchingKeyGen s z previous ctx e next h
  | commonReference =>
    exact (unfailing_get.bind fun _ => (unfailing_liftM _).bind fun _ => unfailing_draw _).clean ctx e next h
  | gadgetShare reference z m lead =>
    exact (unfailing_get.bind fun _ => (unfailing_liftM _).bind fun _ =>
      (unfailing_liftM _).bind fun _ => unfailing_draw _).clean ctx e next h
  | jointRotationKeyGen s zero previous => exact clean_jointRotationKeyGen s zero previous ctx e next h
  | installJointKey rotation switching =>
    exact KeyCall.eq_of_fails (show (KeyCall.install rotation switching).action.Fails ctx e next from h)
  | decryptShare sk ct lead => exact clean_decryptShare sk ct lead ctx e next h

theorem exists_large_of_fails (h : op.action.Fails ctx e next) (hlate : op.DrawsFirst) :
    (∃ answer, op.large.action.Gives ctx answer next) ∧ next = { ctx with source := next.source } := by
  cases op with
  | encryptPublic pk m size p =>
    cases size with
    | large => exact hlate.elim
    | small =>
      rcases encryptPublic_fails h with ⟨hrefused, -⟩ | ⟨-, -, ct, hgives⟩
      · exact (hrefused hlate).elim
      · exact ⟨⟨ct, hgives⟩, encryptPublic_large_gives hgives⟩
  | _ => exact hlate.elim

/-- A refused operation changes nothing but the stream, and not even that unless it draws first. -/
theorem keeps_of_fails (h : op.action.Fails ctx e next) :
    next = { ctx with source := next.source } ∧ (¬op.DrawsFirst → next = ctx) := by
  by_cases hlate : op.DrawsFirst
  · exact ⟨(exists_large_of_fails h hlate).2, fun hearly => (hearly hlate).elim⟩
  · obtain rfl := eq_of_fails h hlate
    exact ⟨rfl, fun _ => rfl⟩

end Operation

structure Entry where
  {kind : Type}
  operation : Operation kind
  answer : Except Error kind

/-- The operations of a session, their answers, and the context that they lead to. -/
inductive Runs : Context → List Entry → Context → Prop
  | nil (ctx : Context) : Runs ctx [] ctx
  | cons {ctx mid last : Context} {α : Type} {op : Operation α} {answer : Except Error α}
      {entries : List Entry} (step : op.action.run.run ctx = .ok (answer, mid))
      (rest : Runs mid entries last) : Runs ctx (⟨op, answer⟩ :: entries) last

/-- A session without its refused operations. In the place of one that had drawn stands its encryption to the
large shape. -/
inductive Settles : List Entry → List Entry → Prop
  | nil : Settles [] []
  | done {α : Type} {op : Operation α} {answer : α} {entries settled : List Entry}
      (rest : Settles entries settled) : Settles (⟨op, .ok answer⟩ :: entries) (⟨op, .ok answer⟩ :: settled)
  | refused {α : Type} {op : Operation α} {e : Error} {entries settled : List Entry}
      (early : ¬op.DrawsFirst) (rest : Settles entries settled) :
      Settles (⟨op, .error e⟩ :: entries) settled
  | drawn {α : Type} {op : Operation α} {e : Error} {answer : α} {entries settled : List Entry}
      (late : op.DrawsFirst) (rest : Settles entries settled) :
      Settles (⟨op, .error e⟩ :: entries) (⟨op.large, .ok answer⟩ :: settled)

variable {entries settled : List Entry}

theorem Settles.eq_filter (h : Settles entries settled)
    (hearly : ∀ entry ∈ entries, entry.operation.DrawsFirst → entry.answer.isOk) :
    settled = entries.filter (·.answer.isOk) := by
  induction h with
  | nil => rfl
  | @done α op answer entries settled rest ih =>
    rw [ih (List.forall_mem_cons.1 hearly).2, List.filter_cons_of_pos rfl]
  | refused early rest ih =>
    rw [ih (List.forall_mem_cons.1 hearly).2, List.filter_cons_of_neg Bool.false_ne_true]
  | drawn late rest ih => cases (List.forall_mem_cons.1 hearly).1 late

theorem Runs.exists_settled (h : Runs start entries last) :
    ∃ settled, Settles entries settled ∧ Runs start settled last := by
  induction h with
  | nil ctx => exact ⟨[], .nil, .nil ctx⟩
  | @cons ctx mid last α op answer entries step rest ih =>
    obtain ⟨settled, hsettles, hruns⟩ := ih
    match answer, step with
    | .ok answer, step => exact ⟨_, .done hsettles, .cons step hruns⟩
    | .error e, step =>
      by_cases hlate : op.DrawsFirst
      · obtain ⟨⟨answer, hgives⟩, -⟩ := Operation.exists_large_of_fails step hlate
        exact ⟨_, .drawn hlate hsettles, .cons hgives hruns⟩
      · obtain rfl := Operation.eq_of_fails step hlate
        exact ⟨settled, .refused hlate hsettles, hruns⟩

theorem Runs.split {earlier later : List Entry} {entry : Entry}
    (h : Runs start (earlier ++ entry :: later) last) : ∃ ctx next, Runs start earlier ctx ∧
      entry.operation.action.run.run ctx = .ok (entry.answer, next) ∧ Runs next later last := by
  induction earlier generalizing start with
  | nil =>
    cases h with
    | cons step rest => exact ⟨start, _, .nil start, step, rest⟩
  | cons first earlier ih =>
    cases h with
    | cons step rest =>
      obtain ⟨ctx, next, hearlier, hrun, hlater⟩ := ih rest
      exact ⟨ctx, next, .cons step hearlier, hrun, hlater⟩

/-- Refused operations leave the parameters, the ring and the keys as they were, and the stream too unless
they draw first. A session goes on as it would without them, with encryptions to the large shape in the place
of those that had drawn. -/
theorem keeps_of_refused (h : Runs start entries last) :
    (∀ earlier later α (op : Operation α) e, entries = earlier ++ ⟨op, .error e⟩ :: later →
      ∃ ctx next, Runs start earlier ctx ∧ op.action.Fails ctx e next ∧ Runs next later last ∧
        next = { ctx with source := next.source } ∧ (¬op.DrawsFirst → next = ctx)) ∧
    (∃ settled, Settles entries settled ∧ Runs start settled last) ∧
    ((∀ entry ∈ entries, entry.operation.DrawsFirst → entry.answer.isOk) →
      Runs start (entries.filter (·.answer.isOk)) last) := by
  refine ⟨?_, h.exists_settled, fun hearly => ?_⟩
  · rintro earlier later α op e rfl
    obtain ⟨ctx, next, hearlier, hfails, hlater⟩ := h.split
    exact ⟨ctx, next, hearlier, hfails, hlater, Operation.keeps_of_fails hfails⟩
  · obtain ⟨settled, hsettles, hruns⟩ := h.exists_settled
    rwa [hsettles.eq_filter hearly] at hruns

private theorem exists_sampleEncryption : ∃ ct masks source, source ≠ .ofSeed #[] ∧
    Lwe.PublicKey.encrypt ⟨#[], #[], 2⟩ (.zero 0 2) 1 2 Params.defaultSigma (Stream.ofSeed #[]).branch.1
      (Stream.ofSeed #[]).branch.2 = .ok (ct, masks, source) := by
  have hdraws : (do
      let draw ← Stream.gaussian Params.defaultSigma (Stream.ofSeed #[]).branch.2
      ensure (decide (draw.2 ≠ .ofSeed #[])) .exhausted) = (.ok () : Checked Unit) := by
    decide +kernel
  obtain ⟨⟨e, source⟩, he, hdraws⟩ := Checked.bind_eq_ok.1 hdraws
  have hsource : source ≠ .ofSeed #[] := of_decide_eq_true (ensure_eq_ok.1 hdraws)
  obtain ⟨q, hq⟩ : ∃ q : Modulus, Modulus.check 2 = .ok q := ⟨⟨2, by decide, by decide⟩, rfl⟩
  have hencode : Lwe.Ciphertext.encode 1 2 q.value = .ok 1 := by
    rw [Modulus.check_eq_ok.1 hq]
    decide +kernel
  obtain ⟨body, hbody, -⟩ := Modulus.exists_add (q.ofInt_lt e) q.one_lt
  have hassemble : Lwe.PublicKey.assemble ⟨#[], #[], 2⟩ q 1 2 #[] #[] e = .ok ⟨#[], body, q.value⟩ := by
    apply Checked.bind_eq_ok.2
    refine ⟨(#[], q.ofInt e), ?_, ?_⟩
    · rw [Array.map_empty]
      rfl
    · exact Checked.bind_eq_ok.2 ⟨1, hencode, Checked.bind_eq_ok.2 ⟨body, hbody, rfl⟩⟩
  refine ⟨⟨#[], body, q.value⟩, (Stream.ofSeed #[]).branch.1, source, hsource, ?_⟩
  refine Checked.bind_eq_ok.2 ⟨(), rfl, Checked.bind_eq_ok.2 ⟨q, hq, ?_⟩⟩
  refine Checked.bind_eq_ok.2 ⟨(#[], (Stream.ofSeed #[]).branch.2), rfl, ?_⟩
  refine Checked.bind_eq_ok.2 ⟨(e, source), he, ?_⟩
  refine Checked.bind_eq_ok.2 ⟨(#[], (Stream.ofSeed #[]).branch.1), rfl, ?_⟩
  exact Checked.bind_eq_ok.2 ⟨_, hassemble, rfl⟩

/-- A plaintext modulus that is refused, and an encryption that draws and lacks a switching key. -/
theorem keeps_of_refused_encryptions : ∃ start last,
    let entries : List Entry := [⟨.encrypt ⟨#[], .ternary⟩ 0 0 none, .error (.invalidModulus 0)⟩,
      ⟨.encryptPublic ⟨#[], #[], 2⟩ 1 .small 2, .error .missingSwitchingKey⟩]
    Runs start entries last ∧ last.source ≠ start.source ∧
      ∃ settled, Settles entries settled ∧ Runs start settled last := by
  obtain ⟨ring, -, -, -⟩ := BlindRotation.exists_sampleRing
  let start : Context := ⟨Params.explicit 1 2 4 5 Params.defaultSigma 2 8 32 .ginx, ring, .empty 8,
    .ofSeed #[]⟩
  obtain ⟨ct, masks, source, hsource, hencrypt⟩ := exists_sampleEncryption
  have hrefused : (Operation.encrypt ⟨#[], .ternary⟩ 0 0 none).action.run.run start =
      .ok (.error (.invalidModulus 0), start) := rfl
  have hlacking : (Operation.encryptPublic ⟨#[], #[], 2⟩ 1 .small 2).action.run.run start =
      .ok (.error .missingSwitchingKey, { start with source }) := by
    apply bind_fails.2
    refine .inr ⟨start, start, get_gives.2 ⟨rfl, rfl⟩, ?_⟩
    apply bind_fails.2
    refine .inr ⟨(), start, ofAttempt_gives.2 ⟨rfl, rfl⟩, ?_⟩
    apply bind_fails.2
    refine .inr ⟨ct, { start with source }, draw_gives.2 ⟨source, ?_, rfl⟩, fail_fails.2 ⟨rfl, rfl⟩⟩
    exact Checked.bind_eq_ok.2 ⟨_, hencrypt, rfl⟩
  have hruns := Runs.cons hrefused (Runs.cons hlacking (.nil _))
  obtain ⟨-, hsettled, -⟩ := keeps_of_refused hruns
  exact ⟨start, _, hruns, hsource, hsettled⟩

end LatticeGates.Context
