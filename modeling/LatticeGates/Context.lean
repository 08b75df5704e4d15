import LatticeGates.KeyStore

/-!
# Contexts

A context holds resolved parameters, the ring, the key store and a stream. Actions draw from the stream
and may change the store; an action that ends in an error keeps what it has drawn. Evaluation only reads
a context.
-/

namespace LatticeGates

structure Context where
  params : Params
  ring : NegacyclicRing
  keys : KeyStore
  source : Stream

/-- A computation that may change the context, also when it ends in an error. -/
abbrev Action (α : Type) := ExceptT Error (StateT Context Checked) α

namespace Action

@[inline] def fail {α : Type} (e : Error) : Action α := ExceptT.mk fun ctx => .ok (.error e, ctx)

@[inline] def require (condition : Bool) (e : Error) : Action Unit :=
  if condition then pure () else fail e

@[inline] def ofAttempt {α : Type} (x : Attempt α) : Action α :=
  ExceptT.mk fun ctx => do return (← x.run, ctx)

@[inline] def draw {α : Type} (f : Draw α) : Action α :=
  ExceptT.mk fun ctx => do
    let (x, source) ← f ctx.source
    return (.ok x, { ctx with source })

/-- A draw that takes its masks from a new branch and its errors from the stream of the context. -/
@[inline] def drawBranched {α : Type} (f : Stream → Stream → Checked (α × Stream × Stream)) :
    Action α :=
  draw fun source => do
    let (masks, source) := source.branch
    let (x, _, source) ← f masks source
    return (x, source)

end Action

/-- Whether a public encryption is switched down to the small shape. -/
inductive CiphertextSize where
  | small
  | large
  deriving DecidableEq, Repr

structure KeyPair where
  secret : Lwe.Secret
  publicKey : Lwe.PublicKey

namespace Context

/-- A context whose randomness is that of the seed. The ring needs a power of two as dimension and a
prime modulus that is one modulo twice the dimension. -/
def ofSeed (params : Params) (seed : Array UInt8) : Attempt Context := do
  let n := params.rgsw.ringDimension
  Attempt.require (decide (2 ≤ n) && isPowerOfTwo n) (.invalidRingDimension n)
  let q := params.rgsw.ringModulus
  let twoN ← Word.mul 2 n
  Attempt.require (q % twoN == 1 && Prime.isPrime q) (.invalidRingModulus q twoN)
  let ring ← NegacyclicRing.check n q
  return { params, ring, keys := .empty params.rgsw.gadgetBase, source := .ofSeed seed }

def smallShape (ctx : Context) : Shape := ⟨ctx.params.lwe.dimension, ctx.params.lwe.modulus⟩

def largeShape (ctx : Context) : Shape := ⟨ctx.params.lwe.ringDimension, ctx.params.lwe.ringModulus⟩

def shapeOf (ct : Lwe.Ciphertext) : Shape := ⟨ct.dimension, ct.modulus⟩

def checkPlaintext (p modulus : Nat) : Attempt Unit :=
  Attempt.require (decide (0 < p ∧ p ≤ modulus)) (.invalidModulus p)

def checkDimension (sk : Lwe.Secret) (ct : Lwe.Ciphertext) : Attempt Unit :=
  Attempt.require (sk.dimension == ct.dimension)
    (.dimensionMismatch (shapeOf ct) ⟨sk.dimension, ct.modulus⟩)

def keyGen : Action Lwe.Secret := do
  let lwe := (← get).params.lwe
  Action.draw (Lwe.Secret.generate lwe.dimension lwe.distribution lwe.sigma)

def keyGenLarge : Action Lwe.Secret := do
  let lwe := (← get).params.lwe
  Action.draw (Lwe.Secret.generate lwe.ringDimension .ternary lwe.sigma)

def publicKeyGen (sk : Lwe.Secret) : Action Lwe.PublicKey := do
  let lwe := (← get).params.lwe
  Action.drawBranched (Lwe.PublicKey.generate sk lwe.ringModulus lwe.sigma)

def keyPairGen : Action KeyPair := do
  let secret ← keyGenLarge
  return { secret, publicKey := ← publicKeyGen secret }

def switchingKeyGen (sk large : Lwe.Secret) : Action Lwe.SwitchingKey := do
  let lwe := (← get).params.lwe
  Action.drawBranched
    (Lwe.SwitchingKey.generate large sk lwe.switchingBase lwe.switchingModulus lwe.sigma)

def bootstrapKeyGen (sk : Lwe.Secret) (mode : KeyMode) : Action Unit := do
  let ctx ← get
  let (keys, source) ← Action.ofAttempt (ctx.keys.generate ctx.params ctx.ring sk mode ctx.source)
  set { ctx with keys, source }

/-- Encrypts under a secret, by default at the modulus that goes with its dimension. -/
def encrypt (sk : Lwe.Secret) (m p : Nat) (modulus : Option Nat) : Action Lwe.Ciphertext := do
  let ctx ← get
  let lwe := ctx.params.lwe
  let modulus := modulus.getD (if sk.dimension = lwe.dimension then lwe.modulus else lwe.ringModulus)
  Action.ofAttempt (checkPlaintext p modulus)
  Action.drawBranched
    ((Lwe.Ciphertext.zero sk.dimension modulus).encrypt sk m p lwe.sigma)

/-- Brings a ciphertext under the large secret to the small shape. -/
def switchDown (ctx : Context) (key : Lwe.SwitchingKey) (ct : Lwe.Ciphertext) :
    Attempt Lwe.Ciphertext := do
  let lwe := ctx.params.lwe
  Attempt.require (shapeOf ct == ctx.largeShape)
    (.dimensionMismatch ctx.largeShape (shapeOf ct))
  Attempt.require (key.source == lwe.ringDimension && key.target == lwe.dimension)
    (.dimensionMismatch ⟨lwe.ringDimension, lwe.switchingModulus⟩ ⟨key.source, key.modulus⟩)
  let switched ← key.switch (← ct.switchModulus key.modulus)
  switched.switchModulus lwe.modulus

def encryptPublic (pk : Lwe.PublicKey) (m : Nat) (size : CiphertextSize) (p : Nat) :
    Action Lwe.Ciphertext := do
  let ctx ← get
  Action.ofAttempt (checkPlaintext p pk.modulus)
  let ct ← Action.drawBranched
    (pk.encrypt (Lwe.Ciphertext.zero pk.dimension pk.modulus) m p ctx.params.lwe.sigma)
  match size, ctx.keys.switchingKey with
  | .large, _ => return ct
  | .small, some key => Action.ofAttempt (ctx.switchDown key ct)
  | .small, none => Action.fail .missingSwitchingKey

def decrypt (sk : Lwe.Secret) (ct : Lwe.Ciphertext) (p : Nat) : Attempt Nat := do
  checkDimension sk ct
  checkPlaintext p ct.modulus
  ct.decrypt sk p

end Context

end LatticeGates
