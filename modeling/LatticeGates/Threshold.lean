import LatticeGates.Context

/-!
# Threshold keys and decryption

Every party holds a small and a large secret; the joint secrets are the sums. The lead party starts each
joint object and the others add their shares.
-/

namespace LatticeGates

/-- What one party reveals about the phase of a ciphertext. -/
structure DecryptionShare where
  value : Nat
  modulus : Nat
  lead : Bool
  deriving DecidableEq, Repr

namespace Context

def jointKeyGen (secrets : List Lwe.Secret) : Action KeyPair := do
  let params := (← get).params
  match ← (Lwe.Secret.sum secrets : Checked _), secrets with
  | some secret, _ => return { secret, publicKey := ← publicKeyGen secret }
  | none, [] => Action.fail (.incompleteShares params.parties 0 0)
  | none, first :: rest =>
    let other := (rest.find? fun sk => sk.dimension != first.dimension).getD first
    let modulus := params.lwe.ringModulus
    Action.fail (.dimensionMismatch ⟨first.dimension, modulus⟩ ⟨other.dimension, modulus⟩)

/-- The public key that the lead starts, or `previous` with the share of `z`. -/
def jointPublicKeyGen (z : Lwe.Secret) : Option Lwe.PublicKey → Action Lwe.PublicKey
  | none => publicKeyGen z
  | some previous => do
    let sigma := (← get).params.lwe.sigma
    Action.draw (previous.accumulate z sigma)

/-- The switching key that the lead starts, or `previous` with the share of `z` and `s`. -/
def jointSwitchingKeyGen (s z : Lwe.Secret) : Option Lwe.SwitchingKey → Action Lwe.SwitchingKey
  | none => switchingKeyGen s z
  | some previous => do
    let sigma := (← get).params.lwe.sigma
    Action.draw (previous.accumulate z s sigma)

def commonReference : Action CommonReference := do
  let ctx ← get
  let gadget ← (ctx.params.rgsw.gadget : Checked _)
  Action.draw (CommonReference.generate ctx.ring gadget.digits)

def gadgetShare (reference : CommonReference) (z : Lwe.Secret) (m : Int) (lead : Bool) :
    Action Rgsw := do
  let ctx ← get
  let sk ← (Rlwe.Secret.ofLwe ctx.ring z : Checked _)
  let gadget ← (ctx.params.rgsw.gadget : Checked _)
  Action.draw (Rgsw.encryptShare ctx.ring gadget (Rgsw.zero ctx.ring.degree gadget.digits) reference
    sk m lead ctx.params.rgsw.sigma)

def gadgetDecrypt (ctx : Context) (x : Rgsw) (z : Lwe.Secret) : Checked Int := do
  let sk ← Rlwe.Secret.ofLwe ctx.ring z
  x.decrypt ctx.ring (← ctx.params.rgsw.gadget) sk

/-- The rotation key with the block of another party, encrypted by a joint encryption of zero. -/
def jointRotationKeyGen (s : Lwe.Secret) (zero : Rgsw) (previous : Option BlindRotation.Key) :
    Action BlindRotation.Key := do
  let ctx ← get
  let lwe := ctx.params.lwe
  Action.require (← (s.isTernary : Checked _)) .unsupportedSecret
  Action.require (s.dimension == lwe.dimension)
    (.dimensionMismatch ⟨lwe.dimension, lwe.modulus⟩ ⟨s.dimension, lwe.modulus⟩)
  let key ← match previous with
    | some key => pure key
    | none => do
      let gadget ← (ctx.params.rgsw.gadget : Checked _)
      pure (BlindRotation.Key.empty lwe.dimension gadget)
  Action.drawBranched (BlindRotation.Key.append ctx.ring key zero s ctx.params.rgsw.sigma)

/-- Installs a joint key to which every party has contributed. -/
def installJointKey (rotation : BlindRotation.Key) (switching : Lwe.SwitchingKey) :
    Action Unit := do
  let ctx ← get
  let blocks ← (rotation.blockCount : Checked _)
  Action.require (blocks == ctx.params.parties) (.incompleteShares ctx.params.parties blocks 1)
  set { ctx with keys := ctx.keys.install rotation switching }

/-- The phase that a party sees, with fresh noise. Only the lead counts the body. -/
def decryptShare (sk : Lwe.Secret) (ct : Lwe.Ciphertext) (lead : Bool) : Action DecryptionShare := do
  let sigma := (← get).params.lwe.sigma
  Action.ofAttempt (checkDimension sk ct)
  let q ← (Modulus.check ct.modulus : Checked _)
  let part ← (if lead then .ok ct else Lwe.Ciphertext.ofParts ct.mask 0 ct.modulus : Checked _)
  let phase ← (part.phase sk : Checked _)
  let e ← Action.draw (Stream.gaussian sigma)
  let value ← (q.add phase (q.ofInt e) : Checked _)
  return { value, modulus := ct.modulus, lead }

/-- Sums the shares of all parties and rounds to a message modulo `p`. -/
def fuse (ctx : Context) (shares : List DecryptionShare) (p : Nat) : Attempt Nat := do
  let leads := shares.countP (·.lead)
  Attempt.require (shares.length == ctx.params.parties && leads == 1)
    (.incompleteShares ctx.params.parties shares.length leads)
  let modulus := (shares.head?.map (·.modulus)).getD 0
  if let some share := shares.find? fun share => share.modulus != modulus then
    Attempt.fail (.dimensionMismatch ⟨1, modulus⟩ ⟨1, share.modulus⟩)
  checkPlaintext p modulus
  let q ← Modulus.check modulus
  let phase ← (shares.foldlM (fun acc share => q.add acc share.value) 0 : Checked _)
  Modulus.rescale phase modulus p

end Context

end LatticeGates
