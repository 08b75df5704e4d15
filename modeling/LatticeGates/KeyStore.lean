import LatticeGates.BlindRotation.Rotate
import LatticeGates.Digest
import LatticeGates.Lwe.PublicKey
import LatticeGates.Params.Basic

/-!
# The key store

The store keeps one bootstrap key for each gadget base, all with the switching key of the same large
secret, and a public key of that secret on demand. A digest tells whether the keys belong to the secret
for which keys are asked.
-/

namespace LatticeGates

/-- Whether key generation also publishes the large secret. -/
inductive KeyMode where
  | symmetric
  | publishing
  deriving DecidableEq, Repr

structure BootstrapKey where
  base : Nat
  rotation : BlindRotation.Key
  switching : Lwe.SwitchingKey
  deriving DecidableEq

structure KeyStore where
  activeBase : Nat
  refreshKeys : Registry BootstrapKey := .empty
  switchingKey : Option Lwe.SwitchingKey := none
  publicKey : Option Lwe.PublicKey := none
  fingerprint : Option UInt64 := none

namespace KeyStore

def empty (activeBase : Nat) : KeyStore := { activeBase }

def insertIfAbsent (store : KeyStore) (key : BootstrapKey) : KeyStore :=
  { store with refreshKeys := store.refreshKeys.insertIfAbsent key.base key }

def get? (store : KeyStore) (base : Nat) : Option BootstrapKey := store.refreshKeys.get? base

def bases (store : KeyStore) : List Nat := store.refreshKeys.keys

def active (store : KeyStore) : Attempt BootstrapKey :=
  match store.get? store.activeBase with
  | some key => pure key
  | none => Attempt.fail (.missingBootstrapKey store.activeBase)

/-- The key of the base preferred for a modulus of the given size, else the active one. -/
def forPrecision (store : KeyStore) (bits : Nat) : Attempt BootstrapKey :=
  match store.get? (preferredBase bits) with
  | some key => pure key
  | none => store.active

def reset (store : KeyStore) (fingerprint : Option UInt64) : KeyStore :=
  { activeBase := store.activeBase, fingerprint }

/-- The bases for which keys are made: those with a gadget, and the active one. -/
def basesToMake (store : KeyStore) (params : Params) : List Nat :=
  let bases := if params.everyBase then params.rgsw.gadgets.keys else []
  if bases.contains store.activeBase then bases else bases ++ [store.activeBase]

/-- Two streams for each base, branched in order. -/
def branchTasks : List Nat → Stream → List (Nat × Stream × Stream) × Stream
  | [], source => ([], source)
  | base :: rest, source =>
    let (masks, source) := source.branch
    let (errors, source) := source.branch
    let (tasks, source) := branchTasks rest source
    ((base, masks, errors) :: tasks, source)

def makeKey (params : Params) (ring : NegacyclicRing) (z : Rlwe.Secret) (sk : Lwe.Secret)
    (switching : Lwe.SwitchingKey) (task : Nat × Stream × Stream) : Checked BootstrapKey := do
  let (base, masks, errors) := task
  let gadget ← params.rgsw.gadgetFor base
  let (rotation, _, _) ←
    BlindRotation.Key.generate ring gadget z sk params.rgsw.sigma masks errors
  return { base, rotation, switching }

/-- Fresh keys of `sk` for every base to make, with a fresh large secret. -/
def refresh (store : KeyStore) (params : Params) (ring : NegacyclicRing) (sk : Lwe.Secret)
    (mode : KeyMode) (source : Stream) : Checked (KeyStore × Stream) := do
  let lwe := params.lwe
  let (z, source) ← Lwe.Secret.generate lwe.ringDimension .ternary lwe.sigma source
  let ringSecret ← Rlwe.Secret.ofLwe ring z
  let (masks, source) := source.branch
  let (errors, source) := source.branch
  let (switching, masks, errors) ← Lwe.SwitchingKey.generate z sk lwe.switchingBase
    lwe.switchingModulus lwe.sigma masks errors
  let publicKey ← match mode with
    | .symmetric => pure store.publicKey
    | .publishing => do
      let (pk, _, _) ← Lwe.PublicKey.generate z lwe.ringModulus lwe.sigma masks errors
      pure (some pk)
  let (tasks, source) := branchTasks (store.basesToMake params) source
  let keys ← tasks.mapM (makeKey params ring ringSecret sk switching)
  let made := keys.foldl insertIfAbsent { store with refreshKeys := .empty }
  return ({ made with publicKey, switchingKey := some switching }, source)

/-- Makes the keys of `sk`. Keys of another secret are dropped. With keys for every base, all are made
anew; else only a missing key is made, or a missing public key that the mode asks for. -/
def generate (store : KeyStore) (params : Params) (ring : NegacyclicRing) (sk : Lwe.Secret)
    (mode : KeyMode) (source : Stream) : Attempt (KeyStore × Stream) := do
  let lwe := params.lwe
  Attempt.require (params.rgsw.method == .ginx) (.unsupportedMethod params.rgsw.method)
  Attempt.require (← sk.isTernary) .unsupportedSecret
  Attempt.require (sk.dimension == lwe.dimension)
    (.dimensionMismatch ⟨lwe.dimension, lwe.modulus⟩ ⟨sk.dimension, lwe.modulus⟩)
  let digest := Digest.fingerprint sk.coefficients
  let store := if store.fingerprint = some digest then store else store.reset (some digest)
  let wantsPublicKey := mode == .publishing && store.publicKey.isNone
  if !params.everyBase && store.refreshKeys.contains store.activeBase && !wantsPublicKey then
    return (store, source)
  else store.refresh params ring sk mode source

def install (store : KeyStore) (rotation : BlindRotation.Key) (switching : Lwe.SwitchingKey) :
    KeyStore :=
  let store := store.reset none
  let key : BootstrapKey := { base := store.activeBase, rotation, switching }
  { store with
    refreshKeys := store.refreshKeys.insert store.activeBase key
    switchingKey := some switching }

theorem get?_install {store : KeyStore} {rotation : BlindRotation.Key}
    {switching : Lwe.SwitchingKey} (base : Nat) :
    (store.install rotation switching).get? base =
      if base = store.activeBase then some ⟨store.activeBase, rotation, switching⟩ else none :=
  Registry.get?_insert _ _ _ _

end KeyStore

end LatticeGates
