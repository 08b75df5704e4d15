import LatticeGates.Proofs.Eval.CircuitNoise
import LatticeGates.Proofs.Eval.Congruence
import LatticeGates.Proofs.Eval.MessageGrid
import LatticeGates.Proofs.Eval.Termination
import LatticeGates.Proofs.Params.Consistency
import LatticeGates.Proofs.Params.LargestPrime
import LatticeGates.Proofs.Ring.Rotation
import LatticeGates.Proofs.Ring.Transforms
import LatticeGates.Proofs.Threshold.Decryption
import LatticeGates.Proofs.Threshold.JointGadget
import LatticeGates.Proofs.Threshold.JointKeys
import LatticeGates.Proofs.Context.Creation
import LatticeGates.Proofs.Context.Encryption
import LatticeGates.Proofs.Context.Refusal
import LatticeGates.Proofs.KeyStore.Memoisation
import LatticeGates.Proofs.KeyStore.Outcome
import LatticeGates.Proofs.Gadget.Decryption
import LatticeGates.Proofs.Gadget.DroppedCarries
import LatticeGates.Proofs.Lwe.RoundTrip
import LatticeGates.Proofs.Lwe.Session
import LatticeGates.Proofs.Lwe.SwitchedPhase
import LatticeGates.Proofs.BlindRotation.Dimensions
import LatticeGates.Proofs.Threshold.Installation
import LatticeGates.Proofs.Modulus.FixedFactor
import LatticeGates.Proofs.Prime.PrimitiveRoot
import LatticeGates.Proofs.Prime.Words
