/-!
# A non-cryptographic digest

FNV-1a over 64 bits: each byte is xored into the state, which is then multiplied by a prime.
-/

namespace LatticeGates.Digest

def start : UInt64 := 0xcbf29ce484222325

@[inline] def byte (h : UInt64) (b : UInt64) : UInt64 := (h ^^^ b) * 0x100000001b3

/-- Absorbs the eight bytes of a word, least significant first. -/
def word (h w : UInt64) : UInt64 :=
  let h := byte h (w &&& 0xff)
  let h := byte h (w >>> 8 &&& 0xff)
  let h := byte h (w >>> 16 &&& 0xff)
  let h := byte h (w >>> 24 &&& 0xff)
  let h := byte h (w >>> 32 &&& 0xff)
  let h := byte h (w >>> 40 &&& 0xff)
  let h := byte h (w >>> 48 &&& 0xff)
  byte h (w >>> 56)

def signedWord (x : Int) : UInt64 := UInt64.ofNat (x % 0x10000000000000000).toNat

def words (xs : Array Nat) : UInt64 :=
  xs.foldl (fun h x => word h x.toUInt64) start

def signedWords (h : UInt64) (xs : Array Int) : UInt64 :=
  xs.foldl (fun h x => word h (signedWord x)) h

/-- The digest of a list of numbers: its length, then its entries. -/
def fingerprint (xs : Array Int) : UInt64 :=
  signedWords (word start xs.size.toUInt64) xs

end LatticeGates.Digest
