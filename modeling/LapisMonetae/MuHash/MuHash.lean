import LapisMonetae.MuHash.U3072

/-!
# The multiplicative hash of a set

`crypto/muhash`: a set of byte strings is hashed as the product of field elements, kept as a
numerator and a denominator and divided only when it is serialized. The hash functions, the stream
cipher that stretches a hash to a field element, and the modular inversion are parameters.
-/

namespace LapisMonetae.Muhash

open U3072

/-- What the accumulator calls. -/
structure Primitives (Hash : Type) where
  /-- The bytes of the `ChaCha20Rng` that is seeded with the `MuHashElementHash` of the data. -/
  elementBytes : List UInt8 → ElementBytes
  /-- `Uint3072::mod_inverse` at `UINT_PRIME` -/
  modInverse : U3072 → Option U3072
  /-- `MuHashFinalizeHash::hash` -/
  finalizeHash : ElementBytes → Hash
  /-- `cfg!(debug_assertions)` -/
  debugAssertions : Bool

variable {Hash : Type} (prim : Primitives Hash)

namespace U3072

/-- The reduction that guards the steps of a division. -/
def reduced (self : U3072) : U3072 := if self.isOverflow then self.fullReduce else self

def inverse (self : U3072) : Option U3072 :=
  let a := self.reduced
  if a = zero then some a
  else do
    let inv ← prim.modInverse a
    if prim.debugAssertions then
      let product ← inv.mul a
      if product = one then some inv else none
    else some inv

def div (self other : U3072) : Option U3072 := do
  let inv ← (if other.isOverflow then inverse prim other.fullReduce else inverse prim other)
  let product ← self.reduced.mul inv
  return product.reduced

end U3072

structure MuHash where
  numerator : U3072
  denominator : U3072
  deriving DecidableEq

structure OverflowError where
  deriving DecidableEq

def dataToElement (data : List UInt8) : U3072 := fromLeBytes (prim.elementBytes data)

namespace MuHash

def new : MuHash := ⟨one, one⟩

def addElement (self : MuHash) (data : List UInt8) : Option MuHash := do
  let numerator ← self.numerator.mul (dataToElement prim data)
  return { self with numerator }

def removeElement (self : MuHash) (data : List UInt8) : Option MuHash := do
  let denominator ← self.denominator.mul (dataToElement prim data)
  return { self with denominator }

def combine (self other : MuHash) : Option MuHash := do
  let numerator ← self.numerator.mul other.numerator
  let denominator ← self.denominator.mul other.denominator
  return { numerator, denominator }

def normalize (self : MuHash) : Option MuHash := do
  let numerator ← U3072.div prim self.numerator self.denominator
  return { numerator, denominator := one }

/-- `serialize`: the bytes, and the accumulator that is left. -/
def serialize (self : MuHash) : Option (ElementBytes × MuHash) := do
  let self ← self.normalize prim
  return (self.numerator.toLeBytes, self)

/-- `finalize`: the hash, and the accumulator that is left. -/
def finalize (self : MuHash) : Option (Hash × MuHash) := do
  let (serialized, self) ← self.serialize prim
  return (prim.finalizeHash serialized, self)

def deserialize (data : ElementBytes) : Except OverflowError MuHash :=
  let numerator := fromLeBytes data
  if numerator.isOverflow then .error {} else .ok { numerator, denominator := one }

end MuHash

/-! ## Runs over several accumulators -/

/-- One call on the accumulators of the index type `ι`. -/
inductive Op (ι : Type) where
  | new (i : ι)
  | addElement (i : ι) (data : List UInt8)
  | removeElement (i : ι) (data : List UInt8)
  | combine (i other : ι)
  | finalize (i : ι)
  deriving DecidableEq

variable {ι : Type} [DecidableEq ι]

namespace Op

/-- The accumulators after the call. -/
def exec (store : ι → MuHash) : Op ι → Option (ι → MuHash)
  | new i => some (Function.update store i MuHash.new)
  | addElement i data => do return Function.update store i (← (store i).addElement prim data)
  | removeElement i data => do return Function.update store i (← (store i).removeElement prim data)
  | combine i other => do return Function.update store i (← (store i).combine (store other))
  | finalize i => do return Function.update store i (← (store i).finalize prim).2

/-- The multiplicities of the elements, adds minus removes, after the call. -/
def account (count : ι → List UInt8 → ℤ) : Op ι → ι → List UInt8 → ℤ
  | new i => Function.update count i 0
  | addElement i data => Function.update count i (count i + Pi.single data 1)
  | removeElement i data => Function.update count i (count i - Pi.single data 1)
  | combine i other => Function.update count i (count i + count other)
  | finalize _ => count

/-- The data that the call hashes to an element. -/
def elements : Op ι → List (List UInt8)
  | addElement _ data | removeElement _ data => [data]
  | _ => []

end Op

/-- The calls one after another, from new accumulators. -/
def run (ops : List (Op ι)) : Option (ι → MuHash) :=
  ops.foldlM (Op.exec prim) fun _ => MuHash.new

/-- Adds minus removes of each element, over all calls. -/
def multiplicity (ops : List (Op ι)) : ι → List UInt8 → ℤ :=
  ops.foldl Op.account 0

end LapisMonetae.Muhash
