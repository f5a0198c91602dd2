import LapisMonetae.Lib.LittleEndian
import Mathlib.Data.Nat.Digits.Defs

/-!
# Numbers modulo the MuHash prime

`U3072` is a number of 48 limbs. Multiplication reduces modulo `2^3072 - 1103717` on the way, but
not always fully. A release build checks the plain additions and products, so `none` is a failed
assertion or an overflow.
-/

namespace LapisMonetae.Muhash

open List

/-- `LIMBS` -/
def limbCount : ℕ := 48

def primeDiff : UInt64 := 1103717

@[irreducible] def uintPrime : ℕ := 2 ^ 3072 - 1103717

/-- `U3072`, with the lowest limb first. -/
structure U3072 where
  limbs : List UInt64
  length_limbs : limbs.length = limbCount
deriving DecidableEq

/-! ## Limbs -/

def overflowingAdd (a b : UInt64) : UInt64 × Bool := (a + b, decide (2 ^ 64 ≤ a.toNat + b.toNat))

def mulWide (a b : UInt64) : UInt64 × UInt64 :=
  let t := a.toNat * b.toNat
  (UInt64.ofNat t, UInt64.ofNat (t / 2 ^ 64))

/-- `a + b` on limbs. -/
def checkedAdd (a b : UInt64) : Option UInt64 :=
  if a.toNat + b.toNat < 2 ^ 64 then some (a + b) else none

/-- `a * b` on limbs. -/
def checkedMul (a b : UInt64) : Option UInt64 :=
  if a.toNat * b.toNat < 2 ^ 64 then some (a * b) else none

/-- A value of a `DoubleLimb`. -/
def checkedDouble (t : ℕ) : Option ℕ := if t < 2 ^ 128 then some t else none

/-- `mulnadd3`: `[c0, c1] + n * [d0, d1, d2]`. -/
def mulnadd3 (c0 c1 d0 d1 d2 n : UInt64) : Option (UInt64 × UInt64 × UInt64) := do
  let t ← checkedDouble (d0.toNat * n.toNat + c0.toNat)
  let product ← checkedDouble (d1.toNat * n.toNat + c1.toNat)
  let t' ← checkedDouble (t / 2 ^ 64 + product)
  let c2 ← checkedAdd (UInt64.ofNat (t' / 2 ^ 64)) (← checkedMul d2 n)
  return (UInt64.ofNat t, UInt64.ofNat t', c2)

/-- `muladd3`: `[low, high, carry] + a * b`. -/
def muladd3 (a b : UInt64) (acc : UInt64 × UInt64 × UInt64) :
    Option (UInt64 × UInt64 × UInt64) := do
  let (low, high, carry) := acc
  let (tl, th) := mulWide a b
  let (low, overflow) := overflowingAdd low tl
  let th ← checkedAdd th overflow.toUInt64
  let (high, overflow) := overflowingAdd high th
  let carry ← checkedAdd carry overflow.toUInt64
  return (low, high, carry)

/-- `muln2`: `[low, high] * n`. -/
def muln2 (low high n : UInt64) : Option (UInt64 × UInt64) := do
  let t := low.toNat * n.toNat
  let t' ← checkedDouble (t / 2 ^ 64 + high.toNat * n.toNat)
  return (UInt64.ofNat t, UInt64.ofNat t')

/-- The loop of `full_reduce` and of the second reduction in `mul`: a number of two limbs is added,
and what is left over is returned. -/
def addLimbs : List UInt64 → UInt64 × UInt64 → List UInt64 × UInt64 × UInt64
  | [], (low, high) => ([], low, high)
  | limb :: limbs, (low, high) =>
    let (low, overflow) := overflowingAdd low limb
    let (high, overflow) := overflowingAdd high overflow.toUInt64
    let (limbs, rest) := addLimbs limbs (high, overflow.toUInt64)
    (low :: limbs, rest)

@[simp] lemma length_addLimbs (limbs : List UInt64) : ∀ carry,
    (addLimbs limbs carry).1.length = limbs.length := by
  induction limbs with
  | nil => exact fun _ => rfl
  | cons limb limbs ih => exact fun carry => congrArg (· + 1) (ih _)

namespace U3072

/-- `self.limbs[i]` -/
def limb (self : U3072) (i : ℕ) : UInt64 := self.limbs.getD i 0

/-- The number. -/
def toNat (self : U3072) : ℕ := Nat.ofDigits (2 ^ 64) (self.limbs.map UInt64.toNat)

def zero : U3072 := ⟨List.replicate limbCount 0, List.length_replicate⟩

def one : U3072 := ⟨1 :: List.replicate (limbCount - 1) 0, by simp [limbCount]⟩

def isOverflow (self : U3072) : Bool :=
  if self.limb 0 ≤ UInt64.ofNat (2 ^ 64 - 1) - primeDiff then false
  else (self.limbs.drop 1).all fun limb => limb == UInt64.ofNat (2 ^ 64 - 1)

def fullReduce (self : U3072) : U3072 :=
  ⟨(addLimbs self.limbs (primeDiff, 0)).1, by rw [length_addLimbs, self.length_limbs]⟩

/-- The products `self.limbs[i] * other.limbs[column - i]` for the given indices, added to the
accumulator. -/
def addProducts (self other : U3072) (column : ℕ) (indices : List ℕ)
    (acc : UInt64 × UInt64 × UInt64) : Option (UInt64 × UInt64 × UInt64) :=
  indices.foldlM (fun acc i => muladd3 (self.limb i) (other.limb (column - i)) acc) acc

/-- One round of the first loop of `mul`: column `j` of the product with one reduction. The lowest
limb goes into `tmp`. -/
def mulColumn (self other : U3072) (state : List UInt64 × UInt64 × UInt64 × UInt64) (j : ℕ) :
    Option (List UInt64 × UInt64 × UInt64 × UInt64) := do
  let (tmp, carryLow, carryHigh, _) := state
  let (low, high) := mulWide (self.limb (j + 1)) (other.limb (limbCount + j - (1 + j)))
  let (low, high, carry) ← self.addProducts other (limbCount + j)
    (range' (2 + j) (limbCount - (2 + j))) (low, high, 0)
  let acc ← mulnadd3 carryLow carryHigh low high carry primeDiff
  let (carryLow, carryHigh, carryHighest) ← self.addProducts other j (range (j + 1)) acc
  return (tmp ++ [carryLow], carryHigh, carryHighest, 0)

/-- The loops of `mul` up to the last reductions: the limbs, and what is left over. -/
def mulLimbs (self other : U3072) : Option (List UInt64 × UInt64) := do
  let (tmp, carryLow, carryHigh, carryHighest) ←
    (range (limbCount - 1)).foldlM (self.mulColumn other) ([], 0, 0, 0)
  -- `assert_eq!(carry_highest, 0)`
  guard (carryHighest = 0)
  let (limb, carryLow, carryHigh) ← self.addProducts other (limbCount - 1) (range limbCount)
    (carryLow, carryHigh, carryHighest)
  let (limbs, carryLow, carryHigh) := addLimbs (tmp ++ [limb])
    (← muln2 carryLow carryHigh primeDiff)
  -- `assert_eq!(carry_high, 0)` and `assert!(carry_low == 0 || carry_low == 1)`
  guard (carryHigh = 0)
  guard (carryLow = 0 ∨ carryLow = 1)
  return (limbs, carryLow)

def mul (self other : U3072) : Option U3072 :=
  if self = one then some other
  else do
    let (limbs, carryLow) ← self.mulLimbs other
    if hlength : limbs.length = limbCount then
      let product : U3072 := ⟨limbs, hlength⟩
      let product := if product.isOverflow then product.fullReduce else product
      return if carryLow ≠ 0 then product.fullReduce else product
    else none

/-! ## Bytes -/

/-- `[u8; ELEMENT_BYTE_SIZE]` -/
abbrev ElementBytes := { bytes : List UInt8 // bytes.length = 8 * limbCount }

def toLeBytes (self : U3072) : ElementBytes :=
  ⟨self.limbs.flatMap fun limb => LittleEndian.toLeBytes 8 limb.toNat, by
    simp [List.length_flatMap, List.map_const', self.length_limbs, Nat.mul_comm]⟩

def fromLeBytes (bytes : ElementBytes) : U3072 :=
  ⟨(List.range limbCount).map fun i =>
    UInt64.ofNat (LittleEndian.fromLeBytes ((bytes.1.drop (8 * i)).take 8)), by simp⟩

end U3072

end LapisMonetae.Muhash
