import LapisMonetae.MuHash.U3072
import Mathlib.Data.Nat.Size

/-!
# Large integers

The integer types of `construct_uint!`, for every number of 64-bit words. The loops over words are
recursions over lists with the lowest word first; a `u128` is a natural number, since no sum of
products here exceeds its range. `none` is a failed assertion or an index out of range.
-/

namespace LapisMonetae.Math

open List

open Muhash (overflowingAdd)

/-- An integer of `n` words, the lowest first. -/
structure Uint (n : ℕ) where
  limbs : List UInt64
  length_limbs : limbs.length = n
deriving DecidableEq

/-! ## Loops over words -/

def overflowingSub (a b : UInt64) : UInt64 × Bool := (a - b, decide (a.toNat < b.toNat))

def carryingAddU64 (lhs rhs : UInt64) (carry : Bool) : UInt64 × Bool :=
  let (a, b) := overflowingAdd lhs rhs
  let (c, d) := overflowingAdd a carry.toUInt64
  (c, b != d)

def borrowingSubU64 (lhs rhs : UInt64) (borrow : Bool) : UInt64 × Bool :=
  let (a, b) := overflowingSub lhs rhs
  let (c, d) := overflowingSub a borrow.toUInt64
  (c, b != d)

/-- The loop of `overflowing_add` and of `overflowing_sub`. -/
def carryLoop (step : UInt64 → UInt64 → Bool → UInt64 × Bool) :
    List UInt64 → List UInt64 → Bool → List UInt64 × Bool
  | a :: as, b :: bs, carry =>
    let (c, carryOut) := step a b carry
    let (cs, carry) := carryLoop step as bs carryOut
    (c :: cs, carry)
  | _, _, carry => ([], carry)

/-- The loop of `carrying_mul_u64`. -/
def mulWordLoop (other : UInt64) : List UInt64 → ℕ → List UInt64 × ℕ
  | [], carry => ([], carry)
  | a :: as, carry =>
    let n := carry + other.toNat * a.toNat
    let (rest, carry) := mulWordLoop other as (n / 2 ^ 64 % 2 ^ 64)
    (UInt64.ofNat n :: rest, carry)

/-- The inner loop of `overflowing_mul`: the words of `self` times the word `b`, added to the words
of the result from the row on. It ends with the last word of the result. -/
def mulRow (b : UInt64) : List UInt64 → List UInt64 → UInt64 → List UInt64 × UInt64
  | a :: as, r :: rs, carry =>
    let n := a.toNat * b.toNat + r.toNat + carry.toNat
    let (rest, carry) := mulRow b as rs (UInt64.ofNat (n / 2 ^ 64))
    (UInt64.ofNat n :: rest, carry)
  | _, rs, carry => (rs, carry)

/-- The outer loop of `overflowing_mul`. A row does not touch the words of the result before it, so
that the first word is final after its row. -/
def mulRows (self : List UInt64) : List UInt64 → List UInt64 → List UInt64 × Bool
  | b :: bs, r :: rs =>
    let (row, carry) := mulRow b self (r :: rs) 0
    let (rest, carryOut) := mulRows self bs row.tail
    (row.headD 0 :: rest, carryOut || carry != 0)
  | _, rs => (rs, false)

/-- The words after `previous`, shifted to the left by less than a word. -/
def shlWords (shift : ℕ) : UInt64 → List UInt64 → List UInt64
  | _, [] => []
  | previous, a :: as =>
    let word := a <<< UInt64.ofNat shift
    (if 0 < shift then word ||| previous >>> UInt64.ofNat (64 - shift) else word) ::
      shlWords shift a as

/-- The words shifted to the right by less than a word. -/
def shrWords (shift : ℕ) : List UInt64 → List UInt64
  | [] => []
  | a :: as =>
    let word := a >>> UInt64.ofNat shift
    (if 0 < shift then word ||| as.headD 0 <<< UInt64.ofNat (64 - shift) else word) ::
      shrWords shift as

/-- The loop of `bits`, from the highest word down. -/
def bitsFromTop : List UInt64 → ℕ
  | [] => 0
  | word :: rest =>
    if word ≠ 0 then 64 * (rest.length + 1) - (64 - word.toNat.size) else bitsFromTop rest

/-- The comparison of words, the highest first. -/
def cmpFromTop : List UInt64 → List UInt64 → Ordering
  | a :: as, b :: bs => (compare a.toNat b.toNat).then (cmpFromTop as bs)
  | _, _ => .eq

/-- The loop of `div_rem_u64`, from the highest word down. -/
def divWordLoop (other : UInt64) : List UInt64 → List UInt64 × ℕ
  | [] => ([], 0)
  | d :: ds =>
    let (qs, rem) := divWordLoop other ds
    let n := rem * 2 ^ 64 + d.toNat
    (UInt64.ofNat (n / other.toNat) :: qs, n % other.toNat)

section

variable (step : UInt64 → UInt64 → Bool → UInt64 × Bool)

lemma length_carryLoop (as bs : List UInt64) (carry : Bool) (h : as.length = bs.length) :
    (carryLoop step as bs carry).1.length = as.length := by
  induction as generalizing bs carry with
  | nil => rfl
  | cons a as ih =>
    cases bs with
    | nil => cases h
    | cons b bs => exact congrArg (· + 1) (ih bs _ (Nat.succ.inj h))

lemma length_mulWordLoop (other : UInt64) (as : List UInt64) (carry : ℕ) :
    (mulWordLoop other as carry).1.length = as.length := by
  induction as generalizing carry with
  | nil => rfl
  | cons a as ih => exact congrArg (· + 1) (ih _)

lemma length_mulRow (b : UInt64) (as rs : List UInt64) (carry : UInt64) :
    (mulRow b as rs carry).1.length = rs.length := by
  induction as generalizing rs carry with
  | nil => simp [mulRow]
  | cons a as ih =>
    cases rs with
    | nil => rfl
    | cons r rs => exact congrArg (· + 1) (ih rs _)

lemma length_mulRows (self bs rs : List UInt64) : (mulRows self bs rs).1.length = rs.length := by
  induction bs generalizing rs with
  | nil => simp [mulRows]
  | cons b bs ih =>
    cases rs with
    | nil => rfl
    | cons r rs =>
      simp only [mulRows, length_cons, ih, length_tail, length_mulRow]
      omega

lemma length_shlWords (shift : ℕ) (previous : UInt64) (as : List UInt64) :
    (shlWords shift previous as).length = as.length := by
  induction as generalizing previous with
  | nil => rfl
  | cons a as ih => exact congrArg (· + 1) (ih _)

lemma length_shrWords (shift : ℕ) (as : List UInt64) : (shrWords shift as).length = as.length := by
  induction as with
  | nil => rfl
  | cons a as ih => exact congrArg (· + 1) ih

lemma length_divWordLoop (other : UInt64) (ds : List UInt64) :
    (divWordLoop other ds).1.length = ds.length := by
  induction ds with
  | nil => rfl
  | cons d ds ih => exact congrArg (· + 1) ih

end

/-! ## Operations -/

namespace Uint

variable {n : ℕ}

def zero (n : ℕ) : Uint n := ⟨replicate n 0, length_replicate⟩

def overflowingAdd (self other : Uint n) : Uint n × Bool :=
  let result := carryLoop carryingAddU64 self.limbs other.limbs false
  (⟨result.1, by rw [length_carryLoop, self.length_limbs]; rw [self.length_limbs, other.length_limbs]⟩,
    result.2)

def overflowingSub (self other : Uint n) : Uint n × Bool :=
  let result := carryLoop borrowingSubU64 self.limbs other.limbs false
  (⟨result.1, by rw [length_carryLoop, self.length_limbs]; rw [self.length_limbs, other.length_limbs]⟩,
    result.2)

def carryingMulU64 (self : Uint n) (other : UInt64) : Uint n × ℕ :=
  let result := mulWordLoop other self.limbs 0
  (⟨result.1, by rw [length_mulWordLoop, self.length_limbs]⟩, result.2)

def overflowingMulU64 (self : Uint n) (other : UInt64) : Uint n × Bool :=
  let (this, carry) := self.carryingMulU64 other
  (this, carry != 0)

def overflowingMul (self other : Uint n) : Uint n × Bool :=
  let result := mulRows self.limbs other.limbs (zero n).limbs
  (⟨result.1, by rw [length_mulRows, (zero n).length_limbs]⟩, result.2)

def overflowingShl (self : Uint n) (s : ℕ) : Uint n × Bool :=
  let leftWords := s % (64 * n) / 64
  let leftShifts := s % (64 * n) % 64
  (⟨(replicate leftWords 0 ++ shlWords leftShifts 0 self.limbs).take n, by
    rw [length_take, length_append, length_shlWords, self.length_limbs]; omega⟩,
    decide (64 * n ≤ s))

def overflowingShr (self : Uint n) (s : ℕ) : Uint n × Bool :=
  let leftWords := s % (64 * n) / 64
  let leftShifts := s % (64 * n) % 64
  (⟨shrWords leftShifts (self.limbs.drop leftWords) ++ replicate (min leftWords n) 0, by
    rw [length_append, length_shrWords, length_drop, self.length_limbs, length_replicate]
    omega⟩, decide (64 * n ≤ s))

/-- The operator `<<` of the release build, where an overflow is not checked. -/
def shl (self : Uint n) (s : ℕ) : Uint n := (self.overflowingShl s).1

/-- The operator `>>` of the release build. -/
def shr (self : Uint n) (s : ℕ) : Uint n := (self.overflowingShr s).1

/-- The operator `-` of the release build. -/
def sub (self other : Uint n) : Uint n := (self.overflowingSub other).1

def bits (self : Uint n) : ℕ := bitsFromTop self.limbs.reverse

def cmp (self other : Uint n) : Ordering := cmpFromTop self.limbs.reverse other.limbs.reverse

/-- `self[shift / 64] |= 1 << (shift % 64)` -/
def setBit (self : Uint n) (shift : ℕ) : Option (Uint n) :=
  if shift / 64 < n then
    some ⟨self.limbs.modify (shift / 64) (· ||| 1 <<< UInt64.ofNat (shift % 64)), by
      rw [length_modify, self.length_limbs]⟩
  else none

/-- A round of the loop of `div_rem`, on the quotient and the rest. -/
def divRound (shift : ℕ) (shiftCopy ret subCopy : Uint n) : Option (Uint n × Uint n) :=
  if subCopy.cmp shiftCopy ≠ .lt then do
    return (← ret.setBit shift, subCopy.sub shiftCopy)
  else
    some (ret, subCopy)

/-- The loop of `div_rem`. -/
def divLoop : ℕ → Uint n → Uint n → Uint n → Option (Uint n × Uint n)
  | 0, shiftCopy, ret, subCopy => divRound 0 shiftCopy ret subCopy
  | shift + 1, shiftCopy, ret, subCopy => do
    let (ret, subCopy) ← divRound (shift + 1) shiftCopy ret subCopy
    divLoop shift (shiftCopy.shr 1) ret subCopy

def divRem (self other : Uint n) : Option (Uint n × Uint n) :=
  if other.bits = 0 then none
  else if self.bits < other.bits then some (zero n, self)
  else
    let shift := self.bits - other.bits
    divLoop shift (other.shl shift) (zero n) self

/-- `div_rem_u64`. A division by zero panics. -/
def divRemU64 (self : Uint n) (other : UInt64) : Option (Uint n × ℕ) :=
  if other = 0 then none
  else
    let result := divWordLoop other self.limbs
    some (⟨result.1, by rw [length_divWordLoop, self.length_limbs]⟩, result.2)

end Uint

end LapisMonetae.Math
