import LapisMonetae.Math.Uint
import LapisMonetae.MuHash.LimbTheorems
import Mathlib.Tactic.LinearCombination

/-!
# Large integers compute with numbers

The value of an integer of `n` words is a number below `2^(64 n)`. Each loop over words keeps an
equation between the values of the words done, the words to come and the carry.
-/

namespace LapisMonetae.Math

open List Nat Bool

open Muhash (limbsValue limbsValue_cons limbsValue_append limbsValue_lt limbsValue_inj)

/-- The number. -/
def Uint.value {n : ℕ} (self : Uint n) : ℕ := limbsValue self.limbs

variable {k m n s shift x : ℕ} {shiftCopy ret sub : Uint n} {flag : Bool} (a b : Uint n)
  (l : List UInt64)

lemma Uint.value_lt (self : Uint n) : self.value < 2 ^ (64 * n) := by
  have h := limbsValue_lt self.limbs
  rwa [self.length_limbs, ← pow_mul] at h

lemma Uint.ext_value {a b : Uint n} (h : a.value = b.value) : a = b := by
  obtain ⟨as, has⟩ := a
  obtain ⟨bs, hbs⟩ := b
  have hlimbs : as = bs := limbsValue_inj (has.trans hbs.symm) h
  subst hlimbs
  rfl

lemma limbsValue_replicate_zero (k : ℕ) : limbsValue (List.replicate k 0) = 0 := by
  induction k with
  | zero => rfl
  | succ k ih =>
    rw [replicate_succ, limbsValue_cons, ih]
    rfl

/-- A number is split at a position into what is below its power and a multiple of it. -/
lemma limbsValue_split (hk : k ≤ l.length) :
    limbsValue l = limbsValue (l.take k) + (2 ^ 64) ^ k * limbsValue (l.drop k) ∧
      limbsValue (l.take k) < (2 ^ 64) ^ k := by
  have h := limbsValue_append (l.take k) (l.drop k)
  have hlt := limbsValue_lt (l.take k)
  rw [length_take_of_le hk] at h hlt
  rw [take_append_drop] at h
  exact ⟨h, hlt⟩

lemma limbsValue_take (k : ℕ) (hk : k ≤ l.length) :
    limbsValue (l.take k) = limbsValue l % (2 ^ 64) ^ k := by
  obtain ⟨h, hlt⟩ := limbsValue_split l hk
  rw [h, add_mul_mod_self_left, mod_eq_of_lt hlt]

lemma limbsValue_drop (k : ℕ) (hk : k ≤ l.length) :
    limbsValue (l.drop k) = limbsValue l / (2 ^ 64) ^ k := by
  obtain ⟨h, hlt⟩ := limbsValue_split l hk
  rw [h, add_mul_div_left _ _ (by positivity), div_eq_of_lt hlt, zero_add]

/-! ## Addition and subtraction -/

lemma toNat_toUInt64 (b : Bool) : b.toUInt64.toNat = b.toNat := by cases b <;> rfl

lemma carryingAddU64_spec (a b : UInt64) (carry : Bool) :
    (carryingAddU64 a b carry).1.toNat + 2 ^ 64 * (carryingAddU64 a b carry).2.toNat =
      a.toNat + b.toNat + carry.toNat := by
  obtain ⟨hsum, -⟩ := Muhash.toNat_overflowingAdd a b
  obtain ⟨hsum', -⟩ := Muhash.toNat_overflowingAdd (Muhash.overflowingAdd a b).1 carry.toUInt64
  rw [toNat_toUInt64] at hsum
  rw [toNat_toUInt64, toNat_toUInt64] at hsum'
  have ha := a.toNat_lt
  have hb := b.toNat_lt
  have hcarry := carry.toNat_le
  unfold carryingAddU64
  generalize Muhash.overflowingAdd a b = first at *
  obtain ⟨sum, overflow⟩ := first
  dsimp only at *
  generalize Muhash.overflowingAdd sum carry.toUInt64 = second at *
  obtain ⟨sum', overflow'⟩ := second
  have hlt := sum'.toNat_lt
  -- both additions cannot overflow at once
  cases overflow <;> cases overflow' <;>
    simp only [toNat_true, toNat_false, bne_self_eq_false, false_bne,
      Bool.true_bne, Bool.not_false] at * <;> omega

lemma toNat_overflowingSub (a b : UInt64) :
    (overflowingSub a b).1.toNat + b.toNat = a.toNat + 2 ^ 64 * (overflowingSub a b).2.toNat := by
  have ha := a.toNat_lt
  have hb := b.toNat_lt
  have hsub : (overflowingSub a b).1.toNat = (2 ^ 64 - b.toNat + a.toNat) % 2 ^ 64 :=
    UInt64.toNat_sub a b
  show (overflowingSub a b).1.toNat + b.toNat =
    a.toNat + 2 ^ 64 * (decide (a.toNat < b.toNat)).toNat
  by_cases h : a.toNat < b.toNat
  · rw [hsub, decide_eq_true h, toNat_true]
    omega
  · rw [hsub, decide_eq_false h, toNat_false]
    omega

lemma borrowingSubU64_spec (a b : UInt64) (borrow : Bool) :
    (borrowingSubU64 a b borrow).1.toNat + b.toNat + borrow.toNat =
      a.toNat + 2 ^ 64 * (borrowingSubU64 a b borrow).2.toNat := by
  have hsub := toNat_overflowingSub a b
  have hsub' := toNat_overflowingSub (overflowingSub a b).1 borrow.toUInt64
  rw [toNat_toUInt64] at hsub'
  have ha := a.toNat_lt
  have hb := b.toNat_lt
  have hborrow := borrow.toNat_le
  unfold borrowingSubU64
  generalize overflowingSub a b = first at *
  obtain ⟨sub, overflow⟩ := first
  dsimp only at *
  generalize overflowingSub sub borrow.toUInt64 = second at *
  obtain ⟨sub', overflow'⟩ := second
  have hlt := sub'.toNat_lt
  cases overflow <;> cases overflow' <;>
    simp only [toNat_true, toNat_false, bne_self_eq_false, false_bne,
      Bool.true_bne, Bool.not_false] at * <;> omega

/-- A loop with carry adds (`sign = 1`) or subtracts (`sign = -1`) the words. -/
lemma carryLoop_value {step : UInt64 → UInt64 → Bool → UInt64 × Bool} {sign : ℤ}
    (hstep : ∀ a b carry, ((step a b carry).1.toNat : ℤ) +
      sign * 2 ^ 64 * (step a b carry).2.toNat = a.toNat + sign * (b.toNat + carry.toNat))
    (as bs : List UInt64) (hlen : as.length = bs.length) (carry : Bool) :
    (limbsValue (carryLoop step as bs carry).1 : ℤ) +
        sign * (2 ^ 64) ^ as.length * (carryLoop step as bs carry).2.toNat =
      limbsValue as + sign * (limbsValue bs + carry.toNat) := by
  induction as generalizing bs carry with
  | nil =>
    obtain rfl := length_eq_zero_iff.mp hlen.symm
    simp [carryLoop, limbsValue]
  | cons a as ih =>
    cases bs with
    | nil => cases hlen
    | cons b bs =>
      have hrest := ih bs (Nat.succ.inj hlen) (step a b carry).2
      have hfirst := hstep a b carry
      simp only [carryLoop, limbsValue_cons, length_cons]
      push_cast
      linear_combination hfirst + 2 ^ 64 * hrest

lemma Uint.overflowingAdd_spec :
    (a.overflowingAdd b).1.value + 2 ^ (64 * n) * (a.overflowingAdd b).2.toNat =
      a.value + b.value := by
  have hword (x y : UInt64) (carry : Bool) : ((carryingAddU64 x y carry).1.toNat : ℤ) +
      1 * 2 ^ 64 * (carryingAddU64 x y carry).2.toNat = x.toNat + 1 * (y.toNat + carry.toNat) := by
    have h : ((carryingAddU64 x y carry).1.toNat : ℤ) + 2 ^ 64 * (carryingAddU64 x y carry).2.toNat =
        x.toNat + y.toNat + carry.toNat := by
      exact_mod_cast carryingAddU64_spec x y carry
    linear_combination h
  have h := carryLoop_value hword a.limbs b.limbs
    (a.length_limbs.trans b.length_limbs.symm) false
  rw [a.length_limbs, one_mul, one_mul, toNat_false, cast_zero, add_zero, ← pow_mul] at h
  exact_mod_cast h

lemma Uint.overflowingSub_spec : (a.overflowingSub b).1.value + b.value =
      a.value + 2 ^ (64 * n) * (a.overflowingSub b).2.toNat := by
  have hword (x y : UInt64) (borrow : Bool) : ((borrowingSubU64 x y borrow).1.toNat : ℤ) +
      -1 * 2 ^ 64 * (borrowingSubU64 x y borrow).2.toNat =
        x.toNat + -1 * (y.toNat + borrow.toNat) := by
    have h : ((borrowingSubU64 x y borrow).1.toNat : ℤ) + y.toNat + borrow.toNat =
        x.toNat + 2 ^ 64 * (borrowingSubU64 x y borrow).2.toNat := by
      exact_mod_cast borrowingSubU64_spec x y borrow
    linear_combination h
  have h := carryLoop_value hword a.limbs b.limbs
    (a.length_limbs.trans b.length_limbs.symm) false
  rw [a.length_limbs, toNat_false, cast_zero, add_zero, ← pow_mul] at h
  have h' : ((a.overflowingSub b).1.value : ℤ) + b.value =
      a.value + 2 ^ (64 * n) * (a.overflowingSub b).2.toNat := by
    simp only [Uint.overflowingSub, Uint.value]
    linear_combination h
  exact_mod_cast h'

/-- A flag for a nonzero quotient is the comparison. -/
lemma flag_eq_decide {v q : ℕ} (hv : v < m) (h : v + m * q = x)
    (hflag : flag = true ↔ q ≠ 0) : flag = decide (m ≤ x) := by
  rw [Bool.eq_iff_iff, hflag, decide_eq_true_iff, ← h]
  refine ⟨fun hq => ?_, fun hle hq => ?_⟩
  · exact (Nat.le_mul_of_pos_right m (Nat.pos_of_ne_zero hq)).trans (Nat.le_add_left _ _)
  · rw [hq, mul_zero] at hle
    omega

/-- A result below a bound and a flag for the bound are the remainder and the comparison. -/
lemma mod_and_flag {v : ℕ} (hv : v < m) (h : v + m * flag.toNat = x) :
    v = x % m ∧ flag = decide (m ≤ x) := by
  refine ⟨?_, flag_eq_decide hv h (by cases flag <;> simp)⟩
  rw [← h, add_mul_mod_self_left, mod_eq_of_lt hv]

/-! ## Multiplication -/

/-- The loop over words is exact, with what is left over in the carry. -/
lemma mulWordLoop_value (other : UInt64) (as : List UInt64) (carry : ℕ) (hcarry : carry < 2 ^ 64) :
    limbsValue (mulWordLoop other as carry).1 +
        (2 ^ 64) ^ as.length * (mulWordLoop other as carry).2 =
      limbsValue as * other.toNat + carry := by
  induction as generalizing carry with
  | nil => simp [mulWordLoop, limbsValue]
  | cons a as ih =>
    have hle := Muhash.mul_toNat_le other a
    have hhigh : (carry + other.toNat * a.toNat) / 2 ^ 64 < 2 ^ 64 := by omega
    have hrest := ih _ hhigh
    have hsplit := div_add_mod (carry + other.toNat * a.toNat) (2 ^ 64)
    simp only [mulWordLoop, limbsValue_cons, length_cons, UInt64.toNat_ofNat', mod_eq_of_lt hhigh]
    linear_combination 2 ^ 64 * hrest + hsplit

/-- A row adds the product of the words it reaches. -/
lemma mulRow_value (b : UInt64) (as rs : List UInt64) (hlen : rs.length ≤ as.length)
    (carry : UInt64) :
    limbsValue (mulRow b as rs carry).1 + (2 ^ 64) ^ rs.length * (mulRow b as rs carry).2.toNat =
      limbsValue (as.take rs.length) * b.toNat + limbsValue rs + carry.toNat := by
  induction rs generalizing as carry with
  | nil => cases as <;> simp [mulRow, limbsValue]
  | cons r rs ih =>
    cases as with
    | nil => cases hlen
    | cons a as =>
      have hle := Muhash.mul_toNat_le a b
      have hr := r.toNat_lt
      have hcarry := carry.toNat_lt
      have hhigh : (a.toNat * b.toNat + r.toNat + carry.toNat) / 2 ^ 64 < 2 ^ 64 := by omega
      have hrest := ih as (le_of_succ_le_succ hlen)
        (UInt64.ofNat ((a.toNat * b.toNat + r.toNat + carry.toNat) / 2 ^ 64))
      have hsplit := div_add_mod (a.toNat * b.toNat + r.toNat + carry.toNat) (2 ^ 64)
      rw [UInt64.toNat_ofNat', mod_eq_of_lt hhigh] at hrest
      simp only [mulRow, limbsValue_cons, length_cons, take_succ_cons, UInt64.toNat_ofNat']
      linear_combination 2 ^ 64 * hrest + hsplit

/-- The sum of the products of words that the rows add up; the first row has `width` words. -/
def keptProducts (self : List UInt64) : List UInt64 → ℕ → ℕ
  | [], _ => 0
  | b :: bs, width =>
    limbsValue (self.take width) * b.toNat + 2 ^ 64 * keptProducts self bs (width - 1)

/-- The sum of the products of words that no row computes, in units of the first power that does
not fit. -/
def droppedProducts (self : List UInt64) : List UInt64 → ℕ → ℕ
  | [], _ => 0
  | b :: bs, width =>
    limbsValue (self.drop width) * b.toNat + droppedProducts self bs (width - 1)

lemma mul_eq_kept_add_dropped (self bs : List UInt64) (width : ℕ) (hbs : bs.length ≤ width)
    (hself : width ≤ self.length) : limbsValue self * limbsValue bs =
      keptProducts self bs width + (2 ^ 64) ^ width * droppedProducts self bs width := by
  induction bs generalizing width with
  | nil => simp [keptProducts, droppedProducts, limbsValue]
  | cons b bs ih =>
    obtain ⟨width, rfl⟩ : ∃ k, width = k + 1 := ⟨width - 1, by simp at hbs; omega⟩
    have hrest := ih width (le_of_succ_le_succ hbs) (by omega)
    have hsplit := (limbsValue_split self hself).1
    rw [limbsValue_cons, keptProducts, droppedProducts, Nat.add_sub_cancel]
    linear_combination b.toNat * hsplit + 2 ^ 64 * hrest

/-- The rows add up the products they reach, and the flag tells whether a row had a carry left. -/
lemma mulRows_value (self bs rs : List UInt64) (hlen : bs.length = rs.length)
    (hself : rs.length ≤ self.length) :
    ∃ lost, limbsValue (mulRows self bs rs).1 + (2 ^ 64) ^ rs.length * lost =
        limbsValue rs + keptProducts self bs rs.length ∧
      ((mulRows self bs rs).2 = true ↔ lost ≠ 0) := by
  induction bs generalizing rs with
  | nil =>
    obtain rfl := length_eq_zero_iff.mp hlen.symm
    exact ⟨0, by simp [mulRows, keptProducts], by simp [mulRows]⟩
  | cons b bs ih =>
    cases rs with
    | nil => cases hlen
    | cons r rs =>
      have hrow := mulRow_value b self (r :: rs) hself 0
      have hrowLen := length_mulRow b self (r :: rs) 0
      simp only [mulRows]
      generalize mulRow b self (r :: rs) 0 = result at hrow hrowLen ⊢
      obtain ⟨row, carry⟩ := result
      obtain ⟨first, row, rfl⟩ : ∃ first rest, row = first :: rest :=
        exists_cons_of_length_eq_add_one hrowLen
      have hlength : row.length = rs.length := Nat.succ.inj hrowLen
      obtain ⟨lost, hvalue, hflag⟩ := ih row (by simpa [hlength] using hlen)
        (by rw [hlength]; exact Nat.le_of_succ_le hself)
      refine ⟨lost + carry.toNat, ?_, ?_⟩
      · rw [hlength] at hvalue
        simp only [limbsValue_cons, tail_cons, headD_cons, length_cons,
          keptProducts, Nat.add_sub_cancel, UInt64.toNat_zero] at hrow ⊢
        linear_combination hrow + 2 ^ 64 * hvalue
      · have hzero : carry ≠ 0 ↔ carry.toNat ≠ 0 := by
          rw [Ne, Ne, ← UInt64.toNat_inj, UInt64.toNat_zero]
        rw [tail_cons, or_eq_true, hflag, bne_iff_ne, hzero]
        omega

lemma Uint.overflowingMulU64_spec (a : Uint n) (b : UInt64) :
    (a.overflowingMulU64 b).1.value = a.value * b.toNat % 2 ^ (64 * n) ∧
      (a.overflowingMulU64 b).2 = decide (2 ^ (64 * n) ≤ a.value * b.toNat) := by
  have h := mulWordLoop_value b a.limbs 0 (by norm_num)
  have hlt := (a.overflowingMulU64 b).1.value_lt
  rw [a.length_limbs, ← pow_mul, Nat.add_zero] at h
  have hvalue : (a.overflowingMulU64 b).1.value +
      2 ^ (64 * n) * (mulWordLoop b a.limbs 0).2 = a.value * b.toNat := h
  refine ⟨?_, ?_⟩
  · rw [← hvalue, add_mul_mod_self_left, mod_eq_of_lt hlt]
  · exact flag_eq_decide hlt hvalue (bne_iff_ne (a := (mulWordLoop b a.limbs 0).2))

/-- The words are the product modulo the range. The flag looks at the products that the rows reach
and at nothing else. -/
lemma Uint.overflowingMul_spec : (a.overflowingMul b).1.value = a.value * b.value % 2 ^ (64 * n) ∧
      (a.overflowingMul b).2 = decide (2 ^ (64 * n) ≤ keptProducts a.limbs b.limbs n) := by
  have hzero : (zero n).limbs.length = n := (zero n).length_limbs
  obtain ⟨lost, hvalue, hflag⟩ := mulRows_value a.limbs b.limbs (zero n).limbs
    (b.length_limbs.trans hzero.symm) (by rw [hzero, a.length_limbs])
  have hproduct := mul_eq_kept_add_dropped a.limbs b.limbs n b.length_limbs.le a.length_limbs.ge
  have hlt := (a.overflowingMul b).1.value_lt
  have hz : limbsValue (zero n).limbs = 0 := limbsValue_replicate_zero n
  rw [hzero, hz, zero_add, ← pow_mul] at hvalue
  rw [← pow_mul] at hproduct
  have hkept : (a.overflowingMul b).1.value + 2 ^ (64 * n) * lost =
      keptProducts a.limbs b.limbs n := hvalue
  refine ⟨?_, flag_eq_decide hlt hkept hflag⟩
  · show _ = limbsValue a.limbs * limbsValue b.limbs % _
    rw [hproduct, ← hkept, add_mul_mod_self_left, add_mul_mod_self_left, mod_eq_of_lt hlt]

/-- The overflowing operations return the exact result modulo the range, and the flags of addition,
subtraction and multiplication by a word tell whether it was out of range. The flag of
multiplication does so if and only if no product of words is left out or the others already exceed
the range. -/
theorem Uint.overflowing_operations {n : ℕ} (a b : Uint n) (word : UInt64) :
    ((a.overflowingAdd b).1.value = (a.value + b.value) % 2 ^ (64 * n) ∧
      (a.overflowingAdd b).2 = decide (2 ^ (64 * n) ≤ a.value + b.value)) ∧
    ((a.overflowingSub b).1.value = (a.value + 2 ^ (64 * n) - b.value) % 2 ^ (64 * n) ∧
      (a.overflowingSub b).2 = decide (a.value < b.value)) ∧
    ((a.overflowingMulU64 word).1.value = a.value * word.toNat % 2 ^ (64 * n) ∧
      (a.overflowingMulU64 word).2 = decide (2 ^ (64 * n) ≤ a.value * word.toNat)) ∧
    (a.overflowingMul b).1.value = a.value * b.value % 2 ^ (64 * n) ∧
    ((a.overflowingMul b).2 = decide (2 ^ (64 * n) ≤ a.value * b.value) ↔
      droppedProducts a.limbs b.limbs n = 0 ∨ 2 ^ (64 * n) ≤ keptProducts a.limbs b.limbs n) := by
  refine ⟨mod_and_flag (a.overflowingAdd b).1.value_lt (a.overflowingAdd_spec b), ?_,
    a.overflowingMulU64_spec word, (a.overflowingMul_spec b).1, ?_⟩
  · have hsub := a.overflowingSub_spec b
    have hlt := (a.overflowingSub b).1.value_lt
    have hb := b.value_lt
    cases hflag : (a.overflowingSub b).2 with
    | false =>
      rw [hflag, toNat_false, mul_zero, add_zero] at hsub
      have hle : b.value ≤ a.value := by omega
      rw [Nat.sub_add_comm hle, Nat.add_mod_right, Nat.mod_eq_of_lt (by omega)]
      exact ⟨by omega, (decide_eq_false (not_lt.mpr hle)).symm⟩
    | true =>
      rw [hflag, toNat_true, mul_one] at hsub
      have hless : a.value < b.value := by omega
      rw [mod_eq_of_lt (by omega)]
      exact ⟨by omega, (decide_eq_true hless).symm⟩
  · have hproduct : a.value * b.value = keptProducts a.limbs b.limbs n +
        2 ^ (64 * n) * droppedProducts a.limbs b.limbs n := by
      rw [pow_mul]
      exact mul_eq_kept_add_dropped a.limbs b.limbs n b.length_limbs.le a.length_limbs.ge
    rw [(a.overflowingMul_spec b).2, decide_eq_decide, hproduct]
    refine ⟨fun h => ?_, fun h => ?_⟩
    · -- a product left out is at least the range
      refine Classical.or_iff_not_imp_left.mpr fun hdropped => h.mpr ?_
      exact (Nat.le_mul_of_pos_right _ (Nat.pos_of_ne_zero hdropped)).trans (Nat.le_add_left _ _)
    · cases h with
      | inl hdropped => rw [hdropped, mul_zero, add_zero]
      | inr hkept => exact ⟨fun _ => hkept.trans (le_add_right _ _), fun _ => hkept⟩

/-- For 256 bits, `2^192` times `2^64` is out of range, and the flag is not set. -/
theorem Uint.overflowingMul_misses_overflow : let a : Uint 4 := ⟨[0, 0, 0, 1], rfl⟩
    let b : Uint 4 := ⟨[0, 1, 0, 0], rfl⟩
    a.value * b.value = 2 ^ 256 ∧ a.overflowingMul b = (zero 4, false) := by
  decide

/-! ## Shifts -/

/-- A word shifted to the left makes room for the bits below. -/
lemma toNat_shiftLeft_or {a low : UInt64} (hs : s < 64) (hlow : low.toNat < 2 ^ s) :
    (a <<< UInt64.ofNat s ||| low).toNat = a.toNat * 2 ^ s % 2 ^ 64 + low.toNat := by
  have hword : a.toNat * 2 ^ s % 2 ^ 64 = (a.toNat % 2 ^ (64 - s)) <<< s := by
    have hpow : (2 : ℕ) ^ 64 = 2 ^ (64 - s) * 2 ^ s := by
      rw [← pow_add, Nat.sub_add_cancel hs.le]
    rw [hpow, mul_mod_mul_right, shiftLeft_eq]
  rw [UInt64.toNat_or, UInt64.toNat_shiftLeft, UInt64.toNat_ofNat', shiftLeft_eq,
    mod_eq_of_lt (show s < 2 ^ 64 by omega), mod_eq_of_lt hs, hword,
    shiftLeft_add_eq_or_of_lt hlow]

lemma toNat_shiftRight {a : UInt64} (hs : s < 64) :
    (a >>> UInt64.ofNat s).toNat = a.toNat / 2 ^ s := by
  rw [UInt64.toNat_shiftRight, UInt64.toNat_ofNat',
    mod_eq_of_lt (show s < 2 ^ 64 by omega), mod_eq_of_lt hs, shiftRight_eq_div_pow]

/-- A word of a left shift: its own bits, and the bits the word below lost. -/
lemma toNat_shlWord (previous a : UInt64) (hs : s < 64) :
    (if 0 < s then a <<< UInt64.ofNat s ||| previous >>> UInt64.ofNat (64 - s)
      else a <<< UInt64.ofNat s).toNat =
      a.toNat * 2 ^ s % 2 ^ 64 + previous.toNat / 2 ^ (64 - s) := by
  have hprevious := previous.toNat_lt
  by_cases h : 0 < s
  · have hlow : (previous >>> UInt64.ofNat (64 - s)).toNat = previous.toNat / 2 ^ (64 - s) :=
      toNat_shiftRight (by omega)
    have hlt : previous.toNat / 2 ^ (64 - s) < 2 ^ s := by
      rw [Nat.div_lt_iff_lt_mul (by positivity), ← pow_add, Nat.add_sub_cancel' hs.le]
      exact hprevious
    rw [if_pos h, toNat_shiftLeft_or hs (hlow ▸ hlt), hlow]
  · obtain rfl : s = 0 := by omega
    have hzero : previous.toNat / 2 ^ 64 = 0 := div_eq_of_lt hprevious
    rw [if_neg h, show 64 - 0 = 64 from rfl, hzero, pow_zero, mul_one, mod_eq_of_lt a.toNat_lt]
    simp

lemma add_mul_mod_mul {low : ℕ} (h : low < k) : (low + k * x) % (k * m) = low + k * (x % m) := by
  rw [mod_mul, add_mul_mod_self_left, mod_eq_of_lt h,
    add_mul_div_left _ _ (zero_lt_of_lt h), div_eq_of_lt h, zero_add]

lemma shlWords_value (hs : s < 64) (previous : UInt64) (as : List UInt64) :
    limbsValue (shlWords s previous as) =
      (limbsValue as * 2 ^ s + previous.toNat / 2 ^ (64 - s)) % (2 ^ 64) ^ as.length := by
  induction as generalizing previous with
  | nil => simp [shlWords, limbsValue, mod_one]
  | cons a as ih =>
    have hpow : (2 : ℕ) ^ 64 = 2 ^ (64 - s) * 2 ^ s := by
      rw [← pow_add, Nat.sub_add_cancel hs.le]
    -- the bits that leave the word are the quotient by the word
    have hhigh : a.toNat * 2 ^ s / 2 ^ 64 = a.toNat / 2 ^ (64 - s) := by
      rw [hpow, Nat.mul_div_mul_right _ _ (by positivity)]
    have hsplit := div_add_mod (a.toNat * 2 ^ s) (2 ^ 64)
    rw [hhigh] at hsplit
    have hword := toNat_shlWord previous a hs
    have hlt := (if 0 < s then a <<< UInt64.ofNat s ||| previous >>> UInt64.ofNat (64 - s)
      else a <<< UInt64.ofNat s).toNat_lt
    rw [hword] at hlt
    have htotal : limbsValue (a :: as) * 2 ^ s + previous.toNat / 2 ^ (64 - s) =
        (a.toNat * 2 ^ s % 2 ^ 64 + previous.toNat / 2 ^ (64 - s)) +
          2 ^ 64 * (limbsValue as * 2 ^ s + a.toNat / 2 ^ (64 - s)) := by
      rw [limbsValue_cons]
      linear_combination hsplit.symm
    rw [shlWords, limbsValue_cons, hword, ih, htotal, length_cons, pow_succ' (2 ^ 64),
      add_mul_mod_mul hlt]

lemma Uint.shl_value (a : Uint n) (hs : s < 64 * n) :
    (a.shl s).value = a.value * 2 ^ s % 2 ^ (64 * n) := by
  have hmod : s % (64 * n) = s := mod_eq_of_lt hs
  have hlen : n ≤ (List.replicate (s / 64) 0 ++ shlWords (s % 64) 0 a.limbs).length := by
    rw [length_append, length_shlWords, a.length_limbs]
    exact le_add_left _ _
  have hpow : (2 : ℕ) ^ s = 2 ^ (64 * (s / 64)) * 2 ^ (s % 64) := by
    rw [← pow_add, div_add_mod]
  show limbsValue (List.take n _) = limbsValue a.limbs * _ % _
  rw [hmod, limbsValue_take _ _ hlen, limbsValue_append, limbsValue_replicate_zero,
    shlWords_value (mod_lt s (by norm_num)), a.length_limbs, length_replicate, ← pow_mul,
    ← pow_mul, hpow]
  rw [UInt64.toNat_zero, Nat.zero_div, Nat.add_zero, Nat.zero_add, Nat.mul_mod_mod]
  congr 1
  ring

/-- A word of a right shift: its own bits, and the lowest bits of the word above. -/
lemma toNat_shrWord (next a : UInt64) (hs : s < 64) :
    (if 0 < s then a >>> UInt64.ofNat s ||| next <<< UInt64.ofNat (64 - s)
      else a >>> UInt64.ofNat s).toNat =
      a.toNat / 2 ^ s + next.toNat % 2 ^ s * 2 ^ (64 - s) := by
  by_cases h : 0 < s
  · have hlow : (a >>> UInt64.ofNat s).toNat = a.toNat / 2 ^ s := toNat_shiftRight hs
    have hlt : a.toNat / 2 ^ s < 2 ^ (64 - s) := by
      rw [Nat.div_lt_iff_lt_mul (by positivity), ← pow_add, Nat.sub_add_cancel hs.le]
      exact a.toNat_lt
    have hpow : (2 : ℕ) ^ 64 = 2 ^ s * 2 ^ (64 - s) := by
      rw [← pow_add, Nat.add_sub_cancel' hs.le]
    rw [if_pos h, UInt64.or_comm, toNat_shiftLeft_or (by omega) (hlow ▸ hlt), hlow, hpow,
      mul_mod_mul_right, add_comm]
  · obtain rfl : s = 0 := by omega
    rw [if_neg h]
    simp [mod_one]

lemma limbsValue_mod (as : List UInt64) : limbsValue as % 2 ^ 64 = (as.headD 0).toNat := by
  cases as with
  | nil => rfl
  | cons a as =>
    rw [limbsValue_cons, add_mul_mod_self_left, mod_eq_of_lt a.toNat_lt]
    rfl

lemma shrWords_value (hs : s < 64) (as : List UInt64) :
    limbsValue (shrWords s as) = limbsValue as / 2 ^ s := by
  induction as with
  | nil => simp [shrWords, limbsValue]
  | cons a as ih =>
    have hpow : (2 : ℕ) ^ 64 = 2 ^ s * 2 ^ (64 - s) := by
      rw [← pow_add, Nat.add_sub_cancel' hs.le]
    have hnext : (as.headD 0).toNat % 2 ^ s = limbsValue as % 2 ^ s := by
      rw [← limbsValue_mod, mod_mod_of_dvd _ (Dvd.intro _ hpow.symm)]
    have hsplit := div_add_mod (limbsValue as) (2 ^ s)
    have hquotient : limbsValue (a :: as) / 2 ^ s =
        a.toNat / 2 ^ s + 2 ^ (64 - s) * limbsValue as := by
      rw [limbsValue_cons, hpow, mul_assoc, add_mul_div_left _ _ (by positivity)]
    rw [shrWords, limbsValue_cons, toNat_shrWord _ _ hs, ih, hnext, hquotient]
    rw [hpow]
    linear_combination 2 ^ (64 - s) * hsplit

lemma Uint.shr_value (a : Uint n) (hs : s < 64 * n) : (a.shr s).value = a.value / 2 ^ s := by
  have hmod : s % (64 * n) = s := mod_eq_of_lt hs
  have hpow : (2 : ℕ) ^ s = 2 ^ (64 * (s / 64)) * 2 ^ (s % 64) := by
    rw [← pow_add, div_add_mod]
  have hword : s / 64 ≤ a.limbs.length := by
    rw [a.length_limbs]
    omega
  show limbsValue (_ ++ _) = limbsValue a.limbs / _
  rw [hmod, limbsValue_append, limbsValue_replicate_zero, mul_zero, add_zero,
    shrWords_value (mod_lt s (by norm_num)), limbsValue_drop _ _ hword, ← pow_mul,
    Nat.div_div_eq_div_mul, ← hpow]

/-! ## Division -/

/-- A nonzero word on top of others decides the size. -/
lemma size_add_mul {low word : ℕ} (hlow : low < 2 ^ k) (hword : word ≠ 0) :
    (low + 2 ^ k * word).size = k + word.size := by
  have hupper : word + 1 ≤ 2 ^ word.size := lt_size_self word
  have hlower : 2 ^ (word.size - 1) ≤ word :=
    lt_size.mp (sub_lt (size_pos.mpr (pos_of_ne_zero hword)) one_pos)
  have hpos : 0 < word.size := size_pos.mpr (pos_of_ne_zero hword)
  refine le_antisymm (size_le.mpr ?_) ?_
  · calc low + 2 ^ k * word < 2 ^ k * (word + 1) := by rw [mul_succ]; omega
      _ ≤ 2 ^ k * 2 ^ word.size := mul_le_mul_left _ hupper
      _ = 2 ^ (k + word.size) := (pow_add 2 k word.size).symm
  · have hle : 2 ^ (k + (word.size - 1)) ≤ low + 2 ^ k * word := by
      rw [pow_add]
      exact (mul_le_mul_left _ hlower).trans (le_add_left _ _)
    have hlt := lt_size.mpr hle
    omega

lemma limbsValue_reverse_cons (word : UInt64) (rest : List UInt64) :
    limbsValue (word :: rest).reverse =
      limbsValue rest.reverse + 2 ^ (64 * rest.length) * word.toNat := by
  rw [reverse_cons, limbsValue_append, length_reverse, ← pow_mul, limbsValue_cons]
  rfl

lemma limbsValue_reverse_lt (rest : List UInt64) :
    limbsValue rest.reverse < 2 ^ (64 * rest.length) := by
  have h := limbsValue_lt rest.reverse
  rwa [length_reverse, ← pow_mul] at h

lemma bitsFromTop_eq (words : List UInt64) :
    bitsFromTop words = (limbsValue words.reverse).size := by
  induction words with
  | nil => rfl
  | cons word rest ih =>
    rw [limbsValue_reverse_cons, bitsFromTop]
    by_cases hword : word = 0
    · rw [if_neg (not_not.mpr hword), ih, hword, UInt64.toNat_zero, mul_zero, add_zero]
    · have hne : word.toNat ≠ 0 := fun h => hword (UInt64.toNat_inj.mp h)
      have hsize : word.toNat.size ≤ 64 := size_le.mpr word.toNat_lt
      rw [if_pos hword, size_add_mul (limbsValue_reverse_lt rest) hne]
      omega

lemma Uint.bits_eq (a : Uint n) : a.bits = a.value.size := by
  rw [Uint.bits, bitsFromTop_eq, reverse_reverse]
  rfl

lemma compare_add_mul {y p q : ℕ} (hx : x < m) (hy : y < m) :
    compare (x + m * p) (y + m * q) = (compare p q).then (compare x y) := by
  rcases lt_trichotomy p q with h | rfl | h
  · have hle := mul_le_mul_left m (succ_le_of_lt h)
    rw [mul_succ] at hle
    rw [Nat.compare_eq_lt.mpr h, Nat.compare_eq_lt.mpr (by omega)]
    rfl
  · rw [Nat.compare_eq_eq.mpr rfl]
    show _ = compare x y
    simp only [compare, compareOfLessAndEq, add_lt_add_iff_right, add_right_cancel_iff]
  · have hle := mul_le_mul_left m (succ_le_of_lt h)
    rw [mul_succ] at hle
    rw [Nat.compare_eq_gt.mpr h, Nat.compare_eq_gt.mpr (by omega)]
    rfl

lemma cmpFromTop_eq (as bs : List UInt64) (hlen : as.length = bs.length) :
    cmpFromTop as bs = compare (limbsValue as.reverse) (limbsValue bs.reverse) := by
  induction as generalizing bs with
  | nil =>
    obtain rfl := length_eq_zero_iff.mp hlen.symm
    rfl
  | cons a as ih =>
    cases bs with
    | nil => cases hlen
    | cons b bs =>
      have hlen' : as.length = bs.length := Nat.succ.inj hlen
      have hlt := limbsValue_reverse_lt as
      rw [cmpFromTop, ih bs hlen', limbsValue_reverse_cons, limbsValue_reverse_cons, ← hlen',
        compare_add_mul hlt (hlen' ▸ limbsValue_reverse_lt bs)]

lemma Uint.cmp_eq : a.cmp b = compare a.value b.value := by
  rw [Uint.cmp, cmpFromTop_eq _ _ (by simp [a.length_limbs, b.length_limbs]),
    reverse_reverse, reverse_reverse]
  rfl

/-- A bit below all bits that are set is added. -/
lemma limbsValue_modify_or (words : List UInt64) (hindex : shift / 64 < words.length)
    (hdvd : 2 ^ (shift + 1) ∣ limbsValue words) :
    limbsValue (words.modify (shift / 64) (· ||| 1 <<< UInt64.ofNat (shift % 64))) =
      limbsValue words + 2 ^ shift := by
  induction words generalizing shift with
  | nil => cases hindex
  | cons a as ih =>
    by_cases hshift : shift < 64
    · -- the bit is in the lowest word, which has no bit up to it
      have hword : 2 ^ (shift + 1) ∣ a.toNat := by
        have hpow : 2 ^ (shift + 1) ∣ 2 ^ 64 * limbsValue as :=
          Dvd.dvd.mul_right (pow_dvd_pow 2 hshift) _
        rw [limbsValue_cons] at hdvd
        exact (Nat.dvd_add_left hpow).mp hdvd
      obtain ⟨k, hk⟩ := hword
      have hbit : ((1 : UInt64) <<< UInt64.ofNat shift).toNat = 2 ^ shift := by
        rw [UInt64.toNat_shiftLeft, UInt64.toNat_ofNat',
          mod_eq_of_lt (show shift < 2 ^ 64 by omega), mod_eq_of_lt hshift,
          shiftLeft_eq, UInt64.toNat_one, one_mul,
          Nat.mod_eq_of_lt (Nat.pow_lt_pow_right (by norm_num) hshift)]
      have hor : (a ||| 1 <<< UInt64.ofNat shift).toNat = a.toNat + 2 ^ shift := by
        rw [UInt64.toNat_or, hbit, hk, mul_comm, ← shiftLeft_eq,
          Nat.shiftLeft_add_eq_or_of_lt (Nat.pow_lt_pow_right (by norm_num) (Nat.lt_succ_self _))]
      rw [div_eq_of_lt hshift, mod_eq_of_lt hshift, modify_zero_cons, limbsValue_cons,
        limbsValue_cons, hor]
      ring
    · obtain ⟨rest, rfl⟩ : ∃ rest, shift = rest + 64 := ⟨shift - 64, by omega⟩
      have hpow : (2 : ℕ) ^ (rest + 64) = 2 ^ 64 * 2 ^ rest := by rw [pow_add, mul_comm]
      have hpow' : (2 : ℕ) ^ (rest + 64 + 1) = 2 ^ 64 * 2 ^ (rest + 1) := by
        rw [add_right_comm, pow_add, mul_comm]
      have hzero : a.toNat = 0 := by
        have hword : 2 ^ 64 ∣ a.toNat + 2 ^ 64 * limbsValue as := by
          rw [← limbsValue_cons]
          exact (Dvd.intro _ hpow'.symm).trans hdvd
        exact Nat.eq_zero_of_dvd_of_lt ((Nat.dvd_add_left (Dvd.intro _ rfl)).mp hword) a.toNat_lt
      have hrest : 2 ^ (rest + 1) ∣ limbsValue as := by
        rw [limbsValue_cons, hzero, zero_add, hpow'] at hdvd
        exact Nat.dvd_of_mul_dvd_mul_left (by positivity) hdvd
      have hindex' : rest / 64 < as.length := by
        rw [add_div_right _ (by norm_num), length_cons] at hindex
        exact lt_of_succ_lt_succ hindex
      rw [add_div_right _ (by norm_num), add_mod_right, modify_succ_cons,
        limbsValue_cons, limbsValue_cons, ih hindex' hrest, hpow]
      ring

lemma Uint.setBit_spec (a : Uint n) (hshift : shift < 64 * n) (hdvd : 2 ^ (shift + 1) ∣ a.value) :
    ∃ a', a.setBit shift = some a' ∧ a'.value = a.value + 2 ^ shift := by
  have hindex : shift / 64 < n := by omega
  rw [Uint.setBit, if_pos hindex]
  exact ⟨_, rfl, limbsValue_modify_or a.limbs (a.length_limbs.symm ▸ hindex) hdvd⟩

/-- A round keeps `a = ret * d + sub`, and brings the rest below the shifted divisor. -/
lemma Uint.divRound_spec {a d : ℕ} (hshift : shift < 64 * n)
    (hcopy : shiftCopy.value = d * 2 ^ shift) (hdvd : 2 ^ (shift + 1) ∣ ret.value)
    (ha : a = ret.value * d + sub.value) (hsub : sub.value < d * 2 ^ (shift + 1)) :
    ∃ ret' sub', divRound shift shiftCopy ret sub = some (ret', sub') ∧
      2 ^ shift ∣ ret'.value ∧ a = ret'.value * d + sub'.value ∧ sub'.value < d * 2 ^ shift := by
  have hlow : 2 ^ shift ∣ ret.value := (pow_dvd_pow 2 (le_succ shift)).trans hdvd
  rw [divRound, cmp_eq]
  by_cases hlt : sub.value < shiftCopy.value
  · rw [Nat.compare_eq_lt.mpr hlt, if_neg (by simp)]
    exact ⟨ret, sub, rfl, hlow, ha, hcopy ▸ hlt⟩
  · have hne : compare sub.value shiftCopy.value ≠ .lt := fun h => hlt (Nat.compare_eq_lt.mp h)
    obtain ⟨ret', hset, hret'⟩ := ret.setBit_spec hshift hdvd
    have hdiff := sub.overflowingSub_spec shiftCopy
    have hdiff' : (sub.sub shiftCopy).value + shiftCopy.value = sub.value := by
      -- the subtraction does not borrow
      have hcopyLt := (sub.overflowingSub shiftCopy).1.value_lt
      have hsmall := shiftCopy.value_lt
      cases hflag : (sub.overflowingSub shiftCopy).2 with
      | false => rwa [hflag, toNat_false, mul_zero, add_zero] at hdiff
      | true =>
        rw [hflag, toNat_true] at hdiff
        omega
    rw [if_pos hne, hset]
    refine ⟨ret', sub.sub shiftCopy, rfl, ?_, ?_, ?_⟩
    · rw [hret']
      exact dvd_add hlow dvd_rfl
    · rw [ha, hret', ← hdiff', hcopy]
      ring
    · rw [pow_succ, ← mul_assoc] at hsub
      omega

/-- The loop ends with quotient and remainder. -/
lemma Uint.divLoop_spec {a d : ℕ} (hshift : shift < 64 * n)
    (hcopy : shiftCopy.value = d * 2 ^ shift) (hdvd : 2 ^ (shift + 1) ∣ ret.value)
    (ha : a = ret.value * d + sub.value) (hsub : sub.value < d * 2 ^ (shift + 1)) :
    ∃ q r, divLoop shift shiftCopy ret sub = some (q, r) ∧
      a = q.value * d + r.value ∧ r.value < d := by
  induction shift generalizing shiftCopy ret sub with
  | zero =>
    obtain ⟨q, r, hround, -, hqr, hr⟩ := divRound_spec hshift hcopy hdvd ha hsub
    exact ⟨q, r, hround, hqr, by rwa [pow_zero, mul_one] at hr⟩
  | succ shift ih =>
    obtain ⟨ret', sub', hround, hdvd', ha', hsub'⟩ := divRound_spec hshift hcopy hdvd ha hsub
    have hhalf : (shiftCopy.shr 1).value = d * 2 ^ shift := by
      rw [shiftCopy.shr_value (by omega), hcopy, pow_one, pow_succ, ← mul_assoc,
        Nat.mul_div_cancel _ (by norm_num)]
    obtain ⟨q, r, hloop, hqr⟩ := ih (by omega) hhalf hdvd' ha' hsub'
    refine ⟨q, r, ?_, hqr⟩
    rw [divLoop, hround]
    exact hloop

lemma Uint.zero_value (n : ℕ) : (zero n).value = 0 := limbsValue_replicate_zero n

lemma Uint.divRem_spec (hb : 0 < b.value) :
    ∃ q r, a.divRem b = some (q, r) ∧ a.value = q.value * b.value + r.value ∧
      r.value < b.value := by
  have hbits : 0 < b.value.size := size_pos.mpr hb
  have hrange : a.value.size ≤ 64 * n := size_le.mpr a.value_lt
  have ha : a.value < 2 ^ a.value.size := lt_size_self _
  have hupper : b.value < 2 ^ b.value.size := lt_size_self _
  have hlower : 2 ^ (b.value.size - 1) ≤ b.value :=
    lt_size.mp (sub_lt hbits one_pos)
  rw [divRem, a.bits_eq, b.bits_eq, if_neg hbits.ne']
  by_cases hless : a.value.size < b.value.size
  · rw [if_pos hless]
    refine ⟨zero n, a, rfl, by rw [zero_value, zero_mul, zero_add], ?_⟩
    calc a.value < 2 ^ a.value.size := ha
      _ ≤ 2 ^ (b.value.size - 1) := Nat.pow_le_pow_right (by norm_num) (by omega)
      _ ≤ b.value := hlower
  · rw [if_neg hless]
    have hshift : a.value.size - b.value.size < 64 * n := by omega
    -- the divisor is aligned with the number, so that the shift loses nothing
    have hcopy : (b.shl (a.value.size - b.value.size)).value =
        b.value * 2 ^ (a.value.size - b.value.size) := by
      rw [b.shl_value hshift]
      refine mod_eq_of_lt ?_
      calc b.value * 2 ^ (a.value.size - b.value.size)
          < 2 ^ b.value.size * 2 ^ (a.value.size - b.value.size) :=
            mul_lt_mul_of_pos_right hupper (by positivity)
        _ = 2 ^ a.value.size := by rw [← pow_add]; congr 1; omega
        _ ≤ 2 ^ (64 * n) := Nat.pow_le_pow_right (by norm_num) hrange
    refine divLoop_spec hshift hcopy (by rw [zero_value]; exact dvd_zero _)
      (by rw [zero_value, zero_mul, zero_add]) ?_
    calc a.value < 2 ^ a.value.size := ha
      _ = 2 ^ (b.value.size - 1) * 2 ^ (a.value.size - b.value.size + 1) := by
          rw [← pow_add]; congr 1; omega
      _ ≤ _ := mul_le_mul_right _ hlower

/-- The division by a word leaves a rest below the word. -/
lemma divWordLoop_value {other : UInt64} (hother : 0 < other.toNat) (ds : List UInt64) :
    limbsValue ds = limbsValue (divWordLoop other ds).1 * other.toNat + (divWordLoop other ds).2 ∧
      (divWordLoop other ds).2 < other.toNat := by
  induction ds with
  | nil => exact ⟨by simp [divWordLoop, limbsValue], hother⟩
  | cons d ds ih =>
    obtain ⟨hvalue, hrem⟩ := ih
    have hd := d.toNat_lt
    have hquotient : ((divWordLoop other ds).2 * 2 ^ 64 + d.toNat) / other.toNat < 2 ^ 64 := by
      rw [div_lt_iff_lt_mul hother]
      have hle := mul_le_mul_right (2 ^ 64) (succ_le_of_lt hrem)
      rw [succ_mul, mul_comm other.toNat] at hle
      omega
    have hsplit := div_add_mod ((divWordLoop other ds).2 * 2 ^ 64 + d.toNat) other.toNat
    refine ⟨?_, mod_lt _ hother⟩
    simp only [divWordLoop, limbsValue_cons, UInt64.toNat_ofNat', mod_eq_of_lt hquotient]
    linear_combination 2 ^ 64 * hvalue - hsplit

/-- `div_rem` by a nonzero number returns quotient and remainder, `div_rem_u64` returns the same as
`div_rem` by the number of one word, and the shifts below the width multiply and divide by powers
of two, the former modulo the range. -/
theorem Uint.division_and_shifts {n : ℕ} (a b : Uint n) :
    (0 < b.value → ∃ q r, a.divRem b = some (q, r) ∧ a.value = q.value * b.value + r.value ∧
      r.value < b.value) ∧
    (∀ word : UInt64, word ≠ 0 → b.value = word.toNat →
      a.divRemU64 word = (a.divRem b).map fun qr => (qr.1, qr.2.value)) ∧
    (∀ s < 64 * n, (a.shl s).value = a.value * 2 ^ s % 2 ^ (64 * n) ∧
      (a.value * 2 ^ s < 2 ^ (64 * n) → (a.shl s).value = a.value * 2 ^ s) ∧
      (a.shr s).value = a.value / 2 ^ s) := by
  refine ⟨a.divRem_spec b, fun word hword hb => ?_, fun s hs => ?_⟩
  · have hpos : 0 < word.toNat :=
      pos_of_ne_zero fun h => hword (UInt64.toNat_inj.mp h)
    obtain ⟨q, r, hdiv, hqr, hr⟩ := a.divRem_spec b (hb ▸ hpos)
    obtain ⟨hvalue, hrem⟩ := divWordLoop_value hpos a.limbs
    rw [hb] at hqr hr
    rw [hdiv, divRemU64, if_neg hword]
    -- quotient and remainder are unique
    have hq : limbsValue (divWordLoop word a.limbs).1 = q.value := by
      have h : limbsValue a.limbs / word.toNat = a.value / word.toNat := rfl
      rw [hvalue, hqr, mul_comm, mul_add_div hpos, div_eq_of_lt hrem, mul_comm,
        mul_add_div hpos, div_eq_of_lt hr] at h
      exact h
    have hr' : (divWordLoop word a.limbs).2 = r.value := by
      have h : limbsValue a.limbs = a.value := rfl
      rw [hvalue, hqr, hq] at h
      omega
    exact congrArg some (Prod.ext (ext_value hq) hr')
  · refine ⟨a.shl_value hs, fun hfit => ?_, a.shr_value hs⟩
    rw [a.shl_value hs, mod_eq_of_lt hfit]

end LapisMonetae.Math
