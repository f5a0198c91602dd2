import LapisMonetae.MuHash.LimbTheorems
import Mathlib.Algebra.Order.BigOperators.Group.Finset
import Mathlib.Data.List.GetD
import Mathlib.Data.Nat.ModEq

/-!
# Multiplication modulo the MuHash prime

`mul` returns for all arguments, with a number that is congruent to the product. It is below the
prime, except where the first argument is one and the second argument is returned as it is.
-/

namespace LapisMonetae.Muhash

open Finset Columns Nat LittleEndian
open Option (bind_eq_some_iff)

lemma uintPrime_add : uintPrime + 1103717 = 2 ^ 3072 := by
  unfold uintPrime
  have h : 1103717 ≤ 2 ^ 3072 := le_trans (by norm_num) (Nat.pow_le_pow_right (by norm_num)
    (show 21 ≤ 3072 by norm_num))
  exact Nat.sub_add_cancel h

lemma toNat_primeDiff : primeDiff.toNat = 1103717 := rfl

lemma limbBase_pow : (2 ^ 64) ^ limbCount = 2 ^ 3072 := by
  rw [← pow_mul]
  rfl

/-- Modulo the prime, the part above 3072 bits may be multiplied by the difference instead. -/
lemma modEq_reduce (low high : ℕ) :
    low + 2 ^ 3072 * high ≡ low + 1103717 * high [MOD uintPrime] := by
  refine Nat.ModEq.add_left low (Nat.ModEq.mul_right high ?_)
  rw [← uintPrime_add]
  exact add_modEq_left

namespace U3072

variable (a b : U3072) {j : ℕ} (carryLow carryHigh : UInt64) (x : U3072)

/-! ## Values -/

lemma toNat_eq_limbsValue : a.toNat = limbsValue a.limbs := rfl

lemma toNat_lt : a.toNat < 2 ^ 3072 := by
  have h := limbsValue_lt a.limbs
  rwa [a.length_limbs, limbBase_pow] at h

lemma toNat_inj {a b : U3072} (h : a.toNat = b.toNat) : a = b := by
  obtain ⟨l, hl⟩ := a
  obtain ⟨l', hl'⟩ := b
  obtain rfl := limbsValue_inj (hl.trans hl'.symm) h
  rfl

lemma toNat_eq_sum : a.toNat = ∑ i ∈ range limbCount, (a.limb i).toNat * (2 ^ 64) ^ i := by
  unfold toNat
  rw [ofDigits_eq_sum, List.length_map, a.length_limbs]
  refine sum_congr rfl fun i _ => ?_
  have hget : (a.limbs.map UInt64.toNat).getD i 0 = (a.limbs.getD i 0).toNat :=
    List.getD_map a.limbs 0 UInt64.toNat
  rw [hget]
  rfl

lemma toNat_one : one.toNat = 1 := by decide +kernel

lemma toNat_zero : zero.toNat = 0 := by decide +kernel

/-! ## Columns -/

/-- The limbs as numbers. -/
def digits (i : ℕ) : ℕ := (a.limb i).toNat

lemma digits_mul_le (i j : ℕ) : a.digits i * b.digits j ≤ 2 ^ 128 := by
  have h := mul_toNat_le (a.limb i) (b.limb j)
  exact h.trans (by norm_num)

lemma low_le (hj : j < limbCount) : low a.digits b.digits j ≤ 48 * 2 ^ 128 := by
  have h := sum_le_card_nsmul (range (j + 1)) (fun i => a.digits i * b.digits (j - i)) (2 ^ 128)
    fun i _ => digits_mul_le a b i (j - i)
  rw [card_range, nsmul_eq_mul, cast_id] at h
  exact h.trans (mul_le_mul_right _ hj)

lemma high_le (j : ℕ) : high a.digits b.digits limbCount j ≤ 48 * 2 ^ 128 := by
  have h := sum_le_card_nsmul (Ico (j + 1) limbCount)
    (fun i => a.digits i * b.digits (limbCount + j - i)) (2 ^ 128)
    fun i _ => digits_mul_le a b i (limbCount + j - i)
  rw [card_Ico, nsmul_eq_mul, cast_id] at h
  exact h.trans (mul_le_mul_right _ (sub_le _ _))

/-- The loops over products add their sum to the accumulator, which has room for it. -/
lemma addProducts_spec (column : ℕ) (indices : List ℕ) : ∀ acc,
    accValue acc + (indices.map fun i => a.digits i * b.digits (column - i)).sum < 2 ^ 192 →
    ∃ acc', a.addProducts b column indices acc = some acc' ∧ accValue acc' =
      accValue acc + (indices.map fun i => a.digits i * b.digits (column - i)).sum := by
  induction indices with
  | nil => exact fun acc _ => ⟨acc, rfl, rfl⟩
  | cons i indices ih =>
    intro acc h
    rw [List.map_cons, List.sum_cons] at h ⊢
    obtain ⟨acc₁, hstep, hvalue⟩ : ∃ acc₁, muladd3 (a.limb i) (b.limb (column - i)) acc = some acc₁ ∧
        accValue acc₁ = accValue acc + a.digits i * b.digits (column - i) :=
      muladd3_spec _ _ acc (show _ + a.digits i * b.digits (column - i) < _ by omega)
    obtain ⟨acc', hrest, hvalue'⟩ := ih acc₁ (by rw [hvalue]; omega)
    refine ⟨acc', ?_, by rw [hvalue', hvalue]; omega⟩
    rw [addProducts, List.foldlM_cons, hstep]
    exact hrest

/-- What the loop over an upper column adds up. -/
lemma highColumn_sum (hj : j + 1 < limbCount) :
    accValue ((mulWide (a.limb (j + 1)) (b.limb (limbCount + j - (1 + j)))).1,
        (mulWide (a.limb (j + 1)) (b.limb (limbCount + j - (1 + j)))).2, 0) +
      ((List.range' (2 + j) (limbCount - (2 + j))).map fun i =>
        a.digits i * b.digits (limbCount + j - i)).sum = high a.digits b.digits limbCount j := by
  have hwide := toNat_mulWide (a.limb (j + 1)) (b.limb (limbCount + j - (1 + j)))
  have hindex : limbCount + j - (1 + j) = limbCount + j - (j + 1) := by omega
  have hsum : ((List.range' (2 + j) (limbCount - (2 + j))).map fun i =>
      a.digits i * b.digits (limbCount + j - i)).sum =
      ∑ i ∈ Ico (j + 1 + 1) limbCount, a.digits i * b.digits (limbCount + j - i) := by
    rw [← List.sum_toFinset _ (List.nodup_range' ..), List.toFinset_range'_1]
    congr 1
    congr 1 <;> omega
  have hhigh : high a.digits b.digits limbCount j = a.digits (j + 1) *
      b.digits (limbCount + j - (j + 1)) +
        ∑ i ∈ Ico (j + 1 + 1) limbCount, a.digits i * b.digits (limbCount + j - i) :=
    sum_eq_sum_Ico_succ_bot hj _
  rw [hsum, hhigh]
  unfold accValue
  rw [hindex] at hwide ⊢
  simp only [UInt64.toNat_zero]
  exact congrArg (· + _) hwide

lemma sum_range_eq_low (j : ℕ) :
    ((List.range (j + 1)).map fun i => a.digits i * b.digits (j - i)).sum =
      low a.digits b.digits j := by
  rw [← List.sum_toFinset _ List.nodup_range, List.toFinset_range]
  rfl

/-- A column with the reduction of the upper one. -/
def reducedColumn (j : ℕ) : ℕ :=
  high a.digits b.digits limbCount j * 1103717 + low a.digits b.digits j

/-- One column with its reduction, before and after the shift. -/
lemma mulColumn_spec (tmp : List UInt64) (highest : UInt64) (hj : j + 1 < limbCount) :
    ∃ acc, a.mulColumn b (tmp, carryLow, carryHigh, highest) j =
        some (tmp ++ [acc.1], acc.2.1, acc.2.2, 0) ∧
      accValue acc = carryLow.toNat + 2 ^ 64 * carryHigh.toNat + a.reducedColumn b j := by
  have hlow := low_le a b (show j < limbCount by omega)
  have hhigh := high_le a b j
  have hl := carryLow.toNat_lt
  have hh := carryHigh.toNat_lt
  have hsum := highColumn_sum a b hj
  obtain ⟨upper, hupper, hvalue⟩ := addProducts_spec a b _ _ _ (by rw [hsum]; omega)
  rw [hsum] at hvalue
  obtain ⟨reduced, hreduced, hvalue'⟩ := mulnadd3_spec carryLow carryHigh primeDiff upper (by
    rw [hvalue, toNat_primeDiff]
    omega)
  rw [hvalue, toNat_primeDiff] at hvalue'
  have hlowSum := sum_range_eq_low a b j
  obtain ⟨acc, hacc, hvalue''⟩ := addProducts_spec a b j (List.range (j + 1)) reduced (by
    rw [hvalue', hlowSum]
    omega)
  refine ⟨acc, bind_eq_some_iff.mpr ⟨_, hupper, bind_eq_some_iff.mpr ⟨_, hreduced,
    bind_eq_some_iff.mpr ⟨_, hacc, rfl⟩⟩⟩, ?_⟩
  rw [hvalue'', hvalue', hlowSum, add_assoc]
  rfl

/-- The lower columns with one reduction: the limbs and the carry are their sum. -/
lemma mulColumns_spec {n : ℕ} (hn : n < limbCount) : ∃ tmp carryLow carryHigh,
    (List.range n).foldlM (a.mulColumn b) ([], 0, 0, 0) = some (tmp, carryLow, carryHigh, 0) ∧
    tmp.length = n ∧
    limbsValue tmp + (2 ^ 64) ^ n * (carryLow.toNat + 2 ^ 64 * carryHigh.toNat) =
      ∑ j ∈ range n, a.reducedColumn b j * (2 ^ 64) ^ j := by
  induction n with
  | zero => exact ⟨[], 0, 0, rfl, rfl, rfl⟩
  | succ n ih =>
    obtain ⟨tmp, carryLow, carryHigh, heval, hlength, hvalue⟩ := ih (by omega)
    obtain ⟨acc, hround, hacc⟩ := mulColumn_spec a b carryLow carryHigh tmp 0 hn
    refine ⟨tmp ++ [acc.1], acc.2.1, acc.2.2, ?_, by rw [List.length_append, hlength]; rfl, ?_⟩
    · rw [List.range_succ, List.foldlM_append]
      exact bind_eq_some_iff.mpr ⟨_, heval, bind_eq_some_iff.mpr ⟨_, hround, rfl⟩⟩
    rw [limbsValue_append, hlength, sum_range_succ, ← hvalue]
    have hsingle : limbsValue [acc.1] = acc.1.toNat := ofDigits_singleton
    unfold accValue at hacc
    calc limbsValue tmp + (2 ^ 64) ^ n * limbsValue [acc.1] +
          (2 ^ 64) ^ (n + 1) * (acc.2.1.toNat + 2 ^ 64 * acc.2.2.toNat)
        = limbsValue tmp + (2 ^ 64) ^ n *
            (acc.1.toNat + 2 ^ 64 * acc.2.1.toNat + 2 ^ 128 * acc.2.2.toNat) := by
          rw [hsingle]
          ring
      _ = _ := by
          rw [hacc]
          ring

/-- The product by columns, where the upper half is multiplied by the difference. -/
def columnSum : ℕ :=
  (∑ j ∈ range (limbCount - 1), a.reducedColumn b j * (2 ^ 64) ^ j) +
    (2 ^ 64) ^ (limbCount - 1) * low a.digits b.digits (limbCount - 1)

lemma modEq_columns : a.columnSum b ≡ a.toNat * b.toNat [MOD uintPrime] := by
  have hproduct : a.toNat * b.toNat =
      (∑ j ∈ range limbCount, low a.digits b.digits j * (2 ^ 64) ^ j) +
        2 ^ 3072 * ∑ j ∈ range limbCount, high a.digits b.digits limbCount j * (2 ^ 64) ^ j := by
    rw [toNat_eq_sum, toNat_eq_sum, ← limbBase_pow]
    exact Columns.mul_eq a.digits b.digits (2 ^ 64) limbCount
  -- the last upper column is empty
  have hempty : high a.digits b.digits limbCount (limbCount - 1) = 0 := rfl
  have hsplit : (∑ j ∈ range limbCount, low a.digits b.digits j * (2 ^ 64) ^ j) +
      1103717 * ∑ j ∈ range limbCount, high a.digits b.digits limbCount j * (2 ^ 64) ^ j =
      a.columnSum b := by
    have hcount : limbCount = limbCount - 1 + 1 := rfl
    unfold columnSum
    rw [hcount, sum_range_succ, sum_range_succ, ← hcount, hempty, zero_mul, add_zero, mul_sum]
    have hterms : ∀ j ∈ range (limbCount - 1), a.reducedColumn b j * (2 ^ 64) ^ j =
        low a.digits b.digits j * (2 ^ 64) ^ j +
          1103717 * (high a.digits b.digits limbCount j * (2 ^ 64) ^ j) := by
      intro j _
      unfold reducedColumn
      ring
    rw [sum_congr rfl hterms, sum_add_distrib]
    ring
  rw [← hsplit, hproduct]
  exact (modEq_reduce _ _).symm

/-- The last column: its accumulator, and the bound on what is left over. -/
lemma lastColumn_spec : ∃ acc, a.addProducts b (limbCount - 1) (List.range limbCount)
      (carryLow, carryHigh, 0) = some acc ∧
    accValue acc =
      carryLow.toNat + 2 ^ 64 * carryHigh.toNat + low a.digits b.digits (limbCount - 1) ∧
    accValue acc < 49 * 2 ^ 128 := by
  have hlow := low_le a b (show limbCount - 1 < limbCount by decide)
  have hsum : ((List.range limbCount).map fun i => a.digits i * b.digits (limbCount - 1 - i)).sum =
      low a.digits b.digits (limbCount - 1) := sum_range_eq_low a b (limbCount - 1)
  have hl := carryLow.toNat_lt
  have hh := carryHigh.toNat_lt
  have hstart : accValue (carryLow, carryHigh, 0) = carryLow.toNat + 2 ^ 64 * carryHigh.toNat := rfl
  obtain ⟨acc, heval, hvalue⟩ := addProducts_spec a b (limbCount - 1) (List.range limbCount)
    (carryLow, carryHigh, 0) (by rw [hstart, hsum]; omega)
  rw [hstart, hsum] at hvalue
  exact ⟨acc, heval, hvalue, by omega⟩

/-- An addition to a reduced number carries at most once, and leaves less than was added. -/
lemma carry_le_one {value carry big reduced added : ℕ} (h : value + big * carry = reduced + added)
    (hreduced : reduced < big) (hadded : added ≤ big) :
    carry ≤ 1 ∧ (carry = 1 → value < added) := by
  have hle : carry ≤ 1 := by
    by_contra hgt
    have hmul : big * 2 ≤ big * carry := mul_le_mul_left big (by omega)
    omega
  refine ⟨hle, fun hone => ?_⟩
  rw [hone, mul_one] at h
  omega

/-- The second reduction: at most one carry is left, and then the limbs are small. -/
lemma secondReduction {tmp : List UInt64} (hlength : tmp.length = limbCount) {c0 c1 : UInt64}
    {r : UInt64 × UInt64}
    (hr : r.1.toNat + 2 ^ 64 * r.2.toNat = (c0.toNat + 2 ^ 64 * c1.toNat) * 1103717)
    (hcarry : (c0.toNat + 2 ^ 64 * c1.toNat) * 1103717 < 2 ^ 128) :
    ∃ limbs low, addLimbs tmp r = (limbs, low, 0) ∧ limbs.length = limbCount ∧
      (low = 0 ∨ low = 1 ∧ limbsValue limbs < 2 ^ 128) ∧
      limbsValue limbs + 1103717 * low.toNat ≡
        limbsValue tmp + 2 ^ 3072 * (c0.toNat + 2 ^ 64 * c1.toNat) [MOD uintPrime] := by
  have hadd := limbsValue_addLimbs tmp r.1 r.2
  rw [hlength, limbBase_pow, hr] at hadd
  have htmp := limbsValue_lt tmp
  rw [hlength, limbBase_pow] at htmp
  have hbig : 2 ^ 128 ≤ 2 ^ 3072 := Nat.pow_le_pow_right (by norm_num) (by norm_num)
  have hlimbs := length_addLimbs tmp r
  obtain ⟨⟨limbs, low, high⟩, hsum⟩ : ∃ sum, addLimbs tmp r = sum := ⟨_, rfl⟩
  have hsum' : addLimbs tmp (r.1, r.2) = (limbs, low, high) := hsum
  rw [hsum'] at hadd
  rw [hsum] at hlimbs ⊢
  obtain ⟨hcarry', hsmall⟩ : low.toNat + 2 ^ 64 * high.toNat ≤ 1 ∧
      (low.toNat + 2 ^ 64 * high.toNat = 1 →
        limbsValue limbs < (c0.toNat + 2 ^ 64 * c1.toNat) * 1103717) :=
    carry_le_one hadd htmp (hcarry.le.trans hbig)
  have hhigh : high = 0 := by
    apply UInt64.toNat_inj.mp
    rw [UInt64.toNat_zero]
    omega
  subst hhigh
  have hzero : (0 : UInt64).toNat = 0 := rfl
  rw [hzero, mul_zero, add_zero] at hadd hcarry' hsmall
  refine ⟨limbs, low, rfl, hlimbs.trans hlength, ?_, ?_⟩
  · rcases le_one_iff_eq_zero_or_eq_one.mp hcarry' with h | h
    · exact Or.inl (UInt64.toNat_inj.mp h)
    · exact Or.inr ⟨UInt64.toNat_inj.mp h, (hsmall h).trans hcarry⟩
  · calc limbsValue limbs + 1103717 * low.toNat
        ≡ limbsValue limbs + 2 ^ 3072 * low.toNat [MOD uintPrime] := (modEq_reduce _ _).symm
      _ ≡ limbsValue tmp + 1103717 * (c0.toNat + 2 ^ 64 * c1.toNat) [MOD uintPrime] := by
          rw [hadd, mul_comm 1103717]
      _ ≡ limbsValue tmp + 2 ^ 3072 * (c0.toNat + 2 ^ 64 * c1.toNat) [MOD uintPrime] :=
          (modEq_reduce _ _).symm

/-- The two loops of `mul` pass their assertions without an overflow, and what they return is
congruent to the product. -/
lemma mulLimbs_spec : ∃ c carry, a.mulLimbs b = some (U3072.limbs c, carry) ∧
    (carry = 0 ∨ carry = 1 ∧ c.toNat < 2 ^ 128) ∧
    c.toNat + 1103717 * carry.toNat ≡ a.toNat * b.toNat [MOD uintPrime] := by
  obtain ⟨tmp, carryLow, carryHigh, hcolumns, hlength, hvalue⟩ :=
    mulColumns_spec a b (show limbCount - 1 < limbCount by decide)
  obtain ⟨⟨limb, c0, c1⟩, hlast, hacc, hlt⟩ := lastColumn_spec a b carryLow carryHigh
  unfold accValue at hacc hlt
  dsimp only at hacc hlt
  have htmpLength : (tmp ++ [limb]).length = limbCount := by
    rw [List.length_append, hlength]
    rfl
  have hfits : (c0.toNat + 2 ^ 64 * c1.toNat) * 1103717 < 2 ^ 128 := by omega
  obtain ⟨r, hmuln2, hr⟩ := muln2_spec c0 c1 primeDiff hfits
  obtain ⟨limbs, carry, hsum, hlimbs, hcarry, hmod⟩ := secondReduction htmpLength hr hfits
  refine ⟨⟨limbs, hlimbs⟩, carry, ?_, hcarry, ?_⟩
  · refine bind_eq_some_iff.mpr ⟨_, hcolumns, bind_eq_some_iff.mpr ⟨(), rfl, ?_⟩⟩
    refine bind_eq_some_iff.mpr ⟨_, hlast, bind_eq_some_iff.mpr ⟨_, hmuln2, ?_⟩⟩
    dsimp only
    rw [hsum]
    exact bind_eq_some_iff.mpr ⟨(), rfl, bind_eq_some_iff.mpr
      ⟨(), if_pos (hcarry.imp_right And.left), rfl⟩⟩
  -- the limbs and the last accumulator hold all columns
  have hcolumns : limbsValue (tmp ++ [limb]) + 2 ^ 3072 * (c0.toNat + 2 ^ 64 * c1.toNat) =
      a.columnSum b := by
    have hsingle : limbsValue [limb] = limb.toNat := ofDigits_singleton
    have hpow : (2 : ℕ) ^ 3072 = (2 ^ 64) ^ (limbCount - 1) * 2 ^ 64 := by
      rw [← limbBase_pow, ← pow_succ]
      rfl
    rw [columnSum, ← hvalue, limbsValue_append, hlength, hsingle, hpow]
    generalize (2 ^ 64) ^ (limbCount - 1) = scale
    calc limbsValue tmp + scale * limb.toNat + scale * 2 ^ 64 * (c0.toNat + 2 ^ 64 * c1.toNat)
        = limbsValue tmp + scale * (limb.toNat + 2 ^ 64 * c0.toNat + 2 ^ 128 * c1.toNat) := by ring
      _ = _ := by
          rw [hacc]
          ring
  rw [hcolumns] at hmod
  exact hmod.trans (modEq_columns a b)

/-! ## The last reductions -/

lemma isOverflow_iff : x.isOverflow ↔ uintPrime ≤ x.toNat := by
  obtain ⟨limb, limbs, hlimbs⟩ : ∃ limb limbs, x.limbs = limb :: limbs :=
    List.exists_cons_of_length_eq_add_one (n := limbCount - 1) x.length_limbs
  have hlength : limbs.length = limbCount - 1 := by
    have h := x.length_limbs
    rw [hlimbs] at h
    exact succ.inj h
  have hmax := limbsValue_eq_max_iff limbs
  have htail := limbsValue_lt limbs
  have hlt := limb.toNat_lt
  have hvalue : x.toNat = limb.toNat + 2 ^ 64 * limbsValue limbs := by
    rw [toNat_eq_limbsValue, hlimbs, limbsValue_cons]
  have hprime : uintPrime + 1103717 = 2 ^ 64 * (2 ^ 64) ^ (limbCount - 1) := by
    rw [uintPrime_add, ← limbBase_pow, ← pow_succ']
    rfl
  have hfirst : limb ≤ UInt64.ofNat (2 ^ 64 - 1) - primeDiff ↔ limb.toNat ≤ 2 ^ 64 - 1 - 1103717 :=
    UInt64.le_iff_toNat_le
  rw [hlength] at hmax htail
  have hall : limbs.all (fun limb => limb == UInt64.ofNat (2 ^ 64 - 1)) ↔
      limbsValue limbs + 1 = (2 ^ 64) ^ (limbCount - 1) := by
    rw [hmax, List.all_eq_true]
    simp only [beq_iff_eq]
  unfold isOverflow U3072.limb
  rw [hlimbs, hvalue]
  show (if limb ≤ _ then false else limbs.all _) = true ↔ _
  generalize (2 ^ 64) ^ (limbCount - 1) = scale at hprime htail hall
  by_cases hsmall : limb ≤ UInt64.ofNat (2 ^ 64 - 1) - primeDiff
  · rw [if_pos hsmall]
    rw [hfirst] at hsmall
    simp only [Bool.false_eq_true, false_iff, not_le]
    omega
  · rw [if_neg hsmall, hall]
    rw [hfirst] at hsmall
    omega

lemma toNat_fullReduce : x.fullReduce.toNat = (x.toNat + 1103717) % 2 ^ 3072 := by
  have hadd := limbsValue_addLimbs x.limbs primeDiff 0
  rw [x.length_limbs, limbBase_pow, ← toNat_eq_limbsValue, toNat_primeDiff, UInt64.toNat_zero,
    mul_zero, add_zero] at hadd
  have hvalue : x.fullReduce.toNat = limbsValue (addLimbs x.limbs (primeDiff, 0)).1 :=
    toNat_eq_limbsValue _
  rw [← hadd, add_mul_mod_self_left, ← hvalue, mod_eq_of_lt (toNat_lt _)]

/-- One subtraction of the prime. -/
lemma toNat_fullReduce_of_isOverflow {x : U3072} (h : uintPrime ≤ x.toNat) :
    x.fullReduce.toNat = x.toNat - uintPrime ∧ x.fullReduce.toNat < 1103717 := by
  have hlt := toNat_lt x
  have hprime := uintPrime_add
  rw [toNat_fullReduce]
  generalize (2 : ℕ) ^ 3072 = big at hlt hprime
  have hmod : (x.toNat + 1103717) % big = x.toNat - uintPrime := by
    rw [show x.toNat + 1103717 = x.toNat - uintPrime + big by omega, add_mod_right]
    exact mod_eq_of_lt (by omega)
  rw [hmod]
  omega

/-- The reductions after the loops give the remainder. -/
lemma lastReductions {c : U3072} {carry : UInt64}
    (hcarry : carry = 0 ∨ carry = 1 ∧ c.toNat < 2 ^ 128) :
    (if carry ≠ 0 then (if c.isOverflow then c.fullReduce else c).fullReduce
      else if c.isOverflow then c.fullReduce else c).toNat =
      (c.toNat + 1103717 * carry.toNat) % uintPrime := by
  have hprime := uintPrime_add
  have hbig : 2 ^ 129 ≤ 2 ^ 3072 := Nat.pow_le_pow_right (by norm_num) (by norm_num)
  rcases hcarry with rfl | ⟨rfl, hsmall⟩
  · rw [if_neg (not_not_intro rfl), UInt64.toNat_zero, mul_zero, add_zero]
    by_cases hover : uintPrime ≤ c.toNat
    · obtain ⟨hvalue, hlt⟩ := toNat_fullReduce_of_isOverflow hover
      rw [if_pos ((isOverflow_iff c).mpr hover), hvalue, mod_eq_sub_mod hover,
        mod_eq_of_lt (by omega)]
    · rw [if_neg (hover ∘ (isOverflow_iff c).mp), mod_eq_of_lt (by omega)]
  · -- after a carry the limbs are far below the prime
    have hone : (1 : UInt64).toNat = 1 := rfl
    have hover : ¬uintPrime ≤ c.toNat := by omega
    rw [if_pos (show (1 : UInt64) ≠ 0 by decide), if_neg (hover ∘ (isOverflow_iff c).mp),
      toNat_fullReduce, hone, mul_one, mod_eq_of_lt (by omega), mod_eq_of_lt (by omega)]

/-- `mul` never panics. It returns the remainder of the product, except that a multiplication of
one returns the other factor as it is. -/
lemma mul_spec : ∃ c, a.mul b = some c ∧ (a = one → c = b) ∧
    (a ≠ one → c.toNat = a.toNat * b.toNat % uintPrime) := by
  by_cases hone : a = one
  · exact ⟨b, if_pos hone, fun _ => rfl, fun h => absurd hone h⟩
  · obtain ⟨c, carry, heval, hcarry, hmod⟩ := mulLimbs_spec a b
    refine ⟨_, ?_, fun h => absurd h hone, fun _ => (lastReductions hcarry).trans hmod⟩
    rw [mul, if_neg hone, heval]
    exact dif_pos c.length_limbs

lemma toNat_mul_modEq {c : U3072} (h : a.mul b = some c) :
    c.toNat ≡ a.toNat * b.toNat [MOD uintPrime] := by
  obtain ⟨c', heval, hone, hother⟩ := mul_spec a b
  obtain rfl : c' = c := Option.some.inj (heval.symm.trans h)
  by_cases ha : a = one
  · rw [hone ha, ha, toNat_one, one_mul]
  · rw [hother ha]
    exact mod_modEq _ _

/-- A full reduction of a number that is not yet reduced. -/
lemma fullReduce_of_le {x : U3072} (h : uintPrime ≤ x.toNat) :
    x.fullReduce.toNat = x.toNat % uintPrime ∧ x.fullReduce.toNat < uintPrime := by
  have hprime := uintPrime_add
  have hbig : 2 ^ 129 ≤ 2 ^ 3072 := Nat.pow_le_pow_right (by norm_num) (by norm_num)
  obtain ⟨hvalue, hlt⟩ := toNat_fullReduce_of_isOverflow h
  refine ⟨?_, by omega⟩
  rw [hvalue, mod_eq_sub_mod h, mod_eq_of_lt (by omega)]

/-- The multiplication returns for all arguments, without an overflow and with all its assertions
passed. A full reduction gives the remainder exactly for the numbers that are not yet reduced: it
subtracts the prime without a comparison. -/
theorem mul_fullReduce : (∃ c, a.mul b = some c ∧ c.toNat < 2 ^ 3072 ∧
      c.toNat ≡ a.toNat * b.toNat [MOD uintPrime]) ∧
    ∀ x : U3072, (x.fullReduce.toNat = x.toNat % uintPrime ↔ uintPrime ≤ x.toNat) ∧
      (uintPrime ≤ x.toNat → x.fullReduce.toNat < uintPrime) := by
  refine ⟨?_, fun x => ⟨⟨fun h => ?_, fun h => (fullReduce_of_le h).1⟩,
    fun h => (fullReduce_of_le h).2⟩⟩
  · obtain ⟨c, heval, -⟩ := mul_spec a b
    exact ⟨c, heval, toNat_lt c, toNat_mul_modEq a b heval⟩
  · by_contra hlt
    have hprime := uintPrime_add
    rw [toNat_fullReduce, mod_eq_of_lt (show x.toNat < uintPrime by omega),
      mod_eq_of_lt (by omega)] at h
    omega

theorem fullReduce_zero : zero.fullReduce.toNat ≠ zero.toNat % uintPrime := by
  rw [toNat_fullReduce, toNat_zero, zero_mod, zero_add, mod_eq_of_lt]
  · norm_num
  · exact lt_of_lt_of_le (by norm_num) (Nat.pow_le_pow_right (by norm_num)
      (show 21 ≤ 3072 by norm_num))

/-! ## Bytes -/

lemma fromLeBytes_flatMap (limbs : List UInt64) :
    LittleEndian.fromLeBytes (limbs.flatMap fun limb => LittleEndian.toLeBytes 8 limb.toNat) =
      limbsValue limbs := by
  induction limbs with
  | nil => rfl
  | cons limb limbs ih =>
    have hlimb : limb.toNat < 256 ^ 8 := limb.toNat_lt
    rw [List.flatMap_cons, fromLeBytes_append, fromLeBytes_toLeBytes hlimb,
      length_toLeBytes, ih, limbsValue_cons]
    norm_num

lemma fromLeBytes_toLeBytes : LittleEndian.fromLeBytes x.toLeBytes.1 = x.toNat :=
  fromLeBytes_flatMap x.limbs

lemma fromLeBytes_of_toLeBytes : fromLeBytes x.toLeBytes = x := by
  have hlimbs : (fromLeBytes x.toLeBytes).limbs = x.limbs := by
    apply List.ext_getElem
    · rw [U3072.length_limbs, U3072.length_limbs]
    · intro i _ hi
      have hchunk := LittleEndian.take_drop_flatMap
        (fun limb : UInt64 => LittleEndian.toLeBytes 8 limb.toNat)
        (fun limb => length_toLeBytes 8 limb.toNat) hi
      have hlimb : (x.limbs[i]).toNat < 256 ^ 8 := UInt64.toNat_lt _
      simp only [fromLeBytes, toLeBytes, List.getElem_map, List.getElem_range]
      rw [hchunk, LittleEndian.fromLeBytes_toLeBytes hlimb, UInt64.ofNat_toNat]
  exact toNat_inj (by rw [toNat_eq_limbsValue, toNat_eq_limbsValue, hlimbs])

end U3072

end LapisMonetae.Muhash
