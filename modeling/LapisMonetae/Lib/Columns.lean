import Mathlib.Algebra.BigOperators.Intervals
import Mathlib.Algebra.BigOperators.Ring.Finset
import Mathlib.Data.Nat.Digits.Defs
import Mathlib.Tactic.Ring

/-!
# Products by columns

The product of two numbers with `n` digits, as the sum of the products of digits that meet in a
column, and digits as the terms of a sum.
-/

namespace Columns

open Finset

/-- The products that meet in column `j` of the lower half. -/
def low (a b : ℕ → ℕ) (j : ℕ) : ℕ := ∑ i ∈ range (j + 1), a i * b (j - i)

/-- The products that meet in column `j` of the upper half, for `n` digits. -/
def high (a b : ℕ → ℕ) (n j : ℕ) : ℕ := ∑ i ∈ Ico (j + 1) n, a i * b (n + j - i)

/-- One row of the product, split at the column `n`. -/
lemma row_eq (a b : ℕ → ℕ) (base : ℕ) {i n : ℕ} (hi : i ≤ n) :
    ∑ k ∈ range n, a i * base ^ i * (b k * base ^ k) =
      (∑ j ∈ Ico i n, a i * b (j - i) * base ^ j) +
        ∑ j ∈ Ico 0 i, a i * b (n + j - i) * base ^ (n + j) := by
  have hsplit : ∑ k ∈ range n, a i * base ^ i * (b k * base ^ k) =
      (∑ k ∈ Ico 0 (n - i), a i * base ^ i * (b k * base ^ k)) +
        ∑ k ∈ Ico (n - i) n, a i * base ^ i * (b k * base ^ k) := by
    rw [range_eq_Ico]
    exact (sum_Ico_consecutive _ (Nat.zero_le _) (Nat.sub_le _ _)).symm
  rw [hsplit, sum_Ico_eq_sum_range _ i n, sum_Ico_eq_sum_range _ (n - i) n, ← range_eq_Ico,
    ← range_eq_Ico]
  have hlen : n - (n - i) = i := by omega
  rw [hlen]
  congr 1
  · refine sum_congr rfl fun k _ => ?_
    rw [Nat.add_sub_cancel_left, pow_add]
    ring
  · refine sum_congr rfl fun k _ => ?_
    have hindex : n + k - i = n - i + k := by omega
    have hpow : base ^ (n + k) = base ^ i * base ^ (n - i + k) := by
      rw [← pow_add]
      congr 1
      omega
    rw [hindex, hpow]
    ring

lemma mul_eq (a b : ℕ → ℕ) (base n : ℕ) :
    (∑ i ∈ range n, a i * base ^ i) * (∑ i ∈ range n, b i * base ^ i) =
      (∑ j ∈ range n, low a b j * base ^ j) +
        base ^ n * ∑ j ∈ range n, high a b n j * base ^ j := by
  have hlow : ∑ i ∈ Ico 0 n, ∑ j ∈ Ico i n, a i * b (j - i) * base ^ j =
      ∑ j ∈ range n, low a b j * base ^ j := by
    rw [sum_Ico_Ico_comm, ← range_eq_Ico]
    refine sum_congr rfl fun j _ => ?_
    rw [low, sum_mul, range_eq_Ico]
  have hhigh : ∑ i ∈ Ico 0 n, ∑ j ∈ Ico 0 i, a i * b (n + j - i) * base ^ (n + j) =
      base ^ n * ∑ j ∈ range n, high a b n j * base ^ j := by
    rw [← sum_Ico_Ico_comm' 0 n fun j i => a i * b (n + j - i) * base ^ (n + j), ← range_eq_Ico,
      mul_sum]
    refine sum_congr rfl fun j _ => ?_
    rw [high, sum_mul, mul_sum]
    refine sum_congr rfl fun i _ => ?_
    rw [pow_add]
    ring
  rw [sum_mul_sum, ← hlow, ← hhigh, ← sum_add_distrib, ← range_eq_Ico]
  refine sum_congr rfl fun i hi => ?_
  exact row_eq a b base (mem_range.mp hi).le

lemma ofDigits_eq_sum (base : ℕ) (l : List ℕ) :
    Nat.ofDigits base l = ∑ i ∈ range l.length, l.getD i 0 * base ^ i := by
  induction l with
  | nil => rfl
  | cons d l ih =>
    rw [Nat.ofDigits_cons, ih, List.length_cons, sum_range_succ', mul_sum]
    simp only [List.getD_cons_zero, List.getD_cons_succ, pow_zero, mul_one]
    rw [add_comm]
    congr 1
    refine sum_congr rfl fun i _ => ?_
    rw [pow_succ]
    ring

end Columns
