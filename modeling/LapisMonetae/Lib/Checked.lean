import Mathlib.Algebra.BigOperators.Group.List.Basic
import Mathlib.Algebra.Ring.Nat
import Mathlib.Data.Nat.Notation

/-!
# Checked integers

Operations on unsigned and signed 64-bit integers, as functions on numbers. A checked operation has
no result where it is out of range; a saturating one then has the greatest number.
-/

namespace LapisMonetae

open List Option

/-- `u64::MAX`. -/
def u64Max : ℕ := 2 ^ 64 - 1

/-- `a + b` on `u64`. -/
def checkedAdd (a b : ℕ) : Option ℕ := if a + b ≤ u64Max then some (a + b) else none

/-- `a - b` on `u64`. -/
def checkedSub (a b : ℕ) : Option ℕ := if b ≤ a then some (a - b) else none

/-- `a * b` on `u64`. -/
def checkedMul (a b : ℕ) : Option ℕ := if a * b ≤ u64Max then some (a * b) else none

/-- `a / b` on `u64`. -/
def checkedDiv (a b : ℕ) : Option ℕ := if b = 0 then none else some (a / b)

def saturatingAdd (a b : ℕ) : ℕ := min (a + b) u64Max

def saturatingMul (a b : ℕ) : ℕ := min (a * b) u64Max

/-- A number of type `i64`, if it is in range. -/
def checkedI64 (n : ℤ) : Option ℤ := if -2 ^ 63 ≤ n ∧ n < 2 ^ 63 then some n else none

/-- A number of type `i32`, if it is in range. -/
def checkedI32 (n : ℤ) : Option ℤ := if -2 ^ 31 ≤ n ∧ n < 2 ^ 31 then some n else none

variable {a b c : ℕ}

lemma checkedAdd_eq_some : checkedAdd a b = some c ↔ a + b ≤ u64Max ∧ a + b = c := by
  simp only [checkedAdd, ite_none_right_eq_some, some.injEq]

lemma checkedSub_eq_some : checkedSub a b = some c ↔ b ≤ a ∧ a - b = c := by
  simp only [checkedSub, ite_none_right_eq_some, some.injEq]

lemma checkedDiv_eq_some : checkedDiv a b = some c ↔ b ≠ 0 ∧ a / b = c := by
  simp only [checkedDiv, ite_none_left_eq_some, some.injEq, ne_eq]

/-- A loop that adds up gives up if and only if an item has no number or the sum is out of range. -/
lemma foldlM_checkedAdd {α : Type} (f : α → Option ℕ) (items : List α) (total : ℕ)
    (htotal : total ≤ u64Max) :
    items.foldlM (fun total item => (f item).bind (checkedAdd total)) total =
      if (∀ item ∈ items, (f item).isSome) ∧
          total + (items.map fun item => (f item).getD 0).sum ≤ u64Max then
        some (total + (items.map fun item => (f item).getD 0).sum)
      else none := by
  induction items generalizing total with
  | nil => simp [htotal]
  | cons item items ih =>
    rw [foldlM_cons]
    cases hitem : f item with
    | none => simp [hitem]
    | some n =>
      by_cases h : total + n ≤ u64Max
      · simp only [bind_some, checkedAdd, h, if_true, bind_eq_bind]
        refine (ih _ h).trans ?_
        simp only [forall_mem_cons, hitem, isSome_some, true_and, map_cons,
          sum_cons, getD_some, ← Nat.add_assoc]
      · have hfalse : ¬((∀ x ∈ item :: items, (f x).isSome) ∧
            total + ((item :: items).map fun x => (f x).getD 0).sum ≤ u64Max) := by
          rw [map_cons, sum_cons, hitem, getD_some]
          omega
        simp only [bind_some, checkedAdd, h, if_false, hfalse, bind_eq_bind, bind_none]

/-- A checked sum has a result if and only if it is in range. -/
lemma foldlM_checkedAdd_eq_some {α : Type} {f : α → ℕ} {items : List α} :
    items.foldlM (fun total item => checkedAdd total (f item)) 0 = some c ↔
      (items.map f).sum ≤ u64Max ∧ (items.map f).sum = c := by
  have h := foldlM_checkedAdd (fun item => some (f item)) items 0 (Nat.zero_le _)
  simp only [bind_some, isSome_some, implies_true, true_and, getD_some, Nat.zero_add] at h
  rw [h, ite_none_right_eq_some, some.injEq]

end LapisMonetae
