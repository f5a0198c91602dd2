import LapisMonetae.Tx.StorageMass
import Mathlib.Algebra.Order.Floor.Semifield
import Mathlib.Data.Nat.Cast.Order.Field
import Mathlib.Data.Rat.Floor
import Mathlib.Tactic.Linarith
import Mathlib.Tactic.Positivity

/-!
# When the storage mass can be computed, and how far it is from the exact value

Each loop of `calc_storage_mass` is a sum of quotients that is computed unless a product or the sum
is out of range. The rounding error of the mass is the number of quotients rounded down.
-/

namespace LapisMonetae.Tx

open Utxo List Nat

/-! ## The sums -/

/-- The sum of pluralities. -/
def totalPlurality (cells : List UtxoCell) : ℕ := (cells.map UtxoCell.plurality).sum

/-- The sum of amounts. -/
def totalAmount (cells : List UtxoCell) : ℕ := (cells.map UtxoCell.amount).sum

/-- The sum of `C * p^2 / a`, each quotient rounded down. -/
def harmonicSum (stormParam : ℕ) (cells : List UtxoCell) : ℕ :=
  (cells.map fun cell => stormParam * cell.plurality * cell.plurality / cell.amount).sum

/-- The products of all cells are in range. -/
def ProductsFit (stormParam : ℕ) (cells : List UtxoCell) : Prop :=
  ∀ cell ∈ cells, stormParam * cell.plurality * cell.plurality ≤ u64Max

instance (stormParam : ℕ) (cells : List UtxoCell) : Decidable (ProductsFit stormParam cells) :=
  inferInstanceAs (Decidable (∀ cell ∈ cells, _))

/-- Nothing is worth zero. -/
def ZeroFree (cells : List UtxoCell) : Prop := ∀ cell ∈ cells, cell.amount ≠ 0

instance (cells : List UtxoCell) : Decidable (ZeroFree cells) :=
  inferInstanceAs (Decidable (∀ cell ∈ cells, _))

/-- The cells of a transaction: nothing is worth zero, and every script takes a unit. -/
def Positive (cells : List UtxoCell) : Prop :=
  ∀ cell ∈ cells, 0 < cell.plurality ∧ 0 < cell.amount

/-- The cases in which both sides are harmonic. -/
def Relaxed (inputs outputs : List UtxoCell) : Prop :=
  totalPlurality outputs = 1 ∨ totalPlurality inputs = 1 ∨
    totalPlurality outputs = 2 ∧ totalPlurality inputs = 2

instance (inputs outputs : List UtxoCell) : Decidable (Relaxed inputs outputs) :=
  inferInstanceAs (Decidable (_ ∨ _))

section

variable {stormParam : ℕ}
variable {cells inputs outputs : List UtxoCell}

lemma Positive.zeroFree (h : Positive cells) : ZeroFree cells := fun cell hcell =>
  (h cell hcell).2.ne'

/-- The product is out of range as soon as a factor of it is. -/
lemma checkedMul_bind_checkedMul (c p : ℕ) :
    ((checkedMul c p).bind fun product => checkedMul product p) =
      if c * p * p ≤ u64Max then some (c * p * p) else none := by
  rcases Nat.eq_zero_or_pos p with rfl | hp
  · simp [checkedMul]
  · have hle : c * p ≤ c * p * p := Nat.le_mul_of_pos_right _ hp
    by_cases h : c * p * p ≤ u64Max
    · simp [checkedMul, h, hle.trans h]
    · by_cases h' : c * p ≤ u64Max <;> simp [checkedMul, h, h']

lemma productsFit_cons {cell : UtxoCell} : ProductsFit stormParam (cell :: cells) ↔
      stormParam * cell.plurality * cell.plurality ≤ u64Max ∧ ProductsFit stormParam cells :=
  forall_mem_cons

lemma harmonicSum_cons (cell : UtxoCell) (cells : List UtxoCell) :
    harmonicSum stormParam (cell :: cells) =
      stormParam * cell.plurality * cell.plurality / cell.amount + harmonicSum stormParam cells :=
  rfl

/-- The loop over the outputs gives up if and only if a product or the sum is out of range. -/
lemma sumOutputCells_eq (hamounts : ZeroFree cells) {acc : ℕ × ℕ} (hacc : acc.2 ≤ u64Max) :
    sumOutputCells stormParam cells acc =
      some (if ProductsFit stormParam cells ∧ acc.2 + harmonicSum stormParam cells ≤ u64Max then
        some (acc.1 + totalPlurality cells, acc.2 + harmonicSum stormParam cells) else none) := by
  induction cells generalizing acc with
  | nil => simp [sumOutputCells, ProductsFit, harmonicSum, totalPlurality, hacc]
  | cons cell cells ih =>
    obtain ⟨hamount, hrest⟩ := forall_mem_cons.mp hamounts
    rw [sumOutputCells, addOutputCell, checkedMul_bind_checkedMul]
    by_cases hproduct : stormParam * cell.plurality * cell.plurality ≤ u64Max
    · by_cases hsum :
          acc.2 + stormParam * cell.plurality * cell.plurality / cell.amount ≤ u64Max
      · simp only [hproduct, if_true, checkedDiv, hamount, if_false, checkedAdd, hsum,
          Option.map_some, Option.pure_def, some_bind_eq]
        rw [ih hrest hsum]
        simp only [productsFit_cons, hproduct, true_and, harmonicSum_cons, totalPlurality,
          map_cons, sum_cons, ← add_assoc]
      · have hfalse : ¬(ProductsFit stormParam (cell :: cells) ∧
            acc.2 + harmonicSum stormParam (cell :: cells) ≤ u64Max) := by
          rw [harmonicSum_cons]
          omega
        simp only [hproduct, if_true, checkedDiv, hamount, if_false, checkedAdd, hsum, hfalse,
          Option.map_none, Option.pure_def, some_bind_eq]
    · have hfalse : ¬(ProductsFit stormParam (cell :: cells) ∧
          acc.2 + harmonicSum stormParam (cell :: cells) ≤ u64Max) :=
        fun h => hproduct (productsFit_cons.mp h.1).1
      simp only [hproduct, if_false, hfalse, Option.pure_def, Option.bind_eq_bind, Option.bind_some]

/-- The harmonic sum of the inputs saturates, and panics where a product is out of range or an amount
is zero. -/
lemma harmonicIns_eq (cells : List UtxoCell) : harmonicIns stormParam cells =
      if ZeroFree cells ∧ ProductsFit stormParam cells then
        some (min (harmonicSum stormParam cells) u64Max)
      else none := by
  suffices h : ∀ total ≤ u64Max, cells.foldlM (fun total cell => do
      let product ← (checkedMul stormParam cell.plurality).bind fun product =>
        checkedMul product cell.plurality
      return saturatingAdd total (← checkedDiv product cell.amount)) total =
        if ZeroFree cells ∧ ProductsFit stormParam cells then
          some (min (total + harmonicSum stormParam cells) u64Max) else none by
    rw [harmonicIns, h 0 (zero_le _), zero_add]
  intro total htotal
  induction cells generalizing total with
  | nil => simp [ZeroFree, ProductsFit, harmonicSum, htotal]
  | cons cell cells ih =>
    rw [foldlM_cons, checkedMul_bind_checkedMul]
    by_cases hproduct : stormParam * cell.plurality * cell.plurality ≤ u64Max
    · rw [if_pos hproduct]
      by_cases hamount : cell.amount = 0
      · have hfalse : ¬ZeroFree (cell :: cells) := fun h => h cell mem_cons_self hamount
        rw [if_neg fun h => hfalse h.1, hamount]
        rfl
      · have hshare : checkedDiv (stormParam * cell.plurality * cell.plurality) cell.amount =
            some (stormParam * cell.plurality * cell.plurality / cell.amount) := if_neg hamount
        simp only [some_bind_eq, hshare]
        refine (ih _ (min_le_right _ _)).trans ?_
        have hmin (x y : ℕ) : min (min (total + x) u64Max + y) u64Max =
            min (total + (x + y)) u64Max := by omega
        simp only [ZeroFree, forall_mem_cons, ne_eq, hamount, not_false_eq_true, productsFit_cons,
          hproduct, true_and, harmonicSum_cons, hmin]
    · have hfalse : ¬ProductsFit stormParam (cell :: cells) :=
        fun h => hproduct (productsFit_cons.mp h).1
      rw [if_neg hproduct, if_neg fun h => hfalse h.2]
      rfl

lemma sumAmounts_eq (cells : List UtxoCell) :
    cells.foldlM (fun total cell => checkedAdd total cell.amount) 0 =
      if totalAmount cells ≤ u64Max then some (totalAmount cells) else none := by
  refine (foldlM_checkedAdd (fun cell => some cell.amount) cells 0 (zero_le _)).trans ?_
  simp only [Option.isSome_some, implies_true, true_and, zero_add, Option.getD_some]
  rfl

/-- The arithmetic portion panics where the sum of amounts is out of range, and where the mean of
the inputs is rounded down to zero. -/
lemma arithmeticIns_eq (hpos : 0 < totalPlurality cells) : arithmeticIns stormParam cells =
      if totalAmount cells ≤ u64Max ∧ totalPlurality cells ≤ totalAmount cells then
        some (min (totalPlurality cells *
          (stormParam / (totalAmount cells / totalPlurality cells))) u64Max)
      else none := by
  have hmean : totalAmount cells / totalPlurality cells = 0 ↔
      ¬totalPlurality cells ≤ totalAmount cells := by
    rw [Nat.div_eq_zero_iff, Nat.not_le]
    omega
  have hdef : (cells.map UtxoCell.plurality).sum = totalPlurality cells := rfl
  rw [arithmeticIns, sumAmounts_eq]
  by_cases hsum : totalAmount cells ≤ u64Max
  · by_cases hle : totalPlurality cells ≤ totalAmount cells
    · have hne : totalAmount cells / totalPlurality cells ≠ 0 := fun h => hmean.mp h hle
      simp only [hdef, hsum, hle, hne, checkedDiv, hpos.ne', saturatingMul, and_self, if_true,
        if_false, Option.pure_def, Option.bind_eq_bind, Option.bind_some]
    · have hzero := hmean.mpr hle
      simp only [hdef, hsum, hle, hzero, checkedDiv, hpos.ne', and_false, if_true, if_false,
        Option.bind_eq_bind, Option.bind_some, Option.bind_none]
  · simp only [hsum, false_and, if_false, Option.bind_eq_bind, Option.bind_none]

/-! ## Whether the mass is computed -/

lemma length_le_totalPlurality (hpos : ∀ cell ∈ cells, 0 < cell.plurality) :
    cells.length ≤ totalPlurality cells := by
  have h := length_le_sum_of_one_le (cells.map UtxoCell.plurality) fun p hp => by
    obtain ⟨cell, hcell, rfl⟩ := mem_map.mp hp
    exact hpos cell hcell
  rwa [length_map] at h

/-- The outputs have a mass. -/
def Computable (stormParam : ℕ) (outputs : List UtxoCell) : Prop :=
  ProductsFit stormParam outputs ∧ harmonicSum stormParam outputs ≤ u64Max

instance (outputs : List UtxoCell) : Decidable (Computable stormParam outputs) :=
  inferInstanceAs (Decidable (_ ∧ _))

/-- The mass of the outputs minus what the inputs free, by the formula of the case. More than two
inputs are never a relaxed case by their own number, so that the shortcut changes nothing. -/
lemma calcStorageMass_eq (hin : ∀ cell ∈ inputs, 0 < cell.plurality) (hout : ZeroFree outputs) :
    calcStorageMass false inputs outputs stormParam =
      if Computable stormParam outputs then
        (if Relaxed inputs outputs then harmonicIns stormParam inputs
          else arithmeticIns stormParam inputs).map
            fun ins => some (harmonicSum stormParam outputs - ins)
      else some none := by
  have hlength := length_le_totalPlurality hin
  have hdef : (inputs.map UtxoCell.plurality).sum = totalPlurality inputs := rfl
  have hsum := @sumOutputCells_eq stormParam outputs hout (0, 0) (zero_le _)
  simp only [zero_add] at hsum
  simp only [calcStorageMass, Bool.false_eq_true, if_false, hsum, Option.bind_eq_bind,
    Option.bind_some, Option.pure_def, Computable]
  by_cases hcomputable : ProductsFit stormParam outputs ∧ harmonicSum stormParam outputs ≤ u64Max
  · simp only [hcomputable, and_self, if_true]
    have hpath : ((if totalPlurality outputs = 1 then true
        else if 2 < inputs.length then false
        else decide ((inputs.map UtxoCell.plurality).sum = 1) ||
          (decide (totalPlurality outputs = 2) &&
            decide ((inputs.map UtxoCell.plurality).sum = 2)) : Bool) = true) ↔
        Relaxed inputs outputs := by
      rw [hdef, Relaxed]
      split_ifs
      · simp_all
      · simp
        omega
      · simp_all
    by_cases hrelaxed : Relaxed inputs outputs
    · rw [if_pos (hpath.mpr hrelaxed), if_pos hrelaxed]
      cases harmonicIns stormParam inputs <;> rfl
    · rw [if_neg (mt hpath.mp hrelaxed), if_neg hrelaxed]
      cases arithmeticIns stormParam inputs <;> rfl
  · simp only [hcomputable, if_false]

/-- A cell that is worth zero is reached before a product or the sum is out of range. -/
def ReachesZero (stormParam : ℕ) (cells : List UtxoCell) : Prop :=
  ∃ before cell after, cells = before ++ cell :: after ∧ ZeroFree before ∧ cell.amount = 0 ∧
    Computable stormParam before ∧ stormParam * cell.plurality * cell.plurality ≤ u64Max

/-- What the mass needs of the inputs, by the formula of the case. -/
def InputsFit (stormParam : ℕ) (inputs outputs : List UtxoCell) : Prop :=
  if Relaxed inputs outputs then ZeroFree inputs ∧ ProductsFit stormParam inputs
  else inputs ≠ [] ∧ totalAmount inputs ≤ u64Max ∧ totalPlurality inputs ≤ totalAmount inputs

lemma sumOutputCells_append (l l' : List UtxoCell) (acc : ℕ × ℕ) :
    sumOutputCells stormParam (l ++ l') acc = (sumOutputCells stormParam l acc).bind fun r =>
      r.elim (some none) (sumOutputCells stormParam l') := by
  induction l generalizing acc with
  | nil => rfl
  | cons cell l ih =>
    rw [cons_append, sumOutputCells, sumOutputCells]
    cases addOutputCell stormParam acc cell with
    | none => rfl
    | some r =>
      cases r with
      | none => rfl
      | some acc => exact ih acc

/-- At the first cell that is worth zero the loop panics, unless it has given up by then. -/
lemma sumOutputCells_zero {before after : List UtxoCell} {cell : UtxoCell}
    (hbefore : ZeroFree before) (hzero : cell.amount = 0) :
    sumOutputCells stormParam (before ++ cell :: after) (0, 0) =
      if Computable stormParam before ∧ stormParam * cell.plurality * cell.plurality ≤ u64Max
      then none else some none := by
  have hsum : sumOutputCells stormParam before (0, 0) = some (if Computable stormParam before then
      some (totalPlurality before, harmonicSum stormParam before) else none) := by
    rw [sumOutputCells_eq hbefore (zero_le _), zero_add, zero_add]
    rfl
  rw [sumOutputCells_append, hsum]
  by_cases hcomputable : Computable stormParam before
  · rw [if_pos hcomputable, Option.bind_some, Option.elim_some, sumOutputCells, addOutputCell,
      checkedMul_bind_checkedMul]
    by_cases hproduct : stormParam * cell.plurality * cell.plurality ≤ u64Max
    · rw [if_pos hproduct, if_pos ⟨hcomputable, hproduct⟩, hzero]
      rfl
    · rw [if_neg hproduct, if_neg fun h => hproduct h.2]
      rfl
  · rw [if_neg hcomputable, if_neg fun h => hcomputable h.1]
    rfl

lemma exists_first_zero (h : ¬ZeroFree cells) : ∃ before cell after,
    cells = before ++ cell :: after ∧ ZeroFree before ∧ cell.amount = 0 := by
  induction cells with
  | nil => exact absurd (forall_mem_nil _) h
  | cons cell cells ih =>
    by_cases hzero : cell.amount = 0
    · exact ⟨[], cell, cells, rfl, forall_mem_nil _, hzero⟩
    · obtain ⟨before, cell', after, rfl, hbefore, hzero'⟩ :=
        ih fun hrest => h (forall_mem_cons.mpr ⟨hzero, hrest⟩)
      exact ⟨cell :: before, cell', after, rfl, forall_mem_cons.mpr ⟨hzero, hbefore⟩, hzero'⟩

/-- The computation returns, with a mass or without, if and only if no output of zero is reached
and, where the outputs have a mass, the inputs fit the formula of the case. -/
lemma calcStorageMass_isSome_iff (hin : ∀ cell ∈ inputs, 0 < cell.plurality) :
    (calcStorageMass false inputs outputs stormParam).isSome ↔
      ¬ReachesZero stormParam outputs ∧
      (ZeroFree outputs → Computable stormParam outputs → InputsFit stormParam inputs outputs) := by
  by_cases hout : ZeroFree outputs
  · have hnot : ¬ReachesZero stormParam outputs := by
      rintro ⟨before, cell, after, rfl, -, hzero, -⟩
      exact hout cell (by simp) hzero
    rw [calcStorageMass_eq hin hout, InputsFit]
    by_cases hcomputable : Computable stormParam outputs
    swap
    · simp [hcomputable, hnot]
    simp only [hcomputable, if_true, Option.isSome_map, hnot, hout, not_false_eq_true, true_and,
      forall_const]
    split
    · rw [harmonicIns_eq]
      split <;> simp_all
    · by_cases hinputs : inputs = []
      · subst hinputs
        exact iff_of_false Bool.false_ne_true fun h => h.1 rfl
      · have hpos := (length_pos_iff.mpr hinputs).trans_le (length_le_totalPlurality hin)
        rw [arithmeticIns_eq hpos]
        split <;> simp_all
  · obtain ⟨before, cell, after, rfl, hbefore, hzero⟩ := exists_first_zero hout
    have hsum := @sumOutputCells_zero stormParam before after cell hbefore hzero
    simp only [hout, false_implies, and_true]
    by_cases hreached : Computable stormParam before ∧
        stormParam * cell.plurality * cell.plurality ≤ u64Max
    · rw [if_pos hreached] at hsum
      refine iff_of_false ?_ (not_not_intro ⟨before, cell, after, rfl, hbefore, hzero, hreached⟩)
      simp [calcStorageMass, hsum]
    · rw [if_neg hreached] at hsum
      refine iff_of_true (by simp [calcStorageMass, hsum]) ?_
      rintro ⟨before', cell', after', heq, hbefore', hzero', hreached'⟩
      have hsum' := @sumOutputCells_zero stormParam before' after' cell' hbefore' hzero'
      rw [← heq, if_pos hreached', hsum] at hsum'
      cases hsum'

lemma utxoPlurality_pos (scriptPublicKey : ScriptPublicKey) :
    0 < utxoPlurality scriptPublicKey := by
  rw [utxoPlurality]
  omega

lemma positive_entryCells {entries : List UtxoEntry} (h : ∀ entry ∈ entries, 0 < entry.amount) :
    Positive (entries.map entryCell) := by
  intro cell hcell
  obtain ⟨entry, hentry, rfl⟩ := mem_map.mp hcell
  exact ⟨utxoPlurality_pos _, h entry hentry⟩

lemma positive_outputCells {outputs : List TransactionOutput}
    (h : ∀ output ∈ outputs, 0 < output.value) : Positive (outputs.map outputCell) := by
  intro cell hcell
  obtain ⟨output, houtput, rfl⟩ := mem_map.mp hcell
  exact ⟨utxoPlurality_pos _, h output houtput⟩

/-- The computation returns, with a mass or without, if and only if the outputs have no mass, the
relaxed formula applies and the products of the inputs are in range, or it does not apply, the sum
of the input amounts is in range and the inputs are worth at least one unit of value for each unit
of storage. -/
theorem calcContextualMasses_returns (storageMassParameter : ℕ) (tx : PopulatedTransaction)
    (hinputs : tx.entries ≠ []) (hamounts : ∀ entry ∈ tx.entries, 0 < entry.amount)
    (hvalues : ∀ output ∈ tx.tx.outputs, 0 < output.value) :
    (calcContextualMasses storageMassParameter false tx).isSome ↔
      ¬Computable storageMassParameter (tx.tx.outputs.map outputCell) ∨
      (Relaxed (tx.entries.map entryCell) (tx.tx.outputs.map outputCell) ∧
        ProductsFit storageMassParameter (tx.entries.map entryCell)) ∨
      (¬Relaxed (tx.entries.map entryCell) (tx.tx.outputs.map outputCell) ∧
        totalAmount (tx.entries.map entryCell) ≤ u64Max ∧
        totalPlurality (tx.entries.map entryCell) ≤ totalAmount (tx.entries.map entryCell)) := by
  have hin := positive_entryCells hamounts
  have hout := (positive_outputCells hvalues).zeroFree
  have hnot : ¬ReachesZero storageMassParameter (tx.tx.outputs.map outputCell) := by
    rintro ⟨before, cell, after, heq, -, hzero, -⟩
    exact hout cell (heq ▸ by simp) hzero
  have hinputs' : tx.entries.map entryCell ≠ [] := mt map_eq_nil_iff.mp hinputs
  rw [calcContextualMasses, calcStorageMass_isSome_iff fun cell hcell => (hin cell hcell).1,
    InputsFit]
  simp only [hnot, hout, hin.zeroFree, hinputs', not_false_eq_true, true_and, forall_const, ne_eq]
  split <;> tauto

/-- Three entries with scripts of 200 bytes, and two outputs. -/
def longScripts (amount : ℕ) : PopulatedTransaction where
  tx :=
    { id := 2
      version := 0
      inputs := (List.range 3).map fun index => ⟨⟨1, index⟩, [], 0, 0⟩
      outputs := List.replicate 2 ⟨1, ⟨0, []⟩⟩
      lockTime := 0
      mass := 0 }
  entries := List.replicate 3 ⟨amount, ⟨0, List.replicate 200 0⟩, 0, false⟩
  length_entries := rfl

/-- Nine storage units that hold nine sompi. -/
theorem calcContextualMasses_returns_longScripts :
    (calcContextualMasses (10 ^ 12) false (longScripts 3)).isSome :=
  (calcContextualMasses_returns (10 ^ 12) (longScripts 3) (by decide) (by decide)
    (by decide)).mpr (by decide +kernel)

/-- Nine storage units that hold three sompi: the mean is rounded down to zero, and the parameter is
divided by it. -/
theorem calcContextualMasses_divides_by_zero :
    (∀ entry ∈ (longScripts 1).entries, 0 < entry.amount) ∧
    (∀ output ∈ (longScripts 1).tx.outputs, 0 < output.value) ∧
    totalAmount ((longScripts 1).entries.map entryCell) /
      totalPlurality ((longScripts 1).entries.map entryCell) = 0 ∧
    calcContextualMasses (10 ^ 12) false (longScripts 1) = none := by
  decide +kernel

/-! ## Rounding -/

/-- The sum of `C * p^2 / a`, exact. -/
def exactHarmonic (stormParam : ℕ) (cells : List UtxoCell) : ℚ :=
  (cells.map fun cell => (stormParam * cell.plurality ^ 2 / cell.amount : ℚ)).sum

/-- `C * |I| / A(I)`, where `A(I)` is the mean amount of a unit of storage. -/
def exactArithmetic (stormParam : ℕ) (cells : List UtxoCell) : ℚ :=
  stormParam * totalPlurality cells / (totalAmount cells / totalPlurality cells)

/-- The exact storage mass, with the given value of the inputs. -/
def exactMass (stormParam : ℕ) (outputs : List UtxoCell) (ins : ℚ) : ℚ :=
  max 0 (exactHarmonic stormParam outputs - ins)

lemma natCast_div_le_lt (x a : ℕ) : ((x / a : ℕ) : ℚ) ≤ x / a ∧ (x / a : ℚ) < (x / a : ℕ) + 1 := by
  refine ⟨cast_div_le, ?_⟩
  have h := lt_floor_add_one (x / a : ℚ)
  rwa [floor_div_eq_div] at h

/-- Every quotient is rounded down by less than one. -/
lemma harmonicSum_bounds (cells : List UtxoCell) :
    (harmonicSum stormParam cells : ℚ) ≤ exactHarmonic stormParam cells ∧
      exactHarmonic stormParam cells ≤ harmonicSum stormParam cells + cells.length ∧
      (cells ≠ [] →
        exactHarmonic stormParam cells < harmonicSum stormParam cells + cells.length) := by
  induction cells with
  | nil => simp [harmonicSum, exactHarmonic]
  | cons cell cells ih =>
    obtain ⟨hle, hge, -⟩ := ih
    obtain ⟨hle', hlt'⟩ := natCast_div_le_lt (stormParam * cell.plurality * cell.plurality)
      cell.amount
    have hexact : exactHarmonic stormParam (cell :: cells) =
        ((stormParam * cell.plurality * cell.plurality : ℕ) : ℚ) / cell.amount +
          exactHarmonic stormParam cells := by
      rw [exactHarmonic, map_cons, sum_cons, ← exactHarmonic]
      push_cast
      ring
    rw [hexact, harmonicSum_cons, length_cons]
    push_cast at hle' hlt' ⊢
    refine ⟨by linarith, by linarith, fun _ => by linarith⟩

lemma natCast_sub_eq_max (a b : ℕ) : ((a - b : ℕ) : ℚ) = max 0 ((a : ℚ) - b) := by
  rcases le_total b a with h | h
  · rw [cast_sub h, max_eq_right (sub_nonneg.mpr (cast_le.mpr h))]
  · rw [Nat.sub_eq_zero_of_le h, Nat.cast_zero, max_eq_left (sub_nonpos.mpr (cast_le.mpr h))]

lemma max_zero_lt {x y c : ℚ} (hc : 0 < c) (h : x < y + c) : max 0 x < max 0 y + c := by
  refine max_lt ?_ ?_
  · linarith [le_max_left 0 y]
  · linarith [le_max_right 0 y]

/-- Saturating the subtrahend changes nothing where the minuend is in range. -/
lemma sub_min_of_le {a b m : ℕ} (h : a ≤ m) : a - min b m = a - b := by omega

/-- The arithmetic portion is rounded down by less than the plurality. -/
lemma exactArithmetic_lt (hpos : 0 < totalPlurality cells)
    (hmean : totalPlurality cells ≤ totalAmount cells) : exactArithmetic stormParam cells <
      (totalPlurality cells * (stormParam / (totalAmount cells / totalPlurality cells)) : ℕ) +
        totalPlurality cells := by
  have hquotient : 0 < totalAmount cells / totalPlurality cells := div_pos hmean hpos
  rw [exactArithmetic]
  generalize totalPlurality cells = p at *
  generalize totalAmount cells = s at *
  have hp : (0 : ℚ) < p := cast_pos.mpr hpos
  have hm : (0 : ℚ) < (s / p : ℕ) := cast_pos.mpr hquotient
  -- the mean is rounded down, and with it what is divided by it up
  have hle : (stormParam / (s / p : ℚ) : ℚ) ≤ stormParam / (s / p : ℕ) :=
    div_le_div_of_nonneg_left (cast_nonneg _) hm (natCast_div_le_lt s p).1
  have hlt := (natCast_div_le_lt stormParam (s / p)).2
  have hmul := mul_lt_mul_of_pos_left (lt_of_le_of_lt hle hlt) hp
  calc (stormParam * p / (s / p) : ℚ) = p * (stormParam / (s / p)) := by ring
    _ < p * ((stormParam / (s / p) : ℕ) + 1) := hmul
    _ = _ := by push_cast; ring

/-- In the harmonic cases the mass is less than the exact value plus the number of inputs and more
than it minus the number of outputs; otherwise it is less than the exact value plus the plurality of
the inputs. -/
theorem calcStorageMass_rounding (stormParam : ℕ) (inputs outputs : List UtxoCell)
    (hinputs : inputs ≠ []) (houtputs : outputs ≠ []) (hin : Positive inputs)
    (hout : Positive outputs) (hcomputable : Computable stormParam outputs)
    (hharmonic : Relaxed inputs outputs → ProductsFit stormParam inputs)
    (harithmetic : ¬Relaxed inputs outputs →
      totalAmount inputs ≤ u64Max ∧ 0 < totalAmount inputs / totalPlurality inputs) :
    ∃ mass, calcStorageMass false inputs outputs stormParam = some (some mass) ∧
      (Relaxed inputs outputs →
        exactMass stormParam outputs (exactHarmonic stormParam inputs) - outputs.length < mass ∧
        mass < exactMass stormParam outputs (exactHarmonic stormParam inputs) + inputs.length) ∧
      (¬Relaxed inputs outputs →
        mass < exactMass stormParam outputs (exactArithmetic stormParam inputs) +
          totalPlurality inputs) := by
  have hunits : ∀ cell ∈ inputs, 0 < cell.plurality := fun cell hcell => (hin cell hcell).1
  have hpos : 0 < totalPlurality inputs :=
    (length_pos_iff.mpr hinputs).trans_le (length_le_totalPlurality hunits)
  obtain ⟨hole, -, holt⟩ := @harmonicSum_bounds stormParam outputs
  have holt := holt houtputs
  rw [calcStorageMass_eq hunits hout.zeroFree, if_pos hcomputable]
  by_cases hrelaxed : Relaxed inputs outputs
  · obtain ⟨hile, -, hilt⟩ := @harmonicSum_bounds stormParam inputs
    have hilt := hilt hinputs
    have hlen : (0 : ℚ) < inputs.length := cast_pos.mpr (length_pos_iff.mpr hinputs)
    have hlen' : (0 : ℚ) < outputs.length := cast_pos.mpr (length_pos_iff.mpr houtputs)
    rw [if_pos hrelaxed, harmonicIns_eq, if_pos ⟨hin.zeroFree, hharmonic hrelaxed⟩]
    refine ⟨_, rfl, fun _ => ?_, fun h => absurd hrelaxed h⟩
    rw [sub_min_of_le hcomputable.2, natCast_sub_eq_max, exactMass]
    constructor
    · rw [sub_lt_iff_lt_add]
      exact max_zero_lt hlen' (by linarith)
    · exact max_zero_lt hlen (by linarith)
  · obtain ⟨hsum, hmean⟩ := harithmetic hrelaxed
    have hle : totalPlurality inputs ≤ totalAmount inputs := (Nat.div_pos_iff.mp hmean).2
    have hlt := @exactArithmetic_lt stormParam inputs hpos hle
    have hplurality : (0 : ℚ) < totalPlurality inputs := cast_pos.mpr hpos
    rw [if_neg hrelaxed, arithmeticIns_eq hpos, if_pos ⟨hsum, hle⟩]
    refine ⟨_, rfl, fun h => absurd h hrelaxed, fun _ => ?_⟩
    rw [sub_min_of_le hcomputable.2, natCast_sub_eq_max, exactMass]
    exact max_zero_lt hplurality (by linarith)

/-- A payment of 100 sompi with two outputs. -/
theorem calcStorageMass_rounding_payment :
    ∃ mass, calcStorageMass false [⟨1, 100⟩] [⟨1, 30⟩, ⟨1, 70⟩] (10 ^ 12) = some (some mass) ∧
      (mass : ℚ) < exactMass (10 ^ 12) [⟨1, 30⟩, ⟨1, 70⟩]
        (exactHarmonic (10 ^ 12) [⟨1, 100⟩]) + 1 := by
  obtain ⟨mass, hmass, hbounds, -⟩ := calcStorageMass_rounding (10 ^ 12) [⟨1, 100⟩]
    [⟨1, 30⟩, ⟨1, 70⟩] (by decide) (by decide) (by simp [Positive]) (by simp [Positive])
    (by decide) (fun _ => by decide) (fun h => absurd (by decide) h)
  exact ⟨mass, hmass, by simpa using (hbounds (by decide)).2⟩

end

end LapisMonetae.Tx
