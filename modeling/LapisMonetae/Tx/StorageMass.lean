import LapisMonetae.Lib.Program
import LapisMonetae.Tx.Transaction

/-!
# Storage mass

The storage mass of a transaction: what its outputs add to the UTXO set, weighted against what its
inputs free. Pluralities are natural numbers, since they count bytes in memory; where amounts or
the storage mass parameter are involved, an overflow or a division by zero is a panic (`none`).
-/

namespace LapisMonetae.Tx

open Utxo List Option

/-! ## Cells -/

/-- `utxo_plurality`: the number of storage units of 100 bytes. -/
def utxoPlurality (scriptPublicKey : ScriptPublicKey) : ℕ :=
  (32 + 4 + 8 + 8 + 1 + 2 + 8 + scriptPublicKey.script.length + 99) / 100

structure UtxoCell where
  plurality : ℕ
  amount : ℕ
deriving DecidableEq, Repr

/-- `UtxoCell::from` of an entry. -/
def entryCell (entry : UtxoEntry) : UtxoCell :=
  ⟨utxoPlurality entry.scriptPublicKey, entry.amount⟩

/-- `UtxoCell::from` of an output. -/
def outputCell (output : TransactionOutput) : UtxoCell :=
  ⟨utxoPlurality output.scriptPublicKey, output.value⟩

/-! ## The mass -/

/-- A step over the outputs of `calc_storage_mass`. The inner `none` is a mass that cannot be
computed, the outer one a panic. -/
def addOutputCell (stormParam : ℕ) (acc : ℕ × ℕ) (cell : UtxoCell) : Option (Option (ℕ × ℕ)) :=
  match (checkedMul stormParam cell.plurality).bind fun product =>
      checkedMul product cell.plurality with
  | none => some none
  | some product => do
    let share ← checkedDiv product cell.amount
    return (checkedAdd acc.2 share).map fun harmonic => (acc.1 + cell.plurality, harmonic)

/-- The pluralities and the harmonic sum of the outputs. -/
def sumOutputCells (stormParam : ℕ) : List UtxoCell → ℕ × ℕ → Option (Option (ℕ × ℕ))
  | [], acc => some (some acc)
  | cell :: cells, acc => do
    match ← addOutputCell stormParam acc cell with
    | none => return none
    | some acc => sumOutputCells stormParam cells acc

/-- The harmonic sum of the inputs, for the relaxed formula. -/
def harmonicIns (stormParam : ℕ) (inputs : List UtxoCell) : Option ℕ :=
  inputs.foldlM (fun total cell => do
    let product ← (checkedMul stormParam cell.plurality).bind fun product =>
      checkedMul product cell.plurality
    return saturatingAdd total (← checkedDiv product cell.amount)) 0

/-- The arithmetic portion of the inputs. -/
def arithmeticIns (stormParam : ℕ) (inputs : List UtxoCell) : Option ℕ := do
  let insPlurality := (inputs.map UtxoCell.plurality).sum
  let sumIns ← inputs.foldlM (fun total cell => checkedAdd total cell.amount) 0
  let meanIns ← checkedDiv sumIns insPlurality
  return saturatingMul insPlurality (← checkedDiv stormParam meanIns)

/-- `calc_storage_mass`. The inner `none` is a mass that cannot be computed. -/
def calcStorageMass (isCoinbase : Bool) (inputs outputs : List UtxoCell) (stormParam : ℕ) :
    Option (Option ℕ) := do
  if isCoinbase then return some 0
  match ← sumOutputCells stormParam outputs (0, 0) with
  | none => return none
  | some (outsPlurality, harmonicOuts) =>
    let insPlurality := (inputs.map UtxoCell.plurality).sum
    let relaxedFormulaPath : Bool :=
      if outsPlurality = 1 then true
      else if 2 < inputs.length then false
      else insPlurality = 1 || (outsPlurality = 2 && insPlurality = 2)
    if relaxedFormulaPath then
      return some (harmonicOuts - (← harmonicIns stormParam inputs))
    else
      return some (harmonicOuts - (← arithmeticIns stormParam inputs))

/-- `calc_contextual_masses`, which has the storage mass alone. -/
def calcContextualMasses (storageMassParameter : ℕ) (isCoinbase : Bool)
    (tx : PopulatedTransaction) : Option (Option ℕ) :=
  calcStorageMass isCoinbase (tx.entries.map entryCell) (tx.tx.outputs.map outputCell)
    storageMassParameter

end LapisMonetae.Tx
