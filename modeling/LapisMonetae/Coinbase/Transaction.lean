import LapisMonetae.Coinbase.Subsidy
import LapisMonetae.Tx.StorageMass
import LapisMonetae.Virtual.UtxoValidation

/-!
# The coinbase transaction

`expected_coinbase_transaction` pays the blocks of a mergeset: each blue block to its own script,
all red blocks together to the script of the block that merges them. A missing reward and an
overflow are panics (`none`).
-/

namespace LapisMonetae.Coinbase

open Ghostdag (GhostdagData)
open Tx (TransactionOutput)
open Virtual (BlockRewardData)

/-- `CoinbaseTransactionTemplate`. The transaction has no inputs; its version, lock time,
subnetwork and gas are constants. -/
structure CoinbaseTransactionTemplate where
  outputs : List TransactionOutput
  payload : List UInt8
  hasRedReward : Bool
deriving DecidableEq, Repr

section

variable (mergesetRewards : List (Hash × BlockRewardData)) (mergesetNonDaa : List Hash)

/-- The loop over the blue blocks. -/
def blueOutputs : List Hash → Option (List TransactionOutput)
  | [] => some []
  | blue :: blues =>
    if blue ∈ mergesetNonDaa then blueOutputs blues
    else do
      let rewardData ← mergesetRewards.lookup blue
      let reward ← checkedAdd rewardData.subsidy.toNat rewardData.totalFees
      let outputs ← blueOutputs blues
      return if 0 < reward then ⟨reward, rewardData.scriptPublicKey⟩ :: outputs else outputs

/-- The loops over the red blocks. After the activation a block outside the DAA window brings its
fees. -/
def redReward (isActive : Bool) (reds : List Hash) : Option ℕ :=
  if isActive then
    reds.foldlM (fun redReward red => do
      let rewardData ← mergesetRewards.lookup red
      if red ∈ mergesetNonDaa then checkedAdd redReward rewardData.totalFees
      else checkedAdd redReward (← checkedAdd rewardData.subsidy.toNat rewardData.totalFees)) 0
  else
    (reds.filter (· ∉ mergesetNonDaa)).foldlM (fun redReward red => do
      let rewardData ← mergesetRewards.lookup red
      checkedAdd redReward (← checkedAdd rewardData.subsidy.toNat rewardData.totalFees)) 0

def expectedCoinbaseTransaction (manager : CoinbaseManager) (limits : PayloadLimits)
    (daaScore : ℕ) (minerData : MinerData) (ghostdagData : GhostdagData) :
    Option (Except CoinbaseError CoinbaseTransactionTemplate) := do
  let outputs ← blueOutputs mergesetRewards mergesetNonDaa ghostdagData.mergesetBlues
  let redReward ← redReward mergesetRewards mergesetNonDaa
    (manager.bps.activation.isActive daaScore) ghostdagData.mergesetReds
  let outputs :=
    if 0 < redReward then outputs ++ [⟨redReward, minerData.scriptPublicKey⟩] else outputs
  let subsidy := manager.calcBlockSubsidy daaScore
  return (limits.serializeCoinbasePayload
    ⟨UInt64.ofNat ghostdagData.blueScore, UInt64.ofNat subsidy, minerData⟩).map
      fun payload => ⟨outputs, payload, 0 < redReward⟩

end

end LapisMonetae.Coinbase
