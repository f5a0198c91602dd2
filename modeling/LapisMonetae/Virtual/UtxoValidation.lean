import LapisMonetae.Coinbase.Payload
import LapisMonetae.Ghostdag.Chain
import LapisMonetae.Lib.Reduction
import LapisMonetae.Tx.Transaction
import LapisMonetae.Utxo.Diff

/-!
# UTXO validation of a block

`calculate_utxo_state` runs over the mergeset of a block and collects what its transactions change
relative to the UTXO state of the selected parent, and `verify_expected_utxo_state` checks the
header against the outcome. The checks of single transactions, of the coinbase and of the pruning
point are collaborators of the processor. As before, `none` is a panic.
-/

namespace LapisMonetae.Virtual

open Utxo Ghostdag

/-- `Transaction`: its parts that UTXO validation reads. -/
structure Transaction where
  id : Hash
  /-- the previous outpoint of every input -/
  inputs : List TransactionOutpoint
  outputs : List (ℕ × ScriptPublicKey)
  isCoinbase : Bool
  payload : List UInt8
deriving DecidableEq

/-- `PopulatedTransaction::new`. -/
def Transaction.populate (tx : Transaction) (entries : List UtxoEntry) : VerifiableTransaction :=
  ⟨tx.id, tx.inputs.zip entries, tx.outputs, tx.isCoinbase⟩

structure ValidatedTransaction where
  tx : VerifiableTransaction
  calculatedFee : ℕ

/-- `ValidatedTransaction::new_coinbase`. A coinbase with inputs would have no entries for them. -/
def Transaction.newCoinbase (tx : Transaction) : Option ValidatedTransaction :=
  if tx.isCoinbase ∧ tx.inputs = [] then some ⟨tx.populate [], 0⟩ else none

inductive TxValidationFlags where
  | full
  | skipScriptChecks
deriving DecidableEq, Repr

/-- The rule errors that disqualify a block from the chain; the coinbase and the pruning point are
checked by collaborators. -/
inductive RuleError where
  | badUTXOCommitment (block header expected : Hash)
  | badAcceptedIDMerkleRoot (block header expected : Hash)
  | badCoinbaseTransaction
  | wrongHeaderPruningPoint (expected header : Hash)
  | invalidTransactionsInUtxoContext (invalid total : ℕ)
deriving DecidableEq, Repr

/-- The operations of `MuHash` on transactions. -/
class MultisetHash (M : Type) where
  new : M
  fromTransaction : VerifiableTransaction → ℕ → M
  addTransaction : M → VerifiableTransaction → ℕ → M
  combine : M → M → M
  /-- `finalize` normalizes the receiver -/
  finalize : M → M × Hash

/-- The header fields that UTXO validation reads. -/
structure Header where
  hash : Hash
  daaScore : ℕ
  utxoCommitment : Hash
  acceptedIdMerkleRoot : Hash
  pruningPoint : Hash

structure BlockRewardData where
  subsidy : UInt64
  totalFees : ℕ
  scriptPublicKey : ScriptPublicKey

structure AcceptedTxEntry where
  transactionId : Hash
  indexWithinBlock : ℕ

structure MergesetBlockAcceptanceData where
  blockHash : Hash
  acceptedTransactions : List AcceptedTxEntry

structure UtxoProcessingContext (M : Type) where
  ghostdagData : GhostdagData
  multisetHash : M
  mergesetDiff : UtxoDiff
  acceptedTxIds : List Hash
  mergesetAcceptanceData : List MergesetBlockAcceptanceData
  mergesetRewards : List (Hash × BlockRewardData)
  pruningSampleFromPov : Option Hash

def UtxoProcessingContext.new {M : Type} (ghostdagData : GhostdagData)
    (selectedParentMultisetHash : M) : UtxoProcessingContext M :=
  ⟨ghostdagData, selectedParentMultisetHash, .default, [], [], [], none⟩

/-- `VirtualStateProcessor`: the stores that do not change while a state is resolved, and the
collaborators. -/
structure VirtualStateProcessor (M : Type) where
  ghostdagManager : GhostdagManager
  reachabilityService : ChainService
  /-- `headers_store` -/
  getHeader : Hash → Option Header
  /-- `block_transactions_store` -/
  getTransactions : Hash → Option (List Transaction)
  /-- `depth_store.merge_depth_root` -/
  mergeDepthRoot : Hash → Option Hash
  /-- `daa_excluded_store.get_mergeset_non_daa` -/
  getMergesetNonDaa : Hash → Option (List Hash)
  payloadLimits : Coinbase.PayloadLimits
  crescendoActivation : ForkActivation
  /-- `transaction_validator.validate_populated_transaction_and_get_fee`, with the pov DAA score
  and the DAA score of the block -/
  validatePopulatedTransactionAndGetFee :
    VerifiableTransaction → ℕ → ℕ → TxValidationFlags → Except Tx.TxRuleError ℕ
  calcAcceptedIdMerkleRoot : ℕ → List Hash → Hash → Hash
  verifyCoinbaseTransaction : Transaction → ℕ → GhostdagData → List (Hash × BlockRewardData) →
    List Hash → Except RuleError Unit
  /-- `verify_header_pruning_point`, with the pruning sample of the reply -/
  verifyHeaderPruningPoint : Header → GhostdagData → Except RuleError Hash
  /-- how the thread pool combines the results for the transactions of a block -/
  reduction : List Transaction → (items : List (List (ValidatedTransaction × ℕ) × M)) →
    Reduction items := fun _ items => .sequential items

/-- The `unwrap` of a diff operation. -/
def unwrapDiff : Except UtxoAlgebraError Unit × UtxoDiff → Option UtxoDiff
  | (.ok (), diff) => some diff
  | (.error _, _) => none

namespace VirtualStateProcessor

variable {M : Type} [MultisetHash M] (p : VirtualStateProcessor M)

/-! ## Transactions -/

omit [MultisetHash M] in
def validateTransactionInUtxoContext (transaction : Transaction) (utxoView : UtxoView)
    (povDaaScore blockDaaScore : ℕ) (flags : TxValidationFlags) :
    Except Tx.TxRuleError ValidatedTransaction :=
  match transaction.inputs.mapM utxoView with
  | none => .error .missingTxOutpoints
  | some entries =>
    match p.validatePopulatedTransactionAndGetFee (transaction.populate entries) povDaaScore
        blockDaaScore flags with
    | .ok calculatedFee => .ok ⟨transaction.populate entries, calculatedFee⟩
    | .error txRuleError => .error txRuleError

omit [MultisetHash M] in
/-- `validate_transactions_in_parallel`: the transactions after the coinbase that pass, with their
index within the block. -/
def validateTransactionsInParallel (txs : List Transaction) (utxoView : UtxoView)
    (povDaaScore blockDaaScore : ℕ) (flags : TxValidationFlags) :
    List (ValidatedTransaction × ℕ) :=
  (txs.zipIdx.drop 1).filterMap fun (tx, i) =>
    match p.validateTransactionInUtxoContext tx utxoView povDaaScore blockDaaScore flags with
    | .ok vtx => some (vtx, i)
    | .error _ => none

def validateTransactionsWithMuhashInParallel (txs : List Transaction) (utxoView : UtxoView)
    (povDaaScore blockDaaScore : ℕ) (flags : TxValidationFlags) :
    List (ValidatedTransaction × ℕ) × M :=
  let validated := p.validateTransactionsInParallel txs utxoView povDaaScore blockDaaScore flags
  let items := validated.map fun vtx =>
    ([vtx], (MultisetHash.fromTransaction vtx.1.tx povDaaScore : M))
  (p.reduction txs items).reduce ([], MultisetHash.new) fun a b =>
    (a.1 ++ b.1, MultisetHash.combine a.2 b.2)

/-! ## The mergeset -/

omit [MultisetHash M] in
/-- The loop that adds the validated transactions of one block: the diff, the accepted ids and the
fees. -/
def addTransactions (povDaaScore : ℕ) : List (ValidatedTransaction × ℕ) →
    UtxoDiff × List Hash × ℕ → Option (UtxoDiff × List Hash × ℕ)
  | [], state => some state
  | (validatedTx, _) :: rest, (mergesetDiff, acceptedTxIds, blockFee) => do
    let mergesetDiff ← unwrapDiff (mergesetDiff.addTransaction validatedTx.tx povDaaScore)
    addTransactions povDaaScore rest
      (mergesetDiff, acceptedTxIds ++ [validatedTx.tx.id], blockFee + validatedTx.calculatedFee)

/-- One round of the loop of `calculate_utxo_state`. The `acceptedCoinbase` is the entry of the
selected parent's coinbase; the other blocks have none. -/
def acceptBlock (selectedParentUtxoView : UtxoView) (povDaaScore : ℕ)
    (acceptedCoinbase : Option AcceptedTxEntry) (ctx : UtxoProcessingContext M)
    (mergedBlock : Hash) (txs : List Transaction) : Option (UtxoProcessingContext M) := do
  let composedView := selectedParentUtxoView.compose ctx.mergesetDiff
  let validationFlags :=
    if acceptedCoinbase.isSome then TxValidationFlags.skipScriptChecks else .full
  let header ← p.getHeader mergedBlock
  let (validatedTransactions, innerMultiset) := p.validateTransactionsWithMuhashInParallel txs
    composedView povDaaScore header.daaScore validationFlags
  let (mergesetDiff, acceptedTxIds, blockFee) ←
    addTransactions povDaaScore validatedTransactions (ctx.mergesetDiff, ctx.acceptedTxIds, 0)
  let coinbase ← txs.head?
  match ← p.payloadLimits.deserializeCoinbasePayload coinbase.payload with
  | .error _ => none
  | .ok coinbaseData =>
    some { ctx with
      multisetHash := MultisetHash.combine ctx.multisetHash innerMultiset
      mergesetDiff
      acceptedTxIds
      mergesetAcceptanceData := ctx.mergesetAcceptanceData ++ [⟨mergedBlock,
        acceptedCoinbase.toList ++ validatedTransactions.map fun vtx => ⟨vtx.1.tx.id, vtx.2⟩⟩]
      mergesetRewards := ctx.mergesetRewards ++ [(mergedBlock,
        ⟨coinbaseData.subsidy, blockFee, coinbaseData.minerData.scriptPublicKey⟩)] }

/-- The rounds of the blocks after the selected parent. -/
def acceptBlocks (selectedParentUtxoView : UtxoView) (povDaaScore : ℕ) :
    List Hash → UtxoProcessingContext M → Option (UtxoProcessingContext M)
  | [], ctx => some ctx
  | mergedBlock :: rest, ctx => do
    let txs ← p.getTransactions mergedBlock
    let ctx ← p.acceptBlock selectedParentUtxoView povDaaScore none ctx mergedBlock txs
    acceptBlocks selectedParentUtxoView povDaaScore rest ctx

def calculateUtxoState (ctx : UtxoProcessingContext M) (selectedParentUtxoView : UtxoView)
    (povDaaScore : ℕ) : Option (UtxoProcessingContext M) := do
  let selectedParent := ctx.ghostdagData.selectedParent
  let selectedParentTransactions ← p.getTransactions selectedParent
  let coinbase ← selectedParentTransactions.head?
  let validatedCoinbase ← coinbase.newCoinbase
  let mergesetDiff ← unwrapDiff (ctx.mergesetDiff.addTransaction validatedCoinbase.tx povDaaScore)
  let ctx :=
    { ctx with
      mergesetDiff
      multisetHash :=
        MultisetHash.addTransaction ctx.multisetHash validatedCoinbase.tx povDaaScore
      acceptedTxIds := ctx.acceptedTxIds ++ [validatedCoinbase.tx.id] }
  let ctx ← p.acceptBlock selectedParentUtxoView povDaaScore (some ⟨validatedCoinbase.tx.id, 0⟩)
    ctx selectedParent selectedParentTransactions
  let mergeset ← p.ghostdagManager.ascendingMergesetWithoutSelectedParent ctx.ghostdagData
  let ctx ← p.acceptBlocks selectedParentUtxoView povDaaScore (mergeset.map SortableBlock.hash) ctx
  -- before the fork the accepted ids are sorted, after it they keep the canonical order
  if p.crescendoActivation.isActive povDaaScore then
    return ctx
  else
    return { ctx with acceptedTxIds := ctx.acceptedTxIds.mergeSort }

/-- `verify_expected_utxo_state`, with the context it leaves behind. -/
def verifyExpectedUtxoState (ctx : UtxoProcessingContext M) (selectedParentUtxoView : UtxoView)
    (header : Header) : Option (Except RuleError (UtxoProcessingContext M)) := do
  let (multisetHash, expectedCommitment) := MultisetHash.finalize ctx.multisetHash
  let ctx := { ctx with multisetHash }
  if expectedCommitment ≠ header.utxoCommitment then
    return .error (.badUTXOCommitment header.hash header.utxoCommitment expectedCommitment)
  let expectedAcceptedIdMerkleRoot := p.calcAcceptedIdMerkleRoot header.daaScore ctx.acceptedTxIds
    ctx.ghostdagData.selectedParent
  if expectedAcceptedIdMerkleRoot ≠ header.acceptedIdMerkleRoot then
    return .error (.badAcceptedIDMerkleRoot header.hash header.acceptedIdMerkleRoot
      expectedAcceptedIdMerkleRoot)
  let txs ← p.getTransactions header.hash
  let coinbase ← txs.head?
  let mergesetNonDaa ← p.getMergesetNonDaa header.hash
  match p.verifyCoinbaseTransaction coinbase header.daaScore ctx.ghostdagData ctx.mergesetRewards
      mergesetNonDaa with
  | .error e => return .error e
  | .ok () =>
    match p.verifyHeaderPruningPoint header ctx.ghostdagData with
    | .error e => return .error e
    | .ok pruningSample =>
      let currentUtxoView := selectedParentUtxoView.compose ctx.mergesetDiff
      let validatedTransactions := p.validateTransactionsInParallel txs currentUtxoView
        header.daaScore header.daaScore .full
      if validatedTransactions.length < txs.length - 1 then
        return .error (.invalidTransactionsInUtxoContext
          (txs.length - 1 - validatedTransactions.length) (txs.length - 1))
      return .ok { ctx with pruningSampleFromPov := some pruningSample }

end VirtualStateProcessor

end LapisMonetae.Virtual
