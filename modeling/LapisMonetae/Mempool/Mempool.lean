import LapisMonetae.Coinbase.Subsidy
import LapisMonetae.Mempool.OrphanPool

/-!
# The mempool

The way of a transaction into the mempool: the checks before consensus has validated it, with its
population from the transactions pool, and the checks, the replacements and the evictions after.
-/

namespace LapisMonetae.Mining

open Utxo Tx Program Script

/-- `AcceptedTransactions`: the DAA scores of the accepted transactions. -/
abbrev AcceptedTransactions := AList fun _ : Hash => ℕ

def AcceptedTransactions.has (self : AcceptedTransactions) (transactionId : Hash) : Bool :=
  (self.lookup transactionId).isSome

structure Mempool (F : Type) [LinearOrder F] where
  transactionPool : TransactionsPool F
  orphanPool : OrphanPool
  acceptedTransactions : AcceptedTransactions

/-- Programs of the mempool. -/
abbrev MempoolM (F : Type) [LinearOrder F] := Program (Mempool F) RuleError

structure TransactionPreValidation (F : Type) where
  transaction : MutableTransaction
  feerateThreshold : Option F

structure TransactionPostValidation where
  removed : Option Transaction
  accepted : Option Transaction
deriving DecidableEq

/-! ## Standard transactions -/

section
variable {F σ : Type} (ctx : Context F)

def maxStandardP2shSigOps : ℕ := 15

def maximumStandardSignatureScriptSize : ℕ := 1650

def maximumStandardTransactionMass : ℕ := 100000

def transactionOutputEstimatedSerializedSize (output : TransactionOutput) : ℕ :=
  8 + 2 + 8 + output.scriptPublicKey.script.length

/-- `is_transaction_output_dust`. Both branches of the source compute this quotient, the second one
in 128 bits. -/
def isTransactionOutputDust (transactionOutput : TransactionOutput) : Bool :=
  if isUnspendable transactionOutput.scriptPublicKey.script then true
  else
    let totalSerializedSize := transactionOutputEstimatedSerializedSize transactionOutput + 148
    transactionOutput.value * 1000 / (3 * totalSerializedSize) <
      ctx.config.minimumRelayTransactionFee

/-- The check of input `i` in isolation. -/
def isolatedInputError (transactionId : Hash) (input : TransactionInput × ℕ) :
    Option NonStandardError :=
  if input.1.signatureScript.length > maximumStandardSignatureScriptSize then
    some (.rejectSignatureScriptSize transactionId input.2 input.1.signatureScript.length
      maximumStandardSignatureScriptSize)
  else none

/-- The check of output `i` in isolation. -/
def isolatedOutputError (transactionId : Hash) (output : TransactionOutput × ℕ) :
    Option NonStandardError :=
  if output.1.scriptPublicKey.version > maxScriptPublicKeyVersion then
    some (.rejectScriptPublicKeyVersion transactionId output.2)
  else if ScriptClass.fromScript output.1.scriptPublicKey = .nonStandard then
    some (.rejectOutputScriptClass transactionId output.2)
  else if isTransactionOutputDust ctx output.1 then
    some (.rejectDust transactionId output.2 output.1.value)
  else none

/-- The first error of the inputs, then of the outputs. -/
def isolatedError (transaction : MutableTransaction) : Option NonStandardError :=
  (transaction.tx.inputs.zipIdx.findSome? (isolatedInputError transaction.id)).or
    (transaction.tx.outputs.zipIdx.findSome? (isolatedOutputError ctx transaction.id))

def checkTransactionStandardInIsolation (transaction : MutableTransaction) :
    Program σ RuleError Unit :=
  let version := transaction.tx.version
  let config := ctx.config
  if version > config.maximumStandardTransactionVersion ∨
      version < config.minimumStandardTransactionVersion then
    throw (NonStandardError.rejectVersion transaction.id version
      config.minimumStandardTransactionVersion
      config.maximumStandardTransactionVersion).toRuleError
  else do
    let masses ← unwrap transaction.calculatedNonContextualMasses
    if masses.computeMass > maximumStandardTransactionMass then
      throw (NonStandardError.rejectComputeMass transaction.id masses.computeMass
        maximumStandardTransactionMass).toRuleError
    else if masses.transientMass > maximumStandardTransactionMass then
      throw (NonStandardError.rejectTransientMass transaction.id masses.transientMass
        maximumStandardTransactionMass).toRuleError
    else
      match isolatedError ctx transaction with
      | some error => throw error.toRuleError
      | none => pure ()

/-- `minimum_required_transaction_relay_fee`. It panics when the product overflows. -/
def minimumRequiredTransactionRelayFee (mass : ℕ) : Option ℕ :=
  let product := mass * ctx.config.minimumRelayTransactionFee
  if product < 2 ^ 64 then
    let minimumFee := product / 1000
    let minimumFee := if minimumFee = 0 then ctx.config.minimumRelayTransactionFee else minimumFee
    some (min minimumFee Coinbase.maxSompi)
  else none

/-- The check of the script that input `i` spends. -/
def checkInputScript (transactionId : Hash) (i : ℕ) (input : TransactionInput)
    (entry : UtxoEntry) : Program σ RuleError Unit :=
  match ScriptClass.fromScript entry.scriptPublicKey with
  | .nonStandard => throw (NonStandardError.rejectInputScriptClass transactionId i).toRuleError
  | .pubKey | .pubKeyECDSA => pure ()
  | .scriptHash => do
    let numSigOps ← unwrap (getSigOpCountUpperBound input.signatureScript entry.scriptPublicKey)
    if numSigOps > maxStandardP2shSigOps then
      throw (NonStandardError.rejectSignatureCount transactionId i numSigOps
        maxStandardP2shSigOps).toRuleError
    else pure ()

/-- The check of the fee, which is made for every input. -/
def checkMinimumFee (transaction : MutableTransaction) : Program σ RuleError Unit := do
  let masses ← unwrap transaction.calculatedNonContextualMasses
  let minimumFee ← unwrap (minimumRequiredTransactionRelayFee ctx masses.computeMass)
  let fee ← unwrap transaction.calculatedFee
  if fee < minimumFee then
    throw (NonStandardError.rejectInsufficientFee transaction.id fee minimumFee).toRuleError
  else pure ()

/-- The loop of `check_transaction_standard_in_context`. -/
def checkInputsStandardInContext (transaction : MutableTransaction) :
    List ((TransactionInput × Option UtxoEntry) × ℕ) → Program σ RuleError Unit
  | [] => pure ()
  | ((input, entry), i) :: inputs => do
    let entry ← unwrap entry
    checkInputScript transaction.id i input entry
    checkMinimumFee ctx transaction
    checkInputsStandardInContext transaction inputs

def checkTransactionStandardInContext (transaction : MutableTransaction) :
    Program σ RuleError Unit :=
  if transaction.tx.mass > maximumStandardTransactionMass then
    throw (NonStandardError.rejectStorageMass transaction.id transaction.tx.mass
      maximumStandardTransactionMass).toRuleError
  else checkInputsStandardInContext ctx transaction
    (transaction.tx.inputs.zip transaction.entries).zipIdx

end

namespace Mempool

variable {F : Type} [LinearOrder F] (ctx : Context F)

def new : Mempool F := ⟨.new, .new, ∅⟩

/-- A program of the transactions pool. -/
def onPool {α : Type} (p : PoolM F α) : MempoolM F α :=
  zoom transactionPool (fun self pool => { self with transactionPool := pool }) p

/-- A program of the orphan pool. -/
def onOrphans {α : Type} (p : OrphanM α) : MempoolM F α :=
  zoom orphanPool (fun self pool => { self with orphanPool := pool }) p

/-! ## Removal -/

/-- The loop of `remove_transaction`. -/
def removeTransactions (removeRedeemers : Bool) : List Hash → MempoolM F Unit
  | [] => pure ()
  | txId :: txIds => do
    let tx ← onPool (TransactionsPool.removeTransaction ctx txId)
    let _ ← onOrphans (OrphanPool.updateOrphansAfterTransactionRemoved tx removeRedeemers)
    removeTransactions removeRedeemers txIds

def removeTransaction (transactionId : Hash) (removeRedeemers : Bool) : MempoolM F Unit := do
  let self ← get
  if self.orphanPool.has transactionId then do
    let _ ← onOrphans (OrphanPool.removeOrphan transactionId true)
    pure ()
  else if ¬self.transactionPool.has transactionId then pure ()
  else
    removeTransactions ctx removeRedeemers (transactionId ::
      if removeRedeemers then self.transactionPool.getRedeemerIdsInPool transactionId else [])

/-- The removal of transactions with their redeemers, up to the first error. -/
def removeEach : List Hash → MempoolM F Unit
  | [] => pure ()
  | id :: ids => do
    removeTransaction ctx id true
    removeEach ids

/-! ## Replace by fee -/

def getDoubleSpendFeerate (self : Mempool F) (doubleSpend : DoubleSpend) : Except RuleError F := do
  let owner ← self.transactionPool.getDoubleSpendOwner doubleSpend
  match owner.mtx.calculatedFeerate ctx.float with
  | some doubleSpendFeerate => .ok doubleSpendFeerate
  | none => .error doubleSpend.toRuleError

def validateDoubleSpendingTransaction (self : Mempool F) (transaction : MutableTransaction)
    (doubleSpend : DoubleSpend) : Except RuleError MempoolTransaction := do
  let owner ← self.transactionPool.getDoubleSpendOwner doubleSpend
  match transaction.calculatedFeerate ctx.float, owner.mtx.calculatedFeerate ctx.float with
  | some transactionFeerate, some doubleSpendFeerate =>
    if ctx.float.gt transactionFeerate doubleSpendFeerate then .ok owner
    else .error doubleSpend.toRuleError
  | _, _ => .error doubleSpend.toRuleError

/-- The greatest feerate of the double spends, at least `feerateThreshold`. -/
def maxDoubleSpendFeerate (self : Mempool F) :
    F → List DoubleSpend → Except RuleError F
  | feerateThreshold, [] => .ok feerateThreshold
  | feerateThreshold, doubleSpend :: doubleSpends => do
    let feerate ← self.getDoubleSpendFeerate ctx doubleSpend
    self.maxDoubleSpendFeerate (ctx.float.max feerateThreshold feerate) doubleSpends

def getReplaceByFeeConstraint (self : Mempool F) (transaction : MutableTransaction)
    (rbfPolicy : RbfPolicy) : Except RuleError (Option F) :=
  let utxoSet := self.transactionPool.utxoSet
  match rbfPolicy with
  | .forbidden => do
    utxoSet.checkDoubleSpends transaction
    return none
  | .allowed =>
    match utxoSet.getDoubleSpendTransactionIds transaction with
    | [] => .ok none
    | doubleSpends => some <$> self.maxDoubleSpendFeerate ctx ctx.float.zero doubleSpends
  | .mandatory =>
    match utxoSet.getDoubleSpendTransactionIds transaction with
    | [] => .error .rejectRbfNoDoubleSpend
    | [doubleSpend] => some <$> self.getDoubleSpendFeerate ctx doubleSpend
    | _ => .error .rejectRbfTooManyDoubleSpendingTransactions

/-- The validation against the double spends after the first. -/
def validateDoubleSpends (self : Mempool F) (transaction : MutableTransaction) :
    List DoubleSpend → Except RuleError Unit
  | [] => .ok ()
  | doubleSpend :: doubleSpends => do
    let _ ← self.validateDoubleSpendingTransaction ctx transaction doubleSpend
    self.validateDoubleSpends transaction doubleSpends

/-- The removal of the double spends with their redeemers. -/
def removeDoubleSpends : List DoubleSpend → MempoolM F Unit
  | [] => pure ()
  | doubleSpend :: doubleSpends => do
    removeTransaction ctx doubleSpend.ownerId true
    removeDoubleSpends doubleSpends

def executeReplaceByFee (transaction : MutableTransaction) (rbfPolicy : RbfPolicy) :
    MempoolM F (Option Transaction) := do
  let self ← get
  let utxoSet := self.transactionPool.utxoSet
  match rbfPolicy with
  | .forbidden => do
    orFail (utxoSet.checkDoubleSpends transaction)
    return none
  | .allowed =>
    match utxoSet.getDoubleSpendTransactionIds transaction with
    | [] => pure none
    | doubleSpend :: doubleSpends => do
      let removed ← orFail (self.validateDoubleSpendingTransaction ctx transaction doubleSpend)
      orFail (self.validateDoubleSpends ctx transaction doubleSpends)
      removeDoubleSpends ctx (doubleSpend :: doubleSpends)
      return some removed.mtx.tx
  | .mandatory =>
    match utxoSet.getDoubleSpendTransactionIds transaction with
    | [] => throw .rejectRbfNoDoubleSpend
    | [doubleSpend] => do
      let removed ← orFail (self.validateDoubleSpendingTransaction ctx transaction doubleSpend)
      removeTransaction ctx doubleSpend.ownerId true
      return some removed.mtx.tx
    | _ => throw .rejectRbfTooManyDoubleSpendingTransactions

/-! ## Before the validation of consensus -/

def validateTransactionUnacceptance (self : Mempool F) (transaction : MutableTransaction) :
    Except RuleError Unit :=
  if self.acceptedTransactions.has transaction.id then
    .error (.rejectAlreadyAccepted transaction.id)
  else .ok ()

def validateTransactionInIsolation (transaction : MutableTransaction) : MempoolM F Unit := do
  let self ← get
  if self.transactionPool.has transaction.id then throw (.rejectDuplicate transaction.id)
  else if ctx.config.acceptNonStandard then pure ()
  else checkTransactionStandardInIsolation ctx transaction

/-- The round of `populate_mempool_entries` for input `i`. The index into the outputs of the parent
is not checked. -/
def populateEntry (self : Mempool F) (transaction : MutableTransaction)
    (input : TransactionInput × ℕ) : Option MutableTransaction :=
  match self.transactionPool.get input.1.previousOutpoint.transactionId with
  | some parent => do
    let output ← parent.mtx.tx.outputs[input.1.previousOutpoint.index]?
    return transaction.setEntry input.2 (some (unacceptedEntry output))
  | none => some transaction

def populateMempoolEntries (self : Mempool F) (transaction : MutableTransaction) :
    Option MutableTransaction :=
  transaction.tx.inputs.zipIdx.foldlM self.populateEntry transaction

def preValidateAndPopulateTransaction (transaction : MutableTransaction) (rbfPolicy : RbfPolicy) :
    MempoolM F (TransactionPreValidation F) := do
  let self ← get
  orFail (self.validateTransactionUnacceptance transaction)
  let transaction := { transaction with
    calculatedNonContextualMasses :=
      some (ctx.calculateTransactionNonContextualMasses transaction.tx) }
  validateTransactionInIsolation ctx transaction
  let feerateThreshold ← orFail (self.getReplaceByFeeConstraint ctx transaction rbfPolicy)
  let transaction ← unwrap (self.populateMempoolEntries transaction)
  return ⟨transaction, feerateThreshold⟩

/-! ## After the validation of consensus -/

def validateTransactionInContext (transaction : MutableTransaction) : MempoolM F Unit :=
  if ctx.config.acceptNonStandard then pure ()
  else checkTransactionStandardInContext ctx transaction

/-- There is room for a transaction of the given size. -/
def hasRoom (self : Mempool F) (transactionSize : ℕ) : Bool :=
  self.transactionPool.len < ctx.config.maximumTransactionCount &&
    self.transactionPool.estimatedSize + transactionSize ≤ ctx.config.mempoolSizeLimit

/-- The loop that makes room: it stops as soon as there is enough. -/
def makeRoom (transactionSize : ℕ) : List Hash → MempoolM F Unit
  | [] => pure ()
  | x :: txsToRemove => do
    removeTransaction ctx x true
    let self ← get
    if self.hasRoom ctx transactionSize then pure () else makeRoom transactionSize txsToRemove

/-- The insertion of a transaction that consensus has validated. -/
def insertTransaction (transaction : MutableTransaction) (priority : Priority)
    (rbfPolicy : RbfPolicy) : MempoolM F TransactionPostValidation := do
  validateTransactionInContext ctx transaction
  let removedTransaction ← executeReplaceByFee ctx transaction rbfPolicy
  let transactionSize := ctx.mempoolEstimatedBytes transaction
  let txsToRemove ← onPool (TransactionsPool.limitTransactionCount ctx transaction transactionSize)
  makeRoom ctx transactionSize txsToRemove
  ensure ((← get).hasRoom ctx transactionSize)
  let accepted ← onPool (TransactionsPool.addTransaction ctx transaction ctx.virtualDaaScore
    priority transactionSize)
  return ⟨removedTransaction, some accepted.mtx.tx⟩

def postValidateAndInsertTransaction (validationResult : Except RuleError Unit)
    (transaction : MutableTransaction) (priority : Priority) (orphan : Orphan)
    (rbfPolicy : RbfPolicy) : MempoolM F TransactionPostValidation := do
  let self ← get
  if self.transactionPool.has transaction.id then throw (.rejectDuplicate transaction.id)
  else do
    orFail (self.validateTransactionUnacceptance transaction)
    match validationResult with
    | .ok _ => insertTransaction ctx transaction priority rbfPolicy
    | .error .rejectMissingOutpoint =>
      if orphan = .forbidden then throw (.rejectDisallowedOrphan transaction.id)
      else do
        let _ ← orFail (self.getReplaceByFeeConstraint ctx transaction rbfPolicy)
        onOrphans (OrphanPool.tryAddOrphan ctx ctx.virtualDaaScore transaction priority)
        return ⟨none, none⟩
    | .error err => throw err

end Mempool

end LapisMonetae.Mining
