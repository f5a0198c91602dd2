import LapisMonetae.Mempool.Mempool

/-!
# New blocks and expirations

How transactions leave the mempool other than by removals and replacements: they are accepted in a
block, they conflict with a block, or they expire. An orphan whose last missing entry is an output of
an accepted transaction is taken out of the orphan pool and returned, to be inserted after consensus
has validated it.
-/

namespace LapisMonetae.Mining

open Utxo Tx Program

/-! ## Orphans that are completed -/

/-- The entry of the first input of an orphan that spends `outpoint` is filled, if it is missing. The
result is the orphan that is complete with it. -/
def OrphanPool.fillEntry (outpoint : TransactionOutpoint) (output : TransactionOutput)
    (self : OrphanPool) : OrphanPool × Option Hash :=
  match self.outpointOrphan outpoint with
  | none => (self, none)
  | some orphan =>
    match orphan.mtx.tx.inputs.findIdx? (·.previousOutpoint == outpoint) with
    | none => (self, none)
    | some i =>
      if orphan.mtx.entries[i]? = some none then
        let orphan :=
          { orphan with mtx := orphan.mtx.setEntry i (some (unacceptedEntry output)) }
        ({ self with all := self.all.insert orphan },
          if orphan.mtx.isVerifiable then some orphan.id else none)
      else (self, none)

def AcceptedTransactions.add (self : AcceptedTransactions) (transactionId : Hash) (daaScore : ℕ) :
    AcceptedTransactions := self.insert transactionId daaScore

namespace Mempool

variable {F : Type} [LinearOrder F] (ctx : Context F)

def getOrphanTransactionRbfPolicy : Priority → RbfPolicy
  | .high => .forbidden
  | .low => .allowed

/-- `unorphan_transaction`. It panics unless exactly one orphan was removed. -/
def unorphanTransaction (transactionId : Hash) : MempoolM F MempoolTransaction := do
  let transactions ← onOrphans (OrphanPool.removeOrphan transactionId false)
  match transactions with
  | [transaction] => do
    let self ← get
    orFail (self.validateTransactionUnacceptance transaction.mtx)
    let _ ← orFail (self.getReplaceByFeeConstraint ctx transaction.mtx
      (getOrphanTransactionRbfPolicy transaction.priority))
    return transaction
  | _ => unwrap none

/-- The end of a round of `get_unorphaned_transactions_after_accepted_transaction`. An orphan that
fails is dropped. -/
def unorphanIfComplete (orphanId : Option Hash) : MempoolM F (List MempoolTransaction) :=
  match orphanId with
  | none => pure []
  | some orphanId => do
    match ← attempt (unorphanTransaction ctx orphanId) with
    | .ok unorphanedTx => pure [unorphanedTx]
    | .error _ => pure []

/-- The loop of `get_unorphaned_transactions_after_accepted_transaction`. -/
def unorphanLoop (transactionId : Hash) :
    List (TransactionOutput × ℕ) → MempoolM F (List MempoolTransaction)
  | [] => pure []
  | (output, i) :: outputs => do
    let self ← get
    let (orphanPool, orphanId) := self.orphanPool.fillEntry ⟨transactionId, i⟩ output
    set { self with orphanPool := orphanPool }
    let unorphanedTx ← unorphanIfComplete ctx orphanId
    let unorphanedTransactions ← unorphanLoop transactionId outputs
    return unorphanedTx ++ unorphanedTransactions

def getUnorphanedTransactionsAfterAcceptedTransaction (transaction : Transaction) :
    MempoolM F (List MempoolTransaction) :=
  unorphanLoop ctx transaction.id transaction.outputs.zipIdx

/-! ## New blocks -/

/-- The pool transactions that spend an input of `transaction`. -/
def ownersOfInputs (self : Mempool F) (transaction : Transaction) : List Hash :=
  transaction.inputs.foldl (fun owners input =>
    match self.transactionPool.utxoSet.getOutpointOwnerId input.previousOutpoint with
    | some redeemerId => owners.insert redeemerId
    | none => owners) []

/-- `remove_double_spends`, for a transaction of a block. -/
def removeDoubleSpendsOf (transaction : Transaction) : MempoolM F Unit := do
  let self ← get
  removeEach ctx (self.ownersOfInputs transaction)

/-- The removal of a transaction of a block, without its redeemers. Those of an orphan would be
removed as well, so that an orphan is left to a later step. -/
def removeAccepted (transactionId : Hash) : MempoolM F Unit := do
  let self ← get
  if ¬self.orphanPool.has transactionId then removeTransaction ctx transactionId false
  else pure ()

/-- The round of `handle_new_block_transactions` for a transaction. -/
def handleBlockTransaction (blockDaaScore : ℕ) (transaction : Transaction) :
    MempoolM F (List MempoolTransaction) := do
  removeAccepted ctx transaction.id
  removeDoubleSpendsOf ctx transaction
  let _ ← onOrphans (OrphanPool.removeOrphan transaction.id false)
  modify fun self =>
    { self with
      acceptedTransactions := self.acceptedTransactions.add transaction.id blockDaaScore }
  getUnorphanedTransactionsAfterAcceptedTransaction ctx transaction

/-- The loop of `handle_new_block_transactions`. -/
def handleBlockTransactions (blockDaaScore : ℕ) :
    List Transaction → MempoolM F (List MempoolTransaction)
  | [] => pure []
  | transaction :: transactions => do
    let unorphaned ← handleBlockTransaction ctx blockDaaScore transaction
    let unorphanedTransactions ← handleBlockTransactions blockDaaScore transactions
    return unorphaned ++ unorphanedTransactions

/-- `handle_new_block_transactions`. The first transaction of the block, its coinbase, is left out;
there is a panic when there is none. -/
def handleNewBlockTransactions (blockDaaScore : ℕ) :
    List Transaction → MempoolM F (List MempoolTransaction)
  | [] => unwrap none
  | _ :: transactions => handleBlockTransactions ctx blockDaaScore transactions

end Mempool

/-! ## Expirations -/

/-- The part of `Config` that is about expirations. -/
structure ExpireConfig where
  transactionExpireIntervalDaaScore : ForkedParam ℕ
  transactionExpireScanIntervalDaaScore : ForkedParam ℕ
  transactionExpireScanIntervalMilliseconds : ℕ
  acceptedTransactionExpireIntervalDaaScore : ForkedParam ℕ
  acceptedTransactionExpireScanIntervalDaaScore : ForkedParam ℕ
  acceptedTransactionExpireScanIntervalMilliseconds : ℕ
  orphanExpireIntervalDaaScore : ForkedParam ℕ
  orphanExpireScanIntervalDaaScore : ForkedParam ℕ

/-- The DAA score and the time of a scan. -/
structure ExpireScan where
  daaScore : ℕ
  time : ℕ

/-- A scan follows the last one after the given intervals. -/
def ExpireScan.isDue (now last : ExpireScan) (daaScores milliseconds : ℕ) : Bool :=
  ¬(now.daaScore < last.daaScore + daaScores ∨ now.time < last.time + milliseconds)

variable (config : ExpireConfig)

/-- The low priority transactions that were added before the given interval. -/
def Pool.expiredLowPriorityTransactions (self : Pool) (virtualDaaScore interval : ℕ) : List Hash :=
  (self.all.values.filter fun tx =>
    tx.priority = .low ∧ virtualDaaScore > tx.addedAtDaaScore + interval).map MempoolTransaction.id

/-- The removal of expired orphans, up to the first error. -/
def OrphanPool.removeExpired : List Hash → OrphanM Unit
  | [] => pure ()
  | transactionId :: transactionIds => do
    let _ ← OrphanPool.removeOrphan transactionId false
    removeExpired transactionIds

/-- `OrphanPool::expire_low_priority_transactions`, with the DAA score of the last scan. -/
def OrphanPool.expireLowPriorityTransactions (lastExpireScan virtualDaaScore : ℕ) : OrphanM ℕ := do
  if virtualDaaScore < lastExpireScan +
      config.orphanExpireScanIntervalDaaScore.get virtualDaaScore then
    pure lastExpireScan
  else do
    let self ← get
    OrphanPool.removeExpired (self.expiredLowPriorityTransactions virtualDaaScore
      (config.orphanExpireIntervalDaaScore.get virtualDaaScore))
    return virtualDaaScore

/-- `AcceptedTransactions::expire`, with the last scan. -/
def AcceptedTransactions.expire (self : AcceptedTransactions) (last now : ExpireScan) :
    AcceptedTransactions × ExpireScan :=
  if now.isDue last (config.acceptedTransactionExpireScanIntervalDaaScore.get now.daaScore)
      config.acceptedTransactionExpireScanIntervalMilliseconds then
    let expiredTransactions := (self.entries.filter fun entry => now.daaScore >
      entry.2 + config.acceptedTransactionExpireIntervalDaaScore.get now.daaScore).map Sigma.fst
    (expiredTransactions.foldl (fun transactions id => transactions.erase id) self, now)
  else (self, last)

/-- `TransactionsPool::collect_expired_low_priority_transactions`, with the last scan. -/
def TransactionsPool.collectExpiredLowPriorityTransactions {F : Type} [LinearOrder F]
    (self : TransactionsPool F) (last now : ExpireScan) : List Hash × ExpireScan :=
  if now.isDue last (config.transactionExpireScanIntervalDaaScore.get now.daaScore)
      config.transactionExpireScanIntervalMilliseconds then
    (self.expiredLowPriorityTransactions now.daaScore
      (config.transactionExpireIntervalDaaScore.get now.daaScore), now)
  else ([], last)

/-- The removal of expired transactions with their redeemers. A transaction that cannot be removed is
passed over. -/
def Mempool.removeExpired {F : Type} [LinearOrder F] (ctx : Context F) : List Hash → MempoolM F Unit
  | [] => pure ()
  | transactionId :: transactionIds => do
    let _ ← attempt (Mempool.removeTransaction ctx transactionId true)
    removeExpired ctx transactionIds

end LapisMonetae.Mining
