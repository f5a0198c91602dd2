import LapisMonetae.Mempool.Pool

/-!
# The orphan pool

The pool of transactions that wait for missing UTXO entries.
-/

namespace LapisMonetae.Mining

open Utxo Tx Program

structure OrphanPool extends Pool where
  outpointOwnerId : OutpointIndex

/-- Programs of the orphan pool. -/
abbrev OrphanM := Program OrphanPool RuleError

/-- The removal of `other` from the set of `id`, which is removed as well if it is then empty. -/
def TransactionsEdges.unlinkOrErase (self : TransactionsEdges) (id other : Hash) :
    TransactionsEdges :=
  match self.lookup id with
  | some others =>
    let others := others.filter (· ≠ other)
    if others.isEmpty then self.erase id else self.insert id others
  | none => self

namespace OrphanPool

def new : OrphanPool where
  all := .empty
  chained := ∅
  outpointOwnerId := ∅

def outpointOrphan (self : OrphanPool) (outpoint : TransactionOutpoint) :
    Option MempoolTransaction :=
  (self.outpointOwnerId.lookup outpoint).bind self.all.get

def checkOrphanDuplicate (self : OrphanPool) (transaction : MutableTransaction) :
    Except RuleError Unit :=
  if self.has transaction.id then .error (.rejectDuplicateOrphan transaction.id) else .ok ()

/-- `check_orphan_mass`. It panics when the masses are missing. -/
def checkOrphanMass {σ F : Type} (ctx : Context F) (transaction : MutableTransaction) :
    Program σ RuleError Unit := do
  let masses ← unwrap transaction.calculatedNonContextualMasses
  if masses.max > ctx.config.maximumOrphanTransactionMass then
    throw (.rejectBadOrphanMass masses.max ctx.config.maximumOrphanTransactionMass)
  else pure ()

def checkOrphanDoubleSpend (self : OrphanPool) (transaction : MutableTransaction) :
    Except RuleError Unit :=
  match transaction.tx.inputs.findSome? (fun input =>
    (self.outpointOrphan input.previousOutpoint).filter (·.id ≠ transaction.id)) with
  | some doubleSpendOrphan =>
    .error (.rejectDoubleSpendOrphan transaction.id doubleSpendOrphan.id)
  | none => .ok ()

def getRandomLowPriorityOrphan (self : OrphanPool) : Option MempoolTransaction :=
  self.all.values.find? (·.priority = .low)

/-- The round of `remove_single_orphan` for input `i`, with the error so far. -/
def removeOutpoint (id : Hash) (acc : OutpointIndex × Option RuleError)
    (input : TransactionInput × ℕ) : OutpointIndex × Option RuleError :=
  (acc.1.erase input.1.previousOutpoint,
    if (acc.1.lookup input.1.previousOutpoint).isNone then
      some (.rejectMissingOrphanOutpoint input.2 id input.1.previousOutpoint)
    else acc.2)

/-- The orphan pool without an orphan of it, and the error for a missing outpoint. -/
def dropOrphan (self : OrphanPool) (transaction : MempoolTransaction) :
    OrphanPool × Option RuleError :=
  let all := self.all.remove transaction.id
  let parents := Pool.getParentTransactionIdsInPool ⟨all, self.chained⟩ transaction.mtx
  let chained := parents.foldl (fun chained parentId =>
    chained.unlinkOrErase parentId transaction.id) self.chained
  let (outpointOwnerId, error) := transaction.mtx.tx.inputs.zipIdx.foldl
    (removeOutpoint transaction.id) (self.outpointOwnerId, none)
  (⟨⟨all, chained.erase transaction.id⟩, outpointOwnerId⟩, error)

def removeSingleOrphan (transactionId : Hash) : OrphanM MempoolTransaction := do
  let self ← get
  match self.all.get transactionId with
  | some transaction => do
    let (self, error) := self.dropOrphan transaction
    set self
    match error with
    | none => pure transaction
    | some err => throw err
  | none => throw (.rejectMissingOrphanTransaction transactionId)

/-- The removal of one orphan after the other, up to the first error. -/
def removeOrphans : List Hash → OrphanM (List MempoolTransaction)
  | [] => pure []
  | id :: ids => do
    let transaction ← removeSingleOrphan id
    let transactions ← removeOrphans ids
    return transaction :: transactions

def removeOrphan (transactionId : Hash) (removeRedeemers : Bool) :
    OrphanM (List MempoolTransaction) := do
  let self ← get
  if ¬self.has transactionId then pure []
  else
    removeOrphans (transactionId ::
      if removeRedeemers then self.getRedeemerIdsInPool transactionId else [])

/-- The loop of `limit_orphan_pool_size`, in which every round removes an orphan. -/
def limitOrphanPoolLoop {F : Type} (ctx : Context F) (freeSlots : ℕ) : ℕ → OrphanM Unit
  | 0 => unwrap none
  | fuel + 1 => do
    let self ← get
    if self.len + freeSlots > ctx.config.maximumOrphanTransactionCount then
      match self.getRandomLowPriorityOrphan with
      | none =>
        throw (.rejectOrphanPoolIsFull self.len ctx.config.maximumOrphanTransactionCount)
      | some orphanToRemove => do
        let _ ← removeOrphan orphanToRemove.id false
        limitOrphanPoolLoop ctx freeSlots fuel
    else pure ()

def limitOrphanPoolSize {F : Type} (ctx : Context F) (freeSlots : ℕ) : OrphanM Unit := do
  let self ← get
  limitOrphanPoolLoop ctx freeSlots (self.len + 1)

def addOrphan (virtualDaaScore : ℕ) (transaction : MutableTransaction) (priority : Priority)
    (self : OrphanPool) : OrphanPool :=
  let id := transaction.id
  let outpointOwnerId := transaction.tx.inputs.foldl (fun (index : OutpointIndex) input =>
    index.insert input.previousOutpoint id) self.outpointOwnerId
  let chained := (self.getParentTransactionIdsInPool transaction).foldl
    (fun chained parentId => chained.link parentId id) self.chained
  -- the orphans that spend an output of the new one
  let outgoing := (List.range transaction.tx.outputs.length).filterMap fun i =>
    (outpointOrphan ⟨⟨self.all, chained⟩, outpointOwnerId⟩ ⟨id, i⟩).map MempoolTransaction.id
  { all := self.all.insert ⟨transaction, priority, virtualDaaScore⟩
    chained := outgoing.foldl (fun chained orphan => chained.link id orphan) chained
    outpointOwnerId := outpointOwnerId }

def tryAddOrphan {F : Type} (ctx : Context F) (virtualDaaScore : ℕ)
    (transaction : MutableTransaction) (priority : Priority) : OrphanM Unit := do
  if ctx.config.maximumOrphanTransactionCount = 0 then pure ()
  else do
    let self ← get
    orFail (self.checkOrphanDuplicate transaction)
    checkOrphanMass ctx transaction
    orFail (self.checkOrphanDoubleSpend transaction)
    limitOrphanPoolSize ctx 1
    modify (addOrphan virtualDaaScore transaction priority)

/-- The entries of an orphan without those of the outputs of `removedId`. -/
def forgetEntries (removedId : Hash) (orphan : MempoolTransaction) : MempoolTransaction :=
  { orphan with
    mtx := orphan.mtx.tx.inputs.zipIdx.foldl (fun mtx input =>
      if input.1.previousOutpoint.transactionId = removedId then mtx.setEntry input.2 none
      else mtx) orphan.mtx }

/-- The round of `update_orphans_after_transaction_removed` for output `i`. -/
def forgetOutput (removedId : Hash) (self : OrphanPool) (i : ℕ) : OrphanPool :=
  match self.outpointOrphan ⟨removedId, i⟩ with
  | some orphan => { self with all := self.all.insert (forgetEntries removedId orphan) }
  | none => self

def updateOrphansAfterTransactionRemoved (removedTransaction : MempoolTransaction)
    (removeRedeemers : Bool) : OrphanM (List MempoolTransaction) := do
  if removeRedeemers then do
    let self ← get
    removeOrphans (self.getRedeemerIdsInPool removedTransaction.id)
  else do
    modify fun self => (List.range removedTransaction.mtx.tx.outputs.length).foldl
      (forgetOutput removedTransaction.id) self
    pure []

end OrphanPool

end LapisMonetae.Mining
