import LapisMonetae.Lib.Search
import LapisMonetae.Mempool.Transaction

/-!
# The transactions pool

The pool of transactions that may enter a block template: the transactions by their ids, the edges
between them, the frontier of the transactions without parents in the pool, and the UTXO set of the
pool. Hash maps are `AList`s and hash sets are lists, whose order stands for the iteration order.
-/

namespace LapisMonetae.Mining

open Utxo Tx Program

/-! ## Collections -/

/-- `MempoolTransactionCollection`: transactions by their ids. -/
structure MempoolTransactionCollection where
  map : AList fun _ : Hash => MempoolTransaction
  id_eq : ∀ id tx, map.lookup id = some tx → tx.id = id

namespace MempoolTransactionCollection

/-- The empty collection. -/
def empty : MempoolTransactionCollection := ⟨∅, fun _ _ h => nomatch h⟩

/-- The transaction with an id. -/
def get (self : MempoolTransactionCollection) (id : Hash) : Option MempoolTransaction :=
  self.map.lookup id

/-- The number of transactions. -/
def len (self : MempoolTransactionCollection) : ℕ := self.map.entries.length

/-- The transactions, in the iteration order of the map. -/
def values (self : MempoolTransactionCollection) : List MempoolTransaction :=
  self.map.entries.map Sigma.snd

/-- The insertion of a transaction under its id. -/
def insert (self : MempoolTransactionCollection) (tx : MempoolTransaction) :
    MempoolTransactionCollection where
  map := self.map.insert tx.id tx
  id_eq := fun id tx' h => by
    by_cases hid : id = tx.id
    · subst hid
      rw [AList.lookup_insert] at h
      cases h
      rfl
    · rw [AList.lookup_insert_ne hid] at h
      exact self.id_eq id tx' h

/-- The removal of the transaction with an id. -/
def remove (self : MempoolTransactionCollection) (id : Hash) : MempoolTransactionCollection where
  map := self.map.erase id
  id_eq := fun id' tx h => by
    by_cases hid : id' = id
    · subst hid
      rw [AList.lookup_erase] at h
      cases h
    · rw [AList.lookup_erase_ne hid] at h
      exact self.id_eq id' tx h

end MempoolTransactionCollection

/-- `OutpointIndex`: the transaction that spends an outpoint. -/
abbrev OutpointIndex := AList fun _ : TransactionOutpoint => Hash

abbrev TransactionIdSet := List Hash

abbrev TransactionsEdges := AList fun _ : Hash => TransactionIdSet

namespace TransactionsEdges

/-- The set of a transaction, which is empty where the map has none. -/
def edgesOf (self : TransactionsEdges) (id : Hash) : TransactionIdSet := (self.lookup id).getD []

/-- `self.entry(id).or_default().insert(other)`. -/
def link (self : TransactionsEdges) (id other : Hash) : TransactionsEdges :=
  self.insert id ((self.edgesOf id).insert other)

/-- The removal of `other` from the set of `id`, if there is one. -/
def unlink (self : TransactionsEdges) (id other : Hash) : TransactionsEdges :=
  match self.lookup id with
  | some others => self.insert id (others.filter (· ≠ other))
  | none => self

end TransactionsEdges

/-! ## Pools -/

/-- The trait `Pool`: the transactions of a pool and their successors in it. -/
structure Pool where
  all : MempoolTransactionCollection
  chained : TransactionsEdges

namespace Pool

def has (self : Pool) (transactionId : Hash) : Bool := (self.all.get transactionId).isSome

def get (self : Pool) (transactionId : Hash) : Option MempoolTransaction :=
  self.all.get transactionId

def len (self : Pool) : ℕ := self.all.len

def getParentTransactionIdsInPool (self : Pool) (transaction : MutableTransaction) :
    TransactionIdSet :=
  transaction.tx.inputs.foldl (fun parents input =>
    if self.has input.previousOutpoint.transactionId then
      parents.insert input.previousOutpoint.transactionId
    else parents) []

/-- The transactions in the pool that are directly chained to a transaction. -/
def chainedInPool (self : Pool) (transactionId : Hash) : List Hash :=
  (self.chained.edgesOf transactionId).filter fun id => self.has id

/-- `get_redeemer_ids_in_pool`. The set `visited` of the source has the ids of `descendants`, and
every transaction of the pool is expanded once. -/
def getRedeemerIdsInPool (self : Pool) (transactionId : Hash) : List Hash :=
  if self.has transactionId then
    Search.search self.chainedInPool (self.len + 2) [transactionId] []
  else []

end Pool

/-! ## The UTXO set of the pool -/

structure MempoolUtxoSet where
  poolUnspentOutputs : UtxoCollection
  outpointOwnerId : OutpointIndex

namespace MempoolUtxoSet

def new : MempoolUtxoSet := ⟨∅, ∅⟩

/-- The round of `add_transaction` for input `i`: the outpoint that is deleted has the id of the
transaction itself. -/
def addInput (transactionId : Hash) (self : MempoolUtxoSet) (input : TransactionInput × ℕ) :
    MempoolUtxoSet where
  poolUnspentOutputs := self.poolUnspentOutputs.erase ⟨transactionId, input.2⟩
  outpointOwnerId := self.outpointOwnerId.insert input.1.previousOutpoint transactionId

/-- The round of `add_transaction` for output `i`. -/
def addOutput (transactionId : Hash) (self : MempoolUtxoSet) (output : TransactionOutput × ℕ) :
    MempoolUtxoSet :=
  { self with
    poolUnspentOutputs :=
      self.poolUnspentOutputs.insert ⟨transactionId, output.2⟩ (unacceptedEntry output.1) }

def addTransaction (self : MempoolUtxoSet) (transaction : MutableTransaction) : MempoolUtxoSet :=
  transaction.tx.outputs.zipIdx.foldl (addOutput transaction.id)
    (transaction.tx.inputs.zipIdx.foldl (addInput transaction.id) self)

/-- The round of `remove_transaction` for an input and its entry. -/
def removeInput (parentIdsInPool : TransactionIdSet) (self : MempoolUtxoSet)
    (input : TransactionInput × Option UtxoEntry) : MempoolUtxoSet where
  poolUnspentOutputs :=
    match input.2 with
    | some entry =>
      if parentIdsInPool.contains input.1.previousOutpoint.transactionId then
        self.poolUnspentOutputs.insert input.1.previousOutpoint entry
      else self.poolUnspentOutputs
    | none => self.poolUnspentOutputs
  outpointOwnerId := self.outpointOwnerId.erase input.1.previousOutpoint

/-- The round of `remove_transaction` for output `i`. -/
def removeOutput (transactionId : Hash) (self : MempoolUtxoSet) (i : ℕ) : MempoolUtxoSet :=
  { self with poolUnspentOutputs := self.poolUnspentOutputs.erase ⟨transactionId, i⟩ }

def removeTransaction (self : MempoolUtxoSet) (transaction : MutableTransaction)
    (parentIdsInPool : TransactionIdSet) : MempoolUtxoSet :=
  (List.range transaction.tx.outputs.length).foldl (removeOutput transaction.id)
    ((transaction.tx.inputs.zip transaction.entries).foldl (removeInput parentIdsInPool) self)

def getOutpointOwnerId (self : MempoolUtxoSet) (outpoint : TransactionOutpoint) : Option Hash :=
  self.outpointOwnerId.lookup outpoint

/-- The double spend of an input, unless the transaction itself owns the outpoint. -/
def doubleSpendOf (self : MempoolUtxoSet) (transactionId : Hash) (input : TransactionInput) :
    Option DoubleSpend :=
  match self.getOutpointOwnerId input.previousOutpoint with
  | some ownerId =>
    if ownerId ≠ transactionId then some ⟨input.previousOutpoint, ownerId⟩ else none
  | none => none

def getFirstDoubleSpend (self : MempoolUtxoSet) (transaction : MutableTransaction) :
    Option DoubleSpend :=
  transaction.tx.inputs.findSome? (self.doubleSpendOf transaction.id)

def checkDoubleSpends (self : MempoolUtxoSet) (transaction : MutableTransaction) :
    Except RuleError Unit :=
  match self.getFirstDoubleSpend transaction with
  | some doubleSpend => .error doubleSpend.toRuleError
  | none => .ok ()

/-- `get_double_spend_transaction_ids`: the first double spend of every owner. -/
def getDoubleSpendTransactionIds (self : MempoolUtxoSet) (transaction : MutableTransaction) :
    List DoubleSpend :=
  transaction.tx.inputs.foldl (fun doubleSpends input =>
    match self.doubleSpendOf transaction.id input with
    | some doubleSpend =>
      if doubleSpends.any (·.ownerId == doubleSpend.ownerId) then doubleSpends
      else doubleSpends ++ [doubleSpend]
    | none => doubleSpends) []

end MempoolUtxoSet

/-! ## The transactions pool -/

structure Config where
  maximumTransactionCount : ℕ
  mempoolSizeLimit : ℕ
  maximumOrphanTransactionMass : ℕ
  maximumOrphanTransactionCount : ℕ
  acceptNonStandard : Bool
  minimumRelayTransactionFee : ℕ
  minimumStandardTransactionVersion : ℕ
  maximumStandardTransactionVersion : ℕ

/-- What the mempool reads and never changes: its configuration, the arithmetic of feerates, the
size of a transaction in memory, and the answers of consensus. -/
structure Context (F : Type) where
  config : Config
  float : FloatOps F
  /-- `mempool_estimated_bytes` -/
  mempoolEstimatedBytes : MutableTransaction → ℕ
  /-- `consensus.calculate_transaction_non_contextual_masses` -/
  calculateTransactionNonContextualMasses : Transaction → NonContextualMasses
  /-- `consensus.get_virtual_daa_score` -/
  virtualDaaScore : ℕ

structure TransactionsPool (F : Type) [LinearOrder F] extends Pool where
  parentTransactions : TransactionsEdges
  readyTransactions : Frontier F
  estimatedSize : ℕ
  utxoSet : MempoolUtxoSet

/-- Programs of the transactions pool. -/
abbrev PoolM (F : Type) [LinearOrder F] := Program (TransactionsPool F) RuleError

namespace TransactionsPool

variable {F : Type} [LinearOrder F]

instance : CoeOut (TransactionsPool F) Pool := ⟨toPool⟩

def new : TransactionsPool F where
  all := .empty
  chained := ∅
  parentTransactions := ∅
  readyTransactions := .default
  estimatedSize := 0
  utxoSet := .new

/-- The insertion of the key of a transaction into the frontier. -/
def insertReady (ctx : Context F) (tx : MempoolTransaction) : PoolM F Unit := do
  let key ← unwrap (FeerateTransactionKey.ofTransaction ctx.float tx)
  modify fun pool => { pool with readyTransactions := pool.readyTransactions.insert key }

/-- A transaction without parents in the pool is ready. -/
def insertIfReady (ctx : Context F) (parents : TransactionIdSet) (tx : MempoolTransaction) :
    PoolM F Unit :=
  if parents.isEmpty then insertReady ctx tx else pure ()

def addMempoolTransaction (ctx : Context F) (transaction : MempoolTransaction)
    (transactionSize : ℕ) : PoolM F Unit := do
  let pool ← get
  ensure (¬pool.has transaction.id)
  ensure transaction.mtx.isFullyPopulated
  let parents := pool.getParentTransactionIdsInPool transaction.mtx
  insertIfReady ctx parents transaction
  modify fun pool =>
    { pool with
      parentTransactions := pool.parentTransactions.insert transaction.id parents
      chained := parents.foldl (fun chained parentId => chained.link parentId transaction.id)
        pool.chained
      utxoSet := pool.utxoSet.addTransaction transaction.mtx
      estimatedSize := pool.estimatedSize + transactionSize
      all := pool.all.insert transaction }

/-- The first loop of `remove_transaction`: the parents forget the transaction. -/
def unlinkParents (pool : TransactionsPool F) (transactionId : Hash) : TransactionsPool F :=
  match pool.parentTransactions.lookup transactionId with
  | some parents =>
    { pool with
      chained := parents.foldl (fun chained parent => chained.unlink parent transactionId)
        pool.chained }
  | none => pool

/-- A round of the second loop of `remove_transaction`: a successor forgets the transaction, and
becomes ready if it has no other parent. -/
def unlinkChain (ctx : Context F) (transactionId chain : Hash) : PoolM F Unit := do
  let pool ← get
  match pool.parentTransactions.lookup chain with
  | none => pure ()
  | some parents => do
    let parents := parents.filter (· ≠ transactionId)
    set { pool with parentTransactions := pool.parentTransactions.insert chain parents }
    if parents.isEmpty then do
      let tx ← unwrap (pool.all.get chain)
      insertReady ctx tx
    else pure ()

/-- The second loop of `remove_transaction`. -/
def unlinkChains (ctx : Context F) (transactionId : Hash) : List Hash → PoolM F Unit
  | [] => pure ()
  | chain :: chains => do
    unlinkChain ctx transactionId chain
    unlinkChains ctx transactionId chains

/-- The end of `remove_transaction`: the transaction leaves the pool, the frontier and the UTXO
set. -/
def dropTransaction (ctx : Context F) (transactionId : Hash) : PoolM F MempoolTransaction := do
  modify fun pool =>
    { pool with
      parentTransactions := pool.parentTransactions.erase transactionId
      chained := pool.chained.erase transactionId }
  let pool ← get
  match pool.all.get transactionId with
  | none => throw (.rejectMissingTransaction transactionId)
  | some removedTx => do
    let key ← unwrap (FeerateTransactionKey.ofTransaction ctx.float removedTx)
    let all := pool.all.remove transactionId
    let readyTransactions ← unwrap (pool.readyTransactions.remove key)
    let parentIds := Pool.getParentTransactionIdsInPool ⟨all, pool.chained⟩ removedTx.mtx
    let estimatedSize ←
      unwrap (checkedSub pool.estimatedSize (ctx.mempoolEstimatedBytes removedTx.mtx))
    set
      { pool with
        all := all
        readyTransactions := readyTransactions
        utxoSet := pool.utxoSet.removeTransaction removedTx.mtx parentIds
        estimatedSize := estimatedSize }
    ensure (all.len = 0 → estimatedSize = 0)
    return removedTx

def removeTransaction (ctx : Context F) (transactionId : Hash) : PoolM F MempoolTransaction := do
  modify fun pool => pool.unlinkParents transactionId
  let pool ← get
  unlinkChains ctx transactionId (pool.chained.edgesOf transactionId)
  dropTransaction ctx transactionId

def updateRevalidatedTransaction (ctx : Context F) (transaction : MutableTransaction) :
    PoolM F Bool := do
  let pool ← get
  match pool.all.get transaction.id with
  | none => pure false
  | some tx => do
    let estimatedSize ←
      unwrap (checkedSub pool.estimatedSize (ctx.mempoolEstimatedBytes tx.mtx))
    set
      { pool with
        all := pool.all.insert { tx with mtx := transaction }
        estimatedSize := estimatedSize + ctx.mempoolEstimatedBytes transaction }
    pure true

def addTransaction (ctx : Context F) (transaction : MutableTransaction) (virtualDaaScore : ℕ)
    (priority : Priority) (transactionSize : ℕ) : PoolM F MempoolTransaction := do
  addMempoolTransaction ctx ⟨transaction, priority, virtualDaaScore⟩ transactionSize
  unwrap ((← get).get transaction.id)

/-- The loop of `limit_transaction_count` over the frontier, with the transactions selected so far
and their size. -/
def limitLoop (ctx : Context F) (pool : TransactionsPool F) (transaction : MutableTransaction)
    (transactionSize : ℕ) (feerateThreshold : F) :
    List Transaction → List Hash → ℕ → PoolM F (List Hash)
  | [], _, _ => throw .rejectMempoolIsFull
  | ready :: rest, txsToRemove, selectionOverallSize => do
    let tx ← unwrap (pool.all.get ready.id)
    let redeemers := pool.getRedeemerIdsInPool tx.id ++ [tx.id]
    if tx.priority ≠ .low ∨ transaction.hasParentInSet redeemers then
      limitLoop ctx pool transaction transactionSize feerateThreshold rest txsToRemove
        selectionOverallSize
    else do
      let feerate ← unwrap (tx.mtx.calculatedFeerate ctx.float)
      if ctx.float.gt feerate feerateThreshold then throw .rejectMempoolIsFull
      else do
        let txsToRemove := txsToRemove ++ [tx.id]
        let selectionOverallSize := selectionOverallSize + ctx.mempoolEstimatedBytes tx.mtx
        let count ← unwrap (checkedSub (pool.len + 1) txsToRemove.length)
        if count ≤ ctx.config.maximumTransactionCount then do
          let size ← unwrap (checkedSub (pool.estimatedSize + transactionSize) selectionOverallSize)
          if size ≤ ctx.config.mempoolSizeLimit then pure txsToRemove
          else
            limitLoop ctx pool transaction transactionSize feerateThreshold rest txsToRemove
              selectionOverallSize
        else
          limitLoop ctx pool transaction transactionSize feerateThreshold rest txsToRemove
            selectionOverallSize

def limitTransactionCount (ctx : Context F) (transaction : MutableTransaction)
    (transactionSize : ℕ) : PoolM F (List Hash) := do
  let pool ← get
  if pool.len < ctx.config.maximumTransactionCount ∧
      pool.estimatedSize + transactionSize ≤ ctx.config.mempoolSizeLimit then pure []
  else do
    let feerateThreshold ← unwrap (transaction.calculatedFeerate ctx.float)
    limitLoop ctx pool transaction transactionSize feerateThreshold
      pool.readyTransactions.ascendingIter [] 0

def getDoubleSpendOwner (pool : TransactionsPool F) (doubleSpend : DoubleSpend) :
    Except RuleError MempoolTransaction :=
  match pool.get doubleSpend.ownerId with
  | some transaction => .ok transaction
  | none => .error doubleSpend.toRuleError

end TransactionsPool

end LapisMonetae.Mining
