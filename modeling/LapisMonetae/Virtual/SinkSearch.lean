import LapisMonetae.Virtual.UtxoValidation

/-!
# UTXO states relative to virtual and the search for the sink

`calculate_utxo_state_relatively` moves the diff of a chain block from virtual to the diff of
another one: down to the split point of their chains by the reversed diffs, and up again by the
stored diffs or, where there is none yet, by validating the block. The stores it writes are passed
along.

`sink_search_algorithm` looks for the virtual selected parent in the inclusive past of the tips. The
best candidate of a heap is the sink if it respects finality and has a valid UTXO state, and is
replaced by its parents otherwise. As before, `none` is a panic or the end of the fuel of a loop.
-/

namespace LapisMonetae.Virtual

open Utxo Ghostdag

inductive BlockStatus where
  | statusUTXOValid
  | statusUTXOPendingVerification
  | statusDisqualifiedFromChain
deriving DecidableEq, Repr

/-- The stores that `calculate_utxo_state_relatively` writes. -/
structure UtxoStores (M : Type) where
  statuses : Hash → Option BlockStatus
  utxoDiffs : Hash → Option UtxoDiff
  utxoMultisets : Hash → Option M
  acceptanceData : Hash → Option (List MergesetBlockAcceptanceData)
  pruningSamples : Hash → Option Hash

namespace UtxoStores

variable {M : Type}

/-- `statuses_store.set`. -/
def setStatus (stores : UtxoStores M) (hash : Hash) (status : BlockStatus) : UtxoStores M :=
  { stores with statuses := Function.update stores.statuses hash (some status) }

/-- `commit_utxo_state`. The insertions fail on a key that exists, other than that of the pruning
sample, which is then kept. -/
def commitUtxoState (stores : UtxoStores M) (current : Hash) (mergesetDiff : UtxoDiff)
    (multiset : M) (acceptanceData : List MergesetBlockAcceptanceData)
    (pruningSampleFromPov : Hash) : Option (UtxoStores M) :=
  if (stores.utxoDiffs current).isSome ∨ (stores.utxoMultisets current).isSome ∨
      (stores.acceptanceData current).isSome then
    none
  else
    some
      { statuses := Function.update stores.statuses current (some .statusUTXOValid)
        utxoDiffs := Function.update stores.utxoDiffs current (some mergesetDiff)
        utxoMultisets := Function.update stores.utxoMultisets current (some multiset)
        acceptanceData := Function.update stores.acceptanceData current (some acceptanceData)
        pruningSamples :=
          if (stores.pruningSamples current).isSome then stores.pruningSamples
          else Function.update stores.pruningSamples current (some pruningSampleFromPov) }

end UtxoStores

/-- The local variables of the walk up: `diff` is the diff of `diffPoint` from virtual. -/
structure Relative (M : Type) where
  stores : UtxoStores M
  diff : UtxoDiff
  diffPoint : Hash

namespace VirtualStateProcessor

variable {M : Type} [MultisetHash M] (p : VirtualStateProcessor M)

omit [MultisetHash M] in
/-- The walk down to the split point, along `default_backward_chain_iterator`, which reads the next
block before it hands out the current one and ends before origin. -/
def walkDown (stores : UtxoStores M) (target : Hash) :
    ℕ → UtxoDiff → Hash → Option (UtxoDiff × Hash)
  | 0, _, _ => none
  | fuel + 1, diff, current =>
    if current = BlockHash.origin then
      -- `expect("chain iterator was expected to reach the reorg split point")`
      none
    else do
      let next ← p.reachabilityService.getChainParent current
      if ← p.reachabilityService.isChainAncestorOf current target then
        return (diff, current)
      else
        let mergesetDiff ← stores.utxoDiffs current
        let diff ← unwrapDiff (diff.withDiffInPlace mergesetDiff.asReversed)
        walkDown stores target fuel diff next

/-- The validation of a block without a stored diff. -/
def validateChainBlock (utxoSet : UtxoView) (s : Relative M) (selectedParent current : Hash) :
    Option (Relative M) := do
  let header ← p.getHeader current
  let mergesetData ← p.ghostdagManager.getData current
  let selectedParentMultisetHash ← s.stores.utxoMultisets selectedParent
  let selectedParentUtxoView := utxoSet.compose s.diff
  let ctx ← p.calculateUtxoState (.new mergesetData selectedParentMultisetHash)
    selectedParentUtxoView header.daaScore
  match ← p.verifyExpectedUtxoState ctx selectedParentUtxoView header with
  | .error _ =>
    return { s with stores := s.stores.setStatus current .statusDisqualifiedFromChain }
  | .ok ctx =>
    let diff ← unwrapDiff (s.diff.withDiffInPlace ctx.mergesetDiff)
    -- `expect("verified")`
    let pruningSampleFromPov ← ctx.pruningSampleFromPov
    let stores ← s.stores.commitUtxoState current ctx.mergesetDiff ctx.multisetHash
      ctx.mergesetAcceptanceData pruningSampleFromPov
    return ⟨stores, diff, current⟩

/-- One round of the walk up. -/
def stepUp (utxoSet : UtxoView) (s : Relative M) (selectedParent current : Hash) :
    Option (Relative M) := do
  if selectedParent ≠ s.diffPoint then
    -- the selected parent is disqualified, and so is the block
    let status ← s.stores.statuses current
    if status ≠ .statusDisqualifiedFromChain then
      return { s with stores := s.stores.setStatus current .statusDisqualifiedFromChain }
    else
      return s
  else
    match s.stores.utxoDiffs current with
    | some mergesetDiff =>
      let diff ← unwrapDiff (s.diff.withDiffInPlace mergesetDiff)
      return { s with diff, diffPoint := current }
    | none =>
      let status ← s.stores.statuses current
      if status = .statusDisqualifiedFromChain then
        return s
      else
        p.validateChainBlock utxoSet s selectedParent current

/-- The walk up over the pairs of consecutive blocks of a chain. -/
def walkUp (utxoSet : UtxoView) : List (Hash × Hash) → Relative M → Option (Relative M)
  | [], s => some s
  | (selectedParent, current) :: rest, s => do
    let s ← p.stepUp utxoSet s selectedParent current
    walkUp utxoSet rest s

def calculateUtxoStateRelatively (fuel : ℕ) (utxoSet : UtxoView) (stores : UtxoStores M)
    (diff : UtxoDiff) (source target : Hash) : Option (Relative M) := do
  -- avoid reorging if disqualified status is already known
  let status ← stores.statuses target
  if status = .statusDisqualifiedFromChain then
    return ⟨stores, diff, source⟩
  else
    let (diff, splitPoint) ← p.walkDown stores target fuel diff source
    let chain ← p.reachabilityService.forwardChain target fuel splitPoint
    p.walkUp utxoSet (chain.zip (chain.drop 1)) ⟨stores, diff, splitPoint⟩

end VirtualStateProcessor

/-- `BinaryHeap<SortableBlock>`: the blocks in the order in which the heap pops them. -/
structure CandidateHeap where
  blocks : List SortableBlock
  sorted : blocks.Pairwise fun a b => SortableBlock.le b a

namespace CandidateHeap

instance : Std.Total fun a b : SortableBlock => SortableBlock.le b a :=
  ⟨fun a b => le_total (α := ℕ ×ₗ ℕ) b.key a.key⟩

instance : IsTrans SortableBlock fun a b => SortableBlock.le b a :=
  ⟨fun _ _ _ h1 h2 => le_trans (α := ℕ ×ₗ ℕ) h2 h1⟩

def push (heap : CandidateHeap) (block : SortableBlock) : CandidateHeap :=
  ⟨heap.blocks.orderedInsert (fun a b => SortableBlock.le b a) block,
    heap.sorted.orderedInsert block _⟩

/-- The heap without its greatest block. -/
def rest (heap : CandidateHeap) : CandidateHeap := ⟨heap.blocks.tail, heap.sorted.tail⟩

/-- `collect::<BinaryHeap<_>>()`. -/
def collect : List SortableBlock → CandidateHeap
  | [] => ⟨[], List.Pairwise.nil⟩
  | block :: blocks => (collect blocks).push block

end CandidateHeap

/-- What the search returns: the new sink with its diff from virtual, and the other candidates. -/
structure SinkSearchResult (M : Type) where
  relative : Relative M
  sink : Hash
  queue : List Hash

namespace VirtualStateProcessor

variable {M : Type} [MultisetHash M] (p : VirtualStateProcessor M)

omit [MultisetHash M] in
/-- The loop over the parents of a rejected candidate. -/
def pushParents (finalityPoint : Hash) : List Hash → CandidateHeap → Option CandidateHeap
  | [], heap => some heap
  | parent :: rest, heap => do
    if ← p.ghostdagManager.isDagAncestorOf finalityPoint parent then
      if ← p.ghostdagManager.isDagAncestorOfAny parent (heap.blocks.map SortableBlock.hash) then
        pushParents finalityPoint rest heap
      else
        let block ← p.ghostdagManager.sortableBlock parent
        pushParents finalityPoint rest (heap.push block)
    else
      pushParents finalityPoint rest heap

omit [MultisetHash M] in
/-- The heap after a rejected candidate was popped: its parents take its place. -/
def replaceCandidate (finalityPoint candidate : Hash) (heap : CandidateHeap) :
    Option CandidateHeap := do
  let parents ← p.ghostdagManager.getParents candidate
  p.pushParents finalityPoint parents heap

omit [MultisetHash M] in
/-- The candidates left in the heap, without those of lower blue work than the merge depth root of
the sink. -/
def remainingCandidates (sink : Hash) (heap : CandidateHeap) : Option (List Hash) := do
  let filteringRoot ← p.mergeDepthRoot sink
  let filteringBlueWork := (p.ghostdagManager.getBlueWork filteringRoot).getD 0
  return (heap.blocks.takeWhile fun s => decide (filteringBlueWork ≤ s.blueWork)).map
    SortableBlock.hash

/-- The rounds of the search. The UTXO states are resolved with the fuel `stateFuel`. -/
def searchSink (stateFuel : ℕ) (utxoSet : UtxoView) (finalityPoint : Hash) :
    ℕ → Relative M → CandidateHeap → Option (SinkSearchResult M)
  | 0, _, _ => none
  | fuel + 1, s, heap => do
    -- `expect("valid sink must exist")`
    let top ← heap.blocks.head?
    let candidate := top.hash
    let heap := heap.rest
    if ← p.reachabilityService.isChainAncestorOf finalityPoint candidate then
      let s ← p.calculateUtxoStateRelatively stateFuel utxoSet s.stores s.diff s.diffPoint candidate
      if s.diffPoint = candidate then
        let queue ← p.remainingCandidates candidate heap
        return ⟨s, candidate, queue⟩
      else
        -- the candidate has an invalid UTXO state
        let heap ← p.replaceCandidate finalityPoint candidate heap
        searchSink stateFuel utxoSet finalityPoint fuel s heap
    else
      -- the candidate violates finality
      let heap ← p.replaceCandidate finalityPoint candidate heap
      searchSink stateFuel utxoSet finalityPoint fuel s heap

/-- `sink_search_algorithm`. The diff and the stores of the previous sink are those of `s`. -/
def sinkSearchAlgorithm (fuel : ℕ) (utxoSet : UtxoView) (s : Relative M) (tips : List Hash)
    (finalityPoint : Hash) : Option (SinkSearchResult M) := do
  let blocks ← tips.mapM p.ghostdagManager.sortableBlock
  p.searchSink fuel utxoSet finalityPoint fuel s (.collect blocks)

end VirtualStateProcessor

end LapisMonetae.Virtual
