import LapisMonetae.Ghostdag.Protocol
import LapisMonetae.Lib.MergeJoin

/-!
# Full block windows

The window of a block is made of the blocks of its past with the greatest blue work. It is
inherited from the cached window of the selected parent, or rebuilt by walking down the selected
chain. As before, `none` is a panic or the end of the fuel of a loop.
-/

namespace LapisMonetae.Window

open Ghostdag

inductive WindowType where
  | difficultyWindow
  | medianTimeWindow
  | varyingWindow (size : ℕ)
deriving DecidableEq, Repr

inductive WindowOrigin where
  | full
  | sampled
deriving DecidableEq, Repr

/-- The rule error of a window that is too short. -/
inductive RuleError where
  | insufficientDaaWindowSize (size : ℕ)
deriving DecidableEq, Repr

/-! ## Heaps -/

/-- `BlockWindowHeap`: a binary heap of reversed blocks, so that the block with the least blue work
is on top. The list has the blocks in the order in which the heap pops them. -/
structure BlockWindowHeap where
  blocks : List SortableBlock
  origin : WindowOrigin
  sorted : blocks.Pairwise SortableBlock.le

namespace BlockWindowHeap

def new (origin : WindowOrigin) : BlockWindowHeap := ⟨[], origin, List.Pairwise.nil⟩

def peek (heap : BlockWindowHeap) : Option SortableBlock := heap.blocks.head?

/-- `BinaryHeap::pop`, without the popped block. -/
def pop (heap : BlockWindowHeap) : BlockWindowHeap :=
  ⟨heap.blocks.tail, heap.origin, heap.sorted.tail⟩

def push (heap : BlockWindowHeap) (block : SortableBlock) : BlockWindowHeap :=
  ⟨heap.blocks.orderedInsert SortableBlock.le block, heap.origin, heap.sorted.orderedInsert block _⟩

end BlockWindowHeap

structure BoundedSizeBlockHeap where
  binaryHeap : BlockWindowHeap
  sizeBound : ℕ

namespace BoundedSizeBlockHeap

def reachedSizeBound (heap : BoundedSizeBlockHeap) : Prop :=
  heap.binaryHeap.blocks.length = heap.sizeBound

instance (heap : BoundedSizeBlockHeap) : Decidable heap.reachedSizeBound :=
  inferInstanceAs (Decidable (_ = _))

/-- `try_push`: the heap and whether the block was pushed. -/
def tryPush (heap : BoundedSizeBlockHeap) (block : SortableBlock) : BoundedSizeBlockHeap × Bool :=
  if heap.reachedSizeBound then
    match heap.binaryHeap.peek with
    | some least =>
      if SortableBlock.lt block least then (heap, false)
      else ({ heap with binaryHeap := heap.binaryHeap.pop.push block }, true)
    | none => ({ heap with binaryHeap := heap.binaryHeap.pop.push block }, true)
  else ({ heap with binaryHeap := heap.binaryHeap.push block }, true)

/-- The loop of `try_push_mergeset` over the mergeset, which ends at the first block that is not
pushed. -/
def pushWhileFits (heap : BoundedSizeBlockHeap) : List SortableBlock → BoundedSizeBlockHeap
  | [] => heap
  | block :: rest =>
    match heap.tryPush block with
    | (heap, true) => heap.pushWhileFits rest
    | (heap, false) => heap

end BoundedSizeBlockHeap

/-! ## The mergeset in descending order -/

/-- `descending_mergeset_without_selected_parent`. The code returns an iterator; here the whole
sequence is computed. -/
def descendingMergesetWithoutSelectedParent (store : GhostdagManager) (data : GhostdagData) :
    Option (List SortableBlock) := do
  let blues ← (data.mergesetBlues.drop 1).reverse.mapM store.sortableBlock
  let reds ← data.mergesetReds.reverse.mapM store.sortableBlock
  -- `merge_join_by`, which panics where a blue block equals a red one
  MergeJoin.mergeJoin (fun a b => SortableBlock.lt b a) blues reds

/-! ## The window manager -/

/-- `FullWindowManager`, with the ghostdag store and the two window caches. -/
structure FullWindowManager where
  genesisHash : Hash
  ghostdagStore : GhostdagManager
  blockWindowCacheForDifficulty : Hash → Option BlockWindowHeap
  blockWindowCacheForPastMedianTime : Hash → Option BlockWindowHeap
  difficultyWindowSize : ℕ
  pastMedianTimeWindowSize : ℕ

namespace FullWindowManager

variable (w : FullWindowManager)

def windowSize : WindowType → ℕ
  | .difficultyWindow => w.difficultyWindowSize
  | .medianTimeWindow => w.pastMedianTimeWindowSize
  | .varyingWindow size => size

/-- `AffiliatedWindowCache::get` for the full origin, over the cache that `build_block_window`
chooses for the size. -/
def cacheGet (windowSize : ℕ) (hash : Hash) : Option BlockWindowHeap :=
  let innerCache :=
    if windowSize = w.difficultyWindowSize then some w.blockWindowCacheForDifficulty
    else if windowSize = w.pastMedianTimeWindowSize then some w.blockWindowCacheForPastMedianTime
    else none
  (innerCache.bind fun cache => cache hash).filter fun window => window.origin = .full

/-- `try_push_mergeset`: the heap and whether the blue work of the selected parent is too low. -/
def tryPushMergeset (heap : BoundedSizeBlockHeap) (ghostdagData : GhostdagData)
    (selectedParentBlueWork : ℕ) : Option (BoundedSizeBlockHeap × Bool) :=
  match heap.tryPush ⟨ghostdagData.selectedParent, selectedParentBlueWork⟩ with
  | (heap, false) => some (heap, true)
  | (heap, true) => do
    let mergeset ← descendingMergesetWithoutSelectedParent w.ghostdagStore ghostdagData
    return (heap.pushWhileFits mergeset, false)

/-- The loop of `build_block_window` down the selected chain. -/
def walkChain : ℕ → BoundedSizeBlockHeap → GhostdagData →
    Option (Except RuleError BoundedSizeBlockHeap)
  | 0, _, _ => none
  | fuel + 1, windowHeap, current =>
    if current.selectedParent = BlockHash.origin then
      if windowHeap.reachedSizeBound then some (.ok windowHeap)
      else some (.error (.insufficientDaaWindowSize windowHeap.binaryHeap.blocks.length))
    else if current.selectedParent = w.genesisHash then some (.ok windowHeap)
    else do
      let parentGhostdag ← w.ghostdagStore.getData current.selectedParent
      let (windowHeap, selectedParentBlueWorkTooLow) ←
        w.tryPushMergeset windowHeap current parentGhostdag.blueWork
      if selectedParentBlueWorkTooLow then return .ok windowHeap
      else walkChain fuel windowHeap parentGhostdag

def buildBlockWindow (fuel : ℕ) (ghostdagData : GhostdagData) (windowType : WindowType) :
    Option (Except RuleError BlockWindowHeap) :=
  let windowSize := w.windowSize windowType
  if windowSize = 0 then some (.ok (BlockWindowHeap.new .full))
  else
    match w.cacheGet windowSize ghostdagData.selectedParent with
    | some selectedParentBinaryHeap =>
      let windowHeap : BoundedSizeBlockHeap := ⟨selectedParentBinaryHeap, windowSize⟩
      if ghostdagData.selectedParent = w.genesisHash then some (.ok windowHeap.binaryHeap)
      else do
        let blueWork ← w.ghostdagStore.getBlueWork ghostdagData.selectedParent
        let (windowHeap, _) ← w.tryPushMergeset windowHeap ghostdagData blueWork
        return .ok windowHeap.binaryHeap
    | none => do
      let windowHeap ← w.walkChain fuel ⟨BlockWindowHeap.new .full, windowSize⟩ ghostdagData
      return windowHeap.map BoundedSizeBlockHeap.binaryHeap

end FullWindowManager

end LapisMonetae.Window
