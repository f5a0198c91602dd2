import LapisMonetae.Ghostdag.Chain
import LapisMonetae.Window.FullWindow
import Mathlib.Logic.Function.Basic

/-!
# Sampled block windows

After the Crescendo activation a window has only every `sample_rate`-th block of the mergesets on
the selected chain, and no blocks from before the activation. A window is inherited from the cached
window of the selected parent, merged with the cached window of a chain ancestor, or collected by a
walk down the chain. Which manager builds the window of a block depends on the DAA score of its
selected parent.
-/

namespace LapisMonetae.Window

open Ghostdag Function

/-! ## Heaps -/

def BlockWindowHeap.append (heap other : BlockWindowHeap) : BlockWindowHeap :=
  other.blocks.foldl BlockWindowHeap.push heap

namespace BoundedSizeBlockHeap

def canPush (heap : BoundedSizeBlockHeap) (block : SortableBlock) : Option Bool :=
  if heap.reachedSizeBound then
    heap.binaryHeap.peek.map fun least => decide (SortableBlock.le least block)
  else some true

/-- `merge_ancestor_heap`: the blocks of both heaps, and then the least ones are popped until the
size bound is kept. -/
def mergeAncestorHeap (heap : BoundedSizeBlockHeap) (ancestorHeap : BlockWindowHeap) :
    BoundedSizeBlockHeap :=
  let merged := heap.binaryHeap.append ancestorHeap
  { heap with
    binaryHeap := BlockWindowHeap.pop^[merged.blocks.length - heap.sizeBound] merged }

end BoundedSizeBlockHeap

inductive SampledBlock where
  | sampled (block : SortableBlock)
  | nonDaa (hash : Hash)
deriving DecidableEq, Repr

namespace BoundedSizeBlockHeap

/-- The loop of `push_mergeset` with a non-DAA inserter: all samples are offered to the heap. The
hashes are those passed to the inserter. -/
def pushAll (heap : BoundedSizeBlockHeap) : List SampledBlock → BoundedSizeBlockHeap × List Hash
  | [] => (heap, [])
  | .sampled block :: rest => (heap.tryPush block).1.pushAll rest
  | .nonDaa hash :: rest =>
    let (heap, mergesetNonDaa) := heap.pushAll rest
    (heap, hash :: mergesetNonDaa)

/-- The loop of `push_mergeset` without an inserter, which returns at the first sample that is not
pushed. -/
def pushUntilRejected (heap : BoundedSizeBlockHeap) : List SampledBlock → BoundedSizeBlockHeap
  | [] => heap
  | .sampled block :: rest =>
    match heap.tryPush block with
    | (heap, true) => heap.pushUntilRejected rest
    | (heap, false) => heap
  | .nonDaa _ :: rest => heap.pushUntilRejected rest

end BoundedSizeBlockHeap

/-! ## The sampled window manager -/

/-- `SampledWindowManager`, with the stores and the two window caches. -/
structure SampledWindowManager where
  genesisHash : Hash
  ghostdagStore : GhostdagManager
  blockWindowCacheForDifficulty : Hash → Option BlockWindowHeap
  blockWindowCacheForPastMedianTime : Hash → Option BlockWindowHeap
  crescendoActivation : ForkActivation
  difficultyWindowSize : ℕ
  difficultySampleRate : ℕ
  pastMedianTimeWindowSize : ℕ
  pastMedianTimeSampleRate : ℕ

namespace SampledWindowManager

variable (w : SampledWindowManager)

def windowSize : WindowType → ℕ
  | .difficultyWindow => w.difficultyWindowSize
  | .medianTimeWindow => w.pastMedianTimeWindowSize
  | .varyingWindow size => size

def sampleRate : WindowType → ℕ
  | .difficultyWindow => w.difficultySampleRate
  | .medianTimeWindow => w.pastMedianTimeSampleRate
  | .varyingWindow _ => 1

/-- `difficulty_full_window_size` of the difficulty manager. -/
def difficultyFullWindowSize : ℕ := w.difficultyWindowSize * w.difficultySampleRate

/-- `lowest_daa_blue_score` of the difficulty manager. -/
def lowestDaaBlueScore (ghostdagData : GhostdagData) : ℕ :=
  max ghostdagData.blueScore w.difficultyFullWindowSize - w.difficultyFullWindowSize

def isWindowBlockCrescendoActivated (selectedParent : Hash) : Option Bool :=
  if selectedParent = BlockHash.origin then some true
  else (w.ghostdagStore.getDaaScore selectedParent).map w.crescendoActivation.isActive

/-- `AffiliatedWindowCache::get` for the sampled origin, over the cache of the window type. -/
def cacheGet (windowType : WindowType) (hash : Hash) : Option BlockWindowHeap :=
  let innerCache := match windowType with
    | .difficultyWindow => some w.blockWindowCacheForDifficulty
    | .medianTimeWindow => some w.blockWindowCacheForPastMedianTime
    | .varyingWindow _ => none
  (innerCache.bind fun cache => cache hash).filter fun window => window.origin = .sampled

/-- The `filter_map` of `sampled_mergeset_iterator`, with the index of the last DAA block. -/
def sampleBlocks (sampleRate selectedParentDaaScore blueScoreThreshold : ℕ) :
    ℕ → List SortableBlock → Option (List SampledBlock)
  | _, [] => some []
  | index, block :: rest => do
    let compact ← w.ghostdagStore.getData block.hash
    if compact.blueScore < blueScoreThreshold then
      let items ← sampleBlocks sampleRate selectedParentDaaScore blueScoreThreshold index rest
      return .nonDaa block.hash :: items
    else
      let activated ← w.isWindowBlockCrescendoActivated compact.selectedParent
      if !activated then
        -- the block is filtered, but it is counted
        sampleBlocks sampleRate selectedParentDaaScore blueScoreThreshold (index + 1) rest
      else if sampleRate = 0 then none
      else do
        let items ←
          sampleBlocks sampleRate selectedParentDaaScore blueScoreThreshold (index + 1) rest
        if (selectedParentDaaScore + (index + 1)) % sampleRate = 0 then
          return .sampled block :: items
        else return items

/-- `sampled_mergeset_iterator`. The code returns an iterator; here the whole sequence is
computed. -/
def sampledMergesetIterator (sampleRate : ℕ) (ghostdagData : GhostdagData)
    (selectedParentBlueWork : ℕ) : Option (List SampledBlock) := do
  let selectedParentDaaScore ← w.ghostdagStore.getDaaScore ghostdagData.selectedParent
  let mergeset ← descendingMergesetWithoutSelectedParent w.ghostdagStore ghostdagData
  w.sampleBlocks sampleRate selectedParentDaaScore (w.lowestDaaBlueScore ghostdagData) 0
    (⟨ghostdagData.selectedParent, selectedParentBlueWork⟩ :: mergeset)

/-- `try_init_from_cache`: the cached window of the selected parent with the samples of the
mergeset, and the non-DAA blocks of the mergeset. -/
def tryInitFromCache (windowType : WindowType) (ghostdagData : GhostdagData)
    (selectedParentBlueWork : ℕ) : Option (Option (BlockWindowHeap × List Hash)) :=
  match w.cacheGet windowType ghostdagData.selectedParent with
  | none => some none
  | some selectedParentWindow => do
    let items ← w.sampledMergesetIterator (w.sampleRate windowType) ghostdagData
      selectedParentBlueWork
    let (heap, mergesetNonDaa) :=
      (⟨selectedParentWindow, w.windowSize windowType⟩ : BoundedSizeBlockHeap).pushAll items
    return some (heap.binaryHeap, mergesetNonDaa)

/-- The loop of `build_block_window` down the selected chain. -/
def walkChain (windowType : WindowType) : ℕ → BoundedSizeBlockHeap → GhostdagData →
    Option (Except RuleError BoundedSizeBlockHeap)
  | 0, _, _ => none
  | fuel + 1, windowHeap, current =>
    if current.selectedParent = BlockHash.origin then
      if windowHeap.reachedSizeBound then some (.ok windowHeap)
      else some (.error (.insufficientDaaWindowSize windowHeap.binaryHeap.blocks.length))
    else if current.selectedParent = w.genesisHash then some (.ok windowHeap)
    else do
      let activated ← w.isWindowBlockCrescendoActivated current.selectedParent
      if !activated then return .ok windowHeap
      else
        let parentGhostdag ← w.ghostdagStore.getData current.selectedParent
        let fits ← windowHeap.canPush ⟨current.selectedParent, parentGhostdag.blueWork⟩
        if !fits then return .ok windowHeap
        else
          let items ← w.sampledMergesetIterator (w.sampleRate windowType) current
            parentGhostdag.blueWork
          let windowHeap := windowHeap.pushUntilRejected items
          -- `try_merge_with_selected_parent_cache`
          match w.cacheGet windowType current.selectedParent with
          | some selectedParentWindow =>
            return .ok (windowHeap.mergeAncestorHeap selectedParentWindow)
          | none => walkChain windowType fuel windowHeap parentGhostdag

/-- `build_block_window`: the window and the hashes passed to the non-DAA inserter. -/
def buildBlockWindow (fuel : ℕ) (ghostdagData : GhostdagData) (windowType : WindowType) :
    Option (Except RuleError (BlockWindowHeap × List Hash)) :=
  let windowSize := w.windowSize windowType
  if windowSize = 0 then some (.ok (BlockWindowHeap.new .sampled, []))
  else if ghostdagData.selectedParent = w.genesisHash then
    -- genesis does not enter the window, as its timestamp is fixed
    some (.ok (BlockWindowHeap.new .sampled, [w.genesisHash]))
  else if ghostdagData.selectedParent = BlockHash.origin then
    some (.error (.insufficientDaaWindowSize 0))
  else do
    let selectedParentBlueWork ← w.ghostdagStore.getBlueWork ghostdagData.selectedParent
    match ← w.tryInitFromCache windowType ghostdagData selectedParentBlueWork with
    | some res => return .ok res
    | none =>
      let items ← w.sampledMergesetIterator (w.sampleRate windowType) ghostdagData
        selectedParentBlueWork
      let (windowHeap, mergesetNonDaa) :=
        (⟨BlockWindowHeap.new .sampled, windowSize⟩ : BoundedSizeBlockHeap).pushAll items
      let current ← w.ghostdagStore.getData ghostdagData.selectedParent
      let res ← w.walkChain windowType fuel windowHeap current
      return res.map fun windowHeap => (windowHeap.binaryHeap, mergesetNonDaa)

def blockWindow (fuel : ℕ) (ghostdagData : GhostdagData) (windowType : WindowType) :
    Option (Except RuleError BlockWindowHeap) :=
  (w.buildBlockWindow fuel ghostdagData windowType).map fun res => res.map Prod.fst

end SampledWindowManager

/-! ## The dual window manager -/

/-- What `DualWindowManager::new` is given: both managers work on the same stores and the same
caches. -/
structure DualWindowManager where
  genesisHash : Hash
  ghostdagStore : GhostdagManager
  blockWindowCacheForDifficulty : Hash → Option BlockWindowHeap
  blockWindowCacheForPastMedianTime : Hash → Option BlockWindowHeap
  crescendoActivation : ForkActivation
  fullDifficultyWindowSize : ℕ
  sampledDifficultyWindowSize : ℕ
  difficultySampleRate : ℕ
  fullPastMedianTimeWindowSize : ℕ
  sampledPastMedianTimeWindowSize : ℕ
  pastMedianTimeSampleRate : ℕ

namespace DualWindowManager

variable (w : DualWindowManager)

def fullWindowManager : FullWindowManager where
  genesisHash := w.genesisHash
  ghostdagStore := w.ghostdagStore
  blockWindowCacheForDifficulty := w.blockWindowCacheForDifficulty
  blockWindowCacheForPastMedianTime := w.blockWindowCacheForPastMedianTime
  difficultyWindowSize := w.fullDifficultyWindowSize
  pastMedianTimeWindowSize := w.fullPastMedianTimeWindowSize

def sampledWindowManager : SampledWindowManager where
  genesisHash := w.genesisHash
  ghostdagStore := w.ghostdagStore
  blockWindowCacheForDifficulty := w.blockWindowCacheForDifficulty
  blockWindowCacheForPastMedianTime := w.blockWindowCacheForPastMedianTime
  crescendoActivation := w.crescendoActivation
  difficultyWindowSize := w.sampledDifficultyWindowSize
  difficultySampleRate := w.difficultySampleRate
  pastMedianTimeWindowSize := w.sampledPastMedianTimeWindowSize
  pastMedianTimeSampleRate := w.pastMedianTimeSampleRate

def sampling (selectedParent : Hash) : Option Bool :=
  (w.ghostdagStore.getDaaScore selectedParent).map w.crescendoActivation.isActive

def blockWindow (fuel : ℕ) (ghostdagData : GhostdagData) (windowType : WindowType) :
    Option (Except RuleError BlockWindowHeap) := do
  if ← w.sampling ghostdagData.selectedParent then
    w.sampledWindowManager.blockWindow fuel ghostdagData windowType
  else w.fullWindowManager.buildBlockWindow fuel ghostdagData windowType

/-- `BlockWindowCacheWriter::insert` and `remove` on the cache of a window type; windows of varying
size are not cached. -/
def setCached (windowType : WindowType) (hash : Hash) (window : Option BlockWindowHeap) :
    DualWindowManager :=
  match windowType with
  | .difficultyWindow =>
    { w with blockWindowCacheForDifficulty := update w.blockWindowCacheForDifficulty hash window }
  | .medianTimeWindow =>
    { w with
      blockWindowCacheForPastMedianTime :=
        update w.blockWindowCacheForPastMedianTime hash window }
  | .varyingWindow _ => w

/-- The manager with empty caches. -/
def clearCaches : DualWindowManager :=
  { w with
    blockWindowCacheForDifficulty := fun _ => none
    blockWindowCacheForPastMedianTime := fun _ => none }

/-- The contents of the caches over time: they start empty, receive the windows that are built for
stored blocks with the caches as they are then, and entries may be evicted at any time. -/
inductive CacheRun (w : DualWindowManager) : DualWindowManager → Prop
  | start : CacheRun w w.clearCaches
  | insert {w' : DualWindowManager} (hrun : CacheRun w w') {hash : Hash} {data : GhostdagData}
      (hdata : w.ghostdagStore.getData hash = some data) (windowType : WindowType) {fuel : ℕ}
      {window : BlockWindowHeap} (hbuild : w'.blockWindow fuel data windowType = some (.ok window)) :
      CacheRun w (w'.setCached windowType hash (some window))
  | evict {w' : DualWindowManager} (hrun : CacheRun w w') (windowType : WindowType) (hash : Hash) :
      CacheRun w (w'.setCached windowType hash none)

end DualWindowManager

end LapisMonetae.Window
