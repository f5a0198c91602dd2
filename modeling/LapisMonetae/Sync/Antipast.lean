import LapisMonetae.Ghostdag.Chain

/-!
# Antipasts between two blocks

`SyncManager::antipast_hashes_between` lists the blocks that a peer at `low` misses below `high`,
mergeset by mergeset along the selected chain of `high`.
-/

namespace LapisMonetae.Sync

open Ghostdag

/-- `SyncManager`, with the stores and services that `antipast_hashes_between` reads. -/
structure SyncManager where
  mergesetSizeLimit : ForkedParam ℕ
  reachabilityService : ChainService
  ghostdagStore : GhostdagManager

/-- Whether a number of blocks is above `max_blocks`. Without a limit the code compares with
`usize::MAX`, which no list of blocks reaches. -/
def aboveMaxBlocks (maxBlocks : Option ℕ) (n : ℕ) : Bool :=
  match maxBlocks with
  | some maxBlocks => decide (maxBlocks < n)
  | none => false

namespace SyncManager

variable (s : SyncManager)

/-- `find_highest_common_chain_block`. The backward iterator reads the next block before it hands
out the current one, and ends at origin. -/
def findHighestCommonChainBlock (high : Hash) : ℕ → Hash → Option Hash
  | 0, _ => none
  | fuel + 1, current =>
    if current = BlockHash.origin then
      -- `expect("because of the pruning rules such block has to exist")`
      none
    else do
      let next ← s.reachabilityService.getChainParent current
      if (← s.reachabilityService.isChainAncestorOf current high) then
        return current
      else
        findHighestCommonChainBlock high fuel next

/-- The blocks of a list that are not in the past of `low`, nor `low` itself. -/
def filterAntipast (low : Hash) : List Hash → Option (List Hash)
  | [] => some []
  | hash :: rest => do
    let inPast ← s.ghostdagStore.isDagAncestorOf hash low
    let rest ← filterAntipast low rest
    return if inPast then rest else hash :: rest

/-- The loop of `antipast_hashes_between` up the chain: the blocks collected so far and the highest
chain block reached. -/
def collectMergesets (low : Hash) (maxBlocks : Option ℕ) :
    List Hash → List Hash × Hash → Option (List Hash × Hash)
  | [], state => some state
  | current :: rest, (blocks, highestReached) => do
    let gd ← s.ghostdagStore.getData current
    if aboveMaxBlocks maxBlocks (blocks.length + gd.mergesetSize) then
      return (blocks, highestReached)
    else
      let mergeset ← s.ghostdagStore.consensusOrderedMergeset gd
      let antipast ← s.filterAntipast low mergeset
      collectMergesets low maxBlocks rest (blocks ++ antipast, current)

def antipastHashesBetween (fuel : ℕ) (low high : Hash) (maxBlocks : Option ℕ) :
    Option (List Hash × Hash) :=
  if aboveMaxBlocks maxBlocks s.mergesetSizeLimit.upperBound then
    -- `assert!(max_blocks >= self.mergeset_size_limit.upper_bound() as usize)`
    none
  else do
    let originalLow := low
    let low ← s.findHighestCommonChainBlock high fuel low
    let lowBs ← s.ghostdagStore.getBlueScore low
    let highBs ← s.ghostdagStore.getBlueScore high
    if highBs < lowBs then
      -- `assert!(low_bs <= high_bs)`
      none
    else
      let chain ← s.reachabilityService.forwardChain high fuel low
      let (blocks, highestReached) ←
        s.collectMergesets originalLow maxBlocks (chain.drop 1) ([], low)
      if low = highestReached then
        return (blocks, highestReached)
      else
        return (blocks ++ [highestReached], highestReached)

end SyncManager

end LapisMonetae.Sync
