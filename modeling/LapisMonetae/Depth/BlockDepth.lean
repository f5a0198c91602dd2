import LapisMonetae.Ghostdag.Chain

/-!
# Blocks at depth

`BlockDepthManager` finds the block of the selected chain at the merge depth or at the finality
depth below a block, and the blues that may be merged with blocks below it. As before, `none` is a
panic or the end of the fuel of a loop.
-/

namespace LapisMonetae.Depth

open Ghostdag

inductive BlockDepthType where
  | mergeRoot
  | finality
deriving DecidableEq, Repr

structure BlockDepthManager where
  mergeDepth : ForkedParam ℕ
  finalityDepth : ForkedParam ℕ
  genesisHash : Hash
  /-- `depth_store.merge_depth_root` -/
  mergeDepthRoot : Hash → Option Hash
  /-- `depth_store.finality_point` -/
  finalityPoint : Hash → Option Hash
  reachabilityService : ChainService
  ghostdagStore : GhostdagManager
  /-- `headers_store.get_daa_score` -/
  getDaaScore : Hash → Option ℕ

namespace BlockDepthManager

variable (m : BlockDepthManager)

/-- The loop of `calculate_block_at_depth` up the chain: the last block before the required blue
score is reached. -/
def advance (requiredBlueScore : ℕ) : List Hash → Hash → Option Hash
  | [], current => some current
  | chainBlock :: rest, current => do
    let blueScore ← m.ghostdagStore.getBlueScore chainBlock
    if requiredBlueScore ≤ blueScore then return current
    else advance requiredBlueScore rest chainBlock

def calculateBlockAtDepth (fuel : ℕ) (ghostdagData : GhostdagData) (depthType : BlockDepthType)
    (pruningPoint : Hash) : Option Hash :=
  if ghostdagData.selectedParent = BlockHash.origin then some BlockHash.origin
  else do
    let selectedParentDaaScore ← m.getDaaScore ghostdagData.selectedParent
    let depth := match depthType with
      | .mergeRoot => m.mergeDepth.get selectedParentDaaScore
      | .finality => m.finalityDepth.get selectedParentDaaScore
    if ghostdagData.blueScore < depth then return m.genesisHash
    let ppBs ← m.ghostdagStore.getBlueScore pruningPoint
    if ghostdagData.blueScore < ppBs + depth then return BlockHash.origin
    if !(← m.reachabilityService.isChainAncestorOf pruningPoint ghostdagData.selectedParent) then
      return BlockHash.origin
    let current ← match depthType with
      | .mergeRoot => m.mergeDepthRoot ghostdagData.selectedParent
      | .finality => m.finalityPoint ghostdagData.selectedParent
    -- the pruning point or a block above it is the block at depth
    let current := if current = BlockHash.origin then pruningPoint else current
    let requiredBlueScore := ghostdagData.blueScore - depth
    let chain ← m.reachabilityService.forwardChain ghostdagData.selectedParent fuel current
    m.advance requiredBlueScore chain current

def calcMergeDepthRoot (fuel : ℕ) (ghostdagData : GhostdagData) (pruningPoint : Hash) :
    Option Hash :=
  m.calculateBlockAtDepth fuel ghostdagData .mergeRoot pruningPoint

def calcFinalityPoint (fuel : ℕ) (ghostdagData : GhostdagData) (pruningPoint : Hash) :
    Option Hash :=
  m.calculateBlockAtDepth fuel ghostdagData .finality pruningPoint

/-- The blues of a list that have `mergeDepthRoot` on their selected chain. -/
def filterKosherizing (mergeDepthRoot : Hash) : List Hash → Option (List Hash)
  | [] => some []
  | blue :: rest => do
    let onChain ← m.reachabilityService.isChainAncestorOf mergeDepthRoot blue
    let rest ← filterKosherizing mergeDepthRoot rest
    return if onChain then blue :: rest else rest

/-- `kosherizing_blues`. The code returns an iterator; here the whole sequence is computed. -/
def kosherizingBlues (ghostdagData : GhostdagData) (mergeDepthRoot : Hash) : Option (List Hash) :=
  m.filterKosherizing mergeDepthRoot ghostdagData.mergesetBlues

end BlockDepthManager

end LapisMonetae.Depth
