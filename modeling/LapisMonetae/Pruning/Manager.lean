import LapisMonetae.Params

/-!
# The pruning point manager

The two computations of the pruning point. The older one (v1) keeps a global pruning point and a
candidate block, and walks the selected chain up from the candidate. The newer one (v2) walks
down a linked list of pruning samples. Before the Crescendo activation the node runs both and
asserts that they agree.

`none` is a panic (an unwrap of missing data or a failed assertion), or the end of the fuel that
bounds the loops.
-/

namespace LapisMonetae.Pruning

/-- The header fields that the pruning point computation reads. -/
structure Header where
  daaScore : ℕ
  blueScore : ℕ
  pruningPoint : Hash
deriving DecidableEq, Repr

/-- The ghostdag fields that the pruning point computation reads. -/
structure CompactGhostdagData where
  blueScore : ℕ
  selectedParent : Hash
deriving DecidableEq, Repr

/-- The stores and services behind the manager. -/
structure Stores where
  /-- `headers_store` -/
  header : Hash → Option Header
  /-- `ghostdag_store`: the blue score -/
  ghostdagBlueScore : Hash → Option ℕ
  /-- `pruning_samples_store` -/
  pruningSampleFromPov : Hash → Option Hash
  /-- `reachability_service.is_chain_ancestor_of` -/
  isChainAncestorOf : Hash → Hash → Option Bool
  /-- `reachability_service.is_dag_ancestor_of_result`, without a value for a missing block -/
  isDagAncestorOfResult : Hash → Hash → Option Bool
  /-- `get_next_chain_ancestor(descendant, ancestor)` -/
  getNextChainAncestor : Hash → Hash → Option Hash

namespace Stores

/-- `headers_store.get_blue_score` -/
def blueScore (st : Stores) (hash : Hash) : Option ℕ := (st.header hash).map Header.blueScore

/-- `headers_store.get_daa_score` -/
def daaScore (st : Stores) (hash : Hash) : Option ℕ := (st.header hash).map Header.daaScore

end Stores

/-- The number of hops over pruning samples from a sample to its pruning point. -/
def samplesSteps (pruningDepth finalityDepth : ℕ) : ℕ :=
  (pruningDepth + finalityDepth - 1) / finalityDepth

/-- `PruningPointManager`, with the conditions that its constructor asserts. -/
structure PruningPointManager where
  pruningDepth : ForkedParam ℕ
  finalityDepth : ForkedParam ℕ
  genesisHash : Hash
  stores : Stores
  finalityDepth_pos : 0 < finalityDepth.before
  finalityDepth_le : finalityDepth.before ≤ finalityDepth.after
  finalityDepth_mod : finalityDepth.after % finalityDepth.before = 0
  pruningDepth_le : pruningDepth.before ≤ pruningDepth.after
  samplesSteps_eq : samplesSteps pruningDepth.before finalityDepth.before =
    samplesSteps pruningDepth.after finalityDepth.after

structure ForwardChainIterator where
  current : Option Hash
  descendant : Hash
  inclusive : Bool

/-- `next`: the item and the iterator after it; the step up the chain is made before the item is
handed out. -/
def ForwardChainIterator.next (st : Stores) (it : ForwardChainIterator) :
    Option (Option Hash × ForwardChainIterator) :=
  match it.current with
  | some current =>
    if current = it.descendant then
      if it.inclusive then
        some (some current, { it with current := none })
      else
        some (none, { it with current := none })
    else do
      let next ← st.getNextChainAncestor it.descendant current
      return (some current, { it with current := some next })
  | none => some (none, it)

namespace PruningPointManager

variable (m : PruningPointManager)

def pruningSamplesSteps : ℕ := samplesSteps m.pruningDepth.before m.finalityDepth.before

/-- The sampling epoch of a blue score: `finality_score`. -/
def finalityScore (blueScore finalityDepth : ℕ) : ℕ := blueScore / finalityDepth

/-- A block is a pruning sample iff its finality score is larger than that of an ancestor in the
epoch of its selected parent. -/
def isPruningSample (selfBlueScore epochChainAncestorBlueScore finalityDepth : ℕ) : Bool :=
  decide (finalityScore epochChainAncestorBlueScore finalityDepth <
    finalityScore selfBlueScore finalityDepth)

/-! ## The sampled computation -/

/-- The most recent pruning sample below a block: the first part of
`expected_header_pruning_point_v2`. -/
def pruningSample (ghostdagData : CompactGhostdagData) (finalityDepth : ℕ) : Option Hash := do
  let selectedParentBlueScore ← m.stores.blueScore ghostdagData.selectedParent
  if ghostdagData.selectedParent = m.genesisHash then
    return m.genesisHash
  else
    let selectedParentPruningSample ←
      m.stores.pruningSampleFromPov ghostdagData.selectedParent
    let selectedParentPruningSampleBlueScore ← m.stores.blueScore selectedParentPruningSample
    if isPruningSample selectedParentBlueScore selectedParentPruningSampleBlueScore
        finalityDepth then
      return ghostdagData.selectedParent
    else
      return selectedParentPruningSample

/-- The loop of `expected_header_pruning_point_v2` over the samples. -/
def findPruningPointV2 (blueScore pruningDepth : ℕ) (isSelfPruningSample : Bool)
    (selectedParentPruningPoint : Hash) : ℕ → ℕ → Hash → Option Hash
  | 0, _, _ => none
  | fuel + 1, steps, current =>
    if current = m.genesisHash then
      some current
    else do
      let currentBlueScore ← m.stores.blueScore current
      if currentBlueScore + pruningDepth ≤ blueScore then
        return current
      else if isSelfPruningSample && steps == m.pruningSamplesSteps then
        return current
      else if current = selectedParentPruningPoint then
        return current
      else
        let next ← m.stores.pruningSampleFromPov current
        findPruningPointV2 blueScore pruningDepth isSelfPruningSample
          selectedParentPruningPoint fuel (steps + 1) next

structure PruningPointReply where
  pruningSample : Hash
  pruningPoint : Hash
deriving DecidableEq, Repr

def expectedHeaderPruningPointV2 (fuel : ℕ) (ghostdagData : CompactGhostdagData) :
    Option PruningPointReply := do
  let selectedParentDaaScore ← m.stores.daaScore ghostdagData.selectedParent
  let pruningDepth := m.pruningDepth.get selectedParentDaaScore
  let finalityDepth := m.finalityDepth.get selectedParentDaaScore
  let selectedParentBlueScore ← m.stores.blueScore ghostdagData.selectedParent
  let pruningSample ← m.pruningSample ghostdagData finalityDepth
  let isSelfPruningSample :=
    isPruningSample ghostdagData.blueScore selectedParentBlueScore finalityDepth
  let selectedParentHeader ← m.stores.header ghostdagData.selectedParent
  let pruningPoint ← m.findPruningPointV2 ghostdagData.blueScore pruningDepth
    isSelfPruningSample selectedParentHeader.pruningPoint fuel 1 pruningSample
  return ⟨pruningSample, pruningPoint⟩

/-- The loop of `next_pruning_points_v2`: the samples from `current` down to the current pruning
point, each pushed to the front. -/
def collectSamples (currentPruningPoint : Hash) : ℕ → Hash → List Hash → Option (List Hash)
  | 0, _, _ => none
  | fuel + 1, current, deque =>
    if current = currentPruningPoint then
      some deque
    else do
      let next ← m.stores.pruningSampleFromPov current
      collectSamples currentPruningPoint fuel next (current :: deque)

/-- `next_pruning_points_v2` (without its logging). -/
def nextPruningPointsV2 (fuel : ℕ) (sinkGhostdag : CompactGhostdagData)
    (currentPruningPoint : Hash) : Option (List Hash) := do
  let currentPruningPointBlueScore ← m.stores.blueScore currentPruningPoint
  if sinkGhostdag.blueScore < currentPruningPointBlueScore + m.pruningDepth.lowerBound then
    return []
  else
    let reply ← m.expectedHeaderPruningPointV2 fuel sinkGhostdag
    let sinkPruningPointBlueScore ← m.stores.blueScore reply.pruningPoint
    if sinkPruningPointBlueScore ≤ currentPruningPointBlueScore then
      return []
    else
      m.collectSamples currentPruningPoint fuel reply.pruningPoint []

/-! ## The candidate-based computation -/

/-- The loop of `next_pruning_points_v1_inner` along the selected chain. -/
def walkCandidates (blueScore pruningDepth finalityDepth : ℕ) :
    ℕ → ForwardChainIterator → ℕ → List Hash → Hash → Option (List Hash × Hash)
  | 0, _, _, _, _ => none
  | fuel + 1, it, latestPruningPointBs, newPruningPoints, newCandidate => do
    let (item, it) ← it.next m.stores
    match item with
    | none => return (newPruningPoints, newCandidate)
    | some selectedChild =>
      let selectedChildBs ← m.stores.ghostdagBlueScore selectedChild
      if blueScore < selectedChildBs then
        -- the unsigned subtraction below would underflow
        none
      else if blueScore - selectedChildBs < pruningDepth then
        return (newPruningPoints, newCandidate)
      else if finalityScore latestPruningPointBs finalityDepth <
          finalityScore selectedChildBs finalityDepth then
        walkCandidates blueScore pruningDepth finalityDepth fuel it selectedChildBs
          (newPruningPoints ++ [selectedChild]) selectedChild
      else
        walkCandidates blueScore pruningDepth finalityDepth fuel it latestPruningPointBs
          newPruningPoints selectedChild

/-- `next_pruning_points_v1_inner`: the next pruning points, from the bottom up, and an updated
candidate. -/
def nextPruningPointsV1Inner (fuel : ℕ) (ghostdagData : CompactGhostdagData)
    (currentCandidate currentPruningPoint : Hash) (pruningDepth finalityDepth : ℕ) :
    Option (List Hash × Hash) := do
  let latestPruningPointBs ← m.stores.ghostdagBlueScore currentPruningPoint
  if ghostdagData.blueScore < latestPruningPointBs + pruningDepth then
    return ([], currentCandidate)
  else
    m.walkCandidates ghostdagData.blueScore pruningDepth finalityDepth fuel
      ⟨some currentCandidate, ghostdagData.selectedParent, true⟩ latestPruningPointBs []
      currentCandidate

def nextPruningPointsV1 (fuel : ℕ) (ghostdagData : CompactGhostdagData)
    (currentCandidate currentPruningPoint : Hash) : Option (List Hash × Hash) := do
  let selectedParentDaaScore ← m.stores.daaScore ghostdagData.selectedParent
  m.nextPruningPointsV1Inner fuel ghostdagData currentCandidate currentPruningPoint
    (m.pruningDepth.get selectedParentDaaScore) (m.finalityDepth.get selectedParentDaaScore)

def expectedHeaderPruningPointV1Inner (fuel : ℕ) (ghostdagData : CompactGhostdagData)
    (currentCandidate currentPruningPoint : Hash) (pruningDepth finalityDepth : ℕ) :
    Option Hash := do
  let (newPruningPoints, _) ← m.nextPruningPointsV1Inner fuel ghostdagData currentCandidate
    currentPruningPoint pruningDepth finalityDepth
  return newPruningPoints.getLast?.getD currentPruningPoint

def isPruningPointInPruningDepth (povBlueScore : ℕ) (pruningPoint : Hash) (pruningDepth : ℕ) :
    Option Bool := do
  let ppBs ← m.stores.blueScore pruningPoint
  return decide (ppBs + pruningDepth ≤ povBlueScore)

/-- The last loop of `expected_header_pruning_point_v1`, over the indices of past pruning points
from the most recent to genesis. -/
def searchPastPruningPoints (pastPruningPoints : List Hash) (blueScore pruningDepth : ℕ)
    (spPp : Hash) (spPpBlueScore : ℕ) : List ℕ → Option Hash
  | [] => some m.genesisHash
  | i :: rest => do
    let pastPp ← pastPruningPoints[i]?
    let pastPpBlueScore ← m.stores.blueScore pastPp
    if pastPpBlueScore ≤ spPpBlueScore then
      return spPp
    else if (← m.isPruningPointInPruningDepth blueScore pastPp pruningDepth) then
      return pastPp
    else
      searchPastPruningPoints pastPruningPoints blueScore pruningDepth spPp spPpBlueScore rest

end PruningPointManager

/-- `PruningPointInfo` (the global pruning point, its candidate and its index) together with the
past pruning points store, whose entry `i` is the `i`-th pruning point. -/
structure PruningState where
  pruningPoint : Hash
  candidate : Hash
  index : ℕ
  pastPruningPoints : List Hash
deriving DecidableEq, Repr

/-- The state of a node that starts from genesis. -/
def PruningState.fromGenesis (genesisHash : Hash) : PruningState :=
  ⟨genesisHash, genesisHash, 0, [genesisHash]⟩

namespace PruningPointManager

variable (m : PruningPointManager)

/-- The pruning point and the candidate from which `expected_header_pruning_point_v1` starts its
walk, given the pruning point `spPp` of the selected parent. -/
def walkStart (state : PruningState) (selectedParent spPp : Hash) : Option (Hash × Hash) := do
  let spPpInGlobalPpFuture :=
    (m.stores.isDagAncestorOfResult state.pruningPoint spPp).getD false
  if spPpInGlobalPpFuture then
    if (← m.stores.isChainAncestorOf spPp state.candidate) then
      return (spPp, state.candidate)
    else
      return (spPp, spPp)
  else if (← m.stores.isChainAncestorOf state.candidate selectedParent) then
    return (state.pruningPoint, state.candidate)
  else
    return (state.pruningPoint, state.pruningPoint)

/-- The next pruning point of a block, or the one of its selected parent: the first part of
`expected_header_pruning_point_v1`. -/
def nextOrCurrentPp (fuel : ℕ) (ghostdagData : CompactGhostdagData) (state : PruningState)
    (spPp : Hash) (spPpBlueScore pruningDepth finalityDepth : ℕ) : Option Hash := do
  let hasPruningPointInItsSelectedChain ←
    m.stores.isChainAncestorOf state.pruningPoint ghostdagData.selectedParent
  let minRequiredBlueScoreForNextPruningPoint :=
    (finalityScore spPpBlueScore finalityDepth + 1) * finalityDepth
  if hasPruningPointInItsSelectedChain &&
      minRequiredBlueScoreForNextPruningPoint + pruningDepth ≤ ghostdagData.blueScore then
    let (pp, cc) ← m.walkStart state ghostdagData.selectedParent spPp
    m.expectedHeaderPruningPointV1Inner fuel ghostdagData cc pp pruningDepth finalityDepth
  else
    return spPp

def expectedHeaderPruningPointV1 (fuel : ℕ) (ghostdagData : CompactGhostdagData)
    (state : PruningState) : Option Hash :=
  if ghostdagData.selectedParent = m.genesisHash then
    some m.genesisHash
  else do
    let selectedParentDaaScore ← m.stores.daaScore ghostdagData.selectedParent
    let pruningDepth := m.pruningDepth.get selectedParentDaaScore
    let finalityDepth := m.finalityDepth.get selectedParentDaaScore
    let selectedParentHeader ← m.stores.header ghostdagData.selectedParent
    let spPp := selectedParentHeader.pruningPoint
    let spPpBlueScore ← m.stores.blueScore spPp
    let nextOrCurrentPp ← m.nextOrCurrentPp fuel ghostdagData state spPp spPpBlueScore
      pruningDepth finalityDepth
    let nextOrCurrentPpBlueScore ← m.stores.blueScore nextOrCurrentPp
    if nextOrCurrentPpBlueScore ≤ spPpBlueScore then
      return spPp
    else if (← m.isPruningPointInPruningDepth ghostdagData.blueScore nextOrCurrentPp
        pruningDepth) then
      return nextOrCurrentPp
    else
      m.searchPastPruningPoints state.pastPruningPoints ghostdagData.blueScore pruningDepth spPp
        spPpBlueScore (List.range (state.index + 1)).reverse

/-! ## Both computations -/

/-- `next_pruning_points`, with its assertion that v1 and v2 agree before the activation. -/
def nextPruningPoints (fuel : ℕ) (sinkGhostdag : CompactGhostdagData)
    (currentCandidate currentPruningPoint : Hash) : Option (List Hash × Hash) :=
  if sinkGhostdag.selectedParent = BlockHash.origin then
    some ([], currentCandidate)
  else do
    let selectedParentDaaScore ← m.stores.daaScore sinkGhostdag.selectedParent
    if m.pruningDepth.activation.isActive selectedParentDaaScore then
      let v2 ← m.nextPruningPointsV2 fuel sinkGhostdag currentPruningPoint
      return (v2, v2.getLast?.getD currentCandidate)
    else
      let (v1, candidate) ← m.nextPruningPointsV1 fuel sinkGhostdag currentCandidate
        currentPruningPoint
      let v2 ← m.nextPruningPointsV2 fuel sinkGhostdag currentPruningPoint
      -- `assert_eq!(v1, v2, "v1 = v2 pre activation")`
      if v1 = v2 then return (v1, candidate) else none

/-- `advance_pruning_point_and_candidate_if_possible`: the update of the pruning point stores when
the sink changes. -/
def advancePruningPointAndCandidateIfPossible (fuel : ℕ) (state : PruningState)
    (sinkGhostdag : CompactGhostdagData) : Option PruningState := do
  let (newPruningPoints, newCandidate) ← m.nextPruningPoints fuel sinkGhostdag state.candidate
    state.pruningPoint
  match newPruningPoints.getLast? with
  | some newPruningPoint =>
    return ⟨newPruningPoint, newCandidate, state.index + newPruningPoints.length,
      state.pastPruningPoints ++ newPruningPoints⟩
  | none => return { state with candidate := newCandidate }

end PruningPointManager

end LapisMonetae.Pruning
