import LapisMonetae.Depth.BlockDepth

/-!
# Virtual parents

`pick_virtual_parents` chooses the parents of the virtual block among the candidates that the sink
search left, within the limits on the number of parents and on the size of the mergeset, and then
removes the parents that would break the bounded merge rule. The random choices are a parameter. As
before, `none` is a panic or the end of the fuel of a loop.
-/

namespace LapisMonetae.Virtual

open Ghostdag Depth

/-- The outcomes of the random choices: `gen_range(low..high)` and `shuffle`. -/
structure Randomness where
  genRange : ℕ → ℕ → ℕ
  genRange_mem : ∀ low high, low < high → low ≤ genRange low high ∧ genRange low high < high
  shuffle : List Hash → List Hash
  shuffle_perm : ∀ l, (shuffle l).Perm l

/-- `slice.swap`. -/
def swap (l : List Hash) (i j : ℕ) : Option (List Hash) := do
  let a ← l[i]?
  let b ← l[j]?
  return (l.set i b).set j a

inductive MergesetIncreaseResult where
  | accepted (increaseSize : ℕ)
  | rejected (newCandidate : Hash)
deriving DecidableEq, Repr

/-- The parts of `VirtualStateProcessor` that choose the virtual parents. -/
structure ParentPicker where
  ghostdagManager : GhostdagManager
  depthManager : BlockDepthManager
  /-- `headers_store.get_daa_score` -/
  getDaaScore : Hash → Option ℕ
  maxBlockParents : ForkedParam ℕ
  mergesetSizeLimit : ForkedParam ℕ

def maxVirtualParentCandidates (maxBlockParents : ℕ) : ℕ := maxBlockParents * 3

/-- The loop that swaps random candidates to the positions from `i` on, `n` times. -/
def swapRandomly (random : Randomness) : ℕ → ℕ → List Hash → Option (List Hash)
  | 0, _, slice => some slice
  | n + 1, i, slice => do
    let slice ← swap slice i (random.genRange i slice.length)
    swapRandomly random n (i + 1) slice

/-- The candidates that are considered: the first half of the block parents by blue work, and random
ones of the rest. -/
def chooseCandidates (random : Randomness) (maxBlockParents : ℕ) (candidates : List Hash) :
    Option (List Hash) :=
  let maxCandidates := maxVirtualParentCandidates maxBlockParents
  if maxCandidates < candidates.length then do
    let slice ← swapRandomly random (maxCandidates - maxBlockParents / 2) (maxBlockParents / 2)
      candidates
    return slice.take maxCandidates
  else if maxBlockParents / 2 < candidates.length then
    some (candidates.take (maxBlockParents / 2) ++
      random.shuffle (candidates.drop (maxBlockParents / 2)))
  else
    some candidates

namespace ParentPicker

variable (p : ParentPicker)

/-! ## The size of the mergeset -/

/-- The inner loop of `mergeset_increase` over the parents of a block. -/
def visitParents : List Hash → List Hash × List Hash → List Hash × List Hash
  | [], state => state
  | parent :: rest, (queue, visited) =>
    if parent ∈ visited then visitParents rest (queue, visited)
    else visitParents rest (queue ++ [parent], parent :: visited)

/-- The loop of `mergeset_increase`. -/
def increaseLoop (selectedParents : List Hash) (budget : ℕ) :
    ℕ → List Hash → List Hash → ℕ → Option MergesetIncreaseResult
  | 0, _, _, _ => none
  | _ + 1, [], _, mergesetIncrease => some (.accepted mergesetIncrease)
  | fuel + 1, current :: queue, visited, mergesetIncrease => do
    if ← p.ghostdagManager.isDagAncestorOfAny current selectedParents then
      increaseLoop selectedParents budget fuel queue visited mergesetIncrease
    else if budget < mergesetIncrease + 1 then
      return .rejected current
    else
      let currentParents ← p.ghostdagManager.getParents current
      let (queue, visited) := visitParents currentParents (queue, visited)
      increaseLoop selectedParents budget fuel queue visited (mergesetIncrease + 1)

/-- `mergeset_increase`: the size of `past(candidate) ∖ past(selected_parents)` with the candidate,
as far as the budget goes. -/
def mergesetIncrease (fuel : ℕ) (selectedParents : List Hash) (candidate : Hash) (budget : ℕ) :
    Option MergesetIncreaseResult := do
  let candidateParents ← p.ghostdagManager.getParents candidate
  p.increaseLoop selectedParents budget fuel candidateParents candidateParents 1

/-! ## The choice of the parents -/

/-- `candidates.retain`: the candidates that are not in the future of the new one. -/
def retainOutside (newCandidate : Hash) : List Hash → Option (List Hash)
  | [] => some []
  | h :: rest => do
    let inFuture ← p.ghostdagManager.isDagAncestorOf newCandidate h
    let rest ← retainOutside newCandidate rest
    return if inFuture then rest else h :: rest

/-- The loop of `pick_virtual_parents`: the parents and the size of their mergeset. The searches run
with the fuel `searchFuel`. -/
def pickLoop (searchFuel maxBlockParents mergesetSizeLimit : ℕ) :
    ℕ → List Hash → List Hash × ℕ → Option (List Hash × ℕ)
  | 0, _, _ => none
  | _ + 1, [], state => some state
  | fuel + 1, candidate :: candidates, (virtualParents, mergesetSize) =>
    if mergesetSizeLimit ≤ mergesetSize ∨ maxBlockParents ≤ virtualParents.length then
      some (virtualParents, mergesetSize)
    else do
      match ← p.mergesetIncrease searchFuel virtualParents candidate
          (mergesetSizeLimit - mergesetSize) with
      | .accepted increaseSize =>
        pickLoop searchFuel maxBlockParents mergesetSizeLimit fuel candidates
          (virtualParents ++ [candidate], mergesetSize + increaseSize)
      | .rejected newCandidate =>
        if ← p.ghostdagManager.isAnyDagAncestor newCandidate candidates then
          pickLoop searchFuel maxBlockParents mergesetSizeLimit fuel candidates
            (virtualParents, mergesetSize)
        else
          let candidates ← p.retainOutside newCandidate candidates
          pickLoop searchFuel maxBlockParents mergesetSizeLimit fuel (candidates ++ [newCandidate])
            (virtualParents, mergesetSize)

/-! ## The bounded merge rule -/

/-- The loop of `remove_bounded_merge_breaking_parents` over the reds. The kosherizing blues are read
when they are first needed. -/
def findBadReds (ghostdagData : GhostdagData) (mergeDepthRoot : Hash) :
    List Hash → Option (List Hash) → Option (List Hash)
  | [], _ => some []
  | red :: rest, kosherizingBlues => do
    if ← p.ghostdagManager.isDagAncestorOf mergeDepthRoot red then
      findBadReds ghostdagData mergeDepthRoot rest kosherizingBlues
    else
      let blues ← match kosherizingBlues with
        | some blues => some blues
        | none => p.depthManager.kosherizingBlues ghostdagData mergeDepthRoot
      let kosherized ← p.ghostdagManager.isDagAncestorOfAny red blues
      let badReds ← findBadReds ghostdagData mergeDepthRoot rest (some blues)
      return if kosherized then badReds else red :: badReds

/-- `virtual_parents.retain`: the parents that merge none of the bad reds. -/
def retainParents (badReds : List Hash) : List Hash → Option (List Hash)
  | [] => some []
  | h :: rest => do
    let bad ← p.ghostdagManager.isAnyDagAncestor h badReds
    let rest ← retainParents badReds rest
    return if bad then rest else h :: rest

def removeBoundedMergeBreakingParents (fuel : ℕ) (virtualParents : List Hash)
    (currentPruningPoint : Hash) : Option (List Hash × GhostdagData) := do
  let ghostdagData ← p.ghostdagManager.ghostdag fuel virtualParents
  let mergeDepthRoot ← p.depthManager.calcMergeDepthRoot fuel ghostdagData currentPruningPoint
  let badReds ← p.findBadReds ghostdagData mergeDepthRoot ghostdagData.mergesetReds none
  if badReds = [] then
    return (virtualParents, ghostdagData)
  else
    let virtualParents ← p.retainParents badReds virtualParents
    let ghostdagData ← p.ghostdagManager.ghostdag fuel virtualParents
    return (virtualParents, ghostdagData)

def pickVirtualParents (fuel : ℕ) (random : Randomness) (selectedParent : Hash)
    (candidates : List Hash) (pruningPoint : Hash) : Option (List Hash × GhostdagData) := do
  let selectedParentDaaScore ← p.getDaaScore selectedParent
  let maxBlockParents := p.maxBlockParents.get selectedParentDaaScore
  let mergesetSizeLimit := p.mergesetSizeLimit.get selectedParentDaaScore
  let candidates ← chooseCandidates random maxBlockParents candidates
  let (virtualParents, mergesetSize) ←
    p.pickLoop fuel maxBlockParents mergesetSizeLimit fuel candidates ([selectedParent], 1)
  -- `assert!(mergeset_size <= mergeset_size_limit)`
  if mergesetSizeLimit < mergesetSize then none
  -- `assert!(virtual_parents.len() <= max_block_parents)`
  else if maxBlockParents < virtualParents.length then none
  else p.removeBoundedMergeBreakingParents fuel virtualParents pruningPoint

end ParentPicker

end LapisMonetae.Virtual
