import LapisMonetae.Params
import Mathlib.Data.List.AList
import Mathlib.Data.List.Dedup
import Mathlib.Data.List.Sort
import Mathlib.Data.Prod.Lex

/-!
# The ghostdag protocol

Work, the result of the protocol for one block, the order by blue work and hash in which it visits
blocks, mergesets and the coloring of their blocks, as `GhostdagManager` computes them over its
stores. `none` is a panic (an unwrap of missing data, a failed assertion, or one of the explicit
panics), or the end of the fuel that bounds the loops.

The arithmetic of work is that of the release build: 256-bit and 192-bit numbers wrap, and shifts
are taken modulo the width.
-/

namespace LapisMonetae.Ghostdag

abbrev HashKTypeMap := AList (fun _ : Hash => ℕ)

structure GhostdagData where
  blueScore : ℕ
  blueWork : ℕ
  selectedParent : Hash
  mergesetBlues : List Hash
  mergesetReds : List Hash
  bluesAnticoneSizes : HashKTypeMap

namespace GhostdagData

def newWithSelectedParent (selectedParent : Hash) : GhostdagData where
  blueScore := 0
  blueWork := 0
  selectedParent := selectedParent
  mergesetBlues := [selectedParent]
  mergesetReds := []
  bluesAnticoneSizes := (∅ : HashKTypeMap).insert selectedParent 0

/-- `genesis_ghostdag_data`. -/
def genesis : GhostdagData := ⟨0, 0, BlockHash.origin, [], [], ∅⟩

/-- `origin_ghostdag_data`. -/
def origin : GhostdagData := ⟨0, 0, BlockHash.none, [], [], ∅⟩

def addBlue (self : GhostdagData) (block : Hash) (blueAnticoneSize : ℕ)
    (blockBluesAnticoneSizes : HashKTypeMap) : GhostdagData :=
  { self with
    mergesetBlues := self.mergesetBlues ++ [block]
    bluesAnticoneSizes := blockBluesAnticoneSizes.entries.foldl
      (fun sizes s => sizes.insert s.1 (s.2 + 1))
      (self.bluesAnticoneSizes.insert block blueAnticoneSize) }

def addRed (self : GhostdagData) (block : Hash) : GhostdagData :=
  { self with mergesetReds := self.mergesetReds ++ [block] }

def finalizeScoreAndWork (self : GhostdagData) (blueScore blueWork : ℕ) : GhostdagData :=
  { self with blueScore := blueScore, blueWork := blueWork }

end GhostdagData

/-- A block with its blue work. -/
structure SortableBlock where
  hash : Hash
  blueWork : ℕ
deriving DecidableEq, Repr

namespace SortableBlock

/-- The sort key: blue work first, then hash. -/
def key (b : SortableBlock) : ℕ ×ₗ ℕ := toLex (b.blueWork, b.hash)

/-- `cmp` is not `Greater`. -/
def le (a b : SortableBlock) : Prop := a.key ≤ b.key

instance : DecidableRel le := fun a b => inferInstanceAs (Decidable (a.key ≤ b.key))

instance : IsTrans SortableBlock le := ⟨fun _ _ _ h1 h2 => le_trans (α := ℕ ×ₗ ℕ) h1 h2⟩

instance : Std.Total le := ⟨fun a b => le_total a.key b.key⟩

/-- `cmp` is `Less`. -/
def lt (a b : SortableBlock) : Prop := a.key < b.key

instance : DecidableRel lt := fun a b => inferInstanceAs (Decidable (a.key < b.key))

/-- `Iterator::max`: the last of the greatest elements. -/
def max : List SortableBlock → Option SortableBlock
  | [] => none
  | b :: rest => some (rest.foldl (fun best b => if lt b best then best else b) b)

end SortableBlock

/-- Left shift of a 256-bit number. -/
def shl256 (x shift : ℕ) : ℕ := x * 2 ^ (shift % 256) % 2 ^ 256

/-- `from_compact_target_bits`, over the type of 256-bit numbers with its zero and its shift. -/
def fromCompactTargetBitsWith {U : Type} (zero : U) (shl : ℕ → ℕ → U) (bits : ℕ) : U :=
  let unshiftedExpt := bits / 2 ^ 24
  let mant :=
    if unshiftedExpt ≤ 3 then bits % 2 ^ 24 / 2 ^ (8 * (3 - unshiftedExpt)) else bits % 2 ^ 24
  let expt := if unshiftedExpt ≤ 3 then 0 else 8 * (unshiftedExpt - 3)
  -- the mantissa is signed but may not be negative
  if 0x7FFFFF < mant then zero else shl mant expt

def fromCompactTargetBits (bits : ℕ) : ℕ := fromCompactTargetBitsWith 0 shl256 bits

/-- `calc_work`: `2^256 / (target + 1)`, or `none` where the division or the conversion to 192 bits
panics. For the target zero the last increment wraps. -/
def calcWork (bits : ℕ) : Option ℕ :=
  let target := fromCompactTargetBits bits
  let divisor := (target + 1) % 2 ^ 256
  if divisor = 0 then none
  else
    let res := ((2 ^ 256 - 1 - target) / divisor + 1) % 2 ^ 256
    if res < 2 ^ 192 then some res else none

/-- Addition of 192-bit numbers. -/
def add192 (x y : ℕ) : ℕ := (x + y) % 2 ^ 192

/-! ## Mergesets -/

/-- The inner loop of `unordered_mergeset_without_selected_parent`, over the parents of a block
taken from the queue; the state is the queue, the mergeset and the known past blocks. -/
def visitParents (isDagAncestorOf : Hash → Hash → Option Bool) (selectedParent : Hash) :
    List Hash → List Hash × List Hash × List Hash → Option (List Hash × List Hash × List Hash)
  | [], state => some state
  | parent :: rest, (queue, mergeset, past) =>
    if parent ∈ mergeset ∨ parent ∈ past then
      visitParents isDagAncestorOf selectedParent rest (queue, mergeset, past)
    else do
      if (← isDagAncestorOf parent selectedParent) then
        visitParents isDagAncestorOf selectedParent rest (queue, mergeset, parent :: past)
      else
        visitParents isDagAncestorOf selectedParent rest
          (queue ++ [parent], parent :: mergeset, past)

/-- The outer loop of `unordered_mergeset_without_selected_parent`. -/
def mergesetLoop (getParents : Hash → Option (List Hash))
    (isDagAncestorOf : Hash → Hash → Option Bool) (selectedParent : Hash) :
    ℕ → List Hash × List Hash × List Hash → Option (List Hash)
  | 0, _ => none
  | _ + 1, ([], mergeset, _) => some mergeset
  | fuel + 1, (current :: queue, mergeset, past) => do
    let currentParents ← getParents current
    let state ← visitParents isDagAncestorOf selectedParent currentParents
      (queue, mergeset, past)
    mergesetLoop getParents isDagAncestorOf selectedParent fuel state

/-- `unordered_mergeset_without_selected_parent`. The list of the result stands for a hash set. -/
def unorderedMergesetWithoutSelectedParent (getParents : Hash → Option (List Hash))
    (isDagAncestorOf : Hash → Hash → Option Bool) (fuel : ℕ) (selectedParent : Hash)
    (parents : List Hash) : Option (List Hash) :=
  let queue := parents.filter fun p => p ≠ selectedParent
  mergesetLoop getParents isDagAncestorOf selectedParent fuel (queue, queue.dedup, [])

/-! ## The manager -/

/-- `GhostdagManager` with its stores. -/
structure GhostdagManager where
  genesisHash : Hash
  k : ForkedParam ℕ
  /-- `ghostdag_store` -/
  getData : Hash → Option GhostdagData
  /-- `relations_store` -/
  getParents : Hash → Option (List Hash)
  /-- `headers_store`: the DAA score -/
  getDaaScore : Hash → Option ℕ
  /-- `headers_store`: the difficulty bits -/
  getBits : Hash → Option ℕ
  /-- `reachability_service` -/
  isDagAncestorOf : Hash → Hash → Option Bool
  levelWork : ℕ

namespace GhostdagManager

variable (m : GhostdagManager)

def getBlueWork (hash : Hash) : Option ℕ := (m.getData hash).map GhostdagData.blueWork

/-- A block with its blue work from the store. -/
def sortableBlock (hash : Hash) : Option SortableBlock :=
  (m.getBlueWork hash).map fun blueWork => ⟨hash, blueWork⟩

def findSelectedParent (parents : List Hash) : Option Hash := do
  let blocks ← parents.mapM m.sortableBlock
  let best ← SortableBlock.max blocks
  return best.hash

def sortBlocks (blocks : List Hash) : Option (List Hash) := do
  let sortable ← blocks.mapM m.sortableBlock
  return (sortable.insertionSort SortableBlock.le).map SortableBlock.hash

def orderedMergesetWithoutSelectedParent (fuel : ℕ) (selectedParent : Hash)
    (parents : List Hash) : Option (List Hash) := do
  let mergeset ← unorderedMergesetWithoutSelectedParent m.getParents m.isDagAncestorOf fuel
    selectedParent parents
  m.sortBlocks mergeset

/-- The loop of `blue_anticone_size`, down the selected chain of the context. -/
def blueAnticoneSizeLoop (block : Hash) : ℕ → HashKTypeMap → Hash → Option ℕ
  | 0, _, _ => none
  | fuel + 1, currentBluesAnticoneSizes, currentSelectedParent =>
    match currentBluesAnticoneSizes.lookup block with
    | some size => some size
    | none =>
      if currentSelectedParent = m.genesisHash ∨ currentSelectedParent = BlockHash.origin then
        -- `panic!("block {block} is not in blue set of the given context")`
        none
      else do
        let data ← m.getData currentSelectedParent
        blueAnticoneSizeLoop block fuel data.bluesAnticoneSizes data.selectedParent

/-- `blue_anticone_size`: the blue anticone size of `block` from the worldview of `context`. -/
def blueAnticoneSize (fuel : ℕ) (block : Hash) (context : GhostdagData) : Option ℕ :=
  m.blueAnticoneSizeLoop block fuel context.bluesAnticoneSizes context.selectedParent

inductive ColoringState where
  | blue
  | red
  | pending
deriving DecidableEq, Repr

/-- The loop of `check_blue_candidate_with_chain_block` over the blue peers. The mutable
arguments, the peers' sizes and the size of the candidate, are returned beside the state. -/
def checkPeers (fuel : ℕ) (newBlockData : GhostdagData) (blueCandidate : Hash) (k : ℕ) :
    List Hash → HashKTypeMap → ℕ → Option (ColoringState × HashKTypeMap × ℕ)
  | [], sizes, size => some (.pending, sizes, size)
  | peer :: rest, sizes, size => do
    if (← m.isDagAncestorOf peer blueCandidate) then
      checkPeers fuel newBlockData blueCandidate k rest sizes size
    else
      let peerBlueAnticoneSize ← m.blueAnticoneSize fuel peer newBlockData
      let sizes := sizes.insert peer peerBlueAnticoneSize
      let size := size + 1
      if k < size then
        return (.red, sizes, size)
      else if peerBlueAnticoneSize = k then
        return (.red, sizes, size)
      else if k < peerBlueAnticoneSize then
        -- `assert!(peer_blue_anticone_size <= k, "found blue anticone larger than K")`
        none
      else
        checkPeers fuel newBlockData blueCandidate k rest sizes size

/-- `check_blue_candidate_with_chain_block`; `hash` is `none` for the new block. -/
def checkBlueCandidateWithChainBlock (fuel : ℕ) (newBlockData : GhostdagData)
    (hash : Option Hash) (data : GhostdagData) (blueCandidate : Hash) (sizes : HashKTypeMap)
    (size k : ℕ) : Option (ColoringState × HashKTypeMap × ℕ) := do
  let inFuture ← match hash with
    | some hash => m.isDagAncestorOf hash blueCandidate
    | none => some false
  if inFuture then
    return (.blue, sizes, size)
  else
    m.checkPeers fuel newBlockData blueCandidate k data.mergesetBlues sizes size

/-- The loop of `check_blue_candidate` down the selected chain: the sizes if the candidate is
blue. -/
def checkChain (fuel : ℕ) (newBlockData : GhostdagData) (blueCandidate : Hash) (k : ℕ) :
    ℕ → Option Hash → GhostdagData → HashKTypeMap → ℕ → Option (Option (ℕ × HashKTypeMap))
  | 0, _, _, _, _ => none
  | n + 1, hash, data, sizes, size => do
    let (state, sizes, size) ← m.checkBlueCandidateWithChainBlock fuel newBlockData hash data
      blueCandidate sizes size k
    match state with
    | .blue => return some (size, sizes)
    | .red => return none
    | .pending =>
      let parentData ← m.getData data.selectedParent
      checkChain fuel newBlockData blueCandidate k n (some data.selectedParent) parentData sizes
        size

/-- `check_blue_candidate`. The number of blues is cast to the 16 bits of `KType`. -/
def checkBlueCandidate (fuel : ℕ) (newBlockData : GhostdagData) (blueCandidate : Hash) (k : ℕ) :
    Option (Option (ℕ × HashKTypeMap)) :=
  if newBlockData.mergesetBlues.length % 2 ^ 16 = k + 1 then
    some none
  else
    m.checkChain fuel newBlockData blueCandidate k fuel none newBlockData ∅ 0

/-- The coloring loop of `ghostdag`. -/
def colorMergeset (fuel k : ℕ) : List Hash → GhostdagData → Option GhostdagData
  | [], newBlockData => some newBlockData
  | blueCandidate :: rest, newBlockData => do
    match ← m.checkBlueCandidate fuel newBlockData blueCandidate k with
    | some (blueAnticoneSize, bluesAnticoneSizes) =>
      colorMergeset fuel k rest
        (newBlockData.addBlue blueCandidate blueAnticoneSize bluesAnticoneSizes)
    | none => colorMergeset fuel k rest (newBlockData.addRed blueCandidate)

/-- The work that a blue block adds. -/
def blockWork (hash : Hash) : Option ℕ := do
  let bits ← m.getBits hash
  let work ← calcWork bits
  return max work m.levelWork

/-- `ghostdag`: the data of a new block with the given parents. `KType` has 16 bits, and the code
computes `k + 1` in it. -/
def ghostdag (fuel : ℕ) (parents : List Hash) : Option GhostdagData := do
  let selectedParent ← m.findSelectedParent parents
  if selectedParent = BlockHash.origin then
    return GhostdagData.newWithSelectedParent selectedParent
  else
    let daaScore ← m.getDaaScore selectedParent
    let k := m.k.get daaScore
    if 2 ^ 16 ≤ k + 1 then none
    else
      let newBlockData := GhostdagData.newWithSelectedParent selectedParent
      let orderedMergeset ← m.orderedMergesetWithoutSelectedParent fuel selectedParent parents
      let newBlockData ← m.colorMergeset fuel k orderedMergeset newBlockData
      let parentData ← m.getData selectedParent
      let works ← newBlockData.mergesetBlues.mapM m.blockWork
      let blueScore := parentData.blueScore + newBlockData.mergesetBlues.length
      let blueWork := add192 parentData.blueWork (works.foldl add192 0)
      return newBlockData.finalizeScoreAndWork blueScore blueWork

end GhostdagManager

end LapisMonetae.Ghostdag
