import LapisMonetae.Ghostdag.BlueSet
import LapisMonetae.Lib.MergeJoin

/-!
# Selected chains

The chain queries of the reachability service with its iterator up a chain, the mergeset of a
block in consensus order, and what the stores of a DAG with mergesets hold. As before, `none` is a
panic or the end of the fuel of a loop.
-/

namespace LapisMonetae.Ghostdag

open Dag Relation Classical

/-! ## Mergesets in consensus order -/

def GhostdagData.mergesetSize (self : GhostdagData) : ℕ :=
  self.mergesetBlues.length + self.mergesetReds.length

namespace GhostdagManager

variable (m : GhostdagManager)

def getBlueScore (hash : Hash) : Option ℕ := (m.getData hash).map GhostdagData.blueScore

/-- `ascending_mergeset_without_selected_parent`. The code returns an iterator; here the whole
sequence is computed. -/
def ascendingMergesetWithoutSelectedParent (data : GhostdagData) :
    Option (List SortableBlock) := do
  let blues ← (data.mergesetBlues.drop 1).mapM m.sortableBlock
  let reds ← data.mergesetReds.mapM m.sortableBlock
  MergeJoin.mergeJoin SortableBlock.lt blues reds

def consensusOrderedMergeset (data : GhostdagData) : Option (List Hash) := do
  let rest ← m.ascendingMergesetWithoutSelectedParent data
  return data.selectedParent :: rest.map SortableBlock.hash

end GhostdagManager

/-! ## Queries about several blocks -/

namespace GhostdagManager

variable (m : GhostdagManager)

/-- `is_dag_ancestor_of_any`: whether the block is in the past of one of the list, or in it. -/
def isDagAncestorOfAny (block : Hash) : List Hash → Option Bool
  | [] => some false
  | queried :: rest => do
    if ← m.isDagAncestorOf block queried then return true
    else isDagAncestorOfAny block rest

/-- `is_any_dag_ancestor`: whether one of the list is in the past of the block, or the block. -/
def isAnyDagAncestor (queried : Hash) : List Hash → Option Bool
  | [] => some false
  | block :: rest => do
    if ← m.isDagAncestorOf block queried then return true
    else isAnyDagAncestor queried rest

end GhostdagManager

/-! ## The chain queries -/

/-- The queries of `ReachabilityService` about selected chains. -/
structure ChainService where
  /-- `is_chain_ancestor_of` -/
  isChainAncestorOf : Hash → Hash → Option Bool
  /-- `get_chain_parent` -/
  getChainParent : Hash → Option Hash
  /-- `get_next_chain_ancestor(descendant, ancestor)` -/
  getNextChainAncestor : Hash → Hash → Option Hash

/-- `forward_chain_iterator`, inclusive, from `current` up to `descendant`. The code returns an
iterator; here the whole sequence is computed. -/
def ChainService.forwardChain (service : ChainService) (descendant : Hash) :
    ℕ → Hash → Option (List Hash)
  | 0, _ => none
  | fuel + 1, current =>
    if current = descendant then some [current]
    else do
      let next ← service.getNextChainAncestor descendant current
      let rest ← service.forwardChain descendant fuel next
      return current :: rest

namespace GhostdagManager

variable {m : GhostdagManager} {blocks : Finset Hash}

/-- `p` is the selected parent of `b`. -/
def SelectedParent (m : GhostdagManager) (p b : Hash) : Prop :=
  m.Parent p b ∧ ∃ d, m.getData b = some d ∧ d.selectedParent = p

/-- `a` is `b` or on the selected chain of `b`. -/
def OnChain (m : GhostdagManager) (a b : Hash) : Prop := ReflTransGen m.SelectedParent a b

end GhostdagManager

/-- The service answers by the selected parents of the stored blocks. -/
structure ChainService.Serves (service : ChainService) (m : GhostdagManager)
    (blocks : Finset Hash) : Prop where
  isChainAncestorOf : ∀ a ∈ blocks, ∀ b ∈ blocks,
    service.isChainAncestorOf a b = some (decide (m.OnChain a b))
  getChainParent : ∀ b ∈ blocks, ∀ d, m.getData b = some d →
    service.getChainParent b = some d.selectedParent
  getNextChainAncestor : ∀ a ∈ blocks, ∀ b ∈ blocks, ∀ c, m.SelectedParent a c → m.OnChain c b →
    service.getNextChainAncestor b a = some c

namespace GhostdagManager

/-- The selected parents of the stored blocks form a tree over genesis, in which blue scores
grow. -/
structure ChainTree (m : GhostdagManager) (blocks : Finset Hash) : Prop where
  genesis_mem : m.genesisHash ∈ blocks
  origin_notMem : BlockHash.origin ∉ blocks
  getData_some : ∀ b ∈ blocks, ∃ d, m.getData b = some d
  selectedParent : ∀ b ∈ blocks, b ≠ m.genesisHash → ∀ d, m.getData b = some d →
    d.selectedParent ∈ blocks ∧ m.SelectedParent d.selectedParent b ∧
    m.blueScore d.selectedParent < m.blueScore b
  child_mem : ∀ p b, m.SelectedParent p b → b ∈ blocks
  genesis_root : ∀ p ∈ blocks, ¬m.SelectedParent p m.genesisHash

/-- The data of a block with the given parents, as far as its mergeset goes. -/
structure Merged (m : GhostdagManager) (parents merged : List Hash) (d : GhostdagData) : Prop where
  selectedParent_mem : d.selectedParent ∈ parents
  key_le : ∀ p ∈ parents, m.key p ≤ m.key d.selectedParent
  ordered : m.OrderedMergeset parents d.selectedParent merged
  blues_eq : d.mergesetBlues = d.selectedParent :: d.mergesetBlues.tail
  perm : (d.mergesetBlues.tail ++ d.mergesetReds).Perm merged
  blues_sublist : d.mergesetBlues.tail.Sublist merged
  reds_sublist : d.mergesetReds.Sublist merged
  blueScore_eq : d.blueScore = m.blueScore d.selectedParent + d.mergesetBlues.length

/-- The stores of a DAG hold the mergeset of each block: its past without the past of its selected
parent, which is its greatest parent. -/
structure MergedDag (m : GhostdagManager) (blocks : Finset Hash) : Prop
    extends WorkDag m blocks where
  genesis_data : m.getData m.genesisHash = some GhostdagData.genesis
  merged : ∀ b ∈ blocks, b ≠ m.genesisHash → ∃ ps merged d, m.getParents b = some ps ∧
    m.getData b = some d ∧ m.ValidParents blocks ps ∧ m.Merged ps merged d

/-- What `ghostdag` computes for a block is its mergeset. -/
lemma Colored.merged {m : GhostdagManager} {blocks : Finset Hash} {parents : List Hash}
    {d : GhostdagData} (h : m.Colored blocks parents d) : ∃ merged, m.Merged parents merged d := by
  obtain ⟨merged, hordered, hcoloring⟩ := h.coloring
  exact ⟨merged, h.selectedParent_mem, h.key_le, hordered, hcoloring.blues_eq, hcoloring.perm,
    hcoloring.blues_sublist, hcoloring.reds_sublist, h.blueScore_eq⟩

/-- The stores that satisfy the ghostdag invariant hold the mergesets of a DAG. -/
lemma StoreInv.mergedDag {m : GhostdagManager} {blocks : Finset Hash}
    (inv : m.StoreInv blocks) : m.MergedDag blocks where
  toWorkDag := inv.workDag
  genesis_data := inv.genesis_data
  merged b hb hne := by
    obtain ⟨ps, d, hps, hd, hvalid, hcol, -⟩ := inv.colored b hb hne
    obtain ⟨merged, hmerged⟩ := hcol.merged
    exact ⟨ps, merged, d, hps, hd, hvalid, hmerged⟩

/-! ## A service over the ghostdag store -/

/-- The chain of `b` down to `a`, without `a` and from the top, if `a` is on it. -/
def chainDown (m : GhostdagManager) (a : Hash) : ℕ → Hash → Option (List Hash)
  | 0, _ => none
  | fuel + 1, b =>
    if a = b then some []
    else if b = m.genesisHash then none
    else do
      let d ← m.getData b
      let rest ← chainDown m a fuel d.selectedParent
      return b :: rest

/-- A service that walks down the selected parents of the ghostdag store. -/
def chainService (m : GhostdagManager) (fuel : ℕ) : ChainService where
  isChainAncestorOf a b := some (m.chainDown a fuel b).isSome
  getChainParent b := (m.getData b).map GhostdagData.selectedParent
  getNextChainAncestor b a := (m.chainDown a fuel b).bind List.getLast?

end GhostdagManager

end LapisMonetae.Ghostdag
