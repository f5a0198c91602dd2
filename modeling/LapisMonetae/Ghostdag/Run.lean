import LapisMonetae.Ghostdag.BlueSet
import Mathlib.Logic.Function.Basic

/-!
# Building a DAG

The stores as the header processor fills them: starting from genesis, a block is added with the
data that `ghostdag` returns for its parents. The reachability service is taken at its word: it
answers whether a block is in the past of another one.
-/

namespace LapisMonetae.Ghostdag

open Function

/-- The fields of a header that the ghostdag protocol reads. -/
structure Header where
  hash : Hash
  parents : List Hash
  daaScore : ℕ
  bits : ℕ
deriving DecidableEq, Repr

/-- The work that a header adds at a proof level. -/
def Header.work (header : Header) (levelWork : ℕ) : Option ℕ :=
  (calcWork header.bits).map fun work => max work levelWork

namespace GhostdagManager

/-- The stores with origin and genesis only. -/
def fromGenesis (genesis : Header) (k : ForkedParam ℕ) (levelWork : ℕ) : GhostdagManager where
  genesisHash := genesis.hash
  k := k
  getData := update (update (fun _ => none) BlockHash.origin (some GhostdagData.origin))
    genesis.hash (some GhostdagData.genesis)
  getParents := update (update (fun _ => none) BlockHash.origin (some [])) genesis.hash
    (some [BlockHash.origin])
  getDaaScore := update (fun _ => none) genesis.hash (some genesis.daaScore)
  getBits := update (fun _ => none) genesis.hash (some genesis.bits)
  isDagAncestorOf := fun a b =>
    if (a = genesis.hash ∨ a = BlockHash.origin) ∧ (b = genesis.hash ∨ b = BlockHash.origin) then
      some (decide (a = b ∨ a = BlockHash.origin))
    else none
  levelWork := levelWork

/-- Reachability once a block is added on top of its parents. -/
def isDagAncestorOfWith (m : GhostdagManager) (header : Header) (a b : Hash) : Option Bool :=
  if b = header.hash then
    if a = header.hash then some true
    else do
      let answers ← header.parents.mapM (m.isDagAncestorOf a)
      return answers.any id
  else if a = header.hash then (m.getData b).map fun _ => false
  else m.isDagAncestorOf a b

/-- The stores after a block is added with its ghostdag data. -/
def insertBlock (m : GhostdagManager) (header : Header) (data : GhostdagData) :
    GhostdagManager :=
  { m with
    getData := update m.getData header.hash (some data)
    getParents := update m.getParents header.hash (some header.parents)
    getDaaScore := update m.getDaaScore header.hash (some header.daaScore)
    getBits := update m.getBits header.hash (some header.bits)
    isDagAncestorOf := m.isDagAncestorOfWith header }

/-- `ghostdag` on a header, with the result stored. -/
def addBlock (fuel : ℕ) (m : GhostdagManager) (header : Header) : Option GhostdagManager := do
  let data ← m.ghostdag fuel header.parents
  return m.insertBlock header data

/-- The loop of `check_parents_incest` over the pairs of parents; the error is the first pair
with a parent in the past of the other. -/
def checkPairs (m : GhostdagManager) : List (Hash × Hash) → Option (Except (Hash × Hash) Unit)
  | [] => some (.ok ())
  | (parentA, parentB) :: rest =>
    if parentA = parentB then checkPairs m rest
    else do
      if (← m.isDagAncestorOf parentA parentB) then return .error (parentA, parentB)
      else checkPairs m rest

def checkParentsIncest (m : GhostdagManager) (parents : List Hash) :
    Option (Except (Hash × Hash) Unit) :=
  m.checkPairs (parents.product parents)

/-- What the checks before `ghostdag` establish about a new header: its hash is new, its parents
are stored and form an antichain, and its work is positive. -/
structure Admissible (m : GhostdagManager) (blocks : Finset Hash) (header : Header) : Prop where
  hash_notMem : header.hash ∉ blocks
  hash_ne_origin : header.hash ≠ BlockHash.origin
  parents : m.ValidParents blocks header.parents
  work : ∃ w, 0 < w ∧ header.work m.levelWork = some w

/-- The data of a new block is in range: `k` does not decrease on the selected chain, and the blue
work fits 192 bits. -/
structure InRange (m : GhostdagManager) (header : Header) (data : GhostdagData) : Prop where
  k_mono : m.kOf data.selectedParent ≤ m.k.get header.daaScore
  blueWork_fits : m.blueWork data.selectedParent + (data.mergesetBlues.map m.work).sum < 2 ^ 192

/-- The conditions on a new header as the code can check them. -/
def PassesChecks (m : GhostdagManager) (fuel : ℕ) (blocks : Finset Hash) (header : Header) :
    Prop :=
  header.hash ∉ blocks ∧ header.hash ≠ BlockHash.origin ∧ header.parents ≠ [] ∧
    (∀ p ∈ header.parents, p ∈ blocks) ∧
    (m.checkParentsIncest header.parents).map Except.isOk = some true ∧
    0 < (header.work m.levelWork).getD 0 ∧
    (m.ghostdag fuel header.parents).any fun data =>
      decide (m.kOf data.selectedParent ≤ m.k.get header.daaScore ∧
        m.blueWork data.selectedParent + (data.mergesetBlues.map m.work).sum < 2 ^ 192)

instance (m : GhostdagManager) (fuel : ℕ) (blocks : Finset Hash) (header : Header) :
    Decidable (m.PassesChecks fuel blocks header) := by
  unfold PassesChecks
  infer_instance

/-- The stores of a DAG that was built by running `ghostdag` on each block in topological
order. -/
inductive Built : GhostdagManager → Finset Hash → Prop
  | genesis (header : Header) (k : ForkedParam ℕ) (levelWork : ℕ)
      (hne : header.hash ≠ BlockHash.origin)
      (hwork : ∃ w, 0 < w ∧ header.work levelWork = some w) :
      Built (fromGenesis header k levelWork) {header.hash}
  | add {m : GhostdagManager} {blocks : Finset Hash} (hm : Built m blocks) (header : Header)
      (hadm : m.Admissible blocks header) {fuel : ℕ} {data : GhostdagData}
      (hdata : m.ghostdag fuel header.parents = some data) (hrange : m.InRange header data) :
      Built (m.insertBlock header data) (insert header.hash blocks)

end GhostdagManager

end LapisMonetae.Ghostdag
