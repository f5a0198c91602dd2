import LapisMonetae.Ghostdag.GrowthTheorems
import LapisMonetae.Window.HeapTheorems

/-!
# The order of a mergeset

The mergeset of a block is found whole, its order by blue work and hash is topological, the
iterators over the ghostdag data of the block hand it out in that order or its reverse, and nothing
depends on the order of the parents.
-/

namespace LapisMonetae.Window

open Ghostdag Dag GhostdagManager List Option

variable {m : GhostdagManager} {blocks : Finset Hash}
variable {parents parents' : List Hash}

lemma validParents_perm (hvalid : m.ValidParents blocks parents) (hperm : parents'.Perm parents) :
    m.ValidParents blocks parents' := by
  refine ⟨fun h => hvalid.ne_nil (nil_perm.mp (h ▸ hperm)), fun p hp => ?_, fun p q hp hq => ?_⟩
  · exact hvalid.mem_blocks p (hperm.mem_iff.mp hp)
  · exact hvalid.antichain p q (hperm.mem_iff.mp hp) (hperm.mem_iff.mp hq)

/-- The selected parent is the parent with the greatest key, wherever it is listed. -/
lemma findSelectedParent_perm (dag : m.WorkDag blocks) (hvalid : m.ValidParents blocks parents)
    (hperm : parents'.Perm parents) :
    m.findSelectedParent parents' = m.findSelectedParent parents := by
  obtain ⟨sp, hsp, hfind, hmax⟩ := dag.findSelectedParent_spec hvalid
  rw [hfind]
  exact dag.findSelectedParent_eq (validParents_perm hvalid hperm) (hperm.mem_iff.mpr hsp)
    fun p hp => hmax p (hperm.mem_iff.mp hp)

lemma ghostdag_perm (dag : m.WorkDag blocks) (hvalid : m.ValidParents blocks parents)
    (hperm : parents'.Perm parents) {fuel : ℕ} (hfuel : parents.length + blocks.card < fuel) :
    m.ghostdag fuel parents' = m.ghostdag fuel parents := by
  obtain ⟨sp, hsp, hfind, -⟩ := dag.findSelectedParent_spec hvalid
  obtain ⟨merged, hmerged, hordered⟩ :=
    orderedMergeset_spec dag hvalid hsp hfuel
  obtain ⟨merged', hmerged', hordered'⟩ := orderedMergeset_spec dag
    (validParents_perm hvalid hperm) (hperm.mem_iff.mpr hsp) (hperm.length_eq ▸ hfuel)
  obtain rfl := OrderedMergeset.unique hperm hordered hordered'
  unfold ghostdag
  simp only [findSelectedParent_perm dag hvalid hperm, hfind, bind_eq_bind,
    bind_some, hmerged, hmerged']

/-- For every DAG that has grown and every valid parents of a new block: the search for the
mergeset returns the past of the parents without the selected parent and its past, each block
once; sorted by blue work and hash, a block comes after its past; the iterators over the ghostdag
data of the new block hand out the sorted mergeset or its reverse; and `ghostdag` returns the same
for the parents in any order. -/
theorem mergeset_ordered (h : GhostdagManager.Grown m blocks) {parents : List Hash}
    (hvalid : m.ValidParents blocks parents) :
    ∃ sp mergeset merged, m.findSelectedParent parents = some sp ∧
      Fuel.Returns (fun fuel => unorderedMergesetWithoutSelectedParent m.getParents
        m.isDagAncestorOf fuel sp parents) mergeset ∧ mergeset.Nodup ∧
      (∀ x, x ∈ mergeset ↔ (∃ p ∈ parents, InPast m.Parent x p) ∧ ¬InPast m.Parent x sp) ∧
      m.sortBlocks mergeset = some merged ∧ merged.Perm mergeset ∧
      (merged.Pairwise fun a b => m.key a < m.key b) ∧
      (merged.Pairwise fun a b => ¬InPast m.Parent b a) ∧
      (∀ fuel d, m.ghostdag fuel parents = some d → d.selectedParent = sp ∧
        m.consensusOrderedMergeset d = some (sp :: merged) ∧
        m.ascendingMergesetWithoutSelectedParent d = some (merged.map (sortable m)) ∧
        descendingMergesetWithoutSelectedParent m d = some (merged.reverse.map (sortable m))) ∧
      ∀ parents', parents'.Perm parents → ∃ enough, ∀ fuel, enough ≤ fuel →
        m.ghostdag fuel parents' = m.ghostdag fuel parents := by
  have inv := h.inv
  have dag := inv.toWorkDag
  obtain ⟨sp, hsp, hfind, hmax⟩ := dag.findSelectedParent_spec hvalid
  have hspMem := hvalid.mem_blocks sp hsp
  obtain ⟨mergeset, hmergeset, hnodup, hmem, hiff⟩ :=
    unorderedMergeset_eq_past dag hvalid hsp (Nat.lt_succ_self _)
  obtain ⟨merged, hsort, hperm, hsorted⟩ := sortBlocks_spec
    (fun x hx => dag.getData_some x (hmem x hx)) hnodup
  have hordered : m.OrderedMergeset parents sp merged :=
    ⟨fun x => hperm.mem_iff.trans (hiff x), hsorted⟩
  refine ⟨sp, mergeset, merged, hfind, ?_, hnodup, hiff, hsort, hperm, hsorted,
    OrderedMergeset.topological dag hvalid.mem_blocks hspMem hordered, fun fuel d hd => ?_,
    fun parents' hperm' => ?_⟩
  · have hstable : Fuel.Stable fun fuel => unorderedMergesetWithoutSelectedParent m.getParents
        m.isDagAncestorOf fuel sp parents :=
      fun fuel fuel' hle => mergesetLoop_stable _ _ _ fuel fuel' hle _
    exact hstable.returns hmergeset
  · obtain ⟨⟨merged', hmerged'⟩, -⟩ := merged_of_ghostdag dag hvalid hd
    have hspEq : d.selectedParent = sp := key_injective
      (le_antisymm (hmax _ hmerged'.selectedParent_mem) (hmerged'.key_le sp hsp))
    obtain rfl : merged' = merged :=
      OrderedMergeset.unique (List.Perm.refl _) hordered (hspEq ▸ hmerged'.ordered)
    refine ⟨hspEq, ?_, dag.ascendingMergeset_eq hvalid hmerged',
      descendingMergeset_eq dag hvalid hmerged'⟩
    rw [inv.consensusOrderedMergeset_eq hvalid hmerged', hspEq]
  · exact ⟨parents.length + blocks.card + 1, fun fuel hfuel =>
      ghostdag_perm dag hvalid hperm' (by omega)⟩

/-- Over the two sides of the diamond, the merged side comes after the selected one. -/
theorem mergeset_ordered_diamondSides :
    ∃ merged, (∀ x, x ∈ merged ↔ (∃ p ∈ [2, 3], InPast diamondSides.Parent x p) ∧
        ¬InPast diamondSides.Parent x 3) ∧
      (merged.Pairwise fun a b => ¬InPast diamondSides.Parent b a) ∧
      ∀ fuel d, diamondSides.ghostdag fuel [2, 3] = some d →
        diamondSides.consensusOrderedMergeset d = some (3 :: merged) := by
  obtain ⟨sp, mergeset, merged, hfind, -, -, hiff, -, hperm, -, htopological, hdata, -⟩ :=
    mergeset_ordered built_diamondSides.grown validParents_diamondSides
  have hthree : diamondSides.findSelectedParent [2, 3] = some 3 := by decide +kernel
  obtain rfl := some.inj (hthree.symm.trans hfind)
  exact ⟨merged, fun x => hperm.mem_iff.trans (hiff x), htopological,
    fun fuel d hd => (hdata fuel d hd).2.1⟩

/-! ## DAGs outside of the conditions -/

/-- A block over genesis. -/
def overGenesis : Option GhostdagManager :=
  addBlock 20 (fromGenesis ⟨1, [], 0, 0x207fffff⟩ (ForkedParam.newConst 1) 0)
    ⟨2, [1], 1, 0x207fffff⟩

/-- The chain `9`, `5` beside the block `20`. -/
def chainBesideBlock (bits : ℕ) : Option GhostdagManager :=
  [⟨9, [1], 1, bits⟩, ⟨5, [9], 1, bits⟩, ⟨20, [1], 1, bits⟩].foldlM (addBlock 20)
    (fromGenesis ⟨1, [], 0, bits⟩ (ForkedParam.newConst 2) 0)

/-- The parent relation of a run, where its stores hold it. -/
lemma parent_of_run {r : Option GhostdagManager} {p b : Hash} {ps : List Hash}
    (h : (r.bind fun m => m.getParents b) = some ps) (hp : p ∈ ps) :
    ∃ m, r = some m ∧ m.Parent p b := by
  obtain ⟨m, hm, hps⟩ := bind_eq_some_iff.mp h
  exact ⟨m, hm, ps, hps, hp⟩

/-- Where one parent is in the past of another one, the search returns it although it is in the
past of the selected parent. Where headers have no work (bits `0`), or where blue work wraps (bits
`0x09010000`), a block is sorted before its parent. -/
theorem mergeset_disordered :
    (∃ m, overGenesis = some m ∧ m.Parent 1 2 ∧ m.findSelectedParent [2, 1] = some 2 ∧
      unorderedMergesetWithoutSelectedParent m.getParents m.isDagAncestorOf 20 2 [2, 1] =
        some [1]) ∧
    ∀ bits ∈ [0, 0x09010000], ∃ m, chainBesideBlock bits = some m ∧ m.Parent 9 5 ∧
      m.findSelectedParent [5, 20] = some 20 ∧
      m.orderedMergesetWithoutSelectedParent 20 20 [5, 20] = some [5, 9] := by
  constructor
  · obtain ⟨m, hm, hparent⟩ := parent_of_run
      (show (overGenesis.bind fun m => m.getParents 2) = some [1] by decide +kernel) mem_cons_self
    have hrun : overGenesis.map (fun m => (m.findSelectedParent [2, 1],
        unorderedMergesetWithoutSelectedParent m.getParents m.isDagAncestorOf 20 2 [2, 1])) =
        some (some 2, some [1]) := by
      decide +kernel
    rw [hm] at hrun
    obtain ⟨hfind, hmergeset⟩ := Prod.mk.inj (some.inj hrun)
    exact ⟨m, hm, hparent, hfind, hmergeset⟩
  · intro bits hbits
    have hrun : ((chainBesideBlock bits).bind fun m => m.getParents 5) = some [9] ∧
        (chainBesideBlock bits).map (fun m => (m.findSelectedParent [5, 20],
          m.orderedMergesetWithoutSelectedParent 20 20 [5, 20])) =
        some (some 20, some [5, 9]) := by
      simp only [mem_cons, not_mem_nil, or_false] at hbits
      rcases hbits with rfl | rfl
      · decide +kernel
      · decide +kernel
    obtain ⟨hparents, hrun⟩ := hrun
    obtain ⟨m, hm, hparent⟩ := parent_of_run hparents mem_cons_self
    rw [hm] at hrun
    obtain ⟨hfind, hmerged⟩ := Prod.mk.inj (some.inj hrun)
    exact ⟨m, hm, hparent, hfind, hmerged⟩

end LapisMonetae.Window
