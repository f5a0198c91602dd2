import LapisMonetae.Depth.BlockDepthTheorems
import LapisMonetae.Ghostdag.RunTheorems

/-!
# Points along a chain

Every block stores the points that `calculate_block_at_depth` returned for it, and the walk for the
next block of the chain starts there. Where no shortcut is taken, the result is the highest block of
the chain below the required blue score, or the start. So the points of a chain do not move
backwards, also where the depth grows, unless a shortcut leads below the inherited point.
-/

namespace LapisMonetae.Depth

open Ghostdag GhostdagManager Dag Relation Classical Option

namespace BlockDepthManager

/-- The stores of the depth manager: the stored point of a block is the one that was returned for
it, with the pruning point of that time. -/
structure Recorded (dm : BlockDepthManager) (m : GhostdagManager) (blocks : Finset Hash)
    (depthType : BlockDepthType) (pruningPoint : Hash → Hash) : Prop extends dm.Reads m blocks where
  pruningPoint_mem : ∀ b ∈ blocks, pruningPoint b ∈ blocks
  stored : ∀ b ∈ blocks, ∀ d, m.getData b = some d → ∃ point fuel,
    dm.stored depthType b = some point ∧
    dm.calculateBlockAtDepth fuel d depthType (pruningPoint b) = some point

/-- The stored point of `b`, if any is known for `a`, is not below that of `a`. -/
def NotBackwards (dm : BlockDepthManager) (m : GhostdagManager) (depthType : BlockDepthType)
    (a b : Hash) : Prop :=
  ∃ point point', dm.stored depthType a = some point ∧ dm.stored depthType b = some point' ∧
    (point = BlockHash.origin ∨ m.OnChain point point')

/-- No shortcut is taken, or the inherited point is as low as what the shortcut leads to. -/
def Advances (dm : BlockDepthManager) (m : GhostdagManager) (depthType : BlockDepthType)
    (d : GhostdagData) (pruningPoint inherited : Hash) : Prop :=
  dm.Walks m depthType d pruningPoint ∨ inherited = BlockHash.origin ∨
    inherited = m.genesisHash ∧ d.blueScore < dm.depthAt depthType d.selectedParent

variable {m : GhostdagManager} {blocks : Finset Hash} {dm : BlockDepthManager}

/-! ## Fuel -/

lemma forwardChain_stable (service : ChainService) (descendant : Hash) :
    ∀ fuel fuel', fuel ≤ fuel' → ∀ current,
      Fuel.Below (service.forwardChain descendant fuel current)
        (service.forwardChain descendant fuel' current) := by
  refine Fuel.rounds (fun _ _ => Fuel.Below.none _) fun fuel fuel' ih current => ?_
  exact Fuel.Below.orElse (Fuel.Below.after fun next =>
    Fuel.Below.bind (ih next) fun _ => Fuel.Below.refl _)

lemma calculateBlockAtDepth_stable (d : GhostdagData) (depthType : BlockDepthType)
    (pruningPoint : Hash) :
    Fuel.Stable fun fuel => dm.calculateBlockAtDepth fuel d depthType pruningPoint := by
  intro fuel fuel' hle
  refine Fuel.Below.orElse (Fuel.Below.after fun score => ?_)
  refine Fuel.Below.orElse (Fuel.Below.after fun ppBs => ?_)
  refine Fuel.Below.orElse (Fuel.Below.after fun onChain => ?_)
  cases depthType <;>
    exact Fuel.Below.orElse (Fuel.Below.after fun start =>
      Fuel.Below.bind (forwardChain_stable _ _ fuel fuel' hle _) fun _ => Fuel.Below.refl _)

section points

variable {depthType : BlockDepthType} {pruningPoint : Hash → Hash}
variable (dag : m.MergedDag blocks) (hrec : dm.Recorded m blocks depthType pruningPoint)

include dag hrec

/-! ## The stored points -/

/-- The stored points are on the chains of their blocks, by induction up the chain. -/
lemma stored_isRoot : ∀ {b : Hash}, b ∈ blocks →
    ∃ point, dm.stored depthType b = some point ∧ IsRoot m blocks b point := by
  intro b
  induction hn : m.blueScore b using Nat.strong_induction_on generalizing b with
  | _ n ih =>
    intro hb
    by_cases hne : b = m.genesisHash
    · subst hne
      obtain ⟨point, fuel, hstored, heval⟩ := hrec.stored _ hb _ dag.genesis_data
      have horigin : dm.calculateBlockAtDepth fuel GhostdagData.genesis depthType
          (pruningPoint m.genesisHash) = some BlockHash.origin := if_pos rfl
      exact ⟨point, hstored, Or.inl (some.inj (heval.symm.trans horigin))⟩
    · obtain ⟨d, hd⟩ := dag.getData_some b hb
      obtain ⟨hsp, hselected, hlt⟩ := dag.chainTree.selectedParent b hb hne d hd
      obtain ⟨start, hstart, hroot⟩ := ih _ (hn ▸ hlt) rfl hsp
      obtain ⟨point, fuel, hstored, heval⟩ := hrec.stored b hb d hd
      obtain ⟨point', hreturns, hroot', -⟩ := calculateBlockAtDepth_returns dag hrec.toReads hsp
        (hrec.pruningPoint_mem b hb) hstart hroot
      obtain rfl := hreturns.unique ((calculateBlockAtDepth_stable d depthType _).returns heval)
      exact ⟨point', hstored, hroot'.imp_right fun h => ⟨h.1, h.2.tail hselected⟩⟩

/-- The step from a selected parent to its child: the point does not move backwards exactly where
the walk advances. -/
lemma notBackwards_step {p b inherited : Hash} {d : GhostdagData} (hp : p ∈ blocks)
    (hselected : m.SelectedParent p b) (hd : m.getData b = some d)
    (hinherited : dm.stored depthType p = some inherited) :
    dm.NotBackwards m depthType p b ↔
      dm.Advances m depthType d (pruningPoint b) inherited := by
  have tree := dag.chainTree
  have hb := tree.child_mem p b hselected
  obtain ⟨-, d', hd', rfl⟩ := hselected
  obtain rfl := some.inj (hd.symm.trans hd')
  obtain ⟨start, hstart, hroot⟩ := stored_isRoot dag hrec hp
  obtain rfl := some.inj (hinherited.symm.trans hstart)
  obtain ⟨point, fuel, hstored, heval⟩ := hrec.stored b hb d hd
  obtain ⟨point', hreturns, -, hpoint, hshortcut⟩ := calculateBlockAtDepth_returns dag hrec.toReads
    hp (hrec.pruningPoint_mem b hb) hstart hroot
  obtain rfl := hreturns.unique ((calculateBlockAtDepth_stable d depthType _).returns heval)
  have hiff : dm.NotBackwards m depthType d.selectedParent b ↔
      inherited = BlockHash.origin ∨ m.OnChain inherited point' := by
    simp [NotBackwards, hinherited, hstored]
  rw [hiff, Advances]
  by_cases hwalks : dm.Walks m depthType d (pruningPoint b)
  · refine iff_of_true (or_iff_not_imp_left.mpr fun hne => ?_) (.inl hwalks)
    have habove := (hpoint hwalks).above_start
    rwa [if_neg hne] at habove
  · rw [hshortcut hwalks, or_iff_right hwalks]
    refine or_congr_right' fun hne => ?_
    obtain ⟨hmem, -⟩ := hroot.resolve_left hne
    split
    · next hlt =>
      refine ⟨fun hon => ⟨?_, hlt⟩, fun h => h.1 ▸ ReflTransGen.refl⟩
      -- nothing but genesis is below genesis
      rcases hon.cases_tail with heq | ⟨q, hq, hgenesis⟩
      · exact heq.symm
      · exact absurd hgenesis (tree.genesis_root q (tree.mem_of_onChain hq hmem))
    · next hlt =>
      exact iff_of_false (fun hon => dag.origin_notMem (tree.mem_of_onChain hon hmem))
        fun h => hlt h.2

lemma notBackwards_trans {a b c : Hash} (ha : a ∈ blocks) (hab : dm.NotBackwards m depthType a b)
    (hbc : dm.NotBackwards m depthType b c) : dm.NotBackwards m depthType a c := by
  obtain ⟨point, point', hpoint, hpoint', hle⟩ := hab
  obtain ⟨start, res, hstart, hres, hstep⟩ := hbc
  obtain rfl := some.inj (hpoint'.symm.trans hstart)
  refine ⟨point, res, hpoint, hres, ?_⟩
  rcases hle with horigin | hup
  · exact Or.inl horigin
  rcases hstep with rfl | hstep
  · -- no stored block is on the chain of origin
    obtain ⟨point', hpoint', hroot⟩ := stored_isRoot dag hrec ha
    obtain rfl := some.inj (hpoint.symm.trans hpoint')
    exact hroot.imp_right fun h =>
      absurd (dag.chainTree.mem_of_onChain hup h.1) dag.origin_notMem
  · exact Or.inr (hup.trans hstep)

lemma notBackwards_run {a b : Hash} (ha : a ∈ blocks) (hon : m.OnChain a b)
    (hsteps : ∀ p c, m.OnChain a p → m.SelectedParent p c → m.OnChain c b →
      dm.NotBackwards m depthType p c) : dm.NotBackwards m depthType a b := by
  induction hon with
  | refl =>
    obtain ⟨point, hpoint, -⟩ := stored_isRoot dag hrec ha
    exact ⟨point, point, hpoint, hpoint, Or.inr ReflTransGen.refl⟩
  | @tail p b hap hpb ih =>
    refine notBackwards_trans dag hrec ha (ih fun q c haq hqc hcp => ?_) ?_
    · exact hsteps q c haq hqc (hcp.tail hpb)
    · exact hsteps p b hap hpb ReflTransGen.refl

/-- Without a shortcut, `calculate_block_at_depth` returns the highest block of the chain below the
required blue score that is not below the inherited point, or else that point (the pruning point if
there is none). Along a chain the points never move backwards if and only if every step advances. -/
theorem calculateBlockAtDepth_highest :
    (∀ d pp, d.selectedParent ∈ blocks → pp ∈ blocks → dm.Walks m depthType d pp →
      ∃ inherited point, dm.stored depthType d.selectedParent = some inherited ∧
        Fuel.Returns (fun fuel => dm.calculateBlockAtDepth fuel d depthType pp) point ∧
        IsPoint m d.selectedParent (if inherited = BlockHash.origin then pp else inherited)
          (d.blueScore - dm.depthAt depthType d.selectedParent) point) ∧
    ∀ a ∈ blocks, ∀ b, m.OnChain a b →
      ((∀ c c', m.OnChain a c → m.OnChain c c' → m.OnChain c' b →
        dm.NotBackwards m depthType c c') ↔
      ∀ p c d inherited, m.OnChain a p → m.SelectedParent p c → m.OnChain c b →
        m.getData c = some d → dm.stored depthType p = some inherited →
        dm.Advances m depthType d (pruningPoint c) inherited) := by
  have tree := dag.chainTree
  refine ⟨fun d pp hsp hpp hwalks => ?_, fun a ha b _ => ⟨?_, ?_⟩⟩
  · obtain ⟨inherited, hstored, hroot⟩ := stored_isRoot dag hrec hsp
    obtain ⟨point, hreturns, -, hpoint, -⟩ :=
      calculateBlockAtDepth_returns dag hrec.toReads hsp hpp hstored hroot
    exact ⟨inherited, point, hstored, hreturns, hpoint hwalks⟩
  · intro hmono p c d inherited hap hpc hcb hd hinherited
    rw [← notBackwards_step dag hrec (tree.mem_of_onChain hap ha) hpc hd hinherited]
    exact hmono p c hap (ReflTransGen.single hpc) hcb
  · intro hadvances c c' hac hcc' hcb
    refine notBackwards_run dag hrec (tree.mem_of_onChain hac ha) hcc' fun p q hcp hpq hqc => ?_
    have hp := tree.mem_of_onChain (hac.trans hcp) ha
    obtain ⟨d, hd⟩ := tree.getData_some q (tree.child_mem p q hpq)
    obtain ⟨inherited, hinherited, -⟩ := stored_isRoot dag hrec hp
    rw [notBackwards_step dag hrec hp hpq hd hinherited]
    exact hadvances p q d inherited (hac.trans hcp) hpq (hqc.trans hcb) hd hinherited

end points

/-- The stores over the diamond, with a finality depth that rises from `1` to `100` at the DAA score
of its last block. -/
def risingDepth : BlockDepthManager where
  mergeDepth := .newConst 1
  finalityDepth := ⟨1, 100, ⟨2⟩⟩
  genesisHash := 1
  mergeDepthRoot _ := none
  finalityPoint b := some (if b = 1 then BlockHash.origin else if b = 4 then 3 else 1)
  reachabilityService := diamond.chainService 40
  ghostdagStore := diamond
  getDaaScore := diamond.getDaaScore

lemma risingDepth_recorded : risingDepth.Recorded diamond {4, 3, 2, 1} .finality fun _ => 1 where
  store_eq := rfl
  genesis_eq := by decide +kernel
  serves := built_diamond.storeInv.chainService_serves (by decide +kernel)
  daaScore := built_diamond.storeInv.daaScore
  pruningPoint_mem := by decide
  stored b hb d hd := by
    have hall : ∀ b ∈ ({4, 3, 2, 1} : Finset Hash), (diamond.getData b).bind (fun d =>
        risingDepth.calculateBlockAtDepth 40 d .finality 1) = risingDepth.stored .finality b := by
      decide +kernel
    have heval := hall b hb
    rw [hd] at heval
    exact ⟨_, 40, rfl, heval⟩

theorem calculateBlockAtDepth_highest_diamond : ∃ d inherited point,
    diamond.getData 4 = some d ∧ d.selectedParent = 3 ∧
    risingDepth.stored .finality d.selectedParent = some inherited ∧
    Fuel.Returns (fun fuel => risingDepth.calculateBlockAtDepth fuel d .finality 1) point ∧
    IsPoint diamond d.selectedParent (if inherited = BlockHash.origin then 1 else inherited)
      (d.blueScore - risingDepth.depthAt .finality d.selectedParent) point := by
  have dag := built_diamond.storeInv.mergedDag
  obtain ⟨d, hd⟩ := dag.getData_some 4 (by decide)
  have hdata : ((diamond.getData 4).map fun d => (d.selectedParent, decide
      (diamond.blueScore 1 + risingDepth.depthAt .finality d.selectedParent ≤ d.blueScore))) =
      some (3, true) := by decide +kernel
  rw [hd, map_some, some.injEq, Prod.mk.injEq, decide_eq_true_iff] at hdata
  obtain ⟨hsp, hdepth⟩ := hdata
  have hmem : d.selectedParent ∈ ({4, 3, 2, 1} : Finset Hash) := by
    rw [hsp]
    decide
  obtain ⟨inherited, point, hspec⟩ := (calculateBlockAtDepth_highest dag risingDepth_recorded).1 d 1
    hmem (by decide) ⟨hdepth, dag.chainTree.genesis_onChain hmem⟩
  exact ⟨d, inherited, point, hd, hsp, hspec⟩

/-- The finality point of the last block of the diamond is `3`. For a block over it the depth is
greater than the blue score, so that its point is genesis, below `3`. -/
theorem finalityPoint_moves_backwards : risingDepth.stored .finality 4 = some 3 ∧
    (do risingDepth.calcFinalityPoint 40 (← diamond.ghostdag 20 [4]) 1) = some 1 ∧
    diamond.blueScore 1 < diamond.blueScore 3 := by
  decide +kernel

end BlockDepthManager

end LapisMonetae.Depth
