import LapisMonetae.Virtual.Parents
import LapisMonetae.Depth.PointTheorems
import LapisMonetae.Ghostdag.BlueScoreTheorems
import LapisMonetae.Ghostdag.RunTheorems

/-!
# Removing the parents that break the bounded merge rule

The parents that are kept are those with no violating red in their past. The rule is judged by the
mergeset of all the parents; in the mergeset of those that are kept, a block may have lost the blue
that allowed it.
-/

namespace LapisMonetae.Virtual

open Ghostdag GhostdagManager Depth Dag Relation Classical List BlockDepthManager Option

variable {m : GhostdagManager} {blocks : Finset Hash}

/-- The block is not above the merge depth root, and no kosherizing blue merges it. -/
def Breaks (m : GhostdagManager) (d : GhostdagData) (root x : Hash) : Prop :=
  ¬InPast m.Parent root x ∧ ∀ y ∈ d.mergesetBlues, m.OnChain root y → ¬InPast m.Parent x y

/-- The parents that have none of the violating reds in their past. -/
noncomputable def keptParents (m : GhostdagManager) (d : GhostdagData) (root : Hash)
    (parents : List Hash) : List Hash :=
  parents.filter fun h => decide (∀ x ∈ d.mergesetReds, Breaks m d root x → ¬InPast m.Parent x h)

/-! ## The loops -/

lemma filterKosherizing_eq {dm : BlockDepthManager} (hserves : dm.reachabilityService.Serves m blocks)
    {root : Hash} (hroot : root ∈ blocks) (l : List Hash) (hl : ∀ y ∈ l, y ∈ blocks) :
    dm.filterKosherizing root l = some (l.filter fun y => decide (m.OnChain root y)) := by
  induction l with
  | nil => rfl
  | cons y l ih =>
    have hquery := hserves.isChainAncestorOf root hroot y (hl y mem_cons_self)
    have hrest := ih fun z hz => hl z (mem_cons_of_mem _ hz)
    rw [filterKosherizing, hquery, hrest, filter_cons]
    rfl

section parents

variable {p : ParentPicker}
variable {d : GhostdagData} {root : Hash} {parents : List Hash}

lemma retainParents_eq (dag : p.ghostdagManager.WorkDag blocks) {badReds : List Hash}
    (hbad : ∀ x ∈ badReds, x ∈ blocks) (parents : List Hash) (hparents : ∀ h ∈ parents, h ∈ blocks) :
    p.retainParents badReds parents = some (parents.filter fun h =>
      decide (∀ x ∈ badReds, ¬InPast p.ghostdagManager.Parent x h)) := by
  induction parents with
  | nil => rfl
  | cons h parents ih =>
    have hquery := dag.isAnyDagAncestor_eq (hparents h mem_cons_self) badReds hbad
    have hrest := ih fun z hz => hparents z (mem_cons_of_mem _ hz)
    rw [ParentPicker.retainParents, hquery, hrest, filter_cons]
    by_cases hin : ∃ x ∈ badReds, InPast p.ghostdagManager.Parent x h
    · have hnot : ¬∀ x ∈ badReds, ¬InPast p.ghostdagManager.Parent x h := by
        obtain ⟨x, hx, hpast⟩ := hin
        exact fun hall => hall x hx hpast
      simp [hin, hnot]
    · simp [hin]

/-- The loop over the reds collects those that break the rule. -/
lemma findBadReds_eq (dag : p.ghostdagManager.WorkDag blocks)
    (hserves : p.depthManager.reachabilityService.Serves p.ghostdagManager blocks)
    (hroot : root ∈ blocks ∨ root = BlockHash.origin) (hblues : ∀ y ∈ d.mergesetBlues, y ∈ blocks)
    (reds : List Hash) (hreds : ∀ x ∈ reds, x ∈ blocks) : ∀ cache : Option (List Hash),
      (∀ blues, cache = some blues →
        blues = d.mergesetBlues.filter fun y => decide (p.ghostdagManager.OnChain root y)) →
      p.findBadReds d root reds cache =
        some (reds.filter fun x => decide (Breaks p.ghostdagManager d root x)) := by
  induction reds with
  | nil => exact fun _ _ => rfl
  | cons x reds ih =>
    intro cache hcache
    have hx := hreds x mem_cons_self
    have hrest := ih fun z hz => hreds z (mem_cons_of_mem _ hz)
    rw [ParentPicker.findBadReds, dag.reachability root hroot x hx, filter_cons]
    by_cases habove : InPast p.ghostdagManager.Parent root x
    · have hnot : ¬Breaks p.ghostdagManager d root x := fun h => h.1 habove
      simp [habove, hnot, hrest cache hcache]
    · -- origin is below every block, so the root is a stored block here
      have hmem : root ∈ blocks := by
        refine hroot.resolve_right fun horigin => habove ?_
        rw [horigin]
        exact dag.origin_inPast hx
      let kosher := d.mergesetBlues.filter fun y => decide (p.ghostdagManager.OnChain root y)
      have hkosher : p.depthManager.kosherizingBlues d root = some kosher :=
        filterKosherizing_eq hserves hmem d.mergesetBlues hblues
      have hany := dag.isDagAncestorOfAny_eq (Or.inl hx) kosher
        fun y hy => hblues y (mem_of_mem_filter hy)
      have hbad := hrest (some kosher) fun blues h => (some.inj h).symm
      have hiff : Breaks p.ghostdagManager d root x ↔
          ¬∃ y ∈ kosher, InPast p.ghostdagManager.Parent x y := by
        simp [Breaks, habove, kosher]
      -- the cache only saves the second reading
      have hload : cache = none ∨ cache = some kosher := by
        cases cache with
        | none => exact Or.inl rfl
        | some blues => exact Or.inr (congrArg some (hcache blues rfl))
      rcases hload with rfl | rfl <;>
      · simp only [habove, decide_false, some_bind_eq, Bool.false_eq_true,
          if_false, hkosher, hany, hbad, Option.pure_def]
        by_cases hbreaks : Breaks p.ghostdagManager d root x
        · rw [decide_eq_true hbreaks, decide_eq_false (hiff.mp hbreaks)]
          rfl
        · rw [decide_eq_false hbreaks, decide_eq_true (not_not.mp fun h => hbreaks (hiff.mpr h))]
          rfl

/-! ## The outcome -/

omit p in
/-- Where no red breaks the rule, all the parents are kept. -/
lemma keptParents_eq (hnone : ∀ x ∈ d.mergesetReds, ¬Breaks m d root x) (parents : List Hash) :
    keptParents m d root parents = parents :=
  filter_eq_self.mpr fun _ _ => decide_eq_true fun x hx hbreaks =>
    absurd hbreaks (hnone x hx)

/-- What `remove_bounded_merge_breaking_parents` returns: the kept parents with the data `d'`, where
`d` and `root` are the data and the merge depth root of all the parents. -/
structure Removal (p : ParentPicker) (blocks : Finset Hash) (parents : List Hash)
    (pruningPoint : Hash) (d : GhostdagData) (root : Hash) (d' : GhostdagData) : Prop where
  ghostdag : Fuel.Returns (fun fuel => p.ghostdagManager.ghostdag fuel parents) d
  colored : p.ghostdagManager.Colored blocks parents d
  rootReturns : Fuel.Returns
    (fun fuel => p.depthManager.calcMergeDepthRoot fuel d pruningPoint) root
  isRoot : IsRoot p.ghostdagManager blocks d.selectedParent root
  valid : p.ghostdagManager.ValidParents blocks (keptParents p.ghostdagManager d root parents)
  ghostdag' : Fuel.Returns (fun fuel => p.ghostdagManager.ghostdag fuel
    (keptParents p.ghostdagManager d root parents)) d'
  colored' : p.ghostdagManager.Colored blocks (keptParents p.ghostdagManager d root parents) d'
  selectedParent_eq : d'.selectedParent = d.selectedParent
  returns : Fuel.Returns
    (fun fuel => p.removeBoundedMergeBreakingParents fuel parents pruningPoint)
    (keptParents p.ghostdagManager d root parents, d')

omit p in
/-- The selected parent merges no violating red. -/
lemma selectedParent_mem_keptParents (hcol : m.Colored blocks parents d) :
    d.selectedParent ∈ keptParents m d root parents := by
  obtain ⟨merged, hmerged⟩ := hcol.merged
  refine mem_filter.mpr ⟨hcol.selectedParent_mem, decide_eq_true fun x hx _ => ?_⟩
  exact ((hmerged.ordered.mem_iff x).mp (hmerged.reds_sublist.subset hx)).2

lemma removeBoundedMergeBreakingParents_spec (inv : p.ghostdagManager.StoreInv blocks)
    (hknows : p.depthManager.Knows p.ghostdagManager blocks)
    {pruningPoint : Hash} (hpp : pruningPoint ∈ blocks)
    (hvalid : p.ghostdagManager.ValidParents blocks parents)
    (hk : ∀ sp, p.ghostdagManager.findSelectedParent parents = some sp →
      p.ghostdagManager.kOf sp + 1 < 2 ^ 16) :
    ∃ d root d', Removal p blocks parents pruningPoint d root d' := by
  set m := p.ghostdagManager with hm
  have dag := inv.workDag
  obtain ⟨d, hreturns, hcol⟩ := ghostdag_spec inv hvalid hk
  have hsp := hcol.parent_mem hvalid
  obtain ⟨root, -, hroot, -, hisRoot, -, -⟩ := calcMergeDepthRoot_spec
    inv.mergedDag hknows hsp hpp rfl (le_refl d.blueScore)
  obtain ⟨merged, hmerged⟩ := hcol.merged
  have hmem : ∀ x ∈ merged, x ∈ blocks := fun x hx =>
    dag.mem_of_merged hvalid.mem_blocks hsp hmerged.ordered hx
  have hblues : ∀ y ∈ d.mergesetBlues, y ∈ blocks := by
    intro y hy
    rw [hmerged.blues_eq] at hy
    rcases mem_cons.mp hy with rfl | hy
    · exact hsp
    · exact hmem y (hmerged.blues_sublist.subset hy)
  have hreds : ∀ x ∈ d.mergesetReds, x ∈ blocks := fun x hx =>
    hmem x (hmerged.reds_sublist.subset hx)
  let bad := d.mergesetReds.filter fun x => decide (Breaks m d root x)
  have hbad : p.findBadReds d root d.mergesetReds none = some bad :=
    findBadReds_eq dag hknows.serves (hisRoot.symm.imp_left And.left) hblues d.mergesetReds hreds
      none fun _ h => nomatch h
  have hmemBad : ∀ x, x ∈ bad ↔ x ∈ d.mergesetReds ∧ Breaks m d root x := by
    intro x
    rw [mem_filter, decide_eq_true_iff]
  have hretain : p.retainParents bad parents = some (keptParents m d root parents) := by
    rw [retainParents_eq dag (fun x hx => hreds x ((hmemBad x).mp hx).1) parents hvalid.mem_blocks]
    refine congrArg some (filter_congr fun h _ => decide_eq_decide.mpr ?_)
    exact forall_congr' fun x => by rw [hmemBad, and_imp]
  have hspKept : d.selectedParent ∈ keptParents m d root parents :=
    selectedParent_mem_keptParents hcol
  have hvalid' : m.ValidParents blocks (keptParents m d root parents) := by
    refine ⟨ne_nil_of_mem hspKept, fun q hq => ?_, fun a b ha hb => ?_⟩
    · exact hvalid.mem_blocks q (mem_of_mem_filter hq)
    · exact hvalid.antichain a b (mem_of_mem_filter ha) (mem_of_mem_filter hb)
  -- the selected parent is kept, so it is selected again
  have hle : ∀ q ∈ keptParents m d root parents, m.key q ≤ m.key d.selectedParent := fun q hq =>
    hcol.key_le q (mem_of_mem_filter hq)
  have hk' : ∀ sp, m.findSelectedParent (keptParents m d root parents) = some sp →
      m.kOf sp + 1 < 2 ^ 16 := by
    intro sp hsp'
    rw [dag.findSelectedParent_eq hvalid' hspKept hle] at hsp'
    obtain rfl := some.inj hsp'
    exact hk _ (dag.findSelectedParent_eq hvalid hcol.selectedParent_mem hcol.key_le)
  obtain ⟨d', hreturns', hcol'⟩ := ghostdag_spec inv hvalid' hk'
  refine ⟨d, root, d', hreturns, hcol, hroot, hisRoot, hvalid', hreturns', hcol', key_injective
    (le_antisymm (hle _ hcol'.selectedParent_mem) (hcol'.key_le _ hspKept)), ?_⟩
  refine hreturns.bind (hroot.bind (a := root) ?_)
  show Fuel.Returns (fun fuel => (p.findBadReds d root d.mergesetReds none).bind fun badReds =>
    if badReds = [] then some (parents, d)
    else (p.retainParents badReds parents).bind fun parents =>
      (m.ghostdag fuel parents).bind fun d => some (parents, d))
    (keptParents m d root parents, d')
  simp only [hbad, bind_some]
  by_cases hnone : bad = []
  · have hkept : keptParents m d root parents = parents := by
      refine keptParents_eq (fun x hx hbreaks => ?_) parents
      have hx' := (hmemBad x).mpr ⟨hx, hbreaks⟩
      rw [hnone] at hx'
      exact absurd hx' not_mem_nil
    rw [hkept] at hreturns'
    rw [hreturns'.unique hreturns, hkept]
    exact ⟨0, fun fuel _ => if_pos hnone⟩
  · simp only [if_neg hnone, hretain, bind_some]
    exact hreturns'.bind (Fuel.returns_const _)

namespace Removal

variable {parents : List Hash} {pruningPoint root : Hash} {d d' : GhostdagData}
  (h : Removal p blocks parents pruningPoint d root d')

include h

/-- The new mergeset is part of the old one, without the violating reds. -/
lemma mem_mergeset {x : Hash} (hx : x ∈ d'.mergesetBlues ++ d'.mergesetReds) :
    x ∈ d.mergesetBlues ++ d.mergesetReds ∧
      (x ∈ d.mergesetReds → ¬Breaks p.ghostdagManager d root x) := by
  obtain ⟨merged, hmerged⟩ := h.colored.merged
  obtain ⟨merged', hmerged'⟩ := h.colored'.merged
  rw [hmerged'.blues_eq, cons_append, mem_cons, hmerged'.perm.mem_iff, h.selectedParent_eq] at hx
  rw [hmerged.blues_eq, cons_append, mem_cons, hmerged.perm.mem_iff]
  rcases hx with rfl | hx
  · refine ⟨Or.inl rfl, fun hred => ?_⟩
    have hout := ((hmerged.ordered.mem_iff _).mp (hmerged.reds_sublist.subset hred)).2
    exact absurd (InPast.refl _) hout
  · obtain ⟨⟨q, hq, hpast⟩, hout⟩ := (hmerged'.ordered.mem_iff x).mp hx
    obtain ⟨hq, hkept⟩ := mem_filter.mp hq
    rw [h.selectedParent_eq] at hout
    refine ⟨Or.inr ((hmerged.ordered.mem_iff x).mpr ⟨⟨q, hq, hpast⟩, hout⟩), fun hred hbreaks => ?_⟩
    exact of_decide_eq_true hkept x hred hbreaks hpast

end Removal

/-- `remove_bounded_merge_breaking_parents` returns the parents that merge no violating red of the
given parents' mergeset, with their ghostdag data and the same selected parent. The new mergeset is
part of the old one and has none of the violating reds. If there is none, nothing is removed. A block
that the old mergeset allowed is allowed by the new one, as long as one of the kosherizing blues that
merge it is still blue and the blue score has not grown. The blues are above the merge depth root
wherever the blue score is more than `3k` above that of the root. -/
theorem removeBoundedMergeBreakingParents_kept (inv : p.ghostdagManager.StoreInv blocks)
    (hknows : p.depthManager.Knows p.ghostdagManager blocks) {parents : List Hash}
    {pruningPoint : Hash} (hpp : pruningPoint ∈ blocks)
    (hvalid : p.ghostdagManager.ValidParents blocks parents)
    (hk : ∀ sp, p.ghostdagManager.findSelectedParent parents = some sp →
      p.ghostdagManager.kOf sp + 1 < 2 ^ 16) :
    ∃ d root kept d' root', Fuel.Returns (fun fuel => p.ghostdagManager.ghostdag fuel parents) d ∧
      Fuel.Returns (fun fuel => p.depthManager.calcMergeDepthRoot fuel d pruningPoint) root ∧
      Fuel.Returns (fun fuel => p.removeBoundedMergeBreakingParents fuel parents pruningPoint)
        (kept, d') ∧
      Fuel.Returns (fun fuel => p.ghostdagManager.ghostdag fuel kept) d' ∧
      Fuel.Returns (fun fuel => p.depthManager.calcMergeDepthRoot fuel d' pruningPoint) root' ∧
      d'.selectedParent = d.selectedParent ∧ kept.Sublist parents ∧
      (∀ h, h ∈ kept ↔ h ∈ parents ∧ ∀ x ∈ d.mergesetReds,
        Breaks p.ghostdagManager d root x → ¬InPast p.ghostdagManager.Parent x h) ∧
      (∀ x ∈ d'.mergesetBlues ++ d'.mergesetReds, x ∈ d.mergesetBlues ++ d.mergesetReds ∧
        (x ∈ d.mergesetReds → ¬Breaks p.ghostdagManager d root x)) ∧
      ((∀ x ∈ d.mergesetReds, ¬Breaks p.ghostdagManager d root x) →
        kept = parents ∧ ∀ x ∈ d'.mergesetReds, ¬Breaks p.ghostdagManager d' root' x) ∧
      (d'.blueScore ≤ d.blueScore → ∀ x ∈ d'.mergesetBlues ++ d'.mergesetReds,
        (∃ y ∈ d.mergesetBlues, p.ghostdagManager.OnChain root y ∧
          InPast p.ghostdagManager.Parent x y ∧ y ∈ d'.mergesetBlues) →
        ¬Breaks p.ghostdagManager d' root' x) ∧
      (p.ghostdagManager.blueScore root' + 3 * p.ghostdagManager.kOf d'.selectedParent <
          d'.blueScore →
        ∀ x ∈ d'.mergesetBlues, ¬Breaks p.ghostdagManager d' root' x) := by
  obtain ⟨d, root, d', h⟩ := removeBoundedMergeBreakingParents_spec inv hknows hpp hvalid hk
  have hsp := h.colored'.parent_mem h.valid
  obtain ⟨root', -, hroot', -, hisRoot', -, -⟩ := calcMergeDepthRoot_spec
    inv.mergedDag hknows hsp hpp rfl (le_refl d'.blueScore)
  refine ⟨d, root, _, d', root', h.ghostdag, h.rootReturns, h.returns, h.ghostdag', hroot',
    h.selectedParent_eq, filter_sublist, fun q => ?_, fun x hx => h.mem_mergeset hx,
    fun hnone => ?_, fun hle x _ => ?_, fun hscore x hx hbreaks => ?_⟩
  · exact mem_filter.trans (and_congr_right fun _ => decide_eq_true_iff)
  · have hkept := keptParents_eq hnone parents
    have hdata := h.ghostdag'
    rw [hkept] at hdata
    obtain rfl := hdata.unique h.ghostdag
    obtain rfl := hroot'.unique h.rootReturns
    exact ⟨hkept, hnone⟩
  · -- with a lower blue score the root only falls, so the blue is above it
    rintro ⟨y, -, hon, hxy, hy⟩ hbreaks
    obtain ⟨root₁, root₂, hroot₁, hroot₂, -, -, hlowers⟩ :=
      calcMergeDepthRoot_spec inv.mergedDag hknows
        (h.colored.parent_mem hvalid) hpp h.selectedParent_eq hle
    obtain rfl := hroot₁.unique h.rootReturns
    obtain rfl := hroot₂.unique hroot'
    obtain ⟨parentData, link⟩ := h.colored'.chainLink inv h.valid
    exact hbreaks.2 y hy ((hlowers y (link.blues_mem y hy)).2 hon) hxy
  · obtain ⟨parentData, link⟩ := h.colored'.chainLink inv h.valid
    rcases hisRoot' with rfl | ⟨hmem, hon⟩
    · exact hbreaks.1 (inv.workDag.origin_inPast (link.blues_mem x hx))
    · exact hbreaks.1 (h.colored'.inPast_blue inv h.valid hmem hon hscore hx)

end parents

/-- A depth manager over stores in which every merge depth root is genesis. -/
def depthOver (m : GhostdagManager) (mergeDepth : ℕ) : BlockDepthManager where
  mergeDepth := .newConst mergeDepth
  finalityDepth := .newConst mergeDepth
  genesisHash := m.genesisHash
  mergeDepthRoot _ := some m.genesisHash
  finalityPoint _ := some m.genesisHash
  reachabilityService := m.chainService 40
  ghostdagStore := m
  getDaaScore := m.getDaaScore

/-- The choice of parents with a constant merge depth and the limit on the mergeset. -/
def pickerOver (m : GhostdagManager) (mergeDepth mergesetSizeLimit : ℕ) : ParentPicker where
  ghostdagManager := m
  depthManager := depthOver m mergeDepth
  getDaaScore := m.getDaaScore
  maxBlockParents := .newConst 10
  mergesetSizeLimit := .newConst mergesetSizeLimit

lemma depthOver_knows (inv : m.StoreInv blocks) (hscore : ∀ b ∈ blocks, m.blueScore b < 40)
    (mergeDepth : ℕ) : (depthOver m mergeDepth).Knows m blocks where
  store_eq := rfl
  genesis_eq := rfl
  serves := inv.chainService_serves hscore
  daaScore := inv.daaScore
  mergeDepthRoot _ hb :=
    ⟨_, rfl, Or.inr ⟨inv.genesis_mem, inv.mergedDag.chainTree.genesis_onChain hb⟩⟩

/-- The chain `1, 2, 3` beside the block `4`, where `k` is zero. -/
def sideBlock : GhostdagManager :=
  [⟨2, [1], 1, 0x207fffff⟩, ⟨3, [2], 1, 0x207fffff⟩, ⟨4, [1], 1, 0x207fffff⟩].foldl
    (fun m header => (addBlock 20 m header).getD m)
    (fromGenesis ⟨1, [], 0, 0x207fffff⟩ (ForkedParam.newConst 0) 0)

lemma built_sideBlock : Built sideBlock {4, 3, 2, 1} := by
  simp only [sideBlock, foldl_cons, foldl_nil]
  refine Built.next (Built.next (Built.next (Built.genesis _ _ _ ?_ ⟨2, ?_, ?_⟩) ?_) ?_) ?_ <;>
    decide +kernel

/-- With merge depth `1` the block `2` is the root, and the red parent `4` is removed. -/
theorem removeBoundedMergeBreakingParents_sideBlock : ∃ kept d', Fuel.Returns (fun fuel =>
      (pickerOver sideBlock 1 10).removeBoundedMergeBreakingParents fuel [3, 4] 1) (kept, d') ∧
      d'.selectedParent = 3 ∧ kept.Sublist [3, 4] ∧ 4 ∉ kept := by
  have inv := built_sideBlock.storeInv
  have hmem : ∀ q ∈ [(3 : Hash), 4], q ∈ ({4, 3, 2, 1} : Finset Hash) := by decide
  have hincest : sideBlock.checkParentsIncest [3, 4] = some (.ok ()) := by decide +kernel
  have hvalid : sideBlock.ValidParents {4, 3, 2, 1} [3, 4] :=
    ⟨by decide, hmem, (checkParentsIncest_ok_iff inv hmem).mp hincest⟩
  have hfind : sideBlock.findSelectedParent [3, 4] = some 3 := by decide +kernel
  obtain ⟨d, root, kept, d', -, hghostdag, hroot, hreturns, -, -, hsp, hsub, hkept, -⟩ :=
    removeBoundedMergeBreakingParents_kept (p := pickerOver sideBlock 1 10) inv
      (depthOver_knows inv (by decide +kernel) 1) (by decide : (1 : Hash) ∈ _) hvalid (by
        intro sp hsp
        obtain rfl := some.inj (hfind.symm.trans hsp)
        decide +kernel)
  have hrun : ((sideBlock.ghostdag 20 [3, 4]).bind fun d =>
      ((depthOver sideBlock 1).calcMergeDepthRoot 20 d 1).map fun root =>
        (d.selectedParent, d.mergesetBlues, d.mergesetReds, root)) = some (3, [3], [4], 2) := by
    decide +kernel
  obtain ⟨e, he, hrest⟩ := bind_eq_some_iff.mp hrun
  obtain ⟨r, hr, hobs⟩ := map_eq_some_iff.mp hrest
  obtain rfl := hghostdag.unique ((ghostdag_stable [3, 4]).returns he)
  obtain rfl := hroot.unique ((calculateBlockAtDepth_stable d .mergeRoot 1).returns hr)
  simp only [Prod.mk.injEq] at hobs
  obtain ⟨hselected, hblues, hreds, rfl⟩ := hobs
  have hbreaks : Breaks sideBlock d 2 4 := by
    refine ⟨mt (inv.inPast_iff (by decide) (by decide)).mp (by decide +kernel), fun y hy _ => ?_⟩
    rw [hblues] at hy
    obtain rfl := mem_singleton.mp hy
    exact mt (inv.inPast_iff (by decide) (by decide)).mp (by decide +kernel)
  refine ⟨kept, d', hreturns, hsp.trans hselected, hsub, fun h4 => ?_⟩
  exact ((hkept 4).mp h4).2 4 (hreds ▸ mem_cons_self) hbreaks (InPast.refl 4)

/-- The block `8` merges `6` over the block `4`, and `9` merges it with `7`. -/
def lostBlue : Option GhostdagManager :=
  [⟨2, [1], 1, 0x207fffff⟩, ⟨3, [2], 1, 0x207fffff⟩, ⟨4, [3], 1, 0x207fffff⟩,
    ⟨5, [3], 1, 0x207fffff⟩, ⟨20, [4, 5], 1, 0x207fffff⟩, ⟨6, [1], 1, 0x207fffff⟩,
    ⟨7, [2], 1, 0x207fffff⟩, ⟨8, [4, 6], 1, 0x207fffff⟩, ⟨9, [8, 7], 1, 0x207fffff⟩,
    ⟨10, [3, 6], 1, 0x207fffff⟩].foldlM
    (addBlock 40) (fromGenesis ⟨1, [], 0, 0x207fffff⟩ (ForkedParam.newConst 2) 0)

/-- The parents that are left, with the blocks of their mergeset that break the bounded merge rule:
neither above the new merge depth root nor merged by a kosherizing blue. -/
def recheck (p : ParentPicker) (fuel : ℕ) (parents : List Hash) (pruningPoint : Hash) :
    Option (List Hash × List Hash) := do
  let (parents, ghostdagData) ← p.removeBoundedMergeBreakingParents fuel parents pruningPoint
  let mergeDepthRoot ← p.depthManager.calcMergeDepthRoot fuel ghostdagData pruningPoint
  let bad ← p.findBadReds ghostdagData mergeDepthRoot
    (ghostdagData.mergesetBlues ++ ghostdagData.mergesetReds) none
  return (parents, bad)

/-- With merge depth `1` the blue `2` is not above the root `3`, and blues are not checked. With merge
depth `4` the parent `9` is removed because of the red `7`; the blue `8` that allowed `6` goes with it,
but the parent `10` still merges `6`. The merge depth roots of all the blocks are genesis, as
`calc_merge_depth_root` computes them. -/
theorem removeBoundedMergeBreakingParents_breaks :
    recheck (pickerOver diamondSides 1 10) 40 [3, 2] 1 = some ([3, 2], [2]) ∧
    (lostBlue.bind fun m => recheck (pickerOver m 4 100) 40 [20, 9, 10] 1) = some ([20, 10], [6]) ∧
    (lostBlue.bind fun m => [2, 3, 4, 5, 20, 6, 7, 8, 9, 10].mapM fun b => do
      (depthOver m 4).calcMergeDepthRoot 40 (← m.getData b) 1) = some (List.replicate 10 1) := by
  decide +kernel

end LapisMonetae.Virtual
