import LapisMonetae.Window.FullWindowTheorems

/-!
# The samples of a window

What the samples of a block are, from the mergesets on its activated chain, and that the iterator
over a mergeset finds them.
-/

namespace LapisMonetae.Window

open Ghostdag Dag Top Classical List Option

namespace SampledWindowManager

/-! ## The samples of a mergeset -/

/-- Whether a block with this selected parent is activated. -/
def Activated (w : SampledWindowManager) (selectedParent : Hash) : Prop :=
  w.isWindowBlockCrescendoActivated selectedParent = some true

/-- The blocks of the mergeset, with the selected parent, that are in the DAA range of the merging
block. -/
def daaBlocks (w : SampledWindowManager) (d : GhostdagData) : Finset Hash :=
  (d.mergesetBlues ++ d.mergesetReds).toFinset.filter fun x =>
    w.lowestDaaBlueScore d ≤ w.ghostdagStore.blueScore x

/-- The index of a block among the DAA blocks of the merging block, from the greatest blue work
down. -/
def daaIndex (w : SampledWindowManager) (d : GhostdagData) (x : Hash) : ℕ :=
  ((w.daaBlocks d).filter fun y => w.ghostdagStore.key x ≤ w.ghostdagStore.key y).card

/-- The block `x` is an activated sample of the mergeset of a block with the data `d`: it is a DAA
block, it is activated itself, and its DAA score in the order of the merging block is a multiple
of the rate. -/
structure IsSample (w : SampledWindowManager) (rate : ℕ) (d : GhostdagData) (x : Hash) : Prop where
  mem : x ∈ w.daaBlocks d
  activated : ∃ data, w.ghostdagStore.getData x = some data ∧ w.Activated data.selectedParent
  daaScore : ∃ score, w.ghostdagStore.getDaaScore d.selectedParent = some score ∧
    rate ∣ score + w.daaIndex d x

section samples

variable {w : SampledWindowManager} {blocks : Finset Hash}
  (inv : w.ghostdagStore.StoreInv blocks)
variable {m : GhostdagManager} {a x : Hash} {threshold : ℕ} {rate : ℕ}

/-- The DAA blocks of a sequence with keys not below the one of `x`. -/
def daaCount (m : GhostdagManager) (threshold : ℕ) (l : List Hash) (x : Hash) : ℕ :=
  (l.filter fun y => decide (threshold ≤ m.blueScore y ∧ m.key x ≤ m.key y)).length

lemma daaCount_cons_of_low (l : List Hash) (x : Hash) (ha : m.blueScore a < threshold) :
    daaCount m threshold (a :: l) x = daaCount m threshold l x := by
  unfold daaCount
  rw [filter_cons_of_neg]
  rw [decide_eq_true_eq]
  omega

lemma daaCount_cons (l : List Hash) (ha : threshold ≤ m.blueScore a) (hx : m.key x ≤ m.key a) :
    daaCount m threshold (a :: l) x = daaCount m threshold l x + 1 := by
  unfold daaCount
  rw [filter_cons_of_pos (by rw [decide_eq_true_eq]; exact ⟨ha, hx⟩), length_cons]

lemma daaCount_of_lt {l : List Hash} (hl : ∀ y ∈ l, m.key y < m.key a) :
    daaCount m threshold l a = 0 := by
  unfold daaCount
  rw [length_eq_zero_iff, filter_eq_nil_iff]
  intro y hy hdecide
  exact absurd (of_decide_eq_true hdecide).2 (not_le.mpr (hl y hy))

include inv in
/-- Activation is defined for every stored block. -/
lemma activation_defined {data : GhostdagData} (hx : x ∈ blocks)
    (hdata : w.ghostdagStore.getData x = some data) :
    ∃ activated, w.isWindowBlockCrescendoActivated data.selectedParent = some activated := by
  unfold isWindowBlockCrescendoActivated
  by_cases horigin : data.selectedParent = BlockHash.origin
  · exact ⟨true, if_pos horigin⟩
  · have hmem : data.selectedParent ∈ blocks := by
      rcases inv.genesis_or_colored hx hdata with rfl | ⟨ps, -, hvalid, hcol⟩
      · exact absurd rfl horigin
      · exact hcol.parent_mem hvalid
    obtain ⟨score, hscore⟩ := inv.daaScore _ hmem
    rw [if_neg horigin, hscore]
    exact ⟨_, rfl⟩

include inv in
/-- The filter of the iterator, over a descending sequence. -/
lemma sampleBlocks_spec (hrate : 0 < rate) (score threshold : ℕ) (l : List Hash) :
    ∀ index, (∀ x ∈ l, x ∈ blocks) →
      (l.Pairwise fun a b => w.ghostdagStore.key b < w.ghostdagStore.key a) →
      ∃ items, ∃ samples : List Hash, w.sampleBlocks rate score threshold index
          (l.map (sortable w.ghostdagStore)) = some items ∧
        SampledBlock.samples items = samples.map (sortable w.ghostdagStore) ∧
        samples.Sublist l ∧
        ∀ x, x ∈ samples ↔ x ∈ l ∧ threshold ≤ w.ghostdagStore.blueScore x ∧
          (∃ data, w.ghostdagStore.getData x = some data ∧ w.Activated data.selectedParent) ∧
          rate ∣ score + (index + daaCount w.ghostdagStore threshold l x) := by
  induction l with
  | nil =>
    intro index _ _
    refine ⟨[], [], rfl, rfl, List.Sublist.refl _, fun x => ⟨fun hx => ?_, fun hx => hx.1⟩⟩
    exact absurd hx not_mem_nil
  | cons a l ih =>
    intro index hmem hsorted
    obtain ⟨hbelow, hsorted⟩ := pairwise_cons.mp hsorted
    have hmemTail : ∀ x ∈ l, x ∈ blocks := fun x hx => hmem x (mem_cons_of_mem _ hx)
    obtain ⟨data, hdata⟩ := inv.getData_some (hmem a mem_cons_self)
    obtain ⟨activated, hactivated⟩ := activation_defined inv (hmem a mem_cons_self) hdata
    have hscore := GhostdagManager.blueScore_of_getData hdata
    rw [map_cons, sampleBlocks, show (sortable w.ghostdagStore a).hash = a from rfl, hdata]
    simp only [bind_eq_bind, bind_some, hactivated]
    by_cases hlow : data.blueScore < threshold
    · -- not a DAA block: it is not counted
      obtain ⟨items, samples, hitems, hsamples, hsub, hiff⟩ := ih index hmemTail hsorted
      rw [if_pos hlow, hitems]
      refine ⟨.nonDaa a :: items, samples, rfl, hsamples, hsub.cons a, fun x => ?_⟩
      rw [hiff x, daaCount_cons_of_low l x (hscore ▸ hlow), mem_cons]
      constructor
      · rintro ⟨hx, hrest⟩
        exact ⟨.inr hx, hrest⟩
      · rintro ⟨rfl | hx, hrest⟩
        · omega
        · exact ⟨hx, hrest⟩
    rw [if_neg hlow]
    have hthreshold : threshold ≤ w.ghostdagStore.blueScore a := by omega
    obtain ⟨items, samples, hitems, hsamples, hsub, hiff⟩ := ih (index + 1) hmemTail hsorted
    -- the index of the blocks below is counted on from the one of this block
    have htail : ∀ x ∈ l, index + 1 + daaCount w.ghostdagStore threshold l x =
        index + daaCount w.ghostdagStore threshold (a :: l) x := by
      intro x hx
      rw [daaCount_cons l hthreshold (hbelow x hx).le]
      omega
    have hhead : index + daaCount w.ghostdagStore threshold (a :: l) a = index + 1 := by
      rw [daaCount_cons l hthreshold (le_refl _), daaCount_of_lt hbelow]
    have hnotMem : a ∉ l := fun ha => lt_irrefl _ (hbelow a ha)
    cases activated with
    | false =>
      simp only [Bool.not_false, if_true, hitems]
      refine ⟨items, samples, rfl, hsamples, hsub.cons a, fun x => ?_⟩
      rw [hiff x, mem_cons]
      constructor
      · rintro ⟨hx, hscore, hactive, hdvd⟩
        exact ⟨.inr hx, hscore, hactive, htail x hx ▸ hdvd⟩
      · rintro ⟨rfl | hx, hscore, ⟨data', hdata', hactive⟩, hdvd⟩
        · obtain rfl := some.inj (hdata.symm.trans hdata')
          exact absurd (hactivated.symm.trans hactive) (by simp)
        · exact ⟨hx, hscore, ⟨data', hdata', hactive⟩, (htail x hx).symm ▸ hdvd⟩
    | true =>
      simp only [Bool.not_true, Bool.false_eq_true, if_false, hitems, bind_some,
        if_neg (Nat.pos_iff_ne_zero.mp hrate), Option.pure_def, ← Nat.dvd_iff_mod_eq_zero]
      by_cases hdvd : rate ∣ score + (index + 1)
      · rw [if_pos hdvd]
        refine ⟨.sampled (sortable w.ghostdagStore a) :: items, a :: samples, rfl, ?_,
          hsub.cons_cons a, fun x => ?_⟩
        · rw [map_cons, ← hsamples]
          rfl
        · rw [mem_cons, mem_cons, hiff x]
          constructor
          · rintro (rfl | ⟨hx, hscore, hactive, hdvd⟩)
            · exact ⟨.inl rfl, hthreshold, ⟨data, hdata, hactivated⟩, hhead.symm ▸ hdvd⟩
            · exact ⟨.inr hx, hscore, hactive, htail x hx ▸ hdvd⟩
          · rintro ⟨rfl | hx, hscore, hactive, hdvd⟩
            · exact .inl rfl
            · exact .inr ⟨hx, hscore, hactive, (htail x hx).symm ▸ hdvd⟩
      · rw [if_neg hdvd]
        refine ⟨items, samples, rfl, hsamples, hsub.cons a, fun x => ?_⟩
        rw [hiff x, mem_cons]
        constructor
        · rintro ⟨hx, hscore, hactive, hdvd⟩
          exact ⟨.inr hx, hscore, hactive, htail x hx ▸ hdvd⟩
        · rintro ⟨rfl | hx, hscore, hactive, hdvd'⟩
          · exact absurd (hhead ▸ hdvd') hdvd
          · exact ⟨hx, hscore, hactive, (htail x hx).symm ▸ hdvd'⟩

variable {parents : List Hash} {d : GhostdagData}
  (hvalid : w.ghostdagStore.ValidParents blocks parents)
  (hcol : w.ghostdagStore.Colored blocks parents d)

include inv hvalid hcol

lemma past_of_mem_mergeset (hx : x ∈ d.mergesetBlues ++ d.mergesetReds) :
    x ∈ blocks ∧ ∃ p ∈ parents, InPast w.ghostdagStore.Parent x p := by
  have hsp := hcol.parent_mem hvalid
  obtain ⟨hashes, -, -, hmerged, hmergeset⟩ := descendingMergeset_of_colored inv hvalid hcol
  rcases mem_cons.mp ((hmergeset x).mpr hx) with rfl | hx
  · exact ⟨hsp, _, hcol.selectedParent_mem, InPast.refl _⟩
  · obtain ⟨⟨p, hp, hpast⟩, hnot⟩ := (hmerged x).mp hx
    refine ⟨?_, p, hp, hpast⟩
    rcases inv.workDag.inPast_mem hpast (hvalid.mem_blocks p hp) with hmem | rfl
    · exact hmem
    · exact absurd (inv.workDag.origin_inPast hsp) hnot

/-- `sampled_mergeset_iterator` finds the samples of the mergeset, in descending order. -/
lemma sampledMergesetIterator_spec (hrate : 0 < rate) :
    ∃ items, ∃ samples : List Hash, w.sampledMergesetIterator rate d
        (w.ghostdagStore.blueWork d.selectedParent) = some items ∧
      SampledBlock.samples items = samples.map (sortable w.ghostdagStore) ∧
      (samples.Pairwise fun a b => w.ghostdagStore.key b < w.ghostdagStore.key a) ∧
      ∀ x, x ∈ samples ↔ w.IsSample rate d x := by
  have hsp := hcol.parent_mem hvalid
  obtain ⟨score, hscore⟩ := inv.daaScore _ hsp
  obtain ⟨hashes, hdescending, hsorted, -, hmergeset⟩ :=
    descendingMergeset_of_colored inv hvalid hcol
  have hmem : ∀ x ∈ d.selectedParent :: hashes, x ∈ blocks := fun x hx =>
    (past_of_mem_mergeset inv hvalid hcol ((hmergeset x).mp hx)).1
  obtain ⟨items, samples, hitems, hsamples, hsub, hiff⟩ := sampleBlocks_spec inv hrate score
    (w.lowestDaaBlueScore d) (d.selectedParent :: hashes) 0 hmem hsorted
  have hnodup : (d.selectedParent :: hashes).Nodup := by
    refine hsorted.imp fun hlt heq => ?_
    rw [heq] at hlt
    exact lt_irrefl _ hlt
  -- the position in the sequence is the number of DAA blocks that are not below
  have hindex : ∀ x, daaCount w.ghostdagStore (w.lowestDaaBlueScore d) (d.selectedParent :: hashes)
      x = w.daaIndex d x := by
    intro x
    unfold daaCount daaIndex daaBlocks
    rw [Finset.filter_filter, ← toFinset_card_of_nodup (hnodup.filter _)]
    congr 1
    ext y
    rw [List.mem_toFinset, mem_filter, Finset.mem_filter, List.mem_toFinset, hmergeset y,
      decide_eq_true_eq]
  refine ⟨items, samples, ?_, hsamples, hsorted.sublist hsub, fun x => ?_⟩
  · unfold sampledMergesetIterator
    rw [hscore, hdescending]
    exact hitems
  · rw [hiff x, hmergeset x, hindex x, Nat.zero_add]
    constructor
    · rintro ⟨hx, hthreshold, hactive, hdvd⟩
      exact ⟨Finset.mem_filter.mpr ⟨mem_toFinset.mpr hx, hthreshold⟩, hactive, score, hscore, hdvd⟩
    · rintro ⟨hx, hactive, score', hscore', hdvd⟩
      obtain rfl := some.inj (hscore.symm.trans hscore')
      obtain ⟨hx, hthreshold⟩ := Finset.mem_filter.mp hx
      exact ⟨mem_toFinset.mp hx, hthreshold, hactive, hdvd⟩

end samples

/-! ## The activated chain -/

/-- The data of the activated chain of a block with the data `d`: the block itself and the blocks
below it on its selected chain, down to the first one that is not activated. -/
inductive ActivatedChain (w : SampledWindowManager) (d : GhostdagData) : GhostdagData → Prop
  | self (hactive : w.Activated d.selectedParent) : ActivatedChain w d d
  | down {c c' : GhostdagData} (hchain : ActivatedChain w d c)
      (hne : c.selectedParent ≠ BlockHash.origin)
      (hdata : w.ghostdagStore.getData c.selectedParent = some c')
      (hactive : w.Activated c'.selectedParent) : ActivatedChain w d c'

/-- The activated samples over the mergesets of the activated chain. -/
noncomputable def activatedSamples (w : SampledWindowManager) (blocks : Finset Hash) (rate : ℕ)
    (d : GhostdagData) : Finset Hash :=
  blocks.filter fun x => ∃ c, w.ActivatedChain d c ∧ w.IsSample rate c x

/-- The samples that may belong to the window: genesis is left out, as its timestamp is fixed. -/
noncomputable def windowSamples (w : SampledWindowManager) (blocks : Finset Hash) (rate : ℕ)
    (d : GhostdagData) : Finset Hash :=
  (w.activatedSamples blocks rate d).erase w.ghostdagStore.genesisHash

section chain

variable {w : SampledWindowManager} {blocks : Finset Hash} {rate : ℕ} {d d' : GhostdagData}
variable {c : GhostdagData}

lemma ActivatedChain.activated (h : w.ActivatedChain d c) : w.Activated d.selectedParent := by
  induction h with
  | self hactive => exact hactive
  | down _ _ _ _ ih => exact ih

/-- The activated chain from the selected parent on. -/
lemma activatedChain_iff (hactive : w.Activated d.selectedParent)
    (hne : d.selectedParent ≠ BlockHash.origin)
    (hdata : w.ghostdagStore.getData d.selectedParent = some d') :
    w.ActivatedChain d c ↔ c = d ∨ w.ActivatedChain d' c := by
  constructor
  · intro h
    induction h with
    | self _ => exact .inl rfl
    | down _ hne hdown hactive ih =>
      rcases ih with rfl | ih
      · obtain rfl := some.inj (hdata.symm.trans hdown)
        exact .inr (.self hactive)
      · exact .inr (ih.down hne hdown hactive)
  · rintro (rfl | h)
    · exact .self hactive
    · induction h with
      | self hactive' => exact (ActivatedChain.self hactive).down hne hdata hactive'
      | down _ hne hdown hactive ih => exact ih.down hne hdown hactive

lemma windowSamples_of_not_activated (hactive : ¬w.Activated d.selectedParent) :
    w.windowSamples blocks rate d = ∅ := by
  refine Finset.eq_empty_of_forall_notMem fun x hx => ?_
  obtain ⟨-, c, hchain, -⟩ := Finset.mem_filter.mp (Finset.mem_of_mem_erase hx)
  exact hactive hchain.activated

/-- The samples of the mergeset, and those from the selected parent on. -/
lemma mem_activatedSamples {x : Hash} (hactive : w.Activated d.selectedParent)
    (hne : d.selectedParent ≠ BlockHash.origin)
    (hdata : w.ghostdagStore.getData d.selectedParent = some d') :
    x ∈ w.activatedSamples blocks rate d ↔
      x ∈ blocks ∧ w.IsSample rate d x ∨ x ∈ w.activatedSamples blocks rate d' := by
  unfold activatedSamples
  rw [Finset.mem_filter, Finset.mem_filter]
  constructor
  · rintro ⟨hx, c, hchain, hsample⟩
    rcases (activatedChain_iff hactive hne hdata).mp hchain with rfl | hchain
    · exact .inl ⟨hx, hsample⟩
    · exact .inr ⟨hx, c, hchain, hsample⟩
  · rintro (⟨hx, hsample⟩ | ⟨hx, c, hchain, hsample⟩)
    · exact ⟨hx, d, .self hactive, hsample⟩
    · exact ⟨hx, c, (activatedChain_iff hactive hne hdata).mpr (.inr hchain), hsample⟩

variable (inv : w.ghostdagStore.StoreInv blocks) {parents : List Hash}
  (hvalid : w.ghostdagStore.ValidParents blocks parents)
  (hcol : w.ghostdagStore.Colored blocks parents d)

include inv hvalid hcol

/-- The blocks of the activated chain below the block itself are stored, and in its past. -/
lemma ActivatedChain.stored (h : w.ActivatedChain d c) :
    c = d ∨ ∃ b ∈ blocks, w.ghostdagStore.getData b = some c ∧
      ∃ p ∈ parents, InPast w.ghostdagStore.Parent b p := by
  induction h with
  | self _ => exact .inl rfl
  | down _ hne hdata _ ih =>
    rcases ih with rfl | ⟨b, hb, hbdata, p, hp, hpast⟩
    · exact .inr ⟨_, hcol.parent_mem hvalid, hdata, _,
        hcol.selectedParent_mem, InPast.refl _⟩
    · rcases inv.genesis_or_colored hb hbdata with rfl | ⟨ps, hps, hbvalid, hbcol⟩
      · exact absurd rfl hne
      · have hparent : w.ghostdagStore.Parent _ b := ⟨ps, hps, hbcol.selectedParent_mem⟩
        exact .inr ⟨_, hbcol.parent_mem hbvalid, hdata, p, hp,
          (InPast.of_parent hparent).trans hpast⟩

lemma windowSamples_subset :
    w.windowSamples blocks rate d ⊆ windowCandidates w.ghostdagStore blocks parents := by
  refine Finset.erase_subset_erase _ fun x hx => ?_
  obtain ⟨hmem, c, hchain, hsample⟩ := Finset.mem_filter.mp hx
  refine Finset.mem_filter.mpr ⟨hmem, ?_⟩
  have hxc := mem_toFinset.mp (Finset.mem_filter.mp hsample.mem).1
  rcases hchain.stored inv hvalid hcol with rfl | ⟨b, hb, hbdata, p, hp, hpast⟩
  · exact (past_of_mem_mergeset inv hvalid hcol hxc).2
  · rcases inv.genesis_or_colored hb hbdata with rfl | ⟨ps, hps, hbvalid, hbcol⟩
    · -- genesis merges nothing
      exact absurd hxc not_mem_nil
    · obtain ⟨-, q, hq, hxq⟩ := past_of_mem_mergeset inv hbvalid hbcol hxc
      have hparent : w.ghostdagStore.Parent q b := ⟨ps, hps, hq⟩
      exact ⟨p, hp, hxq.trans ((InPast.of_parent hparent).trans hpast)⟩

lemma windowSamples_of_genesis (hsp : d.selectedParent = w.ghostdagStore.genesisHash) :
    w.windowSamples blocks rate d = ∅ := by
  rw [← Finset.subset_empty, ← windowCandidates_of_genesis inv hvalid hcol hsp]
  exact windowSamples_subset inv hvalid hcol

/-- The window samples are those of the mergeset and those from the selected parent on, and none is
among both. -/
lemma windowSamples_eq (hsp : d.selectedParent ≠ w.ghostdagStore.genesisHash)
    (hactive : w.Activated d.selectedParent)
    (hdata : w.ghostdagStore.getData d.selectedParent = some d') {samples : List Hash}
    (hsamples : ∀ x, x ∈ samples ↔ w.IsSample rate d x) :
    w.windowSamples blocks rate d = samples.toFinset ∪ w.windowSamples blocks rate d' ∧
      Disjoint samples.toFinset (w.windowSamples blocks rate d') := by
  have hspMem := hcol.parent_mem hvalid
  have horigin := inv.ne_origin hspMem
  obtain ⟨spParents, hspParents, hspValid, hspCol⟩ := inv.colored_of_getData hspMem hsp hdata
  obtain ⟨merged, hmerged, -⟩ := hcol.coloring
  obtain ⟨hashes, -, -, hmemIff, hmergeset⟩ := descendingMergeset_of_colored inv hvalid hcol
  have hmem : ∀ x ∈ samples, x = d.selectedParent ∨ x ∈ merged := by
    intro x hx
    have hx := mem_toFinset.mp (Finset.mem_filter.mp ((hsamples x).mp hx).mem).1
    rcases mem_cons.mp ((hmergeset x).mpr hx) with rfl | hx
    · exact .inl rfl
    · exact .inr ((hmerged.mem_iff x).mpr ((hmemIff x).mp hx))
  constructor
  · ext x
    unfold windowSamples
    rw [Finset.mem_union, Finset.mem_erase, Finset.mem_erase, List.mem_toFinset, hsamples x,
      mem_activatedSamples hactive horigin hdata]
    constructor
    · rintro ⟨hne, ⟨-, hsample⟩ | hrest⟩
      · exact .inl hsample
      · exact .inr ⟨hne, hrest⟩
    · rintro (hsample | ⟨hne, hrest⟩)
      · have hx := mem_toFinset.mp (Finset.mem_filter.mp hsample.mem).1
        refine ⟨fun hgenesis => ?_, .inl ⟨(past_of_mem_mergeset inv hvalid hcol hx).1, hsample⟩⟩
        -- genesis is in the past of the selected parent, so it is not merged
        rcases hmem x ((hsamples x).mpr hsample) with rfl | hmerge
        · exact hsp hgenesis
        · refine ((hmerged.mem_iff x).mp hmerge).2 ?_
          rw [hgenesis]
          exact inv.workDag.genesis_inPast hspMem
      · exact ⟨hne, .inr hrest⟩
  · obtain ⟨hspNew, hmergedNew⟩ := notMem_windowCandidates inv hvalid hcol hmerged hspParents
    refine Finset.disjoint_left.mpr fun x hx hrest => ?_
    have hrest := windowSamples_subset inv hspValid hspCol hrest
    rcases hmem x (mem_toFinset.mp hx) with rfl | hmerge
    · exact hspNew hrest
    · exact hmergedNew x hmerge hrest

end chain

end SampledWindowManager

end LapisMonetae.Window
