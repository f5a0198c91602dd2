import LapisMonetae.Ghostdag.ProtocolTheorems
import LapisMonetae.Ghostdag.Run

/-!
# The k-cluster property of a DAG

The invariant of the stores holds after every run: adding a block changes nothing in the past of
the others, and the data of the new block is right by `ghostdag_spec`.
-/

namespace LapisMonetae.Ghostdag
namespace GhostdagManager

open Dag Classical List Function Option InPast

variable {m m' : GhostdagManager} {blocks blocks' : Finset Hash} {header : Header}

/-! ## Stores that grow -/

/-- `m'` has the entries of `m` for the stored blocks. -/
structure Extends (m m' : GhostdagManager) (blocks : Finset Hash) : Prop where
  genesisHash : m'.genesisHash = m.genesisHash
  k : m'.k = m.k
  getData : ∀ b ∈ blocks, m'.getData b = m.getData b
  getParents : ∀ b, b ∈ blocks ∨ b = BlockHash.origin → m'.getParents b = m.getParents b
  getDaaScore : ∀ b ∈ blocks, m'.getDaaScore b = m.getDaaScore b
  blockWork : ∀ b ∈ blocks, m'.blockWork b = m.blockWork b

namespace Extends

section reads

variable (ext : m.Extends m' blocks)
variable {d : GhostdagData} {b x : Hash}

include ext

lemma blueWork (hb : b ∈ blocks) : m'.blueWork b = m.blueWork b := by
  unfold GhostdagManager.blueWork getBlueWork
  rw [ext.getData b hb]

lemma key (hb : b ∈ blocks) : m'.key b = m.key b := by
  unfold GhostdagManager.key
  rw [ext.blueWork hb]

lemma blueScore (hb : b ∈ blocks) : m'.blueScore b = m.blueScore b := by
  unfold GhostdagManager.blueScore
  rw [ext.getData b hb]

lemma work (hb : b ∈ blocks) : m'.work b = m.work b := by
  unfold GhostdagManager.work
  rw [ext.blockWork b hb]

lemma kOf (hb : b ∈ blocks) : m'.kOf b = m.kOf b := by
  unfold GhostdagManager.kOf
  rw [ext.k, ext.getDaaScore b hb]

lemma inPast_iff (dag : m.WorkDag blocks) {a : Hash} (hb : b ∈ blocks) :
    InPast m'.Parent a b ↔ InPast m.Parent a b := by
  refine (inPast_congr (s := fun b => b ∈ blocks ∨ b = BlockHash.origin) (fun p b hb => ?_)
    (fun p b _ hp => ?_) (.inl hb)).symm
  · unfold Parent
    rw [ext.getParents b hb]
  · rcases dag.parent_mem hp with ⟨-, -, h⟩ | ⟨-, h⟩
    · exact .inl h
    · exact .inr h

lemma orderedMergeset (dag : m.WorkDag blocks) {parents merged : List Hash} {sp : Hash}
    (hparents : ∀ p ∈ parents, p ∈ blocks) (hsp : sp ∈ blocks)
    (h : m.OrderedMergeset parents sp merged) : m'.OrderedMergeset parents sp merged := by
  refine ⟨fun x => ?_, h.sorted.imp_of_mem fun ha hb hlt => ?_⟩
  · rw [h.mem_iff x, ext.inPast_iff dag hsp]
    refine and_congr_left fun _ => exists_congr fun p => and_congr_right fun hp => ?_
    rw [ext.inPast_iff dag (hparents p hp)]
  · rw [ext.key (dag.mem_of_merged hparents hsp h ha), ext.key (dag.mem_of_merged hparents hsp h hb)]
    exact hlt

lemma validParents (dag : m.WorkDag blocks) (hsub : blocks ⊆ blocks') {parents : List Hash}
    (h : m.ValidParents blocks parents) : m'.ValidParents blocks' parents := by
  refine ⟨h.ne_nil, fun p hp => hsub (h.mem_blocks p hp), fun p q hp hq hpast => ?_⟩
  rw [ext.inPast_iff dag (h.mem_blocks q hq)] at hpast
  exact h.antichain p q hp hq hpast

variable (inv : m.StoreInv blocks)

include inv

lemma anticone_iff {a : Hash} (ha : a ∈ blocks) (hb : b ∈ blocks) :
    Anticone m'.Parent a b ↔ Anticone m.Parent a b := by
  unfold Anticone
  rw [ext.inPast_iff inv.workDag ha, ext.inPast_iff inv.workDag hb]

omit ext in
/-- Data whose selected parent is stored, or the data of genesis. -/
lemma selectedParent_of_getData (hb : b ∈ blocks) (hd : m.getData b = some d) :
    d.selectedParent ∈ blocks ∨ d.selectedParent = BlockHash.origin := by
  rcases inv.genesis_or_colored hb hd with rfl | ⟨ps, -, hvalid, hcol⟩
  · exact .inr rfl
  · exact .inl (hcol.parent_mem hvalid)

lemma blueOf_of_blueOf (h : m.BlueOf d x) :
    d.selectedParent ∈ blocks ∨ d.selectedParent = BlockHash.origin → m'.BlueOf d x := by
  induction h with
  | here h => exact fun _ => BlueOf.here h
  | there hsp hd _ ih =>
    intro hmem
    rcases hmem with hmem | hmem
    · refine BlueOf.there hsp (by rw [ext.getData _ hmem, hd]) ?_
      exact ih (selectedParent_of_getData inv hmem hd)
    · exact absurd hmem hsp

lemma blueOf_iff (hsp : d.selectedParent ∈ blocks) : m'.BlueOf d x ↔ m.BlueOf d x := by
  refine ⟨fun h => ?_, fun h => ext.blueOf_of_blueOf inv h (.inl hsp)⟩
  replace hsp : d.selectedParent ∈ blocks ∨ d.selectedParent = BlockHash.origin := .inl hsp
  induction h with
  | here h => exact BlueOf.here h
  | there hne hd _ ih =>
    rcases hsp with hsp | hsp
    · rw [ext.getData _ hsp] at hd
      exact BlueOf.there hne hd (ih (selectedParent_of_getData inv hsp hd))
    · exact absurd hsp hne

lemma blueAnticoneSizeLoop : ∀ fuel sizes {sp : Hash}, sp ∈ blocks ∨ sp = BlockHash.origin →
      m'.blueAnticoneSizeLoop x fuel sizes sp = m.blueAnticoneSizeLoop x fuel sizes sp := by
  intro fuel
  induction fuel with
  | zero => exact fun sizes sp _ => rfl
  | succ fuel ih =>
    intro sizes sp hsp
    rw [GhostdagManager.blueAnticoneSizeLoop, GhostdagManager.blueAnticoneSizeLoop, ext.genesisHash]
    cases sizes.lookup x with
    | some size => rfl
    | none =>
      by_cases hstop : sp = m.genesisHash ∨ sp = BlockHash.origin
      · simp only [if_pos hstop]
      · have hmem : sp ∈ blocks := hsp.resolve_right fun h => hstop (.inr h)
        obtain ⟨d, hd⟩ := inv.getData_some hmem
        simp only [if_neg hstop, ext.getData sp hmem, hd, some_bind_eq]
        exact ih _ (selectedParent_of_getData inv hmem hd)

end reads

section data

variable (ext : m.Extends m' blocks) (inv : m.StoreInv blocks) (hsub : blocks ⊆ blocks')
  {k : ℕ} {sp : Hash} {parents merged : List Hash} {d : GhostdagData}

include ext inv

include hsub

lemma trueAnticoneSize_eq (hsp : d.selectedParent ∈ blocks)
    (hblues : ∀ x, m.BlueOf d x → x ∈ blocks) {x : Hash} (hx : x ∈ blocks) :
    m'.trueAnticoneSize blocks' d x = m.trueAnticoneSize blocks d x := by
  have hset : m'.blueSet blocks' d = m.blueSet blocks d := by
    ext y
    rw [mem_blueSet, mem_blueSet, ext.blueOf_iff inv hsp]
    exact ⟨fun h => ⟨hblues y h.2, h.2⟩, fun h => ⟨hsub h.1, h.2⟩⟩
  unfold GhostdagManager.trueAnticoneSize
  rw [hset]
  refine congrArg Finset.card (Finset.filter_congr fun y hy => ?_)
  exact ext.anticone_iff inv hx (mem_blueSet.mp hy).1

lemma coloring (hsp : sp ∈ blocks) (hmerged : m.Mergeable blocks sp merged)
    (h : m.Coloring blocks k sp merged d) : m'.Coloring blocks' k sp merged d := by
  have hspd : d.selectedParent ∈ blocks := h.selectedParent_eq.symm ▸ hsp
  obtain ⟨parentData, link⟩ := h.chainLink inv hsp hmerged
  have hblues : ∀ x, m.BlueOf d x → x ∈ blocks := by
    intro x hx
    rcases (link.blueOf_iff inv x).mp hx with hx | hx
    · exact link.blues_mem x hx
    · exact (inv.past_of_blueOf hx link.mem_blocks link.getData).1
  refine ⟨h.selectedParent_eq, h.blues_eq, h.perm, h.blues_sublist, h.reds_sublist,
    fun x hx fuel hfuel => ?_, fun x hx => ?_⟩
  · rw [ext.blueOf_iff inv hspd] at hx
    rw [ext.blueScore hsp] at hfuel
    rw [ext.trueAnticoneSize_eq inv hsub hspd hblues (hblues x hx), ← h.anticoneSize x hx fuel hfuel]
    exact ext.blueAnticoneSizeLoop inv fuel _ (.inl hspd)
  · rw [ext.blueOf_iff inv hspd] at hx
    rw [ext.trueAnticoneSize_eq inv hsub hspd hblues (hblues x hx)]
    exact h.le_k x hx

omit hsub in
lemma map_work (hvalid : m.ValidParents blocks parents) (h : m.Colored blocks parents d) :
    d.mergesetBlues.map m'.work = d.mergesetBlues.map m.work := by
  have hsp := h.parent_mem hvalid
  obtain ⟨merged, hmerged, hcoloring⟩ := h.coloring
  refine map_congr_left fun x hx => ext.work ?_
  rcases hcoloring.mem_mergesetBlues hx with rfl | hx
  · exact hsp
  · exact inv.workDag.mem_of_merged hvalid.mem_blocks hsp hmerged hx

lemma colored (hvalid : m.ValidParents blocks parents) (h : m.Colored blocks parents d) :
    m'.Colored blocks' parents d := by
  have hsp := h.parent_mem hvalid
  obtain ⟨merged, hmerged, hcoloring⟩ := h.coloring
  have hmergeable := hmerged.mergeable inv hvalid.mem_blocks hsp
  refine ⟨h.selectedParent_mem, fun p hp => ?_, ⟨merged, ?_, ?_⟩, ?_, ?_⟩
  · rw [ext.key (hvalid.mem_blocks p hp), ext.key hsp]
    exact h.key_le p hp
  · exact ext.orderedMergeset inv.workDag hvalid.mem_blocks hsp hmerged
  · rw [ext.kOf hsp]
    exact ext.coloring inv hsub hsp hmergeable hcoloring
  · rw [ext.blueScore hsp]
    exact h.blueScore_eq
  · rw [ext.blueWork hsp, ext.map_work inv hvalid h]
    exact h.blueWork_eq

end data

end Extends

/-! ## Runs -/

lemma blockWork_eq_headerWork {b : Hash} (h : m.getBits b = some header.bits) :
    m.blockWork b = header.work m.levelWork := by
  unfold blockWork Header.work
  rw [h]
  simp only [some_bind_eq, Option.pure_def]
  cases calcWork header.bits with
  | none => rfl
  | some w => rfl

/-- The stores with genesis only satisfy the invariant. -/
lemma storeInv_fromGenesis (header : Header) (k : ForkedParam ℕ) (levelWork : ℕ)
    (hne : header.hash ≠ BlockHash.origin) (hwork : ∃ w, 0 < w ∧ header.work levelWork = some w) :
    (fromGenesis header k levelWork).StoreInv {header.hash} := by
  set m := fromGenesis header k levelWork with hm
  have hgenesis : m.getParents header.hash = some [BlockHash.origin] :=
    update_self _ _ _
  have horigin : m.getParents BlockHash.origin = some [] :=
    (update_of_ne (Ne.symm hne) _ _).trans (update_self _ _ _)
  have hparent : m.Parent BlockHash.origin header.hash :=
    ⟨_, hgenesis, mem_singleton.mpr rfl⟩
  have hpast : ∀ a, InPast m.Parent a header.hash ↔ a = header.hash ∨ a = BlockHash.origin := by
    intro a
    constructor
    · intro h
      rcases h.eq_or_past with h | h
      · exact .inl h
      · obtain ⟨p, ⟨ps, hps, hp⟩, hap⟩ := h.cases_parent
        rw [hgenesis] at hps
        obtain rfl := some.inj hps
        obtain rfl := mem_singleton.mp hp
        rcases hap.eq_or_past with h | h
        · exact .inr h
        · obtain ⟨q, ⟨qs, hqs, hq⟩, -⟩ := h.cases_parent
          rw [horigin] at hqs
          obtain rfl := some.inj hqs
          exact absurd hq not_mem_nil
    · rintro (rfl | rfl)
      · exact refl _
      · exact of_parent hparent
  refine ⟨⟨Finset.mem_singleton_self _, ?_, hgenesis, horigin, ?_, ?_⟩, ?_, ?_, ?_, ?_⟩
  · rw [Finset.mem_singleton]
    exact Ne.symm hne
  · intro b ps hps
    by_cases hb : b = header.hash
    · exact .inl (Finset.mem_singleton.mpr hb)
    · by_cases ho : b = BlockHash.origin
      · exact .inr ho
      · have hnone : m.getParents b = none :=
          (update_of_ne hb _ _).trans (update_of_ne ho _ _)
        rw [hnone] at hps
        exact absurd hps (by simp)
  · intro a ha b hb
    obtain rfl := Finset.mem_singleton.mp hb
    rw [Finset.mem_singleton] at ha
    have hcond : (a = header.hash ∨ a = BlockHash.origin) ∧
        (header.hash = header.hash ∨ header.hash = BlockHash.origin) := ⟨ha, .inl rfl⟩
    simp only [hpast]
    rw [hm, fromGenesis]
    exact if_pos hcond
  · exact update_self _ _ _
  · intro b hb
    obtain rfl := Finset.mem_singleton.mp hb
    exact ⟨header.daaScore, update_self header.hash _ (fun _ => none)⟩
  · intro b hb
    obtain rfl := Finset.mem_singleton.mp hb
    obtain ⟨w, hpos, hw⟩ := hwork
    refine ⟨w, hpos, ?_⟩
    exact (blockWork_eq_headerWork (update_self header.hash _ fun _ => none)).trans hw
  · intro b hb hbne
    exact absurd (Finset.mem_singleton.mp hb) hbne

section insert

variable {header : Header} {data : GhostdagData}

lemma Admissible.extends (hadm : m.Admissible blocks header) (data : GhostdagData) :
    m.Extends (m.insertBlock header data) blocks := by
  have hne : ∀ b ∈ blocks, b ≠ header.hash := fun b hb h => hadm.hash_notMem (h ▸ hb)
  refine ⟨rfl, rfl, fun b hb => update_of_ne (hne b hb) _ _, fun b hb => ?_,
    fun b hb => update_of_ne (hne b hb) _ _, fun b hb => ?_⟩
  · rcases hb with hb | rfl
    · exact update_of_ne (hne b hb) _ _
    · exact update_of_ne (Ne.symm hadm.hash_ne_origin) _ _
  · have hbits : (m.insertBlock header data).getBits b = m.getBits b :=
      update_of_ne (hne b hb) _ _
    unfold blockWork
    rw [hbits]
    rfl

variable (dag : m.WorkDag blocks) (hadm : m.Admissible blocks header)

include dag hadm

lemma inPast_new_iff (a : Hash) : InPast (m.insertBlock header data).Parent a header.hash ↔
    a = header.hash ∨ ∃ p ∈ header.parents, InPast m.Parent a p := by
  have ext := hadm.extends data
  have hparents : (m.insertBlock header data).getParents header.hash = some header.parents :=
    update_self _ _ _
  constructor
  · intro h
    rcases h.eq_or_past with h | h
    · exact .inl h
    · obtain ⟨p, ⟨ps, hps, hp⟩, hap⟩ := h.cases_parent
      obtain rfl := some.inj (hparents.symm.trans hps)
      rw [ext.inPast_iff dag (hadm.parents.mem_blocks p hp)] at hap
      exact .inr ⟨p, hp, hap⟩
  · rintro (rfl | ⟨p, hp, hap⟩)
    · exact refl _
    · rw [← ext.inPast_iff dag (hadm.parents.mem_blocks p hp)] at hap
      exact hap.trans (of_parent ⟨_, hparents, hp⟩)

/-- Reachability answers rightly once the block is added. -/
lemma reachability_insertBlock {a b : Hash}
    (ha : a ∈ insert header.hash blocks ∨ a = BlockHash.origin)
    (hb : b ∈ insert header.hash blocks) : (m.insertBlock header data).isDagAncestorOf a b =
      some (decide (InPast (m.insertBlock header data).Parent a b)) := by
  have ext := hadm.extends data
  have hold : a ≠ header.hash → a ∈ blocks ∨ a = BlockHash.origin := fun hne =>
    ha.imp_left (Finset.mem_of_mem_insert_of_ne · hne)
  show m.isDagAncestorOfWith header a b = _
  unfold isDagAncestorOfWith
  by_cases hbnew : b = header.hash
  · subst hbnew
    simp only [if_true, inPast_new_iff dag hadm]
    by_cases hanew : a = header.hash
    · simp only [hanew, if_true, true_or, decide_true]
    · have hmap := mapM_eq_some header.parents fun p hp =>
        dag.reachability a (hold hanew) p (hadm.parents.mem_blocks p hp)
      simp only [hanew, if_false, hmap, some_bind_eq, Option.pure_def, false_or, some.injEq]
      rw [Bool.eq_iff_iff, List.any_eq_true, decide_eq_true_eq]
      constructor
      · rintro ⟨v, hv, htrue⟩
        obtain ⟨p, hp, rfl⟩ := mem_map.mp hv
        exact ⟨p, hp, of_decide_eq_true htrue⟩
      · rintro ⟨p, hp, hap⟩
        exact ⟨true, mem_map.mpr ⟨p, hp, decide_eq_true hap⟩, rfl⟩
  · have hb : b ∈ blocks := (Finset.mem_insert.mp hb).resolve_left hbnew
    rw [if_neg hbnew]
    simp only [ext.inPast_iff dag hb]
    by_cases hanew : a = header.hash
    · obtain ⟨d, hd⟩ := dag.getData_some b hb
      have hnot : ¬InPast m.Parent a b := by
        intro h
        rcases dag.inPast_mem h hb with h | h
        · exact hadm.hash_notMem (hanew ▸ h)
        · exact hadm.hash_ne_origin (hanew ▸ h)
      rw [if_pos hanew, hd, decide_eq_false hnot]
      rfl
    · rw [if_neg hanew]
      exact dag.reachability a (hold hanew) b hb

omit dag in
lemma blockWork_insertBlock (h : ∀ b ∈ blocks, ∃ w, 0 < w ∧ m.blockWork b = some w) (b : Hash)
    (hb : b ∈ insert header.hash blocks) :
    ∃ w, 0 < w ∧ (m.insertBlock header data).blockWork b = some w := by
  by_cases hne : b = header.hash
  · have hbits : (m.insertBlock header data).getBits header.hash = some header.bits :=
      update_self _ _ _
    obtain ⟨w, hpos, hw⟩ := hadm.work
    exact ⟨w, hpos, hne ▸ (blockWork_eq_headerWork hbits).trans hw⟩
  · have hb := Finset.mem_of_mem_insert_of_ne hb hne
    rw [(hadm.extends data).blockWork b hb]
    exact h b hb

/-- Adding a block with more blue work than its parents keeps the DAG. -/
lemma workDag_insertBlock (hwork : ∀ p ∈ header.parents, m.blueWork p < data.blueWork) :
    (m.insertBlock header data).WorkDag (insert header.hash blocks) := by
  set m' := m.insertBlock header data with hm'
  have ext : m.Extends m' blocks := hadm.extends data
  have hsub : blocks ⊆ insert header.hash blocks := Finset.subset_insert _ _
  have hparents : m'.getParents header.hash = some header.parents := update_self _ _ _
  have hdata : m'.getData header.hash = some data := update_self _ _ _
  refine ⟨⟨hsub dag.genesis_mem, ?_, ?_, ?_, fun b ps hps => ?_, fun a ha b hb => ?_⟩,
    fun b hb => ?_, fun b hb hbne => ?_⟩
  · rw [Finset.mem_insert, not_or]
    exact ⟨Ne.symm hadm.hash_ne_origin, dag.origin_notMem⟩
  · exact (ext.getParents _ (.inl dag.genesis_mem)).trans dag.genesis_parents
  · exact (ext.getParents _ (.inr rfl)).trans dag.origin_parents
  · by_cases hne : b = header.hash
    · exact .inl (Finset.mem_insert.mpr (.inl hne))
    · have hsame : m'.getParents b = m.getParents b := update_of_ne hne _ _
      rw [hsame] at hps
      exact (dag.getParents_mem b ps hps).imp (fun h => hsub h) id
  · exact reachability_insertBlock dag hadm ha hb
  · by_cases hne : b = header.hash
    · exact ⟨data, hne ▸ hdata⟩
    · have hb := Finset.mem_of_mem_insert_of_ne hb hne
      rw [ext.getData b hb]
      exact dag.getData_some b hb
  · by_cases hne : b = header.hash
    · subst hne
      refine ⟨header.parents, hparents, ext.validParents dag hsub hadm.parents, fun p hp => ?_⟩
      rw [blueWork_of_getData hdata, ext.blueWork (hadm.parents.mem_blocks p hp)]
      exact hwork p hp
    · have hb := Finset.mem_of_mem_insert_of_ne hb hne
      obtain ⟨ps, hps, hvalid, hlt⟩ := dag.parents b hb hbne
      refine ⟨ps, (ext.getParents b (.inl hb)).trans hps, ext.validParents dag hsub hvalid,
        fun p hp => ?_⟩
      rw [ext.blueWork hb, ext.blueWork (hvalid.mem_blocks p hp)]
      exact hlt p hp

omit dag hadm in
lemma storeInv_insertBlock (inv : m.StoreInv blocks) (hadm : m.Admissible blocks header)
    (hcol : m.Colored blocks header.parents data) (hrange : m.InRange header data) :
    (m.insertBlock header data).StoreInv (insert header.hash blocks) := by
  set m' := m.insertBlock header data with hm'
  have ext : m.Extends m' blocks := hadm.extends data
  have hsub : blocks ⊆ insert header.hash blocks := Finset.subset_insert _ _
  -- the entries of the new block
  have hparents : m'.getParents header.hash = some header.parents := update_self _ _ _
  have hdata : m'.getData header.hash = some data := update_self _ _ _
  have hdaa : m'.getDaaScore header.hash = some header.daaScore := update_self _ _ _
  have hsp := hcol.parent_mem hadm.parents
  have hfits : ∀ {ps d}, m.ValidParents blocks ps → m.Colored blocks ps d →
      m.blueWork d.selectedParent + (d.mergesetBlues.map m.work).sum < 2 ^ 192 →
      m'.blueWork d.selectedParent + (d.mergesetBlues.map m'.work).sum < 2 ^ 192 := by
    intro ps d hvalid hcol hlt
    rwa [ext.blueWork (hcol.parent_mem hvalid), ext.map_work inv hvalid hcol]
  obtain ⟨merged, -, hcoloring⟩ := hcol.coloring
  have hgrows := blueWork_selectedParent_lt (inv.work_pos hsp) hcoloring.blues_eq hcol.blueWork_eq
    hrange.blueWork_fits
  have dag' := workDag_insertBlock inv.workDag hadm fun p hp =>
    (blueWork_le_of_key_le (hcol.key_le p hp)).trans_lt hgrows
  refine ⟨dag'.toRelated, (ext.getData _ inv.genesis_mem).trans inv.genesis_data, ?_, ?_, ?_⟩
  · intro b hb
    by_cases hne : b = header.hash
    · exact ⟨_, hne ▸ hdaa⟩
    · have hb := Finset.mem_of_mem_insert_of_ne hb hne
      rw [ext.getDaaScore b hb]
      exact inv.daaScore b hb
  · exact blockWork_insertBlock hadm inv.blockWork
  · intro b hb hbne
    by_cases hne : b = header.hash
    · subst hne
      refine ⟨header.parents, data, hparents, hdata, ext.validParents inv.workDag hsub hadm.parents,
        ext.colored inv hsub hadm.parents hcol, ?_, hfits hadm.parents hcol hrange.blueWork_fits⟩
      have hkNew : m'.kOf header.hash = m.k.get header.daaScore := by
        rw [kOf, hdaa]
        rfl
      rw [ext.kOf hsp, hkNew]
      exact hrange.k_mono
    · have hb := Finset.mem_of_mem_insert_of_ne hb hne
      obtain ⟨ps, d, hps, hd, hvalid, hcol', hk, hlt⟩ := inv.colored b hb hbne
      refine ⟨ps, d, (ext.getParents b (.inl hb)).trans hps, (ext.getData b hb).trans hd,
        ext.validParents inv.workDag hsub hvalid, ext.colored inv hsub hvalid hcol', ?_,
        hfits hvalid hcol' hlt⟩
      rw [ext.kOf (hcol'.parent_mem hvalid), ext.kOf hb]
      exact hk

end insert

/-! ## The check of the parents -/

/-- The loop passes when no pair of different parents is related. -/
lemma checkPairs_ok_iff (inv : m.StoreInv blocks) (pairs : List (Hash × Hash))
    (hmem : ∀ pair ∈ pairs, pair.1 ∈ blocks ∧ pair.2 ∈ blocks) :
    m.checkPairs pairs = some (.ok ()) ↔
      ∀ pair ∈ pairs, InPast m.Parent pair.1 pair.2 → pair.1 = pair.2 := by
  induction pairs with
  | nil => simp [checkPairs]
  | cons pair rest ih =>
    obtain ⟨a, b⟩ := pair
    obtain ⟨⟨ha, hb⟩, hmem⟩ := forall_mem_cons.mp hmem
    have hrest := ih hmem
    rw [forall_mem_cons, checkPairs]
    by_cases heq : a = b
    · rw [if_pos heq, hrest]
      exact ⟨fun h => ⟨fun _ => heq, h⟩, fun h => h.2⟩
    · rw [if_neg heq, inv.reachability a (.inl ha) b hb]
      simp only [some_bind_eq, decide_eq_true_eq]
      by_cases hpast : InPast m.Parent a b
      · rw [if_pos hpast]
        exact ⟨fun h => absurd h (by simp), fun h => absurd (h.1 hpast) heq⟩
      · rw [if_neg hpast, hrest]
        exact ⟨fun h => ⟨fun hp => absurd hp hpast, h⟩, fun h => h.2⟩

/-- `check_parents_incest` lets exactly the antichains through. -/
lemma checkParentsIncest_ok_iff (inv : m.StoreInv blocks) {parents : List Hash}
    (hparents : ∀ p ∈ parents, p ∈ blocks) :
    m.checkParentsIncest parents = some (.ok ()) ↔ Antichain m.Parent (· ∈ parents) := by
  rw [checkParentsIncest, checkPairs_ok_iff inv]
  · unfold Antichain
    rw [Prod.forall]
    refine forall_congr' fun a => forall_congr' fun b => ?_
    rw [pair_mem_product, and_imp]
  · rintro ⟨a, b⟩ hab
    obtain ⟨ha, hb⟩ := pair_mem_product.mp hab
    exact ⟨hparents a ha, hparents b hb⟩

lemma Built.storeInv (h : Built m blocks) : m.StoreInv blocks := by
  induction h with
  | genesis header k levelWork hne hwork =>
    exact storeInv_fromGenesis header k levelWork hne hwork
  | add hm header hadm hdata hrange inv =>
    exact storeInv_insertBlock inv hadm (colored_of_ghostdag inv hadm.parents hdata) hrange

/-- A header that passes the checks extends the DAG. -/
lemma Built.next (h : Built m blocks) {fuel : ℕ} (hpass : m.PassesChecks fuel blocks header) :
    Built ((addBlock fuel m header).getD m) (insert header.hash blocks) := by
  obtain ⟨hnew, horigin, hne, hparents, hincest, hwork, hghostdag⟩ := hpass
  have hok : m.checkParentsIncest header.parents = some (.ok ()) := by
    obtain ⟨res, hres, hisOk⟩ := map_eq_some_iff.mp hincest
    cases res with
    | error e => exact absurd hisOk (by simp [Except.isOk, Except.toBool])
    | ok u => exact hres
  have hpos : ∃ w, 0 < w ∧ header.work m.levelWork = some w := by
    cases hw : header.work m.levelWork with
    | none => simp [hw] at hwork
    | some w => exact ⟨w, by simpa [hw] using hwork, rfl⟩
  have hvalid : m.ValidParents blocks header.parents :=
    ⟨hne, hparents, (checkParentsIncest_ok_iff h.storeInv hparents).mp hok⟩
  cases hdata : m.ghostdag fuel header.parents with
  | none => simp [hdata] at hghostdag
  | some data =>
    rw [hdata, any_some, decide_eq_true_eq] at hghostdag
    have hadd : addBlock fuel m header = some (m.insertBlock header data) := by
      rw [addBlock, hdata]
      rfl
    rw [hadd]
    exact h.add header ⟨hnew, horigin, hvalid, hpos⟩ hdata ⟨hghostdag.1, hghostdag.2⟩

/-- From the view of every block of a DAG that was built by running `ghostdag` on its blocks, each
blue block has at most `k` blues in its anticone, and `blue_anticone_size` returns their number.
Running `ghostdag` on any further valid parents returns: it reaches none of its panics. -/
theorem Built.blues_kCluster (h : Built m blocks) :
    (∀ b ∈ blocks, ∀ d, m.getData b = some d → ∀ x, m.BlueOf d x →
      m.trueAnticoneSize blocks d x ≤ m.kOf d.selectedParent ∧
      Fuel.Returns (fun fuel => m.blueAnticoneSize fuel x d) (m.trueAnticoneSize blocks d x)) ∧
    ∀ parents, m.ValidParents blocks parents →
      (∀ sp, m.findSelectedParent parents = some sp → m.kOf sp + 1 < 2 ^ 16) →
      ∃ d, Fuel.Returns (fun fuel => m.ghostdag fuel parents) d := by
  have inv := h.storeInv
  refine ⟨fun b hb d hd x hx => ?_, fun parents hvalid hk => ?_⟩
  · rcases inv.genesis_or_colored hb hd with rfl | ⟨ps, -, -, hcol⟩
    · exact absurd hx (not_blueOf_genesis x)
    · obtain ⟨merged, -, hcoloring⟩ := hcol.coloring
      refine ⟨hcoloring.le_k x hx, m.blueScore d.selectedParent + 1, fun fuel hfuel => ?_⟩
      exact hcoloring.anticoneSize x hx fuel (by omega)
  · obtain ⟨d, hreturns, -⟩ := ghostdag_spec inv hvalid hk
    exact ⟨d, hreturns⟩

/-- A DAG with two blocks over genesis and a block that merges them. -/
def diamondGenesis : GhostdagManager :=
  fromGenesis ⟨1, [], 0, 0x207fffff⟩ (ForkedParam.newConst 1) 0

/-- The first side of the diamond. -/
def diamondLeft : GhostdagManager :=
  (addBlock 20 diamondGenesis ⟨2, [1], 1, 0x207fffff⟩).getD diamondGenesis

/-- Both sides of the diamond. -/
def diamondSides : GhostdagManager :=
  (addBlock 20 diamondLeft ⟨3, [1], 1, 0x207fffff⟩).getD diamondLeft

/-- The whole diamond. -/
def diamond : GhostdagManager :=
  (addBlock 20 diamondSides ⟨4, [2, 3], 2, 0x207fffff⟩).getD diamondSides

lemma built_diamondSides : Built diamondSides {3, 2, 1} := by
  have hgenesis : Built diamondGenesis {1} :=
    Built.genesis _ _ _ (by decide) ⟨2, by decide, by decide +kernel⟩
  have hleft : Built diamondLeft {2, 1} := hgenesis.next (by decide +kernel)
  exact hleft.next (by decide +kernel)

lemma validParents_diamondSides : diamondSides.ValidParents {3, 2, 1} [2, 3] := by
  have hincest : diamondSides.checkParentsIncest [2, 3] = some (.ok ()) := by
    decide +kernel
  exact ⟨by decide, by decide,
    (checkParentsIncest_ok_iff built_diamondSides.storeInv (by decide)).mp hincest⟩

lemma built_diamond : Built diamond {4, 3, 2, 1} := built_diamondSides.next (by decide +kernel)

lemma anticone_diamond : Anticone diamond.Parent 3 2 :=
  ⟨mt (built_diamond.storeInv.inPast_iff (by decide) (by decide)).mp (by decide +kernel),
    mt (built_diamond.storeInv.inPast_iff (by decide) (by decide)).mp (by decide +kernel)⟩

/-- In the diamond, the merged side is blue with one blue in its anticone, and `ghostdag` returns
on top of the diamond. -/
theorem diamond_kCluster : (∃ d, diamond.getData 4 = some d ∧ diamond.BlueOf d 2 ∧
      diamond.trueAnticoneSize {4, 3, 2, 1} d 2 ≤ diamond.kOf d.selectedParent ∧
      Fuel.Returns (fun fuel => diamond.blueAnticoneSize fuel 2 d)
        (diamond.trueAnticoneSize {4, 3, 2, 1} d 2)) ∧
    ∃ d, Fuel.Returns (fun fuel => diamond.ghostdag fuel [4]) d := by
  obtain ⟨hblues, hghostdag⟩ := built_diamond.blues_kCluster
  constructor
  · cases hd : diamond.getData 4 with
    | none => exact absurd hd (by decide +kernel)
    | some d =>
      have hblue : diamond.BlueOf d 2 := by
        refine BlueOf.here ?_
        have hmem : (diamond.getData 4).map (fun d => decide (2 ∈ d.mergesetBlues)) = some true := by
          decide +kernel
        rw [hd] at hmem
        exact of_decide_eq_true (some.inj hmem)
      obtain ⟨hle, hreturns⟩ := hblues 4 (by decide) d hd 2 hblue
      exact ⟨d, rfl, hblue, hle, hreturns⟩
  · refine hghostdag [4] ⟨by decide, by decide, ?_⟩ fun sp hsp => ?_
    · intro p q hp hq _
      rw [mem_singleton.mp hp, mem_singleton.mp hq]
    · have hfind : diamond.findSelectedParent [4] = some 4 := by
        decide +kernel
      obtain rfl := some.inj (hfind.symm.trans hsp)
      decide +kernel

/-! ## DAGs outside of the conditions -/

/-- A bound for the true size: every blue outside of `s` is related to `x`. -/
lemma trueAnticoneSize_le {d : GhostdagData} {x : Hash} (s : Finset Hash)
    (hs : ∀ y, m.BlueOf d y → y ∉ s → InPast m.Parent x y ∨ InPast m.Parent y x) :
    m.trueAnticoneSize blocks d x ≤ s.card := by
  refine Finset.card_le_card fun y hy => ?_
  obtain ⟨hblue, hanti⟩ := Finset.mem_filter.mp hy
  by_contra hnot
  rcases hs y (mem_blueSet.mp hblue).2 hnot with h | h
  · exact hanti.1 h
  · exact hanti.2 h

/-- The blue set as a list. -/
def chainBlues (m : GhostdagManager) : ℕ → GhostdagData → Option (List Hash)
  | 0, _ => none
  | fuel + 1, d =>
    if d.selectedParent = BlockHash.origin then some d.mergesetBlues
    else do
      let parentData ← m.getData d.selectedParent
      let rest ← chainBlues m fuel parentData
      return d.mergesetBlues ++ rest

lemma blueOf_iff_mem_chainBlues {x : Hash} : ∀ fuel {d : GhostdagData} {blues : List Hash},
    m.chainBlues fuel d = some blues → (m.BlueOf d x ↔ x ∈ blues) := by
  intro fuel
  induction fuel with
  | zero =>
    intro d blues h
    exact absurd h (by simp [chainBlues])
  | succ fuel ih =>
    intro d blues h
    rw [blueOf_iff]
    rw [chainBlues] at h
    by_cases hsp : d.selectedParent = BlockHash.origin
    · rw [if_pos hsp] at h
      obtain rfl := some.inj h
      simp only [hsp, ne_eq, not_true_eq_false, false_and, or_false]
    · rw [if_neg hsp] at h
      obtain ⟨parentData, hdata, h⟩ := bind_eq_some_iff.mp h
      obtain ⟨rest, hrest, h⟩ := bind_eq_some_iff.mp h
      obtain rfl := some.inj h
      simp only [hsp, ne_eq, not_false_eq_true, true_and, hdata, some.injEq,
        exists_eq_left', ih hrest, mem_append]

/-- What a run shows about the block `block` from the view of the block `context`: the blue set
and the size that `blue_anticone_size` returns. -/
def observe (run : Option GhostdagManager) (context block : Hash) :
    Option (List Hash × ℕ) := do
  let m ← run
  let d ← m.getData context
  let blues ← m.chainBlues 20 d
  let size ← m.blueAnticoneSize 20 block d
  return (blues, size)

lemma observe_spec {run : Option GhostdagManager} {context block : Hash} {blues : List Hash}
    {size : ℕ} (h : observe run context block = some (blues, size)) :
    ∃ m d, run = some m ∧ m.getData context = some d ∧ (∀ x, m.BlueOf d x ↔ x ∈ blues) ∧
      m.blueAnticoneSize 20 block d = some size := by
  obtain ⟨m, hm, h⟩ := bind_eq_some_iff.mp h
  obtain ⟨d, hd, h⟩ := bind_eq_some_iff.mp h
  obtain ⟨blues', hblues, h⟩ := bind_eq_some_iff.mp h
  obtain ⟨size', hsize, h⟩ := bind_eq_some_iff.mp h
  obtain ⟨rfl, rfl⟩ := Prod.mk.inj (some.inj h)
  exact ⟨m, d, hm, hd, fun x => blueOf_iff_mem_chainBlues 20 hblues, hsize⟩

/-- A block whose parents are a block and the parent of that block. -/
def relatedParents : Option GhostdagManager :=
  [⟨2, [1], 1, 0x207fffff⟩, ⟨3, [2, 1], 1, 0x207fffff⟩].foldlM (addBlock 20)
    (fromGenesis ⟨1, [], 0, 0x207fffff⟩ (ForkedParam.newConst 1) 0)

/-- The block `7` merges the chain `9`, `5` and the block `20`. -/
def mergedChain (bits : ℕ) : Option GhostdagManager :=
  [⟨9, [1], 1, bits⟩, ⟨5, [9], 1, bits⟩, ⟨20, [1], 1, bits⟩, ⟨7, [5, 20], 1, bits⟩].foldlM
    (addBlock 20) (fromGenesis ⟨1, [], 0, bits⟩ (ForkedParam.newConst 2) 0)

/-- Where the parents of a block are related, where headers have no work (bits `0`), or where blue
work wraps (the work for the bits `0x09010000` is almost `2^192`), `blue_anticone_size` returns
more than the true size. -/
theorem anticoneSize_wrong : (∃ m d, relatedParents = some m ∧ m.getData 3 = some d ∧ m.BlueOf d 2 ∧
      m.blueAnticoneSize 20 2 d = some 1 ∧ m.trueAnticoneSize {3, 2, 1} d 2 = 0) ∧
    ∀ bits ∈ [0, 0x09010000], ∃ m d, mergedChain bits = some m ∧ m.getData 7 = some d ∧
      m.BlueOf d 9 ∧ m.blueAnticoneSize 20 9 d = some 2 ∧
      m.trueAnticoneSize {7, 20, 5, 9, 1} d 9 ≤ 1 := by
  constructor
  · obtain ⟨m, d, hm, hd, hblues, hsize⟩ := observe_spec
      (show observe relatedParents 3 2 = some ([2, 1, 1], 1) by decide +kernel)
    have hparents : m.getParents 2 = some [1] := by
      have h : relatedParents.map (fun m => m.getParents 2) = some (some [1]) := by
        decide +kernel
      rw [hm] at h
      exact some.inj h
    refine ⟨m, d, hm, hd, (hblues 2).mpr (by simp), hsize, Nat.le_zero.mp ?_⟩
    refine trueAnticoneSize_le ∅ fun y hy _ => ?_
    have hy := (hblues y).mp hy
    simp only [mem_cons, not_mem_nil, or_false, or_self_iff] at hy
    rcases hy with rfl | rfl
    · exact .inl (refl _)
    · exact .inr (of_parent ⟨[1], hparents, by simp⟩)
  · intro bits hbits
    have hobserve : observe (mergedChain bits) 7 9 = some ([20, 5, 9, 1], 2) ∧
        (mergedChain bits).map (fun m => (m.getParents 9, m.getParents 5)) =
          some (some [1], some [9]) := by
      simp only [mem_cons, not_mem_nil, or_false] at hbits
      rcases hbits with rfl | rfl
      · decide +kernel
      · decide +kernel
    obtain ⟨m, d, hm, hd, hblues, hsize⟩ := observe_spec hobserve.1
    have hparents := hobserve.2
    rw [hm] at hparents
    obtain ⟨hparents9, hparents5⟩ := Prod.mk.inj (some.inj hparents)
    refine ⟨m, d, hm, hd, (hblues 9).mpr (by simp), hsize, ?_⟩
    refine trueAnticoneSize_le {20} fun y hy hne => ?_
    have hy := (hblues y).mp hy
    simp only [mem_cons, not_mem_nil, or_false] at hy
    rcases hy with rfl | rfl | rfl | rfl
    · exact absurd (Finset.mem_singleton_self _) hne
    · exact .inl (of_parent ⟨[9], hparents5, by simp⟩)
    · exact .inl (refl _)
    · exact .inr (of_parent ⟨[1], hparents9, by simp⟩)

end GhostdagManager
end LapisMonetae.Ghostdag
