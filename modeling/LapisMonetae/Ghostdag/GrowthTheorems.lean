import LapisMonetae.Ghostdag.ChainTheorems
import LapisMonetae.Ghostdag.RunTheorems

/-!
# Blue work along a DAG

Whatever colors `ghostdag` gives, a block has more blue work than its parents: its selected parent
is one of its blues. So the stores of a DAG hold the mergesets of its blocks for any `k`, also one
that falls along a selected chain.
-/

namespace LapisMonetae.Ghostdag
namespace GhostdagManager

open Dag Classical List Option

variable {m m' : GhostdagManager} {blocks blocks' : Finset Hash} {d : GhostdagData} {fuel : ℕ}

/-- The stores of a DAG that was built by running `ghostdag` on each block in topological order,
with any `k`. -/
inductive Grown : GhostdagManager → Finset Hash → Prop
  | genesis (header : Header) (k : ForkedParam ℕ) (levelWork : ℕ)
      (hne : header.hash ≠ BlockHash.origin)
      (hwork : ∃ w, 0 < w ∧ header.work levelWork = some w) :
      Grown (fromGenesis header k levelWork) {header.hash}
  | add {m : GhostdagManager} {blocks : Finset Hash} (hm : Grown m blocks) (header : Header)
      (hadm : m.Admissible blocks header) {fuel : ℕ} {data : GhostdagData}
      (hdata : m.ghostdag fuel header.parents = some data)
      (hfits : m.blueWork data.selectedParent + (data.mergesetBlues.map m.work).sum < 2 ^ 192) :
      Grown (m.insertBlock header data) (insert header.hash blocks)

/-- A DAG that was built with a `k` that does not fall has grown. -/
lemma Built.grown (h : Built m blocks) : Grown m blocks := by
  induction h with
  | genesis header k levelWork hne hwork => exact .genesis header k levelWork hne hwork
  | add _ header hadm hdata hrange ih => exact ih.add header hadm hdata hrange.blueWork_fits

/-! ## The data of one block -/

/-- The coloring loop deals the blocks out to the blues and the reds, each in the same order. -/
lemma colorMergeset_deals {fuel k : ℕ} (rest : List Hash) : ∀ {d d' : GhostdagData},
    m.colorMergeset fuel k rest d = some d' → d'.selectedParent = d.selectedParent ∧
      ∃ blues reds, d'.mergesetBlues = d.mergesetBlues ++ blues ∧
        d'.mergesetReds = d.mergesetReds ++ reds ∧ (blues ++ reds).Perm rest ∧
        blues.Sublist rest ∧ reds.Sublist rest := by
  induction rest with
  | nil =>
    intro d d' h
    obtain rfl := some.inj h
    exact ⟨rfl, [], [], by simp, by simp, by simp, by simp, by simp⟩
  | cons c rest ih =>
    intro d d' h
    rw [colorMergeset] at h
    obtain ⟨color, -, h⟩ := bind_eq_some_iff.mp h
    cases color with
    | none =>
      obtain ⟨hsp, blues, reds, hblues, hreds, hperm, hbluesSub, hredsSub⟩ := ih h
      refine ⟨hsp, blues, c :: reds, hblues, ?_, ?_, hbluesSub.cons c, hredsSub.cons_cons c⟩
      · rw [hreds, GhostdagData.addRed, append_assoc, singleton_append]
      · exact perm_middle.trans (hperm.cons c)
    | some sizes =>
      obtain ⟨hsp, blues, reds, hblues, hreds, hperm, hbluesSub, hredsSub⟩ := ih h
      refine ⟨hsp, c :: blues, reds, ?_, hreds, hperm.cons c, hbluesSub.cons_cons c, hredsSub.cons c⟩
      rw [hblues, GhostdagData.addBlue, append_assoc, singleton_append]

lemma eq_map_of_mapM {α : Type} {f : α → Option ℕ} : ∀ {l : List α} {ys : List ℕ},
    l.mapM f = some ys → ys = l.map fun a => (f a).getD 0 := by
  intro l
  induction l with
  | nil =>
    intro ys h
    exact (some.inj h).symm
  | cons a l ih =>
    intro ys h
    rw [mapM_cons] at h
    obtain ⟨y, hy, h⟩ := bind_eq_some_iff.mp h
    obtain ⟨rest, hrest, h⟩ := bind_eq_some_iff.mp h
    obtain rfl := some.inj h
    rw [map_cons, hy, ih hrest]
    rfl

/-- What `ghostdag` returns holds the mergeset of the new block, and its blue work is that of the
selected parent with the works of the blues. -/
lemma merged_of_ghostdag (dag : m.WorkDag blocks) {parents : List Hash}
    (hvalid : m.ValidParents blocks parents)
    (h : m.ghostdag fuel parents = some d) : (∃ merged, m.Merged parents merged d) ∧ d.blueWork =
      (m.blueWork d.selectedParent + (d.mergesetBlues.map m.work).sum) % 2 ^ 192 := by
  obtain ⟨sp, hsp, hfind, hmax⟩ := dag.findSelectedParent_spec hvalid
  have hne : sp ≠ BlockHash.origin := fun heq =>
    dag.origin_notMem (heq ▸ hvalid.mem_blocks sp hsp)
  obtain ⟨-, merged, colored, parentData, works, hmerged, hcolor, hdata, hworks, hd⟩ :=
    ghostdag_eq_some h hfind hne
  obtain ⟨merged', hmerged', hordered⟩ := orderedMergeset_spec dag hvalid hsp (Nat.lt_succ_self _)
  obtain rfl := Fuel.Returns.unique ((orderedMergeset_stable sp parents).returns hmerged)
    ((orderedMergeset_stable sp parents).returns hmerged')
  obtain ⟨hspEq, blues, reds, hblues, hreds, hperm, hbluesSub, hredsSub⟩ :=
    colorMergeset_deals merged hcolor
  have hblues : d.mergesetBlues = sp :: blues :=
    (congrArg GhostdagData.mergesetBlues hd).trans hblues
  have hreds : d.mergesetReds = reds := (congrArg GhostdagData.mergesetReds hd).trans hreds
  have hspEq : d.selectedParent = sp := (congrArg GhostdagData.selectedParent hd).trans hspEq
  have hscore := blueScore_of_getData hdata
  have hwork := blueWork_of_getData hdata
  refine ⟨⟨merged, ?_⟩, ?_⟩
  · refine ⟨hspEq ▸ hsp, hspEq ▸ hmax, hspEq ▸ hordered, ?_, ?_, ?_, ?_, ?_⟩
    · rw [hblues, hspEq, tail_cons]
    · rw [hblues, hreds, tail_cons]
      exact hperm
    · rw [hblues, tail_cons]
      exact hbluesSub
    · rw [hreds]
      exact hredsSub
    · rw [hspEq, hscore, hd]
      rfl
  · have hsum : d.blueWork = add192 parentData.blueWork (works.foldl add192 0) :=
      congrArg GhostdagData.blueWork hd
    have hmap : works = d.mergesetBlues.map m.work := by
      rw [hd]
      exact eq_map_of_mapM hworks
    rw [hsum, add192_foldl, hspEq, hwork, hmap]

/-! ## Runs -/

/-- What holds after every run: the stores hold the mergesets, and headers have work. -/
structure GrownInv (m : GhostdagManager) (blocks : Finset Hash) : Prop
    extends MergedDag m blocks where
  blockWork : ∀ b ∈ blocks, ∃ w, 0 < w ∧ m.blockWork b = some w

/-- The data of a block stays right while the stores grow. -/
lemma Extends.merged (ext : m.Extends m' blocks) (dag : m.WorkDag blocks)
    {parents merged : List Hash} (hvalid : m.ValidParents blocks parents)
    (h : m.Merged parents merged d) : m'.Merged parents merged d := by
  have hsp := hvalid.mem_blocks _ h.selectedParent_mem
  refine ⟨h.selectedParent_mem, fun p hp => ?_, ?_, h.blues_eq, h.perm, h.blues_sublist,
    h.reds_sublist, ?_⟩
  · rw [ext.key (hvalid.mem_blocks p hp), ext.key hsp]
    exact h.key_le p hp
  · exact ext.orderedMergeset dag hvalid.mem_blocks hsp h.ordered
  · rw [ext.blueScore hsp]
    exact h.blueScore_eq

section insert

variable {header : Header} {data : GhostdagData}

lemma GrownInv.insertBlock (inv : m.GrownInv blocks) (hadm : m.Admissible blocks header)
    (hghostdag : m.ghostdag fuel header.parents = some data)
    (hfits : m.blueWork data.selectedParent + (data.mergesetBlues.map m.work).sum < 2 ^ 192) :
    (m.insertBlock header data).GrownInv (insert header.hash blocks) := by
  have dag := inv.toWorkDag
  have ext := hadm.extends data
  have hsub : blocks ⊆ insert header.hash blocks := Finset.subset_insert _ _
  obtain ⟨⟨merged, hmerged⟩, hblueWork⟩ := merged_of_ghostdag dag hadm.parents hghostdag
  have hsp := hadm.parents.mem_blocks _ hmerged.selectedParent_mem
  have hgrows := blueWork_selectedParent_lt (work_pos_of_blockWork (inv.blockWork _ hsp))
    hmerged.blues_eq hblueWork hfits
  have dag' := workDag_insertBlock dag hadm fun p hp =>
    (blueWork_le_of_key_le (hmerged.key_le p hp)).trans_lt hgrows
  refine ⟨⟨dag', ?_, fun b hb hbne => ?_⟩, blockWork_insertBlock hadm inv.blockWork⟩
  · exact (ext.getData _ inv.genesis_mem).trans inv.genesis_data
  · by_cases hne : b = header.hash
    · subst hne
      exact ⟨header.parents, merged, data, Function.update_self _ _ _, Function.update_self _ _ _,
        ext.validParents dag hsub hadm.parents, ext.merged dag hadm.parents hmerged⟩
    · have hb := Finset.mem_of_mem_insert_of_ne hb hne
      obtain ⟨ps, merged', d, hps, hd, hvalid, hmerged'⟩ := inv.merged b hb hbne
      exact ⟨ps, merged', d, (ext.getParents b (Or.inl hb)).trans hps,
        (ext.getData b hb).trans hd, ext.validParents dag hsub hvalid,
        ext.merged dag hvalid hmerged'⟩

end insert

lemma Grown.inv (h : Grown m blocks) : m.GrownInv blocks := by
  induction h with
  | genesis header k levelWork hne hwork =>
    have inv := storeInv_fromGenesis header k levelWork hne hwork
    exact ⟨inv.mergedDag, inv.blockWork⟩
  | add _ header hadm hdata hfits ih => exact ih.insertBlock hadm hdata hfits

end GhostdagManager
end LapisMonetae.Ghostdag
