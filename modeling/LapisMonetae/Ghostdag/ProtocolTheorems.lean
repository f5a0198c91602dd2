import LapisMonetae.Ghostdag.ColoringTheorems
import LapisMonetae.Ghostdag.MergesetTheorems
import LapisMonetae.Lib.Fuel

/-!
# The ghostdag protocol on one block

Over stores that satisfy their invariant, `ghostdag` returns data that is right for the new
block, and more fuel never changes it.
-/

namespace LapisMonetae.Ghostdag

open Dag Classical Option Finset Fuel

lemma mergesetLoop_stable (getParents : Hash → Option (List Hash))
    (isDagAncestorOf : Hash → Hash → Option Bool) (selectedParent : Hash) :
    ∀ fuel fuel', fuel ≤ fuel' → ∀ state,
      Below (mergesetLoop getParents isDagAncestorOf selectedParent fuel state)
        (mergesetLoop getParents isDagAncestorOf selectedParent fuel' state) := by
  refine rounds (fun _ _ => Below.none _) fun fuel fuel' ih ⟨queue, mergeset, past⟩ => ?_
  cases queue with
  | nil => exact Below.refl _
  | cons current queue => exact Below.after fun ps => Below.after fun state => ih state

namespace GhostdagManager

variable {m : GhostdagManager} {blocks : Finset Hash}
variable {d : GhostdagData} {sp : Hash} {merged parents : List Hash} {fuel k : ℕ} {rest : List Hash}

/-! ## Fuel -/

lemma blueAnticoneSizeLoop_stable (block : Hash) : ∀ fuel fuel', fuel ≤ fuel' →
    ∀ sizes sp, Below (m.blueAnticoneSizeLoop block fuel sizes sp)
      (m.blueAnticoneSizeLoop block fuel' sizes sp) := by
  refine rounds (fun _ _ _ => Below.none _) fun fuel fuel' ih sizes sp => ?_
  rw [blueAnticoneSizeLoop, blueAnticoneSizeLoop]
  cases sizes.lookup block with
  | some size => exact Below.refl _
  | none => exact Below.orElse (Below.after fun data => ih _ _)

section

variable {fuel fuel' : ℕ} (hle : fuel ≤ fuel')

include hle

lemma checkPeers_stable (d : GhostdagData) (blue : Hash) (k : ℕ) :
    ∀ peers sizes size, Below (m.checkPeers fuel d blue k peers sizes size)
      (m.checkPeers fuel' d blue k peers sizes size) := by
  intro peers
  induction peers with
  | nil => exact fun sizes size => Below.refl _
  | cons peer rest ih =>
    intro sizes size
    refine Below.after fun inPast => Below.ite (ih _ _) ?_
    refine Below.bind (blueAnticoneSizeLoop_stable peer fuel fuel' hle _ _) fun peerSize => ?_
    exact Below.orElse (Below.orElse (Below.orElse (ih _ _)))

lemma checkChain_stable (d : GhostdagData) (blue : Hash) (k : ℕ) :
    ∀ steps steps', steps ≤ steps' → ∀ hash data sizes size,
      Below (m.checkChain fuel d blue k steps hash data sizes size)
        (m.checkChain fuel' d blue k steps' hash data sizes size) := by
  refine rounds (fun _ _ _ _ _ => Below.none _) fun steps steps' ih hash data sizes size => ?_
  refine Below.bind ?_ ?_
  · unfold checkBlueCandidateWithChainBlock
    have hpeers := checkPeers_stable (m := m) hle d blue k data.mergesetBlues sizes size
    cases hash with
    | none => exact hpeers
    | some h => exact Below.after fun inFuture => Below.orElse hpeers
  · rintro ⟨state, sizes, size⟩
    cases state with
    | blue => exact Below.refl _
    | red => exact Below.refl _
    | pending => exact Below.after fun dp => ih _ _ _ _

lemma colorMergeset_stable (k : ℕ) : ∀ merged d,
    Below (m.colorMergeset fuel k merged d) (m.colorMergeset fuel' k merged d) := by
  intro merged
  induction merged with
  | nil => exact fun d => Below.refl _
  | cons blue rest ih =>
    intro d
    refine Below.bind ?_ ?_
    · refine Below.orElse ?_
      exact checkChain_stable hle d blue k fuel fuel' hle _ _ _ _
    · rintro (_ | ⟨size, sizes⟩)
      · exact ih _
      · exact ih _

lemma ghostdag_below (parents : List Hash) :
    Below (m.ghostdag fuel parents) (m.ghostdag fuel' parents) := by
  refine Below.after fun sp => Below.orElse ?_
  refine Below.after fun daaScore => Below.orElse ?_
  refine Below.bind (Below.bind ?_ fun _ => Below.refl _) fun merged => ?_
  · exact mergesetLoop_stable _ _ _ fuel fuel' hle _
  · exact Below.bind (colorMergeset_stable hle _ merged _) fun d => Below.refl _

end

lemma ghostdag_stable (parents : List Hash) : Stable fun fuel => m.ghostdag fuel parents :=
  fun _ _ hle => ghostdag_below hle parents

/-! ## The ordered mergeset -/

section mergeset

variable (dag : m.WorkDag blocks) {parents : List Hash} {sp : Hash}
  (hvalid : m.ValidParents blocks parents) (hsp : sp ∈ parents) {fuel : ℕ}
  (hfuel : parents.length + blocks.card < fuel)

include dag hvalid hsp hfuel

/-- The mergeset of valid parents is their past without the past of the selected parent. -/
lemma unorderedMergeset_eq_past :
    ∃ mergeset, unorderedMergesetWithoutSelectedParent m.getParents m.isDagAncestorOf fuel sp
        parents = some mergeset ∧ mergeset.Nodup ∧ (∀ x ∈ mergeset, x ∈ blocks) ∧
      ∀ x, x ∈ mergeset ↔ (∃ p ∈ parents, InPast m.Parent x p) ∧ ¬InPast m.Parent x sp := by
  have hspMem := hvalid.mem_blocks sp hsp
  have hreach : ∀ v, (v ∈ blocks ∨ v = BlockHash.origin) → (m.isDagAncestorOf v sp = some false ↔
      ¬InPast m.Parent v sp) := by
    intro v hv
    rw [dag.reachability v hv sp hspMem, some.injEq, decide_eq_false_iff_not]
  -- the search never leaves the blocks after genesis
  have hclosed : SearchClosed m.getParents m.isDagAncestorOf sp (blocks.erase m.genesisHash) := by
    intro u hu
    obtain ⟨hne, hmem⟩ := mem_erase.mp hu
    obtain ⟨ps, hps, hvalid', -⟩ := dag.parents u hmem hne
    refine ⟨ps, hps, fun v hv => ?_⟩
    have hvMem := hvalid'.mem_blocks v hv
    refine ⟨_, dag.reachability v (Or.inl hvMem) sp hspMem, fun hfalse => ?_⟩
    refine mem_erase.mpr ⟨?_, hvMem⟩
    rintro rfl
    exact of_decide_eq_false hfalse (dag.genesis_inPast hspMem)
  have hstart : ∀ p ∈ parents, p ≠ sp → p ∈ blocks.erase m.genesisHash := by
    intro p hp hne
    refine mem_erase.mpr ⟨?_, hvalid.mem_blocks p hp⟩
    rintro rfl
    exact hne (hvalid.antichain _ _ hp hsp (dag.genesis_inPast hspMem))
  have hcard : (blocks.erase m.genesisHash).card ≤ blocks.card := card_erase_le
  obtain ⟨res, hres, hnodup, hresMem, hiff⟩ :=
    unorderedMergeset_spec hclosed hstart (show _ < fuel by omega)
  refine ⟨res, hres, hnodup, fun x hx => mem_of_mem_erase (hresMem x hx), fun x => ?_⟩
  have hrel : MergedParent m.getParents m.isDagAncestorOf sp =
      fun v u => m.Parent v u ∧ ¬InPast m.Parent v sp := by
    funext v u
    refine propext (and_congr_right fun hparent => ?_)
    rcases dag.parent_mem hparent with ⟨-, -, hv⟩ | ⟨-, hv⟩
    · exact hreach v (Or.inl hv)
    · exact hreach v (Or.inr hv)
  rw [hiff x, hrel]
  refine exists_path_outside_iff fun p hp hne hpast => hne ?_
  exact hvalid.antichain p sp hp hsp hpast

/-- The ordered mergeset of valid parents is their past without the past of the selected
parent. -/
lemma orderedMergeset_spec :
    ∃ merged, m.orderedMergesetWithoutSelectedParent fuel sp parents = some merged ∧
      m.OrderedMergeset parents sp merged := by
  obtain ⟨mergeset, hmergeset, hnodup, hmem, hiff⟩ :=
    unorderedMergeset_eq_past dag hvalid hsp hfuel
  obtain ⟨merged, hsort, hperm, hsorted⟩ :=
    sortBlocks_spec (fun x hx => dag.getData_some x (hmem x hx)) hnodup
  refine ⟨merged, ?_, fun x => hperm.mem_iff.trans (hiff x), hsorted⟩
  rw [orderedMergesetWithoutSelectedParent, hmergeset]
  exact hsort

end mergeset

/-! ## Coloring -/

/-- The new block starts with its selected parent as the only new blue. -/
lemma coloring_newWithSelectedParent (inv : m.StoreInv blocks) (hsp : sp ∈ blocks) :
    m.Coloring blocks (m.kOf sp) sp [] (GhostdagData.newWithSelectedParent sp) := by
  set d := GhostdagData.newWithSelectedParent sp with hd
  obtain ⟨dp, hdata⟩ := inv.getData_some hsp
  have hspOrigin : sp ≠ BlockHash.origin := fun h => inv.origin_notMem (h ▸ hsp)
  have hblue : ∀ x, m.BlueOf d x ↔ x = sp ∨ m.BlueOf dp x := by
    intro x
    rw [blueOf_iff, hd, GhostdagData.newWithSelectedParent]
    simp only [List.mem_singleton, hdata, some.injEq, exists_eq_left', ne_eq, hspOrigin,
      not_false_eq_true, true_and]
  have hset : m.blueSet blocks d = insert sp (m.blueSet blocks dp) := by
    ext x
    rw [mem_insert, mem_blueSet, mem_blueSet, hblue]
    constructor
    · rintro ⟨hx, rfl | h⟩
      · exact Or.inl rfl
      · exact Or.inr ⟨hx, h⟩
    · rintro (rfl | ⟨hx, h⟩)
      · exact ⟨hsp, Or.inl rfl⟩
      · exact ⟨hx, Or.inr h⟩
  have hpast : ∀ x, m.BlueOf dp x → Past m.Parent x sp :=
    fun x hx => (inv.past_of_blueOf hx hsp hdata).2
  have hself : m.trueAnticoneSize blocks d sp = 0 := by
    rw [trueAnticoneSize, hset, anticoneIn_insert_of_not (not_anticone_self _), card_eq_zero]
    refine filter_eq_empty_iff.mpr fun y hy hanti => ?_
    exact hanti.2 (hpast y (mem_blueSet.mp hy).2).inPast
  have hother : ∀ x, m.BlueOf dp x →
      m.trueAnticoneSize blocks d x = m.trueAnticoneSize blocks dp x := by
    intro x hx
    rw [trueAnticoneSize, hset, anticoneIn_insert_of_not (fun hanti => hanti.1 (hpast x hx).inPast),
      trueAnticoneSize]
  -- the blues of the selected parent keep the sizes that it sees
  have hparent : ∀ x, m.BlueOf dp x → m.trueAnticoneSize blocks dp x ≤ m.kOf sp ∧
      ∀ fuel, m.blueScore sp < fuel → m.blueAnticoneSize fuel x d =
        some (m.trueAnticoneSize blocks dp x) := by
    intro x hx
    have hne : sp ≠ m.genesisHash := by
      rintro rfl
      rw [inv.genesis_data] at hdata
      exact not_blueOf_genesis x (some.inj hdata ▸ hx)
    obtain ⟨ps, d', -, hd', -, hcol, hk, -, -, -, hscore⟩ := inv.readData hsp hne
    obtain rfl := some.inj (hdata.symm.trans hd')
    obtain ⟨merged, -, hcoloring⟩ := hcol.coloring
    refine ⟨(hcoloring.le_k x hx).trans hk, fun fuel hfuel => ?_⟩
    obtain _ | fuel := fuel
    · omega
    have hxne : x ≠ sp := by
      rintro rfl
      exact inv.workDag.not_past_self hsp (hpast x hx)
    rw [← hcoloring.anticoneSize x hx fuel (by omega), blueAnticoneSize, blueAnticoneSizeLoop]
    have hlookup : d.bluesAnticoneSizes.lookup x = none := by
      rw [hd, GhostdagData.newWithSelectedParent, AList.lookup_insert_ne hxne, AList.lookup_empty]
    have hstop : ¬(d.selectedParent = m.genesisHash ∨ d.selectedParent = BlockHash.origin) :=
      not_or.mpr ⟨hne, hspOrigin⟩
    rw [hlookup]
    simp only [if_neg hstop]
    rw [show m.getData d.selectedParent = some dp from hdata]
    rfl
  refine ⟨rfl, rfl, List.Perm.refl _, List.Sublist.refl _, List.Sublist.refl _,
    fun x hx fuel hfuel => ?_, fun x hx => ?_⟩
  · rcases (hblue x).mp hx with rfl | hx
    · rw [hself]
      refine blueAnticoneSize_of_lookup (by omega) ?_
      rw [hd, GhostdagData.newWithSelectedParent, AList.lookup_insert]
    · rw [hother x hx]
      exact (hparent x hx).2 fuel hfuel
  · rcases (hblue x).mp hx with rfl | hx
    · rw [hself]
      exact Nat.zero_le _
    · rw [hother x hx]
      exact (hparent x hx).1

lemma Mergeable.left (h : m.Mergeable blocks sp (merged ++ rest)) : m.Mergeable blocks sp merged :=
  ⟨h.1.sublist (List.sublist_append_left _ _), fun x hx => h.2 x (List.mem_append_left _ hx)⟩

/-- The next candidate comes after all the blues: it has a greater key than the merged ones, and
the others are in the past of the selected parent. -/
lemma Coloring.after_blues (inv : m.StoreInv blocks) {blue : Hash}
    (h : m.Coloring blocks k sp merged d) (hsp : sp ∈ blocks)
    (hmergeable : m.Mergeable blocks sp (merged ++ blue :: rest))
    (hsorted : (merged ++ blue :: rest).Pairwise fun a b => m.key a < m.key b) :
    ∀ y, m.BlueOf d y → y ∈ blocks ∧ ¬InPast m.Parent blue y := by
  obtain ⟨hcandidate, hnotPast⟩ := hmergeable.2 blue (by simp)
  obtain ⟨dp, link⟩ := h.chainLink inv hsp hmergeable.left
  have hlinkData := link.getData
  rw [h.selectedParent_eq] at hlinkData
  intro y hy
  rcases (link.blueOf_iff inv y).mp hy with hmem | hy
  · refine ⟨link.blues_mem y hmem, fun hpast => ?_⟩
    rcases h.mem_mergesetBlues hmem with rfl | hmem
    · exact hnotPast hpast
    · have hlt : m.key y < m.key blue :=
        (List.pairwise_append.mp hsorted).2.2 y hmem blue List.mem_cons_self
      rcases hpast.eq_or_past with rfl | hpast
      · exact lt_irrefl _ hlt
      · exact lt_asymm hlt (inv.workDag.key_lt_of_past hpast hcandidate)
  · obtain ⟨hmem, hyPast⟩ := inv.past_of_blueOf hy hsp hlinkData
    exact ⟨hmem, fun hpast => hnotPast (hpast.trans hyPast.inPast)⟩

/-- The coloring loop keeps the recorded sizes right. -/
lemma colorMergeset_spec (inv : m.StoreInv blocks) (hsp : sp ∈ blocks)
    (hfuel : m.blueScore sp + 1 < fuel) (rest : List Hash) : ∀ merged d,
      m.Mergeable blocks sp (merged ++ rest) →
      (merged ++ rest).Pairwise (fun a b => m.key a < m.key b) →
      m.Coloring blocks k sp merged d →
      ∃ d', m.colorMergeset fuel k rest d = some d' ∧
        m.Coloring blocks k sp (merged ++ rest) d' := by
  induction rest with
  | nil =>
    intro merged d _ _ h
    exact ⟨d, rfl, by rwa [List.append_nil]⟩
  | cons blue rest ih =>
    intro merged d hmergeable hsorted h
    have hcandidate := (hmergeable.2 blue (by simp)).1
    have hafter := h.after_blues inv hsp hmergeable hsorted
    have hcheck := checkBlueCandidate_spec inv h hsp hmergeable.left hfuel hcandidate
    have happend : merged ++ blue :: rest = merged ++ [blue] ++ rest := by
      rw [List.append_assoc, List.singleton_append]
    rw [happend] at hmergeable hsorted ⊢
    rw [colorMergeset]
    rcases hcheck with hred | ⟨n, sizes, hblue, htracked⟩
    · rw [hred]
      exact ih _ _ hmergeable hsorted (h.addRed blue)
    · rw [hblue]
      exact ih _ _ hmergeable hsorted (h.addBlue hcandidate (fun x hx => (hafter x hx).1)
        (fun x hx => (hafter x hx).2) htracked)

lemma Coloring.finalizeScoreAndWork (h : m.Coloring blocks k sp merged d) (blueScore blueWork : ℕ) :
    m.Coloring blocks k sp merged (d.finalizeScoreAndWork blueScore blueWork) :=
  h.of_blues rfl rfl rfl h.perm h.blues_sublist h.reds_sublist

/-! ## Blue work -/

lemma foldl_add192 (works : List ℕ) : ∀ acc,
    works.foldl add192 (acc % 2 ^ 192) = (acc + works.sum) % 2 ^ 192 := by
  induction works with
  | nil =>
    intro acc
    rfl
  | cons w works ih =>
    intro acc
    rw [List.foldl_cons, List.sum_cons, ← Nat.add_assoc, ← ih (acc + w), add192, Nat.mod_add_mod]

/-- The blue work of the new block is a sum modulo `2^192`. -/
lemma add192_foldl (parentWork : ℕ) (works : List ℕ) :
    add192 parentWork (works.foldl add192 0) = (parentWork + works.sum) % 2 ^ 192 := by
  have h := foldl_add192 works 0
  rw [Nat.zero_mod, Nat.zero_add] at h
  rw [h, add192, Nat.add_mod_mod]

/-! ## The protocol -/

/-- `ghostdag` returns for valid parents, with the right data for a block with these parents. -/
lemma ghostdag_spec (inv : m.StoreInv blocks) (hvalid : m.ValidParents blocks parents)
    (hk : ∀ sp, m.findSelectedParent parents = some sp → m.kOf sp + 1 < 2 ^ 16) :
    ∃ d, Returns (fun fuel => m.ghostdag fuel parents) d ∧ m.Colored blocks parents d := by
  obtain ⟨sp, hsp, hfind, hmax⟩ := inv.workDag.findSelectedParent_spec hvalid
  have hspMem := hvalid.mem_blocks sp hsp
  have hspOrigin : sp ≠ BlockHash.origin := fun h => inv.origin_notMem (h ▸ hspMem)
  obtain ⟨score, hscore⟩ := inv.daaScore sp hspMem
  obtain ⟨dp, hdata⟩ := inv.getData_some hspMem
  have hkOf : m.k.get score = m.kOf sp := by
    rw [kOf, hscore]
    rfl
  -- a fuel that is enough for every loop
  let fuel := parents.length + blocks.card + m.blueScore sp + 2
  obtain ⟨merged, hmerged, hordered⟩ := orderedMergeset_spec inv.workDag hvalid hsp
    (show parents.length + blocks.card < fuel by omega)
  have hmergeable := hordered.mergeable inv hvalid.mem_blocks hspMem
  obtain ⟨d, hcolor, hcoloring⟩ := colorMergeset_spec inv hspMem
    (show m.blueScore sp + 1 < fuel by omega) merged [] (GhostdagData.newWithSelectedParent sp)
    hmergeable hordered.sorted (coloring_newWithSelectedParent inv hspMem)
  rw [List.nil_append] at hcoloring
  have hworks : d.mergesetBlues.mapM m.blockWork = some (d.mergesetBlues.map m.work) := by
    refine mapM_eq_some _ fun x hx => ?_
    have hx : x ∈ blocks := by
      rcases hcoloring.mem_mergesetBlues hx with rfl | hx
      · exact hspMem
      · exact (hmergeable.2 x hx).1
    obtain ⟨w, -, hw⟩ := inv.blockWork x hx
    rw [work, hw]
    rfl
  have hghostdag : m.ghostdag fuel parents = some (d.finalizeScoreAndWork
      (dp.blueScore + d.mergesetBlues.length)
      (add192 dp.blueWork ((d.mergesetBlues.map m.work).foldl add192 0))) := by
    rw [ghostdag, hfind]
    simp only [bind_eq_bind, bind_some, if_neg hspOrigin, hscore,
      hkOf, if_neg (not_le.mpr (hk sp hfind)), hmerged]
    rw [hcolor]
    simp only [bind_some, hdata, hworks, Option.pure_def]
  refine ⟨_, (ghostdag_stable parents).returns hghostdag, ?_⟩
  have hspEq : d.selectedParent = sp := hcoloring.selectedParent_eq
  have hwork := blueWork_of_getData hdata
  have hblueScore := blueScore_of_getData hdata
  refine ⟨?_, ?_, ⟨merged, ?_, ?_⟩, ?_, ?_⟩
  · exact hspEq.symm ▸ hsp
  · intro p hp
    exact (hmax p hp).trans_eq (congrArg m.key hspEq.symm)
  · exact hspEq.symm ▸ hordered
  · show m.Coloring blocks (m.kOf d.selectedParent) d.selectedParent merged _
    rw [hspEq]
    exact hcoloring.finalizeScoreAndWork _ _
  · show dp.blueScore + d.mergesetBlues.length = m.blueScore d.selectedParent + _
    rw [hspEq, hblueScore]
    rfl
  · show add192 _ _ = (m.blueWork d.selectedParent + (d.mergesetBlues.map m.work).sum) % 2 ^ 192
    rw [add192_foldl, hspEq, hwork]

lemma orderedMergeset_stable (sp : Hash) (parents : List Hash) :
    Stable fun fuel => m.orderedMergesetWithoutSelectedParent fuel sp parents :=
  fun fuel fuel' hle =>
    Fuel.Below.bind (mergesetLoop_stable _ _ _ fuel fuel' hle _) fun _ => Fuel.Below.refl _

/-- What `ghostdag` has run where it returns. -/
lemma ghostdag_eq_some (h : m.ghostdag fuel parents = some d)
    (hsp : m.findSelectedParent parents = some sp) (hne : sp ≠ BlockHash.origin) :
    m.kOf sp + 1 < 2 ^ 16 ∧ ∃ merged colored dp works,
      m.orderedMergesetWithoutSelectedParent fuel sp parents = some merged ∧
      m.colorMergeset fuel (m.kOf sp) merged (GhostdagData.newWithSelectedParent sp) =
        some colored ∧
      m.getData sp = some dp ∧ colored.mergesetBlues.mapM m.blockWork = some works ∧
      d = colored.finalizeScoreAndWork (dp.blueScore + colored.mergesetBlues.length)
        (add192 dp.blueWork (works.foldl add192 0)) := by
  rw [ghostdag, hsp] at h
  simp only [some_bind_eq, if_neg hne] at h
  obtain ⟨score, hscore, h⟩ := bind_eq_some_iff.mp h
  have hkOf : m.k.get score = m.kOf sp := by
    rw [kOf, hscore]
    rfl
  rw [hkOf] at h
  split at h
  · exact absurd h (by simp)
  · next hk =>
    obtain ⟨merged, hmerged, h⟩ := bind_eq_some_iff.mp h
    obtain ⟨colored, hcolored, h⟩ := bind_eq_some_iff.mp h
    obtain ⟨dp, hdata, h⟩ := bind_eq_some_iff.mp h
    obtain ⟨works, hworks, h⟩ := bind_eq_some_iff.mp h
    exact ⟨not_le.mp hk, merged, colored, dp, works, hmerged, hcolored, hdata, hworks,
      (some.inj h).symm⟩

/-- What `ghostdag` returns is right, with any fuel. -/
lemma colored_of_ghostdag (inv : m.StoreInv blocks) (hvalid : m.ValidParents blocks parents)
    (h : m.ghostdag fuel parents = some d) : m.Colored blocks parents d := by
  have hk : ∀ sp, m.findSelectedParent parents = some sp → m.kOf sp + 1 < 2 ^ 16 := by
    intro sp hsp
    refine (ghostdag_eq_some h hsp fun horigin => ?_).1
    obtain ⟨sp', hmem, hfind, -⟩ := inv.workDag.findSelectedParent_spec hvalid
    obtain rfl := some.inj (hsp.symm.trans hfind)
    exact inv.origin_notMem (horigin ▸ hvalid.mem_blocks sp hmem)
  obtain ⟨d', hreturns, hcol⟩ := ghostdag_spec inv hvalid hk
  obtain rfl := Returns.unique ((ghostdag_stable parents).returns h) hreturns
  exact hcol

end GhostdagManager
end LapisMonetae.Ghostdag
