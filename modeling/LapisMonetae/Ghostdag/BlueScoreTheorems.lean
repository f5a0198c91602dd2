import LapisMonetae.Ghostdag.ColoringTheorems
import LapisMonetae.Ghostdag.ChainTheorems

/-!
# Blue scores count blue sets

The blue score of a block is the number of its blues, and the blues that are not above a block of
the selected chain are few: they all lie in the anticones of three blues.
-/

namespace LapisMonetae.Ghostdag
namespace GhostdagManager

open Dag Relation Classical Finset

variable {m : GhostdagManager} {blocks : Finset Hash}
variable {d : GhostdagData} {parents : List Hash}

/-! ## Counting blues -/

lemma ChainLink.card_blueSet (inv : m.StoreInv blocks) {dp : GhostdagData}
    (link : m.ChainLink blocks d dp) :
    (m.blueSet blocks d).card = (m.blueSet blocks dp).card + d.mergesetBlues.length := by
  have hset : m.blueSet blocks d = m.blueSet blocks dp ∪ d.mergesetBlues.toFinset := by
    ext x
    rw [mem_union, mem_blueSet, mem_blueSet, List.mem_toFinset, link.blueOf_iff inv]
    constructor
    · rintro ⟨hx, h | h⟩
      · exact Or.inr h
      · exact Or.inl ⟨hx, h⟩
    · rintro (⟨hx, h⟩ | h)
      · exact ⟨hx, Or.inr h⟩
      · exact ⟨link.blues_mem x h, Or.inl h⟩
  have hdisjoint : Disjoint (m.blueSet blocks dp) d.mergesetBlues.toFinset := by
    rw [disjoint_left]
    intro x hx hblue
    exact link.disjoint x (List.mem_toFinset.mp hblue) (mem_blueSet.mp hx).2
  rw [hset, card_union_of_disjoint hdisjoint, List.toFinset_card_of_nodup link.nodup]

/-- The data of a block with valid parents, linked to that of its selected parent. -/
lemma Colored.chainLink (inv : m.StoreInv blocks) (hvalid : m.ValidParents blocks parents)
    (hcol : m.Colored blocks parents d) : ∃ dp, m.ChainLink blocks d dp := by
  obtain ⟨merged, hmerged, hcoloring⟩ := hcol.coloring
  have hsp := hcol.parent_mem hvalid
  exact hcoloring.chainLink inv hsp (hmerged.mergeable inv hvalid.mem_blocks hsp)

lemma StoreInv.card_blueSet (inv : m.StoreInv blocks) :
    ∀ {b : Hash} {d : GhostdagData}, b ∈ blocks → m.getData b = some d →
      (m.blueSet blocks d).card = m.blueScore b := by
  intro b
  induction hn : m.blueScore b using Nat.strong_induction_on generalizing b with
  | _ n ih =>
    intro d hb hd
    by_cases hne : b = m.genesisHash
    · rw [hne] at hn hd
      obtain rfl := Option.some.inj (inv.genesis_data.symm.trans hd)
      rw [← hn, blueScore_of_getData hd]
      show (m.blueSet blocks GhostdagData.genesis).card = 0
      rw [card_eq_zero, eq_empty_iff_forall_notMem]
      exact fun x hx => not_blueOf_genesis x (mem_blueSet.mp hx).2
    · obtain ⟨ps, -, hvalid, hcol⟩ := inv.colored_of_getData hb hne hd
      obtain ⟨dp, link⟩ := hcol.chainLink inv hvalid
      obtain ⟨merged, -, hcoloring⟩ := hcol.coloring
      have hscore := hcol.blueScore_eq
      have hblues := congrArg List.length hcoloring.blues_eq
      rw [List.length_cons] at hblues
      rw [blueScore_of_getData hd] at hn
      rw [link.card_blueSet inv, ih (m.blueScore d.selectedParent) (by omega) rfl link.mem_blocks
        link.getData]
      omega

lemma Colored.card_blueSet (inv : m.StoreInv blocks) (hvalid : m.ValidParents blocks parents)
    (hcol : m.Colored blocks parents d) : (m.blueSet blocks d).card = d.blueScore := by
  obtain ⟨dp, link⟩ := hcol.chainLink inv hvalid
  rw [link.card_blueSet inv, inv.card_blueSet link.mem_blocks link.getData, hcol.blueScore_eq]

/-! ## Blues and the selected chain -/

/-- A blue of the mergeset is the selected parent or outside of its past. -/
lemma Colored.mem_mergesetBlues {x : Hash} (hcol : m.Colored blocks parents d)
    (hx : x ∈ d.mergesetBlues) : x = d.selectedParent ∨
      (∃ p ∈ parents, InPast m.Parent x p) ∧ ¬InPast m.Parent x d.selectedParent := by
  obtain ⟨merged, hmerged, hcoloring⟩ := hcol.coloring
  exact (hcoloring.mem_mergesetBlues hx).imp_right (hmerged.mem_iff x).mp

lemma Colored.selectedParent_blue (hcol : m.Colored blocks parents d) :
    d.selectedParent ∈ d.mergesetBlues := by
  obtain ⟨merged, -, hcoloring⟩ := hcol.coloring
  rw [hcoloring.blues_eq]
  exact List.mem_cons_self

/-- The blocks of the selected chain are blue, and the blues in their past are their own. -/
lemma Colored.blueOf_onChain (inv : m.StoreInv blocks) {c sp : Hash} {dc : GhostdagData}
    (hc : c ∈ blocks) (hdc : m.getData c = some dc) (hon : m.OnChain c sp) :
    ∀ {parents : List Hash} {d : GhostdagData}, m.ValidParents blocks parents →
      m.Colored blocks parents d → d.selectedParent = sp →
      m.BlueOf d c ∧ ∀ x, m.BlueOf d x → Past m.Parent x c → m.BlueOf dc x := by
  -- a blue in the past of the chain is not of the last mergeset
  have hlast : ∀ {parents : List Hash} {d dp : GhostdagData} {x : Hash},
      m.Colored blocks parents d → m.ChainLink blocks d dp →
      m.OnChain c d.selectedParent → m.BlueOf d x → Past m.Parent x c →
      m.BlueOf dp x := by
    intro parents d dp x hcol link hon hx hpast
    have hpast' := hpast.trans_inPast hon.inPast
    rcases (link.blueOf_iff inv x).mp hx with h | h
    · rcases hcol.mem_mergesetBlues h with rfl | h
      · exact absurd hpast' (inv.workDag.not_past_self link.mem_blocks)
      · exact absurd hpast'.inPast h.2
    · exact h
  induction hon with
  | refl =>
    rintro parents d hvalid hcol rfl
    obtain ⟨dp, link⟩ := hcol.chainLink inv hvalid
    obtain rfl := Option.some.inj (hdc.symm.trans link.getData)
    exact ⟨BlueOf.here hcol.selectedParent_blue, fun x => hlast hcol link ReflTransGen.refl⟩
  | @tail b sp hon hsel ih =>
    rintro parents d hvalid hcol rfl
    obtain ⟨dp, link⟩ := hcol.chainLink inv hvalid
    have hb := inv.mergedDag.chainTree.mem_of_onChain hon hc
    have hne : d.selectedParent ≠ m.genesisHash := by
      intro h
      rw [h] at hsel
      exact inv.mergedDag.chainTree.genesis_root b hb hsel
    obtain ⟨ps, -, hvalid', hcol'⟩ := inv.colored_of_getData link.mem_blocks hne link.getData
    have hsp : dp.selectedParent = b := by
      obtain ⟨-, e, he, rfl⟩ := hsel
      obtain rfl := Option.some.inj (link.getData.symm.trans he)
      rfl
    obtain ⟨hblue, hbelow⟩ := ih hvalid' hcol' hsp
    refine ⟨(link.blueOf_iff inv c).mpr (Or.inr hblue), fun x hx hpast => ?_⟩
    exact hbelow x (hlast hcol link (hon.tail hsel) hx hpast) hpast

/-- Blues that are not above a block of the selected chain exist only a little above it: the blues
that were added since then are in the anticone of such a blue, of the chain block or of the
selected parent. -/
lemma Colored.inPast_blue (inv : m.StoreInv blocks) {c x : Hash}
    (hvalid : m.ValidParents blocks parents) (hcol : m.Colored blocks parents d) (hc : c ∈ blocks)
    (hon : m.OnChain c d.selectedParent)
    (hscore : m.blueScore c + 3 * m.kOf d.selectedParent < d.blueScore) (hx : x ∈ d.mergesetBlues) :
    InPast m.Parent c x := by
  by_contra hnot
  obtain ⟨dc, hdc⟩ := inv.getData_some hc
  obtain ⟨hblue, hbelow⟩ := Colored.blueOf_onChain inv hc hdc hon hvalid hcol rfl
  obtain ⟨merged, -, hcoloring⟩ := hcol.coloring
  obtain ⟨dp, link⟩ := hcol.chainLink inv hvalid
  have hout : ¬InPast m.Parent x d.selectedParent := by
    rcases hcol.mem_mergesetBlues hx with rfl | h
    · exact absurd hon.inPast hnot
    · exact h.2
  have hsub : m.blueSet blocks d \ m.blueSet blocks dc ⊆
      anticoneIn m.Parent (m.blueSet blocks d) x ∪
        (anticoneIn m.Parent (m.blueSet blocks d) c ∪
          anticoneIn m.Parent (m.blueSet blocks d) d.selectedParent) := by
    intro y hy
    obtain ⟨hy, hnew⟩ := mem_sdiff.mp hy
    have hyBlue := (mem_blueSet.mp hy).2
    have hyMem := (mem_blueSet.mp hy).1
    simp only [mem_union, anticoneIn, mem_filter, hy, true_and]
    by_cases hysp : InPast m.Parent y d.selectedParent
    · by_cases hcy : InPast m.Parent c y
      · exact Or.inl ⟨fun h => hout (h.trans hysp), fun h => hnot (hcy.trans h)⟩
      · refine Or.inr (Or.inl ⟨hcy, fun h => hnew (mem_blueSet.mpr ⟨hyMem, hbelow y hyBlue ?_⟩)⟩)
        rcases h.eq_or_past with rfl | h
        · exact absurd (InPast.refl y) hcy
        · exact h
    · -- such a blue is of the last mergeset, beside the selected parent
      refine Or.inr (Or.inr ⟨fun h => hysp ?_, hysp⟩)
      rcases (link.blueOf_iff inv y).mp hyBlue with hy | hy
      · rcases hcol.mem_mergesetBlues hy with rfl | ⟨⟨p, hp, hyp⟩, -⟩
        · exact InPast.refl _
        · rw [hvalid.antichain _ p hcol.selectedParent_mem hp (h.trans hyp)]
          exact hyp
      · exact (inv.past_of_blueOf hy link.mem_blocks link.getData).2.inPast
  have hx' := hcoloring.le_k x (BlueOf.here hx)
  have hc' := hcoloring.le_k c hblue
  have hsp' := hcoloring.le_k _ (BlueOf.here hcol.selectedParent_blue)
  unfold trueAnticoneSize at hx' hc' hsp'
  have hcard := card_le_card hsub
  have h1 := card_union_le (anticoneIn m.Parent (m.blueSet blocks d) x)
    (anticoneIn m.Parent (m.blueSet blocks d) c ∪
      anticoneIn m.Parent (m.blueSet blocks d) d.selectedParent)
  have h2 := card_union_le (anticoneIn m.Parent (m.blueSet blocks d) c)
    (anticoneIn m.Parent (m.blueSet blocks d) d.selectedParent)
  have h3 := le_card_sdiff (m.blueSet blocks dc) (m.blueSet blocks d)
  rw [hcol.card_blueSet inv hvalid, inv.card_blueSet hc hdc] at h3
  omega

end GhostdagManager
end LapisMonetae.Ghostdag
