import LapisMonetae.Ghostdag.ChainTheorems
import LapisMonetae.Ghostdag.RunTheorems
import LapisMonetae.Sync.Antipast
import Mathlib.Data.Set.Card

/-!
# Antipasts are exact

The mergesets above the highest common chain block, filtered by the past of `low`, spell out the
past of the highest chain block reached without the past of `low`, in topological order.
-/

namespace LapisMonetae.Sync

open Ghostdag GhostdagManager Dag Relation Classical List Option Nat

variable {s : SyncManager} {m : GhostdagManager} {blocks : Finset Hash}

/-- `h` is the highest block on both chains. -/
def IsHighestCommon (m : GhostdagManager) (low high h : Hash) : Prop :=
  m.OnChain h low ∧ m.OnChain h high ∧ ∀ x, m.OnChain x low → m.OnChain x high → m.OnChain x h

/-- The list is in topological order: no block is in the past of an earlier one. -/
def Topological (m : GhostdagManager) (l : List Hash) : Prop :=
  l.Pairwise fun a b => ¬InPast m.Parent b a

lemma Topological.nodup {l : List Hash} (h : Topological m l) : l.Nodup := by
  refine List.Pairwise.imp ?_ h
  rintro a b hab rfl
  exact hab (InPast.refl a)

lemma aboveMaxBlocks_of_le {maxBlocks : Option ℕ} {n k : ℕ}
    (h : aboveMaxBlocks maxBlocks n = false) (hle : k ≤ n) : aboveMaxBlocks maxBlocks k = false := by
  cases maxBlocks with
  | none => rfl
  | some max =>
    have hn := of_decide_eq_false h
    exact decide_eq_false (by omega)

namespace SyncManager

section manager

variable (hstore : s.ghostdagStore = m) (dag : m.MergedDag blocks)
  (hserves : s.reachabilityService.Serves m blocks) {l : List Hash}

/-! ## The highest common chain block -/

include dag hserves in
lemma findHighestCommonChainBlock_spec {high : Hash} (hhigh : high ∈ blocks) :
    ∀ {low : Hash}, low ∈ blocks → ∃ h, h ∈ blocks ∧ IsHighestCommon m low high h ∧
      Fuel.Returns (fun fuel => s.findHighestCommonChainBlock high fuel low) h := by
  intro low
  -- the walk goes down the chain of `low`, which loses blue work at every step
  induction hn : m.blueWork low using Nat.strong_induction_on generalizing low with
  | _ n ih =>
    intro hlow
    obtain ⟨d, hd⟩ := dag.getData_some low hlow
    have hparent := hserves.getChainParent low hlow d hd
    have hquery := hserves.isChainAncestorOf low hlow high hhigh
    have horigin : low ≠ BlockHash.origin := fun h => dag.origin_notMem (h ▸ hlow)
    by_cases hon : m.OnChain low high
    · refine ⟨low, hlow, ⟨ReflTransGen.refl, hon, fun x hx _ => hx⟩,
        (Fuel.returns_const low).of_succ fun fuel => ?_⟩
      simp only [findHighestCommonChainBlock, if_neg horigin, hparent, hquery,
        some_bind_eq, decide_eq_true hon, if_true, Option.pure_def]
    · have hne : low ≠ m.genesisHash := by
        rintro rfl
        exact hon (dag.chainTree.genesis_onChain hhigh)
      obtain ⟨ps, merged, -, -, -, hsp, hselected⟩ := dag.read hlow hne hd
      have hlt := dag.blueWork_lt_of_parent hselected.1 hsp
      obtain ⟨h, hh, ⟨hlowChain, hhighChain, hmax⟩, hreturns⟩ := ih _ (hn ▸ hlt) rfl hsp
      refine ⟨h, hh, ⟨hlowChain.tail hselected, hhighChain, fun x hx hx' => ?_⟩,
        hreturns.of_succ fun fuel => ?_⟩
      · rcases OnChain.cases_selectedParent hx hselected with rfl | hx
        · exact absurd hx' hon
        · exact hmax x hx hx'
      · simp only [findHighestCommonChainBlock, if_neg horigin, hparent, hquery,
          some_bind_eq, decide_eq_false hon, Bool.false_eq_true,
          if_false]

/-! ## One mergeset -/

include hstore dag in
lemma filterAntipast_eq {low : Hash} (hlow : low ∈ blocks) (l : List Hash)
    (hl : ∀ x ∈ l, x ∈ blocks) :
    s.filterAntipast low l = some (l.filter fun x => ¬InPast m.Parent x low) := by
  induction l with
  | nil => rfl
  | cons x l ih =>
    have hx := dag.reachability x (.inl (hl x mem_cons_self)) low hlow
    rw [filterAntipast, hstore, hx, ih fun y hy => hl y (mem_cons_of_mem _ hy)]
    by_cases hpast : InPast m.Parent x low
    · simp [hpast]
    · simp [hpast]

/-- The blocks collected up to the chain block `c`: the past of `c` without the past of `low`. -/
structure Collected (m : GhostdagManager) (low c : Hash) (l : List Hash) : Prop where
  nodup : l.Nodup
  mem_iff : ∀ x, x ∈ l ↔ Past m.Parent x c ∧ ¬InPast m.Parent x low
  topological : Topological m l

/-- The number of blocks below `c` that are neither `low` nor below it. -/
noncomputable def antipastSize (m : GhostdagManager) (low c : Hash) : ℕ :=
  Set.ncard {x | Past m.Parent x c ∧ ¬InPast m.Parent x low}

lemma Collected.length_eq {low c : Hash} (h : Collected m low c l) :
    l.length = antipastSize m low c := by
  have hset : {x | Past m.Parent x c ∧ ¬InPast m.Parent x low} = ↑l.toFinset := by
    ext x
    rw [Finset.mem_coe, List.mem_toFinset, h.mem_iff, Set.mem_ofPred_eq]
  rw [antipastSize, hset, Set.ncard_coe_finset, toFinset_card_of_nodup h.nodup]

lemma Collected.size_le {low b c : Hash} (h : Collected m low c l)
    (hbc : m.OnChain b c) : antipastSize m low b ≤ antipastSize m low c := by
  refine Set.ncard_le_ncard (fun x hx => ⟨hx.1.trans_inPast hbc.inPast, hx.2⟩) ?_
  exact l.finite_toSet.subset fun x hx => (h.mem_iff x).mpr hx

include dag in
/-- The mergeset of the next chain block is appended. -/
theorem Collected.append {low c : Hash} {l ps merged : List Hash} {d : GhostdagData}
    (h : Collected m low d.selectedParent l) (hps : m.getParents c = some ps)
    (hvalid : m.ValidParents blocks ps) (hmerged : m.Merged ps merged d) : Collected m low c
      (l ++ (d.selectedParent :: merged).filter fun x => ¬InPast m.Parent x low) := by
  have hsp := hvalid.mem_blocks _ hmerged.selectedParent_mem
  have hnotPast : ∀ x ∈ merged, ¬InPast m.Parent x d.selectedParent :=
    fun x hx => ((hmerged.ordered.mem_iff x).mp hx).2
  have hsorted : Topological m (d.selectedParent :: merged) := by
    refine pairwise_cons.mpr ⟨hnotPast, ?_⟩
    exact OrderedMergeset.topological dag.toWorkDag hvalid.mem_blocks hsp hmerged.ordered
  -- a block of the mergeset is not in the past of an earlier block
  have hlater : ∀ x ∈ l, ∀ y ∈ d.selectedParent :: merged, ¬InPast m.Parent y x := by
    intro x hx y hy hyx
    have hxsp := ((h.mem_iff x).mp hx).1
    have hpast := hyx.trans_past hxsp
    rcases mem_cons.mp hy with rfl | hy
    · exact dag.not_past_self hsp hpast
    · exact hnotPast y hy hpast.inPast
  have htopological : Topological m
      (l ++ (d.selectedParent :: merged).filter fun x => ¬InPast m.Parent x low) := by
    refine pairwise_append.mpr ⟨h.topological, hsorted.filter _, fun x hx y hy => ?_⟩
    exact hlater x hx y (mem_of_mem_filter hy)
  refine ⟨htopological.nodup, fun x => ?_, htopological⟩
  rw [mem_append, h.mem_iff, mem_filter, decide_eq_true_iff,
    MergedDag.Merged.past_iff hmerged hps, mem_cons]
  constructor
  · rintro (⟨hx, hlow⟩ | ⟨rfl | hx, hlow⟩)
    · exact ⟨.inl hx.inPast, hlow⟩
    · exact ⟨.inl (InPast.refl _), hlow⟩
    · exact ⟨.inr hx, hlow⟩
  · rintro ⟨hx | hx, hlow⟩
    · rcases hx.eq_or_past with rfl | hx
      · exact .inr ⟨.inl rfl, hlow⟩
      · exact .inl ⟨hx, hlow⟩
    · exact .inr ⟨.inr hx, hlow⟩

/-! ## The walk up the chain -/

/-- Where the loop from the chain block `c` ends, with `l` collected: at the end of the chain, or
where the next mergeset does not fit any more. -/
structure Walked (m : GhostdagManager) (blocks : Finset Hash) (low high : Hash)
    (maxBlocks : Option ℕ) (c : Hash) (l : List Hash) (reached : Hash) : Prop where
  collected : Collected m low reached l
  up : m.OnChain c reached
  down : m.OnChain reached high
  length : aboveMaxBlocks maxBlocks l.length = false
  fits : ∀ b d, m.OnChain b reached → ¬m.OnChain b c → m.getData b = some d →
    aboveMaxBlocks maxBlocks (antipastSize m low d.selectedParent + d.mergesetSize) = false
  stop : reached ≠ high → ∃ b ∈ blocks, ∃ d, m.getData b = some d ∧ m.SelectedParent reached b ∧
    m.OnChain b high ∧ aboveMaxBlocks maxBlocks (l.length + d.mergesetSize) = true

include hstore dag in
lemma collectMergesets_spec {low high : Hash} (hlow : low ∈ blocks) (maxBlocks : Option ℕ)
    {c : Hash} {chain : List Hash} (hchain : m.ChainUp high c chain) : c ∈ blocks →
      ∀ l, Collected m low c l → aboveMaxBlocks maxBlocks l.length = false →
      ∃ l' c', s.collectMergesets low maxBlocks chain (l, c) = some (l', c') ∧
        Walked m blocks low high maxBlocks c l' c' := by
  induction hchain with
  | here =>
    intro _ l hl hlen
    exact ⟨l, high, rfl, hl, .refl, .refl, hlen, fun b d hb hnot _ => absurd hb hnot,
      fun h => absurd rfl h⟩
  | @step a c chain hac hrest ih =>
    intro ha l hl hlen
    have hc := dag.chainTree.child_mem _ _ hac
    obtain ⟨-, d, hd, hsp⟩ := hac
    have hne : c ≠ m.genesisHash := by
      rintro rfl
      rw [dag.genesis_data] at hd
      obtain rfl := some.inj hd
      rw [← hsp] at ha
      exact dag.origin_notMem ha
    obtain ⟨ps, merged, hps, hvalid, hmerged, hspMem, hselected⟩ := dag.read hc hne hd
    rw [collectMergesets, hstore, hd]
    simp only [Option.bind_eq_bind, Option.bind_some, Option.pure_def]
    subst hsp
    by_cases hmax : aboveMaxBlocks maxBlocks (l.length + d.mergesetSize) = true
    · rw [if_pos hmax]
      exact ⟨l, d.selectedParent, rfl, hl, .refl, .head hselected hrest.onChain, hlen,
        fun b d hb hnot _ => absurd hb hnot,
        fun _ => ⟨c, hc, d, hd, hselected, hrest.onChain, hmax⟩⟩
    · rw [if_neg hmax]
      have hmem : ∀ x ∈ d.selectedParent :: merged, x ∈ blocks := by
        intro x hx
        rcases mem_cons.mp hx with rfl | hx
        · exact hspMem
        · exact dag.mem_of_merged hvalid.mem_blocks hspMem hmerged.ordered hx
      rw [dag.consensusOrderedMergeset_eq hvalid hmerged, bind_some,
        filterAntipast_eq hstore dag hlow _ hmem, bind_some]
      have hfits := Bool.eq_false_of_not_eq_true hmax
      obtain ⟨l', c', hloop, h⟩ := ih hc _ (hl.append dag hps hvalid hmerged)
        (aboveMaxBlocks_of_le hfits (by
          rw [length_append, MergedDag.Merged.mergesetSize_eq hmerged]
          exact Nat.add_le_add_left (length_filter_le ..) _))
      refine ⟨l', c', hloop, h.collected, .head hselected h.up, h.down, h.length, ?_, h.stop⟩
      intro b d' hb hnot hd'
      by_cases hbc : m.OnChain b c
      · -- the block is `c` itself, whose mergeset was compared with the limit
        obtain rfl := (OnChain.cases_selectedParent hbc hselected).resolve_right hnot
        obtain rfl := some.inj (hd.symm.trans hd')
        rwa [← hl.length_eq]
      · exact h.fits b d' hb hbc hd'

end manager

section reached

variable {low high common reached : Hash} {l : List Hash} {maxBlocks : Option ℕ}
  (dag : m.MergedDag blocks) (hpast : ¬Past m.Parent high low)
  (hhighest : IsHighestCommon m low high common)
  (h : Walked m blocks low high maxBlocks common l reached)
  (hfits : ∀ b ∈ blocks, ∀ d, m.getData b = some d →
    aboveMaxBlocks maxBlocks (0 + d.mergesetSize) = false)

include h hfits in
/-- The first mergeset fits, so a loop that stops early has collected something. -/
lemma exists_mem_of_stop (hne : reached ≠ high) : ∃ x, x ∈ l := by
  obtain ⟨b, hb, d, hd, -, -, habove⟩ := h.stop hne
  refine exists_mem_of_ne_nil l fun hnil => ?_
  rw [hnil, length_nil, hfits b hb d hd] at habove
  exact Bool.false_ne_true habove

include dag hpast hhighest h hfits in
/-- The block reached, if it is above the common block, is not in the past of `low`. -/
lemma not_inPast_reached (hlow : low ∈ blocks) (hne : common ≠ reached) :
    ¬InPast m.Parent reached low := by
  intro hin
  by_cases hend : reached = high
  · subst hend
    rcases hin.eq_or_past with rfl | hlt
    · -- then all three blocks are the same
      have hdown := hhighest.2.2 reached ReflTransGen.refl ReflTransGen.refl
      rcases hdown.inPast.eq_or_past with h | h
      · exact hne h.symm
      · exact dag.not_past_self hlow (h.trans_inPast hhighest.1.inPast)
    · exact hpast hlt
  · obtain ⟨x, hx⟩ := exists_mem_of_stop h hfits hend
    obtain ⟨hxr, hnot⟩ := (h.collected.mem_iff x).mp hx
    exact hnot (hxr.inPast.trans hin)

include hpast hhighest h hfits in
/-- The block reached is above the common block unless `low` is `high`. -/
lemma common_ne_reached (hne : low ≠ high) : common ≠ reached := by
  rintro rfl
  have hend : common ≠ high := by
    rintro rfl
    rcases hhighest.1.inPast.eq_or_past with h | h
    · exact hne h.symm
    · exact hpast h
  obtain ⟨x, hx⟩ := exists_mem_of_stop h hfits hend
  obtain ⟨hxc, hnot⟩ := (h.collected.mem_iff x).mp hx
  exact hnot (hxc.inPast.trans hhighest.1.inPast)

include dag in
lemma Collected.push (h : Collected m low reached l) (hmem : reached ∈ blocks)
    (hnot : ¬InPast m.Parent reached low) :
    (l ++ [reached]).Nodup ∧ Topological m (l ++ [reached]) ∧
      ∀ x, x ∈ l ++ [reached] ↔ InPast m.Parent x reached ∧ ¬InPast m.Parent x low := by
  have htopological : Topological m (l ++ [reached]) := by
    refine pairwise_append.mpr ⟨h.topological, pairwise_singleton _ _, ?_⟩
    intro x hx y hy hin
    rw [mem_singleton.mp hy] at hin
    exact dag.not_past_self hmem (hin.trans_past ((h.mem_iff x).mp hx).1)
  refine ⟨htopological.nodup, htopological, fun x => ?_⟩
  rw [mem_append, h.mem_iff, mem_singleton]
  constructor
  · rintro (⟨hx, hlow⟩ | rfl)
    · exact ⟨hx.inPast, hlow⟩
    · exact ⟨InPast.refl _, hnot⟩
  · rintro ⟨hx, hlow⟩
    rcases hx.eq_or_past with rfl | hx
    · exact .inr rfl
    · exact .inl ⟨hx, hlow⟩

end reached

/-- The function walks up the chain of `high` from the highest common chain block. -/
lemma antipastHashesBetween_returns (dag : s.ghostdagStore.MergedDag blocks)
    (hserves : s.reachabilityService.Serves s.ghostdagStore blocks) {low high : Hash}
    (hlow : low ∈ blocks) (hhigh : high ∈ blocks) (maxBlocks : Option ℕ)
    (hmax : ∀ max, maxBlocks = some max → s.mergesetSizeLimit.upperBound ≤ max) :
    ∃ common ∈ blocks, ∃ l reached, IsHighestCommon s.ghostdagStore low high common ∧
      Walked s.ghostdagStore blocks low high maxBlocks common l reached ∧
      Fuel.Returns (fun fuel => s.antipastHashesBetween fuel low high maxBlocks)
        (if common = reached then l else l ++ [reached], reached) := by
  set m := s.ghostdagStore with hm
  obtain ⟨common, hcommon, hhighest, enough, hfind⟩ :=
    findHighestCommonChainBlock_spec dag hserves hhigh hlow
  obtain ⟨chain, hchain⟩ := hhighest.2.1.exists_chainUp
  have hstart : Collected m low common [] := by
    refine ⟨nodup_nil, fun x => ⟨fun h => absurd h not_mem_nil, fun h => ?_⟩, List.Pairwise.nil⟩
    exact absurd (h.1.inPast.trans hhighest.1.inPast) h.2
  have hassert : aboveMaxBlocks maxBlocks s.mergesetSizeLimit.upperBound = false := by
    cases maxBlocks with
    | none => rfl
    | some max => exact decide_eq_false (not_lt.mpr (hmax max rfl))
  obtain ⟨l, reached, hloop, h⟩ :=
    collectMergesets_spec hm.symm dag hlow maxBlocks hchain hcommon [] hstart
      (aboveMaxBlocks_of_le hassert (zero_le _))
  refine ⟨common, hcommon, l, reached, hhighest, h, ?_⟩
  obtain ⟨dc, hdc⟩ := dag.getData_some common hcommon
  obtain ⟨dh, hdh⟩ := dag.getData_some high hhigh
  have hscore : dc.blueScore ≤ dh.blueScore := by
    have h := dag.chainTree.blueScore_le_of_onChain hhighest.2.1 hcommon
    rwa [GhostdagManager.blueScore, GhostdagManager.blueScore, hdc, hdh] at h
  refine ⟨enough + chain.length + 1, fun fuel hfuel => ?_⟩
  have hforward := dag.chainTree.forwardChain_eq hserves hhigh hchain hcommon fuel (by omega)
  simp only [antipastHashesBetween, hassert, hfind fuel (by omega), getBlueScore, ← hm, hdc, hdh,
    hforward, some_bind_eq, map_some, Bool.false_eq_true,
    if_false, drop_one, tail_cons, hloop, Option.pure_def]
  rw [if_neg (not_lt.mpr hscore)]
  split_ifs <;> rfl

/-- With mergesets within the limit, and `high` not in the past of `low`, the function returns the
past of the highest chain block reached together with that block, without the past of `low` and
`low` itself: each block once, in topological order. -/
theorem antipastHashesBetween_exact (dag : s.ghostdagStore.MergedDag blocks)
    (hserves : s.reachabilityService.Serves s.ghostdagStore blocks)
    (hlimit : ∀ b ∈ blocks, ∀ d, s.ghostdagStore.getData b = some d →
      d.mergesetSize ≤ s.mergesetSizeLimit.upperBound)
    {low high : Hash} (hlow : low ∈ blocks) (hhigh : high ∈ blocks)
    (hpast : ¬Past s.ghostdagStore.Parent high low) (maxBlocks : Option ℕ)
    (hmax : ∀ max, maxBlocks = some max → s.mergesetSizeLimit.upperBound ≤ max) : ∃ hashes reached,
      Fuel.Returns (fun fuel => s.antipastHashesBetween fuel low high maxBlocks)
        (hashes, reached) ∧
      hashes.Nodup ∧ Topological s.ghostdagStore hashes ∧
      (∀ x, x ∈ hashes ↔ InPast s.ghostdagStore.Parent x reached ∧
        ¬InPast s.ghostdagStore.Parent x low) ∧
      s.ghostdagStore.OnChain reached high ∧ (maxBlocks = none → reached = high) ∧
      (low ≠ high → ∃ common, IsHighestCommon s.ghostdagStore low high common ∧
        s.ghostdagStore.OnChain common reached ∧ common ≠ reached) := by
  obtain ⟨common, hcommon, l, reached, hhighest, h, hreturns⟩ :=
    antipastHashesBetween_returns dag hserves hlow hhigh maxBlocks hmax
  set m := s.ghostdagStore
  have hfits : ∀ b ∈ blocks, ∀ d, m.getData b = some d →
      aboveMaxBlocks maxBlocks (0 + d.mergesetSize) = false := by
    intro b hb d hd
    have hle := hlimit b hb d hd
    cases maxBlocks with
    | none => rfl
    | some max =>
      have := hmax max rfl
      exact decide_eq_false (by omega)
  refine ⟨_, reached, hreturns, ?_⟩
  have hend : maxBlocks = none → reached = high := by
    rintro rfl
    by_contra hne
    obtain ⟨b, hb, d, hd, -, -, habove⟩ := h.stop hne
    exact Bool.false_ne_true habove
  have habove : low ≠ high → ∃ common, IsHighestCommon m low high common ∧
      m.OnChain common reached ∧ common ≠ reached := fun hne =>
    ⟨common, hhighest, h.up, common_ne_reached hpast hhighest h hfits hne⟩
  by_cases heq : common = reached
  · rw [if_pos heq]
    refine ⟨h.collected.nodup, h.collected.topological, fun x => ?_, h.down, hend, habove⟩
    have hin : InPast m.Parent reached low := heq ▸ hhighest.1.inPast
    rw [h.collected.mem_iff]
    exact ⟨fun h => absurd (h.1.inPast.trans hin) h.2, fun h => absurd (h.1.trans hin) h.2⟩
  · rw [if_neg heq]
    obtain ⟨hnodup, htop, hmem⟩ := h.collected.push dag (dag.chainTree.mem_of_onChain h.up hcommon)
      (not_inPast_reached dag hpast hhighest h hfits hlow heq)
    exact ⟨hnodup, htop, hmem, h.down, hend, habove⟩

/-! ## The limit -/

/-- Some block on the chain of `high`, above the chain of `low`, has exactly `max` blocks in its
antipast, and up to it every mergeset fits. -/
def Overfills (m : GhostdagManager) (low high : Hash) (max : ℕ) : Prop :=
  ∃ c, m.OnChain c high ∧ ¬m.OnChain c low ∧ antipastSize m low c = max ∧
    ∀ b d, m.OnChain b c → ¬m.OnChain b low → m.getData b = some d →
      antipastSize m low d.selectedParent + d.mergesetSize ≤ max

section overfills

variable {low high common : Hash} (dag : m.MergedDag blocks) (hcommon : common ∈ blocks)
  (hhighest : IsHighestCommon m low high common)

include dag hcommon hhighest in
lemma not_onChain_low {b : Hash} (hb : m.OnChain b high) (hup : m.OnChain common b)
    (hne : common ≠ b) : ¬m.OnChain b low := by
  intro hlow
  rcases (hhighest.2.2 b hlow hb).inPast.eq_or_past with h | h
  · exact hne h.symm
  · exact dag.not_past_self (dag.chainTree.mem_of_onChain hup hcommon) (h.trans_inPast hup.inPast)

include dag hcommon hhighest in
/-- A chain block up to which every mergeset fits is reached. -/
lemma Walked.onChain_of_fits {reached c : Hash} {l : List Hash} {max : ℕ}
    (h : Walked m blocks low high (some max) common l reached) (hc : m.OnChain c high)
    (hfits : ∀ b d, m.OnChain b c → ¬m.OnChain b low → m.getData b = some d →
      antipastSize m low d.selectedParent + d.mergesetSize ≤ max) : m.OnChain c reached := by
  by_cases hend : reached = high
  · exact hend ▸ hc
  obtain ⟨b, hb, d, hd, hsp, hbhigh, habove⟩ := h.stop hend
  have hnot : ¬m.OnChain b c := by
    -- otherwise the mergeset at which the loop stopped would fit
    intro hbc
    have hne : common ≠ b := by
      rintro rfl
      exact dag.not_past_self hb (TransGen.tail' h.up.inPast hsp.1)
    have hle := hfits b d hbc (not_onChain_low dag hcommon hhighest hbhigh (h.up.tail hsp) hne) hd
    obtain ⟨-, d', hd', rfl⟩ := hsp
    obtain rfl := some.inj (hd.symm.trans hd')
    rw [h.collected.length_eq] at habove
    exact absurd (of_decide_eq_true habove) (by omega)
  have hcb := (hc.total hbhigh).resolve_right hnot
  rcases hcb.cases_selectedParent hsp with rfl | hcr
  · exact absurd .refl hnot
  · exact hcr

end overfills

/-- The limit is respected exactly when no chain block fills it: the last chain block, which is
appended after the loop, is not counted against it. -/
theorem antipastHashesBetween_le_iff (dag : s.ghostdagStore.MergedDag blocks)
    (hserves : s.reachabilityService.Serves s.ghostdagStore blocks) {low high : Hash}
    (hlow : low ∈ blocks) (hhigh : high ∈ blocks) {max : ℕ}
    (hmax : s.mergesetSizeLimit.upperBound ≤ max) : ∃ hashes reached,
      Fuel.Returns (fun fuel => s.antipastHashesBetween fuel low high (some max))
        (hashes, reached) ∧
      (hashes.length ≤ max ↔ ¬Overfills s.ghostdagStore low high max) := by
  obtain ⟨common, hcommon, l, reached, hhighest, h, hreturns⟩ := antipastHashesBetween_returns
    dag hserves hlow hhigh (some max) fun _ h => some.inj h ▸ hmax
  set m := s.ghostdagStore
  refine ⟨_, reached, hreturns, ?_⟩
  have hle : l.length ≤ max := not_lt.mp (of_decide_eq_false h.length)
  have hlength := h.collected.length_eq
  constructor
  · rintro hhashes ⟨c, hc, hnot, hsize, hfits⟩
    have hcr := h.onChain_of_fits dag hcommon hhighest hc hfits
    have hne : common ≠ reached := by
      rintro rfl
      exact hnot (hcr.trans hhighest.1)
    have hgrow := h.collected.size_le hcr
    rw [if_neg hne, length_append, length_singleton] at hhashes
    omega
  · intro hover
    split_ifs with heq
    · exact hle
    · rw [length_append, length_singleton]
      refine lt_of_le_of_ne hle fun hfull => hover ⟨reached, h.down, ?_, ?_, ?_⟩
      · exact not_onChain_low dag hcommon hhighest h.down h.up heq
      · rw [← hlength, hfull]
      · intro b d hb hnot hd
        have hbelow := h.fits b d hb (fun hbc => hnot (hbc.trans hhighest.1)) hd
        exact not_lt.mp (of_decide_eq_false hbelow)

/-! ## Small DAGs -/

/-- A sync manager over the stores of a DAG, with mergesets of at most three blocks. -/
def overStore (m : GhostdagManager) : SyncManager := ⟨.newConst 3, m.chainService 20, m⟩

lemma diamond_serves : (overStore diamond).reachabilityService.Serves diamond {4, 3, 2, 1} :=
  built_diamond.storeInv.chainService_serves (by decide +kernel)

theorem diamond_le_iff : ∃ hashes reached,
    Fuel.Returns (fun fuel => (overStore diamond).antipastHashesBetween fuel 1 4 (some 3))
      (hashes, reached) ∧ (hashes.length ≤ 3 ↔ ¬Overfills diamond 1 4 3) :=
  antipastHashesBetween_le_iff (s := overStore diamond) built_diamond.storeInv.mergedDag
    diamond_serves (by decide) (by decide) (le_refl 3)

/-- The mergesets of the diamond have at most two blocks. With a limit of two, three blocks are
returned. -/
theorem diamond_above_max : (∀ b ∈ [1, 2, 3, 4], ∀ d ∈ diamond.getData b, d.mergesetSize ≤ 2) ∧
    diamond.isDagAncestorOf 4 1 = some false ∧
    (⟨.newConst 2, diamond.chainService 20, diamond⟩ : SyncManager).antipastHashesBetween 20 1 4
      (some 2) = some ([3, 2, 4], 4) := by
  decide +kernel

/-- From one side of the diamond to its top, only the other side is missing. -/
theorem diamond_antipast : ∃ hashes reached,
    Fuel.Returns (fun fuel => (overStore diamond).antipastHashesBetween fuel 2 4 (some 3))
      (hashes, reached) ∧
    hashes.Nodup ∧ Topological diamond hashes ∧
    (∀ x, x ∈ hashes ↔ InPast diamond.Parent x reached ∧ ¬InPast diamond.Parent x 2) ∧
    diamond.OnChain reached 4 := by
  have inv := built_diamond.storeInv
  have hlimit : ∀ b ∈ ({4, 3, 2, 1} : Finset Hash), ∀ d, diamond.getData b = some d →
      d.mergesetSize ≤ 3 := by
    intro b hb d hd
    have hsize : ∀ b ∈ ({4, 3, 2, 1} : Finset Hash),
        ((diamond.getData b).map GhostdagData.mergesetSize).getD 0 ≤ 3 := by decide +kernel
    have h := hsize b hb
    rwa [hd] at h
  have hpast : ¬Past diamond.Parent 4 2 := fun h =>
    mt (inv.inPast_iff (by decide) (by decide)).mp (by decide +kernel) h.inPast
  obtain ⟨hashes, reached, hreturns, hnodup, htop, hmem, hchain, -⟩ :=
    antipastHashesBetween_exact (s := overStore diamond) inv.mergedDag diamond_serves hlimit
      (by decide : (2 : Hash) ∈ ({4, 3, 2, 1} : Finset Hash)) (by decide) hpast (some 3)
      (fun max h => some.inj h ▸ le_refl 3)
  exact ⟨hashes, reached, hreturns, hnodup, htop, hmem, hchain⟩

/-- The block `4` has the parents `3` and `2`, where `2` is the parent of `3`. -/
def relatedChain : Option GhostdagManager :=
  [⟨2, [1], 1, 0x207fffff⟩, ⟨3, [2], 1, 0x207fffff⟩, ⟨4, [3, 2], 1, 0x207fffff⟩].foldlM
    (addBlock 20) (fromGenesis ⟨1, [], 0, 0x207fffff⟩ (ForkedParam.newConst 1) 0)

/-- Where the parents of a block are related, a block is returned twice; where headers have no work
(bits `0`) or blue work wraps, the block `5` is returned before its parent `9`. -/
theorem antipastHashesBetween_wrong :
    (relatedChain.bind fun m => (overStore m).antipastHashesBetween 20 1 4 none) =
      some ([2, 3, 2, 4], 4) ∧
    ∀ bits ∈ [0, 0x09010000], ((mergedChain bits).bind fun m => m.getParents 5) = some [9] ∧
      ((mergedChain bits).bind fun m => (overStore m).antipastHashesBetween 20 1 7 none) =
        some ([20, 5, 9, 7], 7) := by
  decide +kernel

end SyncManager

end LapisMonetae.Sync
