import LapisMonetae.Ghostdag.RunTheorems

/-!
# The coloring is greedy

A block of the mergeset is colored blue exactly when the blues collected before it, those of the
whole past with the ones accepted so far, stay a `k`-cluster with it. The check looks at a part of
the selected chain only, and not even at that once `k + 1` blues are merged.
-/

namespace LapisMonetae.Ghostdag
namespace GhostdagManager

open Dag Classical List

variable {m : GhostdagManager} {blocks : Finset Hash}
variable {blues : Finset Hash} {sp : Hash} {l merged parents : List Hash} {k : ℕ}

/-! ## The size shortcut -/

/-- Over an antichain of parents, the merged blocks are in the anticone of the selected parent. -/
lemma OrderedMergeset.anticone {x : Hash} (h : m.OrderedMergeset parents sp merged)
    (hvalid : m.ValidParents blocks parents) (hsp : sp ∈ parents) (hx : x ∈ merged) :
    Anticone m.Parent sp x := by
  obtain ⟨⟨p, hp, hpast⟩, hnot⟩ := (h.mem_iff x).mp hx
  refine ⟨fun hin => hnot ?_, hnot⟩
  rw [hvalid.antichain sp p hsp hp (hin.trans hpast)]
  exact hpast

section shortcut

variable {k : ℕ} {sp : Hash} {merged : List Hash} {d : GhostdagData}
  (h : m.Coloring blocks k sp merged d) (hsp : sp ∈ blocks)
  (hmerged : m.Mergeable blocks sp merged) (hbeside : ∀ x ∈ merged, Anticone m.Parent sp x)

include h hsp hmerged hbeside

omit hsp in
/-- All merged blues are in the anticone of the selected parent. -/
lemma Coloring.length_tail_le : d.mergesetBlues.tail.length ≤ m.trueAnticoneSize blocks d sp := by
  have hnodup : d.mergesetBlues.tail.Nodup := hmerged.1.sublist h.blues_sublist
  rw [← toFinset_card_of_nodup hnodup]
  refine Finset.card_le_card fun x hx => ?_
  have hx := mem_toFinset.mp hx
  have hmem := h.blues_sublist.subset hx
  refine Finset.mem_filter.mpr ⟨mem_blueSet.mpr ⟨(hmerged.2 x hmem).1, BlueOf.here ?_⟩,
    hbeside x hmem⟩
  rw [h.blues_eq]
  exact mem_cons_of_mem _ hx

/-- With `k + 1` blues merged, the selected parent has no room for another one. -/
lemma Coloring.violated_of_full (hk : k + 1 < 2 ^ 16) {blue : Hash}
    (hcandidate : Anticone m.Parent sp blue)
    (hfull : d.mergesetBlues.length % 2 ^ 16 = k + 1) :
    Violated (m.trueAnticoneSize blocks d) k (m.bluesOutside blocks blue d) := by
  have hblue : m.BlueOf d sp := BlueOf.here (by rw [h.blues_eq]; exact mem_cons_self)
  have hle := h.length_tail_le hmerged hbeside
  have hroom := h.le_k sp hblue
  have hlength : d.mergesetBlues.length = d.mergesetBlues.tail.length + 1 := by
    conv_lhs => rw [h.blues_eq]
    rfl
  refine Or.inr ⟨sp, Finset.mem_filter.mpr ⟨mem_blueSet.mpr ⟨hsp, hblue⟩, hcandidate.1⟩, ?_⟩
  rw [Nat.mod_eq_of_lt (by omega)] at hfull
  omega

end shortcut

/-! ## The coloring loop -/

section coloring

variable (inv : m.StoreInv blocks) {fuel k : ℕ} {sp : Hash} (hsp : sp ∈ blocks)
  (hfuel : m.blueScore sp + 1 < fuel) (hk : k + 1 < 2 ^ 16)
variable {d : GhostdagData} {blue : Hash}

/-- A candidate that comes after the blues is admitted where nothing is violated. -/
lemma not_violated_iff_admits (hle : ∀ y, m.BlueOf d y → m.trueAnticoneSize blocks d y ≤ k)
    (hafter : ∀ y, m.BlueOf d y → ¬InPast m.Parent blue y) :
    ¬Violated (m.trueAnticoneSize blocks d) k (m.bluesOutside blocks blue d) ↔
      Admits m.Parent k (m.blueSet blocks d) blue := by
  rw [bluesOutside_eq_anticoneIn hafter, Violated, Admits, not_or, not_lt]
  refine and_congr_right fun _ => ?_
  push Not
  refine forall₂_congr fun y hy => ?_
  have hsize := hle y (mem_blueSet.mp (Finset.mem_of_mem_filter y hy)).2
  exact ⟨fun hne => lt_of_le_of_ne hsize hne, fun hlt => hlt.ne⟩

include inv hsp hfuel hk

/-- The check of the next candidate. -/
lemma checkBlueCandidate_verdict {merged rest : List Hash} (h : m.Coloring blocks k sp merged d)
    (hmergeable : m.Mergeable blocks sp (merged ++ blue :: rest))
    (hbeside : ∀ x ∈ merged ++ blue :: rest, Anticone m.Parent sp x) :
    Verdict (m.trueAnticoneSize blocks d) k (m.bluesOutside blocks blue d)
      (m.checkBlueCandidate fuel d blue k) := by
  rw [checkBlueCandidate]
  split
  case isTrue hfull =>
    refine Or.inl ⟨rfl, h.violated_of_full hsp hmergeable.left (fun x hx => ?_) hk ?_ hfull⟩
    · exact hbeside x (mem_append_left _ hx)
    · exact hbeside blue (by simp)
  case isFalse =>
    exact checkChain_verdict inv h hsp hmergeable.left hfuel (hmergeable.2 _ (by simp)).1

/-- The coloring loop accepts the blocks that the greedy rule accepts. -/
lemma colorMergeset_greedy (rest : List Hash) : ∀ merged d d',
    m.Mergeable blocks sp (merged ++ rest) →
    (merged ++ rest).Pairwise (fun a b => m.key a < m.key b) →
    (∀ x ∈ merged ++ rest, Anticone m.Parent sp x) →
    m.Coloring blocks k sp merged d → m.colorMergeset fuel k rest d = some d' →
    d'.mergesetBlues = d.mergesetBlues ++ greedyCluster m.Parent k (m.blueSet blocks d) rest := by
  induction rest with
  | nil =>
    intro merged d d' _ _ _ _ hcolor
    obtain rfl := Option.some.inj hcolor
    rw [greedyCluster, append_nil]
  | cons blue rest ih =>
    intro merged d d' hmergeable hsorted hbeside h hcolor
    have hcandidate := (hmergeable.2 blue (by simp)).1
    have hafter := h.after_blues inv hsp hmergeable hsorted
    have hverdict := checkBlueCandidate_verdict inv hsp hfuel hk h hmergeable hbeside
    have hadmits := not_violated_iff_admits (k := k) h.le_k fun y hy => (hafter y hy).2
    have happend : merged ++ blue :: rest = merged ++ [blue] ++ rest := by
      rw [append_assoc, singleton_append]
    rw [happend] at hmergeable hsorted hbeside
    rw [colorMergeset] at hcolor
    rw [greedyCluster]
    rcases hverdict with ⟨hred, hviolated⟩ | ⟨n, sizes, hblue, htracked⟩
    · rw [hred] at hcolor
      have hset : m.blueSet blocks (d.addRed blue) = m.blueSet blocks d :=
        blueSet_congr rfl rfl
      rw [if_neg fun hadm => hadmits.mpr hadm hviolated, ← hset]
      exact ih _ _ _ hmergeable hsorted hbeside (h.addRed blue) hcolor
    · rw [hblue] at hcolor
      have hnext := ih _ _ _ hmergeable hsorted hbeside (h.addBlue hcandidate
        (fun x hx => (hafter x hx).1) (fun x hx => (hafter x hx).2) htracked) hcolor
      rw [if_pos (hadmits.mp htracked.not_violated), hnext, blueSet_addBlue hcandidate,
        GhostdagData.addBlue, append_assoc, singleton_append]

end coloring

/-! ## The protocol -/

lemma Coloring.mem_mergesetReds_iff {d : GhostdagData} (h : m.Coloring blocks k sp merged d)
    (hmerged : m.Mergeable blocks sp merged) (x : Hash) :
    x ∈ d.mergesetReds ↔ x ∈ merged ∧ x ∉ d.mergesetBlues := by
  have hnodup := nodup_append.mp (h.perm.nodup_iff.mpr hmerged.1)
  have hblues : x ∈ d.mergesetBlues ↔ x = sp ∨ x ∈ d.mergesetBlues.tail := by
    conv_lhs => rw [h.blues_eq]
    exact mem_cons
  rw [hblues, ← h.perm.mem_iff, mem_append]
  constructor
  · intro hx
    refine ⟨Or.inr hx, not_or.mpr ⟨?_, fun htail => hnodup.2.2 x htail x hx rfl⟩⟩
    rintro rfl
    exact (hmerged.2 x (h.reds_sublist.subset hx)).2 (InPast.refl x)
  · rintro ⟨hx | hx, hnot⟩
    · exact absurd (Or.inr hx) hnot
    · exact hx

/-- For every DAG that was built and every further block with valid parents, `ghostdag` returns,
and it colors the ordered mergeset by the greedy rule: starting from the selected parent and its
blue set, a block is blue exactly when it keeps the blues collected so far a `k`-cluster. -/
theorem Built.mergesetBlues_greedy (h : Built m blocks) {parents : List Hash}
    (hvalid : m.ValidParents blocks parents)
    (hk : ∀ sp, m.findSelectedParent parents = some sp → m.kOf sp + 1 < 2 ^ 16) :
    ∃ d merged, Fuel.Returns (fun fuel => m.ghostdag fuel parents) d ∧ Fuel.Returns (fun fuel =>
        m.orderedMergesetWithoutSelectedParent fuel d.selectedParent parents) merged ∧
      d.mergesetBlues = d.selectedParent :: greedyCluster m.Parent (m.kOf d.selectedParent)
        (m.blueSet blocks (GhostdagData.newWithSelectedParent d.selectedParent)) merged ∧
      ∀ x, x ∈ d.mergesetReds ↔ x ∈ merged ∧ x ∉ d.mergesetBlues := by
  have inv := h.storeInv
  obtain ⟨sp, hspMem, hfind, -⟩ := inv.workDag.findSelectedParent_spec hvalid
  have hsp := hvalid.mem_blocks sp hspMem
  have hne := inv.ne_origin hsp
  obtain ⟨d, ⟨enough, hreturns⟩, -⟩ := ghostdag_spec inv hvalid hk
  -- a fuel with which every loop ends
  let fuel := enough + parents.length + blocks.card + m.blueScore sp + 2
  obtain ⟨-, merged, colored, parentData, works, hmerged, hcolor, -, -, hd⟩ :=
    ghostdag_eq_some (hreturns fuel (by omega)) hfind hne
  obtain ⟨merged', hmerged', hordered⟩ := orderedMergeset_spec inv.workDag hvalid hspMem
    (show parents.length + blocks.card < fuel by omega)
  obtain rfl := Option.some.inj (hmerged.symm.trans hmerged')
  have hmergeable := hordered.mergeable inv hvalid.mem_blocks hsp
  have hfuel : m.blueScore sp + 1 < fuel := by omega
  have hstart := coloring_newWithSelectedParent inv hsp
  have hgreedy := colorMergeset_greedy inv hsp hfuel (hk sp hfind) merged [] _ _ hmergeable
    hordered.sorted (fun x hx => hordered.anticone hvalid hspMem hx) hstart hcolor
  obtain ⟨colored', hcolor', hcoloring⟩ := colorMergeset_spec inv hsp hfuel merged [] _ hmergeable
    hordered.sorted hstart
  obtain rfl := Option.some.inj (hcolor.symm.trans hcolor')
  have hblues : d.mergesetBlues = colored.mergesetBlues := by
    rw [hd]
    rfl
  have hreds : d.mergesetReds = colored.mergesetReds := by
    rw [hd]
    rfl
  have hspEq : d.selectedParent = sp :=
    (congrArg GhostdagData.selectedParent hd).trans hcoloring.selectedParent_eq
  refine ⟨d, merged, ⟨enough, hreturns⟩, ?_, ?_, fun x => ?_⟩
  · rw [hspEq]
    exact (orderedMergeset_stable sp parents).returns hmerged
  · rw [hspEq, hblues, hgreedy]
    rfl
  · rw [hreds, hblues]
    exact hcoloring.mem_mergesetReds_iff hmergeable x

/-- Over the two sides of the diamond, `k = 1` has room for the merged side. -/
theorem diamondSides_greedy :
    ∃ d merged, Fuel.Returns (fun fuel => diamondSides.ghostdag fuel [2, 3]) d ∧
      Fuel.Returns (fun fuel => diamondSides.orderedMergesetWithoutSelectedParent fuel
        d.selectedParent [2, 3]) merged ∧
      d.mergesetBlues = d.selectedParent :: greedyCluster diamondSides.Parent
        (diamondSides.kOf d.selectedParent) (diamondSides.blueSet {3, 2, 1}
          (GhostdagData.newWithSelectedParent d.selectedParent)) merged ∧
      ∀ x, x ∈ d.mergesetReds ↔ x ∈ merged ∧ x ∉ d.mergesetBlues := by
  refine built_diamondSides.mergesetBlues_greedy validParents_diamondSides fun sp hsp => ?_
  have hfind : diamondSides.findSelectedParent [2, 3] = some 3 := by decide +kernel
  obtain rfl := Option.some.inj (hfind.symm.trans hsp)
  decide +kernel

/-! ## DAGs outside of the conditions -/

/-- Whether `a` is in the past of `b`, by at most `n` steps. -/
def reaches (m : GhostdagManager) : ℕ → Hash → Hash → Bool
  | 0, a, b => decide (a = b)
  | n + 1, a, b => decide (a = b) || ((m.getParents b).getD []).any (reaches m n a)

lemma inPast_of_reaches : ∀ n {a b : Hash}, m.reaches n a b = true → InPast m.Parent a b := by
  intro n
  induction n with
  | zero =>
    intro a b h
    rw [of_decide_eq_true h]
    exact InPast.refl b
  | succ n ih =>
    intro a b h
    rw [reaches, Bool.or_eq_true, any_eq_true] at h
    rcases h with h | ⟨p, hp, h⟩
    · rw [of_decide_eq_true h]
      exact InPast.refl b
    · cases hps : m.getParents b with
      | none =>
        rw [hps] at hp
        exact absurd hp not_mem_nil
      | some ps =>
        rw [hps] at hp
        exact (ih h).trans (InPast.of_parent ⟨ps, hps, hp⟩)

/-- The blocks of a list that may be in the anticone of `x`. -/
def unrelated (m : GhostdagManager) (blues : List Hash) (x : Hash) : List Hash :=
  (blues.filter fun y => !m.reaches 20 x y && !m.reaches 20 y x).dedup

lemma anticoneIn_subset_unrelated (hl : ∀ y ∈ blues, y ∈ l) (x : Hash) :
    anticoneIn m.Parent blues x ⊆ (m.unrelated l x).toFinset := by
  intro y hy
  obtain ⟨hmem, hxy, hyx⟩ := Finset.mem_filter.mp hy
  rw [mem_toFinset, unrelated, mem_dedup, mem_filter, Bool.and_eq_true,
    Bool.not_eq_true', Bool.not_eq_true', Bool.eq_false_iff, Bool.eq_false_iff]
  exact ⟨hl y hmem, fun h => hxy (inPast_of_reaches 20 h), fun h => hyx (inPast_of_reaches 20 h)⟩

/-- A bound on the blues that may be in the anticones is enough to admit a block. -/
lemma admits_of_unrelated (hl : ∀ y ∈ blues, y ∈ l) {c : Hash} (hc : (m.unrelated l c).length ≤ k)
    (hothers : ∀ y ∈ m.unrelated l c, (m.unrelated l y).length < k) :
    Admits m.Parent k blues c := by
  have hcard : ∀ x, (anticoneIn m.Parent blues x).card ≤ (m.unrelated l x).length := fun x =>
    (Finset.card_le_card (anticoneIn_subset_unrelated hl x)).trans (toFinset_card_le _)
  refine ⟨(hcard c).trans hc, fun y hy => (hcard y).trans_lt (hothers y ?_)⟩
  exact mem_toFinset.mp (anticoneIn_subset_unrelated hl c hy)

/-- The blues collected before a block of the mergeset: the selected parent with its blue set, and
the blocks before that are blue. -/
noncomputable def collected (m : GhostdagManager) (blocks : Finset Hash) (d : GhostdagData)
    (before : List Hash) : Finset Hash :=
  m.blueSet blocks (GhostdagData.newWithSelectedParent d.selectedParent) ∪
    (before.filter fun x => x ∈ d.mergesetBlues).toFinset

/-- `ghostdag` over the stores of a run colors `c` red, although the blues collected before it
stay a `k`-cluster with it. -/
def RejectsAdmitted (run : Option GhostdagManager) (parents : List Hash) : Prop :=
  ∃ m d before c after, run = some m ∧ m.ghostdag 20 parents = some d ∧
    m.orderedMergesetWithoutSelectedParent 20 d.selectedParent parents =
      some (before ++ c :: after) ∧
    c ∈ d.mergesetReds ∧
    ∀ blocks, Admits m.Parent (m.kOf d.selectedParent) (m.collected blocks d before) c

/-- The same as a computation, for the mergeset split at `c`. -/
def rejectsAdmitted (run : Option GhostdagManager) (parents before : List Hash) (c : Hash) :
    Option Bool := do
  let m ← run
  let d ← m.ghostdag 20 parents
  let merged ← m.orderedMergesetWithoutSelectedParent 20 d.selectedParent parents
  let blues ← m.chainBlues 20 (GhostdagData.newWithSelectedParent d.selectedParent)
  let l := blues ++ before.filter fun x => x ∈ d.mergesetBlues
  let k := m.kOf d.selectedParent
  return decide (merged.take (before.length + 1) = before ++ [c] ∧ c ∈ d.mergesetReds ∧
    (m.unrelated l c).length ≤ k ∧ ∀ y ∈ m.unrelated l c, (m.unrelated l y).length < k)

lemma RejectsAdmitted.of_computed {run : Option GhostdagManager} (before : List Hash) (c : Hash)
    (h : rejectsAdmitted run parents before c = some true) : RejectsAdmitted run parents := by
  obtain ⟨m, hm, h⟩ := Option.bind_eq_some_iff.mp h
  obtain ⟨d, hd, h⟩ := Option.bind_eq_some_iff.mp h
  obtain ⟨merged, hmerged, h⟩ := Option.bind_eq_some_iff.mp h
  obtain ⟨blues, hblues, h⟩ := Option.bind_eq_some_iff.mp h
  obtain ⟨htake, hred, hc, hothers⟩ := of_decide_eq_true (Option.some.inj h)
  refine ⟨m, d, before, c, merged.drop (before.length + 1), hm, hd, ?_, hred, fun blocks =>
    admits_of_unrelated (fun y hy => ?_) hc hothers⟩
  · rw [hmerged, ← singleton_append, ← append_assoc, ← htake, take_append_drop]
  · rw [mem_append]
    rcases Finset.mem_union.mp hy with hy | hy
    · exact Or.inl ((blueOf_iff_mem_chainBlues 20 hblues).mp (mem_blueSet.mp hy).2)
    · exact Or.inr (mem_toFinset.mp hy)

/-- A chain of two blocks, with `k = 0`. -/
def shortChain : Option GhostdagManager :=
  addBlock 20 (fromGenesis ⟨1, [], 0, 0x207fffff⟩ (ForkedParam.newConst 0) 0)
    ⟨2, [1], 1, 0x207fffff⟩

/-- The chain `9`, `5` beside the block `20`, which merges `15` and `16`. -/
def chainBesideMerge (bits : ℕ) : Option GhostdagManager :=
  [⟨9, [1], 1, bits⟩, ⟨5, [9], 1, bits⟩, ⟨15, [1], 1, bits⟩, ⟨16, [1], 1, bits⟩,
    ⟨20, [15, 16], 1, bits⟩].foldlM (addBlock 20)
    (fromGenesis ⟨1, [], 0, bits⟩ (ForkedParam.newConst 3) 0)

/-- The block `6` merges four sides under `k = 3`, and `k` falls to `2` at its score. -/
def fallingK : Option GhostdagManager :=
  [⟨2, [1], 1, 0x207fffff⟩, ⟨3, [1], 1, 0x207fffff⟩, ⟨4, [1], 1, 0x207fffff⟩,
    ⟨5, [1], 1, 0x207fffff⟩, ⟨6, [2, 3, 4, 5], 10, 0x207fffff⟩,
    ⟨7, [1], 1, 0x207fffff⟩].foldlM (addBlock 20)
    (fromGenesis ⟨1, [], 0, 0x207fffff⟩ ⟨3, 2, ⟨10⟩⟩ 0)

/-- Where the parents of the new block are related, where headers have no work (bits `0`), or where
blue work wraps (bits `0x09010000`), a block that the rule admits is colored red. Where `k` falls
on the selected chain, nothing is colored: the check panics at a blue with more than `k` blues in
its anticone. -/
theorem greedy_fails_outside : RejectsAdmitted shortChain [2, 1] ∧
    (∀ bits ∈ [0, 0x09010000], RejectsAdmitted (chainBesideMerge bits) [5, 20]) ∧
    (fallingK.map fun m => (m.ghostdag 50 [6, 7]).isNone) = some true := by
  refine ⟨RejectsAdmitted.of_computed [] 1 (by decide +kernel), ?_, by decide +kernel⟩
  intro bits hbits
  simp only [mem_cons, not_mem_nil, or_false] at hbits
  rcases hbits with rfl | rfl
  · exact RejectsAdmitted.of_computed [5] 9 (by decide +kernel)
  · exact RejectsAdmitted.of_computed [20, 15] 16 (by decide +kernel)

end GhostdagManager
end LapisMonetae.Ghostdag
