import LapisMonetae.Virtual.BoundedMergeTheorems
import LapisMonetae.Virtual.SinkSearchTheorems
import Mathlib.Algebra.Order.BigOperators.Group.List
import Mathlib.Data.Finset.Lattice.Fold

/-!
# The virtual parents keep the limits

Every accepted candidate adds at most its count to the mergeset, and a rejected one is replaced by a
block of its past that is unrelated to the parents and to the other candidates. The parents stay an
antichain below the sink, and their mergeset stays within the limit.
-/

namespace LapisMonetae.Virtual

open Ghostdag GhostdagManager Depth Dag Relation Classical List Option

variable {m : GhostdagManager} {blocks : Finset Hash} {p : ParentPicker}
variable {candidate newCandidate sink : Hash} {l parents visited : List Hash}
  {maxBlockParents mergesetSizeLimit : ℕ}

/-! ## The candidates -/

lemma swap_perm {i j : ℕ} (hi : i < l.length) (hj : j < l.length) :
    ∃ l', swap l i j = some l' ∧ l'.Perm l := by
  refine ⟨(l.set i l[j]).set j l[i], ?_, set_set_perm hi hj⟩
  unfold swap
  rw [List.getElem?_eq_getElem hi, List.getElem?_eq_getElem hj]
  rfl

lemma swapRandomly_perm (random : Randomness) : ∀ n i (slice : List Hash),
    i + n ≤ slice.length → ∃ slice', swapRandomly random n i slice = some slice' ∧
      slice'.Perm slice := by
  intro n
  induction n with
  | zero => exact fun i slice _ => ⟨slice, rfl, List.Perm.refl _⟩
  | succ n ih =>
    intro i slice hle
    have hi : i < slice.length := by omega
    obtain ⟨-, hj⟩ := random.genRange_mem i slice.length hi
    obtain ⟨slice₁, hswap, hperm₁⟩ := swap_perm hi hj
    obtain ⟨slice₂, hrest, hperm₂⟩ := ih (i + 1) slice₁ (by rw [hperm₁.length_eq]; omega)
    refine ⟨slice₂, ?_, hperm₂.trans hperm₁⟩
    rw [swapRandomly, hswap]
    exact hrest

/-- The considered candidates are some of the given ones, in another order. -/
lemma chooseCandidates_subperm (random : Randomness) (maxBlockParents : ℕ)
    (candidates : List Hash) : ∃ chosen,
      chooseCandidates random maxBlockParents candidates = some chosen ∧
        chosen.Subperm candidates := by
  unfold chooseCandidates
  by_cases hmany : maxVirtualParentCandidates maxBlockParents < candidates.length
  · have hhalf : maxBlockParents / 2 ≤ maxVirtualParentCandidates maxBlockParents := by
      unfold maxVirtualParentCandidates
      omega
    obtain ⟨slice, hslice, hperm⟩ := swapRandomly_perm random
      (maxVirtualParentCandidates maxBlockParents - maxBlockParents / 2) (maxBlockParents / 2)
      candidates (by omega)
    refine ⟨slice.take (maxVirtualParentCandidates maxBlockParents), ?_,
      (take_sublist _ _).subperm.trans hperm.subperm⟩
    simp only [if_pos hmany, hslice, some_bind_eq, Option.pure_def]
  · simp only [if_neg hmany]
    by_cases hsome : maxBlockParents / 2 < candidates.length
    · refine ⟨_, if_pos hsome, List.Perm.subperm ?_⟩
      have hshuffle := random.shuffle_perm (candidates.drop (maxBlockParents / 2))
      exact (hshuffle.append_left _).trans (List.Perm.of_eq (take_append_drop _ _))
    · exact ⟨candidates, if_neg hsome, List.Subperm.refl _⟩

/-! ## The size of the mergeset -/

/-- The blocks that a candidate adds to the mergeset of the parents. -/
noncomputable def addedBy (m : GhostdagManager) (blocks : Finset Hash) (parents : List Hash)
    (candidate : Hash) : Finset Hash :=
  blocks.filter fun x => InPast m.Parent x candidate ∧ ¬InPastOf m parents x

/-- What `mergeset_increase` finds out about a candidate. -/
def IncreaseSound (m : GhostdagManager) (blocks : Finset Hash) (parents : List Hash)
    (candidate : Hash) (budget : ℕ) : MergesetIncreaseResult → Prop
  | .accepted increaseSize =>
    increaseSize ≤ budget ∧ (addedBy m blocks parents candidate).card ≤ increaseSize
  | .rejected newCandidate => newCandidate ∈ blocks ∧ Past m.Parent newCandidate candidate ∧
    ¬InPastOf m parents newCandidate

/-- The inner loop queues the parents that are new. -/
lemma ParentPicker.visitParents_spec (ps : List Hash) : ∀ queue visited : List Hash,
    ∃ new, ParentPicker.visitParents ps (queue, visited) = (queue ++ new, new.reverse ++ visited) ∧
      new.Nodup ∧ ∀ v, v ∈ new ↔ v ∈ ps ∧ v ∉ visited := by
  induction ps with
  | nil => exact fun queue visited => ⟨[], by simp [visitParents], nodup_nil, by simp⟩
  | cons q ps ih =>
    intro queue visited
    rw [ParentPicker.visitParents]
    by_cases hq : q ∈ visited
    · rw [if_pos hq]
      obtain ⟨new, heq, hnodup, hnew⟩ := ih queue visited
      refine ⟨new, heq, hnodup, fun v => ?_⟩
      rw [hnew, mem_cons]
      grind
    · rw [if_neg hq]
      obtain ⟨new, heq, hnodup, hnew⟩ := ih (queue ++ [q]) (q :: visited)
      have hout : q ∉ new := fun h => ((hnew q).mp h).2 mem_cons_self
      refine ⟨q :: new, by simpa using heq, nodup_cons.mpr ⟨hout, hnodup⟩, fun v => ?_⟩
      rw [mem_cons, hnew, mem_cons, mem_cons]
      grind

/-- The search below a candidate: `counted` are the visited blocks that left the queue and are not in
the past of the parents. -/
structure IncreaseInv (m : GhostdagManager) (blocks : Finset Hash) (parents : List Hash)
    (candidate : Hash) (queue visited : List Hash) (counted : Finset Hash) : Prop where
  below : ∀ x ∈ visited, x ∈ blocks ∧ Past m.Parent x candidate
  queued : ∀ x ∈ queue, x ∈ visited
  started : ∀ x, m.Parent x candidate → x ∈ visited
  done : ∀ x ∈ visited, x ∈ queue ∨ InPastOf m parents x ∨ x ∈ counted
  closed : ∀ x ∈ counted, ∀ v, m.Parent v x → v ∈ visited

/-- When the queue is empty, everything that the candidate adds is counted. -/
lemma IncreaseInv.card_le {counted : Finset Hash}
    (h : IncreaseInv m blocks parents candidate [] visited counted) :
    (addedBy m blocks parents candidate).card ≤ counted.card + 1 := by
  have hcounted : ∀ x ∈ visited, ¬InPastOf m parents x → x ∈ counted := by
    intro x hx hout
    rcases h.done x hx with h | h | h
    · exact absurd h not_mem_nil
    · exact absurd h hout
    · exact h
  have hpast : ∀ x, Past m.Parent x candidate → ¬InPastOf m parents x → x ∈ counted := by
    intro x hpath
    -- the blocks on the path to the candidate are outside of the past of the parents too
    induction hpath using TransGen.head_induction_on with
    | single hx => exact hcounted _ (h.started _ hx)
    | head hstep _ ih =>
      intro hout
      have hnext := ih fun ⟨q, hq, hpast⟩ => hout ⟨q, hq, ReflTransGen.head hstep hpast⟩
      exact hcounted _ (h.closed _ hnext _ hstep) hout
  have hsub : addedBy m blocks parents candidate ⊆ insert candidate counted := by
    intro x hx
    obtain ⟨-, hpath, hout⟩ := Finset.mem_filter.mp hx
    rcases hpath.eq_or_past with rfl | hpath
    · exact Finset.mem_insert_self _ _
    · exact Finset.mem_insert_of_mem (hpast x hpath hout)
  exact (Finset.card_le_card hsub).trans (Finset.card_insert_le _ _)

/-- What is left to visit shrinks by the new blocks. -/
lemma card_unvisited {new : List Hash} (hnodup : new.Nodup)
    (hnew : ∀ v ∈ new, v ∈ blocks ∧ v ∉ visited) :
    (blocks \ (new.reverse ++ visited).toFinset).card + new.length =
      (blocks \ visited.toFinset).card := by
  have hset : blocks \ (new.reverse ++ visited).toFinset =
      (blocks \ visited.toFinset) \ new.toFinset := by
    ext x
    simp only [Finset.mem_sdiff, List.mem_toFinset, mem_append, mem_reverse]
    tauto
  have hsub : new.toFinset ⊆ blocks \ visited.toFinset := by
    intro x hx
    rw [Finset.mem_sdiff, List.mem_toFinset]
    exact hnew x (List.mem_toFinset.mp hx)
  rw [hset, ← toFinset_card_of_nodup hnodup]
  exact Finset.card_sdiff_add_card_eq_card hsub

section increase

variable (dag : p.ghostdagManager.WorkDag blocks) {parents : List Hash}
  (hparents : ∀ q ∈ parents, q ∈ blocks) (hne : parents ≠ []) {candidate : Hash} {budget : ℕ}

include dag hparents hne

omit dag hparents in
lemma ne_genesis_of_not_inPastOf (dag : m.WorkDag blocks) (hparents : ∀ q ∈ parents, q ∈ blocks)
    {x : Hash} (hout : ¬InPastOf m parents x) : x ≠ m.genesisHash := by
  rintro rfl
  obtain ⟨q, hq⟩ := exists_mem_of_ne_nil parents hne
  exact hout ⟨q, hq, dag.genesis_inPast (hparents q hq)⟩

/-- The search returns: the candidate fits the budget, or a block of its past is found at which the
budget ends. -/
lemma increaseLoop_spec : ∀ fuel (queue visited : List Hash) (counted : Finset Hash) n,
    IncreaseInv p.ghostdagManager blocks parents candidate queue visited counted →
    counted.card + 1 ≤ n → n ≤ budget → queue.length + (blocks \ visited.toFinset).card < fuel →
    ∃ res, IncreaseSound p.ghostdagManager blocks parents candidate budget res ∧
      ∀ f, fuel ≤ f → p.increaseLoop parents budget f queue visited n = some res := by
  intro fuel
  induction fuel with
  | zero =>
    intro queue visited counted n _ _ _ hfuel
    omega
  | succ fuel ih =>
    intro queue visited counted n inv hcount hbudget hfuel
    have hsucc : ∀ f, fuel + 1 ≤ f → ∃ g, f = g + 1 ∧ fuel ≤ g := fun f hf =>
      ⟨f - 1, by omega, by omega⟩
    cases queue with
    | nil =>
      refine ⟨.accepted n, ⟨hbudget, inv.card_le.trans hcount⟩, fun f hf => ?_⟩
      obtain ⟨f, rfl, -⟩ := hsucc f hf
      rfl
    | cons current queue =>
      have hcurrent := inv.queued current mem_cons_self
      obtain ⟨hmem, hpast⟩ := inv.below current hcurrent
      have hany := dag.isDagAncestorOfAny_eq (.inl hmem) parents hparents
      rw [length_cons] at hfuel
      by_cases hin : InPastOf p.ghostdagManager parents current
      · have inv' : IncreaseInv p.ghostdagManager blocks parents candidate queue visited counted := by
          refine ⟨inv.below, fun x hx => ?_, inv.started, fun x hx => ?_, inv.closed⟩
          · exact inv.queued x (mem_cons_of_mem _ hx)
          · rcases inv.done x hx with h | h
            · rcases mem_cons.mp h with rfl | h
              · exact .inr (.inl hin)
              · exact .inl h
            · exact .inr h
        obtain ⟨res, hsound, hloop⟩ := ih queue visited counted n inv' hcount hbudget (by omega)
        refine ⟨res, hsound, fun f hf => ?_⟩
        obtain ⟨f, rfl, hle⟩ := hsucc f hf
        rw [ParentPicker.increaseLoop, hany.trans (congrArg some (decide_eq_true hin))]
        exact hloop f hle
      · have hnone := hany.trans (congrArg some (decide_eq_false hin))
        by_cases hover : budget < n + 1
        · refine ⟨.rejected current, ⟨hmem, hpast, hin⟩, fun f hf => ?_⟩
          obtain ⟨f, rfl, -⟩ := hsucc f hf
          simp only [ParentPicker.increaseLoop, hnone, some_bind_eq,
            Bool.false_eq_true, if_false, if_pos hover, Option.pure_def]
        obtain ⟨ps, hps, hvalid, -⟩ := dag.parents current hmem
          (ne_genesis_of_not_inPastOf hne dag hparents hin)
        obtain ⟨new, hvisit, hnodup, hnew⟩ := ParentPicker.visitParents_spec ps queue visited
        have hunvisited := card_unvisited hnodup fun v hv =>
          ((hnew v).mp hv).imp_left (hvalid.mem_blocks v)
        have hcard := Finset.card_insert_le current counted
        have inv' : IncreaseInv p.ghostdagManager blocks parents candidate (queue ++ new)
            (new.reverse ++ visited) (insert current counted) := by
          refine ⟨fun x hx => ?_, fun x hx => ?_, fun x hx => ?_, fun x hx => ?_,
            fun x hx v hv => ?_⟩
          · rcases mem_append.mp hx with hx | hx
            · have hxps := ((hnew x).mp (mem_reverse.mp hx)).1
              exact ⟨hvalid.mem_blocks x hxps, TransGen.head ((parent_iff hps).mpr hxps) hpast⟩
            · exact inv.below x hx
          · rcases mem_append.mp hx with hx | hx
            · exact mem_append_right _ (inv.queued x (mem_cons_of_mem _ hx))
            · exact mem_append_left _ (mem_reverse.mpr hx)
          · exact mem_append_right _ (inv.started x hx)
          · rcases mem_append.mp hx with hx | hx
            · exact .inl (mem_append_right _ (mem_reverse.mp hx))
            · rcases inv.done x hx with h | h | h
              · rcases mem_cons.mp h with rfl | h
                · exact .inr (.inr (Finset.mem_insert_self _ _))
                · exact .inl (mem_append_left _ h)
              · exact .inr (.inl h)
              · exact .inr (.inr (Finset.mem_insert_of_mem h))
          · -- the parents of a counted block are visited
            rcases Finset.mem_insert.mp hx with rfl | hx
            · by_cases h : v ∈ visited
              · exact mem_append_right _ h
              · exact mem_append_left _
                  (mem_reverse.mpr ((hnew v).mpr ⟨(parent_iff hps).mp hv, h⟩))
            · exact mem_append_right _ (inv.closed x hx v hv)
        obtain ⟨res, hsound, hloop⟩ := ih _ _ _ (n + 1) inv' (by omega) (by omega) (by
          rw [length_append]
          omega)
        refine ⟨res, hsound, fun f hf => ?_⟩
        obtain ⟨f, rfl, hle⟩ := hsucc f hf
        simp only [ParentPicker.increaseLoop, hnone, some_bind_eq,
          Bool.false_eq_true, if_false, if_neg hover, hps, hvisit]
        exact hloop f hle

/-- `mergeset_increase` returns for a candidate that is not in the past of the parents. -/
lemma mergesetIncrease_spec (hcandidate : candidate ∈ blocks)
    (hout : ¬InPastOf p.ghostdagManager parents candidate) (hbudget : 1 ≤ budget) {enough : ℕ}
    (hfuel : ((p.ghostdagManager.getParents candidate).getD []).length + blocks.card < enough) :
    ∃ res, IncreaseSound p.ghostdagManager blocks parents candidate budget res ∧
      ∀ fuel, enough ≤ fuel → p.mergesetIncrease fuel parents candidate budget = some res := by
  obtain ⟨ps, hps, hvalid, -⟩ := dag.parents candidate hcandidate
    (ne_genesis_of_not_inPastOf hne dag hparents hout)
  have inv : IncreaseInv p.ghostdagManager blocks parents candidate ps ps ∅ := by
    refine ⟨fun x hx => ⟨hvalid.mem_blocks x hx, TransGen.single ⟨ps, hps, hx⟩⟩, fun x hx => hx,
      fun x hx => (parent_iff hps).mp hx, fun x hx => .inl hx,
      fun x hx => absurd hx (Finset.notMem_empty x)⟩
  have hcard : (blocks \ ps.toFinset).card ≤ blocks.card :=
    Finset.card_le_card Finset.sdiff_subset
  rw [hps, getD_some] at hfuel
  obtain ⟨res, hsound, hloop⟩ := increaseLoop_spec dag hparents hne enough ps ps ∅ 1 inv (by simp)
    hbudget (by omega)
  refine ⟨res, hsound, fun fuel hle => ?_⟩
  unfold ParentPicker.mergesetIncrease
  rw [hps]
  exact hloop fuel hle

end increase

/-! ## The choice of the parents -/

lemma retainOutside_eq (dag : p.ghostdagManager.WorkDag blocks) (hnew : newCandidate ∈ blocks)
    (candidates : List Hash) (hmem : ∀ h ∈ candidates, h ∈ blocks) :
    p.retainOutside newCandidate candidates = some (candidates.filter fun h =>
      decide (¬InPast p.ghostdagManager.Parent newCandidate h)) := by
  induction candidates with
  | nil => rfl
  | cons h candidates ih =>
    have hquery := dag.reachability newCandidate (.inl hnew) h (hmem h mem_cons_self)
    have hrest := ih fun z hz => hmem z (mem_cons_of_mem _ hz)
    rw [ParentPicker.retainOutside, hquery, hrest, filter_cons]
    by_cases hin : InPast p.ghostdagManager.Parent newCandidate h
    · simp [hin]
    · simp [hin]

/-- The mergeset of the parents beside the sink. -/
noncomputable def mergedBeside (m : GhostdagManager) (blocks : Finset Hash) (sink : Hash)
    (parents : List Hash) : Finset Hash :=
  blocks.filter fun x => InPastOf m parents x ∧ ¬InPast m.Parent x sink

/-- What holds in every round: the parents start with the sink, they form an antichain with the
candidates, all of them below the sink, and the size of their mergeset is at most the counter. -/
structure PickInv (m : GhostdagManager) (blocks : Finset Hash) (sink : Hash)
    (maxBlockParents mergesetSizeLimit : ℕ) (candidates parents : List Hash) (size : ℕ) :
    Prop where
  head : ∃ others, parents = sink :: others
  mem_blocks : ∀ x ∈ parents ++ candidates, x ∈ blocks
  antichain : (parents ++ candidates).Pairwise (Anticone m.Parent)
  key_lt : ∀ x ∈ parents ++ candidates, x ≠ sink → m.key x < m.key sink
  length_le : parents.length ≤ maxBlockParents
  size_le : size ≤ mergesetSizeLimit
  merged : (mergedBeside m blocks sink parents).card + 1 ≤ size

namespace PickInv

variable {sink : Hash} {maxBlockParents mergesetSizeLimit size : ℕ} {candidates parents : List Hash}

lemma sublist {candidates' : List Hash}
    (h : PickInv m blocks sink maxBlockParents mergesetSizeLimit candidates parents size)
    (hsub : candidates'.Sublist candidates) :
    PickInv m blocks sink maxBlockParents mergesetSizeLimit candidates' parents size := by
  have hsub' : (parents ++ candidates').Sublist (parents ++ candidates) :=
    (List.Sublist.refl parents).append hsub
  exact ⟨h.head, fun x hx => h.mem_blocks x (hsub'.subset hx), h.antichain.sublist hsub',
    fun x hx => h.key_lt x (hsub'.subset hx), h.length_le, h.size_le, h.merged⟩

variable {candidate : Hash}
  (h : PickInv m blocks sink maxBlockParents mergesetSizeLimit (candidate :: candidates) parents
    size)

include h

lemma candidate_mem : candidate ∈ blocks :=
  h.mem_blocks candidate (mem_append_right _ mem_cons_self)

/-- The next candidate is unrelated to the parents and to the other candidates. -/
lemma anticone : (∀ q ∈ parents, Anticone m.Parent q candidate) ∧
    ∀ c ∈ candidates, Anticone m.Parent candidate c := by
  obtain ⟨-, hcandidates, hacross⟩ := pairwise_append.mp h.antichain
  exact ⟨fun q hq => hacross q hq candidate mem_cons_self, (pairwise_cons.mp hcandidates).1⟩

lemma not_inPastOf : ¬InPastOf m parents candidate := by
  rintro ⟨q, hq, hpast⟩
  exact (h.anticone.1 q hq).2 hpast

lemma accept {increaseSize : ℕ} (hlength : parents.length < maxBlockParents)
    (hsize : size + increaseSize ≤ mergesetSizeLimit)
    (hadded : (addedBy m blocks parents candidate).card ≤ increaseSize) :
    PickInv m blocks sink maxBlockParents mergesetSizeLimit candidates (parents ++ [candidate])
      (size + increaseSize) := by
  have hlist : parents ++ [candidate] ++ candidates = parents ++ candidate :: candidates := by simp
  obtain ⟨others, hothers⟩ := h.head
  refine ⟨⟨others ++ [candidate], by rw [hothers, cons_append]⟩, hlist ▸ h.mem_blocks,
    hlist ▸ h.antichain, hlist ▸ h.key_lt, ?_, hsize, ?_⟩
  · rw [length_append, length_singleton]
    omega
  · -- a block that is new in the mergeset was added by the candidate
    have hsub : mergedBeside m blocks sink (parents ++ [candidate]) ⊆
        mergedBeside m blocks sink parents ∪ addedBy m blocks parents candidate := by
      intro x hx
      obtain ⟨hmem, ⟨q, hq, hpast⟩, hout⟩ := Finset.mem_filter.mp hx
      rw [Finset.mem_union, mergedBeside, addedBy, Finset.mem_filter, Finset.mem_filter]
      by_cases hin : InPastOf m parents x
      · exact .inl ⟨hmem, hin, hout⟩
      · rcases mem_append.mp hq with hq | hq
        · exact absurd ⟨q, hq, hpast⟩ hin
        · rw [mem_singleton.mp hq] at hpast
          exact .inr ⟨hmem, hpast, hin⟩
    have hcard := (Finset.card_le_card hsub).trans (Finset.card_union_le _ _)
    have hmerged := h.merged
    omega

lemma reject (dag : m.WorkDag blocks) {newCandidate : Hash} (hnew : newCandidate ∈ blocks)
    (hpast : Past m.Parent newCandidate candidate) (hout : ¬InPastOf m parents newCandidate) :
    (∀ c ∈ candidates, ¬InPast m.Parent c newCandidate) ∧
    PickInv m blocks sink maxBlockParents mergesetSizeLimit
      ((candidates.filter fun c => decide (¬InPast m.Parent newCandidate c)) ++ [newCandidate])
      parents size := by
  obtain ⟨hparents, hcandidates⟩ := h.anticone
  have hnot : ∀ c ∈ candidates, ¬InPast m.Parent c newCandidate := fun c hc hle =>
    (hcandidates c hc).2 (hle.trans hpast.inPast)
  obtain ⟨hanti, hanti', hacross⟩ := pairwise_append.mp h.antichain
  have hfilter : ∀ c ∈ candidates.filter fun c => decide (¬InPast m.Parent newCandidate c),
      c ∈ candidates ∧ ¬InPast m.Parent newCandidate c := by
    intro c hc
    obtain ⟨hc, hdecide⟩ := mem_filter.mp hc
    exact ⟨hc, of_decide_eq_true hdecide⟩
  have hcases : ∀ x ∈ parents ++ ((candidates.filter fun c =>
      decide (¬InPast m.Parent newCandidate c)) ++ [newCandidate]),
      x ∈ parents ++ candidate :: candidates ∨ x = newCandidate := by
    intro x hx
    rcases mem_append.mp hx with hx | hx
    · exact .inl (mem_append_left _ hx)
    · rcases mem_append.mp hx with hx | hx
      · exact .inl (mem_append_right _ (mem_cons_of_mem _ (hfilter x hx).1))
      · exact .inr (mem_singleton.mp hx)
  have hsink : candidate ≠ sink := by
    obtain ⟨others, hothers⟩ := h.head
    exact (hparents sink (hothers ▸ mem_cons_self)).ne.symm
  refine ⟨hnot, h.head, fun x hx => ?_, ?_, fun x hx hne => ?_, h.length_le, h.size_le, h.merged⟩
  · rcases hcases x hx with hx | rfl
    · exact h.mem_blocks x hx
    · exact hnew
  · rw [pairwise_append, pairwise_append]
    refine ⟨hanti, ⟨(pairwise_cons.mp hanti').2.sublist filter_sublist,
      pairwise_singleton _ _, fun c hc x hx => ?_⟩, fun q hq x hx => ?_⟩
    · rw [mem_singleton.mp hx]
      exact ⟨hnot c (hfilter c hc).1, (hfilter c hc).2⟩
    · rcases mem_append.mp hx with hx | hx
      · exact hacross q hq x (mem_cons_of_mem _ (hfilter x hx).1)
      · rw [mem_singleton.mp hx]
        exact ⟨fun hle => (hparents q hq).1 (hle.trans hpast.inPast), fun hle => hout ⟨q, hq, hle⟩⟩
  · rcases hcases x hx with hx | rfl
    · exact h.key_lt x hx hne
    · exact (dag.key_lt_of_past hpast hnew).trans
        (h.key_lt candidate (mem_append_right _ mem_cons_self) hsink)

end PickInv

/-- The rounds that are left at most: a candidate is dropped or replaced by lower ones. -/
noncomputable def roundsLeft (m : GhostdagManager) (blocks : Finset Hash)
    (candidates : List Hash) : ℕ := (candidates.map (rank m blocks)).sum

lemma rank_pos {b : Hash} (hb : b ∈ blocks) : 0 < rank m blocks b :=
  Finset.card_pos.mpr ⟨b, Finset.mem_filter.mpr ⟨hb, le_refl _⟩⟩

lemma roundsLeft_reject (hmem : candidate ∈ blocks) (hlt : m.key newCandidate < m.key candidate)
    (keep : Hash → Bool) (candidates : List Hash) :
    roundsLeft m blocks (candidates.filter keep ++ [newCandidate]) <
      roundsLeft m blocks (candidate :: candidates) := by
  unfold roundsLeft
  have hsub : ((candidates.filter keep).map (rank m blocks)).sum ≤
      (candidates.map (rank m blocks)).sum :=
    List.Sublist.sum_le_sum (filter_sublist.map _) fun _ _ => Nat.zero_le _
  have hrank := rank_lt hmem hlt
  simp only [map_append, sum_append, map_cons, sum_cons, map_nil, sum_nil]
  omega

/-- The loop ends with parents that keep the limits. -/
lemma pickLoop_spec (dag : p.ghostdagManager.WorkDag blocks) {enough : ℕ}
    (hsearch : ∀ b ∈ blocks, ((p.ghostdagManager.getParents b).getD []).length + blocks.card < enough) :
    ∀ fuel (candidates parents : List Hash) size,
      PickInv p.ghostdagManager blocks sink maxBlockParents mergesetSizeLimit candidates parents
        size →
      roundsLeft p.ghostdagManager blocks candidates < fuel →
      ∃ parents' size',
        PickInv p.ghostdagManager blocks sink maxBlockParents mergesetSizeLimit [] parents' size' ∧
        ∀ searchFuel, enough ≤ searchFuel → ∀ f, fuel ≤ f →
          p.pickLoop searchFuel maxBlockParents mergesetSizeLimit f candidates (parents, size) =
            some (parents', size') := by
  intro fuel
  induction fuel with
  | zero =>
    intro candidates parents size _ hfuel
    omega
  | succ fuel ih =>
    intro candidates parents size inv hfuel
    have hsucc : ∀ f, fuel + 1 ≤ f → ∃ g, f = g + 1 ∧ fuel ≤ g := fun f hf =>
      ⟨f - 1, by omega, by omega⟩
    cases candidates with
    | nil =>
      refine ⟨parents, size, inv, fun searchFuel _ f hf => ?_⟩
      obtain ⟨f, rfl, -⟩ := hsucc f hf
      rfl
    | cons candidate candidates =>
      by_cases hstop : mergesetSizeLimit ≤ size ∨ maxBlockParents ≤ parents.length
      · refine ⟨parents, size, inv.sublist (nil_sublist _), fun searchFuel _ f hf => ?_⟩
        obtain ⟨f, rfl, -⟩ := hsucc f hf
        rw [ParentPicker.pickLoop, if_pos hstop]
      have hroom := not_or.mp hstop
      rw [not_le, not_le] at hroom
      have hmem := inv.candidate_mem
      have hne : parents ≠ [] := by
        obtain ⟨others, rfl⟩ := inv.head
        exact cons_ne_nil _ _
      obtain ⟨res, hsound, hres⟩ := mergesetIncrease_spec dag
        (fun q hq => inv.mem_blocks q (mem_append_left _ hq)) hne hmem inv.not_inPastOf
        (show 1 ≤ mergesetSizeLimit - size by omega) (hsearch candidate hmem)
      cases res with
      | accepted increaseSize =>
        obtain ⟨hbudget, hadded⟩ := hsound
        have hpos := rank_pos (m := p.ghostdagManager) hmem
        unfold roundsLeft at hfuel
        rw [map_cons, sum_cons] at hfuel
        obtain ⟨parents', size', inv', hloop⟩ := ih candidates _ _
          (inv.accept hroom.2 (by omega) hadded) (show (candidates.map _).sum < fuel by omega)
        refine ⟨parents', size', inv', fun searchFuel hsearchFuel f hf => ?_⟩
        obtain ⟨f, rfl, hle⟩ := hsucc f hf
        simp only [ParentPicker.pickLoop, if_neg hstop, hres searchFuel hsearchFuel, some_bind_eq]
        exact hloop searchFuel hsearchFuel f hle
      | rejected newCandidate =>
        obtain ⟨hnew, hpast, hout⟩ := hsound
        obtain ⟨hnot, inv'⟩ := inv.reject dag hnew hpast hout
        have hcandidates : ∀ c ∈ candidates, c ∈ blocks := fun c hc =>
          inv.mem_blocks c (mem_append_right _ (mem_cons_of_mem _ hc))
        have hany := dag.isAnyDagAncestor_eq hnew candidates hcandidates
        have hnone : ¬∃ c ∈ candidates, InPast p.ghostdagManager.Parent c newCandidate := by
          rintro ⟨c, hc, hle⟩
          exact hnot c hc hle
        have hrounds := roundsLeft_reject hmem (dag.key_lt_of_past hpast hnew)
          (fun c => decide (¬InPast p.ghostdagManager.Parent newCandidate c)) candidates
        obtain ⟨parents', size', inv'', hloop⟩ := ih _ _ _ inv' (by omega)
        refine ⟨parents', size', inv'', fun searchFuel hsearchFuel f hf => ?_⟩
        obtain ⟨f, rfl, hle⟩ := hsucc f hf
        simp only [ParentPicker.pickLoop, if_neg hstop, hres searchFuel hsearchFuel,
          hany.trans (congrArg some (decide_eq_false hnone)), some_bind_eq,
          Bool.false_eq_true, if_false, retainOutside_eq dag hnew candidates hcandidates]
        exact hloop searchFuel hsearchFuel f hle

/-! ## The virtual parents -/

lemma validParents_of_pairwise (hne : l ≠ []) (hmem : ∀ q ∈ l, q ∈ blocks)
    (hanti : l.Pairwise (Anticone m.Parent)) : m.ValidParents blocks l := by
  have hsymm : Std.Symm (Anticone m.Parent) := ⟨fun _ _ h => h.symm⟩
  refine ⟨hne, hmem, fun a b ha hb hpast => ?_⟩
  by_contra hab
  exact (hanti.forall ha hb hab).1 hpast

/-- The first round starts from the sink. -/
lemma pickInv_start {candidates chosen : List Hash} (hsub : chosen.Subperm candidates)
    (hmax : 1 ≤ maxBlockParents) (hlimit : 1 ≤ mergesetSizeLimit)
    (hmem : ∀ x ∈ sink :: candidates, x ∈ blocks)
    (hanti : (sink :: candidates).Pairwise (Anticone m.Parent))
    (hlower : ∀ c ∈ candidates, m.key c < m.key sink) :
    PickInv m blocks sink maxBlockParents mergesetSizeLimit chosen [sink] 1 := by
  obtain ⟨l, hperm, hsublist⟩ := hsub
  have hsubset : ∀ x ∈ [sink] ++ chosen, x ∈ sink :: candidates := by
    intro x hx
    rcases mem_cons.mp hx with rfl | hx
    · exact mem_cons_self
    · exact mem_cons_of_mem _ (hsublist.subset (hperm.mem_iff.mpr hx))
  have hempty : mergedBeside m blocks sink [sink] = ∅ := by
    refine Finset.filter_eq_empty_iff.mpr fun x _ => ?_
    rintro ⟨⟨q, hq, hpast⟩, hout⟩
    exact hout (mem_singleton.mp hq ▸ hpast)
  refine ⟨⟨[], rfl⟩, fun x hx => hmem x (hsubset x hx), ?_, fun x hx hne => ?_, hmax, hlimit, ?_⟩
  · have hpairwise := hanti.sublist (hsublist.cons_cons sink)
    exact ((hperm.cons sink).pairwise_iff fun h => h.symm).mp hpairwise
  · exact hlower x ((mem_cons.mp (hsubset x hx)).resolve_left hne)
  · rw [hempty, Finset.card_empty]

/-- The size of the mergeset that `ghostdag` returns is the number of blocks in the past of the
parents and not in that of the selected parent, with the selected parent. -/
lemma mergesetSize_eq_card (dag : m.WorkDag blocks) {d : GhostdagData}
    (hvalid : m.ValidParents blocks parents) (hcol : m.Colored blocks parents d) :
    d.mergesetSize = (mergedBeside m blocks d.selectedParent parents).card + 1 := by
  obtain ⟨merged, hmerged⟩ := hcol.merged
  have hsp := hcol.parent_mem hvalid
  have hnodup : merged.Nodup := hmerged.ordered.sorted.imp fun h heq => (heq ▸ h).false
  have hset : mergedBeside m blocks d.selectedParent parents = merged.toFinset := by
    ext x
    rw [mergedBeside, Finset.mem_filter, List.mem_toFinset, hmerged.ordered.mem_iff]
    refine ⟨fun h => h.2, fun h => ⟨?_, h⟩⟩
    exact dag.mem_of_merged hvalid.mem_blocks hsp hmerged.ordered
      ((hmerged.ordered.mem_iff x).mpr h)
  rw [hset, toFinset_card_of_nodup hnodup, MergedDag.Merged.mergesetSize_eq hmerged]

/-- `pick_virtual_parents` returns for every outcome of the random choices: the sink and then other
blocks, which form a duplicate-free antichain with it, at most as many as a block may have. `ghostdag`
selects the sink among them, and their mergeset is within the limit. -/
theorem pickVirtualParents_withinLimits (inv : p.ghostdagManager.StoreInv blocks)
    (hknows : p.depthManager.Knows p.ghostdagManager blocks) (random : Randomness)
    {sink pruningPoint : Hash} {candidates : List Hash} {score : ℕ} (hpp : pruningPoint ∈ blocks)
    (hscore : p.getDaaScore sink = some score) (hk : p.ghostdagManager.kOf sink + 1 < 2 ^ 16)
    (hmax : 1 ≤ p.maxBlockParents.get score) (hlimit : 1 ≤ p.mergesetSizeLimit.get score)
    (hmem : ∀ x ∈ sink :: candidates, x ∈ blocks)
    (hanti : (sink :: candidates).Pairwise (Anticone p.ghostdagManager.Parent))
    (hlower : ∀ c ∈ candidates, p.ghostdagManager.key c < p.ghostdagManager.key sink) : ∃ others d,
      Fuel.Returns (fun fuel => p.pickVirtualParents fuel random sink candidates pruningPoint)
        (sink :: others, d) ∧
      (sink :: others).Nodup ∧ (sink :: others).Pairwise (Anticone p.ghostdagManager.Parent) ∧
      (sink :: others).length ≤ p.maxBlockParents.get score ∧
      Fuel.Returns (fun fuel => p.ghostdagManager.ghostdag fuel (sink :: others)) d ∧
      d.selectedParent = sink ∧
      d.mergesetSize = (mergedBeside p.ghostdagManager blocks sink (sink :: others)).card + 1 ∧
      d.mergesetSize ≤ p.mergesetSizeLimit.get score := by
  have dag := inv.workDag
  obtain ⟨chosen, hchosen, hsub⟩ := chooseCandidates_subperm random (p.maxBlockParents.get score)
    candidates
  -- enough fuel for every search
  let longest := blocks.sup fun b => ((p.ghostdagManager.getParents b).getD []).length
  have hsearch : ∀ b ∈ blocks, ((p.ghostdagManager.getParents b).getD []).length + blocks.card <
      longest + blocks.card + 1 := by
    intro b hb
    have hle : ((p.ghostdagManager.getParents b).getD []).length ≤ longest :=
      Finset.le_sup (f := fun b => ((p.ghostdagManager.getParents b).getD []).length) hb
    omega
  obtain ⟨parents, size, hpick, hloop⟩ := pickLoop_spec dag hsearch _ chosen [sink] 1
    (pickInv_start hsub hmax hlimit hmem hanti hlower) (Nat.lt_succ_self _)
  have hparentsMem : ∀ q ∈ parents, q ∈ blocks := fun q hq =>
    hpick.mem_blocks q (mem_append_left _ hq)
  have hparentsAnti : parents.Pairwise (Anticone p.ghostdagManager.Parent) :=
    hpick.antichain.sublist (sublist_append_left _ _)
  obtain ⟨rest, hrest⟩ := hpick.head
  have hvalid := validParents_of_pairwise (hrest ▸ cons_ne_nil _ _) hparentsMem hparentsAnti
  -- the sink has the greatest key
  have hsinkMem : sink ∈ parents := hrest ▸ mem_cons_self
  have hgreatest : ∀ q ∈ parents, p.ghostdagManager.key q ≤ p.ghostdagManager.key sink := by
    intro q hq
    by_cases hne : q = sink
    · rw [hne]
    · exact (hpick.key_lt q (mem_append_left _ hq) hne).le
  obtain ⟨d, root, d', hremoval⟩ := removeBoundedMergeBreakingParents_spec inv hknows hpp hvalid (by
    intro sp hfind
    rw [dag.findSelectedParent_eq hvalid hsinkMem hgreatest] at hfind
    exact some.inj hfind ▸ hk)
  have hselected : d.selectedParent = sink := key_injective (le_antisymm
    (hgreatest _ hremoval.colored.selectedParent_mem) (hremoval.colored.key_le sink hsinkMem))
  have hselected' : d'.selectedParent = sink := hremoval.selectedParent_eq.trans hselected
  set kept := keptParents p.ghostdagManager d root parents with hkept
  have hkeptSub : kept.Sublist parents := filter_sublist
  have hsinkKept : sink ∈ kept := hselected ▸ selectedParent_mem_keptParents hremoval.colored
  obtain ⟨others, hothers⟩ : ∃ others, kept = sink :: others := by
    rw [hkept, hrest] at hsinkKept ⊢
    exact ⟨_, filter_cons_of_pos (mem_filter.mp hsinkKept).2⟩
  have hkeptAnti := hparentsAnti.sublist hkeptSub
  have hsize : d'.mergesetSize = (mergedBeside p.ghostdagManager blocks sink kept).card + 1 := by
    rw [mergesetSize_eq_card dag hremoval.valid hremoval.colored', hselected']
  refine ⟨others, d', ?_, ?_, ?_, ?_, ?_, hselected', ?_, ?_⟩
  · obtain ⟨enough, henough⟩ := hremoval.returns
    refine ⟨max enough (longest + blocks.card + 1 + roundsLeft p.ghostdagManager blocks chosen),
      fun fuel hfuel => ?_⟩
    rw [← hothers, ← henough fuel (by omega)]
    simp only [ParentPicker.pickVirtualParents, hscore, hchosen, bind_eq_bind,
      bind_some, hloop fuel (by omega) fuel (by omega), if_neg (not_lt.mpr hpick.size_le),
      if_neg (not_lt.mpr hpick.length_le)]
  · exact hothers ▸ hkeptAnti.imp fun h => h.ne
  · exact hothers ▸ hkeptAnti
  · exact (hothers ▸ hkeptSub.length_le).trans hpick.length_le
  · exact hothers ▸ hremoval.ghostdag'
  · exact hothers ▸ hsize
  · have hmono : mergedBeside p.ghostdagManager blocks sink kept ⊆
        mergedBeside p.ghostdagManager blocks sink parents := by
      intro x hx
      obtain ⟨hx, ⟨q, hq, hpast⟩, hout⟩ := Finset.mem_filter.mp hx
      exact Finset.mem_filter.mpr ⟨hx, ⟨q, hkeptSub.subset hq, hpast⟩, hout⟩
    have hcard := Finset.card_le_card hmono
    have hmerged := hpick.merged
    have hle := hpick.size_le
    omega

/-- Random choices that change nothing. -/
def inOrder : Randomness where
  genRange low _ := low
  genRange_mem _ _ h := ⟨le_refl _, h⟩
  shuffle := id
  shuffle_perm _ := List.Perm.refl _

/-- With a limit of one on the mergeset, the side `2` is rejected beside the sink `3`. -/
theorem pickVirtualParents_onDiamond : ∃ others d, Fuel.Returns
        (fun fuel => (pickerOver diamond 4 1).pickVirtualParents fuel inOrder 3 [2] 1)
        (3 :: others, d) ∧ d.selectedParent = 3 ∧ 2 ∉ others := by
  have inv := built_diamond.storeInv
  have h2 : (2 : Hash) ∈ ({4, 3, 2, 1} : Finset Hash) := by decide
  have hkey : diamond.key 2 < diamond.key 3 := by decide +kernel
  have hscore : (pickerOver diamond 4 1).getDaaScore 3 = some 1 := by decide +kernel
  obtain ⟨others, d, hreturns, -, -, -, -, hsp, hcard, hsize⟩ := pickVirtualParents_withinLimits
    (p := pickerOver diamond 4 1) inv (depthOver_knows inv (by decide +kernel) 4) inOrder
    (by decide : (1 : Hash) ∈ _) hscore (by decide +kernel) (by decide) (by decide)
    (by decide : ∀ x ∈ [(3 : Hash), 2], x ∈ ({4, 3, 2, 1} : Finset Hash))
    (pairwise_pair.mpr anticone_diamond) (fun c hc => mem_singleton.mp hc ▸ hkey)
  refine ⟨others, d, hreturns, hsp, fun hmem => ?_⟩
  -- otherwise the mergeset has both sides
  have hbeside : 2 ∈ mergedBeside diamond {4, 3, 2, 1} 3 (3 :: others) :=
    Finset.mem_filter.mpr ⟨h2, ⟨2, mem_cons_of_mem 3 hmem, ReflTransGen.refl⟩, anticone_diamond.2⟩
  rw [hcard] at hsize
  have hnone := Nat.le_zero.mp (Nat.le_of_succ_le_succ hsize)
  exact absurd hnone (Finset.card_ne_zero_of_mem hbeside)

/-- The chain `1, 9, 4` beside the block `5`. -/
def chainBeside (bits : ℕ) : Option GhostdagManager :=
  [⟨9, [1], 1, bits⟩, ⟨4, [9], 1, bits⟩, ⟨5, [1], 1, bits⟩].foldlM
    (addBlock 20) (fromGenesis ⟨1, [], 0, bits⟩ (ForkedParam.newConst 2) 0)

/-- Where headers have no work (bits `0`) or blue work wraps, the candidate `4` is lower than the sink
`5`, but its parent `9` that replaces it is not: `ghostdag` selects `9`. With a limit of `0` on the
mergeset or on the parents, the sink is already too much and an assertion fails. -/
theorem pickVirtualParents_wrong : (∀ bits ∈ [0, 0x09010000],
      ((chainBeside bits).bind fun m => m.isDagAncestorOf 4 5) = some false ∧
      ((chainBeside bits).bind fun m => m.isDagAncestorOf 5 4) = some false ∧
      ((chainBeside bits).map fun m => decide (m.key 4 < m.key 5)) = some true ∧
      ((chainBeside bits).bind fun m =>
        ((pickerOver m 4 2).pickVirtualParents 40 inOrder 5 [4] 1).map fun result =>
          (result.1, result.2.selectedParent)) = some ([5, 9], 9)) ∧
    (∀ fuel, (pickerOver diamond 4 0).pickVirtualParents fuel inOrder 3 [] 1 = none) := by
  refine ⟨by decide +kernel, fun fuel => ?_⟩
  cases fuel with
  | zero => decide +kernel
  | succ fuel =>
    have hscore : (pickerOver diamond 4 0).getDaaScore 3 = some 1 := by decide +kernel
    rw [ParentPicker.pickVirtualParents, hscore]
    rfl

end LapisMonetae.Virtual
