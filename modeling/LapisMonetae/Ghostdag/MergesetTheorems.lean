import LapisMonetae.Ghostdag.Protocol
import Mathlib.Logic.Relation
import Mathlib.Data.Finset.Card

/-!
# The mergeset search

`unordered_mergeset_without_selected_parent` returns the blocks that are reached from the
non-selected parents through blocks that are not in the past of the selected parent.
-/

namespace LapisMonetae.Ghostdag

open Relation List Option

variable {getParents : Hash → Option (List Hash)} {isDagAncestorOf : Hash → Hash → Option Bool}
  {selectedParent : Hash} {blocks : Finset Hash}

/-- `v` is a parent of `u`, and not in the past of the selected parent. -/
def MergedParent (getParents : Hash → Option (List Hash))
    (isDagAncestorOf : Hash → Hash → Option Bool) (selectedParent v u : Hash) : Prop :=
  (∃ ps, getParents u = some ps ∧ v ∈ ps) ∧ isDagAncestorOf v selectedParent = some false

/-- The inner loop queues the parents that are new and not in the past of the selected
parent. -/
lemma visitParents_spec (ps : List Hash)
    (hps : ∀ v ∈ ps, ∃ b, isDagAncestorOf v selectedParent = some b) :
    ∀ queue mergeset past, mergeset.Nodup →
      (∀ v ∈ past, isDagAncestorOf v selectedParent = some true) →
      ∃ new past', visitParents isDagAncestorOf selectedParent ps (queue, mergeset, past) =
          some (queue ++ new, new.reverse ++ mergeset, past') ∧
        (new.reverse ++ mergeset).Nodup ∧
        (∀ v ∈ past', isDagAncestorOf v selectedParent = some true) ∧
        (∀ v ∈ new, v ∈ ps ∧ isDagAncestorOf v selectedParent = some false) ∧
        (∀ v ∈ ps, v ∈ new ∨ v ∈ mergeset ∨ isDagAncestorOf v selectedParent = some true) := by
  induction ps with
  | nil =>
    intro queue mergeset past hnodup hpast
    exact ⟨[], past, by simp [visitParents], by simpa using hnodup, hpast, by simp, by simp⟩
  | cons parent rest ih =>
    intro queue mergeset past hnodup hpast
    have hrest : ∀ v ∈ rest, ∃ b, isDagAncestorOf v selectedParent = some b :=
      fun v hv => hps v (mem_cons_of_mem _ hv)
    rw [visitParents]
    by_cases hknown : parent ∈ mergeset ∨ parent ∈ past
    · rw [if_pos hknown]
      obtain ⟨new, past', hvisit, hnodup', hpast', hnew, hcover⟩ :=
        ih hrest queue mergeset past hnodup hpast
      refine ⟨new, past', hvisit, hnodup', hpast', fun v hv => ?_, fun v hv => ?_⟩
      · exact ⟨mem_cons_of_mem _ (hnew v hv).1, (hnew v hv).2⟩
      · rcases mem_cons.mp hv with rfl | hv
        · rcases hknown with h | h
          · exact .inr (.inl h)
          · exact .inr (.inr (hpast v h))
        · exact hcover v hv
    rw [if_neg hknown]
    rw [not_or] at hknown
    obtain ⟨b, hb⟩ := hps parent mem_cons_self
    simp only [hb, bind_eq_bind, bind_some]
    cases b with
    | true =>
      -- a block in the past of the selected parent is only remembered
      obtain ⟨new, past', hvisit, hnodup', hpast', hnew, hcover⟩ :=
        ih hrest queue mergeset (parent :: past) hnodup (by
          intro v hv
          rcases mem_cons.mp hv with rfl | hv
          · exact hb
          · exact hpast v hv)
      refine ⟨new, past', hvisit, hnodup', hpast', fun v hv => ?_, fun v hv => ?_⟩
      · exact ⟨mem_cons_of_mem _ (hnew v hv).1, (hnew v hv).2⟩
      · rcases mem_cons.mp hv with rfl | hv
        · exact .inr (.inr hb)
        · exact hcover v hv
    | false =>
      obtain ⟨new, past', hvisit, hnodup', hpast', hnew, hcover⟩ :=
        ih hrest (queue ++ [parent]) (parent :: mergeset) past
          (nodup_cons.mpr ⟨hknown.1, hnodup⟩) hpast
      refine ⟨parent :: new, past', ?_, ?_, hpast', fun v hv => ?_, fun v hv => ?_⟩
      · simpa using hvisit
      · simpa using hnodup'
      · rcases mem_cons.mp hv with rfl | hv
        · exact ⟨mem_cons_self, hb⟩
        · exact ⟨mem_cons_of_mem _ (hnew v hv).1, (hnew v hv).2⟩
      · rcases mem_cons.mp hv with rfl | hv
        · exact .inl mem_cons_self
        · rcases hcover v hv with h | h | h
          · exact .inl (mem_cons_of_mem _ h)
          · rcases mem_cons.mp h with rfl | h
            · exact .inl mem_cons_self
            · exact .inr (.inl h)
          · exact .inr (.inr h)

/-- The search state is sound and complete up to its queue: every block of the mergeset comes
from a start block, and every parent of a block that has left the queue is accounted for. -/
structure SearchState (getParents : Hash → Option (List Hash))
    (isDagAncestorOf : Hash → Hash → Option Bool) (selectedParent : Hash) (starts : List Hash)
    (blocks : Finset Hash) (queue mergeset past : List Hash) : Prop where
  nodup : mergeset.Nodup
  mem_blocks : ∀ x ∈ mergeset, x ∈ blocks
  queued : ∀ x ∈ queue, x ∈ mergeset
  started : ∀ x ∈ starts, x ∈ mergeset
  past : ∀ x ∈ past, isDagAncestorOf x selectedParent = some true
  sound : ∀ x ∈ mergeset, ∃ p ∈ starts,
    ReflTransGen (MergedParent getParents isDagAncestorOf selectedParent) x p
  closed : ∀ x ∈ mergeset, x ∈ queue ∨
    ∀ v, MergedParent getParents isDagAncestorOf selectedParent v x → v ∈ mergeset

/-- The stores answer for every block of the search: its parents are known, and those that are
not in the past of the selected parent belong to the search again. -/
def SearchClosed (getParents : Hash → Option (List Hash))
    (isDagAncestorOf : Hash → Hash → Option Bool) (selectedParent : Hash)
    (blocks : Finset Hash) : Prop :=
  ∀ u ∈ blocks, ∃ ps, getParents u = some ps ∧
    ∀ v ∈ ps, ∃ b, isDagAncestorOf v selectedParent = some b ∧ (b = false → v ∈ blocks)

/-- The mergeset search ends with the blocks reached from the start blocks. -/
lemma mergesetLoop_spec {starts : List Hash}
    (hclosed : SearchClosed getParents isDagAncestorOf selectedParent blocks) :
    ∀ fuel queue mergeset past,
      SearchState getParents isDagAncestorOf selectedParent starts blocks queue mergeset past →
      queue.length + (blocks.card - mergeset.length) < fuel →
      ∃ res, mergesetLoop getParents isDagAncestorOf selectedParent fuel (queue, mergeset, past) =
          some res ∧ res.Nodup ∧ (∀ x ∈ res, x ∈ blocks) ∧
        ∀ x, x ∈ res ↔ ∃ p ∈ starts,
          ReflTransGen (MergedParent getParents isDagAncestorOf selectedParent) x p := by
  intro fuel
  induction fuel with
  | zero =>
    intro queue mergeset past _ hfuel
    omega
  | succ fuel ih =>
    intro queue mergeset past hstate hfuel
    cases queue with
    | nil =>
      refine ⟨mergeset, rfl, hstate.nodup, hstate.mem_blocks, fun x => ⟨hstate.sound x, ?_⟩⟩
      rintro ⟨p, hp, hpath⟩
      -- the mergeset is closed, so the path from `p` stays inside it
      induction hpath using ReflTransGen.head_induction_on with
      | refl => exact hstate.started p hp
      | head hstep _ hmem =>
        rcases hstate.closed _ hmem with hq | hc
        · exact absurd hq not_mem_nil
        · exact hc _ hstep
    | cons current queue =>
      obtain ⟨ps, hps, hanc⟩ := hclosed current
        (hstate.mem_blocks current (hstate.queued current mem_cons_self))
      obtain ⟨new, past', hvisit, hnodup, hpast, hnew, hcover⟩ :=
        visitParents_spec ps (fun v hv => (hanc v hv).imp fun b hb => hb.1) queue mergeset past
          hstate.nodup hstate.past
      have hmem_blocks : ∀ x ∈ new.reverse ++ mergeset, x ∈ blocks := by
        intro x hx
        rcases mem_append.mp hx with hx | hx
        · obtain ⟨hxps, hxanc⟩ := hnew x (mem_reverse.mp hx)
          obtain ⟨b, hb, hin⟩ := hanc x hxps
          exact hin (some.inj (hb.symm.trans hxanc))
        · exact hstate.mem_blocks x hx
      have hcard : (new.reverse ++ mergeset).length ≤ blocks.card := by
        rw [← toFinset_card_of_nodup hnodup]
        exact Finset.card_le_card fun x hx => hmem_blocks x (mem_toFinset.mp hx)
      rw [mergesetLoop]
      simp only [hps, hvisit, bind_eq_bind, bind_some]
      apply ih
      · refine ⟨hnodup, hmem_blocks, fun x hx => ?_, fun x hx => ?_, hpast, fun x hx => ?_,
          fun x hx => ?_⟩
        · rcases mem_append.mp hx with hx | hx
          · exact mem_append_right _ (hstate.queued x (mem_cons_of_mem _ hx))
          · exact mem_append_left _ (mem_reverse.mpr hx)
        · exact mem_append_right _ (hstate.started x hx)
        · rcases mem_append.mp hx with hx | hx
          · obtain ⟨hxps, hxanc⟩ := hnew x (mem_reverse.mp hx)
            obtain ⟨p, hp, hpath⟩ := hstate.sound current (hstate.queued _ mem_cons_self)
            exact ⟨p, hp, ReflTransGen.head ⟨⟨ps, hps, hxps⟩, hxanc⟩ hpath⟩
          · exact hstate.sound x hx
        · -- the block just visited has all its parents accounted for
          by_cases hcur : x = current
          · subst hcur
            refine .inr fun v hv => ?_
            obtain ⟨⟨ps', hps', hvps⟩, hvanc⟩ := hv
            obtain rfl : ps = ps' := some.inj (hps.symm.trans hps')
            rcases hcover v hvps with h | h | h
            · exact mem_append_left _ (mem_reverse.mpr h)
            · exact mem_append_right _ h
            · rw [h] at hvanc
              exact absurd hvanc (by decide)
          · rcases mem_append.mp hx with hx | hx
            · exact .inl (mem_append_right _ (mem_reverse.mp hx))
            · rcases hstate.closed x hx with h | h
              · rcases mem_cons.mp h with h | h
                · exact absurd h hcur
                · exact .inl (mem_append_left _ h)
              · exact .inr fun v hv => mem_append_right _ (h v hv)
      · simp only [length_append, length_reverse, length_cons] at hcard hfuel ⊢
        omega

/-- `unordered_mergeset_without_selected_parent` returns the blocks reached from the
non-selected parents outside of the past of the selected parent. -/
lemma unorderedMergeset_spec {parents : List Hash} {fuel : ℕ}
    (hclosed : SearchClosed getParents isDagAncestorOf selectedParent blocks)
    (hparents : ∀ p ∈ parents, p ≠ selectedParent → p ∈ blocks)
    (hfuel : parents.length + blocks.card < fuel) :
    ∃ res, unorderedMergesetWithoutSelectedParent getParents isDagAncestorOf fuel selectedParent
        parents = some res ∧ res.Nodup ∧ (∀ x ∈ res, x ∈ blocks) ∧
      ∀ x, x ∈ res ↔ ∃ p ∈ parents, p ≠ selectedParent ∧
        ReflTransGen (MergedParent getParents isDagAncestorOf selectedParent) x p := by
  have hmem : ∀ p, p ∈ parents.filter (fun p => p ≠ selectedParent) ↔
      p ∈ parents ∧ p ≠ selectedParent := by
    intro p
    rw [mem_filter, decide_eq_true_eq]
  have hlen := length_filter_le (fun p => decide (p ≠ selectedParent)) parents
  obtain ⟨res, hres, hnodup, hblocks, hiff⟩ := mergesetLoop_spec hclosed fuel
    (parents.filter fun p => p ≠ selectedParent)
    (parents.filter fun p => p ≠ selectedParent).dedup []
    ⟨nodup_dedup _, fun x hx => by
        rw [mem_dedup, hmem] at hx
        exact hparents x hx.1 hx.2,
      fun x hx => mem_dedup.mpr hx, fun x hx => mem_dedup.mpr hx, by simp,
      fun x hx => ⟨x, mem_dedup.mp hx, ReflTransGen.refl⟩,
      fun x hx => .inl (mem_dedup.mp hx)⟩ (by omega)
  refine ⟨res, hres, hnodup, hblocks, fun x => ?_⟩
  rw [hiff x]
  simp only [hmem, and_assoc]

end LapisMonetae.Ghostdag
