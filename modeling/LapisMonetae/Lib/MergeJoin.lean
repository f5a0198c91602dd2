import Mathlib.Data.List.Basic
import Mathlib.Data.List.Pairwise
import Mathlib.Data.List.Perm.Basic
import Mathlib.Order.Defs.Unbundled

/-!
# Merging two sorted sequences

The merge of two sequences that are sorted by a strict order and have no equal elements, as a
function that fails where it meets two incomparable elements.
-/

namespace MergeJoin

open List

variable {α : Type} (lt : α → α → Prop) [DecidableRel lt]

/-- The elements of a sequence up to `x`, then `x` and the rest of the merge. -/
def upTo (x : α) (mergeRest : List α → Option (List α)) : List α → Option (List α)
  | [] => (mergeRest []).map (x :: ·)
  | y :: ys =>
    if lt x y then (mergeRest (y :: ys)).map (x :: ·)
    else if lt y x then (upTo x mergeRest ys).map (y :: ·)
    else none

/-- The merge of two sequences. -/
def mergeJoin : List α → List α → Option (List α)
  | [], ys => some ys
  | x :: xs, ys => upTo lt x (mergeJoin xs) ys

variable {lt}

/-- The merge of two sorted sequences is sorted and has the elements of both. -/
lemma mergeJoin_spec [IsTrans α lt] (xs : List α) : ∀ ys : List α,
    xs.Pairwise lt → ys.Pairwise lt → (∀ x ∈ xs, ∀ y ∈ ys, lt x y ∨ lt y x) →
    ∃ merged, mergeJoin lt xs ys = some merged ∧ merged.Perm (xs ++ ys) ∧ merged.Pairwise lt := by
  induction xs with
  | nil =>
    intro ys _ hys _
    exact ⟨ys, rfl, List.Perm.refl _, hys⟩
  | cons x xs ih =>
    intro ys
    induction ys with
    | nil =>
      intro hxs hys _
      obtain ⟨hhead, htail⟩ := pairwise_cons.mp hxs
      obtain ⟨rest, hrest, hperm, hsorted⟩ := ih [] htail hys (by simp)
      refine ⟨x :: rest, ?_, hperm.cons x, pairwise_cons.mpr ⟨fun z hz => ?_, hsorted⟩⟩
      · rw [mergeJoin, upTo, hrest]
        rfl
      · have hz := hperm.mem_iff.mp hz
        rw [append_nil] at hz
        exact hhead z hz
    | cons y ys ihys =>
      intro hxs hys hne
      obtain ⟨hxHead, hxTail⟩ := pairwise_cons.mp hxs
      obtain ⟨hyHead, hyTail⟩ := pairwise_cons.mp hys
      rw [mergeJoin, upTo]
      by_cases hlt : lt x y
      · -- `x` comes before all of the second sequence
        rw [if_pos hlt]
        obtain ⟨rest, hrest, hperm, hsorted⟩ := ih (y :: ys) hxTail hys
          fun a ha b hb => hne a (mem_cons_of_mem _ ha) b hb
        refine ⟨x :: rest, ?_, hperm.cons x, pairwise_cons.mpr ⟨fun z hz => ?_, hsorted⟩⟩
        · rw [hrest]
          rfl
        · rcases mem_append.mp (hperm.mem_iff.mp hz) with hz | hz
          · exact hxHead z hz
          · rcases mem_cons.mp hz with rfl | hz
            · exact hlt
            · exact trans_of lt hlt (hyHead z hz)
      · have hgt : lt y x :=
          (hne x mem_cons_self y mem_cons_self).resolve_left hlt
        rw [if_neg hlt, if_pos hgt]
        obtain ⟨rest, hrest, hperm, hsorted⟩ := ihys hxs hyTail
          fun a ha b hb => hne a ha b (mem_cons_of_mem _ hb)
        rw [mergeJoin] at hrest
        refine ⟨y :: rest, ?_, ?_, pairwise_cons.mpr ⟨fun z hz => ?_, hsorted⟩⟩
        · rw [hrest]
          rfl
        · exact (hperm.cons y).trans perm_middle.symm
        · rcases mem_append.mp (hperm.mem_iff.mp hz) with hz | hz
          · rcases mem_cons.mp hz with rfl | hz
            · exact hgt
            · exact trans_of lt hgt (hxHead z hz)
          · exact hyHead z hz

/-- Two parts of a sorted sequence merge into the sequence. -/
lemma mergeJoin_eq_of_perm [IsTrans α lt] [Std.Irrefl lt] {xs ys merged : List α}
    (hsorted : merged.Pairwise lt) (hperm : (xs ++ ys).Perm merged) (hxs : xs.Sublist merged)
    (hys : ys.Sublist merged) : mergeJoin lt xs ys = some merged := by
  have hasymm : ∀ a b, lt a b → ¬lt b a :=
    fun a b hab hba => Std.Irrefl.irrefl a (trans_of lt hab hba)
  have hnodup : (xs ++ ys).Nodup := by
    refine hperm.nodup_iff.mpr (hsorted.imp ?_)
    rintro a b hab rfl
    exact Std.Irrefl.irrefl a hab
  have hcompare : ∀ a ∈ merged, ∀ b ∈ merged, a ≠ b → lt a b ∨ lt b a := by
    have hsymm : Std.Symm fun a b => lt a b ∨ lt b a := ⟨fun _ _ => Or.symm⟩
    have heither : merged.Pairwise fun a b => lt a b ∨ lt b a := hsorted.imp Or.inl
    exact fun a ha b hb hne => heither.forall ha hb hne
  obtain ⟨res, hres, hresPerm, hresSorted⟩ := mergeJoin_spec xs ys (hsorted.sublist hxs)
    (hsorted.sublist hys) fun x hx y hy =>
      hcompare x (hxs.subset hx) y (hys.subset hy) ((nodup_append.mp hnodup).2.2 x hx y hy)
  rw [hres]
  exact congrArg some ((hresPerm.trans hperm).eq_of_pairwise
    (fun a b _ _ hab hba => absurd hba (hasymm a b hab)) hresSorted hsorted)

end MergeJoin
