import Mathlib.Data.List.Sort

/-!
# Sorting by distinct keys

A list in strictly increasing order of its keys is the only sorted order of its elements, whatever
order they are sorted from.
-/

namespace LapisMonetae.KeyedSort

open List

variable {α κ : Type*} [LinearOrder κ] (key : α → κ)

/-- The keys increase strictly. -/
def Increasing (l : List α) : Prop := l.Pairwise fun a b => key a < key b

variable {key} {l l' : List α}

lemma Increasing.eq_of_key_eq (h : Increasing key l) {a b : α} (ha : a ∈ l) (hb : b ∈ l)
    (hkey : key a = key b) : a = b := by
  have hnodup : (l.map key).Nodup := pairwise_map.mpr (h.imp ne_of_lt)
  exact inj_on_of_nodup_map hnodup ha hb hkey

/-- Sorting any permutation gives the increasing list. -/
lemma Increasing.insertionSort_eq (h : Increasing key l) (hperm : l'.Perm l) :
    l'.insertionSort (fun a b => key a ≤ key b) = l := by
  have htrans : IsTrans α fun a b => key a ≤ key b := ⟨fun _ _ _ => le_trans⟩
  have htotal : Std.Total fun a b : α => key a ≤ key b := ⟨fun a b => le_total (key a) (key b)⟩
  have hsorted := pairwise_insertionSort (fun a b => key a ≤ key b) l'
  have hsame := (perm_insertionSort (fun a b => key a ≤ key b) l').trans hperm
  refine hsame.eq_of_pairwise ?_ hsorted (h.imp le_of_lt)
  intro a b ha hb hab hba
  exact h.eq_of_key_eq (hsame.mem_iff.mp ha) hb (le_antisymm hab hba)

/-- Sorting pairs of a key and an element by their keys sorts the elements. -/
lemma Increasing.insertionSort_keyed (h : Increasing key l) (hperm : l'.Perm l) :
    (((l'.map fun a => (key a, a)).insertionSort fun a b => a.1 ≤ b.1).map Prod.snd) = l := by
  rw [← map_insertionSort (fun a b => key a ≤ key b) (fun a b : κ × α => a.1 ≤ b.1) _ _
      fun _ _ _ _ => Iff.rfl, h.insertionSort_eq hperm, map_map]
  exact map_id l

/-- Elements whose keys are distinct are sorted into increasing order. -/
lemma increasing_insertionSort (h : (l.map key).Nodup) :
    Increasing key (l.insertionSort fun a b => key a ≤ key b) := by
  have htrans : IsTrans α fun a b => key a ≤ key b := ⟨fun _ _ _ => le_trans⟩
  have htotal : Std.Total fun a b : α => key a ≤ key b := ⟨fun a b => le_total (key a) (key b)⟩
  have hsorted := pairwise_insertionSort (fun a b => key a ≤ key b) l
  have hperm := perm_insertionSort (fun a b => key a ≤ key b) l
  have hne := pairwise_map.mp ((hperm.map key).nodup_iff.mpr h)
  exact (hsorted.and hne).imp fun hab => lt_of_le_of_ne hab.1 hab.2

/-- Skipping all smaller keys leads to the element itself. -/
lemma Increasing.dropWhile_lt {a : α} (h : Increasing key (l ++ a :: l')) :
    (l ++ a :: l').dropWhile (fun b => key b < key a) = a :: l' := by
  have hbefore : ∀ b ∈ l, key b < key a := fun b hb =>
    (pairwise_append.mp h).2.2 b hb a mem_cons_self
  rw [dropWhile_append_of_pos fun b hb => decide_eq_true (hbefore b hb), dropWhile_cons_of_neg]
  simp

end LapisMonetae.KeyedSort
