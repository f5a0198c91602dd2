import Mathlib.Data.Finset.Card
import Mathlib.Order.Lattice

/-!
# The greatest elements of a finite set

The `n` greatest elements of a set by a key, and how they change when the set grows.
-/

namespace Top

open Finset

variable {α β : Type} [DecidableEq α] [LinearOrder β]

/-- `s` are the `n` elements of `p` with the greatest keys, or all of `p` if it has fewer. -/
structure IsTop (key : α → β) (n : ℕ) (p s : Finset α) : Prop where
  subset : s ⊆ p
  card_eq : s.card = min n p.card
  key_lt : ∀ x ∈ p, x ∉ s → ∀ y ∈ s, key x < key y

variable {key : α → β} {n : ℕ} {p s : Finset α}

omit [DecidableEq α] in
lemma isTop_empty (key : α → β) (n : ℕ) : IsTop key n ∅ ∅ :=
  ⟨Finset.Subset.refl _, by simp, by simp⟩

/-- The greatest elements are unique. -/
lemma IsTop.unique {t : Finset α} (hs : IsTop key n p s) (ht : IsTop key n p t) : s = t := by
  refine eq_of_subset_of_card_le (fun x hx => ?_) (by rw [hs.card_eq, ht.card_eq])
  by_contra hxt
  -- all of `t` is above `x`, so all of `t` is in `s`, which then has one more element
  have hsub : insert x t ⊆ s := by
    intro y hy
    rcases mem_insert.mp hy with rfl | hy
    · exact hx
    · by_contra hys
      exact lt_asymm (ht.key_lt x (hs.subset hx) hxt y hy)
        (hs.key_lt y (ht.subset hy) hys x hx)
  have hcard := card_le_card hsub
  rw [card_insert_of_notMem hxt, hs.card_eq, ht.card_eq] at hcard
  omega

omit [DecidableEq α] in
/-- While there is room, `s` is the whole set. -/
lemma IsTop.eq_of_room (h : IsTop key n p s) (hroom : s.card < n) : s = p := by
  refine eq_of_subset_of_card_le h.subset ?_
  have := h.card_eq
  omega

lemma IsTop.insert_of_room (h : IsTop key n p s) (hroom : s.card < n) (x : α) :
    IsTop key n (insert x p) (insert x s) := by
  obtain rfl := h.eq_of_room hroom
  refine ⟨Finset.Subset.refl _, ?_, fun y hy hnot => absurd hy hnot⟩
  have hle := card_insert_le x s
  omega

/-- Elements below all the greatest ones do not matter once there are `n` of them. -/
lemma IsTop.union_low (h : IsTop key n p s) (hfull : s.card = n) {q : Finset α}
    (hlow : ∀ x ∈ q, ∀ y ∈ s, key x < key y) : IsTop key n (p ∪ q) s := by
  refine ⟨h.subset.trans subset_union_left, ?_, fun x hx hnot y hy => ?_⟩
  · have hle : p.card ≤ (p ∪ q).card := card_le_card subset_union_left
    have hcard := h.card_eq
    omega
  · rcases mem_union.mp hx with hx | hx
    · exact h.key_lt x hx hnot y hy
    · exact hlow x hx y hy

/-- A new element above the least of the greatest ones takes its place. -/
lemma IsTop.replace (hkey : Function.Injective key) (h : IsTop key n p s) (hfull : s.card = n)
    {x y : α} (hx : x ∉ p) (hy : y ∈ s) (hmin : ∀ z ∈ s, key y ≤ key z)
    (hlt : key y < key x) : IsTop key n (insert x p) (insert x (s.erase y)) := by
  have hxs : x ∉ s.erase y := fun hmem => hx (h.subset (mem_of_mem_erase hmem))
  have hpos : 0 < s.card := card_pos.mpr ⟨y, hy⟩
  refine ⟨?_, ?_, fun z hz hnot w hw => ?_⟩
  · exact insert_subset_insert x ((erase_subset _ _).trans h.subset)
  · rw [card_insert_of_notMem hxs, card_erase_of_mem hy,
      card_insert_of_notMem hx]
    have hcard := h.card_eq
    omega
  · -- `z` is the element that was replaced, or it was below all the others already
    rw [mem_insert, not_or] at hnot
    have hzp : z ∈ p := (mem_insert.mp hz).resolve_left hnot.1
    have hzy : key z ≤ key y := by
      by_cases hzs : z ∈ s
      · rw [mem_erase, not_and] at hnot
        have hzeq : z = y := by
          by_contra hne
          exact hnot.2 hne hzs
        rw [hzeq]
      · exact (h.key_lt z hzp hzs y hy).le
    rcases mem_insert.mp hw with rfl | hw
    · exact lt_of_le_of_lt hzy hlt
    · obtain ⟨hne, hws⟩ := mem_erase.mp hw
      refine lt_of_le_of_lt hzy (lt_of_le_of_ne (hmin w hws) fun heq => ?_)
      exact hne (hkey heq).symm

/-- The greatest elements without the least of them. -/
lemma IsTop.erase_least (h : IsTop key n p s) {y : α} (hy : y ∈ s)
    (hmin : ∀ z ∈ s, key y ≤ key z) (hkey : Function.Injective key) :
    IsTop key (s.card - 1) p (s.erase y) := by
  refine ⟨(erase_subset _ _).trans h.subset, ?_, fun x hx hnot z hz => ?_⟩
  · rw [card_erase_of_mem hy]
    have hle := card_le_card h.subset
    omega
  · obtain ⟨hne, hzs⟩ := mem_erase.mp hz
    by_cases hxs : x ∈ s
    · have hxy : x = y := by
        by_contra hxy
        exact hnot (mem_erase.mpr ⟨hxy, hxs⟩)
      rw [hxy]
      exact lt_of_le_of_ne (hmin z hzs) fun heq => hne (hkey heq).symm
    · exact h.key_lt x hx hxs z hzs

/-- The greatest elements of a union are among the greatest elements of its parts. -/
lemma IsTop.union_of_top (h : IsTop key n p s) {q u : Finset α}
    (hu : IsTop key n (s ∪ q) u) : IsTop key n (p ∪ q) u := by
  have hsub : s ∪ q ⊆ p ∪ q := union_subset_union_left h.subset
  by_cases hroom : s.card < n
  · rwa [h.eq_of_room hroom] at hu
  · -- both `s` and `u` have `n` elements
    have hscard : s.card = n := by
      have hcard := h.card_eq
      omega
    have hle : s.card ≤ (s ∪ q).card := card_le_card subset_union_left
    have hucard : u.card = n := by
      have hcard := hu.card_eq
      omega
    refine ⟨hu.subset.trans hsub, ?_, fun x hx hnot y hy => ?_⟩
    · have hle' := card_le_card hsub
      omega
    by_cases hxs : x ∈ s ∪ q
    · exact hu.key_lt x hxs hnot y hy
    have hxp : x ∈ p := (mem_union.mp hx).resolve_right fun hxq =>
      hxs (mem_union_right _ hxq)
    have hlow : ∀ z ∈ s, key x < key z :=
      h.key_lt x hxp fun hmem => hxs (mem_union_left _ hmem)
    by_cases hys : y ∈ s
    · exact hlow y hys
    -- `y` has taken the place of an element of `s`, which is above `x`
    obtain ⟨z, hzs, hzu⟩ : ∃ z ∈ s, z ∉ u := by
      by_contra hall
      push Not at hall
      have hle' := card_le_card (insert_subset hy hall)
      rw [card_insert_of_notMem hys] at hle'
      omega
    exact (hlow z hzs).trans (hu.key_lt z (mem_union_left _ hzs) hzu y hy)

end Top
