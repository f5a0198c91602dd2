import LapisMonetae.Ghostdag.ChainTheorems
import LapisMonetae.Ghostdag.RunTheorems
import LapisMonetae.Lib.Top
import LapisMonetae.Window.SampledWindow

/-!
# The bounded heap of a window

The mergeset of a block is offered to the heap in descending order. The bounded heap keeps the
blocks with the greatest blue work of all those offered to it, also when the heap of an ancestor is
merged into it.
-/

namespace LapisMonetae.Window

open Ghostdag Dag Top List GhostdagManager

/-! ## The mergeset in descending order -/

section window

variable {m : GhostdagManager} {blocks : Finset Hash} {n : ℕ}

/-- A stored block with its blue work. -/
def sortable (m : GhostdagManager) (hash : Hash) : SortableBlock := ⟨hash, m.blueWork hash⟩

/-- The mergeset of a block in descending order. -/
lemma descendingMergeset_eq (dag : m.WorkDag blocks) {parents merged : List Hash}
    {d : GhostdagData} (hvalid : m.ValidParents blocks parents)
    (hmerged : m.Merged parents merged d) :
    descendingMergesetWithoutSelectedParent m d = some (merged.reverse.map (sortable m)) := by
  have hsortable : ∀ l : List Hash, l.Sublist merged →
      l.reverse.mapM m.sortableBlock = some (l.reverse.map (sortable m)) := by
    intro l hl
    refine mapM_sortableBlock fun x hx => ?_
    exact dag.getData_of_merged hvalid hmerged (hl.subset (mem_reverse.mp hx))
  have htrans : IsTrans SortableBlock fun a b => SortableBlock.lt b a :=
    ⟨fun _ _ _ h1 h2 => lt_trans (α := ℕ ×ₗ ℕ) h2 h1⟩
  have hirrefl : Std.Irrefl fun a b : SortableBlock => SortableBlock.lt b a :=
    ⟨fun b => lt_irrefl (α := ℕ ×ₗ ℕ) b.key⟩
  unfold descendingMergesetWithoutSelectedParent
  simp only [drop_one, hsortable _ hmerged.blues_sublist, hsortable _ hmerged.reds_sublist,
    some_bind_eq]
  refine MergeJoin.mergeJoin_eq_of_perm ?_ ?_ (hmerged.blues_sublist.reverse.map _)
    (hmerged.reds_sublist.reverse.map _)
  · rw [pairwise_map, pairwise_reverse]
    exact hmerged.ordered.sorted
  · rw [← map_append]
    refine List.Perm.map _ (List.Perm.trans ?_ (hmerged.perm.trans (reverse_perm _).symm))
    exact (reverse_perm _).append (reverse_perm _)

/-! ## The bounded heap -/

/-- The heap holds the blocks of `s`, each with its blue work and once. -/
structure Holds (m : GhostdagManager) (heap : BlockWindowHeap) (s : Finset Hash) : Prop where
  blueWork : ∀ b ∈ heap.blocks, b = sortable m b.hash
  nodup : (heap.blocks.map SortableBlock.hash).Nodup
  mem_iff : ∀ x, x ∈ s ↔ ∃ b ∈ heap.blocks, b.hash = x

/-- The heap holds the `n` greatest blocks of `p` by blue work and hash, or all of `p` if it has
fewer. -/
def HoldsTop (m : GhostdagManager) (n : ℕ) (p : Finset Hash) (heap : BlockWindowHeap) : Prop :=
  ∃ s, Holds m heap s ∧ IsTop m.key n p s

namespace Holds

variable {heap : BlockWindowHeap} {s : Finset Hash} {least : SortableBlock}

lemma length_eq (h : Holds m heap s) : heap.blocks.length = s.card := by
  have hs : s = (heap.blocks.map SortableBlock.hash).toFinset := by
    ext x
    rw [h.mem_iff x, mem_toFinset, mem_map]
  rw [hs, toFinset_card_of_nodup h.nodup, length_map]

lemma mem_push {block : SortableBlock} (b : SortableBlock) :
    b ∈ (heap.push block).blocks ↔ b = block ∨ b ∈ heap.blocks := by
  unfold BlockWindowHeap.push
  rw [mem_orderedInsert]

/-- Pushing a new block. -/
lemma push (h : Holds m heap s) {x : Hash} (hx : x ∉ s) :
    Holds m (heap.push (sortable m x)) (insert x s) := by
  refine ⟨fun b hb => ?_, ?_, fun y => ?_⟩
  · rcases (mem_push b).mp hb with rfl | hb
    · rfl
    · exact h.blueWork b hb
  · have hperm : ((heap.push (sortable m x)).blocks.map SortableBlock.hash).Perm
        (x :: heap.blocks.map SortableBlock.hash) :=
      (perm_orderedInsert SortableBlock.le (sortable m x) heap.blocks).map SortableBlock.hash
    rw [hperm.nodup_iff, nodup_cons]
    refine ⟨fun hmem => hx ?_, h.nodup⟩
    obtain ⟨b, hb, hbx⟩ := mem_map.mp hmem
    exact (h.mem_iff x).mpr ⟨b, hb, hbx⟩
  · rw [Finset.mem_insert, h.mem_iff y]
    constructor
    · rintro (rfl | ⟨b, hb, rfl⟩)
      · exact ⟨_, (mem_push _).mpr (Or.inl rfl), rfl⟩
      · exact ⟨b, (mem_push b).mpr (Or.inr hb), rfl⟩
    · rintro ⟨b, hb, rfl⟩
      rcases (mem_push b).mp hb with rfl | hb
      · exact Or.inl rfl
      · exact Or.inr ⟨b, hb, rfl⟩

lemma peek_le (h : Holds m heap s) (hpeek : heap.peek = some least) :
    least.hash ∈ s ∧ least.key = m.key least.hash ∧ ∀ y ∈ s, m.key least.hash ≤ m.key y := by
  obtain ⟨rest, hblocks⟩ := List.head?_eq_some_iff.mp hpeek
  have hmem : least ∈ heap.blocks := by
    rw [hblocks]
    exact mem_cons_self
  have hkey : ∀ b ∈ heap.blocks, b.key = m.key b.hash := by
    intro b hb
    rw [h.blueWork b hb]
    rfl
  refine ⟨(h.mem_iff _).mpr ⟨least, hmem, rfl⟩, hkey least hmem, fun y hy => ?_⟩
  obtain ⟨b, hb, rfl⟩ := (h.mem_iff y).mp hy
  rw [← hkey least hmem, ← hkey b hb]
  have hsorted := heap.sorted
  rw [hblocks] at hsorted hb
  rcases mem_cons.mp hb with rfl | hb
  · exact le_refl _
  · exact (pairwise_cons.mp hsorted).1 b hb

lemma pop (h : Holds m heap s) (hpeek : heap.peek = some least) :
    Holds m heap.pop (s.erase least.hash) := by
  obtain ⟨rest, hblocks⟩ := List.head?_eq_some_iff.mp hpeek
  have htail : heap.pop.blocks = rest := by
    show heap.blocks.tail = rest
    rw [hblocks, tail_cons]
  have hnodup := h.nodup
  rw [hblocks, map_cons, nodup_cons] at hnodup
  have hmem : ∀ b, b ∈ rest → b ∈ heap.blocks := by
    intro b hb
    rw [hblocks]
    exact mem_cons_of_mem _ hb
  refine ⟨fun b hb => h.blueWork b (hmem b (htail ▸ hb)), by rw [htail]; exact hnodup.2,
    fun y => ?_⟩
  rw [Finset.mem_erase, h.mem_iff y, htail]
  constructor
  · rintro ⟨hne, b, hb, rfl⟩
    rw [hblocks] at hb
    rcases mem_cons.mp hb with rfl | hb
    · exact absurd rfl hne
    · exact ⟨b, hb, rfl⟩
  · rintro ⟨b, hb, rfl⟩
    refine ⟨fun heq => hnodup.1 ?_, b, hmem b hb, rfl⟩
    exact mem_map.mpr ⟨b, hb, heq⟩

end Holds

namespace HoldsTop

variable {heap : BlockWindowHeap} {n : ℕ} {p : Finset Hash}

lemma new (n : ℕ) (origin : WindowOrigin) : HoldsTop m n ∅ (BlockWindowHeap.new origin) := by
  refine ⟨∅, ⟨fun b hb => ?_, nodup_nil, fun x => ?_⟩, isTop_empty _ _⟩
  · exact absurd hb not_mem_nil
  · exact ⟨fun hx => absurd hx (Finset.notMem_empty x), fun ⟨b, hb, _⟩ => absurd hb not_mem_nil⟩

/-- No blocks are asked for. -/
lemma new_of_size_zero (p : Finset Hash) (origin : WindowOrigin) :
    HoldsTop m 0 p (BlockWindowHeap.new origin) := by
  obtain ⟨s, hs, htop⟩ := HoldsTop.new (m := m) 0 origin
  refine ⟨s, hs, htop.subset.trans (Finset.empty_subset _), ?_, fun x _ _ y hy => ?_⟩
  · rw [htop.card_eq, Nat.zero_min, Nat.zero_min]
  · exact absurd (htop.subset hy) (Finset.notMem_empty y)

/-- The heap is full and all its blocks are greater than `x`. -/
def Below (m : GhostdagManager) (n : ℕ) (heap : BlockWindowHeap) (x : Hash) : Prop :=
  heap.blocks.length = n ∧ ∀ b ∈ heap.blocks, m.key x < m.key b.hash

lemma Below.of_le {x y : Hash} (h : Below m n heap x) (hle : m.key y ≤ m.key x) :
    Below m n heap y := ⟨h.1, fun b hb => lt_of_le_of_lt hle (h.2 b hb)⟩

/-- Blocks below a full heap do not belong to it. -/
lemma union_low (h : HoldsTop m n p heap) {q : Finset Hash}
    (hlen : heap.blocks.length = n) (hlow : ∀ x ∈ q, Below m n heap x) :
    HoldsTop m n (p ∪ q) heap := by
  obtain ⟨s, hs, htop⟩ := h
  refine ⟨s, hs, htop.union_low (hs.length_eq ▸ hlen) fun x hx y hy => ?_⟩
  obtain ⟨b, hb, rfl⟩ := (hs.mem_iff y).mp hy
  exact (hlow x hx).2 b hb

end HoldsTop

lemma tryPush_origin (heap : BoundedSizeBlockHeap) (block : SortableBlock) :
    (heap.tryPush block).1.binaryHeap.origin = heap.binaryHeap.origin := by
  unfold BoundedSizeBlockHeap.tryPush
  by_cases hfull : heap.reachedSizeBound
  · rw [if_pos hfull]
    cases heap.binaryHeap.peek with
    | none => rfl
    | some least =>
      simp only
      by_cases hlt : SortableBlock.lt block least
      · rw [if_pos hlt]
      · rw [if_neg hlt]
        rfl
  · rw [if_neg hfull]
    rfl

lemma pushWhileFits_origin (sortables : List SortableBlock) : ∀ heap : BoundedSizeBlockHeap,
    (heap.pushWhileFits sortables).binaryHeap.origin = heap.binaryHeap.origin := by
  induction sortables with
  | nil => exact fun heap => rfl
  | cons block rest ih =>
    intro heap
    have horigin := tryPush_origin heap block
    rw [BoundedSizeBlockHeap.pushWhileFits]
    rcases hpush : heap.tryPush block with ⟨heap', pushed⟩
    rw [hpush] at horigin
    cases pushed with
    | true => exact (ih heap').trans horigin
    | false => exact horigin

/-- A full heap has a least block, and a block below that one is below the heap. -/
lemma Holds.peek_of_full {heap : BlockWindowHeap} {s : Finset Hash}
    (hs : Holds m heap s) (hn : 0 < n) (hlen : heap.blocks.length = n) :
    ∃ least, heap.peek = some least ∧ ∀ x, m.key x < least.key → HoldsTop.Below m n heap x := by
  cases hpeek : heap.peek with
  | none =>
    have hnil : heap.blocks = [] := List.head?_eq_none_iff.mp hpeek
    rw [hnil, length_nil] at hlen
    omega
  | some least =>
    obtain ⟨-, hkey, hmin⟩ := hs.peek_le hpeek
    refine ⟨least, rfl, fun x hlt => ⟨hlen, fun b hb => ?_⟩⟩
    exact lt_of_lt_of_le (hkey ▸ hlt) (hmin _ ((hs.mem_iff _).mpr ⟨b, hb, rfl⟩))

/-- `try_push` either rejects a block below a full heap, or keeps the greatest blocks. -/
lemma tryPush_spec {heap : BoundedSizeBlockHeap} {p : Finset Hash} {x : Hash}
    (hn : 0 < n) (hbound : heap.sizeBound = n) (h : HoldsTop m n p heap.binaryHeap) (hx : x ∉ p) :
    (heap.tryPush (sortable m x) = (heap, false) ∧ HoldsTop.Below m n heap.binaryHeap x) ∨
    ∃ heap', heap.tryPush (sortable m x) = (heap', true) ∧ heap'.sizeBound = n ∧
      HoldsTop m n (insert x p) heap'.binaryHeap := by
  obtain ⟨s, hs, htop⟩ := h
  have hxs : x ∉ s := fun hmem => hx (htop.subset hmem)
  unfold BoundedSizeBlockHeap.tryPush
  by_cases hfull : heap.reachedSizeBound
  · rw [if_pos hfull]
    have hlen : heap.binaryHeap.blocks.length = n := hfull.trans hbound
    have hcard : s.card = n := hs.length_eq ▸ hlen
    obtain ⟨least, hpeek, hbelow⟩ := hs.peek_of_full hn hlen
    obtain ⟨hleast, hkey, hmin⟩ := hs.peek_le hpeek
    rw [hpeek]
    simp only
    by_cases hlt : SortableBlock.lt (sortable m x) least
    · rw [if_pos hlt]
      exact Or.inl ⟨rfl, hbelow x hlt⟩
    · rw [if_neg hlt]
      refine Or.inr ⟨_, rfl, hbound, insert x (s.erase least.hash), ?_, ?_⟩
      · exact (hs.pop hpeek).push fun hmem => hxs (Finset.mem_of_mem_erase hmem)
      · have hle : m.key least.hash ≤ m.key x := by
          rw [← hkey]
          exact not_lt.mp hlt
        refine htop.replace key_injective hcard hx hleast hmin
          (lt_of_le_of_ne hle fun heq => hxs ?_)
        exact key_injective heq ▸ hleast
  · rw [if_neg hfull]
    refine Or.inr ⟨_, rfl, hbound, insert x s, hs.push hxs, htop.insert_of_room ?_ x⟩
    have hle : s.card ≤ n := by
      rw [htop.card_eq]
      exact min_le_left _ _
    refine lt_of_le_of_ne hle fun heq => hfull ?_
    exact hs.length_eq.trans (heq.trans hbound.symm)

/-- Pushing a descending sequence until a block is rejected. -/
lemma pushWhileFits_spec (hn : 0 < n) (hashes : List Hash) :
    ∀ (heap : BoundedSizeBlockHeap) (p : Finset Hash), heap.sizeBound = n →
      HoldsTop m n p heap.binaryHeap → (hashes.Pairwise fun a b => m.key b < m.key a) →
      (∀ x ∈ hashes, x ∉ p) →
      (heap.pushWhileFits (hashes.map (sortable m))).sizeBound = n ∧
      HoldsTop m n (p ∪ hashes.toFinset)
        (heap.pushWhileFits (hashes.map (sortable m))).binaryHeap := by
  induction hashes with
  | nil =>
    intro heap p hbound h _ _
    rw [toFinset_nil, Finset.union_empty]
    exact ⟨hbound, h⟩
  | cons x rest ih =>
    intro heap p hbound h hsorted hnew
    obtain ⟨hhead, htail⟩ := pairwise_cons.mp hsorted
    rw [map_cons, BoundedSizeBlockHeap.pushWhileFits, toFinset_cons]
    rcases tryPush_spec hn hbound h (hnew x mem_cons_self) with
      ⟨hreject, hbelow⟩ | ⟨heap', hpush, hbound', h'⟩
    · -- the rest of the sequence is below the heap too
      rw [hreject]
      refine ⟨hbound, h.union_low hbelow.1 fun y hy => ?_⟩
      rcases Finset.mem_insert.mp hy with rfl | hy
      · exact hbelow
      · exact hbelow.of_le (hhead y (mem_toFinset.mp hy)).le
    · rw [hpush, Finset.union_insert, ← Finset.insert_union]
      refine ih heap' _ hbound' h' htail fun y hy hmem => ?_
      rcases Finset.mem_insert.mp hmem with rfl | hmem
      · exact lt_irrefl _ (hhead y hy)
      · exact hnew y (mem_cons_of_mem _ hy) hmem

end window

/-! ## Merging heaps -/

section heap

variable {m : GhostdagManager} {n : ℕ} {p : Finset Hash}

/-- Offering a block to the heap. -/
lemma HoldsTop.tryPush {heap : BoundedSizeBlockHeap} {x : Hash} (hn : 0 < n)
    (hbound : heap.sizeBound = n) (h : HoldsTop m n p heap.binaryHeap) (hx : x ∉ p) :
    (heap.tryPush (sortable m x)).1.sizeBound = n ∧
      HoldsTop m n (insert x p) (heap.tryPush (sortable m x)).1.binaryHeap := by
  rcases tryPush_spec hn hbound h hx with ⟨hreject, hbelow⟩ | ⟨heap', hpush, hbound', h'⟩
  · rw [hreject, Finset.insert_eq, Finset.union_comm]
    refine ⟨hbound, h.union_low hbelow.1 fun y hy => ?_⟩
    rw [Finset.mem_singleton.mp hy]
    exact hbelow
  · rw [hpush]
    exact ⟨hbound', h'⟩

/-- `can_push` rejects only blocks below a full heap. -/
lemma canPush_spec {heap : BoundedSizeBlockHeap} (hn : 0 < n) (hbound : heap.sizeBound = n)
    (h : HoldsTop m n p heap.binaryHeap) (x : Hash) :
    ∃ fits, heap.canPush (sortable m x) = some fits ∧
      (fits = false → HoldsTop.Below m n heap.binaryHeap x) := by
  unfold BoundedSizeBlockHeap.canPush
  by_cases hfull : heap.reachedSizeBound
  · rw [if_pos hfull]
    have hlen : heap.binaryHeap.blocks.length = n := hfull.trans hbound
    obtain ⟨s, hs, -⟩ := h
    obtain ⟨least, hpeek, hbelow⟩ := hs.peek_of_full hn hlen
    rw [hpeek]
    exact ⟨_, rfl, fun hfits => hbelow x (not_le.mp (of_decide_eq_false hfits))⟩
  · rw [if_neg hfull]
    exact ⟨true, rfl, fun hfalse => absurd hfalse (by decide)⟩

lemma Holds.foldl_push (blocks : List SortableBlock) : ∀ {heap : BlockWindowHeap}
    {s : Finset Hash}, Holds m heap s → (∀ b ∈ blocks, b = sortable m b.hash) →
    (blocks.map SortableBlock.hash).Nodup → (∀ b ∈ blocks, b.hash ∉ s) →
    Holds m (blocks.foldl BlockWindowHeap.push heap)
      (s ∪ (blocks.map SortableBlock.hash).toFinset) := by
  induction blocks with
  | nil =>
    intro heap s h _ _ _
    rwa [map_nil, toFinset_nil, Finset.union_empty]
  | cons block rest ih =>
    intro heap s h hwork hnodup hnew
    rw [map_cons, nodup_cons] at hnodup
    have hpush := h.push (hnew block mem_cons_self)
    rw [← hwork block mem_cons_self] at hpush
    rw [foldl_cons, map_cons, toFinset_cons, Finset.union_insert, ← Finset.insert_union]
    refine ih hpush (fun b hb => hwork b (mem_cons_of_mem _ hb)) hnodup.2 fun b hb hmem => ?_
    rcases Finset.mem_insert.mp hmem with heq | hmem
    · exact hnodup.1 (heq ▸ mem_map_of_mem hb)
    · exact hnew b (mem_cons_of_mem _ hb) hmem

theorem Holds.append {heap other : BlockWindowHeap} {s t : Finset Hash} (hs : Holds m heap s)
    (ht : Holds m other t) (hdisj : Disjoint s t) : Holds m (heap.append other) (s ∪ t) := by
  have hset : (other.blocks.map SortableBlock.hash).toFinset = t := by
    ext x
    rw [mem_toFinset, mem_map, ht.mem_iff x]
  have happend := hs.foldl_push other.blocks ht.blueWork ht.nodup fun b hb hmem =>
    Finset.disjoint_left.mp hdisj hmem ((ht.mem_iff _).mpr ⟨b, hb, rfl⟩)
  rwa [hset] at happend

/-- Popping the least blocks leaves the greatest ones. -/
lemma Holds.pop_iterate {heap : BlockWindowHeap} {u : Finset Hash} (h : Holds m heap u) :
    ∀ k ≤ u.card, ∃ v, Holds m (BlockWindowHeap.pop^[k] heap) v ∧ IsTop m.key (u.card - k) u v := by
  intro k
  induction k with
  | zero =>
    intro _
    refine ⟨u, h, Finset.Subset.refl _, ?_, fun x hx hnot => absurd hx hnot⟩
    omega
  | succ k ih =>
    intro hk
    obtain ⟨v, hv, htop⟩ := ih (by omega)
    have hcard : v.card = u.card - k := by
      rw [htop.card_eq]
      omega
    cases hpeek : (BlockWindowHeap.pop^[k] heap).peek with
    | none =>
      have hnil : (BlockWindowHeap.pop^[k] heap).blocks = [] := List.head?_eq_none_iff.mp hpeek
      have hlen := hv.length_eq
      rw [hnil, length_nil] at hlen
      omega
    | some least =>
      obtain ⟨hleast, -, hmin⟩ := hv.peek_le hpeek
      refine ⟨v.erase least.hash, ?_, ?_⟩
      · rw [Function.iterate_succ_apply']
        exact hv.pop hpeek
      · have herase := htop.erase_least hleast hmin key_injective
        rwa [hcard, show u.card - k - 1 = u.card - (k + 1) from by omega] at herase

/-- `merge_ancestor_heap` keeps the greatest blocks of both heaps. -/
lemma mergeAncestorHeap_spec {heap : BoundedSizeBlockHeap} {ancestorHeap : BlockWindowHeap}
    {q : Finset Hash} (hbound : heap.sizeBound = n) (h : HoldsTop m n p heap.binaryHeap)
    (hancestor : HoldsTop m n q ancestorHeap) (hdisj : Disjoint p q) :
    HoldsTop m n (p ∪ q) (heap.mergeAncestorHeap ancestorHeap).binaryHeap := by
  obtain ⟨s, hs, hstop⟩ := h
  obtain ⟨t, ht, httop⟩ := hancestor
  have happend := hs.append ht (Finset.disjoint_of_subset_left hstop.subset
    (Finset.disjoint_of_subset_right httop.subset hdisj))
  obtain ⟨v, hv, hvtop⟩ := happend.pop_iterate ((s ∪ t).card - n) (by omega)
  have htop : IsTop m.key n (s ∪ t) v := by
    refine ⟨hvtop.subset, ?_, hvtop.key_lt⟩
    rw [hvtop.card_eq]
    omega
  refine ⟨v, ?_, ?_⟩
  · rw [← happend.length_eq, ← hbound] at hv
    exact hv
  · -- first the blocks of the heap, then those of the ancestor
    have hleft := hstop.union_of_top htop
    rw [Finset.union_comm] at hleft ⊢
    exact httop.union_of_top hleft

lemma mergeAncestorHeap_origin (heap : BoundedSizeBlockHeap) (ancestorHeap : BlockWindowHeap) :
    (heap.mergeAncestorHeap ancestorHeap).binaryHeap.origin = heap.binaryHeap.origin := by
  have hpop : ∀ k (other : BlockWindowHeap),
      (BlockWindowHeap.pop^[k] other).origin = other.origin := by
    intro k
    induction k with
    | zero => exact fun other => rfl
    | succ k ih => exact fun other => ih other.pop
  have hpush : ∀ (blocks : List SortableBlock) (other : BlockWindowHeap),
      (blocks.foldl BlockWindowHeap.push other).origin = other.origin := by
    intro blocks
    induction blocks with
    | nil => exact fun other => rfl
    | cons block rest ih => exact fun other => ih (other.push block)
  exact (hpop _ _).trans (hpush _ _)

end heap

/-! ## Pushing the samples of a mergeset -/

/-- The sampled blocks of the sequence. -/
def SampledBlock.samples (items : List SampledBlock) : List SortableBlock :=
  items.filterMap fun
    | .sampled block => some block
    | .nonDaa _ => none

lemma pushUntilRejected_eq (items : List SampledBlock) : ∀ heap : BoundedSizeBlockHeap,
    heap.pushUntilRejected items = heap.pushWhileFits (SampledBlock.samples items) := by
  induction items with
  | nil => exact fun heap => rfl
  | cons item rest ih =>
    intro heap
    cases item with
    | nonDaa hash => exact ih heap
    | sampled block =>
      show _ = heap.pushWhileFits (block :: SampledBlock.samples rest)
      rw [BoundedSizeBlockHeap.pushUntilRejected, BoundedSizeBlockHeap.pushWhileFits]
      rcases heap.tryPush block with ⟨heap', pushed⟩
      cases pushed with
      | true => exact ih heap'
      | false => rfl

/-- Offering all samples to the heap. -/
lemma pushAll_spec {m : GhostdagManager} {n : ℕ} (hn : 0 < n) (items : List SampledBlock) :
    ∀ (heap : BoundedSizeBlockHeap) (p : Finset Hash) (hashes : List Hash),
      SampledBlock.samples items = hashes.map (sortable m) → heap.sizeBound = n →
      HoldsTop m n p heap.binaryHeap → hashes.Nodup → (∀ x ∈ hashes, x ∉ p) →
      (heap.pushAll items).1.sizeBound = n ∧
      (heap.pushAll items).1.binaryHeap.origin = heap.binaryHeap.origin ∧
      HoldsTop m n (p ∪ hashes.toFinset) (heap.pushAll items).1.binaryHeap := by
  induction items with
  | nil =>
    intro heap p hashes heq hbound h _ _
    obtain rfl : hashes = [] := map_eq_nil_iff.mp heq.symm
    rw [toFinset_nil, Finset.union_empty]
    exact ⟨hbound, rfl, h⟩
  | cons item rest ih =>
    intro heap p hashes heq hbound h hnodup hnew
    cases item with
    | nonDaa hash => exact ih heap p hashes heq hbound h hnodup hnew
    | sampled block =>
      obtain ⟨x, hashes, rfl, rfl, hrest⟩ := map_eq_cons_iff.mp heq.symm
      obtain ⟨hx, hnodup⟩ := nodup_cons.mp hnodup
      obtain ⟨hbound', h'⟩ := h.tryPush hn hbound (hnew x mem_cons_self)
      obtain ⟨hbound'', horigin, hwindow⟩ := ih _ _ hashes hrest.symm hbound' h' hnodup (by
        intro y hy hmem
        rcases Finset.mem_insert.mp hmem with rfl | hmem
        · exact hx hy
        · exact hnew y (mem_cons_of_mem _ hy) hmem)
      refine ⟨hbound'', horigin.trans (tryPush_origin heap _), ?_⟩
      rwa [toFinset_cons, Finset.union_insert, ← Finset.insert_union]

end LapisMonetae.Window
