import LapisMonetae.Ghostdag.Protocol

/-!
# The order by blue work

`find_selected_parent` takes the greatest parent and `sort_blocks` sorts, both by blue work with
the hash as a tie breaker.
-/

namespace LapisMonetae.Ghostdag

open List Option

lemma mapM_eq_some {α β : Type} {f : α → Option β} {g : α → β} :
    ∀ l : List α, (∀ a ∈ l, f a = some (g a)) → l.mapM f = some (l.map g) := by
  intro l
  induction l with
  | nil =>
    intro _
    rfl
  | cons a l ih =>
    intro h
    rw [mapM_cons, h a mem_cons_self, ih fun b hb => h b (mem_cons_of_mem _ hb)]
    rfl

namespace SortableBlock

/-- The loop of `max` keeps the greatest block seen so far. -/
lemma foldl_max_spec (rest : List SortableBlock) : ∀ best : SortableBlock,
    let res := rest.foldl (fun best b => if lt b best then best else b) best
    (res = best ∨ res ∈ rest) ∧ best.key ≤ res.key ∧ ∀ b ∈ rest, b.key ≤ res.key := by
  induction rest with
  | nil =>
    intro best
    exact ⟨Or.inl rfl, le_refl _, by simp⟩
  | cons b rest ih =>
    intro best
    rw [foldl_cons]
    by_cases hlt : lt b best
    · rw [if_pos hlt]
      obtain ⟨hmem, hle, hall⟩ := ih best
      refine ⟨hmem.imp id (mem_cons_of_mem _), hle, fun b' hb' => ?_⟩
      rcases mem_cons.mp hb' with rfl | hb'
      · exact (le_of_lt hlt).trans hle
      · exact hall b' hb'
    · rw [if_neg hlt]
      obtain ⟨hmem, hle, hall⟩ := ih b
      have hbest : best.key ≤ b.key := not_lt.mp hlt
      refine ⟨Or.inr ?_, hbest.trans hle, fun b' hb' => ?_⟩
      · rcases hmem with h | h
        · rw [h]
          exact mem_cons_self
        · exact mem_cons_of_mem _ h
      · rcases mem_cons.mp hb' with rfl | hb'
        · exact hle
        · exact hall b' hb'

/-- `max` returns a greatest block. -/
lemma max_spec {l : List SortableBlock} (hl : l ≠ []) :
    ∃ best ∈ l, max l = some best ∧ ∀ b ∈ l, b.key ≤ best.key := by
  cases l with
  | nil => exact absurd rfl hl
  | cons b rest =>
    obtain ⟨hmem, hle, hall⟩ := foldl_max_spec rest b
    refine ⟨_, ?_, rfl, fun b' hb' => ?_⟩
    · rcases hmem with h | h
      · rw [h]
        exact mem_cons_self
      · exact mem_cons_of_mem _ h
    · rcases mem_cons.mp hb' with rfl | hb'
      · exact hle
      · exact hall b' hb'

end SortableBlock

namespace GhostdagManager

variable {m : GhostdagManager} {d : GhostdagData} {a b : Hash}

/-- The blue work of a stored block. -/
def blueWork (m : GhostdagManager) (hash : Hash) : ℕ := (m.getBlueWork hash).getD 0

lemma getBlueWork_of_getData {b : Hash} (hd : m.getData b = some d) :
    m.getBlueWork b = some (m.blueWork b) := by
  rw [blueWork, getBlueWork, hd]
  rfl

lemma blueWork_of_getData {b : Hash} (hd : m.getData b = some d) : m.blueWork b = d.blueWork := by
  rw [blueWork, getBlueWork, hd]
  rfl

/-- The sort key of a stored block. -/
def key (m : GhostdagManager) (hash : Hash) : ℕ ×ₗ ℕ := toLex (m.blueWork hash, hash)

lemma key_injective : Function.Injective m.key := by
  intro a b h
  exact (Prod.mk.inj (toLex.injective h)).2

/-- Greater blue work means a greater key. -/
lemma key_lt_of_blueWork_lt (h : m.blueWork a < m.blueWork b) :
    m.key a < m.key b := Prod.Lex.toLex_lt_toLex.mpr (Or.inl h)

lemma blueWork_le_of_key_le (h : m.key a ≤ m.key b) : m.blueWork a ≤ m.blueWork b := by
  rcases Prod.Lex.toLex_le_toLex.mp h with h | h
  · exact h.le
  · exact h.1.le

lemma sortableBlock_eq {hash : Hash} {data : GhostdagData} (h : m.getData hash = some data) :
    m.sortableBlock hash = some ⟨hash, m.blueWork hash⟩ := by
  rw [sortableBlock, getBlueWork_of_getData h]
  rfl

variable {l : List Hash} (hstored : ∀ x ∈ l, ∃ data, m.getData x = some data)

include hstored

lemma mapM_sortableBlock :
    l.mapM m.sortableBlock = some (l.map fun hash => ⟨hash, m.blueWork hash⟩) :=
  mapM_eq_some l fun x hx => by
    obtain ⟨data, hdata⟩ := hstored x hx
    exact sortableBlock_eq hdata

lemma findSelectedParent_spec (hl : l ≠ []) :
    ∃ sp ∈ l, m.findSelectedParent l = some sp ∧ ∀ p ∈ l, m.key p ≤ m.key sp := by
  obtain ⟨best, hbest, hmax, hall⟩ := SortableBlock.max_spec
    (l := l.map fun hash => ⟨hash, m.blueWork hash⟩) (by simpa using hl)
  obtain ⟨sp, hsp, rfl⟩ := mem_map.mp hbest
  refine ⟨sp, hsp, ?_, fun p hp => ?_⟩
  · unfold findSelectedParent
    simp only [mapM_sortableBlock hstored, hmax, bind_eq_bind, bind_some, Option.pure_def]
  · exact hall _ (mem_map.mpr ⟨p, hp, rfl⟩)

lemma sortBlocks_spec (hnodup : l.Nodup) : ∃ sorted, m.sortBlocks l = some sorted ∧ sorted.Perm l ∧
      sorted.Pairwise fun a b => m.key a < m.key b := by
  let sortable := l.map fun hash => (⟨hash, m.blueWork hash⟩ : SortableBlock)
  have hperm : ((sortable.insertionSort SortableBlock.le).map SortableBlock.hash).Perm l := by
    have h := (perm_insertionSort SortableBlock.le sortable).map SortableBlock.hash
    have hmap : sortable.map SortableBlock.hash = l := by
      simp [sortable, Function.comp_def]
    rwa [hmap] at h
  refine ⟨(sortable.insertionSort SortableBlock.le).map SortableBlock.hash, ?_, hperm, ?_⟩
  · unfold sortBlocks
    simp only [mapM_sortableBlock hstored, bind_eq_bind, bind_some, Option.pure_def]
    rfl
  · -- sorted by `≤`, and distinct blocks have distinct keys
    have hkeys : ∀ b ∈ sortable.insertionSort SortableBlock.le, b.key = m.key b.hash := by
      intro b hb
      rw [mem_insertionSort] at hb
      obtain ⟨hash, -, rfl⟩ := mem_map.mp hb
      rfl
    have hle : ((sortable.insertionSort SortableBlock.le).map SortableBlock.hash).Pairwise
        fun a b => m.key a ≤ m.key b := by
      rw [pairwise_map]
      refine (pairwise_insertionSort SortableBlock.le sortable).imp_of_mem ?_
      intro a b ha hb hab
      rw [← hkeys a ha, ← hkeys b hb]
      exact hab
    have hne := hperm.nodup_iff.mpr hnodup
    exact (hle.and hne).imp fun hab =>
      lt_of_le_of_ne hab.1 fun heq => hab.2 (key_injective heq)

end GhostdagManager

end LapisMonetae.Ghostdag
