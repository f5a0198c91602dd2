import Mathlib.Data.List.AList
import Mathlib.Algebra.BigOperators.Group.List.Basic

/-!
# Loops over finite maps

Rules for programs that iterate over a finite map and build other maps on the way. A map is an
`AList`: its entry list is the iteration order, which the rules below show to be irrelevant.
-/

namespace AssocMap

open List AList Option

variable {α γ δ : Type} {β : α → Type} [DecidableEq α] {m : AList β} {step : γ → Sigma β → γ}
  {k : α} {v : β k} (obs : γ → δ)

lemma lookup_insert_ite {V : Type} (m : AList fun _ : α => V) (a b : α) (v : V) :
    (m.insert a v).lookup b = if b = a then some v else m.lookup b := by
  split
  · next h => rw [h, lookup_insert]
  · next h => exact lookup_insert_ne h

lemma lookup_erase_ite (m : AList β) (a b : α) :
    (m.erase a).lookup b = if b = a then none else m.lookup b := by
  split
  · next h => rw [h, lookup_erase]
  · next h => exact lookup_erase_ne h

/-- An observation that no step of a loop changes. -/
lemma foldl_keeps {ε : Type} {step : γ → ε → γ} {l : List ε}
    (h : ∀ acc, ∀ a ∈ l, obs (step acc a) = obs acc) (init : γ) :
    obs (l.foldl step init) = obs init := by
  induction l generalizing init with
  | nil => rfl
  | cons a l ih =>
    rw [foldl_cons, ih fun acc b hb => h acc b (mem_cons_of_mem a hb), h init a mem_cons_self]

/-- An observation that some steps of a loop overwrite. -/
lemma foldl_overwrites {ε : Type} {step : γ → ε → γ} {P : ε → Prop} [DecidablePred P] {v : δ}
    (h : ∀ acc a, obs (step acc a) = if P a then v else obs acc) (l : List ε) (init : γ) :
    obs (l.foldl step init) = if ∃ a ∈ l, P a then v else obs init := by
  induction l generalizing init with
  | nil => simp
  | cons a l ih =>
    rw [foldl_cons, ih, h]
    simp only [exists_mem_cons_iff]
    by_cases ha : P a
    · simp [ha]
    · simp [ha]

/-- Observing a loop over a list of entries at one key: the observation changes only when the
loop meets that key, which happens at most once. -/
lemma foldl_observe_entries (k : α)
    (g : β k → δ → δ) (hother : ∀ acc s, s.1 ≠ k → obs (step acc s) = obs acc)
    (hkey : ∀ acc v, obs (step acc ⟨k, v⟩) = g v (obs acc)) :
    ∀ (l : List (Sigma β)) (init : γ), l.NodupKeys →
      obs (l.foldl step init) = (l.dlookup k).elim (obs init) (fun v => g v (obs init)) := by
  intro l
  induction l with
  | nil =>
    intro init _
    rfl
  | cons s l ih =>
    intro init hnd
    obtain ⟨hs, hl⟩ := nodupKeys_cons.mp hnd
    rw [foldl_cons, ih _ hl]
    by_cases hk : s.1 = k
    · subst hk
      -- the key does not occur again
      rw [dlookup_eq_none.mpr hs, dlookup_cons_eq]
      exact hkey init s.2
    · rw [dlookup_cons_ne _ _ (Ne.symm hk), hother init s hk]

/-- The observation rule for a loop over a map. -/
lemma foldl_observe (k : α) (g : β k → δ → δ)
    (hother : ∀ acc s, s.1 ≠ k → obs (step acc s) = obs acc)
    (hkey : ∀ acc v, obs (step acc ⟨k, v⟩) = g v (obs acc)) (m : AList β) (init : γ) :
    obs (m.entries.foldl step init) = (m.lookup k).elim (obs init) (fun v => g v (obs init)) :=
  foldl_observe_entries obs k g hother hkey m.entries init m.nodupKeys

/-! ## Loops that copy some of the entries -/

/-- The value at `k`, if `q` keeps its entry. -/
def keepIf (m : AList β) (q : Sigma β → Bool) (k : α) : Option (β k) :=
  match m.lookup k with
  | some v => if q ⟨k, v⟩ then some v else none
  | none => none

/-- A lookup after copying the entries that satisfy `q` into `result`. -/
lemma lookup_foldl_insertIf (m result : AList β) (q : Sigma β → Bool) (k : α) :
    (m.entries.foldl (fun acc s => if q s then acc.insert s.1 s.2 else acc) result).lookup k =
      (keepIf m q k).or (result.lookup k) := by
  rw [foldl_observe (fun acc : AList β => acc.lookup k) k (fun v r => if q ⟨k, v⟩ then some v else r)]
  · unfold keepIf
    cases m.lookup k with
    | none => rfl
    | some v => cases h : q ⟨k, v⟩ <;> simp [h]
  · intro acc s hs
    split
    · exact lookup_insert_ne (Ne.symm hs)
    · rfl
  · intro acc v
    split
    · exact lookup_insert acc
    · rfl

/-- A loop that distributes the entries over two maps is two copying loops. -/
lemma foldl_partition (l : List (Sigma β)) (q : Sigma β → Bool) (acc : AList β × AList β) :
    l.foldl (fun acc s =>
      if q s then (acc.1.insert s.1 s.2, acc.2) else (acc.1, acc.2.insert s.1 s.2)) acc =
    (l.foldl (fun acc s => if q s then acc.insert s.1 s.2 else acc) acc.1,
      l.foldl (fun acc s => if !q s then acc.insert s.1 s.2 else acc) acc.2) := by
  induction l generalizing acc with
  | nil => rfl
  | cons s l ih =>
    rw [foldl_cons, ih]
    cases h : q s <;> simp [h]

lemma forall_mem_entries {P : Sigma β → Prop} :
    (∀ s ∈ m.entries, P s) ↔ ∀ k v, m.lookup k = some v → P ⟨k, v⟩ := by
  constructor
  · intro h k v hv
    exact h ⟨k, v⟩ (mem_lookup_iff.mp hv)
  · rintro h ⟨k, v⟩ hs
    exact h k v (mem_lookup_iff.mpr hs)

/-! ## Loops that succeed at every element -/

lemma foldlM_eq_some_foldl {ε : Type} {f : γ → ε → Option γ} {g : γ → ε → γ} (l : List ε) (init : γ)
    (h : ∀ acc, ∀ a ∈ l, f acc a = some (g acc a)) : l.foldlM f init = some (l.foldl g init) := by
  induction l generalizing init with
  | nil => rfl
  | cons a l ih =>
    rw [foldlM_cons, h init a mem_cons_self]
    exact ih _ fun acc b hb => h acc b (mem_cons_of_mem a hb)

/-- A list with the elements of an image is the image of a list. -/
lemma exists_map_of_perm_map {ε ζ : Type} {f : ε → ζ} {l : List ε} {rows : List ζ}
    (h : rows.Perm (l.map f)) : ∃ l' : List ε, l'.Perm l ∧ rows = l'.map f := by
  have hrel : List.Forall₂ (fun b a => b = f a) (l.map f) l :=
    forall₂_map_left_iff.mpr (forall₂_same.mpr fun _ _ => rfl)
  obtain ⟨l', hl', hperm⟩ := perm_comp_forall₂ h hrel
  exact ⟨l', hperm, forall₂_eq_eq_eq.le _ _ (forall₂_map_right_iff.mpr hl')⟩

/-! ## Loops over lists of keys and of rows -/

lemma lookup_foldl_erase (keys : List α) (m : AList β) :
    (keys.foldl (fun m k => m.erase k) m).lookup k = some v ↔ k ∉ keys ∧ m.lookup k = some v := by
  induction keys generalizing m with
  | nil => simp
  | cons k' keys ih =>
    rw [foldl_cons, ih, mem_cons, lookup_erase_ite]
    by_cases hk : k = k'
    · simp [hk]
    · simp [hk]

/-- A lookup after inserting rows in which no key has two values. -/
lemma lookup_foldl_insert (rows : List (Sigma β))
    (hfun : ∀ k (v v' : β k), ⟨k, v⟩ ∈ rows → ⟨k, v'⟩ ∈ rows → v = v') (m : AList β) :
    (rows.foldl (fun m s => m.insert s.1 s.2) m).lookup k = some v ↔
      ⟨k, v⟩ ∈ rows ∨ (∀ v', ⟨k, v'⟩ ∉ rows) ∧ m.lookup k = some v := by
  induction rows generalizing m with
  | nil => simp
  | cons s rows ih =>
    have hrest := ih (fun k v v' h h' =>
      hfun k v v' (mem_cons_of_mem _ h) (mem_cons_of_mem _ h')) (m.insert s.1 s.2)
    rw [foldl_cons, hrest]
    by_cases hk : s.1 = k
    · subst hk
      have hs : (⟨s.1, s.2⟩ : Sigma β) ∈ s :: rows := mem_cons_self
      rw [lookup_insert, some_inj]
      constructor
      · rintro (hmem | ⟨-, rfl⟩)
        · exact .inl (mem_cons_of_mem _ hmem)
        · exact .inl hs
      · rintro (hmem | ⟨hnone, -⟩)
        · -- a later row of this key would carry the same value
          by_cases hlater : ∃ v', ⟨s.1, v'⟩ ∈ rows
          · obtain ⟨v', hv'⟩ := hlater
            rw [hfun _ v v' hmem (mem_cons_of_mem _ hv')]
            exact .inl hv'
          · exact .inr ⟨fun v' hv' => hlater ⟨v', hv'⟩, hfun _ _ _ hs hmem⟩
        · exact absurd hs (hnone s.2)
    · have hne : ∀ v', (⟨k, v'⟩ : Sigma β) ≠ s := fun v' h => hk (by rw [← h])
      rw [lookup_insert_ne (Ne.symm hk)]
      simp [hne]

/-- A loop that computes the value of each key. -/
lemma exists_foldlM_insert {V : Type} {f : α → Option V} (l : List α)
    (m : AList fun _ : α => V) (h : ∀ a ∈ l, (f a).isSome) :
    ∃ m', l.foldlM (fun m a => do return m.insert a (← f a)) m = some m' ∧
      ∀ a, m'.lookup a = if a ∈ l then f a else m.lookup a := by
  induction l generalizing m with
  | nil => exact ⟨m, rfl, fun a => by simp⟩
  | cons b l ih =>
    obtain ⟨v, hv⟩ := isSome_iff_exists.mp (h b mem_cons_self)
    obtain ⟨m', hm', hlookup⟩ := ih (m.insert b v) fun a ha => h a (mem_cons_of_mem b ha)
    refine ⟨m', ?_, fun a => ?_⟩
    · rw [foldlM_cons, hv]
      exact hm'
    · rw [hlookup a, lookup_insert_ite]
      by_cases ha : a = b
      · simp [ha, hv]
      · simp [ha]

/-! ## Nested maps -/

section Nested

variable {κ ι V : Type} [DecidableEq κ] [DecidableEq ι]

/-- A map of maps. -/
abbrev Nested (κ ι V : Type) := AList fun _ : κ => AList fun _ : ι => V

namespace Nested

/-- The value under an outer and an inner key. -/
def get (self : Nested κ ι V) (outer : κ) (inner : ι) : Option V :=
  (self.lookup outer).bind fun m => m.lookup inner

/-- Inserts into the inner map of `outer`, which is created where there is none. -/
def insertInto (self : Nested κ ι V) (outer : κ) (inner : ι) (value : V) : Nested κ ι V :=
  match self.lookup outer with
  | some m => self.insert outer (m.insert inner value)
  | none => self.insert outer (AList.insert inner value ∅)

/-- All values with their two keys. -/
def rows (self : Nested κ ι V) : List (κ × ι × V) :=
  self.entries.flatMap fun s => s.2.entries.map fun t => (s.1, t.1, t.2)

lemma get_insertInto (self : Nested κ ι V) (outer k : κ) (inner i : ι) (value : V) :
    (self.insertInto outer inner value).get k i =
      if k = outer ∧ i = inner then some value else self.get k i := by
  by_cases hk : k = outer
  · subst hk
    by_cases hi : i = inner
    · subst hi
      unfold insertInto get
      cases self.lookup k with
      | none => simp [-insert_empty]
      | some m => simp
    · unfold insertInto get
      cases h : self.lookup k with
      | none => simp [hi, -insert_empty]
      | some m => simp [hi]
  · unfold insertInto get
    cases self.lookup outer <;> simp [hk, lookup_insert_ne hk]

lemma mem_rows (self : Nested κ ι V) {k : κ} {i : ι} {v : V} :
    (k, i, v) ∈ self.rows ↔ self.get k i = some v := by
  constructor
  · intro h
    obtain ⟨⟨k', m⟩, hs, hin⟩ := mem_flatMap.mp h
    obtain ⟨⟨i', v'⟩, ht, heq⟩ := mem_map.mp hin
    cases heq
    exact bind_eq_some_iff.mpr
      ⟨m, mem_lookup_iff.mpr hs, mem_lookup_iff.mpr ht⟩
  · intro h
    obtain ⟨m, hm, hv⟩ := bind_eq_some_iff.mp h
    exact mem_flatMap.mpr ⟨⟨k, m⟩, mem_lookup_iff.mp hm,
      mem_map.mpr ⟨⟨i, v⟩, mem_lookup_iff.mp hv, rfl⟩⟩

end Nested

end Nested

/-! ## Totals -/

section Totals

variable {N : Type} [AddCommMonoid N] (f : Sigma β → N)

/-- The sum of a measure over the entries of a map. -/
def total (f : Sigma β → N) (m : AList β) : N := (m.entries.map f).sum

lemma total_insert (m : AList β) (k : α) (v : β k) :
    total f (m.insert k v) = f ⟨k, v⟩ + total f (m.erase k) := by
  show ((AList.insert k v m).entries.map f).sum = _
  rw [entries_insert, map_cons, sum_cons]
  rfl

lemma erase_of_lookup_eq_none (h : m.lookup k = none) : m.erase k = m :=
  AList.ext (kerase_of_notMem_keys (lookup_eq_none.mp h))

/-- A total depends on the lookups only. -/
lemma total_congr {m m' : AList β} (h : ∀ k, m.lookup k = m'.lookup k) :
    total f m = total f m' := by
  have hperm : m.entries.Perm m'.entries :=
    lookup_ext m.nodupKeys m'.nodupKeys fun k v => by
      show v ∈ m.lookup k ↔ v ∈ m'.lookup k
      rw [h k]
  exact (hperm.map f).sum_eq

lemma total_eq_add_erase
    (h : m.lookup k = some v) : total f m = f ⟨k, v⟩ + total f (m.erase k) := by
  -- the map is the one that the entry is inserted into again
  have hsame : ∀ k', m.lookup k' = ((m.erase k).insert k v).lookup k' := by
    intro k'
    by_cases hk : k' = k
    · subst hk
      rw [h, lookup_insert]
    · rw [lookup_insert_ne hk, lookup_erase_ne hk]
  have hagain : (m.erase k).erase k = m.erase k :=
    erase_of_lookup_eq_none (lookup_erase k m)
  rw [total_congr f hsame, total_insert, hagain]

lemma exists_of_total_ne_zero {f : Sigma β → N} (h : total f m ≠ 0) :
    ∃ k v, m.lookup k = some v ∧ f ⟨k, v⟩ ≠ 0 := by
  obtain ⟨n, hn, hne⟩ : ∃ n ∈ m.entries.map f, n ≠ 0 := by
    by_contra hnone
    push Not at hnone
    exact h (sum_eq_zero hnone)
  obtain ⟨⟨k, v⟩, hmem, rfl⟩ := mem_map.mp hn
  exact ⟨k, v, mem_lookup_iff.mpr hmem, hne⟩

end Totals

end AssocMap
