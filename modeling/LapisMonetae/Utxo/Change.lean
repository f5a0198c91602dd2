import LapisMonetae.Utxo.Collection

/-!
# A diff at one outpoint

What a UTXO diff is for, outpoint by outpoint: a change removes and adds an entry of one
outpoint, may be applied to the entry it finds there, and changes can be composed and
subtracted. The algebra of diffs is this algebra at every outpoint.
-/

namespace LapisMonetae.Utxo

open UtxoCollection (shared unshared)

/-- What a diff adds and removes at one outpoint. -/
structure Change where
  add : Option UtxoEntry
  remove : Option UtxoEntry
deriving DecidableEq

namespace Change

variable {u : Option UtxoEntry} {c c1 c2 r : Change}

/-- The entry after the change. -/
def apply (c : Change) (u : Option UtxoEntry) : Option UtxoEntry :=
  match c.add with
  | some e => some e
  | none => if c.remove.isSome then none else u

/-- A change fits the entry `u`: it removes only the entry that is there, and adds one only
where there is none or the present one is removed. -/
structure Valid (u : Option UtxoEntry) (c : Change) : Prop where
  remove : ∀ e, c.remove = some e → u = some e
  add : ∀ e, c.add = some e → u = none ∨ c.remove.isSome

/-- The change does not remove and re-add under one DAA score. -/
def Normal (c : Change) : Prop :=
  ∀ a r, c.add = some a → c.remove = some r → a.blockDaaScore ≠ r.blockDaaScore

/-- The entries a change mentions. -/
def Mentions (c : Change) (e : UtxoEntry) : Prop := c.add = some e ∨ c.remove = some e

/-- The change backwards. -/
def reversed (c : Change) : Change := ⟨c.remove, c.add⟩

/-- The composition of two changes, as `with_diff` computes it. -/
def andThen (c1 c2 : Change) : Change :=
  let remove := (unshared c2.remove c1.add).or c1.remove
  let add := if (shared c2.remove c1.add).isSome then none else c1.add
  ⟨(unshared c2.add remove).or add, if (shared c2.add remove).isSome then none else remove⟩

/-- The change that leads from `c1` to `c2`, as `diff_from` computes it. -/
def difference (c1 c2 : Change) : Change :=
  ⟨(unshared c2.add c1.add).or (unshared c1.remove c2.remove),
    (unshared c2.remove c1.remove).or (unshared c1.add c2.add)⟩

/-- The change holds an entry with this DAA score. -/
def HasScore (x : Option UtxoEntry) (daaScore : ℕ) : Prop :=
  ∃ e, x = some e ∧ e.blockDaaScore = daaScore

/-- The sanity checks of `with_diff` pass. -/
structure Composable (c1 c2 : Change) : Prop where
  remove : ∀ v1 v2, c2.remove = some v1 → c1.remove = some v2 → HasScore c1.add v1.blockDaaScore
  add : ∀ v1 v2, c2.add = some v1 → c1.add = some v2 → HasScore c2.remove v2.blockDaaScore

/-- The sanity checks of `diff_from` pass. -/
structure Comparable (c1 c2 : Change) : Prop where
  removeAdd : ∀ v1 v2, c1.remove = some v1 → c2.add = some v2 →
    v2.blockDaaScore ≠ v1.blockDaaScore ∧
      (HasScore c1.add v2.blockDaaScore ∨ HasScore c2.remove v1.blockDaaScore)
  addRemove : ∀ v1 v2, c1.add = some v1 → c2.remove = some v2 →
    v2.blockDaaScore ≠ v1.blockDaaScore ∧
      (HasScore c1.remove v2.blockDaaScore ∨ HasScore c2.add v1.blockDaaScore)
  removeRemove : ∀ v1 v2, c1.remove = some v1 → c2.remove = some v2 →
    v2.blockDaaScore = v1.blockDaaScore
  addAdd : (shared c1.add c2.add).isSome → (c1.remove.isSome ↔ c2.remove.isSome)

/-- Entries with equal DAA score are identical within the set `s`. -/
def Identified (s : UtxoEntry → Prop) : Prop :=
  ∀ e e', s e → s e' → e.blockDaaScore = e'.blockDaaScore → e = e'

/-- The four shapes of a valid change. -/
inductive Shape (u : Option UtxoEntry) : Change → Prop
  | none : Shape u ⟨none, none⟩
  | add (a : UtxoEntry) (hu : u = none) : Shape u ⟨some a, none⟩
  | remove (e : UtxoEntry) (hu : u = some e) : Shape u ⟨none, some e⟩
  | replace (e a : UtxoEntry) (hu : u = some e) : Shape u ⟨some a, some e⟩

lemma Valid.shape (h : c.Valid u) : Shape u c := by
  obtain ⟨hremove, hadd⟩ := h
  obtain ⟨add, remove⟩ := c
  cases remove with
  | none =>
    cases add with
    | none => exact .none
    | some a => exact .add a (by simpa using hadd a rfl)
  | some e =>
    cases add with
    | none => exact .remove e (hremove e rfl)
    | some a => exact .replace e a (hremove e rfl)

/-- What is there after a valid change: the added entry, or the old one if it is not removed. -/
lemma Valid.apply_eq_some_iff (h : c.Valid u) {x : UtxoEntry} :
    c.apply u = some x ↔ c.add = some x ∨ u = some x ∧ c.remove ≠ some x := by
  cases h.shape <;> simp_all [apply]

/-! ## Reversal -/

lemma Valid.reversed (h : c.Valid u) : c.reversed.Valid (c.apply u) := by
  cases h.shape <;> constructor <;> simp_all [Change.reversed, apply]

lemma Valid.apply_reversed (h : c.Valid u) : c.reversed.apply (c.apply u) = u := by
  cases h.shape <;> simp_all [Change.reversed, apply]

/-! ## Composition -/

section Composition

variable (h1 : c1.Valid u) (h2 : c2.Valid (c1.apply u))
  (hid : Identified fun e => u = some e ∨ c1.Mentions e ∨ c2.Mentions e)

include h1 h2 hid

lemma apply_andThen : (c1.andThen c2).apply u = c2.apply (c1.apply u) := by
  unfold Identified at hid
  cases h1.shape <;> cases h2.shape <;>
  grind [apply, andThen, shared, unshared, Mentions]

lemma andThen_valid : (c1.andThen c2).Valid u := by
  cases h1.shape <;> cases h2.shape <;>
  constructor <;>
  grind [apply, andThen, shared, unshared, Mentions]

omit hid in
/-- The composition re-adds under the removed score only if the first change does. -/
lemma andThen_normal (hn : c1.Normal) : (c1.andThen c2).Normal := by
  unfold Normal at hn ⊢
  cases h1.shape <;> cases h2.shape <;>
  grind [apply, andThen, shared, unshared, Mentions]

omit hid in
lemma composable_of_valid : c1.Composable c2 := by
  cases h1.shape <;> cases h2.shape <;>
  constructor <;>
  grind [apply, HasScore]

/-- Subtracting the first change from the composition gives the second change back. -/
lemma difference_andThen (hn1 : c1.Normal) (hn2 : c2.Normal) :
    c1.difference (c1.andThen c2) = c2 := by
  unfold Identified at hid
  unfold Normal at hn1 hn2
  cases h1.shape <;> cases h2.shape <;>
  grind [apply, andThen, difference, shared, unshared, Mentions]

end Composition

/-! ## Difference -/

section Difference

variable (h1 : c1.Valid u) (h2 : c2.Valid u)

include h1 h2

/-- Normal changes that are valid over one entry pass the checks of `diff_from`. -/
lemma comparable_of_valid (hn1 : c1.Normal) (hn2 : c2.Normal) : c1.Comparable c2 := by
  unfold Normal at hn1 hn2
  cases h1.shape <;> cases h2.shape <;>
  constructor <;>
  grind [apply, HasScore, shared]

lemma difference_reversed : c2.difference c1 = (c1.difference c2).reversed := by
  cases h1.shape <;> cases h2.shape <;>
  grind [reversed, difference, unshared]

lemma difference_normal (hn1 : c1.Normal) (hn2 : c2.Normal) : (c1.difference c2).Normal := by
  unfold Normal at hn1 hn2 ⊢
  cases h1.shape <;> cases h2.shape <;>
  grind [difference, unshared]

variable (hid : Identified fun e => u = some e ∨ c1.Mentions e ∨ c2.Mentions e)

include hid

lemma difference_valid : (c1.difference c2).Valid (c1.apply u) := by
  cases h1.shape <;> cases h2.shape <;>
  constructor <;>
  grind [apply, difference, shared, unshared, Mentions]

lemma andThen_difference (hn2 : c2.Normal) : c1.andThen (c1.difference c2) = c2 := by
  unfold Identified at hid
  unfold Normal at hn2
  cases h1.shape <;> cases h2.shape <;>
  grind [apply, andThen, difference, shared, unshared, Mentions]

end Difference

end Change

end LapisMonetae.Utxo
