import LapisMonetae.Utxo.DiffTheorems

/-!
# Differences of unrelated diffs

`diff_from` checks that its two diffs can come from one base set. Three of its checks are made at
every outpoint; the fourth, for an outpoint that both diffs add, compares two flags of the whole
collections. So a pair of diffs can pass that no base set has, and the difference then does not
lead from the one to the other.
-/

namespace LapisMonetae.Utxo

open UtxoCollection AList

namespace Change

variable {c1 c2 : Change}

/-- The checks that `diff_from` makes at every outpoint. -/
structure PassesRules (c1 c2 : Change) : Prop where
  removeAdd : ∀ v1 v2, c1.remove = some v1 → c2.add = some v2 →
    v2.blockDaaScore ≠ v1.blockDaaScore ∧
      (HasScore c1.add v2.blockDaaScore ∨ HasScore c2.remove v1.blockDaaScore)
  addRemove : ∀ v1 v2, c1.add = some v1 → c2.remove = some v2 →
    v2.blockDaaScore ≠ v1.blockDaaScore ∧
      (HasScore c1.remove v2.blockDaaScore ∨ HasScore c2.add v1.blockDaaScore)
  removeRemove : ∀ v1 v2, c1.remove = some v1 → c2.remove = some v2 →
    v2.blockDaaScore = v1.blockDaaScore

/-- What both changes add, only the first of them removes before. -/
def Misses (c1 c2 : Change) : Prop :=
  (shared c1.add c2.add).isSome ∧ c1.remove.isSome ∧ c2.remove = none

section Difference

variable (hn1 : c1.Normal) (hn2 : c2.Normal)
  (hid : Identified fun e => none = some e ∨ c1.Mentions e ∨ c2.Mentions e)
  (h : c1.PassesRules c2)

include hn1 hn2 h

lemma composable_difference (hmisses : ¬c1.Misses c2) : c1.Composable (c1.difference c2) := by
  obtain ⟨hra, har, hrr⟩ := h
  unfold Misses at hmisses
  obtain ⟨a1, r1⟩ := c1
  obtain ⟨a2, r2⟩ := c2
  cases a1 <;> cases r1 <;> cases a2 <;> cases r2 <;>
  constructor <;>
  grind [difference, HasScore, shared, unshared]

include hid in
lemma andThen_difference_of_passesRules (hmisses : ¬c1.Misses c2) :
    c1.andThen (c1.difference c2) = c2 := by
  obtain ⟨hra, har, hrr⟩ := h
  unfold Identified at hid
  unfold Normal at hn1 hn2
  obtain ⟨a1, r1⟩ := c1
  obtain ⟨a2, r2⟩ := c2
  cases a1 <;> cases r1 <;> cases a2 <;> cases r2 <;>
  grind [andThen, difference, HasScore, shared, unshared, Mentions]

omit hn1 hn2 h in
/-- The removed entry is added again over the entry that is already there. -/
lemma not_composable_difference (hmisses : c1.Misses c2) : ¬c1.Composable (c1.difference c2) := by
  obtain ⟨hboth, hremove, hnone⟩ := hmisses
  rintro ⟨-, hadd⟩
  obtain ⟨a1, r1⟩ := c1
  obtain ⟨a2, r2⟩ := c2
  cases a1 <;> cases r1 <;> cases a2 <;>
  grind [difference, HasScore, shared, unshared]

end Difference

end Change

/-! ## What a success of `diff_from` and `with_diff` says -/

variable {d1 d2 r d : UtxoDiff}

/-- A difference that is returned has passed the rules at every outpoint. -/
lemma diffFrom_eq_ok (h : d1.diffFrom d2 = .ok r) :
    (∀ p, (changeAt d1 p).PassesRules (changeAt d2 p)) ∧
      ∀ p, changeAt r p = (changeAt d1 p).difference (changeAt d2 p) := by
  unfold UtxoDiff.diffFrom at h
  split at h
  · cases h
  · rename_i hremoveAdd
    split at h
    · cases h
    · rename_i haddRemove
      split at h
      · cases h
      · rename_i hremoveRemove
        rw [intersectsWithRule_scores_iff] at hremoveAdd haddRemove
        rw [intersectsWithRule_eq_none_iff] at hremoveRemove
        dsimp only at h
        split at h
        · cases h
        · obtain rfl := Except.ok.inj h
          refine ⟨fun p => ⟨hremoveAdd p, haddRemove p, fun v1 v2 h1 h2 => ?_⟩, fun p => ?_⟩
          · exact bne_eq_false_iff_eq.mp (hremoveRemove p v1 v2 h1 h2)
          · unfold changeAt Change.difference
            simp only [added, removed, lookup_subtraction, lookup_subtraction_fst,
              lookup_empty, Option.or_none]

/-- A composition that is returned has passed the checks at every outpoint. -/
lemma composable_of_withDiff (h : d1.withDiff r = .ok d) (p : TransactionOutpoint) :
    (changeAt d1 p).Composable (changeAt r p) := by
  unfold UtxoDiff.withDiff UtxoDiff.withDiffInPlace at h
  split at h
  · rename_i clone hclone
    split at hclone
    · cases hclone
    · rename_i hremove
      split at hclone
      · cases hclone
      · rename_i hadd
        rw [intersectsWithRule_eq_none_iff] at hremove hadd
        constructor
        · intro v1 v2 h1 h2
          exact not_containsWithDaaScore_eq_false.mp (hremove p v1 v2 h1 h2)
        · intro v1 v2 h1 h2
          exact not_containsWithDaaScore_eq_false.mp (hadd p v1 v2 h1 h2)
  · cases h

/-! ## Differences that lead to the other diff -/

/-- For normalized diffs in which an outpoint and a DAA score determine the entry, a difference that
`diff_from` returns leads from the first diff to the second exactly when every outpoint that both
add under one DAA score and that the first removes is removed by the second as well. -/
theorem withDiff_diffFrom_iff (hn1 : Normalized d1) (hn2 : Normalized d2)
    (hid : EntriesIdentified (fun _ => none) d1 d2) (hr : d1.diffFrom d2 = .ok r) :
    (∃ d, d1.withDiff r = .ok d ∧ d.Equiv d2) ↔
      ∀ p, (shared (d1.add.lookup p) (d2.add.lookup p)).isSome →
        (d1.remove.lookup p).isSome → (d2.remove.lookup p).isSome := by
  obtain ⟨hrules, hchange⟩ := diffFrom_eq_ok hr
  constructor
  · rintro ⟨d, hd, -⟩ p hboth hremove
    by_contra hnone
    have hcomposable := composable_of_withDiff hd p
    rw [hchange p] at hcomposable
    exact Change.not_composable_difference ⟨hboth, hremove, Option.not_isSome_iff_eq_none.mp hnone⟩
      hcomposable
  · intro hcovered
    have hmisses : ∀ p, ¬(changeAt d1 p).Misses (changeAt d2 p) := by
      rintro p ⟨hboth, hremove, hnone⟩
      have hsome := hcovered p hboth hremove
      rw [show d2.remove.lookup p = none from hnone] at hsome
      cases hsome
    have hcomposable : ∀ p, (changeAt d1 p).Composable (changeAt r p) := by
      intro p
      rw [hchange p]
      exact Change.composable_difference (hn1 p) (hn2 p) (hrules p) (hmisses p)
    obtain ⟨d, hd, hcomposed⟩ := withDiff_ok hcomposable
    refine ⟨d, hd, fun p => ?_⟩
    rw [hcomposed p, hchange p]
    exact Change.andThen_difference_of_passesRules (hn1 p) (hn2 p) (hid p) (hrules p) (hmisses p)

/-! ### Two outpoints -/

lemma normalized_of_entries (h : ∀ s ∈ d.add.entries, ∀ t ∈ d.remove.entries, s.1 = t.1 →
    s.2.blockDaaScore ≠ t.2.blockDaaScore) : Normalized d := by
  intro p a r ha hr
  exact h ⟨p, a⟩ (mem_lookup_iff.mp ha) ⟨p, r⟩ (mem_lookup_iff.mp hr) rfl

/-- The entries of a diff. -/
def UtxoDiff.entries (d : UtxoDiff) : List (Sigma fun _ : TransactionOutpoint => UtxoEntry) :=
  d.add.entries ++ d.remove.entries

lemma mem_entries_of_mentions {p : TransactionOutpoint} {e : UtxoEntry}
    (h : (changeAt d p).Mentions e) : ⟨p, e⟩ ∈ d.entries := by
  rcases h with h | h
  · exact List.mem_append_left _ (mem_lookup_iff.mp h)
  · exact List.mem_append_right _ (mem_lookup_iff.mp h)

/-- An outpoint and a DAA score determine the entry of two diffs if they do so in their lists. -/
lemma entriesIdentified_of_entries (h : ∀ s ∈ d1.entries ++ d2.entries,
    ∀ t ∈ d1.entries ++ d2.entries, s.1 = t.1 → s.2.blockDaaScore = t.2.blockDaaScore → s.2 = t.2) :
    EntriesIdentified (fun _ => none) d1 d2 := by
  intro p e e' he he' hscore
  have hmem : ∀ e, (none = some e ∨ (changeAt d1 p).Mentions e ∨ (changeAt d2 p).Mentions e) →
      ⟨p, e⟩ ∈ d1.entries ++ d2.entries := by
    rintro e (he | he | he)
    · cases he
    · exact List.mem_append_left _ (mem_entries_of_mentions he)
    · exact List.mem_append_right _ (mem_entries_of_mentions he)
  exact h ⟨p, e⟩ (hmem e he) ⟨p, e'⟩ (hmem e' he') rfl hscore

/-- The entry of an output that was accepted at the given DAA score. -/
def entryAt (daaScore : ℕ) : UtxoEntry := ⟨10, ⟨0, []⟩, daaScore, false⟩

/-- The two outpoints re-added, of which one was removed. -/
def readded (removed : TransactionOutpoint) : UtxoDiff :=
  ⟨(AList.singleton ⟨7, 0⟩ (entryAt 2)).insert ⟨8, 0⟩ (entryAt 2), AList.singleton removed (entryAt 1)⟩

/-- Both diffs add both outpoints, and each of them removes another one: no base set has both, but
the two flags agree. The difference adds the first outpoint again and is rejected. -/
theorem withDiff_diffFrom_readded : Normalized (readded ⟨7, 0⟩) ∧ Normalized (readded ⟨8, 0⟩) ∧
      EntriesIdentified (fun _ => none) (readded ⟨7, 0⟩) (readded ⟨8, 0⟩) ∧
      ∃ r, (readded ⟨7, 0⟩).diffFrom (readded ⟨8, 0⟩) = .ok r ∧
        (readded ⟨7, 0⟩).withDiff r = .error (.duplicateAddPoint ⟨7, 0⟩) := by
  refine ⟨normalized_of_entries (by decide), normalized_of_entries (by decide),
    entriesIdentified_of_entries (by decide), ⟨AList.singleton ⟨7, 0⟩ (entryAt 1),
      AList.singleton ⟨8, 0⟩ (entryAt 1)⟩, rfl, rfl⟩

/-- Both diffs remove the outpoint that both re-add, and the second adds another one. -/
theorem withDiff_diffFrom_added : let d1 : UtxoDiff := ⟨AList.singleton ⟨7, 0⟩ (entryAt 2),
      AList.singleton ⟨7, 0⟩ (entryAt 1)⟩
    ∃ r, d1.diffFrom (readded ⟨7, 0⟩) = .ok r ∧
      ∃ d, d1.withDiff r = .ok d ∧ d.Equiv (readded ⟨7, 0⟩) := by
  intro d1
  refine ⟨⟨AList.singleton ⟨8, 0⟩ (entryAt 2), ∅⟩, rfl, ?_⟩
  refine (withDiff_diffFrom_iff (normalized_of_entries (by decide))
    (normalized_of_entries (by decide)) (entriesIdentified_of_entries (by decide)) rfl).mpr ?_
  exact fun _ _ hremove => hremove

end LapisMonetae.Utxo
