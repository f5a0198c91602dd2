import LapisMonetae.Utxo.Change
import LapisMonetae.Utxo.Diff

/-!
# The algebra of UTXO diffs

`with_diff` composes and `diff_from` subtracts, outpoint by outpoint. Both checks and results
are related to the `Change` of every outpoint; validity, composition and difference of whole
diffs follow.
-/

namespace LapisMonetae.Utxo

open UtxoCollection AList Change Bool Option

section Definitions

variable {D : Type} [ImmutableUtxoDiff D]

/-- What a diff does at one outpoint. -/
def changeAt (d : D) (p : TransactionOutpoint) : Change :=
  ⟨(added d).lookup p, (removed d).lookup p⟩

/-- A diff is valid over a UTXO set: it removes only entries of the set, and adds only at
outpoints that are free or that it removes. -/
def ValidOver (base : UtxoView) (d : D) : Prop :=
  ∀ p, (changeAt d p).Valid (base p)

/-- No outpoint is removed and added under one DAA score. -/
def Normalized (d : D) : Prop :=
  ∀ p, (changeAt d p).Normal

end Definitions

/-- Equality of diffs as hash maps: equal lookups on both sides. -/
def UtxoDiff.Equiv (d d' : UtxoDiff) : Prop :=
  ∀ p, changeAt d p = changeAt d' p

/-- Entries of one outpoint with equal DAA score are identical, among the entries of the base
set and of two diffs. -/
def EntriesIdentified {D : Type} [ImmutableUtxoDiff D] (base : UtxoView) (d1 : UtxoDiff)
    (d2 : D) : Prop :=
  ∀ p, Change.Identified fun e =>
    base p = some e ∨ (changeAt d1 p).Mentions e ∨ (changeAt d2 p).Mentions e

variable {D : Type} [ImmutableUtxoDiff D] {base : UtxoView} {d1 d2 : UtxoDiff} {other : D}
  {p : TransactionOutpoint} {c : Change}

/-- Applying a diff, at one outpoint. -/
lemma compose_apply (base : UtxoView) (d : D) (p : TransactionOutpoint) :
    base.compose d p = (changeAt d p).apply (base p) := rfl

/-- Writing a diff to a stored set is applying it. -/
lemma lookup_writeDiff (self : UtxoCollection) (d : D) (p : TransactionOutpoint) :
    (self.writeDiff d).lookup p = UtxoView.compose (fun q => self.lookup q) d p := by
  unfold UtxoCollection.writeDiff
  rw [lookup_addCollection, lookup_removeCollection]
  unfold UtxoView.compose
  cases (added d).lookup p <;> rfl

/-- `containsWithDaaScore` in terms of changes. -/
lemma not_containsWithDaaScore_eq_false {m : UtxoCollection} {daaScore : ℕ} :
    (!m.containsWithDaaScore p daaScore) = false ↔ Change.HasScore (m.lookup p) daaScore := by
  rw [not_eq_false', containsWithDaaScore_iff]
  rfl

/-! ## Diffs of one outpoint -/

/-- The collection with at most one entry, at `p`. -/
def entryOnly (p : TransactionOutpoint) : Option UtxoEntry → UtxoCollection
  | some e => AList.singleton p e
  | none => ∅

/-- The diff that changes the outpoint `p` only. -/
def changeOnly (p : TransactionOutpoint) (c : Change) : UtxoDiff :=
  ⟨entryOnly p c.add, entryOnly p c.remove⟩

/-- A lookup in a collection of one entry. -/
lemma lookup_entryOnly (p q : TransactionOutpoint) (x : Option UtxoEntry) :
    (entryOnly p x).lookup q = if q = p then x else none := by
  cases x with
  | none =>
    rw [ite_self]
    rfl
  | some e =>
    by_cases hq : q = p
    · subst hq
      rw [if_pos rfl]
      exact List.dlookup_cons_eq (β := fun _ => UtxoEntry) [] q e
    · rw [if_neg hq]
      exact List.dlookup_cons_ne (β := fun _ => UtxoEntry) [] ⟨p, e⟩ hq

lemma changeAt_changeOnly (p q : TransactionOutpoint) (c : Change) :
    changeAt (changeOnly p c) q = if q = p then c else ⟨none, none⟩ := by
  unfold changeAt changeOnly
  simp only [added, removed, lookup_entryOnly]
  split <;> rfl

lemma validOver_changeOnly (h : c.Valid (base p)) : ValidOver base (changeOnly p c) := by
  intro q
  rw [changeAt_changeOnly]
  split
  · subst q
    exact h
  · constructor <;> simp

lemma normalized_changeOnly (h : c.Normal) : Normalized (changeOnly p c) := by
  intro q
  rw [changeAt_changeOnly]
  split
  · exact h
  · simp [Change.Normal]

/-- Identified entries, for a base and two diffs that hold one outpoint only. -/
lemma entriesIdentified_changeOnly {u : Option UtxoEntry} {c1 c2 : Change}
    (h : Change.Identified fun e => u = some e ∨ c1.Mentions e ∨ c2.Mentions e) :
    EntriesIdentified (fun q => if q = p then u else none) (changeOnly p c1)
      (changeOnly p c2) := by
  intro q
  rw [changeAt_changeOnly, changeAt_changeOnly]
  by_cases hq : q = p
  · simpa only [hq, if_true] using h
  · simp [hq, Change.Identified, Change.Mentions]

/-! ## Composition -/

/-- `with_diff_in_place` succeeds if the changes of every outpoint pass its checks, and
composes them. -/
lemma withDiffInPlace_ok (h : ∀ p, (changeAt d1 p).Composable (changeAt other p)) :
    ∃ d, d1.withDiffInPlace other = (.ok (), d) ∧
      ∀ p, changeAt d p = (changeAt d1 p).andThen (changeAt other p) := by
  unfold UtxoDiff.withDiffInPlace
  have hremove : (removed other).intersectsWithRule d1.remove
      (fun outpoint entryToAdd _ =>
        !d1.add.containsWithDaaScore outpoint entryToAdd.blockDaaScore) = none := by
    rw [intersectsWithRule_eq_none_iff]
    intro p v1 v2 h1 h2
    exact not_containsWithDaaScore_eq_false.mpr ((h p).remove v1 v2 h1 h2)
  have hadd : (added other).intersectsWithRule d1.add
      (fun outpoint _ existingEntry =>
        !(removed other).containsWithDaaScore outpoint existingEntry.blockDaaScore) = none := by
    rw [intersectsWithRule_eq_none_iff]
    intro p v1 v2 h1 h2
    exact not_containsWithDaaScore_eq_false.mpr ((h p).add v1 v2 h1 h2)
  rw [hremove, hadd]
  refine ⟨_, rfl, fun p => ?_⟩
  unfold changeAt andThen
  simp only [added, removed, lookup_intersection_fst, lookup_intersection_snd,
    lookup_removeCollection, lookup_empty, or_none]

lemma withDiffInPlace_error {e : UtxoAlgebraError} {d : UtxoDiff}
    (h : d1.withDiffInPlace other = (.error e, d)) : d = d1 := by
  unfold UtxoDiff.withDiffInPlace at h
  split at h
  · exact (Prod.mk.inj h).2.symm
  · split at h
    · exact (Prod.mk.inj h).2.symm
    · exact absurd (Prod.mk.inj h).1 (by simp)

/-- Composition of consecutive valid diffs: `with_diff_in_place` succeeds with a valid diff
whose application is the application of both; a normalized receiver stays normalized. An error,
for whatever diffs, leaves the receiver unchanged. -/
theorem withDiffInPlace_correct (d1 : UtxoDiff) (other : D) :
    (∀ base : UtxoView, ValidOver base d1 → ValidOver (base.compose d1) other →
      EntriesIdentified base d1 other →
      ∃ d, d1.withDiffInPlace other = (.ok (), d) ∧ ValidOver base d ∧
        base.compose d = (base.compose d1).compose other ∧ (Normalized d1 → Normalized d)) ∧
    (∀ e d, d1.withDiffInPlace other = (.error e, d) → d = d1) := by
  refine ⟨fun base h1 h2 hid => ?_, fun e d h => withDiffInPlace_error h⟩
  have hcomposable : ∀ p, (changeAt d1 p).Composable (changeAt other p) := fun p =>
    composable_of_valid (h1 p) (h2 p)
  obtain ⟨d, hd, hchange⟩ := withDiffInPlace_ok hcomposable
  refine ⟨d, hd, fun p => ?_, funext fun p => ?_, fun hn p => ?_⟩
  · rw [hchange p]
    exact andThen_valid (h1 p) (h2 p) (hid p)
  · simp only [compose_apply, hchange p]
    exact apply_andThen (h1 p) (h2 p) (hid p)
  · rw [hchange p]
    exact andThen_normal (h1 p) (h2 p) (hn p)

/-- An outpoint removed and re-added twice, each time under a later DAA score. -/
theorem withDiffInPlace_correct_readded : let p : TransactionOutpoint := ⟨7, 0⟩
    let entry : ℕ → UtxoEntry := fun daaScore => ⟨10, ⟨0, []⟩, daaScore, false⟩
    let base : UtxoView := fun q => if q = p then some (entry 1) else none
    let d1 := changeOnly p ⟨some (entry 2), some (entry 1)⟩
    let d2 := changeOnly p ⟨some (entry 3), some (entry 2)⟩
    ∃ d, d1.withDiffInPlace d2 = (.ok (), d) ∧ ValidOver base d ∧
      base.compose d = (base.compose d1).compose d2 ∧ (Normalized d1 → Normalized d) := by
  intro p entry base d1 d2
  refine (withDiffInPlace_correct d1 d2).1 base ?_ ?_ ?_
  · apply validOver_changeOnly
    constructor <;> simp [base]
  · apply validOver_changeOnly
    rw [compose_apply, changeAt_changeOnly]
    constructor <;> simp [apply]
  · apply entriesIdentified_changeOnly
    simp only [Change.Identified, Change.Mentions, some.injEq, entry]
    rintro e e' (rfl | (rfl | rfl) | rfl | rfl) (rfl | (rfl | rfl) | rfl | rfl) h <;>
      first | rfl | exact absurd h (by decide)

/-! ## Normalized diffs

The code builds its diffs from the empty one, entry by entry and transaction by transaction;
none of these steps puts one outpoint on both sides under one DAA score. -/

lemma Normalized.of_eq_off {d d' : UtxoDiff} (p : TransactionOutpoint) (h : Normalized d)
    (hoff : ∀ q, q ≠ p → changeAt d' q = changeAt d q) (hat : (changeAt d' p).Normal) :
    Normalized d' := by
  intro q
  by_cases hq : q = p
  · exact hq ▸ hat
  · exact hoff q hq ▸ h q

lemma Normalized.removeEntry {d : UtxoDiff} (h : Normalized d) (p : TransactionOutpoint)
    (entry : UtxoEntry) : Normalized (d.removeEntry p entry).2 := by
  unfold UtxoDiff.removeEntry
  split_ifs with hadd hfree
  · exact h.of_eq_off p (fun q hq => by simp [changeAt, added, removed, lookup_erase_ne hq])
      (by simp [Change.Normal, changeAt, added, lookup_erase])
  · refine h.of_eq_off p (fun q hq => by simp [changeAt, added, removed, lookup_insert_ne hq]) ?_
    -- `add` does not hold the entry with this score
    rw [containsWithDaaScore_iff] at hadd
    intro a r ha hr hscore
    obtain rfl := Option.some.inj ((lookup_insert _).symm.trans hr)
    exact hadd ⟨a, ha, hscore⟩
  · exact h

lemma Normalized.addEntry {d : UtxoDiff} (h : Normalized d) (p : TransactionOutpoint)
    (entry : UtxoEntry) : Normalized (d.addEntry p entry).2 := by
  unfold UtxoDiff.addEntry
  split_ifs with hremove hfree
  · exact h.of_eq_off p (fun q hq => by simp [changeAt, added, removed, lookup_erase_ne hq])
      (by simp [Change.Normal, changeAt, removed, lookup_erase])
  · refine h.of_eq_off p (fun q hq => by simp [changeAt, added, removed, lookup_insert_ne hq]) ?_
    rw [containsWithDaaScore_iff] at hremove
    intro a r ha hr hscore
    obtain rfl := Option.some.inj ((lookup_insert _).symm.trans ha)
    exact hremove ⟨r, hr, hscore.symm⟩
  · exact h

/-- A loop over entries keeps a diff normalized if its body does, also when it stops early. -/
lemma Normalized.forEntries {f : UtxoDiff → TransactionOutpoint → UtxoEntry →
      Except UtxoAlgebraError Unit × UtxoDiff}
    (hf : ∀ {d : UtxoDiff}, Normalized d → ∀ p entry, Normalized (f d p entry).2)
    (entries : List (TransactionOutpoint × UtxoEntry)) :
    ∀ {d : UtxoDiff}, Normalized d → Normalized (UtxoDiff.forEntries f entries d).2 := by
  induction entries with
  | nil => exact id
  | cons s rest ih =>
    intro d h
    have hstep := hf h s.1 s.2
    unfold UtxoDiff.forEntries
    split
    · rename_i heq
      rw [heq] at hstep
      exact ih hstep
    · rename_i heq
      rwa [heq] at hstep

/-- Every diff that is made from the empty one by any transactions, those that fail half-way
included, is normalized. -/
theorem normalized_addTransactions (transactions : List (VerifiableTransaction × ℕ)) :
    Normalized (transactions.foldl (fun d t => (d.addTransaction t.1 t.2).2) UtxoDiff.default) := by
  refine List.foldlRecOn (motive := Normalized) transactions _ ?_ fun d h t _ => ?_
  · intro p a r ha
    simp [changeAt, added, UtxoDiff.default] at ha
  · have hinputs := Normalized.forEntries .removeEntry t.1.populatedInputs h
    unfold UtxoDiff.addTransaction
    split
    · rename_i heq
      rwa [heq] at hinputs
    · rename_i heq
      rw [heq] at hinputs
      exact Normalized.forEntries .addEntry _ hinputs

/-! ## Difference -/

/-- A rule of `diff_from` rejects a common outpoint exactly if the scores differ and one of the two
collections holds the entry of the other side. -/
lemma intersectsWithRule_scores_iff {self other m1 m2 : UtxoCollection} :
    self.intersectsWithRule other (fun outpoint thisEntry otherEntry =>
        !(otherEntry.blockDaaScore != thisEntry.blockDaaScore &&
          (m1.containsWithDaaScore outpoint otherEntry.blockDaaScore ||
            m2.containsWithDaaScore outpoint thisEntry.blockDaaScore))) = none ↔
      ∀ p v1 v2, self.lookup p = some v1 → other.lookup p = some v2 →
        v2.blockDaaScore ≠ v1.blockDaaScore ∧ (Change.HasScore (m1.lookup p) v2.blockDaaScore ∨
          Change.HasScore (m2.lookup p) v1.blockDaaScore) := by
  simp only [intersectsWithRule_eq_none_iff, not_eq_false', and_eq_true, or_eq_true,
    containsWithDaaScore_iff, bne_iff_ne]
  rfl

/-- The check for entries added by both diffs. -/
lemma intersects_inBothToAdd (h : ∀ p, (changeAt d1 p).Comparable (changeAt other p)) :
    let inBothToAdd :=
      (subtractionWithRemainderHavingDaaScoreInPlace d1.add (added other) ∅ ∅).2
    inBothToAdd.intersects d1.remove = inBothToAdd.intersects (removed other) := by
  intro inBothToAdd
  rw [Bool.eq_iff_iff, intersects_iff, intersects_iff]
  refine exists_congr fun p => and_congr_right fun hboth => ?_
  rw [lookup_subtraction_snd, lookup_empty, or_none] at hboth
  exact (h p).addAdd hboth

/-- `diff_from` succeeds if the changes of every outpoint pass its checks, and subtracts
them. -/
lemma diffFrom_ok (h : ∀ p, (changeAt d1 p).Comparable (changeAt other p)) :
    ∃ d, d1.diffFrom other = .ok d ∧
      ∀ p, changeAt d p = (changeAt d1 p).difference (changeAt other p) := by
  have hremoveRemove : d1.remove.intersectsWithRule (removed other)
      (fun _ thisEntry otherEntry =>
        otherEntry.blockDaaScore != thisEntry.blockDaaScore) = none := by
    rw [intersectsWithRule_eq_none_iff]
    intro p v1 v2 h1 h2
    rw [(h p).removeRemove v1 v2 h1 h2, bne_self_eq_false]
  unfold UtxoDiff.diffFrom
  rw [(@intersectsWithRule_scores_iff d1.remove (added other) d1.add (removed other)).mpr
      fun p => (h p).removeAdd,
    (@intersectsWithRule_scores_iff d1.add (removed other) d1.remove (added other)).mpr
      fun p => (h p).addRemove, hremoveRemove]
  have hboth := intersects_inBothToAdd h
  simp only [hboth, bne_self_eq_false, false_eq_true, if_false]
  refine ⟨_, rfl, fun p => ?_⟩
  unfold changeAt difference
  simp only [added, removed, lookup_subtraction, lookup_subtraction_fst, lookup_empty, or_none]

/-- `with_diff`, where the changes of every outpoint pass its checks. -/
lemma withDiff_ok (h : ∀ p, (changeAt d1 p).Composable (changeAt other p)) :
    ∃ d, d1.withDiff other = .ok d ∧
      ∀ p, changeAt d p = (changeAt d1 p).andThen (changeAt other p) := by
  obtain ⟨d, hd, hchange⟩ := withDiffInPlace_ok h
  refine ⟨d, ?_, hchange⟩
  unfold UtxoDiff.withDiff
  rw [hd]

/-- `diff_from` inverts `with_diff`. For normalized diffs over one base set, `d1.diff_from(d2)`
succeeds with a diff that is valid where `d1` has been applied, that leads from `d1` to `d2`,
and whose reverse is `d2.diff_from(d1)`. Conversely, `diff_from` recovers the diff that
`with_diff` composed with `d1`. -/
theorem diffFrom_correct (base : UtxoView) (d1 : UtxoDiff) (h1 : ValidOver base d1)
    (hn1 : Normalized d1) :
    (∀ d2 : UtxoDiff, ValidOver base d2 → Normalized d2 → EntriesIdentified base d1 d2 →
      ∃ r, d1.diffFrom d2 = .ok r ∧ ValidOver (base.compose d1) r ∧ Normalized r ∧
        (∃ d, d1.withDiff r = .ok d ∧ d.Equiv d2) ∧
        (∃ r', d2.diffFrom d1 = .ok r' ∧ r'.Equiv r.toReversed)) ∧
    (∀ r d d2 : UtxoDiff, ValidOver (base.compose d1) r → Normalized r →
      EntriesIdentified base d1 r → d1.withDiff r = .ok d → d.Equiv d2 →
      ∃ r', d1.diffFrom d2 = .ok r' ∧ r'.Equiv r) := by
  refine ⟨fun d2 h2 hn2 hid => ?_, fun r d d2 hr hnr hid hd hd2 => ?_⟩
  · obtain ⟨r, hr, hchange⟩ := diffFrom_ok fun p =>
      comparable_of_valid (h1 p) (h2 p) (hn1 p) (hn2 p)
    obtain ⟨r', hr', hchange'⟩ := diffFrom_ok fun p =>
      comparable_of_valid (h2 p) (h1 p) (hn2 p) (hn1 p)
    have hvalid : ValidOver (base.compose d1) r := by
      intro p
      rw [hchange p]
      exact difference_valid (h1 p) (h2 p) (hid p)
    obtain ⟨d, hd, hcomposed⟩ := withDiff_ok fun p =>
      composable_of_valid (h1 p) (hvalid p)
    refine ⟨r, hr, hvalid, fun p => ?_, ⟨d, hd, fun p => ?_⟩, ⟨r', hr', fun p => ?_⟩⟩
    · rw [hchange p]
      exact difference_normal (h1 p) (h2 p) (hn1 p) (hn2 p)
    · rw [hcomposed p, hchange p]
      exact andThen_difference (h1 p) (h2 p) (hid p) (hn2 p)
    · rw [hchange' p, difference_reversed (h1 p) (h2 p), ← hchange p]
      rfl
  · -- `d2` is the composition, hence valid and normalized over the base
    obtain ⟨d', hd', hcomposed⟩ := withDiff_ok fun p =>
      composable_of_valid (h1 p) (hr p)
    obtain rfl : d' = d := Except.ok.inj (hd'.symm.trans hd)
    have hchange2 : ∀ p, changeAt d2 p = (changeAt d1 p).andThen (changeAt r p) := fun p => by
      rw [← hd2 p, hcomposed p]
    have h2 : ValidOver base d2 := fun p => by
      rw [hchange2 p]
      exact andThen_valid (h1 p) (hr p) (hid p)
    have hn2 : Normalized d2 := fun p => by
      rw [hchange2 p]
      exact andThen_normal (h1 p) (hr p) (hn1 p)
    obtain ⟨r', hr', hchange'⟩ := diffFrom_ok fun p =>
      comparable_of_valid (h1 p) (h2 p) (hn1 p) (hn2 p)
    refine ⟨r', hr', fun p => ?_⟩
    rw [hchange' p, hchange2 p]
    exact difference_andThen (h1 p) (hr p) (hid p) (hn1 p) (hnr p)

/-- From a diff that re-adds under a later score to one that only removes, and back. -/
theorem diffFrom_correct_readded : let p : TransactionOutpoint := ⟨7, 0⟩
    let entry : ℕ → UtxoEntry := fun daaScore => ⟨10, ⟨0, []⟩, daaScore, false⟩
    let base : UtxoView := fun q => if q = p then some (entry 1) else none
    let d1 := changeOnly p ⟨some (entry 2), some (entry 1)⟩
    let d2 := changeOnly p ⟨none, some (entry 1)⟩
    ∃ r, d1.diffFrom d2 = .ok r ∧ ValidOver (base.compose d1) r ∧ Normalized r ∧
      (∃ d, d1.withDiff r = .ok d ∧ d.Equiv d2) ∧
      (∃ r', d2.diffFrom d1 = .ok r' ∧ r'.Equiv r.toReversed) := by
  intro p entry base d1 d2
  have h1 : ValidOver base d1 := by
    apply validOver_changeOnly
    constructor <;> simp [base]
  have hn1 : Normalized d1 := by
    apply normalized_changeOnly
    simp [Change.Normal, entry]
  refine (diffFrom_correct base d1 h1 hn1).1 d2 ?_ ?_ ?_
  · apply validOver_changeOnly
    constructor <;> simp [base]
  · apply normalized_changeOnly
    simp [Change.Normal]
  · apply entriesIdentified_changeOnly
    simp only [Change.Identified, Change.Mentions, some.injEq, entry]
    rintro e e' (rfl | (rfl | rfl) | h | rfl) (rfl | (rfl | rfl) | h' | rfl) hscore <;>
      first | rfl | exact absurd hscore (by decide) | simp_all

/-- Both side conditions of `diffFrom_correct` are needed. Two valid diffs may add different
entries of one outpoint under one DAA score, and `diff_from` then sees no difference; and a
valid diff may remove and re-add an entry under its own score, which `diff_from` reports as an
intersection with a diff that removes it. -/
theorem diffFrom_unidentified_or_unnormalized : let p : TransactionOutpoint := ⟨7, 0⟩
    let entry : ℕ → UtxoEntry := fun amount => ⟨amount, ⟨0, []⟩, 5, false⟩
    (let base : UtxoView := fun _ => none
     let d1 := changeOnly p ⟨some (entry 10), none⟩
     let d2 := changeOnly p ⟨some (entry 20), none⟩
     ValidOver base d1 ∧ ValidOver base d2 ∧ Normalized d1 ∧ Normalized d2 ∧
       ∃ r d, d1.diffFrom d2 = .ok r ∧ d1.withDiff r = .ok d ∧ ¬d.Equiv d2) ∧
    (let base : UtxoView := fun q => if q = p then some (entry 10) else none
     let d1 := changeOnly p ⟨some (entry 10), some (entry 10)⟩
     let d2 := changeOnly p ⟨none, some (entry 10)⟩
     ValidOver base d1 ∧ ValidOver base d2 ∧ EntriesIdentified base d1 d2 ∧
       d1.diffFrom d2 =
         .error (.diffIntersectionPoint p "both in self.remove and in other.add")) := by
  intro p entry
  refine ⟨⟨?_, ?_, ?_, ?_, .default, changeOnly p ⟨some (entry 10), none⟩, rfl, rfl, ?_⟩,
    ?_, ?_, ?_, rfl⟩
  · apply validOver_changeOnly
    constructor <;> simp
  · apply validOver_changeOnly
    constructor <;> simp
  · apply normalized_changeOnly
    simp [Change.Normal]
  · apply normalized_changeOnly
    simp [Change.Normal]
  · intro h
    have hp := h p
    simp [changeAt_changeOnly, entry] at hp
  · apply validOver_changeOnly
    constructor <;> simp
  · apply validOver_changeOnly
    constructor <;> simp
  · apply entriesIdentified_changeOnly
    simp only [Change.Identified, Change.Mentions, some.injEq]
    rintro e e' (rfl | (rfl | rfl) | h | rfl) (rfl | (rfl | rfl) | h' | rfl) _ <;>
      first | rfl | simp_all

end LapisMonetae.Utxo
