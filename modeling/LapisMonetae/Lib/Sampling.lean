import Mathlib.Data.List.Range
import Mathlib.Tactic.Linarith

/-!
# Sampling an increasing sequence

A sequence of scores, read up to some index, is cut into epochs of equal length. Its *samples*
are the first positions of the epochs that it visits. This file has the facts about samples that
programs which walk along the sequence, or from sample to sample, rely on.
-/

namespace Sampling

open List Nat

variable {score : ℕ → ℕ} {epochLength : ℕ}
variable {a b k s : ℕ} {j : ℕ}

/-- The position `i` is a sample: it is the first one, or begins a new epoch. -/
def isSample (score : ℕ → ℕ) (epochLength : ℕ) : ℕ → Bool
  | 0 => true
  | i + 1 => decide (score i / epochLength < score (i + 1) / epochLength)

/-- The samples at the positions `a + 1, …, b`. -/
def samplesIn (score : ℕ → ℕ) (epochLength a b : ℕ) : List ℕ :=
  (List.range' (a + 1) (b - a)).filter (isSample score epochLength)

/-- `s` is the most recent sample up to position `k`. -/
structure IsLastSample (score : ℕ → ℕ) (epochLength k s : ℕ) : Prop where
  le : s ≤ k
  sample : isSample score epochLength s = true
  last : ∀ j, s < j → j ≤ k → isSample score epochLength j = false

/-- `s` is the most recent sample up to position `k` whose score is at least `depth` below `b`,
or the first position if there is none. -/
structure IsDeepSample (score : ℕ → ℕ) (epochLength depth b k s : ℕ) : Prop where
  le : s ≤ k
  sample : isSample score epochLength s = true
  deep : s = 0 ∨ score s + depth ≤ b
  last : ∀ j, s < j → j ≤ k → isSample score epochLength j = true → b < score j + depth

/-- There is at most one most recent deep sample. -/
lemma IsDeepSample.unique {depth t : ℕ} (hs : IsDeepSample score epochLength depth b k s)
    (ht : IsDeepSample score epochLength depth b k t) : s = t := by
  rcases lt_trichotomy s t with h | h | h
  · have hnot := hs.last t h ht.le ht.sample
    rcases ht.deep with h0 | hd <;> omega
  · exact h
  · have hnot := ht.last s h hs.le hs.sample
    rcases hs.deep with h0 | hd <;> omega

/-- Every position has a most recent sample. -/
lemma exists_isLastSample (k : ℕ) : ∃ s, IsLastSample score epochLength k s := by
  induction k with
  | zero => exact ⟨0, le_refl _, rfl, fun j h1 h2 => by omega⟩
  | succ k ih =>
    obtain ⟨s, hs⟩ := ih
    by_cases hsample : isSample score epochLength (k + 1) = true
    · exact ⟨k + 1, le_refl _, hsample, fun j h1 h2 => by omega⟩
    · refine ⟨s, le_succ_of_le hs.le, hs.sample, fun j h1 h2 => ?_⟩
      rcases lt_or_ge j (k + 1) with h | h
      · exact hs.last j h1 (by omega)
      · have : j = k + 1 := by omega
        rw [this]
        exact Bool.not_eq_true _ ▸ hsample

/-- A sample up to position `k` is at most the most recent one. -/
lemma IsLastSample.le_of_sample (hs : IsLastSample score epochLength k s)
    (hj : isSample score epochLength j = true) (hjk : j ≤ k) : j ≤ s := by
  by_contra h
  have hnot := hs.last j (by omega) hjk
  rw [hj] at hnot
  exact Bool.noConfusion hnot

/-! ## Increasing sequences -/

section Increasing

variable {n : ℕ} (hmono : ∀ i, i < n → score i < score (i + 1))
variable {i k s : ℕ}

include hmono

lemma score_le (hij : i ≤ j) (hj : j ≤ n) : score i ≤ score j := by
  induction j with
  | zero =>
    have : i = 0 := by omega
    rw [this]
  | succ j ih =>
    rcases lt_or_ge i (j + 1) with h | h
    · have hstep := hmono j (by omega)
      have hle := ih (by omega) (by omega)
      omega
    · have : i = j + 1 := by omega
      rw [this]

lemma score_lt (hij : i < j) (hj : j ≤ n) : score i < score j := by
  have hstep := hmono i (by omega)
  have hle : score (i + 1) ≤ score j := score_le hmono hij hj
  omega

lemma le_of_score_le (hi : i ≤ n) (hle : score i ≤ score j) : i ≤ j := by
  by_contra hcon
  have hlt := score_lt hmono (not_le.mp hcon) hi
  omega

/-- No sample between two positions means no change of epoch between them. -/
lemma epoch_eq (hk : k ≤ n) (hsk : s ≤ k)
    (hlast : ∀ j, s < j → j ≤ k → isSample score epochLength j = false) :
    score s / epochLength = score k / epochLength := by
  induction k with
  | zero =>
    have : s = 0 := by omega
    rw [this]
  | succ k ih =>
    rcases lt_or_ge s (k + 1) with h | h
    · have hnot : isSample score epochLength (k + 1) = false := hlast (k + 1) h (le_refl _)
      have hle : score k / epochLength ≤ score (k + 1) / epochLength :=
        Nat.div_le_div_right (hmono k (by omega)).le
      have heq := ih (by omega) (by omega) fun j h1 h2 => hlast j h1 (by omega)
      simp only [isSample, decide_eq_false_iff_not] at hnot
      omega
    · have : s = k + 1 := by omega
      rw [this]

/-- Equal epochs at two positions mean no sample between them. -/
lemma not_isSample_of_epoch_eq (hk : k ≤ n) (heq : score s / epochLength = score k / epochLength) :
    ∀ j, s < j → j ≤ k → isSample score epochLength j = false := by
  intro j hsj hjk
  obtain _ | i := j
  · omega
  have h1 : score s / epochLength ≤ score i / epochLength :=
    Nat.div_le_div_right (score_le hmono (by omega) (by omega))
  have h2 : score (i + 1) / epochLength ≤ score k / epochLength :=
    Nat.div_le_div_right (score_le hmono hjk hk)
  simp only [isSample, decide_eq_false_iff_not]
  omega

/-- A position begins a new epoch exactly when its epoch is later than that of the most recent
sample before it. -/
lemma isSample_succ_iff (hk : k + 1 ≤ n) (hs : IsLastSample score epochLength k s) :
    isSample score epochLength (k + 1) = true ↔
      score s / epochLength < score (k + 1) / epochLength := by
  rw [epoch_eq hmono (by omega) hs.le hs.last]
  simp only [isSample, decide_eq_true_eq]

/-- A sample after the first has a later epoch than every position before it. -/
lemma epoch_lt_of_sample (hk : k ≤ n) (hik : i < k)
    (hsample : isSample score epochLength k = true) :
    score i / epochLength < score k / epochLength := by
  obtain _ | j := k
  · omega
  have hle : score i / epochLength ≤ score j / epochLength :=
    Nat.div_le_div_right (score_le hmono (by omega) (by omega))
  simp only [isSample, decide_eq_true_eq] at hsample
  omega

omit hmono in
/-- A sample is close to the beginning of its epoch if the steps of the sequence are small. -/
lemma sample_score_lt {step : ℕ} (hstep : ∀ i, i < n → score (i + 1) ≤ score i + step)
    (hpos : 0 < epochLength) (hk : k ≤ n) (hk0 : 0 < k)
    (hsample : isSample score epochLength k = true) :
    score k < score k / epochLength * epochLength + step := by
  obtain _ | j := k
  · omega
  have hlt : score j < score (j + 1) / epochLength * epochLength := by
    simp only [isSample, decide_eq_true_eq] at hsample
    exact (div_lt_iff_lt_mul hpos).mp hsample
  have hle := hstep j (by omega)
  omega

end Increasing

/-! ## Lists of samples -/

lemma samplesIn_append {c : ℕ} (hab : a ≤ b) (hbc : b ≤ c) : samplesIn score epochLength a c =
      samplesIn score epochLength a b ++ samplesIn score epochLength b c := by
  unfold samplesIn
  rw [← filter_append]
  congr 1
  have h := @List.range'_append_1 (a + 1) (b - a) (c - b)
  rw [show a + 1 + (b - a) = b + 1 by omega, show b - a + (c - b) = c - a by omega] at h
  exact h.symm

lemma samplesIn_eq_nil (h : ∀ j, a < j → j ≤ b → isSample score epochLength j = false) :
    samplesIn score epochLength a b = [] := by
  unfold samplesIn
  rw [filter_eq_nil_iff]
  intro j hj
  rw [mem_range'_1] at hj
  rw [h j (by omega) (by omega)]
  exact Bool.false_ne_true

/-- A range whose last position is its only sample after `s`. -/
lemma samplesIn_of_last (has : a ≤ s) (hs : IsLastSample score epochLength k s)
    (hsample : isSample score epochLength (k + 1) = true) :
    samplesIn score epochLength a (k + 1) = samplesIn score epochLength a s ++ [k + 1] := by
  have hsk := hs.le
  rw [samplesIn_append has (by omega : s ≤ k + 1),
    samplesIn_append hsk (by omega : k ≤ k + 1), samplesIn_eq_nil hs.last, nil_append]
  congr 1
  unfold samplesIn
  rw [show k + 1 - k = 1 by omega, List.range'_one, filter_cons_of_pos hsample, filter_nil]

/-- The last sample of a range that starts at a sample. -/
lemma getLast_samplesIn (ha : isSample score epochLength a = true) (hak : a ≤ k)
    (hs : IsLastSample score epochLength k s) :
    (samplesIn score epochLength a k).getLast?.getD a = s := by
  have has : a ≤ s := hs.le_of_sample ha hak
  rw [samplesIn_append has hs.le, samplesIn_eq_nil hs.last, append_nil]
  rcases lt_or_ge a s with h | h
  · obtain _ | j := s
    · omega
    obtain ⟨t, ht⟩ : ∃ t, IsLastSample score epochLength j t := exists_isLastSample j
    rw [samplesIn_of_last (ht.le_of_sample ha (by omega)) ht hs.sample,
      List.getLast?_concat, Option.getD_some]
  · have : a = s := by omega
    rw [this, samplesIn_eq_nil fun j h1 h2 => by omega]
    rfl

/-- All samples up to position `k`. -/
def samplesUpTo (score : ℕ → ℕ) (epochLength k : ℕ) : List ℕ :=
  (List.range (k + 1)).filter (isSample score epochLength)

/-- Samples up to a position and after it. -/
lemma samplesUpTo_append (hab : a ≤ b) : samplesUpTo score epochLength b =
      samplesUpTo score epochLength a ++ samplesIn score epochLength a b := by
  unfold samplesUpTo samplesIn
  rw [← filter_append, range_eq_range', range_eq_range']
  congr 1
  have h := @List.range'_append_1 0 (a + 1) (b - a)
  rw [zero_add, show a + 1 + (b - a) = b + 1 by omega] at h
  exact h.symm

lemma samplesUpTo_zero (k : ℕ) : (samplesUpTo score epochLength k)[0]? = some 0 := by
  have hzero : isSample score epochLength 0 = true := rfl
  unfold samplesUpTo
  rw [range_succ_eq_map, filter_cons_of_pos hzero]
  rfl

lemma mem_samplesUpTo :
    j ∈ samplesUpTo score epochLength k ↔ j ≤ k ∧ isSample score epochLength j = true := by
  unfold samplesUpTo
  rw [mem_filter, mem_range, Nat.lt_succ_iff]

lemma samplesUpTo_sorted (k : ℕ) : (samplesUpTo score epochLength k).Pairwise (· < ·) :=
  pairwise_lt_range.filter _

end Sampling
