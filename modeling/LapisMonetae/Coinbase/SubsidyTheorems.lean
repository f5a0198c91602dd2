import LapisMonetae.Coinbase.Subsidy
import Mathlib.Algebra.BigOperators.Fin
import Mathlib.Algebra.BigOperators.Ring.Finset
import Mathlib.Algebra.Order.BigOperators.Group.Finset
import Mathlib.Data.List.GetD
import Mathlib.Order.Interval.Finset.Nat
import Mathlib.Tactic.NormNum
import Mathlib.Tactic.Ring

/-!
# The emission cap

Every second of the deflationary phase is shared by at most one block at one block a second and
by at most ten blocks at ten blocks a second, whatever the activation score. So the subsidies of
the blocks of one second never exceed ten times the (rounded up) ten-block entry of its month,
and the whole emission is bounded by one closed sum over the table.
-/

namespace LapisMonetae.Coinbase

open Nat Finset

/-! ## Rounding up -/

lemma le_divCeil_mul {b : ℕ} (hb : 0 < b) (a : ℕ) : a ≤ divCeil a b * b := by
  unfold divCeil
  have hdiv : b * (a / b) + a % b = a := div_add_mod a b
  have hmod : a % b < b := mod_lt a hb
  split
  · rename_i h0
    rw [h0] at hdiv
    rw [mul_comm]
    omega
  · rw [add_mul, one_mul, mul_comm]
    omega

lemma divCeil_one (a : ℕ) : divCeil a 1 = a := by
  simp [divCeil, mod_one]

/-! ## The scaled tables -/

lemma mainnetDivisor_eq : mainnetDivisor = 122 := by
  have hdefl : (subsidyByMonthTable.map (· * secondsPerMonth)).sum = 436600087469287560 := by
    decide +kernel
  simp only [mainnetDivisor, emissionDivisor, hdefl]
  decide

lemma mainnetManager_baseSubsidy (fork : ForkActivation) :
    (mainnetManager fork).preDeflationaryPhaseBaseSubsidy
      = divCeil 50000000000 mainnetDivisor := by
  simp only [mainnetManager, CoinbaseManager.scaled]

/-- `new` returns this manager for the parameters of mainnet. -/
lemma new_mainnet (fork : ForkActivation) :
    CoinbaseManager.new (15778800 - 259200) 50000000000 (mainnetBps fork) =
      some (mainnetManager fork) := by
  have hdivisor : mainnetDivisor ≠ 0 := by
    rw [mainnetDivisor_eq]
    decide
  have hbps : (mainnetBps fork).before ≠ 0 ∧ (mainnetBps fork).after ≠ 0 := by
    unfold mainnetBps ForkedParam.before ForkedParam.after
    constructor <;> split <;> norm_num
  simp only [mainnetManager, mainnetDivisor] at hdivisor ⊢
  simp only [CoinbaseManager.new, hdivisor, hbps, or_self, if_false]

/-- The entry of month `m` of a mainnet table at `bps` blocks a second. -/
def mainnetEntry (bps m : ℕ) : ℕ :=
  (scaledTable mainnetDivisor bps).getD m 0

/-- The entry read for a DAA score, with the month clamped to the table. -/
def clampedEntry (bps m : ℕ) : ℕ :=
  mainnetEntry bps (min m (subsidyByMonthTable.length - 1))

lemma length_subsidyByMonthTable : subsidyByMonthTable.length = 426 := by decide +kernel

/-- A table entry at one block a second is at most ten entries at ten blocks a second. -/
lemma mainnetEntry_one_le (m : ℕ) : mainnetEntry 1 m ≤ 10 * mainnetEntry 10 m := by
  unfold mainnetEntry scaledTable
  simp only [List.getD_eq_getElem?_getD, List.getElem?_map]
  cases subsidyByMonthTable[m]? with
  | none => simp
  | some v =>
    simp only [Option.map_some, Option.getD_some, divCeil_one]
    have h := le_divCeil_mul (b := 10) (by omega) (divCeil v mainnetDivisor)
    omega

lemma clampedEntry_one_le (m : ℕ) : clampedEntry 1 m ≤ 10 * clampedEntry 10 m :=
  mainnetEntry_one_le _

/-- The last month pays nothing, and it is the month of every later score. -/
lemma clampedEntry_ten_eq_zero {m : ℕ} (hm : 425 ≤ m) : clampedEntry 10 m = 0 := by
  have hmin : min m (subsidyByMonthTable.length - 1) = 425 := by
    rw [length_subsidyByMonthTable]
    omega
  rw [clampedEntry, hmin, mainnetEntry, mainnetDivisor_eq]
  decide +kernel

/-- The most that the blocks of one second of month `m` can earn together. -/
def secondCap (m : ℕ) : ℕ := 10 * clampedEntry 10 m

/-! ## The subsidies of one second -/

variable (fork : ForkActivation)

/-- The subsidy of a deflationary score, read off the clamped tables. -/
lemma calcBlockSubsidy_deflationary {s : ℕ}
    (hs : (mainnetManager fork).deflationaryPhaseDaaScore ≤ s) :
    (mainnetManager fork).calcBlockSubsidy s
      = clampedEntry
          (if fork.daaScore ≤ s then (mainnetBps fork).after
            else (mainnetBps fork).before)
          ((mainnetManager fork).subsidyMonth s) := by
  unfold CoinbaseManager.calcBlockSubsidy
  rw [if_neg (by omega)]
  have hact : (mainnetManager fork).bps.activation.isActive s
      = decide (fork.daaScore ≤ s) := rfl
  rw [hact]
  by_cases h : fork.daaScore ≤ s
  · simp only [h, decide_true, if_true, clampedEntry, mainnetEntry]
    rw [show (mainnetManager fork).subsidyByMonthTableAfter
      = scaledTable mainnetDivisor (mainnetBps fork).after from rfl]
    simp [scaledTable]
  · simp only [h, decide_false, clampedEntry, mainnetEntry]
    rw [show (mainnetManager fork).subsidyByMonthTableBefore
      = scaledTable mainnetDivisor (mainnetBps fork).before from rfl]
    simp [scaledTable]

/-- The seconds a mainnet score is counted at, once the phase has started. -/
lemma seconds_eq (s : ℕ) : (mainnetManager fork).secondsSinceDeflationaryPhase s
      = if fork.daaScore < 15519600 then (s - 15519600) / (mainnetBps fork).after
        else if s < fork.daaScore then (s - 15519600) / (mainnetBps fork).before
        else (fork.daaScore - 15519600) / (mainnetBps fork).before
          + (s - fork.daaScore) / (mainnetBps fork).after := rfl

/-- The deflationary scores of `scores` that are counted at second `t`. -/
def atSecond (scores : Finset ℕ) (t : ℕ) : Finset ℕ :=
  scores.filter fun s =>
    15519600 ≤ s ∧ (mainnetManager fork).secondsSinceDeflationaryPhase s = t

/-- A second whose scores all lie in a window of `n` scores, each paying at most `c`. -/
lemma sum_atSecond_le (scores : Finset ℕ) (t lo n c : ℕ)
    (hwin : ∀ s ∈ atSecond fork scores t, lo ≤ s ∧ s < lo + n)
    (hpay : ∀ s ∈ atSecond fork scores t,
      (mainnetManager fork).calcBlockSubsidy s ≤ c) :
    ∑ s ∈ atSecond fork scores t, (mainnetManager fork).calcBlockSubsidy s
      ≤ n * c := by
  have hsub : atSecond fork scores t ⊆ Finset.Ico lo (lo + n) := by
    intro s hs
    exact mem_Ico.mpr (hwin s hs)
  have hcard : (atSecond fork scores t).card ≤ n := by
    calc (atSecond fork scores t).card ≤ (Finset.Ico lo (lo + n)).card :=
          card_le_card hsub
      _ = n := by rw [card_Ico]; omega
  calc ∑ s ∈ atSecond fork scores t, (mainnetManager fork).calcBlockSubsidy s
      ≤ (atSecond fork scores t).card * c := by
        simpa using sum_le_card_nsmul _ _ c hpay
    _ ≤ n * c := mul_le_mul_right c hcard

/-- **One second.** The blocks of one second earn at most the cap of its month. -/
lemma sum_atSecond (scores : Finset ℕ) (t : ℕ) :
    ∑ s ∈ atSecond fork scores t, (mainnetManager fork).calcBlockSubsidy s
      ≤ secondCap (t / secondsPerMonth) := by
  unfold secondCap
  -- what a score of this second pays, at each of the two rates
  have hpay : ∀ s ∈ atSecond fork scores t,
      (mainnetManager fork).calcBlockSubsidy s
        = clampedEntry
            (if fork.daaScore ≤ s then (mainnetBps fork).after
              else (mainnetBps fork).before) (t / secondsPerMonth) := by
    intro s hs
    obtain ⟨-, hge, hsec⟩ := mem_filter.mp hs
    rw [calcBlockSubsidy_deflationary fork hge, CoinbaseManager.subsidyMonth, hsec]
  have hone := clampedEntry_one_le (t / secondsPerMonth)
  by_cases hnever : fork = .never
  · -- never scheduled: one block a second throughout
    subst hnever
    have hafter : (mainnetBps .never).after = 1 := by decide
    have hbefore : (mainnetBps .never).before = 1 := by decide
    have hd : ForkActivation.never.daaScore = 18446744073709551615 := by decide
    have h1 : ∑ s ∈ atSecond .never scores t, (mainnetManager .never).calcBlockSubsidy s
        ≤ 1 * clampedEntry 1 (t / secondsPerMonth) := by
      refine sum_atSecond_le .never scores t (15519600 + t) 1 _ ?_ ?_
      · intro s hs
        obtain ⟨-, hge, hsec⟩ := mem_filter.mp hs
        rw [seconds_eq, hafter, hbefore, hd] at hsec
        simp only [Nat.div_one] at hsec
        split_ifs at hsec <;> omega
      · intro s hs
        rw [hpay s hs, hafter, hbefore, ite_self]
    omega
  · have hafter : (mainnetBps fork).after = 10 := by
      rw [ForkedParam.after, if_neg (show ¬ (mainnetBps fork).activation = .never from hnever)]
      rfl
    by_cases hearly : fork.daaScore < 15519600
    · -- active through the whole phase: ten blocks a second
      refine sum_atSecond_le fork scores t (15519600 + 10 * t) 10 _ ?_ ?_
      · intro s hs
        obtain ⟨-, hge, hsec⟩ := mem_filter.mp hs
        rw [seconds_eq, if_pos hearly, hafter] at hsec
        omega
      · intro s hs
        obtain ⟨-, hge, -⟩ := mem_filter.mp hs
        rw [hpay s hs, if_pos (by omega), hafter]
    · have hbefore : (mainnetBps fork).before = 1 := by
        rw [ForkedParam.before, if_neg]
        · rfl
        · intro h
          have h0 : fork.daaScore = 0 := congrArg ForkActivation.daaScore h
          omega
      have hsec : ∀ s ∈ atSecond fork scores t, 15519600 ≤ s ∧
          (s < fork.daaScore → s - 15519600 = t) ∧ (fork.daaScore ≤ s →
            fork.daaScore - 15519600 + (s - fork.daaScore) / 10 = t) := by
        intro s hs
        obtain ⟨-, hge, hsec⟩ := mem_filter.mp hs
        rw [seconds_eq, if_neg hearly, hafter, hbefore] at hsec
        simp only [Nat.div_one] at hsec
        split_ifs at hsec <;> omega
      by_cases hpre : t < fork.daaScore - 15519600
      · -- a second before the activation
        have h1 : ∑ s ∈ atSecond fork scores t,
            (mainnetManager fork).calcBlockSubsidy s
              ≤ 1 * clampedEntry 1 (t / secondsPerMonth) := by
          refine sum_atSecond_le fork scores t (15519600 + t) 1 _ ?_ ?_ <;> intro s hs <;>
            have hs' := hsec s hs
          · omega
          · rw [hpay s hs, if_neg (by omega), hbefore]
        omega
      · -- a second from the activation on
        refine sum_atSecond_le fork scores t
          (fork.daaScore + 10 * (t - (fork.daaScore - 15519600))) 10 _ ?_ ?_ <;>
          intro s hs <;> have hs' := hsec s hs
        · omega
        · rw [hpay s hs, if_pos (by omega), hafter]

/-! ## The whole emission -/

/-- A function of the month, summed over the seconds of the first `n` months. -/
lemma sum_range_month (f : ℕ → ℕ) (S : ℕ) (hS : 0 < S) (n : ℕ) :
    ∑ t ∈ Finset.range (n * S), f (t / S) = S * ∑ m ∈ Finset.range n, f m := by
  induction n with
  | zero => simp
  | succ n ih =>
    rw [succ_mul, sum_range_add, ih, sum_range_succ, mul_add]
    congr 1
    calc ∑ x ∈ Finset.range S, f ((n * S + x) / S) = ∑ _x ∈ Finset.range S, f n := by
          refine sum_congr rfl fun x hx => ?_
          have hx' : x < S := mem_range.mp hx
          rw [add_comm, add_mul_div_right _ _ hS, div_eq_of_lt hx', zero_add]
      _ = S * f n := by simp

/-- A function of the month that vanishes from month `n` on, summed over any set of seconds. -/
lemma sum_seconds_le (f : ℕ → ℕ) (S : ℕ) (hS : 0 < S) (n : ℕ) (hf : ∀ m, n ≤ m → f m = 0)
    (seconds : Finset ℕ) : ∑ t ∈ seconds, f (t / S) ≤ S * ∑ m ∈ Finset.range n, f m := by
  calc ∑ t ∈ seconds, f (t / S)
      = ∑ t ∈ seconds.filter (· < n * S), f (t / S) := by
        refine (sum_filter_of_ne fun t _ hne => ?_).symm
        by_contra hge
        refine hne (hf _ ?_)
        rw [le_div_iff_mul_le hS]
        omega
    _ ≤ ∑ t ∈ Finset.range (n * S), f (t / S) := by
        refine sum_le_sum_of_subset fun t ht => ?_
        exact mem_range.mpr (mem_filter.mp ht).2
    _ = S * ∑ m ∈ Finset.range n, f m := sum_range_month f S hS n

lemma secondsPerMonth_pos : 0 < secondsPerMonth := by decide

lemma secondCap_eq_zero (m : ℕ) (hm : 425 ≤ m) : secondCap m = 0 := by
  rw [secondCap, clampedEntry_ten_eq_zero hm, mul_zero]

/-- The deflationary emission is bounded by the caps of the paying months. -/
lemma sum_deflationary_le (scores : Finset ℕ) :
    ∑ s ∈ scores.filter (15519600 ≤ ·), (mainnetManager fork).calcBlockSubsidy s
      ≤ secondsPerMonth * ∑ m ∈ Finset.range 425, secondCap m := by
  set sec := (mainnetManager fork).secondsSinceDeflationaryPhase with hsec
  set defl := scores.filter (15519600 ≤ ·) with hdefl
  have hfib : ∀ t, defl.filter (fun s => sec s = t) = atSecond fork scores t := by
    intro t
    ext s
    simp only [hdefl, hsec, atSecond, mem_filter, and_assoc]
  calc ∑ s ∈ defl, (mainnetManager fork).calcBlockSubsidy s
      = ∑ t ∈ defl.image sec, ∑ s ∈ defl.filter (fun s => sec s = t),
          (mainnetManager fork).calcBlockSubsidy s :=
        (sum_fiberwise_of_maps_to (fun s hs => mem_image_of_mem sec hs) _).symm
    _ ≤ ∑ t ∈ defl.image sec, secondCap (t / secondsPerMonth) := by
        refine sum_le_sum fun t _ => ?_
        rw [hfib]
        exact sum_atSecond fork scores t
    _ ≤ secondsPerMonth * ∑ m ∈ Finset.range 425, secondCap m :=
        sum_seconds_le secondCap secondsPerMonth secondsPerMonth_pos 425 secondCap_eq_zero _

/-- The pre-deflationary emission: one scaled base subsidy for each earlier score. -/
lemma sum_preDeflationary_le (scores : Finset ℕ) :
    ∑ s ∈ scores.filter (¬ 15519600 ≤ ·), (mainnetManager fork).calcBlockSubsidy s
      ≤ 15519600 * divCeil 50000000000 mainnetDivisor := by
  have hsub : scores.filter (¬ 15519600 ≤ ·) ⊆ Finset.range 15519600 := by
    intro s hs
    have hlt := (mem_filter.mp hs).2
    exact mem_range.mpr (by omega)
  calc ∑ s ∈ scores.filter (¬ 15519600 ≤ ·), (mainnetManager fork).calcBlockSubsidy s
      = ∑ _s ∈ scores.filter (¬ 15519600 ≤ ·), divCeil 50000000000 mainnetDivisor := by
        refine sum_congr rfl fun s hs => ?_
        have hlt := (mem_filter.mp hs).2
        have hphase : s < (mainnetManager fork).deflationaryPhaseDaaScore := by
          show s < 15519600
          omega
        rw [CoinbaseManager.calcBlockSubsidy, if_pos hphase, mainnetManager_baseSubsidy]
    _ = (scores.filter (¬ 15519600 ≤ ·)).card * divCeil 50000000000 mainnetDivisor := by simp
    _ ≤ 15519600 * divCeil 50000000000 mainnetDivisor := by
        refine Nat.mul_le_mul_right _ ?_
        calc (scores.filter (¬ 15519600 ≤ ·)).card ≤ (Finset.range 15519600).card :=
              card_le_card hsub
          _ = 15519600 := card_range _

/-- Multiples of the first entries of a table sum to at most that multiple of its sum. -/
lemma sum_range_getD_le (f : ℕ → ℕ) (table : List ℕ) (c n : ℕ) (hn : n ≤ table.length)
    (hf : ∀ m, m < n → f m = c * table.getD m 0) : ∑ m ∈ Finset.range n, f m ≤ c * table.sum := by
  calc ∑ m ∈ Finset.range n, f m
      = c * ∑ m ∈ Finset.range n, table.getD m 0 := by
        rw [mul_sum]
        exact sum_congr rfl fun m hm => hf m (mem_range.mp hm)
    _ ≤ c * ∑ m ∈ Finset.range table.length, table.getD m 0 :=
        mul_le_mul_left c
          (sum_le_sum_of_subset (range_subset_range.mpr hn))
    _ = c * table.sum := by
        rw [sum_range, ← Fin.sum_univ_getElem]
        simp

/-- The caps of the paying months sum to ten times the ten-block table. -/
lemma sum_secondCap_le :
    ∑ m ∈ Finset.range 425, secondCap m ≤ 10 * (scaledTable mainnetDivisor 10).sum := by
  refine sum_range_getD_le secondCap (scaledTable mainnetDivisor 10) 10 425 ?_ fun m hm => ?_
  · rw [scaledTable, List.length_map, length_subsidyByMonthTable]
    omega
  · rw [secondCap, clampedEntry, length_subsidyByMonthTable, min_eq_left (by omega), mainnetEntry]

/-- All roundings together stay within the slack of the divisor. -/
lemma scheduled_le_maxSompi {cap : ℕ} (hcap : cap ≤ 10 * (scaledTable mainnetDivisor 10).sum) :
    15519600 * divCeil 50000000000 mainnetDivisor + secondsPerMonth * cap ≤ maxSompi := by
  have htable : (scaledTable mainnetDivisor 10).sum = 642586136 := by
    rw [mainnetDivisor_eq]
    decide +kernel
  have hbase : divCeil 50000000000 mainnetDivisor = 409836066 := by
    rw [mainnetDivisor_eq]
    decide
  rw [hbase]
  rw [htable] at hcap
  simp only [secondsPerMonth, maxSompi, sompiPerKaspa]
  omega

/-- **Emission cap.** Whatever the Crescendo activation score, the subsidies of any set of
distinct DAA scores sum to at most `MAX_SOMPI`. -/
theorem sum_calcBlockSubsidy_le_maxSompi (scores : Finset ℕ) :
    CoinbaseManager.new (15778800 - 259200) 50000000000 (mainnetBps fork) =
      some (mainnetManager fork) ∧
    ∑ s ∈ scores, (mainnetManager fork).calcBlockSubsidy s ≤ maxSompi := by
  refine ⟨new_mainnet fork, ?_⟩
  have hpre := sum_preDeflationary_le fork scores
  have hdefl := sum_deflationary_le fork scores
  have hcap := sum_secondCap_le
  -- the caps are a closed sum: keep it folded
  generalize ∑ m ∈ Finset.range 425, secondCap m = cap at hdefl hcap
  calc ∑ s ∈ scores, (mainnetManager fork).calcBlockSubsidy s
      = ∑ s ∈ scores.filter (¬ 15519600 ≤ ·), (mainnetManager fork).calcBlockSubsidy s
        + ∑ s ∈ scores.filter (15519600 ≤ ·), (mainnetManager fork).calcBlockSubsidy s := by
        rw [add_comm]
        exact (sum_filter_add_sum_filter_not _ _ _).symm
    _ ≤ 15519600 * divCeil 50000000000 mainnetDivisor + secondsPerMonth * cap :=
        Nat.add_le_add hpre hdefl
    _ ≤ maxSompi := scheduled_le_maxSompi hcap

/-! ## The schedule never rises

A later block is in the same month or in a later one, is rewarded from the table of the same block
rate or of a higher one, and the tables fall from month to month. -/

lemma divCeil_le_iff {b : ℕ} (hb : 0 < b) (a c : ℕ) : divCeil a b ≤ c ↔ a ≤ c * b := by
  constructor
  · intro h
    exact (le_divCeil_mul hb a).trans (mul_le_mul_right b h)
  · intro h
    have hdiv : a / b ≤ c := Nat.div_le_of_le_mul (by rwa [Nat.mul_comm])
    unfold divCeil
    split
    · exact hdiv
    · -- the quotient is only reached by a multiple
      next hmod =>
      refine lt_of_le_of_ne hdiv fun heq => hmod ?_
      have hsum := div_add_mod a b
      rw [heq, mul_comm] at hsum
      omega

lemma divCeil_mono (b : ℕ) {a a' : ℕ} (h : a ≤ a') : divCeil a b ≤ divCeil a' b := by
  rcases Nat.eq_zero_or_pos b with rfl | hb
  · simp only [divCeil, mod_zero]
    split <;> split <;> omega
  · exact (divCeil_le_iff hb _ _).mpr (h.trans (le_divCeil_mul hb a'))

lemma divCeil_anti {b b' : ℕ} (hb : 0 < b) (h : b ≤ b') (a : ℕ) : divCeil a b' ≤ divCeil a b :=
  (divCeil_le_iff (hb.trans_le h) _ _).mpr
    ((le_divCeil_mul hb a).trans (mul_le_mul_left _ h))

/-! ## The table -/

/-- An entry of a scaled table, where months beyond the table have its last entry. -/
def scaledEntry (divisor bps month : ℕ) : ℕ :=
  (scaledTable divisor bps).getD (min month ((scaledTable divisor bps).length - 1)) 0

lemma isChain_subsidyByMonthTable : subsidyByMonthTable.IsChain (· ≥ ·) := by decide +kernel

lemma getD_anti {l : List ℕ} (hl : l.IsChain (· ≥ ·)) {i j : ℕ} (hij : i ≤ j) :
    l.getD j 0 ≤ l.getD i 0 := by
  rcases hij.eq_or_lt with rfl | hlt
  · exact le_refl _
  · by_cases hj : j < l.length
    · rw [List.getD_eq_getElem _ _ hj, List.getD_eq_getElem _ _ (hlt.trans hj)]
      exact List.pairwise_iff_getElem.mp (List.isChain_iff_pairwise.mp hl) i j _ hj hlt
    · rw [List.getD_eq_default _ _ (by omega)]
      exact zero_le _

lemma scaledEntry_eq (divisor bps month : ℕ) : scaledEntry divisor bps month =
    divCeil (divCeil (subsidyByMonthTable.getD (min month 425) 0) divisor) bps := by
  have hlength : (scaledTable divisor bps).length = 426 := by
    rw [scaledTable, List.length_map, length_subsidyByMonthTable]
  have hzero : divCeil (divCeil 0 divisor) bps = 0 := by simp [divCeil]
  rw [scaledEntry, hlength, scaledTable]
  conv_lhs => rw [← hzero]
  rw [List.getD_map]

/-- Entries fall with the month and with the block rate. -/
lemma scaledEntry_anti (divisor : ℕ) {bps bps' month month' : ℕ} (hbps : 0 < bps)
    (hrate : bps ≤ bps') (hmonth : month ≤ month') :
    scaledEntry divisor bps' month' ≤ scaledEntry divisor bps month := by
  rw [scaledEntry_eq, scaledEntry_eq]
  have hentry := getD_anti isChain_subsidyByMonthTable (min_le_min_right 425 hmonth)
  exact (divCeil_anti hbps hrate _).trans (divCeil_mono bps (divCeil_mono divisor hentry))

/-! ## Scores -/

namespace CoinbaseManager

/-- The seconds of the phase do not run backwards, also where the block rate changes. -/
lemma seconds_mono (m : CoinbaseManager) {s t : ℕ} (hst : s ≤ t) :
    m.secondsSinceDeflationaryPhase s ≤ m.secondsSinceDeflationaryPhase t := by
  unfold secondsSinceDeflationaryPhase
  split
  · exact Nat.div_le_div_right (by omega)
  · by_cases hs : s < m.crescendoActivationDaaScore
    · rw [if_pos hs]
      split
      · exact Nat.div_le_div_right (by omega)
      · exact (Nat.div_le_div_right (by omega)).trans (Nat.le_add_right _ _)
    · rw [if_neg hs, if_neg (by omega)]
      exact Nat.add_le_add_left (Nat.div_le_div_right (by omega)) _

variable {divisor deflation base : ℕ} {bps : ForkedParam ℕ}

/-- The block rate that decides the table of a score. -/
def rateAt (bps : ForkedParam ℕ) (daaScore : ℕ) : ℕ :=
  if bps.activation.isActive daaScore then bps.after else bps.before

lemma calcBlockSubsidy_of_lt {s : ℕ} (hs : s < deflation) :
    (scaled divisor deflation base bps).calcBlockSubsidy s =
      (scaled divisor deflation base bps).preDeflationaryPhaseBaseSubsidy := if_pos hs

lemma calcBlockSubsidy_eq_scaledEntry {s : ℕ} (hs : deflation ≤ s) :
    (scaled divisor deflation base bps).calcBlockSubsidy s = scaledEntry divisor
      (rateAt bps s) ((scaled divisor deflation base bps).subsidyMonth s) := by
  have hnot : ¬s < (scaled divisor deflation base bps).deflationaryPhaseDaaScore := not_lt.mpr hs
  rw [calcBlockSubsidy, if_neg hnot, rateAt]
  show (if bps.activation.isActive s then scaledTable _ bps.after
    else scaledTable _ bps.before).getD (min _ ((if bps.activation.isActive s then
      scaledTable _ bps.after else scaledTable _ bps.before).length - 1)) 0 = _
  cases bps.activation.isActive s <;> rfl

lemma rateAt_mono (hrates : bps.before ≤ bps.after) {s t : ℕ} (hst : s ≤ t) :
    rateAt bps s ≤ rateAt bps t := by
  unfold rateAt ForkActivation.isActive
  by_cases hs : bps.activation.daaScore ≤ s
  · simp [hs, hs.trans hst]
  · simp only [hs, decide_false, Bool.false_eq_true, if_false]
    split
    · exact hrates
    · exact le_refl _

lemma before_le_rateAt (hrates : bps.before ≤ bps.after) (s : ℕ) : bps.before ≤ rateAt bps s := by
  unfold rateAt
  split
  · exact hrates
  · exact le_refl _

/-- The subsidy of a block never exceeds that of a block with a lower DAA score. -/
theorem calcBlockSubsidy_antitone {m : CoinbaseManager} (hnew : new deflation base bps = some m)
    (hrates : bps.before ≤ bps.after)
    (hbase : m.subsidyByMonthTableBefore.getD 0 0 ≤ m.preDeflationaryPhaseBaseSubsidy) :
    Antitone m.calcBlockSubsidy := by
  simp only [new, Option.ite_none_left_eq_some, Option.some.injEq, not_or] at hnew
  obtain ⟨⟨-, hbefore, -⟩, rfl⟩ := hnew
  have hpos : 0 < bps.before := pos_of_ne_zero hbefore
  intro s t hst
  by_cases ht : deflation ≤ t
  · rw [calcBlockSubsidy_eq_scaledEntry ht]
    by_cases hs : deflation ≤ s
    · rw [calcBlockSubsidy_eq_scaledEntry hs]
      exact scaledEntry_anti _ (hpos.trans_le (before_le_rateAt hrates s)) (rateAt_mono hrates hst)
        (Nat.div_le_div_right (seconds_mono _ hst))
    · -- the first entry is at most the base subsidy
      rw [calcBlockSubsidy_of_lt (not_le.mp hs)]
      have hfirst : scaledEntry (emissionDivisor deflation base) bps.before 0 =
          (scaledTable (emissionDivisor deflation base) bps.before).getD 0 0 := by
        rw [scaledEntry, zero_min]
      exact (scaledEntry_anti _ hpos (before_le_rateAt hrates t) (zero_le _)).trans
        (hfirst.trans_le hbase)
  · have hs : ¬deflation ≤ s := fun h => ht (h.trans hst)
    rw [calcBlockSubsidy_of_lt (not_le.mp ht), calcBlockSubsidy_of_lt (not_le.mp hs)]

/-- The schedule of mainnet, whenever Crescendo is activated. -/
theorem calcBlockSubsidy_antitone_mainnet :
    Antitone (mainnetManager ⟨100000000⟩).calcBlockSubsidy :=
  calcBlockSubsidy_antitone (new_mainnet _) (by decide) (by decide +kernel)

end CoinbaseManager

end LapisMonetae.Coinbase
