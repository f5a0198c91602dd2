import LapisMonetae.Pruning.Manager
import LapisMonetae.Lib.Sampling
import Mathlib.Tactic.IntervalCases

/-!
# The two pruning point computations agree

On a selected chain before the Crescendo activation, both computations return the most recent
pruning sample of depth `P`. The candidate-based one does so on every chain; the sampled one,
which stops a sample's walk after `⌈P/F⌉` hops, does so if the blue score grows slowly enough
from block to block.
-/

namespace LapisMonetae.Pruning

open Sampling List PruningPointManager Option Nat

variable {daaScore : ℕ}

/-- A fork that is not active somewhere is not active since inception. -/
lemma activation_ne_always {activation : ForkActivation}
    (h : activation.isActive daaScore = false) : activation ≠ .always := by
  rintro rfl
  simp [ForkActivation.isActive, ForkActivation.always] at h

/-- A fork that is not active leaves a parameter at its value before the fork. -/
lemma get_eq_before {α : Type} {p : ForkedParam α} (h : p.activation.isActive daaScore = false) :
    p.get daaScore = p.before := by
  unfold ForkedParam.get ForkedParam.before
  rw [h, if_neg (activation_ne_always h), if_neg Bool.false_ne_true]

/-- If a fork is not active from the start and does not lower a parameter, the parameter's lower
bound is its value before the fork. -/
lemma lowerBound_eq_before {p : ForkedParam ℕ} (h : p.activation.isActive daaScore = false)
    (hle : p.before ≤ p.after) : p.lowerBound = p.before := by
  have hne := activation_ne_always h
  unfold ForkedParam.before ForkedParam.after at hle
  unfold ForkedParam.lowerBound ForkedParam.before
  rw [if_neg hne] at hle ⊢
  split
  · rfl
  · rename_i hnever
    rw [if_neg hnever] at hle
    exact min_eq_left hle

/-- The stores hold the selected chain `c 0, …, c n` with blue scores `bs`: headers from before
the activation, reachability that answers by the order of the chain, and the pruning samples
that `expected_header_pruning_point_v2` returned for each of its blocks. -/
structure SelectedChain (m : PruningPointManager) (c : ℕ → Hash) (bs : ℕ → ℕ) (n : ℕ) :
    Prop where
  genesis : c 0 = m.genesisHash
  not_origin : ∀ i, i ≤ n → c i ≠ BlockHash.origin
  injective : ∀ i j, i ≤ n → j ≤ n → c i = c j → i = j
  increasing : ∀ i, i < n → bs i < bs (i + 1)
  header : ∀ i, i ≤ n → ∃ header, m.stores.header (c i) = some header ∧
    header.blueScore = bs i ∧ m.pruningDepth.activation.isActive header.daaScore = false ∧
    m.finalityDepth.activation.isActive header.daaScore = false
  ghostdag : ∀ i, i ≤ n → m.stores.ghostdagBlueScore (c i) = some (bs i)
  chainAncestor : ∀ i j, i ≤ n → j ≤ n →
    m.stores.isChainAncestorOf (c i) (c j) = some (decide (i ≤ j))
  dagAncestor : ∀ i j, i ≤ n → j ≤ n →
    m.stores.isDagAncestorOfResult (c i) (c j) = some (decide (i ≤ j))
  nextChainAncestor : ∀ i j, i < j → j ≤ n →
    m.stores.getNextChainAncestor (c j) (c i) = some (c (i + 1))
  samples : ∀ i, i < n → m.stores.pruningSampleFromPov (c (i + 1)) =
    m.pruningSample ⟨bs (i + 1), c i⟩ m.finalityDepth.before

/-- The finality depth before the activation: the length of an epoch. -/
abbrev PruningPointManager.epoch (m : PruningPointManager) : ℕ := m.finalityDepth.before

/-- The pruning depth before the activation. -/
abbrev PruningPointManager.depth (m : PruningPointManager) : ℕ := m.pruningDepth.before

namespace SelectedChain

variable {m : PruningPointManager} {c : ℕ → Hash} {bs : ℕ → ℕ} {n : ℕ}
  (h : SelectedChain m c bs n)
variable {state : PruningState} {b fuel i k p r step y : ℕ}

include h

/-- The blue score in a header of the chain. -/
lemma blueScore (hi : i ≤ n) : m.stores.blueScore (c i) = some (bs i) := by
  obtain ⟨header, hheader, hbs, -⟩ := h.header i hi
  rw [Stores.blueScore, hheader, map_some, hbs]

lemma eq_genesis_iff (hi : i ≤ n) : c i = m.genesisHash ↔ i = 0 := by
  rw [← h.genesis]
  constructor
  · exact h.injective i 0 hi (zero_le _)
  · rintro rfl
    rfl

/-- The parameters at a block of the chain are those before the fork. -/
lemma params (hi : i ≤ n) : ∃ daaScore, m.stores.daaScore (c i) = some daaScore ∧
    m.pruningDepth.get daaScore = m.depth ∧ m.finalityDepth.get daaScore = m.epoch ∧
    m.pruningDepth.activation.isActive daaScore = false := by
  obtain ⟨header, hheader, -, hp, hf⟩ := h.header i hi
  refine ⟨header.daaScore, ?_, get_eq_before hp, get_eq_before hf, hp⟩
  rw [Stores.daaScore, hheader, map_some]

/-- The sample that v2 computes on top of `c k` is the most recent sample of the chain. -/
lemma pruningSample_spec (b : ℕ) : ∀ k, k ≤ n → ∃ s, m.pruningSample ⟨b, c k⟩ m.epoch = some (c s) ∧
      IsLastSample bs m.epoch k s := by
  intro k
  -- the sample only depends on the selected parent, so the induction ranges over blue scores
  induction k generalizing b with
  | zero =>
    intro hk
    refine ⟨0, ?_, le_refl _, rfl, fun j h1 h2 => by omega⟩
    unfold pruningSample
    have hgenesis : m.stores.blueScore m.genesisHash = some (bs 0) :=
      h.genesis ▸ h.blueScore hk
    simp only [h.genesis, hgenesis, bind_eq_bind, bind_some, if_true]
    rfl
  | succ k ih =>
    intro hk
    obtain ⟨s, hs, hlast⟩ := ih (bs (k + 1)) (by omega)
    have hsk := hlast.le
    have hsample := isSample_succ_iff h.increasing hk hlast
    have hne : c (k + 1) ≠ m.genesisHash := by
      rw [Ne, h.eq_genesis_iff hk]
      omega
    have hstored : m.stores.pruningSampleFromPov (c (k + 1)) = some (c s) :=
      (h.samples k (by omega)).trans hs
    unfold pruningSample
    simp only [h.blueScore hk, hne, hstored, h.blueScore (show s ≤ n by omega),
      bind_eq_bind, bind_some, if_false]
    by_cases hnew : bs s / m.epoch < bs (k + 1) / m.epoch
    · refine ⟨k + 1, ?_, le_refl _, hsample.mpr hnew, fun j h1 h2 => by omega⟩
      simp [isPruningSample, finalityScore, hnew]
    · refine ⟨s, ?_, by omega, hlast.sample, fun j h1 h2 => ?_⟩
      · simp [isPruningSample, finalityScore, hnew]
      · rcases lt_or_ge j (k + 1) with hj | hj
        · exact hlast.last j h1 (by omega)
        · have : j = k + 1 := by omega
          rw [this]
          exact Bool.eq_false_iff.mpr fun ht => hnew (hsample.mp ht)

/-- The samples store leads from a block to the most recent sample below it. -/
lemma pruningSampleFromPov_spec (hk : k < n) :
    ∃ s, m.stores.pruningSampleFromPov (c (k + 1)) = some (c s) ∧ IsLastSample bs m.epoch k s := by
  rw [h.samples k hk]
  exact h.pruningSample_spec (bs (k + 1)) k hk.le

/-! ## The sampled computation -/

/-- The pruning point in the header of `c k` is the most recent deep sample below it. -/
def HeaderDeep (m : PruningPointManager) (c : ℕ → Hash) (bs : ℕ → ℕ) (k : ℕ) : Prop :=
  ∃ header r, m.stores.header (c k) = some header ∧ header.pruningPoint = c r ∧
    IsDeepSample bs m.finalityDepth.before m.pruningDepth.before (bs k) (k - 1) r

section Steps

variable (hstep : ∀ i, i < n → bs (i + 1) ≤ bs i + step)
  (hbound : step + m.depth ≤ m.pruningSamplesSteps * m.epoch + 1)

include hstep hbound

omit h in
/-- The hops of v2 from a sample reach the pruning depth: the clamp after `⌈P/F⌉` samples never
cuts a walk short if the blue score grows by at most `step` from block to block. -/
lemma deep_of_steps {s steps : ℕ} (hs : s ≤ n) (hs0 : 0 < s) (hsample : isSample bs m.epoch s = true)
    (hsteps : steps = m.pruningSamplesSteps) (hepoch : bs s / m.epoch + steps ≤ b / m.epoch) :
    bs s + m.depth ≤ b := by
  have hlt : bs s < bs s / m.epoch * m.epoch + step :=
    sample_score_lt hstep m.finalityDepth_pos hs hs0 hsample
  have hb : (bs s / m.epoch + steps) * m.epoch ≤ b :=
    (mul_le_mul_right _ hepoch).trans (div_mul_le_self b _)
  rw [add_mul, hsteps] at hb
  omega

/-- The loop of v2, from a sample `s` on: it returns the most recent deep sample, provided the
samples above `s` are not deep. -/
lemma findPruningPointV2_spec (hk : k ≤ n) (isSelf : Bool) (hr : r = 0 ∨ bs r + m.depth ≤ b)
    (hrn : r ≤ n) :
    ∀ fuel s steps, s < fuel → s ≤ k → isSample bs m.epoch s = true →
      (∀ j, s < j → j ≤ k → isSample bs m.epoch j = true → b < bs j + m.depth) →
      (isSelf = true → bs s / m.epoch + steps ≤ b / m.epoch) →
      ∃ q, m.findPruningPointV2 b m.depth isSelf (c r) fuel steps (c s) = some (c q) ∧
        IsDeepSample bs m.epoch m.depth b k q := by
  intro fuel
  induction fuel with
  | zero =>
    intro s steps hfuel
    omega
  | succ fuel ih =>
    intro s steps hfuel hsk hsample habove hepoch
    have hsn : s ≤ n := by omega
    unfold findPruningPointV2
    by_cases hs0 : s = 0
    · -- genesis ends the walk
      rw [if_pos ((h.eq_genesis_iff hsn).mpr hs0)]
      exact ⟨s, rfl, hsk, hsample, .inl hs0, habove⟩
    rw [if_neg (mt (h.eq_genesis_iff hsn).mp hs0)]
    simp only [h.blueScore hsn, bind_eq_bind, bind_some]
    by_cases hdeep : bs s + m.depth ≤ b
    · rw [if_pos hdeep]
      exact ⟨s, rfl, hsk, hsample, .inr hdeep, habove⟩
    rw [if_neg hdeep]
    have hclamp : (isSelf && steps == m.pruningSamplesSteps) = false := by
      rw [Bool.and_eq_false_iff]
      by_contra hcon
      rw [not_or, Bool.not_eq_false, Bool.not_eq_false, beq_iff_eq] at hcon
      exact hdeep (deep_of_steps hstep hbound hsn (by omega) hsample hcon.2 (hepoch hcon.1))
    have hspp : c s ≠ c r := by
      intro heq
      have hsr : s = r := h.injective s r hsn hrn heq
      subst hsr
      rcases hr with hr | hr
      · exact hs0 hr
      · exact hdeep hr
    rw [hclamp, if_neg Bool.false_ne_true, if_neg hspp]
    obtain _ | j := s
    · omega
    obtain ⟨t, ht, hlast⟩ := h.pruningSampleFromPov_spec (show j < n by omega)
    have htj := hlast.le
    rw [ht, bind_some]
    refine ih t (steps + 1) (by omega) (by omega) hlast.sample (fun i h1 h2 hi => ?_) fun hself => ?_
    · -- a sample above `t` is `j + 1` or above it
      rcases lt_or_ge j i with hji | hij
      · rcases lt_or_ge (j + 1) i with hji' | hij'
        · exact habove i hji' h2 hi
        · have : i = j + 1 := by omega
          rw [this]
          omega
      · have hit := hlast.le_of_sample hi hij
        omega
    · have hlt := epoch_lt_of_sample h.increasing hsn (show t < j + 1 by omega) hsample
      have hle := hepoch hself
      omega

/-- `expected_header_pruning_point_v2` on top of `c k` returns the most recent deep sample. -/
lemma expectedHeaderPruningPointV2_spec (hk : k ≤ n) (hb : bs k ≤ b) (hfuel : n < fuel)
    (hheader : 0 < k → HeaderDeep m c bs k) :
    ∃ s q, m.expectedHeaderPruningPointV2 fuel ⟨b, c k⟩ = some ⟨c s, c q⟩ ∧
      IsDeepSample bs m.epoch m.depth b k q := by
  obtain ⟨daaScore, hdaa, hP, hF, -⟩ := h.params hk
  obtain ⟨s, hs, hlast⟩ := h.pruningSample_spec b k hk
  obtain ⟨header, hget, -⟩ := h.header k hk
  unfold expectedHeaderPruningPointV2
  simp only [hdaa, hP, hF, h.blueScore hk, hs, hget, bind_eq_bind, bind_some]
  rcases Nat.eq_zero_or_pos k with rfl | hk0
  · -- on top of genesis, the only sample is genesis
    have hs0 : s = 0 := le_zero.mp hlast.le
    subst hs0
    obtain _ | f := fuel
    · omega
    refine ⟨0, 0, ?_, le_refl _, hlast.sample, .inl rfl, fun j h1 h2 => by omega⟩
    unfold findPruningPointV2
    rw [if_pos h.genesis]
    rfl
  obtain ⟨header', r, hget', hpp, hr⟩ := hheader hk0
  obtain rfl : header = header' := some.inj (hget.symm.trans hget')
  have hrk := hr.le
  have hdeep : r = 0 ∨ bs r + m.depth ≤ b :=
    hr.deep.imp id fun hd => hd.trans hb
  have hepoch : isPruningSample b (bs k) m.epoch = true → bs s / m.epoch + 1 ≤ b / m.epoch := by
    intro hself
    rw [epoch_eq h.increasing hk hlast.le hlast.last]
    exact of_decide_eq_true hself
  obtain ⟨q, hq, hqdeep⟩ := h.findPruningPointV2_spec hstep hbound hk
    (isPruningSample b (bs k) m.epoch) hdeep
    (show r ≤ n by omega) fuel s 1 (by have := hlast.le; omega) hlast.le hlast.sample
    (fun j h1 h2 hj => absurd (hlast.le_of_sample hj h2) (by omega)) hepoch
  refine ⟨s, q, ?_, hqdeep⟩
  rw [hpp, hq]
  rfl

end Steps

/-! ## The candidate-based computation -/

/-- The chain iterator after it has handed out `c y`. -/
def iteratorAfter (c : ℕ → Hash) (k y : ℕ) : ForwardChainIterator :=
  ⟨if y = k then none else some (c (y + 1)), c k, true⟩

/-- One step of the chain iterator. -/
lemma iterator_next (hk : k ≤ n) (hy : y ≤ k) :
    ForwardChainIterator.next m.stores ⟨some (c y), c k, true⟩ =
      some (some (c y), iteratorAfter c k y) := by
  unfold ForwardChainIterator.next iteratorAfter
  by_cases hyk : y = k
  · simp [hyk]
  · have hne : c y ≠ c k := fun heq => hyk (h.injective y k (by omega) hk heq)
    simp [hyk, hne, h.nextChainAncestor y k (by omega) hk]

/-- The walk along the chain from above `c y`, where `c y` is deep and in the epoch of the
latest pruning point: it collects the samples up to the last deep block, which becomes the
candidate. -/
lemma walkCandidates_after (hk : k ≤ n) (hb : bs k ≤ b) :
    ∀ d' y, y + d' = k → ∀ fuel latest acc, d' + 1 < fuel →
      latest / m.epoch = bs y / m.epoch →
      ∃ d, y ≤ d ∧ d ≤ k ∧ (∀ j, y < j → j ≤ d → bs j + m.depth ≤ b) ∧
        (∀ j, d < j → j ≤ k → b < bs j + m.depth) ∧
        m.walkCandidates b m.depth m.epoch fuel
          (iteratorAfter c k y) latest acc (c y) =
        some (acc ++ (samplesIn bs m.epoch y d).map c, c d) := by
  intro d'
  induction d' with
  | zero =>
    intro y hy fuel latest acc hfuel hlatest
    obtain _ | f := fuel
    · omega
    obtain rfl : y = k := by omega
    refine ⟨y, le_refl _, le_refl _, fun j h1 h2 => by omega, fun j h1 h2 => by omega, ?_⟩
    rw [samplesIn_eq_nil fun j h1 h2 => by omega]
    simp [walkCandidates, iteratorAfter, ForwardChainIterator.next]
  | succ d' ih =>
    intro y hy fuel latest acc hfuel hlatest
    obtain _ | f := fuel
    · omega
    have hyk : y ≠ k := by omega
    have hiter : iteratorAfter c k y = ⟨some (c (y + 1)), c k, true⟩ := by
      simp [iteratorAfter, hyk]
    have hbs : bs (y + 1) ≤ b := (score_le h.increasing (by omega) hk).trans hb
    unfold walkCandidates
    rw [hiter, h.iterator_next hk (show y + 1 ≤ k by omega)]
    simp only [bind_eq_bind, bind_some, h.ghostdag (y + 1) (by omega)]
    rw [if_neg (by omega)]
    by_cases hdeep : bs (y + 1) + m.depth ≤ b
    · rw [if_neg (by omega)]
      -- `c (y + 1)` starts a new epoch exactly if it is a sample
      have hnew : finalityScore latest m.epoch <
          finalityScore (bs (y + 1)) m.epoch ↔
          isSample bs m.epoch (y + 1) = true := by
        unfold finalityScore
        rw [hlatest]
        simp only [isSample, decide_eq_true_eq]
      obtain ⟨latest', hlatest', hround⟩ : ∃ latest', latest' / m.epoch = bs (y + 1) / m.epoch ∧
          ∀ walk : ℕ → List Hash → Option (List Hash × Hash),
            (if finalityScore latest m.epoch < finalityScore (bs (y + 1)) m.epoch then
              walk (bs (y + 1)) (acc ++ [c (y + 1)]) else walk latest acc) =
                walk latest' (acc ++ (samplesIn bs m.epoch y (y + 1)).map c) := by
        by_cases hsample : isSample bs m.epoch (y + 1) = true
        · exact ⟨_, rfl, by simp [samplesIn, hsample, hnew]⟩
        · refine ⟨latest, hlatest.trans ?_, by simp [samplesIn, hsample, hnew]⟩
          refine epoch_eq h.increasing (by omega) (le_succ y) fun j h1 h2 => ?_
          obtain rfl : j = y + 1 := by omega
          exact Bool.eq_false_iff.mpr hsample
      obtain ⟨d, hyd, hdk, hbelow, habove, hwalk⟩ := ih (y + 1) (by omega) f latest' _
        (by omega) hlatest'
      refine ⟨d, by omega, hdk, fun j h1 h2 => ?_, habove, ?_⟩
      · rcases lt_or_ge (y + 1) j with hj | hj
        · exact hbelow j hj h2
        · obtain rfl : j = y + 1 := by omega
          exact hdeep
      · rw [samplesIn_append (le_succ y) hyd, map_append, ← append_assoc, ← hwalk]
        exact hround fun latest acc => m.walkCandidates b m.depth m.epoch f _ latest acc _
    · rw [if_pos (by omega)]
      refine ⟨y, le_refl _, by omega, fun j h1 h2 => by omega, fun j h1 h2 => ?_, ?_⟩
      · have hle := score_le h.increasing (show y + 1 ≤ j from h1) (h2.trans hk)
        omega
      · rw [samplesIn_eq_nil fun j h1 h2 => by omega]
        simp

/-- The start of the walk is a pair of chain blocks in one epoch, the pruning point a sample. -/
structure WalkStart (bs : ℕ → ℕ) (finalityDepth k p y : ℕ) : Prop where
  le : p ≤ y
  le_last : y ≤ k
  sample : isSample bs finalityDepth p = true
  epoch : bs p / finalityDepth = bs y / finalityDepth

/-- `next_pruning_points_v1_inner` from the pruning point `c p` and the candidate `c y`: nothing
if `c p` is not deep, and else the samples between `c p` and the most recent deep sample `c q`,
with a candidate in the epoch of `c q`. -/
lemma nextPruningPointsV1Inner_spec (hk : k ≤ n) (hb : bs k ≤ b) (hfuel : n + 2 < fuel)
    (hstart : WalkStart bs m.epoch k p y) : (b < bs p + m.depth ∧
      m.nextPruningPointsV1Inner fuel ⟨b, c k⟩ (c y) (c p) m.depth
        m.epoch = some ([], c y)) ∨
    (bs p + m.depth ≤ b ∧ ∃ q d, IsDeepSample bs m.epoch m.depth b k q ∧ p ≤ q ∧
      WalkStart bs m.epoch k q d ∧
      m.nextPruningPointsV1Inner fuel ⟨b, c k⟩ (c y) (c p) m.depth
        m.epoch =
        some ((samplesIn bs m.epoch p q).map c, c d)) := by
  obtain ⟨hpy, hyk, hsample, hepoch⟩ := hstart
  unfold nextPruningPointsV1Inner
  simp only [h.ghostdag p (by omega), bind_eq_bind, bind_some]
  by_cases hdeep : bs p + m.depth ≤ b
  · refine .inr ⟨hdeep, ?_⟩
    rw [if_neg (by omega)]
    obtain _ | f := fuel
    · omega
    have hbs : bs y ≤ b := (score_le h.increasing hyk hk).trans hb
    have hnone : ∀ j, p < j → j ≤ y → isSample bs m.epoch j = false :=
      not_isSample_of_epoch_eq h.increasing (hyk.trans hk) hepoch
    unfold walkCandidates
    rw [h.iterator_next hk hyk]
    simp only [bind_eq_bind, bind_some, h.ghostdag y (by omega)]
    rw [if_neg (by omega)]
    by_cases hydeep : bs y + m.depth ≤ b
    · -- the candidate is deep: the walk goes on above it
      have hold : ¬finalityScore (bs p) m.epoch < finalityScore (bs y) m.epoch := by
        unfold finalityScore
        omega
      rw [if_neg (by omega), if_neg hold]
      obtain ⟨d, hyd, hdk, hbelow, habove, hwalk⟩ := h.walkCandidates_after hk hb (k - y) y
        (by omega) f (bs p) [] (by omega) hepoch
      obtain ⟨q, hq⟩ : ∃ q, IsLastSample bs m.epoch d q := exists_isLastSample d
      have hpq : p ≤ q := hq.le_of_sample hsample (by omega)
      have hqd := hq.le
      refine ⟨q, d, ⟨by omega, hq.sample, .inr ?_, fun j h1 h2 hj => ?_⟩, hpq,
        ⟨hqd, hdk, hq.sample, epoch_eq h.increasing (by omega) hqd hq.last⟩, ?_⟩
      · rcases lt_or_ge y q with hyq | hqy
        · exact hbelow q hyq hqd
        · have hle := score_le h.increasing hqy (hyk.trans hk)
          omega
      · have hdj : d < j := by
          by_contra hcon
          have hle := hq.le_of_sample hj (by omega)
          omega
        exact habove j hdj h2
      · rw [hwalk, nil_append]
        congr 3
        rw [← nil_append (samplesIn bs m.epoch y d),
          ← samplesIn_eq_nil hnone, ← samplesIn_append hpy hyd,
          samplesIn_append hpq hqd, samplesIn_eq_nil hq.last, append_nil]
    · -- the candidate is not deep, and neither is any later sample
      rw [if_pos (by omega)]
      refine ⟨p, y, ⟨by omega, hsample, .inr hdeep, fun j h1 h2 hj => ?_⟩, le_refl _,
        ⟨hpy, hyk, hsample, hepoch⟩, ?_⟩
      · have hyj : y < j := by
          by_contra hcon
          simp [hnone j h1 (by omega)] at hj
        have hle := score_le h.increasing hyj.le (h2.trans hk)
        omega
      · rw [samplesIn_eq_nil fun j h1 h2 => by omega]
        rfl
  · refine .inl ⟨by omega, ?_⟩
    rw [if_pos (by omega)]
    rfl

omit h in
/-- The last of the pruning points that the walk collected, or the one that it started from. -/
lemma getLast_map_samplesIn {q : ℕ} (hp : isSample bs m.epoch p = true)
    (hpk : p ≤ k) (hq : IsLastSample bs m.epoch k q) :
    ((samplesIn bs m.epoch p k).map c).getLast?.getD (c p) = c q := by
  rw [List.getLast?_map, Option.getD_map, getLast_samplesIn hp hpk hq]

/-- The maintained state describes the chain up to `c k`: the global pruning point is a sample,
the candidate is in its epoch, and the past pruning points are all samples up to it. -/
structure StateOn (m : PruningPointManager) (c : ℕ → Hash) (bs : ℕ → ℕ) (k p y : ℕ)
    (state : PruningState) : Prop where
  start : WalkStart bs m.finalityDepth.before k p y
  pruningPoint : state.pruningPoint = c p
  candidate : state.candidate = c y
  past : state.pastPruningPoints = (samplesUpTo bs m.finalityDepth.before p).map c
  index : state.index + 1 = (samplesUpTo bs m.finalityDepth.before p).length

omit h in
/-- If no past pruning point after position `i` is deep, then no sample above it is deep. -/
lemma not_deep_above {t : ℕ}
    (hpnot : ∀ j, p < j → j ≤ k → isSample bs m.epoch j = true → b < bs j + m.depth)
    (ht : (samplesUpTo bs m.epoch p)[i]? = some t)
    (habove : ∀ i' t', i < i' → (samplesUpTo bs m.epoch p)[i']? = some t' → b < bs t' + m.depth) :
    ∀ j, t < j → j ≤ k → isSample bs m.epoch j = true → b < bs j + m.depth := by
  intro j htj hjk hj
  rcases lt_or_ge p j with hpj | hjp
  · exact hpnot j hpj hjk hj
  obtain ⟨i', hi', heq⟩ := getElem_of_mem (mem_samplesUpTo.mpr ⟨hjp, hj⟩)
  refine habove i' j ?_ (by rw [List.getElem?_eq_getElem hi', heq])
  -- the list of samples is sorted
  by_contra hcon
  obtain ⟨hi, hti⟩ := List.getElem?_eq_some_iff.mp ht
  rcases lt_or_ge i' i with hlt | hge
  · have hsorted := pairwise_iff_getElem.mp (samplesUpTo_sorted p) i' i hi' hi hlt
    omega
  · obtain rfl : i = i' := by omega
    omega

/-- One iteration of the search through the past pruning points. -/
lemma searchPastPruningPoints_step {t : ℕ} (hp : p ≤ n)
    (ht : (samplesUpTo bs m.epoch p)[i]? = some t) :
    m.searchPastPruningPoints ((samplesUpTo bs m.epoch p).map c) b
        m.depth (c r) (bs r) (List.range (i + 1)).reverse =
      if bs t ≤ bs r then some (c r)
      else if bs t + m.depth ≤ b then some (c t)
      else m.searchPastPruningPoints ((samplesUpTo bs m.epoch p).map c) b
        m.depth (c r) (bs r) (List.range i).reverse := by
  have htp := (mem_samplesUpTo.mp (mem_of_getElem? ht)).1
  rw [range_succ, reverse_append, reverse_singleton, singleton_append, searchPastPruningPoints]
  simp only [List.getElem?_map, ht, map_some, bind_eq_bind, bind_some,
    h.blueScore (show t ≤ n by omega), isPruningPointInPruningDepth,
    Option.pure_def, decide_eq_true_eq]

/-- The search through the past pruning points, from a position above which no sample is deep:
it finds the most recent deep sample. -/
lemma searchPastPruningPoints_spec (hk : k ≤ n) (hpk : p ≤ k) (hrk : r ≤ k)
    (hrsample : isSample bs m.epoch r = true) (hrdeep : r = 0 ∨ bs r + m.depth ≤ b)
    (hpnot : ∀ j, p < j → j ≤ k → isSample bs m.epoch j = true → b < bs j + m.depth) :
    ∀ i, i < (samplesUpTo bs m.epoch p).length →
      (∀ i' t, i < i' → (samplesUpTo bs m.epoch p)[i']? = some t → b < bs t + m.depth) →
      ∃ q, m.searchPastPruningPoints ((samplesUpTo bs m.epoch p).map c) b
          m.depth (c r) (bs r) (List.range (i + 1)).reverse = some (c q) ∧
        IsDeepSample bs m.epoch m.depth b k q := by
  intro i
  induction i with
  | zero =>
    intro hi habove
    -- the first sample is genesis, which is not above `c r`
    have hzero : (samplesUpTo bs m.epoch p)[0]? = some 0 := samplesUpTo_zero p
    rw [h.searchPastPruningPoints_step (hpk.trans hk) hzero,
      if_pos (score_le h.increasing (zero_le r) (hrk.trans hk))]
    refine ⟨r, rfl, hrk, hrsample, hrdeep, fun j h1 h2 hj => ?_⟩
    exact not_deep_above hpnot hzero habove j (by omega) h2 hj
  | succ i ih =>
    intro hi habove
    obtain ⟨t, ht⟩ : ∃ t, (samplesUpTo bs m.epoch p)[i + 1]? = some t :=
      ⟨_, List.getElem?_eq_getElem hi⟩
    have htmem := mem_samplesUpTo.mp (mem_of_getElem? ht)
    have hnot := not_deep_above hpnot ht habove
    rw [h.searchPastPruningPoints_step (hpk.trans hk) ht]
    by_cases hle : bs t ≤ bs r
    · rw [if_pos hle]
      have htr : t ≤ r := le_of_score_le h.increasing (by omega) hle
      exact ⟨r, rfl, hrk, hrsample, hrdeep, fun j h1 h2 hj => hnot j (by omega) h2 hj⟩
    rw [if_neg hle]
    by_cases hdeep : bs t + m.depth ≤ b
    · rw [if_pos hdeep]
      exact ⟨t, rfl, by omega, htmem.2, .inr hdeep, hnot⟩
    rw [if_neg hdeep]
    refine ih (by omega) fun i' t' hi' ht' => ?_
    rcases lt_or_ge (i + 1) i' with hlt | hge
    · exact habove i' t' hlt ht'
    · obtain rfl : i' = i + 1 := by omega
      obtain rfl : t = t' := some.inj (ht.symm.trans ht')
      omega

/-- The walk of v1 starts at the pruning point of the selected parent if that is not below the
global one, and at the global one otherwise. -/
lemma walkStart_spec (hk : k ≤ n) (hstate : StateOn m c bs k p y state) (hrk : r ≤ k)
    (hrsample : isSample bs m.epoch r = true) :
    ∃ p' y', m.walkStart state (c k) (c r) = some (c p', c y') ∧ WalkStart bs m.epoch k p' y' ∧
      ((p ≤ r ∧ p' = r) ∨ (r < p ∧ p' = p)) := by
  obtain ⟨⟨hpy, hyk, hsample, hepoch⟩, hpp, hcc, -, -⟩ := hstate
  unfold walkStart
  rw [hpp, hcc, h.dagAncestor p r (by omega) (by omega), getD_some]
  by_cases hpr : p ≤ r
  · rw [decide_eq_true hpr, if_pos rfl]
    simp only [h.chainAncestor r y (by omega) (by omega), bind_eq_bind, bind_some, Option.pure_def]
    by_cases hry : r ≤ y
    · -- both lie in the epoch of the global pruning point
      have h1 : bs p / m.epoch ≤ bs r / m.epoch :=
        Nat.div_le_div_right (score_le h.increasing hpr (by omega))
      have h2 : bs r / m.epoch ≤ bs y / m.epoch :=
        Nat.div_le_div_right (score_le h.increasing hry (by omega))
      refine ⟨r, y, by simp [hry], ⟨hry, hyk, hrsample, le_antisymm h2 (hepoch ▸ h1)⟩,
        .inl ⟨hpr, rfl⟩⟩
    · exact ⟨r, r, by simp [hry], ⟨le_refl _, hrk, hrsample, rfl⟩, .inl ⟨hpr, rfl⟩⟩
  · rw [decide_eq_false hpr, if_neg Bool.false_ne_true]
    simp only [h.chainAncestor y k (by omega) hk, bind_eq_bind, bind_some,
      decide_eq_true hyk, if_true, Option.pure_def]
    exact ⟨p, y, rfl, ⟨hpy, hyk, hsample, hepoch⟩, .inr ⟨by omega, rfl⟩⟩

/-- The first part of v1 returns the most recent deep sample, or the global pruning point if
that is not deep. -/
lemma nextOrCurrentPp_spec (hk : k ≤ n) (hb : bs k ≤ b) (hfuel : n + 2 < fuel)
    (hstate : StateOn m c bs k p y state) (hrk : r ≤ k) (hrsample : isSample bs m.epoch r = true)
    (hrdeep : r = 0 ∨ bs r + m.depth ≤ b) :
    ∃ q, m.nextOrCurrentPp fuel ⟨b, c k⟩ state (c r) (bs r) m.depth
        m.epoch = some (c q) ∧ q ≤ k ∧
      (IsDeepSample bs m.epoch m.depth b k q ∨ (q = p ∧ r < p ∧ b < bs p + m.depth)) := by
  have hpk : p ≤ k := hstate.start.le.trans hstate.start.le_last
  unfold nextOrCurrentPp
  simp only [hstate.pruningPoint, h.chainAncestor p k (by omega) hk, hpk, decide_true,
    Bool.true_and, bind_eq_bind, bind_some, decide_eq_true_eq]
  by_cases hmin : (finalityScore (bs r) m.epoch + 1) *
      m.epoch + m.depth ≤ b
  · rw [if_pos hmin]
    obtain ⟨p', y', hwalk, hstart, hcase⟩ := h.walkStart_spec hk hstate hrk hrsample
    unfold expectedHeaderPruningPointV1Inner
    simp only [hwalk, bind_some]
    rcases h.nextPruningPointsV1Inner_spec hk hb hfuel hstart with
      ⟨hnot, hinner⟩ | ⟨hdeep, q, d, hq, hpq, hstart', hinner⟩
    · -- the start is not deep: it is the global pruning point
      rw [hinner]
      refine ⟨p', rfl, hstart.le.trans hstart.le_last, .inr ?_⟩
      rcases hcase with ⟨hpr, rfl⟩ | ⟨hrp, rfl⟩
      · have hlt : bs p' < (bs p' / m.epoch + 1) * m.epoch := by
          have := lt_div_mul_add (a := bs p') m.finalityDepth_pos
          rw [add_mul, one_mul]
          exact this
        unfold finalityScore at hmin
        omega
      · exact ⟨rfl, hrp, hnot⟩
    · rw [hinner]
      refine ⟨q, ?_, hq.le, .inl hq⟩
      have hlast : IsLastSample bs m.epoch q q :=
        ⟨le_refl _, hq.sample, fun j h1 h2 => by omega⟩
      exact congrArg some (getLast_map_samplesIn hstart.sample hpq hlast)
  · rw [if_neg hmin]
    refine ⟨r, rfl, hrk, .inl ⟨hrk, hrsample, hrdeep, fun j h1 h2 hj => ?_⟩⟩
    -- a later sample has a blue score of at least the next epoch
    have hlt := epoch_lt_of_sample h.increasing (h2.trans hk) h1 hj
    have hle : (bs r / m.epoch + 1) * m.epoch ≤ bs j :=
      (mul_le_mul_right _ hlt).trans (div_mul_le_self _ _)
    unfold finalityScore at hmin
    omega

/-- `expected_header_pruning_point_v1` on top of `c k`, started from a state that describes the
chain, returns the most recent deep sample. -/
lemma expectedHeaderPruningPointV1_spec (hk : k ≤ n) (hb : bs k ≤ b) (hfuel : n + 2 < fuel)
    (hstate : StateOn m c bs k p y state) (hheader : 0 < k → HeaderDeep m c bs k) :
    ∃ q, m.expectedHeaderPruningPointV1 fuel ⟨b, c k⟩ state = some (c q) ∧
      IsDeepSample bs m.epoch m.depth b k q := by
  unfold expectedHeaderPruningPointV1
  rcases Nat.eq_zero_or_pos k with rfl | hk0
  · rw [if_pos h.genesis, ← h.genesis]
    exact ⟨0, rfl, le_refl _, rfl, .inl rfl, fun j h1 h2 => by omega⟩
  rw [if_neg (mt (h.eq_genesis_iff hk).mp (by omega))]
  obtain ⟨daaScore, hdaa, hP, hF, -⟩ := h.params hk
  obtain ⟨header, r, hget, hpp, hr⟩ := hheader hk0
  have hrk : r ≤ k := hr.le.trans (sub_le k 1)
  have hrdeep : r = 0 ∨ bs r + m.depth ≤ b := hr.deep.imp id fun hd => hd.trans hb
  obtain ⟨q, hq, hqk, hcase⟩ := h.nextOrCurrentPp_spec hk hb hfuel hstate hrk hr.sample hrdeep
  simp only [hdaa, hP, hF, hget, hpp, h.blueScore (show r ≤ n by omega), hq,
    h.blueScore (show q ≤ n by omega), bind_eq_bind, bind_some,
    isPruningPointInPruningDepth, Option.pure_def, decide_eq_true_eq]
  rcases hcase with hdeep | ⟨rfl, hrq, hnot⟩
  · by_cases hqr : bs q ≤ bs r
    · -- the next pruning point is not above that of the selected parent: they are equal
      rw [if_pos hqr]
      have hqr' : q ≤ r := le_of_score_le h.increasing (by omega) hqr
      have hrq : r ≤ q := by
        by_contra hcon
        have hlast := hdeep.last r (by omega) hrk hr.sample
        rcases hrdeep with h0 | hd <;> omega
      obtain rfl : q = r := by omega
      exact ⟨q, rfl, hdeep⟩
    · have hqdeep : bs q + m.depth ≤ b := by
        rcases hdeep.deep with h0 | hd
        · have hle := score_le h.increasing (zero_le r) (hrk.trans hk)
          rw [h0] at hqr
          omega
        · exact hd
      rw [if_neg hqr, if_pos hqdeep]
      exact ⟨q, rfl, hdeep⟩
  · -- the global pruning point is not deep: search below it
    have hlt := score_lt h.increasing hrq (hqk.trans hk)
    rw [if_neg (by omega), if_neg (by omega), hstate.past, hstate.index]
    have hpnot : ∀ j, q < j → j ≤ k → isSample bs m.epoch j = true → b < bs j + m.depth := by
      intro j h1 h2 _
      have hle := score_le h.increasing h1.le (h2.trans hk)
      omega
    have hlen := hstate.index
    obtain ⟨i, hi⟩ : ∃ i, (samplesUpTo bs m.epoch q).length = i + 1 :=
      ⟨state.index, hlen.symm⟩
    rw [hi]
    refine h.searchPastPruningPoints_spec hk hqk hrk hr.sample hrdeep hpnot i (by omega)
      fun i' t hii' ht => ?_
    obtain ⟨hi', -⟩ := List.getElem?_eq_some_iff.mp ht
    omega

/-! ## The next pruning points -/

/-- The loop of `next_pruning_points_v2` collects the samples above the current pruning point. -/
lemma collectSamples_spec (hp : isSample bs m.epoch p = true) :
    ∀ fuel q deque, q < fuel → p ≤ q → q ≤ n →
      isSample bs m.epoch q = true →
      m.collectSamples (c p) fuel (c q) deque =
        some ((samplesIn bs m.epoch p q).map c ++ deque) := by
  intro fuel
  induction fuel with
  | zero =>
    intro q deque hfuel
    omega
  | succ fuel ih =>
    intro q deque hfuel hpq hq hsample
    unfold collectSamples
    by_cases heq : q = p
    · rw [if_pos (congrArg c heq), heq, samplesIn_eq_nil fun j h1 h2 => by omega]
      rfl
    · rw [if_neg fun hcon => heq (h.injective q p hq (by omega) hcon)]
      obtain _ | j := q
      · omega
      obtain ⟨t, ht, hlast⟩ := h.pruningSampleFromPov_spec (show j < n by omega)
      have htj := hlast.le
      have hpt : p ≤ t := hlast.le_of_sample hp (by omega)
      simp only [ht, bind_eq_bind, bind_some]
      rw [ih t _ (by omega) hpt (by omega) hlast.sample, samplesIn_of_last hpt hlast hsample]
      simp

/-- Both computations of the next pruning points, on top of `c k` and from a state that describes
the chain, return the same list. The state that `advance_pruning_point_and_candidate_if_possible`
stores with it describes the chain again. -/
lemma nextPruningPoints_spec (hstep : ∀ i, i < n → bs (i + 1) ≤ bs i + step)
    (hbound : step + m.depth ≤ m.pruningSamplesSteps * m.epoch + 1)
    (hk : k ≤ n) (hb : bs k ≤ b) (hfuel : n + 2 < fuel) (hstate : StateOn m c bs k p y state)
    (hheader : 0 < k → HeaderDeep m c bs k) : ∃ q d, p ≤ q ∧ WalkStart bs m.epoch k q d ∧
      m.nextPruningPointsV1 fuel ⟨b, c k⟩ state.candidate state.pruningPoint =
        some ((samplesIn bs m.epoch p q).map c, c d) ∧
      m.nextPruningPointsV2 fuel ⟨b, c k⟩ state.pruningPoint =
        some ((samplesIn bs m.epoch p q).map c) := by
  obtain ⟨daaScore, hdaa, hP, hF, hactive⟩ := h.params hk
  have hpk : p ≤ k := hstate.start.le.trans hstate.start.le_last
  have hlower := lowerBound_eq_before hactive m.pruningDepth_le
  unfold nextPruningPointsV1 nextPruningPointsV2
  simp only [hdaa, hP, hF, hstate.pruningPoint, hstate.candidate, hlower,
    h.blueScore (show p ≤ n by omega), bind_eq_bind, bind_some]
  rcases h.nextPruningPointsV1Inner_spec hk hb hfuel hstate.start with
    ⟨hnot, hinner⟩ | ⟨hdeep, q, d, hq, hpq, hstart, hinner⟩
  · refine ⟨p, y, le_refl _, hstate.start, ?_, ?_⟩
    · rw [hinner, samplesIn_eq_nil fun j h1 h2 => by omega]
      rfl
    · rw [if_pos hnot, samplesIn_eq_nil fun j h1 h2 => by omega]
      rfl
  · refine ⟨q, d, hpq, hstart, hinner, ?_⟩
    have hqk := hq.le
    obtain ⟨s, q', hv2, hq'⟩ := h.expectedHeaderPruningPointV2_spec hstep hbound hk hb
      (show n < fuel by omega) hheader
    obtain rfl : q = q' := hq.unique hq'
    rw [if_neg (not_lt.mpr hdeep)]
    simp only [hv2, h.blueScore (show q ≤ n by omega), bind_some]
    by_cases hle : bs q ≤ bs p
    · have hqp : q ≤ p := le_of_score_le h.increasing (by omega) hle
      rw [if_pos hle, samplesIn_eq_nil fun j h1 h2 => by omega]
      rfl
    · rw [if_neg hle, h.collectSamples_spec hstate.start.sample fuel q [] (by omega) hpq
        (by omega) hq.sample, append_nil]

end SelectedChain

/-! ## Runs -/

/-- The ghostdag data of the `i`-th block of the chain. -/
def compactData (c : ℕ → Hash) (bs : ℕ → ℕ) (i : ℕ) : CompactGhostdagData :=
  ⟨bs i, if i = 0 then BlockHash.origin else c (i - 1)⟩

/-- The pruning states that a node reaches from genesis while its sink moves up the chain, with
the position of the last sink. -/
inductive Maintained (m : PruningPointManager) (c : ℕ → Hash) (bs : ℕ → ℕ) (fuel : ℕ) :
    ℕ → PruningState → Prop where
  | genesis : Maintained m c bs fuel 0 (.fromGenesis m.genesisHash)
  | advance {i j : ℕ} {state state' : PruningState} : Maintained m c bs fuel i state → i ≤ j →
      m.advancePruningPointAndCandidateIfPossible fuel state (compactData c bs j) = some state' →
      Maintained m c bs fuel j state'

/-- The headers of the chain carry the pruning points that header validation computed, each from
a state that was maintained at the time. -/
def HeadersValidated (m : PruningPointManager) (c : ℕ → Hash) (bs : ℕ → ℕ) (fuel n : ℕ) : Prop :=
  ∀ i, i < n → ∃ header j state, m.stores.header (c (i + 1)) = some header ∧ j ≤ i + 1 ∧
    Maintained m c bs fuel j state ∧
    m.expectedHeaderPruningPointV1 fuel (compactData c bs (i + 1)) state = some header.pruningPoint

namespace SelectedChain

variable {m : PruningPointManager} {c : ℕ → Hash} {bs : ℕ → ℕ} {n fuel step : ℕ}
  (h : SelectedChain m c bs n) (hfuel : n + 2 < fuel)
  (hstep : ∀ i, i < n → bs (i + 1) ≤ bs i + step)
  (hbound : step + m.depth ≤ m.pruningSamplesSteps * m.epoch + 1)
variable {state : PruningState} {k p y : ℕ}

/-- A state that describes the chain up to a block describes it up to later blocks. -/
lemma StateOn.mono {k' : ℕ} (hstate : StateOn m c bs k p y state) (hkk' : k ≤ k') :
    StateOn m c bs k' p y state :=
  { hstate with start := { hstate.start with le_last := hstate.start.le_last.trans hkk' } }

include h in
lemma stateOn_fromGenesis : StateOn m c bs 0 0 0 (.fromGenesis m.genesisHash) := by
  have hone : samplesUpTo bs m.epoch 0 = [0] := rfl
  refine ⟨⟨le_refl _, le_refl _, rfl, rfl⟩, h.genesis.symm, h.genesis.symm, ?_, ?_⟩
  · rw [hone, map_singleton, h.genesis]
    rfl
  · rw [hone]
    rfl

include h hfuel hstep hbound in
/-- `next_pruning_points` on top of `c k` passes its assertion. -/
lemma nextPruningPoints_ok {b : ℕ} (hk : k ≤ n) (hb : bs k ≤ b)
    (hstate : StateOn m c bs k p y state) (hheader : 0 < k → HeaderDeep m c bs k) :
    ∃ q d, p ≤ q ∧ WalkStart bs m.epoch k q d ∧
      m.nextPruningPointsV1 fuel ⟨b, c k⟩ state.candidate state.pruningPoint =
        some ((samplesIn bs m.epoch p q).map c, c d) ∧
      m.nextPruningPointsV2 fuel ⟨b, c k⟩ state.pruningPoint =
        some ((samplesIn bs m.epoch p q).map c) ∧
      m.nextPruningPoints fuel ⟨b, c k⟩ state.candidate state.pruningPoint =
        some ((samplesIn bs m.epoch p q).map c, c d) := by
  obtain ⟨q, d, hpq, hstart, hv1, hv2⟩ :=
    h.nextPruningPoints_spec hstep hbound hk hb hfuel hstate hheader
  refine ⟨q, d, hpq, hstart, hv1, hv2, ?_⟩
  obtain ⟨daaScore, hdaa, -, -, hactive⟩ := h.params hk
  unfold nextPruningPoints
  rw [if_neg (h.not_origin k hk)]
  simp only [hdaa, hactive, hv1, hv2, bind_eq_bind, bind_some,
    Bool.false_eq_true, if_false, if_true, Option.pure_def]

include h hfuel hstep hbound in
/-- One update of the maintained state keeps it in line with the chain. -/
lemma advance_stateOn {b : ℕ} {state' : PruningState} (hk : k ≤ n) (hb : bs k ≤ b)
    (hstate : StateOn m c bs k p y state) (hheader : 0 < k → HeaderDeep m c bs k)
    (hadvance : m.advancePruningPointAndCandidateIfPossible fuel state ⟨b, c k⟩ = some state') :
    ∃ p' y', StateOn m c bs k p' y' state' := by
  obtain ⟨q, d, hpq, hstart, -, -, hnext⟩ :=
    h.nextPruningPoints_ok hfuel hstep hbound hk hb hstate hheader
  refine ⟨q, d, ?_⟩
  have hqk : q ≤ k := hstart.le.trans hstart.le_last
  have hlast : ((samplesIn bs m.epoch p q).map c).getLast?.getD (c p) = c q :=
    getLast_map_samplesIn hstate.start.sample hpq
      ⟨le_refl _, hstart.sample, fun j h1 h2 => by omega⟩
  unfold advancePruningPointAndCandidateIfPossible at hadvance
  rw [hnext] at hadvance
  simp only [bind_eq_bind, bind_some] at hadvance
  cases hget : ((samplesIn bs m.epoch p q).map c).getLast? with
  | none =>
    -- no new pruning point: only the candidate moves
    rw [hget] at hadvance hlast
    obtain rfl : p = q := h.injective p q (by omega) (by omega) hlast
    obtain rfl := some.inj hadvance
    exact ⟨hstart, hstate.pruningPoint, rfl, hstate.past, hstate.index⟩
  | some pp =>
    rw [hget] at hadvance hlast
    obtain rfl := some.inj hadvance
    refine ⟨hstart, hlast, rfl, ?_, ?_⟩
    · rw [samplesUpTo_append hpq, map_append, ← hstate.past]
    · show state.index + ((samplesIn bs m.finalityDepth.before p q).map c).length + 1 = _
      rw [samplesUpTo_append hpq, length_append, ← hstate.index, length_map]
      omega

include h hfuel hstep hbound in
/-- Every maintained state describes the chain below its last sink. -/
lemma maintained_stateOn {j : ℕ} (hstate : Maintained m c bs fuel j state) :
    j ≤ n → (∀ k, 0 < k → k < j → HeaderDeep m c bs k) →
      ∃ p y, StateOn m c bs (j - 1) p y state := by
  induction hstate with
  | genesis =>
    intro _ _
    exact ⟨0, 0, h.stateOn_fromGenesis⟩
  | @advance i j state state' _ hij hadvance ih =>
    intro hj hheader
    obtain ⟨p, y, hstate⟩ := ih (by omega) fun k h1 h2 => hheader k h1 (by omega)
    have hstate' := hstate.mono (show i - 1 ≤ j - 1 by omega)
    rcases Nat.eq_zero_or_pos j with rfl | hj0
    · -- the sink is genesis, and nothing moves
      refine ⟨p, y, ?_⟩
      simp only [advancePruningPointAndCandidateIfPossible, compactData,
        nextPruningPoints, if_true, bind_eq_bind, bind_some,
        List.getLast?_nil, Option.pure_def, Option.some.injEq] at hadvance
      rw [← hadvance]
      exact hstate'
    · have hdata : compactData c bs j = ⟨bs j, c (j - 1)⟩ := by
        unfold compactData
        rw [if_neg (by omega)]
      rw [hdata] at hadvance
      exact h.advance_stateOn hfuel hstep hbound (show j - 1 ≤ n by omega)
        (score_le h.increasing (sub_le j 1) hj) hstate'
        (fun hpos => hheader (j - 1) hpos (by omega)) hadvance

include h hfuel hstep hbound in
/-- The pruning points in the headers are the most recent deep samples. -/
lemma headers_deep (hheaders : HeadersValidated m c bs fuel n) :
    ∀ k, 0 < k → k ≤ n → HeaderDeep m c bs k := by
  intro k
  induction k using Nat.strong_induction_on with
  | _ k ih =>
    intro hk0 hk
    obtain _ | i := k
    · omega
    obtain ⟨header, j, state, hget, hj, hmaintained, hv1⟩ := hheaders i (by omega)
    obtain ⟨p, y, hstate⟩ := h.maintained_stateOn hfuel hstep hbound hmaintained (by omega)
      fun k' h1 h2 => ih k' (by omega) h1 (by omega)
    obtain ⟨q, hq, hdeep⟩ := h.expectedHeaderPruningPointV1_spec (show i ≤ n by omega)
      (score_le h.increasing (le_succ i) hk) hfuel
      (hstate.mono (show j - 1 ≤ i by omega)) fun hi => ih i (by omega) hi (by omega)
    refine ⟨header, q, hget, ?_, hdeep⟩
    exact some.inj (hv1.symm.trans hq)

end SelectedChain

/-- Before the Crescendo activation, on every selected chain from genesis whose blue score grows
by at least one and at most `step ≤ ⌈P/F⌉·F - P + 1` from block to block and whose headers carry
the validated pruning points, v1 and v2 agree for every block on top of a block of the chain:
both return the same pruning point, from whatever state the node maintained, and the same list of
next pruning points, so that the assertion of `next_pruning_points` passes. -/
theorem expectedHeaderPruningPoint_v1_eq_v2 {m : PruningPointManager} {c : ℕ → Hash}
    {bs : ℕ → ℕ} {n fuel step : ℕ} (h : SelectedChain m c bs n) (hfuel : n + 2 < fuel)
    (hstep : ∀ i, i < n → bs (i + 1) ≤ bs i + step) (hbound : step + m.pruningDepth.before ≤
      m.pruningSamplesSteps * m.finalityDepth.before + 1)
    (hheaders : HeadersValidated m c bs fuel n) {k b j : ℕ} {state : PruningState}
    (hk : k ≤ n) (hb : bs k < b) (hj : j ≤ k + 1) (hjn : j ≤ n)
    (hstate : Maintained m c bs fuel j state) :
    (∃ sample pp, m.expectedHeaderPruningPointV2 fuel ⟨b, c k⟩ = some ⟨sample, pp⟩ ∧
      m.expectedHeaderPruningPointV1 fuel ⟨b, c k⟩ state = some pp) ∧
    (∃ pps candidate,
      m.nextPruningPointsV1 fuel ⟨b, c k⟩ state.candidate state.pruningPoint =
        some (pps, candidate) ∧
      m.nextPruningPointsV2 fuel ⟨b, c k⟩ state.pruningPoint = some pps ∧
      m.nextPruningPoints fuel ⟨b, c k⟩ state.candidate state.pruningPoint =
        some (pps, candidate)) := by
  have hdeep := h.headers_deep hfuel hstep hbound hheaders
  obtain ⟨p, y, hon⟩ := h.maintained_stateOn hfuel hstep hbound hstate hjn
    fun k' h1 h2 => hdeep k' h1 (by omega)
  have hon' := hon.mono (show j - 1 ≤ k by omega)
  have hheader : 0 < k → SelectedChain.HeaderDeep m c bs k := fun hk0 => hdeep k hk0 hk
  constructor
  · obtain ⟨s, q, hv2, hq⟩ := h.expectedHeaderPruningPointV2_spec hstep hbound hk hb.le
      (show n < fuel by omega) hheader
    obtain ⟨q', hv1, hq'⟩ := h.expectedHeaderPruningPointV1_spec hk hb.le hfuel hon' hheader
    obtain rfl : q = q' := hq.unique hq'
    exact ⟨c s, c q, hv2, hv1⟩
  · obtain ⟨q, d, -, -, hv1, hv2, hnext⟩ :=
      h.nextPruningPoints_ok hfuel hstep hbound hk hb.le hon' hheader
    exact ⟨_, _, hv1, hv2, hnext⟩

/-! ## A chain in the stores -/

/-- Stores that hold one chain, whose `i`-th block has the hash `i + 1`. -/
def chainStores (scores pruningPoints samples : List ℕ) : Stores where
  header hash := do
    let score ← scores[hash - 1]?
    let pruningPoint ← pruningPoints[hash - 1]?
    return ⟨hash, score, pruningPoint⟩
  ghostdagBlueScore hash := scores[hash - 1]?
  pruningSampleFromPov hash := samples[hash - 1]?
  isChainAncestorOf a b := some (decide (a ≤ b))
  isDagAncestorOfResult a b := some (decide (a ≤ b))
  getNextChainAncestor _ a := some (a + 1)

/-- A manager with `P = 15` and `F = 10` over such stores. -/
def chainManager (scores pruningPoints samples : List ℕ) : PruningPointManager where
  pruningDepth := .newConst 15
  finalityDepth := .newConst 10
  genesisHash := 1
  stores := chainStores scores pruningPoints samples
  finalityDepth_pos := by decide
  finalityDepth_le := by decide
  finalityDepth_mod := by decide
  pruningDepth_le := by decide
  samplesSteps_eq := rfl

/-- A chain of nine blocks, whose blue score grows by five. -/
def steadyChain : PruningPointManager :=
  chainManager [0, 5, 10, 15, 20, 25, 30, 35, 40] [1, 1, 1, 1, 1, 3, 3, 5, 5]
    [1, 1, 1, 3, 3, 5, 5, 7, 7]

/-- The stores of such a chain, with the samples that v2 computed, hold a selected chain. -/
lemma selectedChain_chainManager {scores pruningPoints samples : List ℕ} {n : ℕ}
    (hscores : scores.length = n + 1) (hpps : pruningPoints.length = n + 1) (hn : n < 1000)
    (hincreasing : ∀ i, i < n → scores.getD i 0 < scores.getD (i + 1) 0)
    (hsamples : ∀ i, i < n → (chainStores scores pruningPoints samples).pruningSampleFromPov
      (i + 2) = (chainManager scores pruningPoints samples).pruningSample
        ⟨scores.getD (i + 1) 0, i + 1⟩ 10) :
    SelectedChain (chainManager scores pruningPoints samples) (· + 1)
      (fun i => scores.getD i 0) n where
  genesis := rfl
  not_origin i hi := by
    have horigin : (1001 : ℕ) < BlockHash.origin := by decide
    show i + 1 ≠ BlockHash.origin
    omega
  injective i j _ _ heq := Nat.succ_injective heq
  increasing := hincreasing
  header i hi := by
    have h1 : scores[i]? = some (scores.getD i 0) := by
      rw [getD_eq_getElem?_getD, List.getElem?_eq_getElem (by omega), getD_some]
    have h2 : pruningPoints[i]? = some (pruningPoints.getD i 0) := by
      rw [getD_eq_getElem?_getD, List.getElem?_eq_getElem (by omega), getD_some]
    have hactive : ForkActivation.never.isActive (i + 1) = false := by
      have hmax : 2000 < u64Max := by decide
      exact decide_eq_false (show ¬u64Max ≤ i + 1 by omega)
    refine ⟨⟨i + 1, scores.getD i 0, pruningPoints.getD i 0⟩, ?_, rfl, hactive, hactive⟩
    simp only [chainManager, chainStores, Nat.add_sub_cancel, h1, h2, bind_eq_bind,
      Option.bind_some, Option.pure_def]
  ghostdag i hi := by
    simp only [chainManager, chainStores, Nat.add_sub_cancel]
    rw [getD_eq_getElem?_getD, List.getElem?_eq_getElem (by omega), getD_some]
  chainAncestor i j _ _ := by simp [chainManager, chainStores]
  dagAncestor i j _ _ := by simp [chainManager, chainStores]
  nextChainAncestor i j _ _ := rfl
  samples := hsamples

/-- The nine blocks of the steady chain, from the state after the last of them became the sink:
the pruning point of the next block is the seventh block. -/
theorem steadyChain_v1_eq_v2 : let state : PruningState := ⟨5, 6, 2, [1, 3, 5]⟩
    (∃ sample pp, steadyChain.expectedHeaderPruningPointV2 20 ⟨45, 9⟩ = some ⟨sample, pp⟩ ∧
      steadyChain.expectedHeaderPruningPointV1 20 ⟨45, 9⟩ state = some pp) ∧
    (∃ pps candidate,
      steadyChain.nextPruningPointsV1 20 ⟨45, 9⟩ state.candidate state.pruningPoint =
        some (pps, candidate) ∧
      steadyChain.nextPruningPointsV2 20 ⟨45, 9⟩ state.pruningPoint = some pps ∧
      steadyChain.nextPruningPoints 20 ⟨45, 9⟩ state.candidate state.pruningPoint =
        some (pps, candidate)) := by
  intro state
  have hchain : SelectedChain steadyChain (· + 1)
      (fun i => [0, 5, 10, 15, 20, 25, 30, 35, 40].getD i 0) 8 :=
    selectedChain_chainManager rfl rfl (by decide) (by decide) (by decide)
  have hstate : Maintained steadyChain (· + 1)
      (fun i => [0, 5, 10, 15, 20, 25, 30, 35, 40].getD i 0) 20 8 state :=
    .advance .genesis (zero_le 8) (by decide)
  have hheaders : HeadersValidated steadyChain (· + 1)
      (fun i => [0, 5, 10, 15, 20, 25, 30, 35, 40].getD i 0) 20 8 := by
    intro i hi
    interval_cases i <;> exact ⟨_, 0, _, rfl, zero_le _, .genesis, by decide⟩
  have hstep : ∀ i, i < 8 → [0, 5, 10, 15, 20, 25, 30, 35, 40].getD (i + 1) 0 ≤
      [0, 5, 10, 15, 20, 25, 30, 35, 40].getD i 0 + 5 := by decide
  exact expectedHeaderPruningPoint_v1_eq_v2 hchain (by decide) hstep (by decide) hheaders
    (le_refl 8) (by decide) (le_succ 8) (le_refl 8) hstate

/-- A chain of four blocks with a large step of the blue score. -/
def jumpingChain : PruningPointManager :=
  chainManager [0, 19, 20, 30] [1, 1, 1, 1] [1, 1, 2, 3]

/-- Strictly increasing blue scores are not enough. On the jumping chain, with `P = 15` not a
multiple of `F = 10`, the last block is a sample, and v2 stops after `⌈15/10⌉ = 2` hops at the
second block, which is not deep enough; v1 returns genesis, from the state of a node that starts
there. -/
theorem jumpingChain_v1_ne_v2 :
    SelectedChain jumpingChain (· + 1) (fun i => [0, 19, 20, 30].getD i 0) 3 ∧
    HeadersValidated jumpingChain (· + 1) (fun i => [0, 19, 20, 30].getD i 0) 20 3 ∧
    Maintained jumpingChain (· + 1) (fun i => [0, 19, 20, 30].getD i 0) 20 0
      (.fromGenesis 1) ∧
    ¬10 ∣ 15 ∧ jumpingChain.expectedHeaderPruningPointV1 20 ⟨30, 3⟩ (.fromGenesis 1) = some 1 ∧
    jumpingChain.expectedHeaderPruningPointV2 20 ⟨30, 3⟩ = some ⟨3, 2⟩ ∧
    jumpingChain.nextPruningPointsV1 20 ⟨30, 3⟩ 1 1 = some ([], 1) ∧
    jumpingChain.nextPruningPointsV2 20 ⟨30, 3⟩ 1 = some [2] := by
  refine ⟨selectedChain_chainManager rfl rfl (by decide) (by decide) (by decide), ?_, .genesis,
    by decide, by decide, by decide, by decide, by decide⟩
  intro i hi
  interval_cases i <;> exact ⟨_, 0, _, rfl, zero_le _, .genesis, by decide⟩

end LapisMonetae.Pruning
