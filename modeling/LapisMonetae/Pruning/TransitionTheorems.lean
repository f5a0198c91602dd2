import LapisMonetae.Pruning.ManagerTheorems
import Mathlib.Logic.Relation

/-!
# The pruning point through the fork

On a selected chain the finality and pruning depths increase at the Crescendo activation. Whatever
the depths do, `expected_header_pruning_point_v2` walks down the samples recorded for the blocks
of the chain, and the pruning point of the selected parent is one of them; so the pruning point
never moves back. That a recorded sample begins an epoch for its own depth rests on the new
finality depth being a multiple of the old one: blocks of one epoch stay in one epoch.
-/

namespace LapisMonetae.Pruning

open PruningPointManager Relation Option Nat

/-! ## Epochs of two depths -/

/-- Scores in one epoch are in one epoch of every multiple of the depth. -/
lemma div_eq_of_dvd {x y d d' : ℕ} (h : x / d = y / d) (hdvd : d ∣ d') : x / d' = y / d' := by
  obtain ⟨k, rfl⟩ := hdvd
  rw [← Nat.div_div_eq_div_mul, ← Nat.div_div_eq_div_mul, h]

/-- Scores in two epochs of a multiple of the depth are in two epochs of the depth. -/
lemma div_lt_of_dvd {x y d d' : ℕ} (h : x / d' < y / d') (hdvd : d ∣ d') : x / d < y / d := by
  obtain ⟨k, rfl⟩ := hdvd
  rw [← Nat.div_div_eq_div_mul, ← Nat.div_div_eq_div_mul] at h
  by_contra hge
  have hle : y / d / k ≤ x / d / k := Nat.div_le_div_right (Nat.le_of_not_lt hge)
  omega

/-- The finality depth in force only changes to a multiple of itself. -/
lemma finalityDepth_dvd (m : PruningPointManager) {daa daa' : ℕ} (hle : daa ≤ daa')
    (hmax : daa' < u64Max) : m.finalityDepth.get daa ∣ m.finalityDepth.get daa' := by
  have hmod := dvd_of_mod_eq_zero m.finalityDepth_mod
  have hnever : m.finalityDepth.activation = .never →
      m.finalityDepth.activation.isActive daa' = false := by
    intro h
    rw [h]
    exact decide_eq_false (show ¬u64Max ≤ daa' by omega)
  have hmono : m.finalityDepth.activation.isActive daa = true →
      m.finalityDepth.activation.isActive daa' = true := by
    simp only [ForkActivation.isActive, decide_eq_true_eq]
    omega
  unfold ForkedParam.get
  by_cases ha : m.finalityDepth.activation.isActive daa = true
  · rw [if_pos ha, if_pos (hmono ha)]
  · rw [if_neg ha]
    by_cases hb : m.finalityDepth.activation.isActive daa' = true
    · -- the fork happens between the two scores, so it is neither `never` nor `always`
      have hne : m.finalityDepth.activation ≠ .never := by
        intro h
        rw [hnever h] at hb
        exact Bool.false_ne_true hb
      have halways : m.finalityDepth.activation ≠ .always := by
        intro h
        rw [h] at ha
        exact ha (decide_eq_true (zero_le _))
      rw [if_pos hb]
      rwa [ForkedParam.before, ForkedParam.after, if_neg hne, if_neg halways] at hmod
    · rw [if_neg hb]

/-! ## A chain with the data this code stores for it -/

/-- The stores hold the selected chain `c 0, …, c n` with blue scores `bs` and DAA scores `daa`;
for each block after genesis, the samples store and the header hold what
`expected_header_pruning_point_v2` returned for it. -/
structure RecordedChain (m : PruningPointManager) (c : ℕ → Hash) (bs daa : ℕ → ℕ) (n : ℕ) :
    Prop where
  genesis : c 0 = m.genesisHash
  injective : ∀ i j, i ≤ n → j ≤ n → c i = c j → i = j
  increasing : ∀ i, i < n → bs i < bs (i + 1)
  daa_le : ∀ i, i < n → daa i ≤ daa (i + 1)
  daa_lt : ∀ i, i ≤ n → daa i < u64Max
  header : ∀ i, i ≤ n → ∃ header, m.stores.header (c i) = some header ∧
    header.blueScore = bs i ∧ header.daaScore = daa i
  recorded : ∀ i, i < n → ∃ fuel reply header,
    m.expectedHeaderPruningPointV2 fuel ⟨bs (i + 1), c i⟩ = some reply ∧
    m.stores.pruningSampleFromPov (c (i + 1)) = some reply.pruningSample ∧
    m.stores.header (c (i + 1)) = some header ∧ header.pruningPoint = reply.pruningPoint

/-- Block `p` of the chain is genesis, or a pruning sample by the finality depth in force for it. -/
def SampleAt (m : PruningPointManager) (bs daa : ℕ → ℕ) (p : ℕ) : Prop :=
  ∀ j, p = j + 1 → isPruningSample (bs p) (bs j) (m.finalityDepth.get (daa j)) = true

namespace RecordedChain

variable {m : PruningPointManager} {c : ℕ → Hash} {bs daa : ℕ → ℕ} {n : ℕ}
  (h : RecordedChain m c bs daa n) {i : ℕ} {header : Header}

include h

lemma blueScore (hi : i ≤ n) : m.stores.blueScore (c i) = some (bs i) := by
  obtain ⟨header, hheader, hbs, -⟩ := h.header i hi
  rw [Stores.blueScore, hheader, map_some, hbs]

lemma daaScore (hi : i ≤ n) : m.stores.daaScore (c i) = some (daa i) := by
  obtain ⟨header, hheader, -, hdaa⟩ := h.header i hi
  rw [Stores.daaScore, hheader, map_some, hdaa]

lemma eq_genesis_iff (hi : i ≤ n) : c i = m.genesisHash ↔ i = 0 := by
  rw [← h.genesis]
  constructor
  · exact h.injective i 0 hi (zero_le _)
  · rintro rfl
    rfl

/-- The computation on top of `c i`: the sample, and the walk down from it. -/
lemma expectedHeaderPruningPointV2_eq_some {i b fuel : ℕ} {reply : PruningPointReply} (hi : i ≤ n)
    (hheader : m.stores.header (c i) = some header) :
    m.expectedHeaderPruningPointV2 fuel ⟨b, c i⟩ = some reply ↔
      m.pruningSample ⟨b, c i⟩ (m.finalityDepth.get (daa i)) = some reply.pruningSample ∧
      m.findPruningPointV2 b (m.pruningDepth.get (daa i))
        (isPruningSample b (bs i) (m.finalityDepth.get (daa i))) header.pruningPoint fuel 1
        reply.pruningSample = some reply.pruningPoint := by
  unfold expectedHeaderPruningPointV2
  simp only [h.daaScore hi, h.blueScore hi, hheader, bind_eq_bind, bind_some,
    bind_eq_some_iff, pure_def, some.injEq]
  constructor
  · rintro ⟨sample, hsample, pp, hpp, rfl⟩
    exact ⟨hsample, hpp⟩
  · rintro ⟨hsample, hpp⟩
    exact ⟨_, hsample, _, hpp, rfl⟩

/-! ## Samples -/

/-- The sample on top of `c i` is `c i` or the one recorded for `c i`; it begins the epoch that
`c i` is in. -/
lemma pruningSample_spec : ∀ i, i ≤ n → ∃ s,
    (∀ b, m.pruningSample ⟨b, c i⟩ (m.finalityDepth.get (daa i)) = some (c s)) ∧ s ≤ i ∧
    (s = i ∨ m.stores.pruningSampleFromPov (c i) = some (c s)) ∧ SampleAt m bs daa s ∧
    bs s / m.finalityDepth.get (daa i) = bs i / m.finalityDepth.get (daa i) := by
  intro i
  induction i with
  | zero =>
    intro hi
    refine ⟨0, fun b => ?_, le_refl _, Or.inl rfl, fun j hj => by omega, rfl⟩
    have hgenesis : m.stores.blueScore m.genesisHash = some (bs 0) :=
      h.genesis ▸ h.blueScore hi
    unfold PruningPointManager.pruningSample
    simp only [h.genesis, hgenesis, bind_eq_bind, bind_some, if_true]
    rfl
  | succ i ih =>
    intro hi
    obtain ⟨s, hs, hsi, -, hsample, hepoch⟩ := ih (by omega)
    obtain ⟨header, hheader, -⟩ := h.header i (by omega)
    obtain ⟨fuel, reply, -, hreply, hstored, -⟩ := h.recorded i (by omega)
    have hstored' : m.stores.pruningSampleFromPov (c (i + 1)) = some (c s) := by
      rw [hstored, ← ((h.expectedHeaderPruningPointV2_eq_some (by omega) hheader).mp hreply).1, hs]
    have hne : c (i + 1) ≠ m.genesisHash := by
      rw [Ne, h.eq_genesis_iff hi]
      omega
    -- the depth for the next block is a multiple of the one for `c (i + 1)`
    have hdvd := finalityDepth_dvd m (h.daa_le i (by omega)) (h.daa_lt (i + 1) hi)
    have hepoch' := div_eq_of_dvd hepoch hdvd
    by_cases hnew : bs s / m.finalityDepth.get (daa (i + 1)) <
        bs (i + 1) / m.finalityDepth.get (daa (i + 1))
    · refine ⟨i + 1, fun b => ?_, le_refl _, Or.inl rfl, fun j hj => ?_, rfl⟩
      · unfold PruningPointManager.pruningSample
        simp [h.blueScore hi, hne, hstored', h.blueScore (show s ≤ n by omega), isPruningSample,
          finalityScore, hnew]
      · obtain rfl : i = j := by omega
        rw [hepoch'] at hnew
        exact decide_eq_true (div_lt_of_dvd hnew hdvd)
    · have hle := Nat.div_le_div_right (c := m.finalityDepth.get (daa (i + 1)))
        (h.increasing i (by omega)).le
      refine ⟨s, fun b => ?_, by omega, Or.inr hstored', hsample, by omega⟩
      unfold PruningPointManager.pruningSample
      simp [h.blueScore hi, hne, hstored', h.blueScore (show s ≤ n by omega), isPruningSample,
        finalityScore, hnew]

/-- The samples store leads from a block to an earlier sample. -/
lemma pruningSampleFromPov_spec (hi : i < n) : ∃ s,
    m.stores.pruningSampleFromPov (c (i + 1)) = some (c s) ∧ s ≤ i ∧ SampleAt m bs daa s := by
  obtain ⟨s, hs, hsi, -, hsample, -⟩ := h.pruningSample_spec i (by omega)
  obtain ⟨header, hheader, -⟩ := h.header i (by omega)
  obtain ⟨fuel, reply, -, hreply, hstored, -⟩ := h.recorded i (by omega)
  refine ⟨s, ?_, hsi, hsample⟩
  rw [hstored, ← ((h.expectedHeaderPruningPointV2_eq_some (by omega) hheader).mp hreply).1, hs]

/-! ## The walk over the samples -/

omit h in
/-- The sample recorded for block `k` of the chain is the earlier block `k'`. -/
def RecordedSample (m : PruningPointManager) (c : ℕ → Hash) (k k' : ℕ) : Prop :=
  m.stores.pruningSampleFromPov (c k) = some (c k') ∧ k' < k

omit h in
lemma le_of_walk {s q : ℕ} (hw : ReflTransGen (RecordedSample m c) s q) : q ≤ s := by
  induction hw with
  | refl => exact le_refl _
  | tail _ hstep ih => exact hstep.2.le.trans ih

/-- From a sample that is not the given pruning point, a walk that leads there goes on to the
recorded sample. -/
lemma walk_next {s t q : ℕ} (hs : s ≤ n) (ht : RecordedSample m c s t) (hne : s ≠ q)
    (hw : ReflTransGen (RecordedSample m c) s q) : ReflTransGen (RecordedSample m c) t q := by
  rcases ReflTransGen.cases_head hw with heq | ⟨u, hu, hrest⟩
  · exact absurd heq hne
  · have hut : c u = c t := some_inj.mp (hu.1.symm.trans ht.1)
    have hlt := hu.2
    have hlt' := ht.2
    rwa [← h.injective u t (by omega) (by omega) hut]

/-- The loop stops, at a sample; it does not walk past the pruning point of the selected parent. -/
lemma findPruningPointV2_spec (b pruningDepth : ℕ) (isSelf : Bool) (spPp : Hash) :
    ∀ s, s ≤ n → SampleAt m bs daa s → ∀ steps, ∃ p,
      (∀ fuel, s < fuel →
        m.findPruningPointV2 b pruningDepth isSelf spPp fuel steps (c s) = some (c p)) ∧
      ReflTransGen (RecordedSample m c) s p ∧ SampleAt m bs daa p ∧
      ∀ q, q ≤ n → c q = spPp → ReflTransGen (RecordedSample m c) s q →
        ReflTransGen (RecordedSample m c) p q := by
  intro s
  induction s using Nat.strongRecOn with
  | ind s ih =>
    intro hs hsample steps
    by_cases hstop : c s = m.genesisHash ∨ bs s + pruningDepth ≤ b ∨
        (isSelf && steps == m.pruningSamplesSteps) = true ∨ c s = spPp
    · refine ⟨s, fun fuel hfuel => ?_, .refl, hsample, fun q _ _ hw => hw⟩
      obtain _ | fuel := fuel
      · omega
      unfold findPruningPointV2
      simp only [h.blueScore hs, bind_eq_bind, bind_some, pure_def]
      split_ifs with h1 h2 h3 h4
      · rfl
      · rfl
      · rfl
      · rfl
      · exact absurd hstop (by simp [h1, h2, h3, h4])
    · simp only [not_or] at hstop
      obtain ⟨hgenesis, hdeep, hclamp, hpp⟩ := hstop
      have hpos : s ≠ 0 := fun h0 => hgenesis ((h.eq_genesis_iff hs).mpr h0)
      obtain _ | i := s
      · omega
      obtain ⟨t, ht, hti, htsample⟩ := h.pruningSampleFromPov_spec (show i < n by omega)
      have hrec : RecordedSample m c (i + 1) t := ⟨ht, by omega⟩
      obtain ⟨p, hp, hwalk, hpsample, hclosed⟩ :=
        ih t (by omega) (by omega) htsample (steps + 1)
      refine ⟨p, fun fuel hfuel => ?_, hwalk.head hrec, hpsample, fun q hq heq hw => ?_⟩
      · obtain _ | fuel := fuel
        · omega
        unfold findPruningPointV2
        simp only [h.blueScore hs, ht, bind_eq_bind, bind_some, if_neg hgenesis,
          if_neg hdeep, if_neg hclamp, if_neg hpp]
        exact hp fuel (by omega)
      · have hne : i + 1 ≠ q := by
          rintro rfl
          exact hpp heq
        exact hclosed q hq heq (h.walk_next hs hrec hne hw)

lemma walk_of_findPruningPointV2 {b pruningDepth : ℕ} {isSelf : Bool} {spPp pp : Hash} :
    ∀ fuel steps s, s ≤ n →
      m.findPruningPointV2 b pruningDepth isSelf spPp fuel steps (c s) = some pp →
      ∃ q, pp = c q ∧ ReflTransGen (RecordedSample m c) s q := by
  intro fuel
  induction fuel with
  | zero =>
    intro steps s hs hfind
    simp [findPruningPointV2] at hfind
  | succ fuel ih =>
    intro steps s hs hfind
    unfold findPruningPointV2 at hfind
    simp only [h.blueScore hs, bind_eq_bind, bind_some, pure_def] at hfind
    split_ifs at hfind with h1 h2 h3 h4
    · exact ⟨s, (some_inj.mp hfind).symm, .refl⟩
    · exact ⟨s, (some_inj.mp hfind).symm, .refl⟩
    · exact ⟨s, (some_inj.mp hfind).symm, .refl⟩
    · exact ⟨s, (some_inj.mp hfind).symm, .refl⟩
    · have hpos : s ≠ 0 := fun h0 => h1 ((h.eq_genesis_iff hs).mpr h0)
      obtain _ | i := s
      · omega
      obtain ⟨t, ht, hti, -⟩ := h.pruningSampleFromPov_spec (show i < n by omega)
      rw [ht, bind_some] at hfind
      obtain ⟨q, hq, hw⟩ := ih (steps + 1) t (by omega) hfind
      exact ⟨q, hq, hw.head ⟨ht, by omega⟩⟩

/-- The pruning point in the header of a block after genesis is on the walk from the sample
recorded for the block. -/
lemma header_pruningPoint (hi : i < n) (hheader : m.stores.header (c (i + 1)) = some header) :
    ∃ s q, RecordedSample m c (i + 1) s ∧ header.pruningPoint = c q ∧
      ReflTransGen (RecordedSample m c) s q := by
  obtain ⟨fuel, reply, header', hreply, hstored, hheader', hpp⟩ := h.recorded i hi
  obtain rfl : header' = header := some_inj.mp (hheader'.symm.trans hheader)
  obtain ⟨spHeader, hsp, -⟩ := h.header i (by omega)
  obtain ⟨hs, hfind⟩ := (h.expectedHeaderPruningPointV2_eq_some (by omega) hsp).mp hreply
  obtain ⟨s, hs', hsi, -⟩ := h.pruningSample_spec i (by omega)
  have hcs : reply.pruningSample = c s := some_inj.mp (hs.symm.trans (hs' _))
  rw [hcs] at hfind hstored
  obtain ⟨q, hq, hw⟩ := h.walk_of_findPruningPointV2 fuel 1 s (by omega) hfind
  exact ⟨s, q, ⟨hstored, by omega⟩, hpp.trans hq, hw⟩

/-- On top of any block of the chain, `expected_header_pruning_point_v2` returns: its sample and
its pruning point are blocks of the chain, each genesis or a pruning sample, and the pruning point
is that of the selected parent or a block above it. -/
theorem expectedHeaderPruningPointV2_monotone {i : ℕ} (hi : i ≤ n) (b : ℕ) : ∃ s p,
    (∀ fuel, i < fuel → m.expectedHeaderPruningPointV2 fuel ⟨b, c i⟩ = some ⟨c s, c p⟩) ∧
    p ≤ s ∧ s ≤ i ∧ SampleAt m bs daa s ∧ SampleAt m bs daa p ∧
    (0 < i → ∀ header, m.stores.header (c i) = some header →
      ∃ q, q ≤ p ∧ header.pruningPoint = c q) := by
  obtain ⟨s, hs, hsi, hcase, hsample, -⟩ := h.pruningSample_spec i hi
  obtain ⟨header, hheader, -⟩ := h.header i hi
  obtain ⟨p, hp, hwalk, hpsample, hclosed⟩ := h.findPruningPointV2_spec b
    (m.pruningDepth.get (daa i)) (isPruningSample b (bs i) (m.finalityDepth.get (daa i)))
    header.pruningPoint s (by omega) hsample 1
  refine ⟨s, p, fun fuel hfuel => ?_, le_of_walk hwalk, hsi, hsample, hpsample, ?_⟩
  · rw [h.expectedHeaderPruningPointV2_eq_some hi hheader]
    exact ⟨hs b, hp fuel (by omega)⟩
  · intro hpos header' hheader'
    obtain rfl : header = header' := some_inj.mp (hheader.symm.trans hheader')
    obtain _ | j := i
    · omega
    obtain ⟨t, q, ht, hq, hw⟩ := h.header_pruningPoint (show j < n by omega) hheader
    have hle := le_of_walk hw
    have hlt := ht.2
    -- the walk starts at the selected parent or at the sample recorded for it
    have hstart : ReflTransGen (RecordedSample m c) s q := by
      rcases hcase with rfl | hstored
      · exact hw.head ht
      · have hst : c s = c t := some_inj.mp (hstored.symm.trans ht.1)
        rwa [h.injective s t (by omega) (by omega) hst]
    exact ⟨q, le_of_walk (hclosed q (by omega) hq.symm hstart), hq⟩

end RecordedChain

/-! ## A chain that crosses the activation -/

/-- A chain of twelve blocks whose blue score grows by five; the depths double for the blocks on
top of the fifth one. -/
def crossingChain : PruningPointManager where
  pruningDepth := ⟨15, 30, ⟨5⟩⟩
  finalityDepth := ⟨10, 20, ⟨5⟩⟩
  genesisHash := 1
  stores := chainStores [0, 5, 10, 15, 20, 25, 30, 35, 40, 45, 50, 55]
    [0, 1, 1, 1, 1, 1, 1, 1, 3, 3, 5, 5] [1, 1, 1, 3, 3, 5, 5, 5, 5, 9, 9, 9]
  finalityDepth_pos := by decide
  finalityDepth_le := by decide
  finalityDepth_mod := by decide
  pruningDepth_le := by decide
  samplesSteps_eq := rfl

/-- The ninth block is a sample that the clamp stops above genesis, at the third block; the
eleventh block has reached the new pruning depth. -/
theorem crossingChain_monotone : RecordedChain crossingChain (· + 1) (5 * ·) (· + 1) 11 ∧
    crossingChain.expectedHeaderPruningPointV2 12 ⟨60, 12⟩ = some ⟨9, 5⟩ ∧
    ∃ q : ℕ, q ≤ 4 ∧ some (q + 1) = (crossingChain.stores.header 12).map Header.pruningPoint := by
  have hchain : RecordedChain crossingChain (· + 1) (5 * ·) (· + 1) 11 := by
    refine ⟨rfl, fun i j _ _ heq => succ_injective heq, fun i _ => by omega,
      fun i _ => by omega, fun i hi => ?_, fun i hi => ?_, fun i hi => ?_⟩
    · have hmax : 100 < u64Max := by decide
      omega
    · interval_cases i <;> exact ⟨_, rfl, rfl, rfl⟩
    · interval_cases i <;> exact ⟨20, _, _, rfl, rfl, rfl, rfl⟩
  refine ⟨hchain, by decide, ?_⟩
  obtain ⟨s, p, hreply, -, -, -, -, hmono⟩ :=
    hchain.expectedHeaderPruningPointV2_monotone (le_refl 11) 60
  have heval : crossingChain.expectedHeaderPruningPointV2 12 ⟨60, 12⟩ = some ⟨9, 5⟩ := by decide
  have hp : (⟨s + 1, p + 1⟩ : PruningPointReply) = ⟨9, 5⟩ :=
    some_inj.mp ((hreply 12 (by decide)).symm.trans heval)
  obtain ⟨q, hq, hheader⟩ := hmono (by decide) ⟨12, 55, 5⟩ rfl
  have hp' : p + 1 = 5 := congrArg PruningPointReply.pruningPoint hp
  exact ⟨q, by omega, congrArg some hheader.symm⟩

end LapisMonetae.Pruning
