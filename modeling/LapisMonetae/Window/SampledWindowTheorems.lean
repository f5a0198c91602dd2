import LapisMonetae.Window.SampleTheorems

/-!
# Sampled windows do not depend on the caches

The sampled window of a block holds the greatest samples of the mergesets on its activated chain.
The three ways to build it (from the window of the selected parent, by merging the window of a
chain ancestor, and by the walk alone) offer the same samples to the bounded heap, so the caches
never change the window.
-/

namespace LapisMonetae.Window

open Ghostdag Dag Top Classical Finset GhostdagManager Option FullWindowManager SampledWindowManager

namespace SampledWindowManager

/-! ## The window manager -/

/-- The cached sampled windows of a type are right: each holds the greatest samples of the block it
belongs to. -/
def CachesCorrect (w : SampledWindowManager) (blocks : Finset Hash) (kind : WindowType) :
    Prop :=
  ∀ hash ∈ blocks, hash ≠ w.ghostdagStore.genesisHash → ∀ data,
    w.ghostdagStore.getData hash = some data → ∀ window, w.cacheGet kind hash = some window →
      HoldsTop w.ghostdagStore (w.windowSize kind)
        (w.windowSamples blocks (w.sampleRate kind) data) window

/-- More fuel never changes the result of the walk. -/
lemma walkChain_stable {w : SampledWindowManager} {kind : WindowType} :
    ∀ fuel fuel', fuel ≤ fuel' → ∀ heap d,
      Fuel.Below (w.walkChain kind fuel heap d) (w.walkChain kind fuel' heap d) := by
  refine Fuel.rounds (fun _ _ _ => Fuel.Below.none _) fun fuel fuel' ih heap d => ?_
  refine Fuel.Below.orElse (Fuel.Below.orElse ?_)
  refine Fuel.Below.after fun activated => Fuel.Below.orElse ?_
  refine Fuel.Below.after fun parentData => ?_
  refine Fuel.Below.after fun fits => Fuel.Below.orElse ?_
  refine Fuel.Below.after fun items => ?_
  cases w.cacheGet kind d.selectedParent with
  | some cached => exact Fuel.Below.refl _
  | none => exact ih _ _

section manager

variable {w : SampledWindowManager} {blocks : Finset Hash} {kind : WindowType}
  (inv : w.ghostdagStore.StoreInv blocks)
  (hgenesis : w.genesisHash = w.ghostdagStore.genesisHash)
  (hcache : w.CachesCorrect blocks kind)
  (hrate : 0 < w.sampleRate kind) (hpos : 0 < w.windowSize kind)

include inv hgenesis hcache hrate hpos

/-- The walk down the selected chain offers all window samples to the heap: `rest` are the blocks
that were offered before. -/
lemma walkChain_spec : ∀ fuel (heap : BoundedSizeBlockHeap) {parents : List Hash}
    {d : GhostdagData} {rest : Finset Hash}, w.ghostdagStore.ValidParents blocks parents →
    w.ghostdagStore.Colored blocks parents d →
    w.ghostdagStore.blueScore d.selectedParent < fuel → heap.sizeBound = w.windowSize kind →
    HoldsTop w.ghostdagStore (w.windowSize kind) rest heap.binaryHeap →
    Disjoint rest (w.windowSamples blocks (w.sampleRate kind) d) →
    ∃ heap', w.walkChain kind fuel heap d = some (.ok heap') ∧
      heap'.binaryHeap.origin = heap.binaryHeap.origin ∧
      HoldsTop w.ghostdagStore (w.windowSize kind)
        (rest ∪ w.windowSamples blocks (w.sampleRate kind) d) heap'.binaryHeap := by
  intro fuel
  induction fuel with
  | zero =>
    intro heap parents d rest _ _ hfuel
    omega
  | succ fuel ih =>
    intro heap parents d rest hvalid hcol hfuel hbound h hdisj
    have hspMem := hcol.parent_mem hvalid
    have horigin := inv.ne_origin hspMem
    rw [walkChain, if_neg horigin, hgenesis]
    by_cases hsp : d.selectedParent = w.ghostdagStore.genesisHash
    · rw [if_pos hsp]
      refine ⟨heap, rfl, rfl, ?_⟩
      rwa [windowSamples_of_genesis inv hvalid hcol hsp, union_empty]
    rw [if_neg hsp]
    obtain ⟨score, hscore⟩ := inv.daaScore _ hspMem
    have hactivation : w.isWindowBlockCrescendoActivated d.selectedParent =
        some (w.crescendoActivation.isActive score) := by
      unfold isWindowBlockCrescendoActivated
      rw [if_neg horigin, hscore]
      rfl
    simp only [hactivation, bind_eq_bind, bind_some, Option.pure_def]
    cases hactive : w.crescendoActivation.isActive score with
    | false =>
      refine ⟨heap, rfl, rfl, ?_⟩
      rw [windowSamples_of_not_activated, union_empty]
      · exact h
      · intro hactivated
        rw [Activated, hactivation, hactive] at hactivated
        exact absurd hactivated (by decide)
    | true =>
      have hactivated : w.Activated d.selectedParent := by
        rw [Activated, hactivation, hactive]
      obtain ⟨spParents, spData, hspParents, hspData, hspValid, hspCol, -, -, -, -, hspScore⟩ :=
        inv.readData hspMem hsp
      have hblueWork := blueWork_of_getData hspData
      obtain ⟨fits, hfits, hbelow⟩ := canPush_spec hpos hbound h d.selectedParent
      rw [sortable] at hfits
      simp only [Bool.not_true, Bool.false_eq_true, if_false, hspData, bind_some, ← hblueWork,
        hfits]
      cases fits with
      | false =>
        -- all further samples are below the selected parent
        have hbelow := hbelow rfl
        refine ⟨heap, rfl, rfl, h.union_low hbelow.1 fun x hx => hbelow.of_le ?_⟩
        exact key_le_selectedParent inv hcol (windowSamples_subset inv hvalid hcol hx)
      | true =>
        obtain ⟨items, samples, hitems, hsamples, hsorted, hiff⟩ :=
          sampledMergesetIterator_spec inv hvalid hcol hrate
        obtain ⟨hsplit, hnew⟩ := windowSamples_eq inv hvalid hcol hsp hactivated hspData hiff
        rw [hsplit] at hdisj ⊢
        obtain ⟨hdisjSamples, hdisjRest⟩ := disjoint_union_right.mp hdisj
        simp only [Bool.not_true, Bool.false_eq_true, if_false, hitems, bind_some,
          pushUntilRejected_eq, hsamples]
        obtain ⟨hbound', h'⟩ := pushWhileFits_spec hpos samples heap rest hbound h hsorted
          fun x hx hrest => disjoint_left.mp hdisjSamples hrest (List.mem_toFinset.mpr hx)
        have horigin' := pushWhileFits_origin (samples.map (sortable w.ghostdagStore)) heap
        have hdisj' := disjoint_union_left.mpr ⟨hdisjRest, hnew⟩
        rw [← union_assoc]
        cases hget : w.cacheGet kind d.selectedParent with
        | some cached =>
          refine ⟨_, rfl, (mergeAncestorHeap_origin _ _).trans horigin', ?_⟩
          exact mergeAncestorHeap_spec hbound' h'
            (hcache _ hspMem hsp _ hspData cached hget) hdisj'
        | none =>
          obtain ⟨heap', hwalk, horigin'', hwindow⟩ :=
            ih _ hspValid hspCol (by omega) hbound' h' hdisj'
          exact ⟨heap', hwalk, horigin''.trans horigin', hwindow⟩

/-- The sampled window of an activated block holds the greatest window samples. -/
lemma blockWindow_spec {parents : List Hash} {d : GhostdagData}
    (hvalid : w.ghostdagStore.ValidParents blocks parents)
    (hcol : w.ghostdagStore.Colored blocks parents d) (hactive : w.Activated d.selectedParent) :
    ∃ window, Fuel.Returns (fun fuel => w.blockWindow fuel d kind) (.ok window) ∧
      window.origin = .sampled ∧
      HoldsTop w.ghostdagStore (w.windowSize kind)
        (w.windowSamples blocks (w.sampleRate kind) d) window := by
  have hspMem := hcol.parent_mem hvalid
  have horigin := inv.ne_origin hspMem
  have hsize : w.windowSize kind ≠ 0 := Nat.pos_iff_ne_zero.mp hpos
  unfold blockWindow buildBlockWindow
  by_cases hsp : d.selectedParent = w.ghostdagStore.genesisHash
  · refine ⟨BlockWindowHeap.new .sampled, ⟨0, fun fuel _ => ?_⟩, rfl, ?_⟩
    · simp only [if_neg hsize, hgenesis, if_pos hsp]
      rfl
    · rw [windowSamples_of_genesis inv hvalid hcol hsp]
      exact HoldsTop.new _ _
  obtain ⟨spParents, spData, hspParents, hspData, hspValid, hspCol, -⟩ := inv.readData hspMem hsp
  have hblueWork := getBlueWork_of_getData hspData
  obtain ⟨items, samples, hitems, hsamples, hsorted, hiff⟩ :=
    sampledMergesetIterator_spec inv hvalid hcol hrate
  obtain ⟨hsplit, hnew⟩ := windowSamples_eq inv hvalid hcol hsp hactive hspData hiff
  have hnodup : samples.Nodup := by
    refine hsorted.imp fun hlt heq => ?_
    rw [heq] at hlt
    exact lt_irrefl _ hlt
  simp only [if_neg hsize, hgenesis, if_neg hsp, if_neg horigin, hblueWork, bind_eq_bind,
    bind_some, tryInitFromCache, hitems, Option.pure_def]
  cases hget : w.cacheGet kind d.selectedParent with
  | some cached =>
    -- the window of the selected parent, with the samples of the mergeset
    obtain ⟨-, hkept, hwindow⟩ := pushAll_spec hpos items ⟨cached, w.windowSize kind⟩ _
      samples hsamples rfl (hcache _ hspMem hsp _ hspData cached hget) hnodup
      fun x hx hrest => disjoint_left.mp hnew (List.mem_toFinset.mpr hx) hrest
    refine ⟨_, ⟨0, fun fuel _ => rfl⟩, hkept.trans ?_, ?_⟩
    · unfold cacheGet at hget
      exact of_decide_eq_true (filter_eq_some_iff.mp hget).2
    · rwa [hsplit, union_comm]
  | none =>
    obtain ⟨hbound, hkept, h⟩ := pushAll_spec hpos items
      ⟨BlockWindowHeap.new .sampled, w.windowSize kind⟩ ∅ samples hsamples rfl
      (HoldsTop.new _ _) hnodup fun x _ hrest => notMem_empty x hrest
    rw [empty_union] at h
    let fuel := w.ghostdagStore.blueScore spData.selectedParent + 1
    obtain ⟨heap, hwalk, horigin', hwindow⟩ := walkChain_spec inv hgenesis hcache hrate hpos fuel _
      hspValid hspCol (Nat.lt_succ_self _) hbound h hnew
    refine ⟨heap.binaryHeap, ⟨fuel, fun fuel' hle => ?_⟩, horigin'.trans hkept, hsplit ▸ hwindow⟩
    have hwalk' := walkChain_stable fuel fuel' hle _ _ _ hwalk
    simp only [bind_some, hspData, hwalk', map_some]
    rfl

end manager

lemma blockWindow_stable (w : SampledWindowManager) (d : GhostdagData)
    (kind : WindowType) : Fuel.Stable fun fuel => w.blockWindow fuel d kind := by
  intro fuel fuel' hle
  refine Fuel.Below.map ?_
  refine Fuel.Below.orElse (Fuel.Below.orElse ?_)
  refine Fuel.Below.orElse ?_
  refine Fuel.Below.after fun blueWork => ?_
  refine Fuel.Below.after fun cached => ?_
  cases cached with
  | some res => exact Fuel.Below.refl _
  | none =>
    refine Fuel.Below.after fun items => ?_
    refine Fuel.Below.after fun current => ?_
    exact Fuel.Below.bind (walkChain_stable fuel fuel' hle _ _) fun res => Fuel.Below.refl _

lemma windowSamples_withCaches (w : SampledWindowManager)
    (difficulty pastMedianTime : Hash → Option BlockWindowHeap) (blocks : Finset Hash) (rate : ℕ)
    (d : GhostdagData) : windowSamples { w with
      blockWindowCacheForDifficulty := difficulty
      blockWindowCacheForPastMedianTime := pastMedianTime } blocks rate d =
      w.windowSamples blocks rate d := by
  have hchain : ∀ c, ActivatedChain { w with
      blockWindowCacheForDifficulty := difficulty
      blockWindowCacheForPastMedianTime := pastMedianTime } d c ↔ w.ActivatedChain d c := by
    intro c
    constructor
    · intro h
      induction h with
      | self hactive => exact .self hactive
      | down _ hne hdata hactive ih => exact ih.down hne hdata hactive
    · intro h
      induction h with
      | self hactive => exact .self hactive
      | down _ hne hdata hactive ih => exact ih.down hne hdata hactive
  unfold windowSamples activatedSamples
  congr 1
  refine filter_congr fun x _ => exists_congr fun c => and_congr (hchain c) ?_
  exact ⟨fun h => ⟨h.mem, h.activated, h.daaScore⟩, fun h => ⟨h.mem, h.activated, h.daaScore⟩⟩

end SampledWindowManager

/-! ## Full windows keep their origin -/

namespace FullWindowManager

variable {w : FullWindowManager}

lemma tryPushMergeset_origin {heap heap' : BoundedSizeBlockHeap} {d : GhostdagData}
    {blueWork : ℕ} {tooLow : Bool} (h : w.tryPushMergeset heap d blueWork = some (heap', tooLow)) :
    heap'.binaryHeap.origin = heap.binaryHeap.origin := by
  have horigin := tryPush_origin heap ⟨d.selectedParent, blueWork⟩
  unfold tryPushMergeset at h
  rcases hpush : heap.tryPush ⟨d.selectedParent, blueWork⟩ with ⟨pushed, fits⟩
  rw [hpush] at h horigin
  cases fits with
  | false =>
    obtain ⟨rfl, -⟩ := Prod.mk.inj (some.inj h)
    exact horigin
  | true =>
    obtain ⟨mergeset, -, h⟩ := bind_eq_some_iff.mp h
    obtain ⟨rfl, -⟩ := Prod.mk.inj (some.inj h)
    exact (pushWhileFits_origin mergeset pushed).trans horigin

lemma walkChain_origin : ∀ fuel {heap heap' : BoundedSizeBlockHeap} {d : GhostdagData},
    w.walkChain fuel heap d = some (.ok heap') →
    heap'.binaryHeap.origin = heap.binaryHeap.origin := by
  intro fuel
  induction fuel with
  | zero =>
    intro heap heap' d h
    exact absurd h (by simp [walkChain])
  | succ fuel ih =>
    intro heap heap' d h
    rw [walkChain] at h
    split_ifs at h
    · obtain rfl := Except.ok.inj (some.inj h)
      rfl
    · exact absurd (some.inj h) (by simp)
    · obtain rfl := Except.ok.inj (some.inj h)
      rfl
    · obtain ⟨parentData, -, h⟩ := bind_eq_some_iff.mp h
      obtain ⟨⟨pushed, tooLow⟩, hpush, h⟩ := bind_eq_some_iff.mp h
      have horigin := tryPushMergeset_origin hpush
      cases tooLow with
      | true =>
        obtain rfl := Except.ok.inj (some.inj h)
        exact horigin
      | false => exact (ih h).trans horigin

lemma buildBlockWindow_origin {fuel : ℕ} {d : GhostdagData} {kind : WindowType}
    {window : BlockWindowHeap} (h : w.buildBlockWindow fuel d kind = some (.ok window)) :
    window.origin = .full := by
  unfold buildBlockWindow at h
  by_cases hsize : w.windowSize kind = 0
  · simp only [if_pos hsize] at h
    obtain rfl := Except.ok.inj (some.inj h)
    rfl
  simp only [if_neg hsize] at h
  cases hget : w.cacheGet (w.windowSize kind) d.selectedParent with
  | some cached =>
    have hcached : cached.origin = .full := by
      exact of_decide_eq_true (filter_eq_some_iff.mp hget).2
    rw [hget] at h
    simp only at h
    split_ifs at h
    · obtain rfl := Except.ok.inj (some.inj h)
      exact hcached
    · obtain ⟨blueWork, -, h⟩ := bind_eq_some_iff.mp h
      obtain ⟨⟨pushed, tooLow⟩, hpush, h⟩ := bind_eq_some_iff.mp h
      obtain rfl := Except.ok.inj (some.inj h)
      exact (tryPushMergeset_origin hpush).trans hcached
  | none =>
    rw [hget] at h
    obtain ⟨res, hwalk, h⟩ := bind_eq_some_iff.mp h
    cases res with
    | error e => exact absurd (some.inj h) (by simp [Except.map])
    | ok heap =>
      obtain rfl := Except.ok.inj (some.inj h)
      exact walkChain_origin fuel hwalk

end FullWindowManager

/-! ## Any content of the caches -/

namespace DualWindowManager

variable {w w' : DualWindowManager} {blocks : Finset Hash} {kind : WindowType}

/-- The two managers differ in their caches only. -/
def SameStores (w w' : DualWindowManager) : Prop := ∃ difficulty pastMedianTime, w' = { w with
  blockWindowCacheForDifficulty := difficulty
  blockWindowCacheForPastMedianTime := pastMedianTime }

lemma CacheRun.eq_withCaches (h : w.CacheRun w') : SameStores w w' := by
  have hset : ∀ w' kind hash window, SameStores w w' →
      SameStores w (w'.setCached kind hash window) := by
    rintro w' kind hash window ⟨difficulty, pastMedianTime, rfl⟩
    cases kind with
    | difficultyWindow => exact ⟨_, pastMedianTime, rfl⟩
    | medianTimeWindow => exact ⟨difficulty, _, rfl⟩
    | varyingWindow size => exact ⟨difficulty, pastMedianTime, rfl⟩
  induction h with
  | start => exact ⟨_, _, rfl⟩
  | insert _ _ kind _ ih => exact hset _ kind _ _ ih
  | evict _ kind hash ih => exact hset _ kind hash none ih

/-- An entry of a changed cache is the new one, or it was there before. -/
lemma cacheGet_setCached {kind' : WindowType} {hash hash' : Hash}
    {window : Option BlockWindowHeap} {found : BlockWindowHeap}
    (h : (w.setCached kind' hash' window).sampledWindowManager.cacheGet kind hash =
      some found) :
    (kind' = kind ∧ hash' = hash ∧ window = some found ∧ found.origin = .sampled) ∨
      w.sampledWindowManager.cacheGet kind hash = some found := by
  obtain ⟨hget, horigin⟩ := filter_eq_some_iff.mp h
  have hupdate : ∀ cache : Hash → Option BlockWindowHeap,
      Function.update cache hash' window hash = some found →
      (hash' = hash ∧ window = some found) ∨ cache hash = some found := by
    intro cache hfound
    by_cases hhash : hash = hash'
    · rw [hhash, Function.update_self] at hfound
      exact .inl ⟨hhash.symm, hfound⟩
    · rw [Function.update_of_ne hhash] at hfound
      exact .inr hfound
  -- the two caches are apart, and other windows are not cached
  cases kind' <;> cases kind <;> try exact .inr h
  all_goals
    rcases hupdate _ hget with ⟨hhash, hwindow⟩ | hold
    · exact .inl ⟨rfl, hhash, hwindow, of_decide_eq_true horigin⟩
    · exact .inr (filter_eq_some_iff.mpr ⟨hold, horigin⟩)

lemma sampling_eq_activated {selectedParent : Hash} {sampling : Bool}
    (hne : selectedParent ≠ BlockHash.origin) (h : w.sampling selectedParent = some sampling) :
    w.sampledWindowManager.isWindowBlockCrescendoActivated selectedParent = some sampling := by
  unfold isWindowBlockCrescendoActivated
  rw [if_neg hne]
  exact h

/-- The samples are the same with every content of the caches. -/
lemma CacheRun.windowSamples_eq (h : w.CacheRun w') (rate : ℕ) (d : GhostdagData) :
    w'.sampledWindowManager.windowSamples blocks rate d =
      w.sampledWindowManager.windowSamples blocks rate d := by
  obtain ⟨difficulty, pastMedianTime, rfl⟩ := h.eq_withCaches
  exact windowSamples_withCaches w.sampledWindowManager difficulty
    pastMedianTime blocks rate d

/-- The cached sampled windows of `w'` are right for `w`. -/
def CachedFor (w w' : DualWindowManager) (blocks : Finset Hash) (kind : WindowType) : Prop :=
  ∀ hash ∈ blocks, hash ≠ w.ghostdagStore.genesisHash → ∀ data,
    w.ghostdagStore.getData hash = some data → ∀ window,
      w'.sampledWindowManager.cacheGet kind hash = some window →
      HoldsTop w.ghostdagStore (w.sampledWindowManager.windowSize kind)
        (w.sampledWindowManager.windowSamples blocks
          (w.sampledWindowManager.sampleRate kind) data) window

lemma CacheRun.cachesCorrect (h : w.CacheRun w') (hcached : CachedFor w w' blocks kind) :
    w'.sampledWindowManager.CachesCorrect blocks kind := by
  intro hash hmem hne data hdata window hget
  rw [h.windowSamples_eq]
  obtain ⟨difficulty, pastMedianTime, rfl⟩ := h.eq_withCaches
  exact hcached hash hmem hne data hdata window hget

section run

variable (inv : w.ghostdagStore.StoreInv blocks)
  (hgenesis : w.genesisHash = w.ghostdagStore.genesisHash)
  (hrate : 0 < w.sampledWindowManager.sampleRate kind)

include inv hgenesis hrate

/-- The window of an activated block, once the cached windows are right. -/
lemma CacheRun.blockWindow_spec (h : w.CacheRun w')
    (hcached : CachedFor w w' blocks kind) {parents : List Hash} {d : GhostdagData}
    (hvalid : w.ghostdagStore.ValidParents blocks parents)
    (hcol : w.ghostdagStore.Colored blocks parents d)
    (hactive : w.sampling d.selectedParent = some true) :
    ∃ window, Fuel.Returns (fun fuel => w'.sampledWindowManager.blockWindow fuel d kind)
        (.ok window) ∧ window.origin = .sampled ∧
      HoldsTop w.ghostdagStore (w.sampledWindowManager.windowSize kind)
        (w.sampledWindowManager.windowSamples blocks
          (w.sampledWindowManager.sampleRate kind) d) window := by
  have hne := inv.ne_origin (hcol.parent_mem hvalid)
  have hcorrect := h.cachesCorrect hcached
  rw [← h.windowSamples_eq]
  obtain ⟨difficulty, pastMedianTime, rfl⟩ := h.eq_withCaches
  rcases Nat.eq_zero_or_pos (w.sampledWindowManager.windowSize kind) with hzero | hpos
  · refine ⟨BlockWindowHeap.new .sampled, ⟨0, fun fuel _ => ?_⟩, rfl, ?_⟩
    · show Option.map _ (if w.sampledWindowManager.windowSize kind = 0 then _ else _) = _
      rw [if_pos hzero]
      rfl
    · rw [hzero]
      exact HoldsTop.new_of_size_zero _ _
  · exact blockWindow_spec inv hgenesis hcorrect hrate hpos hvalid hcol
      (sampling_eq_activated hne hactive)

/-- Whatever was inserted and evicted, the cached sampled windows are right. -/
lemma CacheRun.cachedFor (h : w.CacheRun w') : CachedFor w w' blocks kind := by
  induction h with
  | start =>
    intro hash _ _ data _ window hget
    obtain ⟨hget, -⟩ := filter_eq_some_iff.mp hget
    cases kind <;> exact absurd hget (by simp [sampledWindowManager, clearCaches])
  | evict hrun kind' hash' ih =>
    intro hash hmem hne data hdata window hget
    rcases cacheGet_setCached hget with ⟨-, -, hnone, -⟩ | hold
    · exact absurd hnone (by simp)
    · exact ih hash hmem hne data hdata window hold
  | @insert w' hrun hash' data' hdata' kind' fuel window' hbuild ih =>
    intro hash hmem hne data hdata window hget
    rcases cacheGet_setCached hget with ⟨rfl, rfl, hwindow, horigin⟩ | hold
    · obtain rfl := some.inj hwindow
      obtain rfl := some.inj (hdata'.symm.trans hdata)
      obtain ⟨parents, -, hvalid, hcol⟩ := inv.colored_of_getData hmem hne hdata
      obtain ⟨sampling, hsampling, hbuild⟩ := bind_eq_some_iff.mp hbuild
      have hstores : w'.sampling data'.selectedParent = w.sampling data'.selectedParent := by
        obtain ⟨difficulty, pastMedianTime, rfl⟩ := hrun.eq_withCaches
        rfl
      rw [hstores] at hsampling
      cases sampling with
      | false =>
        -- full windows are never read as sampled ones
        exact absurd (horigin.symm.trans (buildBlockWindow_origin hbuild))
          (by decide)
      | true =>
        obtain ⟨built, hreturns, -, htop⟩ :=
          hrun.blockWindow_spec inv hgenesis hrate ih hvalid hcol hsampling
        have hsame := hreturns.unique
          ((blockWindow_stable _ _ _).returns hbuild)
        obtain rfl := Except.ok.inj hsame
        exact htop
    · exact ih hash hmem hne data hdata window hold

end run

/-- The window of a block whose selected parent is activated: for every content of the caches it is
returned and has the same blocks, and these are the greatest activated samples over the mergesets
of the activated chain, without genesis. -/
theorem blockWindow_activatedSamples (hbuilt : w.ghostdagStore.Built blocks)
    (hgenesis : w.genesisHash = w.ghostdagStore.genesisHash) {parents : List Hash}
    {d : GhostdagData} (hd : FullWindowManager.DataFor w.ghostdagStore blocks parents d)
    (hactive : w.sampling d.selectedParent = some true) (kind : WindowType)
    (hrate : 0 < w.sampledWindowManager.sampleRate kind) :
    ∃ s, IsTop w.ghostdagStore.key (w.sampledWindowManager.windowSize kind)
        (w.sampledWindowManager.windowSamples blocks
          (w.sampledWindowManager.sampleRate kind) d) s ∧
      ∀ w', w.CacheRun w' → ∃ window,
        Fuel.Returns (fun fuel => w'.blockWindow fuel d kind) (.ok window) ∧
          window.origin = .sampled ∧ Holds w.ghostdagStore window s := by
  have inv := hbuilt.storeInv
  obtain ⟨hvalid, hcol⟩ := hd.colored inv
  have hspec : ∀ w', w.CacheRun w' → ∃ window,
      Fuel.Returns (fun fuel => w'.sampledWindowManager.blockWindow fuel d kind)
        (.ok window) ∧ window.origin = .sampled ∧ HoldsTop w.ghostdagStore _ _ window :=
    fun w' hrun => hrun.blockWindow_spec inv hgenesis hrate (hrun.cachedFor inv hgenesis hrate)
      hvalid hcol hactive
  -- the greatest samples are unique, so those of the empty caches are those of all caches
  obtain ⟨-, -, -, s, -, hs⟩ := hspec _ .start
  refine ⟨s, hs, fun w' hrun => ?_⟩
  obtain ⟨window, hreturns, horigin, s', hholds, hs'⟩ := hspec w' hrun
  obtain rfl := hs.unique hs'
  have hsampling : w'.sampling d.selectedParent = some true := by
    obtain ⟨difficulty, pastMedianTime, rfl⟩ := hrun.eq_withCaches
    exact hactive
  refine ⟨window, ?_, horigin, hholds⟩
  unfold blockWindow
  rw [hsampling]
  exact hreturns

/-- Both window managers over the diamond, with a fork that is always active. -/
def diamondDual : DualWindowManager where
  genesisHash := 1
  ghostdagStore := diamond
  blockWindowCacheForDifficulty := fun _ => none
  blockWindowCacheForPastMedianTime := fun _ => none
  crescendoActivation := .always
  fullDifficultyWindowSize := 2
  sampledDifficultyWindowSize := 10
  difficultySampleRate := 1
  fullPastMedianTimeWindowSize := 2
  sampledPastMedianTimeWindowSize := 1
  pastMedianTimeSampleRate := 2

lemma diamondDual_genesisHash : diamondDual.genesisHash = diamondDual.ghostdagStore.genesisHash :=
  diamond_genesisHash.symm

/-- The top of the diamond has a block with an activated selected parent. -/
lemma diamondDual_data : ∃ d, diamond.getData 4 = some d ∧
    FullWindowManager.DataFor diamondDual.ghostdagStore {4, 3, 2, 1} [2, 3] d ∧
    diamondDual.sampling d.selectedParent = some true := by
  cases hd : diamond.getData 4 with
  | none => exact absurd hd (by decide +kernel)
  | some d =>
    refine ⟨d, rfl, .inl ⟨4, by decide, by decide +kernel, by decide +kernel, hd⟩, ?_⟩
    have hsampling : (diamond.getData 4).bind
        (fun d => diamondDual.sampling d.selectedParent) = some true := by
      decide +kernel
    rwa [hd] at hsampling

/-- Every other block of the mergesets, for all contents of the caches. -/
theorem diamondDual_activatedSamples : ∃ d, diamond.getData 4 = some d ∧ ∃ s, IsTop diamond.key 1
        (diamondDual.sampledWindowManager.windowSamples {4, 3, 2, 1} 2 d) s ∧
      ∀ w', diamondDual.CacheRun w' → ∃ window,
        Fuel.Returns (fun fuel => w'.blockWindow fuel d .medianTimeWindow) (.ok window) ∧
          window.origin = .sampled ∧ Holds diamond window s := by
  obtain ⟨d, hd, hdata, hactive⟩ := diamondDual_data
  exact ⟨d, hd, blockWindow_activatedSamples built_diamond diamondDual_genesisHash
    hdata hactive .medianTimeWindow (by decide)⟩

/-- Genesis is an activated sample on the chain of the top of the diamond. -/
lemma diamondDual_genesis_mem {d : GhostdagData} (hd : diamond.getData 4 = some d)
    (hactive : diamondDual.sampling d.selectedParent = some true) :
    1 ∈ diamondDual.sampledWindowManager.activatedSamples {4, 3, 2, 1} 1 d := by
  have hside : (diamond.getData 4).bind (fun d =>
      (diamond.getData d.selectedParent).map fun c =>
        decide (d.selectedParent ≠ BlockHash.origin ∧ c.selectedParent = 1 ∧
          1 ∈ diamondDual.sampledWindowManager.daaBlocks c)) = some true := by
    decide +kernel
  rw [hd] at hside
  obtain ⟨c, hc, hside⟩ := map_eq_some_iff.mp hside
  obtain ⟨horigin, hcsp, hmem⟩ := of_decide_eq_true hside
  have hgenesis : diamondDual.sampledWindowManager.Activated 1 := by
    unfold SampledWindowManager.Activated
    decide +kernel
  refine mem_filter.mpr ⟨by decide, c, ?_, hmem, ?_, ?_⟩
  · exact (SampledWindowManager.ActivatedChain.self (sampling_eq_activated horigin hactive)).down
      horigin hc (hcsp.symm ▸ hgenesis)
  · have hdata := built_diamond.storeInv.genesis_data
    rw [diamond_genesisHash] at hdata
    exact ⟨_, hdata, if_pos rfl⟩
  · have hscore : diamond.getDaaScore 1 = some 0 := by
      decide +kernel
    exact ⟨0, hcsp.symm ▸ hscore, ⟨_, (Nat.one_mul _).symm⟩⟩

/-- There is room for genesis in the window of the top of the diamond, but it is left out. -/
theorem diamondDual_genesis_left_out : ∃ d, diamond.getData 4 = some d ∧
    diamondDual.sampling d.selectedParent = some true ∧ ∃ window,
    Fuel.Returns (fun fuel => diamondDual.blockWindow fuel d .difficultyWindow) (.ok window) ∧
    ¬HoldsTop diamond 10
      (diamondDual.sampledWindowManager.activatedSamples {4, 3, 2, 1} 1 d) window := by
  obtain ⟨d, hd, hdata, hactive⟩ := diamondDual_data
  have inv := built_diamond.storeInv
  obtain ⟨hvalid, hcol⟩ := hdata.colored inv
  have hrun : diamondDual.CacheRun diamondDual := .start
  have hrate : 0 < diamondDual.sampledWindowManager.sampleRate .difficultyWindow := by
    decide
  have hcached := hrun.cachedFor inv diamondDual_genesisHash hrate
  obtain ⟨window, hreturns, -, s, hs, htop⟩ :=
    hrun.blockWindow_spec inv diamondDual_genesisHash hrate hcached hvalid hcol hactive
  refine ⟨d, hd, hactive, window, ?_, fun ⟨t, ht, htop'⟩ => ?_⟩
  · unfold blockWindow
    rw [hactive]
    exact hreturns
  · obtain rfl : s = t := by
      ext x
      rw [hs.mem_iff x, ht.mem_iff x]
    -- the window is not full, so it would hold all samples
    have hcard : s.card ≤ 4 :=
      card_le_card (htop'.subset.trans (filter_subset _ _))
    have hall := htop'.eq_of_room (by omega)
    have hmem := htop.subset (hall.symm ▸ diamondDual_genesis_mem hd hactive)
    exact (mem_erase.mp hmem).1 diamond_genesisHash.symm

end DualWindowManager

end LapisMonetae.Window
