import LapisMonetae.Window.HeapTheorems

/-!
# Full block windows are the top of the past

The walk down the selected chain may stop early because blue work decreases along the chain.
-/

namespace LapisMonetae.Window

open Ghostdag Dag Top Classical List GhostdagManager Option

section window

variable {m : GhostdagManager} {blocks : Finset Hash}
variable {w : FullWindowManager}

/-- The heap is a full window: it holds the `n` greatest blocks of `p` by blue work and hash, or
all of `p` if it has fewer. -/
def IsWindow (m : GhostdagManager) (n : ℕ) (p : Finset Hash) (heap : BlockWindowHeap) : Prop :=
  heap.origin = .full ∧ ∃ s, Holds m heap s ∧ IsTop m.key n p s

/-! ## The past of a block -/

/-- The past of a block with the given parents. -/
noncomputable def pastOf (m : GhostdagManager) (blocks : Finset Hash) (parents : List Hash) :
    Finset Hash := blocks.filter fun x => ∃ p ∈ parents, InPast m.Parent x p

/-- The blocks that may belong to the window of a block: its past without genesis. -/
noncomputable def windowCandidates (m : GhostdagManager) (blocks : Finset Hash)
    (parents : List Hash) : Finset Hash := (pastOf m blocks parents).erase m.genesisHash

section past

variable (inv : m.StoreInv blocks) {parents : List Hash} {d : GhostdagData}
  (hvalid : m.ValidParents blocks parents) (hcol : m.Colored blocks parents d)
variable {merged spParents : List Hash}

include inv hvalid hcol

omit hvalid hcol in
lemma windowCandidates_eq_empty (h : ∀ p ∈ parents, p = m.genesisHash) :
    windowCandidates m blocks parents = ∅ := by
  refine Finset.eq_empty_of_forall_notMem fun x hx => ?_
  obtain ⟨hne, hx⟩ := Finset.mem_erase.mp hx
  obtain ⟨hmem, p, hp, hpast⟩ := Finset.mem_filter.mp hx
  rw [h p hp] at hpast
  rcases hpast.eq_or_past with h | h
  · exact hne h
  · exact inv.workDag.not_past_genesis hmem h

/-- A block on top of genesis has nothing but genesis in its past. -/
lemma windowCandidates_of_genesis (hsp : d.selectedParent = m.genesisHash) :
    windowCandidates m blocks parents = ∅ := by
  refine windowCandidates_eq_empty inv fun p hp => ?_
  have hgenesis : m.genesisHash ∈ parents := hsp ▸ hcol.selectedParent_mem
  have hpast := inv.workDag.genesis_inPast (hvalid.mem_blocks p hp)
  exact (hvalid.antichain _ _ hgenesis hp hpast).symm

/-- The past of a block is its selected parent, its mergeset, and the past of the selected
parent. -/
lemma windowCandidates_eq (hmerged : m.OrderedMergeset parents d.selectedParent merged)
    (hne : d.selectedParent ≠ m.genesisHash)
    (hspParents : m.getParents d.selectedParent = some spParents) :
    windowCandidates m blocks parents =
      windowCandidates m blocks spParents ∪ insert d.selectedParent merged.toFinset := by
  have hsp := hcol.parent_mem hvalid
  ext x
  rw [windowCandidates, windowCandidates, Finset.mem_union, Finset.mem_erase, Finset.mem_erase,
    pastOf, pastOf, Finset.mem_filter, Finset.mem_filter, Finset.mem_insert, List.mem_toFinset]
  constructor
  · rintro ⟨hx, hmem, hpast⟩
    by_cases hin : InPast m.Parent x d.selectedParent
    · rcases hin.eq_or_past with rfl | hin
      · exact Or.inr (Or.inl rfl)
      · obtain ⟨q, ⟨ps, hps, hq⟩, hxq⟩ := hin.cases_parent
        obtain rfl := some.inj (hspParents.symm.trans hps)
        exact Or.inl ⟨hx, hmem, q, hq, hxq⟩
    · exact Or.inr (Or.inr ((hmerged.mem_iff x).mpr ⟨hpast, hin⟩))
  · rintro (⟨hx, hmem, q, hq, hxq⟩ | rfl | hx)
    · have hparent : m.Parent q d.selectedParent := ⟨_, hspParents, hq⟩
      exact ⟨hx, hmem, _, hcol.selectedParent_mem, hxq.trans (InPast.of_parent hparent)⟩
    · exact ⟨hne, hsp, _, hcol.selectedParent_mem, InPast.refl _⟩
    · obtain ⟨hpast, hnot⟩ := (hmerged.mem_iff x).mp hx
      have hmem := inv.workDag.mem_of_merged hvalid.mem_blocks hsp hmerged hx
      refine ⟨fun hgenesis => hnot ?_, hmem, hpast⟩
      rw [hgenesis]
      exact inv.workDag.genesis_inPast hsp

/-- The selected parent and the mergeset are not in the past of the selected parent. -/
lemma notMem_windowCandidates (hmerged : m.OrderedMergeset parents d.selectedParent merged)
    (hspParents : m.getParents d.selectedParent = some spParents) :
    d.selectedParent ∉ windowCandidates m blocks spParents ∧
      ∀ x ∈ merged, x ∉ windowCandidates m blocks spParents := by
  have hsp := hcol.parent_mem hvalid
  have hpast : ∀ x ∈ windowCandidates m blocks spParents, Past m.Parent x d.selectedParent := by
    intro x hx
    obtain ⟨-, q, hq, hxq⟩ := Finset.mem_filter.mp (Finset.mem_of_mem_erase hx)
    exact hxq.trans_past (Relation.TransGen.single ⟨_, hspParents, hq⟩)
  refine ⟨fun hx => inv.workDag.not_past_self hsp (hpast _ hx), fun x hx hmem => ?_⟩
  exact ((hmerged.mem_iff x).mp hx).2 (hpast x hmem).inPast

/-- The selected parent and then the mergeset, in descending order. -/
lemma descendingMergeset_of_colored : ∃ hashes : List Hash,
    descendingMergesetWithoutSelectedParent m d = some (hashes.map (sortable m)) ∧
    ((d.selectedParent :: hashes).Pairwise fun a b => m.key b < m.key a) ∧ (∀ x, x ∈ hashes ↔
      (∃ p ∈ parents, InPast m.Parent x p) ∧ ¬InPast m.Parent x d.selectedParent) ∧
    ∀ x, x ∈ d.selectedParent :: hashes ↔ x ∈ d.mergesetBlues ++ d.mergesetReds := by
  have hspMem := hcol.parent_mem hvalid
  obtain ⟨merged, hmerged, hcoloring⟩ := hcol.coloring
  have hmergeable := hmerged.mergeable inv hvalid.mem_blocks hspMem
  have hlower : ∀ x ∈ merged.reverse, m.key x < m.key d.selectedParent := by
    intro x hx
    have hx := mem_reverse.mp hx
    obtain ⟨⟨q, hq, hpast⟩, hnot⟩ := (hmerged.mem_iff x).mp hx
    have hxq : m.key x ≤ m.key q := by
      rcases hpast.eq_or_past with rfl | hpast
      · exact le_refl _
      · exact (inv.workDag.key_lt_of_past hpast (hmergeable.2 x hx).1).le
    refine lt_of_le_of_ne (hxq.trans (hcol.key_le q hq)) fun heq => hnot ?_
    rw [key_injective heq]
    exact InPast.refl _
  have hdata : m.Merged parents merged d := ⟨hcol.selectedParent_mem, hcol.key_le, hmerged,
    hcoloring.blues_eq, hcoloring.perm, hcoloring.blues_sublist, hcoloring.reds_sublist,
    hcol.blueScore_eq⟩
  refine ⟨merged.reverse, descendingMergeset_eq inv.workDag hvalid hdata,
    pairwise_cons.mpr ⟨hlower, pairwise_reverse.mpr hmerged.sorted⟩,
    fun x => mem_reverse.trans (hmerged.mem_iff x), fun x => ?_⟩
  rw [hcoloring.blues_eq, cons_append, mem_cons, mem_cons, mem_reverse, hcoloring.perm.mem_iff]

omit hvalid in
/-- The selected parent has the greatest key of the past. -/
lemma key_le_selectedParent {x : Hash} (hx : x ∈ windowCandidates m blocks parents) :
    m.key x ≤ m.key d.selectedParent := by
  obtain ⟨hmem, p, hp, hpast⟩ := Finset.mem_filter.mp (Finset.mem_of_mem_erase hx)
  refine le_trans ?_ (hcol.key_le p hp)
  rcases hpast.eq_or_past with rfl | hpast
  · exact le_refl _
  · exact (inv.workDag.key_lt_of_past hpast hmem).le

end past

/-! ## The window manager -/

section manager

variable {w : FullWindowManager} (hstore : w.ghostdagStore = m)
  (inv : m.StoreInv blocks) {parents : List Hash} {d : GhostdagData}
  (hvalid : m.ValidParents blocks parents) (hcol : m.Colored blocks parents d)

include hstore inv hvalid hcol

/-- `try_push_mergeset` adds the selected parent and the mergeset to the window. -/
lemma tryPushMergeset_spec {n : ℕ} (hn : 0 < n) (heap : BoundedSizeBlockHeap) {p : Finset Hash}
    (hbound : heap.sizeBound = n) (h : IsWindow m n p heap.binaryHeap) {merged : List Hash}
    (hmerged : m.OrderedMergeset parents d.selectedParent merged)
    (hsp : d.selectedParent ∉ p) (hdisj : ∀ x ∈ merged, x ∉ p) :
    ∃ heap' tooLow, w.tryPushMergeset heap d (m.blueWork d.selectedParent) = some (heap', tooLow) ∧
      heap'.sizeBound = n ∧
      IsWindow m n (p ∪ insert d.selectedParent merged.toFinset) heap'.binaryHeap ∧
      (tooLow = true → HoldsTop.Below m n heap'.binaryHeap d.selectedParent) := by
  obtain ⟨hashes, hdescending, hsorted, hmemIff, -⟩ :=
    descendingMergeset_of_colored inv hvalid hcol
  obtain ⟨hlower', hsorted⟩ := pairwise_cons.mp hsorted
  have hmem : ∀ x, x ∈ hashes ↔ x ∈ merged := fun x => (hmemIff x).trans (hmerged.mem_iff x).symm
  have hset : hashes.toFinset = merged.toFinset := by
    ext x
    rw [List.mem_toFinset, List.mem_toFinset, hmem]
  have hlower : ∀ x ∈ merged, m.key x < m.key d.selectedParent :=
    fun x hx => hlower' x ((hmem x).mpr hx)
  unfold FullWindowManager.tryPushMergeset
  rw [show (⟨d.selectedParent, m.blueWork d.selectedParent⟩ : SortableBlock) =
    sortable m d.selectedParent from rfl]
  have horigin := (tryPush_origin heap (sortable m d.selectedParent)).trans h.1
  rcases tryPush_spec hn hbound h.2 hsp with ⟨hreject, hbelow⟩ | ⟨heap', hpush, hbound', h'⟩
  · rw [hreject]
    refine ⟨heap, true, rfl, hbound, ⟨h.1, HoldsTop.union_low h.2 hbelow.1 fun x hx => ?_⟩,
      fun _ => hbelow⟩
    rcases Finset.mem_insert.mp hx with rfl | hx
    · exact hbelow
    · exact hbelow.of_le (hlower x (List.mem_toFinset.mp hx)).le
  · rw [hpush] at horigin
    rw [hpush, hstore, hdescending]
    obtain ⟨hbound'', hwindow⟩ := pushWhileFits_spec hn hashes heap' _ hbound' h' hsorted (by
      intro x hx hmem'
      rcases Finset.mem_insert.mp hmem' with rfl | hmem'
      · exact lt_irrefl _ (hlower _ ((hmem _).mp hx))
      · exact hdisj x ((hmem x).mp hx) hmem')
    refine ⟨_, false, rfl, hbound'', ⟨(pushWhileFits_origin _ heap').trans horigin, ?_⟩,
      fun hfalse => absurd hfalse (by decide)⟩
    rwa [hset, Finset.insert_union, ← Finset.union_insert] at hwindow

end manager

/-- The walk down the selected chain collects the greatest blocks of the past: `rest` are the
blocks that were offered to the heap before. -/
lemma walkChain_spec (hstore : w.ghostdagStore = m) (hgenesis : w.genesisHash = m.genesisHash)
    (inv : m.StoreInv blocks) {n : ℕ} (hn : 0 < n) :
    ∀ fuel (heap : BoundedSizeBlockHeap) {parents : List Hash} {d : GhostdagData}
      {rest : Finset Hash}, m.ValidParents blocks parents → m.Colored blocks parents d →
      m.blueScore d.selectedParent < fuel → heap.sizeBound = n →
      IsWindow m n rest heap.binaryHeap → Disjoint rest (windowCandidates m blocks parents) →
      ∃ heap', w.walkChain fuel heap d = some (.ok heap') ∧
        IsWindow m n (rest ∪ windowCandidates m blocks parents) heap'.binaryHeap := by
  intro fuel
  induction fuel with
  | zero =>
    intro heap parents d rest _ _ hfuel
    omega
  | succ fuel ih =>
    intro heap parents d rest hvalid hcol hfuel hbound h hdisj
    have hspMem := hcol.parent_mem hvalid
    have horigin := inv.ne_origin hspMem
    rw [FullWindowManager.walkChain, if_neg horigin, hgenesis]
    by_cases hsp : d.selectedParent = m.genesisHash
    · rw [if_pos hsp]
      refine ⟨heap, rfl, ?_⟩
      rwa [windowCandidates_of_genesis inv hvalid hcol hsp, Finset.union_empty]
    rw [if_neg hsp]
    obtain ⟨merged, hmerged, -⟩ := hcol.coloring
    obtain ⟨spParents, spData, hspParents, hspData, hspValid, hspCol, -, -, -, -, hscore⟩ :=
      inv.readData hspMem hsp
    have hsplit := windowCandidates_eq inv hvalid hcol hmerged hsp hspParents
    obtain ⟨hspNew, hmergedNew⟩ := notMem_windowCandidates inv hvalid hcol hmerged hspParents
    -- what is offered to the heap now was not offered before
    have hnew : ∀ x ∈ insert d.selectedParent merged.toFinset, x ∉ rest := by
      intro x hx hrest
      refine Finset.disjoint_left.mp hdisj hrest ?_
      rw [hsplit]
      exact Finset.mem_union_right _ hx
    have hblueWork := blueWork_of_getData hspData
    obtain ⟨heap', tooLow, hpush, hbound', h', hbelow⟩ := tryPushMergeset_spec hstore inv hvalid
      hcol hn heap hbound h hmerged (hnew _ (Finset.mem_insert_self _ _))
      fun x hx => hnew x (Finset.mem_insert_of_mem (List.mem_toFinset.mpr hx))
    rw [hstore, hspData]
    simp only [some_bind_eq, ← hblueWork, hpush]
    cases tooLow with
    | true =>
      -- the rest of the past is below the selected parent
      have hbelow := hbelow rfl
      refine ⟨heap', rfl, ?_⟩
      rw [hsplit, Finset.union_comm (windowCandidates m blocks spParents), ← Finset.union_assoc]
      refine ⟨h'.1, HoldsTop.union_low h'.2 hbelow.1 fun x hx => hbelow.of_le ?_⟩
      refine key_le_selectedParent inv hcol ?_
      rw [hsplit]
      exact Finset.mem_union_left _ hx
    | false =>
      have hdisj' : Disjoint (rest ∪ insert d.selectedParent merged.toFinset)
          (windowCandidates m blocks spParents) := by
        refine Finset.disjoint_union_left.mpr
          ⟨hdisj.mono_right (hsplit ▸ Finset.subset_union_left), ?_⟩
        · refine Finset.disjoint_left.mpr fun x hx => ?_
          rcases Finset.mem_insert.mp hx with rfl | hx
          · exact hspNew
          · exact hmergedNew x (List.mem_toFinset.mp hx)
      obtain ⟨heap'', hwalk, hwindow⟩ := ih heap' hspValid hspCol (by omega) hbound' h' hdisj'
      refine ⟨heap'', hwalk, ?_⟩
      rwa [hsplit, Finset.union_comm (windowCandidates m blocks spParents), ← Finset.union_assoc]

lemma walkChain_stable : ∀ fuel fuel', fuel ≤ fuel' → ∀ heap d,
    Fuel.Below (w.walkChain fuel heap d) (w.walkChain fuel' heap d) := by
  refine Fuel.rounds (fun _ _ _ => Fuel.Below.none _) fun fuel fuel' ih heap d => ?_
  refine Fuel.Below.orElse (Fuel.Below.orElse ?_)
  refine Fuel.Below.after fun parentData => ?_
  exact Fuel.Below.after fun ⟨heap', tooLow⟩ => Fuel.Below.orElse (ih _ _)

end window

/-! ## Windows of a built DAG -/

namespace FullWindowManager

variable {w : FullWindowManager} {blocks : Finset Hash}
variable {m : GhostdagManager} {hash : Hash} {parents : List Hash}

/-- The cached full windows are right: each belongs to a stored block and holds the greatest
blocks of its past. -/
def CachesCorrect (w : FullWindowManager) (blocks : Finset Hash) : Prop :=
  ∀ hash ∈ blocks, ∀ parents, w.ghostdagStore.getParents hash = some parents →
    ∀ window : BlockWindowHeap, window.origin = .full →
      (w.blockWindowCacheForDifficulty hash = some window →
        IsWindow w.ghostdagStore w.difficultyWindowSize
          (windowCandidates w.ghostdagStore blocks parents) window) ∧
      (w.blockWindowCacheForPastMedianTime hash = some window →
        IsWindow w.ghostdagStore w.pastMedianTimeWindowSize
          (windowCandidates w.ghostdagStore blocks parents) window)

/-- A window from the cache is right for the size it is asked for. -/
lemma isWindow_of_cacheGet (hcache : w.CachesCorrect blocks) {n : ℕ} {window : BlockWindowHeap}
    (hhash : hash ∈ blocks) (hparents : w.ghostdagStore.getParents hash = some parents)
    (h : w.cacheGet n hash = some window) :
    IsWindow w.ghostdagStore n (windowCandidates w.ghostdagStore blocks parents) window := by
  obtain ⟨hget, horigin⟩ := filter_eq_some_iff.mp h
  have hcorrect := hcache hash hhash parents hparents window (of_decide_eq_true horigin)
  by_cases hdiff : n = w.difficultyWindowSize
  · rw [if_pos hdiff] at hget
    rw [hdiff]
    exact hcorrect.1 hget
  · rw [if_neg hdiff] at hget
    by_cases hmedian : n = w.pastMedianTimeWindowSize
    · rw [if_pos hmedian] at hget
      rw [hmedian]
      exact hcorrect.2 hget
    · rw [if_neg hmedian] at hget
      exact absurd hget (by simp)

/-- The data of a block other than genesis: of a stored block, or of a new block that `ghostdag`
was run for. -/
def DataFor (m : GhostdagManager) (blocks : Finset Hash) (parents : List Hash)
    (d : GhostdagData) : Prop :=
  (∃ b ∈ blocks, b ≠ m.genesisHash ∧ m.getParents b = some parents ∧ m.getData b = some d) ∨
    (m.ValidParents blocks parents ∧ ∃ fuel, m.ghostdag fuel parents = some d)

lemma DataFor.colored (inv : m.StoreInv blocks) {d : GhostdagData}
    (h : DataFor m blocks parents d) :
    m.ValidParents blocks parents ∧ m.Colored blocks parents d := by
  rcases h with ⟨b, hb, hne, hps, hd⟩ | ⟨hvalid, fuel, hd⟩
  · obtain ⟨ps, hps', hvalid, hcol⟩ := inv.colored_of_getData hb hne hd
    obtain rfl := some.inj (hps.symm.trans hps')
    exact ⟨hvalid, hcol⟩
  · exact ⟨hvalid, colored_of_ghostdag inv hvalid hd⟩

/-- Origin has no stored block in its past. -/
lemma windowCandidates_origin (inv : m.StoreInv blocks) :
    windowCandidates m blocks [BlockHash.origin] = ∅ := by
  refine Finset.eq_empty_of_forall_notMem fun x hx => ?_
  obtain ⟨hmem, p, hp, hpast⟩ := Finset.mem_filter.mp (Finset.mem_of_mem_erase hx)
  rw [mem_singleton.mp hp] at hpast
  exact inv.origin_notMem (inv.workDag.eq_origin_of_inPast hpast ▸ hmem)

lemma isWindow_new (n : ℕ) :
    IsWindow m n ∅ (BlockWindowHeap.new .full) := ⟨rfl, HoldsTop.new n .full⟩

section build

variable (inv : w.ghostdagStore.StoreInv blocks)
  (hgenesis : w.genesisHash = w.ghostdagStore.genesisHash) {parents : List Hash}
  {d : GhostdagData} (hvalid : w.ghostdagStore.ValidParents blocks parents)
  (hcol : w.ghostdagStore.Colored blocks parents d) {kind : WindowType}
  (hpos : 0 < w.windowSize kind)

include inv hgenesis hvalid hcol hpos

/-- The window that is inherited from the cached window of the selected parent. -/
lemma buildBlockWindow_cached (hcache : w.CachesCorrect blocks) {cached : BlockWindowHeap}
    (hget : w.cacheGet (w.windowSize kind) d.selectedParent = some cached) :
    ∃ window, Fuel.Returns (fun fuel => w.buildBlockWindow fuel d kind) (.ok window) ∧
      IsWindow w.ghostdagStore (w.windowSize kind)
        (windowCandidates w.ghostdagStore blocks parents) window := by
  have hspMem := hcol.parent_mem hvalid
  unfold buildBlockWindow
  by_cases hsp : d.selectedParent = w.ghostdagStore.genesisHash
  · refine ⟨cached, ⟨0, fun fuel _ => ?_⟩, ?_⟩
    · simp only [if_neg (Nat.pos_iff_ne_zero.mp hpos), hget, hgenesis, if_pos hsp]
    · have hparents : w.ghostdagStore.getParents d.selectedParent = some [BlockHash.origin] := by
        rw [hsp]
        exact inv.genesis_parents
      have hwindow := isWindow_of_cacheGet hcache hspMem hparents hget
      rw [windowCandidates_origin inv] at hwindow
      rwa [windowCandidates_of_genesis inv hvalid hcol hsp]
  · obtain ⟨merged, hmerged, -⟩ := hcol.coloring
    obtain ⟨spParents, spData, hspParents, hspData, -⟩ := inv.readData hspMem hsp
    obtain ⟨hspNew, hmergedNew⟩ := notMem_windowCandidates inv hvalid hcol hmerged hspParents
    obtain ⟨heap, tooLow, hpush, -, hwindow, -⟩ := tryPushMergeset_spec rfl inv hvalid hcol hpos
      ⟨cached, w.windowSize kind⟩ rfl (isWindow_of_cacheGet hcache hspMem hspParents hget)
      hmerged hspNew hmergedNew
    refine ⟨heap.binaryHeap, ⟨0, fun fuel _ => ?_⟩, ?_⟩
    · have hblueWork := getBlueWork_of_getData hspData
      simp only [if_neg (Nat.pos_iff_ne_zero.mp hpos), hget, hgenesis, if_neg hsp, hblueWork,
        some_bind_eq, hpush, Option.pure_def]
    · rwa [windowCandidates_eq inv hvalid hcol hmerged hsp hspParents]

/-- The window that is rebuilt by walking down the selected chain. -/
lemma buildBlockWindow_walk (hget : w.cacheGet (w.windowSize kind) d.selectedParent = none) :
    ∃ window, Fuel.Returns (fun fuel => w.buildBlockWindow fuel d kind) (.ok window) ∧
      IsWindow w.ghostdagStore (w.windowSize kind)
        (windowCandidates w.ghostdagStore blocks parents) window := by
  let fuel := w.ghostdagStore.blueScore d.selectedParent + 1
  obtain ⟨heap, hwalk, hwindow⟩ := walkChain_spec rfl hgenesis inv hpos fuel
    ⟨BlockWindowHeap.new .full, w.windowSize kind⟩ hvalid hcol (Nat.lt_succ_self _) rfl
    (isWindow_new _) (Finset.disjoint_empty_left _)
  refine ⟨heap.binaryHeap, ⟨fuel, fun fuel' hle => ?_⟩, ?_⟩
  · have hwalk' := walkChain_stable fuel fuel' hle _ _ _ hwalk
    unfold buildBlockWindow
    simp only [if_neg (Nat.pos_iff_ne_zero.mp hpos), hget, hwalk', bind_eq_bind,
      Option.bind_some, Option.pure_def]
    rfl
  · rwa [Finset.empty_union] at hwindow

end build

/-- The window of every block but genesis holds exactly the greatest blocks of its past without
genesis, whether it comes from a cached window or from the walk. -/
theorem buildBlockWindow_top (hbuilt : w.ghostdagStore.Built blocks)
    (hgenesis : w.genesisHash = w.ghostdagStore.genesisHash) (hcache : w.CachesCorrect blocks)
    {parents : List Hash} {d : GhostdagData} (hd : DataFor w.ghostdagStore blocks parents d)
    (kind : WindowType) :
    ∃ window, Fuel.Returns (fun fuel => w.buildBlockWindow fuel d kind) (.ok window) ∧
      IsWindow w.ghostdagStore (w.windowSize kind)
        (windowCandidates w.ghostdagStore blocks parents) window := by
  have inv := hbuilt.storeInv
  obtain ⟨hvalid, hcol⟩ := hd.colored inv
  rcases Nat.eq_zero_or_pos (w.windowSize kind) with hzero | hpos
  · -- no blocks are asked for
    refine ⟨BlockWindowHeap.new .full, ⟨0, fun fuel _ => if_pos hzero⟩, ?_⟩
    rw [hzero]
    exact ⟨rfl, HoldsTop.new_of_size_zero _ .full⟩
  · cases hget : w.cacheGet (w.windowSize kind) d.selectedParent with
    | some cached => exact buildBlockWindow_cached inv hgenesis hvalid hcol hpos hcache hget
    | none => exact buildBlockWindow_walk inv hgenesis hvalid hcol hpos hget

/-- A window manager over the diamond, with the empty window of the block `3` cached. -/
def diamondWindows : FullWindowManager where
  genesisHash := 1
  ghostdagStore := diamond
  blockWindowCacheForDifficulty := fun hash =>
    if hash = 3 then some (BlockWindowHeap.new .full) else none
  blockWindowCacheForPastMedianTime := fun _ => none
  difficultyWindowSize := 2
  pastMedianTimeWindowSize := 1

lemma diamond_genesisHash : diamond.genesisHash = 1 := by
  decide +kernel

lemma diamondWindows_cachesCorrect : diamondWindows.CachesCorrect {4, 3, 2, 1} := by
  intro hash _ parents hparents window _
  refine ⟨fun hget => ?_, fun hget => absurd hget (by simp [diamondWindows])⟩
  have hcached : (if hash = 3 then some (BlockWindowHeap.new .full) else none) = some window := hget
  by_cases hhash : hash = 3
  · rw [if_pos hhash] at hcached
    obtain rfl := some.inj hcached
    -- the only parent of the block is genesis
    have hone : diamond.getParents 3 = some [1] := by
      decide +kernel
    rw [hhash] at hparents
    obtain rfl := some.inj (hone.symm.trans hparents)
    show IsWindow diamond 2 (windowCandidates diamond {4, 3, 2, 1} [1]) _
    rw [windowCandidates_eq_empty built_diamond.storeInv fun p hp =>
      (mem_singleton.mp hp).trans diamond_genesisHash.symm]
    exact isWindow_new 2
  · rw [if_neg hhash] at hcached
    exact absurd hcached (by simp)

/-- The window of the top of the diamond, from the cache and from the walk. -/
theorem diamondWindows_top : ∃ d, diamond.getData 4 = some d ∧
    (∃ window, Fuel.Returns (fun fuel => diamondWindows.buildBlockWindow fuel d .difficultyWindow)
        (.ok window) ∧
      IsWindow diamond 2
        (windowCandidates diamond {4, 3, 2, 1} [2, 3]) window) ∧
    ∃ window, Fuel.Returns (fun fuel => diamondWindows.buildBlockWindow fuel d .medianTimeWindow)
        (.ok window) ∧
      IsWindow diamond 1
        (windowCandidates diamond {4, 3, 2, 1} [2, 3]) window := by
  cases hd : diamond.getData 4 with
  | none => exact absurd hd (by decide +kernel)
  | some d =>
    have hdata : DataFor diamondWindows.ghostdagStore {4, 3, 2, 1} [2, 3] d :=
      Or.inl ⟨4, by decide, by decide +kernel, by decide +kernel, hd⟩
    have hgenesis : diamondWindows.genesisHash = diamondWindows.ghostdagStore.genesisHash :=
      diamond_genesisHash.symm
    refine ⟨d, rfl, ?_, ?_⟩
    · exact buildBlockWindow_top built_diamond hgenesis
        diamondWindows_cachesCorrect hdata .difficultyWindow
    · exact buildBlockWindow_top built_diamond hgenesis
        diamondWindows_cachesCorrect hdata .medianTimeWindow

/-! ## Windows outside of the conditions -/

/-- A window manager without cached windows. -/
def uncached (m : GhostdagManager) : FullWindowManager where
  genesisHash := m.genesisHash
  ghostdagStore := m
  blockWindowCacheForDifficulty := fun _ => none
  blockWindowCacheForPastMedianTime := fun _ => none
  difficultyWindowSize := 1
  pastMedianTimeWindowSize := 1

/-- The chain `9`, `3`, `5`, `7` over genesis, with the bits of genesis and its two successors. -/
def straightChain (bits bits9 bits3 : ℕ) : Option GhostdagManager :=
  [⟨9, [1], 1, bits9⟩, ⟨3, [9], 1, bits3⟩, ⟨5, [3], 1, bits⟩, ⟨7, [5], 1, bits⟩].foldlM
    (addBlock 20)
    (fromGenesis ⟨1, [], 0, bits⟩ (ForkedParam.newConst 2) 0)

/-- The hashes of the window of a stored block. -/
def windowHashes (run : Option GhostdagManager) (hash size : Hash) : Option (List Hash) := do
  let m ← run
  let d ← m.getData hash
  let res ← (uncached m).buildBlockWindow 20 d (.varyingWindow size)
  match res with
  | .ok window => return window.blocks.map SortableBlock.hash
  | .error _ => none

lemma windowHashes_spec {run : Option GhostdagManager} {size : Hash} {hashes : List Hash}
    (h : windowHashes run hash size = some hashes) :
    ∃ m d window, run = some m ∧ m.getData hash = some d ∧
      (uncached m).buildBlockWindow 20 d (.varyingWindow size) = some (.ok window) ∧
      window.blocks.map SortableBlock.hash = hashes := by
  obtain ⟨m, hm, h⟩ := bind_eq_some_iff.mp h
  obtain ⟨d, hd, h⟩ := bind_eq_some_iff.mp h
  obtain ⟨res, hres, h⟩ := bind_eq_some_iff.mp h
  cases res with
  | ok window => exact ⟨m, d, window, hm, hd, hres, some.inj h⟩
  | error e => exact absurd h (by simp)

/-- The window of genesis is an error. Where the parents of a block are related, genesis gets into
its window. Where headers have no work (bits `0`), or where blue work wraps (the work for the bits
`0x09010000` is almost `2^192`), the walk stops before a greater block. -/
theorem buildBlockWindow_wrong : (∃ d, diamond.getData 1 = some d ∧ ∀ fuel,
      (uncached diamond).buildBlockWindow (fuel + 1) d (.varyingWindow 1) =
        some (.error (.insufficientDaaWindowSize 0))) ∧
    (∃ m d window, relatedParents = some m ∧ m.getData 3 = some d ∧
      (uncached m).buildBlockWindow 20 d (.varyingWindow 2) = some (.ok window) ∧
      ¬IsWindow m 2 (windowCandidates m {3, 2, 1} [2, 1]) window) ∧
    ∀ bits ∈ [(0, 0, 0), (0x09010000, 0x09010000, 0x207fffff)], ∃ m d window,
      straightChain bits.1 bits.2.1 bits.2.2 = some m ∧ m.getData 7 = some d ∧
      (uncached m).buildBlockWindow 20 d (.varyingWindow 1) = some (.ok window) ∧
      ¬IsWindow m 1 (windowCandidates m {7, 5, 3, 9, 1} [5]) window := by
  refine ⟨⟨GhostdagData.genesis, ?_, fun fuel => rfl⟩, ?_, ?_⟩
  · have hdata := built_diamond.storeInv.genesis_data
    rwa [diamond_genesisHash] at hdata
  · obtain ⟨m, d, window, hm, hd, hbuild, hhashes⟩ := windowHashes_spec
      (show windowHashes relatedParents 3 2 = some [1, 2] by decide +kernel)
    have hgenesis : m.genesisHash = 1 := by
      have h : GhostdagManager.relatedParents.map GhostdagManager.genesisHash = some 1 := by
        decide +kernel
      rw [hm] at h
      exact some.inj h
    refine ⟨m, d, window, hm, hd, hbuild, ?_⟩
    rintro ⟨-, s, hs, htop⟩
    have hmem : (1 : Hash) ∈ s := by
      rw [hs.mem_iff, ← List.mem_map, hhashes]
      simp
    exact (Finset.mem_erase.mp (htop.subset hmem)).1 hgenesis.symm
  · intro bits hbits
    have hrun : windowHashes (straightChain bits.1 bits.2.1 bits.2.2) 7 1 = some [5] ∧
        (straightChain bits.1 bits.2.1 bits.2.2).map (fun m => (m.genesisHash, m.getParents 3,
          m.getParents 5, decide (m.key 5 < m.key 9))) = some (1, some [9], some [3], true) := by
      simp only [mem_cons, not_mem_nil, or_false] at hbits
      rcases hbits with rfl | rfl
      · decide +kernel
      · decide +kernel
    obtain ⟨m, d, window, hm, hd, hbuild, hhashes⟩ := windowHashes_spec hrun.1
    have hfacts := hrun.2
    rw [hm] at hfacts
    simp only [map_some, some.injEq, Prod.mk.injEq, decide_eq_true_eq] at hfacts
    obtain ⟨hgenesis, hparents3, hparents5, hkey⟩ := hfacts
    refine ⟨m, d, window, hm, hd, hbuild, ?_⟩
    rintro ⟨-, s, hs, htop⟩
    have hpast : InPast m.Parent 9 5 :=
      (InPast.of_parent ⟨[9], hparents3, by simp⟩).trans
        (InPast.of_parent ⟨[3], hparents5, by simp⟩)
    have hcandidate : 9 ∈ windowCandidates m {7, 5, 3, 9, 1} [5] := by
      refine Finset.mem_erase.mpr ⟨by rw [hgenesis]; decide, Finset.mem_filter.mpr ⟨by decide, ?_⟩⟩
      exact ⟨5, by simp, hpast⟩
    have hmem : ∀ x, x ∈ s ↔ x = 5 := by
      intro x
      rw [hs.mem_iff, ← List.mem_map, hhashes, mem_singleton]
    have h9 : 9 ∉ s := by
      rw [hmem]
      decide
    exact lt_asymm hkey (htop.key_lt 9 hcandidate h9 5 ((hmem 5).mpr rfl))

end FullWindowManager

end LapisMonetae.Window
