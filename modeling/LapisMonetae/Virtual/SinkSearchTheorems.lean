import LapisMonetae.Virtual.SinkSearch
import LapisMonetae.Virtual.UtxoStateTheorems

/-!
# The sink is the best eligible block

While candidates are rejected, the heap stays an antichain that covers every eligible block in the
past of the tips: a parent is left out only if it is not above the finality point or in the past of
the heap. The first candidate that passes is then the greatest eligible block.
-/

namespace LapisMonetae.Virtual

open Utxo Ghostdag GhostdagManager Dag Relation Classical List

variable {M : Type} [MultisetHash M] {p : VirtualStateProcessor M} {sem : UtxoSemantics M}
  {blocks : Finset Hash} {utxoSet : UtxoView} {m : GhostdagManager}

/-- The block respects finality and has a valid UTXO state. -/
structure Eligible (m : GhostdagManager) (sem : UtxoSemantics M) (blocks : Finset Hash)
    (point e : Hash) : Prop where
  mem : e ∈ blocks
  finality : m.OnChain point e
  valid : sem.valid e

/-- The block is in the inclusive past of one of the list. -/
def InPastOf (m : GhostdagManager) (l : List Hash) (a : Hash) : Prop := ∃ b ∈ l, InPast m.Parent a b

/-! ## The heap -/

/-- The hashes of the heap, the greatest block first. -/
def CandidateHeap.hashes (heap : CandidateHeap) : List Hash := heap.blocks.map SortableBlock.hash

lemma CandidateHeap.hashes_eq {heap : CandidateHeap} {top : SortableBlock}
    {l : List SortableBlock} (h : heap.blocks = top :: l) :
    heap.hashes = top.hash :: heap.rest.hashes := by
  show heap.blocks.map SortableBlock.hash = top.hash :: heap.blocks.tail.map SortableBlock.hash
  rw [h]
  rfl

/-- The heap holds stored blocks with their blue work, and they form an antichain. -/
structure GoodHeap (m : GhostdagManager) (blocks : Finset Hash) (heap : CandidateHeap) :
    Prop where
  stored : ∀ s ∈ heap.blocks, s.hash ∈ blocks ∧ s.blueWork = m.blueWork s.hash
  antichain : heap.hashes.Pairwise (Anticone m.Parent)

namespace GoodHeap

variable {heap : CandidateHeap}

lemma mem_blocks (h : GoodHeap m blocks heap) {a : Hash} (ha : a ∈ heap.hashes) : a ∈ blocks := by
  obtain ⟨s, hs, rfl⟩ := mem_map.mp ha
  exact (h.stored s hs).1

/-- The hashes are in strictly descending order. -/
lemma sorted (h : GoodHeap m blocks heap) : heap.hashes.Pairwise fun a b => m.key b < m.key a := by
  have hle : heap.hashes.Pairwise fun a b => m.key b ≤ m.key a := by
    unfold CandidateHeap.hashes
    rw [pairwise_map]
    refine heap.sorted.imp_of_mem fun {a b} ha hb hab => ?_
    have hkey : ∀ s ∈ heap.blocks, s.key = m.key s.hash := by
      intro s hs
      unfold SortableBlock.key key
      rw [(h.stored s hs).2]
    rw [← hkey a ha, ← hkey b hb]
    exact hab
  refine (hle.and h.antichain).imp fun {a b} hab => lt_of_le_of_ne hab.1 fun heq => ?_
  exact hab.2.ne (key_injective heq).symm

lemma push (h : GoodHeap m blocks heap) {b : Hash} (hb : b ∈ blocks)
    (hun : ∀ a ∈ heap.hashes, Anticone m.Parent b a) :
    GoodHeap m blocks (heap.push ⟨b, m.blueWork b⟩) ∧
      ∀ a, a ∈ (heap.push ⟨b, m.blueWork b⟩).hashes ↔ a = b ∨ a ∈ heap.hashes := by
  have hperm : (heap.push ⟨b, m.blueWork b⟩).blocks.Perm (⟨b, m.blueWork b⟩ :: heap.blocks) :=
    perm_orderedInsert _ _ _
  have hhashes : (heap.push ⟨b, m.blueWork b⟩).hashes.Perm (b :: heap.hashes) :=
    hperm.map SortableBlock.hash
  refine ⟨⟨fun s hs => ?_, ?_⟩, fun a => ?_⟩
  · rcases mem_cons.mp (hperm.mem_iff.mp hs) with rfl | hs
    · exact ⟨hb, rfl⟩
    · exact h.stored s hs
  · rw [hhashes.pairwise_iff fun h => h.symm, pairwise_cons]
    exact ⟨hun, h.antichain⟩
  · rw [hhashes.mem_iff, mem_cons]

end GoodHeap

/-- Collecting an antichain of stored blocks. -/
lemma goodHeap_collect (l : List Hash) (hmem : ∀ b ∈ l, b ∈ blocks)
    (hanti : l.Pairwise (Anticone m.Parent)) :
    GoodHeap m blocks (.collect (l.map fun b => ⟨b, m.blueWork b⟩)) ∧
      ∀ a, a ∈ (CandidateHeap.collect (l.map fun b => ⟨b, m.blueWork b⟩)).hashes ↔ a ∈ l := by
  induction l with
  | nil =>
    refine ⟨⟨fun s hs => ?_, List.Pairwise.nil⟩, fun a => ?_⟩
    · cases hs
    · rfl
  | cons b l ih =>
    obtain ⟨hhead, htail⟩ := pairwise_cons.mp hanti
    obtain ⟨hgood, hhashes⟩ := ih (fun c hc => hmem c (mem_cons_of_mem _ hc)) htail
    obtain ⟨hgood', hhashes'⟩ := hgood.push (hmem b mem_cons_self)
      fun a ha => hhead a ((hhashes a).mp ha)
    refine ⟨hgood', fun a => ?_⟩
    rw [mem_cons, ← hhashes a]
    exact hhashes' a

/-! ## Replacing a candidate -/

section search

variable (dag : p.ghostdagManager.WorkDag blocks)
variable {heap : CandidateHeap} {tips : List Hash} {l : List SortableBlock} {s s' : Relative M}
  {top : SortableBlock}

include dag

omit [MultisetHash M] in
/-- The parents that are pushed keep the heap an antichain, and with the heap they cover all the
parents above the finality point. -/
lemma pushParents_spec {finality : Hash}
    (hf : finality ∈ blocks ∨ finality = BlockHash.origin) (ps : List Hash) :
    ∀ {heap : CandidateHeap}, (∀ q ∈ ps, q ∈ blocks) →
      Antichain p.ghostdagManager.Parent (· ∈ ps) → GoodHeap p.ghostdagManager blocks heap →
      (∀ a ∈ heap.hashes, ∀ q ∈ ps, InPast p.ghostdagManager.Parent a q → a = q) →
      ∃ heap', p.pushParents finality ps heap = some heap' ∧
        GoodHeap p.ghostdagManager blocks heap' ∧
        (∀ a ∈ heap'.hashes, a ∈ heap.hashes ∨ a ∈ ps) ∧ (∀ a ∈ heap.hashes, a ∈ heap'.hashes) ∧
        ∀ q ∈ ps, InPast p.ghostdagManager.Parent finality q →
          InPastOf p.ghostdagManager heap'.hashes q := by
  induction ps with
  | nil =>
    intro heap _ _ hgood _
    exact ⟨heap, rfl, hgood, fun a ha => .inl ha, fun a ha => ha, fun q hq => by simp at hq⟩
  | cons q ps ih =>
    intro heap hmem hanti hgood hbelow
    obtain ⟨hq, hmem'⟩ := forall_mem_cons.mp hmem
    have hanti' : Antichain p.ghostdagManager.Parent (· ∈ ps) := fun a b ha hb =>
      hanti a b (mem_cons_of_mem _ ha) (mem_cons_of_mem _ hb)
    have hfinality := dag.reachability finality hf q hq
    have hany : p.ghostdagManager.isDagAncestorOfAny q (heap.blocks.map SortableBlock.hash) =
        some (decide (InPastOf p.ghostdagManager heap.hashes q)) :=
      (dag.isDagAncestorOfAny_eq (.inl hq) heap.hashes fun a ha => hgood.mem_blocks ha).trans
        (congrArg some (decide_eq_decide.mpr Iff.rfl))
    by_cases hpush : InPast p.ghostdagManager.Parent finality q ∧
        ¬InPastOf p.ghostdagManager heap.hashes q
    · obtain ⟨hfq, hnot⟩ := hpush
      -- nothing of the heap is below the parent, since only the candidate was above it
      have hun : ∀ a ∈ heap.hashes, Anticone p.ghostdagManager.Parent q a := by
        refine fun a ha => ⟨fun h => hnot ⟨a, ha, h⟩, fun h => hnot ⟨a, ha, ?_⟩⟩
        rw [hbelow a ha q mem_cons_self h]
        exact ReflTransGen.refl
      obtain ⟨hgood₁, hhashes₁⟩ := hgood.push hq hun
      obtain ⟨heap', heq, hgood', hsub, hsup, hcover⟩ := ih hmem' hanti' hgood₁ (by
        intro a ha q' hq' h
        rcases (hhashes₁ a).mp ha with rfl | ha
        · exact hanti _ q' mem_cons_self (mem_cons_of_mem _ hq') h
        · exact hbelow a ha q' (mem_cons_of_mem _ hq') h)
      obtain ⟨d, hd⟩ := dag.getData_some q hq
      have hsortable := sortableBlock_eq hd
      refine ⟨heap', ?_, hgood', fun a ha => ?_, fun a ha => hsup a ((hhashes₁ a).mpr (.inr ha)),
        fun q' hq' hfq' => ?_⟩
      · rw [VirtualStateProcessor.pushParents, hfinality, decide_eq_true hfq]
        simp only [some_bind_eq, if_true, hany, decide_eq_false hnot, Bool.false_eq_true, if_false,
          hsortable, heq]
      · rcases hsub a ha with ha | ha
        · rcases (hhashes₁ a).mp ha with rfl | ha
          · exact .inr mem_cons_self
          · exact .inl ha
        · exact .inr (mem_cons_of_mem _ ha)
      · rcases mem_cons.mp hq' with rfl | hq'
        · exact ⟨q', hsup q' ((hhashes₁ q').mpr (.inl rfl)), ReflTransGen.refl⟩
        · exact hcover q' hq' hfq'
    · have hcovered : InPast p.ghostdagManager.Parent finality q →
          InPastOf p.ghostdagManager heap.hashes q := by
        intro hfq
        by_contra hnot
        exact hpush ⟨hfq, hnot⟩
      obtain ⟨heap', heq, hgood', hsub, hsup, hcover⟩ := ih hmem' hanti' hgood
        fun a ha q' hq' => hbelow a ha q' (mem_cons_of_mem _ hq')
      refine ⟨heap', ?_, hgood', fun a ha => (hsub a ha).imp_right (mem_cons_of_mem _), hsup,
        fun q' hq' hfq' => ?_⟩
      · rw [VirtualStateProcessor.pushParents, hfinality]
        by_cases hfq : InPast p.ghostdagManager.Parent finality q
        · simp only [decide_eq_true hfq, some_bind_eq, if_true, hany,
            decide_eq_true (hcovered hfq), heq]
        · simp only [decide_eq_false hfq, some_bind_eq, Bool.false_eq_true, if_false, heq]
      · rcases mem_cons.mp hq' with rfl | hq'
        · obtain ⟨a, ha, h⟩ := hcovered hfq'
          exact ⟨a, hsup a ha, h⟩
        · exact hcover q' hq' hfq'

/-- What holds in every round: the candidates are in the past of the tips and cover all the eligible
blocks there, and the diff is that of the diff point. -/
structure SearchInv (p : VirtualStateProcessor M) (sem : UtxoSemantics M) (blocks : Finset Hash)
    (utxoSet : UtxoView) (finality : Hash) (tips : List Hash) (s : Relative M)
    (heap : CandidateHeap) : Prop where
  diff : DiffOf p sem blocks utxoSet s
  good : GoodHeap p.ghostdagManager blocks heap
  inPast : ∀ a ∈ heap.hashes, InPastOf p.ghostdagManager tips a
  covers : ∀ e, Eligible p.ghostdagManager sem blocks finality e →
    InPastOf p.ghostdagManager tips e → InPastOf p.ghostdagManager heap.hashes e

/-- The outcome of the search. -/
structure SinkFound (p : VirtualStateProcessor M) (sem : UtxoSemantics M) (blocks : Finset Hash)
    (utxoSet : UtxoView) (finality : Hash) (tips : List Hash) (result : SinkSearchResult M) :
    Prop where
  eligible : Eligible p.ghostdagManager sem blocks finality result.sink
  inPast : InPastOf p.ghostdagManager tips result.sink
  greatest : ∀ e, Eligible p.ghostdagManager sem blocks finality e →
    InPastOf p.ghostdagManager tips e → p.ghostdagManager.key e ≤ p.ghostdagManager.key result.sink
  antichain : (result.sink :: result.queue).Pairwise (Anticone p.ghostdagManager.Parent)
  sorted : (result.sink :: result.queue).Pairwise fun a b =>
    p.ghostdagManager.key b < p.ghostdagManager.key a
  inPast_queue : ∀ a ∈ result.queue, InPastOf p.ghostdagManager tips a
  diffPoint : result.relative.diffPoint = result.sink
  diff : DiffOf p sem blocks utxoSet result.relative

/-- A rejected candidate is replaced by blocks below it. -/
lemma SearchInv.reject {finality : Hash}
    (hf : finality ∈ blocks ∨ finality = BlockHash.origin)
    (inv : SearchInv p sem blocks utxoSet finality tips s heap)
    (hheap : heap.blocks = top :: l)
    (hrejected : ¬Eligible p.ghostdagManager sem blocks finality top.hash)
    (hexists : ∃ e, Eligible p.ghostdagManager sem blocks finality e ∧
      InPastOf p.ghostdagManager tips e)
    (hs' : DiffOf p sem blocks utxoSet s') :
    ∃ heap', p.replaceCandidate finality top.hash heap.rest = some heap' ∧
      SearchInv p sem blocks utxoSet finality tips s' heap' ∧
      ∀ a ∈ heap'.hashes, p.ghostdagManager.key a < p.ghostdagManager.key top.hash := by
  have hhashes := CandidateHeap.hashes_eq hheap
  have hmem := inv.good.mem_blocks (hhashes ▸ mem_cons_self : top.hash ∈ heap.hashes)
  have hanti := inv.good.antichain
  have hsorted := inv.good.sorted
  rw [hhashes, pairwise_cons] at hanti hsorted
  have hrest : GoodHeap p.ghostdagManager blocks heap.rest := by
    refine ⟨fun b hb => inv.good.stored b ?_, hanti.2⟩
    rw [hheap]
    refine mem_cons_of_mem _ ?_
    simpa [CandidateHeap.rest, hheap] using hb
  -- an eligible block in the past of the candidate is strictly below it
  have hbelow : ∀ e, Eligible p.ghostdagManager sem blocks finality e →
      InPastOf p.ghostdagManager tips e →
      Past p.ghostdagManager.Parent e top.hash ∨ InPastOf p.ghostdagManager heap.rest.hashes e := by
    intro e he hpast
    obtain ⟨a, ha, hea⟩ := inv.covers e he hpast
    rw [hhashes] at ha
    rcases mem_cons.mp ha with rfl | ha
    · rcases hea.eq_or_past with rfl | h
      · exact absurd he hrejected
      · exact .inl h
    · exact .inr ⟨a, ha, hea⟩
  have hne : top.hash ≠ p.ghostdagManager.genesisHash := by
    intro hgenesis
    obtain ⟨e, he, hpast⟩ := hexists
    rcases hbelow e he hpast with h | ⟨a, ha, -⟩
    · exact dag.not_past_genesis he.mem (hgenesis ▸ h)
    · have h := dag.genesis_inPast (hrest.mem_blocks ha)
      exact (hanti.1 a ha).1 (hgenesis ▸ h)
  obtain ⟨ps, hps, hvalid, hwork⟩ := dag.parents top.hash hmem hne
  have hparent : ∀ q ∈ ps, p.ghostdagManager.Parent q top.hash := fun q hq => ⟨ps, hps, hq⟩
  obtain ⟨heap', heq, hgood', hsub, hsup, hcover⟩ := pushParents_spec dag hf ps hvalid.mem_blocks
    hvalid.antichain hrest (by
      intro a ha q hq h
      exact absurd (h.tail (hparent q hq)) (hanti.1 a ha).2)
  refine ⟨heap', ?_, ⟨hs', hgood', fun a ha => ?_, fun e he hpast => ?_⟩, fun a ha => ?_⟩
  · unfold VirtualStateProcessor.replaceCandidate
    rw [hps]
    exact heq
  · rcases hsub a ha with ha | ha
    · exact inv.inPast a (hhashes ▸ mem_cons_of_mem _ ha)
    · obtain ⟨t, ht, hpast⟩ := inv.inPast top.hash (hhashes ▸ mem_cons_self)
      exact ⟨t, ht, ReflTransGen.head (hparent a ha) hpast⟩
  · rcases hbelow e he hpast with h | ⟨a, ha, h⟩
    · -- the block is below one of the parents, which is above the finality point
      obtain ⟨q, hq, heq'⟩ := Dag.past_iff.mp h
      obtain ⟨a, ha, hqa⟩ := hcover q ((parent_iff hps).mp hq) (he.finality.inPast.trans heq')
      exact ⟨a, ha, heq'.trans hqa⟩
    · exact ⟨a, hsup a ha, h⟩
  · rcases hsub a ha with ha | ha
    · exact hsorted.1 a ha
    · exact dag.key_lt_of_past (TransGen.single (hparent a ha)) (hvalid.mem_blocks a ha)

/-! ## The rounds -/

/-- The number of stored blocks up to the given one. -/
noncomputable def rank (m : GhostdagManager) (blocks : Finset Hash) (b : Hash) : ℕ :=
  (blocks.filter fun c => m.key c ≤ m.key b).card

omit dag [MultisetHash M] in
lemma rank_lt {a b : Hash} (hb : b ∈ blocks) (h : m.key a < m.key b) :
    rank m blocks a < rank m blocks b := by
  refine Finset.card_lt_card (Finset.ssubset_iff_of_subset ?_ |>.mpr ⟨b, ?_, ?_⟩)
  · intro c hc
    rw [Finset.mem_filter] at hc ⊢
    exact ⟨hc.1, hc.2.trans h.le⟩
  · exact Finset.mem_filter.mpr ⟨hb, le_refl _⟩
  · intro hmem
    exact absurd (Finset.mem_filter.mp hmem).2 (not_le.mpr h)

variable (tree : p.ghostdagManager.ChainTree blocks)
  (hserves : p.reachabilityService.Serves p.ghostdagManager blocks)
  (hagree : EntriesAgree (statesOf sem utxoSet)) {finality : Hash}
  (hf : finality ∈ blocks ∨ finality = BlockHash.origin)
  (hchain : ∀ b ∈ blocks, p.reachabilityService.isChainAncestorOf finality b =
    some (decide (p.ghostdagManager.OnChain finality b)))
  (hroot : ∀ b ∈ blocks, ∃ root, p.mergeDepthRoot b = some root)

include tree hserves hagree hf hchain hroot

omit tree hserves hagree hf hchain in
/-- The search ends at the first eligible candidate. -/
lemma SearchInv.found (inv : SearchInv p sem blocks utxoSet finality tips s heap)
    (hheap : heap.blocks = top :: l)
    (heligible : Eligible p.ghostdagManager sem blocks finality top.hash)
    (hs' : DiffOf p sem blocks utxoSet s') (hpoint : s'.diffPoint = top.hash) :
    ∃ queue, p.remainingCandidates top.hash heap.rest = some queue ∧
      SinkFound p sem blocks utxoSet finality tips ⟨s', top.hash, queue⟩ := by
  have hhashes := CandidateHeap.hashes_eq hheap
  obtain ⟨root, hroot⟩ := hroot top.hash heligible.mem
  unfold VirtualStateProcessor.remainingCandidates
  rw [hroot]
  refine ⟨_, rfl, ?_⟩
  -- the queue is the heap up to the first block of lower blue work
  have hsublist : ((heap.rest.blocks.takeWhile fun s =>
      decide ((p.ghostdagManager.getBlueWork root).getD 0 ≤ s.blueWork)).map
        SortableBlock.hash).Sublist heap.rest.hashes :=
    (takeWhile_sublist _).map _
  have hcons := List.Sublist.cons_cons top.hash hsublist
  rw [← hhashes] at hcons
  refine ⟨heligible, inv.inPast _ (hhashes ▸ mem_cons_self), fun e he hpast => ?_,
    inv.good.antichain.sublist hcons, inv.good.sorted.sublist hcons,
    fun a ha => inv.inPast a (hcons.subset (mem_cons_of_mem _ ha)), hpoint, hs'⟩
  obtain ⟨a, ha, hea⟩ := inv.covers e he hpast
  have hle : p.ghostdagManager.key e ≤ p.ghostdagManager.key a := by
    rcases hea.eq_or_past with rfl | h
    · exact le_refl _
    · exact (dag.key_lt_of_past h he.mem).le
  have hsorted := inv.good.sorted
  rw [hhashes, pairwise_cons] at hsorted
  rw [hhashes] at ha
  rcases mem_cons.mp ha with rfl | ha
  · exact hle
  · exact hle.trans (hsorted.1 a ha).le

lemma searchSink_spec
    (hexists : ∃ e, Eligible p.ghostdagManager sem blocks finality e ∧
      InPastOf p.ghostdagManager tips e)
    (n : ℕ) : ∀ {s : Relative M} {heap : CandidateHeap},
      SearchInv p sem blocks utxoSet finality tips s heap →
      (∀ a ∈ heap.hashes, rank p.ghostdagManager blocks a ≤ n) →
      ∃ result enough, SinkFound p sem blocks utxoSet finality tips result ∧
        ∀ stateFuel, enough ≤ stateFuel → ∀ fuel, n < fuel →
          p.searchSink stateFuel utxoSet finality fuel s heap = some result := by
  induction n with
  | zero =>
    intro s heap inv hrank
    obtain ⟨e, he, hpast⟩ := hexists
    obtain ⟨a, ha, -⟩ := inv.covers e he hpast
    -- the block itself counts in its rank
    have hpos : 0 < rank p.ghostdagManager blocks a :=
      Finset.card_pos.mpr ⟨a, Finset.mem_filter.mpr ⟨inv.good.mem_blocks ha, le_refl _⟩⟩
    have := hrank a ha
    omega
  | succ n ih =>
    intro s heap inv hrank
    obtain ⟨e, he, hpast⟩ := hexists
    obtain ⟨a, ha, -⟩ := inv.covers e he hpast
    obtain ⟨top, l, hheap⟩ : ∃ top l, heap.blocks = top :: l := by
      cases hblocks : heap.blocks with
      | nil => simp [CandidateHeap.hashes, hblocks] at ha
      | cons top l => exact ⟨top, l, rfl⟩
    have htop : top.hash ∈ heap.hashes := by
      rw [CandidateHeap.hashes_eq hheap]
      exact mem_cons_self
    have hmem := inv.good.mem_blocks htop
    have hhead : heap.blocks.head? = some top := by
      rw [hheap]
      rfl
    have hquery := hchain top.hash hmem
    -- after a rejection all candidates have a smaller rank
    have hnext : ∀ s', DiffOf p sem blocks utxoSet s' →
        ¬Eligible p.ghostdagManager sem blocks finality top.hash →
        ∃ heap' result enough, p.replaceCandidate finality top.hash heap.rest = some heap' ∧
          SinkFound p sem blocks utxoSet finality tips result ∧
          ∀ stateFuel, enough ≤ stateFuel → ∀ fuel, n < fuel →
            p.searchSink stateFuel utxoSet finality fuel s' heap' = some result := by
      intro s' hs' hrejected
      obtain ⟨heap', heq, inv', hlt⟩ :=
        inv.reject dag hf hheap hrejected ⟨e, he, hpast⟩ hs'
      obtain ⟨result, enough, hfound, hsearch⟩ := ih inv' fun b hb => by
        have hb' := rank_lt hmem (hlt b hb)
        have := hrank top.hash htop
        omega
      exact ⟨heap', result, enough, heq, hfound, hsearch⟩
    by_cases hon : p.ghostdagManager.OnChain finality top.hash
    · obtain ⟨s', ⟨enough₁, hreturns⟩, hs', hvalid, -⟩ :=
        calculateUtxoStateRelatively_spec tree hserves hagree inv.diff hmem
      by_cases hpoint : s'.diffPoint = top.hash
      · obtain ⟨queue, hqueue, hfound⟩ :=
          inv.found dag hroot hheap ⟨hmem, hon, hvalid.mpr hpoint⟩ hs' hpoint
        refine ⟨_, enough₁, hfound, fun stateFuel hstate fuel hfuel => ?_⟩
        obtain _ | fuel := fuel
        · omega
        simp only [VirtualStateProcessor.searchSink, hhead, hquery, decide_eq_true hon,
          some_bind_eq, if_true, hreturns stateFuel hstate, if_pos hpoint,
          hqueue, Option.pure_def]
      · obtain ⟨heap', result, enough, heq, hfound, hsearch⟩ := hnext s' hs' fun he =>
          hpoint (hvalid.mp he.valid)
        refine ⟨result, max enough₁ enough, hfound, fun stateFuel hstate fuel hfuel => ?_⟩
        obtain _ | fuel := fuel
        · omega
        simp only [VirtualStateProcessor.searchSink, hhead, hquery, decide_eq_true hon,
          some_bind_eq, if_true, hreturns stateFuel (by omega),
          if_neg hpoint, heq]
        exact hsearch stateFuel (by omega) fuel (by omega)
    · obtain ⟨heap', result, enough, heq, hfound, hsearch⟩ := hnext s inv.diff fun he =>
        hon he.finality
      refine ⟨result, enough, hfound, fun stateFuel hstate fuel hfuel => ?_⟩
      obtain _ | fuel := fuel
      · omega
      simp only [VirtualStateProcessor.searchSink, hhead, hquery, decide_eq_false hon,
        some_bind_eq, Bool.false_eq_true, if_false, heq]
      exact hsearch stateFuel hstate fuel (by omega)

/-- For an antichain of tips with an eligible block in its past, `sink_search_algorithm` returns the
greatest eligible block in the inclusive past of the tips by blue work and hash. The sink and the
returned queue are a duplicate-free antichain in descending order, and the diff is that of the sink
from virtual. -/
theorem sinkSearchAlgorithm_greatest {tips : List Hash} {s : Relative M}
    (hs : DiffOf p sem blocks utxoSet s) (htips : ∀ t ∈ tips, t ∈ blocks)
    (hanti : tips.Pairwise (Anticone p.ghostdagManager.Parent))
    (hexists : ∃ e, Eligible p.ghostdagManager sem blocks finality e ∧
      InPastOf p.ghostdagManager tips e) :
    ∃ result, Fuel.Returns (fun fuel => p.sinkSearchAlgorithm fuel utxoSet s tips finality)
        result ∧
      Eligible p.ghostdagManager sem blocks finality result.sink ∧
      InPastOf p.ghostdagManager tips result.sink ∧
      (∀ e, Eligible p.ghostdagManager sem blocks finality e →
        InPastOf p.ghostdagManager tips e →
        p.ghostdagManager.key e ≤ p.ghostdagManager.key result.sink) ∧
      (result.sink :: result.queue).Nodup ∧
      (result.sink :: result.queue).Pairwise (Anticone p.ghostdagManager.Parent) ∧
      ((result.sink :: result.queue).Pairwise fun a b =>
        p.ghostdagManager.key b < p.ghostdagManager.key a) ∧
      utxoSet.compose result.relative.diff = sem.state result.sink := by
  obtain ⟨hgood, hhashes⟩ := goodHeap_collect tips htips hanti
  have inv : SearchInv p sem blocks utxoSet finality tips s
      (.collect (tips.map fun b => ⟨b, p.ghostdagManager.blueWork b⟩)) := by
    refine ⟨hs, hgood, fun a ha => ⟨a, (hhashes a).mp ha, ReflTransGen.refl⟩, fun e _ hpast => ?_⟩
    obtain ⟨t, ht, h⟩ := hpast
    exact ⟨t, (hhashes t).mpr ht, h⟩
  obtain ⟨result, enough, hfound, hsearch⟩ := searchSink_spec dag tree hserves hagree hf hchain
    hroot hexists blocks.card inv fun a _ => Finset.card_filter_le _ _
  refine ⟨result, ⟨max enough (blocks.card + 1), fun fuel hfuel => ?_⟩, hfound.eligible,
    hfound.inPast, hfound.greatest, hfound.antichain.imp fun h => h.ne, hfound.antichain,
    hfound.sorted, ?_⟩
  · have hblocks : tips.mapM p.ghostdagManager.sortableBlock =
        some (tips.map fun b => ⟨b, p.ghostdagManager.blueWork b⟩) :=
      mapM_sortableBlock fun t ht => dag.getData_some t (htips t ht)
    unfold VirtualStateProcessor.sinkSearchAlgorithm
    rw [hblocks]
    exact hsearch fuel (by omega) fuel (by omega)
  · rw [hfound.diff.view_eq, hfound.diffPoint]

end search

/-- The sink below the tips `3` and `2`, of which `3` is disqualified, and below the tip `4`, where
`4` and then `3` are rejected. -/
theorem sinkSearchAlgorithm_onDiamond : ∃ result result',
      Fuel.Returns (fun fuel => onDiamond.sinkSearchAlgorithm fuel (diamondState 2)
        ⟨diamondStores .statusDisqualifiedFromChain, .default, 2⟩ [3, 2] 1) result ∧
      result.sink = 2 ∧
      Fuel.Returns (fun fuel => onDiamond.sinkSearchAlgorithm fuel (diamondState 2)
        ⟨diamondStores .statusDisqualifiedFromChain, .default, 2⟩ [4] 1) result' ∧
      result'.sink = 2 := by
  have inv := built_diamond.storeInv
  have dag := inv.mergedDag
  have hs : DiffOf onDiamond (diamondSemantics {2, 1}) {4, 3, 2, 1} (diamondState 2)
      ⟨diamondStores .statusDisqualifiedFromChain, .default, 2⟩ :=
    ⟨diamondStores_correct (.inr ⟨rfl, rfl⟩), by decide, rfl, validOver_default _,
      compose_default _⟩
  have h2 : Eligible diamond (diamondSemantics {2, 1}) {4, 3, 2, 1} 1 2 :=
    ⟨by decide, dag.chainTree.genesis_onChain (by decide),
      (by decide : (2 : Hash) ∈ ({2, 1} : Finset Hash))⟩
  have hsearch : ∀ tips : List Hash, (∀ t ∈ tips, t ∈ ({4, 3, 2, 1} : Finset Hash)) →
      tips.Pairwise (Anticone diamond.Parent) → InPastOf diamond tips 2 → ∃ result,
        Fuel.Returns (fun fuel => onDiamond.sinkSearchAlgorithm fuel (diamondState 2)
          ⟨diamondStores .statusDisqualifiedFromChain, .default, 2⟩ tips 1) result ∧
        result.sink = 2 := by
    intro tips htips hanti hpast
    obtain ⟨result, hreturns, heligible, -, hgreatest, -⟩ :=
      sinkSearchAlgorithm_greatest (p := onDiamond) dag.toWorkDag dag.chainTree onDiamond_serves
        (diamond_entriesAgree {2, 1}) (.inl (by decide : (1 : Hash) ∈ _))
        (onDiamond_serves.isChainAncestorOf 1 (by decide)) (fun b _ => ⟨1, rfl⟩) hs htips hanti
        ⟨2, h2, hpast⟩
    refine ⟨result, hreturns, ?_⟩
    -- of the valid blocks, `2` has the greater key
    have hvalid : result.sink ∈ ({2, 1} : Finset Hash) := heligible.valid
    rcases Finset.mem_insert.mp hvalid with h | h
    · exact h
    · have hle := hgreatest 2 h2 hpast
      rw [Finset.mem_singleton.mp h] at hle
      exact absurd hle (by decide +kernel : ¬diamond.key 2 ≤ diamond.key 1)
  have hpast : InPast diamond.Parent 2 4 :=
    (inv.inPast_iff h2.mem (by decide)).mpr (by decide +kernel)
  obtain ⟨result, hreturns, hsink⟩ := hsearch [3, 2] (by decide) (pairwise_pair.mpr anticone_diamond)
    ⟨2, by decide, InPast.refl 2⟩
  obtain ⟨result', hreturns', hsink'⟩ := hsearch [4] (by decide) (pairwise_singleton _ _)
    ⟨4, by decide, hpast⟩
  exact ⟨result, result', hreturns, hsink, hreturns', hsink'⟩

/-- The block `4` has the parents `2` and `3`, where `2` is the parent of `3`. -/
def relatedSides : Option GhostdagManager :=
  [⟨2, [1], 1, 0x207fffff⟩, ⟨3, [2], 1, 0x207fffff⟩, ⟨4, [2, 3], 1, 0x207fffff⟩].foldlM
    (addBlock 20) (fromGenesis ⟨1, [], 0, 0x207fffff⟩ (ForkedParam.newConst 1) 0)

/-- Stores in which genesis is the sink and one block is known to be disqualified. -/
def genesisStores (disqualified : Hash) : UtxoStores Unit where
  statuses b := some (if b = 1 then .statusUTXOValid
    else if b = disqualified then .statusDisqualifiedFromChain
    else .statusUTXOPendingVerification)
  utxoDiffs b := if b = 1 then some .default else none
  utxoMultisets b := if b = 1 then some () else none
  acceptanceData b := if b = 1 then some [] else none
  pruningSamples _ := none

/-- The search from genesis, over blocks with coinbases only. -/
def searchOver (m : GhostdagManager) (disqualified : Hash) (tips : List Hash) :
    Option (Hash × List Hash) :=
  ((coinbasesOnly m).sinkSearchAlgorithm 20 (fun _ => none)
    ⟨genesisStores disqualified, .default, 1⟩ tips 1).map fun r => (r.sink, r.queue)

/-- Where the parents of a rejected block are related, the sink `3` comes with a candidate of its own
past. Where headers have no work (bits `0`) or blue work wraps, the sink `5` is not the greatest
block: its parent `9` is eligible too. -/
theorem sinkSearchAlgorithm_wrong : (relatedSides.bind fun m => m.getParents 3) = some [2] ∧
    (relatedSides.bind fun m => searchOver m 4 [4]) = some (3, [2]) ∧ ∀ bits ∈ [0, 0x09010000],
      ((mergedChain bits).bind fun m => m.getParents 5) = some [9] ∧
      ((mergedChain bits).map fun m => decide (m.blueWork 5 ≤ m.blueWork 9)) = some true ∧
      ((mergedChain bits).bind fun m => searchOver m 0 [9]) = some (9, []) ∧
      ((mergedChain bits).bind fun m => searchOver m 0 [5]) = some (5, []) := by
  decide +kernel

end LapisMonetae.Virtual
