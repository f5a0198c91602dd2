import LapisMonetae.Ghostdag.GrowthTheorems

/-!
# Agreement between nodes

Nodes receive blocks in different orders, and one node may know blocks that another one does not
know. `ghostdag` only reads the past of a new block, so the data of a block is the same at all
times and on all nodes.
-/

namespace LapisMonetae.Ghostdag
namespace GhostdagManager

open Dag Classical List Option Fuel

variable {m m' : GhostdagManager} {blocks blocks' : Finset Hash}

/-! ## What `ghostdag` reads -/

namespace Extends

variable (ext : m.Extends m' blocks) (inv : m.StoreInv blocks) (inv' : m'.StoreInv blocks')
  (hsub : blocks ⊆ blocks') {fuel k : ℕ} {d : GhostdagData} {c : Hash}

include ext inv inv' hsub

lemma isDagAncestorOf {a b : Hash} (ha : a ∈ blocks) (hb : b ∈ blocks) :
    m'.isDagAncestorOf a b = m.isDagAncestorOf a b := by
  rw [inv.reachability a (.inl ha) b hb, inv'.reachability a (.inl (hsub ha)) b (hsub hb)]
  exact congrArg some (decide_eq_decide.mpr (ext.inPast_iff inv.workDag hb))

lemma checkPeers (hsp : d.selectedParent ∈ blocks) (hc : c ∈ blocks) (peers : List Hash)
    (hpeers : ∀ x ∈ peers, x ∈ blocks) :
    m'.checkPeers fuel d c k peers = m.checkPeers fuel d c k peers := by
  induction peers with
  | nil => rfl
  | cons peer rest ih =>
    funext sizes size
    simp only [GhostdagManager.checkPeers, blueAnticoneSize,
      ih fun x hx => hpeers x (mem_cons_of_mem _ hx),
      ext.isDagAncestorOf inv inv' hsub (hpeers peer mem_cons_self) hc,
      ext.blueAnticoneSizeLoop inv _ _ (.inl hsp)]

/-- The walk stops at genesis at the latest, which is in the past of the candidate. -/
lemma checkChain (hsp : d.selectedParent ∈ blocks) (hc : c ∈ blocks) : ∀ n hash e sizes size,
    (∀ b, hash = some b → b ∈ blocks) → (hash ≠ some m.genesisHash →
      e.selectedParent ∈ blocks ∧ ∀ x ∈ e.mergesetBlues, x ∈ blocks) →
    m'.checkChain fuel d c k n hash e sizes size = m.checkChain fuel d c k n hash e sizes size := by
  intro n
  induction n with
  | zero => exact fun _ _ _ _ _ _ => rfl
  | succ n ih =>
    intro hash e sizes size hhash hreads
    have hpast : ∀ b, hash = some b → m'.isDagAncestorOf b c = m.isDagAncestorOf b c :=
      fun b hb => ext.isDagAncestorOf inv inv' hsub (hhash b hb) hc
    rw [GhostdagManager.checkChain, GhostdagManager.checkChain]
    by_cases hg : hash = some m.genesisHash
    · have hgenesis := inv.reachability _ (.inl inv.genesis_mem) c hc
      rw [decide_eq_true (inv.workDag.genesis_inPast hc)] at hgenesis
      simp only [hg, checkBlueCandidateWithChainBlock, hpast _ hg, hgenesis, some_bind_eq, if_true]
      rfl
    obtain ⟨hmem, hblues⟩ := hreads hg
    have hstep : m'.checkBlueCandidateWithChainBlock fuel d hash e c sizes size k =
        m.checkBlueCandidateWithChainBlock fuel d hash e c sizes size k := by
      have hpeers : m'.checkPeers fuel d c k e.mergesetBlues = m.checkPeers fuel d c k _ :=
        ext.checkPeers inv inv' hsub hsp hc _ hblues
      cases hash with
      | none => simp only [checkBlueCandidateWithChainBlock, hpeers]
      | some b => simp only [checkBlueCandidateWithChainBlock, hpast b rfl, hpeers]
    obtain ⟨e', he'⟩ := inv.getData_some hmem
    rw [hstep, ext.getData _ hmem, he']
    refine congrArg _ (funext fun result => ?_)
    obtain ⟨state, sizes, size⟩ := result
    cases state with
    | blue => rfl
    | red => rfl
    | pending =>
      refine ih _ e' _ _ (fun b hb => some.inj hb ▸ hmem) fun hne => ?_
      obtain ⟨_, link⟩ := inv.chainLink hmem (fun heq => hne (congrArg some heq)) he'
      exact ⟨link.mem_blocks, link.blues_mem⟩

lemma colorMergeset (l : List Hash) : ∀ d : GhostdagData, (∀ c ∈ l, c ∈ blocks) →
    d.selectedParent ∈ blocks → (∀ x ∈ d.mergesetBlues, x ∈ blocks) →
    m'.colorMergeset fuel k l d = m.colorMergeset fuel k l d := by
  induction l with
  | nil => exact fun _ _ _ _ => rfl
  | cons c l ih =>
    intro d hl hsp hblues
    have hc := hl c mem_cons_self
    have hl := fun x hx => hl x (mem_cons_of_mem _ hx)
    have hcheck : m'.checkBlueCandidate fuel d c k = m.checkBlueCandidate fuel d c k := by
      simp only [checkBlueCandidate, ext.checkChain inv inv' hsub hsp hc fuel none d ∅ 0 (by simp)
        fun _ => ⟨hsp, hblues⟩]
    rw [GhostdagManager.colorMergeset, GhostdagManager.colorMergeset, hcheck]
    refine congrArg _ (funext fun color => ?_)
    cases color with
    | none => exact ih _ hl hsp hblues
    | some sizes =>
      refine ih _ hl hsp fun x hx => ?_
      rcases mem_append.mp hx with hx | hx
      · exact hblues x hx
      · exact mem_singleton.mp hx ▸ hc

/-- A node with more blocks computes the same data. -/
lemma ghostdag_returns {parents : List Hash} (hvalid : m.ValidParents blocks parents)
    (h : Returns (fun fuel => m.ghostdag fuel parents) d) :
    Returns (fun fuel => m'.ghostdag fuel parents) d := by
  have hvalid' := ext.validParents inv.workDag hsub hvalid
  obtain ⟨sp, hspMem, hfind, hmax⟩ := inv.workDag.findSelectedParent_spec hvalid
  have hsp := hvalid.mem_blocks sp hspMem
  have hne := inv.ne_origin hsp
  have hfind' : m'.findSelectedParent parents = some sp := by
    refine inv'.workDag.findSelectedParent_eq hvalid' hspMem fun p hp => ?_
    rw [ext.key (hvalid.mem_blocks p hp), ext.key hsp]
    exact hmax p hp
  obtain ⟨n, hn⟩ := h
  have hk : ∀ sp', m'.findSelectedParent parents = some sp' → m'.kOf sp' + 1 < 2 ^ 16 := by
    intro sp' hsp'
    obtain rfl := some.inj (hfind'.symm.trans hsp')
    rw [ext.kOf hsp]
    exact (ghostdag_eq_some (hn n le_rfl) hfind hne).1
  obtain ⟨d', ⟨n', hn'⟩, -⟩ := ghostdag_spec inv' hvalid' hk
  -- both runs with one fuel
  let fuel := n + n' + parents.length + blocks.card + blocks'.card + 1
  obtain ⟨-, merged, colored, parentData, works, hmerged, hcolor, hparent, hworks, hd⟩ :=
    ghostdag_eq_some (hn fuel (by omega)) hfind hne
  obtain ⟨-, merged', colored', parentData', works', hmerged', hcolor', hparent', hworks', hd'⟩ :=
    ghostdag_eq_some (hn' fuel (by omega)) hfind' hne
  obtain ⟨_, hrun, hordered⟩ := orderedMergeset_spec inv.workDag hvalid hspMem
    (show parents.length + blocks.card < fuel by omega)
  obtain rfl := some.inj (hmerged.symm.trans hrun)
  obtain ⟨_, hrun', hordered'⟩ := orderedMergeset_spec inv'.workDag hvalid' hspMem
    (show parents.length + blocks'.card < fuel by omega)
  obtain rfl := some.inj (hmerged'.symm.trans hrun')
  obtain rfl : merged' = merged := OrderedMergeset.unique (Perm.refl _)
    (ext.orderedMergeset inv.workDag hvalid.mem_blocks hsp hordered) hordered'
  have hmergedMem := fun x hx => inv.workDag.mem_of_merged hvalid.mem_blocks hsp hordered
    (x := x) hx
  have hblues : ∀ x ∈ (GhostdagData.newWithSelectedParent sp).mergesetBlues, x ∈ blocks :=
    fun x hx => mem_singleton.mp hx ▸ hsp
  rw [ext.kOf hsp, ext.colorMergeset inv inv' hsub merged' _ hmergedMem hsp hblues] at hcolor'
  obtain rfl := some.inj (hcolor.symm.trans hcolor')
  obtain rfl := some.inj (hparent.symm.trans ((ext.getData sp hsp).symm.trans hparent'))
  have hworksEq : works' = works := by
    rw [eq_map_of_mapM hworks, eq_map_of_mapM hworks']
    refine map_congr_left fun x hx => ?_
    obtain ⟨-, blues, -, hall, -, -, hblue, -⟩ := colorMergeset_deals _ hcolor
    rw [hall, mem_append] at hx
    rw [ext.blockWork x (hx.elim (hblues x) fun hx => hmergedMem x (hblue.subset hx))]
  refine ⟨n', fun fuel hfuel => ?_⟩
  rw [hn' fuel hfuel, hd, hd', hworksEq]

end Extends

/-! ## Runs -/

/-- Running `ghostdag` again on the parents of a stored block, at any time after the block was
added, returns the data that is stored for it. -/
lemma Built.ghostdag_stored (h : Built m blocks) : ∀ b ∈ blocks, b ≠ m.genesisHash →
    ∃ ps d, m.getParents b = some ps ∧ m.getData b = some d ∧ m.ValidParents blocks ps ∧
      Returns (fun fuel => m.ghostdag fuel ps) d := by
  induction h with
  | genesis header k levelWork hne hwork =>
    exact fun b hb hbne => absurd (Finset.mem_singleton.mp hb) hbne
  | @add m blocks hm header hadm fuel data hdata hrange ih =>
    intro b hb hbne
    have ext := hadm.extends data
    have inv := hm.storeInv
    have inv' := (hm.add header hadm hdata hrange).storeInv
    have hsub : blocks ⊆ insert header.hash blocks := Finset.subset_insert _ _
    by_cases hnew : b = header.hash
    · subst hnew
      exact ⟨header.parents, data, Function.update_self _ _ _, Function.update_self _ _ _,
        ext.validParents inv.workDag hsub hadm.parents, ext.ghostdag_returns inv inv' hsub
          hadm.parents ((ghostdag_stable _).returns hdata)⟩
    · have hb := Finset.mem_of_mem_insert_of_ne hb hnew
      obtain ⟨ps, d, hps, hd, hvalid, hreturns⟩ := ih b hb hbne
      exact ⟨ps, d, (ext.getParents b (.inl hb)).trans hps, (ext.getData b hb).trans hd,
        ext.validParents inv.workDag hsub hvalid,
        ext.ghostdag_returns inv inv' hsub hvalid hreturns⟩

/-- The headers of the blocks are the same in both stores, over the same genesis and parameters. -/
structure SameHeaders (m m' : GhostdagManager) (blocks : Finset Hash) : Prop where
  genesisHash : m'.genesisHash = m.genesisHash
  k : m'.k = m.k
  getParents : ∀ b ∈ blocks, m'.getParents b = m.getParents b
  getDaaScore : ∀ b ∈ blocks, m'.getDaaScore b = m.getDaaScore b
  blockWork : ∀ b ∈ blocks, m'.blockWork b = m.blockWork b

/-- A node that knows all the blocks of another one, received in any order and among any others,
stores the same data for them, and computes the same data for a new block over them. -/
theorem Built.ghostdag_agrees (h : Built m blocks) (h' : Built m' blocks') (hsub : blocks ⊆ blocks')
    (hsame : m.SameHeaders m' blocks) : (∀ b ∈ blocks, m'.getData b = m.getData b) ∧
      ∀ parents d, m.ValidParents blocks parents →
        Returns (fun fuel => m.ghostdag fuel parents) d →
        Returns (fun fuel => m'.ghostdag fuel parents) d := by
  suffices ext : m.Extends m' blocks from ⟨ext.getData, fun parents d hvalid hreturns =>
    ext.ghostdag_returns h.storeInv h'.storeInv hsub hvalid hreturns⟩
  induction h with
  | genesis header k levelWork hne hwork =>
    have inv := (Built.genesis header k levelWork hne hwork).storeInv
    have horigin := h'.storeInv.origin_parents.trans inv.origin_parents.symm
    refine ⟨hsame.genesisHash, hsame.k, fun b hb => ?_, ?_, hsame.getDaaScore, hsame.blockWork⟩
    · obtain rfl := Finset.mem_singleton.mp hb
      exact (hsame.genesisHash ▸ h'.storeInv.genesis_data).trans inv.genesis_data.symm
    · exact fun b hb => hb.elim (hsame.getParents b) fun hb => hb ▸ horigin
  | @add m blocks hm header hadm fuel data hdata hrange ih =>
    have hold : blocks ⊆ insert header.hash blocks := Finset.subset_insert _ _
    have added := hadm.extends data
    have inv := hm.storeInv
    have ext : m.Extends m' blocks := ih (hold.trans hsub) ⟨hsame.genesisHash, hsame.k,
      fun b hb => (hsame.getParents b (hold hb)).trans (added.getParents b (.inl hb)),
      fun b hb => (hsame.getDaaScore b (hold hb)).trans (added.getDaaScore b hb),
      fun b hb => (hsame.blockWork b (hold hb)).trans (added.blockWork b hb)⟩
    refine ⟨hsame.genesisHash, hsame.k, fun b hb => ?_, fun b hb => ?_, hsame.getDaaScore,
      hsame.blockWork⟩
    · by_cases hnew : b = header.hash
      · -- the other node has computed the data for the same parents
        subst hnew
        have hne : header.hash ≠ m'.genesisHash := fun heq =>
          hadm.hash_notMem ((heq.trans hsame.genesisHash) ▸ inv.genesis_mem)
        obtain ⟨ps, d, hps, hd, -, hreturns⟩ := h'.ghostdag_stored _ (hsub hb) hne
        have hparents : m'.getParents header.hash = some header.parents :=
          (hsame.getParents _ hb).trans (Function.update_self _ _ _)
        obtain rfl := some.inj (hparents.symm.trans hps)
        have hcomputed := ext.ghostdag_returns inv h'.storeInv (hold.trans hsub) hadm.parents
          ((ghostdag_stable _).returns hdata)
        rw [hd, hreturns.unique hcomputed]
        exact (Function.update_self header.hash (some data) m.getData).symm
      · have hb := Finset.mem_of_mem_insert_of_ne hb hnew
        exact (ext.getData b hb).trans (added.getData b hb).symm
    · rcases hb with hb | rfl
      · exact hsame.getParents b hb
      · exact (ext.getParents _ (.inr rfl)).trans (added.getParents _ (.inr rfl)).symm

/-- The second side of the diamond. -/
def diamondRight : GhostdagManager :=
  (addBlock 20 diamondGenesis ⟨3, [1], 1, 0x207fffff⟩).getD diamondGenesis

/-- The sides of the diamond, received in the other order. -/
def diamondSwapped : GhostdagManager :=
  (addBlock 20 diamondRight ⟨2, [1], 1, 0x207fffff⟩).getD diamondRight

/-- The merging block gets the same data over the sides in either order. -/
theorem diamondSwapped_agrees : ∃ d,
    Returns (fun fuel => diamondSides.ghostdag fuel [2, 3]) d ∧
      Returns (fun fuel => diamondSwapped.ghostdag fuel [2, 3]) d := by
  have hgenesis : Built diamondGenesis {1} :=
    Built.genesis _ _ _ (by decide) ⟨2, by decide, by decide +kernel⟩
  have hright : Built diamondRight {3, 1} := hgenesis.next (by decide +kernel)
  have hswapped : Built diamondSwapped {2, 3, 1} := hright.next (by decide +kernel)
  obtain ⟨d, hd⟩ := isSome_iff_exists.mp
    (by decide +kernel : (diamondSides.ghostdag 20 [2, 3]).isSome = true)
  have hreturns := (ghostdag_stable [2, 3]).returns hd
  exact ⟨d, hreturns, (built_diamondSides.ghostdag_agrees hswapped (by decide)
    ⟨by decide +kernel, by rfl, by decide +kernel, by decide +kernel, by decide +kernel⟩).2 _ d
      validParents_diamondSides hreturns⟩

end GhostdagManager
end LapisMonetae.Ghostdag
