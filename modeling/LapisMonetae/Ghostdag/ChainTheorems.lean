import LapisMonetae.Ghostdag.Chain
import LapisMonetae.Lib.Fuel

/-!
# Facts about selected chains

Selected chains are chains of the DAG that end in genesis, the iterator walks up along them, and
each block adds its mergeset to the past of its selected parent.
-/

namespace LapisMonetae.Ghostdag
namespace GhostdagManager

open Dag Relation Classical List Option ReflTransGen

variable {m : GhostdagManager} {blocks : Finset Hash}
variable {a b : Hash}

/-! ## Chains -/

lemma SelectedParent.unique {p q : Hash} (hp : m.SelectedParent p b) (hq : m.SelectedParent q b) :
    p = q := by
  obtain ⟨-, d, hd, rfl⟩ := hp
  obtain ⟨-, d', hd', rfl⟩ := hq
  obtain rfl := some.inj (hd.symm.trans hd')
  rfl

lemma OnChain.inPast (h : m.OnChain a b) : InPast m.Parent a b :=
  InPast.of_path (fun _ _ h => h.1) h

lemma OnChain.total {a' : Hash} (h : m.OnChain a b) (h' : m.OnChain a' b) :
    m.OnChain a a' ∨ m.OnChain a' a := by
  have hunique : Relator.RightUnique (Function.swap m.SelectedParent) :=
    fun _ _ _ h1 h2 => SelectedParent.unique h1 h2
  have hswap : ∀ {x y}, ReflTransGen (Function.swap m.SelectedParent) x y ↔ m.OnChain y x :=
    reflTransGen_swap
  rcases total_of_right_unique hunique (hswap.mpr h) (hswap.mpr h') with h | h
  · exact .inr (hswap.mp h)
  · exact .inl (hswap.mp h)

/-- A chain below a block is the block itself or goes through its selected parent. -/
lemma OnChain.cases_selectedParent {sp : Hash} (h : m.OnChain a b) (hsp : m.SelectedParent sp b) :
    a = b ∨ m.OnChain a sp := by
  rcases cases_tail h with h | ⟨p, hap, hp⟩
  · exact .inl h.symm
  · rw [hsp.unique hp]
    exact .inr hap

/-- `l` is the chain from `a` up to `b`, without `a`. -/
inductive ChainUp (m : GhostdagManager) (b : Hash) : Hash → List Hash → Prop
  | here : ChainUp m b b []
  | step {a c : Hash} {l : List Hash} (hac : m.SelectedParent a c) (hrest : ChainUp m b c l) :
      ChainUp m b a (c :: l)

namespace ChainUp

variable {a b : Hash} {l : List Hash}

lemma onChain (h : m.ChainUp b a l) : m.OnChain a b := by
  induction h with
  | here => exact refl
  | step hac _ ih => exact head hac ih

lemma snoc {p : Hash} (h : m.ChainUp p a l) (hp : m.SelectedParent p b) :
    m.ChainUp b a (l ++ [b]) := by
  induction h with
  | here => exact .step hp .here
  | step hac _ ih => exact .step hac ih

/-- A block on the chain of `b` is above `a`, or on the chain of `a`. -/
lemma mem_or_onChain {c : Hash} (h : m.ChainUp b a l) (hc : m.OnChain c b) :
    c ∈ l ∨ m.OnChain c a := by
  induction h with
  | here => exact .inr hc
  | step hac _ ih =>
    rcases ih with h | h
    · exact .inl (mem_cons_of_mem _ h)
    · rcases h.cases_selectedParent hac with rfl | h
      · exact .inl mem_cons_self
      · exact .inr h

end ChainUp

lemma OnChain.exists_chainUp (h : m.OnChain a b) : ∃ l, m.ChainUp b a l := by
  induction h using head_induction_on with
  | refl => exact ⟨[], .here⟩
  | head hac _ ih =>
    obtain ⟨l, hl⟩ := ih
    exact ⟨_, .step hac hl⟩

namespace ChainTree

variable (tree : m.ChainTree blocks)
variable {a b : Hash}

include tree

lemma blueScore_lt {p : Hash} (hp : p ∈ blocks) (h : m.SelectedParent p b) :
    m.blueScore p < m.blueScore b := by
  have hb := tree.child_mem p b h
  have hne : b ≠ m.genesisHash := by
    rintro rfl
    exact tree.genesis_root p hp h
  obtain ⟨d, hd⟩ := tree.getData_some b hb
  obtain ⟨-, hsp, hlt⟩ := tree.selectedParent b hb hne d hd
  rw [h.unique hsp]
  exact hlt

lemma mem_of_onChain (h : m.OnChain a b) (ha : a ∈ blocks) : b ∈ blocks := by
  rcases cases_tail h with rfl | ⟨p, -, hp⟩
  · exact ha
  · exact tree.child_mem p b hp

lemma blueScore_le_of_onChain (h : m.OnChain a b) (ha : a ∈ blocks) :
    m.blueScore a ≤ m.blueScore b := by
  induction h using head_induction_on with
  | refl => exact le_refl _
  | head hac _ ih => exact (tree.blueScore_lt ha hac).le.trans (ih (tree.child_mem _ _ hac))

/-- A stored block that is a selected parent is on no chain of its own. -/
lemma ne_of_selectedParent {c : Hash} (ha : a ∈ blocks) (hac : m.SelectedParent a c)
    (hcb : m.OnChain c b) : a ≠ b := by
  rintro rfl
  have hlt := tree.blueScore_lt ha hac
  have hle := tree.blueScore_le_of_onChain hcb (tree.child_mem _ _ hac)
  omega

lemma genesis_onChain : ∀ {b : Hash}, b ∈ blocks → m.OnChain m.genesisHash b := by
  intro b
  induction hn : m.blueScore b using Nat.strong_induction_on generalizing b with
  | _ n ih =>
    intro hb
    by_cases hne : b = m.genesisHash
    · rw [hne]
      exact refl
    · obtain ⟨d, hd⟩ := tree.getData_some b hb
      obtain ⟨hsp, hselected, hlt⟩ := tree.selectedParent b hb hne d hd
      exact (ih _ (hn ▸ hlt) rfl hsp).tail hselected

lemma child_unique {c c' : Hash} (ha : a ∈ blocks) (hac : m.SelectedParent a c)
    (hcb : m.OnChain c b) (hac' : m.SelectedParent a c') (hcb' : m.OnChain c' b) : c = c' := by
  rcases hcb.total hcb' with h | h
  · rcases h.cases_selectedParent hac' with h | h
    · exact h
    · exact absurd rfl (tree.ne_of_selectedParent ha hac h)
  · rcases h.cases_selectedParent hac with h | h
    · exact h.symm
    · exact absurd rfl (tree.ne_of_selectedParent ha hac' h)

/-- The iterator hands out the chain. -/
lemma forwardChain_eq {service : ChainService} (hserves : service.Serves m blocks)
    {l : List Hash} (hb : b ∈ blocks) (h : m.ChainUp b a l) : a ∈ blocks → ∀ fuel,
      l.length < fuel → service.forwardChain b fuel a = some (a :: l) := by
  induction h with
  | here =>
    intro _ fuel hfuel
    obtain _ | fuel := fuel
    · omega
    rw [ChainService.forwardChain, if_pos rfl]
  | @step a c l hac hrest ih =>
    intro ha fuel hfuel
    obtain _ | fuel := fuel
    · omega
    rw [length_cons] at hfuel
    have hcb := hrest.onChain
    have hnext := hserves.getNextChainAncestor a ha b hb c hac hcb
    have hloop := ih (tree.child_mem _ _ hac) fuel (by omega)
    rw [ChainService.forwardChain, if_neg (tree.ne_of_selectedParent ha hac hcb), hnext]
    simp only [some_bind_eq, hloop, Option.pure_def]

end ChainTree

namespace MergedDag

variable (dag : m.MergedDag blocks)

include dag

/-- The data of a stored block other than genesis. -/
lemma read {b : Hash} {d : GhostdagData} (hb : b ∈ blocks) (hne : b ≠ m.genesisHash)
    (hd : m.getData b = some d) : ∃ ps merged, m.getParents b = some ps ∧
      m.ValidParents blocks ps ∧ m.Merged ps merged d ∧ d.selectedParent ∈ blocks ∧
      m.SelectedParent d.selectedParent b := by
  obtain ⟨ps, merged, d', hps, hd', hvalid, hmerged⟩ := dag.merged b hb hne
  obtain rfl := some.inj (hd.symm.trans hd')
  exact ⟨ps, merged, hps, hvalid, hmerged, hvalid.mem_blocks _ hmerged.selectedParent_mem,
    ⟨ps, hps, hmerged.selectedParent_mem⟩, d, hd, rfl⟩

/-- The selected parents of a DAG with mergesets form a tree. -/
lemma chainTree : m.ChainTree blocks where
  genesis_mem := dag.genesis_mem
  origin_notMem := dag.origin_notMem
  getData_some := dag.getData_some
  selectedParent b hb hne d hd := by
    obtain ⟨ps, merged, -, -, hmerged, hsp, hselected⟩ := dag.read hb hne hd
    refine ⟨hsp, hselected, ?_⟩
    rw [blueScore_of_getData hd, hmerged.blueScore_eq, hmerged.blues_eq, length_cons]
    omega
  child_mem p b h := by
    rcases dag.parent_mem h.1 with ⟨-, hb, -⟩ | ⟨rfl, -⟩
    · exact hb
    · exact dag.genesis_mem
  genesis_root p hp h := dag.not_past_genesis hp (TransGen.single h.1)

end MergedDag

lemma OrderedMergeset.unique {parents parents' merged merged' : List Hash} {sp : Hash}
    (hperm : parents'.Perm parents) (h : m.OrderedMergeset parents sp merged)
    (h' : m.OrderedMergeset parents' sp merged') : merged' = merged := by
  have hnodup : ∀ {ps l}, m.OrderedMergeset ps sp l → l.Nodup := fun h =>
    h.sorted.imp fun hlt heq => (heq ▸ hlt).false
  refine List.Perm.eq_of_pairwise (fun a b _ _ hab hba => absurd hba (lt_asymm hab)) h'.sorted
    h.sorted ((perm_ext_iff_of_nodup (hnodup h') (hnodup h)).mpr fun x => ?_)
  rw [h'.mem_iff, h.mem_iff]
  refine and_congr_left fun _ => exists_congr fun p => and_congr_left fun _ => ?_
  exact hperm.mem_iff

/-- The order of a mergeset is topological: a block comes after its past. -/
lemma OrderedMergeset.topological (dag : m.WorkDag blocks) {parents merged : List Hash} {sp : Hash}
    (hparents : ∀ p ∈ parents, p ∈ blocks) (hsp : sp ∈ blocks)
    (h : m.OrderedMergeset parents sp merged) :
    merged.Pairwise fun a b => ¬InPast m.Parent b a := by
  refine h.sorted.imp_of_mem fun {a b} _ hb hlt hpast => ?_
  rcases hpast.eq_or_past with rfl | hpast
  · exact lt_irrefl _ hlt
  · exact lt_asymm hlt (dag.key_lt_of_past hpast (dag.mem_of_merged hparents hsp h hb))

/-! ## Queries about several blocks -/

namespace WorkDag

variable (dag : m.WorkDag blocks)

include dag

lemma isDagAncestorOfAny_eq {a : Hash} (ha : a ∈ blocks ∨ a = BlockHash.origin) (l : List Hash)
    (hl : ∀ b ∈ l, b ∈ blocks) :
    m.isDagAncestorOfAny a l = some (decide (∃ b ∈ l, InPast m.Parent a b)) := by
  induction l with
  | nil => simp [isDagAncestorOfAny]
  | cons b l ih =>
    have hquery := dag.reachability a ha b (hl b mem_cons_self)
    have hrest := ih fun c hc => hl c (mem_cons_of_mem _ hc)
    rw [isDagAncestorOfAny, hquery, hrest]
    by_cases h : InPast m.Parent a b
    · simp [h]
    · simp [h]

lemma isAnyDagAncestor_eq {b : Hash} (hb : b ∈ blocks) (l : List Hash) (hl : ∀ a ∈ l, a ∈ blocks) :
    m.isAnyDagAncestor b l = some (decide (∃ a ∈ l, InPast m.Parent a b)) := by
  induction l with
  | nil => simp [isAnyDagAncestor]
  | cons a l ih =>
    have hquery := dag.reachability a (.inl (hl a mem_cons_self)) b hb
    have hrest := ih fun c hc => hl c (mem_cons_of_mem _ hc)
    rw [isAnyDagAncestor, hquery, hrest]
    by_cases h : InPast m.Parent a b
    · simp [h]
    · simp [h]

end WorkDag

namespace MergedDag

variable (dag : m.MergedDag blocks) {ps merged : List Hash}

include dag

/-! ## Mergesets -/

omit dag in
/-- The past of a block is that of its selected parent with its mergeset. -/
lemma Merged.past_iff {d : GhostdagData} {b x : Hash}
    (hmerged : m.Merged ps merged d) (hps : m.getParents b = some ps) :
    Past m.Parent x b ↔ InPast m.Parent x d.selectedParent ∨ x ∈ merged := by
  have hpast : Past m.Parent x b ↔ ∃ p ∈ ps, InPast m.Parent x p := by
    rw [Dag.past_iff]
    exact exists_congr fun p => and_congr_left fun _ => parent_iff hps
  rw [hpast, hmerged.ordered.mem_iff]
  constructor
  · intro h
    by_cases hx : InPast m.Parent x d.selectedParent
    · exact .inl hx
    · exact .inr ⟨h, hx⟩
  · rintro (h | ⟨h, -⟩)
    · exact ⟨_, hmerged.selectedParent_mem, h⟩
    · exact h

omit dag in
lemma Merged.mergesetSize_eq {d : GhostdagData}
    (hmerged : m.Merged ps merged d) : d.mergesetSize = merged.length + 1 := by
  have hlen := hmerged.perm.length_eq
  rw [length_append] at hlen
  rw [GhostdagData.mergesetSize, hmerged.blues_eq, length_cons]
  omega

end MergedDag

/-! ## The mergeset in consensus order -/

instance : IsTrans SortableBlock SortableBlock.lt :=
  ⟨fun _ _ _ h1 h2 => lt_trans (α := ℕ ×ₗ ℕ) h1 h2⟩

instance : Std.Irrefl SortableBlock.lt := ⟨fun b => lt_irrefl (α := ℕ ×ₗ ℕ) b.key⟩

namespace WorkDag

variable (dag : m.WorkDag blocks) {ps merged : List Hash} {d : GhostdagData}
  (hvalid : m.ValidParents blocks ps) (hmerged : m.Merged ps merged d)

include dag hvalid hmerged

lemma getData_of_merged {x : Hash} (hx : x ∈ merged) : ∃ data, m.getData x = some data := by
  have hsp := hvalid.mem_blocks _ hmerged.selectedParent_mem
  exact dag.getData_some x (dag.mem_of_merged hvalid.mem_blocks hsp hmerged.ordered hx)

/-- The blues and the reds of a mergeset, each sorted, merge into the mergeset. -/
lemma ascendingMergeset_eq : m.ascendingMergesetWithoutSelectedParent d =
    some (merged.map fun hash => ⟨hash, m.blueWork hash⟩) := by
  have hblues := mapM_sortableBlock (l := d.mergesetBlues.tail) fun x hx =>
    dag.getData_of_merged hvalid hmerged (hmerged.blues_sublist.subset hx)
  have hreds := mapM_sortableBlock (l := d.mergesetReds) fun x hx =>
    dag.getData_of_merged hvalid hmerged (hmerged.reds_sublist.subset hx)
  unfold ascendingMergesetWithoutSelectedParent
  simp only [drop_one, hblues, hreds, some_bind_eq]
  refine MergeJoin.mergeJoin_eq_of_perm ?_ ?_ (hmerged.blues_sublist.map _)
    (hmerged.reds_sublist.map _)
  · rw [pairwise_map]
    exact hmerged.ordered.sorted
  · rw [← map_append]
    exact hmerged.perm.map _

end WorkDag

/-- The consensus order of a mergeset: the selected parent, then the merged blocks by blue work
and hash. -/
lemma MergedDag.consensusOrderedMergeset_eq (dag : m.MergedDag blocks) {ps merged : List Hash}
    {d : GhostdagData} (hvalid : m.ValidParents blocks ps) (hmerged : m.Merged ps merged d) :
    m.consensusOrderedMergeset d = some (d.selectedParent :: merged) := by
  have hhash : ∀ l : List Hash, (l.map fun hash => (⟨hash, m.blueWork hash⟩ : SortableBlock)).map
      SortableBlock.hash = l := by
    intro l
    simp [Function.comp_def]
  unfold consensusOrderedMergeset
  simp only [dag.ascendingMergeset_eq hvalid hmerged, some_bind_eq, Option.pure_def, hhash]

/-! ## The service over the ghostdag store -/

/-- Walking down the selected parents finds the chain. -/
lemma StoreInv.chainDown_spec (inv : m.StoreInv blocks) (ha : a ∈ blocks) :
    ∀ fuel {b : Hash}, b ∈ blocks → m.blueScore b < fuel →
      (∀ l, m.chainDown a fuel b = some l → m.ChainUp b a l.reverse) ∧
      (m.chainDown a fuel b = none → ¬m.OnChain a b) := by
  intro fuel
  induction fuel with
  | zero =>
    intro b _ hfuel
    omega
  | succ fuel ih =>
    intro b hb hfuel
    rw [chainDown]
    by_cases hab : a = b
    · subst hab
      rw [if_pos rfl]
      refine ⟨fun l hl => ?_, fun h => nomatch h⟩
      obtain rfl := some.inj hl
      exact .here
    rw [if_neg hab]
    by_cases hg : b = m.genesisHash
    · rw [if_pos hg]
      refine ⟨fun l hl => (nomatch hl), fun _ hon => ?_⟩
      rcases hon.inPast.eq_or_past with h | h
      · exact hab h
      · exact inv.workDag.not_past_genesis ha (hg ▸ h)
    rw [if_neg hg]
    obtain ⟨ps, d, hps, hd, -, hcol, -, hparent, hsp, -, hscore⟩ := inv.readData hb hg
    have hselected : m.SelectedParent d.selectedParent b := ⟨hparent, d, hd, rfl⟩
    obtain ⟨hsome, hnone⟩ := ih hsp (show m.blueScore d.selectedParent < fuel by omega)
    rw [hd]
    simp only [some_bind_eq, Option.pure_def]
    refine ⟨fun l hl => ?_, fun h hon => ?_⟩
    · obtain ⟨rest, hrest, hl⟩ := bind_eq_some_iff.mp hl
      obtain rfl := some.inj hl
      rw [reverse_cons]
      exact (hsome rest hrest).snoc hselected
    · rcases hon.cases_selectedParent hselected with h' | h'
      · exact hab h'
      · refine hnone ?_ h'
        cases hdown : m.chainDown a fuel d.selectedParent with
        | none => rfl
        | some rest =>
          rw [hdown] at h
          exact nomatch h

/-- The service over the ghostdag store answers by the selected parents. -/
lemma StoreInv.chainService_serves (inv : m.StoreInv blocks) {fuel : ℕ}
    (hfuel : ∀ b ∈ blocks, m.blueScore b < fuel) : (m.chainService fuel).Serves m blocks := by
  have hdown : ∀ a ∈ blocks, ∀ b ∈ blocks, m.OnChain a b →
      ∃ l, m.chainDown a fuel b = some l ∧ m.ChainUp b a l.reverse := by
    intro a ha b hb hon
    obtain ⟨hsome, hnone⟩ := inv.chainDown_spec ha fuel hb (hfuel b hb)
    cases hl : m.chainDown a fuel b with
    | none => exact absurd hon (hnone hl)
    | some l => exact ⟨l, rfl, hsome l hl⟩
  refine ⟨fun a ha b hb => congrArg some ?_, fun b hb d hd => ?_, fun a ha b hb c hac hcb => ?_⟩
  · rw [Bool.eq_iff_iff, decide_eq_true_iff]
    constructor
    · intro h
      obtain ⟨l, hl⟩ := isSome_iff_exists.mp h
      exact ((inv.chainDown_spec ha fuel hb (hfuel b hb)).1 l hl).onChain
    · intro hon
      obtain ⟨l, hl, -⟩ := hdown a ha b hb hon
      rw [hl]
      rfl
  · show (m.getData b).map GhostdagData.selectedParent = some d.selectedParent
    rw [hd]
    rfl
  · obtain ⟨l, hl, hup⟩ := hdown a ha b hb (head hac hcb)
    show (m.chainDown a fuel b).bind List.getLast? = some c
    rw [hl, bind_some, ← List.head?_reverse]
    -- the chain above `a` starts with the child of `a` on it
    cases hrev : l.reverse with
    | nil =>
      rw [hrev] at hup
      cases hup
      exact absurd rfl (inv.mergedDag.chainTree.ne_of_selectedParent ha hac hcb)
    | cons c' l' =>
      rw [hrev] at hup
      cases hup with
      | step hac' hrest =>
        rw [inv.mergedDag.chainTree.child_unique ha hac hcb hac' hrest.onChain]
        rfl

end GhostdagManager
end LapisMonetae.Ghostdag
