import LapisMonetae.Depth.BlockDepth
import LapisMonetae.Ghostdag.ChainTheorems

/-!
# Facts about blocks at depth

The merge depth root of a block is on the chain of its selected parent, and does not fall when the
blue score grows.
-/

namespace LapisMonetae.Depth

open Ghostdag GhostdagManager Dag Relation Classical BlockHash ReflTransGen

/-- What the walks read, apart from the stored points. -/
structure BlockDepthManager.Reads (dm : BlockDepthManager) (m : GhostdagManager)
    (blocks : Finset Hash) : Prop where
  store_eq : dm.ghostdagStore = m
  genesis_eq : dm.genesisHash = m.genesisHash
  serves : dm.reachabilityService.Serves m blocks
  daaScore : ∀ b ∈ blocks, ∃ score, dm.getDaaScore b = some score

/-- The stored merge depth roots are origin or on the chain of their block. -/
structure BlockDepthManager.Knows (dm : BlockDepthManager) (m : GhostdagManager)
    (blocks : Finset Hash) : Prop extends dm.Reads m blocks where
  mergeDepthRoot : ∀ b ∈ blocks, ∃ root, dm.mergeDepthRoot b = some root ∧
    (root = origin ∨ root ∈ blocks ∧ m.OnChain root b)

/-- A merge depth root over the selected parent `sp`: origin, or a block of its chain. -/
def IsRoot (m : GhostdagManager) (blocks : Finset Hash) (sp root : Hash) : Prop :=
  root = origin ∨ root ∈ blocks ∧ m.OnChain root sp

/-- Blocks above `root` are above `root'`, in the DAG and along chains. -/
def Lowers (m : GhostdagManager) (blocks : Finset Hash) (root root' : Hash) : Prop :=
  ∀ x ∈ blocks, (InPast m.Parent root x → InPast m.Parent root' x) ∧
    (m.OnChain root x → m.OnChain root' x)

/-- The depth of a type in force over a selected parent. -/
def BlockDepthManager.depthAt (dm : BlockDepthManager) (depthType : BlockDepthType)
    (selectedParent : Hash) : ℕ :=
  match depthType with
  | .mergeRoot => dm.mergeDepth.get ((dm.getDaaScore selectedParent).getD 0)
  | .finality => dm.finalityDepth.get ((dm.getDaaScore selectedParent).getD 0)

/-- The stored points of a type. -/
def BlockDepthManager.stored (dm : BlockDepthManager) : BlockDepthType → Hash → Option Hash
  | .mergeRoot => dm.mergeDepthRoot
  | .finality => dm.finalityPoint

/-- No shortcut is taken: the pruning point is on the chain, and at least at the depth. -/
structure BlockDepthManager.Walks (dm : BlockDepthManager) (m : GhostdagManager)
    (depthType : BlockDepthType)
    (d : GhostdagData) (pruningPoint : Hash) : Prop where
  depth_le : m.blueScore pruningPoint + dm.depthAt depthType d.selectedParent ≤ d.blueScore
  onChain : m.OnChain pruningPoint d.selectedParent

/-- The point found from `start` for a block over `sp`: the highest block of the chain below the
required blue score, or the start. -/
structure IsPoint (m : GhostdagManager) (sp start : Hash) (required : ℕ) (point : Hash) : Prop where
  above_start : m.OnChain start point
  onChain : m.OnChain point sp
  below : point = start ∨ m.blueScore point < required
  highest : ∀ c, m.OnChain start c → m.OnChain c sp → m.blueScore c < required → m.OnChain c point

variable {m : GhostdagManager} {blocks : Finset Hash} {dm : BlockDepthManager} {l : List Hash}

namespace BlockDepthManager

/-! ## The walk up the chain -/

lemma advance_cons {required score : ℕ} {a current : Hash}
    (hscore : dm.ghostdagStore.getBlueScore a = some score) : dm.advance required (a :: l) current =
      if required ≤ score then some current else dm.advance required l a := by
  rw [advance, hscore]
  rfl

/-- The walk up the chain of `top` stops at the last block below the required blue score. -/
lemma advance_isPoint (tree : m.ChainTree blocks) (hstore : dm.ghostdagStore = m) {top a : Hash}
    (required : ℕ) (hchain : m.ChainUp top a l) : a ∈ blocks →
      ∀ {current : Hash}, m.OnChain current a →
        ∃ res, dm.advance required (a :: l) current = some res ∧ m.OnChain current res ∧
          m.OnChain res top ∧ (res = current ∨ m.blueScore res < required) ∧
          ∀ c, m.OnChain a c → m.OnChain c top → m.blueScore c < required → m.OnChain c res := by
  subst hstore
  have hscore : ∀ {b}, b ∈ blocks → dm.ghostdagStore.getBlueScore b =
      some (dm.ghostdagStore.blueScore b) := by
    intro b hb
    obtain ⟨d, hd⟩ := tree.getData_some b hb
    rw [getBlueScore, GhostdagManager.blueScore, hd]
    rfl
  -- above a block that has the required score there is none below it
  have hstop : ∀ {b c res : Hash}, b ∈ blocks → required ≤ dm.ghostdagStore.blueScore b →
      dm.ghostdagStore.OnChain b c → dm.ghostdagStore.blueScore c < required →
      dm.ghostdagStore.OnChain c res := by
    intro b c res hb hr hbc hc
    have hle := tree.blueScore_le_of_onChain hbc hb
    omega
  induction hchain with
  | here =>
    intro ha current hcurrent
    rw [advance_cons (hscore ha)]
    by_cases hr : required ≤ dm.ghostdagStore.blueScore top
    · rw [if_pos hr]
      exact ⟨current, rfl, refl, hcurrent, .inl rfl,
        fun c hc _ hlt => hstop ha hr hc hlt⟩
    · rw [if_neg hr]
      exact ⟨top, rfl, hcurrent, refl, .inr (not_le.mp hr), fun c _ hc _ => hc⟩
  | @step a b l hab hrest ih =>
    intro ha current hcurrent
    have htop : dm.ghostdagStore.OnChain a top := head hab hrest.onChain
    rw [advance_cons (hscore ha)]
    by_cases hr : required ≤ dm.ghostdagStore.blueScore a
    · rw [if_pos hr]
      exact ⟨current, rfl, refl, hcurrent.trans htop, .inl rfl,
        fun c hc _ hlt => hstop ha hr hc hlt⟩
    · rw [if_neg hr]
      obtain ⟨res, hres, hup, hon, hbelow, hhighest⟩ :=
        ih (tree.child_mem _ _ hab) (single hab)
      refine ⟨res, hres, hcurrent.trans hup, hon, .inr ?_, fun c hac hc hlt => ?_⟩
      · rcases hbelow with rfl | h
        · exact not_le.mp hr
        · exact h
      · rcases cases_head hac with rfl | ⟨b', hab', hbc⟩
        · exact hup
        · obtain rfl := tree.child_unique ha hab' (hbc.trans hc) hab hrest.onChain
          exact hhighest c hbc hc hlt

/-! ## The merge depth root -/

section root

variable (dag : m.MergedDag blocks) (hknows : dm.Knows m blocks) {d : GhostdagData}

include dag

omit dm in
lemma origin_onChain {b : Hash} (hb : b ∈ blocks) : m.OnChain origin b := by
  have hgenesis : m.SelectedParent origin m.genesisHash :=
    ⟨⟨_, dag.genesis_parents, List.mem_cons_self⟩, _, dag.genesis_data, rfl⟩
  exact head hgenesis (dag.chainTree.genesis_onChain hb)

omit dm in
lemma lowers_bottom {root bottom : Hash}
    (h : bottom = origin ∨ bottom = m.genesisHash) : Lowers m blocks root bottom := by
  have hon : ∀ x ∈ blocks, m.OnChain bottom x := by
    intro x hx
    rcases h with rfl | rfl
    · exact origin_onChain dag hx
    · exact dag.chainTree.genesis_onChain hx
  exact fun x hx => ⟨fun _ => (hon x hx).inPast, fun _ => hon x hx⟩

omit dm dag in
lemma lowers_of_onChain {root root' : Hash} (h : m.OnChain root' root) :
    Lowers m blocks root root' :=
  fun _ _ => ⟨fun hx => h.inPast.trans hx, fun hx => h.trans hx⟩

omit dag in
/-- The block at depth once the stores have been read. -/
lemma calculateBlockAtDepth_eq {depthType : BlockDepthType} {pruningPoint start : Hash}
    {score ppBs : ℕ} {onChain : Bool} (fuel : ℕ)
    (hne : d.selectedParent ≠ origin)
    (hscore : dm.getDaaScore d.selectedParent = some score)
    (hppBs : dm.ghostdagStore.getBlueScore pruningPoint = some ppBs)
    (hquery : dm.reachabilityService.isChainAncestorOf pruningPoint d.selectedParent = some onChain)
    (hstart : dm.stored depthType d.selectedParent = some start) :
    dm.calculateBlockAtDepth fuel d depthType pruningPoint =
      if d.blueScore < dm.depthAt depthType d.selectedParent then some dm.genesisHash
      else if d.blueScore < ppBs + dm.depthAt depthType d.selectedParent then some origin
      else if onChain = false then some origin
      else
        let current := if start = origin then pruningPoint else start
        (dm.reachabilityService.forwardChain d.selectedParent fuel current).bind fun chain =>
          dm.advance (d.blueScore - dm.depthAt depthType d.selectedParent) chain current := by
  unfold calculateBlockAtDepth depthAt
  rw [if_neg hne]
  cases depthType <;> simp only [stored] at hstart <;>
    simp only [hscore, hppBs, hquery, hstart, some_bind_eq,
      Option.getD_some] <;> cases onChain <;> rfl

omit hknows
variable (hreads : dm.Reads m blocks) {depthType : BlockDepthType}

include hreads

/-- The function returns. The result is on the chain of the selected parent or origin, and if no
shortcut is taken it is found from the stored point, or from the pruning point if there is none. -/
lemma calculateBlockAtDepth_returns {pp start : Hash}
    (hsp : d.selectedParent ∈ blocks) (hpp : pp ∈ blocks)
    (hstart : dm.stored depthType d.selectedParent = some start)
    (hroot : IsRoot m blocks d.selectedParent start) :
    ∃ point, Fuel.Returns (fun fuel => dm.calculateBlockAtDepth fuel d depthType pp) point ∧
      IsRoot m blocks d.selectedParent point ∧ (dm.Walks m depthType d pp →
        IsPoint m d.selectedParent (if start = origin then pp else start)
          (d.blueScore - dm.depthAt depthType d.selectedParent) point) ∧
      (¬dm.Walks m depthType d pp → point =
        if d.blueScore < dm.depthAt depthType d.selectedParent then m.genesisHash else origin) := by
  have tree := dag.chainTree
  have hne : d.selectedParent ≠ origin := fun h => dag.origin_notMem (h ▸ hsp)
  obtain ⟨score, hscore⟩ := hreads.daaScore _ hsp
  obtain ⟨ppData, hppData⟩ := dag.getData_some pp hpp
  have hppBs : dm.ghostdagStore.getBlueScore pp = some (m.blueScore pp) := by
    rw [hreads.store_eq, getBlueScore, hppData, blueScore_of_getData hppData]
    rfl
  have hquery := hreads.serves.isChainAncestorOf pp hpp _ hsp
  have heval := fun fuel => calculateBlockAtDepth_eq fuel hne hscore hppBs hquery hstart
  set depth := dm.depthAt depthType d.selectedParent
  by_cases hwalks : dm.Walks m depthType d pp
  · have hle := hwalks.depth_le
    set current := if start = origin then pp else start with hcurrentDef
    have hcurrent : current ∈ blocks ∧ m.OnChain current d.selectedParent := by
      rw [hcurrentDef]
      split
      · exact ⟨hpp, hwalks.onChain⟩
      · next hstartNe => exact hroot.resolve_left hstartNe
    obtain ⟨l, hl⟩ := hcurrent.2.exists_chainUp
    obtain ⟨point, hpoint, hup, hon, hbelow, hhighest⟩ := advance_isPoint tree hreads.store_eq
      (d.blueScore - depth) hl hcurrent.1 refl
    refine ⟨point, ⟨l.length + 1, fun fuel hfuel => ?_⟩,
      .inr ⟨tree.mem_of_onChain hup hcurrent.1, hon⟩, fun _ => ⟨hup, hon, hbelow, hhighest⟩,
      fun h => absurd hwalks h⟩
    show dm.calculateBlockAtDepth fuel d depthType pp = some point
    rw [heval, if_neg (by omega), if_neg (by omega), if_neg (by simp [hwalks.onChain])]
    show (dm.reachabilityService.forwardChain d.selectedParent fuel current).bind _ = _
    rw [tree.forwardChain_eq hreads.serves hsp hl hcurrent.1 fuel hfuel]
    exact hpoint
  · -- a shortcut: genesis or origin
    by_cases hgenesis : d.blueScore < depth
    · refine ⟨m.genesisHash, ⟨0, fun fuel _ => ?_⟩,
        .inr ⟨dag.genesis_mem, tree.genesis_onChain hsp⟩, fun h => absurd h hwalks,
        fun _ => (if_pos hgenesis).symm⟩
      show dm.calculateBlockAtDepth fuel d depthType pp = _
      rw [heval, if_pos hgenesis, hreads.genesis_eq]
    · refine ⟨origin, ⟨0, fun fuel _ => ?_⟩, .inl rfl, fun h => absurd h hwalks,
        fun _ => (if_neg hgenesis).symm⟩
      show dm.calculateBlockAtDepth fuel d depthType pp = _
      rw [heval, if_neg hgenesis]
      by_cases hscoreLt : d.blueScore < m.blueScore pp + depth
      · rw [if_pos hscoreLt]
      · have hnotOn : ¬m.OnChain pp d.selectedParent := fun hon =>
          hwalks ⟨not_lt.mp hscoreLt, hon⟩
        rw [if_neg hscoreLt, if_pos (decide_eq_false hnotOn)]

omit hreads
include hknows

/-- `calc_merge_depth_root` returns origin or a block on the chain of the selected parent, and for a
lower blue score a root that is not above the other one. -/
lemma calcMergeDepthRoot_spec {pruningPoint : Hash} {d d' : GhostdagData}
    (hsp : d.selectedParent ∈ blocks) (hpp : pruningPoint ∈ blocks)
    (heq : d'.selectedParent = d.selectedParent) (hle : d'.blueScore ≤ d.blueScore) : ∃ root root',
      Fuel.Returns (fun fuel => dm.calcMergeDepthRoot fuel d pruningPoint) root ∧
      Fuel.Returns (fun fuel => dm.calcMergeDepthRoot fuel d' pruningPoint) root' ∧
      IsRoot m blocks d.selectedParent root ∧ IsRoot m blocks d.selectedParent root' ∧
      Lowers m blocks root root' := by
  obtain ⟨start, hmerge, hroot⟩ := hknows.mergeDepthRoot _ hsp
  have hstart : dm.stored .mergeRoot d.selectedParent = some start := hmerge
  have hstart' : dm.stored .mergeRoot d'.selectedParent = some start := heq ▸ hmerge
  obtain ⟨root, hreturns, hisRoot, hpoint, -⟩ :=
    calculateBlockAtDepth_returns dag hknows.toReads hsp hpp hstart hroot
  obtain ⟨root', hreturns', hisRoot', hpoint', hbottom⟩ :=
    calculateBlockAtDepth_returns dag hknows.toReads (heq ▸ hsp) hpp hstart' (heq ▸ hroot)
  rw [heq] at hisRoot' hpoint'
  refine ⟨root, root', hreturns, hreturns', hisRoot, hisRoot', ?_⟩
  by_cases hwalks' : dm.Walks m .mergeRoot d' pruningPoint
  · have hwalks : dm.Walks m .mergeRoot d pruningPoint :=
      ⟨(heq ▸ hwalks'.depth_le).trans hle, heq ▸ hwalks'.onChain⟩
    refine lowers_of_onChain ?_
    rcases (hpoint' hwalks').below with rfl | hlt
    · exact (hpoint hwalks).above_start
    · exact (hpoint hwalks).highest _ (hpoint' hwalks').above_start (hpoint' hwalks').onChain
        (by omega)
  · refine lowers_bottom dag ?_
    rw [hbottom hwalks']
    split
    · exact .inr rfl
    · exact .inl rfl

end root

end BlockDepthManager

end LapisMonetae.Depth
