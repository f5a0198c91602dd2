import LapisMonetae.Lib.Dag
import LapisMonetae.Ghostdag.OrderingTheorems

/-!
# Blue sets and the invariant of the ghostdag store

What the ghostdag data of a block says: the blue set that its selected chain spells out, the
anticone sizes within that set, and the invariant that ties the stores of the manager together.
-/

namespace LapisMonetae.Ghostdag
namespace GhostdagManager

open Dag Classical List Option

variable {m : GhostdagManager} {blocks : Finset Hash}
variable {d : GhostdagData} {e : GhostdagData}

/-- `p` is a parent of `b` in the relations store. -/
def Parent (m : GhostdagManager) (p b : Hash) : Prop := ∃ ps, m.getParents b = some ps ∧ p ∈ ps

lemma parent_iff {p b : Hash} {ps : List Hash} (hps : m.getParents b = some ps) :
    m.Parent p b ↔ p ∈ ps := by
  simp [Parent, hps]

/-- The blue set of a block with the given data: the union of `mergeset_blues` over the block and
its selected chain. -/
inductive BlueOf (m : GhostdagManager) : GhostdagData → Hash → Prop
  | here {d x} (h : x ∈ d.mergesetBlues) : BlueOf m d x
  | there {d d' x} (hsp : d.selectedParent ≠ BlockHash.origin)
      (hd : m.getData d.selectedParent = some d') (h : BlueOf m d' x) : BlueOf m d x

/-- The blue set as a finite set of the stored blocks. -/
noncomputable def blueSet (m : GhostdagManager) (blocks : Finset Hash) (d : GhostdagData) :
    Finset Hash := blocks.filter (m.BlueOf d)

/-- The number of blues in the anticone of `x`, from the view of a block with data `d`. -/
noncomputable def trueAnticoneSize (m : GhostdagManager) (blocks : Finset Hash)
    (d : GhostdagData) (x : Hash) : ℕ := (anticoneIn m.Parent (m.blueSet blocks d) x).card

/-- The `k` that applies to a block with the given selected parent. -/
def kOf (m : GhostdagManager) (selectedParent : Hash) : ℕ :=
  m.k.get ((m.getDaaScore selectedParent).getD 0)

/-- The blue score of a stored block. -/
def blueScore (m : GhostdagManager) (hash : Hash) : ℕ :=
  ((m.getData hash).map GhostdagData.blueScore).getD 0

lemma blueScore_of_getData {b : Hash} (hd : m.getData b = some d) :
    m.blueScore b = d.blueScore := by
  rw [blueScore, hd]
  rfl

/-- The work of a stored block. -/
def work (m : GhostdagManager) (hash : Hash) : ℕ := (m.blockWork hash).getD 0

/-- The data of a block while its mergeset is being colored: `merged` are the blocks of the
mergeset colored so far. -/
structure Coloring (m : GhostdagManager) (blocks : Finset Hash) (k : ℕ) (selectedParent : Hash)
    (merged : List Hash) (d : GhostdagData) : Prop where
  selectedParent_eq : d.selectedParent = selectedParent
  blues_eq : d.mergesetBlues = selectedParent :: d.mergesetBlues.tail
  perm : (d.mergesetBlues.tail ++ d.mergesetReds).Perm merged
  blues_sublist : d.mergesetBlues.tail.Sublist merged
  reds_sublist : d.mergesetReds.Sublist merged
  anticoneSize : ∀ x, m.BlueOf d x → ∀ fuel, m.blueScore selectedParent < fuel →
    m.blueAnticoneSize fuel x d = some (m.trueAnticoneSize blocks d x)
  le_k : ∀ x, m.BlueOf d x → m.trueAnticoneSize blocks d x ≤ k

/-- The mergeset of a block with the given parents, in ascending order. -/
structure OrderedMergeset (m : GhostdagManager) (parents : List Hash) (selectedParent : Hash)
    (merged : List Hash) : Prop where
  mem_iff : ∀ x, x ∈ merged ↔
    (∃ p ∈ parents, InPast m.Parent x p) ∧ ¬InPast m.Parent x selectedParent
  sorted : merged.Pairwise fun a b => m.key a < m.key b

/-- The data of a block with the given parents. -/
structure Colored (m : GhostdagManager) (blocks : Finset Hash) (parents : List Hash)
    (d : GhostdagData) : Prop where
  selectedParent_mem : d.selectedParent ∈ parents
  key_le : ∀ p ∈ parents, m.key p ≤ m.key d.selectedParent
  coloring : ∃ merged, m.OrderedMergeset parents d.selectedParent merged ∧
    m.Coloring blocks (m.kOf d.selectedParent) d.selectedParent merged d
  blueScore_eq : d.blueScore = m.blueScore d.selectedParent + d.mergesetBlues.length
  blueWork_eq : d.blueWork =
    (m.blueWork d.selectedParent + (d.mergesetBlues.map m.work).sum) % 2 ^ 192

/-- A parent list that the header processor lets through: not empty, of stored blocks, and none
of them in the past of another one. -/
structure ValidParents (m : GhostdagManager) (blocks : Finset Hash) (parents : List Hash) :
    Prop where
  ne_nil : parents ≠ []
  mem_blocks : ∀ p ∈ parents, p ∈ blocks
  antichain : Antichain m.Parent (· ∈ parents)

lemma Colored.parent_mem {parents : List Hash} (hcol : m.Colored blocks parents d)
    (hvalid : m.ValidParents blocks parents) : d.selectedParent ∈ blocks :=
  hvalid.mem_blocks _ hcol.selectedParent_mem

/-- The relations store holds blocks above origin, and reachability answers by the past. -/
structure Related (m : GhostdagManager) (blocks : Finset Hash) : Prop where
  genesis_mem : m.genesisHash ∈ blocks
  origin_notMem : BlockHash.origin ∉ blocks
  genesis_parents : m.getParents m.genesisHash = some [BlockHash.origin]
  origin_parents : m.getParents BlockHash.origin = some []
  getParents_mem : ∀ b ps, m.getParents b = some ps → b ∈ blocks ∨ b = BlockHash.origin
  reachability : ∀ a, (a ∈ blocks ∨ a = BlockHash.origin) → ∀ b ∈ blocks,
    m.isDagAncestorOf a b = some (decide (InPast m.Parent a b))

lemma Related.inPast_iff (h : m.Related blocks) {a b : Hash} (ha : a ∈ blocks) (hb : b ∈ blocks) :
    InPast m.Parent a b ↔ m.isDagAncestorOf a b = some true := by
  rw [h.reachability a (.inl ha) b hb, Option.some_inj, decide_eq_true_iff]

/-- The invariant of the stores, with the set of stored blocks. -/
structure StoreInv (m : GhostdagManager) (blocks : Finset Hash) : Prop
    extends Related m blocks where
  genesis_data : m.getData m.genesisHash = some GhostdagData.genesis
  daaScore : ∀ b ∈ blocks, ∃ score, m.getDaaScore b = some score
  blockWork : ∀ b ∈ blocks, ∃ w, 0 < w ∧ m.blockWork b = some w
  colored : ∀ b ∈ blocks, b ≠ m.genesisHash → ∃ ps d, m.getParents b = some ps ∧
    m.getData b = some d ∧ m.ValidParents blocks ps ∧ m.Colored blocks ps d ∧
    m.kOf d.selectedParent ≤ m.kOf b ∧
    m.blueWork d.selectedParent + (d.mergesetBlues.map m.work).sum < 2 ^ 192

/-- The stores hold a DAG above origin: the parents of a block are stored, none of them in the past
of another one, and with less blue work than the block. -/
structure WorkDag (m : GhostdagManager) (blocks : Finset Hash) : Prop
    extends Related m blocks where
  getData_some : ∀ b ∈ blocks, ∃ d, m.getData b = some d
  parents : ∀ b ∈ blocks, b ≠ m.genesisHash → ∃ ps, m.getParents b = some ps ∧
    m.ValidParents blocks ps ∧ ∀ p ∈ ps, m.blueWork p < m.blueWork b

/-! ## Blue sets -/

lemma blueOf_iff {x : Hash} : m.BlueOf d x ↔
    x ∈ d.mergesetBlues ∨ d.selectedParent ≠ BlockHash.origin ∧
      ∃ d', m.getData d.selectedParent = some d' ∧ m.BlueOf d' x := by
  constructor
  · rintro (h | ⟨hsp, hd, h⟩)
    · exact .inl h
    · exact .inr ⟨hsp, _, hd, h⟩
  · rintro (h | ⟨hsp, d', hd, h⟩)
    · exact BlueOf.here h
    · exact BlueOf.there hsp hd h

lemma mem_blueSet {x : Hash} : x ∈ m.blueSet blocks d ↔ x ∈ blocks ∧ m.BlueOf d x := by
  unfold blueSet
  rw [Finset.mem_filter]

/-- Blue sets depend only on the selected parent and the blues of the mergeset. -/
lemma blueOf_congr (hsp : d.selectedParent = e.selectedParent)
    (hblues : d.mergesetBlues = e.mergesetBlues) (x : Hash) : m.BlueOf d x ↔ m.BlueOf e x := by
  rw [blueOf_iff, blueOf_iff, hsp, hblues]

lemma blueSet_congr (hsp : d.selectedParent = e.selectedParent)
    (hblues : d.mergesetBlues = e.mergesetBlues) : m.blueSet blocks d = m.blueSet blocks e := by
  ext x
  rw [mem_blueSet, mem_blueSet, blueOf_congr hsp hblues]

lemma not_blueOf_genesis (x : Hash) : ¬m.BlueOf GhostdagData.genesis x := by
  rw [blueOf_iff]
  rintro (h | ⟨h, -⟩)
  · exact not_mem_nil h
  · exact h rfl

namespace Coloring

variable {k : ℕ} {sp : Hash} {merged : List Hash} {d : GhostdagData}

lemma mem_mergesetBlues (h : m.Coloring blocks k sp merged d) {x : Hash}
    (hx : x ∈ d.mergesetBlues) : x = sp ∨ x ∈ merged := by
  rw [h.blues_eq, mem_cons] at hx
  exact hx.imp id fun hx => h.blues_sublist.subset hx

end Coloring

/-! ## The past -/

namespace WorkDag

variable (dag : m.WorkDag blocks)
variable {a b : Hash}

include dag

lemma findSelectedParent_spec {parents : List Hash} (hvalid : m.ValidParents blocks parents) :
    ∃ sp ∈ parents, m.findSelectedParent parents = some sp ∧ ∀ p ∈ parents, m.key p ≤ m.key sp :=
  GhostdagManager.findSelectedParent_spec
    (fun p hp => dag.getData_some p (hvalid.mem_blocks p hp)) hvalid.ne_nil

/-- The parent with the greatest key is selected. -/
lemma findSelectedParent_eq {parents : List Hash} {sp : Hash}
    (hvalid : m.ValidParents blocks parents) (hsp : sp ∈ parents)
    (hle : ∀ p ∈ parents, m.key p ≤ m.key sp) : m.findSelectedParent parents = some sp := by
  obtain ⟨sp', hsp', hfind, hmax⟩ := dag.findSelectedParent_spec hvalid
  rw [hfind, key_injective (le_antisymm (hle sp' hsp') (hmax sp hsp))]

/-- The parents of a stored block are stored, except for the parent of genesis. -/
lemma parent_mem {p : Hash} (h : m.Parent p b) : (b ≠ m.genesisHash ∧ b ∈ blocks ∧ p ∈ blocks) ∨
      (b = m.genesisHash ∧ p = BlockHash.origin) := by
  obtain ⟨ps, hps, hp⟩ := h
  by_cases hb : b = m.genesisHash
  · rw [hb, dag.genesis_parents] at hps
    obtain rfl := some.inj hps
    exact .inr ⟨hb, mem_singleton.mp hp⟩
  · rcases dag.getParents_mem b ps hps with hmem | rfl
    · obtain ⟨ps', hps', hvalid, -⟩ := dag.parents b hmem hb
      obtain rfl := some.inj (hps.symm.trans hps')
      exact .inl ⟨hb, hmem, hvalid.mem_blocks p hp⟩
    · rw [dag.origin_parents] at hps
      obtain rfl := some.inj hps
      exact absurd hp not_mem_nil

lemma inPast_mem (h : InPast m.Parent a b) (hb : b ∈ blocks) :
    a ∈ blocks ∨ a = BlockHash.origin := by
  induction h using Relation.ReflTransGen.head_induction_on with
  | refl => exact .inl hb
  | head hstep _ _ =>
    rcases dag.parent_mem hstep with ⟨-, -, h⟩ | ⟨-, h⟩
    · exact .inl h
    · exact .inr h

lemma eq_origin_of_inPast (h : InPast m.Parent a BlockHash.origin) : a = BlockHash.origin := by
  rcases h.eq_or_past with h | h
  · exact h
  · obtain ⟨p, hp, -⟩ := h.cases_parent
    rcases dag.parent_mem hp with ⟨-, h, -⟩ | ⟨h, -⟩
    · exact absurd h dag.origin_notMem
    · exact absurd (h ▸ dag.genesis_mem) dag.origin_notMem

lemma blueWork_lt_of_parent {p : Hash} (h : m.Parent p b) (hp : p ∈ blocks) :
    m.blueWork p < m.blueWork b := by
  rcases dag.parent_mem h with ⟨hne, hb, -⟩ | ⟨-, rfl⟩
  · obtain ⟨ps, hps, -, hlt⟩ := dag.parents b hb hne
    exact hlt p ((parent_iff hps).mp h)
  · exact absurd hp dag.origin_notMem

lemma blueWork_lt_of_past (h : Past m.Parent a b) (ha : a ∈ blocks) :
    m.blueWork a < m.blueWork b := by
  induction h with
  | single h => exact dag.blueWork_lt_of_parent h ha
  | tail hpast h ih =>
    rcases dag.parent_mem h with ⟨-, -, hmem⟩ | ⟨-, rfl⟩
    · exact ih.trans (dag.blueWork_lt_of_parent h hmem)
    · have ha' := dag.eq_origin_of_inPast (Past.inPast hpast)
      exact absurd (ha' ▸ ha) dag.origin_notMem

lemma not_past_self (ha : a ∈ blocks) : ¬Past m.Parent a a :=
  fun h => lt_irrefl _ (dag.blueWork_lt_of_past h ha)

lemma key_lt_of_past (h : Past m.Parent a b) (ha : a ∈ blocks) :
    m.key a < m.key b := key_lt_of_blueWork_lt (dag.blueWork_lt_of_past h ha)

lemma genesis_inPast : ∀ {b : Hash}, b ∈ blocks → InPast m.Parent m.genesisHash b := by
  intro b
  induction hn : m.blueWork b using Nat.strong_induction_on generalizing b with
  | _ n ih =>
    intro hb
    by_cases hne : b = m.genesisHash
    · rw [hne]
      exact InPast.refl _
    · obtain ⟨ps, hps, hvalid, hlt⟩ := dag.parents b hb hne
      obtain ⟨p, hp⟩ := exists_mem_of_ne_nil ps hvalid.ne_nil
      have hgenesis := ih _ (hn ▸ hlt p hp) rfl (hvalid.mem_blocks p hp)
      exact hgenesis.trans (InPast.of_parent ⟨ps, hps, hp⟩)

lemma origin_inPast (hb : b ∈ blocks) : InPast m.Parent BlockHash.origin b :=
  (InPast.of_parent ⟨_, dag.genesis_parents, mem_singleton.mpr rfl⟩).trans
    (dag.genesis_inPast hb)

lemma not_past_genesis (ha : a ∈ blocks) : ¬Past m.Parent a m.genesisHash := by
  intro h
  obtain ⟨p, hp, hap⟩ := h.cases_parent
  rcases dag.parent_mem hp with ⟨hne, -, -⟩ | ⟨-, rfl⟩
  · exact hne rfl
  · exact dag.origin_notMem (dag.eq_origin_of_inPast hap ▸ ha)

lemma mem_of_merged {parents merged : List Hash} {sp x : Hash}
    (hparents : ∀ p ∈ parents, p ∈ blocks) (hsp : sp ∈ blocks)
    (hmerged : m.OrderedMergeset parents sp merged) (hx : x ∈ merged) : x ∈ blocks := by
  obtain ⟨⟨p, hp, hpast⟩, hnot⟩ := (hmerged.mem_iff x).mp hx
  rcases dag.inPast_mem hpast (hparents p hp) with h | rfl
  · exact h
  · exact absurd (dag.origin_inPast hsp) hnot

end WorkDag

lemma work_pos_of_blockWork {b : Hash} (h : ∃ w, 0 < w ∧ m.blockWork b = some w) :
    0 < m.work b := by
  obtain ⟨w, hw, hblock⟩ := h
  rw [work, hblock]
  exact hw

/-- The selected parent is blue and has work, so the blue work grows. -/
lemma blueWork_selectedParent_lt {blues : List Hash} (hpos : 0 < m.work d.selectedParent)
    (hblues : d.mergesetBlues = d.selectedParent :: blues) (heq : d.blueWork =
      (m.blueWork d.selectedParent + (d.mergesetBlues.map m.work).sum) % 2 ^ 192)
    (hfit : m.blueWork d.selectedParent + (d.mergesetBlues.map m.work).sum < 2 ^ 192) :
    m.blueWork d.selectedParent < d.blueWork := by
  rw [heq, Nat.mod_eq_of_lt hfit, hblues, map_cons, sum_cons]
  omega

namespace StoreInv

variable (inv : m.StoreInv blocks)
variable {d : GhostdagData} {a b x : Hash}

include inv

/-- Reading the data of a stored block that is not genesis. -/
lemma colored_of_getData (hb : b ∈ blocks) (hne : b ≠ m.genesisHash) (hd : m.getData b = some d) :
    ∃ ps, m.getParents b = some ps ∧ m.ValidParents blocks ps ∧ m.Colored blocks ps d := by
  obtain ⟨ps, d', hps, hd', hvalid, hcol, -⟩ := inv.colored b hb hne
  obtain rfl := some.inj (hd.symm.trans hd')
  exact ⟨ps, hps, hvalid, hcol⟩

lemma genesis_or_colored (hb : b ∈ blocks) (hd : m.getData b = some d) : d = GhostdagData.genesis ∨
      ∃ ps, m.getParents b = some ps ∧ m.ValidParents blocks ps ∧ m.Colored blocks ps d := by
  by_cases hne : b = m.genesisHash
  · rw [hne, inv.genesis_data] at hd
    exact .inl (some.inj hd).symm
  · exact .inr (inv.colored_of_getData hb hne hd)

lemma ne_origin (hb : b ∈ blocks) : b ≠ BlockHash.origin :=
  fun heq => inv.origin_notMem (heq ▸ hb)

lemma getData_some (hb : b ∈ blocks) : ∃ d, m.getData b = some d := by
  by_cases hg : b = m.genesisHash
  · exact ⟨_, hg ▸ inv.genesis_data⟩
  · obtain ⟨ps, d, -, hd, -⟩ := inv.colored b hb hg
    exact ⟨d, hd⟩

lemma work_pos (hb : b ∈ blocks) : 0 < m.work b :=
  work_pos_of_blockWork (inv.blockWork b hb)

lemma readData (hb : b ∈ blocks) (hne : b ≠ m.genesisHash) :
    ∃ ps d, m.getParents b = some ps ∧ m.getData b = some d ∧ m.ValidParents blocks ps ∧
      m.Colored blocks ps d ∧ m.kOf d.selectedParent ≤ m.kOf b ∧
      m.Parent d.selectedParent b ∧ d.selectedParent ∈ blocks ∧
      m.blueWork d.selectedParent < m.blueWork b ∧
      m.blueScore d.selectedParent < m.blueScore b := by
  obtain ⟨ps, d, hps, hd, hvalid, hcol, hk, hfit⟩ := inv.colored b hb hne
  have hsp := hcol.parent_mem hvalid
  obtain ⟨merged, -, hcoloring⟩ := hcol.coloring
  refine ⟨ps, d, hps, hd, hvalid, hcol, hk, ⟨ps, hps, hcol.selectedParent_mem⟩, hsp, ?_, ?_⟩
  · rw [blueWork_of_getData hd]
    exact blueWork_selectedParent_lt (inv.work_pos hsp) hcoloring.blues_eq hcol.blueWork_eq hfit
  · rw [blueScore_of_getData hd, hcol.blueScore_eq, hcoloring.blues_eq, length_cons]
    omega

/-- The selected parent has the greatest key, and less blue work than the block: so have all
parents. -/
lemma workDag : m.WorkDag blocks where
  toRelated := inv.toRelated
  getData_some _ hb := inv.getData_some hb
  parents b hb hne := by
    obtain ⟨ps, d, hps, -, hvalid, hcol, -, -, -, hlt, -⟩ := inv.readData hb hne
    exact ⟨ps, hps, hvalid, fun p hp =>
      lt_of_le_of_lt (blueWork_le_of_key_le (hcol.key_le p hp)) hlt⟩

/-! ### The blue set of a stored block -/

lemma past_of_mem_mergesetBlues (hb : b ∈ blocks) (hd : m.getData b = some d)
    (hx : x ∈ d.mergesetBlues) : x ∈ blocks ∧ Past m.Parent x b := by
  rcases inv.genesis_or_colored hb hd with rfl | ⟨ps, hps, hvalid, hcol⟩
  · exact absurd hx not_mem_nil
  · obtain ⟨merged, hmerged, hcoloring⟩ := hcol.coloring
    have hsp := hcol.parent_mem hvalid
    rcases hcoloring.mem_mergesetBlues hx with rfl | hx
    · exact ⟨hsp, Relation.TransGen.single ⟨ps, hps, hcol.selectedParent_mem⟩⟩
    · obtain ⟨⟨p, hp, hpast⟩, -⟩ := (hmerged.mem_iff x).mp hx
      exact ⟨inv.workDag.mem_of_merged hvalid.mem_blocks hsp hmerged hx,
        hpast.trans_past (Relation.TransGen.single ⟨ps, hps, hp⟩)⟩

lemma past_of_blueOf (h : m.BlueOf d x) :
    ∀ {b : Hash}, b ∈ blocks → m.getData b = some d → x ∈ blocks ∧ Past m.Parent x b := by
  induction h with
  | here h => exact fun hb hd => inv.past_of_mem_mergesetBlues hb hd h
  | @there d d' x hsp hd' _ ih =>
    intro b hb hd
    rcases inv.genesis_or_colored hb hd with rfl | ⟨ps, hps, hvalid, hcol⟩
    · exact absurd rfl hsp
    · have hmem := hcol.parent_mem hvalid
      obtain ⟨hx, hpast⟩ := ih hmem hd'
      exact ⟨hx, hpast.trans_inPast (InPast.of_parent ⟨ps, hps, hcol.selectedParent_mem⟩)⟩

end StoreInv

end GhostdagManager
end LapisMonetae.Ghostdag
