import LapisMonetae.Lib.AssocMap
import LapisMonetae.Ghostdag.BlueSet

/-!
# Coloring a mergeset

A candidate is checked against the blues of the new block down its selected chain. The check
finds the blues in the anticone of the candidate with their sizes, so adding the candidate as a
blue keeps the recorded sizes right and within `k`.
-/

namespace LapisMonetae.Ghostdag
namespace GhostdagManager

open Dag Classical List AList Option

variable {m : GhostdagManager} {blocks : Finset Hash}
variable {found : Finset Hash} {d : GhostdagData} {size : Hash → ℕ} {k : ℕ} {sizes : HashKTypeMap}
  {n : ℕ} {fuel : ℕ}

/-! ## The check against a list of peers -/

/-- The state of the check of a candidate: `found` are the blues in its anticone so far, with
their blue anticone sizes `size`. -/
structure Tracked (size : Hash → ℕ) (k : ℕ) (found : Finset Hash) (sizes : HashKTypeMap)
    (n : ℕ) : Prop where
  count : n = found.card
  le_k : found.card ≤ k
  lt_k : ∀ x ∈ found, size x < k
  lookup : ∀ x, sizes.lookup x = if x ∈ found then some (size x) else none

lemma tracked_empty (size : Hash → ℕ) (k : ℕ) : Tracked size k ∅ ∅ 0 :=
  ⟨rfl, Nat.zero_le k, by simp, by simp⟩

/-- Finding one more blue that has room for the candidate. -/
lemma Tracked.insert (h : Tracked size k found sizes n)
    {peer : Hash} (hnew : peer ∉ found) (hn : n + 1 ≤ k) (hpeer : size peer < k) :
    Tracked size k (Insert.insert peer found) (sizes.insert peer (size peer)) (n + 1) := by
  have hcard := Finset.card_insert_of_notMem hnew
  refine ⟨by rw [hcard, h.count], by rw [hcard, ← h.count]; exact hn, fun x hx => ?_, fun x => ?_⟩
  · rcases Finset.mem_insert.mp hx with rfl | hx
    · exact hpeer
    · exact h.lt_k x hx
  · rw [AssocMap.lookup_insert_ite, h.lookup]
    by_cases hx : x = peer
    · simp [hx]
    · simp [hx]

/-- A violation of the `k`-cluster rule: too many blues in the anticone of the candidate, or one
of them that has no room for it. -/
def Violated (size : Hash → ℕ) (k : ℕ) (found : Finset Hash) : Prop :=
  k < found.card ∨ ∃ y ∈ found, size y = k

lemma Violated.mono {found' : Finset Hash} (h : Violated size k found) (hsub : found ⊆ found') :
    Violated size k found' := by
  rcases h with h | ⟨y, hy, hfull⟩
  · exact .inl (h.trans_le (Finset.card_le_card hsub))
  · exact .inr ⟨y, hsub hy, hfull⟩

lemma Tracked.not_violated (h : Tracked size k found sizes n) : ¬Violated size k found := by
  rintro (hcard | ⟨y, hy, hfull⟩)
  · exact absurd h.le_k (not_le.mpr hcard)
  · exact absurd (h.lt_k y hy) (not_lt.mpr hfull.ge)

/-- The blues of a list that are not in the past of the candidate. -/
noncomputable def peersOutside (m : GhostdagManager) (blue : Hash) (peers : List Hash) :
    Finset Hash := peers.toFinset.filter fun y => ¬InPast m.Parent y blue

lemma mem_peersOutside {blue y : Hash} {peers : List Hash} :
    y ∈ m.peersOutside blue peers ↔ y ∈ peers ∧ ¬InPast m.Parent y blue := by
  unfold peersOutside
  rw [Finset.mem_filter, List.mem_toFinset]

/-- The check of the blue peers ends red at a violation, or it finds all those outside of the past
of the candidate. -/
lemma checkPeers_spec {blue : Hash} (peers : List Hash)
    (hanc : ∀ y ∈ peers, m.isDagAncestorOf y blue =
      some (decide (InPast m.Parent y blue)))
    (hsize : ∀ y ∈ peers, m.blueAnticoneSize fuel y d = some (size y) ∧ size y ≤ k)
    (hnodup : peers.Nodup) : ∀ (found : Finset Hash) (sizes : HashKTypeMap) (n : ℕ),
      Tracked size k found sizes n → (∀ y ∈ peers, y ∉ found) →
      (∃ sizes' n', m.checkPeers fuel d blue k peers sizes n = some (.red, sizes', n') ∧
        Violated size k (found ∪ m.peersOutside blue peers)) ∨
      ∃ sizes' n', m.checkPeers fuel d blue k peers sizes n = some (.pending, sizes', n') ∧
        Tracked size k (found ∪ m.peersOutside blue peers) sizes' n' := by
  induction peers with
  | nil =>
    intro found sizes n h _
    refine .inr ⟨sizes, n, rfl, ?_⟩
    have hempty : m.peersOutside blue [] = ∅ := by
      simp [peersOutside]
    rwa [hempty, Finset.union_empty]
  | cons peer rest ih =>
    intro found sizes n h hdisj
    have hrest := ih (fun y hy => hanc y (mem_cons_of_mem _ hy))
      (fun y hy => hsize y (mem_cons_of_mem _ hy)) (nodup_cons.mp hnodup).2
    have hpeer := hsize peer mem_cons_self
    have hnew := hdisj peer mem_cons_self
    rw [checkPeers, hanc peer mem_cons_self]
    by_cases hpast : InPast m.Parent peer blue
    · -- a peer in the past of the candidate is skipped
      have hsame : m.peersOutside blue (peer :: rest) =
          m.peersOutside blue rest := by
        ext y
        rw [mem_peersOutside, mem_peersOutside, mem_cons]
        constructor
        · rintro ⟨rfl | hy, hout⟩
          · exact absurd hpast hout
          · exact ⟨hy, hout⟩
        · rintro ⟨hy, hout⟩
          exact ⟨.inr hy, hout⟩
      rw [hsame]
      simp only [hpast, decide_true, bind_eq_bind, bind_some, if_true]
      exact hrest _ _ _ h fun y hy => hdisj y (mem_cons_of_mem _ hy)
    · simp only [hpast, decide_false, bind_eq_bind, bind_some, hpeer.1,
        Bool.false_eq_true, if_false]
      have hmem : peer ∈ m.peersOutside blue (peer :: rest) :=
        mem_peersOutside.mpr ⟨mem_cons_self, hpast⟩
      by_cases hn : k < n + 1
      · -- the blues found so far and the peer are already more than `k`
        have hcard := Finset.card_insert_of_notMem hnew
        have hviolated : Violated size k (Insert.insert peer found) :=
          .inl (by rw [hcard, ← h.count]; exact hn)
        rw [if_pos hn]
        refine .inl ⟨_, _, rfl, hviolated.mono (Finset.insert_subset ?_ ?_)⟩
        · exact Finset.mem_union_right _ hmem
        · exact Finset.subset_union_left
      rw [if_neg hn]
      by_cases hfull : size peer = k
      · rw [if_pos hfull]
        exact .inl ⟨_, _, rfl, .inr ⟨peer, Finset.mem_union_right _ hmem, hfull⟩⟩
      rw [if_neg hfull, if_neg (not_lt.mpr hpeer.2)]
      have hmore : found ∪ m.peersOutside blue (peer :: rest) =
          Insert.insert peer found ∪ m.peersOutside blue rest := by
        ext y
        rw [Finset.mem_union, Finset.mem_union, Finset.mem_insert, mem_peersOutside,
          mem_peersOutside, mem_cons]
        constructor
        · rintro (hy | ⟨rfl | hy, hout⟩)
          · exact .inl (.inr hy)
          · exact .inl (.inl rfl)
          · exact .inr ⟨hy, hout⟩
        · rintro ((rfl | hy) | ⟨hy, hout⟩)
          · exact .inr ⟨.inl rfl, hpast⟩
          · exact .inl hy
          · exact .inr ⟨.inr hy, hout⟩
      rw [hmore]
      refine hrest _ _ _ (h.insert hnew (by omega) (lt_of_le_of_ne hpeer.2 hfull))
        fun y hy hmem => ?_
      rcases Finset.mem_insert.mp hmem with rfl | hmem
      · exact (nodup_cons.mp hnodup).1 hy
      · exact hdisj y (mem_cons_of_mem _ hy) hmem

/-! ## The walk down the selected chain -/

/-- Data `d` whose selected parent has data `parentData`, with the blues of its own mergeset apart
from those of the selected parent. -/
structure ChainLink (m : GhostdagManager) (blocks : Finset Hash) (d dp : GhostdagData) :
    Prop where
  mem_blocks : d.selectedParent ∈ blocks
  getData : m.getData d.selectedParent = some dp
  nodup : d.mergesetBlues.Nodup
  blues_mem : ∀ x ∈ d.mergesetBlues, x ∈ blocks
  disjoint : ∀ x ∈ d.mergesetBlues, ¬m.BlueOf dp x

/-- Blocks that may be merged over the selected parent. -/
def Mergeable (m : GhostdagManager) (blocks : Finset Hash) (sp : Hash) (merged : List Hash) :
    Prop := merged.Nodup ∧ ∀ x ∈ merged, x ∈ blocks ∧ ¬InPast m.Parent x sp

lemma Coloring.chainLink (inv : m.StoreInv blocks) {sp : Hash} {merged : List Hash}
    (h : m.Coloring blocks k sp merged d) (hsp : sp ∈ blocks)
    (hmerged : m.Mergeable blocks sp merged) : ∃ dp, m.ChainLink blocks d dp := by
  obtain ⟨dp, hdata⟩ := inv.getData_some hsp
  have hnodup : d.mergesetBlues.Nodup := by
    rw [h.blues_eq, nodup_cons]
    refine ⟨fun hmem => ?_, hmerged.1.sublist h.blues_sublist⟩
    exact (hmerged.2 sp (h.blues_sublist.subset hmem)).2 (InPast.refl sp)
  refine ⟨dp, by rwa [h.selectedParent_eq], by rwa [h.selectedParent_eq], hnodup,
    fun x hx => ?_, fun x hx hblue => ?_⟩
  · rcases h.mem_mergesetBlues hx with rfl | hx
    · exact hsp
    · exact (hmerged.2 x hx).1
  · have hpast := (inv.past_of_blueOf hblue hsp hdata).2
    rcases h.mem_mergesetBlues hx with rfl | hx
    · exact inv.workDag.not_past_self hsp hpast
    · exact (hmerged.2 x hx).2 hpast.inPast

/-- The ordered mergeset of valid parents is mergeable. -/
lemma OrderedMergeset.mergeable (inv : m.StoreInv blocks) {parents merged : List Hash}
    {sp : Hash} (h : m.OrderedMergeset parents sp merged)
    (hparents : ∀ p ∈ parents, p ∈ blocks) (hsp : sp ∈ blocks) : m.Mergeable blocks sp merged := by
  refine ⟨h.sorted.imp fun hlt heq => ?_, fun x hx => ?_⟩
  · rw [heq] at hlt
    exact lt_irrefl _ hlt
  · exact ⟨inv.workDag.mem_of_merged hparents hsp h hx, ((h.mem_iff x).mp hx).2⟩

lemma StoreInv.chainLink (inv : m.StoreInv blocks) {b : Hash} (hb : b ∈ blocks)
    (hne : b ≠ m.genesisHash) (hd : m.getData b = some d) :
    ∃ dp, m.ChainLink blocks d dp := by
  obtain ⟨ps, -, hvalid, hcol⟩ := inv.colored_of_getData hb hne hd
  obtain ⟨merged, hmerged, hcoloring⟩ := hcol.coloring
  have hsp := hcol.parent_mem hvalid
  exact hcoloring.chainLink inv hsp (hmerged.mergeable inv hvalid.mem_blocks hsp)

/-- The blues that are not in the past of the candidate. -/
noncomputable def bluesOutside (m : GhostdagManager) (blocks : Finset Hash)
    (blue : Hash) (d : GhostdagData) : Finset Hash :=
  (m.blueSet blocks d).filter fun y => ¬InPast m.Parent y blue

section chain

variable (inv : m.StoreInv blocks) {d dp : GhostdagData}
  (link : m.ChainLink blocks d dp)

include inv link

lemma ChainLink.blueOf_iff (x : Hash) :
    m.BlueOf d x ↔ x ∈ d.mergesetBlues ∨ m.BlueOf dp x := by
  rw [GhostdagManager.blueOf_iff]
  have hne : d.selectedParent ≠ BlockHash.origin :=
    fun h => inv.origin_notMem (h ▸ link.mem_blocks)
  simp only [link.getData, some.injEq, exists_eq_left', hne, ne_eq, not_false_eq_true, true_and]

lemma ChainLink.bluesOutside_eq (blue : Hash) : m.bluesOutside blocks blue d =
      m.peersOutside blue d.mergesetBlues ∪
        m.bluesOutside blocks blue dp := by
  ext y
  rw [Finset.mem_union, mem_peersOutside, bluesOutside, bluesOutside, Finset.mem_filter,
    Finset.mem_filter, mem_blueSet, mem_blueSet, link.blueOf_iff inv]
  constructor
  · rintro ⟨⟨hmem, hy | hy⟩, hout⟩
    · exact .inl ⟨hy, hout⟩
    · exact .inr ⟨⟨hmem, hy⟩, hout⟩
  · rintro (⟨hy, hout⟩ | ⟨⟨hmem, hy⟩, hout⟩)
    · exact ⟨⟨link.blues_mem y hy, .inl hy⟩, hout⟩
    · exact ⟨⟨hmem, .inr hy⟩, hout⟩

end chain

/-- The outcome of the check of a candidate: red, or blue with the blues outside of its past. -/
def Outcome (size : Hash → ℕ) (k : ℕ) (found : Finset Hash)
    (res : Option (Option (ℕ × HashKTypeMap))) : Prop :=
  res = some none ∨ ∃ n sizes, res = some (some (n, sizes)) ∧ Tracked size k found sizes n

/-- The exact outcome of the check of a candidate: red only at a violation. -/
def Verdict (size : Hash → ℕ) (k : ℕ) (found : Finset Hash)
    (res : Option (Option (ℕ × HashKTypeMap))) : Prop :=
  (res = some none ∧ Violated size k found) ∨
    ∃ n sizes, res = some (some (n, sizes)) ∧ Tracked size k found sizes n

lemma Verdict.outcome {res : Option (Option (ℕ × HashKTypeMap))} (h : Verdict size k found res) :
    Outcome size k found res := h.imp And.left id

section walk

variable (inv : m.StoreInv blocks) {fuel k : ℕ} {newBlockData : GhostdagData}
  {blue : Hash} (hcandidate : blue ∈ blocks) {size : Hash → ℕ}

/-- The recorded sizes of the blues of `d`, as the new block sees them. -/
def Recorded (m : GhostdagManager) (fuel k : ℕ) (newBlockData : GhostdagData) (size : Hash → ℕ)
    (d : GhostdagData) : Prop :=
  ∀ y, m.BlueOf d y → m.blueAnticoneSize fuel y newBlockData = some (size y) ∧ size y ≤ k

include inv hcandidate

/-- One chain block that is not in the past of the candidate: its blues are checked, and the walk
goes on with its selected parent. -/
lemma checkChain_link {d dp : GhostdagData} (link : m.ChainLink blocks d dp)
    (hrec : m.Recorded fuel k newBlockData size d) {hash : Option Hash}
    (hhash : ∀ h ∈ hash, m.isDagAncestorOf h blue = some false) {steps : ℕ}
    (hnext : ∀ found sizes n, Tracked size k found sizes n →
      (∀ y, m.BlueOf dp y → y ∉ found) →
      Verdict size k (found ∪ m.bluesOutside blocks blue dp)
        (m.checkChain fuel newBlockData blue k steps (some d.selectedParent) dp
          sizes n))
    {found : Finset Hash} (h : Tracked size k found sizes n)
    (hdisj : ∀ y, m.BlueOf d y → y ∉ found) :
    Verdict size k (found ∪ m.bluesOutside blocks blue d)
      (m.checkChain fuel newBlockData blue k (steps + 1) hash d sizes n) := by
  have hstep : m.checkBlueCandidateWithChainBlock fuel newBlockData hash d blue sizes n
      k = m.checkPeers fuel newBlockData blue k d.mergesetBlues sizes n := by
    cases hash with
    | none => rfl
    | some h =>
      rw [checkBlueCandidateWithChainBlock, hhash h rfl]
      rfl
  rw [checkChain, hstep]
  rcases m.checkPeers_spec d.mergesetBlues
    (fun y hy => inv.reachability y (.inl (link.blues_mem y hy)) _ hcandidate)
    (fun y hy => hrec y (BlueOf.here hy)) link.nodup found sizes n h
    (fun y hy => hdisj y (BlueOf.here hy)) with
      ⟨sizes', n', hred, hviolated⟩ | ⟨sizes', n', hpending, h'⟩
  · rw [hred, link.bluesOutside_eq inv, ← Finset.union_assoc]
    exact .inl ⟨rfl, hviolated.mono Finset.subset_union_left⟩
  · rw [hpending]
    simp only [bind_eq_bind, bind_some, link.getData]
    rw [link.bluesOutside_eq inv, ← Finset.union_assoc]
    refine hnext _ _ _ h' fun y hy hmem => ?_
    rcases Finset.mem_union.mp hmem with hmem | hmem
    · exact hdisj y ((link.blueOf_iff inv y).mpr (.inr hy)) hmem
    · exact link.disjoint y (mem_peersOutside.mp hmem).1 hy

/-- The walk from a stored chain block: it stops at the first chain block in the past of the
candidate, since all the blues below are in that past too. -/
lemma checkChain_spec : ∀ steps {h : Hash} {d : GhostdagData}, h ∈ blocks →
    m.getData h = some d → m.Recorded fuel k newBlockData size d → m.blueScore h < steps →
    ∀ found sizes n, Tracked size k found sizes n → (∀ y, m.BlueOf d y → y ∉ found) →
      Verdict size k (found ∪ m.bluesOutside blocks blue d)
        (m.checkChain fuel newBlockData blue k steps (some h) d sizes n) := by
  intro steps
  induction steps with
  | zero =>
    intro h d _ _ _ hlt
    omega
  | succ steps ih =>
    intro h d hh hd hrec hlt found sizes n htracked hdisj
    have hreach := inv.reachability h (.inl hh) blue hcandidate
    by_cases hpast : InPast m.Parent h blue
    · refine .inr ⟨n, sizes, ?_, ?_⟩
      · rw [checkChain, checkBlueCandidateWithChainBlock]
        simp only [hreach, hpast, decide_true, bind_eq_bind, bind_some, if_true, Option.pure_def]
      · have hempty : m.bluesOutside blocks blue d = ∅ := by
          refine Finset.filter_eq_empty_iff.mpr fun y hy hout => hout ?_
          have hy := (inv.past_of_blueOf (mem_blueSet.mp hy).2 hh hd).2
          exact hy.inPast.trans hpast
        rwa [hempty, Finset.union_empty]
    · have hne : h ≠ m.genesisHash := by
        rintro rfl
        exact hpast (inv.workDag.genesis_inPast hcandidate)
      obtain ⟨dp, link⟩ := inv.chainLink hh hne hd
      obtain ⟨-, d', -, hd', -, -, -, -, -, -, hscore⟩ := inv.readData hh hne
      obtain rfl := some.inj (hd.symm.trans hd')
      refine checkChain_link inv hcandidate link hrec ?_ ?_ htracked hdisj
      · intro h' hh'
        rw [← some.inj hh', hreach, decide_eq_false hpast]
      · refine ih link.mem_blocks link.getData (fun y hy => ?_) (by omega)
        exact hrec y ((link.blueOf_iff inv y).mpr (.inr hy))

end walk

section candidate

variable (inv : m.StoreInv blocks) {fuel k : ℕ} {sp : Hash} {merged : List Hash}
  {d : GhostdagData} (h : m.Coloring blocks k sp merged d) (hsp : sp ∈ blocks)
  (hmerged : m.Mergeable blocks sp merged) (hfuel : m.blueScore sp + 1 < fuel)
  {blue : Hash} (hcandidate : blue ∈ blocks)

include inv h hsp hmerged hfuel hcandidate

/-- The walk from the new block decides by the blues outside of the past of the candidate. -/
lemma checkChain_verdict :
    Verdict (m.trueAnticoneSize blocks d) k (m.bluesOutside blocks blue d)
      (m.checkChain fuel d blue k fuel none d ∅ 0) := by
  obtain ⟨dp, link⟩ := h.chainLink inv hsp hmerged
  have hrec : m.Recorded fuel k d (m.trueAnticoneSize blocks d) d :=
    fun y hy => ⟨h.anticoneSize y hy fuel (by omega), h.le_k y hy⟩
  obtain _ | steps := fuel
  · omega
  rw [← Finset.empty_union (m.bluesOutside blocks blue d)]
  refine checkChain_link inv hcandidate link hrec (fun h' hh' => ?_) ?_ (tracked_empty _ k)
    (by simp)
  · exact absurd hh' (by simp)
  · refine checkChain_spec inv hcandidate steps link.mem_blocks link.getData (fun y hy => ?_) ?_
    · exact hrec y ((link.blueOf_iff inv y).mpr (.inr hy))
    · rw [h.selectedParent_eq]
      omega

/-- `check_blue_candidate` returns red, or blue with the blues outside of the past of the
candidate and their sizes. -/
lemma checkBlueCandidate_spec :
    Outcome (m.trueAnticoneSize blocks d) k (m.bluesOutside blocks blue d)
      (m.checkBlueCandidate fuel d blue k) := by
  rw [checkBlueCandidate]
  split
  · exact .inl rfl
  · exact (checkChain_verdict inv h hsp hmerged hfuel hcandidate).outcome

end candidate

/-! ## Adding a candidate to the new block -/

section add

variable {d : GhostdagData} {blue : Hash} {n : ℕ} {sizes : HashKTypeMap} {x : Hash}

lemma lookup_addBlue (x : Hash) : (d.addBlue blue n sizes).bluesAnticoneSizes.lookup x =
      ((sizes.lookup x).map (· + 1)).or
        ((d.bluesAnticoneSizes.insert blue n).lookup x) := by
  unfold GhostdagData.addBlue
  rw [AssocMap.foldl_observe (fun acc : HashKTypeMap => acc.lookup x) x
    (fun v _ => some (v + 1))]
  · cases sizes.lookup x with
    | none => rfl
    | some v => rfl
  · intro acc s hs
    exact lookup_insert_ne (Ne.symm hs)
  · intro acc v
    exact lookup_insert acc

lemma blueOf_addBlue (x : Hash) : m.BlueOf (d.addBlue blue n sizes) x ↔
    x = blue ∨ m.BlueOf d x := by
  rw [blueOf_iff, blueOf_iff]
  unfold GhostdagData.addBlue
  rw [mem_append, mem_singleton]
  tauto

lemma blueSet_addBlue (hcandidate : blue ∈ blocks) :
    m.blueSet blocks (d.addBlue blue n sizes) =
      Insert.insert blue (m.blueSet blocks d) := by
  ext x
  rw [Finset.mem_insert, mem_blueSet, mem_blueSet, blueOf_addBlue]
  constructor
  · rintro ⟨hx, rfl | hblue⟩
    · exact .inl rfl
    · exact .inr ⟨hx, hblue⟩
  · rintro (rfl | ⟨hx, hblue⟩)
    · exact ⟨hcandidate, .inl rfl⟩
    · exact ⟨hx, .inr hblue⟩

/-- A looked up size only depends on the map of the context and its selected parent. -/
lemma blueAnticoneSize_congr {d e : GhostdagData} (hsp : d.selectedParent = e.selectedParent)
    (hlookup : d.bluesAnticoneSizes.lookup x = e.bluesAnticoneSizes.lookup x) :
    m.blueAnticoneSize fuel x d = m.blueAnticoneSize fuel x e := by
  cases fuel with
  | zero => rfl
  | succ fuel =>
    rw [blueAnticoneSize, blueAnticoneSize, blueAnticoneSizeLoop, blueAnticoneSizeLoop, hlookup,
      hsp]

lemma blueAnticoneSize_of_lookup {size : ℕ} {d : GhostdagData}
    (hfuel : 0 < fuel) (hlookup : d.bluesAnticoneSizes.lookup x = some size) :
    m.blueAnticoneSize fuel x d = some size := by
  obtain _ | fuel := fuel
  · omega
  rw [blueAnticoneSize, blueAnticoneSizeLoop, hlookup]

end add

section coloring

variable {k : ℕ} {sp : Hash} {merged : List Hash} {d : GhostdagData} {blue : Hash}

/-- A candidate that comes after the blues of the new block has the blues outside of its past in
its anticone. -/
lemma anticone_iff_mem_bluesOutside (hafter : ∀ y, m.BlueOf d y → ¬InPast m.Parent blue y)
    {x : Hash} (hx : x ∈ m.blueSet blocks d) :
    Anticone m.Parent x blue ↔ x ∈ m.bluesOutside blocks blue d := by
  rw [bluesOutside, Finset.mem_filter]
  constructor
  · exact fun h => ⟨hx, h.1⟩
  · exact fun h => ⟨h.2, hafter x (mem_blueSet.mp hx).2⟩

lemma bluesOutside_eq_anticoneIn (hafter : ∀ y, m.BlueOf d y → ¬InPast m.Parent blue y) :
    m.bluesOutside blocks blue d =
      anticoneIn m.Parent (m.blueSet blocks d) blue := by
  refine Finset.filter_congr fun y hy => ?_
  exact ⟨fun h => ⟨hafter y (mem_blueSet.mp hy).2, h⟩, fun h => h.2⟩

/-- Adding a blue candidate keeps the recorded sizes right and within `k`. -/
lemma Coloring.addBlue (h : m.Coloring blocks k sp merged d)
    (hcandidate : blue ∈ blocks) (hblues : ∀ x, m.BlueOf d x → x ∈ blocks)
    (hafter : ∀ y, m.BlueOf d y → ¬InPast m.Parent blue y)
    (htracked : Tracked (m.trueAnticoneSize blocks d) k (m.bluesOutside blocks blue d)
      sizes n) :
    m.Coloring blocks k sp (merged ++ [blue]) (d.addBlue blue n sizes) := by
  set d' := d.addBlue blue n sizes with hd'
  have hnotBlue : ¬m.BlueOf d blue := fun hb => hafter _ hb (InPast.refl _)
  have hnotMem : blue ∉ m.blueSet blocks d := fun hmem => hnotBlue (mem_blueSet.mp hmem).2
  have hset : m.blueSet blocks d' = Insert.insert blue (m.blueSet blocks d) :=
    blueSet_addBlue hcandidate
  have htail : d'.mergesetBlues = sp :: (d.mergesetBlues.tail ++ [blue]) := by
    rw [hd', GhostdagData.addBlue, h.blues_eq]
    rfl
  -- the sizes of the three kinds of blues: the candidate, those in its anticone, the others
  have hself : m.trueAnticoneSize blocks d' blue = n := by
    rw [trueAnticoneSize, hset, anticoneIn_insert_of_not (not_anticone_self _),
      ← bluesOutside_eq_anticoneIn hafter, htracked.count]
  have hin : ∀ x ∈ m.bluesOutside blocks blue d,
      m.trueAnticoneSize blocks d' x = m.trueAnticoneSize blocks d x + 1 := by
    intro x hx
    have hmem := (Finset.mem_filter.mp hx).1
    rw [trueAnticoneSize, hset, card_anticoneIn_insert hnotMem
      ((anticone_iff_mem_bluesOutside hafter hmem).mpr hx), trueAnticoneSize]
  have hout : ∀ x ∈ m.blueSet blocks d, x ∉ m.bluesOutside blocks blue d →
      m.trueAnticoneSize blocks d' x = m.trueAnticoneSize blocks d x := by
    intro x hmem hx
    rw [trueAnticoneSize, hset, anticoneIn_insert_of_not
      (fun hanti => hx ((anticone_iff_mem_bluesOutside hafter hmem).mp hanti)), trueAnticoneSize]
  have hlookup : ∀ x, sizes.lookup x = if x ∈ m.bluesOutside blocks blue d then
      some (m.trueAnticoneSize blocks d x) else none := htracked.lookup
  have hnotOut : blue ∉ m.bluesOutside blocks blue d :=
    fun hmem => hnotMem (Finset.mem_filter.mp hmem).1
  refine ⟨h.selectedParent_eq, ?_, ?_, ?_, ?_, fun x hx fuel hfuel => ?_, fun x hx => ?_⟩
  · rw [htail, tail_cons]
  · rw [htail, tail_cons]
    refine List.Perm.trans ?_ (h.perm.append_right [blue])
    rw [append_assoc, append_assoc]
    exact List.Perm.append_left _ perm_append_comm
  · rw [htail, tail_cons]
    exact h.blues_sublist.append (List.Sublist.refl _)
  · exact h.reds_sublist.trans (sublist_append_left _ _)
  · rcases (blueOf_addBlue x).mp hx with rfl | hx
    · rw [hself]
      refine blueAnticoneSize_of_lookup (by omega) ?_
      rw [hd', lookup_addBlue, hlookup, if_neg hnotOut, lookup_insert]
      rfl
    · have hne : x ≠ blue := fun heq => hnotBlue (heq ▸ hx)
      by_cases hmem : x ∈ m.bluesOutside blocks blue d
      · rw [hin x hmem]
        refine blueAnticoneSize_of_lookup (by omega) ?_
        rw [hd', lookup_addBlue, hlookup, if_pos hmem]
        rfl
      · rw [hout x (mem_blueSet.mpr ⟨hblues x hx, hx⟩) hmem, ← h.anticoneSize x hx fuel hfuel]
        refine blueAnticoneSize_congr rfl ?_
        rw [hd', lookup_addBlue, hlookup, if_neg hmem, lookup_insert_ne hne]
        rfl
  · rcases (blueOf_addBlue x).mp hx with rfl | hx
    · rw [hself, htracked.count]
      exact htracked.le_k
    · by_cases hmem : x ∈ m.bluesOutside blocks blue d
      · rw [hin x hmem]
        exact htracked.lt_k x hmem
      · rw [hout x (mem_blueSet.mpr ⟨hblues x hx, hx⟩) hmem]
        exact h.le_k x hx

/-- Data with the same blues and anticone sizes is colored as well. -/
lemma Coloring.of_blues {merged' : List Hash} {e : GhostdagData}
    (h : m.Coloring blocks k sp merged d) (hsp : e.selectedParent = d.selectedParent)
    (hblues : e.mergesetBlues = d.mergesetBlues)
    (hsizes : e.bluesAnticoneSizes = d.bluesAnticoneSizes)
    (hperm : (d.mergesetBlues.tail ++ e.mergesetReds).Perm merged')
    (hbluesSub : d.mergesetBlues.tail.Sublist merged') (hredsSub : e.mergesetReds.Sublist merged') :
    m.Coloring blocks k sp merged' e := by
  have hsize : ∀ x, m.trueAnticoneSize blocks e x = m.trueAnticoneSize blocks d x := by
    intro x
    rw [trueAnticoneSize, trueAnticoneSize, blueSet_congr hsp hblues]
  refine ⟨hsp.trans h.selectedParent_eq, hblues.symm ▸ h.blues_eq, hblues.symm ▸ hperm,
    hblues.symm ▸ hbluesSub, hredsSub, fun x hx fuel hfuel => ?_, fun x hx => ?_⟩
  · rw [hsize x, ← h.anticoneSize x ((blueOf_congr hsp hblues x).mp hx) fuel hfuel]
    exact blueAnticoneSize_congr hsp (hsizes ▸ rfl)
  · rw [hsize x]
    exact h.le_k x ((blueOf_congr hsp hblues x).mp hx)

lemma Coloring.addRed (h : m.Coloring blocks k sp merged d) (blue : Hash) :
    m.Coloring blocks k sp (merged ++ [blue]) (d.addRed blue) := by
  refine h.of_blues rfl rfl rfl ?_ (h.blues_sublist.trans (sublist_append_left _ _))
    (h.reds_sublist.append (List.Sublist.refl _))
  exact (append_assoc _ _ _).symm ▸ h.perm.append_right [blue]

end coloring

end GhostdagManager
end LapisMonetae.Ghostdag
