import LapisMonetae.Ghostdag.ChainTheorems
import LapisMonetae.Ghostdag.RunTheorems
import LapisMonetae.Virtual.SinkSearch
import LapisMonetae.Virtual.UtxoValidationTheorems

/-!
# Following the UTXO state along the chains

A `UtxoSemantics` says what the UTXO state of every block is and which blocks are valid. The stores
are correct for it when the stored diffs lead from the state of the selected parent to the state of
the block. Moving the diff from one block to another then keeps it the diff of the reached block
from virtual, and keeps the stores correct.
-/

namespace LapisMonetae.Virtual

open Utxo Ghostdag GhostdagManager Relation Classical Function Option VirtualStateProcessor ReflTransGen

/-- The UTXO state of every block with its multiset, and the blocks that are UTXO valid. -/
structure UtxoSemantics (M : Type) where
  state : Hash → UtxoView
  multiset : Hash → M
  valid : Hash → Prop

section definitions

variable {M : Type} [MultisetHash M] (p : VirtualStateProcessor M) (sem : UtxoSemantics M)

/-- The validation of `b` over the state of its selected parent `sp` runs through, `b` is valid if
it passes, and its state is then that of `sp` with the transactions its mergeset accepts. -/
structure BlockCheck (sp b : Hash) (header : Header) (data : GhostdagData)
    (mergeset : List SortableBlock) (accepted : List VerifiableTransaction) : Prop where
  header_eq : p.getHeader b = some header
  data_eq : p.ghostdagManager.getData b = some data
  mergeset_eq : p.ghostdagManager.ascendingMergesetWithoutSelectedParent data = some mergeset
  bodies : p.HasBodies (data.selectedParent :: mergeset.map SortableBlock.hash)
  accepted_eq : p.acceptedByMergeset data (sem.state sp) header.daaScore = some accepted
  fresh : FreshIds (sem.state sp) (sem.state sp) accepted
  verdict : ∀ ctx, p.calculateUtxoState (.new data (sem.multiset sp)) (sem.state sp)
    header.daaScore = some ctx → ∃ verdict,
      p.verifyExpectedUtxoState ctx (sem.state sp) header = some verdict ∧
      (sem.valid b ↔ ∃ ctx', verdict = .ok ctx') ∧
      ∀ ctx', verdict = .ok ctx' → sem.multiset b = ctx'.multisetHash
  state_eq : sem.valid b → sem.state b = applyAll header.daaScore accepted (sem.state sp)

/-- The stores agree with the semantics: a stored diff leads from the state of the selected parent
to the state of a valid block, a disqualified block is not valid, and any other block can be
validated once its selected parent is valid. -/
structure CorrectStores (blocks : Finset Hash) (stores : UtxoStores M) : Prop where
  status : ∀ b ∈ blocks, ∃ status, stores.statuses b = some status
  genesis : (stores.utxoDiffs p.ghostdagManager.genesisHash).isSome
  stored : ∀ b ∈ blocks, ∀ d, stores.utxoDiffs b = some d →
    sem.valid b ∧ stores.utxoMultisets b = some (sem.multiset b)
  chain : ∀ b ∈ blocks, b ≠ p.ghostdagManager.genesisHash → ∀ d,
    stores.utxoDiffs b = some d → ∀ sp, p.ghostdagManager.SelectedParent sp b →
      (stores.utxoDiffs sp).isSome ∧ ValidOver (sem.state sp) d ∧
      sem.state b = (sem.state sp).compose d
  disqualified : ∀ b ∈ blocks, stores.statuses b = some .statusDisqualifiedFromChain → ¬sem.valid b
  pending : ∀ b ∈ blocks, stores.utxoDiffs b = none →
    stores.statuses b ≠ some .statusDisqualifiedFromChain →
    stores.utxoMultisets b = none ∧ stores.acceptanceData b = none ∧
    ∀ sp, p.ghostdagManager.SelectedParent sp b → (sem.valid b → sem.valid sp) ∧
      (sem.valid sp → ∃ header data mergeset accepted,
        BlockCheck p sem sp b header data mergeset accepted)

/-- `diff` is the diff of `diffPoint`, a block with a stored diff, from virtual. -/
structure DiffOf (blocks : Finset Hash) (utxoSet : UtxoView) (s : Relative M) : Prop where
  stores : CorrectStores p sem blocks s.stores
  mem : s.diffPoint ∈ blocks
  stored : (s.stores.utxoDiffs s.diffPoint).isSome
  valid : ValidOver utxoSet s.diff
  view_eq : utxoSet.compose s.diff = sem.state s.diffPoint

/-- The virtual UTXO set and the states of the valid blocks. -/
def statesOf (utxoSet : UtxoView) (view : UtxoView) : Prop :=
  view = utxoSet ∨ ∃ b, sem.valid b ∧ view = sem.state b

end definitions

variable {M : Type} [MultisetHash M] {p : VirtualStateProcessor M} {sem : UtxoSemantics M}
  {blocks : Finset Hash} {utxoSet : UtxoView}
variable {valid : Finset Hash} {a b sp : Hash}

/-- A stored key stays stored. -/
lemma isSome_update {α : Type} {f : Hash → Option α} {x : α} (h : (f a).isSome) :
    (Function.update f b (some x) a).isSome := by
  by_cases hab : a = b
  · subst hab
    simp
  · rw [update_of_ne hab]
    exact h

namespace CorrectStores

variable {stores : UtxoStores M}
variable {b : Hash}

lemma valid_of_stored (h : CorrectStores p sem blocks stores) (hb : b ∈ blocks)
    (hstored : (stores.utxoDiffs b).isSome) : sem.valid b := by
  obtain ⟨d, hd⟩ := isSome_iff_exists.mp hstored
  exact (h.stored b hb d hd).1

lemma setDisqualified (h : CorrectStores p sem blocks stores) (hb : ¬sem.valid b) :
    CorrectStores p sem blocks (stores.setStatus b .statusDisqualifiedFromChain) := by
  refine ⟨fun c hc => ?_, h.genesis, h.stored, h.chain, fun c hc hstatus => ?_,
    fun c hc hnone hstatus => ?_⟩
  · have hstatus := isSome_iff_exists.mpr (h.status c hc)
    exact isSome_iff_exists.mp (isSome_update hstatus)
  · by_cases hcb : c = b
    · subst hcb
      exact hb
    · exact h.disqualified c hc ((update_of_ne hcb _ _).symm.trans hstatus)
  · have hcb : c ≠ b := by
      rintro rfl
      exact hstatus (update_self _ _ _)
    refine h.pending c hc hnone fun hs => hstatus ?_
    exact (update_of_ne hcb _ _).trans hs

lemma commit (h : CorrectStores p sem blocks stores) {sp : Hash} {d : UtxoDiff}
    (hsp : p.ghostdagManager.SelectedParent sp b) (hnone : stores.utxoDiffs b = none)
    (hpending : stores.utxoMultisets b = none ∧ stores.acceptanceData b = none)
    (hvalid : sem.valid b) (hspStored : (stores.utxoDiffs sp).isSome)
    (hd : ValidOver (sem.state sp) d) (hstate : sem.state b = (sem.state sp).compose d)
    (acceptanceData : List MergesetBlockAcceptanceData) (pruningSample : Hash) :
    ∃ stores', stores.commitUtxoState b d (sem.multiset b) acceptanceData pruningSample =
        some stores' ∧ (stores'.utxoDiffs b).isSome ∧ CorrectStores p sem blocks stores' := by
  unfold UtxoStores.commitUtxoState
  rw [hnone, hpending.1, hpending.2, if_neg (by simp)]
  refine ⟨_, rfl, by simp, fun c hc => ?_, ?_, fun c hc d' hd' => ?_,
    fun c hc hne d' hd' sp' hsp' => ?_,
    fun c hc hstatus => ?_, fun c hc hnone' hstatus => ?_⟩
  · have hstatus := isSome_iff_exists.mpr (h.status c hc)
    exact isSome_iff_exists.mp (isSome_update hstatus)
  · exact isSome_update h.genesis
  · by_cases hcb : c = b
    · subst hcb
      exact ⟨hvalid, update_self _ _ _⟩
    · obtain ⟨hv, hm⟩ := h.stored c hc d' ((update_of_ne hcb _ _).symm.trans hd')
      exact ⟨hv, (update_of_ne hcb _ _).trans hm⟩
  · by_cases hcb : c = b
    · subst hcb
      obtain rfl := hsp.unique hsp'
      obtain rfl : d = d' :=
        some.inj ((update_self (f := stores.utxoDiffs) _ _).symm.trans hd')
      exact ⟨isSome_update hspStored, hd, hstate⟩
    · obtain ⟨hstored, hrest⟩ :=
        h.chain c hc hne d' ((update_of_ne hcb _ _).symm.trans hd') sp' hsp'
      exact ⟨isSome_update hstored, hrest⟩
  · have hcb : c ≠ b := by
      rintro rfl
      exact absurd ((update_self (f := stores.statuses) _ _).symm.trans hstatus) (by simp)
    exact h.disqualified c hc ((update_of_ne hcb _ _).symm.trans hstatus)
  · have hcb : c ≠ b := by
      rintro rfl
      exact absurd ((update_self (f := stores.utxoDiffs) _ _).symm.trans hnone') (by simp)
    obtain ⟨hm, ha, hrest⟩ := h.pending c hc ((update_of_ne hcb _ _).symm.trans hnone')
      fun hs => hstatus ((update_of_ne hcb _ _).trans hs)
    exact ⟨(update_of_ne hcb _ _).trans hm, (update_of_ne hcb _ _).trans ha, hrest⟩

end CorrectStores

lemma DiffOf.diffPoint_valid {s : Relative M} (h : DiffOf p sem blocks utxoSet s) :
    sem.valid s.diffPoint :=
  h.stores.valid_of_stored h.mem h.stored

/-! ## Walking down -/

omit [MultisetHash M] in
/-- Following a diff, with the `unwrap` of the code. -/
lemma unwrapDiff_follows {D : Type} [ImmutableUtxoDiff D] {other : D} {diff : UtxoDiff}
    (hagree : EntriesAgree (statesOf sem utxoSet)) (ha : sem.valid a) (hb : sem.valid b)
    (hdiff : ValidOver utxoSet diff) (hview : utxoSet.compose diff = sem.state a)
    (hother : ValidOver (sem.state a) other) (hnext : sem.state b = (sem.state a).compose other) :
    ∃ diff', unwrapDiff (diff.withDiffInPlace other) = some diff' ∧ ValidOver utxoSet diff' ∧
      utxoSet.compose diff' = sem.state b := by
  rw [← hview] at hother hnext
  obtain ⟨d', hd', hvalid', hview'⟩ := withDiffInPlace_follows hagree (Or.inl rfl) hdiff
    (Or.inr ⟨a, ha, hview⟩) hother (Or.inr ⟨b, hb, hnext.symm⟩)
  refine ⟨d', ?_, hvalid', hview'.trans hnext.symm⟩
  rw [hd']
  rfl

section chains

variable (tree : p.ghostdagManager.ChainTree blocks)
  (hserves : p.reachabilityService.Serves p.ghostdagManager blocks)
  (hagree : EntriesAgree (statesOf sem utxoSet))
variable {b target : Hash} {s : Relative M}

include tree hserves hagree

/-- The walk down ends at the split point with its diff. -/
lemma walkDown_spec {stores : UtxoStores M} (htarget : target ∈ blocks) :
    ∀ {source : Hash} {diff : UtxoDiff}, DiffOf p sem blocks utxoSet ⟨stores, diff, source⟩ →
      ∃ diff' split, DiffOf p sem blocks utxoSet ⟨stores, diff', split⟩ ∧
        p.ghostdagManager.OnChain split target ∧
        Fuel.Returns (fun fuel => p.walkDown stores target fuel diff source) (diff', split) := by
  intro source
  -- the walk goes down the chain of `source`, which loses blue score at every step
  induction hn : p.ghostdagManager.blueScore source using Nat.strong_induction_on
    generalizing source with
  | _ n ih =>
    intro diff h
    have hsource : source ∈ blocks := h.mem
    have hstores : CorrectStores p sem blocks stores := h.stores
    have hisSome : (stores.utxoDiffs source).isSome := h.stored
    obtain ⟨d, hd⟩ := tree.getData_some source hsource
    have hparent := hserves.getChainParent source hsource d hd
    have hquery := hserves.isChainAncestorOf source hsource target htarget
    have horigin : source ≠ BlockHash.origin := fun heq => tree.origin_notMem (heq ▸ hsource)
    by_cases hon : p.ghostdagManager.OnChain source target
    · refine ⟨diff, source, h, hon, (Fuel.returns_const _).of_succ fun fuel => ?_⟩
      simp only [walkDown, if_neg horigin, hparent, hquery,
        some_bind_eq, decide_eq_true hon, if_true, pure_def]
    · have hne : source ≠ p.ghostdagManager.genesisHash := by
        rintro rfl
        exact hon (tree.genesis_onChain htarget)
      obtain ⟨hsp, hselected, hlt⟩ := tree.selectedParent source hsource hne d hd
      -- the stored diff of the block leads back to its selected parent
      obtain ⟨mergesetDiff, hstored⟩ := isSome_iff_exists.mp hisSome
      obtain ⟨hspStored, hvalid, hstate⟩ :=
        hstores.chain source hsource hne mergesetDiff hstored _ hselected
      obtain ⟨hreversed, hback⟩ := hvalid.asReversed
      rw [← hstate] at hreversed hback
      obtain ⟨diff₁, hdiff₁, hvalid₁, hview₁⟩ := unwrapDiff_follows hagree
        (hstores.valid_of_stored hsource hisSome) (hstores.valid_of_stored hsp hspStored)
        h.valid h.view_eq hreversed hback.symm
      obtain ⟨diff', split, hsplit, hsplitOn, hreturns⟩ :=
        ih _ (hn ▸ hlt) rfl ⟨hstores, hsp, hspStored, hvalid₁, hview₁⟩
      refine ⟨diff', split, hsplit, hsplitOn, hreturns.of_succ fun fuel => ?_⟩
      simp only [walkDown, if_neg horigin, hparent, hquery,
        some_bind_eq, decide_eq_false hon, Bool.false_eq_true, if_false,
        hstored, hdiff₁]

/-! ## Walking up -/

omit tree hserves hagree in
/-- The verification keeps the diff and finds the pruning sample. -/
lemma verifyExpectedUtxoState_ok {ctx ctx' : UtxoProcessingContext M} {view : UtxoView}
    {header : Header} (h : p.verifyExpectedUtxoState ctx view header = some (.ok ctx')) :
    ctx'.mergesetDiff = ctx.mergesetDiff ∧ ∃ sample, ctx'.pruningSampleFromPov = some sample := by
  unfold verifyExpectedUtxoState at h
  dsimp only at h
  -- every check that fails ends in an error
  split at h
  · cases h
  split at h
  · cases h
  obtain ⟨txs, -, h⟩ := bind_eq_some_iff.mp h
  obtain ⟨coinbase, -, h⟩ := bind_eq_some_iff.mp h
  obtain ⟨mergesetNonDaa, -, h⟩ := bind_eq_some_iff.mp h
  split at h
  · cases h
  split at h
  · cases h
  split at h
  · cases h
  obtain rfl := Except.ok.inj (some.inj h)
  exact ⟨rfl, _, rfl⟩

omit tree hserves in
/-- Validating a pending block over its valid selected parent: the walk reaches the block if it is
valid, and marks it otherwise. -/
lemma validateChainBlock_spec (h : DiffOf p sem blocks utxoSet s) (hb : b ∈ blocks)
    (hsp : p.ghostdagManager.SelectedParent s.diffPoint b) (hnone : s.stores.utxoDiffs b = none)
    (hstatus : s.stores.statuses b ≠ some .statusDisqualifiedFromChain) :
    ∃ s', p.validateChainBlock utxoSet s s.diffPoint b = some s' ∧ DiffOf p sem blocks utxoSet s' ∧
      s'.diffPoint = if sem.valid b then b else s.diffPoint := by
  obtain ⟨hmultiset, hacceptance, hpending⟩ := h.stores.pending b hb hnone hstatus
  have hspValid := h.diffPoint_valid
  obtain ⟨header, data, mergeset, accepted, hcheck⟩ := (hpending _ hsp).2 hspValid
  obtain ⟨d₀, hd₀⟩ := isSome_iff_exists.mp h.stored
  have hspMultiset := (h.stores.stored _ h.mem d₀ hd₀).2
  obtain ⟨ctx, hctx, hvalid, hview⟩ := calculateUtxoState_spec
    hcheck.accepted_eq hcheck.mergeset_eq hcheck.bodies hcheck.fresh
  obtain ⟨verdict, hverdict, hiff, hmultisetEq⟩ := hcheck.verdict ctx hctx
  unfold validateChainBlock
  simp only [hcheck.header_eq, hcheck.data_eq, hspMultiset, h.view_eq, hctx, hverdict,
    bind_eq_bind, bind_some]
  cases verdict with
  | error e =>
    have hinvalid : ¬sem.valid b := by
      rw [hiff]
      rintro ⟨ctx', hctx'⟩
      cases hctx'
    rw [if_neg hinvalid]
    exact ⟨_, rfl, ⟨h.stores.setDisqualified hinvalid, h.mem, h.stored, h.valid, h.view_eq⟩, rfl⟩
  | ok ctx' =>
    have hbValid : sem.valid b := hiff.mpr ⟨ctx', rfl⟩
    obtain ⟨hdiffEq, sample, hsample⟩ := verifyExpectedUtxoState_ok hverdict
    have hstate : sem.state b = (sem.state s.diffPoint).compose ctx.mergesetDiff :=
      (hcheck.state_eq hbValid).trans hview.symm
    obtain ⟨diff', hdiff', hvalid', hview'⟩ :=
      unwrapDiff_follows hagree hspValid hbValid h.valid h.view_eq hvalid hstate
    obtain ⟨stores', hstores', hstored', hcorrect⟩ := h.stores.commit hsp hnone
      ⟨hmultiset, hacceptance⟩ hbValid h.stored hvalid hstate ctx'.mergesetAcceptanceData sample
    rw [hmultisetEq ctx' rfl] at hstores'
    rw [if_pos hbValid]
    simp only [hdiffEq, hdiff', hsample, hstores', bind_some, pure_def]
    exact ⟨_, rfl, ⟨hcorrect, hb, hstored', hvalid', hview'⟩, rfl⟩

omit tree hserves in
/-- One round of the walk up. The diff point is the selected parent exactly if that is valid, and
then moves on to the block exactly if the block is valid. -/
lemma stepUp_spec {sp : Hash} (h : DiffOf p sem blocks utxoSet s) (hspMem : sp ∈ blocks)
    (hb : b ∈ blocks) (hne : b ≠ p.ghostdagManager.genesisHash)
    (hsp : p.ghostdagManager.SelectedParent sp b) (hpoint : sem.valid sp ↔ s.diffPoint = sp) :
    ∃ s', p.stepUp utxoSet s sp b = some s' ∧ DiffOf p sem blocks utxoSet s' ∧
      s'.diffPoint = if sem.valid b then b else s.diffPoint := by
  unfold stepUp
  obtain ⟨status, hstatus⟩ := h.stores.status b hb
  by_cases hreached : sp = s.diffPoint
  · subst hreached
    rw [if_neg (by simp)]
    cases hstored : s.stores.utxoDiffs b with
    | some d =>
      obtain ⟨hbValid, -⟩ := h.stores.stored b hb d hstored
      obtain ⟨-, hvalid, hstate⟩ := h.stores.chain b hb hne d hstored _ hsp
      obtain ⟨diff', hdiff', hvalid', hview'⟩ := unwrapDiff_follows hagree
        h.diffPoint_valid hbValid h.valid h.view_eq hvalid hstate
      rw [if_pos hbValid]
      simp only [hdiff', some_bind_eq, pure_def]
      refine ⟨_, rfl, ⟨h.stores, hb, ?_, hvalid', hview'⟩, rfl⟩
      show (s.stores.utxoDiffs b).isSome = true
      rw [hstored]
      rfl
    | none =>
      simp only [hstatus, some_bind_eq]
      by_cases hdisqualified : status = .statusDisqualifiedFromChain
      · subst hdisqualified
        rw [if_pos rfl, if_neg (h.stores.disqualified b hb hstatus)]
        exact ⟨s, rfl, h, rfl⟩
      · rw [if_neg hdisqualified]
        refine validateChainBlock_spec hagree h hb hsp hstored ?_
        rw [hstatus]
        exact fun heq => hdisqualified (some.inj heq)
  · -- the selected parent is not valid, so the block is not either
    have hspInvalid : ¬sem.valid sp := fun hv => hreached (hpoint.mp hv).symm
    have hbInvalid : ¬sem.valid b := by
      intro hbValid
      cases hstored : s.stores.utxoDiffs b with
      | some d =>
        obtain ⟨hspStored, -⟩ := h.stores.chain b hb hne d hstored _ hsp
        exact hspInvalid (h.stores.valid_of_stored hspMem hspStored)
      | none =>
        refine hspInvalid (((h.stores.pending b hb hstored ?_).2.2 sp hsp).1 hbValid)
        exact fun hs => h.stores.disqualified b hb hs hbValid
    rw [if_pos hreached, if_neg hbInvalid]
    simp only [hstatus, some_bind_eq]
    split
    · exact ⟨_, rfl, ⟨h.stores.setDisqualified hbInvalid, h.mem, h.stored, h.valid, h.view_eq⟩, rfl⟩
    · exact ⟨s, rfl, h, rfl⟩

omit hserves in
/-- The walk up along a chain ends at the highest valid block of it. -/
lemma walkUp_spec {a : Hash} {l : List Hash} (hchain : p.ghostdagManager.ChainUp target a l) :
    a ∈ blocks → ∀ {s : Relative M}, DiffOf p sem blocks utxoSet s →
      p.ghostdagManager.OnChain s.diffPoint a → (sem.valid a ↔ s.diffPoint = a) →
      ∃ s', p.walkUp utxoSet ((a :: l).zip l) s = some s' ∧ DiffOf p sem blocks utxoSet s' ∧
        p.ghostdagManager.OnChain s.diffPoint s'.diffPoint ∧
        p.ghostdagManager.OnChain s'.diffPoint target ∧
        (∀ c ∈ l, sem.valid c → p.ghostdagManager.OnChain c s'.diffPoint) ∧
        (sem.valid target ↔ s'.diffPoint = target) := by
  induction hchain with
  | here =>
    intro _ s h hon hpoint
    exact ⟨s, rfl, h, refl, hon, by simp, hpoint⟩
  | @step a b l hab hrest ih =>
    intro ha s h hon hpoint
    have hb := tree.child_mem _ _ hab
    have hne : b ≠ p.ghostdagManager.genesisHash := by
      rintro rfl
      exact tree.genesis_root a ha hab
    obtain ⟨s₁, hs₁, h₁, hpoint₁⟩ := stepUp_spec hagree h ha hb hne hab hpoint
    have hvalid₁ : sem.valid b ↔ s₁.diffPoint = b := by
      constructor
      · intro hv
        rw [hpoint₁, if_pos hv]
      · intro heq
        exact heq ▸ h₁.diffPoint_valid
    have hon₁ : p.ghostdagManager.OnChain s.diffPoint s₁.diffPoint ∧
        p.ghostdagManager.OnChain s₁.diffPoint b := by
      rw [hpoint₁]
      split
      · exact ⟨hon.tail hab, refl⟩
      · exact ⟨refl, hon.tail hab⟩
    obtain ⟨s', hs', h', hup, htarget, hvalid, hiff⟩ := ih hb h₁ hon₁.2 hvalid₁
    refine ⟨s', ?_, h', hon₁.1.trans hup, htarget, fun c hc hv => ?_, hiff⟩
    · rw [List.zip_cons_cons, walkUp, hs₁]
      exact hs'
    · rcases List.mem_cons.mp hc with rfl | hc
      · rw [← hvalid₁.mp hv]
        exact hup
      · exact hvalid c hc hv

/-! ## From block to block -/

/-- `calculate_utxo_state_relatively` moves the diff to the highest valid block on the chain of
the target, unless the target is already known to be disqualified. -/
lemma calculateUtxoStateRelatively_spec (h : DiffOf p sem blocks utxoSet s)
    (htarget : target ∈ blocks) :
    ∃ s', Fuel.Returns (fun fuel => p.calculateUtxoStateRelatively fuel utxoSet s.stores s.diff
        s.diffPoint target) s' ∧ DiffOf p sem blocks utxoSet s' ∧
      (sem.valid target ↔ s'.diffPoint = target) ∧
      (s.stores.statuses target = some .statusDisqualifiedFromChain → s' = s) ∧
      (s.stores.statuses target ≠ some .statusDisqualifiedFromChain →
        p.ghostdagManager.OnChain s'.diffPoint target ∧
        ∀ c, p.ghostdagManager.OnChain c target → sem.valid c →
          p.ghostdagManager.OnChain c s'.diffPoint) := by
  obtain ⟨status, hstatus⟩ := h.stores.status target htarget
  by_cases hdisqualified : status = .statusDisqualifiedFromChain
  · subst hdisqualified
    refine ⟨s, ⟨0, fun fuel _ => ?_⟩, h, ⟨fun hv => ?_, fun heq => ?_⟩, fun _ => rfl,
      fun hne => absurd hstatus hne⟩
    · simp only [calculateUtxoStateRelatively, hstatus, bind_eq_bind,
        bind_some, if_true, pure_def]
    · exact absurd hv (h.stores.disqualified target htarget hstatus)
    · exact heq ▸ h.diffPoint_valid
  · obtain ⟨diff₁, split, hsplit, hsplitOn, enough, hdown⟩ :=
      walkDown_spec tree hserves hagree htarget
        (h : DiffOf p sem blocks utxoSet ⟨s.stores, s.diff, s.diffPoint⟩)
    have hsplitMem : split ∈ blocks := hsplit.mem
    obtain ⟨l, hl⟩ := hsplitOn.exists_chainUp
    obtain ⟨s', hs', h', hup, hon, hvalid, hiff⟩ := walkUp_spec tree hagree hl hsplitMem hsplit
      refl ⟨fun _ => rfl, fun _ => hsplit.diffPoint_valid⟩
    refine ⟨s', ⟨max enough (l.length + 1), fun fuel hfuel => ?_⟩, h', hiff, ?_, fun _ =>
      ⟨hon, fun c hc hv => ?_⟩⟩
    · have hchain := tree.forwardChain_eq hserves htarget hl hsplitMem fuel (by omega)
      simp only [calculateUtxoStateRelatively, hstatus, bind_eq_bind,
        bind_some, if_neg hdisqualified, hdown fuel (by omega), hchain, List.drop_one,
        List.tail_cons, hs']
    · intro heq
      exact absurd (some.inj (hstatus.symm.trans heq)) hdisqualified
    · -- a block of the chain is below the split point or above it
      rcases hl.mem_or_onChain hc with hc | hc
      · exact hvalid c hc hv
      · exact hc.trans hup

/-- For stores whose diffs are correct and a `diff` that is the diff of `source` from virtual,
`calculate_utxo_state_relatively` returns a block together with the diff from virtual to exactly
its UTXO state. The block is the highest valid one on the chain of the target, or the source itself
where the target is already known to be disqualified. -/
theorem calculateUtxoStateRelatively_correct {stores : UtxoStores M} {diff : UtxoDiff}
    {source target : Hash} (hstores : CorrectStores p sem blocks stores) (hsource : source ∈ blocks)
    (hstored : (stores.utxoDiffs source).isSome) (hdiff : ValidOver utxoSet diff)
    (hview : utxoSet.compose diff = sem.state source) (htarget : target ∈ blocks) :
    ∃ s', Fuel.Returns (fun fuel => p.calculateUtxoStateRelatively fuel utxoSet stores diff source
        target) s' ∧
      ValidOver utxoSet s'.diff ∧ utxoSet.compose s'.diff = sem.state s'.diffPoint ∧
      CorrectStores p sem blocks s'.stores ∧
      if stores.statuses target = some .statusDisqualifiedFromChain then s' = ⟨stores, diff, source⟩
      else p.ghostdagManager.OnChain s'.diffPoint target ∧ sem.valid s'.diffPoint ∧
        ∀ c, p.ghostdagManager.OnChain c target → sem.valid c →
          p.ghostdagManager.OnChain c s'.diffPoint := by
  have h : DiffOf p sem blocks utxoSet ⟨stores, diff, source⟩ :=
    ⟨hstores, hsource, hstored, hdiff, hview⟩
  obtain ⟨s', hreturns, h', -, hknown, hchain⟩ :=
    calculateUtxoStateRelatively_spec tree hserves hagree h htarget
  refine ⟨s', hreturns, h'.valid, h'.view_eq, h'.stores, ?_⟩
  split
  · next hstatus => exact hknown hstatus
  · next hstatus =>
    obtain ⟨hon, hhighest⟩ := hchain hstatus
    exact ⟨hon, h'.diffPoint_valid, hhighest⟩

end chains

/-! ## On the diamond -/

/-- No hash at all. -/
instance : MultisetHash Unit where
  new := ()
  fromTransaction _ _ := ()
  addTransaction _ _ _ := ()
  combine _ _ := ()
  finalize _ := ((), 0)

/-- The coinbase of the block `b`. -/
def coinbaseOf (b : Hash) : Transaction :=
  ⟨100 + b, [], [(50, ⟨0, []⟩)], true, List.replicate 19 0⟩

/-- A processor over a DAG whose blocks hold nothing but coinbases. -/
def coinbasesOnly (m : GhostdagManager) : VirtualStateProcessor Unit where
  ghostdagManager := m
  reachabilityService := m.chainService 20
  getHeader b := some ⟨b, b, 0, 0, 1⟩
  getTransactions b := some [coinbaseOf b]
  mergeDepthRoot _ := some 1
  getMergesetNonDaa _ := some []
  payloadLimits := Coinbase.mainnetPayloadLimits
  crescendoActivation := .always
  validatePopulatedTransactionAndGetFee _ _ _ _ := .ok 0
  calcAcceptedIdMerkleRoot _ _ _ := 0
  verifyCoinbaseTransaction _ _ _ _ _ := .ok ()
  verifyHeaderPruningPoint _ _ := .ok 1

/-- The processor over the diamond. -/
def onDiamond : VirtualStateProcessor Unit := coinbasesOnly diamond

/-- The state of a block: the coinbases of the chain below it. -/
def diamondState (b : Hash) : UtxoView :=
  let accept (b sp : Hash) (view : UtxoView) := view.apply b ((coinbaseOf sp).populate [])
  if b = 2 then accept 2 1 fun _ => none
  else if b = 3 then accept 3 1 fun _ => none
  else if b = 4 then accept 4 3 (accept 3 1 fun _ => none)
  else fun _ => none

/-- The states of the diamond, with the given valid blocks. -/
def diamondSemantics (valid : Finset Hash) : UtxoSemantics Unit :=
  ⟨diamondState, fun _ => (), fun b => b ∈ valid⟩

/-- Stores in which `2` is the sink, `3` has the given status and `4` is pending. -/
def diamondStores (status : BlockStatus) : UtxoStores Unit where
  statuses b := some (if b = 1 ∨ b = 2 then .statusUTXOValid else if b = 3 then status
    else .statusUTXOPendingVerification)
  utxoDiffs b :=
    if b = 1 then some .default
    else if b = 2 then some (changeOnly ⟨101, 0⟩ ⟨some ⟨50, ⟨0, []⟩, 2, true⟩, none⟩)
    else none
  utxoMultisets b := if b = 1 ∨ b = 2 then some () else none
  acceptanceData b := if b = 1 ∨ b = 2 then some [] else none
  pruningSamples _ := none

lemma diamondState_two : diamondState 2 =
    Function.update (fun _ => none) ⟨101, 0⟩ (some ⟨50, ⟨0, []⟩, 2, true⟩) := rfl

lemma diamondState_three : diamondState 3 =
    Function.update (fun _ => none) ⟨101, 0⟩ (some ⟨50, ⟨0, []⟩, 3, true⟩) := rfl

lemma onDiamond_acceptedByBlocks (povDaaScore : ℕ) (l : List Hash) (view : UtxoView) :
    onDiamond.acceptedByBlocks povDaaScore l view = some [] := by
  induction l generalizing view with
  | nil => rfl
  | cons b l ih =>
    have hrest : onDiamond.acceptedByBlocks povDaaScore l (applyAll povDaaScore [] view) =
        some [] := ih _
    show (onDiamond.acceptedByBlocks povDaaScore l (applyAll povDaaScore [] view)).bind
      (fun more => some ([] ++ more)) = some []
    rw [hrest]
    rfl

lemma onDiamond_hasBodies (l : List Hash) : onDiamond.HasBodies l := by
  intro b _ txs htxs
  obtain rfl := some.inj htxs
  exact ⟨coinbaseOf b, rfl, rfl, rfl, ⟨_, rfl⟩, List.nodup_nil⟩

/-- The blocks `3` and `4` of the diamond pass their checks. -/
lemma onDiamond_blockCheck {d : GhostdagData} {mergeset : List SortableBlock}
    (hd : diamond.getData b = some d) (hsp : d.selectedParent = sp)
    (hmergeset : diamond.ascendingMergesetWithoutSelectedParent d = some mergeset)
    (hfree : ∀ i, diamondState sp ⟨100 + sp, i⟩ = none) (hb : b ∈ valid)
    (hstate : diamondState b = (diamondState sp).apply b ((coinbaseOf sp).populate [])) :
    BlockCheck onDiamond (diamondSemantics valid) sp b ⟨b, b, 0, 0, 1⟩ d mergeset
      [(coinbaseOf sp).populate []] where
  header_eq := rfl
  data_eq := hd
  mergeset_eq := hmergeset
  bodies := onDiamond_hasBodies _
  accepted_eq := by
    subst hsp
    let view := (diamondState d.selectedParent).apply b ((coinbaseOf d.selectedParent).populate [])
    show (diamond.ascendingMergesetWithoutSelectedParent d).bind (fun mergeset =>
      (onDiamond.acceptedByBlocks b (mergeset.map SortableBlock.hash) view).bind fun more =>
        some ((coinbaseOf d.selectedParent).populate [] :: ([] ++ more))) = _
    rw [hmergeset, bind_some, onDiamond_acceptedByBlocks]
    rfl
  fresh := by
    refine ⟨List.nodup_singleton _, fun t ht i => ?_⟩
    rw [List.mem_singleton.mp ht]
    exact ⟨hfree i, hfree i⟩
  verdict ctx _ := ⟨_, rfl, ⟨fun _ => ⟨_, rfl⟩, fun _ => hb⟩, fun _ _ => rfl⟩
  state_eq _ := hstate

/-- What the ghostdag store of the diamond holds for a block above genesis. -/
lemma diamond_read {q : Hash} (sp : Hash) (hq : diamond.SelectedParent q b)
    (h : (diamond.getData b).map (fun d => (d.selectedParent,
      (diamond.ascendingMergesetWithoutSelectedParent d).isSome)) = some (sp, true)) :
    q = sp ∧ ∃ d mergeset, diamond.getData b = some d ∧ d.selectedParent = sp ∧
      diamond.ascendingMergesetWithoutSelectedParent d = some mergeset := by
  obtain ⟨-, d, hd, rfl⟩ := hq
  rw [hd] at h
  obtain ⟨hsp, hmergeset⟩ := Prod.mk.inj (some.inj h)
  obtain ⟨mergeset, hmergeset⟩ := isSome_iff_exists.mp hmergeset
  exact ⟨hsp, d, mergeset, hd, hsp, hmergeset⟩

/-- The stores with the sink `2` are correct, whether `3` is pending or known to be
disqualified. -/
lemma diamondStores_correct {status : BlockStatus}
    (h : status = .statusUTXOPendingVerification ∧ valid = {4, 3, 2, 1} ∨
      status = .statusDisqualifiedFromChain ∧ valid = {2, 1}) :
    CorrectStores onDiamond (diamondSemantics valid) {4, 3, 2, 1} (diamondStores status) := by
  have hcases : ∀ b ∈ ({4, 3, 2, 1} : Finset Hash), b = 4 ∨ b = 3 ∨ b = 2 ∨ b = 1 := by simp
  have hlow : (1 : Hash) ∈ valid ∧ (2 : Hash) ∈ valid := by
    rcases h with ⟨-, rfl⟩ | ⟨-, rfl⟩ <;> decide
  have h3 : (3 : Hash) ∉ ({2, 1} : Finset Hash) := by decide
  have h4 : (4 : Hash) ∉ ({2, 1} : Finset Hash) := by decide
  have h3' : (3 : Hash) ∈ ({4, 3, 2, 1} : Finset Hash) := by decide
  refine ⟨fun b _ => ⟨_, rfl⟩, rfl, fun b hb d hd => ?_, fun b hb hne d hd sp hsp => ?_,
    fun b hb hstatus => ?_, fun b hb hnone hstatus => ?_⟩
  · rcases hcases b hb with rfl | rfl | rfl | rfl
    · cases hd
    · cases hd
    · exact ⟨hlow.2, rfl⟩
    · exact ⟨hlow.1, rfl⟩
  · rcases hcases b hb with rfl | rfl | rfl | rfl
    · cases hd
    · cases hd
    · obtain rfl := some.inj hd
      obtain ⟨rfl, -⟩ := diamond_read 1 hsp (by decide +kernel)
      refine ⟨rfl, validOver_changeOnly ⟨fun e he => ?_, fun e _ => Or.inl rfl⟩, funext fun q => ?_⟩
      · cases he
      · show diamondState 2 q = _
        rw [diamondState_two, compose_apply, changeAt_changeOnly, update_apply]
        split <;> rfl
    · exact absurd rfl hne
  · rcases hcases b hb with rfl | rfl | rfl | rfl
    · cases hstatus
    · rcases h with ⟨rfl, -⟩ | ⟨-, rfl⟩
      · cases hstatus
      · exact h3
    · cases hstatus
    · cases hstatus
  · rcases hcases b hb with rfl | rfl | rfl | rfl
    · refine ⟨rfl, rfl, fun sp hsp => ?_⟩
      obtain ⟨rfl, d, mergeset, hd, hsp, hmergeset⟩ := diamond_read 3 hsp (by decide +kernel)
      rcases h with ⟨-, rfl⟩ | ⟨-, rfl⟩
      · refine ⟨fun _ => h3', fun _ => ⟨_, d, mergeset, _, onDiamond_blockCheck hd hsp hmergeset
          (fun i => ?_) (by decide) rfl⟩⟩
        rw [diamondState_three, update_of_ne (by simp)]
      · exact ⟨fun hv => absurd hv h4, fun hv => absurd hv h3⟩
    · refine ⟨rfl, rfl, fun sp hsp => ?_⟩
      obtain ⟨rfl, d, mergeset, hd, hsp, hmergeset⟩ := diamond_read 1 hsp (by decide +kernel)
      rcases h with ⟨-, rfl⟩ | ⟨rfl, -⟩
      · exact ⟨fun _ => hlow.1, fun _ => ⟨_, d, mergeset, _, onDiamond_blockCheck hd hsp hmergeset
          (fun i => rfl) (by decide) rfl⟩⟩
      · exact absurd rfl hstatus
    · cases hnone
    · cases hnone

/-- All entries are coinbase outputs of one amount. -/
def CoinbaseEntries (view : UtxoView) : Prop :=
  ∀ q e, view q = some e → e = ⟨50, ⟨0, []⟩, e.blockDaaScore, true⟩

lemma CoinbaseEntries.accept {view : UtxoView} (h : CoinbaseEntries view) (b sp : Hash) :
    CoinbaseEntries (view.apply b ((coinbaseOf sp).populate [])) := by
  intro q e he
  have hupdate : Function.update view ⟨100 + sp, 0⟩ (some ⟨50, ⟨0, []⟩, b, true⟩) q = some e := he
  rw [update_apply] at hupdate
  split at hupdate
  · rw [← some.inj hupdate]
  · exact h q e hupdate

lemma coinbaseEntries_diamondState (b : Hash) : CoinbaseEntries (diamondState b) := by
  have hempty : CoinbaseEntries fun _ => none := by
    intro q e he
    cases he
  unfold diamondState
  split
  · exact hempty.accept 2 1
  split
  · exact hempty.accept 3 1
  split
  · exact (hempty.accept 3 1).accept 4 3
  · exact hempty

lemma diamond_entriesAgree (valid : Finset Hash) :
    EntriesAgree (statesOf (diamondSemantics valid) (diamondState 2)) := by
  have hentry : ∀ v, statesOf (diamondSemantics valid) (diamondState 2) v → CoinbaseEntries v := by
    rintro v (rfl | ⟨b, -, rfl⟩)
    · exact coinbaseEntries_diamondState 2
    · exact coinbaseEntries_diamondState b
  intro v v' hv hv' q e e' he he' hscore
  rw [hentry v hv q e he, hentry v' hv' q e' he', hscore]

lemma onDiamond_serves : onDiamond.reachabilityService.Serves diamond {4, 3, 2, 1} :=
  built_diamond.storeInv.chainService_serves (by decide +kernel)

/-- From the sink `2` to the block `4` on the other side, whose chain has not been validated. -/
theorem calculateUtxoStateRelatively_onDiamond :
    ∃ s', Fuel.Returns (fun fuel => onDiamond.calculateUtxoStateRelatively fuel (diamondState 2)
        (diamondStores .statusUTXOPendingVerification) .default 2 4) s' ∧
      (diamondState 2).compose s'.diff = diamondState s'.diffPoint ∧
      diamond.OnChain s'.diffPoint 4 := by
  obtain ⟨s', hreturns, -, hview', -, hchain⟩ := calculateUtxoStateRelatively_correct
    (p := onDiamond) built_diamond.storeInv.mergedDag.chainTree onDiamond_serves
    (diamond_entriesAgree {4, 3, 2, 1}) (diamondStores_correct (Or.inl ⟨rfl, rfl⟩))
    (by decide : (2 : Hash) ∈ ({4, 3, 2, 1} : Finset Hash)) rfl (validOver_default _)
      (compose_default _)
    (by decide : (4 : Hash) ∈ ({4, 3, 2, 1} : Finset Hash))
  have hpending : (diamondStores .statusUTXOPendingVerification).statuses 4 ≠
      some .statusDisqualifiedFromChain := by decide
  rw [if_neg hpending] at hchain
  exact ⟨s', hreturns, hview', hchain.1⟩

/-- Where the target `3` is known to be disqualified, the block returned is the source `2`, which is
neither on the chain of `3` nor the split point `1` of the two chains. -/
theorem calculateUtxoStateRelatively_disqualified :
    CorrectStores onDiamond (diamondSemantics {2, 1}) {4, 3, 2, 1}
      (diamondStores .statusDisqualifiedFromChain) ∧
    ((onDiamond.calculateUtxoStateRelatively 20 (diamondState 2)
      (diamondStores .statusDisqualifiedFromChain) .default 2 3).map Relative.diffPoint) = some 2 ∧
    ¬diamond.OnChain 2 3 ∧ diamond.OnChain 1 2 ∧ diamond.OnChain 1 3 := by
  have tree := built_diamond.storeInv.mergedDag.chainTree
  refine ⟨diamondStores_correct (Or.inr ⟨rfl, rfl⟩), by decide, ?_,
    tree.genesis_onChain (by decide), tree.genesis_onChain (by decide)⟩
  have hquery := onDiamond_serves.isChainAncestorOf 2 (by decide) 3 (by decide)
  have heval : onDiamond.reachabilityService.isChainAncestorOf 2 3 = some false := by
    decide +kernel
  rw [heval, some.injEq] at hquery
  exact of_decide_eq_false hquery.symm

end LapisMonetae.Virtual
