import LapisMonetae.Utxo.TransactionTheorems
import LapisMonetae.Virtual.UtxoValidation

/-!
# The diff of a mergeset

`calculate_utxo_state` accepts the valid transactions of the mergeset, block by block, and its diff
stands for the UTXO set after all of them.
-/

namespace LapisMonetae.Virtual

open Utxo Ghostdag List Option

/-- The set after a list of transactions accepted at `povDaaScore`. -/
def applyAll (pov : ℕ) (transactions : List VerifiableTransaction) (view : UtxoView) :
    UtxoView :=
  transactions.foldl (fun view t => view.apply pov t) view

/-- The ids of the transactions are different, and nothing in the two sets carries them. -/
structure FreshIds (base view : UtxoView) (transactions : List VerifiableTransaction) : Prop where
  nodup : (transactions.map VerifiableTransaction.id).Nodup
  free : ∀ t ∈ transactions, ∀ i, base ⟨t.id, i⟩ = none ∧ view ⟨t.id, i⟩ = none

namespace VirtualStateProcessor

variable {M : Type} (p : VirtualStateProcessor M)

/-! ## What a mergeset accepts -/

/-- The transactions of one block that are valid in the set `view`. -/
def acceptedIn (view : UtxoView) (pov score : ℕ) (flags : TxValidationFlags)
    (txs : List Transaction) : List VerifiableTransaction :=
  (p.validateTransactionsInParallel txs view pov score flags).map fun vtx =>
    vtx.1.tx

/-- The transactions that blocks accept, each block in the set that the blocks before it leave. -/
def acceptedByBlocks (pov : ℕ) :
    List Hash → UtxoView → Option (List VerifiableTransaction)
  | [], _ => some []
  | mergedBlock :: rest, view => do
    let txs ← p.getTransactions mergedBlock
    let header ← p.getHeader mergedBlock
    let own := p.acceptedIn view pov header.daaScore .full txs
    let more ← acceptedByBlocks pov rest (applyAll pov own view)
    return own ++ more

/-- The transactions that a mergeset accepts over the state of the selected parent: its coinbase,
its other transactions, and those of the merged blocks in consensus order. -/
def acceptedByMergeset (data : GhostdagData) (view : UtxoView) (pov : ℕ) :
    Option (List VerifiableTransaction) := do
  let txs ← p.getTransactions data.selectedParent
  let header ← p.getHeader data.selectedParent
  let coinbase ← txs.head?
  let mergeset ← p.ghostdagManager.ascendingMergesetWithoutSelectedParent data
  let view := view.apply pov (coinbase.populate [])
  let own := p.acceptedIn view pov header.daaScore .skipScriptChecks txs
  let more ← p.acceptedByBlocks pov (mergeset.map SortableBlock.hash)
    (applyAll pov own view)
  return coinbase.populate [] :: (own ++ more)

/-- A stored block body as the checks in isolation leave it: a coinbase with a payload that can be
read, and transactions that spend no outpoint twice. -/
structure Body (txs : List Transaction) (coinbase : Transaction) : Prop where
  head_eq : txs.head? = some coinbase
  isCoinbase : coinbase.isCoinbase
  inputs_eq : coinbase.inputs = []
  payload : ∃ data, p.payloadLimits.deserializeCoinbasePayload coinbase.payload = some (.ok data)
  inputs_nodup : ((txs.drop 1).flatMap Transaction.inputs).Nodup

/-- Every block of the list has a body in the store. -/
def HasBodies (blocks : List Hash) : Prop :=
  ∀ b ∈ blocks, ∀ txs, p.getTransactions b = some txs → ∃ coinbase, p.Body txs coinbase

end VirtualStateProcessor

/-! ## Applying transactions -/

variable {base view : UtxoView} {pov : ℕ}

lemma applyAll_append (l l' : List VerifiableTransaction) :
    applyAll pov (l ++ l') view = applyAll pov l' (applyAll pov l view) :=
  foldl_append

/-- Transactions create nothing under other ids. -/
lemma applyAll_eq_none {q : TransactionOutpoint} (l : List VerifiableTransaction) :
    ∀ {view : UtxoView}, (∀ t ∈ l, q.transactionId ≠ t.id) → view q = none →
      applyAll pov l view q = none := by
  induction l with
  | nil =>
    intro view _ hq
    exact hq
  | cons t l ih =>
    intro view hids hq
    refine ih (fun t' ht' => hids t' (mem_cons_of_mem _ ht')) ?_
    show UtxoView.apply _ _ t q = none
    rw [apply_of_ne (hids t mem_cons_self), hq, ite_self]

/-- Fresh ids stay fresh while other transactions are accepted. -/
theorem FreshIds.append {l l' : List VerifiableTransaction} (h : FreshIds base view (l ++ l'))
    (pov : ℕ) : FreshIds base view l ∧ FreshIds base (applyAll pov l view) l' := by
  obtain ⟨hnodup, hfree⟩ := h
  rw [map_append, nodup_append] at hnodup
  obtain ⟨hl, hl', hne⟩ := hnodup
  refine ⟨⟨hl, fun t ht => hfree t (mem_append_left _ ht)⟩, hl', fun t ht i => ?_⟩
  obtain ⟨hbase, hview⟩ := hfree t (mem_append_right _ ht) i
  refine ⟨hbase, applyAll_eq_none l (fun t' ht' heq => ?_) hview⟩
  exact hne _ (mem_map_of_mem ht') _ (mem_map_of_mem ht) heq.symm

/-- `mapM` over a view pairs every outpoint with its entry. -/
lemma mapM_view {inputs : List TransactionOutpoint} : ∀ {entries : List UtxoEntry},
    inputs.mapM view = some entries → (inputs.zip entries).map Prod.fst = inputs ∧
      ∀ s ∈ inputs.zip entries, view s.1 = some s.2 := by
  induction inputs with
  | nil =>
    intro entries _
    simp
  | cons o inputs ih =>
    intro entries h
    rw [mapM_cons] at h
    obtain ⟨e, he, h⟩ := bind_eq_some_iff.mp h
    obtain ⟨es, hes, h⟩ := bind_eq_some_iff.mp h
    obtain rfl := some.inj h
    obtain ⟨hkeys, hentries⟩ := ih hes
    refine ⟨by rw [zip_cons_cons, map_cons, hkeys], fun s hs => ?_⟩
    rw [zip_cons_cons] at hs
    rcases mem_cons.mp hs with rfl | hs
    · exact he
    · exact hentries s hs

namespace VirtualStateProcessor

variable {M : Type} {p : VirtualStateProcessor M}

/-! ## One block -/

/-- A transaction that passes is populated with its unspent entries. -/
lemma validateTransactionInUtxoContext_ok {tx : Transaction} {score : ℕ}
    {flags : TxValidationFlags} {vtx : ValidatedTransaction}
    (h : p.validateTransactionInUtxoContext tx view pov score flags = .ok vtx) :
    vtx.tx.populatedInputs.map Prod.fst = tx.inputs ∧
      ∀ s ∈ vtx.tx.populatedInputs, view s.1 = some s.2 := by
  unfold validateTransactionInUtxoContext at h
  cases hentries : tx.inputs.mapM view with
  | none =>
    rw [hentries] at h
    cases h
  | some entries =>
    rw [hentries] at h
    dsimp only at h
    split at h
    · obtain rfl := Except.ok.inj h
      exact mapM_view hentries
    · cases h

/-- The accepted transactions of a block spend unspent entries, and none of them twice. -/
lemma acceptedIn_spec (p : VirtualStateProcessor M) (view : UtxoView)
    (pov score : ℕ) (flags : TxValidationFlags) (txs : List Transaction) :
    (((p.acceptedIn view pov score flags txs).flatMap fun t =>
        t.populatedInputs.map Prod.fst).Sublist ((txs.drop 1).flatMap Transaction.inputs)) ∧
      ∀ t ∈ p.acceptedIn view pov score flags txs,
        ∀ s ∈ t.populatedInputs, view s.1 = some s.2 := by
  unfold acceptedIn validateTransactionsInParallel
  have htxs : txs.drop 1 = (txs.zipIdx.drop 1).map Prod.fst := by
    rw [map_drop, zipIdx_map_fst]
  rw [htxs]
  -- by induction over the transactions after the coinbase
  induction txs.zipIdx.drop 1 with
  | nil => simp
  | cons a l ih =>
    obtain ⟨tx, i⟩ := a
    rw [map_cons, flatMap_cons]
    cases hv : p.validateTransactionInUtxoContext tx view pov score flags with
    | error e =>
      rw [filterMap_cons_none (by simp only [hv])]
      exact ⟨ih.1.trans (sublist_append_right _ _), ih.2⟩
    | ok vtx =>
      obtain ⟨hkeys, hinputs⟩ := validateTransactionInUtxoContext_ok hv
      rw [filterMap_cons_some (b := (vtx, i)) (by simp only [hv]), map_cons, flatMap_cons, hkeys]
      refine ⟨(List.Sublist.refl _).append ih.1, fun t ht => ?_⟩
      rcases mem_cons.mp ht with rfl | ht
      · exact hinputs
      · exact ih.2 t ht

lemma addTransactions_spec (vs : List (ValidatedTransaction × ℕ)) :
    ∀ {d : UtxoDiff} (ids : List Hash) (fee : ℕ), ValidOver base d →
      Independent base (base.compose d) (vs.map fun vtx => vtx.1.tx) →
      ∃ d' ids' fee', addTransactions pov vs (d, ids, fee) = some (d', ids', fee') ∧
        ValidOver base d' ∧
        base.compose d' = applyAll pov (vs.map fun vtx => vtx.1.tx) (base.compose d) := by
  induction vs with
  | nil =>
    intro d ids fee hd _
    exact ⟨d, ids, fee, rfl, hd, rfl⟩
  | cons v vs ih =>
    intro d ids fee hd hind
    obtain ⟨vtx, i⟩ := v
    obtain ⟨d₁, hd₁, hvalid₁, hview₁⟩ := addTransaction_spec hd (hind.head.fits pov)
    have hind₁ := hind.tail pov
    rw [← hview₁] at hind₁
    obtain ⟨d', ids', fee', hadd, hvalid', hview'⟩ :=
      ih (ids ++ [vtx.tx.id]) (fee + vtx.calculatedFee) hvalid₁ hind₁
    refine ⟨d', ids', fee', ?_, hvalid', ?_⟩
    · rw [addTransactions, hd₁]
      exact hadd
    · rw [hview', hview₁]
      rfl

variable [MultisetHash M]
variable {data : GhostdagData} {txs : List Transaction} {accepted : List VerifiableTransaction}
  {coinbase : Transaction}

/-- The transactions that the parallel validation returns do not depend on the reduction. -/
lemma validateTransactionsWithMuhashInParallel_fst (txs : List Transaction) (view : UtxoView)
    (pov score : ℕ) (flags : TxValidationFlags) :
    (p.validateTransactionsWithMuhashInParallel txs view pov score flags).1 =
      p.validateTransactionsInParallel txs view pov score flags := by
  unfold validateTransactionsWithMuhashInParallel
  rw [Reduction.reduce_flatMap Prod.fst rfl fun _ _ => rfl, flatMap_map]
  exact flatMap_singleton' _

/-- One round of `calculate_utxo_state` accepts the valid transactions of the block. -/
lemma acceptBlock_spec (ctx : UtxoProcessingContext M)
    (acceptedCoinbase : Option AcceptedTxEntry) (flags : TxValidationFlags) {b : Hash}
    {header : Header} (hflags : (if acceptedCoinbase.isSome then .skipScriptChecks else .full) = flags)
    (hbody : p.Body txs coinbase) (hheader : p.getHeader b = some header)
    (hd : ValidOver base ctx.mergesetDiff)
    (hfresh : FreshIds base (base.compose ctx.mergesetDiff)
      (p.acceptedIn (base.compose ctx.mergesetDiff) pov header.daaScore flags txs)) :
    ∃ ctx', p.acceptBlock base pov acceptedCoinbase ctx b txs = some ctx' ∧
      ctx'.ghostdagData = ctx.ghostdagData ∧ ValidOver base ctx'.mergesetDiff ∧
      base.compose ctx'.mergesetDiff = applyAll pov
        (p.acceptedIn (base.compose ctx.mergesetDiff) pov header.daaScore flags txs)
        (base.compose ctx.mergesetDiff) := by
  obtain ⟨hsublist, hinputs⟩ := p.acceptedIn_spec (base.compose ctx.mergesetDiff) pov
    header.daaScore flags txs
  obtain ⟨d', ids', fee', hadd, hvalid', hview'⟩ := addTransactions_spec
    (p.validateTransactionsInParallel txs (base.compose ctx.mergesetDiff) pov
      header.daaScore flags)
    ctx.acceptedTxIds 0 hd
    ⟨hbody.inputs_nodup.sublist hsublist, hinputs, hfresh.nodup, hfresh.free⟩
  obtain ⟨data, hpayload⟩ := hbody.payload
  unfold acceptBlock
  simp only [hflags, hheader, bind_eq_bind, bind_some,
    validateTransactionsWithMuhashInParallel_fst, hbody.head_eq, hpayload]
  rw [hadd]
  exact ⟨_, rfl, rfl, hvalid', hview'⟩

/-- The rounds of the blocks after the selected parent. -/
lemma acceptBlocks_spec (l : List Hash) (hbodies : p.HasBodies l) :
    ∀ {ctx : UtxoProcessingContext M} {accepted : List VerifiableTransaction},
      ValidOver base ctx.mergesetDiff →
      p.acceptedByBlocks pov l (base.compose ctx.mergesetDiff) = some accepted →
      FreshIds base (base.compose ctx.mergesetDiff) accepted →
      ∃ ctx', p.acceptBlocks base pov l ctx = some ctx' ∧
        ctx'.ghostdagData = ctx.ghostdagData ∧ ValidOver base ctx'.mergesetDiff ∧
        base.compose ctx'.mergesetDiff =
          applyAll pov accepted (base.compose ctx.mergesetDiff) := by
  induction l with
  | nil =>
    intro ctx accepted hd haccepted _
    obtain rfl := some.inj haccepted
    exact ⟨ctx, rfl, rfl, hd, rfl⟩
  | cons b l ih =>
    intro ctx accepted hd haccepted hfresh
    obtain ⟨txs, htxs, haccepted⟩ := bind_eq_some_iff.mp haccepted
    obtain ⟨header, hheader, haccepted⟩ := bind_eq_some_iff.mp haccepted
    obtain ⟨more, hmore, haccepted⟩ := bind_eq_some_iff.mp haccepted
    obtain rfl := some.inj haccepted
    obtain ⟨coinbase, hbody⟩ := hbodies b mem_cons_self txs htxs
    obtain ⟨hown, hrest⟩ := hfresh.append pov
    obtain ⟨ctx₁, hctx₁, hdata₁, hvalid₁, hview₁⟩ :=
      acceptBlock_spec ctx none .full rfl hbody hheader hd hown
    rw [← hview₁] at hmore hrest
    obtain ⟨ctx', hctx', hdata', hvalid', hview'⟩ :=
      ih (fun b' hb' => hbodies b' (mem_cons_of_mem _ hb')) hvalid₁ hmore hrest
    refine ⟨ctx', ?_, hdata'.trans hdata₁, hvalid', ?_⟩
    · unfold acceptBlocks
      simp only [htxs, bind_eq_bind, bind_some, hctx₁, hctx']
    · rw [hview', hview₁, applyAll_append]

omit [MultisetHash M] in
/-- What the transactions accepted by a mergeset are made of. -/
lemma acceptedByMergeset_eq_some (h : p.acceptedByMergeset data view pov = some accepted) :
    ∃ txs header coinbase mergeset more, p.getTransactions data.selectedParent = some txs ∧
      p.getHeader data.selectedParent = some header ∧ txs.head? = some coinbase ∧
      p.ghostdagManager.ascendingMergesetWithoutSelectedParent data = some mergeset ∧
      let view₁ := view.apply pov (coinbase.populate [])
      let own := p.acceptedIn view₁ pov header.daaScore .skipScriptChecks txs
      p.acceptedByBlocks pov (mergeset.map SortableBlock.hash)
        (applyAll pov own view₁) = some more ∧
      accepted = coinbase.populate [] :: (own ++ more) := by
  obtain ⟨txs, htxs, h⟩ := bind_eq_some_iff.mp h
  obtain ⟨header, hheader, h⟩ := bind_eq_some_iff.mp h
  obtain ⟨coinbase, hcoinbase, h⟩ := bind_eq_some_iff.mp h
  obtain ⟨mergeset, hmergeset, h⟩ := bind_eq_some_iff.mp h
  obtain ⟨more, hmore, h⟩ := bind_eq_some_iff.mp h
  exact ⟨txs, header, coinbase, mergeset, more, htxs, hheader, hcoinbase, hmergeset, hmore,
    (some.inj h).symm⟩

omit [MultisetHash M] in
/-- The coinbase of the selected parent is the first transaction of the diff. -/
lemma addCoinbase_spec (hbody : p.Body txs coinbase) (hfree : ∀ i, base ⟨coinbase.id, i⟩ = none)
    (pov : ℕ) :
    ∃ d, unwrapDiff (UtxoDiff.default.addTransaction (coinbase.populate []) pov) = some d ∧
      ValidOver base d ∧ base.compose d = base.apply pov (coinbase.populate []) := by
  have happlicable : Applicable base (base.compose UtxoDiff.default) (coinbase.populate []) := by
    have hinputs : (coinbase.populate []).populatedInputs = [] := by
      rw [Transaction.populate, hbody.inputs_eq, zip_nil_left]
    rw [compose_default]
    exact ⟨by simp [hinputs], by simp [hinputs], fun i => ⟨hfree i, hfree i⟩⟩
  obtain ⟨d, hd, hvalid, hview⟩ :=
    addTransaction_spec (validOver_default base) (happlicable.fits pov)
  rw [compose_default] at hview
  exact ⟨d, by rw [hd]; rfl, hvalid, hview⟩

/-- `calculate_utxo_state` computes the diff of everything the mergeset accepts. -/
lemma calculateUtxoState_spec {multiset : M} {mergeset : List SortableBlock}
    (haccepted : p.acceptedByMergeset data base pov = some accepted)
    (hmergeset : p.ghostdagManager.ascendingMergesetWithoutSelectedParent data = some mergeset)
    (hbodies : p.HasBodies (data.selectedParent :: mergeset.map SortableBlock.hash))
    (hfresh : FreshIds base base accepted) :
    ∃ ctx, p.calculateUtxoState (.new data multiset) base pov = some ctx ∧
      ValidOver base ctx.mergesetDiff ∧
      base.compose ctx.mergesetDiff = applyAll pov accepted base := by
  obtain ⟨txs, header, coinbase, mergeset', more, htxs, hheader, hcoinbase, hmergeset', hmore,
    rfl⟩ := acceptedByMergeset_eq_some haccepted
  obtain rfl := some.inj (hmergeset.symm.trans hmergeset')
  obtain ⟨coinbase', hbody⟩ := hbodies _ mem_cons_self txs htxs
  obtain rfl : coinbase' = coinbase := some.inj (hbody.head_eq.symm.trans hcoinbase)
  obtain ⟨d₁, hd₁, hvalid₁, hview₁⟩ := addCoinbase_spec hbody
    (fun i => (hfresh.free _ mem_cons_self i).1) pov
  -- the other transactions of the selected parent, over the diff of its coinbase
  obtain ⟨-, hrest⟩ := FreshIds.append (l := [coinbase'.populate []]) hfresh pov
  obtain ⟨hown, hrest⟩ := hrest.append pov
  have hfirst : applyAll pov [coinbase'.populate []] base = base.compose d₁ := hview₁.symm
  rw [hfirst, ← hview₁] at hown hrest
  rw [← hview₁] at hmore
  let ctx₁ : UtxoProcessingContext M :=
    ⟨data, MultisetHash.addTransaction multiset (coinbase'.populate []) pov, d₁,
      [(coinbase'.populate []).id], [], [], none⟩
  obtain ⟨ctx₂, hctx₂, hdata₂, hvalid₂, hview₂⟩ := acceptBlock_spec ctx₁
    (some ⟨(coinbase'.populate []).id, 0⟩) .skipScriptChecks rfl hbody hheader hvalid₁ hown
  -- the merged blocks
  rw [← hview₂] at hmore hrest
  obtain ⟨ctx₃, hctx₃, hdata₃, hvalid₃, hview₃⟩ := acceptBlocks_spec _
    (fun b hb => hbodies b (mem_cons_of_mem _ hb)) hvalid₂ hmore hrest
  have hview : base.compose ctx₃.mergesetDiff = applyAll pov
      (coinbase'.populate [] :: (p.acceptedIn (base.apply pov (coinbase'.populate []))
        pov header.daaScore .skipScriptChecks txs ++ more)) base := by
    rw [hview₃, hview₂, ← applyAll_append, hview₁]
    rfl
  have hnew : coinbase'.newCoinbase = some ⟨coinbase'.populate [], 0⟩ :=
    if_pos ⟨hbody.isCoinbase, hbody.inputs_eq⟩
  have hmergeset₂ : p.ghostdagManager.ascendingMergesetWithoutSelectedParent ctx₂.ghostdagData =
      some mergeset := by
    rw [hdata₂]
    exact hmergeset
  unfold calculateUtxoState
  simp only [UtxoProcessingContext.new, htxs, bind_eq_bind, bind_some, hcoinbase,
    hnew, hd₁, nil_append]
  rw [hctx₂, bind_some, hmergeset₂, bind_some, hctx₃, bind_some]
  by_cases hactive : p.crescendoActivation.isActive pov
  · rw [if_pos hactive]
    exact ⟨ctx₃, rfl, hvalid₃, hview⟩
  · rw [if_neg hactive]
    exact ⟨_, rfl, hvalid₃, hview⟩

end VirtualStateProcessor

end LapisMonetae.Virtual
