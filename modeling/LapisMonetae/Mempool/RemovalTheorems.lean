import LapisMonetae.Mempool.RunTheorems
import LapisMonetae.Mempool.UtxoSetTheorems

/-!
# Removals with redeemers

A removal with redeemers follows the edges of the transactions pool. It also asks the orphan pool for
the redeemers of each transaction that it removes, but that pool knows the redeemers of orphans only:
an orphan that spends an output of a removed transaction stays, with the entry of that output.
-/

namespace LapisMonetae.Mining

open Utxo Tx Program Pool Option
open Relation (ReflTransGen)

section
variable {F : Type} [LinearOrder F] {ctx : Context F}
variable {id : Hash} {mp : Mempool F} {mp' : Mempool F}

/-! ## The edges of the pool -/

/-- Every edge of the pool is known to its successor, which is a pool transaction that spends an
output of the other. -/
structure Linked (pool : TransactionsPool F) : Prop where
  mirrored : ∀ parent id, id ∈ pool.chained.edgesOf parent →
    parent ∈ pool.parentTransactions.edgesOf id
  spent : ∀ parent id, parent ∈ pool.parentTransactions.edgesOf id →
    ∃ tx, pool.get id = some tx ∧ tx.mtx.hasParent parent

lemma linked_new : Linked (TransactionsPool.new : TransactionsPool F) :=
  ⟨fun _ _ h => (nomatch h), fun _ _ h => (nomatch h)⟩

lemma Linked.add {pool : TransactionsPool F} (h : Linked pool) {t : MempoolTransaction}
    (hnew : ¬pool.has t.id) (size : ℕ) (frontier : Frontier F) :
    Linked (added pool t size frontier) := by
  -- there is nothing about the transaction before
  have hnone : ∀ parent, parent ∉ pool.parentTransactions.edgesOf t.id := by
    intro parent hparent
    obtain ⟨tx, htx, -⟩ := h.spent parent _ hparent
    exact hnew (has_iff.mpr ⟨tx, htx⟩)
  have hchained : ∀ parent id, id ∈ (added pool t size frontier).chained.edgesOf parent ↔
      id ∈ pool.chained.edgesOf parent ∨
        (parent ∈ pool.getParentTransactionIdsInPool t.mtx ∧ id = t.id) :=
    fun parent id => TransactionsEdges.mem_edgesOf_foldl_link _
  have hparents : ∀ id, (added pool t size frontier).parentTransactions.edgesOf id =
      if id = t.id then pool.getParentTransactionIdsInPool t.mtx
      else pool.parentTransactions.edgesOf id :=
    fun id => TransactionsEdges.edgesOf_insert _
  constructor
  case mirrored =>
    intro parent id hid
    rw [hparents]
    rcases (hchained parent id).mp hid with hid | ⟨hparent, rfl⟩
    · have hold := h.mirrored parent id hid
      rwa [if_neg]
      rintro rfl
      exact hnone parent hold
    · rwa [if_pos rfl]
  case spent =>
    intro parent id hparent
    rw [hparents] at hparent
    rw [get_added]
    split at hparent
    · next hid =>
      rw [if_pos hid]
      exact ⟨t, rfl, (mem_getParentTransactionIdsInPool.mp hparent).2⟩
    · next hid =>
      rw [if_neg hid]
      exact h.spent parent id hparent

lemma Linked.remove {pool pool' : TransactionsPool F} (h : Linked pool)
    (hr : Detached id pool pool') : Linked pool' where
  mirrored := by
    intro x y hy
    obtain ⟨hedge, hx, hnot⟩ := hr.chained_sub x y hy
    have hparent := h.mirrored x y hedge
    refine hr.parents_sup x y hx ?_ hparent
    rintro rfl
    exact hnot ⟨hparent, rfl⟩
  spent := by
    intro x y hx
    obtain ⟨hparent, hy⟩ := hr.parents_sub x y hx
    rw [hr.get, if_neg hy]
    exact h.spent x y hparent

/-- The edges of the pool are right in every state that operations lead to. -/
lemma linked_of_mempoolReached {allowed : Mempool F → MempoolOp → Prop}
    (h : MempoolReached ctx allowed mp) : Linked mp.transactionPool := by
  have hremove : ∀ (ctx : Context F) (pool pool' : TransactionsPool F) (id : Hash)
      (r : Except RuleError MempoolTransaction), Linked pool →
      (TransactionsPool.removeTransaction ctx id).outcome pool = some (r, pool') → Linked pool' :=
    fun ctx pool pool' id r hl ho => hl.remove (removeTransaction_leads id pool r pool' ho).1
  induction h with
  | new => exact linked_new
  | step virtualDaaScore _ _ hexec ih =>
    refine (effect_of_exec hexec).keeps (hremove _) ?_ ih
    intro t priority orphan rbfPolicy score mp₁ _ hinserted
    refine hinserted.keeps (hremove _) ?_ ih
    intro removed mp₂ mp₃ r pool' _ _ hl hadd
    obtain ⟨hnew, size, frontier, rfl⟩ := added_of_exec hadd
    exact hl.add hnew size frontier

/-! ## What a removal leaves -/

/-- The transaction `id'`, of either pool, spends an output of the transaction `id`. -/
def SpendsTx (mp : Mempool F) (id id' : Hash) : Prop :=
  (∃ tx, mp.transactionPool.get id' = some tx ∧ tx.mtx.hasParent id) ∨
    ∃ tx, mp.orphanPool.get id' = some tx ∧ tx.mtx.hasParent id

/-- The transaction `id` was taken away from one of the pools. -/
def TakenAway (mp mp' : Mempool F) (id : Hash) : Prop :=
  (mp.transactionPool.has id ∧ ¬mp'.transactionPool.has id) ∨
    (mp.orphanPool.has id ∧ ¬mp'.orphanPool.has id)

/-- Neither the transaction `id` nor one that directly or indirectly spends its outputs is left in
one of the pools, and no orphan that is left has an entry for an output of a transaction that was
taken away. -/
structure Purged (id : Hash) (mp mp' : Mempool F) : Prop where
  gone : ∀ x, ReflTransGen (SpendsTx mp) id x →
    ¬mp'.transactionPool.has x ∧ ¬mp'.orphanPool.has x
  entries : ∀ x orphan, mp'.orphanPool.get x = some orphan →
    ∀ input ∈ orphan.mtx.tx.inputs.zip orphan.mtx.entries, input.2.isSome →
      ¬TakenAway mp mp' input.1.previousOutpoint.transactionId

/-- No transaction that is chained to `id` is an orphan, no orphan spends an output of one, and the
pool transactions that do are chained to `id`. -/
structure Enclosed (mp : Mempool F) (id : Hash) : Prop where
  noOrphan : ∀ x, ReflTransGen mp.transactionPool.Chain id x → ¬mp.orphanPool.has x
  chained : ∀ x y tx, ReflTransGen mp.transactionPool.Chain id x →
    mp.transactionPool.get y = some tx → tx.mtx.hasParent x →
    ReflTransGen mp.transactionPool.Chain id y
  unspent : ∀ x y orphan, ReflTransGen mp.transactionPool.Chain id x →
    mp.orphanPool.get y = some orphan → ¬orphan.mtx.hasParent x

/-- The loop of `remove_transaction` asks the orphan pool about transactions that it does not
hold. -/
lemma orphanPool_removeTransactions {ids : List Hash}
    (h : (Mempool.removeTransactions ctx true ids).outcome mp = some (.ok (), mp'))
    (hids : ∀ id ∈ ids, ¬mp.orphanPool.has id) : mp'.orphanPool = mp.orphanPool := by
  induction ids generalizing mp with
  | nil =>
    cases h
    rfl
  | cons id ids ih =>
    obtain ⟨hid, hids⟩ := List.forall_mem_cons.mp hids
    obtain ⟨tx, mp₁, hremove, h⟩ := outcome_bind_eq_ok h
    obtain ⟨txs, mp₂, hupdate, h⟩ := outcome_bind_eq_ok h
    obtain ⟨hremove, hmempool₁⟩ := onPool_ok hremove
    obtain ⟨hupdate, -⟩ := onOrphans_ok hupdate
    have horphans₁ : mp₁.orphanPool = mp.orphanPool := by rw [hmempool₁]
    -- the removed transaction is the one that was asked for
    have htx : tx.id = id := by
      have hresult := (removeTransaction_leads id _ _ _ hremove).2
      cases hget : mp.transactionPool.get id with
      | none =>
        rw [hget] at hresult
        cases hresult
      | some tx' =>
        rw [hget] at hresult
        cases hresult
        exact MempoolTransactionCollection.id_of_get hget
    have horphans₂ : mp₂.orphanPool = mp.orphanPool := by
      unfold OrphanPool.updateOrphansAfterTransactionRemoved at hupdate
      rw [if_pos rfl, outcome_get_bind, htx, horphans₁, getRedeemerIdsInPool, if_neg hid] at hupdate
      exact (congrArg Prod.snd (some.inj hupdate)).symm
    rw [ih h (by rwa [horphans₂]), horphans₂]

/-- A removal with redeemers of a pool transaction that is not an orphan. -/
lemma removeTransaction_of_not_orphan
    (h : (Mempool.removeTransaction ctx id true).outcome mp = some (.ok (), mp'))
    (hhas : mp.transactionPool.has id) (horphan : ¬mp.orphanPool.has id) :
    (∀ x, mp'.transactionPool.has x ↔ mp.transactionPool.has x ∧
      ¬ReflTransGen mp.transactionPool.Chain id x) ∧
    ((∀ x, ReflTransGen mp.transactionPool.Chain id x → ¬mp.orphanPool.has x) →
      mp'.orphanPool = mp.orphanPool) := by
  unfold Mempool.removeTransaction at h
  rw [outcome_get_bind, if_neg horphan, if_neg (not_not_intro hhas), if_pos rfl] at h
  have hmem := mem_cons_getRedeemerIdsInPool hhas
  constructor
  · intro x
    rw [(shrunk_removeTransactions h).has_iff, hmem]
  · exact fun hnone => orphanPool_removeTransactions h fun x hx => hnone x ((hmem x).mp hx)

/-- Where a pool transaction is enclosed, all transactions that depend on it are chained to it. -/
lemma Enclosed.reflTransGen {x : Hash} (h : Enclosed mp id)
    (hx : ReflTransGen (SpendsTx mp) id x) :
    ReflTransGen mp.transactionPool.Chain id x := by
  induction hx with
  | refl => exact .refl
  | tail _ hstep ih =>
    rcases hstep with ⟨tx, htx, hparent⟩ | ⟨orphan, horphan, hparent⟩
    · exact h.chained _ _ tx ih htx hparent
    · exact absurd hparent (h.unspent _ _ orphan ih horphan)

lemma Linked.spendsTx (h : Linked mp.transactionPool) {x : Hash}
    (hx : ReflTransGen mp.transactionPool.Chain id x) :
    ReflTransGen (SpendsTx mp) id x := by
  induction hx with
  | refl => exact .refl
  | tail _ hstep ih => exact ih.tail (.inl (h.spent _ _ (h.mirrored _ _ hstep.1)))

/-- A removal with redeemers leaves nothing behind where the transaction is enclosed. In the states
that operations lead to, that is the only case, if no transaction is in both pools. -/
theorem removeTransaction_purged {id : Hash} {mp mp' : Mempool F}
    (hhas : mp.transactionPool.has id)
    (h : (Mempool.removeTransaction ctx id true).outcome mp = some (.ok (), mp')) :
    (Enclosed mp id → Purged id mp mp') ∧
    (MempoolReached ctx (fun _ _ => True) mp → Disjoint mp →
      Purged id mp mp' → Enclosed mp id) := by
  constructor
  · intro hclosed
    obtain ⟨hpool, horphans⟩ := removeTransaction_of_not_orphan h hhas (hclosed.noOrphan id .refl)
    replace horphans := horphans hclosed.noOrphan
    constructor
    case gone =>
      intro x hx
      have hchain := hclosed.reflTransGen hx
      rw [horphans]
      exact ⟨fun hx' => ((hpool x).mp hx').2 hchain, hclosed.noOrphan x hchain⟩
    case entries =>
      intro x orphan horphan input hinput _ htaken
      rw [horphans] at horphan
      rcases htaken with ⟨hin, hout⟩ | ⟨hin, hout⟩
      · -- the transaction was chained to the removed one, and no orphan spends its outputs
        have hchain : ReflTransGen mp.transactionPool.Chain id
            input.1.previousOutpoint.transactionId := by
          by_contra hnot
          exact hout ((hpool _).mpr ⟨hin, hnot⟩)
        refine hclosed.unspent _ x orphan hchain horphan ?_
        exact MutableTransaction.hasParent_iff.mpr ⟨input.1, (List.of_mem_zip hinput).1, rfl⟩
      · rw [horphans] at hout
        exact hout hin
  · intro hreached hd hpurged
    have hlinked := linked_of_mempoolReached hreached
    have hmember : ∀ x, ReflTransGen mp.transactionPool.Chain id x →
        mp.transactionPool.has x := by
      intro x hx
      rcases Relation.ReflTransGen.cases_tail hx with rfl | ⟨_, -, hstep⟩
      · exact hhas
      · exact hstep.2
    have hnoOrphan : ∀ x, ReflTransGen mp.transactionPool.Chain id x →
        ¬mp.orphanPool.has x := fun x hx horphan => hd x horphan (hmember x hx)
    obtain ⟨hpool, horphans⟩ := removeTransaction_of_not_orphan h hhas (hnoOrphan id .refl)
    replace horphans := horphans hnoOrphan
    constructor
    case noOrphan => exact hnoOrphan
    case chained =>
      intro x y tx hx hy hparent
      have hspends := (hlinked.spendsTx hx).tail (.inl ⟨tx, hy, hparent⟩)
      by_contra hnot
      exact (hpurged.gone y hspends).1 ((hpool y).mpr ⟨has_iff.mpr ⟨tx, hy⟩, hnot⟩)
    case unspent =>
      intro x y orphan hx hy hparent
      have hspends := (hlinked.spendsTx hx).tail (.inr ⟨orphan, hy, hparent⟩)
      refine (hpurged.gone y hspends).2 ?_
      rw [horphans]
      exact has_iff.mpr ⟨orphan, hy⟩

end

/-! ## An orphan that is left behind -/

lemma mem_keys_of_get {pool : Pool} {id : Hash} {tx : MempoolTransaction}
    (h : pool.get id = some tx) : id ∈ pool.all.map.keys :=
  AList.mem_keys.mp (AList.lookup_isSome.mp (isSome_iff_exists.mpr ⟨tx, h⟩))

/-- A transaction that spends the output of `firstTx` and an output that is missing. -/
def halfTx : MutableTransaction where
  tx := ⟨6, 0, [⟨⟨1, 0⟩, [], 0, 0⟩, ⟨⟨300, 0⟩, [], 0, 0⟩], [⟨50000, ⟨0, [0x51]⟩⟩], 0, 0⟩
  entries := [some poolEntry, none]
  calculatedFee := none
  calculatedNonContextualMasses := some ⟨1000, 1000⟩
  length_entries := rfl

/-- A transaction is removed together with the one that spends its output, while an orphan waits for
something else. -/
theorem removeTransaction_purged_secondTx :
    ∃ mp mp', runMempool openContext
        [.submit (.ok ()) firstTx .low .allowed .allowed,
          .submit (.ok ()) secondTx .low .allowed .allowed,
          .submit (.error .rejectMissingOutpoint) waitingTx .low .allowed .allowed] .new =
        some mp ∧
      mp.transactionPool.Chain 1 2 ∧ mp.orphanPool.has 5 ∧
      (Mempool.removeTransaction openContext 1 true).outcome mp = some (.ok (), mp') ∧
      Purged 1 mp mp' := by
  have hrun : ((runMempool openContext
      [.submit (.ok ()) firstTx .low .allowed .allowed,
        .submit (.ok ()) secondTx .low .allowed .allowed,
        .submit (.error .rejectMissingOutpoint) waitingTx .low .allowed .allowed] .new).bind
      fun mp => ((Mempool.removeTransaction openContext 1 true).outcome mp).map fun o =>
        (o.1.toBool, mp.transactionPool.all.map.keys, mp.orphanPool.all.map.keys,
          mp.transactionPool.chained.edgesOf 1, mp.orphanPool.get 5)) =
      some (true, [2, 1], [5], [2], some ⟨waitingTx, .low, 7⟩) := by
    decide +kernel
  obtain ⟨mp, hmempool, hrest⟩ := bind_eq_some_iff.mp hrun
  obtain ⟨⟨r, mp'⟩, hremove, hobs⟩ := map_eq_some_iff.mp hrest
  simp only [Prod.mk.injEq] at hobs
  obtain ⟨hok, hkeys, horphans, hedges, hwaiting⟩ := hobs
  have hmem : ∀ id, mp.transactionPool.has id → id = 2 ∨ id = 1 := by
    intro id hid
    obtain ⟨tx, htx⟩ := has_iff.mp hid
    simpa [hkeys] using mem_keys_of_get htx
  have hchain : mp.transactionPool.Chain 1 2 := by
    refine ⟨?_, AList.lookup_isSome.mpr (AList.mem_keys.mpr ?_)⟩
    · rw [hedges]
      exact List.mem_singleton_self 2
    · rw [hkeys]
      exact List.mem_cons_self
  have hhas : mp.transactionPool.has 1 := by
    refine AList.lookup_isSome.mpr (AList.mem_keys.mpr ?_)
    rw [hkeys]
    exact List.mem_cons_of_mem _ List.mem_cons_self
  have hchained : ∀ x, ReflTransGen mp.transactionPool.Chain 1 x → x = 2 ∨ x = 1 := by
    intro x hx
    rcases Relation.ReflTransGen.cases_tail hx with rfl | ⟨_, -, hstep⟩
    · exact .inr rfl
    · exact hmem x hstep.2
  have horphan : ∀ y orphan, mp.orphanPool.get y = some orphan →
      y = 5 ∧ orphan = ⟨waitingTx, .low, 7⟩ := by
    intro y orphan hy
    obtain rfl : y = 5 := by simpa [horphans] using mem_keys_of_get hy
    exact ⟨rfl, some.inj (hy.symm.trans hwaiting)⟩
  have hclosed : Enclosed mp 1 := by
    constructor
    · intro x hx hx'
      obtain ⟨orphan, hx'⟩ := has_iff.mp hx'
      obtain ⟨rfl, -⟩ := horphan x orphan hx'
      exact absurd (hchained 5 hx) (by decide)
    · intro x y tx _ hy _
      rcases hmem y (has_iff.mpr ⟨tx, hy⟩) with rfl | rfl
      · exact .single hchain
      · exact .refl
    · intro x y orphan hx hy
      obtain ⟨-, rfl⟩ := horphan y orphan hy
      rcases hchained x hx with rfl | rfl
      · decide
      · decide
  cases r with
  | error e => cases hok
  | ok _ =>
    exact ⟨mp, mp', hmempool, hchain, has_iff.mpr ⟨_, hwaiting⟩, hremove,
      (removeTransaction_purged hhas hremove).1 hclosed⟩

/-- The pool transaction is removed with its redeemers, and the orphan that spends its output stays,
with the entry of that output. -/
theorem halfTx_left_behind : ∃ mp mp', runMempool openContext
        [.submit (.ok ()) firstTx .low .allowed .allowed,
          .submit (.error .rejectMissingOutpoint) halfTx .low .allowed .allowed] .new =
        some mp ∧
      MempoolReached openContext (fun _ _ => True) mp ∧ mp.transactionPool.has 1 ∧
      (Mempool.removeTransaction openContext 1 true).outcome mp = some (.ok (), mp') ∧
      mp'.orphanPool.get 6 = some ⟨halfTx, .low, 7⟩ ∧ ¬Purged 1 mp mp' := by
  have hrun : ((runMempool openContext
      [.submit (.ok ()) firstTx .low .allowed .allowed,
        .submit (.error .rejectMissingOutpoint) halfTx .low .allowed .allowed] .new).bind
      fun mp => ((Mempool.removeTransaction openContext 1 true).outcome mp).map fun o =>
        (o.1.toBool, mp.transactionPool.has 1, mp.orphanPool.get 6,
          o.2.orphanPool.get 6)) =
      some (true, true, some ⟨halfTx, .low, 7⟩, some ⟨halfTx, .low, 7⟩) := by
    decide +kernel
  obtain ⟨mp, hmempool, hrest⟩ := bind_eq_some_iff.mp hrun
  obtain ⟨⟨r, mp'⟩, hremove, hobs⟩ := map_eq_some_iff.mp hrest
  simp only [Prod.mk.injEq] at hobs
  obtain ⟨hok, hhas, horphan, horphan'⟩ := hobs
  cases r with
  | error e => cases hok
  | ok _ =>
    refine ⟨mp, mp', hmempool, MempoolReached.new.runMempool (fun _ _ => trivial) hmempool,
      hhas, hremove, horphan', fun hpurged => ?_⟩
    have hspends : SpendsTx mp 1 6 := .inr ⟨_, horphan, by decide⟩
    exact (hpurged.gone 6 (.single hspends)).2 (has_iff.mpr ⟨_, horphan'⟩)

end LapisMonetae.Mining
