import LapisMonetae.Mempool.RunTheorems
import LapisMonetae.Mempool.UtxoSetTheorems

/-!
# What a block leaves of the mempool

The transactions of a block leave both pools and keep their redeemers. The pool transactions that
spend an outpoint of the block leave with their redeemers. This needs an owner index and edges that
are right, and that no transaction is in both pools: of a transaction that is, only the orphan is
removed.
-/

namespace LapisMonetae.Mining

open Utxo Tx Program List
open Relation (ReflTransGen)

section
variable {F : Type} [LinearOrder F] {ctx : Context F}
variable {id x : Hash} {gone : Hash → Prop} {block : List Transaction}
  {mp mp' : Mempool F} {pool pool' : TransactionsPool F}
variable {y : Hash} {unorphaned : List MempoolTransaction} {mp₁ : Mempool F}
  {transaction : Transaction} {o : TransactionOutpoint} {blockDaaScore : ℕ}

/-! ## Pools that have lost transactions -/

lemma Spends.has {pool : Pool} (h : Spends pool id o) : pool.has id := by
  obtain ⟨tx, htx, -⟩ := h
  exact Pool.has_iff.mpr ⟨tx, htx⟩

lemma Shrunk.spends_iff (h : Shrunk gone pool pool') :
    Spends pool' x o ↔ Spends pool x o ∧ ¬gone x := by
  unfold Spends
  by_cases hx : gone x
  · simp [h.get_gone x hx, hx]
  · simp [h.get x hx, hx]

lemma Shrunk.reflTransGen (h : Shrunk gone pool pool') (hx : ¬gone x)
    (hxy : ReflTransGen pool'.Chain x y) : ReflTransGen pool.Chain x y := by
  rcases Relation.reflTransGen_iff_eq_or_transGen.mp hxy with rfl | hxy
  · exact .refl
  · exact (h.transGen hx hxy).1.to_reflTransGen

lemma Reduced.get (h : Reduced ctx pool pool') {tx : MempoolTransaction}
    (hx : pool'.get x = some tx) : pool.get x = some tx := by
  induction h with
  | refl => exact hx
  | tail _ hstep ih =>
    obtain ⟨id, r, hremove⟩ := hstep
    rw [(removeTransaction_leads id _ _ _ hremove).1.get] at hx
    split at hx
    · cases hx
    · exact ih hx

lemma Reduced.ownersExact (h : Reduced ctx pool pool')
    (ho : OwnersExact pool.utxoSet pool) : OwnersExact pool'.utxoSet pool' :=
  h.keeps (I := fun pool => OwnersExact pool.utxoSet pool) (fun pool pool' id r ho hremove =>
    ho.remove (removeTransaction_leads id pool r pool' hremove).1.toRemoved) ho

/-! ## One transaction of a block -/

/-- The pool transaction `id` spends an outpoint that another transaction of the block spends. -/
def Conflicts (pool : Pool) (block : List Transaction) (id : Hash) : Prop :=
  ∃ t ∈ block, t.id ≠ id ∧ ∃ input ∈ t.inputs, Spends pool id input.previousOutpoint

/-- What some transactions of a block do: they are gone, with all pool transactions that spend one of
their outpoints, and the others that are gone are chained to these. -/
structure Handled (block : List Transaction) (gone : Hash → Prop) (mp mp' : Mempool F) :
    Prop where
  shrunk : Shrunk gone mp.transactionPool mp'.transactionPool
  accepted : ∀ t ∈ block, gone t.id ∧ ¬mp'.orphanPool.has t.id
  conflicts : ∀ t ∈ block, ∀ input ∈ t.inputs, ∀ x,
    Spends mp.transactionPool.toPool x input.previousOutpoint → gone x
  closed : ∀ x y, gone x → (∀ t ∈ block, t.id ≠ x) → mp.transactionPool.Chain x y → gone y
  sound : ∀ x, gone x → (∃ t ∈ block, t.id = x) ∨
    ∃ d, Conflicts mp.transactionPool.toPool block d ∧
      ReflTransGen mp.transactionPool.Chain d x

lemma handled_nil (mp : Mempool F) : Handled [] (fun _ => False) mp mp where
  shrunk := .refl _
  accepted := fun _ h => nomatch h
  conflicts := fun _ h => nomatch h
  closed := fun _ _ h => h.elim
  sound := fun _ h => h.elim

lemma mem_ownersOfInputs : x ∈ mp.ownersOfInputs transaction ↔ ∃ input ∈ transaction.inputs,
      mp.transactionPool.utxoSet.outpointOwnerId.lookup input.previousOutpoint = some x := by
  -- one round of the loop adds the owner of its outpoint
  obtain ⟨round, hrounds, hround⟩ : ∃ round : List Hash → TransactionInput → List Hash,
      mp.ownersOfInputs transaction = transaction.inputs.foldl round [] ∧
      ∀ owners input, x ∈ round owners input ↔ x ∈ owners ∨
        mp.transactionPool.utxoSet.outpointOwnerId.lookup input.previousOutpoint = some x := by
    refine ⟨_, rfl, fun owners input => ?_⟩
    dsimp only [MempoolUtxoSet.getOutpointOwnerId]
    cases mp.transactionPool.utxoSet.outpointOwnerId.lookup input.previousOutpoint with
    | none => simp
    | some redeemerId =>
      simp only [mem_insert_iff, Option.some.injEq]
      tauto
  have hfold : ∀ (inputs : List TransactionInput) (owners : List Hash),
      x ∈ inputs.foldl round owners ↔ x ∈ owners ∨ ∃ input ∈ inputs,
        mp.transactionPool.utxoSet.outpointOwnerId.lookup input.previousOutpoint = some x := by
    intro inputs
    induction inputs with
    | nil => simp
    | cons input inputs ih =>
      intro owners
      rw [foldl_cons, ih, hround, exists_mem_cons_iff, or_assoc]
  rw [hrounds, hfold]
  simp

/-- The removal of a transaction of the block, which is in one of the pools at most. -/
lemma removeAccepted_ok (hd : Disjoint mp)
    (h : (Mempool.removeAccepted ctx id).outcome mp = some (.ok (), mp')) :
    Shrunk (· = id) mp.transactionPool mp'.transactionPool := by
  have hsame : mp.transactionPool.get id = none →
      Shrunk (· = id) mp.transactionPool mp.transactionPool := fun hnone =>
    ⟨fun _ _ => rfl, fun x hx => by rw [hx, hnone], fun _ _ _ _ => Iff.rfl⟩
  unfold Mempool.removeAccepted at h
  rw [outcome_get_bind] at h
  split at h
  · next horphan =>
    unfold Mempool.removeTransaction at h
    rw [outcome_get_bind, if_neg horphan] at h
    split at h
    · next hhas =>
      cases h
      exact hsame (not_has_iff.mp hhas)
    · have hshrunk := shrunk_removeTransactions h
      simp only [Bool.false_eq_true, if_false, mem_singleton] at hshrunk
      exact hshrunk
  · next horphan =>
    cases h
    rw [not_not] at horphan
    exact hsame (not_has_iff.mp (hd id horphan))

lemma handleBlockTransaction_ok (hd : Disjoint mp)
    (ho : OwnersExact mp.transactionPool.utxoSet mp.transactionPool)
    (h : (Mempool.handleBlockTransaction ctx blockDaaScore transaction).outcome mp =
      some (.ok unorphaned, mp')) :
    ∃ gone, Handled [transaction] gone mp mp' := by
  obtain ⟨u, mp₁, haccepted, h⟩ := outcome_bind_eq_ok h
  obtain ⟨u, mp₂, hdouble, h⟩ := outcome_bind_eq_ok h
  obtain ⟨orphans, mp₃, horphan, h⟩ := outcome_bind_eq_ok h
  rw [outcome_bind_ok (outcome_modify _ _)] at h
  have hafter := along_getUnorphanedTransactions ctx transaction _ _ _ h
  -- the transaction itself
  have hself := removeAccepted_ok hd haccepted
  have hlessened₁ := along_removeAccepted _ _ _ _ haccepted
  -- the transactions that it conflicts with
  unfold Mempool.removeDoubleSpendsOf at hdouble
  rw [outcome_get_bind] at hdouble
  obtain ⟨gone, hgone⟩ := removeEach_ok hdouble
  have howners : ∀ x, x ∈ mp₁.ownersOfInputs transaction ↔
      ∃ input ∈ transaction.inputs, Spends mp₁.transactionPool x
        input.previousOutpoint := by
    intro x
    rw [mem_ownersOfInputs]
    have hexact := hlessened₁.pool.ownersExact ho
    simp only [hexact _ _]
  -- the orphan
  obtain ⟨horphan, hmempool₃⟩ := onOrphans_ok horphan
  have hpool : mp'.transactionPool = mp₂.transactionPool := by
    rw [hafter.pool, hmempool₃]
  refine ⟨fun x => x = transaction.id ∨ gone x, ?_, ?_, ?_, ?_, ?_⟩
  · rw [hpool]
    exact hself.trans hgone.shrunk
  · intro t ht
    obtain rfl := mem_singleton.mp ht
    refine ⟨.inl rfl, fun hhas => ?_⟩
    have hhas₃ : mp₃.orphanPool.has t.id := hafter.orphans t.id hhas
    obtain ⟨tx, htx⟩ := Pool.has_iff.mp hhas₃
    rw [Pool.get, (OrphanPool.removeOrphan_single_ends _ _).of_outcome horphan,
      MempoolTransactionCollection.get_remove, if_pos rfl] at htx
    cases htx
  · intro t ht input hinput x hx
    obtain rfl := mem_singleton.mp ht
    by_cases hxt : x = t.id
    · exact .inl hxt
    · have hx₁ : Spends mp₁.transactionPool x input.previousOutpoint :=
        hself.spends_iff.mpr ⟨hx, hxt⟩
      exact .inr (hgone.complete (hd.lessened hlessened₁) x
        ((howners x).mpr ⟨input, hinput, hx₁⟩) hx₁.has x .refl)
  · intro x y hx hnot hxy
    have hxt : x ≠ transaction.id := fun heq => hnot transaction (mem_singleton_self _) heq.symm
    by_cases hyt : y = transaction.id
    · exact .inl hyt
    · exact .inr (hgone.closed x y (hx.resolve_left hxt)
        ((hself.chain_iff hxt).mpr ⟨hxy, hyt⟩))
  · rintro x (rfl | hx)
    · exact .inl ⟨transaction, mem_singleton_self _, rfl⟩
    · obtain ⟨d, hdowner, -, hpath⟩ := hgone.sound x hx
      obtain ⟨input, hinput, hspends⟩ := (howners d).mp hdowner
      obtain ⟨hspends, hdt⟩ := hself.spends_iff.mp hspends
      refine .inr ⟨d, ⟨transaction, mem_singleton_self _, Ne.symm hdt, input, hinput, hspends⟩, ?_⟩
      exact hself.reflTransGen hdt hpath

/-! ## All transactions of a block -/

/-- Some transactions of a block after the others. -/
theorem Handled.append {block' : List Transaction} {gone' : Hash → Prop}
    (h : Handled block gone mp mp₁) (h' : Handled block' gone' mp₁ mp')
    (hfewer : OrphanPool.Fewer mp₁.orphanPool mp'.orphanPool) :
    Handled (block ++ block') (fun x => gone x ∨ gone' x) mp mp' where
  shrunk := h.shrunk.trans h'.shrunk
  accepted := by
    intro t ht
    rcases mem_append.mp ht with ht | ht
    · exact ⟨.inl (h.accepted t ht).1, fun hhas => (h.accepted t ht).2 (hfewer t.id hhas)⟩
    · exact ⟨.inr (h'.accepted t ht).1, (h'.accepted t ht).2⟩
  conflicts := by
    intro t ht input hinput x hx
    by_cases hg : gone x
    · exact .inl hg
    · rcases mem_append.mp ht with ht | ht
      · exact .inl (h.conflicts t ht input hinput x hx)
      · exact .inr (h'.conflicts t ht input hinput x (h.shrunk.spends_iff.mpr ⟨hx, hg⟩))
  closed := by
    intro x y hx hnot hxy
    by_cases hgx : gone x
    · exact .inl (h.closed x y hgx (fun t ht => hnot t (mem_append_left _ ht)) hxy)
    · by_cases hgy : gone y
      · exact .inl hgy
      · refine .inr (h'.closed x y (hx.resolve_left hgx) (fun t ht => ?_) ?_)
        · exact hnot t (mem_append_right _ ht)
        · exact (h.shrunk.chain_iff hgx).mpr ⟨hxy, hgy⟩
  sound := by
    rintro x (hx | hx)
    · rcases h.sound x hx with ⟨t, ht, rfl⟩ | ⟨d, ⟨t, ht, hconflict⟩, hpath⟩
      · exact .inl ⟨t, mem_append_left _ ht, rfl⟩
      · exact .inr ⟨d, ⟨t, mem_append_left _ ht, hconflict⟩, hpath⟩
    · rcases h'.sound x hx with ⟨t, ht, rfl⟩ | ⟨d, ⟨t, ht, hne, input, hinput, hspends⟩, hpath⟩
      · exact .inl ⟨t, mem_append_right _ ht, rfl⟩
      · -- what conflicts with a later transaction was there at the start
        obtain ⟨hspends, hgd⟩ := h.shrunk.spends_iff.mp hspends
        exact .inr ⟨d, ⟨t, mem_append_right _ ht, hne, input, hinput, hspends⟩,
          h.shrunk.reflTransGen hgd hpath⟩

lemma handleBlockTransactions_ok (hd : Disjoint mp)
    (ho : OwnersExact mp.transactionPool.utxoSet mp.transactionPool)
    (h : (Mempool.handleBlockTransactions ctx blockDaaScore block).outcome mp =
      some (.ok unorphaned, mp')) :
    ∃ gone, Handled block gone mp mp' := by
  induction block generalizing mp unorphaned with
  | nil =>
    cases h
    exact ⟨_, handled_nil _⟩
  | cons transaction block ih =>
    obtain ⟨first, mp₁, hround, h⟩ := outcome_bind_eq_ok h
    obtain ⟨rest, mp₂, hrest, h⟩ := outcome_bind_eq_ok h
    cases h
    have hlessened := along_handleBlockTransaction _ _ _ _ _ hround
    obtain ⟨gone, hgone⟩ := handleBlockTransaction_ok hd ho hround
    obtain ⟨gone', hgone'⟩ := ih (hd.lessened hlessened) (hlessened.pool.ownersExact ho) hrest
    exact ⟨_, hgone.append hgone' (along_handleBlockTransactions _ _ _ _ _ hrest).orphans⟩

/-! ## Clean runs -/

/-- A transaction that consensus has validated is not an orphan, and no pool transaction spends one
of its outputs, where it is submitted. -/
def MempoolOp.Clean (mp : Mempool F) : MempoolOp → Prop
  | .submit (.ok _) transaction _ _ _ => ¬mp.orphanPool.has transaction.id ∧
    Unspent mp.transactionPool.toPool transaction.id
  | _ => True

lemma MempoolOp.Clean.insertsNoOrphan {op : MempoolOp} (h : op.Clean mp) :
    op.InsertsNoOrphan mp := by
  unfold InsertsNoOrphan
  split
  · exact h.1
  · trivial

/-- The owner index and the edges of the pool are right. -/
structure PoolExact (ctx : Context F) (pool : TransactionsPool F) : Prop where
  consistent : Consistent ctx pool
  owners : OwnersExact pool.utxoSet pool.toPool

/-- The invariant does not depend on the DAA score of the virtual block. -/
lemma poolExact_withScore (virtualDaaScore : ℕ) :
    PoolExact (ctx.withScore virtualDaaScore) pool ↔ PoolExact ctx pool := by
  constructor
  · exact fun ⟨h, ho⟩ => ⟨{ h with keyed := h.keyed }, ho⟩
  · exact fun ⟨h, ho⟩ => ⟨{ h with keyed := h.keyed }, ho⟩

lemma PoolExact.remove (h : PoolExact ctx pool) {r : Except RuleError MempoolTransaction}
    (ho : (TransactionsPool.removeTransaction ctx id).outcome pool = some (r, pool')) :
    PoolExact ctx pool' where
  consistent := (h.consistent.remove id).of_outcome ho
  owners := h.owners.remove (removeTransaction_leads id pool r pool' ho).1.toRemoved

/-- After the replacements, the new transaction shares no outpoint with a pool transaction. -/
lemma nonConflicting_of_replaced {transaction : MempoolTransaction} {rbfPolicy : RbfPolicy}
    {removed : Option Transaction} {mp₀ : Mempool F} (hd : Disjoint mp)
    (ho : OwnersExact mp.transactionPool.utxoSet mp.transactionPool)
    (h₀ : (Mempool.executeReplaceByFee ctx transaction.mtx rbfPolicy).outcome mp =
      some (.ok removed, mp₀))
    (h₁ : Lessened ctx mp₀ mp₁) (hnew : ¬mp₁.transactionPool.has transaction.id) :
    PoolOp.NonConflicting mp₁.transactionPool (.add transaction) := by
  intro input hinput id hspends₁
  obtain ⟨ids, gone, hgone, hids, hhas⟩ := executeReplaceByFee_ok h₀
  have hid : id ≠ transaction.id := by
    rintro rfl
    exact hnew hspends₁.has
  obtain ⟨tx, htx, hspent⟩ := hspends₁
  have hspends₀ : Spends mp₀.transactionPool id input.previousOutpoint :=
    ⟨tx, h₁.pool.get htx, hspent⟩
  obtain ⟨hspends, hnot⟩ := hgone.shrunk.spends_iff.mp hspends₀
  -- the transaction was found as a double spend
  have hmem := (hids id).mpr ⟨input, hinput, (ho _ _).mpr hspends, hid⟩
  exact hnot (hgone.complete hd id hmem (hhas id hmem) id .refl)

lemma poolExact_of_mempoolReached
    (h : MempoolReached ctx (fun mp op => op.Clean mp) mp) :
    Disjoint mp ∧ PoolExact ctx mp.transactionPool := by
  induction h with
  | new => exact ⟨fun x hx => (nomatch hx), consistent_new ctx, ownersExact_new⟩
  | @step mp mp' op r virtualDaaScore _ hop hexec ih =>
    obtain ⟨hd, hexact⟩ := ih
    have heffect := effect_of_exec hexec
    refine ⟨hd.effect hop.insertsNoOrphan heffect, ?_⟩
    rw [← poolExact_withScore virtualDaaScore] at hexact ⊢
    refine heffect.keeps (fun pool pool' id r h ho => h.remove ho) ?_ hexact
    intro transaction priority orphan rbfPolicy score mp₁ hop' hinserted
    subst hop'
    refine hinserted.keeps (fun pool pool' id r h ho => h.remove ho) ?_ hexact
    intro removed mp₀ mp₂ r pool' h₀ h₁ hexact₂ hadd
    have hlessened := IsTrans.trans _ _ _ (along_executeReplaceByFee _ _ _ _ _ h₀) h₁
    have hunspent : PoolOp.AddsUnspent mp₂.transactionPool
        (.add ⟨transaction, priority, score⟩) :=
      fun id tx htx => hop.2 id tx (hlessened.pool.get htx)
    constructor
    case consistent =>
      exact (hexact₂.consistent.exec (asserted_of_exec hadd) hunspent).of_outcome hadd
    case owners =>
      obtain ⟨hnew, size, frontier, rfl⟩ := added_of_exec hadd
      have hconflict := nonConflicting_of_replaced hd hexact.owners h₀ h₁ hnew
      exact hexact₂.owners.add hnew hconflict size frontier

/-! ## What is left -/

/-- What a block leaves of the mempool: the transactions of the block are gone, with the pool
transactions that spend one of their outpoints. Gone are also the pool transactions that depend on
one of these, as far as they do so through transactions that are not accepted with the block. All
others have stayed. -/
structure Settled (block : List Transaction) (mp mp' : Mempool F) : Prop where
  accepted : ∀ t ∈ block, ¬mp'.transactionPool.has t.id ∧ ¬mp'.orphanPool.has t.id
  conflicts : ∀ t ∈ block, ∀ input ∈ t.inputs, ∀ x,
    ¬Spends mp'.transactionPool.toPool x input.previousOutpoint
  descendants : ∀ d x, Conflicts mp.transactionPool.toPool block d →
    ReflTransGen (fun a b => Parent mp.transactionPool.toPool a b ∧ ∀ t ∈ block, t.id ≠ a)
      d x → ¬mp'.transactionPool.has x
  others : ∀ x tx, mp.transactionPool.get x = some tx → (∀ t ∈ block, t.id ≠ x) →
    (∀ d, Conflicts mp.transactionPool.toPool block d →
      ¬ReflTransGen (Parent mp.transactionPool.toPool) d x) →
    mp'.transactionPool.get x = some tx

lemma Consistent.chain_iff (h : Consistent ctx pool) : pool.Chain x y ↔ Parent pool x y := by
  unfold Pool.Chain
  rw [h.chained]
  refine ⟨And.left, fun hp => ⟨hp, ?_⟩⟩
  obtain ⟨-, -, tx, htx, -⟩ := hp
  exact Pool.has_iff.mpr ⟨tx, htx⟩

lemma Handled.settled (h : Handled block gone mp mp')
    (hc : Consistent ctx mp.transactionPool) : Settled block mp mp' where
  accepted := fun t ht => ⟨fun hhas => ((h.shrunk.has_iff t.id).mp hhas).2 (h.accepted t ht).1,
    (h.accepted t ht).2⟩
  conflicts := by
    intro t ht input hinput x hx
    obtain ⟨hx, hnot⟩ := h.shrunk.spends_iff.mp hx
    exact hnot (h.conflicts t ht input hinput x hx)
  descendants := by
    rintro d x ⟨t, ht, -, input, hinput, hspends⟩ hpath
    have hgone : gone x := by
      induction hpath with
      | refl => exact h.conflicts t ht input hinput d hspends
      | tail _ hstep ih => exact h.closed _ _ ih hstep.2 (hc.chain_iff.mpr hstep.1)
    exact fun hhas => ((h.shrunk.has_iff x).mp hhas).2 hgone
  others := by
    intro x tx htx hblock hnot
    rw [h.shrunk.get x, htx]
    intro hgone
    rcases h.sound x hgone with ⟨t, ht, htx⟩ | ⟨d, hd, hpath⟩
    · exact hblock t ht htx
    · exact hnot d hd (Relation.ReflTransGen.mono (fun _ _ => hc.chain_iff.mp) d x hpath)

/-- After a clean run, a block settles the mempool. If no transaction of the block depends on a pool
transaction that conflicts with the block, all pool transactions that do are gone. -/
theorem handleNewBlockTransactions_settled {mp mp' : Mempool F}
    (hreached : MempoolReached ctx (fun mp op => op.Clean mp) mp)
    {virtualDaaScore blockDaaScore : ℕ} {coinbase : Transaction} {block : List Transaction}
    {unorphaned : List MempoolTransaction}
    (h : (Mempool.handleNewBlockTransactions (ctx.withScore virtualDaaScore) blockDaaScore
      (coinbase :: block)).outcome mp = some (.ok unorphaned, mp')) :
    Settled block mp mp' ∧
    ((∀ t ∈ block, ∀ d, Conflicts mp.transactionPool.toPool block d →
        ¬ReflTransGen (Parent mp.transactionPool.toPool) d t.id) →
      ∀ d x, Conflicts mp.transactionPool.toPool block d →
        ReflTransGen (Parent mp.transactionPool.toPool) d x →
        ¬mp'.transactionPool.has x) := by
  obtain ⟨hd, hexact⟩ := poolExact_of_mempoolReached hreached
  obtain ⟨gone, hgone⟩ := handleBlockTransactions_ok hd hexact.owners h
  have hsettled := hgone.settled hexact.consistent
  refine ⟨hsettled, fun hfree d x hconflict hpath => hsettled.descendants d x hconflict ?_⟩
  induction hpath with
  | refl => exact .refl
  | tail hpath hstep ih =>
    exact ih.tail ⟨hstep, fun t ht htid => hfree t ht d hconflict (htid ▸ hpath)⟩

end

/-! ## A transaction in both pools -/

/-- A transaction that spends the same output of consensus as `firstTx`. -/
def rivalTx : Transaction := ⟨7, 0, [⟨⟨100, 0⟩, [], 0, 0⟩], [⟨40000, ⟨0, [0x51]⟩⟩], 0, 0⟩

theorem handleNewBlockTransactions_settled_rivalTx :
    ∃ mp mp' unorphaned, ((MempoolOp.submit (.ok ()) firstTx .low .allowed
        .allowed).exec openContext).outcome .new = some (.ok (), mp) ∧
      mp.transactionPool.has 1 ∧
      (Mempool.handleNewBlockTransactions openContext 8 [coinbaseTx, rivalTx]).outcome mp =
        some (.ok unorphaned, mp') ∧
      Settled [rivalTx] mp mp' := by
  have hrun : (((MempoolOp.submit (.ok ()) firstTx .low .allowed .allowed).exec
      openContext).outcome .new).bind (fun o => ((Mempool.handleNewBlockTransactions openContext 8
        [coinbaseTx, rivalTx]).outcome o.2).map fun o' =>
          (o.1.toBool, o.2.transactionPool.has 1, o'.1.toBool)) = some (true, true, true) := by
    decide +kernel
  obtain ⟨⟨r, mp⟩, hexec, hrest⟩ := Option.bind_eq_some_iff.mp hrun
  obtain ⟨⟨r', mp'⟩, hblock, hobs⟩ := Option.map_eq_some_iff.mp hrest
  simp only [Prod.mk.injEq] at hobs
  obtain ⟨hok, hhas, hok'⟩ := hobs
  cases r with
  | error e => cases hok
  | ok _ =>
    cases r' with
    | error e => cases hok'
    | ok unorphaned =>
      have hclean : MempoolOp.Clean (Mempool.new : Mempool ℕ)
          (.submit (.ok ()) firstTx .low .allowed .allowed) :=
        ⟨fun h => (nomatch h), fun _ _ h => (nomatch h)⟩
      have hreached : MempoolReached openContext (fun mp op => op.Clean mp) mp :=
        .step 7 .new hclean hexec
      have hblock' : (Mempool.handleNewBlockTransactions (openContext.withScore 7) 8
          [coinbaseTx, rivalTx]).outcome mp = some (.ok unorphaned, mp') := hblock
      exact ⟨mp, mp', unorphaned, hexec, hhas, hblock,
        (handleNewBlockTransactions_settled hreached hblock').1⟩

/-- A transaction that is in both pools is accepted in a block: the orphan is removed, and the
transaction stays in the transactions pool. -/
theorem waitingTx_stays_after_block :
    ∃ mp mp' unorphaned, runMempool openContext resubmitOps .new = some mp ∧
      MempoolReached openContext (fun _ _ => True) mp ∧
      (Mempool.handleNewBlockTransactions openContext 9 [⟨201, 0, [], [], 0, 0⟩,
        waitingTx.tx]).outcome mp = some (.ok unorphaned, mp') ∧
      mp'.transactionPool.has 5 ∧ ¬Settled [waitingTx.tx] mp mp' := by
  have hrun : (runMempool openContext resubmitOps .new).bind (fun mp =>
      ((Mempool.handleNewBlockTransactions openContext 9 [⟨201, 0, [], [], 0, 0⟩,
        waitingTx.tx]).outcome mp).map fun o => (o.1.toBool, o.2.transactionPool.has 5)) =
      some (true, true) := by
    decide +kernel
  obtain ⟨mp, hmempool, hrest⟩ := Option.bind_eq_some_iff.mp hrun
  obtain ⟨⟨r, mp'⟩, hblock, hobs⟩ := Option.map_eq_some_iff.mp hrest
  obtain ⟨hok, hhas⟩ := Prod.mk.inj hobs
  cases r with
  | error e => cases hok
  | ok unorphaned =>
    refine ⟨mp, mp', unorphaned, hmempool,
      MempoolReached.new.runMempool (fun _ _ => trivial) hmempool, hblock, hhas, fun hsettled => ?_⟩
    exact (hsettled.accepted waitingTx.tx (mem_singleton_self _)).1 hhas

end LapisMonetae.Mining
