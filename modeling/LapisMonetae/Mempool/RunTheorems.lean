import LapisMonetae.Mempool.NewBlock
import LapisMonetae.Mempool.ReplacementTheorems

/-!
# Runs of the mempool

The operations of the mempool in any order. All but the submissions only take transactions away from
the two pools. A submission adds its transaction to the one pool or to the other, and it looks for
the transaction in the transactions pool only: an orphan that is submitted again is then in both.
-/

namespace LapisMonetae.Mining

open Utxo Tx Program TransactionsPool Option MempoolTransactionCollection OrphanPool Pool
open Relation (ReflTransGen)

section
variable {F : Type}

/-- The context at another DAA score of the virtual block. -/
def Context.withScore (ctx : Context F) (virtualDaaScore : ℕ) : Context F :=
  { ctx with virtualDaaScore := virtualDaaScore }

/-- The operations of the mempool. A submission is given the verdict of consensus, and the last scans
before an expiration are arbitrary. -/
inductive MempoolOp where
  | submit (validationResult : Except RuleError Unit) (t : MutableTransaction)
    (priority : Priority) (orphan : Orphan) (rbfPolicy : RbfPolicy)
  | newBlock (blockDaaScore : ℕ) (blockTransactions : List Transaction)
  | remove (transactionId : Hash) (removeRedeemers : Bool)
  | expireOrphans (config : ExpireConfig) (lastExpireScan : ℕ)
  | expireAccepted (config : ExpireConfig) (last now : ExpireScan)
  | expireTransactions (config : ExpireConfig) (last now : ExpireScan)

variable [LinearOrder F]

/-- The unorphaning that follows an accepted transaction. -/
def unorphanAfter (ctx : Context F) (result : TransactionPostValidation) : MempoolM F Unit :=
  match result.accepted with
  | some accepted => do
    let _ ← Mempool.getUnorphanedTransactionsAfterAcceptedTransaction ctx accepted
    pure ()
  | none => pure ()

/-- The program of an operation. The transactions that it unorphans are submitted later on. -/
def MempoolOp.exec (ctx : Context F) : MempoolOp → MempoolM F Unit
  | .submit validationResult t priority orphan rbfPolicy => do
    let result ← Mempool.postValidateAndInsertTransaction ctx validationResult t priority
      orphan rbfPolicy
    unorphanAfter ctx result
  | .newBlock blockDaaScore blockTransactions => do
    let _ ← Mempool.handleNewBlockTransactions ctx blockDaaScore blockTransactions
    pure ()
  | .remove transactionId removeRedeemers =>
    Mempool.removeTransaction ctx transactionId removeRedeemers
  | .expireOrphans config lastExpireScan => do
    let _ ← Mempool.onOrphans (expireLowPriorityTransactions config lastExpireScan
      ctx.virtualDaaScore)
    pure ()
  | .expireAccepted config last now => modify fun self =>
    { self with acceptedTransactions := (self.acceptedTransactions.expire config last now).1 }
  | .expireTransactions config last now => do
    let self ← get
    Mempool.removeExpired ctx
      (self.transactionPool.collectExpiredLowPriorityTransactions config last now).1

/-- The states that operations lead to, each of which satisfies a condition on the state before it.
An operation that fails keeps what it has changed. -/
inductive MempoolReached (ctx : Context F) (allowed : Mempool F → MempoolOp → Prop) :
    Mempool F → Prop
  | new : MempoolReached ctx allowed .new
  | step {mp mp' : Mempool F} {op : MempoolOp} {r : Except RuleError Unit}
    (virtualDaaScore : ℕ) : MempoolReached ctx allowed mp → allowed mp op →
    (op.exec (ctx.withScore virtualDaaScore)).outcome mp = some (r, mp') →
    MempoolReached ctx allowed mp'

end

/-! ## Orphans -/

namespace OrphanPool

variable {self : OrphanPool} (ids : List Hash)

/-- An orphan that is replaced by itself, with other entries. -/
lemma fewer_insert {orphan : MempoolTransaction} {outpoint : TransactionOutpoint}
    (h : self.outpointOrphan outpoint = some orphan) {orphan' : MempoolTransaction}
    (hid : orphan'.id = orphan.id) : Fewer self { self with all := self.all.insert orphan' } := by
  intro x hx
  obtain ⟨tx, htx⟩ := has_iff.mp hx
  have hget : ((self.all.insert orphan').get x) = some tx := htx
  rw [get_insert] at hget
  split at hget
  · next hx =>
    obtain ⟨id, -, horphan⟩ := bind_eq_some_iff.mp h
    rw [hx, hid, id_of_get horphan]
    exact has_iff.mpr ⟨orphan, horphan⟩
  · exact has_iff.mpr ⟨tx, hget⟩

lemma fewer_fillEntry (outpoint : TransactionOutpoint) (output : TransactionOutput)
    (self : OrphanPool) : Fewer self (self.fillEntry outpoint output).1 := by
  unfold fillEntry
  split
  · exact Std.Refl.refl self
  · next orphan horphan =>
    split
    · exact Std.Refl.refl self
    · split
      · exact fewer_insert horphan rfl
      · exact Std.Refl.refl self

lemma tx_forgetEntries (removedId : Hash) (orphan : MempoolTransaction) :
    (forgetEntries removedId orphan).mtx.tx = orphan.mtx.tx := by
  refine AssocMap.foldl_keeps MutableTransaction.tx (fun mtx _ _ => ?_) _
  split <;> rfl

lemma fewer_forgetOutput (removedId : Hash) (i : ℕ) (self : OrphanPool) :
    Fewer self (self.forgetOutput removedId i) := by
  unfold forgetOutput
  split
  · next orphan horphan =>
    apply fewer_insert horphan
    exact congrArg Transaction.id (tx_forgetEntries removedId orphan)
  · exact Std.Refl.refl self

lemma along_removeOrphan (id : Hash) (removeRedeemers : Bool) :
    Along Fewer (removeOrphan id removeRedeemers) :=
  (keeps_removeOrphan id removeRedeemers).along

lemma along_updateOrphansAfterTransactionRemoved (tx : MempoolTransaction)
    (removeRedeemers : Bool) :
    Along Fewer (updateOrphansAfterTransactionRemoved tx removeRedeemers) := by
  have hforget : ∀ (indices : List ℕ) (self : OrphanPool),
      Fewer self (indices.foldl (forgetOutput tx.id) self) := by
    intro indices
    induction indices with
    | nil => exact fun self => Std.Refl.refl self
    | cons i indices ih =>
      exact fun self x hx => fewer_forgetOutput tx.id i self x (ih _ x hx)
  unfold updateOrphansAfterTransactionRemoved
  split
  · exact along_get.bind fun self => (keeps_removeOrphans _).along
  · exact (keeps_modify fun self => hforget _ self).along.bind fun _ => along_pure _

lemma along_removeExpired : Along Fewer (removeExpired ids) := by
  induction ids with
  | nil => exact along_pure _
  | cons id ids ih => exact (along_removeOrphan id false).bind fun _ => ih

lemma along_expireLowPriorityTransactions (config : ExpireConfig)
    (lastExpireScan virtualDaaScore : ℕ) :
    Along Fewer (expireLowPriorityTransactions config lastExpireScan virtualDaaScore) := by
  refine along_ite (along_pure _) (along_get.bind fun self => ?_)
  exact (along_removeExpired _).bind fun _ => along_pure _

/-- The orphans of `self'` are orphans of `self`, or the transaction `id`. -/
def FewerBut (id : Hash) (self self' : OrphanPool) : Prop :=
  ∀ x, self'.has x → self.has x ∨ x = id

instance (id : Hash) : Std.Refl (FewerBut id) := ⟨fun _ _ => .inl⟩

instance (id : Hash) : IsTrans OrphanPool (FewerBut id) :=
  ⟨fun _ _ _ h h' x hx => (h' x hx).elim (h x) .inr⟩

lemma along_tryAddOrphan {F : Type} (ctx : Context F) (t : MutableTransaction)
    (priority : Priority) : Along (FewerBut t.id)
      (tryAddOrphan ctx ctx.virtualDaaScore t priority) := by
  have hmass : Along (FewerBut t.id) (checkOrphanMass ctx t) :=
    (along_unwrap _).bind fun masses => along_ite (along_throw _) (along_pure _)
  have hlimit : Along (FewerBut t.id) (limitOrphanPoolSize ctx 1) :=
    (keeps_limitOrphanPoolSize 1).along.mono fun self self' h x hx => .inl (h x hx)
  have hadd : ∀ self, FewerBut t.id self
      (addOrphan ctx.virtualDaaScore t priority self) := by
    intro self x hx
    obtain ⟨tx, htx⟩ := has_iff.mp hx
    have hget : (self.all.insert ⟨t, priority, ctx.virtualDaaScore⟩).get x = some tx := htx
    rw [get_insert] at hget
    split at hget
    · next hid => exact .inr hid
    · exact .inl (has_iff.mpr ⟨tx, hget⟩)
  refine along_ite (along_pure _) (along_get.bind fun self => ?_)
  refine (along_orFail _).bind fun _ => hmass.bind fun _ => ?_
  exact (along_orFail _).bind fun _ => hlimit.bind fun _ => (keeps_modify hadd).along

end OrphanPool

/-! ## Operations that only take transactions away -/

section
variable {F : Type} [LinearOrder F] (ctx : Context F)

/-- The pool `pool'` comes from `pool` by removals. -/
def Reduced : TransactionsPool F → TransactionsPool F → Prop :=
  ReflTransGen fun pool pool' =>
    ∃ id r, (removeTransaction ctx id).outcome pool = some (r, pool')

/-- Transactions were removed from the pool, and orphans from the orphan pool. -/
structure Lessened (mp mp' : Mempool F) : Prop where
  pool : Reduced ctx mp.transactionPool mp'.transactionPool
  orphans : OrphanPool.Fewer mp.orphanPool mp'.orphanPool

instance : Std.Refl (Reduced ctx) := ⟨fun _ => .refl⟩

instance : IsTrans (TransactionsPool F) (Reduced ctx) := ⟨fun _ _ _ => ReflTransGen.trans⟩

instance : Std.Refl (Lessened ctx) := ⟨fun _ => ⟨.refl, Std.Refl.refl _⟩⟩

instance : IsTrans (Mempool F) (Lessened ctx) :=
  ⟨fun _ _ _ h h' => ⟨h.pool.trans h'.pool, fun x hx => h.orphans x (h'.orphans x hx)⟩⟩

variable {ctx} {pool pool' : TransactionsPool F} {α : Type} {p : OrphanM α}
  (t : MutableTransaction) (blockDaaScore : ℕ) (txs : List Transaction)

lemma Reduced.has (h : Reduced ctx pool pool') {x : Hash} (hx : pool'.has x) : pool.has x := by
  induction h with
  | refl => exact hx
  | tail _ hstep ih =>
    obtain ⟨id, r, hremove⟩ := hstep
    apply ih
    obtain ⟨tx, htx⟩ := has_iff.mp hx
    rw [(removeTransaction_leads id _ _ _ hremove).1.get] at htx
    split at htx
    · cases htx
    · exact has_iff.mpr ⟨tx, htx⟩

lemma along_onPool {p : PoolM F α} (h : Along (Reduced ctx) p) :
    Along (Lessened ctx) (Mempool.onPool p) :=
  h.zoom fun _ _ hr => ⟨hr, Std.Refl.refl _⟩

lemma along_onOrphans (h : Along OrphanPool.Fewer p) :
    Along (Lessened ctx) (Mempool.onOrphans p : MempoolM F α) :=
  h.zoom fun _ _ hr => ⟨.refl, hr⟩

lemma along_removeTransaction (id : Hash) (removeRedeemers : Bool) :
    Along (Lessened ctx) (Mempool.removeTransaction ctx id removeRedeemers) := by
  have hloop : ∀ ids, Along (Lessened ctx) (Mempool.removeTransactions ctx removeRedeemers ids) := by
    intro ids
    induction ids with
    | nil => exact along_pure _
    | cons id ids ih =>
      have hpool : Along (Reduced ctx) (removeTransaction ctx id) :=
        fun pool r pool' h => .single ⟨id, r, h⟩
      refine (along_onPool hpool).bind fun tx => ?_
      refine (along_onOrphans ?_).bind fun _ => ih
      exact along_updateOrphansAfterTransactionRemoved tx removeRedeemers
  refine along_get.bind fun self => ?_
  refine along_ite ?_ (along_ite (along_pure _) (hloop _))
  exact (along_onOrphans (along_removeOrphan id true)).bind fun _ => along_pure _

lemma along_removeEach (ids : List Hash) : Along (Lessened ctx) (Mempool.removeEach ctx ids) := by
  induction ids with
  | nil => exact along_pure _
  | cons id ids ih => exact (along_removeTransaction id true).bind fun _ => ih

lemma along_removeExpired (ids : List Hash) :
    Along (Lessened ctx) (Mempool.removeExpired ctx ids) := by
  induction ids with
  | nil => exact along_pure _
  | cons id ids ih => exact (along_removeTransaction id true).attempt.bind fun _ => ih

lemma along_executeReplaceByFee (rbfPolicy : RbfPolicy) :
    Along (Lessened ctx) (Mempool.executeReplaceByFee ctx t rbfPolicy) := by
  refine along_get.bind fun self => ?_
  cases rbfPolicy with
  | forbidden => exact (along_orFail _).bind fun _ => along_pure _
  | allowed =>
    dsimp only
    split
    · exact along_pure _
    · refine (along_orFail _).bind fun removed => (along_orFail _).bind fun _ => ?_
      rw [removeDoubleSpends_eq]
      exact (along_removeEach _).bind fun _ => along_pure _
  | mandatory =>
    dsimp only
    split
    · exact along_throw _
    · refine (along_orFail _).bind fun removed => ?_
      exact (along_removeTransaction _ true).bind fun _ => along_pure _
    · exact along_throw _

lemma along_limitTransactionCount (transactionSize : ℕ) :
    Along (Reduced ctx) (limitTransactionCount ctx t transactionSize) := by
  intro pool
  apply leads_get_bind
  split
  · exact leads_pure .refl
  · refine leads_unwrap_bind fun feerate _ => ?_
    refine (limitLoop_leads _ [] 0 fun _ h => (nomatch h)).mono fun r pool' h => ?_
    rw [h.1]
    exact .refl

lemma along_makeRoom (transactionSize : ℕ) (ids : List Hash) :
    Along (Lessened ctx) (Mempool.makeRoom ctx transactionSize ids) := by
  induction ids with
  | nil => exact along_pure _
  | cons id ids ih =>
    refine (along_removeTransaction id true).bind fun _ => along_get.bind fun self => ?_
    exact along_ite (along_pure _) ih

/-- Orphans were removed, and the transactions pool is as before. -/
structure Unorphaned (mp mp' : Mempool F) : Prop where
  pool : mp'.transactionPool = mp.transactionPool
  orphans : OrphanPool.Fewer mp.orphanPool mp'.orphanPool

instance : Std.Refl (Unorphaned (F := F)) := ⟨fun _ => ⟨rfl, Std.Refl.refl _⟩⟩

instance : IsTrans (Mempool F) Unorphaned :=
  ⟨fun _ _ _ h h' => ⟨h'.pool.trans h.pool, fun x hx => h.orphans x (h'.orphans x hx)⟩⟩

lemma Unorphaned.lessened {mp mp' : Mempool F} (h : Unorphaned mp mp') :
    Lessened ctx mp mp' where
  pool := by
    rw [h.pool]
    exact .refl
  orphans := h.orphans

lemma unorphaned_onOrphans (h : Along OrphanPool.Fewer p) :
    Along Unorphaned (Mempool.onOrphans p : MempoolM F α) :=
  h.zoom fun _ _ hr => ⟨rfl, hr⟩

lemma along_getUnorphanedTransactions (ctx : Context F) (t : Transaction) :
    Along Unorphaned
      (Mempool.getUnorphanedTransactionsAfterAcceptedTransaction ctx t) := by
  have hunorphan : ∀ id, Along Unorphaned (Mempool.unorphanTransaction ctx id) := by
    intro id
    refine (unorphaned_onOrphans (along_removeOrphan id false)).bind
      fun txs => ?_
    split
    · refine along_get.bind fun self => (along_orFail _).bind fun _ => ?_
      exact (along_orFail _).bind fun _ => along_pure _
    · exact along_unwrap _
  have hcomplete : ∀ orphanId, Along Unorphaned (Mempool.unorphanIfComplete ctx orphanId) := by
    intro orphanId
    cases orphanId with
    | none => exact along_pure _
    | some id =>
      refine (hunorphan id).attempt.bind fun result => ?_
      split
      · exact along_pure _
      · exact along_pure _
  have hloop : ∀ outputs, Along Unorphaned (Mempool.unorphanLoop ctx t.id outputs) := by
    intro outputs
    induction outputs with
    | nil => exact along_pure _
    | cons output outputs ih =>
      intro mp
      apply leads_get_bind
      refine leads_bind_of_outcome (outcome_set mp _) ?_
      have hfilled : Unorphaned mp { mp with
          orphanPool := (mp.orphanPool.fillEntry ⟨t.id, output.2⟩ output.1).1 } :=
        ⟨rfl, fewer_fillEntry _ _ _⟩
      have hrest := (hcomplete (mp.orphanPool.fillEntry ⟨t.id, output.2⟩
        output.1).2).bind fun unorphanedTx => ih.bind fun unorphaned =>
          along_pure (unorphanedTx ++ unorphaned)
      exact (hrest _).mono fun r mp' h => IsTrans.trans _ _ _ hfilled h
  exact hloop _

lemma along_removeAccepted (id : Hash) : Along (Lessened ctx) (Mempool.removeAccepted ctx id) :=
  along_get.bind fun _ => along_ite (along_removeTransaction _ false) (along_pure _)

lemma along_handleBlockTransaction (t : Transaction) :
    Along (Lessened ctx) (Mempool.handleBlockTransaction ctx blockDaaScore t) := by
  have hdouble : Along (Lessened ctx) (Mempool.removeDoubleSpendsOf ctx t) :=
    along_get.bind fun self => along_removeEach _
  refine (along_removeAccepted t.id).bind fun _ => hdouble.bind fun _ => ?_
  refine (along_onOrphans (along_removeOrphan _ false)).bind fun _ => ?_
  refine (keeps_modify fun self => ⟨.refl, Std.Refl.refl _⟩).along.bind fun _ => ?_
  exact (along_getUnorphanedTransactions ctx t).mono fun _ _ h => h.lessened

lemma along_handleBlockTransactions :
    Along (Lessened ctx) (Mempool.handleBlockTransactions ctx blockDaaScore txs) := by
  induction txs with
  | nil => exact along_pure _
  | cons t txs ih =>
    refine (along_handleBlockTransaction blockDaaScore t).bind fun _ => ?_
    exact ih.bind fun _ => along_pure _

lemma along_handleNewBlockTransactions :
    Along (Lessened ctx) (Mempool.handleNewBlockTransactions ctx blockDaaScore txs) := by
  cases txs with
  | nil => exact along_unwrap _
  | cons coinbase txs => exact along_handleBlockTransactions blockDaaScore txs

lemma along_unorphanAfter (result : TransactionPostValidation) :
    Along (Lessened ctx) (unorphanAfter ctx result) := by
  unfold unorphanAfter
  split
  · exact ((along_getUnorphanedTransactions ctx _).mono fun _ _ h => h.lessened).bind
      fun _ => along_pure _
  · exact along_pure _

/-! ## What an operation does -/

/-- The transaction is added to the pool after its double spends were replaced and room was made. -/
def Inserted (ctx : Context F) (t : MempoolTransaction) (rbfPolicy : RbfPolicy)
    (mp mp' : Mempool F) : Prop :=
  ∃ removed mp₀ mp₁ r,
    (Mempool.executeReplaceByFee ctx t.mtx rbfPolicy).outcome mp =
      some (.ok removed, mp₀) ∧
    Lessened ctx mp₀ mp₁ ∧
    ((PoolOp.add t).exec ctx).outcome mp₁.transactionPool =
      some (r, mp'.transactionPool) ∧
    mp'.orphanPool = mp₁.orphanPool

/-- The transaction, which is not in the pool, may be added to the orphans. -/
structure Orphaned (ctx : Context F) (t : MutableTransaction)
    (mp mp' : Mempool F) : Prop where
  new : ¬mp.transactionPool.has t.id
  pool : Reduced ctx mp.transactionPool mp'.transactionPool
  orphans : OrphanPool.FewerBut t.id mp.orphanPool mp'.orphanPool

/-- What an operation does to the two pools. -/
inductive Effect (ctx : Context F) (mp mp' : Mempool F) : MempoolOp → Prop
  | lessened (op : MempoolOp) : Lessened ctx mp mp' → Effect ctx mp mp' op
  | inserted {t : MutableTransaction} {priority : Priority} {orphan : Orphan}
    {rbfPolicy : RbfPolicy} {mp₁ : Mempool F} (virtualDaaScore : ℕ) :
    Inserted ctx ⟨t, priority, virtualDaaScore⟩ rbfPolicy mp mp₁ →
    Lessened ctx mp₁ mp' →
    Effect ctx mp mp' (.submit (.ok ()) t priority orphan rbfPolicy)
  | orphaned {validationResult : Except RuleError Unit} {t : MutableTransaction}
    {priority : Priority} {orphan : Orphan} {rbfPolicy : RbfPolicy} :
    Orphaned ctx t mp mp' →
    Effect ctx mp mp' (.submit validationResult t priority orphan rbfPolicy)

variable {mp mp' : Mempool F} {op : MempoolOp}

lemma addTransaction_leads {t : MutableTransaction} {priority : Priority}
    (pool : TransactionsPool F) : Leads (addTransaction ctx t ctx.virtualDaaScore priority
      (ctx.mempoolEstimatedBytes t)) pool fun _ pool' =>
        ∃ r, ((PoolOp.add ⟨t, priority, ctx.virtualDaaScore⟩).exec ctx).outcome pool =
          some (r, pool') := by
  have hadd : Leads (addMempoolTransaction ctx
      ⟨t, priority, ctx.virtualDaaScore⟩ (ctx.mempoolEstimatedBytes t)) pool
      fun r₁ pool₁ => ((PoolOp.add ⟨t, priority, ctx.virtualDaaScore⟩).exec ctx).outcome
        pool = some (r₁, pool₁) := fun _ _ h => h
  refine hadd.bind ?_ fun e pool₁ h₁ => ⟨_, h₁⟩
  intro _ pool₁ h₁
  apply leads_get_bind
  intro r₂ pool₂ h₂
  obtain ⟨_, _, hstate⟩ := map_eq_some_iff.mp h₂
  cases hstate
  exact ⟨_, h₁⟩

lemma insertTransaction_leads (priority : Priority) (rbfPolicy : RbfPolicy) (mp : Mempool F) :
    Leads (Mempool.insertTransaction ctx t priority rbfPolicy) mp
      fun _ mp' => Lessened ctx mp mp' ∨
        Inserted ctx ⟨t, priority, ctx.virtualDaaScore⟩ rbfPolicy mp mp' := by
  refine (along_validateTransactionInContext t mp).bind ?_ ?_
  case refine_2 =>
    rintro e _ rfl
    exact .inl (Std.Refl.refl _)
  rintro _ mp rfl
  have hreplace : Leads (Mempool.executeReplaceByFee ctx t rbfPolicy) mp
      fun r mp₀ => (Mempool.executeReplaceByFee ctx t rbfPolicy).outcome mp =
        some (r, mp₀) := fun _ _ h => h
  refine hreplace.bind ?_ fun e mp₀ h₀ => .inl (along_executeReplaceByFee _ _ _ _ _ h₀)
  intro removed mp₀ h₀
  have hlessened := along_executeReplaceByFee _ _ _ _ _ h₀
  -- room is made before the transaction is added
  have hlimit := along_onPool (@along_limitTransactionCount F _ ctx t
    (ctx.mempoolEstimatedBytes t))
  refine (hlimit mp₀).bind ?_ fun e mp₁ h₁ => .inl (IsTrans.trans _ _ _ hlessened h₁)
  intro txsToRemove mp₁ h₁
  refine (along_makeRoom _ txsToRemove mp₁).bind ?_ fun e mp₂ h₂ =>
    .inl (IsTrans.trans _ _ _ hlessened (IsTrans.trans _ _ _ h₁ h₂))
  intro _ mp₂ h₂
  apply leads_get_bind
  refine leads_ensure_bind fun _ => ?_
  intro r mp' h
  refine .inr ?_
  obtain ⟨⟨x, mp₃⟩, hadd, hrest⟩ := bind_eq_some_iff.mp ((outcome_bind _ _ _).symm.trans h)
  obtain ⟨⟨y, pool₃⟩, haddPool, heq⟩ := map_eq_some_iff.mp hadd
  cases heq
  obtain ⟨r', hexec⟩ := addTransaction_leads _ _ _ haddPool
  have hstate : mp' = { mp₂ with transactionPool := pool₃ } := by
    cases y <;> cases hrest <;> rfl
  rw [hstate]
  exact ⟨removed, mp₀, mp₂, r', h₀, IsTrans.trans _ _ _ h₁ h₂, hexec, rfl⟩

/-- What a submission does before the unorphaning. -/
lemma postValidateAndInsertTransaction_leads (validationResult : Except RuleError Unit)
    (t : MutableTransaction) (priority : Priority) (orphan : Orphan)
    (rbfPolicy : RbfPolicy) (mp : Mempool F) :
    Leads (Mempool.postValidateAndInsertTransaction ctx validationResult t priority orphan
      rbfPolicy) mp fun _ mp' => Lessened ctx mp mp' ∨
        (validationResult = .ok () ∧
          Inserted ctx ⟨t, priority, ctx.virtualDaaScore⟩ rbfPolicy mp mp') ∨
        Orphaned ctx t mp mp' := by
  have hsame : Lessened ctx mp mp := Std.Refl.refl mp
  apply leads_get_bind
  split
  · exact leads_throw (.inl hsame)
  · next hnew =>
    refine leads_orFail_bind (fun _ _ => ?_) fun e _ => .inl hsame
    split
    · exact (insertTransaction_leads _ _ _ mp).mono fun r mp' h =>
        h.imp_right fun hinserted => .inl ⟨rfl, hinserted⟩
    · refine Leads.mono ?_ fun r mp' h => .inr (.inr h)
      have hsame' : Orphaned ctx t mp mp := ⟨hnew, .refl, Std.Refl.refl _⟩
      have hadd : Leads (Mempool.onOrphans (tryAddOrphan ctx ctx.virtualDaaScore
          t priority)) mp fun _ => Orphaned ctx t mp := by
        intro r mp' h
        obtain ⟨⟨x, self'⟩, hadd, heq⟩ := map_eq_some_iff.mp h
        cases heq
        exact ⟨hnew, .refl, along_tryAddOrphan ctx t priority _ _ _ hadd⟩
      split
      · exact leads_throw hsame'
      · refine leads_orFail_bind (fun _ _ => ?_) fun e _ => hsame'
        exact hadd.bind (fun _ _ h => leads_pure h) fun _ _ h => h
    · exact leads_throw (.inl hsame)

/-- What an operation does, whether it fails or not. -/
lemma effect_of_exec {r : Except RuleError Unit}
    (h : (op.exec ctx).outcome mp = some (r, mp')) : Effect ctx mp mp' op := by
  have hlessened : Along (Lessened ctx) (op.exec ctx) → Effect ctx mp mp' op :=
    fun halong => .lessened op (halong mp r mp' h)
  cases op with
  | submit validationResult t priority orphan rbfPolicy =>
    have hpost := @postValidateAndInsertTransaction_leads F _ ctx validationResult t
      priority orphan rbfPolicy mp
    have hsubmit : Leads (MempoolOp.exec ctx (.submit validationResult t priority orphan
        rbfPolicy)) mp fun _ mp' => Effect ctx mp mp' (.submit validationResult
          t priority orphan rbfPolicy) := by
      refine hpost.bind ?_ ?_
      · intro result mp₁ h₁ r₂ mp₂ h₂
        have hafter := along_unorphanAfter result mp₁ r₂ mp₂ h₂
        rcases h₁ with h₁ | ⟨rfl, h₁⟩ | h₁
        · exact .lessened _ (IsTrans.trans _ _ _ h₁ hafter)
        · exact .inserted _ h₁ hafter
        · exact .orphaned ⟨h₁.new, h₁.pool.trans hafter.pool,
            fun x hx => h₁.orphans x (hafter.orphans x hx)⟩
      · rintro e mp₁ (h₁ | ⟨rfl, h₁⟩ | h₁)
        · exact .lessened _ h₁
        · exact .inserted _ h₁ (Std.Refl.refl _)
        · exact .orphaned h₁
    exact hsubmit r mp' h
  | newBlock blockDaaScore txs =>
    exact hlessened ((along_handleNewBlockTransactions _ _).bind fun _ => along_pure _)
  | remove id removeRedeemers => exact hlessened (along_removeTransaction id removeRedeemers)
  | expireOrphans config lastExpireScan =>
    refine hlessened ((along_onOrphans ?_).bind fun _ => along_pure _)
    exact along_expireLowPriorityTransactions config lastExpireScan _
  | expireAccepted config last now =>
    exact hlessened (keeps_modify fun self => ⟨.refl, Std.Refl.refl _⟩).along
  | expireTransactions config last now =>
    exact hlessened (along_get.bind fun self => along_removeExpired _)

/-! ## Invariants of the transactions pool -/

section
variable {I : TransactionsPool F → Prop}

/-- What a removal keeps, any number of removals keep. -/
lemma Reduced.keeps (h : Reduced ctx pool pool') (hremove : ∀ pool pool' id r, I pool →
      (removeTransaction ctx id).outcome pool = some (r, pool') → I pool')
    (hI : I pool) : I pool' := by
  induction h with
  | refl => exact hI
  | tail _ hstep ih =>
    obtain ⟨id, r, hstep⟩ := hstep
    exact hremove _ _ id r ih hstep

/-- What removals keep, an insertion keeps if the addition after the replacements does. -/
lemma Inserted.keeps {t : MempoolTransaction} {rbfPolicy : RbfPolicy}
    (h : Inserted ctx t rbfPolicy mp mp') (hremove : ∀ pool pool' id r, I pool →
      (removeTransaction ctx id).outcome pool = some (r, pool') → I pool')
    (hadd : ∀ removed mp₀ mp₁ r pool',
      (Mempool.executeReplaceByFee ctx t.mtx rbfPolicy).outcome mp =
        some (.ok removed, mp₀) → Lessened ctx mp₀ mp₁ →
      I mp₁.transactionPool →
      ((PoolOp.add t).exec ctx).outcome mp₁.transactionPool = some (r, pool') →
      I pool')
    (hI : I mp.transactionPool) : I mp'.transactionPool := by
  obtain ⟨removed, mp₀, mp₁, r, h₀, h₁, hexec, -⟩ := h
  have hI₀ := (along_executeReplaceByFee _ _ _ _ _ h₀).pool.keeps hremove hI
  exact hadd removed mp₀ mp₁ r _ h₀ h₁ (h₁.pool.keeps hremove hI₀) hexec

/-- What removals keep, an operation keeps if its insertion does. -/
lemma Effect.keeps (h : Effect ctx mp mp' op) (hremove : ∀ pool pool' id r, I pool →
      (removeTransaction ctx id).outcome pool = some (r, pool') → I pool')
    (hinsert : ∀ t priority orphan rbfPolicy virtualDaaScore mp₁,
      op = .submit (.ok ()) t priority orphan rbfPolicy →
      Inserted ctx ⟨t, priority, virtualDaaScore⟩ rbfPolicy mp mp₁ →
      I mp₁.transactionPool)
    (hI : I mp.transactionPool) : I mp'.transactionPool := by
  cases h with
  | lessened _ hl => exact hl.pool.keeps hremove hI
  | inserted virtualDaaScore hinserted hl =>
    exact hl.pool.keeps hremove (hinsert _ _ _ _ virtualDaaScore _ rfl hinserted)
  | orphaned horphaned => exact horphaned.pool.keeps hremove hI

end

/-! ## The two pools -/

/-- A transaction that consensus has validated is not an orphan where it is submitted. -/
def MempoolOp.InsertsNoOrphan (mp : Mempool F) : MempoolOp → Prop
  | .submit (.ok _) t _ _ _ => ¬mp.orphanPool.has t.id
  | _ => True

lemma Disjoint.lessened (h : Disjoint mp) (hl : Lessened ctx mp mp') :
    Disjoint mp' := fun x hx hhas => h x (hl.orphans x hx) (hl.pool.has hhas)

lemma Inserted.disjoint {t : MempoolTransaction} {rbfPolicy : RbfPolicy}
    (h : Inserted ctx t rbfPolicy mp mp') (hd : Disjoint mp)
    (hnew : ¬mp.orphanPool.has t.id) : Disjoint mp' := by
  obtain ⟨removed, mp₀, mp₁, r, h₀, h₁, hadd, horphans⟩ := h
  have hlessened := IsTrans.trans _ _ _ (along_executeReplaceByFee _ _ _ _ _ h₀) h₁
  obtain ⟨-, size, frontier, hpool⟩ := added_of_exec hadd
  intro x hx hhas
  rw [horphans] at hx
  rw [hpool] at hhas
  rcases (has_added size frontier x).mp hhas with hhas | rfl
  · exact hd.lessened hlessened x hx hhas
  · exact hnew (hlessened.orphans _ hx)

/-- An operation keeps the pools apart unless it inserts an orphan. -/
lemma Disjoint.effect (h : Disjoint mp) (hop : op.InsertsNoOrphan mp)
    (he : Effect ctx mp mp' op) : Disjoint mp' := by
  cases he with
  | lessened _ hl => exact h.lessened hl
  | inserted _ hinserted hl => exact (hinserted.disjoint h hop).lessened hl
  | orphaned horphaned =>
    intro x hx hhas
    rcases horphaned.orphans x hx with hx | rfl
    · exact h x hx (horphaned.pool.has hhas)
    · exact horphaned.new (horphaned.pool.has hhas)

/-- Along operations that insert no transaction which is an orphan, no transaction is in both
pools. -/
theorem disjoint_of_mempoolReached
    (h : MempoolReached ctx (fun mp op => op.InsertsNoOrphan mp) mp) :
    Disjoint mp := by
  induction h with
  | new => exact fun x hx => nomatch hx
  | step virtualDaaScore _ hop hexec ih => exact ih.effect hop (effect_of_exec hexec)

/-- The operations of a list, one after the other. -/
def runMempool (ctx : Context F) : List MempoolOp → Mempool F → Option (Mempool F)
  | [], mp => some mp
  | op :: ops, mp =>
    ((op.exec ctx).outcome mp).bind fun o => runMempool ctx ops o.2

lemma MempoolReached.runMempool {allowed : Mempool F → MempoolOp → Prop}
    (h : MempoolReached ctx allowed mp) (hallowed : ∀ mp op, allowed mp op)
    {ops : List MempoolOp} (hrun : runMempool ctx ops mp = some mp') :
    MempoolReached ctx allowed mp' := by
  induction ops generalizing mp with
  | nil =>
    cases hrun
    exact h
  | cons op ops ih =>
    obtain ⟨⟨r, mp₁⟩, hexec, hrest⟩ := bind_eq_some_iff.mp hrun
    exact ih (.step ctx.virtualDaaScore h (hallowed _ _) hexec) hrest

end

/-! ## An orphan that is submitted again -/

/-- The coinbase transaction of a block. -/
def coinbaseTx : Transaction := ⟨200, 0, [], [⟨60000, ⟨0, [0x51]⟩⟩], 0, 0⟩

/-- A transaction that spends the output of `coinbaseTx`, before it is validated. -/
def waitingTx : MutableTransaction where
  tx := ⟨5, 0, [⟨⟨200, 0⟩, [], 0, 0⟩], [⟨50000, ⟨0, [0x51]⟩⟩], 0, 0⟩
  entries := [none]
  calculatedFee := none
  calculatedNonContextualMasses := some ⟨1000, 1000⟩
  length_entries := rfl

/-- The transaction with what consensus has filled in. -/
def waitingTxPopulated : MutableTransaction :=
  { waitingTx.setEntry 0 (some consensusEntry) with calculatedFee := some 10000 }

/-- The transaction arrives before the block with the output that it spends. -/
def waitingOps : List MempoolOp :=
  [.submit (.error .rejectMissingOutpoint) waitingTx .low .allowed .allowed,
    .newBlock 8 [coinbaseTx]]

/-- The transaction is submitted again after the block. -/
def resubmitOps : List MempoolOp :=
  waitingOps ++ [.submit (.ok ()) waitingTxPopulated .low .allowed .allowed]

/-- A transaction waits among the orphans while another one goes into the pool. -/
theorem disjoint_of_waitingTx :
    ∃ mp, runMempool openContext
        [.submit (.error .rejectMissingOutpoint) waitingTx .low .allowed .allowed,
          .submit (.ok ()) firstTx .low .allowed .allowed] .new = some mp ∧
      mp.transactionPool.has 1 ∧ mp.orphanPool.has 5 ∧ Disjoint mp := by
  have hrun : (((MempoolOp.submit (.error .rejectMissingOutpoint) waitingTx .low .allowed
      .allowed).exec openContext).outcome .new).bind (fun o =>
        (((MempoolOp.submit (.ok ()) firstTx .low .allowed .allowed).exec openContext).outcome
          o.2).map fun o' => (o.2.orphanPool.has firstTx.id, o'.2.transactionPool.has 1,
            o'.2.orphanPool.has 5)) = some (false, true, true) := by
    decide +kernel
  obtain ⟨⟨r, mp⟩, hwaiting, hrest⟩ := bind_eq_some_iff.mp hrun
  obtain ⟨⟨r', mp'⟩, hfirst, hobs⟩ := map_eq_some_iff.mp hrest
  simp only [Prod.mk.injEq] at hobs
  obtain ⟨hnew, hhas, horphan⟩ := hobs
  have hallowed : MempoolOp.InsertsNoOrphan mp
      (.submit (.ok ()) firstTx .low .allowed .allowed) := Bool.eq_false_iff.mp hnew
  have hwaits : MempoolOp.InsertsNoOrphan (.new : Mempool ℕ)
      (.submit (.error .rejectMissingOutpoint) waitingTx .low .allowed .allowed) := trivial
  have hreached : MempoolReached openContext (fun mp op => op.InsertsNoOrphan mp)
      mp := .step 7 .new hwaits hwaiting
  refine ⟨mp', ?_, hhas, horphan, disjoint_of_mempoolReached
    (hreached.step 7 hallowed hfirst)⟩
  simp only [runMempool, hwaiting, hfirst, bind_some]

/-- The coinbase of a block completes no orphan, and the transaction that waits for it is not looked
for among the orphans when it is submitted again: it is then in both pools. -/
theorem waitingTx_in_both_pools :
    ∃ mp mp', runMempool openContext waitingOps .new = some mp ∧
      ((Mempool.preValidateAndPopulateTransaction openContext waitingTx .allowed).outcome mp).map
        (fun o => o.1.toBool) = some true ∧
      runMempool openContext resubmitOps .new = some mp' ∧
      MempoolReached openContext (fun _ _ => True) mp' ∧
      mp'.transactionPool.has 5 ∧ mp'.orphanPool.has 5 := by
  have hrun : ((runMempool openContext waitingOps .new).bind fun mp =>
      (runMempool openContext resubmitOps .new).map fun mp' =>
        (((Mempool.preValidateAndPopulateTransaction openContext waitingTx
          .allowed).outcome mp).map (fun o => o.1.toBool),
          mp'.transactionPool.has 5, mp'.orphanPool.has 5)) =
      some (some true, true, true) := by
    decide +kernel
  obtain ⟨mp, hwaiting, hrest⟩ := bind_eq_some_iff.mp hrun
  obtain ⟨mp', hresubmit, hobs⟩ := map_eq_some_iff.mp hrest
  simp only [Prod.mk.injEq] at hobs
  exact ⟨mp, mp', hwaiting, hobs.1, hresubmit,
    MempoolReached.new.runMempool (fun _ _ => trivial) hresubmit, hobs.2⟩

end LapisMonetae.Mining
