import LapisMonetae.Mempool.PoolTheorems

/-!
# The ready frontier

The frontier holds the pool transactions without parents in the pool, as long as no transaction is
added of which a pool transaction already spends an output. In every run, it holds those without
recorded parents, and the edges that are recorded are the same in both directions.
-/

namespace LapisMonetae.Mining

open Utxo Tx Program List TransactionsPool MempoolTransactionCollection TransactionsEdges AList Pool
  FeerateTransactionKey

/-! ## Keys -/

section
variable {F : Type} (ctx : Context F)

/-- The key of the pool transaction `id`. -/
def KeyAt (pool : Pool) (id : Hash) (key : FeerateTransactionKey F) : Prop :=
  ∃ tx, pool.get id = some tx ∧ ofTransaction ctx.float tx = some key

section
variable {ctx} {pool : Pool} {id id' : Hash} {key key' : FeerateTransactionKey F}
  {tx : MempoolTransaction}

lemma tx_of_ofTransaction {float : FloatOps F}
    (h : ofTransaction float tx = some key) : key.tx = tx.mtx.tx := by
  unfold ofTransaction at h
  cases hmasses : tx.mtx.calculatedNonContextualMasses with
  | none => simp [hmasses] at h
  | some masses =>
    cases hfee : tx.mtx.calculatedFee with
    | none => simp [hmasses, hfee] at h
    | some fee =>
      simp only [hmasses, hfee, some_bind_eq, Option.pure_def, Option.some.injEq] at h
      rw [← h]
      rfl

lemma exists_ofTransaction (float : FloatOps F) (h : tx.mtx.isFullyPopulated) :
    ∃ key, ofTransaction float tx = some key := by
  unfold MutableTransaction.isFullyPopulated at h
  simp only [Bool.and_eq_true] at h
  obtain ⟨⟨-, hfee⟩, hmasses⟩ := h
  obtain ⟨fee, hfee⟩ := Option.isSome_iff_exists.mp hfee
  obtain ⟨masses, hmasses⟩ := Option.isSome_iff_exists.mp hmasses
  refine ⟨.new float fee (contextualMax tx.mtx.tx.mass masses) tx.mtx.tx, ?_⟩
  simp [ofTransaction, hfee, hmasses]

lemma KeyAt.id_eq (h : KeyAt ctx pool id key) : key.tx.id = id := by
  obtain ⟨tx, htx, hkey⟩ := h
  rw [tx_of_ofTransaction hkey]
  exact id_of_get htx

lemma KeyAt.unique (h : KeyAt ctx pool id key) (h' : KeyAt ctx pool id key') : key = key' := by
  obtain ⟨tx, htx, hkey⟩ := h
  obtain ⟨tx', htx', hkey'⟩ := h'
  rw [htx] at htx'
  cases htx'
  exact Option.some.inj (hkey.symm.trans hkey')

/-- Two keys of pool transactions have the same rank only if they are the same. -/
lemma KeyAt.rank_eq (h : KeyAt ctx pool id key) (h' : KeyAt ctx pool id' key')
    (hrank : key.rank = key'.rank) : id = id' ∧ key = key' := by
  have hid : key.tx.id = key'.tx.id := congrArg (fun r => (ofLex (ofLex r).2).2) hrank
  rw [h.id_eq, h'.id_eq] at hid
  subst hid
  exact ⟨rfl, h.unique h'⟩

lemma keyAt_remove {pool' : Pool}
    (hget : ∀ x, pool'.get x = if x = id then none else pool.get x) (c : Hash)
    (k : FeerateTransactionKey F) : KeyAt ctx pool' c k ↔ KeyAt ctx pool c k ∧ c ≠ id := by
  unfold KeyAt
  simp only [hget]
  split
  · next hc => simp [hc]
  · next hc => simp [hc]

end

end

section
variable {F : Type} [LinearOrder F] (ctx : Context F)
variable {key : FeerateTransactionKey F} {id : Hash} {t : MempoolTransaction}
  {pool' : TransactionsPool F}

/-- The insertion of a pool transaction into a frontier of pool transactions. -/
lemma mem_insert_of_keyAt {ctx} {pool : Pool} {frontier : Frontier F}
    (hfrom : ∀ k ∈ frontier.keys, ∃ id, KeyAt ctx pool id k) (h : KeyAt ctx pool id key)
    (x : FeerateTransactionKey F) :
    x ∈ (frontier.insert key).keys ↔ x ∈ frontier.keys ∨ x = key := by
  rw [Frontier.mem_insert]
  constructor
  · rintro (hx | ⟨rfl, -⟩)
    · exact .inl hx
    · exact .inr rfl
  · rintro (hx | rfl)
    · exact .inl hx
    · by_cases hrank : ∀ k ∈ frontier.keys, k.rank ≠ x.rank
      · exact .inr ⟨rfl, hrank⟩
      · -- a key of the same rank is the key itself
        push Not at hrank
        obtain ⟨k, hk, hrank⟩ := hrank
        obtain ⟨id', hk'⟩ := hfrom k hk
        rw [← (hk'.rank_eq h hrank).2]
        exact .inl hk

/-! ## Parents -/

/-- The pool transaction `id` has an input that names another pool transaction `parent`. -/
def Parent (pool : Pool) (parent id : Hash) : Prop :=
  pool.has parent ∧ parent ≠ id ∧ ∃ tx, pool.get id = some tx ∧ tx.mtx.hasParent parent

/-- The invariant of a pool whose recorded edges are `E`. -/
structure Edged (E : Hash → Hash → Prop) (pool : TransactionsPool F) : Prop where
  keyed : ∀ id, pool.has id → ∃ key, KeyAt ctx pool.toPool id key
  isSome_parents : ∀ id, (pool.parentTransactions.lookup id).isSome ↔ pool.has id
  mem_chained : ∀ id ∈ pool.chained, pool.has id
  within : ∀ parent id, E parent id → pool.has parent ∧ parent ≠ id ∧ pool.has id
  parents : ∀ parent id, parent ∈ pool.parentTransactions.edgesOf id ↔ E parent id
  chained : ∀ parent id, id ∈ pool.chained.edgesOf parent ↔ E parent id
  ready : ∀ key, key ∈ pool.readyTransactions.keys ↔
    ∃ id, KeyAt ctx pool.toPool id key ∧ ∀ parent, ¬E parent id
  weighed : pool.readyTransactions.Weighed
  estimatedSize : pool.estimatedSize = pool.all.total fun tx => ctx.mempoolEstimatedBytes tx.mtx

/-- The invariant of a pool whose edges are complete. -/
structure Consistent (pool : TransactionsPool F) : Prop
    extends Edged ctx (Parent pool.toPool) pool where
  populated : ∀ id tx, pool.get id = some tx → tx.mtx.isFullyPopulated

lemma edged_new : Edged ctx (fun _ _ => False) (new : TransactionsPool F) where
  keyed := fun _ h => nomatch h
  isSome_parents := fun _ => Iff.rfl
  mem_chained := fun _ h => nomatch h
  within := fun _ _ h => h.elim
  parents := fun _ _ => ⟨fun h => (nomatch h), False.elim⟩
  chained := fun _ _ => ⟨fun h => (nomatch h), False.elim⟩
  ready := fun _ => ⟨fun h => (nomatch h), fun ⟨_, ⟨_, htx, _⟩, _⟩ => (nomatch htx)⟩
  weighed := rfl
  estimatedSize := rfl

lemma Edged.congr {ctx} {E E' : Hash → Hash → Prop} {pool : TransactionsPool F}
    (h : Edged ctx E pool) (hE : ∀ parent id, E' parent id ↔ E parent id) : Edged ctx E' pool := by
  obtain rfl : E' = E := funext₂ fun parent id => propext (hE parent id)
  exact h

lemma consistent_new : Consistent ctx (new : TransactionsPool F) where
  toEdged := (edged_new ctx).congr fun _ _ => ⟨fun h => (nomatch h.1), False.elim⟩
  populated := fun _ _ h => nomatch h

/-! ## Additions -/

variable {ctx} {pool : TransactionsPool F} {E : Hash → Hash → Prop} {op : PoolOp}
  {r : Except RuleError Unit} {chain : Hash} (transactionSize : ℕ) (frontier : Frontier F)

/-- No pool transaction spends an output of the transaction. -/
def Unspent (pool : Pool) (transactionId : Hash) : Prop :=
  ∀ id tx, pool.get id = some tx → ¬tx.mtx.hasParent transactionId

/-- The pool after `add_mempool_transaction`, with its frontier. -/
def added (pool : TransactionsPool F) (t : MempoolTransaction) (transactionSize : ℕ)
    (frontier : Frontier F) : TransactionsPool F :=
  let parents := pool.getParentTransactionIdsInPool t.mtx
  { pool with
    parentTransactions := pool.parentTransactions.insert t.id parents
    chained := parents.foldl (fun chained parentId => chained.link parentId t.id)
      pool.chained
    readyTransactions := frontier
    utxoSet := pool.utxoSet.addTransaction t.mtx
    estimatedSize := pool.estimatedSize + transactionSize
    all := pool.all.insert t }

lemma get_added (x : Hash) : (added pool t transactionSize frontier).get x =
      if x = t.id then some t else pool.get x :=
  get_insert t x

lemma has_added (x : Hash) :
    (added pool t transactionSize frontier).has x ↔ pool.has x ∨ x = t.id := by
  rw [has_iff, has_iff, get_added]
  split
  · next hx => exact iff_of_true ⟨_, rfl⟩ (.inr hx)
  · next hx => exact (or_iff_left hx).symm

lemma unspent_new (id : Hash) : Unspent (TransactionsPool.new : TransactionsPool F).toPool id :=
  fun _ _ h => nomatch h

lemma Unspent.add {id : Hash} {size : ℕ} {frontier : Frontier F} (h : Unspent pool.toPool id)
    (hid : ¬t.mtx.hasParent id) :
    Unspent (added pool t size frontier).toPool id := by
  intro x tx htx
  rw [get_added] at htx
  split at htx
  · cases htx
    exact hid
  · exact h x tx htx

lemma insertReady_outcome {tx : MempoolTransaction}
    (hkey : ofTransaction ctx.float tx = some key)
    (pool : TransactionsPool F) : (insertReady ctx tx).outcome pool =
      some (.ok (), { pool with readyTransactions := pool.readyTransactions.insert key }) := by
  unfold insertReady
  rw [hkey, outcome_bind_ok (outcome_unwrap_some key pool)]
  rfl

/-- `add_mempool_transaction` inserts the key of a transaction without parents. -/
lemma addMempoolTransaction_outcome {transactionSize : ℕ} (hnew : ¬pool.has t.id)
    (hpopulated : t.mtx.isFullyPopulated)
    (hkey : ofTransaction ctx.float t = some key) :
    (addMempoolTransaction ctx t transactionSize).outcome pool =
      some (.ok (), added pool t transactionSize
        (if (pool.getParentTransactionIdsInPool t.mtx).isEmpty then
          pool.readyTransactions.insert key else pool.readyTransactions)) := by
  have hready : ∀ parents, (insertIfReady ctx parents t).outcome pool =
      some (.ok (), { pool with
        readyTransactions :=
          if parents.isEmpty then pool.readyTransactions.insert key
          else pool.readyTransactions }) := by
    intro parents
    unfold insertIfReady
    split
    · exact insertReady_outcome hkey pool
    · rfl
  unfold addMempoolTransaction
  rw [outcome_get_bind, outcome_bind_ok (outcome_ensure hnew pool),
    outcome_bind_ok (outcome_ensure hpopulated pool)]
  rw [outcome_bind_ok (hready _)]
  rfl

/-- The parents in a pool to which a transaction was added that no pool transaction spends. -/
lemma parent_added
    (hnew : ¬pool.has t.id) (hunspent : Unspent pool t.id) (parent id : Hash) :
    Parent (added pool t transactionSize frontier) parent id ↔
      Parent pool parent id ∨
        (id = t.id ∧ pool.has parent ∧ t.mtx.hasParent parent) := by
  unfold Parent
  rw [has_added, get_added]
  split
  · next hid =>
    subst hid
    have hnone : ∀ tx, pool.get t.id ≠ some tx := fun tx htx =>
      hnew (has_iff.mpr ⟨tx, htx⟩)
    have hne : pool.has parent → parent ≠ t.id := fun hp heq => hnew (heq ▸ hp)
    simp only [Option.some.injEq, exists_eq_left', hnone, false_and, exists_false]
    tauto
  · next hid =>
    simp only [hid, false_and, or_false]
    constructor
    · rintro ⟨hp | rfl, hdiff, tx, htx, hspends⟩
      · exact ⟨hp, hdiff, tx, htx, hspends⟩
      · exact absurd hspends (hunspent id tx htx)
    · rintro ⟨hp, hdiff, hspends⟩
      exact ⟨.inl hp, hdiff, hspends⟩

lemma keyAt_added (hnew : ¬pool.has t.id)
    (hkey : ofTransaction ctx.float t = some key) (id : Hash)
    (k : FeerateTransactionKey F) :
    KeyAt ctx (added pool t transactionSize frontier) id k ↔
      KeyAt ctx pool id k ∨ (id = t.id ∧ k = key) := by
  constructor
  · rintro ⟨tx, htx, hk⟩
    rw [get_added] at htx
    split at htx
    · next hid =>
      cases htx
      exact .inr ⟨hid, Option.some.inj (hk.symm.trans hkey)⟩
    · exact .inl ⟨tx, htx, hk⟩
  · rintro (⟨tx, htx, hk⟩ | ⟨hid, rfl⟩)
    · refine ⟨tx, ?_, hk⟩
      rw [get_added, if_neg, htx]
      rintro rfl
      exact hnew (has_iff.mpr ⟨tx, htx⟩)
    · exact ⟨t, by rw [get_added, if_pos hid], hkey⟩

section added
variable (h : Edged ctx E pool) (hnew : ¬pool.has t.id)
include h hnew

/-- The recorded edges are the old ones and those to the parents in the pool. -/
lemma Edged.edges_added (parent id : Hash) :
    (parent ∈ (added pool t transactionSize frontier).parentTransactions.edgesOf id ↔
      E parent id ∨ (id = t.id ∧ pool.has parent ∧ t.mtx.hasParent parent)) ∧
    (id ∈ (added pool t transactionSize frontier).chained.edgesOf parent ↔
      E parent id ∨ (id = t.id ∧ pool.has parent ∧ t.mtx.hasParent parent)) := by
  constructor
  · show parent ∈ TransactionsEdges.edgesOf (AList.insert t.id _ _) id ↔ _
    rw [edgesOf_insert]
    split
    · next hid =>
      subst hid
      rw [mem_getParentTransactionIdsInPool]
      have hnone : ¬E parent t.id := fun hp => hnew (h.within parent _ hp).2.2
      tauto
    · next hid =>
      rw [h.parents]
      tauto
  · show id ∈ TransactionsEdges.edgesOf (List.foldl _ pool.chained _) parent ↔ _
    rw [mem_edgesOf_foldl_link, h.chained, mem_getParentTransactionIdsInPool]
    tauto

/-- The other transactions keep their parents, so at most the new one becomes ready. -/
lemma Edged.ready_added (hkey : ofTransaction ctx.float t = some key)
    (k : FeerateTransactionKey F) :
    (∃ id, KeyAt ctx (added pool t transactionSize frontier) id k ∧ ∀ p, ¬(E p id ∨
        (id = t.id ∧ pool.has p ∧ t.mtx.hasParent p))) ↔
      k ∈ pool.readyTransactions.keys ∨
        (k = key ∧ (pool.getParentTransactionIdsInPool t.mtx).isEmpty) := by
  rw [h.ready, List.isEmpty_iff, eq_nil_iff_forall_not_mem]
  simp only [keyAt_added _ _ hnew hkey, mem_getParentTransactionIdsInPool]
  constructor
  · rintro ⟨id, hk | ⟨rfl, rfl⟩, hready⟩
    · exact .inl ⟨id, hk, fun p hp => hready p (.inl hp)⟩
    · exact .inr ⟨rfl, fun p hp => hready p (.inr ⟨rfl, hp⟩)⟩
  · rintro (⟨id, ⟨tx, htx, hk⟩, hready⟩ | ⟨rfl, hempty⟩)
    · have hid : id ≠ t.id := fun heq => hnew (heq ▸ has_iff.mpr ⟨tx, htx⟩)
      exact ⟨id, .inl ⟨tx, htx, hk⟩, fun p hp => hp.elim (hready p) fun hp => hid hp.1⟩
    · exact ⟨t.id, .inr ⟨rfl, rfl⟩, fun p hp =>
        hp.elim (fun hp => hnew (h.within p _ hp).2.2) fun hp => hempty p hp.2⟩

lemma Edged.estimatedSize_added :
    pool.estimatedSize + ctx.mempoolEstimatedBytes t.mtx =
      (pool.all.insert t).total fun tx => ctx.mempoolEstimatedBytes tx.mtx := by
  have hnone : pool.all.get t.id = none := by
    cases hg : pool.all.get t.id with
    | none => rfl
    | some tx => exact absurd (has_iff.mpr ⟨tx, hg⟩) hnew
  rw [total_insert, remove_of_get_eq_none hnone, h.estimatedSize, Nat.add_comm]

/-- A new transaction gets the edges to its parents in the pool. -/
lemma Edged.add (hpopulated : t.mtx.isFullyPopulated) :
    Ends (addMempoolTransaction ctx t (ctx.mempoolEstimatedBytes t.mtx)) pool
      fun _ pool' => (∃ size frontier, pool' = added pool t size frontier) ∧
        Edged ctx (fun parent id => E parent id ∨
          (id = t.id ∧ pool.has parent ∧ t.mtx.hasParent parent)) pool' := by
  obtain ⟨key, hkey⟩ := exists_ofTransaction ctx.float hpopulated
  refine ⟨_, _, addMempoolTransaction_outcome hnew hpopulated hkey, ⟨_, _, rfl⟩, ?_⟩
  set size := ctx.mempoolEstimatedBytes t.mtx
  set parents := pool.getParentTransactionIdsInPool t.mtx with hparents
  set frontier := if parents.isEmpty then pool.readyTransactions.insert key
    else pool.readyTransactions with hfrontier
  have hkeyAt := keyAt_added size frontier hnew hkey
  have hself := (hkeyAt t.id key).mpr (.inr ⟨rfl, rfl⟩)
  have hhas : ∀ x, (added pool t size frontier).has x ↔
      pool.has x ∨ x = t.id := has_added size frontier
  constructor
  case parents => exact fun p id => (h.edges_added size frontier hnew p id).1
  case chained => exact fun p id => (h.edges_added size frontier hnew p id).2
  case estimatedSize => exact h.estimatedSize_added hnew
  case keyed =>
    intro id hid
    rcases (hhas id).mp hid with hid | rfl
    · obtain ⟨k, hk⟩ := h.keyed id hid
      exact ⟨k, (hkeyAt id k).mpr (.inl hk)⟩
    · exact ⟨key, hself⟩
  case isSome_parents =>
    intro id
    rw [hhas, ← h.isSome_parents, lookup_isSome, lookup_isSome]
    exact (mem_insert _).trans or_comm
  case mem_chained =>
    intro id hid
    rw [hhas]
    rcases mem_foldl_link parents |>.mp hid with hid | hid
    · exact .inl (h.mem_chained id hid)
    · exact .inl (mem_getParentTransactionIdsInPool.mp hid).1
  case within =>
    rintro p id (hp | ⟨rfl, hp, -⟩)
    · obtain ⟨h₁, h₂, h₃⟩ := h.within p id hp
      exact ⟨(hhas p).mpr (.inl h₁), h₂, (hhas id).mpr (.inl h₃)⟩
    · exact ⟨(hhas p).mpr (.inl hp), fun heq => hnew (heq ▸ hp), (hhas _).mpr (.inr rfl)⟩
  case ready =>
    intro k
    show k ∈ frontier.keys ↔ _
    have hfrom : ∀ k' ∈ pool.readyTransactions.keys,
        ∃ id, KeyAt ctx (added pool t size frontier) id k' := by
      intro k' hk'
      obtain ⟨id, hid, -⟩ := (h.ready k').mp hk'
      exact ⟨id, (hkeyAt id k').mpr (.inl hid)⟩
    rw [h.ready_added size frontier hnew hkey, hfrontier]
    split
    · next hempty =>
      rw [mem_insert_of_keyAt hfrom hself]
      tauto
    · tauto
  case weighed =>
    show frontier.Weighed
    rw [hfrontier]
    split
    · exact h.weighed.insert key
    · exact h.weighed

end added

lemma Consistent.add (h : Consistent ctx pool) (hnew : ¬pool.has t.id)
    (hpopulated : t.mtx.isFullyPopulated) (hunspent : Unspent pool t.id) :
    Ends (addMempoolTransaction ctx t
      (ctx.mempoolEstimatedBytes t.mtx)) pool fun _ pool' => Consistent ctx pool' := by
  apply (h.toEdged.add hnew hpopulated).mono
  rintro _ _ ⟨⟨size, frontier, rfl⟩, hedged⟩
  refine ⟨hedged.congr (parent_added size frontier hnew hunspent), fun id tx htx => ?_⟩
  rw [get_added] at htx
  split at htx
  · cases htx
    exact hpopulated
  · exact h.populated id tx htx

/-! ## Removals -/

/-- What the second loop of `remove_transaction` does: the successors lose the parent `id`, and
those that have lost their last parent are ready. -/
structure Unlinked (ctx : Context F) (id : Hash) (chains : List Hash)
    (pool pool' : TransactionsPool F) : Prop where
  frame : ∃ parentTransactions readyTransactions, pool' = { pool with
    parentTransactions := parentTransactions, readyTransactions := readyTransactions }
  parents : ∀ x c, x ∈ pool'.parentTransactions.edgesOf c ↔
    x ∈ pool.parentTransactions.edgesOf c ∧ ¬(c ∈ chains ∧ x = id)
  isSome_parents : ∀ c, (pool'.parentTransactions.lookup c).isSome =
    (pool.parentTransactions.lookup c).isSome
  ready : ∀ k, k ∈ pool'.readyTransactions.keys ↔ k ∈ pool.readyTransactions.keys ∨
    ∃ c ∈ chains, KeyAt ctx pool.toPool c k ∧ ∀ x ∈ pool.parentTransactions.edgesOf c, x = id
  weighed : pool.readyTransactions.Weighed → pool'.readyTransactions.Weighed

lemma unlinkChain_ends (id : Hash) {pool : TransactionsPool F}
    (hsome : (pool.parentTransactions.lookup chain).isSome) (hkey : KeyAt ctx pool chain key)
    (hfrom : ∀ k ∈ pool.readyTransactions.keys, ∃ c, KeyAt ctx pool c k) :
    Ends (unlinkChain ctx id chain) pool fun r pool' =>
      r = .ok () ∧ Unlinked ctx id [chain] pool pool' := by
  obtain ⟨parents, hparents⟩ := Option.isSome_iff_exists.mp hsome
  have hedges : pool.parentTransactions.edgesOf chain = parents := by
    rw [TransactionsEdges.edgesOf, hparents]
    rfl
  have hmem : ∀ x c, x ∈ TransactionsEdges.edgesOf
      (pool.parentTransactions.insert chain (parents.filter (· ≠ id))) c ↔
      x ∈ pool.parentTransactions.edgesOf c ∧ ¬(c ∈ [chain] ∧ x = id) := by
    intro x c
    rw [edgesOf_insert, mem_singleton]
    split
    · next hc =>
      rw [hc, hedges]
      simp
    · tauto
  have hlookup : ∀ c, (AList.lookup c
      (pool.parentTransactions.insert chain (parents.filter (· ≠ id)))).isSome =
      (pool.parentTransactions.lookup c).isSome := by
    intro c
    rw [AssocMap.lookup_insert_ite]
    split
    · next hc => rw [hc, hparents]; rfl
    · rfl
  apply ends_get_bind
  rw [hparents]
  apply ends_bind_of_outcome (outcome_set _ _)
  split
  · next hempty =>
    -- the last parent is gone
    have hlast : ∀ x ∈ pool.parentTransactions.edgesOf chain, x = id := by
      rw [hedges]
      simpa using hempty
    have hkeyAt : ∀ k, KeyAt ctx pool chain k ↔ k = key := by
      intro k
      constructor
      · exact fun hk => hk.unique hkey
      · rintro rfl
        exact hkey
    have hinsert := mem_insert_of_keyAt hfrom hkey
    obtain ⟨tx, htx, htxkey⟩ := hkey
    rw [show pool.all.get chain = some tx from htx]
    apply ends_bind_of_outcome (outcome_unwrap_some tx _)
    refine ⟨_, _, insertReady_outcome htxkey _, rfl, ⟨_, _, rfl⟩, hmem, hlookup, fun k => ?_,
      fun h => h.insert key⟩
    show k ∈ (pool.readyTransactions.insert key).keys ↔ _
    simp only [hinsert, mem_singleton, exists_eq_left, hkeyAt]
    tauto
  · next hempty =>
    have hnot : ¬∀ x ∈ pool.parentTransactions.edgesOf chain, x = id := by
      rw [hedges]
      simpa using hempty
    refine ends_pure ⟨rfl, ⟨_, _, rfl⟩, hmem, hlookup, fun k => ?_, fun h => h⟩
    simp only [mem_singleton, exists_eq_left]
    tauto

/-- One round after the other. -/
lemma Unlinked.cons {chains : List Hash} {pool pool₁ pool' : TransactionsPool F}
    (h : Unlinked ctx id [chain] pool pool₁) (h' : Unlinked ctx id chains pool₁ pool') :
    Unlinked ctx id (chain :: chains) pool pool' := by
  -- losing all parents is the same before and after the first round
  have hall : ∀ c, (∀ x ∈ pool₁.parentTransactions.edgesOf c, x = id) ↔
      ∀ x ∈ pool.parentTransactions.edgesOf c, x = id := by
    intro c
    apply forall_congr'
    intro x
    rw [h.parents]
    tauto
  have hready₁ := h.ready
  have hparents₁ := h.parents
  obtain ⟨P, R, rfl⟩ := h.frame
  obtain ⟨P', R', rfl⟩ := h'.frame
  refine ⟨⟨P', R', rfl⟩, ?_, fun c => (h'.isSome_parents c).trans (h.isSome_parents c), ?_,
    fun hw => h'.weighed (h.weighed hw)⟩
  · intro x c
    rw [h'.parents, hparents₁, mem_singleton, mem_cons]
    tauto
  · intro k
    rw [h'.ready, hready₁]
    simp only [hall, mem_singleton, exists_eq_left, exists_mem_cons_iff]
    tauto

lemma unlinkChains_ends (id : Hash) (chains : List Hash) {pool : TransactionsPool F}
    (hchains : ∀ c ∈ chains, (pool.parentTransactions.lookup c).isSome ∧
      ∃ key, KeyAt ctx pool c key)
    (hfrom : ∀ k ∈ pool.readyTransactions.keys, ∃ c, KeyAt ctx pool c k) :
    Ends (unlinkChains ctx id chains) pool fun r pool' =>
      r = .ok () ∧ Unlinked ctx id chains pool pool' := by
  induction chains generalizing pool with
  | nil =>
    exact ends_pure ⟨rfl, ⟨_, _, rfl⟩, (fun x c => by simp), (fun _ => rfl), (fun k => by simp),
      fun h => h⟩
  | cons chain chains ih =>
    obtain ⟨⟨hsome, key, hkey⟩, hchains⟩ := forall_mem_cons.mp hchains
    obtain ⟨r, pool₁, hround, rfl, h₁⟩ := unlinkChain_ends id hsome hkey hfrom
    apply ends_bind_of_outcome hround
    have hframe := h₁.frame
    have hchains₁ : ∀ c ∈ chains, (pool₁.parentTransactions.lookup c).isSome ∧
        ∃ key, KeyAt ctx pool₁ c key := by
      intro c hc
      rw [h₁.isSome_parents]
      obtain ⟨P, R, rfl⟩ := hframe
      exact hchains c hc
    have hfrom₁ : ∀ k ∈ pool₁.readyTransactions.keys, ∃ c, KeyAt ctx pool₁ c k := by
      intro k hk
      have hcases := (h₁.ready k).mp hk
      obtain ⟨P, R, rfl⟩ := hframe
      rcases hcases with hold | ⟨c, -, hnew, -⟩
      · exact hfrom k hold
      · exact ⟨c, hnew⟩
    apply (ih hchains₁ hfrom₁).mono
    exact fun r pool' h' => ⟨h'.1, h₁.cons h'.2⟩

section

variable {pool pool' : Pool} (hget : ∀ x, pool'.get x = if x = id then none else pool.get x)

include hget

lemma has_remove (x : Hash) : pool'.has x ↔ pool.has x ∧ x ≠ id := by
  rw [has_iff, has_iff, hget]
  split
  · next hx => simp [hx]
  · next hx => simp [hx]

lemma parent_remove (parent c : Hash) :
    Parent pool' parent c ↔ Parent pool parent c ∧ parent ≠ id ∧ c ≠ id := by
  unfold Parent
  rw [has_remove hget, hget]
  split
  · next hc => simp [hc]
  · tauto

end

lemma checkedSub_estimatedSize {tx : MempoolTransaction} (h : pool.estimatedSize =
      pool.all.total fun tx => ctx.mempoolEstimatedBytes tx.mtx) (hid : pool.get id = some tx) :
    checkedSub pool.estimatedSize (ctx.mempoolEstimatedBytes tx.mtx) =
      some ((pool.all.remove id).total fun tx => ctx.mempoolEstimatedBytes tx.mtx) := by
  have htotal := total_remove
    (fun tx => ctx.mempoolEstimatedBytes tx.mtx) hid
  rw [checkedSub, h, htotal, if_pos (Nat.le_add_right _ _), Nat.add_sub_cancel_left]

/-- What both loops of `remove_transaction` do: the transaction `id` has no edge from a parent,
the successors have no edge to it, and the transactions without another parent are ready. -/
structure Isolated (ctx : Context F) (E : Hash → Hash → Prop) (id : Hash)
    (pool pool' : TransactionsPool F) : Prop where
  frame : ∃ chained parentTransactions readyTransactions, pool' = { pool with
    chained := chained, parentTransactions := parentTransactions,
    readyTransactions := readyTransactions }
  mem_chained : ∀ x ∈ pool'.chained, pool.has x
  chained : ∀ x c, c ∈ pool'.chained.edgesOf x ↔ E x c ∧ c ≠ id
  parents : ∀ x c, x ∈ pool'.parentTransactions.edgesOf c ↔ E x c ∧ x ≠ id
  isSome_parents : ∀ c, (pool'.parentTransactions.lookup c).isSome =
    (pool.parentTransactions.lookup c).isSome
  ready : ∀ k, k ∈ pool'.readyTransactions.keys ↔
    ∃ c, KeyAt ctx pool.toPool c k ∧ ∀ x, E x c → x = id
  weighed : pool'.readyTransactions.Weighed

lemma Edged.unlink (h : Edged ctx E pool) (id : Hash) :
    Ends (unlinkChains ctx id ((pool.unlinkParents id).chained.edgesOf id))
      (pool.unlinkParents id) fun r pool' => r = .ok () ∧ Isolated ctx E id pool pool' := by
  obtain ⟨chained, hpool₁, hmem, hkeys⟩ := unlinkParents_eq pool id
  have hchained : ∀ x c, c ∈ chained.edgesOf x ↔ E x c ∧ c ≠ id := by
    intro x c
    rw [hmem, h.chained, h.parents]
    constructor
    · rintro ⟨hp, hnot⟩
      exact ⟨hp, fun hc => hnot ⟨hc ▸ hp, hc⟩⟩
    · rintro ⟨hp, hc⟩
      exact ⟨hp, fun hnot => hc hnot.2⟩
  rw [hpool₁]
  have hchains : ∀ c ∈ chained.edgesOf id, (pool.parentTransactions.lookup c).isSome ∧
      ∃ key, KeyAt ctx pool c key := by
    intro c hc
    have hhas := (h.within id c ((hchained id c).mp hc).1).2.2
    exact ⟨(h.isSome_parents c).mpr hhas, h.keyed c hhas⟩
  have hfrom : ∀ k ∈ pool.readyTransactions.keys, ∃ c, KeyAt ctx pool c k := by
    intro k hk
    obtain ⟨c, hc, -⟩ := (h.ready k).mp hk
    exact ⟨c, hc⟩
  apply (@unlinkChains_ends F _ ctx id (chained.edgesOf id) { pool with chained := chained }
    hchains hfrom).mono
  rintro r pool' ⟨hr, ⟨P, R, rfl⟩, hparents, hsome, hready, hweighed⟩
  refine ⟨hr, ⟨chained, P, R, rfl⟩, fun x hx => h.mem_chained x ((hkeys x).mp hx), hchained, ?_,
    hsome, ?_, hweighed h.weighed⟩
  · intro x c
    rw [hparents]
    show x ∈ pool.parentTransactions.edgesOf c ∧ _ ↔ _
    rw [h.parents]
    constructor
    · rintro ⟨hp, hnot⟩
      refine ⟨hp, fun hx => hnot ⟨(hchained id c).mpr ⟨hx ▸ hp, fun hc => ?_⟩, hx⟩⟩
      exact (h.within x c hp).2.1 (hx.trans hc.symm)
    · rintro ⟨hp, hx⟩
      exact ⟨hp, fun hnot => hx hnot.2⟩
  · intro k
    rw [hready]
    show k ∈ pool.readyTransactions.keys ∨ (∃ c ∈ chained.edgesOf id,
      KeyAt ctx pool c k ∧ ∀ x ∈ pool.parentTransactions.edgesOf c, x = id) ↔ _
    simp only [h.ready, h.parents]
    constructor
    · rintro (⟨c, hk, hno⟩ | ⟨c, -, hk, hall⟩)
      · exact ⟨c, hk, fun x hx => absurd hx (hno x)⟩
      · exact ⟨c, hk, hall⟩
    · rintro ⟨c, hk, hall⟩
      by_cases hp : E id c
      · exact .inr ⟨c, (hchained id c).mpr ⟨hp, (h.within id c hp).2.1.symm⟩, hk, hall⟩
      · exact .inl ⟨c, hk, fun x hx => hp (hall x hx ▸ hx)⟩

/-- The removal of the transaction itself from the pool, both maps and the frontier. -/
lemma Isolated.edged {pool₁ : TransactionsPool F} (hisolated : Isolated ctx E id pool pool₁)
    (h : Edged ctx E pool) (hget : ∀ x, pool'.get x = if x = id then none else pool.get x)
    (hC : pool'.chained = pool₁.chained.erase id)
    (hP : pool'.parentTransactions = pool₁.parentTransactions.erase id)
    (hready : ∀ k, k ∈ pool'.readyTransactions.keys ↔
      ∃ c, (KeyAt ctx pool c k ∧ c ≠ id) ∧ ∀ x, E x c → x = id)
    (hweighed : pool'.readyTransactions.Weighed)
    (hsize : pool'.estimatedSize = pool'.all.total fun tx => ctx.mempoolEstimatedBytes tx.mtx) :
    Edged ctx (fun x c => E x c ∧ x ≠ id ∧ c ≠ id) pool' := by
  have hhas := has_remove hget
  constructor
  case keyed =>
    intro x hx
    obtain ⟨hx, hne⟩ := (hhas x).mp hx
    obtain ⟨k, hk⟩ := h.keyed x hx
    exact ⟨k, (keyAt_remove hget x k).mpr ⟨hk, hne⟩⟩
  case isSome_parents =>
    intro c
    rw [hhas, hP, ← h.isSome_parents, ← hisolated.isSome_parents c, lookup_isSome, lookup_isSome,
      mem_erase, and_comm]
  case mem_chained =>
    intro x hx
    rw [hC, mem_erase] at hx
    exact (hhas x).mpr ⟨hisolated.mem_chained x hx.2, hx.1⟩
  case within =>
    rintro x c ⟨hp, hx, hc⟩
    obtain ⟨h₁, h₂, h₃⟩ := h.within x c hp
    exact ⟨(hhas x).mpr ⟨h₁, hx⟩, h₂, (hhas c).mpr ⟨h₃, hc⟩⟩
  case parents =>
    intro x c
    rw [hP, edgesOf_erase]
    split
    · next hc => simp [hc]
    · next hc =>
      rw [hisolated.parents]
      tauto
  case chained =>
    intro x c
    rw [hC, edgesOf_erase]
    split
    · next hx => simp [hx]
    · next hx =>
      rw [hisolated.chained]
      tauto
  case ready =>
    intro k
    rw [hready]
    apply exists_congr
    intro c
    rw [keyAt_remove hget]
    apply and_congr_right
    rintro ⟨-, hc⟩
    apply forall_congr'
    intro x
    tauto
  case weighed => exact hweighed
  case estimatedSize => exact hsize

/-- A removal ends and takes the edges of the transaction away. -/
lemma Edged.remove (h : Edged ctx E pool) (id : Hash) :
    Ends (removeTransaction ctx id) pool fun _ pool' =>
      Edged ctx (fun x c => E x c ∧ x ≠ id ∧ c ≠ id) pool' := by
  apply ends_bind_of_outcome (outcome_modify _ _)
  apply ends_get_bind
  obtain ⟨r, pool₁, hloops, rfl, hisolated⟩ := h.unlink id
  apply ends_bind_of_outcome hloops
  obtain ⟨C, P, R, rfl⟩ := hisolated.frame
  have hready := hisolated.ready
  have hweighed := hisolated.weighed
  apply ends_bind_of_outcome (outcome_modify _ _)
  apply ends_get_bind
  cases hid : pool.get id with
  | none =>
    rw [show pool.all.get id = none from hid]
    have hget : ∀ x, pool.get x = if x = id then none else pool.get x := by
      intro x
      split
      · next hx => rw [hx, hid]
      · rfl
    refine ends_throw (hisolated.edged h hget rfl rfl (fun k => ?_) hweighed h.estimatedSize)
    rw [hready]
    apply exists_congr
    intro c
    constructor
    · rintro ⟨hk, hall⟩
      refine ⟨⟨hk, ?_⟩, hall⟩
      rintro rfl
      obtain ⟨tx, htx, -⟩ := hk
      rw [hid] at htx
      cases htx
    · exact fun hc => ⟨hc.1.1, hc.2⟩
  | some tx =>
    rw [show pool.all.get id = some tx from hid]
    obtain ⟨key, hkeyAt⟩ := h.keyed id (has_iff.mpr ⟨tx, hid⟩)
    have hkey : ofTransaction ctx.float tx = some key := by
      obtain ⟨tx', htx', hkey⟩ := hkeyAt
      rw [hid] at htx'
      cases htx'
      exact hkey
    have hsub := checkedSub_estimatedSize h.estimatedSize hid
    -- the key in the frontier is that of the transaction
    obtain ⟨frontier, hremove, hweighed', hfrontier⟩ := hweighed.remove fun k hk hrank => by
      obtain ⟨c, hc, -⟩ := (hready k).mp hk
      rw [(hc.rank_eq hkeyAt hrank).2]
    dsimp only
    rw [hkey, hsub]
    apply ends_bind_of_outcome (outcome_unwrap_some key _)
    rw [hremove]
    apply ends_bind_of_outcome (outcome_unwrap_some frontier _)
    apply ends_bind_of_outcome (outcome_unwrap_some _ _)
    apply ends_bind_of_outcome (outcome_set _ _)
    apply ends_bind_of_outcome
      (outcome_ensure (fun hlen => len_eq_zero_of_total hlen) _)
    have hget : ∀ x, (pool.all.remove id).get x = if x = id then none else pool.get x :=
      fun x => get_remove id x
    refine ends_pure (hisolated.edged h hget rfl rfl (fun k => ?_) hweighed' rfl)
    rw [hfrontier, hready]
    constructor
    · rintro ⟨⟨c, hk, hall⟩, hrank⟩
      refine ⟨c, ⟨hk, ?_⟩, hall⟩
      rintro rfl
      exact hrank (congrArg _ (hk.unique hkeyAt))
    · rintro ⟨c, ⟨hk, hc⟩, hall⟩
      exact ⟨⟨c, hk, hall⟩, fun hrank => hc (hk.rank_eq hkeyAt hrank).1⟩

/-- A removal ends and keeps the invariant. -/
lemma Consistent.remove (h : Consistent ctx pool) (id : Hash) :
    Ends (removeTransaction ctx id) pool fun _ pool' => Consistent ctx pool' := by
  obtain ⟨r, pool', ho, hedged⟩ := h.toEdged.remove id
  have hget := (removeTransaction_leads id pool r pool' ho).1.get
  refine ⟨r, pool', ho, hedged.congr (parent_remove hget), fun x tx htx => ?_⟩
  rw [hget] at htx
  split at htx
  · cases htx
  · exact h.populated x tx htx

/-! ## Revalidations -/

/-- A revalidated transaction has the fee and the masses that it has in the pool. -/
def Revalidates (pool : Pool) (t : MutableTransaction) : Prop :=
  ∀ tx, pool.get t.id = some tx → t.tx = tx.mtx.tx ∧
    t.calculatedFee = tx.mtx.calculatedFee ∧
    t.calculatedNonContextualMasses = tx.mtx.calculatedNonContextualMasses

lemma Edged.revalidate (h : Edged ctx E pool) {t : MutableTransaction}
    (hkeeps : Revalidates pool t) :
    Ends (updateRevalidatedTransaction ctx t) pool fun _ pool' => Edged ctx E pool' := by
  apply ends_get_bind
  cases hid : pool.get t.id with
  | none =>
    rw [show pool.all.get t.id = none from hid]
    exact ends_pure h
  | some tx =>
    rw [show pool.all.get t.id = some tx from hid]
    obtain ⟨htx, hfee, hmasses⟩ := hkeeps tx hid
    dsimp only
    rw [checkedSub_estimatedSize h.estimatedSize hid]
    apply ends_bind_of_outcome (outcome_unwrap_some _ _)
    apply ends_bind_of_outcome (outcome_set _ _)
    set tx' : MempoolTransaction := { tx with mtx := t } with htx'
    set pool' : Pool := ⟨pool.all.insert tx', pool.chained⟩ with hpool'
    have hget : ∀ x, pool'.get x = if x = t.id then some tx' else pool.get x :=
      fun x => get_insert tx' x
    have hhas : ∀ x, pool'.has x ↔ pool.has x := by
      intro x
      rw [has_iff, has_iff, hget]
      split
      · next hx => simp [hx, hid]
      · rfl
    -- the keys are computed from what stays
    have hkeyAt : ∀ c k, KeyAt ctx pool' c k ↔ KeyAt ctx pool c k := by
      intro c k
      unfold KeyAt
      rw [hget]
      split
      · next hc => simp [hc, hid, htx', ofTransaction, htx, hfee, hmasses]
      · rfl
    refine ends_pure { h with
      keyed := fun id hid => ?_
      isSome_parents := fun id => (h.isSome_parents id).trans (hhas id).symm
      mem_chained := fun id hid => (hhas id).mpr (h.mem_chained id hid)
      within := fun p c hp => ?_
      ready := fun k => ?_
      estimatedSize := ?_ }
    · obtain ⟨k, hk⟩ := h.keyed id ((hhas id).mp hid)
      exact ⟨k, (hkeyAt id k).mpr hk⟩
    · obtain ⟨h₁, h₂, h₃⟩ := h.within p c hp
      exact ⟨(hhas p).mpr h₁, h₂, (hhas c).mpr h₃⟩
    · exact (h.ready k).trans (exists_congr fun c => and_congr_left fun _ => (hkeyAt c k).symm)
    · show _ = (pool.all.insert tx').total _
      rw [total_insert, Nat.add_comm]
      rfl

/-! ## Runs -/

/-- The insertions and the removals of the transactions pool. A removal with redeemers takes them
away one after the other. -/
inductive PoolOp where
  | add (t : MempoolTransaction)
  | remove (transactionId : Hash)
  | removeWithRedeemers (transactionId : Hash)

/-- The removal of one transaction after the other. -/
def removeAll (ctx : Context F) : List Hash → PoolM F Unit
  | [] => pure ()
  | id :: ids => do
    let _ ← removeTransaction ctx id
    removeAll ctx ids

/-- The program of an operation. -/
def PoolOp.exec (ctx : Context F) : PoolOp → PoolM F Unit
  | .add t => addMempoolTransaction ctx t
      (ctx.mempoolEstimatedBytes t.mtx)
  | .remove transactionId => removeAll ctx [transactionId]
  | .removeWithRedeemers transactionId => do
    let pool ← get
    removeAll ctx (transactionId :: pool.getRedeemerIdsInPool transactionId)

/-- The assertions of the operation hold: a transaction that is added is fully populated and not in
the pool. -/
def PoolOp.Asserted (pool : Pool) : PoolOp → Prop
  | .add t => ¬pool.has t.id ∧ t.mtx.isFullyPopulated
  | _ => True

/-- No pool transaction spends an output of a transaction that is added. -/
def PoolOp.AddsUnspent (pool : Pool) : PoolOp → Prop
  | .add t => Unspent pool t.id
  | _ => True

/-- The pools that operations lead to, each of which satisfies a condition on the pool before it. -/
inductive Reached (ctx : Context F) (allowed : Pool → PoolOp → Prop) : TransactionsPool F → Prop
  | new : Reached ctx allowed .new
  | step {pool pool' : TransactionsPool F} {op : PoolOp} {r : Except RuleError Unit} :
    Reached ctx allowed pool → allowed pool.toPool op →
    (op.exec ctx).outcome pool = some (r, pool') → Reached ctx allowed pool'

/-- An operation keeps what a removal and its addition keep. -/
lemma PoolOp.exec_ends {P : TransactionsPool F → Prop} (h : P pool)
    (hremove : ∀ pool, P pool → ∀ id, Ends (removeTransaction ctx id) pool fun _ => P)
    (hadd : ∀ t, op = .add t → Ends (addMempoolTransaction ctx t
      (ctx.mempoolEstimatedBytes t.mtx)) pool fun _ => P) :
    Ends (op.exec ctx) pool fun _ => P := by
  have hall : ∀ ids, Ends (removeAll ctx ids) pool fun _ => P := by
    intro ids
    clear hadd
    induction ids generalizing pool with
    | nil => exact ends_pure h
    | cons id ids ih => exact (hremove pool h id).bind (fun _ _ h₁ => ih h₁) fun _ _ h₁ => h₁
  cases op with
  | add t => exact hadd t rfl
  | remove id => exact hall [id]
  | removeWithRedeemers id =>
    apply ends_get_bind
    exact hall _

/-- An operation ends if its assertions hold, and keeps the invariant if it adds no transaction
that a pool transaction spends. -/
lemma Consistent.exec (h : Consistent ctx pool)
    (hasserted : op.Asserted pool) (hunspent : op.AddsUnspent pool) :
    Ends (op.exec ctx) pool fun _ pool' => Consistent ctx pool' := by
  apply PoolOp.exec_ends h
  · exact fun _ h id => h.remove id
  · rintro t rfl
    exact h.add hasserted.1 hasserted.2 hunspent

/-- An addition that ends has passed its assertions. -/
lemma asserted_of_exec (h : (op.exec ctx).outcome pool = some (r, pool')) : op.Asserted pool := by
  cases op with
  | remove id => trivial
  | removeWithRedeemers id => trivial
  | add t =>
    unfold PoolOp.exec addMempoolTransaction at h
    rw [outcome_get_bind] at h
    by_cases hnew : ¬pool.has t.id
    · by_cases hpopulated : t.mtx.isFullyPopulated
      · exact ⟨hnew, hpopulated⟩
      · rw [outcome_bind_ok (outcome_ensure hnew pool), outcome_bind_ensure hpopulated] at h
        cases h
    · rw [outcome_bind_ensure hnew] at h
      cases h

lemma added_of_exec (h : ((PoolOp.add t).exec ctx).outcome pool = some (r, pool')) :
    ¬pool.has t.id ∧ ∃ size frontier, pool' = added pool t size frontier := by
  obtain ⟨hnew, hpopulated⟩ := asserted_of_exec h
  obtain ⟨key, hkey⟩ := exists_ofTransaction ctx.float hpopulated
  cases (addMempoolTransaction_outcome hnew hpopulated hkey).symm.trans h
  exact ⟨hnew, _, _, rfl⟩

lemma consistent_of_reached {pool : TransactionsPool F}
    (h : Reached ctx PoolOp.AddsUnspent pool) : Consistent ctx pool := by
  induction h with
  | new => exact consistent_new ctx
  | step _ hunspent hexec ih =>
    exact (ih.exec (asserted_of_exec hexec) hunspent).of_outcome hexec

/-- Along operations that add no transaction of which a pool transaction spends an output, every
operation whose assertions hold ends, and the frontier holds exactly the pool transactions that
spend no output of another pool transaction. -/
theorem ready_of_reached {pool : TransactionsPool F} (h : Reached ctx PoolOp.AddsUnspent pool) :
    (∀ tx, tx ∈ pool.readyTransactions.ascendingIter ↔
      ∃ mempoolTx, pool.get tx.id = some mempoolTx ∧ mempoolTx.mtx.tx = tx ∧
        ∀ id, pool.has id → id ≠ tx.id → ¬mempoolTx.mtx.hasParent id) ∧
    ∀ op : PoolOp, op.Asserted pool.toPool → op.AddsUnspent pool.toPool →
      ∃ r pool', (op.exec ctx).outcome pool = some (r, pool') := by
  have hpool := consistent_of_reached h
  constructor
  · intro tx
    rw [Frontier.ascendingIter, mem_map]
    simp only [hpool.ready]
    constructor
    · rintro ⟨key, ⟨id, ⟨mempoolTx, hget, hkey⟩, hready⟩, rfl⟩
      have htx : key.tx = mempoolTx.mtx.tx := tx_of_ofTransaction hkey
      have hid : mempoolTx.id = id := id_of_get hget
      have htxId : key.tx.id = id := by rw [htx]; exact hid
      rw [htxId]
      refine ⟨mempoolTx, hget, htx.symm, fun p hp hne hspends => ?_⟩
      exact hready p ⟨hp, hne, mempoolTx, hget, hspends⟩
    · rintro ⟨mempoolTx, hget, rfl, hready⟩
      obtain ⟨key, hkey⟩ := exists_ofTransaction ctx.float (hpool.populated _ _ hget)
      refine ⟨key, ⟨_, ⟨mempoolTx, hget, hkey⟩, ?_⟩, tx_of_ofTransaction hkey⟩
      rintro p ⟨hp, hne, tx', hget', hspends⟩
      rw [hget] at hget'
      cases hget'
      exact hready p hp hne hspends
  · intro op hasserted hunspent
    obtain ⟨r, pool', hexec, -⟩ := hpool.exec hasserted hunspent
    exact ⟨r, pool', hexec⟩

lemma Edged.exec (h : Edged ctx E pool) (hasserted : op.Asserted pool) :
    Ends (op.exec ctx) pool fun _ pool' => ∃ E', Edged ctx E' pool' := by
  apply PoolOp.exec_ends ⟨E, h⟩
  · exact fun _ ⟨_, h⟩ id => (h.remove id).mono fun _ _ h' => ⟨_, h'⟩
  · rintro t rfl
    exact (h.add hasserted.1 hasserted.2).mono fun _ _ h' => ⟨_, h'.2⟩

/-- The pools that operations and revalidations lead to. -/
inductive Maintained (ctx : Context F) : TransactionsPool F → Prop
  | new : Maintained ctx .new
  | exec {pool pool' : TransactionsPool F} {op : PoolOp} {r : Except RuleError Unit} :
    Maintained ctx pool → (op.exec ctx).outcome pool = some (r, pool') → Maintained ctx pool'
  | revalidate {pool pool' : TransactionsPool F} {t : MutableTransaction}
      {r : Except RuleError Bool} : Maintained ctx pool → Revalidates pool.toPool t →
    (updateRevalidatedTransaction ctx t).outcome pool = some (r, pool') →
    Maintained ctx pool'

lemma edged_of_maintained {pool : TransactionsPool F} (h : Maintained ctx pool) :
    ∃ E, Edged ctx E pool := by
  induction h with
  | new => exact ⟨_, edged_new ctx⟩
  | exec _ hexec ih =>
    obtain ⟨E, ih⟩ := ih
    exact (ih.exec (asserted_of_exec hexec)).of_outcome hexec
  | revalidate _ hkeeps hexec ih =>
    obtain ⟨E, ih⟩ := ih
    exact ⟨E, (ih.revalidate hkeeps).of_outcome hexec⟩

/-- Along insertions, removals in any order and revalidations, both edge maps hold the same edges,
between pool transactions; the frontier holds the pool transactions without a recorded parent; the
two counters are sums; and every operation whose assertions hold ends. -/
theorem edges_of_maintained {pool : TransactionsPool F} (h : Maintained ctx pool) :
    (∀ parent id, parent ∈ pool.parentTransactions.edgesOf id ↔ id ∈ pool.chained.edgesOf parent) ∧
    (∀ parent id, parent ∈ pool.parentTransactions.edgesOf id → pool.has parent ∧ pool.has id) ∧
    (∀ id, (pool.parentTransactions.lookup id).isSome ∨ (pool.chained.lookup id).isSome →
      pool.has id) ∧
    (∀ id, pool.has id → ∃ key, KeyAt ctx pool.toPool id key) ∧
    (∀ key, key ∈ pool.readyTransactions.keys ↔
      ∃ id, KeyAt ctx pool.toPool id key ∧ pool.parentTransactions.edgesOf id = []) ∧
    pool.readyTransactions.totalMass = (pool.readyTransactions.keys.map (·.mass)).sum ∧
    (pool.estimatedSize = pool.all.total fun tx => ctx.mempoolEstimatedBytes tx.mtx) ∧
    (∀ op : PoolOp, op.Asserted pool.toPool →
      ∃ r pool', (op.exec ctx).outcome pool = some (r, pool')) ∧
    ∀ t, Revalidates pool.toPool t →
      ∃ r pool', (updateRevalidatedTransaction ctx t).outcome pool = some (r, pool') := by
  obtain ⟨E, h⟩ := edged_of_maintained h
  refine ⟨fun p id => (h.parents p id).trans (h.chained p id).symm, fun p id hp => ?_,
    fun id hid => ?_, h.keyed, fun key => ?_, h.weighed, h.estimatedSize, fun op hasserted => ?_,
    fun t hkeeps => ?_⟩
  · obtain ⟨h₁, -, h₂⟩ := h.within p id ((h.parents p id).mp hp)
    exact ⟨h₁, h₂⟩
  · rcases hid with hid | hid
    · exact (h.isSome_parents id).mp hid
    · exact h.mem_chained id (lookup_isSome.mp hid)
  · rw [h.ready]
    refine exists_congr fun id => and_congr_right fun _ => ?_
    rw [eq_nil_iff_forall_not_mem]
    exact forall_congr' fun p => not_congr (h.parents p id).symm
  · obtain ⟨r, pool', hexec, -⟩ := h.exec hasserted
    exact ⟨r, pool', hexec⟩
  · obtain ⟨r, pool', hexec, -⟩ := h.revalidate hkeeps
    exact ⟨r, pool', hexec⟩

/-- The operations of a list, one after the other. -/
def runOps (ctx : Context F) : List PoolOp → TransactionsPool F → Option (TransactionsPool F)
  | [], pool => some pool
  | op :: ops, pool => ((op.exec ctx).outcome pool).bind fun o => runOps ctx ops o.2

lemma Reached.runOps {pool pool' : TransactionsPool F} (h : Reached ctx (fun _ _ => True) pool)
    {ops : List PoolOp} (hrun : runOps ctx ops pool = some pool') :
    Reached ctx (fun _ _ => True) pool' := by
  induction ops generalizing pool with
  | nil =>
    cases hrun
    exact h
  | cons op ops ih =>
    obtain ⟨⟨r, pool₁⟩, hexec, hrest⟩ := Option.bind_eq_some_iff.mp hrun
    exact ih (.step h trivial hexec) hrest

end

/-! ## A transaction that is added again -/

/-- Feerates in whole numbers. -/
def natFloat : FloatOps ℕ where
  zero := 0
  ratio := fun a b => a / b
  powi := fun a n => a ^ n
  max := max
  gt := fun a b => a > b

/-- A mempool that accepts any transaction. -/
def openContext : Context ℕ where
  config := ⟨100, 100000, 100000, 500, true, 1000, 0, 0⟩
  float := natFloat
  mempoolEstimatedBytes := fun _ => 100
  calculateTransactionNonContextualMasses := fun _ => ⟨1000, 1000⟩
  virtualDaaScore := 7

/-- A transaction with the given fee that spends the given outpoints into one output. -/
def spending (id : Hash) (outpoints : List TransactionOutpoint) (fee : ℕ) : MutableTransaction where
  tx := ⟨id, 0, outpoints.map fun outpoint => ⟨outpoint, [], 0, 0⟩, [⟨50000, ⟨0, [0x51]⟩⟩], 0, 0⟩
  entries := outpoints.map fun _ => some ⟨60000, ⟨0, [0x51]⟩, 3, false⟩
  calculatedFee := some fee
  calculatedNonContextualMasses := some ⟨1000, 1000⟩
  length_entries := by rw [length_map, length_map]

/-- A transaction that spends an output of consensus. -/
def parentTx : MempoolTransaction := ⟨spending 1 [⟨100, 0⟩] 2000, .low, 7⟩

/-- A transaction that spends the output of `parentTx`. -/
def childTx : MempoolTransaction := ⟨spending 2 [⟨1, 0⟩] 3000, .low, 7⟩

/-- The pool with `parentTx`. -/
def parentPool : TransactionsPool ℕ :=
  added .new parentTx 100 (Frontier.default.insert (.new natFloat 2000 1000 parentTx.mtx.tx))

/-- The pool with `parentTx` and `childTx`. -/
def familyPool : TransactionsPool ℕ := added parentPool childTx 100 parentPool.readyTransactions

lemma parentPool_outcome :
    ((PoolOp.add parentTx).exec openContext).outcome .new = some (.ok (), parentPool) :=
  addMempoolTransaction_outcome (by decide) (by decide) rfl

lemma familyPool_outcome :
    ((PoolOp.add childTx).exec openContext).outcome parentPool = some (.ok (), familyPool) :=
  addMempoolTransaction_outcome (by decide) (by decide) rfl

/-- The parent is ready and its child is not. -/
theorem ready_of_reached_childTx :
    runOps openContext [.add parentTx, .add childTx] .new = some familyPool ∧
      parentTx.mtx.tx ∈ familyPool.readyTransactions.ascendingIter ∧
      childTx.mtx.tx ∉ familyPool.readyTransactions.ascendingIter := by
  have hparent : PoolOp.AddsUnspent (.new : TransactionsPool ℕ).toPool (.add parentTx) :=
    unspent_new _
  have hchild : PoolOp.AddsUnspent parentPool.toPool (.add childTx) :=
    (unspent_new _).add (by decide)
  have hready := (ready_of_reached
    (.step (.step .new hparent parentPool_outcome) hchild familyPool_outcome)).1
  refine ⟨by simp [runOps, parentPool_outcome, familyPool_outcome], ?_, fun hchild => ?_⟩
  · refine (hready _).mpr ⟨parentTx, by decide, rfl, fun id hid _ hparent => ?_⟩
    -- the only input names a transaction of consensus
    obtain ⟨input, hinput, rfl⟩ := MutableTransaction.hasParent_iff.mp hparent
    obtain rfl := mem_singleton.mp hinput
    exact absurd hid (by decide)
  · obtain ⟨tx, htx, -, hparents⟩ := (hready _).mp hchild
    have hget : familyPool.get 2 = some childTx := by decide
    obtain rfl := Option.some.inj (hget.symm.trans htx)
    exact hparents 1 (by decide) (by decide) (by decide)

/-- The edge between the two is in both maps. When the parent is removed, the child becomes
ready. -/
theorem edges_of_maintained_childTx :
    1 ∈ familyPool.parentTransactions.edgesOf 2 ∧ 2 ∈ familyPool.chained.edgesOf 1 ∧
      ∃ r pool, ((PoolOp.remove 1).exec openContext).outcome familyPool = some (r, pool) ∧
        ∃ key ∈ pool.readyTransactions.keys, KeyAt openContext pool.toPool 2 key := by
  have hfamily : Maintained openContext familyPool :=
    .exec (.exec .new parentPool_outcome) familyPool_outcome
  have hedge : 1 ∈ familyPool.parentTransactions.edgesOf 2 := by decide
  have hrun : (((PoolOp.remove 1).exec openContext).outcome familyPool).map (fun o =>
      (o.2.parentTransactions.edgesOf 2, o.2.has 2)) = some ([], true) := by
    decide +kernel
  obtain ⟨⟨r, pool⟩, hexec, hobs⟩ := Option.map_eq_some_iff.mp hrun
  obtain ⟨hnone, hhas⟩ := Prod.mk.inj hobs
  obtain ⟨-, -, -, hkeyed, hready, -⟩ := edges_of_maintained (hfamily.exec hexec)
  obtain ⟨key, hkey⟩ := hkeyed 2 hhas
  exact ⟨hedge, ((edges_of_maintained hfamily).1 1 2).mp hedge, r, pool, hexec, key,
    (hready key).mpr ⟨2, hkey, hnone⟩, hkey⟩

/-- A parent is removed while its child stays, and is added again: the child stays ready although it
spends an output of the parent. -/
theorem childTx_ready_of_parentTx_added_again :
    ∃ pool, runOps openContext [.add parentTx, .add childTx, .remove 1, .add parentTx] .new =
        some pool ∧
      Reached openContext (fun _ _ => True) pool ∧
      childTx.mtx.tx ∈ pool.readyTransactions.ascendingIter ∧ pool.get 2 = some childTx ∧
      pool.has 1 ∧ childTx.mtx.hasParent 1 := by
  have hrun : (runOps openContext [.add parentTx, .add childTx, .remove 1, .add parentTx]
      .new).map (fun pool => (decide (childTx.mtx.tx ∈ pool.readyTransactions.ascendingIter),
        pool.get 2, pool.has 1)) = some (true, some childTx, true) := by
    decide +kernel
  obtain ⟨pool, hpool, hobs⟩ := Option.map_eq_some_iff.mp hrun
  simp only [Prod.mk.injEq, decide_eq_true_eq] at hobs
  exact ⟨pool, hpool, Reached.new.runOps hpool, hobs.1, hobs.2.1, hobs.2.2, by decide⟩

end LapisMonetae.Mining
