import LapisMonetae.Mempool.PopulationTheorems

/-!
# Replacements and evictions

The pool transactions that leave the pool when a transaction is accepted. Replacements take away the
double-spent transactions with all their descendants, and the parents of the accepted transaction
may be among these. Evictions never take away a parent.
-/

namespace LapisMonetae.Mining

open Utxo Tx Program Script List Option MempoolTransactionCollection Pool MempoolUtxoSet Mempool
  TransactionsPool
open Relation (ReflTransGen TransGen)

/-! ## Orphans -/

namespace OrphanPool

variable {F : Type} {ctx : Context F} {self : OrphanPool} {id : Hash}

/-- A removal ends, and it takes the orphan away even if it fails. -/
lemma removeSingleOrphan_ends (self : OrphanPool) (id : Hash) :
    Ends (removeSingleOrphan id) self fun _ self' => self'.all = self.all.remove id := by
  apply ends_get_bind
  cases hid : self.all.get id with
  | none => exact ends_throw (remove_of_get_eq_none hid).symm
  | some t =>
    have htx : t.id = id := id_of_get hid
    apply ends_bind_of_outcome (outcome_set _ _)
    have hall : (self.dropOrphan t).1.all = self.all.remove id := by
      rw [← htx]
      rfl
    split
    · exact ends_pure hall
    · exact ends_throw hall

/-- The orphans of `self'` are orphans of `self`. -/
def Fewer (self self' : OrphanPool) : Prop := ∀ x, self'.has x → self.has x

instance : Std.Refl Fewer := ⟨fun _ _ h => h⟩

instance : IsTrans OrphanPool Fewer := ⟨fun _ _ _ h h' x hx => h x (h' x hx)⟩

lemma fewer_of_remove {self' : OrphanPool} (h : self'.all = self.all.remove id) :
    Fewer self self' := by
  intro x hx
  obtain ⟨tx, htx⟩ := has_iff.mp hx
  rw [Pool.get, h, get_remove] at htx
  split at htx
  · cases htx
  · exact has_iff.mpr ⟨tx, htx⟩

lemma keeps_removeOrphans (ids : List Hash) : Keeps Fewer (removeOrphans ids) := by
  induction ids with
  | nil => exact keeps_pure _
  | cons id ids ih =>
    have hsingle : Keeps Fewer (removeSingleOrphan id) := fun self =>
      (removeSingleOrphan_ends self id).mono fun _ _ => fewer_of_remove
    exact hsingle.bind fun _ => ih.bind fun _ => keeps_pure _

lemma keeps_removeOrphan (id : Hash) (removeRedeemers : Bool) :
    Keeps Fewer (removeOrphan id removeRedeemers) :=
  keeps_get.bind fun _ => keeps_ite (fun _ => keeps_pure _) fun _ => keeps_removeOrphans _

/-- Without its redeemers, only the orphan itself is removed. -/
lemma removeOrphan_single_ends (self : OrphanPool) (id : Hash) :
    Ends (removeOrphan id false) self fun _ self' => self'.all = self.all.remove id := by
  apply ends_get_bind
  split
  · next hid =>
    refine ends_pure (remove_of_get_eq_none ?_).symm
    exact not_isSome_iff_eq_none.mp hid
  · apply (removeSingleOrphan_ends self id).bind
    · exact fun tx self₁ h₁ => ends_bind_of_outcome (outcome_pure _ _) (ends_pure h₁)
    · exact fun e self₁ h₁ => h₁

/-- Every round of the loop removes an orphan, so it ends. -/
lemma limitOrphanPoolLoop_ends (freeSlots fuel : ℕ) (self : OrphanPool) (hfuel : self.len < fuel) :
    Ends (limitOrphanPoolLoop ctx freeSlots fuel) self fun _ => Fewer self := by
  induction fuel generalizing self with
  | zero => omega
  | succ fuel ih =>
    rw [limitOrphanPoolLoop]
    apply ends_get_bind
    split
    · cases hlow : self.getRandomLowPriorityOrphan with
      | none => exact ends_throw fun _ h => h
      | some orphan =>
        have hget := get_of_mem_values (mem_of_find?_eq_some hlow)
        have hlen := len_remove hget
        apply (removeOrphan_single_ends self orphan.id).bind
        · intro txs self₁ h₁
          have hfuel₁ : self₁.len < fuel := by
            rw [Pool.len, h₁]
            have hself : self.len = self.all.len := rfl
            omega
          exact (ih self₁ hfuel₁).mono fun _ self' h' => IsTrans.trans _ _ _ (fewer_of_remove h₁) h'
        · exact fun e self' => fewer_of_remove
    · exact ends_pure fun _ h => h

/-- `limit_orphan_pool_size` ends in every orphan pool. -/
lemma keeps_limitOrphanPoolSize (freeSlots : ℕ) :
    Keeps Fewer (limitOrphanPoolSize ctx freeSlots) := by
  intro self
  apply ends_get_bind
  exact limitOrphanPoolLoop_ends freeSlots (self.len + 1) self (Nat.lt_succ_self _)

end OrphanPool

/-! ## Pools that have lost transactions -/

section
variable {F : Type} [LinearOrder F] {ctx : Context F}

/-- The pool `pool'` has lost the transactions `gone`, and the others have kept their edges. -/
structure Shrunk (gone : Hash → Prop) (pool pool' : TransactionsPool F) : Prop where
  get : ∀ x, ¬gone x → pool'.get x = pool.get x
  get_gone : ∀ x, gone x → pool'.get x = none
  chained : ∀ x y, ¬gone x → ¬gone y → (y ∈ pool'.chained.edgesOf x ↔ y ∈ pool.chained.edgesOf x)

namespace Shrunk

variable {gone gone' : Hash → Prop} {pool pool₁ pool' : TransactionsPool F}
variable {x y : Hash}

lemma refl (pool : TransactionsPool F) : Shrunk (fun _ => False) pool pool :=
  ⟨fun _ _ => rfl, fun _ h => h.elim, fun _ _ _ _ => Iff.rfl⟩

lemma of_removed {id : Hash} (h : Removed id pool pool') : Shrunk (· = id) pool pool' where
  get := fun x hx => by rw [h.get, if_neg hx]
  get_gone := fun x hx => by rw [h.get, if_pos hx]
  chained := h.chained

lemma trans (h : Shrunk gone pool pool₁) (h' : Shrunk gone' pool₁ pool') :
    Shrunk (fun x => gone x ∨ gone' x) pool pool' where
  get := fun x hx => by
    rw [h'.get x fun hg => hx (.inr hg), h.get x fun hg => hx (.inl hg)]
  get_gone := fun x hx => by
    by_cases hg : gone' x
    · exact h'.get_gone x hg
    · rw [h'.get x hg, h.get_gone x (hx.resolve_right hg)]
  chained := fun x y hx hy => by
    rw [h'.chained x y (fun hg => hx (.inr hg)) fun hg => hy (.inr hg),
      h.chained x y (fun hg => hx (.inl hg)) fun hg => hy (.inl hg)]

lemma has_iff (h : Shrunk gone pool pool') (x : Hash) : pool'.has x ↔ pool.has x ∧ ¬gone x := by
  simp only [Pool.has_iff]
  by_cases hx : gone x
  · simp [h.get_gone x hx, hx]
  · simp [h.get x hx, hx]

lemma chain_iff (h : Shrunk gone pool pool') (hx : ¬gone x) :
    pool'.Chain x y ↔ pool.Chain x y ∧ ¬gone y := by
  unfold Pool.Chain
  rw [h.has_iff]
  by_cases hy : gone y
  · simp [hy]
  · rw [h.chained x y hx hy]
    tauto

/-- Chains of the smaller pool are chains of the larger one. -/
lemma transGen (h : Shrunk gone pool pool') (hx : ¬gone x) (hxy : TransGen pool'.Chain x y) :
    TransGen pool.Chain x y ∧ ¬gone y := by
  induction hxy with
  | single hstep =>
    obtain ⟨hstep, hy⟩ := (h.chain_iff hx).mp hstep
    exact ⟨.single hstep, hy⟩
  | tail _ hstep ih =>
    obtain ⟨hstep, hy⟩ := (h.chain_iff ih.2).mp hstep
    exact ⟨ih.1.tail hstep, hy⟩

end Shrunk

/-! ## Removals with redeemers -/

/-- No transaction is in both pools. -/
def Disjoint (mp : Mempool F) : Prop :=
  ∀ x, mp.orphanPool.has x → ¬mp.transactionPool.has x

/-- What the removals of the transactions `ids` with their redeemers do: the transactions `gone` are
chained to some of them, and are closed under chains. They are all that are chained if no
transaction is an orphan as well. -/
structure Dropped (ids : List Hash) (gone : Hash → Prop) (mp mp' : Mempool F) : Prop where
  shrunk : Shrunk gone mp.transactionPool mp'.transactionPool
  orphans : ∀ x, mp'.orphanPool.has x → mp.orphanPool.has x
  closed : ∀ x y, gone x → mp.transactionPool.Chain x y → gone y
  sound : ∀ x, gone x → ∃ id ∈ ids, mp.transactionPool.has id ∧
    ReflTransGen mp.transactionPool.Chain id x
  complete : Disjoint mp → ∀ id ∈ ids, mp.transactionPool.has id →
    ∀ x, ReflTransGen mp.transactionPool.Chain id x → gone x

namespace Dropped

variable {ids ids' : List Hash} {gone gone' : Hash → Prop} {mp mp₁ mp' : Mempool F}
variable {x y : Hash}

lemma nil (mp : Mempool F) : Dropped [] (fun _ => False) mp mp where
  shrunk := .refl _
  orphans := fun _ h => h
  closed := fun _ _ h => h.elim
  sound := fun _ h => h.elim
  complete := fun _ _ h => nomatch h

lemma disjoint (h : Dropped ids gone mp mp') (hd : Disjoint mp) :
    Disjoint mp' := by
  intro x hx hhas
  exact hd x (h.orphans x hx) ((h.shrunk.has_iff x).mp hhas).1

/-- A chain in the pool that was left is a chain in the pool before. -/
lemma reflTransGen_of (h : Dropped ids gone mp mp') (hx : ¬gone x)
    (hxy : ReflTransGen mp'.transactionPool.Chain x y) :
    ReflTransGen mp.transactionPool.Chain x y := by
  rcases Relation.reflTransGen_iff_eq_or_transGen.mp hxy with rfl | hxy
  · exact .refl
  · exact (h.shrunk.transGen hx hxy).1.to_reflTransGen

/-- A chain to a transaction that was left has been left. -/
lemma reflTransGen_to (h : Dropped ids gone mp mp') (hy : ¬gone y)
    (hxy : ReflTransGen mp.transactionPool.Chain x y) :
    ReflTransGen mp'.transactionPool.Chain x y ∧ ¬gone x := by
  rcases Relation.reflTransGen_iff_eq_or_transGen.mp hxy with rfl | hxy
  · exact ⟨.refl, hy⟩
  · have hpath := Search.transGen_avoids h.closed hy hxy
    have hx : ¬gone x := by
      obtain ⟨_, hstep, -⟩ := Relation.TransGen.head'_iff.mp hpath
      exact hstep.2.1
    refine ⟨?_, hx⟩
    apply Relation.TransGen.to_reflTransGen
    refine Relation.TransGen.mono (fun a b hab => ?_) x y hpath
    exact (h.shrunk.chain_iff hab.2.1).mpr ⟨hab.1, hab.2.2⟩

theorem append (h : Dropped ids gone mp mp₁) (h' : Dropped ids' gone' mp₁ mp') :
    Dropped (ids ++ ids') (fun x => gone x ∨ gone' x) mp mp' where
  shrunk := h.shrunk.trans h'.shrunk
  orphans := fun x hx => h.orphans x (h'.orphans x hx)
  closed := by
    intro x y hx hxy
    by_cases hgx : gone x
    · exact .inl (h.closed x y hgx hxy)
    · by_cases hgy : gone y
      · exact .inl hgy
      · exact .inr (h'.closed x y (hx.resolve_left hgx) ((h.shrunk.chain_iff hgx).mpr ⟨hxy, hgy⟩))
  sound := by
    rintro x (hx | hx)
    · obtain ⟨id, hid, hpath⟩ := h.sound x hx
      exact ⟨id, mem_append_left _ hid, hpath⟩
    · obtain ⟨id, hid, hhas, hpath⟩ := h'.sound x hx
      obtain ⟨hhas, hgid⟩ := (h.shrunk.has_iff id).mp hhas
      exact ⟨id, mem_append_right _ hid, hhas, h.reflTransGen_of hgid hpath⟩
  complete := by
    intro hd id hid hhas x hx
    by_cases hgx : gone x
    · exact .inl hgx
    · obtain ⟨hx', hgid⟩ := h.reflTransGen_to hgx hx
      rcases mem_append.mp hid with hid | hid
      · exact .inl (h.complete hd id hid hhas x hx)
      · refine .inr (h'.complete (h.disjoint hd) id hid ?_ x hx')
        exact (h.shrunk.has_iff id).mpr ⟨hhas, hgid⟩

end Dropped

/-! ## Runs that return -/

section
variable {mp mp' : Mempool F} {α : Type}
variable {ids : List Hash} {t : MutableTransaction} {pool : TransactionsPool F}
  {transactionSize : ℕ}
variable {id : Hash} {priority : Priority} {rbfPolicy : RbfPolicy} {pool' : TransactionsPool F}
  {a : α}

lemma onPool_ok {p : PoolM F α} (h : (onPool p).outcome mp = some (.ok a, mp')) :
    p.outcome mp.transactionPool = some (.ok a, mp'.transactionPool) ∧
      mp' = { mp with transactionPool := mp'.transactionPool } := by
  obtain ⟨⟨r, pool'⟩, hp, heq⟩ := map_eq_some_iff.mp h
  cases heq
  exact ⟨hp, rfl⟩

lemma onOrphans_ok {p : OrphanM α}
    (h : (onOrphans p).outcome mp = some (.ok a, mp')) :
    p.outcome mp.orphanPool = some (.ok a, mp'.orphanPool) ∧
      mp' = { mp with orphanPool := mp'.orphanPool } := by
  obtain ⟨⟨r, pool'⟩, hp, heq⟩ := map_eq_some_iff.mp h
  cases heq
  exact ⟨hp, rfl⟩

/-- The loop of `remove_transaction` takes away the transactions that it is given. -/
lemma shrunk_removeTransactions {removeRedeemers : Bool}
    (h : (removeTransactions ctx removeRedeemers ids).outcome mp = some (.ok (), mp')) :
    Shrunk (· ∈ ids) mp.transactionPool mp'.transactionPool := by
  induction ids generalizing mp with
  | nil =>
    cases h
    simp only [not_mem_nil]
    exact .refl _
  | cons id ids ih =>
    obtain ⟨tx, mp₁, hremove, h⟩ := outcome_bind_eq_ok h
    obtain ⟨txs, mp₂, horphans, h⟩ := outcome_bind_eq_ok h
    obtain ⟨hremove, -⟩ := onPool_ok hremove
    obtain ⟨-, hpool₂⟩ := onOrphans_ok horphans
    have hshrunk := ih h
    have hremoved := (removeTransaction_leads id mp.transactionPool _ _ hremove).1
    rw [hpool₂] at hshrunk
    have hboth := (Shrunk.of_removed hremoved.toRemoved).trans hshrunk
    simp only [← mem_cons] at hboth
    exact hboth

lemma fewer_removeTransactions
    (h : (removeTransactions ctx true ids).outcome mp = some (.ok (), mp')) :
    ∀ x, mp'.orphanPool.has x → mp.orphanPool.has x := by
  induction ids generalizing mp with
  | nil =>
    cases h
    exact fun _ h => h
  | cons id ids ih =>
    obtain ⟨tx, mp₁, hremove, h⟩ := outcome_bind_eq_ok h
    obtain ⟨txs, mp₂, horphans, h⟩ := outcome_bind_eq_ok h
    obtain ⟨-, hpool₁⟩ := onPool_ok hremove
    obtain ⟨horphans, -⟩ := onOrphans_ok horphans
    have hupdate := (OrphanPool.keeps_removeOrphans _ _).of_outcome horphans
    intro x hx
    have hx₁ := hupdate x (ih h x hx)
    rw [hpool₁] at hx₁
    exact hx₁

lemma removeTransaction_ok
    (h : (removeTransaction ctx id true).outcome mp = some (.ok (), mp')) :
    ∃ gone, Dropped [id] gone mp mp' := by
  unfold Mempool.removeTransaction at h
  rw [outcome_get_bind] at h
  split at h
  · next horphan =>
    -- an orphan of the same id is removed in place of the transaction
    obtain ⟨txs, mp₁, hremove, h⟩ := outcome_bind_eq_ok h
    cases h
    obtain ⟨hremove, hmempool⟩ := onOrphans_ok hremove
    have hfewer := (OrphanPool.keeps_removeOrphan _ _ _).of_outcome hremove
    refine ⟨fun _ => False, ?_, hfewer, fun _ _ h => h.elim, fun _ h => h.elim, ?_⟩
    · rw [hmempool]
      exact .refl _
    · intro hd id' hid' hhas
      obtain rfl := mem_singleton.mp hid'
      exact absurd hhas (hd id' horphan)
  · split at h
    · next hhas =>
      cases h
      refine ⟨fun _ => False, .refl _, fun _ h => h, fun _ _ h => h.elim, fun _ h => h.elim, ?_⟩
      intro hd id' hid' hhas'
      obtain rfl := mem_singleton.mp hid'
      exact absurd hhas' hhas
    · next hhas =>
      rw [not_not] at hhas
      have hshrunk := shrunk_removeTransactions h
      simp only [if_true, mem_cons_getRedeemerIdsInPool hhas] at hshrunk
      refine ⟨_, hshrunk, fewer_removeTransactions h, fun x y hx hxy => hx.tail hxy,
        fun x hx => ?_, ?_⟩
      · exact ⟨id, mem_singleton_self id, hhas, hx⟩
      · intro hd id' hid' hhas' x hx
        obtain rfl := mem_singleton.mp hid'
        exact hx

lemma removeEach_ok (h : (removeEach ctx ids).outcome mp = some (.ok (), mp')) :
    ∃ gone, Dropped ids gone mp mp' := by
  induction ids generalizing mp with
  | nil =>
    cases h
    exact ⟨_, .nil _⟩
  | cons id ids ih =>
    obtain ⟨u, mp₁, hremove, h⟩ := outcome_bind_eq_ok h
    obtain ⟨gone, hgone⟩ := removeTransaction_ok hremove
    obtain ⟨gone', hgone'⟩ := ih h
    exact ⟨_, hgone.append hgone'⟩

lemma removeDoubleSpends_eq (doubleSpends : List DoubleSpend) :
    removeDoubleSpends ctx doubleSpends =
      removeEach ctx (doubleSpends.map DoubleSpend.ownerId) := by
  induction doubleSpends with
  | nil => rfl
  | cons doubleSpend doubleSpends ih =>
    rw [removeDoubleSpends, ih]
    rfl

/-- The loop that makes room drops some of the transactions it was given. -/
lemma makeRoom_ok
    (h : (makeRoom ctx transactionSize ids).outcome mp = some (.ok (), mp')) :
    ∃ evicted gone, evicted ⊆ ids ∧ Dropped evicted gone mp mp' := by
  induction ids generalizing mp with
  | nil =>
    cases h
    exact ⟨_, _, List.Subset.refl _, .nil _⟩
  | cons id ids ih =>
    obtain ⟨u, mp₁, hremove, h⟩ := outcome_bind_eq_ok h
    obtain ⟨gone, hgone⟩ := removeTransaction_ok hremove
    rw [outcome_get_bind] at h
    split at h
    · cases h
      refine ⟨_, _, ?_, hgone⟩
      exact cons_subset.mpr ⟨mem_cons_self, nil_subset _⟩
    · obtain ⟨evicted, gone', hsub, hgone'⟩ := ih h
      exact ⟨_, _, cons_subset_cons id hsub, hgone.append hgone'⟩

/-! ## Replacements -/

lemma has_of_validateDoubleSpendingTransaction {doubleSpend : DoubleSpend} {tx : MempoolTransaction}
    (h : mp.validateDoubleSpendingTransaction ctx t doubleSpend = .ok tx) :
    mp.transactionPool.has doubleSpend.ownerId := by
  unfold validateDoubleSpendingTransaction getDoubleSpendOwner at h
  cases hget : mp.transactionPool.get doubleSpend.ownerId with
  | none =>
    rw [hget] at h
    cases h
  | some owner => exact has_iff.mpr ⟨owner, hget⟩

lemma has_of_validateDoubleSpends {doubleSpends : List DoubleSpend}
    (h : mp.validateDoubleSpends ctx t doubleSpends = .ok ()) :
    ∀ owner ∈ doubleSpends.map DoubleSpend.ownerId, mp.transactionPool.has owner := by
  induction doubleSpends with
  | nil => exact fun _ h => nomatch h
  | cons doubleSpend doubleSpends ih =>
    unfold validateDoubleSpends at h
    cases hvalid : mp.validateDoubleSpendingTransaction ctx t doubleSpend with
    | error e =>
      rw [hvalid] at h
      cases h
    | ok tx =>
      rw [hvalid] at h
      rw [map_cons, forall_mem_cons]
      exact ⟨has_of_validateDoubleSpendingTransaction hvalid, ih h⟩

/-- A replacement drops exactly the double-spent transactions, which are in the pool, with their
redeemers. -/
lemma executeReplaceByFee_ok {removed : Option Transaction}
    (h : (executeReplaceByFee ctx t rbfPolicy).outcome mp =
      some (.ok removed, mp')) :
    ∃ ids gone, Dropped ids gone mp mp' ∧
      (∀ owner, owner ∈ ids ↔ DoubleSpent mp.transactionPool.utxoSet t owner) ∧
      ∀ owner ∈ ids, mp.transactionPool.has owner := by
  obtain ⟨-, howners⟩ := @getDoubleSpendTransactionIds_spec
    mp.transactionPool.utxoSet t
  unfold executeReplaceByFee at h
  rw [outcome_get_bind] at h
  dsimp only at h
  cases rbfPolicy with
  | forbidden =>
    obtain ⟨u, mp₁, hcheck, h⟩ := outcome_bind_eq_ok h
    cases h
    rw [outcome_orFail, checkDoubleSpends] at hcheck
    cases hfirst : mp.transactionPool.utxoSet.getFirstDoubleSpend t with
    | some doubleSpend =>
      rw [hfirst] at hcheck
      cases hcheck
    | none =>
      rw [hfirst] at hcheck
      cases hcheck
      have hnone := getFirstDoubleSpend_eq_none.mp hfirst
      refine ⟨[], _, .nil _, fun owner => ?_, fun _ h => absurd h not_mem_nil⟩
      exact iff_of_false not_mem_nil (hnone owner)
  | allowed =>
    cases hspends : mp.transactionPool.utxoSet.getDoubleSpendTransactionIds t with
    | nil =>
      rw [hspends] at h howners
      cases h
      exact ⟨[], _, .nil _, howners, fun _ h => absurd h not_mem_nil⟩
    | cons doubleSpend doubleSpends =>
      rw [hspends] at h howners
      obtain ⟨tx, hfirst, h⟩ := outcome_orFail_bind_eq_ok h
      obtain ⟨u, hrest, h⟩ := outcome_orFail_bind_eq_ok h
      obtain ⟨u, mp₃, hremove, h⟩ := outcome_bind_eq_ok h
      cases h
      rw [removeDoubleSpends_eq] at hremove
      obtain ⟨gone, hgone⟩ := removeEach_ok hremove
      refine ⟨_, gone, hgone, howners, ?_⟩
      rw [map_cons, forall_mem_cons]
      exact ⟨has_of_validateDoubleSpendingTransaction hfirst, has_of_validateDoubleSpends hrest⟩
  | mandatory =>
    rcases hspends : mp.transactionPool.utxoSet.getDoubleSpendTransactionIds t with
      _ | ⟨doubleSpend, _ | ⟨second, rest⟩⟩
    · rw [hspends] at h
      cases h
    · rw [hspends] at h howners
      obtain ⟨tx, hfirst, h⟩ := outcome_orFail_bind_eq_ok h
      obtain ⟨u, mp₂, hremove, h⟩ := outcome_bind_eq_ok h
      cases h
      obtain ⟨gone, hgone⟩ := removeTransaction_ok hremove
      refine ⟨_, gone, hgone, howners, fun owner howner => ?_⟩
      rw [mem_singleton.mp howner]
      exact has_of_validateDoubleSpendingTransaction hfirst
    · rw [hspends] at h
      cases h

/-! ## Evictions -/

/-- The loop over the frontier selects transactions to which no parent of the new transaction is
chained. -/
lemma limitLoop_leads {feerateThreshold : F} (frontier : List Transaction) (ids : List Hash)
    (size : ℕ) (hids : ∀ id ∈ ids, ∀ x, ReflTransGen pool.Chain id x → ¬t.hasParent x) :
    Leads (limitLoop ctx pool t transactionSize feerateThreshold frontier
      ids size) pool fun r pool' => pool' = pool ∧ ∀ ids', r = .ok ids' →
        ∀ id ∈ ids', ∀ x, ReflTransGen pool.Chain id x → ¬t.hasParent x := by
  induction frontier generalizing ids size with
  | nil => exact leads_throw ⟨rfl, fun _ h => nomatch h⟩
  | cons ready rest ih =>
    rw [limitLoop]
    refine leads_unwrap_bind fun tx htx => ?_
    dsimp only
    split
    · exact ih ids size hids
    · next hskip =>
      have hid : tx.id = ready.id := id_of_get htx
      have hhas : pool.has tx.id := by
        rw [hid]
        exact has_iff.mpr ⟨tx, htx⟩
      have hparents : ∀ x, ReflTransGen pool.Chain tx.id x → ¬t.hasParent x := by
        intro x hx hparent
        apply hskip
        refine .inr (MutableTransaction.hasParentInSet_iff.mpr ⟨x, ?_, hparent⟩)
        rw [mem_append, mem_getRedeemerIdsInPool hhas, mem_singleton]
        rw [Relation.reflTransGen_iff_eq_or_transGen] at hx
        exact hx.symm
      have hids' : ∀ id ∈ ids ++ [tx.id], ∀ x, ReflTransGen pool.Chain id x →
          ¬t.hasParent x := by
        intro id hid'
        rcases mem_append.mp hid' with hid' | hid'
        · exact hids id hid'
        · rw [mem_singleton.mp hid']
          exact hparents
      refine leads_unwrap_bind fun feerate _ => ?_
      split
      · exact leads_throw ⟨rfl, fun _ h => nomatch h⟩
      · refine leads_unwrap_bind fun count _ => ?_
        split
        · refine leads_unwrap_bind fun newSize _ => ?_
          split
          · refine leads_pure ⟨rfl, fun ids' h => ?_⟩
            cases h
            exact hids'
          · exact ih _ _ hids'
        · exact ih _ _ hids'

lemma limitTransactionCount_ok
    (h : (limitTransactionCount ctx t transactionSize).outcome pool = some (.ok ids, pool')) :
    pool' = pool ∧ ∀ id ∈ ids, ∀ x, ReflTransGen pool.Chain id x → ¬t.hasParent x := by
  unfold limitTransactionCount at h
  rw [outcome_get_bind] at h
  split at h
  · cases h
    exact ⟨rfl, fun _ h => nomatch h⟩
  · obtain ⟨feerate, pool₁, hfeerate, h⟩ := outcome_bind_eq_ok h
    obtain ⟨_, _, hstate⟩ := map_eq_some_iff.mp hfeerate
    cases hstate
    obtain ⟨hpool, hids⟩ := limitLoop_leads _ [] 0 (fun _ h => (nomatch h)) _ _ h
    exact ⟨hpool, hids ids rfl⟩

/-! ## Insertions -/

lemma addTransaction_ok {accepted : MempoolTransaction}
    (h : (addTransaction ctx t ctx.virtualDaaScore priority
      (ctx.mempoolEstimatedBytes t)).outcome pool = some (.ok accepted, pool'))
    (x : Hash) : pool'.has x ↔ pool.has x ∨ x = t.id := by
  obtain ⟨u, pool₁, hadd, h⟩ := outcome_bind_eq_ok h
  have hexec : ((PoolOp.add ⟨t, priority, ctx.virtualDaaScore⟩).exec ctx).outcome pool =
      some (.ok u, pool₁) := hadd
  obtain ⟨-, size, frontier, rfl⟩ := added_of_exec hexec
  rw [outcome_get_bind] at h
  obtain ⟨_, _, hstate⟩ := map_eq_some_iff.mp h
  cases hstate
  exact has_added size frontier x

/-- The transaction `id` is double-spent by the new transaction, or chained to one that is. -/
def Replaced (pool : TransactionsPool F) (t : MutableTransaction) (id : Hash) : Prop :=
  ∃ owner, DoubleSpent pool.utxoSet t owner ∧ ReflTransGen pool.Chain owner id

lemma along_checkInputScript {σ : Type} (transactionId : Hash) (i : ℕ) (input : TransactionInput)
    (entry : UtxoEntry) :
    Along (Eq (α := σ)) (checkInputScript transactionId i input entry) := by
  unfold checkInputScript
  split
  · exact along_throw _
  · exact along_pure _
  · exact along_pure _
  · exact (along_unwrap _).bind fun _ => along_ite (along_throw _) (along_pure _)

lemma along_validateTransactionInContext (t : MutableTransaction) :
    Along Eq (validateTransactionInContext ctx t) := by
  have hfee : Along (Eq (α := Mempool F)) (checkMinimumFee ctx t) :=
    (along_unwrap _).bind fun _ => (along_unwrap _).bind fun _ => (along_unwrap _).bind fun _ =>
      along_ite (along_throw _) (along_pure _)
  have hloop : ∀ inputs,
      Along (Eq (α := Mempool F)) (checkInputsStandardInContext ctx t inputs) := by
    intro inputs
    induction inputs with
    | nil => exact along_pure _
    | cons input inputs ih =>
      refine (along_unwrap _).bind fun entry => (along_checkInputScript _ _ _ _).bind fun _ => ?_
      exact hfee.bind fun _ => ih
  exact along_ite (along_pure _) (along_ite (along_throw _) (hloop _))

/-- The parents of a transaction that was inserted: those that it has replaced are gone, and the
others are still in the pool. -/
lemma insertTransaction_ok {result : TransactionPostValidation}
    (h : (insertTransaction ctx t priority rbfPolicy).outcome mp =
      some (.ok result, mp'))
    (hhas : mp.transactionPool.has id) (hparent : t.hasParent id) :
    (¬Replaced mp.transactionPool t id → mp'.transactionPool.has id) ∧
    (Disjoint mp → Replaced mp.transactionPool t id →
      mp'.transactionPool.has id → id = t.id) := by
  obtain ⟨u, mp₀, hcontext, hrest⟩ := outcome_bind_eq_ok h
  obtain rfl := along_validateTransactionInContext _ _ _ _ hcontext
  obtain ⟨removed, mp₁, hreplace, h⟩ := outcome_bind_eq_ok hrest
  obtain ⟨evictable, mp₂, hlimit, h⟩ := outcome_bind_eq_ok h
  obtain ⟨u, mp₃, hroom, h⟩ := outcome_bind_eq_ok h
  rw [outcome_get_bind] at h
  obtain ⟨u, mp₄, hensure, h⟩ := outcome_bind_eq_ok h
  obtain ⟨_, _, hstate⟩ := map_eq_some_iff.mp hensure
  cases hstate
  obtain ⟨accepted, mp₅, hadd, h⟩ := outcome_bind_eq_ok h
  cases h
  obtain ⟨ids, gone, hgone, hids, hidsHas⟩ := executeReplaceByFee_ok hreplace
  obtain ⟨hlimit, hmempool₂⟩ := onPool_ok hlimit
  obtain ⟨hpool₂, hevictable⟩ := limitTransactionCount_ok hlimit
  obtain ⟨evicted, gone', hsub, hgone'⟩ := makeRoom_ok hroom
  have hadded := addTransaction_ok (onPool_ok hadd).1
  rw [hpool₂] at hmempool₂
  obtain rfl : mp₂ = mp₁ := hmempool₂
  constructor
  · intro hnot
    have hstays : ¬gone id := by
      intro hg
      obtain ⟨owner, howner, -, hpath⟩ := hgone.sound id hg
      exact hnot ⟨owner, (hids owner).mp howner, hpath⟩
    have hstays' : ¬gone' id := by
      intro hg
      obtain ⟨e, he, -, hpath⟩ := hgone'.sound id hg
      exact hevictable e (hsub he) id hpath hparent
    refine (hadded id).mpr (.inl ((hgone'.shrunk.has_iff id).mpr ⟨?_, hstays'⟩))
    exact (hgone.shrunk.has_iff id).mpr ⟨hhas, hstays⟩
  · rintro hd ⟨owner, howner, hpath⟩ hhas'
    have hin := (hids owner).mpr howner
    have hg := hgone.complete hd owner hin (hidsHas owner hin) id hpath
    refine ((hadded id).mp hhas').resolve_left fun hhas₃ => ?_
    have hhas₁ := ((hgone'.shrunk.has_iff id).mp hhas₃).1
    exact ((hgone.shrunk.has_iff id).mp hhas₁).2 hg

/-- Where a transaction is accepted, a pool transaction that one of its inputs names stays in the
pool unless it is double-spent by the transaction or chained to one that is. If no transaction is in
both pools, such a parent is gone. -/
theorem postValidateAndInsertTransaction_parents {validationResult : Except RuleError Unit}
    {t : MutableTransaction} {priority : Priority} {orphan : Orphan}
    {rbfPolicy : RbfPolicy} {removed : Option Transaction} {accepted : Transaction}
    (h : (postValidateAndInsertTransaction ctx validationResult t priority orphan
      rbfPolicy).outcome mp = some (.ok ⟨removed, some accepted⟩, mp')) :
    ∀ id, mp.transactionPool.has id → t.hasParent id →
      (¬Replaced mp.transactionPool t id → mp'.transactionPool.has id) ∧
      (Disjoint mp → Replaced mp.transactionPool t id →
        ¬mp'.transactionPool.has id) := by
  intro id hhas hparent
  unfold postValidateAndInsertTransaction at h
  rw [outcome_get_bind] at h
  split at h
  · cases h
  · next hnew =>
    obtain ⟨u, -, h⟩ := outcome_orFail_bind_eq_ok h
    split at h
    · obtain ⟨hstays, hgone⟩ := insertTransaction_ok h hhas hparent
      refine ⟨hstays, fun hd hreplaced hhas' => ?_⟩
      rw [hgone hd hreplaced hhas'] at hhas
      exact hnew hhas
    · -- an orphan is not accepted
      split at h
      · cases h
      · obtain ⟨_, _, _, h⟩ := outcome_bind_eq_ok h
        obtain ⟨_, _, _, h⟩ := outcome_bind_eq_ok h
        cases h
    · cases h

end

/-- The mempool after a transaction was accepted. -/
def accept (ctx : Context F) (mp : Mempool F) (t : MutableTransaction) :
    Option (Mempool F) :=
  match (postValidateAndInsertTransaction ctx (.ok ()) t .low .allowed
    .allowed).outcome mp with
  | some (.ok ⟨_, some _⟩, mp') => some mp'
  | _ => none

lemma outcome_of_accept {mp mp' : Mempool F} {t : MutableTransaction}
    (h : accept ctx mp t = some mp') :
    ∃ removed accepted, (postValidateAndInsertTransaction ctx (.ok ()) t .low
      .allowed .allowed).outcome mp = some (.ok ⟨removed, some accepted⟩, mp') := by
  unfold accept at h
  split at h
  · next removed accepted mp₁ hout =>
    cases h
    exact ⟨removed, accepted, hout⟩
  · cases h

end

/-! ## A parent that is replaced -/

/-- A transaction with the given fee that spends the given outpoints, with their entries, into one
output. -/
def spendingEntries (id : Hash) (spent : List (TransactionOutpoint × UtxoEntry)) (fee : ℕ) :
    MutableTransaction where
  tx := ⟨id, 0, spent.map fun s => ⟨s.1, [], 0, 0⟩, [⟨50000, ⟨0, [0x51]⟩⟩], 0, 0⟩
  entries := spent.map fun s => some s.2
  calculatedFee := some fee
  calculatedNonContextualMasses := some ⟨1000, 1000⟩
  length_entries := by rw [length_map, length_map]

/-- An output of consensus. -/
def consensusEntry : UtxoEntry := ⟨60000, ⟨0, [0x51]⟩, 3, false⟩

/-- The output of a pool transaction. -/
def poolEntry : UtxoEntry := unacceptedEntry ⟨50000, ⟨0, [0x51]⟩⟩

/-- A transaction that spends an output of consensus. -/
def firstTx : MutableTransaction := spendingEntries 1 [(⟨100, 0⟩, consensusEntry)] 2000

/-- A transaction that spends the output of `firstTx`. -/
def secondTx : MutableTransaction := spendingEntries 2 [(⟨1, 0⟩, poolEntry)] 3000

/-- A transaction that spends the output of `secondTx`, and once more that of consensus. -/
def replacingTx : MutableTransaction :=
  spendingEntries 3 [(⟨100, 0⟩, consensusEntry), (⟨2, 0⟩, poolEntry)] 9000

/-- A transaction that spends another output of consensus. -/
def rivalledTx : MutableTransaction := spendingEntries 4 [(⟨101, 0⟩, consensusEntry)] 2000

/-- A transaction that spends the output of `firstTx`, and once more what `rivalledTx` spends. -/
def keepingTx : MutableTransaction :=
  spendingEntries 5 [(⟨1, 0⟩, poolEntry), (⟨101, 0⟩, consensusEntry)] 9000

/-- `keepingTx` replaces `rivalledTx`, and its parent stays. -/
theorem postValidateAndInsertTransaction_parents_keepingTx :
    ∃ m₁ m₂ m₃, accept openContext .new firstTx = some m₁ ∧
      accept openContext m₁ rivalledTx = some m₂ ∧ accept openContext m₂ keepingTx = some m₃ ∧
      ¬m₃.transactionPool.has 4 ∧ m₃.transactionPool.has 1 := by
  have hrun : ((accept openContext .new firstTx).bind fun m₁ =>
      (accept openContext m₁ rivalledTx).bind fun m₂ =>
      (accept openContext m₂ keepingTx).map fun m₃ =>
        (m₂.transactionPool.has 1, m₃.transactionPool.has 4,
          (m₂.transactionPool.chained.edgesOf 4 : List Hash),
          keepingTx.tx.inputs.map fun input =>
            m₂.transactionPool.utxoSet.getOutpointOwnerId input.previousOutpoint)) =
      some (true, false, [], [none, some 4]) := by
    decide +kernel
  obtain ⟨m₁, hfirst, hrest⟩ := bind_eq_some_iff.mp hrun
  obtain ⟨m₂, hsecond, hrest⟩ := bind_eq_some_iff.mp hrest
  obtain ⟨m₃, hthird, hobs⟩ := map_eq_some_iff.mp hrest
  simp only [Prod.mk.injEq] at hobs
  obtain ⟨hhas, hgone, hedges, howners⟩ := hobs
  obtain ⟨removed, accepted, hout⟩ := outcome_of_accept hthird
  refine ⟨m₁, m₂, m₃, hfirst, hsecond, hthird, by simp [hgone], ?_⟩
  apply (postValidateAndInsertTransaction_parents hout 1 hhas (by decide)).1
  -- only the transaction `4` is double-spent, and nothing is chained to it
  rintro ⟨owner, ⟨input, hinput, howner, -⟩, hchain⟩
  have hmem : some owner ∈ [none, some 4] := howners ▸ howner ▸ mem_map_of_mem hinput
  obtain rfl : owner = 4 := by simpa using hmem
  rcases hchain.cases_head with h | ⟨next, ⟨hnext, -⟩, -⟩
  · cases h
  · rw [hedges] at hnext
    cases hnext

/-- The accepted transaction replaces the parent of one of its own parents: that parent, from which
an input was populated, leaves the pool with it. -/
theorem replacingTx_loses_parent :
    ∃ mp₁ mp₂ mp₃, accept openContext .new firstTx = some mp₁ ∧
      accept openContext mp₁ secondTx = some mp₂ ∧
      Populates mp₂ replacingTx replacingTx ∧
      accept openContext mp₂ replacingTx = some mp₃ ∧
      mp₂.transactionPool.has 2 ∧ replacingTx.hasParent 2 ∧
      ¬mp₃.transactionPool.has 2 := by
  have hrun : ((accept openContext .new firstTx).bind fun mp₁ =>
      (accept openContext mp₁ secondTx).bind fun mp₂ =>
      (accept openContext mp₂ replacingTx).map fun mp₃ =>
        (List.zipWith (populatedEntry mp₂.transactionPool) replacingTx.tx.inputs
          replacingTx.entries, mp₂.transactionPool.has 2, mp₃.transactionPool.has 2)) =
      some (replacingTx.entries, true, false) := by
    decide +kernel
  obtain ⟨mp₁, hfirst, hrest⟩ := bind_eq_some_iff.mp hrun
  obtain ⟨mp₂, hsecond, hrest⟩ := bind_eq_some_iff.mp hrest
  obtain ⟨mp₃, hthird, hobs⟩ := map_eq_some_iff.mp hrest
  simp only [Prod.mk.injEq] at hobs
  obtain ⟨hentries, hhas, hgone⟩ := hobs
  refine ⟨mp₁, mp₂, mp₃, hfirst, hsecond, ⟨rfl, hentries.symm⟩, hthird, hhas,
    by decide, ?_⟩
  rw [hgone]
  exact Bool.false_ne_true

end LapisMonetae.Mining
