import LapisMonetae.Lib.AssocMap
import LapisMonetae.Mempool.Pool

/-!
# The edges of the transactions pool

What single operations do to the collections and the edges of a pool, and the redeemers that the
search of `get_redeemer_ids_in_pool` finds.
-/

namespace LapisMonetae.Mining

open Utxo Tx Program List AList MempoolTransactionCollection TransactionsEdges

/-! ## Collections -/

namespace MempoolTransactionCollection

variable {self : MempoolTransactionCollection}
variable {id : Hash} {tx : MempoolTransaction} (size : MempoolTransaction → ℕ)

lemma get_insert (tx : MempoolTransaction) (id : Hash) :
    (self.insert tx).get id = if id = tx.id then some tx else self.get id :=
  AssocMap.lookup_insert_ite _ _ _ _

lemma get_remove (id id' : Hash) :
    (self.remove id).get id' = if id' = id then none else self.get id' :=
  AssocMap.lookup_erase_ite _ _ _

/-- The removal of an unknown id changes nothing. -/
lemma remove_of_get_eq_none (h : self.get id = none) : self.remove id = self := by
  have hmap : self.map.erase id = self.map := AssocMap.erase_of_lookup_eq_none h
  unfold remove
  simp only [hmap]

lemma id_of_get (h : self.get id = some tx) : tx.id = id := self.id_eq id tx h

/-- The sum of a measure over the transactions of a collection. -/
def total (self : MempoolTransactionCollection) (size : MempoolTransaction → ℕ) : ℕ :=
  (self.values.map size).sum

lemma total_eq : self.total size = AssocMap.total (fun entry => size entry.2) self.map := by
  simp [total, values, AssocMap.total, Function.comp_def]

/-- The size of a transaction replaces that of the one with its id. -/
lemma total_insert : (self.insert tx).total size = size tx + (self.remove tx.id).total size := by
  rw [total_eq, total_eq]
  exact AssocMap.total_insert _ _ _ _

lemma total_remove (h : self.get id = some tx) :
    self.total size = size tx + (self.remove id).total size := by
  rw [total_eq, total_eq]
  exact AssocMap.total_eq_add_erase _ h

/-- The removal of a known id takes one transaction. -/
lemma len_remove (h : self.get id = some tx) : self.len = (self.remove id).len + 1 := by
  have htotal := total_remove (fun _ => 1) h
  have hlen : ∀ c : MempoolTransactionCollection, c.total (fun _ => 1) = c.len := by
    intro c
    simp [total, values, len, Function.comp_def]
  rw [hlen, hlen] at htotal
  omega

lemma get_of_mem_values (h : tx ∈ self.values) : self.get tx.id = some tx := by
  obtain ⟨⟨id, tx'⟩, hmem, htx⟩ := mem_map.mp h
  obtain rfl : tx' = tx := htx
  have hget : self.get id = some tx' := mem_lookup_iff.mpr hmem
  rw [id_of_get hget, hget]

lemma len_eq_zero_of_total {size : MempoolTransaction → ℕ} (h : self.len = 0) :
    self.total size = 0 := by
  have hnil : self.map.entries = [] := length_eq_zero_iff.mp h
  simp [total, values, hnil]

end MempoolTransactionCollection

/-! ## Edges -/

namespace TransactionsEdges

variable {self : TransactionsEdges} {id other x y : Hash} (ids : List Hash)

lemma edgesOf_insert (others : TransactionIdSet) :
    edgesOf (AList.insert id others self) x = if x = id then others else self.edgesOf x := by
  unfold edgesOf
  rw [AssocMap.lookup_insert_ite]
  split
  · rfl
  · rfl

lemma edgesOf_erase : edgesOf (AList.erase id self) x = if x = id then [] else self.edgesOf x := by
  unfold edgesOf
  rw [AssocMap.lookup_erase_ite]
  split
  · rfl
  · rfl

/-- A link adds one edge. -/
lemma mem_edgesOf_link :
    y ∈ (self.link id other).edgesOf x ↔ y ∈ self.edgesOf x ∨ (x = id ∧ y = other) := by
  unfold link
  rw [edgesOf_insert]
  split
  · next h =>
    subst h
    rw [mem_insert_iff]
    tauto
  · tauto

/-- An unlink takes one edge away. -/
lemma mem_edgesOf_unlink :
    y ∈ (self.unlink id other).edgesOf x ↔ y ∈ self.edgesOf x ∧ ¬(x = id ∧ y = other) := by
  unfold unlink
  split
  · next others hothers =>
    rw [edgesOf_insert]
    split
    · next h =>
      subst h
      have hedges : self.edgesOf x = others := by rw [edgesOf, hothers]; rfl
      rw [hedges]
      simp
    · tauto
  · next hnone =>
    have hedges : self.edgesOf id = [] := by rw [edgesOf, hnone]; rfl
    constructor
    · intro hy
      refine ⟨hy, fun hxy => ?_⟩
      rw [hxy.1, hedges] at hy
      cases hy
    · exact And.left

/-- The loop that links ids to one transaction. -/
lemma mem_edgesOf_foldl_link :
    y ∈ edgesOf (ids.foldl (fun edges id => edges.link id other) self) x ↔
      y ∈ self.edgesOf x ∨ (x ∈ ids ∧ y = other) := by
  induction ids generalizing self with
  | nil => simp
  | cons id ids ih =>
    rw [foldl_cons, ih, mem_edgesOf_link, mem_cons]
    tauto

lemma mem_foldl_link :
    x ∈ ids.foldl (fun edges id => edges.link id other) self ↔ x ∈ self ∨ x ∈ ids := by
  induction ids generalizing self with
  | nil => simp
  | cons id ids ih =>
    rw [foldl_cons, ih, link, mem_insert, mem_cons]
    tauto

lemma mem_foldl_unlink : x ∈ ids.foldl (fun edges id => edges.unlink id other) self ↔ x ∈ self := by
  induction ids generalizing self with
  | nil => rfl
  | cons id ids ih =>
    rw [foldl_cons, ih, unlink]
    split
    · next others hothers =>
      rw [mem_insert, or_iff_right_of_imp]
      rintro rfl
      exact lookup_isSome.mp (hothers ▸ rfl)
    · rfl

/-- The loop that unlinks them. -/
lemma mem_edgesOf_foldl_unlink :
    y ∈ edgesOf (ids.foldl (fun edges id => edges.unlink id other) self) x ↔
      y ∈ self.edgesOf x ∧ ¬(x ∈ ids ∧ y = other) := by
  induction ids generalizing self with
  | nil => simp
  | cons id ids ih =>
    rw [foldl_cons, ih, mem_edgesOf_unlink, mem_cons]
    tauto

end TransactionsEdges

/-! ## Parents and redeemers -/

namespace MutableTransaction

/-- The parents are named by the inputs. -/
lemma hasParent_iff {self : MutableTransaction} {id : Hash} :
    self.hasParent id ↔ ∃ input ∈ self.tx.inputs, input.previousOutpoint.transactionId = id := by
  simp [hasParent]

lemma hasParentInSet_iff {self : MutableTransaction} {ids : List Hash} :
    self.hasParentInSet ids ↔ ∃ id ∈ ids, self.hasParent id := by
  simp only [hasParentInSet, any_eq_true, contains_iff_mem, hasParent_iff]
  constructor
  · rintro ⟨input, hinput, hid⟩
    exact ⟨_, hid, input, hinput, rfl⟩
  · rintro ⟨id, hid, input, hinput, rfl⟩
    exact ⟨input, hinput, hid⟩

end MutableTransaction

namespace Pool

variable {self : Pool} {id id' : Hash}

/-- An id is known if its transaction is. -/
lemma has_iff : self.has id ↔ ∃ tx, self.get id = some tx := Option.isSome_iff_exists

/-- The parents of a transaction in the pool are the pool transactions that its inputs name. -/
lemma mem_getParentTransactionIdsInPool {t : MutableTransaction} :
    id ∈ self.getParentTransactionIdsInPool t ↔
      self.has id ∧ t.hasParent id := by
  have hfold : ∀ (inputs : List TransactionInput) (parents : TransactionIdSet),
      id ∈ inputs.foldl (fun parents input =>
        if self.has input.previousOutpoint.transactionId then
          parents.insert input.previousOutpoint.transactionId
        else parents) parents ↔
      id ∈ parents ∨
        (self.has id ∧ ∃ input ∈ inputs, input.previousOutpoint.transactionId = id) := by
    intro inputs
    induction inputs with
    | nil => simp
    | cons input inputs ih =>
      intro parents
      rw [foldl_cons, ih]
      simp only [exists_mem_cons_iff]
      split
      · next hhas =>
        rw [mem_insert_iff]
        constructor
        · rintro ((rfl | h) | h)
          · exact .inr ⟨hhas, .inl rfl⟩
          · exact .inl h
          · exact .inr ⟨h.1, .inr h.2⟩
        · rintro (h | ⟨h, rfl | h'⟩)
          · exact .inl (.inr h)
          · exact .inl (.inl rfl)
          · exact .inr ⟨h, h'⟩
      · next hhas =>
        constructor
        · rintro (h | h)
          · exact .inl h
          · exact .inr ⟨h.1, .inr h.2⟩
        · rintro (h | ⟨h, rfl | h'⟩)
          · exact .inl h
          · exact absurd h hhas
          · exact .inr ⟨h, h'⟩
  rw [getParentTransactionIdsInPool, hfold, MutableTransaction.hasParent_iff]
  simp

/-- `id'` is a pool transaction that is chained to `id`. -/
def Chain (self : Pool) (id id' : Hash) : Prop := id' ∈ self.chained.edgesOf id ∧ self.has id'

/-- The redeemers are the pool transactions that a chain leads to. -/
lemma mem_getRedeemerIdsInPool (h : self.has id) :
    id' ∈ self.getRedeemerIdsInPool id ↔ Relation.TransGen self.Chain id id' := by
  have hedge : Search.Edge self.chainedInPool = self.Chain := by
    funext a b
    exact propext (mem_filter)
  have hnodes : ∀ a, ∀ b ∈ self.chainedInPool a, b ∈ self.all.map.keys.toFinset := by
    intro a b hb
    have hhas : self.has b := (mem_filter.mp hb).2
    exact mem_toFinset.mpr (mem_keys.mp (lookup_isSome.mp hhas))
  rw [getRedeemerIdsInPool, if_pos h, ← hedge]
  apply Search.mem_search_iff hnodes (Search.searching_start _ id)
  have hcard : self.all.map.keys.toFinset.card ≤ self.len := by
    apply (toFinset_card_le _).trans
    exact Nat.le_of_eq (length_map _)
  simp only [toFinset_nil, Finset.sdiff_empty, length_singleton]
  omega

/-- A transaction with its redeemers is all that is chained to it. -/
lemma mem_cons_getRedeemerIdsInPool (h : self.has id) (id' : Hash) :
    id' ∈ id :: self.getRedeemerIdsInPool id ↔ Relation.ReflTransGen self.Chain id id' := by
  rw [mem_cons, mem_getRedeemerIdsInPool h, Relation.reflTransGen_iff_eq_or_transGen]

end Pool

/-! ## Removals -/

section
variable {F : Type} [LinearOrder F] {ctx : Context F}

/-- What a removal does to the transactions, to the UTXO set, and to the edges between the other
transactions, in any pool. -/
structure Removed (id : Hash) (pool pool' : TransactionsPool F) : Prop where
  all : pool'.all = pool.all.remove id
  utxoSet : pool'.utxoSet = match pool.get id with
    | some tx => pool.utxoSet.removeTransaction tx.mtx
      (pool'.getParentTransactionIdsInPool tx.mtx)
    | none => pool.utxoSet
  chained : ∀ x y, x ≠ id → y ≠ id → (y ∈ pool'.chained.edgesOf x ↔ y ∈ pool.chained.edgesOf x)

lemma Removed.get {id : Hash} {pool pool' : TransactionsPool F} (h : Removed id pool pool')
    (x : Hash) : pool'.get x = if x = id then none else pool.get x := by
  show pool'.all.get x = _
  rw [h.all, get_remove]
  rfl

/-- What a removal does to both maps of edges as well. -/
structure Detached (id : Hash) (pool pool' : TransactionsPool F) : Prop
    extends Removed id pool pool' where
  chained_sub : ∀ x y, y ∈ pool'.chained.edgesOf x → y ∈ pool.chained.edgesOf x ∧ x ≠ id ∧
    ¬(x ∈ pool.parentTransactions.edgesOf id ∧ y = id)
  parents_sub : ∀ x y, x ∈ pool'.parentTransactions.edgesOf y →
    x ∈ pool.parentTransactions.edgesOf y ∧ y ≠ id
  parents_sup : ∀ x y, x ≠ id → y ≠ id → x ∈ pool.parentTransactions.edgesOf y →
    x ∈ pool'.parentTransactions.edgesOf y

/-- The first loop of `remove_transaction` takes `id` from its parents. -/
lemma unlinkParents_eq (pool : TransactionsPool F) (id : Hash) :
    ∃ chained : TransactionsEdges, pool.unlinkParents id = { pool with chained := chained } ∧
      (∀ x c, c ∈ chained.edgesOf x ↔
        c ∈ pool.chained.edgesOf x ∧ ¬(x ∈ pool.parentTransactions.edgesOf id ∧ c = id)) ∧
      ∀ x, x ∈ chained ↔ x ∈ pool.chained := by
  unfold TransactionsPool.unlinkParents
  split
  · next parents hparents =>
    refine ⟨_, rfl, fun x c => ?_, fun x => mem_foldl_unlink parents⟩
    rw [mem_edgesOf_foldl_unlink]
    have hedges : pool.parentTransactions.edgesOf id = parents := by
      rw [edgesOf, hparents]
      rfl
    rw [hedges]
  · next hnone =>
    have hedges : pool.parentTransactions.edgesOf id = [] := by
      rw [edgesOf, hnone]
      rfl
    exact ⟨pool.chained, rfl, (fun x c => by simp [hedges]), fun _ => Iff.rfl⟩

/-- The second loop of `remove_transaction` does not fail: the successors forget the transaction, and
the frontier changes. -/
lemma unlinkChains_leads (id : Hash) (chains : List Hash) (pool : TransactionsPool F) :
    Leads (TransactionsPool.unlinkChains ctx id chains) pool fun r pool' => r = .ok () ∧
      ∃ readyTransactions, pool' = { pool with
        parentTransactions := chains.foldl (fun edges chain => edges.unlink chain id)
          pool.parentTransactions
        readyTransactions := readyTransactions } := by
  induction chains generalizing pool with
  | nil => exact leads_pure ⟨rfl, _, rfl⟩
  | cons chain chains ih =>
    have hround : Leads (TransactionsPool.unlinkChain ctx id chain) pool fun r pool' =>
        r = .ok () ∧ ∃ readyTransactions, pool' = { pool with
          parentTransactions := pool.parentTransactions.unlink chain id
          readyTransactions := readyTransactions } := by
      unfold TransactionsPool.unlinkChain unlink
      apply leads_get_bind
      cases pool.parentTransactions.lookup chain with
      | none => exact leads_pure ⟨rfl, _, rfl⟩
      | some parents =>
        refine leads_bind_of_outcome (outcome_set _ _) ?_
        split
        · refine leads_unwrap_bind fun tx _ => ?_
          refine leads_unwrap_bind fun key _ => ?_
          rintro r pool' ⟨⟩
          exact ⟨rfl, _, rfl⟩
        · exact leads_pure ⟨rfl, _, rfl⟩
    refine hround.bind ?_ fun e pool' h => nomatch h.1
    rintro _ pool₁ ⟨-, R, rfl⟩
    exact ih _

/-- A removal that arrives takes away the transaction, whatever the pool is. -/
lemma removeTransaction_leads (id : Hash) (pool : TransactionsPool F) :
    Leads (TransactionsPool.removeTransaction ctx id) pool fun r pool' =>
      Detached id pool pool' ∧ r = match pool.get id with
        | some tx => .ok tx
        | none => .error (.rejectMissingTransaction id) := by
  refine leads_bind_of_outcome (outcome_modify _ _) ?_
  apply leads_get_bind
  obtain ⟨chained, hpool₁, hmem, -⟩ := unlinkParents_eq pool id
  rw [hpool₁]
  have hedges : ∀ x y, x ≠ id → y ≠ id →
      (y ∈ edgesOf (chained.erase id) x ↔ y ∈ pool.chained.edgesOf x) := by
    intro x y hx hy
    rw [edgesOf_erase, if_neg hx, hmem]
    exact ⟨And.left, fun h => ⟨h, fun hnot => hy hnot.2⟩⟩
  have hsub : ∀ x y, y ∈ edgesOf (chained.erase id) x → y ∈ pool.chained.edgesOf x ∧ x ≠ id ∧
        ¬(x ∈ pool.parentTransactions.edgesOf id ∧ y = id) := by
    intro x y hy
    rw [edgesOf_erase] at hy
    split at hy
    · cases hy
    · next hx =>
      rw [hmem] at hy
      exact ⟨hy.1, hx, hy.2⟩
  have hloops := @unlinkChains_leads F _ ctx id (chained.edgesOf id) { pool with chained := chained }
  refine hloops.bind ?_ fun e pool₂ h => nomatch h.1
  rintro _ pool₂ ⟨-, R, rfl⟩
  -- the parents of the other transactions are those they had, without the transaction
  have hparents : ∀ x y, x ∈ edgesOf (AList.erase id
      ((chained.edgesOf id).foldl (fun (edges : TransactionsEdges) chain => edges.unlink chain id)
        pool.parentTransactions)) y ↔
      y ≠ id ∧ x ∈ pool.parentTransactions.edgesOf y ∧ ¬(y ∈ chained.edgesOf id ∧ x = id) := by
    intro x y
    rw [edgesOf_erase]
    split
    · next hy => simp [hy]
    · next hy =>
      rw [mem_edgesOf_foldl_unlink]
      tauto
  have hparentsSub : ∀ x y, _ → x ∈ pool.parentTransactions.edgesOf y ∧ y ≠ id := fun x y hx =>
    ⟨((hparents x y).mp hx).2.1, ((hparents x y).mp hx).1⟩
  have hparentsSup : ∀ x y, x ≠ id → y ≠ id → x ∈ pool.parentTransactions.edgesOf y → _ :=
    fun x y hx hy h => (hparents x y).mpr ⟨hy, h, fun hnot => hx hnot.2⟩
  refine leads_bind_of_outcome (outcome_modify _ _) ?_
  apply leads_get_bind
  cases hid : pool.get id with
  | none =>
    rw [show pool.all.get id = none from hid]
    refine leads_throw ⟨⟨⟨?_, by rw [hid], hedges⟩, hsub, hparentsSub, hparentsSup⟩, rfl⟩
    exact (remove_of_get_eq_none hid).symm
  | some tx =>
    rw [show pool.all.get id = some tx from hid]
    refine leads_unwrap_bind fun key _ => ?_
    refine leads_unwrap_bind fun frontier _ => ?_
    refine leads_unwrap_bind fun size _ => ?_
    refine leads_bind_of_outcome (outcome_set _ _) ?_
    refine leads_ensure_bind fun _ => ?_
    exact leads_pure ⟨⟨⟨rfl, by rw [hid], hedges⟩, hsub, hparentsSub, hparentsSup⟩, rfl⟩

end

end LapisMonetae.Mining
