import LapisMonetae.Mempool.FrontierTheorems

/-!
# The UTXO set of the pool

The owner index of the UTXO set is exact along all additions and removals of transactions that do
not conflict. Its outputs are those of all pool transactions, spent or not, because an addition does
not delete the outputs that it spends.
-/

namespace LapisMonetae.Mining

open Utxo Tx Program List MempoolUtxoSet AList AssocMap Option MempoolTransactionCollection Pool

/-! ## Loops of the UTXO set -/

namespace MempoolUtxoSet

variable {self : MempoolUtxoSet} {id : Hash} {o : TransactionOutpoint}
  (t : MutableTransaction) (parents : TransactionIdSet)
  (inputs : List (TransactionInput × Option UtxoEntry))

lemma exists_mem_fst {α β : Type} {l : List (α × β)} {l' : List α} (h : l.map Prod.fst = l')
    (P : α → Prop) : (∃ a ∈ l, P a.1) ↔ ∃ x ∈ l', P x := by
  simp [← h]

lemma owner_addInputs (inputs : List TransactionInput) (k : ℕ) :
    ((inputs.zipIdx k).foldl (addInput id) self).outpointOwnerId.lookup o =
      if ∃ input ∈ inputs, input.previousOutpoint = o then some id
      else self.outpointOwnerId.lookup o := by
  refine (foldl_overwrites (fun self : MempoolUtxoSet => self.outpointOwnerId.lookup o)
    (fun _ _ => lookup_insert_ite _ _ _ _) _ _).trans (if_congr ?_ rfl rfl)
  simp only [← exists_mem_fst (zipIdx_map_fst k inputs), eq_comm]

/-- The first loop of an addition drops outputs of the transaction itself. -/
lemma unspent_addInputs (inputs : List (TransactionInput × ℕ)) :
    (inputs.foldl (addInput id) self).poolUnspentOutputs.lookup o =
      if ∃ input ∈ inputs, o = ⟨id, input.2⟩ then none else self.poolUnspentOutputs.lookup o :=
  foldl_overwrites (fun self : MempoolUtxoSet => self.poolUnspentOutputs.lookup o)
    (fun _ _ => lookup_erase_ite _ _ _) _ _

lemma owner_addOutputs (outputs : List (TransactionOutput × ℕ)) :
    (outputs.foldl (addOutput id) self).outpointOwnerId = self.outpointOwnerId := by
  apply foldl_keeps outpointOwnerId
  exact fun _ _ _ => rfl

/-- The outputs that an addition records, from index `k` on. -/
lemma unspent_addOutputs (outputs : List TransactionOutput) (k : ℕ) :
    ((outputs.zipIdx k).foldl (addOutput id) self).poolUnspentOutputs.lookup o =
      ((if o.transactionId = id ∧ k ≤ o.index then outputs[o.index - k]? else none).map
        unacceptedEntry).or (self.poolUnspentOutputs.lookup o) := by
  induction outputs generalizing k self with
  | nil => simp
  | cons output outputs ih =>
    rw [zipIdx_cons, foldl_cons, ih]
    have hround : (addOutput id self (output, k)).poolUnspentOutputs =
        self.poolUnspentOutputs.insert ⟨id, k⟩ (unacceptedEntry output) := rfl
    rw [hround]
    by_cases ho : o = ⟨id, k⟩
    · subst ho
      rw [lookup_insert]
      simp
    · rw [lookup_insert_ne ho]
      by_cases hid : o.transactionId = id
      · have hk : o.index ≠ k := fun hk => ho (by cases o; simp_all)
        by_cases hle : k + 1 ≤ o.index
        · have hsub : o.index - k = o.index - (k + 1) + 1 := by omega
          rw [if_pos ⟨hid, hle⟩, if_pos ⟨hid, by omega⟩, hsub, List.getElem?_cons_succ]
        · rw [if_neg fun h => hle h.2, if_neg fun h => by omega]
      · rw [if_neg fun h => hid h.1, if_neg fun h => hid h.1]

lemma owner_addTransaction : (self.addTransaction t).outpointOwnerId.lookup o =
      if ∃ input ∈ t.tx.inputs, input.previousOutpoint = o then some t.id
      else self.outpointOwnerId.lookup o := by
  rw [addTransaction, owner_addOutputs, owner_addInputs]

lemma unspent_addTransaction_of_ne (ho : o.transactionId ≠ t.id) :
    (self.addTransaction t).poolUnspentOutputs.lookup o =
      self.poolUnspentOutputs.lookup o := by
  rw [addTransaction, unspent_addOutputs, if_neg fun h => ho h.1, unspent_addInputs, if_neg]
  · rfl
  · rintro ⟨input, -, rfl⟩
    exact ho rfl

lemma unspent_addTransaction_self (i : ℕ) : (t.tx.outputs[i]?).isSome →
    (self.addTransaction t).poolUnspentOutputs.lookup ⟨t.id, i⟩ =
      (t.tx.outputs[i]?).map unacceptedEntry := by
  intro hi
  obtain ⟨output, houtput⟩ := isSome_iff_exists.mp hi
  rw [addTransaction, unspent_addOutputs]
  simp [houtput]

lemma owner_removeInputs : (inputs.foldl (removeInput parents) self).outpointOwnerId.lookup o =
      if ∃ input ∈ inputs, input.1.previousOutpoint = o then none
      else self.outpointOwnerId.lookup o := by
  refine (foldl_overwrites (fun self : MempoolUtxoSet => self.outpointOwnerId.lookup o)
    (fun _ _ => lookup_erase_ite _ _ _) _ _).trans (if_congr ?_ rfl rfl)
  simp only [eq_comm]

/-- The first loop of a removal only adds outputs. -/
lemma unspent_removeInputs (h : (self.poolUnspentOutputs.lookup o).isSome) :
    ((inputs.foldl (removeInput parents) self).poolUnspentOutputs.lookup o).isSome := by
  induction inputs generalizing self with
  | nil => exact h
  | cons input inputs ih =>
    rw [foldl_cons]
    apply ih
    unfold removeInput
    split
    · next entry _ =>
      split
      · rw [lookup_insert_ite]
        split
        · rfl
        · exact h
      · exact h
    · exact h

/-- What the first loop of a removal restores may be recorded already. -/
lemma unspent_removeInputs_of_recorded (h : ∀ input ∈ inputs, ∀ entry, input.2 = some entry →
      input.1.previousOutpoint.transactionId ∈ parents →
      self.poolUnspentOutputs.lookup input.1.previousOutpoint = some entry) :
    (inputs.foldl (removeInput parents) self).poolUnspentOutputs.lookup o =
      self.poolUnspentOutputs.lookup o := by
  induction inputs generalizing self with
  | nil => rfl
  | cons input inputs ih =>
    obtain ⟨hinput, hinputs⟩ := forall_mem_cons.mp h
    have hround : ∀ o, (removeInput parents self input).poolUnspentOutputs.lookup o =
        self.poolUnspentOutputs.lookup o := by
      intro o
      unfold removeInput
      split
      · next entry hentry =>
        split
        · next hparent =>
          rw [lookup_insert_ite]
          split
          · next ho => rw [ho, hinput entry hentry (contains_iff_mem.mp hparent)]
          · rfl
        · rfl
      · rfl
    rw [foldl_cons, ih, hround]
    intro input' hinput' entry hentry hparent
    rw [hround]
    exact hinputs input' hinput' entry hentry hparent

lemma owner_removeOutputs (indices : List ℕ) :
    (indices.foldl (removeOutput id) self).outpointOwnerId = self.outpointOwnerId := by
  apply foldl_keeps outpointOwnerId
  exact fun _ _ _ => rfl

lemma unspent_removeOutputs (indices : List ℕ) :
    (indices.foldl (removeOutput id) self).poolUnspentOutputs.lookup o =
      if o.transactionId = id ∧ o.index ∈ indices then none
      else self.poolUnspentOutputs.lookup o := by
  refine (foldl_overwrites (fun self : MempoolUtxoSet => self.poolUnspentOutputs.lookup o)
    (fun _ _ => lookup_erase_ite _ _ _) _ _).trans (if_congr ?_ rfl rfl)
  constructor
  · rintro ⟨i, hi, rfl⟩
    exact ⟨rfl, hi⟩
  · rintro ⟨rfl, hi⟩
    exact ⟨o.index, hi, rfl⟩

lemma owner_removeTransaction :
    (self.removeTransaction t parents).outpointOwnerId.lookup o =
      if ∃ input ∈ t.tx.inputs, input.previousOutpoint = o then none
      else self.outpointOwnerId.lookup o := by
  rw [removeTransaction, owner_removeOutputs, owner_removeInputs]
  have hfst := map_fst_zip (Nat.le_of_eq t.length_entries.symm)
  exact if_congr (exists_mem_fst hfst fun input => input.previousOutpoint = o) rfl rfl

end MempoolUtxoSet

/-! ## What the UTXO set records -/

/-- A pool transaction spends the outpoint. -/
def Spends (pool : Pool) (id : Hash) (o : TransactionOutpoint) : Prop :=
  ∃ tx, pool.get id = some tx ∧ ∃ input ∈ tx.mtx.tx.inputs, input.previousOutpoint = o

/-- The outpoint is an output of a pool transaction, which has the entry. -/
def Creates (pool : Pool) (o : TransactionOutpoint) (entry : UtxoEntry) : Prop :=
  ∃ tx output, pool.get o.transactionId = some tx ∧ tx.mtx.tx.outputs[o.index]? = some output ∧
    entry = unacceptedEntry output

/-- The owner index holds the pool transaction that spends an outpoint, and nothing else. -/
def OwnersExact (utxoSet : MempoolUtxoSet) (pool : Pool) : Prop :=
  ∀ o id, utxoSet.outpointOwnerId.lookup o = some id ↔ Spends pool id o

/-- The recorded outputs are those of pool transactions that no pool transaction spends. -/
def UnspentExact (utxoSet : MempoolUtxoSet) (pool : Pool) : Prop :=
  ∀ o entry, utxoSet.poolUnspentOutputs.lookup o = some entry ↔
    Creates pool o entry ∧ ∀ id, ¬Spends pool id o

/-- No pool transaction spends an output of a pool transaction. -/
def Unchained (pool : Pool) : Prop := ∀ o entry id, Creates pool o entry → ¬Spends pool id o

/-- A transaction that is added shares no outpoint with a pool transaction. -/
def PoolOp.NonConflicting (pool : Pool) : PoolOp → Prop
  | .add t => ∀ input ∈ t.mtx.tx.inputs, ∀ id,
    ¬Spends pool id input.previousOutpoint
  | _ => True

/-- A transaction that is added has the entries of the pool outputs that it spends, and no pool
transaction spends one of its outputs. -/
def PoolOp.AddsPopulated (pool : Pool) : PoolOp → Prop
  | .add t => Unspent pool t.id ∧
    ∀ input ∈ t.mtx.tx.inputs.zip t.mtx.entries,
      pool.has input.1.previousOutpoint.transactionId →
      ∃ entry, input.2 = some entry ∧ Creates pool input.1.previousOutpoint entry
  | _ => True

/-- The inputs of a transaction that is added name neither a pool transaction nor itself, and no pool
transaction names it. -/
def PoolOp.AddsUnchained (pool : Pool) : PoolOp → Prop
  | .add t => Unspent pool t.id ∧
    ∀ id, pool.has id ∨ id = t.id → ¬t.mtx.hasParent id
  | _ => True

section
variable {F : Type} [LinearOrder F] {ctx : Context F} {pool pool' : TransactionsPool F}
  {t : MempoolTransaction} {id : Hash} {o : TransactionOutpoint} {entry : UtxoEntry}

lemma not_has_iff : ¬pool.has id ↔ pool.get id = none := by
  rw [has_iff, eq_none_iff_forall_ne_some, not_exists]

lemma spends_added (transactionSize : ℕ) (frontier : Frontier F) (hnew : ¬pool.has t.id) :
    Spends (added pool t transactionSize frontier) id o ↔
      Spends pool id o ∨
        (id = t.id ∧ ∃ input ∈ t.mtx.tx.inputs, input.previousOutpoint = o) := by
  unfold Spends
  simp only [get_added]
  split
  · next hid =>
    subst hid
    simp [not_has_iff.mp hnew]
  · next hid => simp [hid]

lemma creates_added (transactionSize : ℕ) (frontier : Frontier F)
    (hnew : ¬pool.has t.id) :
    Creates (added pool t transactionSize frontier) o entry ↔
      Creates pool o entry ∨ (o.transactionId = t.id ∧
        (t.mtx.tx.outputs[o.index]?).map unacceptedEntry = some entry) := by
  unfold Creates
  simp only [get_added, map_eq_some_iff]
  split
  · next hid =>
    rw [hid]
    simp [not_has_iff.mp hnew, eq_comm]
  · next hid => simp [hid]

lemma Removed.spends_iff (h : Removed id pool pool') (x : Hash) :
    Spends pool' x o ↔ Spends pool x o ∧ x ≠ id := by
  unfold Spends
  simp only [h.get]
  split
  · next hx => simp [hx]
  · next hx => simp [hx]

lemma Removed.creates_iff (h : Removed id pool pool') :
    Creates pool' o entry ↔ Creates pool o entry ∧ o.transactionId ≠ id := by
  unfold Creates
  simp only [h.get]
  split
  · next hx => simp [hx]
  · next hx => simp [hx]

/-! ## Invariants of runs -/

/-- What additions and removals keep holds of all pools that operations lead to. -/
lemma invariant_of_reached {allowed : Pool → PoolOp → Prop} {I : TransactionsPool F → Prop}
    (hnew : I .new) (hadd : ∀ pool t size frontier, I pool → ¬pool.has t.id →
      allowed pool (.add t) → I (added pool t size frontier))
    (hremove : ∀ pool pool' id, I pool → Detached id pool pool' → I pool')
    (h : Reached ctx allowed pool) : I pool := by
  have hremoveAll : ∀ ids pool, I pool → Leads (removeAll ctx ids) pool fun _ pool' => I pool' := by
    intro ids
    induction ids with
    | nil => exact fun pool hI => leads_pure hI
    | cons id ids ih =>
      intro pool hI
      refine (removeTransaction_leads id pool).bind ?_ ?_
      · exact fun tx pool₁ h₁ => ih pool₁ (hremove pool pool₁ id hI h₁.1)
      · exact fun e pool₁ h₁ => hremove pool pool₁ id hI h₁.1
  induction h with
  | new => exact hnew
  | @step pool pool' op r _ hallowed hexec ih =>
    cases op with
    | add t =>
      obtain ⟨hfresh, size, frontier, rfl⟩ := added_of_exec hexec
      exact hadd pool t size frontier ih hfresh hallowed
    | remove id => exact hremoveAll [id] pool ih r pool' hexec
    | removeWithRedeemers id => exact hremoveAll _ pool ih r pool' hexec

/-! ## The owner index -/

lemma ownersExact_new : OwnersExact (.new : MempoolUtxoSet) (.new : TransactionsPool F) :=
  fun _ _ => ⟨fun h => (nomatch h), fun ⟨_, h, _⟩ => (nomatch h)⟩

lemma OwnersExact.add (h : OwnersExact pool.utxoSet pool) (hnew : ¬pool.has t.id)
    (hconflict : PoolOp.NonConflicting pool (.add t)) (size : ℕ) (frontier : Frontier F) :
    OwnersExact (added pool t size frontier).utxoSet
      (added pool t size frontier) := by
  intro o x
  show (pool.utxoSet.addTransaction t.mtx).outpointOwnerId.lookup o = some x ↔ _
  rw [owner_addTransaction, spends_added size frontier hnew]
  split
  · next hspent =>
    constructor
    · intro hx
      exact .inr ⟨(some.inj hx).symm, hspent⟩
    · rintro (hx | ⟨rfl, -⟩)
      · obtain ⟨input, hinput, rfl⟩ := hspent
        exact absurd hx (hconflict input hinput x)
      · rfl
  · next hspent =>
    rw [h]
    exact ⟨.inl, fun hx => hx.resolve_right fun hx => hspent hx.2⟩

lemma OwnersExact.remove (h : OwnersExact pool.utxoSet pool) (hr : Removed id pool pool') :
    OwnersExact pool'.utxoSet pool' := by
  intro o x
  rw [hr.spends_iff, ← h, hr.utxoSet]
  cases hid : pool.get id with
  | none =>
    constructor
    · intro hx
      refine ⟨hx, ?_⟩
      rintro rfl
      obtain ⟨tx, htx, -⟩ := (h o x).mp hx
      rw [hid] at htx
      cases htx
    · exact And.left
  | some tx =>
    rw [owner_removeTransaction]
    split
    · next hspent =>
      -- the transaction is the only one that spends the outpoint
      have howner := (h o id).mpr ⟨tx, hid, hspent⟩
      rw [howner]
      constructor
      · exact fun hx => nomatch hx
      · rintro ⟨hx, hne⟩
        exact absurd (some.inj hx).symm hne
    · next hspent =>
      constructor
      · intro hx
        refine ⟨hx, ?_⟩
        rintro rfl
        obtain ⟨tx', htx', hspends⟩ := (h o x).mp hx
        rw [hid] at htx'
        cases htx'
        exact hspent hspends
      · exact And.left

/-! ## The recorded outputs -/

/-- All outputs of pool transactions are recorded. -/
def Records (utxoSet : MempoolUtxoSet) (pool : Pool) : Prop :=
  ∀ o entry, Creates pool o entry → (utxoSet.poolUnspentOutputs.lookup o).isSome

lemma ne_of_creates (hnew : ¬pool.has id) (h : Creates pool o entry) : o.transactionId ≠ id := by
  rintro rfl
  obtain ⟨tx, output, htx, -⟩ := h
  exact hnew (has_iff.mpr ⟨tx, htx⟩)

lemma Records.add (h : Records pool.utxoSet pool) (hnew : ¬pool.has t.id)
    (size : ℕ) (frontier : Frontier F) : Records (added pool t size frontier).utxoSet
      (added pool t size frontier) := by
  intro o entry hcreates
  show ((pool.utxoSet.addTransaction t.mtx).poolUnspentOutputs.lookup o).isSome
  rcases (creates_added size frontier hnew).mp hcreates with hold | ⟨hid, hentry⟩
  · rw [unspent_addTransaction_of_ne _ (ne_of_creates hnew hold)]
    exact h o entry hold
  · obtain ⟨output, houtput, -⟩ := map_eq_some_iff.mp hentry
    rcases o with ⟨x, i⟩
    subst hid
    have hi : (t.mtx.tx.outputs[i]?).isSome := by
      rw [houtput]
      rfl
    have hself : AList.lookup (⟨t.id, i⟩ : TransactionOutpoint) _ = _ :=
      pool.utxoSet.unspent_addTransaction_self t.mtx i hi
    rw [hself, hentry]
    rfl

lemma Records.remove (h : Records pool.utxoSet pool) (hr : Removed id pool pool') :
    Records pool'.utxoSet pool' := by
  intro o entry hcreates
  obtain ⟨hcreates, hne⟩ := hr.creates_iff.mp hcreates
  rw [hr.utxoSet]
  cases hid : pool.get id with
  | none => exact h o entry hcreates
  | some tx =>
    have htx : tx.mtx.id = id := id_of_get hid
    dsimp only
    rw [removeTransaction, unspent_removeOutputs, htx, if_neg fun hdel => hne hdel.1]
    exact unspent_removeInputs _ _ (h o entry hcreates)

/-- The recorded outputs are those of all pool transactions, and the entries of pool transactions
agree with them. -/
structure RecordsExactly (utxoSet : MempoolUtxoSet) (pool : Pool) : Prop where
  lookup : ∀ o entry, utxoSet.poolUnspentOutputs.lookup o = some entry ↔ Creates pool o entry
  entries : ∀ x tx, pool.get x = some tx → ∀ input ∈ tx.mtx.tx.inputs.zip tx.mtx.entries,
    pool.has input.1.previousOutpoint.transactionId →
    input.1.previousOutpoint.transactionId ≠ x →
    ∃ entry, input.2 = some entry ∧ Creates pool input.1.previousOutpoint entry

lemma recordsExactly_new : RecordsExactly (.new : MempoolUtxoSet) (.new : TransactionsPool F) where
  lookup := fun _ _ => ⟨fun h => (nomatch h), fun ⟨_, _, h, _⟩ => (nomatch h)⟩
  entries := fun _ _ h => nomatch h

lemma RecordsExactly.add (h : RecordsExactly pool.utxoSet pool) (hnew : ¬pool.has t.id)
    (hadds : PoolOp.AddsPopulated pool (.add t)) (size : ℕ) (frontier : Frontier F) :
    RecordsExactly (added pool t size frontier).utxoSet
      (added pool t size frontier) := by
  obtain ⟨hunspent, hentries⟩ := hadds
  constructor
  case lookup =>
    intro o entry
    show (pool.utxoSet.addTransaction t.mtx).poolUnspentOutputs.lookup o = some entry ↔ _
    rw [creates_added size frontier hnew]
    by_cases hid : o.transactionId = t.id
    · have hnone : ¬Creates pool o entry := fun hc => ne_of_creates hnew hc hid
      have hlookup : pool.utxoSet.poolUnspentOutputs.lookup o = none := by
        rw [eq_none_iff_forall_ne_some]
        exact fun entry' he => ne_of_creates hnew ((h.lookup o entry').mp he) hid
      rw [addTransaction, unspent_addOutputs, unspent_addInputs, hlookup, ite_self, or_none,
        if_pos ⟨hid, Nat.zero_le _⟩, Nat.sub_zero]
      exact ⟨fun he => .inr ⟨hid, he⟩, fun he => (he.resolve_left hnone).2⟩
    · rw [unspent_addTransaction_of_ne _ hid, h.lookup]
      exact ⟨.inl, fun he => he.resolve_right fun he => hid he.1⟩
  case entries =>
    intro x tx htx input hinput hhas hne
    have hcreates : ∀ entry, Creates pool input.1.previousOutpoint entry →
        Creates (added pool t size frontier) input.1.previousOutpoint entry :=
      fun entry hc => (creates_added size frontier hnew).mpr (.inl hc)
    -- the transaction named by the input was in the pool before
    have hold : input.1.previousOutpoint.transactionId ≠ t.id →
        pool.has input.1.previousOutpoint.transactionId := by
      intro hid
      obtain ⟨parent, hparent⟩ := has_iff.mp hhas
      rw [get_added, if_neg hid] at hparent
      exact has_iff.mpr ⟨parent, hparent⟩
    rw [get_added] at htx
    split at htx
    · next hx =>
      cases htx
      obtain ⟨entry, he, hc⟩ := hentries input hinput (hold (hx ▸ hne))
      exact ⟨entry, he, hcreates entry hc⟩
    · next hx =>
      have hid : input.1.previousOutpoint.transactionId ≠ t.id := by
        intro hid
        apply hunspent x tx htx
        exact MutableTransaction.hasParent_iff.mpr ⟨input.1, (of_mem_zip hinput).1, hid⟩
      obtain ⟨entry, he, hc⟩ := h.entries x tx htx input hinput (hold hid) hne
      exact ⟨entry, he, hcreates entry hc⟩

lemma RecordsExactly.remove (h : RecordsExactly pool.utxoSet pool)
    (hr : Removed id pool pool') : RecordsExactly pool'.utxoSet pool' := by
  have hhas : ∀ x, pool'.has x → x ≠ id ∧ pool.has x := by
    intro x hx
    obtain ⟨tx, htx⟩ := has_iff.mp hx
    rw [hr.get] at htx
    split at htx
    · cases htx
    · next hne => exact ⟨hne, has_iff.mpr ⟨tx, htx⟩⟩
  constructor
  case lookup =>
    intro o entry
    rw [hr.creates_iff, ← h.lookup, hr.utxoSet]
    cases hid : pool.get id with
    | none =>
      refine ⟨fun he => ⟨he, ?_⟩, And.left⟩
      exact ne_of_creates (not_has_iff.mpr hid) ((h.lookup o entry).mp he)
    | some tx =>
      have htx : tx.mtx.id = id := id_of_get hid
      have hrestored : ∀ input ∈ tx.mtx.tx.inputs.zip tx.mtx.entries, ∀ entry,
          input.2 = some entry → input.1.previousOutpoint.transactionId ∈
            pool'.getParentTransactionIdsInPool tx.mtx →
          pool.utxoSet.poolUnspentOutputs.lookup input.1.previousOutpoint = some entry := by
        intro input hinput entry hentry hparent
        obtain ⟨hne, hparent⟩ := hhas _ (mem_getParentTransactionIdsInPool.mp hparent).1
        obtain ⟨entry', hentry', hc⟩ := h.entries id tx hid input hinput hparent hne
        rw [hentry] at hentry'
        cases hentry'
        exact (h.lookup _ _).mpr hc
      dsimp only
      rw [removeTransaction, unspent_removeOutputs, htx,
        unspent_removeInputs_of_recorded _ _ hrestored]
      split
      · next hdel => exact ⟨fun he => (nomatch he), fun he => absurd hdel.1 he.2⟩
      · next hdel =>
        refine ⟨fun he => ⟨he, fun ho => hdel ⟨ho, ?_⟩⟩, And.left⟩
        -- a recorded output of the transaction has an index below the number of its outputs
        obtain ⟨tx', output, htx', houtput, -⟩ := (h.lookup o entry).mp he
        rw [ho, hid] at htx'
        cases htx'
        obtain ⟨hlt, -⟩ := List.getElem?_eq_some_iff.mp houtput
        exact mem_range.mpr hlt
  case entries =>
    intro x tx htx input hinput hparent hne
    obtain ⟨hpid, hparent⟩ := hhas _ hparent
    rw [hr.get] at htx
    split at htx
    · cases htx
    · obtain ⟨entry, he, hc⟩ := h.entries x tx htx input hinput hparent hne
      exact ⟨entry, he, hr.creates_iff.mpr ⟨hc, hpid⟩⟩

/-! ## Runs -/

/-- Where nothing is chained, no entry has to be carried. -/
lemma PoolOp.AddsUnchained.addsPopulated {pool : Pool} {op : PoolOp} (h : op.AddsUnchained pool) :
    op.AddsPopulated pool := by
  cases op with
  | add t =>
    refine ⟨h.1, fun input hinput hhas => absurd ?_ (h.2 _ (.inl hhas))⟩
    exact MutableTransaction.hasParent_iff.mpr ⟨input.1, (of_mem_zip hinput).1, rfl⟩
  | remove _ => trivial
  | removeWithRedeemers _ => trivial

lemma Reached.mono {allowed allowed' : Pool → PoolOp → Prop} (h : Reached ctx allowed pool)
    (hle : ∀ pool op, allowed pool op → allowed' pool op) : Reached ctx allowed' pool := by
  induction h with
  | new => exact .new
  | step _ hallowed hexec ih => exact ih.step (hle _ _ hallowed) hexec

/-- Along additions that are not chained, no pool transaction names a pool transaction. -/
lemma unchained_of_reached (h : Reached ctx PoolOp.AddsUnchained pool) : Unchained pool.toPool := by
  have hunspent : ∀ id, pool.has id → Unspent pool.toPool id := by
    apply invariant_of_reached (I := fun pool => ∀ id, pool.has id → Unspent pool.toPool id) _ _ _ h
    · exact fun id _ => unspent_new id
    · intro pool t size frontier hI _ hallowed id hid x tx htx
      rw [get_added] at htx
      split at htx
      · cases htx
        exact hallowed.2 id ((has_added size frontier id).mp hid)
      · rcases (has_added size frontier id).mp hid with hid | rfl
        · exact hI id hid x tx htx
        · exact hallowed.1 x tx htx
    · intro pool pool' removed hI hr id hid x tx htx
      obtain ⟨tx', htx'⟩ := has_iff.mp hid
      rw [hr.toRemoved.get] at htx htx'
      split at htx
      · cases htx
      split at htx'
      · cases htx'
      · exact hI id (has_iff.mpr ⟨tx', htx'⟩) x tx htx
  rintro o entry id ⟨tx, output, htx, -⟩ ⟨tx', htx', input, hinput, rfl⟩
  exact hunspent _ (has_iff.mpr ⟨tx, htx⟩) id tx' htx'
    (MutableTransaction.hasParent_iff.mpr ⟨input, hinput, rfl⟩)

/-- Along operations on transactions that do not conflict, the owner index is exact. The recorded
outputs are exactly the unspent ones only where no pool transaction spends an output of a pool
transaction, and then they are if the additions carry the entries of the pool outputs they spend.
They are in every pool that unchained additions lead to. -/
theorem utxoSet_of_reached (h : Reached ctx PoolOp.NonConflicting pool) :
    OwnersExact pool.utxoSet pool.toPool ∧
    (UnspentExact pool.utxoSet pool.toPool → Unchained pool.toPool) ∧
    (Reached ctx PoolOp.AddsPopulated pool → Unchained pool.toPool →
      UnspentExact pool.utxoSet pool.toPool) ∧
    (Reached ctx PoolOp.AddsUnchained pool → UnspentExact pool.utxoSet pool.toPool) := by
  have hpopulated : Reached ctx PoolOp.AddsPopulated pool → Unchained pool.toPool →
      UnspentExact pool.utxoSet pool.toPool := by
    intro hpopulated hunchained o entry
    have hexact : RecordsExactly pool.utxoSet pool := by
      apply invariant_of_reached recordsExactly_new _ _ hpopulated
      · exact fun pool tx size frontier ho hnew hallowed => ho.add hnew hallowed size frontier
      · exact fun pool pool' id ho hr => ho.remove hr.toRemoved
    rw [hexact.lookup]
    exact ⟨fun hc => ⟨hc, fun id => hunchained o entry id hc⟩, And.left⟩
  refine ⟨?_, ?_, hpopulated, fun hunchained => ?_⟩
  · apply invariant_of_reached ownersExact_new _ _ h
    · exact fun pool tx size frontier ho hnew hallowed => ho.add hnew hallowed size frontier
    · exact fun pool pool' id ho hr => ho.remove hr.toRemoved
  · have hrecords : Records pool.utxoSet pool := by
      apply invariant_of_reached _ _ _ h
      · exact fun o entry ⟨_, _, hnone, _⟩ => nomatch hnone
      · exact fun pool tx size frontier ho hnew _ => ho.add hnew size frontier
      · exact fun pool pool' id ho hr => ho.remove hr.toRemoved
    intro hexact o entry id hcreates hspends
    obtain ⟨entry', he⟩ := isSome_iff_exists.mp (hrecords o entry hcreates)
    exact ((hexact o entry').mp he).2 id hspends
  · exact hpopulated (hunchained.mono fun _ _ => PoolOp.AddsUnchained.addsPopulated)
      (unchained_of_reached hunchained)

end

/-! ## A transaction and its child -/

/-- A transaction that spends another output of consensus. -/
def otherTx : MempoolTransaction := ⟨spending 3 [⟨101, 0⟩] 1000, .low, 7⟩

/-- The pool with `parentTx` and `otherTx`. -/
def pairPool : TransactionsPool ℕ :=
  added parentPool otherTx 100
    (parentPool.readyTransactions.insert (.new natFloat 1000 1000 otherTx.mtx.tx))

lemma pairPool_outcome :
    ((PoolOp.add otherTx).exec openContext).outcome parentPool = some (.ok (), pairPool) :=
  addMempoolTransaction_outcome (by decide) (by decide) rfl

lemma reached_parentPool : Reached openContext PoolOp.NonConflicting parentPool := by
  apply Reached.step .new _ parentPool_outcome
  rintro input hinput id ⟨tx, htx, -⟩
  cases htx

/-- What spends another output does not conflict with `parentTx`. -/
lemma nonConflicting_parentPool {t : MempoolTransaction}
    (h : ∀ input ∈ t.mtx.tx.inputs, input.previousOutpoint ≠ ⟨100, 0⟩) :
    PoolOp.NonConflicting parentPool (.add t) := by
  intro input hinput id hspends
  rcases (spends_added 100 _ (by decide)).mp hspends with ⟨_, hnone, _⟩ | ⟨-, input', hinput', ho⟩
  · cases hnone
  · obtain rfl : input' = ⟨⟨100, 0⟩, [], 0, 0⟩ := mem_singleton.mp hinput'
    exact h input hinput ho.symm

theorem utxoSet_of_reached_pairPool : OwnersExact pairPool.utxoSet pairPool.toPool ∧
      UnspentExact pairPool.utxoSet pairPool.toPool := by
  have hparent : PoolOp.AddsUnchained (.new : TransactionsPool ℕ).toPool (.add parentTx) := by
    refine ⟨unspent_new _, ?_⟩
    rintro id (hid | rfl)
    · cases hid
    · decide
  have hother : PoolOp.AddsUnchained parentPool.toPool (.add otherTx) := by
    refine ⟨(unspent_new _).add (by decide), ?_⟩
    rintro id (hid | rfl)
    · rcases (has_added 100 _ id).mp hid with hid | rfl
      · cases hid
      · decide
    · decide
  obtain ⟨howners, -, -, hunspent⟩ := utxoSet_of_reached
    (reached_parentPool.step (nonConflicting_parentPool (by decide)) pairPool_outcome)
  exact ⟨howners, hunspent (.step (.step .new hparent parentPool_outcome) hother pairPool_outcome)⟩

/-- The child is added while its parent is in the pool: the output that it spends stays
recorded. -/
theorem not_unspentExact_parentTx_childTx :
    ∃ pool, ((PoolOp.add childTx).exec openContext).outcome parentPool = some (.ok (), pool) ∧
      Reached openContext PoolOp.NonConflicting pool ∧
      (pool.utxoSet.poolUnspentOutputs.lookup ⟨1, 0⟩).isSome ∧ Spends pool.toPool 2 ⟨1, 0⟩ ∧
      ¬UnspentExact pool.utxoSet pool.toPool := by
  have hrecorded : familyPool.utxoSet.poolUnspentOutputs.lookup ⟨1, 0⟩ =
      some (unacceptedEntry ⟨50000, ⟨0, [0x51]⟩⟩) := by
    decide
  have hspent : Spends familyPool.toPool 2 ⟨1, 0⟩ :=
    ⟨childTx, rfl, ⟨⟨1, 0⟩, [], 0, 0⟩, mem_singleton.mpr rfl, rfl⟩
  refine ⟨familyPool, familyPool_outcome, reached_parentPool.step
    (nonConflicting_parentPool (by decide)) familyPool_outcome, by rw [hrecorded]; rfl, hspent, ?_⟩
  intro hexact
  exact ((hexact _ _).mp hrecorded).2 2 hspent

end LapisMonetae.Mining
