import LapisMonetae.Mempool.Mempool
import LapisMonetae.Mempool.FrontierTheorems

/-!
# The population of a transaction

Before consensus validates a transaction, its entries are filled from the transactions pool. This
ends without a panic exactly if the transaction is refused before, or if every input that names a
pool transaction names one of its outputs.
-/

namespace LapisMonetae.Mining

open Utxo Tx Program Script List

/-! ## Double spends -/

/-- Another transaction owns an outpoint that the transaction spends. -/
def DoubleSpent (utxoSet : MempoolUtxoSet) (t : MutableTransaction) (owner : Hash) :
    Prop :=
  ∃ input ∈ t.tx.inputs,
    utxoSet.getOutpointOwnerId input.previousOutpoint = some owner ∧ owner ≠ t.id

namespace MempoolUtxoSet

variable {self : MempoolUtxoSet} {t : MutableTransaction} {owner : Hash}
variable {id : Hash} {input : TransactionInput}

lemma doubleSpendOf_eq_some {doubleSpend : DoubleSpend} :
    self.doubleSpendOf id input = some doubleSpend ↔
      self.getOutpointOwnerId input.previousOutpoint = some doubleSpend.ownerId ∧
        doubleSpend.ownerId ≠ id ∧ doubleSpend.outpoint = input.previousOutpoint := by
  unfold doubleSpendOf
  rcases doubleSpend with ⟨outpoint, ownerId⟩
  cases self.getOutpointOwnerId input.previousOutpoint with
  | none => simp
  | some x =>
    by_cases hx : x = id
    · simp only [hx, ne_eq, not_true_eq_false, if_false, Option.some.injEq]
      constructor
      · exact fun h => nomatch h
      · rintro ⟨rfl, hne, -⟩
        exact absurd rfl hne
    · simp only [ne_eq, hx, not_false_eq_true, if_true, Option.some.injEq, DoubleSpend.mk.injEq]
      constructor
      · rintro ⟨rfl, rfl⟩
        exact ⟨rfl, hx, rfl⟩
      · rintro ⟨rfl, -, rfl⟩
        exact ⟨rfl, rfl⟩

lemma doubleSpendOf_eq_none : self.doubleSpendOf id input = none ↔
      ∀ owner, self.getOutpointOwnerId input.previousOutpoint = some owner → owner = id := by
  rw [Option.eq_none_iff_forall_ne_some]
  constructor
  · intro h owner howner
    by_contra hne
    exact h ⟨input.previousOutpoint, owner⟩ (doubleSpendOf_eq_some.mpr ⟨howner, hne, rfl⟩)
  · intro h doubleSpend hspend
    obtain ⟨howner, hne, -⟩ := doubleSpendOf_eq_some.mp hspend
    exact hne (h _ howner)

/-- Without a double spend there is none to report. -/
lemma getFirstDoubleSpend_eq_none :
    self.getFirstDoubleSpend t = none ↔ ∀ owner, ¬DoubleSpent self t owner := by
  unfold getFirstDoubleSpend DoubleSpent
  rw [List.findSome?_eq_none_iff]
  constructor
  · rintro h owner ⟨input, hinput, howner, hne⟩
    exact hne (doubleSpendOf_eq_none.mp (h input hinput) owner howner)
  · intro h input hinput
    rw [doubleSpendOf_eq_none]
    intro owner howner
    by_contra hne
    exact h owner ⟨input, hinput, howner, hne⟩

/-- The loop of `get_double_spend_transaction_ids` keeps one double spend for every owner. -/
lemma doubleSpends_foldl (inputs : List TransactionInput) (id : Hash)
    (doubleSpends : List DoubleSpend) (hnodup : (doubleSpends.map DoubleSpend.ownerId).Nodup) :
    let result := inputs.foldl (fun doubleSpends input =>
      match self.doubleSpendOf id input with
      | some doubleSpend =>
        if doubleSpends.any (·.ownerId == doubleSpend.ownerId) then doubleSpends
        else doubleSpends ++ [doubleSpend]
      | none => doubleSpends) doubleSpends
    (result.map DoubleSpend.ownerId).Nodup ∧
    ∀ owner, owner ∈ result.map DoubleSpend.ownerId ↔
      owner ∈ doubleSpends.map DoubleSpend.ownerId ∨ ∃ input ∈ inputs,
        self.getOutpointOwnerId input.previousOutpoint = some owner ∧ owner ≠ id := by
  induction inputs generalizing doubleSpends with
  | nil =>
    refine ⟨hnodup, fun owner => ?_⟩
    simp
  | cons input inputs ih =>
    rw [foldl_cons]
    simp only [exists_mem_cons_iff]
    cases hspend : self.doubleSpendOf id input with
    | none =>
      obtain ⟨hnodup', hmem⟩ := ih doubleSpends hnodup
      refine ⟨hnodup', fun owner => ?_⟩
      have hnone := doubleSpendOf_eq_none.mp hspend owner
      rw [hmem owner]
      tauto
    | some doubleSpend =>
      obtain ⟨howner, hne, -⟩ := doubleSpendOf_eq_some.mp hspend
      have hiff : ∀ owner, (self.getOutpointOwnerId input.previousOutpoint = some owner ∧
          owner ≠ id) ↔ owner = doubleSpend.ownerId := by
        intro owner
        rw [howner, Option.some.injEq]
        constructor
        · exact fun h => h.1.symm
        · rintro rfl
          exact ⟨rfl, hne⟩
      dsimp only
      split
      · next hany =>
        have hin : doubleSpend.ownerId ∈ doubleSpends.map DoubleSpend.ownerId := by
          simpa using hany
        obtain ⟨hnodup', hmem⟩ := ih doubleSpends hnodup
        refine ⟨hnodup', fun owner => ?_⟩
        rw [hmem owner, hiff]
        constructor
        · exact fun h => h.imp_right .inr
        · rintro (h | rfl | h)
          · exact .inl h
          · exact .inl hin
          · exact .inr h
      · next hany =>
        have hout : doubleSpend.ownerId ∉ doubleSpends.map DoubleSpend.ownerId := by
          simpa using hany
        have hnodup₁ : ((doubleSpends ++ [doubleSpend]).map DoubleSpend.ownerId).Nodup := by
          rw [map_append, map_singleton, nodup_append_comm]
          exact nodup_cons.mpr ⟨hout, hnodup⟩
        obtain ⟨hnodup', hmem⟩ := ih _ hnodup₁
        refine ⟨hnodup', fun owner => ?_⟩
        rw [hmem owner, hiff, map_append, mem_append, map_singleton, mem_singleton, or_assoc]

/-- The double spends have exactly the owners of the outpoints, each one once. -/
lemma getDoubleSpendTransactionIds_spec :
    ((self.getDoubleSpendTransactionIds t).map DoubleSpend.ownerId).Nodup ∧
    ∀ owner, owner ∈ (self.getDoubleSpendTransactionIds t).map DoubleSpend.ownerId ↔
      DoubleSpent self t owner := by
  obtain ⟨hnodup, hmem⟩ := self.doubleSpends_foldl t.tx.inputs t.id []
    nodup_nil
  refine ⟨hnodup, fun owner => (hmem owner).trans ?_⟩
  simp [DoubleSpent]

end MempoolUtxoSet

/-! ## Standard transactions -/

section
variable {F : Type} (ctx : Context F) {σ : Type}
variable {t : MutableTransaction}

/-- What a standard transaction is in isolation. -/
structure Standard (t : Transaction) : Prop where
  le_version : ctx.config.minimumStandardTransactionVersion ≤ t.version
  version_le : t.version ≤ ctx.config.maximumStandardTransactionVersion
  computeMass : (ctx.calculateTransactionNonContextualMasses t).computeMass ≤
    maximumStandardTransactionMass
  transientMass : (ctx.calculateTransactionNonContextualMasses t).transientMass ≤
    maximumStandardTransactionMass
  inputs : ∀ input ∈ t.inputs,
    input.signatureScript.length ≤ maximumStandardSignatureScriptSize
  outputs : ∀ output ∈ t.outputs,
    output.scriptPublicKey.version ≤ maxScriptPublicKeyVersion ∧
    ScriptClass.fromScript output.scriptPublicKey ≠ .nonStandard ∧
    ¬isTransactionOutputDust ctx output

lemma findSome?_zipIdx_eq_none {α β : Type} {l : List α} {f : α × ℕ → Option β} {P : α → Prop}
    (hf : ∀ a i, f (a, i) = none ↔ P a) : l.zipIdx.findSome? f = none ↔ ∀ a ∈ l, P a := by
  rw [List.findSome?_eq_none_iff]
  constructor
  · intro h a ha
    obtain ⟨i, hi, hget⟩ := mem_iff_getElem.mp ha
    exact (hf a i).mp (h (a, i) (mem_zipIdx_iff_getElem?.mpr (by simp [hi, hget])))
  · rintro h ⟨a, i⟩ hai
    exact (hf a i).mpr (h a (fst_mem_of_mem_zipIdx hai))

lemma isolatedError_eq_none : isolatedError ctx t = none ↔
      (∀ input ∈ t.tx.inputs,
        input.signatureScript.length ≤ maximumStandardSignatureScriptSize) ∧
      ∀ output ∈ t.tx.outputs,
        output.scriptPublicKey.version ≤ maxScriptPublicKeyVersion ∧
        ScriptClass.fromScript output.scriptPublicKey ≠ .nonStandard ∧
        ¬isTransactionOutputDust ctx output := by
  unfold isolatedError
  rw [Option.or_eq_none_iff]
  apply and_congr
  · apply findSome?_zipIdx_eq_none
    intro input i
    unfold isolatedInputError
    split <;> simp_all
  · apply findSome?_zipIdx_eq_none
    intro output i
    unfold isolatedOutputError
    split
    · next h => simp [UInt16.not_le.mpr h]
    · split
      · next h => simp [h]
      · split <;> simp_all

/-- The check in isolation fails exactly for transactions that are not standard. -/
lemma checkTransactionStandardInIsolation_outcome
    (hmasses : t.calculatedNonContextualMasses =
      some (ctx.calculateTransactionNonContextualMasses t.tx))
    (s : σ) : ∃ r, (checkTransactionStandardInIsolation ctx t).outcome s = some (r, s) ∧
      (r = .ok () ↔ Standard ctx t.tx) := by
  unfold checkTransactionStandardInIsolation
  dsimp only
  split
  · next hversion =>
    refine ⟨_, rfl, fun h => (nomatch h), fun h => ?_⟩
    exact absurd hversion (not_or.mpr ⟨Nat.not_lt.mpr h.version_le, Nat.not_lt.mpr h.le_version⟩)
  · next hversion =>
    rw [hmasses, outcome_bind_ok (outcome_unwrap_some _ s)]
    split
    · next hmass => exact ⟨_, rfl, fun h => (nomatch h), fun h => absurd h.computeMass (by omega)⟩
    · next hcompute =>
      split
      · next hmass =>
        exact ⟨_, rfl, fun h => (nomatch h), fun h => absurd h.transientMass (by omega)⟩
      · next htransient =>
        cases herror : isolatedError ctx t with
        | some error =>
          refine ⟨_, rfl, fun h => (nomatch h), fun h => ?_⟩
          have hnone := (isolatedError_eq_none ctx).mpr ⟨h.inputs, h.outputs⟩
          rw [herror] at hnone
          cases hnone
        | none =>
          obtain ⟨hinputs, houtputs⟩ := (isolatedError_eq_none ctx).mp herror
          exact ⟨_, rfl, fun _ => ⟨by omega, by omega, by omega, by omega, hinputs, houtputs⟩,
            fun _ => rfl⟩

end

/-! ## Refusals -/

section
variable {F : Type} [LinearOrder F] (ctx : Context F)

/-- The pool transaction `owner` has a feerate. -/
def HasFeerate (pool : Pool) (owner : Hash) : Prop :=
  ∃ tx, pool.get owner = some tx ∧ (tx.mtx.calculatedFeerate ctx.float).isSome

/-- The transaction does not meet the conditions of the replacement policy. -/
def RbfRefuses (mp : Mempool F) (t : MutableTransaction) : RbfPolicy → Prop
  | .forbidden => ∃ owner, DoubleSpent mp.transactionPool.utxoSet t owner
  | .allowed => ∃ owner, DoubleSpent mp.transactionPool.utxoSet t owner ∧
    ¬HasFeerate ctx mp.transactionPool.toPool owner
  | .mandatory => ¬∃ owner, (∀ o, DoubleSpent mp.transactionPool.utxoSet t o ↔
    o = owner) ∧ HasFeerate ctx mp.transactionPool.toPool owner

/-- The transaction is refused before its entries are filled. -/
def Refused (mp : Mempool F) (t : MutableTransaction) (rbfPolicy : RbfPolicy) :
    Prop :=
  mp.acceptedTransactions.has t.id ∨
  mp.transactionPool.has t.id ∨
  (¬ctx.config.acceptNonStandard ∧ ¬Standard ctx t.tx) ∨
  RbfRefuses ctx mp t rbfPolicy

section
variable {ctx} {mp : Mempool F} {t : MutableTransaction}
variable {done rest : List (Option UtxoEntry)} {input : TransactionInput}

lemma getDoubleSpendFeerate_ok_iff {doubleSpend : DoubleSpend} :
    (∃ feerate, mp.getDoubleSpendFeerate ctx doubleSpend = .ok feerate) ↔
      HasFeerate ctx mp.transactionPool doubleSpend.ownerId := by
  unfold Mempool.getDoubleSpendFeerate TransactionsPool.getDoubleSpendOwner HasFeerate
  cases hget : mp.transactionPool.get doubleSpend.ownerId with
  | none => simp [bind, Except.bind]
  | some tx => cases hrate : tx.mtx.calculatedFeerate ctx.float <;> simp [bind, Except.bind, hrate]

lemma maxDoubleSpendFeerate_ok_iff (feerateThreshold : F) (doubleSpends : List DoubleSpend) :
    (∃ feerate, mp.maxDoubleSpendFeerate ctx feerateThreshold doubleSpends = .ok feerate) ↔
      ∀ owner ∈ doubleSpends.map DoubleSpend.ownerId,
        HasFeerate ctx mp.transactionPool owner := by
  induction doubleSpends generalizing feerateThreshold with
  | nil => simp [Mempool.maxDoubleSpendFeerate]
  | cons doubleSpend doubleSpends ih =>
    rw [map_cons, forall_mem_cons, ← getDoubleSpendFeerate_ok_iff]
    unfold Mempool.maxDoubleSpendFeerate
    cases mp.getDoubleSpendFeerate ctx doubleSpend with
    | error e => simp [bind, Except.bind]
    | ok feerate => simp [bind, Except.bind, ih]

/-- The replacement constraint exists exactly for transactions that the policy does not refuse. -/
lemma getReplaceByFeeConstraint_ok_iff (rbfPolicy : RbfPolicy) :
    (∃ constraint, mp.getReplaceByFeeConstraint ctx t rbfPolicy = .ok constraint) ↔
      ¬RbfRefuses ctx mp t rbfPolicy := by
  obtain ⟨hnodup, howners⟩ := @MempoolUtxoSet.getDoubleSpendTransactionIds_spec
    mp.transactionPool.utxoSet t
  unfold Mempool.getReplaceByFeeConstraint RbfRefuses
  cases rbfPolicy with
  | forbidden =>
    dsimp only
    rw [not_exists, ← MempoolUtxoSet.getFirstDoubleSpend_eq_none, MempoolUtxoSet.checkDoubleSpends]
    cases mp.transactionPool.utxoSet.getFirstDoubleSpend t <;>
      simp [bind, Except.bind, pure, Except.pure]
  | allowed =>
    dsimp only
    have hall : (¬∃ owner, DoubleSpent mp.transactionPool.utxoSet t owner ∧
        ¬HasFeerate ctx mp.transactionPool owner) ↔
        ∃ feerate, mp.maxDoubleSpendFeerate ctx ctx.float.zero
          (mp.transactionPool.utxoSet.getDoubleSpendTransactionIds t) =
            .ok feerate := by
      rw [maxDoubleSpendFeerate_ok_iff]
      simp only [howners]
      push Not
      rfl
    rw [hall]
    cases mp.transactionPool.utxoSet.getDoubleSpendTransactionIds t with
    | nil => simp [Mempool.maxDoubleSpendFeerate]
    | cons doubleSpend doubleSpends =>
      dsimp only
      cases mp.maxDoubleSpendFeerate ctx ctx.float.zero (doubleSpend :: doubleSpends) <;>
        simp [Functor.map, Except.map]
  | mandatory =>
    simp only [← howners, not_not]
    match hspends : mp.transactionPool.utxoSet.getDoubleSpendTransactionIds t with
    | [] => simp
    | [doubleSpend] =>
      have hrate := @getDoubleSpendFeerate_ok_iff F _ ctx mp doubleSpend
      have hone : (∃ owner, (∀ o, o ∈ [doubleSpend].map DoubleSpend.ownerId ↔ o = owner) ∧
          HasFeerate ctx mp.transactionPool owner) ↔
          HasFeerate ctx mp.transactionPool doubleSpend.ownerId := by
        simp only [map_singleton, mem_singleton]
        constructor
        · rintro ⟨owner, hiff, howner⟩
          rw [(hiff doubleSpend.ownerId).mp rfl]
          exact howner
        · exact fun h => ⟨_, fun _ => Iff.rfl, h⟩
      rw [hone, ← hrate]
      cases hfeerate : mp.getDoubleSpendFeerate ctx doubleSpend <;>
        simp [Functor.map, Except.map, hfeerate]
    | first :: second :: rest =>
      -- the owners of the first two double spends differ
      rw [hspends] at hnodup
      simp only [map_cons, nodup_cons, mem_cons, not_or] at hnodup
      refine ⟨fun ⟨_, h⟩ => (nomatch h), fun ⟨owner, hiff, _⟩ => ?_⟩
      have hfirst := (hiff first.ownerId).mp (by simp)
      have hsecond := (hiff second.ownerId).mp (by simp)
      exact absurd (hfirst.trans hsecond.symm) hnodup.1.1

/-! ## Population -/

/-- The entry of an input after the population: that of the output of a pool transaction which the
input names. -/
def populatedEntry (pool : Pool) (input : TransactionInput) (entry : Option UtxoEntry) :
    Option UtxoEntry :=
  match pool.get input.previousOutpoint.transactionId with
  | some parent => (parent.mtx.tx.outputs[input.previousOutpoint.index]?).map unacceptedEntry
  | none => entry

/-- An input that names a pool transaction names one of its outputs. -/
def InRange (pool : Pool) (input : TransactionInput) : Prop :=
  ∀ parent, pool.get input.previousOutpoint.transactionId = some parent →
    input.previousOutpoint.index < parent.mtx.tx.outputs.length

/-- The entries of `transaction'` are those of `transaction`, filled from the pool. -/
structure Populates (mp : Mempool F) (t transaction' : MutableTransaction) :
    Prop where
  tx : transaction'.tx = t.tx
  entries : transaction'.entries = List.zipWith (populatedEntry mp.transactionPool.toPool)
    t.tx.inputs t.entries

lemma populateEntry_of_inRange (h : InRange mp.transactionPool input)
    {entry : Option UtxoEntry} (hentries : t.entries = done ++ entry :: rest) :
    ∃ transaction', mp.populateEntry t (input, done.length) = some transaction' ∧
      transaction'.tx = t.tx ∧ transaction'.entries =
        done ++ populatedEntry mp.transactionPool input entry :: rest := by
  unfold Mempool.populateEntry populatedEntry
  cases hget : mp.transactionPool.get input.previousOutpoint.transactionId with
  | none => exact ⟨t, rfl, rfl, hentries⟩
  | some parent =>
    have hi := h parent hget
    dsimp only
    rw [List.getElem?_eq_getElem hi]
    refine ⟨_, rfl, rfl, ?_⟩
    show t.entries.set done.length _ = _
    rw [hentries, set_append_right _ _ (Nat.le_refl _), Nat.sub_self, set_cons_zero]
    rfl

/-- The index is not checked: an output that is not there makes the loop panic. -/
lemma populateEntry_of_not_inRange {i : ℕ} (h : ¬InRange mp.transactionPool input) :
    mp.populateEntry t (input, i) = none := by
  unfold InRange at h
  push Not at h
  obtain ⟨parent, hget, hi⟩ := h
  unfold Mempool.populateEntry
  rw [hget]
  dsimp only
  rw [List.getElem?_eq_none hi]
  rfl

/-- The loop of `populate_mempool_entries` from input `done.length` on. -/
lemma populateEntry_foldlM (inputs : List TransactionInput)
    (hentries : t.entries = done ++ rest) (hlength : rest.length = inputs.length) :
    (∃ transaction', (inputs.zipIdx done.length).foldlM mp.populateEntry t =
        some transaction' ∧ transaction'.tx = t.tx ∧ transaction'.entries = done ++
          List.zipWith (populatedEntry mp.transactionPool) inputs rest) ↔
      ∀ input ∈ inputs, InRange mp.transactionPool input := by
  induction inputs generalizing t done rest with
  | nil =>
    obtain rfl : rest = [] := length_eq_zero_iff.mp hlength
    simp [hentries]
  | cons input inputs ih =>
    obtain ⟨entry, rest, rfl⟩ := exists_cons_of_length_eq_add_one hlength
    rw [zipIdx_cons, foldlM_cons, forall_mem_cons]
    by_cases hinput : InRange mp.transactionPool input
    · obtain ⟨transaction₁, hround, htx, hentries₁⟩ := populateEntry_of_inRange hinput hentries
      have hrest := @ih transaction₁
        (done ++ [populatedEntry mp.transactionPool input entry]) rest
        (by rw [hentries₁, append_assoc, singleton_append]) (Nat.succ.inj hlength)
      rw [hround, some_bind_eq]
      simp only [length_append, length_singleton, append_assoc, singleton_append, htx] at hrest
      rw [zipWith_cons_cons, hrest]
      exact ⟨fun h => ⟨hinput, h⟩, And.right⟩
    · rw [populateEntry_of_not_inRange hinput]
      exact ⟨fun ⟨_, h, _⟩ => (nomatch h), fun h => absurd h.1 hinput⟩

lemma populateMempoolEntries_iff :
    (∃ transaction', mp.populateMempoolEntries t = some transaction' ∧
      Populates mp t transaction') ↔
      ∀ input ∈ t.tx.inputs, InRange mp.transactionPool input := by
  rw [← populateEntry_foldlM t.tx.inputs (nil_append t.entries).symm
    t.length_entries]
  apply exists_congr
  intro transaction'
  exact and_congr_right fun _ => ⟨fun h => ⟨h.tx, h.entries⟩, fun h => ⟨h.1, h.2⟩⟩

end

/-! ## Pre-validation -/

lemma validateTransactionInIsolation_outcome (mp : Mempool F)
    {t : MutableTransaction} (hmasses : t.calculatedNonContextualMasses =
      some (ctx.calculateTransactionNonContextualMasses t.tx)) :
    ∃ r, (Mempool.validateTransactionInIsolation ctx t).outcome mp =
      some (r, mp) ∧ (r = .ok () ↔ ¬(mp.transactionPool.has t.id ∨
        (¬ctx.config.acceptNonStandard ∧ ¬Standard ctx t.tx))) := by
  unfold Mempool.validateTransactionInIsolation
  rw [outcome_get_bind]
  split
  · next hhas => exact ⟨_, rfl, fun h => (nomatch h), fun h => absurd (.inl hhas) h⟩
  · next hhas =>
    split
    · next haccept => exact ⟨_, rfl, fun _ => by simp [hhas, haccept], fun _ => rfl⟩
    · next haccept =>
      obtain ⟨r, hr, hiff⟩ := checkTransactionStandardInIsolation_outcome ctx hmasses mp
      refine ⟨r, hr, hiff.trans ?_⟩
      simp [hhas, haccept]

/-- The pre-validation ends, with a populated transaction or an error and with the mempool as it
was, exactly if the transaction is refused earlier or all inputs that name a pool transaction name
one of its outputs. -/
theorem preValidateAndPopulateTransaction_ends_iff (mp : Mempool F)
    (t : MutableTransaction) (rbfPolicy : RbfPolicy) :
    Ends (Mempool.preValidateAndPopulateTransaction ctx t rbfPolicy) mp
      (fun r mp' => mp' = mp ∧
        ∀ v, r = .ok v → Populates mp t v.transaction) ↔
      Refused ctx mp t rbfPolicy ∨
        ∀ input ∈ t.tx.inputs, InRange mp.transactionPool.toPool input := by
  unfold Mempool.preValidateAndPopulateTransaction
  rw [ends_bind_iff (outcome_get mp)]
  by_cases haccepted : mp.acceptedTransactions.has t.id
  · have hfail : (orFail (mp.validateTransactionUnacceptance t) :
        MempoolM F Unit).outcome mp =
        some (.error (.rejectAlreadyAccepted t.id), mp) := by
      rw [outcome_orFail, Mempool.validateTransactionUnacceptance, if_pos haccepted]
    exact iff_of_true (ends_bind_of_error hfail ⟨rfl, fun v h => nomatch h⟩) (.inl (.inl haccepted))
  have hunaccepted : (orFail (mp.validateTransactionUnacceptance t) :
      MempoolM F Unit).outcome mp = some (.ok (), mp) := by
    rw [outcome_orFail, Mempool.validateTransactionUnacceptance, if_neg haccepted]
  rw [ends_bind_iff hunaccepted]
  set transaction₁ : MutableTransaction := { t with
    calculatedNonContextualMasses :=
      some (ctx.calculateTransactionNonContextualMasses t.tx) } with htransaction₁
  obtain ⟨r, hisolation, hr⟩ := validateTransactionInIsolation_outcome ctx mp
    (show transaction₁.calculatedNonContextualMasses = _ from rfl)
  cases r with
  | error e =>
    refine iff_of_true (ends_bind_of_error hisolation ⟨rfl, fun v h => nomatch h⟩) (.inl ?_)
    by_contra hnot
    have hok := hr.mpr fun h => hnot (h.elim (fun h => .inr (.inl h)) fun h => .inr (.inr (.inl h)))
    cases hok
  | ok u =>
    have hisolated := hr.mp rfl
    rw [ends_bind_iff hisolation]
    -- the policy does not look at the masses of the transaction
    have hrbf : (∃ constraint, mp.getReplaceByFeeConstraint ctx transaction₁ rbfPolicy =
        .ok constraint) ↔ ¬RbfRefuses ctx mp t rbfPolicy :=
      getReplaceByFeeConstraint_ok_iff rbfPolicy
    cases hconstraint : mp.getReplaceByFeeConstraint ctx transaction₁ rbfPolicy with
    | error e =>
      refine iff_of_true (ends_bind_of_error rfl ⟨rfl, fun v h => nomatch h⟩)
        (.inl (.inr (.inr (.inr ?_))))
      by_contra hnot
      obtain ⟨constraint, hok⟩ := hrbf.mpr hnot
      rw [hconstraint] at hok
      cases hok
    | ok constraint =>
      rw [ends_bind_iff (outcome_orFail _ mp)]
      have hnot : ¬Refused ctx mp t rbfPolicy := by
        rintro (h | h | h | h)
        · exact haccepted h
        · exact hisolated (.inl h)
        · exact hisolated (.inr h)
        · exact hrbf.mp ⟨constraint, hconstraint⟩ h
      rw [or_iff_right hnot]
      show _ ↔ ∀ input ∈ transaction₁.tx.inputs, InRange mp.transactionPool input
      rw [← populateMempoolEntries_iff]
      constructor
      · rintro ⟨r, mp', ho, -, hpopulates⟩
        cases hpopulate : mp.populateMempoolEntries transaction₁ with
        | none =>
          rw [hpopulate] at ho
          cases ho
        | some transaction' =>
          rw [hpopulate, outcome_bind_ok (outcome_unwrap_some _ mp)] at ho
          cases ho
          exact ⟨transaction', rfl, (hpopulates _ rfl).tx, (hpopulates _ rfl).entries⟩
      · rintro ⟨transaction', hpopulate, hpopulates⟩
        rw [hpopulate]
        apply ends_bind_of_outcome (outcome_unwrap_some _ mp)
        refine ends_pure ⟨rfl, fun v h => ?_⟩
        cases h
        exact ⟨hpopulates.tx, hpopulates.entries⟩

end

/-- A transaction that names an output which its pool parent does not have makes the population
panic. -/
theorem preValidateAndPopulateTransaction_missing_output :
    ∃ pool, (TransactionsPool.addMempoolTransaction openContext parentTx 100).outcome .new =
        some (.ok (), pool) ∧
      (Mempool.preValidateAndPopulateTransaction openContext (spending 2 [⟨1, 5⟩] 3000)
        .allowed).outcome ⟨pool, .new, ∅⟩ = none :=
  ⟨_, addMempoolTransaction_outcome (by decide) (by decide) rfl, by decide +kernel⟩

end LapisMonetae.Mining
