import LapisMonetae.Wallet.GeneratorTheorems

/-!
# Fees of the generator

When the sender pays, the fee reported for a transaction is what its inputs exceed its outputs by,
and the generator's total is the sum of these fees, unless the final transaction absorbs a small
change: then the change is counted twice.
-/

namespace LapisMonetae.Wallet

open Utxo Tx List

variable {inner : Inner} {txId : List TransactionInput → List TransactionOutput → List UInt8 → Hash}
variable {context context' : Context} {finalTransaction : FinalTransaction}
  {history : History}
  {taken : List UtxoEntryReference} {pending : PendingTransaction} {fees priorityFees : ℕ}

/-- The sum of the values of outputs. -/
def totalValue (outputs : List TransactionOutput) : ℕ := (outputs.map TransactionOutput.value).sum

/-- The transaction spends its entries, and its fee is what their amounts exceed the values of the
outputs by. -/
def FeeIsExact (pending : PendingTransaction) : Prop :=
  pending.tx.inputs.map TransactionInput.previousOutpoint =
      pending.utxoEntries.map UtxoEntryReference.outpoint ∧
    pending.fees + totalValue pending.tx.outputs = totalAmount pending.utxoEntries

/-- The entries that the final transaction takes do not exceed the payment with its priority fee by
a change that it could absorb. -/
def NoSmallChange (inner : Inner) (pending : PendingTransaction) : Prop :=
  ∀ finalTransaction, inner.finalTransaction = some finalTransaction → pending.kind = .final →
    totalAmount pending.utxoEntries ≤ finalTransaction.valueWithPriorityFee ∨
      finalTransaction.valueWithPriorityFee + absorbableChange ≤ totalAmount pending.utxoEntries

lemma Issues.feeIsExact {outputs : List TransactionOutput} {kind : DataKind}
    (h : Issues inner txId taken fees outputs kind pending)
    (hvalue : fees + totalValue outputs = totalAmount taken) : FeeIsExact pending := by
  refine ⟨?_, by rw [h.fees, h.outputs, h.utxoEntries, hvalue]⟩
  rw [h.inputs, h.utxoEntries, map_map]
  rfl

lemma totalValue_changeOutputs (outputs : List TransactionOutput) (change : Option ℕ) :
    totalValue (outputs ++ inner.changeOutputs change) = totalValue outputs + change.getD 0 := by
  unfold Inner.changeOutputs
  split <;> simp [totalValue]
  omega

/-- A payment without a small change leaves exactly its fees. -/
lemma Inner.Pays.value_eq {change : Option ℕ} (h : inner.Pays taken fees change)
    (hfinal : inner.finalTransaction = some finalTransaction)
    (hsender : inner.finalTransactionPriorityFee = .senderPays priorityFees)
    (hsmall : totalAmount taken ≤ finalTransaction.valueWithPriorityFee ∨
      finalTransaction.valueWithPriorityFee + absorbableChange ≤ totalAmount taken) :
    fees + (finalTransaction.valueNoFees + change.getD 0) = totalAmount taken := by
  obtain ⟨value, rfl, -, hvalue⟩ | ⟨rfl, value, hvalue, habsorbed⟩ := h _ _ hfinal hsender
  · rw [Option.getD_some]
    omega
  · have hzero : value = 0 := by
      by_contra hne
      have := habsorbed (Nat.pos_of_ne_zero hne)
      omega
    rw [Option.getD_none]
    omega

/-- The fees of the transactions so far are exact, and so is their total. -/
def FeesExact (history : History)
    (context : Context) : Prop :=
  (∀ pending ∈ produced history, FeeIsExact pending) ∧
    context.aggregateFees = ((produced history).map PendingTransaction.fees).sum

lemma FeesExact.concat (h : FeesExact history context) (hpending : FeeIsExact pending)
    (hfees : pending.fees = fees)
    (hcontext : context'.aggregateFees = context.aggregateFees + fees) :
    FeesExact (history ++ [(context, .ok (some pending))]) context' := by
  rw [FeesExact, produced_concat]
  constructor
  · intro other hother
    obtain hother | hother := mem_append.mp hother
    · exact h.1 other hother
    · rwa [mem_singleton.mp hother]
  · rw [hcontext, h.2, map_append, sum_append, ← hfees]
    rfl

/-- A successful call keeps the fees exact. -/
lemma FeesExact.call {result : Option PendingTransaction}
    (hsender : inner.finalTransactionPriorityFee = .senderPays priorityFees)
    (hfinal : inner.finalTransaction = some finalTransaction)
    (hvalue : finalTransaction.valueNoFees = totalValue inner.finalTransactionOutputs)
    (hsmall : ∀ pending, result = some pending → NoSmallChange inner pending)
    (h : FeesExact history context)
    (hcalled : Called inner txId context (.ok result) context') :
    FeesExact (history ++ [(context, .ok result)]) context' := by
  cases hcalled with
  | nothing _ hfees =>
    rw [FeesExact, produced_concat, hfees (by rw [hfinal]; exact Option.some_ne_none _)]
    simpa [producedBy, FeesExact] using h
  | final _ _ hpays houtputs hissues _ hfees =>
    have hexact := hpays.value_eq hfinal hsender
      (hissues.utxoEntries ▸ hsmall _ rfl _ hfinal hissues.kind)
    refine h.concat (hissues.feeIsExact ?_) hissues.fees hfees
    rw [houtputs (by rw [hsender]; rfl), totalValue_changeOutputs, ← hvalue, hexact]
  | relay hstage hremains _ hlt hissues hjob =>
    refine h.concat (hissues.feeIsExact ?_) hissues.fees (by rw [hjob]; rfl)
    simp only [totalValue, map_cons, map_nil, sum_singleton]
    omega

/-- The fees after a run of successful calls, of which none takes entries with a small change. -/
theorem fees_exact {settings : GeneratorSettings} {priorityFees : ℕ} {initial context : Context}
    {history : List (Context × Except GeneratorError (Option PendingTransaction))}
    (hsender : settings.finalTransactionPriorityFee = .senderPays priorityFees)
    (hnew : tryNew settings = some (.ok (inner, initial)))
    (hrun : Run inner txId initial history context)
    (hok : ∀ call ∈ history, ∃ pending, call.2 = .ok pending)
    (hsmall : ∀ pending ∈ produced history, NoSmallChange inner pending) :
    (∀ pending ∈ produced history, FeeIsExact pending) ∧
      context.aggregateFees = ((produced history).map PendingTransaction.fees).sum := by
  obtain ⟨rfl, outputs, amount, harmonic, finalTransaction, -, -, -, hinner, -⟩ :=
    tryNew_eq_ok hnew
  obtain ⟨-, -, -, hfinal⟩ := tryNew_senderPays hsender hnew
  have hsender' : inner.finalTransactionPriorityFee = .senderPays priorityFees := by
    rw [hinner]
    exact hsender
  have hinvariant := hrun.invariant
    (fun history context => (∀ call ∈ history, ∃ pending, call.2 = .ok pending) →
      (∀ pending ∈ produced history, NoSmallChange inner pending) → FeesExact history context)
    (by rw [hinner]; rfl) rfl (fun _ _ => ⟨forall_mem_nil _, rfl⟩) ?_
  · exact hinvariant hok hsmall
  · intro history context result context' ih hcalled hok hsmall
    have hlast : (context, result) ∈ history ++ [(context, result)] :=
      mem_append_right _ (mem_singleton.mpr rfl)
    obtain ⟨pending, rfl⟩ : ∃ pending, result = .ok pending := hok _ hlast
    rw [produced_concat] at hsmall
    refine (ih (fun call h => hok call (mem_append_left _ h))
      (fun call h => hsmall call (mem_append_left _ h))).call hsender' hfinal rfl ?_ hcalled
    rintro pending rfl
    exact hsmall _ (mem_append_right _ (mem_singleton.mpr rfl))

/-! ## Two payments -/

/-- An address with an empty key. -/
def zeroAddress : Address := ⟨.mainnet, .pubKey, List.replicate 32 0, rfl⟩

/-- A payment of 1000 kaspa, from one entry that exceeds it by `rest`. -/
def paymentWithRest (rest : ℕ) : GeneratorSettings where
  network := .mainnet
  utxoIterator := [⟨some zeroAddress, ⟨1, 0⟩, 100000000000 + rest, payToAddressScript zeroAddress, 0,
    false⟩]
  priorityUtxoEntries := []
  sigOpCount := 1
  minimumSignatures := 1
  changeAddress := zeroAddress
  feeRate := none
  finalTransactionPriorityFee := .senderPays 0
  finalTransactionDestination := .paymentOutputs [⟨zeroAddress, 100000000000⟩]
  finalTransactionPayload := none

/-- A rest of 50000 sompi is absorbed, and the reported fee is not what is paid. -/
theorem absorbed_fee_not_exact : ∃ inner initial context pending,
      tryNew (paymentWithRest 50000) = some (.ok (inner, initial)) ∧
      Run inner (fun _ _ _ => 0) initial [(initial, .ok (some pending))] context ∧
      totalAmount pending.utxoEntries - totalValue pending.tx.outputs = 50000 ∧
      pending.fees = 97964 ∧ context.aggregateFees = 97964 := by
  refine ⟨_, _, _, _, rfl, (Run.call Run.start
    (rfl : Inner.generateTransaction _ _ (fun _ => false) _ = _) : Run _ _ _ ([] ++ [_]) _), ?_⟩
  decide

/-- The two calls of the payment with a rest of one kaspa. -/
lemma exists_kaspaRun : ∃ inner initial context context' pending,
      tryNew (paymentWithRest 100000000) = some (.ok (inner, initial)) ∧
      Run inner (fun _ _ _ => 0) initial [(initial, .ok (some pending)), (context, .ok none)]
        context' ∧
      inner.finalTransaction = some ⟨100000000000, 100000000000⟩ ∧
      totalAmount pending.utxoEntries = 100100000000 :=
  ⟨_, _, _, _, _, rfl, (Run.call (Run.call Run.start
    (rfl : Inner.generateTransaction _ _ (fun _ => false) _ = _))
    (rfl : Inner.generateTransaction _ _ (fun _ => false) _ = _) :
      Run _ _ _ (([] ++ [_]) ++ [_]) _), rfl, rfl⟩

/-- With a rest of one kaspa the fees are exact. -/
theorem fees_exact_kaspa : ∃ inner initial context context' pending,
      tryNew (paymentWithRest 100000000) = some (.ok (inner, initial)) ∧
      Run inner (fun _ _ _ => 0) initial [(initial, .ok (some pending)), (context, .ok none)]
        context' ∧
      FeeIsExact pending ∧ context'.aggregateFees = pending.fees := by
  obtain ⟨inner, initial, context, context', pending, hnew, hrun, hfinal, htotal⟩ := exists_kaspaRun
  have hexact := fees_exact rfl hnew hrun ?_ ?_
  · exact ⟨inner, _, context, context', pending, hnew, hrun,
      hexact.1 pending (mem_singleton.mpr rfl), hexact.2⟩
  · intro call hcall
    rcases mem_pair.mp hcall with rfl | rfl
    · exact ⟨_, rfl⟩
    · exact ⟨_, rfl⟩
  · intro other hother finalTransaction h _
    obtain rfl := mem_singleton.mp hother
    rw [hfinal] at h
    cases h
    rw [htotal]
    exact Or.inr (by decide)

end LapisMonetae.Wallet
