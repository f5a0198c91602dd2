import LapisMonetae.Utxo.Collection

/-!
# Transactions

The parts of a transaction that script execution and the mempool read, and a transaction together
with the UTXO entries that its inputs spend.
-/

namespace LapisMonetae.Tx

open Utxo

structure TransactionInput where
  previousOutpoint : TransactionOutpoint
  signatureScript : List UInt8
  sequence : UInt64
  sigOpCount : UInt8
deriving DecidableEq, Repr

structure TransactionOutput where
  value : ℕ
  scriptPublicKey : ScriptPublicKey
deriving DecidableEq, Repr

/-- `Transaction`, with its id as a field. -/
structure Transaction where
  id : Hash
  version : ℕ
  inputs : List TransactionInput
  outputs : List TransactionOutput
  lockTime : UInt64
  /-- the storage mass that the transaction commits to -/
  mass : ℕ
deriving DecidableEq, Repr

/-- `TxRuleError`: a missing input, or another verdict of the transaction validator. -/
inductive TxRuleError where
  | missingTxOutpoints
  | populated (message : String)
deriving DecidableEq, Repr

/-- `PopulatedTransaction`: a transaction with the entry of each of its inputs. -/
structure PopulatedTransaction where
  tx : Transaction
  entries : List UtxoEntry
  length_entries : entries.length = tx.inputs.length
deriving DecidableEq

namespace PopulatedTransaction

/-- The entry that input `index` spends. -/
def utxo (self : PopulatedTransaction) (index : ℕ) : Option UtxoEntry := self.entries[index]?

/-- Input `index` with its entry. An index beyond the inputs panics. -/
def populatedInput (self : PopulatedTransaction) (index : ℕ) :
    Option (TransactionInput × UtxoEntry) := do
  return (← self.tx.inputs[index]?, ← self.entries[index]?)

lemma isSome_populatedInput (self : PopulatedTransaction) {index : ℕ}
    (h : index < self.tx.inputs.length) : (self.populatedInput index).isSome := by
  have h' : index < self.entries.length := self.length_entries ▸ h
  simp [populatedInput, List.getElem?_eq_getElem h, List.getElem?_eq_getElem h']

end PopulatedTransaction

end LapisMonetae.Tx
