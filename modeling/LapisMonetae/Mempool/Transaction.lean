import LapisMonetae.Lib.Program
import LapisMonetae.Script.Opcode
import Mathlib.Data.Prod.Lex

/-!
# Transactions of the mempool

Transactions that are filled with UTXO entries, fees and masses on their way into the mempool, the
rule errors that reject them, and the frontier, which holds the transactions that are ready for a
block template in the order of their feerates.
-/

namespace LapisMonetae.Mining

open Utxo Tx List

/-! ## Masses and feerates -/

structure NonContextualMasses where
  computeMass : ℕ
  transientMass : ℕ
deriving DecidableEq, Repr

def NonContextualMasses.max (self : NonContextualMasses) : ℕ :=
  Max.max self.computeMass self.transientMass

/-- `ContextualMasses::max`: the maximum over all masses. -/
def contextualMax (storageMass : ℕ) (nonContextualMasses : NonContextualMasses) : ℕ :=
  Max.max storageMass nonContextualMasses.max

/-- The operations on `f64` that the mempool uses. The order `total_cmp` is the linear order of the
type. -/
structure FloatOps (F : Type) where
  zero : F
  /-- `a as f64 / b as f64` -/
  ratio : ℕ → ℕ → F
  powi : F → ℕ → F
  max : F → F → F
  gt : F → F → Bool

def alpha : ℕ := 3

/-! ## Transactions -/

/-- `MutableTransaction`: a transaction with room for the entry of each of its inputs. -/
structure MutableTransaction where
  tx : Transaction
  entries : List (Option UtxoEntry)
  calculatedFee : Option ℕ
  calculatedNonContextualMasses : Option NonContextualMasses
  length_entries : entries.length = tx.inputs.length
deriving DecidableEq

namespace MutableTransaction

def id (self : MutableTransaction) : Hash := self.tx.id

def isVerifiable (self : MutableTransaction) : Bool := self.entries.all Option.isSome

def isFullyPopulated (self : MutableTransaction) : Bool :=
  self.isVerifiable && self.calculatedFee.isSome && self.calculatedNonContextualMasses.isSome

def calculatedFeerate {F : Type} (float : FloatOps F) (self : MutableTransaction) : Option F := do
  let masses ← self.calculatedNonContextualMasses
  let fee ← self.calculatedFee
  return float.ratio fee (contextualMax self.tx.mass masses)

def hasParent (self : MutableTransaction) (possibleParent : Hash) : Bool :=
  self.tx.inputs.any fun input => input.previousOutpoint.transactionId == possibleParent

def hasParentInSet (self : MutableTransaction) (possibleParents : List Hash) : Bool :=
  self.tx.inputs.any fun input => possibleParents.contains input.previousOutpoint.transactionId

/-- The assignment `entries[i] = entry`. -/
def setEntry (self : MutableTransaction) (i : ℕ) (entry : Option UtxoEntry) : MutableTransaction :=
  { self with
    entries := self.entries.set i entry
    length_entries := by rw [length_set, self.length_entries] }

end MutableTransaction

inductive Priority where
  | low
  | high
deriving DecidableEq, Repr

inductive Orphan where
  | forbidden
  | allowed
deriving DecidableEq, Repr

inductive RbfPolicy where
  | forbidden
  | allowed
  | mandatory
deriving DecidableEq, Repr

structure MempoolTransaction where
  mtx : MutableTransaction
  priority : Priority
  addedAtDaaScore : ℕ
deriving DecidableEq

def MempoolTransaction.id (self : MempoolTransaction) : Hash := self.mtx.tx.id

def unacceptedDaaScore : ℕ := 2 ^ 64 - 1

/-- The entry of an output that is not yet accepted by consensus. -/
def unacceptedEntry (output : TransactionOutput) : UtxoEntry :=
  ⟨output.value, output.scriptPublicKey, unacceptedDaaScore, false⟩

/-! ## Errors -/

inductive RuleError where
  /-- a verdict of consensus other than a missing outpoint -/
  | rejectTxRule (error : TxRuleError)
  | rejectMissingOutpoint
  | rejectAlreadyAccepted (id : Hash)
  | rejectDuplicate (id : Hash)
  | rejectDoubleSpendInMempool (outpoint : TransactionOutpoint) (ownerId : Hash)
  | rejectRbfNoDoubleSpend
  | rejectRbfTooManyDoubleSpendingTransactions
  | rejectMempoolIsFull
  | rejectNonStandard (id : Hash) (message : String)
  | rejectMissingTransaction (id : Hash)
  | rejectBadOrphanMass (mass max : ℕ)
  | rejectDuplicateOrphan (id : Hash)
  | rejectDoubleSpendOrphan (id doubleSpendId : Hash)
  | rejectDisallowedOrphan (id : Hash)
  | rejectMissingOrphanOutpoint (index : ℕ) (id : Hash) (outpoint : TransactionOutpoint)
  | rejectMissingOrphanTransaction (id : Hash)
  | rejectOrphanPoolIsFull (count max : ℕ)
deriving DecidableEq, Repr

inductive NonStandardError where
  | rejectVersion (id : Hash) (version min max : ℕ)
  | rejectComputeMass (id : Hash) (mass max : ℕ)
  | rejectTransientMass (id : Hash) (mass max : ℕ)
  | rejectStorageMass (id : Hash) (mass max : ℕ)
  | rejectSignatureScriptSize (id : Hash) (index size max : ℕ)
  | rejectScriptPublicKeyVersion (id : Hash) (index : ℕ)
  | rejectOutputScriptClass (id : Hash) (index : ℕ)
  | rejectDust (id : Hash) (index value : ℕ)
  | rejectInputScriptClass (id : Hash) (index : ℕ)
  | rejectInsufficientFee (id : Hash) (fee minimumFee : ℕ)
  | rejectSignatureCount (id : Hash) (index count max : ℕ)
deriving DecidableEq, Repr

namespace NonStandardError

def transactionId : NonStandardError → Hash
  | rejectVersion id .. | rejectComputeMass id .. | rejectTransientMass id ..
  | rejectStorageMass id .. | rejectSignatureScriptSize id .. | rejectScriptPublicKeyVersion id ..
  | rejectOutputScriptClass id .. | rejectDust id .. | rejectInputScriptClass id ..
  | rejectInsufficientFee id .. | rejectSignatureCount id .. => id

/-- The text of an error. -/
def message : NonStandardError → String
  | rejectVersion _ version min max =>
    s!"transaction version {version} is not in the valid range of {min}-{max}"
  | rejectComputeMass _ mass max =>
    s!"transaction compute mass of {mass} is larger than max allowed size of {max}"
  | rejectTransientMass _ mass max =>
    s!"transaction transient (storage) mass of {mass} is larger than max allowed size of {max}"
  | rejectStorageMass _ mass max =>
    s!"transaction storage mass of {mass} is larger than max allowed size of {max}"
  | rejectSignatureScriptSize _ index size max =>
    s!"transaction input #{index}: signature script size of {size} bytes is larger than the "
      ++ s!"maximum allowed size of {max} bytes"
  | rejectScriptPublicKeyVersion _ index =>
    s!"transaction output #{index}: the version of the scriptPublicKey is higher than the known "
      ++ "version"
  | rejectOutputScriptClass _ index => s!"transaction output #{index}: non-standard script form"
  | rejectDust _ index value => s!"transaction output #{index}: payment of {value} is dust"
  | rejectInputScriptClass _ index => s!"transaction input {index}: non-standard script form"
  | rejectInsufficientFee _ fee minimumFee =>
    s!"transaction has {fee} fees which is under the required amount of {minimumFee}"
  | rejectSignatureCount _ index count max =>
    s!"transaction input #{index} has {count} signature operations which is more than the allowed "
      ++ s!"max amount of {max}"

/-- The conversion into a rule error. -/
def toRuleError (self : NonStandardError) : RuleError :=
  .rejectNonStandard self.transactionId self.message

end NonStandardError

structure DoubleSpend where
  outpoint : TransactionOutpoint
  ownerId : Hash
deriving DecidableEq, Repr

/-- The conversion into a rule error. -/
def DoubleSpend.toRuleError (self : DoubleSpend) : RuleError :=
  .rejectDoubleSpendInMempool self.outpoint self.ownerId

/-! ## The frontier -/

structure FeerateTransactionKey (F : Type) where
  fee : ℕ
  mass : ℕ
  weight : F
  tx : Transaction
deriving DecidableEq

namespace FeerateTransactionKey

variable {F : Type}

def new (float : FloatOps F) (fee mass : ℕ) (tx : Transaction) : FeerateTransactionKey F :=
  ⟨fee, mass, float.powi (float.ratio fee mass) alpha, tx⟩

/-- What `cmp` compares, in this order: the weight, the fee and the id. -/
def rank (self : FeerateTransactionKey F) : F ×ₗ ℕ ×ₗ Hash :=
  toLex (self.weight, toLex (self.fee, self.tx.id))

/-- The key of a mempool transaction. It panics when the masses or the fee are missing. -/
def ofTransaction (float : FloatOps F) (tx : MempoolTransaction) :
    Option (FeerateTransactionKey F) := do
  let masses ← tx.mtx.calculatedNonContextualMasses
  let fee ← tx.mtx.calculatedFee
  return new float fee (contextualMax tx.mtx.tx.mass masses) tx.mtx.tx

end FeerateTransactionKey

section
variable {F : Type} [LinearOrder F] {keys : List (FeerateTransactionKey F)}
  {key : FeerateTransactionKey F}

/-- The insertion into the keys of a search tree. A key of the same rank stays in its place. -/
def insertKey (key : FeerateTransactionKey F) :
    List (FeerateTransactionKey F) → List (FeerateTransactionKey F)
  | [] => [key]
  | k :: keys =>
    if key.rank < k.rank then key :: k :: keys
    else if key.rank = k.rank then k :: keys
    else k :: insertKey key keys

lemma mem_of_mem_insertKey {key x : FeerateTransactionKey F} (h : x ∈ insertKey key keys) :
    x = key ∨ x ∈ keys := by
  induction keys with
  | nil => exact .inl (mem_singleton.mp h)
  | cons k keys ih =>
    rw [insertKey] at h
    split at h
    · exact mem_cons.mp h
    · split at h
      · exact .inr h
      · rcases mem_cons.mp h with rfl | h
        · exact .inr mem_cons_self
        · exact (ih h).imp_right (mem_cons_of_mem _)

lemma pairwise_insertKey (h : keys.Pairwise (·.rank < ·.rank)) :
    (insertKey key keys).Pairwise (·.rank < ·.rank) := by
  induction keys with
  | nil => exact pairwise_singleton _ _
  | cons k keys ih =>
    obtain ⟨hk, hkeys⟩ := pairwise_cons.mp h
    rw [insertKey]
    split
    · next hlt =>
      refine pairwise_cons.mpr ⟨fun x hx => ?_, h⟩
      rcases mem_cons.mp hx with rfl | hx
      · exact hlt
      · exact lt_trans hlt (hk x hx)
    · next hlt =>
      split
      · exact h
      · next hne =>
        refine pairwise_cons.mpr ⟨fun x hx => ?_, ih hkeys⟩
        rcases mem_of_mem_insertKey hx with rfl | hx
        · exact lt_of_le_of_ne (not_lt.mp hlt) (Ne.symm hne)
        · exact hk x hx

/-- An insertion keeps the keys if one of them has the rank of the new key, and adds the key
otherwise. -/
lemma insertKey_cases (h : keys.Pairwise (·.rank < ·.rank)) :
    (∃ k ∈ keys, k.rank = key.rank) ∧ insertKey key keys = keys ∨
      (∀ k ∈ keys, k.rank ≠ key.rank) ∧ (insertKey key keys).Perm (key :: keys) := by
  induction keys with
  | nil => exact .inr ⟨forall_mem_nil _, .refl _⟩
  | cons k keys ih =>
    obtain ⟨hk, hkeys⟩ := pairwise_cons.mp h
    rw [insertKey]
    split
    · next hlt =>
      -- the other ranks are above that of the key
      refine .inr ⟨forall_mem_cons.mpr ⟨hlt.ne', fun k' hk' => ?_⟩, .refl _⟩
      exact (lt_trans hlt (hk k' hk')).ne'
    · split
      · next heq => exact .inl ⟨⟨k, mem_cons_self, heq.symm⟩, rfl⟩
      · next hne =>
        rcases ih hkeys with ⟨⟨k', hk', hrank⟩, heq⟩ | ⟨hnot, hperm⟩
        · exact .inl ⟨⟨k', mem_cons_of_mem _ hk', hrank⟩, congrArg _ heq⟩
        · exact .inr ⟨forall_mem_cons.mpr ⟨Ne.symm hne, hnot⟩, (hperm.cons k).trans (.swap ..)⟩

/-- `Frontier`: the keys of its search tree, in ascending order, and the total of their masses. -/
structure Frontier (F : Type) [LinearOrder F] where
  keys : List (FeerateTransactionKey F)
  totalMass : ℕ
  sorted : keys.Pairwise (·.rank < ·.rank)

namespace Frontier

def default : Frontier F := ⟨[], 0, List.Pairwise.nil⟩

/-- The search tree has a key that `cmp` does not tell from the given one. -/
def contains (self : Frontier F) (key : FeerateTransactionKey F) : Bool :=
  self.keys.any (·.rank = key.rank)

def insert (self : Frontier F) (key : FeerateTransactionKey F) : Frontier F :=
  ⟨insertKey key self.keys, if self.contains key then self.totalMass else self.totalMass + key.mass,
    pairwise_insertKey self.sorted⟩

/-- The removal of a key. It panics when the total would fall below zero. -/
def remove (self : Frontier F) (key : FeerateTransactionKey F) : Option (Frontier F) :=
  let totalMass :=
    if self.contains key then checkedSub self.totalMass key.mass else some self.totalMass
  totalMass.map fun totalMass =>
    ⟨self.keys.filter fun k => k.rank ≠ key.rank, totalMass, self.sorted.filter _⟩

def ascendingIter (self : Frontier F) : List Transaction :=
  self.keys.map FeerateTransactionKey.tx

variable {self : Frontier F} {key x : FeerateTransactionKey F}

lemma contains_iff : self.contains key ↔ ∃ k ∈ self.keys, k.rank = key.rank := by
  simp [contains]

/-- An insertion adds its key unless there is one of the same rank. -/
lemma mem_insert : x ∈ (self.insert key).keys ↔
    x ∈ self.keys ∨ (x = key ∧ ∀ k ∈ self.keys, k.rank ≠ key.rank) := by
  show x ∈ insertKey key self.keys ↔ _
  rcases insertKey_cases self.sorted with ⟨⟨k, hk, hrank⟩, heq⟩ | ⟨hnot, hperm⟩
  · rw [heq, or_iff_left fun h => h.2 k hk hrank]
  · rw [hperm.mem_iff, mem_cons]
    tauto

/-- The total mass is the sum of the masses of the keys. -/
def Weighed (self : Frontier F) : Prop := self.totalMass = (self.keys.map (·.mass)).sum

lemma Weighed.insert (h : self.Weighed) (key : FeerateTransactionKey F) :
    (self.insert key).Weighed := by
  show (if self.contains key then self.totalMass else self.totalMass + key.mass) =
    ((insertKey key self.keys).map (·.mass)).sum
  rcases insertKey_cases self.sorted with ⟨hin, heq⟩ | ⟨hnot, hperm⟩
  · rw [if_pos (contains_iff.mpr hin), heq, h]
  · rw [if_neg fun hin => ?_, (hperm.map _).sum_nat, map_cons, sum_cons, h, Nat.add_comm]
    obtain ⟨k, hk, hrank⟩ := contains_iff.mp hin
    exact hnot k hk hrank

/-- A removal of a key that has the mass of the one in the search tree. -/
lemma Weighed.remove (h : self.Weighed)
    (hmass : ∀ k ∈ self.keys, k.rank = key.rank → k.mass = key.mass) :
    ∃ frontier, self.remove key = some frontier ∧ frontier.Weighed ∧
      ∀ x, x ∈ frontier.keys ↔ x ∈ self.keys ∧ x.rank ≠ key.rank := by
  suffices hsum : ∃ totalMass, (if self.contains key then checkedSub self.totalMass key.mass
      else some self.totalMass) = some totalMass ∧
      totalMass = ((self.keys.filter fun k => k.rank ≠ key.rank).map (·.mass)).sum by
    obtain ⟨totalMass, hsub, htotal⟩ := hsum
    refine ⟨⟨_, totalMass, self.sorted.filter _⟩, ?_, htotal, fun x => by simp⟩
    rw [Frontier.remove, hsub]
    rfl
  split
  · next hin =>
    obtain ⟨k, hk, hrank⟩ := contains_iff.mp hin
    have hranks : (self.keys.map (·.rank)).Nodup := (pairwise_map.mpr self.sorted).imp ne_of_lt
    have hfilter : self.keys.filter (fun x => x.rank ≠ key.rank) = self.keys.erase k := by
      rw [hranks.of_map.erase_eq_filter]
      refine filter_congr fun x hx => ?_
      have hiff : x.rank = key.rank ↔ x = k :=
        ⟨fun h => inj_on_of_nodup_map hranks hx hk (h.trans hrank.symm), fun h => h ▸ hrank⟩
      rw [Bool.eq_iff_iff]
      simp [hiff]
    have hsum := ((perm_cons_erase hk).map (·.mass)).sum_nat
    rw [map_cons, sum_cons, hmass k hk hrank, ← h] at hsum
    refine ⟨_, if_pos (by omega), ?_⟩
    rw [hfilter]
    omega
  · next hin =>
    have hall : ∀ k ∈ self.keys, decide (k.rank ≠ key.rank) = true := fun k hk =>
      decide_eq_true fun hrank => hin (contains_iff.mpr ⟨k, hk, hrank⟩)
    exact ⟨_, rfl, by rw [filter_eq_self.mpr hall, h]⟩

end Frontier

end

end LapisMonetae.Mining
