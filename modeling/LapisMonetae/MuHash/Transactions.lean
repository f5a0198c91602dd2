import LapisMonetae.Lib.Reduction
import LapisMonetae.MuHash.MuHashTheorems
import LapisMonetae.Utxo.TransactionTheorems
import Mathlib.Data.List.Forall2

/-!
# The multiplicative hash of a UTXO set

`MuHashExtensions`: an entry is hashed with its outpoint, and a transaction removes the entries it
spends and adds those it creates. The hash that follows the transactions is the one that a node
computes from the entries of the set that they lead to.
-/

namespace LapisMonetae.Muhash

open Utxo LittleEndian List

/-- `write_utxo`: the bytes of an outpoint with its entry. -/
def writeUtxo (entry : UtxoEntry) (outpoint : TransactionOutpoint) : List UInt8 :=
  (toLeBytes 32 outpoint.transactionId).reverse ++ toLeBytes 4 outpoint.index
    ++ toLeBytes 8 entry.blockDaaScore ++ toLeBytes 8 entry.amount
    ++ [if entry.isCoinbase then 1 else 0]
    ++ toLeBytes 2 entry.scriptPublicKey.version.toNat
    ++ toLeBytes 8 entry.scriptPublicKey.script.length ++ entry.scriptPublicKey.script

section Operations

variable {Hash : Type} (prim : Primitives Hash)

namespace MuHash

def addUtxo (self : MuHash) (outpoint : TransactionOutpoint) (entry : UtxoEntry) : Option MuHash :=
  self.addElement prim (writeUtxo entry outpoint)

def addTransaction (self : MuHash) (tx : VerifiableTransaction) (blockDaaScore : ℕ) :
    Option MuHash := do
  let self ← tx.populatedInputs.foldlM
    (fun self s => self.removeElement prim (writeUtxo s.2 s.1)) self
  (tx.createdEntries blockDaaScore).foldlM (fun self s => self.addUtxo prim s.1 s.2) self

def fromTransaction (tx : VerifiableTransaction) (blockDaaScore : ℕ) : Option MuHash :=
  new.addTransaction prim tx blockDaaScore

def fromUtxo (outpoint : TransactionOutpoint) (entry : UtxoEntry) : Option MuHash :=
  new.addUtxo prim outpoint entry

/-- The parallel `reduce` with `combine`, over hashes that may have panicked. -/
def combineAll {hashes : List (Option MuHash)} (r : Reduction hashes) : Option MuHash :=
  r.reduce (some new) fun a b => do (← a).combine (← b)

end MuHash

end Operations

/-- The transactions can be executed one after another and lead from the entries of one set to those
of the other: each of them replaces the entries of its inputs by those of its outputs. -/
def Executes : List (TransactionOutpoint × UtxoEntry) → List (VerifiableTransaction × ℕ) →
    List (TransactionOutpoint × UtxoEntry) → Prop
  | entries, [], entries' => entries.Perm entries'
  | entries, (tx, blockDaaScore) :: rest, entries' => ∃ kept,
      entries.Perm (tx.populatedInputs ++ kept) ∧
        Executes (kept ++ tx.createdEntries blockDaaScore) rest entries'

/-- The element of an entry, once. -/
def elementOf (s : TransactionOutpoint × UtxoEntry) : List UInt8 → ℤ :=
  Pi.single (writeUtxo s.2 s.1) 1

variable {Hash : Type} {prim : Primitives Hash} {s : TransactionOutpoint × UtxoEntry}
variable {entries entries' : List (TransactionOutpoint × UtxoEntry)}
variable {txs : List (VerifiableTransaction × ℕ)}

/-- The elements that a transaction adds and removes. -/
def changeOf (t : VerifiableTransaction × ℕ) : List UInt8 → ℤ :=
  ((t.1.createdEntries t.2).map elementOf).sum - (t.1.populatedInputs.map elementOf).sum

lemma Executes.sum_eq (h : Executes entries txs entries') : (entries'.map elementOf).sum =
    (entries.map elementOf).sum + (txs.map changeOf).sum := by
  induction txs generalizing entries with
  | nil => rw [map_nil, sum_nil, add_zero, (h.map elementOf).sum_eq]
  | cons t rest ih =>
    obtain ⟨kept, hperm, hrest⟩ := h
    rw [ih hrest, (hperm.map elementOf).sum_eq, map_append, map_append, sum_append, sum_append,
      map_cons, sum_cons, changeOf]
    abel

/-- The element of an entry is a unit modulo the prime. -/
def InvertibleEntry (prim : Primitives Hash) (s : TransactionOutpoint × UtxoEntry) : Prop :=
  (dataToElement prim (writeUtxo s.2 s.1)).toNat.Coprime uintPrime

namespace MuHash

variable {self : MuHash} {count : List UInt8 → ℤ}

/-- A loop whose step adds `delta` to what the accumulator holds. -/
lemma foldlM_holds {α : Type} (step : MuHash → α → Option MuHash) (delta : α → List UInt8 → ℤ)
    (l : List α) (hstep : ∀ a ∈ l, ∀ {self : MuHash} {count : List UInt8 → ℤ},
      self.Holds prim count →
        ∃ next, step self a = some next ∧ next.Holds prim (count + delta a))
    (h : self.Holds prim count) :
    ∃ next, l.foldlM step self = some next ∧ next.Holds prim (count + (l.map delta).sum) := by
  induction l generalizing self count with
  | nil =>
    refine ⟨self, rfl, ?_⟩
    rwa [map_nil, sum_nil, add_zero]
  | cons a l ih =>
    obtain ⟨mid, hmid, hholds⟩ := hstep a mem_cons_self h
    obtain ⟨next, hnext, hrest⟩ := ih (fun b hb => hstep b (mem_cons_of_mem _ hb)) hholds
    refine ⟨next, ?_, ?_⟩
    · rw [foldlM_cons, hmid]
      exact hnext
    · rwa [map_cons, sum_cons, ← add_assoc]

lemma addUtxo_holds (hs : InvertibleEntry prim s) (h : self.Holds prim count) :
    ∃ next, self.addUtxo prim s.1 s.2 = some next ∧ next.Holds prim (count + elementOf s) := by
  unfold InvertibleEntry at hs
  exact addElement_holds h hs

lemma removeUtxo_holds (hs : InvertibleEntry prim s) (h : self.Holds prim count) :
    ∃ next, self.removeElement prim (writeUtxo s.2 s.1) = some next ∧
      next.Holds prim (count + -elementOf s) := by
  unfold InvertibleEntry at hs
  rw [← sub_eq_add_neg]
  exact removeElement_holds h hs

/-- A transaction adds its change of the set to the accumulator. -/
lemma addTransaction_holds {tx : VerifiableTransaction} {blockDaaScore : ℕ}
    (htx : ∀ s ∈ tx.populatedInputs ++ tx.createdEntries blockDaaScore, InvertibleEntry prim s)
    (h : self.Holds prim count) : ∃ next, self.addTransaction prim tx blockDaaScore = some next ∧
      next.Holds prim (count + changeOf (tx, blockDaaScore)) := by
  obtain ⟨mid, hmid, hspent⟩ := foldlM_holds _ (fun s => -elementOf s) tx.populatedInputs
    (fun s hs _ _ h => removeUtxo_holds (htx s (mem_append_left _ hs)) h) h
  obtain ⟨next, hnext, hholds⟩ := foldlM_holds _ elementOf (tx.createdEntries blockDaaScore)
    (fun s hs _ _ h => addUtxo_holds (htx s (mem_append_right _ hs)) h) hspent
  refine ⟨next, ?_, ?_⟩
  · unfold addTransaction
    rw [hmid]
    exact hnext
  · have hneg : (tx.populatedInputs.map fun s => -elementOf s).sum =
        -(tx.populatedInputs.map elementOf).sum := by
      rw [sum_neg, map_map]
      rfl
    rw [hneg, add_assoc, neg_add_eq_sub] at hholds
    exact hholds

/-- However the hashes are combined, the result holds what they hold together. -/
lemma combineAll_holds {hashes : List (Option MuHash)} (r : Reduction hashes) :
    ∀ {counts : List (List UInt8 → ℤ)}, Forall₂ (fun count hash =>
      ∃ self : MuHash, hash = some self ∧ self.Holds prim count) counts hashes →
      ∃ self, combineAll r = some self ∧ self.Holds prim counts.sum := by
  induction r with
  | identity =>
    rintro _ (_ | _)
    exact ⟨new, rfl, holds_new⟩
  | item hash =>
    rintro _ (_ | ⟨⟨self, rfl, h⟩, _ | _⟩)
    exact ⟨self, rfl, by rwa [sum_singleton]⟩
  | @combine l l' left right hleft hright =>
    intro counts h
    obtain ⟨a, ha, hholds⟩ := hleft (forall₂_take_append _ _ _ h)
    obtain ⟨b, hb, hholds'⟩ := hright (forall₂_drop_append _ _ _ h)
    obtain ⟨self, hself, hall⟩ := combine_holds hholds hholds'
    refine ⟨self, ?_, ?_⟩
    · unfold combineAll at ha hb ⊢
      rw [Reduction.reduce, ha, hb]
      exact hself
    · rwa [← sum_append, take_append_drop] at hall

lemma finalize_eq_of_holds (hinverts : InvertsUnits prim) {other : MuHash}
    (h : self.Holds prim count) (h' : other.Holds prim count) :
    ∃ result, self.finalize prim = some result ∧ other.finalize prim = some result := by
  obtain ⟨normalized, heval, hholds, hnormal⟩ := normalize_holds hinverts h
  obtain ⟨normalized', heval', hholds', hnormal'⟩ := normalize_holds hinverts h'
  obtain rfl := hnormal.eq hnormal' hholds hholds'
  exact ⟨_, finalize_eq heval, finalize_eq heval'⟩

/-- The hashes of some items hold what the items stand for. -/
lemma forall₂_holds {α : Type} {hash : α → Option MuHash} {delta : α → List UInt8 → ℤ} {l : List α}
    (h : ∀ a ∈ l, ∀ {count : List UInt8 → ℤ}, new.Holds prim count →
      ∃ self, hash a = some self ∧ self.Holds prim (count + delta a)) :
    Forall₂ (fun count hash => ∃ self : MuHash, hash = some self ∧ self.Holds prim count)
      (l.map delta) (l.map hash) := by
  rw [forall₂_map_left_iff, forall₂_map_right_iff, forall₂_same]
  intro a ha
  obtain ⟨self, hself, hholds⟩ := h a ha holds_new
  exact ⟨self, hself, by rwa [zero_add] at hholds⟩

/-- The hash of a set that follows transactions, one after another or combined in parallel in any
way, is the hash computed from the entries of the set that they lead to, in any order. -/
theorem finalize_addTransactions (hinverts : InvertsUnits prim)
    (h : Executes entries txs entries')
    (hentries : ∀ s ∈ entries ++ entries', InvertibleEntry prim s)
    (htxs : ∀ t ∈ txs, ∀ s ∈ t.1.populatedInputs ++ t.1.createdEntries t.2,
      InvertibleEntry prim s)
    (r : Reduction (entries.map fun s => fromUtxo prim s.1 s.2))
    (r' : Reduction (entries'.map fun s => fromUtxo prim s.1 s.2)) :
    ∃ self followed imported result, combineAll r = some self ∧
      txs.foldlM (fun self t => self.addTransaction prim t.1 t.2) self = some followed ∧
      combineAll r' = some imported ∧ followed.finalize prim = some result ∧
      imported.finalize prim = some result ∧
      ∀ parallel : Reduction (some self :: txs.map fun t => fromTransaction prim t.1 t.2),
        ∃ combined, combineAll parallel = some combined ∧
          combined.finalize prim = some result := by
  obtain ⟨self, hself, hholds⟩ := combineAll_holds r (forall₂_holds fun s hs _ h =>
    addUtxo_holds (hentries s (mem_append_left _ hs)) h)
  obtain ⟨imported, himported, hholds'⟩ := combineAll_holds r' (forall₂_holds fun s hs _ h =>
    addUtxo_holds (hentries s (mem_append_right _ hs)) h)
  obtain ⟨followed, hfollowed, hholds₁⟩ := foldlM_holds _ changeOf txs
    (fun t ht _ _ h => addTransaction_holds (htxs t ht) h) hholds
  rw [← h.sum_eq] at hholds₁
  obtain ⟨result, hresult, hresult'⟩ := finalize_eq_of_holds hinverts hholds₁ hholds'
  refine ⟨self, followed, imported, result, hself, hfollowed, himported, hresult, hresult',
    fun parallel => ?_⟩
  obtain ⟨combined, hcombined, hholds₂⟩ := combineAll_holds parallel (.cons ⟨self, rfl, hholds⟩
    (forall₂_holds fun t ht _ h => addTransaction_holds (htxs t ht) h))
  rw [sum_cons, ← h.sum_eq] at hholds₂
  obtain ⟨result', heval, heval'⟩ := finalize_eq_of_holds hinverts hholds₁ hholds₂
  obtain rfl := Option.some.inj (heval.symm.trans hresult)
  exact ⟨combined, hcombined, heval'⟩

/-- The entry of a set is spent. -/
theorem finalize_addTransactions_spender : ∃ self followed imported result,
    combineAll (Reduction.sequential [fromUtxo powers ⟨1, 0⟩ ⟨10, ⟨0, []⟩, 5, false⟩]) = some self ∧
      [(spender [()], 6)].foldlM (fun self t => self.addTransaction powers t.1 t.2) self =
        some followed ∧
      combineAll (Reduction.sequential [fromUtxo powers ⟨2, 0⟩ ⟨9, ⟨0, []⟩, 6, false⟩]) =
        some imported ∧
      followed.finalize powers = some result ∧ imported.finalize powers = some result := by
  have hinv : ∀ s, InvertibleEntry powers s := fun s => by
    unfold InvertibleEntry
    exact powers_invertible (.addElement () (writeUtxo s.2 s.1)) _ (mem_singleton_self _)
  have h : Executes [(⟨1, 0⟩, ⟨10, ⟨0, []⟩, 5, false⟩)] [(spender [()], 6)]
      [(⟨2, 0⟩, ⟨9, ⟨0, []⟩, 6, false⟩)] := ⟨[], by decide, Perm.refl _⟩
  obtain ⟨self, followed, imported, result, hself, hfollowed, himported, h, h', -⟩ :=
    finalize_addTransactions powers_invertsUnits h (fun s _ => hinv s) (fun _ _ s _ => hinv s)
      (Reduction.sequential _) (Reduction.sequential _)
  exact ⟨self, followed, imported, result, hself, hfollowed, himported, h, h'⟩

end MuHash

end LapisMonetae.Muhash
