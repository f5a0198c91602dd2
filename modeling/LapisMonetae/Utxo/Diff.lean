import LapisMonetae.Utxo.Collection

/-!
# UTXO diffs

`UtxoDiff` and its algebra: `with_diff` composes two consecutive diffs, `diff_from` computes the
diff between two diffs over one base. Operations on `&mut self` return the receiver beside their
result, so that what an error leaves behind is part of the model.
-/

namespace LapisMonetae.Utxo

open UtxoCollection

inductive UtxoAlgebraError where
  | duplicateRemovePoint (outpoint : TransactionOutpoint)
  | duplicateAddPoint (outpoint : TransactionOutpoint)
  | doubleRemoveCall (outpoint : TransactionOutpoint)
  | doubleAddCall (outpoint : TransactionOutpoint)
  | diffIntersectionPoint (outpoint : TransactionOutpoint) (msg : String)
  | general (msg : String)
deriving DecidableEq, Repr

/-- A diff that can be read: `ImmutableUtxoDiff`. -/
class ImmutableUtxoDiff (D : Type) where
  added : D → UtxoCollection
  removed : D → UtxoCollection

export ImmutableUtxoDiff (added removed)

/-- The entries a diff adds and the entries it removes. -/
structure UtxoDiff where
  add : UtxoCollection
  remove : UtxoCollection
deriving DecidableEq

instance : ImmutableUtxoDiff UtxoDiff where
  added d := d.add
  removed d := d.remove

/-- A diff read backwards: `ReversedUtxoDiff`. -/
structure ReversedUtxoDiff where
  inner : UtxoDiff

instance : ImmutableUtxoDiff ReversedUtxoDiff where
  added d := d.inner.remove
  removed d := d.inner.add

/-- A read-only UTXO set. -/
abbrev UtxoView := TransactionOutpoint → Option UtxoEntry

/-- `ComposedUtxoView::get`: the base view with the diff applied. -/
def UtxoView.compose {D : Type} [ImmutableUtxoDiff D] (base : UtxoView) (diff : D) : UtxoView :=
  fun outpoint =>
    match (added diff).lookup outpoint with
    | some entry => some entry
    | none => if ((removed diff).lookup outpoint).isSome then none else base outpoint

namespace UtxoDiff

variable {D : Type} [ImmutableUtxoDiff D]

/-- The empty diff. -/
def default : UtxoDiff := ⟨∅, ∅⟩

def asReversed (self : UtxoDiff) : ReversedUtxoDiff := ⟨self⟩

def toReversed (self : UtxoDiff) : UtxoDiff := ⟨self.remove, self.add⟩

/-- Applies the provided diff to this diff in place. -/
def withDiffInPlace (self : UtxoDiff) (other : D) : Except UtxoAlgebraError Unit × UtxoDiff :=
  match (removed other).intersectsWithRule self.remove fun outpoint entryToAdd _existingEntry =>
      !self.add.containsWithDaaScore outpoint entryToAdd.blockDaaScore with
  | some offendingOutpoint => (.error (.duplicateRemovePoint offendingOutpoint), self)
  | none =>
    match (added other).intersectsWithRule self.add fun outpoint _entryToAdd existingEntry =>
        !(removed other).containsWithDaaScore outpoint existingEntry.blockDaaScore with
    | some offendingOutpoint => (.error (.duplicateAddPoint offendingOutpoint), self)
    | none =>
      -- removed entries leave `add` if they are there with the same DAA score, and else
      -- enter `remove`
      let step1 := intersectionWithRemainderHavingDaaScoreInPlace (removed other) self.add ∅
        self.remove
      let add := self.add.removeCollection step1.1
      -- added entries leave the new `remove` likewise, and else enter `add`
      let step2 := intersectionWithRemainderHavingDaaScoreInPlace (added other) step1.2 ∅ add
      let remove := step1.2.removeCollection step2.1
      (.ok (), ⟨step2.2, remove⟩)

/-- `with_diff`: the composition of two diffs, on a clone of the receiver. -/
def withDiff (self : UtxoDiff) (other : D) : Except UtxoAlgebraError UtxoDiff :=
  match self.withDiffInPlace other with
  | (.ok (), clone) => .ok clone
  | (.error e, _) => .error e

/-- Returns a new UTXO diff with the difference between this diff and another. -/
def diffFrom (self : UtxoDiff) (other : D) : Except UtxoAlgebraError UtxoDiff :=
  match self.remove.intersectsWithRule (added other) fun outpoint thisEntry otherEntry =>
      !(otherEntry.blockDaaScore != thisEntry.blockDaaScore &&
        (self.add.containsWithDaaScore outpoint otherEntry.blockDaaScore ||
          (removed other).containsWithDaaScore outpoint thisEntry.blockDaaScore)) with
  | some offendingOutpoint =>
    .error (.diffIntersectionPoint offendingOutpoint "both in self.add and in other.remove")
  | none =>
    match self.add.intersectsWithRule (removed other) fun outpoint thisEntry otherEntry =>
        !(otherEntry.blockDaaScore != thisEntry.blockDaaScore &&
          (self.remove.containsWithDaaScore outpoint otherEntry.blockDaaScore ||
            (added other).containsWithDaaScore outpoint thisEntry.blockDaaScore)) with
    | some offendingOutpoint =>
      .error (.diffIntersectionPoint offendingOutpoint "both in self.remove and in other.add")
    | none =>
      match self.remove.intersectsWithRule (removed other) fun _outpoint thisEntry otherEntry =>
          otherEntry.blockDaaScore != thisEntry.blockDaaScore with
      | some offendingOutpoint =>
        .error (.diffIntersectionPoint offendingOutpoint
          "both in self.remove and other.remove with different DAA scores, with no corresponding entry in self.add")
      | none =>
        -- `self.add ∖ other.add` goes to `result.remove`
        let step := subtractionWithRemainderHavingDaaScoreInPlace self.add (added other) ∅ ∅
        let inBothToAdd := step.2
        if inBothToAdd.intersects self.remove != inBothToAdd.intersects (removed other) then
          .error (.general
            "diff_from: outpoint both in self.add, other.add, and only one of self.remove and other.remove")
        else
          let remove := subtractionHavingDaaScoreInPlace (removed other) self.remove step.1
          let add := subtractionHavingDaaScoreInPlace self.remove (removed other) ∅
          let add := subtractionHavingDaaScoreInPlace (added other) self.add add
          .ok ⟨add, remove⟩

def removeEntry (self : UtxoDiff) (outpoint : TransactionOutpoint) (entry : UtxoEntry) :
    Except UtxoAlgebraError Unit × UtxoDiff :=
  if self.add.containsWithDaaScore outpoint entry.blockDaaScore then
    (.ok (), { self with add := self.add.erase outpoint })
  else if (self.remove.lookup outpoint).isNone then
    (.ok (), { self with remove := self.remove.insert outpoint entry })
  else
    (.error (.doubleRemoveCall outpoint), self)

def addEntry (self : UtxoDiff) (outpoint : TransactionOutpoint) (entry : UtxoEntry) :
    Except UtxoAlgebraError Unit × UtxoDiff :=
  if self.remove.containsWithDaaScore outpoint entry.blockDaaScore then
    (.ok (), { self with remove := self.remove.erase outpoint })
  else if (self.add.lookup outpoint).isNone then
    (.ok (), { self with add := self.add.insert outpoint entry })
  else
    (.error (.doubleAddCall outpoint), self)

/-- The loops of `add_transaction`: `f` on every pair, until the first error. -/
def forEntries (f : UtxoDiff → TransactionOutpoint → UtxoEntry →
    Except UtxoAlgebraError Unit × UtxoDiff) :
    List (TransactionOutpoint × UtxoEntry) → UtxoDiff → Except UtxoAlgebraError Unit × UtxoDiff
  | [], self => (.ok (), self)
  | (outpoint, entry) :: rest, self =>
    match f self outpoint entry with
    | (.ok (), self) => forEntries f rest self
    | (.error e, self) => (.error e, self)

end UtxoDiff

/-- The parts of a populated transaction that `add_transaction` reads. -/
structure VerifiableTransaction where
  id : Hash
  populatedInputs : List (TransactionOutpoint × UtxoEntry)
  outputs : List (ℕ × ScriptPublicKey)
  isCoinbase : Bool

/-- The entries a transaction creates when accepted at `blockDaaScore`. -/
def VerifiableTransaction.createdEntries (transaction : VerifiableTransaction)
    (blockDaaScore : ℕ) : List (TransactionOutpoint × UtxoEntry) :=
  transaction.outputs.mapIdx fun i output =>
    (⟨transaction.id, i⟩, ⟨output.1, output.2, blockDaaScore, transaction.isCoinbase⟩)

/-- `add_transaction`: spends the inputs, then adds the outputs. -/
def UtxoDiff.addTransaction (self : UtxoDiff) (transaction : VerifiableTransaction)
    (blockDaaScore : ℕ) : Except UtxoAlgebraError Unit × UtxoDiff :=
  match forEntries removeEntry transaction.populatedInputs self with
  | (.error e, self) => (.error e, self)
  | (.ok (), self) => forEntries addEntry (transaction.createdEntries blockDaaScore) self

/-- `write_diff`: applies a diff to a stored set, removals first. -/
def UtxoCollection.writeDiff {D : Type} [ImmutableUtxoDiff D] (self : UtxoCollection)
    (utxoDiff : D) : UtxoCollection :=
  (self.removeCollection (removed utxoDiff)).addCollection (added utxoDiff)

end LapisMonetae.Utxo
