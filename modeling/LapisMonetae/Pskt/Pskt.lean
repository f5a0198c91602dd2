import LapisMonetae.Hashing
import LapisMonetae.Wallet.Mass

/-!
# Partially signed transactions

`wallet/pskt`: what the parties to a transaction pass on to each other, from the signatures to the
transaction that is extracted. The roles are types without data, and only the fields that these
steps read or write are there. A call that panics has the result `none`.
-/

namespace LapisMonetae.Pskt

open Hashing (Vec HashBytes ScriptPublicKey Transaction TransactionOutpoint TransactionOutput)

/-- A `BTreeMap`, which is iterated in the order of its keys. -/
abbrev BTreeMap (K V : Type) [Ord K] : Type := Std.ExtTreeMap K V

/-! ## Data -/

/-- A `secp256k1::PublicKey`, as a number in the order of the keys. -/
abbrev PublicKey : Type := ℕ

structure KeySource where
  keyFingerprint : Vector UInt8 4
  derivationPath : List UInt32

inductive Signature
  | ecdsa (bytes : Vector UInt8 64)
  | schnorr (bytes : Vector UInt8 64)

structure Global where
  txVersion : BitVec 16
  fallbackLockTime : Option UInt64
  id : Option HashBytes

structure Input where
  utxoEntry : Option Utxo.UtxoEntry
  previousOutpoint : TransactionOutpoint
  sequence : Option UInt64
  minTime : Option UInt64
  partialSigs : BTreeMap PublicKey Signature
  sighashType : UInt8
  sigOpCount : Option (BitVec 8)
  bip32Derivations : BTreeMap PublicKey (Option KeySource)
  finalScriptSig : Option (Vec UInt8)

/-- `Input::default`, whose sighash type is `SIG_HASH_ALL`. -/
def Input.default : Input := ⟨none, ⟨.replicate 32 0, 0⟩, none, none, ∅, 1, none, ∅, none⟩

/-- `Inner`, the data of a PSKT. Outputs are described by what the transaction has of them. -/
structure Inner where
  global : Global
  inputs : Vec Input
  outputs : Vec TransactionOutput

/-! ## The transaction -/

/-- `SignableTransaction`, with the entries of its inputs. -/
structure SignableTransaction where
  tx : Transaction
  entries : List Utxo.UtxoEntry

/-- `with_entries`, which asserts that there is an entry for each input. -/
def withEntries (tx : Transaction) (entries : List Utxo.UtxoEntry) : Option SignableTransaction :=
  if tx.inputs.1.length = entries.length then some ⟨tx, entries⟩ else none

def mapVec {α β : Type} (f : α → β) (v : Vec α) : Vec β :=
  ⟨v.1.map f, by rw [List.length_map]; exact v.2⟩

namespace Inner

def determineLockTime (self : Inner) : UInt64 :=
  ((self.inputs.1.map Input.minTime).max?.getD self.global.fallbackLockTime).getD 0

/-- The transaction of `unsigned_tx`, where the signature scripts are given by `script`. -/
def transaction (self : Inner) (script : Input → Vec UInt8) : Transaction where
  version := self.global.txVersion
  inputs := mapVec (fun input => ⟨input.previousOutpoint, script input,
    (input.sequence.getD (-1)).toBitVec, input.sigOpCount.getD 0⟩) self.inputs
  outputs := self.outputs
  lockTime := self.determineLockTime.toBitVec
  subnetworkId := Vector.replicate 20 0
  gas := 0
  payload := default
  mass := 0

def unsignedTx (self : Inner) : Option SignableTransaction :=
  withEntries (self.transaction fun _ => default) (self.inputs.1.filterMap Input.utxoEntry)

section
variable {ε : Type} (hash : List UInt8 → HashBytes)

def calculateId (self : Inner) : Option HashBytes :=
  self.unsignedTx.map fun unsigned => unsigned.tx.id hash

structure SignInputOk where
  signature : Signature
  pubKey : PublicKey
  keySource : Option KeySource

/-- A signature passed to an input. -/
def passTo (input : Input) (signed : SignInputOk) : Input :=
  { input with
    bip32Derivations := input.bip32Derivations.insert signed.pubKey signed.keySource
    partialSigs := input.partialSigs.insert signed.pubKey signed.signature }

/-- A vector where the first elements are changed by those of a list. -/
def zipVec {α β : Type} (f : α → β → α) (v : Vec α) (l : List β) : Vec α :=
  ⟨v.1.mapIdx fun i a => (l[i]?).elim a (f a), by rw [List.length_mapIdx]; exact v.2⟩

def passSignatureSync (self : Inner)
    (signFn : SignableTransaction → List UInt8 → Except ε (List SignInputOk)) :
    Option (Except ε Inner) :=
  self.unsignedTx.map fun tx => do
    let signed ← signFn tx (self.inputs.1.map Input.sighashType)
    return { self with inputs := zipVec passTo self.inputs signed }

inductive FinalizeError (ε : Type)
  | wrongFinalizedSigsCount (expected actual : ℕ)
  | emptySignature (idx : ℕ)
  | finalaziCb (e : ε)

/-- An input with its final script. -/
def finalizeInput (input : Input) (sig : Vec UInt8) : Input :=
  { input with
    sequence := some (input.sequence.getD (-1))
    finalScriptSig := some sig }

def finalizeInternal (self : Inner) (sigs : Except ε (List (Vec UInt8))) :
    Option (Except (FinalizeError ε) Inner) :=
  match sigs with
  | .error e => some (.error (.finalaziCb e))
  | .ok sigs =>
    if sigs.length ≠ self.inputs.1.length then
      some (.error (.wrongFinalizedSigsCount self.inputs.1.length sigs.length))
    else match sigs.findIdx? (·.1.isEmpty) with
    | some idx => some (.error (.emptySignature idx))
    | none =>
      let self := { self with inputs := zipVec finalizeInput self.inputs sigs }
      (self.calculateId hash).map fun id =>
        .ok { self with global := { self.global with id := some id } }

/-- `transaction_estimated_serialized_size`. Sizes are natural numbers, as they count bytes in
memory. -/
def estimatedSerializedSize (tx : Transaction) : ℕ :=
  2 + 8 + (tx.inputs.1.map fun input => 32 + 4 + 8 + input.signatureScript.1.length + 8).sum +
    8 + (tx.outputs.1.map fun output => 8 + 2 + 8 + output.scriptPublicKey.script.1.length).sum +
    8 + 20 + 8 + 32 + 8 + tx.payload.1.length

/-- The larger one of the compute mass and the transient mass. -/
def nonContextualMass (calculator : Wallet.MassCalculator) (tx : Transaction) : ℕ :=
  let size := estimatedSerializedSize tx
  max (size * calculator.massPerTxByte +
      (tx.outputs.1.map fun output => 2 + output.scriptPublicKey.script.1.length).sum *
        calculator.massPerScriptPubKeyByte +
      (tx.inputs.1.map fun input => input.sigOpCount.toNat).sum * calculator.massPerSigOp)
    (size * 4)

def withMass (tx : Transaction) (mass : BitVec 64) : Transaction := { tx with mass }

/-- The script public key of an output as UTXO entries hold it. -/
def spentKey (key : ScriptPublicKey) : Utxo.ScriptPublicKey := ⟨⟨key.version⟩, key.script.1⟩

/-- The cells of the outputs. -/
def outputCells (self : Inner) : List Tx.UtxoCell :=
  self.outputs.1.map fun output =>
    ⟨Tx.utxoPlurality (spentKey output.scriptPublicKey), output.value.toNat⟩

/-- The storage mass of the outputs and the entries. -/
def storageMass (self : Inner) (entries : List Utxo.UtxoEntry) (calculator : Wallet.MassCalculator) :
    Option (Option ℕ) :=
  Tx.calcStorageMass false (entries.map Tx.entryCell) self.outputCells
    calculator.storageMassParameter

/-- `extract_tx_unchecked`. Its only error is `TxNotFinalized`. -/
def extractTxUnchecked (self : Inner) (calculator : Wallet.MassCalculator) :
    Option (Except Unit SignableTransaction) := do
  let unsigned ← self.unsignedTx
  if ∀ input ∈ self.inputs.1, input.finalScriptSig.isSome then
    let tx := self.transaction fun input => input.finalScriptSig.getD default
    let storageMass ← self.storageMass unsigned.entries calculator
    let mass := max (storageMass.getD 0) (nonContextualMass calculator tx)
    return .ok ⟨withMass tx (.ofNat 64 mass), unsigned.entries⟩
  else return .error ()

end

end Inner

end LapisMonetae.Pskt
