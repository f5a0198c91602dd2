import LapisMonetae.Coinbase.Subsidy
import LapisMonetae.Tx.StorageMass

/-!
# Transaction mass in the wallet

`MassCalculator` of the wallet: the compute mass of a transaction from its serialized size, the
storage mass from the amounts of its inputs and outputs, and the minimum relay fee for a mass.
Masses are natural numbers, since no sum of them comes near the range of `u64`; where amounts or
the storage mass parameter are involved, an overflow or a division by zero is a panic (`none`).
-/

namespace LapisMonetae.Wallet

open Utxo Tx

/-! ## Addresses -/

inductive NetworkType
  | mainnet | testnet | devnet | simnet
deriving DecidableEq, Repr

/-- `kaspa_addresses::Version`. -/
inductive AddressVersion
  | pubKey | pubKeyECDSA | scriptHash
deriving DecidableEq, Repr

/-- The length of the payload, which the constructor of an address asserts. -/
def AddressVersion.publicKeyLen : AddressVersion → ℕ
  | pubKey => 32
  | pubKeyECDSA => 33
  | scriptHash => 32

/-- `Address`. The prefix is given as the network it stands for. -/
structure Address where
  network : NetworkType
  version : AddressVersion
  payload : List UInt8
  length_payload : payload.length = version.publicKeyLen
deriving DecidableEq

def payToAddressScript (address : Address) : ScriptPublicKey :=
  match address.version with
  | .pubKey => ⟨0, [0x20] ++ address.payload ++ [0xac]⟩
  | .pubKeyECDSA => ⟨0, [0x21] ++ address.payload ++ [0xab]⟩
  | .scriptHash => ⟨0, [0xaa, 0x20] ++ address.payload ++ [0x87]⟩

/-! ## UTXO entries and transactions -/

/-- `UtxoEntryReference`, a reference to the client's `UtxoEntry`. Two references are equal for
the source when their outpoints are. -/
structure UtxoEntryReference where
  address : Option Address
  outpoint : TransactionOutpoint
  amount : ℕ
  scriptPublicKey : ScriptPublicKey
  blockDaaScore : ℕ
  isCoinbase : Bool
deriving DecidableEq

/-- A transaction with its payload; the subnetwork is the native one and the gas is zero. -/
structure Transaction extends Tx.Transaction where
  payload : List UInt8
deriving DecidableEq

/-! ## Fees and dust -/

def signatureSize : ℕ := 1 + 64 + 1

/-- `MINIMUM_RELAY_TRANSACTION_FEE`, in sompi per kilogram. -/
def minimumRelayTransactionFee : ℕ := 1000

def maximumStandardTransactionMass : ℕ := 100000

def calcMinimumRequiredTransactionRelayFee (mass : ℕ) : ℕ :=
  let minimumFee := mass * minimumRelayTransactionFee / 1000
  let minimumFee := if minimumFee = 0 then minimumRelayTransactionFee else minimumFee
  min minimumFee Coinbase.maxSompi

def scriptVectorSize : ℕ := 36

def standardOutputSizePlusInputSize3x : ℕ := (8 + 2 + 8 + scriptVectorSize + 148) * 3

/-! ## Sizes -/

/-- `blank_transaction_serialized_byte_size`: version, number of inputs, number of outputs, lock
time, subnetwork, gas, payload hash and length of the payload. -/
def blankTransactionSerializedByteSize : ℕ := 2 + 8 + 8 + 8 + 20 + 8 + 32 + 8

def transactionInputSerializedByteSize (input : TransactionInput) : ℕ :=
  (32 + 4) + 8 + input.signatureScript.length + 8

def transactionOutputSerializedByteSize (output : TransactionOutput) : ℕ :=
  8 + 2 + 8 + output.scriptPublicKey.script.length

/-- `UtxoCell::from` of an entry. -/
def UtxoEntryReference.cell (entry : UtxoEntryReference) : UtxoCell :=
  ⟨utxoPlurality entry.scriptPublicKey, entry.amount⟩

/-! ## The mass calculator -/

structure MassCalculator where
  massPerTxByte : ℕ
  massPerScriptPubKeyByte : ℕ
  massPerSigOp : ℕ
  storageMassParameter : ℕ
deriving DecidableEq, Repr

/-- The calculator that every network uses. -/
def MassCalculator.standard : MassCalculator := ⟨1, 10, 1000, Coinbase.sompiPerKaspa * 10000⟩

namespace MassCalculator

def isDust (value : ℕ) : Bool :=
  match checkedMul value 1000 with
  | some value1000 => value1000 / standardOutputSizePlusInputSize3x < minimumRelayTransactionFee
  | none => value * 1000 / standardOutputSizePlusInputSize3x < minimumRelayTransactionFee

def blankTransactionComputeMass (self : MassCalculator) : ℕ :=
  blankTransactionSerializedByteSize * self.massPerTxByte

def calcComputeMassForPayload (self : MassCalculator) (payloadByteSize : ℕ) : ℕ :=
  payloadByteSize * self.massPerTxByte

def calcComputeMassForClientTransactionOutput (self : MassCalculator)
    (output : TransactionOutput) : ℕ :=
  self.massPerScriptPubKeyByte * (2 + output.scriptPublicKey.script.length) +
    transactionOutputSerializedByteSize output * self.massPerTxByte

def calcComputeMassForClientTransactionOutputs (self : MassCalculator)
    (outputs : List TransactionOutput) : ℕ :=
  (outputs.map self.calcComputeMassForClientTransactionOutput).sum

def calcComputeMassForClientTransactionInput (self : MassCalculator)
    (input : TransactionInput) : ℕ :=
  input.sigOpCount.toNat * self.massPerSigOp +
    transactionInputSerializedByteSize input * self.massPerTxByte

def calcComputeMassForSignature (self : MassCalculator) (minimumSignatures : ℕ) : ℕ :=
  signatureSize * self.massPerTxByte * max minimumSignatures 1

def calcComputeMassForUnsignedConsensusTransaction (self : MassCalculator) (tx : Transaction)
    (minimumSignatures : ℕ) : ℕ :=
  self.blankTransactionComputeMass + self.calcComputeMassForPayload tx.payload.length +
    self.calcComputeMassForClientTransactionOutputs tx.outputs +
    (tx.inputs.map self.calcComputeMassForClientTransactionInput).sum +
    signatureSize * self.massPerTxByte * max minimumSignatures 1 * tx.inputs.length

def calcFeeForMass (mass : ℕ) : ℕ := mass

def combineMass (computeMass storageMass : ℕ) : ℕ := max computeMass storageMass

/-- `calc_storage_mass_output_harmonic`; `none` is its own `None`. -/
def calcStorageMassOutputHarmonic (self : MassCalculator) (outputs : List TransactionOutput) :
    Option ℕ :=
  outputs.foldlM (fun total output => do
    checkedAdd total (← checkedDiv self.storageMassParameter output.value)) 0

def calcStorageMassOutputHarmonicSingle (self : MassCalculator) (outputValue : ℕ) : Option ℕ :=
  checkedDiv self.storageMassParameter outputValue

def calcStorageMassInputMeanArithmetic (self : MassCalculator)
    (totalInputValue numberOfInputs : ℕ) : Option ℕ := do
  let meanInputValue ← checkedDiv totalInputValue numberOfInputs
  return saturatingMul numberOfInputs (← checkedDiv self.storageMassParameter meanInputValue)

def calcStorageMass (self : MassCalculator) (outputHarmonic totalInputValue numberOfInputs : ℕ) :
    Option ℕ := do
  return outputHarmonic -
    (← self.calcStorageMassInputMeanArithmetic totalInputValue numberOfInputs)

/-- `calc_overall_mass_for_unsigned_consensus_transaction`; the inner `none` is the error
`MassCalculationError`. -/
def calcOverallMassForUnsignedConsensusTransaction (self : MassCalculator) (tx : Transaction)
    (utxos : List UtxoEntryReference) (minimumSignatures : ℕ) : Option (Option ℕ) := do
  match ← Tx.calcStorageMass false (utxos.map UtxoEntryReference.cell) (tx.outputs.map outputCell)
      self.storageMassParameter with
  | none => return none
  | some storageMass =>
    return some (combineMass
      (self.calcComputeMassForUnsignedConsensusTransaction tx minimumSignatures) storageMass)

end MassCalculator

end LapisMonetae.Wallet
