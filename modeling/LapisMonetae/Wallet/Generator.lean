import LapisMonetae.Wallet.Mass

/-!
# The transaction generator of the wallet

`Generator` accumulates UTXO entries as the inputs of a transaction until the requested outputs and
the fees are covered. A transaction that becomes too heavy before is sent to the change address;
the outputs of these relay transactions are the inputs of the next stage. Each call of
`generateTransaction` produces one transaction.

Iterators over entries are the lists of the entries still to come, where a missing iterator is an
empty list. The floating point product of
the fee rate with a mass is a function of the mass, and the id of a transaction a function of its
inputs, outputs and payload. An abort trigger is given by the rounds in which its check fires.
Contexts, signers and events play no role here and are left out.
-/

namespace LapisMonetae.Wallet

open Utxo Tx Program

/-- The errors of the generator. -/
inductive GeneratorError
  | aborted
  | insufficientFunds (additionalNeeded : ℕ) (origin : String)
  | storageMassExceedsMaximumTransactionMass (storageMass : ℕ)
  | generatorTransactionIsTooHeavy
  | transactionFeesAreTooHigh
  | massCalculationError
  | generatorFeesInSweepTransaction
  | generatorNoFeesForFinalTransaction
  | generatorPaymentOutputNetworkTypeMismatch
  | generatorPaymentOutputZeroAmount
  | generatorIncludeFeesRequiresOneOutput
  | generatorChangeAddressNetworkTypeMismatch
  | generatorTransactionOutputsAreTooHeavy (mass : ℕ) (kind : String)
deriving DecidableEq, Repr

/-! ## Settings -/

inductive Fees
  | none
  | senderPays (fee : ℕ)
  | receiverPays (fee : ℕ)
deriving DecidableEq, Repr

namespace Fees

def isNone : Fees → Bool
  | none => true
  | _ => false

/-- `sender_pays`. -/
def paidBySender : Fees → Bool
  | senderPays _ => true
  | _ => false

/-- `receiver_pays`. -/
def paidByReceiver : Fees → Bool
  | receiverPays _ => true
  | _ => false

def additional : Fees → ℕ
  | senderPays fee => fee
  | _ => 0

end Fees

/-- A fee rate, by the fee for each mass: `(fee_rate * mass as f64) as u64`. -/
structure FeeRate where
  fee : ℕ → ℕ
  fee_le : ∀ mass, fee mass ≤ u64Max

structure PaymentOutput where
  address : Address
  amount : ℕ
deriving DecidableEq

inductive PaymentDestination
  | change
  | paymentOutputs (outputs : List PaymentOutput)
deriving DecidableEq

structure GeneratorSettings where
  network : NetworkType
  utxoIterator : List UtxoEntryReference
  priorityUtxoEntries : List UtxoEntryReference
  sigOpCount : UInt8
  minimumSignatures : ℕ
  changeAddress : Address
  feeRate : Option FeeRate
  finalTransactionPriorityFee : Fees
  finalTransactionDestination : PaymentDestination
  finalTransactionPayload : Option (List UInt8)

def NetworkType.additionalCompoundTransactionMass : NetworkType → ℕ
  | .mainnet => 100
  | .testnet => 100
  | .devnet => 0
  | .simnet => 0

/-! ## The state of the generator -/

structure FinalTransaction where
  valueNoFees : ℕ
  valueWithPriorityFee : ℕ
deriving DecidableEq, Repr

/-- `Inner`: the settings of a generator with what is calculated from them. -/
structure Inner where
  massCalculator : MassCalculator
  additionalCompoundTransactionMass : ℕ
  sigOpCount : UInt8
  minimumSignatures : ℕ
  changeAddress : Address
  standardChangeOutputComputeMass : ℕ
  signatureMassPerInput : ℕ
  feeRate : Option FeeRate
  finalTransaction : Option FinalTransaction
  finalTransactionPriorityFee : Fees
  finalTransactionOutputs : List TransactionOutput
  finalTransactionOutputsHarmonic : ℕ
  finalTransactionOutputsComputeMass : ℕ
  finalTransactionPayload : List UInt8
  finalTransactionPayloadMass : ℕ

structure Stage where
  utxoIterator : List UtxoEntryReference
  utxoAccumulator : List UtxoEntryReference
  aggregateInputValue : ℕ
  aggregateFees : ℕ
  numberOfTransactions : ℕ
deriving DecidableEq

/-- The default of `Stage`. -/
def Stage.default : Stage := ⟨[], [], 0, 0, 0⟩

def Stage.new (previous : Stage) : Stage := ⟨previous.utxoAccumulator, [], 0, 0, 0⟩

/-- The stage with the output of another transaction. -/
def Stage.addOutput (stage : Stage) (entry : UtxoEntryReference) : Stage :=
  { stage with
    utxoAccumulator := stage.utxoAccumulator ++ [entry]
    numberOfTransactions := stage.numberOfTransactions + 1 }

structure Context where
  utxoSourceIterator : List UtxoEntryReference
  priorityUtxoEntries : List UtxoEntryReference
  priorityUtxoEntryFilter : List UtxoEntryReference
  aggregatedUtxos : ℕ
  aggregateFees : ℕ
  aggregateMass : ℕ
  numberOfTransactions : ℕ
  numberOfStages : ℕ
  stage : Option Stage
  utxoStash : List UtxoEntryReference
  finalTransactionId : Option Hash
  isDone : Bool
deriving DecidableEq

structure Data where
  inputs : List TransactionInput
  utxoEntryReferences : List UtxoEntryReference
  addresses : List Address
  aggregateMass : ℕ
  transactionFees : ℕ
  aggregateInputValue : ℕ
  changeOutputValue : Option ℕ
deriving DecidableEq

def Data.new (massCalculator : MassCalculator) : Data :=
  ⟨[], [], [], massCalculator.blankTransactionComputeMass, 0, 0, none⟩

/-- What a call works on: the context, the stage that is taken out of it, and the data of the
transaction. -/
structure Job where
  context : Context
  stage : Stage
  data : Data
deriving DecidableEq

inductive DataKind
  | noOp | node | edge | final
deriving DecidableEq, Repr

structure MassDisposition where
  transactionMass : ℕ
  storageMass : ℕ
  transactionFees : ℕ
  absorbChangeToFees : Bool
deriving DecidableEq, Repr

structure PendingTransaction where
  tx : Transaction
  utxoEntries : List UtxoEntryReference
  addresses : List Address
  paymentValue : Option ℕ
  changeOutputIndex : Option ℕ
  changeOutputValue : ℕ
  aggregateInputValue : ℕ
  aggregateOutputValue : ℕ
  minimumSignatures : ℕ
  mass : ℕ
  fees : ℕ
  kind : DataKind
deriving DecidableEq

/-- What a call returns: a transaction if there is one left, or an error. -/
abbrev GeneratorResult : Type := Except GeneratorError (Option PendingTransaction)

/-! ## Construction -/

/-- The checks of the requested outputs. -/
def checkPaymentOutputs (network : NetworkType) : List PaymentOutput → Except GeneratorError Unit
  | [] => .ok ()
  | output :: outputs =>
    if output.address.network ≠ network then .error .generatorPaymentOutputNetworkTypeMismatch
    else if output.amount = 0 then .error .generatorPaymentOutputZeroAmount
    else checkPaymentOutputs network outputs

/-- The output that a payment asks for. -/
def PaymentOutput.toTransactionOutput (output : PaymentOutput) : TransactionOutput :=
  ⟨output.amount, payToAddressScript output.address⟩

/-- The outputs of the final transaction and their sum. The sum panics on overflow. -/
def finalTransactionOutputsOf (settings : GeneratorSettings) :
    Option (Except GeneratorError (List TransactionOutput × Option ℕ)) :=
  match settings.finalTransactionDestination with
  | .change =>
    if !settings.finalTransactionPriorityFee.isNone then
      some (.error .generatorFeesInSweepTransaction)
    else
      some (.ok ([], none))
  | .paymentOutputs outputs =>
    if settings.finalTransactionPriorityFee.isNone then
      some (.error .generatorNoFeesForFinalTransaction)
    else
      match checkPaymentOutputs settings.network outputs with
      | .error e => some (.error e)
      | .ok _ => do
        let amount ← outputs.foldlM (fun total output => checkedAdd total output.amount) 0
        return .ok (outputs.map PaymentOutput.toTransactionOutput, some amount)

/-- The amounts of the final transaction. -/
def finalTransactionOf (settings : GeneratorSettings) :
    Option ℕ → Option (Option FinalTransaction)
  | none => some none
  | some amount => do
    return some ⟨amount, ← checkedAdd amount settings.finalTransactionPriorityFee.additional⟩

/-- The parts of a generator that do not change. -/
def Inner.ofSettings (settings : GeneratorSettings) (outputs : List TransactionOutput)
    (outputsHarmonic : ℕ) (finalTransaction : Option FinalTransaction) : Inner :=
  let massCalculator := MassCalculator.standard
  let payload := settings.finalTransactionPayload.getD []
  { massCalculator
    additionalCompoundTransactionMass := settings.network.additionalCompoundTransactionMass
    sigOpCount := settings.sigOpCount
    minimumSignatures := settings.minimumSignatures
    changeAddress := settings.changeAddress
    standardChangeOutputComputeMass := massCalculator.calcComputeMassForClientTransactionOutput
      ⟨0, payToAddressScript settings.changeAddress⟩
    signatureMassPerInput := massCalculator.calcComputeMassForSignature settings.minimumSignatures
    feeRate := settings.feeRate
    finalTransaction
    finalTransactionPriorityFee := settings.finalTransactionPriorityFee
    finalTransactionOutputs := outputs
    finalTransactionOutputsHarmonic := outputsHarmonic
    finalTransactionOutputsComputeMass :=
      massCalculator.calcComputeMassForClientTransactionOutputs outputs
    finalTransactionPayload := payload
    finalTransactionPayloadMass := massCalculator.calcComputeMassForPayload payload.length }

/-- The context of a new generator. -/
def Context.ofSettings (settings : GeneratorSettings) : Context where
  utxoSourceIterator := settings.utxoIterator
  priorityUtxoEntries := settings.priorityUtxoEntries
  priorityUtxoEntryFilter := settings.priorityUtxoEntries
  aggregatedUtxos := 0
  aggregateFees := 0
  aggregateMass := 0
  numberOfTransactions := 0
  numberOfStages := 0
  stage := some Stage.default
  utxoStash := []
  finalTransactionId := none
  isDone := false

def tryNew (settings : GeneratorSettings) : Option (Except GeneratorError (Inner × Context)) := do
  match ← finalTransactionOutputsOf settings with
  | .error e => return .error e
  | .ok (outputs, amount) =>
    if outputs.isEmpty && settings.finalTransactionPriorityFee.paidByReceiver then
      return .error .generatorIncludeFeesRequiresOneOutput
    else if settings.changeAddress.network ≠ settings.network then
      return .error .generatorChangeAddressNetworkTypeMismatch
    else
      match MassCalculator.standard.calcStorageMassOutputHarmonic outputs with
      | none => return .error .massCalculationError
      | some outputsHarmonic => do
        let finalTransaction ← finalTransactionOf settings amount
        let inner := Inner.ofSettings settings outputs outputsHarmonic finalTransaction
        let massSanityCheck := inner.standardChangeOutputComputeMass +
          inner.finalTransactionOutputsComputeMass + inner.finalTransactionPayloadMass
        if maximumStandardTransactionMass / 5 * 4 < massSanityCheck then
          return .error (.generatorTransactionOutputsAreTooHeavy massSanityCheck "compute mass")
        else
          return .ok (inner, Context.ofSettings settings)

/-! ## Sources of entries -/

/-- Where a call takes its entries from, in the order in which it asks: the stash, the outputs of
the previous stage, the priority entries and the source. -/
structure Sources where
  utxoStash : List UtxoEntryReference
  stageIterator : List UtxoEntryReference
  priorityUtxoEntries : List UtxoEntryReference
  utxoSourceIterator : List UtxoEntryReference
deriving DecidableEq

/-- The number of entries that the sources hold, those in the filter included. -/
def Sources.count (sources : Sources) : ℕ :=
  sources.utxoStash.length + sources.stageIterator.length + sources.priorityUtxoEntries.length +
    sources.utxoSourceIterator.length

/-- Whether the filter contains the entry. -/
def inFilter (filter : List UtxoEntryReference) (entry : UtxoEntryReference) : Bool :=
  filter.any fun other => other.outpoint = entry.outpoint

/-- The next entry of the source that the filter does not contain. -/
def nextOfSource (filter : List UtxoEntryReference) :
    List UtxoEntryReference → Option UtxoEntryReference × List UtxoEntryReference
  | [] => (none, [])
  | entry :: rest =>
    if inFilter filter entry then nextOfSource filter rest else (some entry, rest)

/-- The next entry of the sources. -/
def Sources.next (filter : List UtxoEntryReference) (sources : Sources) :
    Option UtxoEntryReference × Sources :=
  match sources.utxoStash, sources.stageIterator, sources.priorityUtxoEntries with
  | entry :: rest, _, _ => (some entry, { sources with utxoStash := rest })
  | [], entry :: rest, _ => (some entry, { sources with stageIterator := rest })
  | [], [], entry :: rest => (some entry, { sources with priorityUtxoEntries := rest })
  | [], [], [] =>
    let (entry, rest) := nextOfSource filter sources.utxoSourceIterator
    (entry, { sources with utxoSourceIterator := rest })

namespace Job

/-- The sources of a job. -/
def sources (job : Job) : Sources :=
  ⟨job.context.utxoStash, job.stage.utxoIterator, job.context.priorityUtxoEntries,
    job.context.utxoSourceIterator⟩

/-- The job with other sources. -/
def withSources (job : Job) (sources : Sources) : Job :=
  { job with
    context := { job.context with
      utxoStash := sources.utxoStash
      priorityUtxoEntries := sources.priorityUtxoEntries
      utxoSourceIterator := sources.utxoSourceIterator }
    stage := { job.stage with utxoIterator := sources.stageIterator } }

/-- `utxo_stash.push_back`. -/
def pushStash (job : Job) (entry : UtxoEntryReference) : Job :=
  { job with context := { job.context with utxoStash := job.context.utxoStash ++ [entry] } }

/-- The mass, the fees and the change of the transaction, with its fees added to those of the
stage and of the generator. -/
def charge (job : Job) (mass fees : ℕ) (change : Option ℕ) : Job where
  context := { job.context with aggregateFees := job.context.aggregateFees + fees }
  stage := { job.stage with aggregateFees := job.stage.aggregateFees + fees }
  data := { job.data with
    aggregateMass := mass, transactionFees := fees, changeOutputValue := change }

/-- The charge with the additions on `u64`. -/
def checkedCharge (job : Job) (mass fees : ℕ) (change : Option ℕ) : Option Job := do
  let _ ← checkedAdd job.stage.aggregateFees fees
  let _ ← checkedAdd job.context.aggregateFees fees
  return job.charge mass fees change

end Job

def getUtxoEntry (job : Job) : Option UtxoEntryReference × Job :=
  let (entry, sources) := job.sources.next job.context.priorityUtxoEntryFilter
  (entry, job.withSources sources)

def hasUtxoEntries (job : Job) : Bool × Job :=
  match getUtxoEntry job with
  | (some entry, job) => (true, job.pushStash entry)
  | (none, job) => (false, job)

namespace Inner

variable (inner : Inner)

/-! ## Fees and masses -/

def calcFeeRate (mass : ℕ) : ℕ := (inner.feeRate.map fun rate => rate.fee mass).getD 0

def calcFeesFromMass (mass : ℕ) : ℕ :=
  max (calcMinimumRequiredTransactionRelayFee mass) (inner.calcFeeRate mass)

def calcRelayTransactionMass (data : Data) : ℕ :=
  data.aggregateMass + inner.standardChangeOutputComputeMass

def calcRelayTransactionComputeFees (data : Data) : ℕ :=
  inner.calcFeesFromMass (inner.calcRelayTransactionMass data)

def calcStorageMass (data : Data) (outputHarmonics : ℕ) : Option ℕ :=
  inner.massCalculator.calcStorageMass outputHarmonics data.aggregateInputValue data.inputs.length

/-- The input that spends an entry, before it is signed. -/
def input (entry : UtxoEntryReference) : TransactionInput :=
  ⟨entry.outpoint, [], 0, inner.sigOpCount⟩

/-- The mass of an input with its signatures. -/
def inputComputeMass (entry : UtxoEntryReference) : ℕ :=
  inner.massCalculator.calcComputeMassForClientTransactionInput (inner.input entry) +
    inner.signatureMassPerInput

/-! ## Accumulation -/

def aggregateUtxo (job : Job) (entry : UtxoEntryReference) : Option (Option DataKind × Job) :=
  if maximumStandardTransactionMass <
      job.data.aggregateMass + inner.inputComputeMass entry +
        inner.standardChangeOutputComputeMass + inner.additionalCompoundTransactionMass then do
    -- the entry does not fit: it is kept for the next transaction
    let data := { job.data with
      aggregateMass := job.data.aggregateMass +
        (inner.standardChangeOutputComputeMass + inner.additionalCompoundTransactionMass) }
    let job ← (job.pushStash entry).checkedCharge data.aggregateMass
      (inner.calcRelayTransactionComputeFees data) data.changeOutputValue
    return (some .node, job)
  else do
    let stageValue ← checkedAdd job.stage.aggregateInputValue entry.amount
    let dataValue ← checkedAdd job.data.aggregateInputValue entry.amount
    return (none,
      { context := { job.context with aggregatedUtxos := job.context.aggregatedUtxos + 1 }
        stage := { job.stage with aggregateInputValue := stageValue }
        data := { job.data with
          aggregateInputValue := dataValue
          aggregateMass := job.data.aggregateMass + inner.inputComputeMass entry
          utxoEntryReferences := job.data.utxoEntryReferences ++ [entry]
          inputs := job.data.inputs ++ [inner.input entry]
          addresses := entry.address.elim job.data.addresses job.data.addresses.insert } })

def finishRelayStageProcessing (job : Job) : Option (Except GeneratorError DataKind × Job) := do
  let fees := inner.calcRelayTransactionComputeFees job.data
  let job ← job.checkedCharge job.data.aggregateMass fees job.data.changeOutputValue
  let relayMass := inner.calcRelayTransactionMass job.data
  if job.context.aggregatedUtxos < 2 then
    return (.ok .noOp, job)
  else if 0 < job.stage.numberOfTransactions then
    return (.ok .edge, { job with data := { job.data with aggregateMass := relayMass } })
  else if job.data.aggregateInputValue < fees then
    return (.error (.insufficientFunds (fees - job.data.aggregateInputValue) "relay"), job)
  else if MassCalculator.isDust (job.data.aggregateInputValue - fees) then
    return (.ok .noOp, job)
  else
    return (.ok .final, { job with data := { job.data with
      aggregateMass := relayMass
      changeOutputValue := some (job.data.aggregateInputValue - fees) } })

/-! ## Finishing a stage -/

/-- The storage mass that `calculate_mass` reckons with, and whether the change is absorbed. -/
def storageMassOf (job : Job) (target computeMassWithChange : ℕ) : Option (ℕ × Bool) := do
  let outputsHarmonic := inner.finalTransactionOutputsHarmonic
  let value := job.data.aggregateInputValue
  if 0 < job.stage.numberOfTransactions then
    -- a stage with transactions ends with an edge transaction
    let edgeFees := inner.calcFeesFromMass
      (job.data.aggregateMass + inner.standardChangeOutputComputeMass)
    if value - edgeFees ≠ 0 then
      let harmonic ← inner.massCalculator.calcStorageMassOutputHarmonicSingle (value - edgeFees)
      return (← inner.calcStorageMass job.data harmonic, false)
    else
      return (0, false)
  else if value ≤ target then
    return (← inner.calcStorageMass job.data outputsHarmonic, false)
  else
    let changeValue := value - target
    if MassCalculator.isDust changeValue then
      return (← inner.calcStorageMass job.data outputsHarmonic, true)
    else
      let single ← inner.massCalculator.calcStorageMassOutputHarmonicSingle changeValue
      let massWithChange ← inner.calcStorageMass job.data (← checkedAdd single outputsHarmonic)
      if massWithChange = 0 ∨ massWithChange < computeMassWithChange then
        return (0, false)
      else
        let massNoChange ← inner.calcStorageMass job.data outputsHarmonic
        if massWithChange < massNoChange then
          return (massWithChange, false)
        else
          let difference := MassCalculator.calcFeeForMass massWithChange -
            MassCalculator.calcFeeForMass massNoChange
          return if changeValue < difference then (massNoChange, true) else (massWithChange, false)

def calculateMass (job : Job) (target : ℕ) : Option (Except GeneratorError MassDisposition) := do
  let computeMassWithChange := job.data.aggregateMass + inner.standardChangeOutputComputeMass +
    inner.finalTransactionOutputsComputeMass + inner.finalTransactionPayloadMass
  let (storageMass, absorbChangeToFees) ← inner.storageMassOf job target computeMassWithChange
  if maximumStandardTransactionMass < storageMass then
    return .error (.storageMassExceedsMaximumTransactionMass storageMass)
  else
    let transactionMass := MassCalculator.combineMass computeMassWithChange storageMass
    return .ok ⟨transactionMass, storageMass, inner.calcFeesFromMass transactionMass,
      absorbChangeToFees⟩

def generateEdgeTransaction (job : Job) :
    Option (Except GeneratorError (Option DataKind) × Job) := do
  let computeMass := job.data.aggregateMass + inner.standardChangeOutputComputeMass +
    inner.additionalCompoundTransactionMass
  let computeFees := inner.calcFeesFromMass computeMass
  let harmonic ← inner.massCalculator.calcStorageMassOutputHarmonicSingle
    (job.data.aggregateInputValue - computeFees)
  let storageMass ← inner.calcStorageMass job.data harmonic
  let transactionMass := MassCalculator.combineMass computeMass storageMass
  if maximumStandardTransactionMass < transactionMass then
    match hasUtxoEntries job with
    | (true, job) => return (.ok none, job)
    | (false, job) => return (.error .generatorTransactionIsTooHeavy, job)
  else
    let job ← job.checkedCharge transactionMass (inner.calcFeesFromMass transactionMass)
      job.data.changeOutputValue
    return (.ok (some .edge), job)

/-- Whether the inputs of the stage do not cover what the final transaction needs. Without a
payer of the fees the source panics. -/
def rejects (job : Job) (finalTransaction : FinalTransaction) (transactionFees : ℕ) :
    Option Bool :=
  match inner.finalTransactionPriorityFee with
  | .senderPays _ => do
    let needed ← checkedAdd finalTransaction.valueWithPriorityFee job.stage.aggregateFees
    let needed ← checkedAdd needed transactionFees
    return job.stage.aggregateInputValue < needed
  | .receiverPays _ => do
    let available ← checkedAdd job.stage.aggregateInputValue job.context.aggregateFees
    return available < finalTransaction.valueWithPriorityFee
  | .none => none

/-- The fees of the final transaction with the priority fee, and the value of its change. -/
def feesAndChange (job : Job) (finalTransaction : FinalTransaction) (transactionFees : ℕ) :
    Option (ℕ × ℕ) :=
  match inner.finalTransactionPriorityFee with
  | .senderPays priorityFees => do
    let fees ← checkedAdd transactionFees priorityFees
    let rest ← checkedSub job.data.aggregateInputValue finalTransaction.valueNoFees
    return (fees, ← checkedSub rest fees)
  | .receiverPays priorityFees => do
    let fees ← checkedAdd transactionFees priorityFees
    return (fees, job.data.aggregateInputValue - finalTransaction.valueNoFees)
  | .none => none

/-- The end of `try_finish_standard_stage_processing`: the final transaction. -/
def finishFinal (job : Job) (finalTransaction : FinalTransaction) (disposition : MassDisposition) :
    Option (Except GeneratorError (Option DataKind) × Job) := do
  let (fees, change) ← inner.feesAndChange job finalTransaction disposition.transactionFees
  if disposition.absorbChangeToFees ∨ change = 0 then
    let fees ← checkedAdd fees change
    let computeMass := job.data.aggregateMass + inner.finalTransactionOutputsComputeMass +
      inner.finalTransactionPayloadMass
    let storageMass ← inner.calcStorageMass job.data inner.finalTransactionOutputsHarmonic
    -- the change is added to the fees a second time
    let fees ← checkedAdd fees change
    let job ← job.checkedCharge (MassCalculator.combineMass computeMass storageMass) fees
      job.data.changeOutputValue
    return (.ok (some .final), job)
  else
    let job ← job.checkedCharge disposition.transactionMass fees (some change)
    return (.ok (some .final), job)

def tryFinishStandardStageProcessing (job : Job) (finalTransaction : FinalTransaction) :
    Option (Except GeneratorError (Option DataKind) × Job) := do
  match ← inner.calculateMass job finalTransaction.valueWithPriorityFee with
  | .error e => return (.error e, job)
  | .ok disposition =>
    if ← inner.rejects job finalTransaction disposition.transactionFees then
      return (.ok none, job)
    else if maximumStandardTransactionMass < disposition.transactionMass ∨
        0 < job.stage.numberOfTransactions then
      inner.generateEdgeTransaction job
    else if 0 < disposition.storageMass ∧
        job.data.inputs.length < inner.finalTransactionOutputs.length * 2 ∧
        disposition.transactionMass < maximumStandardTransactionMass / 5 * 4 then
      -- another input may lower the storage mass
      match hasUtxoEntries job with
      | (true, job) => return (.ok none, job)
      | (false, job) => inner.finishFinal job finalTransaction disposition
    else
      inner.finishFinal job finalTransaction disposition

/-- Whether a round of the loop tries to finish the stage. -/
def triesToFinish (job : Job) (finalTransaction : FinalTransaction) : Bool :=
  maximumStandardTransactionMass / 5 * 4 < job.data.aggregateMass ||
  (inner.finalTransactionPriorityFee.paidBySender &&
    finalTransaction.valueWithPriorityFee ≤ job.stage.aggregateInputValue) ||
  (inner.finalTransactionPriorityFee.paidByReceiver &&
    finalTransaction.valueNoFees - job.context.aggregateFees ≤ job.stage.aggregateInputValue)

/-- A round of the loop of `generate_transaction_data`: it takes an entry. Without a result the
loop goes on. -/
def round (job : Job) : Option (Option (Except GeneratorError DataKind) × Job) :=
  match getUtxoEntry job, inner.finalTransaction with
  | (none, job), some finalTransaction =>
    some (some (.error (.insufficientFunds
      (finalTransaction.valueWithPriorityFee - job.stage.aggregateInputValue) "accumulator")), job)
  | (none, job), none => do
    let (result, job) ← inner.finishRelayStageProcessing job
    return (some result, job)
  | (some entry, job), finalTransaction => do
    match ← inner.aggregateUtxo job entry, finalTransaction with
    | (some kind, job), _ => return (some (.ok kind), job)
    | (none, job), none => return (none, job)
    | (none, job), some finalTransaction =>
      if inner.triesToFinish job finalTransaction then
        match ← inner.tryFinishStandardStageProcessing job finalTransaction with
        | (.error e, job) => return (some (.error e), job)
        | (.ok (some kind), job) => return (some (.ok kind), job)
        | (.ok none, job) => return (none, job)
      else
        return (none, job)

/-- The loop of `generate_transaction_data`. -/
def dataLoop (abort : ℕ → Bool) : ℕ → Job → Option (Except GeneratorError DataKind × Job)
  | 0, _ => none
  | rounds + 1, job =>
    if abort rounds then
      some (.error .aborted, job)
    else do
      match ← inner.round job with
      | (some result, job) => return (result, job)
      | (none, job) => dataLoop abort rounds job

/-- `generate_transaction_data`. A round for each entry, and one that finds none, are enough. -/
def generateTransactionData (abort : ℕ → Bool) (context : Context) (stage : Stage) :
    Option (Except GeneratorError DataKind × Job) :=
  let job : Job := ⟨context, stage, Data.new inner.massCalculator⟩
  inner.dataLoop abort (job.sources.count + 1) job

/-! ## Generation -/

def createBatchUtxoEntryReference (txid : Hash) (amount : ℕ) (scriptPublicKey : ScriptPublicKey)
    (address : Address) : UtxoEntryReference where
  address := some address
  outpoint := ⟨txid, 0⟩
  amount
  scriptPublicKey
  blockDaaScore := u64Max
  isCoinbase := false

section

-- the id of a transaction with the given inputs, outputs and payload
variable (txId : List TransactionInput → List TransactionOutput → List UInt8 → Hash)

/-- `Transaction::new`, of version 0 and without a lock time. -/
def newTransaction (inputs : List TransactionInput) (outputs : List TransactionOutput)
    (payload : List UInt8) : Transaction where
  id := txId inputs outputs payload
  version := 0
  inputs
  outputs
  lockTime := 0
  mass := 0
  payload

/-- The mass of a new transaction; the inner `none` is the error `MassCalculationError`. -/
def massOf (tx : Transaction) (data : Data) : Option (Option ℕ) :=
  inner.massCalculator.calcOverallMassForUnsignedConsensusTransaction tx data.utxoEntryReferences
    inner.minimumSignatures

/-- `PendingTransaction::try_new`. It panics when there is not one entry for each input. -/
def pendingTransaction (tx : Transaction) (data : Data) (changeOutputIndex : Option ℕ)
    (changeOutputValue aggregateOutputValue mass : ℕ) (kind : DataKind) :
    Option PendingTransaction :=
  if tx.inputs.length = data.utxoEntryReferences.length then
    some
      { tx := { tx with mass }
        utxoEntries := data.utxoEntryReferences
        addresses := data.addresses
        paymentValue := inner.finalTransaction.map FinalTransaction.valueNoFees
        changeOutputIndex
        changeOutputValue
        aggregateInputValue := data.aggregateInputValue
        aggregateOutputValue
        minimumSignatures := inner.minimumSignatures
        mass
        fees := data.transactionFees
        kind }
  else none

/-- The requested outputs, the first of which pays the fees when the receiver does. -/
def requestedOutputs (data : Data) : Option (List TransactionOutput) :=
  if inner.finalTransactionPriorityFee.paidByReceiver then
    match inner.finalTransactionOutputs with
    | [] => none
    | output :: outputs => do
      let value ← if data.aggregateInputValue < output.value then
          checkedSub data.aggregateInputValue data.transactionFees
        else
          checkedSub output.value data.transactionFees
      return { output with value } :: outputs
  else
    some inner.finalTransactionOutputs

/-- The final transaction of `generate_transaction`. -/
def generateFinal (context : Context) (data : Data) :
    Option (GeneratorResult × Context) := do
  let requested ← inner.requestedOutputs data
  let change := data.changeOutputValue.getD 0
  let outputs := if 0 < change then
      requested ++ [⟨change, payToAddressScript inner.changeAddress⟩]
    else requested
  let outputValue ← outputs.foldlM (fun total output => checkedAdd total output.value) 0
  if data.aggregateInputValue < outputValue then
    return (.error (.insufficientFunds (outputValue - data.aggregateInputValue) "final"), context)
  else
    let tx := newTransaction txId data.inputs outputs inner.finalTransactionPayload
    match ← inner.massOf tx data with
    | none => return (.error .massCalculationError, context)
    | some mass =>
      if maximumStandardTransactionMass < mass then
        return (.error .massCalculationError, context)
      else
        let pending ← inner.pendingTransaction tx data
          (if 0 < change then some requested.length else none) change outputValue mass .final
        return (.ok (some pending), { context with
          aggregateMass := context.aggregateMass + mass
          finalTransactionId := some tx.id
          numberOfStages := context.numberOfStages + 1
          numberOfTransactions := context.numberOfTransactions + 1 })

/-- A transaction of `generate_transaction` that sends its inputs to the change address. -/
def generateRelay (context : Context) (stage : Stage) (data : Data) (isEdge : Bool) :
    Option (GeneratorResult × Context) := do
  if data.changeOutputValue ≠ none then
    none
  else if data.aggregateInputValue ≤ data.transactionFees then
    return (.error .transactionFeesAreTooHigh, { context with stage := some stage })
  else
    let value := data.aggregateInputValue - data.transactionFees
    let scriptPublicKey := payToAddressScript inner.changeAddress
    let tx := newTransaction txId data.inputs [⟨value, scriptPublicKey⟩] []
    match ← inner.massOf tx data with
    | none => return (.error .massCalculationError, { context with stage := some stage })
    | some mass =>
      let mass := saturatingAdd mass inner.additionalCompoundTransactionMass
      if maximumStandardTransactionMass < mass then
        return (.error .massCalculationError, { context with stage := some stage })
      else
        let stage := stage.addOutput
          (createBatchUtxoEntryReference tx.id value scriptPublicKey inner.changeAddress)
        let pending ← inner.pendingTransaction tx data none value value mass
          (if isEdge then .edge else .node)
        return (.ok (some pending), { context with
          aggregateMass := context.aggregateMass + mass
          numberOfTransactions := context.numberOfTransactions + 1
          numberOfStages := context.numberOfStages + if isEdge then 1 else 0
          stage := some (if isEdge then Stage.new stage else stage) })

def generateTransaction (abort : ℕ → Bool) (context : Context) :
    Option (GeneratorResult × Context) := do
  if context.isDone then
    return (.ok none, context)
  else
    let stage ← context.stage
    match ← inner.generateTransactionData abort { context with stage := none } stage with
    | (.error e, job) => return (.error e, job.context)
    | (.ok .noOp, job) => return (.ok none, { job.context with isDone := true })
    | (.ok .final, job) =>
      inner.generateFinal txId { job.context with isDone := true } job.data
    | (.ok .node, job) => inner.generateRelay txId job.context job.stage job.data false
    | (.ok .edge, job) => inner.generateRelay txId job.context job.stage job.data true

end

end Inner

end LapisMonetae.Wallet
