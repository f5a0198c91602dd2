import LapisMonetae.Wallet.Generator

/-!
# What a call of the generator does

The sources of a job are one list of pending entries. A round of the loop takes the first of them
or ends the loop, and however a call ends, its transaction spends the entries that were taken.
-/

namespace LapisMonetae.Wallet

open Utxo Tx List MassCalculator Option Nat

/-! ## Fees -/

variable {change : Option ℕ}

lemma Job.checkedCharge_eq_some {job job' : Job} {mass fees : ℕ} :
    job.checkedCharge mass fees change = some job' ↔
      (job.stage.aggregateFees + fees ≤ u64Max ∧ job.context.aggregateFees + fees ≤ u64Max) ∧
        job.charge mass fees change = job' := by
  simp only [checkedCharge, bind_eq_bind, bind_eq_some_iff, checkedAdd_eq_some,
    Option.pure_def, Option.some.injEq]
  constructor
  · rintro ⟨_, ⟨hs, -⟩, _, ⟨hc, -⟩, h⟩
    exact ⟨⟨hs, hc⟩, h⟩
  · rintro ⟨⟨hs, hc⟩, h⟩
    exact ⟨_, ⟨hs, rfl⟩, _, ⟨hc, rfl⟩, h⟩

/-! ## Pending entries -/

/-- The entries that the sources will give, in their order. -/
def Sources.pending (filter : List UtxoEntryReference) (sources : Sources) :
    List UtxoEntryReference :=
  sources.utxoStash ++ (sources.stageIterator ++ (sources.priorityUtxoEntries ++
    sources.utxoSourceIterator.filter fun entry => !inFilter filter entry))

/-- The entries that a job can still take. -/
def Job.pending (job : Job) : List UtxoEntryReference :=
  job.sources.pending job.context.priorityUtxoEntryFilter

section

variable {filter : List UtxoEntryReference}
variable {l rest : List UtxoEntryReference} {sources sources' : Sources}
  {entry : UtxoEntryReference}

lemma nextOfSource_none (h : nextOfSource filter l = (none, rest)) :
    (l.filter fun entry => !inFilter filter entry) = [] ∧ rest = [] := by
  induction l with
  | nil =>
    cases h
    exact ⟨rfl, rfl⟩
  | cons entry l ih =>
    rw [nextOfSource] at h
    split at h
    next hin => rw [filter_cons_of_neg (by simp [hin])]; exact ih h
    next => cases h

lemma nextOfSource_some (h : nextOfSource filter l = (some entry, rest)) :
    (l.filter fun entry => !inFilter filter entry) =
        entry :: rest.filter (fun entry => !inFilter filter entry) ∧
      rest.length < l.length := by
  induction l with
  | nil => cases h
  | cons first l ih =>
    rw [nextOfSource] at h
    split at h
    next hin =>
      rw [filter_cons_of_neg (by simp [hin]), length_cons]
      exact ⟨(ih h).1, lt_succ_of_lt (ih h).2⟩
    next hin =>
      cases h
      rw [filter_cons_of_pos (by simp [hin]), length_cons]
      exact ⟨rfl, lt_succ_self _⟩

/-- Without a next entry nothing is pending. -/
lemma Sources.next_none (h : sources.next filter = (none, sources')) :
    sources.pending filter = [] ∧ sources'.pending filter = [] ∧ sources'.utxoStash = [] ∧
      sources'.count ≤ sources.count := by
  obtain ⟨stash, iterator, priority, source⟩ := sources
  match stash, iterator, priority with
  | entry :: rest, _, _ => cases h
  | [], entry :: rest, _ => cases h
  | [], [], entry :: rest => cases h
  | [], [], [] =>
    obtain ⟨hentry, rfl⟩ := Prod.ext_iff.mp h
    obtain ⟨hsource, hrest⟩ := nextOfSource_none (Prod.ext hentry rfl)
    simp [pending, count, next, hsource, hrest]

/-- The next entry is the first pending one. -/
lemma Sources.next_some (h : sources.next filter = (some entry, sources')) :
    sources.pending filter = entry :: sources'.pending filter ∧
      sources'.utxoStash = sources.utxoStash.tail ∧ sources'.count < sources.count := by
  obtain ⟨stash, iterator, priority, source⟩ := sources
  match stash, iterator, priority with
  | _ :: _, _, _ => cases h; simp [pending, count]
  | [], _ :: _, _ => cases h; simp [pending, count]
  | [], [], _ :: _ => cases h; simp [pending, count]
  | [], [], [] =>
    obtain ⟨hentry, rfl⟩ := Prod.ext_iff.mp h
    obtain ⟨hsource, hrest⟩ := nextOfSource_some (Prod.ext hentry rfl)
    simpa [pending, count, next, hsource] using hrest

end

/-! ## Entries taken by a call -/

/-- The sum of the amounts of entries. -/
def totalAmount (entries : List UtxoEntryReference) : ℕ :=
  (entries.map UtxoEntryReference.amount).sum

/-- The mass of a transaction without outputs that spends the entries. -/
def Inner.draftMass (inner : Inner) (taken : List UtxoEntryReference) : ℕ :=
  inner.massCalculator.blankTransactionComputeMass + (taken.map inner.inputComputeMass).sum

lemma totalAmount_concat (taken : List UtxoEntryReference) (entry : UtxoEntryReference) :
    totalAmount (taken ++ [entry]) = totalAmount taken + entry.amount := by
  simp [totalAmount]

lemma Inner.draftMass_concat (inner : Inner) (taken : List UtxoEntryReference)
    (entry : UtxoEntryReference) :
    inner.draftMass (taken ++ [entry]) = inner.draftMass taken + inner.inputComputeMass entry := by
  simp [draftMass, add_assoc]

/-- The job that has taken entries since the beginning of a call. -/
def Job.drawn (inner : Inner) (start : Job) (taken : List UtxoEntryReference) (sources : Sources)
    (addresses : List Address) : Job where
  context := { (start.withSources sources).context with
    aggregatedUtxos := start.context.aggregatedUtxos + taken.length }
  stage := { (start.withSources sources).stage with
    aggregateInputValue := start.stage.aggregateInputValue + totalAmount taken }
  data :=
    { inputs := taken.map inner.input
      utxoEntryReferences := taken
      addresses
      aggregateMass := inner.draftMass taken
      transactionFees := 0
      aggregateInputValue := totalAmount taken
      changeOutputValue := none }

/-- The sources after entries have been taken: the other entries are pending, in their order. -/
structure Remains (start : Job) (taken : List UtxoEntryReference) (sources : Sources) : Prop where
  pending : taken ++ sources.pending start.context.priorityUtxoEntryFilter = start.pending
  stash : sources.utxoStash.length ≤ 1
  count : sources.count + taken.length ≤ start.sources.count

section

variable {inner : Inner} {start job job' : Job} {taken : List UtxoEntryReference}
  {sources sources' : Sources} {addresses : List Address} {entry : UtxoEntryReference}
variable {result : Except GeneratorError (Option DataKind)} {finalTransaction : FinalTransaction}
variable {disposition : MassDisposition} {mass target : ℕ}

lemma Remains.next_none (h : Remains start taken sources)
    (hnext : sources.next start.context.priorityUtxoEntryFilter = (none, sources')) :
    Remains start taken sources' := by
  obtain ⟨hpending, hpending', hstash, hcount⟩ := Sources.next_none hnext
  refine ⟨?_, by rw [hstash]; exact zero_le 1, ?_⟩
  · rw [hpending', ← hpending, h.pending]
  · have := h.count
    omega

lemma Remains.next_some (h : Remains start taken sources)
    (hnext : sources.next start.context.priorityUtxoEntryFilter = (some entry, sources')) :
    Remains start (taken ++ [entry]) sources' := by
  obtain ⟨hpending, hstash, hcount⟩ := Sources.next_some hnext
  have hcount' := h.count
  have hstash' := h.stash
  refine ⟨?_, ?_, ?_⟩
  · rw [append_assoc, singleton_append, ← hpending, h.pending]
  · rw [hstash, length_tail]
    omega
  · rw [length_append, length_singleton]
    omega

/-- An entry that is put back into the stash is the next one again. -/
lemma Remains.putBack (h : Remains start taken sources)
    (hnext : sources.next start.context.priorityUtxoEntryFilter = (some entry, sources')) :
    Remains start taken { sources' with utxoStash := sources'.utxoStash ++ [entry] } := by
  obtain ⟨hpending, hstash, hcount⟩ := Sources.next_some hnext
  have hempty : sources'.utxoStash = [] := by
    have := h.stash
    rw [hstash, ← length_eq_zero_iff, length_tail]
    omega
  have hcount' := h.count
  refine ⟨?_, by simp [hempty], ?_⟩
  · rw [← h.pending, hpending]
    simp [Sources.pending, hempty]
  · simp only [Sources.count, length_append, length_singleton] at hcount hcount' ⊢
    omega

lemma getUtxoEntry_drawn : getUtxoEntry (start.drawn inner taken sources addresses) =
      ((sources.next start.context.priorityUtxoEntryFilter).1,
        start.drawn inner taken (sources.next start.context.priorityUtxoEntryFilter).2
          addresses) := rfl

/-- A test for further entries moves the next one to the stash. -/
lemma Remains.hasUtxoEntries {found : Bool} (h : Remains start taken sources)
    (hhas : hasUtxoEntries (start.drawn inner taken sources addresses) = (found, job')) :
    ∃ sources', job' = start.drawn inner taken sources' addresses ∧
      Remains start taken sources' := by
  rw [Wallet.hasUtxoEntries, getUtxoEntry_drawn] at hhas
  rcases hnext : sources.next start.context.priorityUtxoEntryFilter with ⟨_ | entry, sources'⟩ <;>
    rw [hnext] at hhas <;> cases hhas
  · exact ⟨sources', rfl, h.next_none hnext⟩
  · exact ⟨_, rfl, h.putBack hnext⟩

/-- A fee that a relay transaction may have. -/
def Inner.RelayFee (inner : Inner) (fees : ℕ) : Prop :=
  ∃ mass, mass ≤ maximumStandardTransactionMass +
      inner.massCalculator.blankTransactionComputeMass +
      2 * inner.standardChangeOutputComputeMass + inner.additionalCompoundTransactionMass ∧
    fees = inner.calcFeesFromMass mass

/-- The entries taken so far fit into one transaction. -/
def Inner.Light (inner : Inner) (taken : List UtxoEntryReference) : Prop :=
  taken = [] ∨ inner.draftMass taken + inner.standardChangeOutputComputeMass +
    inner.additionalCompoundTransactionMass ≤ maximumStandardTransactionMass

lemma Inner.Light.draftMass_le (h : inner.Light taken) : inner.draftMass taken ≤
      maximumStandardTransactionMass + inner.massCalculator.blankTransactionComputeMass := by
  obtain rfl | h := h
  · exact le_add_left _ _
  · omega

/-- The entry is taken, or the transaction is full and relays what it has. -/
lemma aggregateUtxo_drawn {kind : Option DataKind} (hlight : inner.Light taken)
    (h : inner.aggregateUtxo (start.drawn inner taken sources addresses) entry =
      some (kind, job')) :
    (kind = none ∧ inner.Light (taken ++ [entry]) ∧
        ∃ addresses', job' = start.drawn inner (taken ++ [entry]) sources addresses') ∨
      (kind = some .node ∧
        maximumStandardTransactionMass < inner.draftMass taken + inner.inputComputeMass entry +
          inner.standardChangeOutputComputeMass + inner.additionalCompoundTransactionMass ∧
        ∃ mass fees, inner.RelayFee fees ∧
          job' = (start.drawn inner taken
            { sources with utxoStash := sources.utxoStash ++ [entry] } addresses).charge
              mass fees none) := by
  unfold Inner.aggregateUtxo at h
  split at h
  next hfull =>
    simp only [bind_eq_bind, bind_eq_some_iff, Job.checkedCharge_eq_some,
      Option.pure_def, Option.some.injEq] at h
    obtain ⟨job'', ⟨-, rfl⟩, h⟩ := h
    cases h
    refine .inr ⟨rfl, hfull, _, _, ⟨_, ?_, rfl⟩, rfl⟩
    have hmass := hlight.draftMass_le
    show inner.draftMass taken + (_ + _) + _ ≤ _
    omega
  next hfits =>
    simp only [bind_eq_bind, bind_eq_some_iff, checkedAdd_eq_some,
      Option.pure_def, Option.some.injEq] at h
    obtain ⟨_, ⟨-, rfl⟩, _, ⟨-, rfl⟩, h⟩ := h
    cases h
    refine .inl ⟨rfl, .inr ?_, entry.address.elim addresses addresses.insert, ?_⟩
    · rw [inner.draftMass_concat]
      exact Nat.le_of_not_lt hfits
    · simp [Job.drawn, totalAmount_concat, inner.draftMass_concat, add_assoc]

/-! ## The end of a call -/

/-- The change value, as a root of the storage mass parameter, below which a change may cost more
storage mass than it is worth. -/
def absorbableChange : ℕ := 1000000

lemma isDust_iff {value : ℕ} : MassCalculator.isDust value = true ↔ value < 606 := by
  have h : value * 1000 / standardOutputSizePlusInputSize3x < minimumRelayTransactionFee ↔
      value < 606 := by
    rw [show standardOutputSizePlusInputSize3x = 606 from rfl, minimumRelayTransactionFee]
    omega
  unfold MassCalculator.isDust checkedMul
  split <;> split at * <;> simp_all

lemma Inner.calcStorageMass_eq_some {data : Data} {harmonic : ℕ} :
    inner.calcStorageMass data harmonic = some mass ↔
      ∃ mean, inner.massCalculator.calcStorageMassInputMeanArithmetic data.aggregateInputValue
        data.inputs.length = some mean ∧ harmonic - mean = mass := by
  simp [calcStorageMass, MassCalculator.calcStorageMass, bind_eq_some_iff]

/-- A change is absorbed only when it is small. -/
lemma storageMassOf_absorbs {storageMass : ℕ}
    (hcalculator : inner.massCalculator = MassCalculator.standard)
    (h : inner.storageMassOf job target mass = some (storageMass, true)) :
    target < job.data.aggregateInputValue ∧
      job.data.aggregateInputValue < target + absorbableChange := by
  unfold Inner.storageMassOf at h
  dsimp only at h
  split at h
  next => split at h <;> simp [bind_eq_some_iff] at h
  split at h
  next => simp [bind_eq_some_iff] at h
  next hvalue =>
  split at h
  next hdust =>
    rw [isDust_iff] at hdust
    rw [absorbableChange]
    omega
  next =>
  simp only [bind_eq_bind, bind_eq_some_iff, checkedAdd_eq_some,
    calcStorageMassOutputHarmonicSingle, checkedDiv_eq_some] at h
  obtain ⟨single, ⟨-, hsingle⟩, _, ⟨-, rfl⟩, massWithChange, hwith, h⟩ := h
  split at h
  next => cases h
  simp only [bind_eq_some_iff] at h
  obtain ⟨massNoChange, hno, h⟩ := h
  split at h
  next => cases h
  split at h
  next hdifference =>
    -- the two masses differ by at most the share of the change in the harmonic sum
    obtain ⟨mean, hmean, rfl⟩ := Inner.calcStorageMass_eq_some.mp hwith
    obtain ⟨mean', hmean', rfl⟩ := Inner.calcStorageMass_eq_some.mp hno
    rw [hmean] at hmean'
    cases hmean'
    simp only [calcFeeForMass] at hdifference
    rw [hcalculator] at hsingle
    have hsquare : (job.data.aggregateInputValue - target + 1) *
        (job.data.aggregateInputValue - target) ≤ standard.storageMassParameter := by
      apply (le_div_iff_mul_le (by omega)).mp
      omega
    have hsmall : job.data.aggregateInputValue - target < 1000000 := by
      by_contra hnot
      have hle := Nat.le_of_not_lt hnot
      have := Nat.mul_le_mul (Nat.add_le_add_right hle 1) hle
      have hparameter : standard.storageMassParameter = 1000000000000 := rfl
      omega
    rw [absorbableChange]
    omega
  next => cases h

/-- What the final transaction of a payment by the sender leaves: a change, or nothing. In the
second case the fees exceed what is paid by a change that was absorbed. -/
def Inner.Pays (inner : Inner) (taken : List UtxoEntryReference) (fees : ℕ)
    (change : Option ℕ) : Prop :=
  ∀ finalTransaction priorityFees, inner.finalTransaction = some finalTransaction →
    inner.finalTransactionPriorityFee = .senderPays priorityFees →
    (∃ value, change = some value ∧ 0 < value ∧
      totalAmount taken = finalTransaction.valueNoFees + value + fees) ∨
    (change = none ∧ ∃ value, totalAmount taken + value = finalTransaction.valueNoFees + fees ∧
      (0 < value → finalTransaction.valueWithPriorityFee < totalAmount taken ∧
        totalAmount taken < finalTransaction.valueWithPriorityFee + absorbableChange))

/-- How the fees and the change of a transaction are settled, by its kind. -/
def Inner.Settles (inner : Inner) (start : Job) (taken : List UtxoEntryReference) (fees : ℕ)
    (change : Option ℕ) : DataKind → Prop
  | .noOp => inner.finalTransaction = none
  | .node => change = none ∧ inner.RelayFee fees ∧ ∃ entry,
      maximumStandardTransactionMass < inner.draftMass taken + inner.inputComputeMass entry +
        inner.standardChangeOutputComputeMass + inner.additionalCompoundTransactionMass
  | .edge => change = none ∧ inner.RelayFee fees ∧
      (0 < start.stage.numberOfTransactions ∨
        maximumStandardTransactionMass < inner.draftMass taken +
          inner.standardChangeOutputComputeMass + inner.finalTransactionOutputsComputeMass +
          inner.finalTransactionPayloadMass)
  | .final => inner.Pays taken fees change

/-- How a call ends: its transaction spends the entries that were taken. -/
def Inner.Concludes (inner : Inner) (start : Job) (kind : DataKind) (job : Job) : Prop :=
  ∃ taken sources addresses mass fees change,
    job = (start.drawn inner taken sources addresses).charge mass fees change ∧
      Remains start taken sources ∧ inner.Settles start taken fees change kind

lemma calculateMass_ok (h : inner.calculateMass job target = some (.ok disposition)) :
    disposition.storageMass ≤ maximumStandardTransactionMass ∧
      disposition.transactionMass = max (job.data.aggregateMass +
        inner.standardChangeOutputComputeMass + inner.finalTransactionOutputsComputeMass +
        inner.finalTransactionPayloadMass) disposition.storageMass ∧
      disposition.transactionFees = inner.calcFeesFromMass disposition.transactionMass ∧
      ∃ mass, inner.storageMassOf job target mass =
        some (disposition.storageMass, disposition.absorbChangeToFees) := by
  simp only [Inner.calculateMass, bind_eq_bind, bind_eq_some_iff] at h
  obtain ⟨⟨storageMass, absorb⟩, hstorage, h⟩ := h
  split at h
  next => cases h
  next hle =>
    cases h
    exact ⟨Nat.le_of_not_lt hle, rfl, rfl, _, hstorage⟩

/-- An edge transaction, or the next round when more entries may make it lighter. -/
lemma generateEdgeTransaction_drawn (hremains : Remains start taken sources)
    (h : inner.generateEdgeTransaction (start.drawn inner taken sources addresses) =
      some (result, job')) :
    ∃ sources', Remains start taken sources' ∧ (result = .ok (some .edge) ∧
          (∃ mass fees, inner.RelayFee fees ∧
            job' = (start.drawn inner taken sources' addresses).charge mass fees none) ∨
        (result = .ok none ∨ ∃ e, result = .error e) ∧
          job' = start.drawn inner taken sources' addresses) := by
  simp only [Inner.generateEdgeTransaction, bind_eq_bind, bind_eq_some_iff] at h
  obtain ⟨harmonic, -, storageMass, -, h⟩ := h
  split at h
  next =>
    split at h
    next hhas =>
      cases h
      obtain ⟨sources', rfl, hremains'⟩ := hremains.hasUtxoEntries hhas
      exact ⟨sources', hremains', .inr ⟨.inl rfl, rfl⟩⟩
    next hhas =>
      cases h
      obtain ⟨sources', rfl, hremains'⟩ := hremains.hasUtxoEntries hhas
      exact ⟨sources', hremains', .inr ⟨.inr ⟨_, rfl⟩, rfl⟩⟩
  next hle =>
    simp only [bind_eq_some_iff, Job.checkedCharge_eq_some] at h
    obtain ⟨_, ⟨-, rfl⟩, h⟩ := h
    cases h
    exact ⟨sources, hremains, .inl ⟨rfl, _, _, ⟨_, by omega, rfl⟩, rfl⟩⟩

lemma feesAndChange_eq_some {priorityFees transactionFees fees change : ℕ}
    (hsender : inner.finalTransactionPriorityFee = .senderPays priorityFees)
    (h : inner.feesAndChange job finalTransaction transactionFees = some (fees, change)) :
    job.data.aggregateInputValue = finalTransaction.valueNoFees + change + fees := by
  simp only [Inner.feesAndChange, hsender, bind_eq_bind, bind_eq_some_iff,
    checkedAdd_eq_some, checkedSub_eq_some, Option.pure_def, Option.some.injEq,
    Prod.mk.injEq] at h
  obtain ⟨_, ⟨-, rfl⟩, _, ⟨hvalue, rfl⟩, _, ⟨hfees, rfl⟩, rfl, rfl⟩ := h
  omega

/-- The final transaction of a payment. -/
lemma finishFinal_drawn (hfinal : inner.finalTransaction = some finalTransaction)
    (habsorb : disposition.absorbChangeToFees = true →
      finalTransaction.valueWithPriorityFee < totalAmount taken ∧
        totalAmount taken < finalTransaction.valueWithPriorityFee + absorbableChange)
    (h : inner.finishFinal (start.drawn inner taken sources addresses) finalTransaction disposition =
      some (result, job')) :
    result = .ok (some .final) ∧ ∃ mass fees change, inner.Pays taken fees change ∧
      job' = (start.drawn inner taken sources addresses).charge mass fees change := by
  simp only [Inner.finishFinal, bind_eq_bind, bind_eq_some_iff] at h
  obtain ⟨⟨fees, change⟩, hfees, h⟩ := h
  split at h
  next hnone =>
    simp only [bind_eq_some_iff, checkedAdd_eq_some, Job.checkedCharge_eq_some] at h
    obtain ⟨_, ⟨-, rfl⟩, storageMass, -, _, ⟨-, rfl⟩, _, ⟨-, rfl⟩, h⟩ := h
    cases h
    refine ⟨rfl, _, _, none, fun finalTransaction' priorityFees hfinal' hsender => ?_, rfl⟩
    rw [hfinal] at hfinal'
    cases hfinal'
    have hvalue : totalAmount taken = _ := feesAndChange_eq_some hsender hfees
    refine .inr ⟨rfl, change, by omega, fun hpos => habsorb (hnone.resolve_right ?_)⟩
    omega
  next hsome =>
    simp only [bind_eq_some_iff, Job.checkedCharge_eq_some] at h
    obtain ⟨_, ⟨-, rfl⟩, h⟩ := h
    cases h
    refine ⟨rfl, _, _, some change, fun finalTransaction' priorityFees hfinal' hsender => ?_, rfl⟩
    rw [hfinal] at hfinal'
    cases hfinal'
    exact .inl ⟨change, rfl, Nat.pos_of_ne_zero fun h => hsome (.inr h),
      feesAndChange_eq_some hsender hfees⟩

/-- What a round leaves. -/
def Inner.Rounds (inner : Inner) (start : Job) (result : Option (Except GeneratorError DataKind))
    (job : Job) : Prop :=
  match result with
  | none => ∃ taken sources addresses, job = start.drawn inner taken sources addresses ∧
      Remains start taken sources ∧ inner.Light taken
  | some (.ok kind) => inner.Concludes start kind job
  | some (.error _) => job.context.stage = start.context.stage

/-- An attempt to finish the stage. -/
lemma tryFinish_drawn (hcalculator : inner.massCalculator = standard)
    (hfinal : inner.finalTransaction = some finalTransaction)
    (hremains : Remains start taken sources) (hlight : inner.Light taken)
    (h : inner.tryFinishStandardStageProcessing
      (start.drawn inner taken sources addresses) finalTransaction = some (result, job')) :
    match result with
    | .ok none => inner.Rounds start none job'
    | .ok (some kind) => inner.Rounds start (some (.ok kind)) job'
    | .error e => inner.Rounds start (some (.error e)) job' := by
  simp only [Inner.tryFinishStandardStageProcessing, bind_eq_bind, bind_eq_some_iff] at h
  obtain ⟨_ | disposition, hmass, h⟩ := h
  · cases h
    rfl
  obtain ⟨hstorage, htransaction, -, mass, hdisposition⟩ := calculateMass_ok hmass
  simp only [bind_eq_some_iff] at h
  obtain ⟨reject, -, h⟩ := h
  have habsorb : disposition.absorbChangeToFees = true →
      finalTransaction.valueWithPriorityFee < totalAmount taken ∧
        totalAmount taken < finalTransaction.valueWithPriorityFee + absorbableChange := by
    intro habsorbs
    rw [habsorbs] at hdisposition
    exact storageMassOf_absorbs hcalculator hdisposition
  split at h
  next =>
    cases h
    exact ⟨taken, sources, addresses, rfl, hremains, hlight⟩
  split at h
  next hedge =>
    obtain ⟨sources', hremains', ⟨rfl, mass, fees, hfees, rfl⟩ | ⟨rfl | ⟨e, rfl⟩, rfl⟩⟩ :=
      generateEdgeTransaction_drawn hremains h
    · refine ⟨taken, sources', addresses, mass, fees, none, rfl, hremains', rfl, hfees, ?_⟩
      refine hedge.symm.imp_right fun hheavy => ?_
      rw [htransaction] at hheavy
      change _ < max (inner.draftMass taken + _ + _ + _) _ at hheavy
      omega
    · exact ⟨taken, sources', addresses, rfl, hremains', hlight⟩
    · rfl
  split at h
  next =>
    split at h
    next hhas =>
      cases h
      obtain ⟨sources', rfl, hremains'⟩ := hremains.hasUtxoEntries hhas
      exact ⟨taken, sources', addresses, rfl, hremains', hlight⟩
    next hhas =>
      obtain ⟨sources', rfl, hremains'⟩ := hremains.hasUtxoEntries hhas
      obtain ⟨rfl, mass, fees, change, hpays, rfl⟩ := finishFinal_drawn hfinal habsorb h
      exact ⟨taken, sources', addresses, mass, fees, change, rfl, hremains', hpays⟩
  next =>
    obtain ⟨rfl, mass, fees, change, hpays, rfl⟩ := finishFinal_drawn hfinal habsorb h
    exact ⟨taken, sources, addresses, mass, fees, change, rfl, hremains, hpays⟩

lemma finishRelay_drawn {result : Except GeneratorError DataKind}
    (hfinal : inner.finalTransaction = none) (hremains : Remains start taken sources)
    (hlight : inner.Light taken)
    (h : inner.finishRelayStageProcessing (start.drawn inner taken sources addresses) =
      some (result, job')) : inner.Rounds start (some result) job' := by
  simp only [Inner.finishRelayStageProcessing, bind_eq_bind, bind_eq_some_iff,
    Job.checkedCharge_eq_some] at h
  obtain ⟨_, ⟨-, rfl⟩, h⟩ := h
  have hmass := hlight.draftMass_le
  split at h
  next =>
    cases h
    exact ⟨taken, sources, addresses, _, _, none, rfl, hremains, hfinal⟩
  split at h
  next hnumber =>
    cases h
    refine ⟨taken, sources, addresses, _, _, none, rfl, hremains, rfl, ⟨_, ?_, rfl⟩, .inl hnumber⟩
    show inner.draftMass taken + _ ≤ _
    omega
  split at h
  next =>
    cases h
    rfl
  split at h
  next =>
    cases h
    exact ⟨taken, sources, addresses, _, _, none, rfl, hremains, hfinal⟩
  next =>
    cases h
    refine ⟨taken, sources, addresses, _, _, some _, rfl, hremains, fun _ _ hsome => ?_⟩
    rw [hfinal] at hsome
    cases hsome

/-- A round takes an entry or ends the call. -/
lemma round_drawn {result : Option (Except GeneratorError DataKind)}
    (hcalculator : inner.massCalculator = standard)
    (hremains : Remains start taken sources) (hlight : inner.Light taken)
    (h : inner.round (start.drawn inner taken sources addresses) = some (result, job')) :
    inner.Rounds start result job' := by
  rcases hnext : sources.next start.context.priorityUtxoEntryFilter with ⟨_ | entry, sources'⟩
  · rcases hfinal : inner.finalTransaction with _ | finalTransaction
    · simp only [Inner.round, getUtxoEntry_drawn, hnext, hfinal, bind_eq_bind,
        bind_eq_some_iff] at h
      obtain ⟨⟨result', job''⟩, hfinish, h⟩ := h
      cases h
      exact finishRelay_drawn hfinal (hremains.next_none hnext) hlight hfinish
    · simp only [Inner.round, getUtxoEntry_drawn, hnext, hfinal] at h
      cases h
      rfl
  · simp only [Inner.round, getUtxoEntry_drawn, hnext, bind_eq_bind,
      bind_eq_some_iff] at h
    obtain ⟨⟨kind, job''⟩, haggregate, h⟩ := h
    obtain ⟨rfl, hlight', addresses', rfl⟩ | ⟨rfl, hfull, mass, fees, hfees, rfl⟩ :=
      aggregateUtxo_drawn hlight haggregate
    · have hremains' := hremains.next_some hnext
      have hgoesOn : inner.Rounds start none
          (start.drawn inner (taken ++ [entry]) sources' addresses') :=
        ⟨_, _, _, rfl, hremains', hlight'⟩
      rcases hfinal : inner.finalTransaction with _ | finalTransaction
      · simp only [hfinal] at h
        cases h
        exact hgoesOn
      simp only [hfinal] at h
      split at h
      next =>
        simp only [bind_eq_some_iff] at h
        obtain ⟨⟨result', job''⟩, htry, h⟩ := h
        have hround := tryFinish_drawn hcalculator hfinal hremains' hlight' htry
        rcases result' with e | _ | kind <;> cases h <;> exact hround
      next =>
        cases h
        exact hgoesOn
    · simp only at h
      cases h
      exact ⟨taken, _, addresses, mass, fees, none, rfl, hremains.putBack hnext, rfl, hfees,
        entry, hfull⟩

/-- The loop ends with a transaction over the entries it has taken, or with an error. -/
lemma dataLoop_drawn {abort : ℕ → Bool} {rounds : ℕ} {result : Except GeneratorError DataKind}
    (hcalculator : inner.massCalculator = standard)
    (hremains : Remains start taken sources) (hlight : inner.Light taken)
    (h : inner.dataLoop abort rounds (start.drawn inner taken sources addresses) =
      some (result, job')) : inner.Rounds start (some result) job' := by
  induction rounds generalizing taken sources addresses with
  | zero => cases h
  | succ rounds ih =>
    rw [Inner.dataLoop] at h
    split at h
    next =>
      cases h
      rfl
    next =>
      simp only [bind_eq_bind, bind_eq_some_iff] at h
      obtain ⟨⟨result', job''⟩, hround, h⟩ := h
      have hrounds := round_drawn hcalculator hremains hlight hround
      cases result' with
      | some result' =>
        cases h
        exact hrounds
      | none =>
        obtain ⟨taken', sources', addresses', rfl, hremains', hlight'⟩ := hrounds
        exact ih hremains' hlight' h

end

/-! ## Calls -/

/-- The change output of the final transaction. -/
def Inner.changeOutputs (inner : Inner) (change : Option ℕ) : List TransactionOutput :=
  if 0 < change.getD 0 then [⟨change.getD 0, payToAddressScript inner.changeAddress⟩] else []

section

variable {inner : Inner} {txId : List TransactionInput → List TransactionOutput → List UInt8 → Hash}

/-- The transaction that a call has produced from the entries it has taken. -/
structure Issues (inner : Inner)
    (txId : List TransactionInput → List TransactionOutput → List UInt8 → Hash)
    (taken : List UtxoEntryReference) (fees : ℕ) (outputs : List TransactionOutput)
    (kind : DataKind) (pending : PendingTransaction) : Prop where
  inputs : pending.tx.inputs = taken.map inner.input
  outputs : pending.tx.outputs = outputs
  id : ∃ payload, pending.tx.id = txId pending.tx.inputs pending.tx.outputs payload
  utxoEntries : pending.utxoEntries = taken
  fees : pending.fees = fees
  kind : pending.kind = kind

/-- The job with which a call begins. -/
def Inner.start (inner : Inner) (context : Context) (stage : Stage) : Job :=
  ⟨{ context with stage := none }, stage, Data.new inner.massCalculator⟩

/-- The outcomes of a call. -/
inductive Called (inner : Inner)
    (txId : List TransactionInput → List TransactionOutput → List UInt8 → Hash)
    (context : Context) : GeneratorResult → Context → Prop
  /-- there is nothing to do -/
  | nothing {context' : Context} (stage : context'.stage = none ∨ context' = context)
      (fees : inner.finalTransaction ≠ none → context'.aggregateFees = context.aggregateFees) :
      Called inner txId context (.ok none) context'
  /-- the stage is lost -/
  | failed {e : GeneratorError} {context' : Context} (stage : context'.stage = none) :
      Called inner txId context (.error e) context'
  /-- the stage is kept, but the entries that were taken are lost -/
  | refused {e : GeneratorError} {stage : Stage} {taken : List UtxoEntryReference}
      {sources : Sources} {addresses : List Address} {mass fees : ℕ} {job : Job}
      (stage_eq : context.stage = some stage)
      (remains : Remains (inner.start context stage) taken sources)
      (job_eq : job =
        ((inner.start context stage).drawn inner taken sources addresses).charge mass fees none) :
      Called inner txId context (.error e) { job.context with stage := some job.stage }
  /-- the final transaction -/
  | final {stage : Stage} {taken : List UtxoEntryReference} {sources : Sources} {fees : ℕ}
      {change : Option ℕ} {outputs : List TransactionOutput} {pending : PendingTransaction}
      {context' : Context} (stage_eq : context.stage = some stage)
      (remains : Remains (inner.start context stage) taken sources)
      (pays : inner.Pays taken fees change)
      (outputs_eq : inner.finalTransactionPriorityFee.paidByReceiver = false →
        outputs = inner.finalTransactionOutputs ++ inner.changeOutputs change)
      (issues : Issues inner txId taken fees outputs .final pending)
      (stage' : context'.stage = none)
      (fees' : context'.aggregateFees = context.aggregateFees + fees) :
      Called inner txId context (.ok (some pending)) context'
  /-- a transaction whose output is an input of the next stage -/
  | relay {stage : Stage} {taken : List UtxoEntryReference} {sources : Sources}
      {addresses : List Address} {mass fees aggregateMass transactions stages : ℕ} {isEdge : Bool}
      {pending : PendingTransaction} {job : Job} (stage_eq : context.stage = some stage)
      (remains : Remains (inner.start context stage) taken sources)
      (settles : inner.Settles (inner.start context stage) taken fees none
        (if isEdge then .edge else .node))
      (lt : fees < totalAmount taken)
      (issues : Issues inner txId taken fees
        [⟨totalAmount taken - fees, payToAddressScript inner.changeAddress⟩]
        (if isEdge then .edge else .node) pending)
      (job_eq : job =
        ((inner.start context stage).drawn inner taken sources addresses).charge mass fees none) :
      Called inner txId context (.ok (some pending)) { job.context with
        aggregateMass := aggregateMass
        numberOfTransactions := transactions
        numberOfStages := stages
        stage :=
          let stage' := job.stage.addOutput (Inner.createBatchUtxoEntryReference pending.tx.id
            (totalAmount taken - fees) (payToAddressScript inner.changeAddress)
            inner.changeAddress)
          some (if isEdge then Stage.new stage' else stage') }

variable {context context' : Context} {stage : Stage} {taken : List UtxoEntryReference}
  {sources : Sources} {addresses : List Address} {mass fees : ℕ}
  {result : GeneratorResult}
variable {settings : GeneratorSettings} {job : Job}

lemma pendingTransaction_issues {data : Data} {outputs : List TransactionOutput}
    {payload : List UInt8} {index : Option ℕ} {change value txMass : ℕ} {kind : DataKind}
    {pending : PendingTransaction} (hinputs : data.inputs = taken.map inner.input)
    (hentries : data.utxoEntryReferences = taken) (hfees : data.transactionFees = fees)
    (h : inner.pendingTransaction (Inner.newTransaction txId data.inputs outputs payload) data index
      change value txMass kind = some pending) :
    Issues inner txId taken fees outputs kind pending ∧
      pending.tx.id = (Inner.newTransaction txId data.inputs outputs payload).id := by
  simp only [Inner.pendingTransaction, ite_none_right_eq_some, some.injEq] at h
  obtain ⟨-, rfl⟩ := h
  exact ⟨⟨hinputs, rfl, ⟨payload, rfl⟩, hentries, hfees, rfl⟩, rfl⟩

/-- A relay transaction of a call. -/
lemma generateRelay_called (isEdge : Bool) (hstage : context.stage = some stage)
    (hremains : Remains (inner.start context stage) taken sources)
    (hsettles : inner.Settles (inner.start context stage) taken fees none
      (if isEdge then .edge else .node))
    (hjob : job =
      ((inner.start context stage).drawn inner taken sources addresses).charge mass fees none)
    (h : inner.generateRelay txId job.context job.stage job.data isEdge = some (result, context')) :
    Called inner txId context result context' := by
  have hrefused : ∀ e, Called inner txId context (.error e)
      { job.context with stage := some job.stage } :=
    fun e => .refused hstage hremains hjob
  have hdata : job.data.aggregateInputValue = totalAmount taken ∧ job.data.transactionFees = fees ∧
      job.data.inputs = taken.map inner.input ∧ job.data.utxoEntryReferences = taken := by
    rw [hjob]
    exact ⟨rfl, rfl, rfl, rfl⟩
  obtain ⟨hvalue, hfees, hinputs, hentries⟩ := hdata
  unfold Inner.generateRelay at h
  split at h
  next => cases h
  rw [hvalue, hfees] at h
  split at h
  next =>
    cases h
    exact hrefused _
  next hlt =>
  simp only [bind_eq_bind, bind_eq_some_iff] at h
  obtain ⟨_ | txMass, hmass, h⟩ := h
  · cases h
    exact hrefused _
  dsimp only at h
  split at h
  next =>
    cases h
    exact hrefused _
  next =>
    simp only [bind_eq_some_iff] at h
    obtain ⟨pending, hpending, h⟩ := h
    obtain ⟨hissues, hid⟩ := pendingTransaction_issues hinputs hentries hfees hpending
    cases h
    rw [← hid]
    exact .relay hstage hremains hsettles (Nat.lt_of_not_le hlt) hissues hjob

/-- The final transaction of a call. -/
lemma generateFinal_called (hstage : context.stage = some stage)
    (hremains : Remains (inner.start context stage) taken sources)
    (hpays : inner.Pays taken fees change)
    (hjob : job =
      ((inner.start context stage).drawn inner taken sources addresses).charge mass fees change)
    (h : inner.generateFinal txId { job.context with isDone := true } job.data =
      some (result, context')) :
    Called inner txId context result context' := by
  have hdata : job.data.changeOutputValue = change ∧ job.data.transactionFees = fees ∧
      job.data.inputs = taken.map inner.input ∧ job.data.utxoEntryReferences = taken ∧
      job.context.stage = none ∧ job.context.aggregateFees = context.aggregateFees + fees := by
    rw [hjob]
    exact ⟨rfl, rfl, rfl, rfl, rfl, rfl⟩
  obtain ⟨hchange, hfees, hinputs, hentries, hnone, haggregate⟩ := hdata
  simp only [Inner.generateFinal, bind_eq_bind, bind_eq_some_iff] at h
  obtain ⟨requested, hrequested, outputValue, -, h⟩ := h
  split at h
  next =>
    cases h
    exact .failed hnone
  simp only [bind_eq_some_iff] at h
  obtain ⟨_ | txMass, -, h⟩ := h
  · cases h
    exact .failed hnone
  dsimp only at h
  split at h
  next =>
    cases h
    exact .failed hnone
  simp only [bind_eq_some_iff] at h
  obtain ⟨pending, hpending, h⟩ := h
  obtain ⟨hissues, -⟩ := pendingTransaction_issues hinputs hentries hfees hpending
  cases h
  refine .final hstage hremains hpays (fun hsender => ?_) hissues hnone haggregate
  rw [Inner.requestedOutputs, if_neg (by simp [hsender])] at hrequested
  cases hrequested
  rw [hchange, Inner.changeOutputs]
  split
  · rfl
  · rw [append_nil]

/-- Every call has one of the outcomes. -/
lemma generateTransaction_called {abort : ℕ → Bool} (hcalculator : inner.massCalculator = standard)
    (hstash : ∀ stage, context.stage = some stage → context.utxoStash.length ≤ 1)
    (h : inner.generateTransaction txId abort context = some (result, context')) :
    Called inner txId context result context' := by
  unfold Inner.generateTransaction at h
  split at h
  next =>
    cases h
    exact .nothing (.inr rfl) fun _ => rfl
  simp only [bind_eq_bind, bind_eq_some_iff] at h
  obtain ⟨stage, hstage, ⟨outcome, job⟩, hdata, h⟩ := h
  have hloop : inner.dataLoop abort ((inner.start context stage).sources.count + 1)
      ((inner.start context stage).drawn inner [] (inner.start context stage).sources []) =
        some (outcome, job) := hdata
  have hrounds : inner.Rounds (inner.start context stage) (some outcome) job :=
    dataLoop_drawn hcalculator ⟨rfl, hstash stage hstage, le_refl _⟩ (.inl rfl) hloop
  rcases outcome with e | kind
  · cases h
    exact .failed hrounds
  obtain ⟨taken, sources, addresses, mass, fees, change, hjob, hremains, hsettles⟩ := hrounds
  cases kind with
  | noOp =>
    cases h
    subst hjob
    refine .nothing (.inl rfl) fun hpayment => absurd hsettles hpayment
  | final => exact generateFinal_called hstage hremains hsettles hjob h
  | node =>
    obtain ⟨rfl, hsettles⟩ := hsettles
    exact generateRelay_called false hstage hremains ⟨rfl, hsettles⟩ hjob h
  | edge =>
    obtain ⟨rfl, hsettles⟩ := hsettles
    exact generateRelay_called true hstage hremains ⟨rfl, hsettles⟩ hjob h

/-! ## Runs -/

/-- The context before each call with the result of the call. -/
abbrev History : Type := List (Context × GeneratorResult)

/-- A run of calls from an initial context: its history, and the context at the end. Failed calls are
part of it. -/
inductive Run (inner : Inner)
    (txId : List TransactionInput → List TransactionOutput → List UInt8 → Hash)
    (initial : Context) : History → Context → Prop
  | start : Run inner txId initial [] initial
  | call {history : History}
      {abort : ℕ → Bool} {context context' : Context}
      {result : GeneratorResult}
      (run : Run inner txId initial history context)
      (outcome : inner.generateTransaction txId abort context = some (result, context')) :
      Run inner txId initial (history ++ [(context, result)]) context'

/-- The transaction that a call has produced. -/
def producedBy (call : Context × GeneratorResult) :
    Option PendingTransaction :=
  match call.2 with
  | .ok pending => pending
  | .error _ => none

/-- The transactions that a run has produced. -/
def produced (history : History) :
    List PendingTransaction :=
  history.filterMap producedBy

lemma produced_concat (history : History) (call : Context × GeneratorResult) :
    produced (history ++ [call]) = produced history ++ (producedBy call).toList := by
  rw [produced, filterMap_append]
  cases h : producedBy call <;> simp [produced, h]

/-- A call leaves at most one entry in the stash. -/
lemma Called.stash (h : Called inner txId context result context')
    (hstash : ∀ stage, context.stage = some stage → context.utxoStash.length ≤ 1) :
    ∀ stage, context'.stage = some stage → context'.utxoStash.length ≤ 1 := by
  intro stage' hstage'
  cases h with
  | nothing hstage _ =>
    obtain hstage | rfl := hstage
    · rw [hstage] at hstage'
      cases hstage'
    · exact hstash stage' hstage'
  | failed hstage => rw [hstage] at hstage'; cases hstage'
  | refused _ hremains hjob => rw [hjob]; exact hremains.stash
  | final _ _ _ _ _ hstage _ => rw [hstage] at hstage'; cases hstage'
  | relay _ hremains _ _ _ hjob => rw [hjob]; exact hremains.stash

/-- The rule of invariants: what every call keeps holds along every run. -/
lemma Run.invariant {initial : Context} {history : History} (P : History → Context → Prop)
    (hcalculator : inner.massCalculator = standard) (hstash : initial.utxoStash = [])
    (hstart : P [] initial) (hcall : ∀ history context result context', P history context →
      Called inner txId context result context' → P (history ++ [(context, result)]) context')
    (h : Run inner txId initial history context) : P history context := by
  suffices hboth : P history context ∧
      ∀ stage, context.stage = some stage → context.utxoStash.length ≤ 1 from hboth.1
  induction h with
  | start => exact ⟨hstart, fun _ _ => by rw [hstash]; exact zero_le 1⟩
  | call _ houtcome ih =>
    have hcalled := generateTransaction_called hcalculator ih.2 houtcome
    exact ⟨hcall _ _ _ _ ih.1 hcalled, hcalled.stash ih.2⟩

/-! ## Construction -/

lemma tryNew_eq_ok (h : tryNew settings = some (.ok (inner, context))) :
    context = Context.ofSettings settings ∧ ∃ outputs amount outputsHarmonic finalTransaction,
        finalTransactionOutputsOf settings = some (.ok (outputs, amount)) ∧
        standard.calcStorageMassOutputHarmonic outputs = some outputsHarmonic ∧
        finalTransactionOf settings amount = some finalTransaction ∧
        inner = Inner.ofSettings settings outputs outputsHarmonic finalTransaction ∧
        inner.standardChangeOutputComputeMass + inner.finalTransactionOutputsComputeMass +
          inner.finalTransactionPayloadMass ≤ maximumStandardTransactionMass / 5 * 4 := by
  simp only [tryNew, bind_eq_bind, bind_eq_some_iff] at h
  obtain ⟨_ | ⟨outputs, amount⟩, houtputs, h⟩ := h
  · cases h
  dsimp only at h
  split at h
  next => cases h
  split at h
  next => cases h
  split at h
  next => cases h
  next outputsHarmonic hharmonic =>
  simp only [bind_eq_some_iff] at h
  obtain ⟨finalTransaction, hfinal, h⟩ := h
  split at h
  next => cases h
  next hlight =>
    cases h
    exact ⟨rfl, outputs, amount, outputsHarmonic, finalTransaction, houtputs, hharmonic, hfinal, rfl,
      Nat.le_of_not_lt hlight⟩

/-- A generator of a payment that the sender pays for. -/
lemma tryNew_senderPays {priorityFees : ℕ}
    (hsender : settings.finalTransactionPriorityFee = .senderPays priorityFees)
    (h : tryNew settings = some (.ok (inner, context))) :
    ∃ outputs, settings.finalTransactionDestination = .paymentOutputs outputs ∧
      inner.finalTransactionOutputs = outputs.map PaymentOutput.toTransactionOutput ∧
      inner.finalTransaction = some ⟨(inner.finalTransactionOutputs.map (·.value)).sum,
        (inner.finalTransactionOutputs.map (·.value)).sum + priorityFees⟩ := by
  obtain ⟨-, outputs, amount, outputsHarmonic, finalTransaction, houtputs, -, hfinal, rfl, -⟩ :=
    tryNew_eq_ok h
  unfold finalTransactionOutputsOf at houtputs
  split at houtputs
  next =>
    rw [hsender] at houtputs
    cases houtputs
  next requested hdestination =>
    rw [if_neg (by rw [hsender]; exact Bool.false_ne_true)] at houtputs
    split at houtputs
    next => cases houtputs
    simp only [bind_eq_bind, bind_eq_some_iff] at houtputs
    obtain ⟨total, htotal, houtputs⟩ := houtputs
    cases houtputs
    simp only [finalTransactionOf, bind_eq_bind, bind_eq_some_iff,
      checkedAdd_eq_some, hsender, Fees.additional] at hfinal
    obtain ⟨_, ⟨-, rfl⟩, hfinal⟩ := hfinal
    cases hfinal
    have hsum := (foldlM_checkedAdd_eq_some.mp htotal).2.symm
    refine ⟨requested, hdestination, rfl, ?_⟩
    simp only [Inner.ofSettings, List.map_map, some.injEq, FinalTransaction.mk.injEq]
    exact ⟨hsum, by rw [hsum]; rfl⟩

end

end LapisMonetae.Wallet
