import LapisMonetae.Script.OpcodeTheorems

/-!
# Script execution

What holds after every opcode of every script that an input executes: the stacks are bounded, the
operations are counted and bounded, and a branch that is not taken leaves the stacks alone. No
script makes the engine panic.
-/

namespace LapisMonetae.Script

open Program Tx Utxo

/-- The operations that an opcode counts: itself, unless it pushes data, and the public keys of a
multisig that is executed. -/
def Opcode.operations (op : Opcode) (vm : TxScriptEngine) : ℕ :=
  (if op.isPushOpcode then 0 else 1) + if vm.isExecuting then op.countedKeys vm else 0

/-- The number of items on both stacks. -/
def TxScriptEngine.combinedSize (vm : TxScriptEngine) : ℕ := vm.astack.length + vm.dstack.length

/-- What a step of the engine can do with an opcode that counts `operations`. -/
structure Stepped (op : Opcode) (operations : ℕ) (vm : TxScriptEngine)
    (r : Except TxScriptError Unit) (vm' : TxScriptEngine) : Prop where
  scriptSource : vm'.scriptSource = vm.scriptSource
  uses : Uses (if vm.isExecuting then op.sigOpsIn vm else 0) vm vm'
  numOps_ok : r = .ok () → vm'.numOps = vm.numOps + operations
  numOps_le : vm.numOps ≤ maxOpsPerScript →
    vm'.numOps ≤ maxOpsPerScript ∨ r = .error (.tooManyOperations maxOpsPerScript)
  condStack : ¬op.isConditional → vm'.condStack = vm.condStack
  skipped : ¬vm.isExecuting → vm'.dstack = vm.dstack ∧ vm'.astack = vm.astack

section
variable (crypto : ScriptCrypto) {op : Opcode} {vm vm' : TxScriptEngine}
variable {verifyOnlyPush : Bool} {script : List UInt8} {vm vm' : TxScriptEngine}
  {ops : List (Except TxScriptError Opcode)} {r : Except TxScriptError Unit}

/-- A step that fails before the opcode is executed. -/
lemma Stepped.of_error {e : TxScriptError} {operations : ℕ} :
    Stepped op operations vm (.error e) vm where
  scriptSource := rfl
  uses := .refl
  numOps_ok := fun h => nomatch h
  numOps_le := fun h => .inl h
  condStack := fun _ => rfl
  skipped := fun _ => ⟨rfl, rfl⟩

lemma Executed.stepped (h : Executed op vm r vm') (hexec : vm.isExecuting || op.isConditional) :
    Stepped op (if vm.isExecuting then op.countedKeys vm else 0) vm r vm' := by
  by_cases he : vm.isExecuting
  · exact {
      scriptSource := h.scriptSource
      uses := by rw [if_pos he]; exact h.uses
      numOps_ok := by rw [if_pos he]; exact h.numOps_ok
      numOps_le := h.numOps_le
      condStack := h.condStack
      skipped := fun hne => absurd he hne }
  · -- a conditional in a branch that is not taken
    have hcond : op.isConditional := by simpa [he] using hexec
    have hm := not_isMultisig_of_isConditional hcond
    have hc : ¬op.checksSignature := fun hc => (not_multisig_of_checksSignature hc).2 hcond
    have hkeys : op.countedKeys vm = 0 := if_neg hm
    have hsig : op.sigOpsIn vm = 0 := by rw [Opcode.sigOpsIn, if_neg hc, if_neg hm]
    exact {
      scriptSource := h.scriptSource
      uses := by rw [if_neg he, ← hsig]; exact h.uses
      numOps_ok := by rw [if_neg he, ← hkeys]; exact h.numOps_ok
      numOps_le := h.numOps_le
      condStack := h.condStack
      skipped := fun hne => h.skipped hcond hne }

lemma runIfExecuting_ends (op : Opcode) (vm : TxScriptEngine) :
    Ends (executeOpcode.runIfExecuting crypto op) vm
      (Stepped op (if vm.isExecuting then op.countedKeys vm else 0) vm) := by
  apply ends_get_bind
  split
  · next hexec =>
    have hrun := (execute_ends crypto op vm).mono fun r vm' h => h.stepped hexec
    split
    · -- a data push has to be minimal
      cases hpush : op.checkMinimalDataPush with
      | ok _ => exact ends_bind_of_outcome (outcome_orFail _ _) hrun
      | error e => exact ⟨.error e, vm, rfl, .of_error⟩
    · exact hrun
  · next hexec =>
    have he : ¬vm.isExecuting := fun h => hexec (by simp [h])
    apply ends_pure
    exact {
      scriptSource := rfl
      uses := .refl
      numOps_ok := fun _ => by rw [if_neg he]; simp
      numOps_le := fun h => .inl h
      condStack := fun _ => rfl
      skipped := fun _ => ⟨rfl, rfl⟩ }

lemma executeOpcode_ends (op : Opcode) (vm : TxScriptEngine) :
    Ends (executeOpcode crypto op) vm (Stepped op (op.operations vm) vm) := by
  unfold executeOpcode Opcode.operations
  split
  · next hpush =>
    have hpush' : ¬op.isPushOpcode := by simpa using hpush
    rw [if_neg hpush']
    apply ends_bind_of_outcome (outcome_modify _ _)
    apply ends_get_bind
    split
    · next hops =>
      exact ends_throw {
        scriptSource := rfl
        uses := ⟨rfl, Nat.le_add_right _ _⟩
        numOps_ok := fun h => nomatch h
        numOps_le := fun _ => .inr rfl
        condStack := fun _ => rfl
        skipped := fun _ => ⟨rfl, rfl⟩ }
    · next hops =>
      apply (runIfExecuting_ends crypto op _).mono
      intro r vm' h
      exact {
        scriptSource := h.scriptSource
        uses := ⟨h.uses.isSome_counter, h.uses.used_le⟩
        numOps_ok := fun hok => by
          rw [h.numOps_ok hok]
          push_cast
          exact Int.add_assoc _ _ _
        numOps_le := fun _ => h.numOps_le (Int.not_lt.mp hops)
        condStack := h.condStack
        skipped := h.skipped }
  · next hpush =>
    have hpush' : op.isPushOpcode := by simpa using hpush
    rw [if_pos hpush', Nat.zero_add]
    split
    · exact ends_throw .of_error
    · exact runIfExecuting_ends crypto op vm

lemma executeNext_ends (verifyOnlyPush : Bool) (op : Opcode) (vm : TxScriptEngine) :
    Ends (executeNext crypto verifyOnlyPush (.ok op)) vm fun r vm' =>
      Stepped op (op.operations vm) vm r vm' ∧
      (r = .ok () → vm'.combinedSize ≤ maxStackSize ∧
        (executeOpcode crypto op).outcome vm = some (.ok (), vm')) := by
  apply ends_bind_of_outcome (outcome_orFail _ _)
  split
  · exact ends_throw ⟨.of_error, fun h => nomatch h⟩
  · split
    · exact ends_throw ⟨.of_error, fun h => nomatch h⟩
    · split
      · exact ends_throw ⟨.of_error, fun h => nomatch h⟩
      · obtain ⟨r, vm', hout, hstep⟩ := executeOpcode_ends crypto op vm
        cases r with
        | error e => exact ⟨.error e, vm', outcome_bind_error hout, hstep, fun h => nomatch h⟩
        | ok _ =>
          apply ends_bind_of_outcome hout
          apply ends_get_bind
          dsimp only
          split
          · exact ends_throw ⟨{ hstep with
              numOps_ok := fun h => nomatch h
              numOps_le := fun h => .inl ((hstep.numOps_le h).resolve_right fun h => nomatch h) },
              fun h => nomatch h⟩
          · next hsize => exact ends_pure ⟨hstep, fun _ => ⟨Nat.not_lt.mp hsize, hout⟩⟩

/-! ## Runs of a script -/

/-- The script source never changes. -/
def SameSource (vm vm' : TxScriptEngine) : Prop := vm'.scriptSource = vm.scriptSource

instance : Std.Refl SameSource := ⟨fun _ => rfl⟩

instance : IsTrans TxScriptEngine SameSource := ⟨fun _ _ _ h h' => h'.trans h⟩

lemma keeps_executeNext (verifyOnlyPush : Bool) (parsed : Except TxScriptError Opcode) :
    Keeps SameSource (executeNext crypto verifyOnlyPush parsed) := by
  intro vm
  cases parsed with
  | error e => exact ⟨.error e, vm, rfl, rfl⟩
  | ok op => exact (executeNext_ends crypto verifyOnlyPush op vm).mono fun _ _ h => h.1.scriptSource

lemma keeps_runOpcodes (verifyOnlyPush : Bool) (ops : List (Except TxScriptError Opcode)) :
    Keeps SameSource (runOpcodes crypto verifyOnlyPush ops) := by
  induction ops with
  | nil => exact keeps_pure ()
  | cons parsed ops ih => exact (keeps_executeNext crypto verifyOnlyPush parsed).bind fun _ => ih

/-- The invariant rule: what every opcode keeps holds wherever a run arrives. -/
lemma runOpcodes_invariant {I : TxScriptEngine → Prop}
    (hstep : ∀ op vm vm', I vm → (executeNext crypto verifyOnlyPush (.ok op)).outcome vm =
      some (.ok (), vm') → I vm') (hI : I vm)
    (hrun : (runOpcodes crypto verifyOnlyPush ops).outcome vm = some (.ok (), vm')) : I vm' := by
  induction ops generalizing vm with
  | nil =>
    cases hrun
    exact hI
  | cons parsed ops ih =>
    obtain ⟨_, vm₁, hnext, hrest⟩ := outcome_bind_eq_ok hrun
    cases parsed with
    | error e => cases hnext
    | ok op => exact ih (hstep op vm vm₁ hI hnext) hrest

/-- A run that has not failed has counted at most the maximum of operations. -/
lemma numOps_le_of_runOpcodes (h : vm.numOps ≤ maxOpsPerScript)
    (hrun : (runOpcodes crypto verifyOnlyPush ops).outcome vm = some (.ok (), vm')) :
    vm'.numOps ≤ maxOpsPerScript := by
  apply runOpcodes_invariant crypto (I := fun vm => vm.numOps ≤ maxOpsPerScript) _ h hrun
  intro op vm vm' hle hnext
  have hspec := (executeNext_ends crypto verifyOnlyPush op vm).of_outcome hnext
  exact (hspec.1.numOps_le hle).resolve_right fun h => nomatch h

/-! ## Scripts of an input -/

/-- The engine after a script that was executed to its end. -/
def TxScriptEngine.reset (vm : TxScriptEngine) : TxScriptEngine :=
  { vm with astack := [], numOps := 0 }

/-- The outcome of a script from the outcome of its opcodes. -/
lemma executeScript_outcome {vm vm₁ : TxScriptEngine}
    (hrun : (runOpcodes crypto verifyOnlyPush (parseScript script)).outcome vm = some (r, vm₁)) :
    (executeScript crypto script verifyOnlyPush).outcome vm =
      some (match r with
        | .ok () =>
          if vm₁.condStack ≠ [] then (.error .errUnbalancedConditional, vm₁) else (.ok (), vm₁.reset)
        | .error e => (.error e, vm₁.reset)) := by
  have hattempt : (attempt (runOpcodes crypto verifyOnlyPush (parseScript script))).outcome vm =
      some (.ok r, vm₁) := by
    rw [outcome_attempt, hrun]
    rfl
  rw [executeScript, outcome_bind_ok hattempt, outcome_get_bind]
  cases r with
  | error e => rfl
  | ok _ =>
    dsimp only
    split <;> rfl

lemma keeps_executeScript (script : List UInt8) (verifyOnlyPush : Bool) :
    Keeps SameSource (executeScript crypto script verifyOnlyPush) := by
  intro vm
  obtain ⟨r, vm₁, hrun, hsource⟩ := keeps_runOpcodes crypto verifyOnlyPush (parseScript script) vm
  refine ⟨_, _, executeScript_outcome crypto hrun, ?_⟩
  cases r with
  | error e => exact hsource
  | ok _ =>
    dsimp only
    split <;> exact hsource

lemma numOps_of_executeScript
    (h : (executeScript crypto script verifyOnlyPush).outcome vm = some (.ok (), vm')) :
    vm'.numOps = 0 := by
  obtain ⟨r, vm₁, hrun, -⟩ := keeps_runOpcodes crypto verifyOnlyPush (parseScript script) vm
  rw [executeScript_outcome crypto hrun] at h
  cases r with
  | error e => cases h
  | ok _ =>
    dsimp only at h
    split at h
    · cases h
    · cases h
      rfl

lemma keeps_checkErrorCondition (finalScript : Bool) :
    Keeps StacksOnly (checkErrorCondition finalScript) := by
  apply keeps_get.bind
  intro vm
  apply keeps_ite fun _ => keeps_throw _
  intro _
  apply keeps_ite fun _ => keeps_throw _
  intro _
  apply (keeps_onDstack safe_popBool).bind
  intro b
  exact keeps_ite (fun _ => keeps_pure _) fun _ => keeps_throw _

lemma StacksOnly.sameSource (h : StacksOnly vm vm') : SameSource vm vm' := by
  obtain ⟨dstack, astack, rfl⟩ := h
  rfl

lemma keeps_runScripts (isP2sh : Bool) (scripts : List (List UInt8)) (idx : ℕ)
    (savedStack : Option Stack) : Keeps SameSource
      (runScripts crypto isP2sh idx savedStack scripts) := by
  induction scripts generalizing idx savedStack with
  | nil => exact keeps_pure _
  | cons script scripts ih =>
    rw [runScripts]
    apply keeps_ite fun _ => ih _ _
    intro _
    apply keeps_get.bind
    intro vm
    exact (keeps_executeScript crypto script _).bind fun _ => ih _ _

lemma keeps_executeRedeemScript (savedStack : Option Stack) :
    Keeps SameSource (executeRedeemScript crypto savedStack) := by
  apply ((keeps_checkErrorCondition false).mono fun _ _ h => h.sameSource).bind
  intro _
  split
  · exact keeps_throw _
  · apply (keeps_modify fun vm => (rfl : SameSource vm _)).bind
    intro _
    split
    · exact keeps_throw _
    · exact (keeps_modify fun vm => (rfl : SameSource vm _)).bind fun _ =>
        keeps_executeScript crypto _ _

lemma keeps_executeScripts (scripts : List (List UInt8)) (isP2sh : Bool) :
    Keeps SameSource (executeScripts crypto scripts isP2sh) := by
  have hfinal := (keeps_checkErrorCondition true).mono fun _ _ h => h.sameSource
  apply keeps_ite fun _ => keeps_throw _
  intro _
  apply keeps_ite fun _ => keeps_throw _
  intro _
  split
  · exact keeps_throw _
  · apply (keeps_runScripts crypto isP2sh scripts 0 none).bind
    intro savedStack
    apply keeps_ite
    · exact fun _ => (keeps_executeRedeemScript crypto savedStack).bind fun _ => hfinal
    · exact fun _ => hfinal

/-- No script makes the engine panic. -/
lemma keeps_engineExecute : Keeps SameSource (execute crypto) := by
  apply keeps_get.bind
  intro vm
  split
  · exact keeps_ite (fun _ => keeps_pure _) fun _ => keeps_executeScripts crypto _ _
  · exact keeps_executeScripts crypto _ _

/-! ## Every opcode of an input -/

/-- The scripts that `execute` runs for the transaction input of `vm₀`, whether they may only push
data, and the engine at their start. -/
inductive Starts (vm₀ : TxScriptEngine) : List UInt8 → Bool → TxScriptEngine → Prop
  | signatureScript {tx : PopulatedTransaction} {input : TransactionInput}
      {idx : Fin tx.tx.inputs.length} {utxoEntry : UtxoEntry} {isP2sh : Bool}
      (hsource : vm₀.scriptSource = .txInput tx input idx utxoEntry isP2sh) :
      Starts vm₀ input.signatureScript true vm₀
  | scriptPublicKey {tx : PopulatedTransaction} {input : TransactionInput}
      {idx : Fin tx.tx.inputs.length} {utxoEntry : UtxoEntry} {isP2sh : Bool}
      {savedStack : Option Stack} {vm : TxScriptEngine}
      (hsource : vm₀.scriptSource = .txInput tx input idx utxoEntry isP2sh)
      (hrun : (runScripts crypto isP2sh 0 none [input.signatureScript]).outcome vm₀ =
        some (.ok savedStack, vm)) :
      Starts vm₀ utxoEntry.scriptPublicKey.script false vm
  | redeemScript {tx : PopulatedTransaction} {input : TransactionInput}
      {idx : Fin tx.tx.inputs.length} {utxoEntry : UtxoEntry} {script : List UInt8}
      {dstack : Stack} {vm vm' : TxScriptEngine}
      (hsource : vm₀.scriptSource = .txInput tx input idx utxoEntry true)
      (hrun : (runScripts crypto true 0 none
        [input.signatureScript, utxoEntry.scriptPublicKey.script]).outcome vm₀ =
        some (.ok (some (script :: dstack)), vm))
      (hcheck : (checkErrorCondition false).outcome vm = some (.ok (), vm')) :
      Starts vm₀ script false { vm' with dstack := dstack }

/-- The scripts of an input count their operations each for itself. -/
lemma numOps_of_runScripts {isP2sh : Bool} {scripts : List (List UInt8)} {idx : ℕ}
    {savedStack savedStack' : Option Stack} (h : vm.numOps = 0)
    (hrun : (runScripts crypto isP2sh idx savedStack scripts).outcome vm =
      some (.ok savedStack', vm')) : vm'.numOps = 0 := by
  induction scripts generalizing idx savedStack vm with
  | nil =>
    cases hrun
    exact h
  | cons script scripts ih =>
    rw [runScripts] at hrun
    split at hrun
    · exact ih h hrun
    · rw [outcome_get_bind] at hrun
      obtain ⟨_, vm₁, hscript, hrest⟩ := outcome_bind_eq_ok hrun
      exact ih (numOps_of_executeScript crypto hscript) hrest

lemma Starts.numOps {vm₀ start : TxScriptEngine}
    (h : Starts crypto vm₀ script verifyOnlyPush start) (h₀ : vm₀.numOps = 0) :
    start.numOps = 0 := by
  cases h with
  | signatureScript hsource => exact h₀
  | scriptPublicKey hsource hrun => exact numOps_of_runScripts crypto h₀ hrun
  | redeemScript hsource hrun hcheck =>
    obtain ⟨dstack, astack, rfl⟩ := (keeps_checkErrorCondition false _).of_outcome hcheck
    have hzero := numOps_of_runScripts crypto h₀ hrun
    exact hzero

/-- Script execution of an input ends with success or an error. After every opcode that does not
end it with an error, both stacks together hold at most 244 items, and the operations of the
script, public keys of multisig included, are at most 201; the opcode that exceeds them is not
executed. Opcodes in a branch that is not taken leave both stacks unchanged. -/
theorem execute_opcodes {tx : PopulatedTransaction} {input : TransactionInput} {inputIdx : ℕ}
    {utxoEntry : UtxoEntry} {kip10Enabled runtimeSigOpCounting : Bool} {vm₀ : TxScriptEngine}
    (hvm : TxScriptEngine.fromTransactionInput tx input inputIdx utxoEntry kip10Enabled
      runtimeSigOpCounting = some vm₀) :
    (∃ r vm, (execute crypto).outcome vm₀ = some (r, vm)) ∧
    ∀ script verifyOnlyPush start, Starts crypto vm₀ script verifyOnlyPush start →
      start.numOps = 0 ∧
      ∀ pre op post before, parseScript script = pre ++ .ok op :: post →
        (runOpcodes crypto verifyOnlyPush pre).outcome start = some (.ok (), before) →
        ∃ r after, (executeNext crypto verifyOnlyPush (.ok op)).outcome before = some (r, after) ∧
          (r = .ok () → after.combinedSize ≤ maxStackSize ∧
            after.numOps = before.numOps + op.operations before) ∧
          (after.numOps ≤ maxOpsPerScript ∨ r = .error (.tooManyOperations maxOpsPerScript)) ∧
          (¬before.isExecuting → after.dstack = before.dstack ∧ after.astack = before.astack) := by
  have h₀ : vm₀.numOps = 0 := by
    unfold TxScriptEngine.fromTransactionInput at hvm
    split at hvm
    · cases hvm
      rfl
    · cases hvm
  constructor
  · obtain ⟨r, vm, hout, -⟩ := keeps_engineExecute crypto vm₀
    exact ⟨r, vm, hout⟩
  · intro script verifyOnlyPush start hstart
    have hzero := hstart.numOps crypto h₀
    refine ⟨hzero, fun pre op post before hparse hrun => ?_⟩
    have hle : before.numOps ≤ maxOpsPerScript :=
      numOps_le_of_runOpcodes crypto (by rw [hzero]; decide) hrun
    obtain ⟨r, after, hnext, hstep, hok⟩ := executeNext_ends crypto verifyOnlyPush op before
    exact ⟨r, after, hnext, fun h => ⟨(hok h).1, hstep.numOps_ok h⟩, hstep.numOps_le hle,
      hstep.skipped⟩

end

/-! ## A stack that is too high -/

/-- Cryptographic functions for which every signature is valid. -/
def acceptingCrypto : ScriptCrypto where
  schnorr := ⟨fun _ => .ok (), fun _ => .ok (), fun _ _ _ _ => 0, fun _ _ _ => true⟩
  ecdsa := ⟨fun _ => .ok (), fun _ => .ok (), fun _ _ _ _ => 0, fun _ _ _ => true⟩
  sha256 := fun _ => []
  blake2b := fun _ => []

/-- An input with a signature script and a limit of signature operations. -/
def inputWith (signatureScript : List UInt8) (sigOpCount : UInt8) : TransactionInput :=
  ⟨⟨1, 0⟩, signatureScript, 0, sigOpCount⟩

/-- An entry with a script public key of version 0. -/
def entryWith (script : List UInt8) : UtxoEntry := ⟨1, ⟨0, script⟩, 0, false⟩

/-- A transaction with one input. -/
def txWith (signatureScript : List UInt8) (sigOpCount : UInt8) (script : List UInt8) :
    PopulatedTransaction :=
  ⟨⟨2, 0, [inputWith signatureScript sigOpCount], [], 0, 0⟩, [entryWith script], rfl⟩

/-- The engine of an input that spends an output with the given script. -/
def engineWith (signatureScript : List UInt8) (sigOpCount : UInt8) (script : List UInt8) :
    TxScriptEngine where
  dstack := []
  astack := []
  scriptSource := .txInput (txWith signatureScript sigOpCount script)
    (inputWith signatureScript sigOpCount) ⟨0, Nat.zero_lt_one⟩ (entryWith script)
    (isPayToScriptHash script)
  condStack := []
  numOps := 0
  kip10Enabled := true
  runtimeSigOpCounter := some (.new sigOpCount.toNat)

lemma fromTransactionInput_eq_engineWith (signatureScript : List UInt8) (sigOpCount : UInt8)
    (script : List UInt8) :
    TxScriptEngine.fromTransactionInput (txWith signatureScript sigOpCount script)
      (inputWith signatureScript sigOpCount) 0 (entryWith script) true true =
      some (engineWith signatureScript sigOpCount script) := rfl

/-- With an empty signature script the script public key is run first. -/
lemma starts_engineWith_nil (crypto : ScriptCrypto) (sigOpCount : UInt8) (script : List UInt8) :
    Starts crypto (engineWith [] sigOpCount script) script false
      (engineWith [] sigOpCount script) :=
  @Starts.scriptPublicKey crypto _ (txWith [] sigOpCount script) (inputWith [] sigOpCount)
    ⟨0, Nat.zero_lt_one⟩ (entryWith script) (isPayToScriptHash script) none _ rfl rfl

/-- The script public key `Op0 OpIf Op2 OpEndIf`: the opcode in the branch that is not taken leaves
the stack as it is. -/
theorem execute_opcodes_untaken :
    (∃ r vm, (execute acceptingCrypto).outcome (engineWith [] 0 [0, 0x63, 0x52, 0x68]) =
      some (r, vm)) ∧
    ∃ before r after, (runOpcodes acceptingCrypto false [.ok ⟨0, []⟩, .ok ⟨0x63, []⟩]).outcome
        (engineWith [] 0 [0, 0x63, 0x52, 0x68]) = some (.ok (), before) ∧ ¬before.isExecuting ∧
      (executeNext acceptingCrypto false (.ok ⟨0x52, []⟩)).outcome before = some (r, after) ∧
      (after.numOps ≤ maxOpsPerScript ∨ r = .error (.tooManyOperations maxOpsPerScript)) ∧
      after.dstack = before.dstack ∧ after.astack = before.astack := by
  obtain ⟨hends, hopcodes⟩ := execute_opcodes acceptingCrypto
    (fromTransactionInput_eq_engineWith [] 0 [0, 0x63, 0x52, 0x68])
  obtain ⟨r, after, hnext, -, hops, hskipped⟩ := (hopcodes _ _ _ (starts_engineWith_nil _ _ _)).2
    [.ok ⟨0, []⟩, .ok ⟨0x63, []⟩] ⟨0x52, []⟩ [.ok ⟨0x68, []⟩] _ rfl rfl
  exact ⟨hends, _, r, after, rfl, by decide, hnext, hops, hskipped (by decide)⟩

/-- A script of 245 pushes: after the last opcode the stack holds 245 items, and the script ends
with an error. -/
theorem combinedSize_of_245_pushes : ∃ before after,
      Starts acceptingCrypto (engineWith [] 0 (List.replicate 245 0x51))
        (List.replicate 245 0x51) false (engineWith [] 0 (List.replicate 245 0x51)) ∧
      parseScript (List.replicate 245 0x51) =
        List.replicate 244 (.ok ⟨0x51, []⟩) ++ [.ok ⟨0x51, []⟩] ∧
      (runOpcodes acceptingCrypto false (List.replicate 244 (.ok ⟨0x51, []⟩))).outcome
        (engineWith [] 0 (List.replicate 245 0x51)) = some (.ok (), before) ∧
      (executeNext acceptingCrypto false (.ok ⟨0x51, []⟩)).outcome before =
        some (.error (.stackSizeExceeded 245 244), after) ∧
      after.combinedSize = 245 := by
  refine ⟨{ engineWith [] 0 (List.replicate 245 0x51) with dstack := List.replicate 244 [1] },
    { engineWith [] 0 (List.replicate 245 0x51) with dstack := List.replicate 245 [1] },
    starts_engineWith_nil acceptingCrypto 0 _, ?_, ?_, ?_, ?_⟩
  · decide +kernel
  · decide +kernel
  · decide +kernel
  · decide +kernel

end LapisMonetae.Script
