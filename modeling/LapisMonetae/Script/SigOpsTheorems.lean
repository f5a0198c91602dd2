import LapisMonetae.Script.EngineTheorems
import Mathlib.Tactic.IntervalCases

/-!
# The static count bounds what the engine consumes

The static count and the engine read the same opcodes. Where the count trusts the small integer
before a multisig, the engine has just pushed that integer, so a multisig reads it as its number of
keys. For P2SH the count reads the data of the last push of the signature script, which is the
redeem script that the engine executes.
-/

namespace LapisMonetae.Script

open Program Tx Utxo Nat List Option

/-! ## Pushes -/

/-- The names of the push opcodes. -/
def OpName.isPush : OpName → Bool
  | .opFalse | .opData | .opPushData1 | .opPushData2 | .opPushData4 | .op1Negate | .opReserved
  | .opN _ => true
  | _ => false

lemma isPushOpcode_eq (op : Opcode) : op.isPushOpcode = op.name.isPush := by
  apply forall_code (P := fun code => (decide (code ≤ noCostOpcode) : Bool) =
    (OpName.ofCode code).isPush)
  decide +kernel

/-- The item that a push opcode leaves on the stack. -/
def Opcode.pushed (op : Opcode) : List UInt8 :=
  match op.name with
  | .opFalse => []
  | .op1Negate => [0x81]
  | .opN number => [UInt8.ofNat number]
  | _ => op.data

/-- The small integers are the numbers from 1 to 16. -/
lemma opN_range {op : Opcode} {n : ℕ} (h : op.name = .opN n) : 1 ≤ n ∧ n ≤ 16 := by
  obtain ⟨⟨hlow, hhigh⟩, rfl⟩ := (ofCode_eq_opN_iff op.value n).mp h
  have hlow : 81 ≤ op.value.toNat := UInt8.le_iff_toNat_le.mp hlow
  have hhigh : op.value.toNat ≤ 96 := UInt8.le_iff_toNat_le.mp hhigh
  omega

lemma pushNumber_opN {n : ℕ} (h : 1 ≤ n ∧ n ≤ 16) (stack : Stack) :
    (pushNumber n).outcome stack = some (.ok (), [UInt8.ofNat n] :: stack) := by
  obtain ⟨hlow, hhigh⟩ := h
  interval_cases n <;> rfl

/-- A multisig reads the small integer on the stack as its number of keys. -/
lemma numKeys_opN {n : ℕ} (h : 1 ≤ n ∧ n ≤ 16) {vm : TxScriptEngine} {rest : Stack}
    (hstack : vm.dstack = [UInt8.ofNat n] :: rest) : vm.numKeys = n := by
  obtain ⟨hlow, hhigh⟩ := h
  unfold TxScriptEngine.numKeys
  rw [hstack]
  interval_cases n <;> rfl

section
variable (crypto : ScriptCrypto) {op : Opcode} {vm vm' : TxScriptEngine} {prev : Option Opcode}
  {script : List UInt8}

lemma execute_push (hpush : op.isPushOpcode)
    (h : (op.execute crypto).outcome vm = some (.ok (), vm')) :
    vm' = { vm with dstack := op.pushed :: vm.dstack } := by
  rw [isPushOpcode_eq] at hpush
  unfold Opcode.execute at h
  unfold Opcode.pushed
  unfold OpName.isPush at hpush
  split at hpush
  case h_8 n hname =>
    rw [hname] at h ⊢
    unfold onDstack at h
    rw [outcome_zoom, pushNumber_opN (opN_range hname)] at h
    cases h
    rfl
  case h_9 => cases hpush
  all_goals
    next hname =>
      rw [hname] at h ⊢
      cases h
      try rfl

/-- A push opcode that is executed and does not fail has pushed its item. -/
lemma executeOpcode_push (hpush : op.isPushOpcode) (hexec : vm.isExecuting)
    (h : (executeOpcode crypto op).outcome vm = some (.ok (), vm')) :
    vm' = { vm with dstack := op.pushed :: vm.dstack } := by
  unfold executeOpcode at h
  simp only [hpush, Bool.not_true, Bool.false_eq_true, if_false] at h
  split at h
  · cases h
  · unfold executeOpcode.runIfExecuting at h
    rw [outcome_get_bind, hexec, Bool.true_or, if_pos rfl] at h
    split at h
    · obtain ⟨_, vm₁, hminimal, hrun⟩ := outcome_bind_eq_ok h
      rw [outcome_orFail] at hminimal
      have hvm : vm = vm₁ := congrArg Prod.snd (some.inj hminimal)
      rw [← hvm] at hrun
      exact execute_push crypto hpush hrun
    · exact execute_push crypto hpush h

/-! ## A multisig after a small integer -/

/-- After a small integer that was executed, it is on top of the stack. -/
def Adjacent (prev : Option Opcode) (vm : TxScriptEngine) : Prop :=
  ∀ n, prev.map Opcode.name = some (.opN n) → vm.isExecuting →
    ∃ rest, vm.dstack = [UInt8.ofNat n] :: rest

lemma adjacent_none (vm : TxScriptEngine) : Adjacent none vm := fun _ h => nomatch h

/-- An opcode consumes at most what the static count adds for it. -/
lemma sigOpsIn_le (h : Adjacent prev vm) (op : Opcode) :
    (if vm.isExecuting then op.sigOpsIn vm else 0) ≤ op.sigOps prev := by
  split
  · next hexec =>
    unfold Opcode.sigOpsIn Opcode.sigOps
    split
    · exact le_refl 1
    · split
      · split
        · next number hname =>
          obtain ⟨rest, hstack⟩ := h number hname hexec
          obtain ⟨op', -, hop⟩ := map_eq_some_iff.mp hname
          rw [numKeys_opN (opN_range hop) hstack]
          exact min_le_left _ _
        · exact min_le_right _ _
      · exact le_refl 0
  · exact zero_le _

lemma adjacent_of_executeNext {verifyOnlyPush : Bool}
    (h : (executeNext crypto verifyOnlyPush (.ok op)).outcome vm = some (.ok (), vm')) :
    Adjacent (some op) vm' := by
  intro n hname hexec
  have hname : op.name = .opN n := some.inj hname
  obtain ⟨hstep, hok⟩ := (executeNext_ends crypto verifyOnlyPush op vm).of_outcome h
  have hpush : op.isPushOpcode := by
    rw [isPushOpcode_eq, hname]
    rfl
  -- a push leaves the branch as it is
  have hcond := hstep.condStack (of_isPushOpcode hpush).2.2
  have hexec₀ : vm.isExecuting := by
    unfold TxScriptEngine.isExecuting at hexec ⊢
    rwa [hcond] at hexec
  have hvm := executeOpcode_push crypto hpush hexec₀ (hok rfl).2
  refine ⟨vm.dstack, ?_⟩
  rw [hvm, Opcode.pushed, hname]

/-! ## Runs -/

/-- The opcodes of a run consume at most the sum of what the static count adds for them. -/
lemma runOpcodes_uses (verifyOnlyPush : Bool) (ops : List (Except TxScriptError Opcode))
    (h : Adjacent prev vm) :
    Ends (runOpcodes crypto verifyOnlyPush ops) vm fun _ vm' =>
      Uses (totalSigOps prev (parsedOpcodes ops)) vm vm' := by
  induction ops generalizing prev vm with
  | nil => exact ends_pure .refl
  | cons parsed ops ih =>
    cases parsed with
    | error e => exact ⟨.error e, vm, rfl, .refl⟩
    | ok op =>
      have hle := sigOpsIn_le h op
      obtain ⟨r, vm₁, hnext, hstep, -⟩ := executeNext_ends crypto verifyOnlyPush op vm
      have huses : Uses (op.sigOps prev) vm vm₁ := hstep.uses.mono hle
      rw [parsedOpcodes, totalSigOps]
      cases r with
      | error e =>
        exact ⟨.error e, vm₁, outcome_bind_error hnext, huses.mono (le_add_right _ _)⟩
      | ok _ =>
        apply ends_bind_of_outcome hnext
        apply (ih (adjacent_of_executeNext crypto hnext)).mono
        exact fun _ _ hrest => huses.trans hrest

/-- The static count of a script. -/
def scriptSigOps (script : List UInt8) : ℕ := totalSigOps none (parsedOpcodes (parseScript script))

lemma executeScript_uses (script : List UInt8) (verifyOnlyPush : Bool) (vm : TxScriptEngine) :
    Ends (executeScript crypto script verifyOnlyPush) vm fun _ vm' =>
      Uses (scriptSigOps script) vm vm' := by
  obtain ⟨r, vm₁, hrun, huses⟩ :=
    runOpcodes_uses crypto verifyOnlyPush (parseScript script) (adjacent_none vm)
  refine ⟨_, _, executeScript_outcome crypto hrun, ?_⟩
  cases r with
  | error e => exact ⟨huses.isSome_counter, huses.used_le⟩
  | ok _ =>
    dsimp only
    split
    · exact huses
    · exact ⟨huses.isSome_counter, huses.used_le⟩

/-! ## Signature scripts -/

/-- A push consumes no signature operation. -/
lemma sigOps_of_isPushOpcode (hpush : op.isPushOpcode) (prev : Option Opcode) :
    op.sigOps prev = 0 := by
  obtain ⟨hc, hm, -⟩ := of_isPushOpcode hpush
  rw [Opcode.sigOps, if_neg hc, if_neg hm]

/-- In a signature script an opcode that is not a push ends the run. -/
lemma executeNext_notPush (hpush : ¬op.isPushOpcode) (vm : TxScriptEngine) :
    ∃ e, (executeNext crypto true (.ok op)).outcome vm = some (.error e, vm) := by
  unfold executeNext
  rw [outcome_bind_ok (outcome_orFail _ _)]
  split
  · exact ⟨_, rfl⟩
  · split
    · exact ⟨_, rfl⟩
    · rw [if_pos ⟨rfl, by simpa using hpush⟩]
      exact ⟨_, rfl⟩

/-- A signature script consumes no signature operation. If it succeeds, all its opcodes are pushes,
and their items are on the stack. -/
lemma runOpcodes_pushes (ops : List (Except TxScriptError Opcode)) (hexec : vm.isExecuting) :
    Ends (runOpcodes crypto true ops) vm fun r vm' =>
      Uses 0 vm vm' ∧
      (r = .ok () → ∃ pushes : List Opcode, ops = pushes.map .ok ∧
        (∀ op ∈ pushes, op.isPushOpcode) ∧
        vm' = { vm with dstack := (pushes.map Opcode.pushed).reverse ++ vm.dstack }) := by
  induction ops generalizing vm with
  | nil => exact ends_pure ⟨.refl, fun _ => ⟨[], rfl, (fun _ h => nomatch h), rfl⟩⟩
  | cons parsed ops ih =>
    cases parsed with
    | error e => exact ⟨.error e, vm, rfl, .refl, fun h => nomatch h⟩
    | ok op =>
      by_cases hpush : op.isPushOpcode
      · obtain ⟨r, vm₁, hnext, hstep, hok⟩ := executeNext_ends crypto true op vm
        have hle := sigOpsIn_le (adjacent_none vm) op
        rw [sigOps_of_isPushOpcode hpush] at hle
        have huses : Uses 0 vm vm₁ := hstep.uses.mono hle
        cases r with
        | error e => exact ⟨.error e, vm₁, outcome_bind_error hnext, huses, fun h => nomatch h⟩
        | ok _ =>
          have hvm := executeOpcode_push crypto hpush hexec (hok rfl).2
          have hexec₁ : vm₁.isExecuting := by rw [hvm]; exact hexec
          apply ends_bind_of_outcome hnext
          apply (ih hexec₁).mono
          rintro r vm' ⟨hrest, hpushes⟩
          refine ⟨huses.trans hrest, fun hr => ?_⟩
          obtain ⟨pushes, rfl, hall, rfl⟩ := hpushes hr
          refine ⟨op :: pushes, rfl, forall_mem_cons.mpr ⟨hpush, hall⟩, ?_⟩
          simp [hvm]
      · obtain ⟨e, hnext⟩ := executeNext_notPush crypto hpush vm
        exact ⟨.error e, vm, outcome_bind_error hnext, .refl, fun h => nomatch h⟩

lemma executeScript_pushes (script : List UInt8) (hcond : vm.condStack = []) :
    Ends (executeScript crypto script true) vm fun r vm' =>
      Uses 0 vm vm' ∧
      (r = .ok () → ∃ pushes : List Opcode, parseScript script = pushes.map .ok ∧
        (∀ op ∈ pushes, op.isPushOpcode) ∧
        vm' = { vm with
          dstack := (pushes.map Opcode.pushed).reverse ++ vm.dstack, astack := [], numOps := 0 }) := by
  have hexec : vm.isExecuting := by
    unfold TxScriptEngine.isExecuting
    rw [hcond]
  obtain ⟨r, vm₁, hrun, huses, hpushes⟩ := runOpcodes_pushes crypto (parseScript script) hexec
  have hreset : Uses 0 vm vm₁.reset := ⟨huses.isSome_counter, huses.used_le⟩
  refine ⟨_, _, executeScript_outcome crypto hrun, ?_⟩
  cases r with
  | error e => exact ⟨hreset, fun h => nomatch h⟩
  | ok _ =>
    dsimp only
    split
    · exact ⟨huses, fun h => nomatch h⟩
    · refine ⟨hreset, fun _ => ?_⟩
      obtain ⟨pushes, hparse, hall, rfl⟩ := hpushes rfl
      exact ⟨pushes, hparse, hall, rfl⟩

/-! ## P2SH -/

/-- A P2SH script public key consumes no signature operation. -/
lemma scriptSigOps_of_isPayToScriptHash (h : isPayToScriptHash script) :
    scriptSigOps script = 0 := by
  unfold isPayToScriptHash at h
  simp only [Bool.and_eq_true, beq_iff_eq] at h
  obtain ⟨⟨⟨hlen, h0⟩, h1⟩, h34⟩ := h
  match script with
  | [] => cases hlen
  | [_] => cases hlen
  | first :: second :: rest =>
    cases h0
    cases h1
    have hrest : rest.length = 33 := by simpa using hlen
    have hlast : rest[32]? = some 0x87 := h34
    have hdrop : rest.drop 32 = [0x87] := by
      rw [drop_eq_getElem_cons (by omega), drop_of_length_le (by omega)]
      rw [getElem?_eq_getElem (by omega)] at hlast
      rw [some.inj hlast]
    have hdata : deserializeNextOpcode (0x20 :: rest) =
        some (.ok ⟨0x20, rest.take 32⟩, [0x87]) := by
      show some (deserializeFixed 0x20 32 rest) = _
      unfold deserializeFixed
      rw [if_neg (by simp [hrest]), hdrop]
    have hhash : deserializeNextOpcode (0xaa :: 0x20 :: rest) =
        some (.ok ⟨0xaa, []⟩, 0x20 :: rest) := rfl
    unfold scriptSigOps
    rw [parseScript_eq, hhash]
    dsimp only
    rw [parseScript_eq, hdata]
    rfl

/-- The static count of a redeem script that was pushed is that of the data of the push. -/
lemma scriptSigOps_pushed_le (op : Opcode) : scriptSigOps op.pushed ≤ scriptSigOps op.data := by
  unfold Opcode.pushed
  split
  · exact zero_le _
  · -- the byte of -1 is a disabled opcode
    exact le_trans (by decide) (zero_le _)
  · next number hname =>
    -- the byte of a small integer is a push without its data
    obtain ⟨hlow, hhigh⟩ := opN_range hname
    have hzero : scriptSigOps [UInt8.ofNat number] = 0 := by
      interval_cases number <;> rfl
    rw [hzero]
    exact zero_le _
  · exact le_refl _

/-- The upper item that a signature script leaves is counted as the redeem script. -/
lemma scriptSigOps_redeemScript_le {signatureScript : List UInt8}
    {scriptPublicKey : ScriptPublicKey} (hp2sh : isPayToScriptHash scriptPublicKey.script)
    {pushes : List Opcode} (hparse : parseScript signatureScript = pushes.map .ok)
    (hall : ∀ op ∈ pushes, op.isPushOpcode) {dstack : Stack}
    (hstack : (pushes.map Opcode.pushed).reverse = script :: dstack) :
    scriptSigOps script ≤ scriptSigOps (countedScript signatureScript scriptPublicKey) := by
  have hpushOnly : isPushOnly (parseScript signatureScript) := by
    rw [hparse]
    unfold isPushOnly
    simpa using hall
  have hlast : pushes.getLast?.map Opcode.pushed = some script := by
    rw [← getLast?_map, ← head?_reverse, hstack, head?_cons]
  obtain ⟨last, hmem, rfl⟩ := map_eq_some_iff.mp hlast
  have hcounted : countedScript signatureScript scriptPublicKey = last.data := by
    unfold countedScript
    simp only [hp2sh, hpushOnly, Bool.not_true, Bool.false_eq_true, if_false]
    rw [hparse, getLast?_map, hmem]
    rfl
  rw [hcounted]
  exact scriptSigOps_pushed_le last

/-! ## The scripts of an input -/

lemma StacksOnly.uses (h : StacksOnly vm vm') : Uses 0 vm vm' := h.sigOnly.2

section
variable {tx : PopulatedTransaction} {input : TransactionInput} {idx : Fin tx.tx.inputs.length}
  {utxoEntry : UtxoEntry} {isP2sh : Bool}

/-- The first round of the loop over the scripts of an input is its signature script. -/
lemma runScripts_signatureScript {scripts : List (List UInt8)}
    {post : Except TxScriptError (Option Stack) → TxScriptEngine → Prop}
    (hsource : vm.scriptSource = .txInput tx input idx utxoEntry isP2sh)
    (hcond : vm.condStack = []) (hdstack : vm.dstack = [])
    (herror : ∀ e vm₁, Uses 0 vm vm₁ → post (.error e) vm₁)
    (hok : ∀ pushes : List Opcode, parseScript input.signatureScript = pushes.map .ok →
      (∀ op ∈ pushes, op.isPushOpcode) → ∀ vm₁, Uses 0 vm vm₁ →
      vm₁.dstack = (pushes.map Opcode.pushed).reverse →
      Ends (runScripts crypto isP2sh 1 none scripts) vm₁ post) :
    Ends (runScripts crypto isP2sh 0 none (input.signatureScript :: scripts)) vm post := by
  rw [runScripts]
  split
  · next hempty =>
    have hparse : parseScript input.signatureScript = ([] : List Opcode).map .ok := by
      rw [isEmpty_iff.mp hempty]
      rfl
    exact hok [] hparse (fun _ h => absurd h not_mem_nil) vm .refl hdstack
  · apply ends_get_bind
    simp only [hsource, beq_self_eq_true, Bool.and_self]
    apply (executeScript_pushes crypto input.signatureScript hcond).bind
    · rintro _ vm₁ ⟨huses, hpushes⟩
      obtain ⟨pushes, hparse, hall, rfl⟩ := hpushes rfl
      have hnone : (if (isP2sh && 0 == 1) = true then some vm.dstack else none) = none := by simp
      rw [hnone]
      apply hok pushes hparse hall _ huses
      rw [hdstack, append_nil]
    · rintro e vm₁ ⟨huses, -⟩
      exact herror e vm₁ huses

lemma runScripts_scriptPublicKey (script : List UInt8) (vm : TxScriptEngine) :
    Ends (runScripts crypto isP2sh 1 none [script]) vm fun r vm' =>
      Uses (scriptSigOps script) vm vm' ∧
      ∀ savedStack, r = .ok (some savedStack) → savedStack = vm.dstack := by
  rw [runScripts]
  split
  · exact ends_pure ⟨.refl, fun _ h => absurd h (by simp)⟩
  · apply ends_get_bind
    apply (executeScript_uses crypto script _ vm).bind
    · intro _ vm₁ huses
      apply ends_pure
      refine ⟨huses, fun savedStack h => ?_⟩
      split at h
      · cases h
        rfl
      · cases h
    · exact fun e vm₁ huses => ⟨huses, fun _ h => absurd h (by simp)⟩

lemma executeRedeemScript_uses (savedStack : Option Stack) {n : ℕ}
    (h : ∀ script dstack, savedStack = some (script :: dstack) → scriptSigOps script ≤ n)
    (vm : TxScriptEngine) :
    Ends (executeRedeemScript crypto savedStack) vm fun _ vm' => Uses n vm vm' := by
  apply (keeps_checkErrorCondition false vm).bind
  · intro _ vm₁ h₁
    have huses : Uses n vm vm₁ := h₁.uses.mono (zero_le n)
    split
    · exact ends_throw huses
    · next saved =>
      apply ends_bind_of_outcome (outcome_modify _ _)
      split
      · exact ends_throw ⟨huses.isSome_counter, huses.used_le⟩
      · next script dstack =>
        apply ends_bind_of_outcome (outcome_modify _ _)
        apply (executeScript_uses crypto script false _).mono
        intro _ vm₂ h₂
        have hle := h script dstack rfl
        have h₀₂ : Uses (scriptSigOps script) vm₁ vm₂ := ⟨h₂.isSome_counter, h₂.used_le⟩
        exact (h₁.uses.trans h₀₂).mono (by omega)
  · exact fun e vm₁ h₁ => h₁.uses.mono (zero_le n)

/-- The scripts of an input consume at most the static count of the script that is counted. -/
lemma executeScripts_uses (hp2sh : isP2sh = isPayToScriptHash utxoEntry.scriptPublicKey.script)
    (hsource : vm.scriptSource = .txInput tx input idx utxoEntry isP2sh)
    (hcond : vm.condStack = []) (hdstack : vm.dstack = []) :
    Ends (executeScripts crypto [input.signatureScript, utxoEntry.scriptPublicKey.script] isP2sh)
      vm fun _ vm' =>
        Uses (scriptSigOps (countedScript input.signatureScript utxoEntry.scriptPublicKey))
          vm vm' := by
  have hfinal := keeps_checkErrorCondition true
  unfold executeScripts
  split
  · exact ends_throw .refl
  · split
    · exact ends_throw .refl
    · split
      · exact ends_throw .refl
      · set bound := scriptSigOps (countedScript input.signatureScript utxoEntry.scriptPublicKey)
          with hbound
        by_cases h : isPayToScriptHash utxoEntry.scriptPublicKey.script
        · -- the script public key counts nothing, the redeem script what was pushed last
          rw [h] at hp2sh
          subst hp2sh
          have hzero := scriptSigOps_of_isPayToScriptHash h
          have hrun : Ends (runScripts crypto true 0 none
              [input.signatureScript, utxoEntry.scriptPublicKey.script]) vm fun r vm' =>
              Uses 0 vm vm' ∧ ∀ script dstack, r = .ok (some (script :: dstack)) →
                scriptSigOps script ≤ bound := by
            apply runScripts_signatureScript crypto hsource hcond hdstack
            · exact fun e vm₁ huses => ⟨huses, fun _ _ h => nomatch h⟩
            · intro pushes hparse hall vm₁ huses hstack
              apply (runScripts_scriptPublicKey crypto _ vm₁).mono
              rintro r vm₂ ⟨h₂, hsaved⟩
              rw [hzero] at h₂
              refine ⟨huses.trans h₂, fun script dstack hr => ?_⟩
              have htop := hsaved _ hr
              rw [hstack] at htop
              exact scriptSigOps_redeemScript_le h hparse hall htop.symm
          apply hrun.bind
          · rintro savedStack vm₁ ⟨h₁, hsaved⟩
            rw [if_pos rfl]
            apply (executeRedeemScript_uses crypto savedStack (n := bound)
              (fun script dstack hs => hsaved script dstack (by rw [hs])) vm₁).bind
            · intro _ vm₂ h₂
              apply (hfinal vm₂).mono
              intro _ vm₃ h₃
              exact ((h₁.trans h₂).trans h₃.uses).mono (by omega)
            · exact fun e vm₂ h₂ => (h₁.trans h₂).mono (by omega)
          · exact fun e vm₁ h₁ => h₁.1.mono (zero_le _)
        · have hcounted : bound = scriptSigOps utxoEntry.scriptPublicKey.script := by
            rw [hbound, countedScript]
            simp [h]
          have hfalse : isP2sh = false := by rw [hp2sh]; simpa using h
          have hrun : Ends (runScripts crypto isP2sh 0 none
              [input.signatureScript, utxoEntry.scriptPublicKey.script]) vm fun _ vm' =>
              Uses bound vm vm' := by
            apply runScripts_signatureScript crypto hsource hcond hdstack
            · exact fun e vm₁ huses => huses.mono (zero_le _)
            · intro pushes hparse hall vm₁ huses hstack
              apply (runScripts_scriptPublicKey crypto _ vm₁).mono
              rintro r vm₂ ⟨h₂, -⟩
              rw [← hcounted] at h₂
              exact (huses.trans h₂).mono (by omega)
          apply hrun.bind
          · intro savedStack vm₁ h₁
            rw [hfalse, if_neg Bool.false_ne_true]
            apply (hfinal vm₁).mono
            exact fun _ vm₂ h₂ => h₁.trans h₂.uses
          · exact fun e vm₁ h₁ => h₁

end

/-- The signature operations that the engine has consumed when it stops are at most the static
bound, exactly when no `Op16` stands directly before a multisig in the counted script: otherwise
there is no static bound. -/
theorem execute_usedSigOps_iff {tx : PopulatedTransaction} {input : TransactionInput}
    {inputIdx : ℕ} {utxoEntry : UtxoEntry} {kip10Enabled : Bool} {vm₀ : TxScriptEngine}
    (hvm : TxScriptEngine.fromTransactionInput tx input inputIdx utxoEntry kip10Enabled true =
      some vm₀) :
    (∃ r vm used bound, (execute crypto).outcome vm₀ = some (r, vm) ∧ vm.usedSigOps = some used ∧
      getSigOpCountUpperBound input.signatureScript utxoEntry.scriptPublicKey = some bound ∧
      used ≤ bound) ↔
    ¬Op16BeforeMultisig (parsedOpcodes
      (parseScript (countedScript input.signatureScript utxoEntry.scriptPublicKey))) := by
  have hiff := getSigOpCountUpperBound_eq_some_iff input.signatureScript utxoEntry.scriptPublicKey
  constructor
  · rintro ⟨_, _, _, bound, -, -, hbound, -⟩
    exact ((hiff bound).mp hbound).1
  · intro h16
    have hbound := (hiff _).mpr ⟨h16, rfl⟩
    unfold TxScriptEngine.fromTransactionInput at hvm
    split at hvm
    · have hends : Ends (execute crypto) vm₀ fun _ vm' =>
          Uses (scriptSigOps (countedScript input.signatureScript utxoEntry.scriptPublicKey))
            vm₀ vm' := by
        cases hvm
        apply ends_get_bind
        dsimp only
        split
        · exact ends_pure .refl
        · exact executeScripts_uses crypto rfl rfl rfl rfl
      obtain ⟨r, vm, hout, huses⟩ := hends
      cases hvm
      obtain ⟨counter, hcounter⟩ := isSome_iff_exists.mp huses.isSome_counter
      have hused : vm.usedSigOps = some counter.usedSigOps := by
        rw [TxScriptEngine.usedSigOps, hcounter]
        rfl
      refine ⟨r, vm, _, _, hout, hused, hbound, ?_⟩
      have hle := huses.used_le
      simpa [TxScriptEngine.used, TxScriptEngine.usedSigOps, RuntimeSigOpCounter.usedSigOps,
        RuntimeSigOpCounter.new, scriptSigOps, hcounter] using hle
    · cases hvm

end

/-- The script public key `Op2 OpCheckMultiSig` with an empty signature script. -/
theorem execute_usedSigOps_op2_checkMultiSig : ∃ r vm used bound,
      (execute acceptingCrypto).outcome (engineWith [] 2 [0x52, 0xae]) = some (r, vm) ∧
      vm.usedSigOps = some used ∧
      getSigOpCountUpperBound [] ⟨0, [0x52, 0xae]⟩ = some bound ∧ used ≤ bound := by
  apply (execute_usedSigOps_iff acceptingCrypto
    (fromTransactionInput_eq_engineWith [] 2 [0x52, 0xae])).mpr
  show ¬Op16BeforeMultisig [⟨0x52, []⟩, ⟨0xae, []⟩]
  rw [op16BeforeMultisig_cons]
  rintro (⟨hname, -⟩ | hrest)
  · exact absurd hname (by decide)
  · exact not_op16BeforeMultisig_singleton _ hrest

/-- A multisig of no signature and 16 keys is executed without an error and consumes nothing, but
its script public key has no static count. -/
theorem execute_op16_checkMultiSig : (∃ vm, (execute acceptingCrypto).outcome
        (engineWith [] 0 (0x00 :: replicate 16 0x51 ++ [0x60, 0xae])) = some (.ok (), vm) ∧
      vm.usedSigOps = some 0) ∧
    getSigOpCountUpperBound [] ⟨0, 0x00 :: replicate 16 0x51 ++ [0x60, 0xae]⟩ = none := by
  refine ⟨⟨{ engineWith [] 0 (0x00 :: replicate 16 0x51 ++ [0x60, 0xae]) with
    dstack := [] }, ?_, rfl⟩, ?_⟩
  · decide +kernel
  · decide +kernel

end LapisMonetae.Script
