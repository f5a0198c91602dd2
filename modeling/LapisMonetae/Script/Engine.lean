import LapisMonetae.Script.DataStack

/-!
# The script engine

`TxScriptEngine`: execution of the signature script, the script public key and, for P2SH, the
redeem script of a transaction input. The cryptographic functions are a parameter; the caches of
signature hashes and of verified signatures hold values of these functions and are left out.
-/

namespace LapisMonetae.Script

open Program LittleEndian Tx Utxo

/-! ## Signatures -/

structure SigHashType where
  value : UInt8
deriving DecidableEq, Repr

def SigHashType.fromU8 (val : UInt8) : Except TxScriptError SigHashType :=
  if [0x01, 0x02, 0x04, 0x81, 0x82, 0x84].contains val then .ok ⟨val⟩
  else .error (.invalidSigHashType val)

/-- A signature scheme: its keys and signatures as byte strings. -/
structure SignatureScheme where
  publicKeyFromSlice : List UInt8 → Except SecpError Unit
  signatureFromSlice : List UInt8 → Except SecpError Unit
  /-- the signature hash of an input, which reads the input and its entry -/
  calcSignatureHash : PopulatedTransaction → TransactionInput × UtxoEntry → ℕ → SigHashType → Hash
  verify : (sig : List UInt8) → (msg : Hash) → (key : List UInt8) → Bool

/-- The cryptographic functions of the engine. -/
structure ScriptCrypto where
  schnorr : SignatureScheme
  ecdsa : SignatureScheme
  sha256 : List UInt8 → List UInt8
  blake2b : List UInt8 → List UInt8

structure RuntimeSigOpCounter where
  sigOpLimit : ℕ
  sigOpRemaining : ℕ
  remaining_le : sigOpRemaining ≤ sigOpLimit
deriving DecidableEq

def RuntimeSigOpCounter.new (sigOpLimit : ℕ) : RuntimeSigOpCounter :=
  ⟨sigOpLimit, sigOpLimit, Nat.le_refl _⟩

def RuntimeSigOpCounter.usedSigOps (self : RuntimeSigOpCounter) : ℕ :=
  self.sigOpLimit - self.sigOpRemaining

/-! ## The engine -/

inductive OpCond where
  | false
  | true
  | skip
deriving DecidableEq, Repr

def OpCond.negate : OpCond → OpCond
  | .true => .false
  | .false => .true
  | .skip => .skip

/-- `ScriptSource`. The index of a transaction input is one of its inputs. -/
inductive ScriptSource where
  | txInput (tx : PopulatedTransaction) (input : TransactionInput) (idx : Fin tx.tx.inputs.length)
      (utxoEntry : UtxoEntry) (isP2sh : Bool)
  | standAloneScripts (scripts : List (List UInt8))
deriving DecidableEq

/-- `TxScriptEngine`. The tops of the condition stack and of both data stacks are first. -/
structure TxScriptEngine where
  dstack : Stack
  astack : Stack
  scriptSource : ScriptSource
  /-- following if stacks, and whether it is running -/
  condStack : List OpCond
  numOps : ℤ
  kip10Enabled : Bool
  runtimeSigOpCounter : Option RuntimeSigOpCounter
deriving DecidableEq

/-- Programs of the engine. -/
abbrev EngineM := Program TxScriptEngine TxScriptError

namespace TxScriptEngine

/-- `from_transaction_input`. An index beyond the inputs panics. -/
def fromTransactionInput (tx : PopulatedTransaction) (input : TransactionInput) (inputIdx : ℕ)
    (utxoEntry : UtxoEntry) (kip10Enabled runtimeSigOpCounting : Bool) : Option TxScriptEngine :=
  if h : inputIdx < tx.tx.inputs.length then
    some {
      dstack := []
      astack := []
      scriptSource := .txInput tx input ⟨inputIdx, h⟩ utxoEntry
        (isPayToScriptHash utxoEntry.scriptPublicKey.script)
      condStack := []
      numOps := 0
      kip10Enabled := kip10Enabled
      runtimeSigOpCounter :=
        if runtimeSigOpCounting then some (.new input.sigOpCount.toNat) else none }
  else none

def fromScript (script : List UInt8) (kip10Enabled : Bool) : TxScriptEngine :=
  ⟨[], [], .standAloneScripts [script], [], 0, kip10Enabled, none⟩

def usedSigOps (self : TxScriptEngine) : Option ℕ :=
  self.runtimeSigOpCounter.map RuntimeSigOpCounter.usedSigOps

def isExecuting (self : TxScriptEngine) : Bool :=
  match self.condStack with
  | [] => true
  | cond :: _ => cond == .true

end TxScriptEngine

/-- A program on the data stack of the engine. -/
def onDstack {α : Type} (p : StackM α) : EngineM α :=
  zoom TxScriptEngine.dstack (fun vm stack => { vm with dstack := stack }) p

/-- A program on the alt stack of the engine. -/
def onAstack {α : Type} (p : StackM α) : EngineM α :=
  zoom TxScriptEngine.astack (fun vm stack => { vm with astack := stack }) p

/-! ## Signature checks -/

/-- `consume_sig_op`. Without a counter nothing is consumed. -/
def consumeSigOp : EngineM Unit := do
  let vm ← get
  match vm.runtimeSigOpCounter with
  | none => pure ()
  | some counter =>
    match counter with
    | ⟨limit, 0, _⟩ => throw (.exceededSigOpLimit limit)
    | ⟨limit, remaining + 1, h⟩ =>
      set { vm with runtimeSigOpCounter := some ⟨limit, remaining, Nat.le_of_succ_le h⟩ }

/-- The verification of a signature by a key of `keyLength` bytes. -/
def verifySignature (scheme : SignatureScheme) (keyLength : ℕ) (hashType : SigHashType)
    (key sig : List UInt8) : EngineM Bool := do
  match (← get).scriptSource with
  | .txInput tx _ idx _ _ =>
    if sig.length ≠ 64 then throw (.sigLength sig.length)
    else if key.length ≠ keyLength then throw .pubKeyFormat
    else do
      orFail ((scheme.publicKeyFromSlice key).mapError .invalidSignature)
      orFail ((scheme.signatureFromSlice sig).mapError .invalidSignature)
      let input ← unwrap (tx.populatedInput idx)
      pure (scheme.verify sig (scheme.calcSignatureHash tx input idx hashType) key)
  | .standAloneScripts _ => throw .notATransactionInput

/-- The body of `check_schnorr_signature` and `check_ecdsa_signature`. -/
def checkSignature (scheme : SignatureScheme) (keyLength : ℕ) (hashType : SigHashType)
    (key sig : List UInt8) : EngineM Bool := do
  consumeSigOp
  verifySignature scheme keyLength hashType key sig

section
variable (crypto : ScriptCrypto)

def checkSchnorrSignature : SigHashType → List UInt8 → List UInt8 → EngineM Bool :=
  checkSignature crypto.schnorr 32

def checkEcdsaSignature : SigHashType → List UInt8 → List UInt8 → EngineM Bool :=
  checkSignature crypto.ecdsa 33

/-- The body of `OpCheckSig` and `OpCheckSigECDSA`: a signature ends with its hash type. -/
def opCheckSig (check : SigHashType → List UInt8 → List UInt8 → EngineM Bool) : EngineM Unit := do
  let (sig, key) ← onDstack popRaw2
  match sig.reverse with
  | typ :: rest => do
    let hashType ← orFail (SigHashType.fromU8 typ)
    onDstack (pushBool (← check hashType key rest.reverse))
  | [] => onDstack (pushBool false)

/-- The inner loop of a multisig: public keys are consumed until one matches the signature. It
returns the keys that are left, or nothing if fewer keys than signatures are left. -/
def multisigKeyLoop (check : List UInt8 → EngineM Bool) (sigsLeft : ℕ) :
    List (List UInt8) → EngineM (Option (List (List UInt8)))
  | [] => if 0 < sigsLeft then pure none else unwrap none
  | key :: keys =>
    if keys.length + 1 < sigsLeft then pure none
    else do
      if ← check key then pure (some keys) else multisigKeyLoop check sigsLeft keys

/-- The outer loop of a multisig, from the signature with index `sigIdx` on. It returns whether
the check failed. -/
def multisigLoop (check : SigHashType → List UInt8 → List UInt8 → EngineM Bool) (numSigs : ℕ) :
    ℕ → List (List UInt8) → List (List UInt8) → EngineM Bool
  | _, [], _ => pure false
  | sigIdx, signature :: signatures, keys =>
    match signature.reverse with
    | [] => pure true
    | typ :: rest => do
      let hashType ← orFail (SigHashType.fromU8 typ)
      match ← multisigKeyLoop (fun key => check hashType key rest.reverse) (numSigs - sigIdx)
          keys with
      | none => pure true
      | some keys => multisigLoop check numSigs (sigIdx + 1) signatures keys

/-- The number of public keys of a multisig, which counts toward the operations. -/
def popNumKeys : EngineM ℕ := do
  let numKeys ← onDstack popI32
  if numKeys < 0 then
    throw (.invalidPubKeyCount ("number of pubkeys " ++ toString numKeys ++ " is negative"))
  else if numKeys > maxPubKeysPerMultisig then
    throw (.invalidPubKeyCount ("too many pubkeys " ++ toString numKeys ++ " > "
      ++ toString maxPubKeysPerMultisig))
  else do
    modify fun vm => { vm with numOps := vm.numOps + numKeys }
    if (← get).numOps > maxOpsPerScript then throw (.tooManyOperations maxOpsPerScript)
    else pure numKeys.toNat

/-- The number of signatures of a multisig with `numKeys` keys. -/
def popNumSigs (numKeys : ℕ) : EngineM ℕ := do
  let numSigs ← onDstack popI32
  if numSigs < 0 then
    throw (.invalidSignatureCount ("number of signatures " ++ toString numSigs ++ " is negative"))
  else if numSigs > numKeys then
    throw (.invalidSignatureCount ("more signatures than pubkeys " ++ toString numSigs ++ " > "
      ++ toString numKeys))
  else pure numSigs.toNat

/-- The outcome of a multisig: if it failed, every signature must be empty. -/
def pushMultisigResult (signatures : List (List UInt8)) (failed : Bool) : EngineM Unit :=
  if failed ∧ signatures.any (fun sig => !sig.isEmpty) then throw .nullFail
  else onDstack (pushBool !failed)

/-- A multisig whose number of keys is known. -/
def checkMultisigKeys (check : SigHashType → List UInt8 → List UInt8 → EngineM Bool)
    (numKeys : ℕ) : EngineM Unit := do
  let pubKeys ← onDstack (popRaw numKeys)
  let numSigs ← popNumSigs numKeys
  let signatures ← onDstack (popRaw numSigs)
  let failed ← multisigLoop check numSigs 0 signatures pubKeys
  pushMultisigResult signatures failed

/-- `op_check_multisig_schnorr_or_ecdsa`, with the check of one signature. -/
def opCheckMultisig (check : SigHashType → List UInt8 → List UInt8 → EngineM Bool) :
    EngineM Unit := do
  checkMultisigKeys check (← popNumKeys)

/-! ## Opcodes -/

/-- Numbers as `numeric_op!` reads them: with KIP-10 they may have eight bytes. -/
def deserializeNumber (kip10Enabled : Bool) : List UInt8 → StackM ℤ :=
  deserializeSized (if kip10Enabled then 8 else 4)

/-- `numeric_op!` with one number. -/
def unaryOp (block : ℤ → Except TxScriptError ℤ) : EngineM Unit := do
  let vm ← get
  onDstack do
    let value ← popItems1 (deserializeNumber vm.kip10Enabled)
    pushNumber (← orFail (block value))

/-- `numeric_op!` with two numbers. -/
def binaryOp (block : ℤ → ℤ → Except TxScriptError ℤ) : EngineM Unit := do
  let vm ← get
  onDstack do
    let (a, b) ← popItems2 (deserializeNumber vm.kip10Enabled)
    pushNumber (← orFail (block a b))

/-- `numeric_op!` with three numbers. -/
def ternaryOp (block : ℤ → ℤ → ℤ → Except TxScriptError ℤ) : EngineM Unit := do
  let vm ← get
  onDstack do
    let (x, l, u) ← popItems3 (deserializeNumber vm.kip10Enabled)
    pushNumber (← orFail (block x l u))

/-- A checked operation on `i64`. -/
def checked (message : String) (n : ℤ) : Except TxScriptError ℤ :=
  match checkedI64 n with
  | some n => .ok n
  | none => .error (.numberTooBig message)

/-- A boolean as a number. -/
def asNumber (b : Bool) : Except TxScriptError ℤ := .ok (if b then 1 else 0)

/-- The body of `OpIf` and `OpNotIf`, with the conditions for a true and a false item. -/
def pushCond (onTrue onFalse : OpCond) : EngineM Unit := do
  let vm ← get
  if vm.isExecuting then
    match vm.dstack with
    | [] => throw .emptyStack
    | condBuf :: dstack => do
      set { vm with dstack := dstack }
      match condBuf with
      | [] => modify fun vm => { vm with condStack := onFalse :: vm.condStack }
      | [1] => modify fun vm => { vm with condStack := onTrue :: vm.condStack }
      | _ => throw (.invalidState "expected boolean")
  else set { vm with condStack := .skip :: vm.condStack }

def opElse : EngineM Unit := do
  let vm ← get
  match vm.condStack with
  | [] => throw (.invalidState "condition stack empty")
  | cond :: conds => set { vm with condStack := cond.negate :: conds }

def opEndIf : EngineM Unit := do
  let vm ← get
  match vm.condStack with
  | [] => throw (.invalidState "condition stack empty")
  | _ :: conds => set { vm with condStack := conds }

/-- The verification of the boolean that an opcode has left. -/
def popVerify : EngineM Unit := do
  if ← onDstack popBool then pure () else throw .verifyError

/-- The location that `OpPick` and `OpRoll` read: an item of the stack. -/
def popLocation (message : String) : StackM (ℕ × List UInt8) := do
  let loc ← popI32
  let stack ← get
  if loc < 0 ∨ (stack.length : ℤ) ≤ loc then throw (.invalidState message)
  else do
    pure (loc.toNat, ← unwrap stack[loc.toNat]?)

/-- Eight bytes of the stack as an unsigned number. Shorter items are padded with zeros. -/
def popU64 : StackM UInt64 := do
  let bytes ← popRaw1
  if bytes.length > 8 then
    throw (.numberTooBig ("lockTime value represented as " ++ debugBytes hexDigits bytes
      ++ " is longer then 8 bytes"))
  else pure (UInt64.ofNat (fromLeBytes bytes))

def lockTimeThreshold : UInt64 := 500000000000

def maxTxInSequenceNum : UInt64 := 0xffffffffffffffff

def sequenceLockTimeDisabled : UInt64 := 0x8000000000000000

def sequenceLockTimeMask : UInt64 := 0x00000000ffffffff

def opCheckLockTimeVerify : EngineM Unit := do
  match (← get).scriptSource with
  | .txInput tx input _ _ _ => do
    let stackLockTime ← onDstack popU64
    let lockTime := tx.tx.lockTime
    if ¬((lockTime < lockTimeThreshold ∧ stackLockTime < lockTimeThreshold) ∨
        (lockTime ≥ lockTimeThreshold ∧ stackLockTime ≥ lockTimeThreshold)) then
      throw (.unsatisfiedLockTime ("mismatched locktime types -- tx locktime " ++ toString lockTime
        ++ ", stack locktime " ++ toString stackLockTime))
    else if stackLockTime > lockTime then
      throw (.unsatisfiedLockTime ("locktime requirement not satisfied -- locktime is greater than "
        ++ "the transaction locktime: " ++ toString stackLockTime ++ " > " ++ toString lockTime))
    else if input.sequence = maxTxInSequenceNum then
      throw (.unsatisfiedLockTime "transaction input is finalized")
    else pure ()
  | .standAloneScripts _ =>
    throw (.invalidSource "LockTimeVerify only applies to transaction inputs")

def opCheckSequenceVerify : EngineM Unit := do
  match (← get).scriptSource with
  | .txInput _ input _ _ _ => do
    let stackSequence ← onDstack popU64
    if stackSequence &&& sequenceLockTimeDisabled ≠ 0 then pure ()
    else if input.sequence &&& sequenceLockTimeDisabled ≠ 0 then
      throw (.unsatisfiedLockTime ("transaction sequence has sequence locktime disabled bit set: 0x"
        ++ hexDigits input.sequence.toNat))
    else if stackSequence &&& sequenceLockTimeMask > input.sequence &&& sequenceLockTimeMask then
      throw (.unsatisfiedLockTime ("locktime requirement not satisfied -- locktime is greater than "
        ++ "the transaction locktime: " ++ toString (stackSequence &&& sequenceLockTimeMask)
        ++ " > " ++ toString (input.sequence &&& sequenceLockTimeMask)))
    else pure ()
  | .standAloneScripts _ =>
    throw (.invalidSource "LockTimeVerify only applies to transaction inputs")

/-- An introspection opcode: it needs KIP-10 and a transaction input. -/
def introspect (op : Opcode) (sourceName : String)
    (body : PopulatedTransaction → ℕ → StackM Unit) : EngineM Unit := do
  let vm ← get
  if vm.kip10Enabled then
    match vm.scriptSource with
    | .txInput tx _ idx _ _ => onDstack (body tx idx)
    | .standAloneScripts _ =>
      throw (.invalidSource (sourceName ++ " only applies to transaction inputs"))
  else throw (.invalidOpcode op.debug)

/-- `OpTxInputAmount` and `OpTxInputSpk`: the entry of the input whose index is on the stack. -/
def popUtxo (tx : PopulatedTransaction) : StackM UtxoEntry := do
  let idx ← popI32
  match if idx < 0 then none else tx.utxo idx.toNat with
  | some utxo => pure utxo
  | none => throw (.invalidInputIndex idx tx.tx.inputs.length)

/-- `OpTxOutputAmount` and `OpTxOutputSpk`: the output whose index is on the stack. The error
reports the number of inputs. -/
def popOutput (tx : PopulatedTransaction) : StackM TransactionOutput := do
  let idx ← popI32
  match if idx < 0 then none else tx.tx.outputs[idx.toNat]? with
  | some output => pure output
  | none => throw (.invalidOutputIndex idx tx.tx.inputs.length)

/-- An amount as a number. -/
def pushAmount (amount : ℕ) : StackM Unit :=
  if amount < 2 ^ 63 then pushNumber amount
  else throw (.numberTooBig "out of range integral type conversion attempted")

/-- `to_bytes` of a script public key: the version, high byte first, and the script. -/
def spkBytes (spk : ScriptPublicKey) : List UInt8 := (toLeBytes 2 spk.version.toNat).reverse ++ spk.script

/-- `execute` of an opcode. -/
def Opcode.execute (op : Opcode) : EngineM Unit :=
  match op.name with
  -- data push opcodes
  | .opFalse => onDstack (push [])
  | .opData | .opPushData1 | .opPushData2 | .opPushData4 => onDstack (push op.data)
  | .op1Negate => onDstack (pushNumber (-1))
  | .opReserved => throw (.opcodeReserved op.debug)
  | .opN number => onDstack (pushNumber number)
  -- control opcodes
  | .opNop => pure ()
  | .opVer => throw (.opcodeReserved op.debug)
  | .opIf => pushCond .true .false
  | .opNotIf => pushCond .false .true
  | .opVerIf | .opVerNotIf => throw (.opcodeReserved op.debug)
  | .opElse => opElse
  | .opEndIf => opEndIf
  | .opVerify => popVerify
  | .opReturn => throw .earlyReturn
  -- stack opcodes
  | .opToAltStack => do
    let item ← onDstack popRaw1
    onAstack (push item)
  | .opFromAltStack => do
    match (← get).astack with
    | last :: astack => do
      modify fun vm => { vm with astack := astack }
      onDstack (push last)
    | [] => throw .emptyStack
  | .op2Drop => onDstack (dropItems 2)
  | .op2Dup => onDstack (dupItems 2)
  | .op3Dup => onDstack (dupItems 3)
  | .op2Over => onDstack (overItems 2)
  | .op2Rot => onDstack (rotItems 2)
  | .op2Swap => onDstack (swapItems 2)
  | .opIfDup => onDstack do
    let result ← peekRaw1
    if toBool result then push result else pure ()
  | .opDepth => onDstack do pushNumber (← get).length
  | .opDrop => onDstack (dropItems 1)
  | .opDup => onDstack (dupItems 1)
  | .opNip => onDstack nip
  | .opOver => onDstack (overItems 1)
  | .opPick => onDstack do
    let (_, item) ← popLocation "pick at an invalid location"
    push item
  | .opRoll => onDstack do
    let (loc, item) ← popLocation "roll at an invalid location"
    modify (·.eraseIdx loc)
    push item
  | .opRot => onDstack (rotItems 1)
  | .opSwap => onDstack (swapItems 1)
  | .opTuck => onDstack tuck
  -- splice opcodes
  | .opCat | .opSubStr | .opLeft | .opRight => throw (.opcodeDisabled op.debug)
  | .opSize => onDstack do
    match ← get with
    | last :: _ => pushNumber last.length
    | [] => throw (.invalidStackOperation 1 0)
  -- bitwise logic opcodes
  | .opInvert | .opAnd | .opOr | .opXor => throw (.opcodeDisabled op.debug)
  | .opEqual => onDstack do pushBool (← popEqual)
  | .opEqualVerify => onDstack do
    if ← popEqual then pure () else throw .verifyError
  | .opReserved1 | .opReserved2 => throw (.opcodeReserved op.debug)
  -- numeric related opcodes
  | .op1Add => unaryOp fun value =>
    checked "Result of addition exceeds 64-bit signed integer range" (value + 1)
  | .op1Sub => unaryOp fun value =>
    checked "Result of subtraction exceeds 64-bit signed integer range" (value - 1)
  | .op2Mul | .op2Div => throw (.opcodeDisabled op.debug)
  | .opNegate => unaryOp fun value =>
    checked "Negation result exceeds 64-bit signed integer range" (-value)
  | .opAbs => unaryOp fun value =>
    checked "Absolute value exceeds 64-bit signed integer range" value.natAbs
  | .opNot => unaryOp fun m => asNumber (m == 0)
  | .op0NotEqual => unaryOp fun m => asNumber (m != 0)
  | .opAdd => binaryOp fun a b => checked "Sum exceeds 64-bit signed integer range" (a + b)
  | .opSub => binaryOp fun a b => checked "Difference exceeds 64-bit signed integer range" (a - b)
  | .opMul | .opDiv | .opMod | .opLShift | .opRShift => throw (.opcodeDisabled op.debug)
  | .opBoolAnd => binaryOp fun a b => asNumber (a != 0 && b != 0)
  | .opBoolOr => binaryOp fun a b => asNumber (a != 0 || b != 0)
  | .opNumEqual => binaryOp fun a b => asNumber (a == b)
  | .opNumEqualVerify => do
    let vm ← get
    onDstack do
      let (a, b) ← popItems2 (deserializeNumber vm.kip10Enabled)
      if a = b then pure () else throw .verifyError
  | .opNumNotEqual => binaryOp fun a b => asNumber (a != b)
  | .opLessThan => binaryOp fun a b => asNumber (a < b)
  | .opGreaterThan => binaryOp fun a b => asNumber (a > b)
  | .opLessThanOrEqual => binaryOp fun a b => asNumber (a ≤ b)
  | .opGreaterThanOrEqual => binaryOp fun a b => asNumber (a ≥ b)
  | .opMin => binaryOp fun a b => .ok (min a b)
  | .opMax => binaryOp fun a b => .ok (max a b)
  | .opWithin => ternaryOp fun x l u => asNumber (x ≥ l && x < u)
  -- crypto opcodes
  | .opSHA256 => onDstack do push (crypto.sha256 (← popRaw1))
  | .opCheckMultiSigECDSA => opCheckMultisig (checkEcdsaSignature crypto)
  | .opBlake2b => onDstack do push (crypto.blake2b (← popRaw1))
  | .opCheckSigECDSA => opCheckSig (checkEcdsaSignature crypto)
  | .opCheckSig => opCheckSig (checkSchnorrSignature crypto)
  | .opCheckSigVerify => do
    opCheckSig (checkSchnorrSignature crypto)
    popVerify
  | .opCheckMultiSig => opCheckMultisig (checkSchnorrSignature crypto)
  | .opCheckMultiSigVerify => do
    opCheckMultisig (checkSchnorrSignature crypto)
    popVerify
  | .opCheckLockTimeVerify => opCheckLockTimeVerify
  | .opCheckSequenceVerify => opCheckSequenceVerify
  -- introspection opcodes
  | .opTxVersion | .opTxLockTime | .opTxSubnetId | .opTxGas | .opTxPayload | .opOutpointTxId
  | .opOutpointIndex | .opTxInputScriptSig | .opTxInputSeq | .opTxInputBlockDaaScore
  | .opTxInputIsCoinbase => throw (.opcodeReserved op.debug)
  | .opTxInputCount => introspect op "OpInputCount" fun tx _ => pushNumber tx.tx.inputs.length
  | .opTxOutputCount => introspect op "OpOutputCount" fun tx _ => pushNumber tx.tx.outputs.length
  | .opTxInputIndex => introspect op "OpInputIndex" fun _ idx => pushNumber idx
  | .opTxInputAmount => introspect op "OpInputAmount" fun tx _ => do
    pushAmount (← popUtxo tx).amount
  | .opTxInputSpk => introspect op "OpInputSpk" fun tx _ => do
    push (spkBytes (← popUtxo tx).scriptPublicKey)
  | .opTxOutputAmount => introspect op "OpOutputAmount" fun tx _ => do
    pushAmount (← popOutput tx).value
  | .opTxOutputSpk => introspect op "OpOutputSpk" fun tx _ => do
    push (spkBytes (← popOutput tx).scriptPublicKey)
  | .opUnknown => throw (.invalidOpcode op.debug)

/-! ## Execution -/

def executeOpcode (op : Opcode) : EngineM Unit := do
  if !op.isPushOpcode then do
    modify fun vm => { vm with numOps := vm.numOps + 1 }
    if (← get).numOps > maxOpsPerScript then throw (.tooManyOperations maxOpsPerScript)
    else runIfExecuting
  else if op.data.length > maxScriptElementSize then
    throw (.elementTooBig op.data.length maxScriptElementSize)
  else runIfExecuting
where
  /-- The opcode is executed in a branch that is taken, or if it is a conditional. -/
  runIfExecuting : EngineM Unit := do
    if (← get).isExecuting || op.isConditional then
      if 0 < op.value ∧ op.value ≤ 0x4e then do
        orFail op.checkMinimalDataPush
        op.execute crypto
      else op.execute crypto
    else pure ()

/-- One round of the loop of `execute_script`. -/
def executeNext (verifyOnlyPush : Bool) (parsed : Except TxScriptError Opcode) : EngineM Unit := do
  let op ← orFail parsed
  if op.isDisabled then throw (.opcodeDisabled op.debug)
  else if op.alwaysIllegal then throw (.opcodeReserved op.debug)
  else if verifyOnlyPush ∧ !op.isPushOpcode then throw .signatureScriptNotPushOnly
  else do
    executeOpcode crypto op
    let vm ← get
    let combinedSize := vm.astack.length + vm.dstack.length
    if combinedSize > maxStackSize then throw (.stackSizeExceeded combinedSize maxStackSize)
    else pure ()

/-- The loop of `execute_script`. -/
def runOpcodes (verifyOnlyPush : Bool) : List (Except TxScriptError Opcode) → EngineM Unit
  | [] => pure ()
  | parsed :: ops => do
    executeNext crypto verifyOnlyPush parsed
    runOpcodes verifyOnlyPush ops

/-- `execute_script`. The alt stack and the number of operations do not persist, also when the
script fails. -/
def executeScript (script : List UInt8) (verifyOnlyPush : Bool) : EngineM Unit := do
  let scriptResult ← attempt (runOpcodes crypto verifyOnlyPush (parseScript script))
  let vm ← get
  match scriptResult with
  | .ok () =>
    if vm.condStack ≠ [] then throw .errUnbalancedConditional
    else set { vm with astack := [], numOps := 0 }
  | .error e => do
    set { vm with astack := [], numOps := 0 }
    throw e

/-- `check_error_condition`: the script has left a true boolean on the stack. -/
def checkErrorCondition (finalScript : Bool) : EngineM Unit := do
  let vm ← get
  if finalScript ∧ vm.dstack.length > 1 then throw (.cleanStack (vm.dstack.length - 1))
  else if finalScript ∧ vm.dstack = [] then throw .emptyStack
  else do
    if ← onDstack popBool then pure () else throw .evalFalse

/-- The loop of `execute` over the scripts, from the script with index `idx` on. For P2SH it saves
the stack before the second script. -/
def runScripts (isP2sh : Bool) : ℕ → Option Stack → List (List UInt8) → EngineM (Option Stack)
  | _, savedStack, [] => pure savedStack
  | idx, savedStack, script :: scripts =>
    if script.isEmpty then runScripts isP2sh (idx + 1) savedStack scripts
    else do
      let vm ← get
      let isTxInput := match vm.scriptSource with
        | .txInput .. => true
        | .standAloneScripts _ => false
      executeScript crypto script (idx == 0 && isTxInput)
      runScripts isP2sh (idx + 1) (if isP2sh && idx == 1 then some vm.dstack else savedStack) scripts

/-- The redeem script of P2SH: the upper item of the saved stack, run on the rest of it. -/
def executeRedeemScript (savedStack : Option Stack) : EngineM Unit := do
  checkErrorCondition false
  match savedStack with
  | none => throw .emptyStack
  | some savedStack =>
    modify fun vm => { vm with dstack := savedStack }
    match savedStack with
    | [] => throw .emptyStack
    | script :: dstack => do
      modify fun vm => { vm with dstack := dstack }
      executeScript crypto script false

/-- The part of `execute` that runs scripts. -/
def executeScripts (scripts : List (List UInt8)) (isP2sh : Bool) : EngineM Unit :=
  if scripts.isEmpty then throw .noScripts
  else if scripts.all (·.isEmpty) then throw .evalFalse
  else
    match scripts.find? (·.length > maxScriptsSize) with
    | some s => throw (.scriptSize s.length maxScriptsSize)
    | none => do
      let savedStack ← runScripts crypto isP2sh 0 none scripts
      if isP2sh then do
        executeRedeemScript crypto savedStack
        checkErrorCondition true
      else checkErrorCondition true

/-- `execute`. A script public key of an unknown version is not executed. -/
def execute : EngineM Unit := do
  match (← get).scriptSource with
  | .txInput _ input _ utxoEntry isP2sh =>
    if utxoEntry.scriptPublicKey.version > maxScriptPublicKeyVersion then pure ()
    else
      executeScripts crypto [input.signatureScript, utxoEntry.scriptPublicKey.script] isP2sh
  | .standAloneScripts scripts => executeScripts crypto scripts false

end

end LapisMonetae.Script
