import LapisMonetae.Lib.LittleEndian
import LapisMonetae.Tx.Transaction

/-!
# Opcodes

The opcodes of the script language: their numbers, the byte format a script is parsed from, and
what is known of an opcode before it is executed.
-/

namespace LapisMonetae.Script

open LittleEndian List

/-- The errors of the elliptic curve library that a script can meet. -/
inductive SecpError where
  | invalidPublicKey
  | invalidSignature
deriving DecidableEq, Repr

inductive SerializationError where
  | numberTooLong (number : ℤ)
deriving DecidableEq, Repr

inductive TxScriptError where
  | malformedPushSize (bytes : List UInt8)
  | malformedPush (required remaining : ℕ)
  | invalidInputIndex (index : ℤ) (inputs : ℕ)
  | stackSizeExceeded (size max : ℕ)
  | invalidOpcode (opcode : String)
  | opcodeReserved (opcode : String)
  | opcodeDisabled (opcode : String)
  | emptyStack
  | cleanStack (items : ℕ)
  | evalFalse
  | earlyReturn
  | verifyError
  | invalidState (message : String)
  | invalidSignature (error : SecpError)
  | tooManyOperations (max : ℤ)
  | notATransactionInput
  | elementTooBig (size max : ℕ)
  | notMinimalData (message : String)
  | invalidSource (message : String)
  | unsatisfiedLockTime (message : String)
  | numberTooBig (message : String)
  | nullFail
  | invalidSignatureCount (message : String)
  | invalidPubKeyCount (message : String)
  | invalidSigHashType (hashType : UInt8)
  | pubKeyFormat
  | sigLength (length : ℕ)
  | noScripts
  | signatureScriptNotPushOnly
  | errUnbalancedConditional
  | invalidStackOperation (required items : ℕ)
  | scriptSize (size max : ℕ)
  | invalidOutputIndex (index : ℤ) (inputs : ℕ)
  | serialization (error : SerializationError)
  | exceededSigOpLimit (limit : ℕ)
deriving DecidableEq, Repr

def maxScriptPublicKeyVersion : UInt16 := 0

def maxStackSize : ℕ := 244

def maxScriptsSize : ℕ := 10000

def maxScriptElementSize : ℕ := 520

def maxOpsPerScript : ℤ := 201

/-- `MAX_PUB_KEYS_PER_MUTLTISIG`. -/
def maxPubKeysPerMultisig : ℤ := 20

/-- `NO_COST_OPCODE`: the last opcode that does not count toward operations. -/
def noCostOpcode : UInt8 := 0x60

/-! ## Names -/

/-- The opcodes of `opcode_list!`. The data pushes `OpData1` to `OpData75`, the small integers
`OpTrue` to `Op16` and the opcodes that stand for no operation are one constructor each. -/
inductive OpName where
  | opFalse | opData | opPushData1 | opPushData2 | opPushData4 | op1Negate | opReserved
  | opN (number : ℕ)
  | opNop | opVer | opIf | opNotIf | opVerIf | opVerNotIf | opElse | opEndIf | opVerify | opReturn
  | opToAltStack | opFromAltStack | op2Drop | op2Dup | op3Dup | op2Over | op2Rot | op2Swap
  | opIfDup | opDepth | opDrop | opDup | opNip | opOver | opPick | opRoll | opRot | opSwap | opTuck
  | opCat | opSubStr | opLeft | opRight | opSize | opInvert | opAnd | opOr | opXor
  | opEqual | opEqualVerify | opReserved1 | opReserved2
  | op1Add | op1Sub | op2Mul | op2Div | opNegate | opAbs | opNot | op0NotEqual | opAdd | opSub
  | opMul | opDiv | opMod | opLShift | opRShift | opBoolAnd | opBoolOr
  | opNumEqual | opNumEqualVerify | opNumNotEqual | opLessThan | opGreaterThan
  | opLessThanOrEqual | opGreaterThanOrEqual | opMin | opMax | opWithin
  | opSHA256 | opCheckMultiSigECDSA | opBlake2b | opCheckSigECDSA | opCheckSig | opCheckSigVerify
  | opCheckMultiSig | opCheckMultiSigVerify | opCheckLockTimeVerify | opCheckSequenceVerify
  | opTxVersion | opTxInputCount | opTxOutputCount | opTxLockTime | opTxSubnetId | opTxGas
  | opTxPayload | opTxInputIndex | opOutpointTxId | opOutpointIndex | opTxInputScriptSig
  | opTxInputSeq | opTxInputAmount | opTxInputSpk | opTxInputBlockDaaScore | opTxInputIsCoinbase
  | opTxOutputAmount | opTxOutputSpk
  | opUnknown
deriving DecidableEq, Repr

/-- The numbers of `opcode_list!`. -/
def OpName.ofCode (code : UInt8) : OpName :=
  if 0x01 ≤ code ∧ code ≤ 0x4b then .opData
  else if 0x51 ≤ code ∧ code ≤ 0x60 then .opN (code.toNat - 0x50)
  else match code with
    | 0x00 => .opFalse | 0x4c => .opPushData1 | 0x4d => .opPushData2 | 0x4e => .opPushData4
    | 0x4f => .op1Negate | 0x50 => .opReserved
    | 0x61 => .opNop | 0x62 => .opVer | 0x63 => .opIf | 0x64 => .opNotIf | 0x65 => .opVerIf
    | 0x66 => .opVerNotIf | 0x67 => .opElse | 0x68 => .opEndIf | 0x69 => .opVerify
    | 0x6a => .opReturn
    | 0x6b => .opToAltStack | 0x6c => .opFromAltStack | 0x6d => .op2Drop | 0x6e => .op2Dup
    | 0x6f => .op3Dup | 0x70 => .op2Over | 0x71 => .op2Rot | 0x72 => .op2Swap | 0x73 => .opIfDup
    | 0x74 => .opDepth | 0x75 => .opDrop | 0x76 => .opDup | 0x77 => .opNip | 0x78 => .opOver
    | 0x79 => .opPick | 0x7a => .opRoll | 0x7b => .opRot | 0x7c => .opSwap | 0x7d => .opTuck
    | 0x7e => .opCat | 0x7f => .opSubStr | 0x80 => .opLeft | 0x81 => .opRight | 0x82 => .opSize
    | 0x83 => .opInvert | 0x84 => .opAnd | 0x85 => .opOr | 0x86 => .opXor | 0x87 => .opEqual
    | 0x88 => .opEqualVerify | 0x89 => .opReserved1 | 0x8a => .opReserved2
    | 0x8b => .op1Add | 0x8c => .op1Sub | 0x8d => .op2Mul | 0x8e => .op2Div | 0x8f => .opNegate
    | 0x90 => .opAbs | 0x91 => .opNot | 0x92 => .op0NotEqual | 0x93 => .opAdd | 0x94 => .opSub
    | 0x95 => .opMul | 0x96 => .opDiv | 0x97 => .opMod | 0x98 => .opLShift | 0x99 => .opRShift
    | 0x9a => .opBoolAnd | 0x9b => .opBoolOr | 0x9c => .opNumEqual | 0x9d => .opNumEqualVerify
    | 0x9e => .opNumNotEqual | 0x9f => .opLessThan | 0xa0 => .opGreaterThan
    | 0xa1 => .opLessThanOrEqual | 0xa2 => .opGreaterThanOrEqual | 0xa3 => .opMin
    | 0xa4 => .opMax | 0xa5 => .opWithin
    | 0xa8 => .opSHA256 | 0xa9 => .opCheckMultiSigECDSA | 0xaa => .opBlake2b
    | 0xab => .opCheckSigECDSA | 0xac => .opCheckSig | 0xad => .opCheckSigVerify
    | 0xae => .opCheckMultiSig | 0xaf => .opCheckMultiSigVerify
    | 0xb0 => .opCheckLockTimeVerify | 0xb1 => .opCheckSequenceVerify
    | 0xb2 => .opTxVersion | 0xb3 => .opTxInputCount | 0xb4 => .opTxOutputCount
    | 0xb5 => .opTxLockTime | 0xb6 => .opTxSubnetId | 0xb7 => .opTxGas | 0xb8 => .opTxPayload
    | 0xb9 => .opTxInputIndex | 0xba => .opOutpointTxId | 0xbb => .opOutpointIndex
    | 0xbc => .opTxInputScriptSig | 0xbd => .opTxInputSeq | 0xbe => .opTxInputAmount
    | 0xbf => .opTxInputSpk | 0xc0 => .opTxInputBlockDaaScore | 0xc1 => .opTxInputIsCoinbase
    | 0xc2 => .opTxOutputAmount | 0xc3 => .opTxOutputSpk
    | _ => .opUnknown

/-! ## Metadata -/

/-- `OpCode<CODE>`: an opcode with the data that follows it. -/
structure Opcode where
  /-- the opcode number, `value()` of the source -/
  value : UInt8
  data : List UInt8
deriving DecidableEq, Repr

/-- A number in hexadecimal digits. -/
def hexDigits (n : ℕ) : String := String.ofList (Nat.toDigits 16 n)

/-- A list of bytes as the debug format prints it, with `show` for one byte. -/
def debugBytes (showByte : ℕ → String) (bytes : List UInt8) : String :=
  "[" ++ String.intercalate ", " (bytes.map fun b => showByte b.toNat) ++ "]"

namespace Opcode

/-- The name of an opcode. -/
def name (self : Opcode) : OpName := OpName.ofCode self.value

/-- The debug format of an opcode. -/
def debug (self : Opcode) : String :=
  "Opcode<0x" ++ hexDigits self.value.toNat ++ ">\x7b data:" ++ debugBytes toString self.data
    ++ " \x7d"

def isDisabled (self : Opcode) : Bool :=
  match self.name with
  | .opCat | .opSubStr | .opLeft | .opRight | .opInvert | .opAnd | .opOr | .opXor | .op2Mul
  | .op2Div | .opMul | .opDiv | .opMod | .opLShift | .opRShift => true
  | _ => false

def alwaysIllegal (self : Opcode) : Bool :=
  match self.name with
  | .opVerIf | .opVerNotIf => true
  | _ => false

def isPushOpcode (self : Opcode) : Bool := self.value ≤ noCostOpcode

/-- `is_conditional`: conditionals are executed also outside of the branch taken. -/
def isConditional (self : Opcode) : Bool := 0x63 ≤ self.value && self.value ≤ 0x68

/-- `check_minimal_data_push`: data is pushed by the shortest encoding. The last comparison of the
source leaves out the greatest length of an `OpPushData2`. -/
def checkMinimalDataPush (self : Opcode) : Except TxScriptError Unit :=
  let dataLen := self.data.length
  let first := self.data.headD 0
  if dataLen = 0 then
    if self.value ≠ 0x00 then
      throw (.notMinimalData
        s!"zero length data push is encoded with opcode {self.debug} instead of OpFalse")
    else pure ()
  else if dataLen = 1 ∧ 1 ≤ first ∧ first ≤ 16 then
    if self.value ≠ 0x51 + first - 1 then
      throw (.notMinimalData ("zero length data push is encoded with opcode " ++ self.debug
        ++ " instead of Op_" ++ toString first.toNat))
    else pure ()
  else if dataLen = 1 ∧ first = 0x81 then
    if self.value ≠ 0x4f then
      throw (.notMinimalData ("data push of the value -1 encoded with opcode " ++ self.debug
        ++ " instead of OP_1NEGATE"))
    else pure ()
  else if dataLen ≤ 75 then
    if self.value.toNat ≠ dataLen then
      throw (.notMinimalData (s!"data push of {dataLen} bytes encoded with opcode " ++ self.debug
        ++ s!" instead of OP_DATA_{dataLen}"))
    else pure ()
  else if dataLen ≤ 255 then
    if self.value ≠ 0x4c then
      throw (.notMinimalData (s!"data push of {dataLen} bytes encoded with opcode " ++ self.debug
        ++ " instead of OP_PUSHDATA1"))
    else pure ()
  else if dataLen < 65535 ∧ self.value ≠ 0x4d then
    throw (.notMinimalData (s!"data push of {dataLen} bytes encoded with opcode " ++ self.debug
      ++ " instead of OP_PUSHDATA2"))
  else pure ()

end Opcode

/-! ## Parsing -/

/-- `deserialize` of an opcode of fixed length, which `length` bytes of data follow. -/
def deserializeFixed (code : UInt8) (length : ℕ) (it : List UInt8) :
    Except TxScriptError Opcode × List UInt8 :=
  let data := it.take length
  if data.length ≠ length then (.error (.malformedPush length data.length), it.drop length)
  else (.ok ⟨code, data⟩, it.drop length)

/-- `deserialize` of an opcode whose data is preceded by its length in `width` bytes. -/
def deserializeVar (code : UInt8) (width : ℕ) (it : List UInt8) :
    Except TxScriptError Opcode × List UInt8 :=
  let bytes := it.take width
  let it := it.drop width
  if bytes.length ≠ width then (.error (.malformedPushSize bytes), it)
  else
    let length := fromLeBytes bytes
    let data := it.take length
    if data.length ≠ length then (.error (.malformedPush length data.length), it.drop length)
    else (.ok ⟨code, data⟩, it.drop length)

/-- `deserialize_next_opcode`: the next opcode and the bytes after it. -/
def deserializeNextOpcode : List UInt8 → Option (Except TxScriptError Opcode × List UInt8)
  | [] => none
  | code :: it => some <|
    match OpName.ofCode code with
    | .opData => deserializeFixed code code.toNat it
    | .opPushData1 => deserializeVar code 1 it
    | .opPushData2 => deserializeVar code 2 it
    | .opPushData4 => deserializeVar code 4 it
    | _ => deserializeFixed code 0 it

/-- The opcodes that an iterator over bytes yields, at most `fuel` many. -/
def parseOpcodes : ℕ → List UInt8 → List (Except TxScriptError Opcode)
  | 0, _ => []
  | fuel + 1, it =>
    match deserializeNextOpcode it with
    | none => []
    | some (opcode, it) => opcode :: parseOpcodes fuel it

/-- `parse_script`. Every opcode takes a byte of the script. -/
def parseScript (script : List UInt8) : List (Except TxScriptError Opcode) :=
  parseOpcodes script.length script

lemma length_deserializeFixed_lt (code : UInt8) (length : ℕ) (it : List UInt8) :
    (deserializeFixed code length it).2.length < it.length + 1 := by
  unfold deserializeFixed
  dsimp only
  split <;> simp only [length_drop] <;> omega

lemma length_deserializeVar_lt (code : UInt8) (width : ℕ) (it : List UInt8) :
    (deserializeVar code width it).2.length < it.length + 1 := by
  unfold deserializeVar
  dsimp only
  split
  · simp only [length_drop]; omega
  · split <;> simp only [length_drop] <;> omega

/-- An opcode takes at least one byte. -/
lemma length_lt_of_deserializeNextOpcode {it rest : List UInt8}
    {opcode : Except TxScriptError Opcode}
    (h : deserializeNextOpcode it = some (opcode, rest)) : rest.length < it.length := by
  cases it with
  | nil => cases h
  | cons code it =>
    have hrest := congrArg Prod.snd (Option.some.inj h)
    subst hrest
    split
    · exact length_deserializeFixed_lt _ _ _
    · exact length_deserializeVar_lt _ _ _
    · exact length_deserializeVar_lt _ _ _
    · exact length_deserializeVar_lt _ _ _
    · exact length_deserializeFixed_lt _ _ _

/-- As many opcodes as there are bytes are all of them. -/
lemma parseOpcodes_eq_parseScript {fuel : ℕ} {it : List UInt8} (h : it.length ≤ fuel) :
    parseOpcodes fuel it = parseScript it := by
  unfold parseScript
  induction fuel using Nat.strong_induction_on generalizing it with
  | _ fuel ih =>
    cases it with
    | nil => cases fuel <;> rfl
    | cons code it =>
      cases fuel with
      | zero => cases h
      | succ fuel =>
        rw [length_cons, parseOpcodes, parseOpcodes]
        cases hnext : deserializeNextOpcode (code :: it) with
        | none => rfl
        | some next =>
          obtain ⟨opcode, rest⟩ := next
          have hrest : rest.length < it.length + 1 := length_lt_of_deserializeNextOpcode hnext
          have hle : it.length ≤ fuel := Nat.le_of_succ_le_succ h
          show opcode :: parseOpcodes fuel rest = opcode :: parseOpcodes it.length rest
          rw [ih fuel (Nat.lt_succ_self _) (by omega), ih it.length (by omega) (by omega)]

lemma parseScript_eq (script : List UInt8) : parseScript script =
    match deserializeNextOpcode script with
    | none => []
    | some (opcode, rest) => opcode :: parseScript rest := by
  cases script with
  | nil => rfl
  | cons code it =>
    rw [parseScript, length_cons, parseOpcodes]
    cases hnext : deserializeNextOpcode (code :: it) with
    | none => rfl
    | some next =>
      have hrest := length_lt_of_deserializeNextOpcode hnext
      rw [length_cons] at hrest
      show _ :: _ = _ :: _
      rw [parseOpcodes_eq_parseScript (Nat.le_of_lt_succ hrest)]

/-! ## Script classes -/

inductive ScriptClass where
  | nonStandard
  | pubKey
  | pubKeyECDSA
  | scriptHash
deriving DecidableEq, Repr

def isPayToPubkey (script : List UInt8) : Bool :=
  script.length == 34 && script[0]? == some 0x20 && script[33]? == some 0xac

def isPayToPubkeyECDSA (script : List UInt8) : Bool :=
  script.length == 35 && script[0]? == some 0x21 && script[34]? == some 0xab

def isPayToScriptHash (script : List UInt8) : Bool :=
  script.length == 35 && script[0]? == some 0xaa && script[1]? == some 0x20
    && script[34]? == some 0x87

def ScriptClass.fromScript (scriptPublicKey : Utxo.ScriptPublicKey) : ScriptClass :=
  if scriptPublicKey.version = maxScriptPublicKeyVersion then
    if isPayToPubkey scriptPublicKey.script then .pubKey
    else if isPayToPubkeyECDSA scriptPublicKey.script then .pubKeyECDSA
    else if isPayToScriptHash scriptPublicKey.script then .scriptHash
    else .nonStandard
  else .nonStandard

def isUnspendable (script : List UInt8) : Bool :=
  (parseScript script).any (fun op => op.toOption.isNone) ||
    match parseScript script with
    | .ok op :: _ => op.name == .opReturn
    | _ => false

/-! ## Static count of the signature operations -/

/-- `to_small_int`. The range of its assertion does not contain `Op16`. -/
def toSmallInt (opcode : Opcode) : Option ℕ :=
  if opcode.value = 0x00 then some 0
  else if 0x51 ≤ opcode.value ∧ opcode.value < 0x60 then some (opcode.value - (0x51 - 1)).toNat
  else none

/-- The loop of `get_sig_op_count_by_opcodes`, with the element before the current one. -/
def sigOpCountLoop (prev : Option (Except TxScriptError Opcode)) (numSigs : ℕ) :
    List (Except TxScriptError Opcode) → Option ℕ
  | [] => some numSigs
  | .error _ :: _ => some numSigs
  | .ok op :: ops =>
    match op.name with
    | .opCheckSig | .opCheckSigVerify | .opCheckSigECDSA =>
      sigOpCountLoop (some (.ok op)) (numSigs + 1) ops
    | .opCheckMultiSig | .opCheckMultiSigVerify | .opCheckMultiSigECDSA =>
      match prev with
      | none => sigOpCountLoop (some (.ok op)) (numSigs + maxPubKeysPerMultisig.toNat) ops
      | some (.error _) => none
      | some (.ok prev) =>
        if 0x51 ≤ prev.value ∧ prev.value ≤ 0x60 then do
          sigOpCountLoop (some (.ok op)) (numSigs + (← toSmallInt prev)) ops
        else sigOpCountLoop (some (.ok op)) (numSigs + maxPubKeysPerMultisig.toNat) ops
    | _ => sigOpCountLoop (some (.ok op)) numSigs ops

def getSigOpCountByOpcodes (opcodes : List (Except TxScriptError Opcode)) : Option ℕ :=
  sigOpCountLoop none 0 opcodes

/-- Whether every opcode was parsed and pushes data. -/
def isPushOnly (opcodes : List (Except TxScriptError Opcode)) : Bool :=
  opcodes.all fun op =>
    match op with
    | .ok op => op.isPushOpcode
    | .error _ => false

def getSigOpCountUpperBound (signatureScript : List UInt8)
    (prevScriptPublicKey : Utxo.ScriptPublicKey) : Option ℕ :=
  if !isPayToScriptHash prevScriptPublicKey.script then
    getSigOpCountByOpcodes (parseScript prevScriptPublicKey.script)
  else
    let signatureScriptOps := parseScript signatureScript
    if signatureScriptOps.isEmpty || !isPushOnly signatureScriptOps then some 0
    else
      match signatureScriptOps.getLast? with
      | some (.ok op) => getSigOpCountByOpcodes (parseScript op.data)
      | _ => none

end LapisMonetae.Script
