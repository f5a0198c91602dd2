import LapisMonetae.Script.DataStackTheorems
import LapisMonetae.Script.Engine
import LapisMonetae.Script.SigOpCountTheorems

/-!
# What an opcode can do

One specification for the execution of any opcode. Most opcodes change the two stacks and nothing
else; the conditionals change the condition stack, the signature checks the counter of signature
operations, and the multisig opcodes the number of operations too. No opcode panics.
-/

namespace LapisMonetae.Script

open Program Tx Utxo Nat

/-! ## Names and numbers -/

/-- A property of opcode names that holds for all 256 numbers holds for every opcode. -/
lemma forall_code {P : UInt8 → Prop} (h : ∀ n : Fin 256, P (UInt8.ofNat n)) (code : UInt8) :
    P code := by
  have hcode := h ⟨code.toNat, code.toNat_lt⟩
  rwa [UInt8.ofNat_toNat] at hcode

/-- The names of the conditionals. -/
def OpName.isConditional : OpName → Bool
  | .opIf | .opNotIf | .opVerIf | .opVerNotIf | .opElse | .opEndIf => true
  | _ => false

/-- The codes of the conditionals are those of their names. -/
lemma isConditional_eq (op : Opcode) : op.isConditional = op.name.isConditional := by
  apply forall_code (P := fun code => (0x63 ≤ code && code ≤ 0x68 : Bool) =
    (OpName.ofCode code).isConditional)
  decide +kernel

variable {op : Opcode} {check : SigHashType → List UInt8 → List UInt8 → EngineM Bool}
  {vm vm' vm'' : TxScriptEngine} {m n : ℕ} (tx : PopulatedTransaction) (scheme : SignatureScheme)

/-- A push opcode checks no signature and is no conditional. -/
lemma of_isPushOpcode (h : op.isPushOpcode) :
    ¬op.checksSignature ∧ ¬op.isMultisig ∧ ¬op.isConditional := by
  rw [isConditional_eq]
  revert h
  obtain ⟨code, data⟩ := op
  -- the predicates only read the code
  apply forall_code (P := fun code => (Opcode.mk code []).isPushOpcode →
    ¬(Opcode.mk code []).checksSignature ∧ ¬(Opcode.mk code []).isMultisig ∧
      ¬(OpName.ofCode code).isConditional = true)
  decide +kernel

/-! ## Opcodes that change the stacks -/

/-- Only the stacks change. -/
def StacksOnly (vm vm' : TxScriptEngine) : Prop :=
  ∃ dstack astack, vm' = { vm with dstack := dstack, astack := astack }

instance : Std.Refl StacksOnly := ⟨fun vm => ⟨vm.dstack, vm.astack, rfl⟩⟩

instance : IsTrans TxScriptEngine StacksOnly where
  trans := by
    rintro _ _ _ ⟨d, a, rfl⟩ ⟨d', a', rfl⟩
    exact ⟨d', a', rfl⟩

/-- A program on the data stack. -/
lemma keeps_onDstack {α : Type} {p : StackM α} (h : Safe p) : Keeps StacksOnly (onDstack p) :=
  Keeps.zoom h fun vm stack => ⟨stack, vm.astack, rfl⟩

lemma keeps_onAstack {α : Type} {p : StackM α} (h : Safe p) : Keeps StacksOnly (onAstack p) :=
  Keeps.zoom h fun vm stack => ⟨vm.dstack, stack, rfl⟩

/-- Arithmetic changes the stacks only. -/
lemma keeps_unaryOp (block : ℤ → Except TxScriptError ℤ) : Keeps StacksOnly (unaryOp block) := by
  apply keeps_get.bind
  intro vm
  apply keeps_onDstack
  apply (safe_popItems1 (safe_deserializeSized _)).bind
  intro value
  exact (keeps_orFail _).bind safe_pushNumber

lemma keeps_binaryOp (block : ℤ → ℤ → Except TxScriptError ℤ) :
    Keeps StacksOnly (binaryOp block) := by
  apply keeps_get.bind
  intro vm
  apply keeps_onDstack
  apply (safe_popItems2 (safe_deserializeSized _)).bind
  intro (a, b)
  exact (keeps_orFail _).bind safe_pushNumber

lemma keeps_ternaryOp (block : ℤ → ℤ → ℤ → Except TxScriptError ℤ) :
    Keeps StacksOnly (ternaryOp block) := by
  apply keeps_get.bind
  intro vm
  apply keeps_onDstack
  apply (safe_popItems3 (safe_deserializeSized _)).bind
  intro (x, l, u)
  exact (keeps_orFail _).bind safe_pushNumber

lemma keeps_popVerify : Keeps StacksOnly popVerify := by
  apply (keeps_onDstack safe_popBool).bind
  intro b
  cases b
  · exact keeps_throw _
  · exact keeps_pure _

/-- An index out of range is an error. -/
lemma safe_popLocation (message : String) : Safe (popLocation message) := by
  apply safe_popI32.bind
  intro loc
  apply keeps_get.bind
  intro stack
  apply keeps_ite
  · exact fun _ => keeps_throw _
  · intro h
    have hlt : loc.toNat < stack.length := by omega
    have hsome : stack[loc.toNat]?.isSome := by rw [List.getElem?_eq_getElem hlt]; rfl
    exact (keeps_unwrap hsome).bind fun item => keeps_pure _

lemma safe_popU64 : Safe popU64 := by
  apply safe_popRaw1.bind
  intro bytes
  apply keeps_ite
  · exact fun _ => keeps_throw _
  · exact fun _ => keeps_pure _

/-- The lock times are read off the stack. -/
lemma keeps_opCheckLockTimeVerify : Keeps StacksOnly opCheckLockTimeVerify := by
  apply keeps_get.bind
  intro vm
  split
  · apply (keeps_onDstack safe_popU64).bind
    intro stackLockTime
    exact keeps_ite (fun _ => keeps_throw _) fun _ =>
      keeps_ite (fun _ => keeps_throw _) fun _ =>
      keeps_ite (fun _ => keeps_throw _) fun _ => keeps_pure _
  · exact keeps_throw _

lemma keeps_opCheckSequenceVerify : Keeps StacksOnly opCheckSequenceVerify := by
  apply keeps_get.bind
  intro vm
  split
  · apply (keeps_onDstack safe_popU64).bind
    intro stackSequence
    exact keeps_ite (fun _ => keeps_pure _) fun _ =>
      keeps_ite (fun _ => keeps_throw _) fun _ =>
      keeps_ite (fun _ => keeps_throw _) fun _ => keeps_pure _
  · exact keeps_throw _

/-- Reading the transaction changes the stacks only. -/
lemma keeps_introspect (op : Opcode) (sourceName : String)
    {body : PopulatedTransaction → ℕ → StackM Unit} (h : ∀ tx idx, Safe (body tx idx)) :
    Keeps StacksOnly (introspect op sourceName body) := by
  apply keeps_get.bind
  intro vm
  apply keeps_ite
  · intro _
    split
    · exact keeps_onDstack (h _ _)
    · exact keeps_throw _
  · exact fun _ => keeps_throw _

lemma safe_popUtxo : Safe (popUtxo tx) := by
  apply safe_popI32.bind
  intro idx
  split
  · exact keeps_pure _
  · exact keeps_throw _

lemma safe_popOutput : Safe (popOutput tx) := by
  apply safe_popI32.bind
  intro idx
  split
  · exact keeps_pure _
  · exact keeps_throw _

lemma safe_pushAmount (amount : ℕ) : Safe (pushAmount amount) :=
  keeps_ite (fun _ => safe_pushNumber _) fun _ => keeps_throw _

/-- The opcodes that neither check a signature nor are conditionals change the stacks only. -/
lemma keeps_execute (crypto : ScriptCrypto) (hc : ¬op.checksSignature) (hm : ¬op.isMultisig)
    (hcond : ¬op.isConditional) : Keeps StacksOnly (op.execute crypto) := by
  rw [isConditional_eq] at hcond
  unfold Opcode.checksSignature at hc
  unfold Opcode.isMultisig at hm
  unfold Opcode.execute
  cases hname : op.name with
  | opCheckSig | opCheckSigVerify | opCheckSigECDSA => exact absurd rfl (hname ▸ hc)
  | opCheckMultiSig | opCheckMultiSigVerify | opCheckMultiSigECDSA => exact absurd rfl (hname ▸ hm)
  | opIf | opNotIf | opVerIf | opVerNotIf | opElse | opEndIf => exact absurd rfl (hname ▸ hcond)
  | opReserved | opVer | opReturn | opCat | opSubStr | opLeft | opRight | opInvert | opAnd | opOr
  | opXor | opReserved1 | opReserved2 | op2Mul | op2Div | opMul | opDiv | opMod | opLShift
  | opRShift | opTxVersion | opTxLockTime | opTxSubnetId | opTxGas | opTxPayload | opOutpointTxId
  | opOutpointIndex | opTxInputScriptSig | opTxInputSeq | opTxInputBlockDaaScore
  | opTxInputIsCoinbase | opUnknown => exact keeps_throw _
  | opNop => exact keeps_pure _
  | opFalse | opData | opPushData1 | opPushData2 | opPushData4 =>
    exact keeps_onDstack (safe_push _)
  | op1Negate | opN => exact keeps_onDstack (safe_pushNumber _)
  | opVerify => exact keeps_popVerify
  | opToAltStack =>
    exact (keeps_onDstack safe_popRaw1).bind fun item => keeps_onAstack (safe_push item)
  | opFromAltStack =>
    apply keeps_get.bind
    intro vm
    split
    · exact (keeps_modify fun vm => ⟨vm.dstack, _, rfl⟩).bind fun _ => keeps_onDstack (safe_push _)
    · exact keeps_throw _
  | op2Drop | op2Dup | op3Dup | op2Over | op2Rot | op2Swap | opDrop | opDup | opNip | opOver
  | opRot | opSwap | opTuck => exact keeps_onDstack (safe_rearrange _ _)
  | opIfDup =>
    apply keeps_onDstack
    apply safe_peekRaw1.bind
    intro result
    exact keeps_ite (fun _ => safe_push result) fun _ => keeps_pure _
  | opDepth => exact keeps_onDstack (keeps_get.bind fun _ => safe_pushNumber _)
  | opPick =>
    apply keeps_onDstack
    apply (safe_popLocation _).bind
    intro (_, item)
    exact safe_push item
  | opRoll =>
    apply keeps_onDstack
    apply (safe_popLocation _).bind
    intro (loc, item)
    exact (keeps_modify fun _ => trivial).bind fun _ => safe_push item
  | opSize =>
    apply keeps_onDstack
    apply keeps_get.bind
    intro stack
    split
    · exact safe_pushNumber _
    · exact keeps_throw _
  | opEqual => exact keeps_onDstack (safe_popEqual.bind safe_pushBool)
  | opEqualVerify =>
    apply keeps_onDstack
    apply safe_popEqual.bind
    intro b
    exact keeps_ite (fun _ => keeps_pure _) fun _ => keeps_throw _
  | op1Add | op1Sub | opNegate | opAbs | opNot | op0NotEqual => exact keeps_unaryOp _
  | opAdd | opSub | opBoolAnd | opBoolOr | opNumEqual | opNumNotEqual | opLessThan
  | opGreaterThan | opLessThanOrEqual | opGreaterThanOrEqual | opMin | opMax =>
    exact keeps_binaryOp _
  | opNumEqualVerify =>
    apply keeps_get.bind
    intro vm
    apply keeps_onDstack
    apply (safe_popItems2 (safe_deserializeSized _)).bind
    intro (a, b)
    exact keeps_ite (fun _ => keeps_pure _) fun _ => keeps_throw _
  | opWithin => exact keeps_ternaryOp _
  | opSHA256 | opBlake2b => exact keeps_onDstack (safe_popRaw1.bind fun _ => safe_push _)
  | opCheckLockTimeVerify => exact keeps_opCheckLockTimeVerify
  | opCheckSequenceVerify => exact keeps_opCheckSequenceVerify
  | opTxInputCount | opTxOutputCount | opTxInputIndex =>
    exact keeps_introspect op _ fun _ _ => safe_pushNumber _
  | opTxInputAmount =>
    exact keeps_introspect op _ fun tx _ => (safe_popUtxo tx).bind fun _ => safe_pushAmount _
  | opTxInputSpk =>
    exact keeps_introspect op _ fun tx _ => (safe_popUtxo tx).bind fun _ => safe_push _
  | opTxOutputAmount =>
    exact keeps_introspect op _ fun tx _ => (safe_popOutput tx).bind fun _ => safe_pushAmount _
  | opTxOutputSpk =>
    exact keeps_introspect op _ fun tx _ => (safe_popOutput tx).bind fun _ => safe_push _

/-! ## Signature checks -/

namespace TxScriptEngine

/-- The signature operations consumed so far. -/
def used (vm : TxScriptEngine) : ℕ := vm.usedSigOps.getD 0

/-- The number of public keys that a multisig would read from the stack. -/
def numKeys (vm : TxScriptEngine) : ℕ :=
  match popI32.outcome vm.dstack with
  | some (.ok n, _) => n.toNat
  | _ => 0

end TxScriptEngine

/-- At most `n` signature operations are consumed, and a counter stays a counter. -/
structure Uses (n : ℕ) (vm vm' : TxScriptEngine) : Prop where
  isSome_counter : vm'.runtimeSigOpCounter.isSome = vm.runtimeSigOpCounter.isSome
  used_le : vm'.used ≤ vm.used + n

lemma Uses.refl : Uses n vm vm := ⟨rfl, le_add_right _ _⟩

lemma Uses.mono (h : Uses m vm vm') (hle : m ≤ n) :
    Uses n vm vm' := ⟨h.isSome_counter, Nat.le_trans h.used_le (Nat.add_le_add_left hle _)⟩

/-- The signature operations of two steps add up. -/
lemma Uses.trans (h : Uses m vm vm') (h' : Uses n vm' vm'') : Uses (m + n) vm vm'' where
  isSome_counter := h'.isSome_counter.trans h.isSome_counter
  used_le := by
    have hle := h.used_le
    have hle' := h'.used_le
    omega

/-- Only the counter changes, by at most `n` signature operations. -/
def Consumes (n : ℕ) (vm vm' : TxScriptEngine) : Prop :=
  (∃ counter, vm' = { vm with runtimeSigOpCounter := counter }) ∧ Uses n vm vm'

lemma Consumes.refl : Consumes n vm vm :=
  ⟨⟨vm.runtimeSigOpCounter, by rfl⟩, .refl⟩

lemma Consumes.mono (h : Consumes m vm vm') (hle : m ≤ n) : Consumes n vm vm' := ⟨h.1, h.2.mono hle⟩

lemma Consumes.trans (h : Consumes m vm vm') (h' : Consumes n vm' vm'') :
    Consumes (m + n) vm vm'' := by
  obtain ⟨⟨counter, rfl⟩, huses⟩ := h
  obtain ⟨⟨counter', rfl⟩, huses'⟩ := h'
  exact ⟨⟨counter', rfl⟩, huses.trans huses'⟩

/-- One operation is counted, unless the limit is reached. -/
lemma keeps_consumeSigOp : Keeps (Consumes 1) consumeSigOp := by
  intro vm
  apply ends_get_bind
  split
  · exact ends_pure Consumes.refl
  · next counter hcounter =>
    obtain ⟨limit, remaining, hle⟩ := counter
    cases remaining with
    | zero => exact ends_throw Consumes.refl
    | succ remaining =>
      refine ⟨_, _, rfl, ⟨_, rfl⟩, by rw [hcounter]; rfl, ?_⟩
      simp only [TxScriptEngine.used, TxScriptEngine.usedSigOps, hcounter, Option.map_some,
        Option.getD_some, RuntimeSigOpCounter.usedSigOps]
      omega

/-- Verifying a signature changes nothing. -/
lemma keeps_verifySignature (keyLength : ℕ) (hashType : SigHashType)
    (key sig : List UInt8) : Keeps Eq (verifySignature scheme keyLength hashType key sig) := by
  apply keeps_get.bind
  intro vm
  split
  · next tx _ idx _ _ _ =>
    apply keeps_ite fun _ => keeps_throw _
    intro _
    apply keeps_ite fun _ => keeps_throw _
    intro _
    apply (keeps_orFail _).bind
    intro _
    apply (keeps_orFail _).bind
    intro _
    exact (keeps_unwrap (tx.isSome_populatedInput idx.isLt)).bind fun input => keeps_pure _
  · exact keeps_throw _

/-- A check counts one operation. -/
lemma keeps_checkSignature (keyLength : ℕ) (hashType : SigHashType) (key sig : List UInt8) :
    Keeps (Consumes 1) (checkSignature scheme keyLength hashType key sig) := by
  intro vm
  apply (keeps_consumeSigOp vm).bind
  · intro _ vm' h
    apply (keeps_verifySignature scheme keyLength hashType key sig vm').mono
    rintro _ _ rfl
    exact h
  · exact fun _ _ h => h

section
variable {check : List UInt8 → EngineM Bool}

/-- The inner loop of a multisig consumes a signature operation for each key that it takes. -/
lemma multisigKeyLoop_ends (hcheck : ∀ key, Keeps (Consumes 1) (check key)) {sigsLeft : ℕ}
    (hleft : 0 < sigsLeft) (keys : List (List UInt8)) (vm : TxScriptEngine) :
    Ends (multisigKeyLoop check sigsLeft keys) vm fun r vm' =>
      match r with
      | .ok (some keys') => ∃ n, n + keys'.length = keys.length ∧ Consumes n vm vm'
      | _ => Consumes keys.length vm vm' := by
  induction keys generalizing vm with
  | nil =>
    rw [multisigKeyLoop, if_pos hleft]
    exact ends_pure Consumes.refl
  | cons key keys ih =>
    rw [multisigKeyLoop]
    split
    · exact ends_pure Consumes.refl
    · apply (hcheck key vm).bind
      · intro valid vm' hone
        cases valid with
        | true => exact ends_pure ⟨1, add_comm 1 _, hone⟩
        | false =>
          apply (ih vm').mono
          intro r vm'' hrest
          match r with
          | .ok (some keys') =>
            obtain ⟨n, hn, hconsumes⟩ := hrest
            exact ⟨1 + n, by rw [List.length_cons]; omega, hone.trans hconsumes⟩
          | .ok none => exact (hone.trans hrest).mono (by rw [List.length_cons]; omega)
          | .error e => exact (hone.trans hrest).mono (by rw [List.length_cons]; omega)
      · intro e vm' hone
        exact hone.mono (by rw [List.length_cons]; omega)

end

/-- A multisig consumes at most one signature operation for each key. -/
lemma multisigLoop_ends
    (hcheck : ∀ hashType key sig, Keeps (Consumes 1) (check hashType key sig)) {numSigs : ℕ}
    (signatures : List (List UInt8)) {sigIdx : ℕ} (hlen : sigIdx + signatures.length = numSigs)
    (keys : List (List UInt8)) (vm : TxScriptEngine) :
    Ends (multisigLoop check numSigs sigIdx signatures keys) vm fun _ vm' =>
      Consumes keys.length vm vm' := by
  induction signatures generalizing sigIdx keys vm with
  | nil => exact ends_pure Consumes.refl
  | cons signature signatures ih =>
    rw [List.length_cons] at hlen
    rw [multisigLoop]
    split
    · exact ends_pure Consumes.refl
    · apply (keeps_orFail (R := Eq) _ vm).bind
      · rintro hashType _ rfl
        apply (multisigKeyLoop_ends (fun key => hcheck hashType key _) (by omega) keys vm).bind
        · intro left vm' hleft
          match left with
          | none => exact ends_pure hleft
          | some keys' =>
            obtain ⟨n, hn, hconsumes⟩ := hleft
            apply (ih (by omega) keys' vm').mono
            intro _ vm'' hrest
            exact (hconsumes.trans hrest).mono (by omega)
        · exact fun e vm' h => h
      · rintro e _ rfl
        exact Consumes.refl

/-- Only the stacks and the counter change, the counter by at most `n` signature operations. -/
def SigOnly (n : ℕ) (vm vm' : TxScriptEngine) : Prop :=
  (∃ dstack astack counter,
    vm' = { vm with dstack := dstack, astack := astack, runtimeSigOpCounter := counter }) ∧
  Uses n vm vm'

lemma StacksOnly.sigOnly (h : StacksOnly vm vm') : SigOnly 0 vm vm' := by
  obtain ⟨dstack, astack, rfl⟩ := h
  exact ⟨⟨dstack, astack, vm.runtimeSigOpCounter, rfl⟩, rfl, le_refl _⟩

lemma Consumes.sigOnly (h : Consumes n vm vm') : SigOnly n vm vm' := by
  obtain ⟨⟨counter, rfl⟩, hle⟩ := h
  exact ⟨⟨vm.dstack, vm.astack, counter, rfl⟩, hle⟩

lemma SigOnly.trans (h : SigOnly m vm vm') (h' : SigOnly n vm' vm'') : SigOnly (m + n) vm vm'' := by
  obtain ⟨⟨dstack, astack, counter, rfl⟩, huses⟩ := h
  obtain ⟨⟨dstack', astack', counter', rfl⟩, huses'⟩ := h'
  exact ⟨⟨dstack', astack', counter', rfl⟩, huses.trans huses'⟩

lemma SigOnly.mono (h : SigOnly m vm vm') (hle : m ≤ n) : SigOnly n vm vm' := ⟨h.1, h.2.mono hle⟩

/-- A program on the stacks after one that consumes signature operations. -/
lemma ends_bind_stacksOnly {α β : Type} {p : EngineM α} {f : α → EngineM β}
    (hp : Ends p vm fun _ vm' => SigOnly n vm vm') (hf : ∀ a, Keeps StacksOnly (f a)) :
    Ends (p >>= f) vm fun _ vm' => SigOnly n vm vm' := by
  apply hp.bind
  · intro a vm' h
    exact (hf a vm').mono fun _ vm'' h' => h.trans h'.sigOnly
  · exact fun _ _ h => h

/-- The opcodes of one signature count at most one operation. -/
lemma keeps_opCheckSig (hcheck : ∀ hashType key sig, Keeps (Consumes 1) (check hashType key sig)) :
    Keeps (SigOnly 1) (opCheckSig check) := by
  intro vm
  apply (keeps_onDstack safe_popRaw2 vm).bind
  · intro (sig, key) vm₁ h₁
    dsimp only
    split
    · next typ rest _ =>
      apply (keeps_orFail (R := Eq) _ vm₁).bind
      · rintro hashType _ rfl
        have hone := ends_bind_stacksOnly
          ((hcheck hashType key rest.reverse vm₁).mono fun _ _ h => Consumes.sigOnly h)
          fun b => keeps_onDstack (safe_pushBool b)
        exact hone.mono fun _ _ h => (h₁.sigOnly.trans h).mono (by omega)
      · rintro e _ rfl
        exact h₁.sigOnly.mono (by omega)
    · apply (keeps_onDstack (safe_pushBool false) vm₁).mono
      intro _ _ h
      exact (h₁.sigOnly.trans h.sigOnly).mono (by omega)
  · exact fun e vm' h => h.sigOnly.mono (by omega)

/-! ## Multisig -/

/-- What a multisig can do: the number of operations grows by the number of keys. -/
structure MultisigSpec (vm : TxScriptEngine) (r : Except TxScriptError Unit)
    (vm' : TxScriptEngine) : Prop where
  frame : ∃ dstack astack counter numOps, vm' = { vm with
    dstack := dstack, astack := astack, runtimeSigOpCounter := counter, numOps := numOps }
  uses : Uses (min vm.numKeys maxPubKeysPerMultisig.toNat) vm vm'
  numOps_ok : r = .ok () → vm'.numOps = vm.numOps + vm.numKeys
  numOps_le : vm.numOps ≤ maxOpsPerScript →
    vm'.numOps ≤ maxOpsPerScript ∨ r = .error (.tooManyOperations maxOpsPerScript)

/-- Reading the number of keys: it counts toward the operations once it is known to be in range. -/
lemma popNumKeys_ends (vm : TxScriptEngine) : Ends popNumKeys vm fun r vm' =>
      (∃ dstack numOps, vm' = { vm with dstack := dstack, numOps := numOps }) ∧
      (∀ n, r = .ok n → n = vm.numKeys ∧ n ≤ maxPubKeysPerMultisig.toNat ∧
        vm'.numOps = vm.numOps + n ∧ vm'.numOps ≤ maxOpsPerScript) ∧
      (∀ e, r = .error e → vm'.numOps = vm.numOps ∨ e = .tooManyOperations maxOpsPerScript) := by
  have hpop : Ends (onDstack popI32) vm fun r vm' =>
      (∃ dstack, vm' = { vm with dstack := dstack }) ∧ ∀ n, r = .ok n → n.toNat = vm.numKeys := by
    obtain ⟨r, stack, hout, -⟩ := safe_popI32 vm.dstack
    refine ⟨r, { vm with dstack := stack }, by simp [onDstack, hout], ⟨stack, rfl⟩, ?_⟩
    intro n hn
    rw [TxScriptEngine.numKeys, hout, hn]
  apply hpop.bind
  · rintro n vm' ⟨⟨dstack, rfl⟩, hkeys⟩
    split
    · exact ends_throw ⟨⟨dstack, _, rfl⟩, (fun _ h => nomatch h), fun e _ => .inl rfl⟩
    · next hneg =>
      split
      · exact ends_throw ⟨⟨dstack, _, rfl⟩, (fun _ h => nomatch h), fun e _ => .inl rfl⟩
      · next hmax =>
        apply ends_bind_of_outcome (outcome_modify _ _)
        apply ends_get_bind
        split
        · refine ends_throw ⟨⟨dstack, _, rfl⟩, (fun _ h => nomatch h), fun e he => .inr ?_⟩
          cases he
          rfl
        · next hops =>
          refine ends_pure ⟨⟨dstack, _, rfl⟩, fun k hk => ?_, (fun _ h => nomatch h)⟩
          cases hk
          have hcast : ((n.toNat : ℕ) : ℤ) = n := Int.toNat_of_nonneg (by omega)
          have hle : n.toNat ≤ maxPubKeysPerMultisig.toNat := by
            unfold maxPubKeysPerMultisig at hmax ⊢
            omega
          exact ⟨hkeys n rfl, hle, by rw [hcast], by omega⟩
  · rintro e vm' ⟨⟨dstack, rfl⟩, -⟩
    exact ⟨⟨dstack, _, rfl⟩, (fun _ h => nomatch h), fun e _ => .inl rfl⟩

/-- The number of signatures is read off the stack. -/
lemma keeps_popNumSigs (numKeys : ℕ) : Keeps StacksOnly (popNumSigs numKeys) := by
  apply (keeps_onDstack safe_popI32).bind
  intro numSigs
  exact keeps_ite (fun _ => keeps_throw _) fun _ =>
    keeps_ite (fun _ => keeps_throw _) fun _ => keeps_pure _

lemma onDstack_popRaw_ends (size : ℕ) (vm : TxScriptEngine) :
    Ends (onDstack (popRaw size)) vm fun r vm' =>
      StacksOnly vm vm' ∧ ∀ items, r = .ok items → items.length = size := by
  apply (keeps_onDstack (safe_popRaw size) vm).and
  apply (Ends.zoom TxScriptEngine.dstack _ (popRaw_ends_length size vm.dstack)).mono
  rintro r _ ⟨stack, hlen, -⟩
  exact hlen

lemma keeps_pushMultisigResult (signatures : List (List UInt8)) (failed : Bool) :
    Keeps StacksOnly (pushMultisigResult signatures failed) :=
  keeps_ite (fun _ => keeps_throw _) fun _ => keeps_onDstack (safe_pushBool _)

/-- At most one operation is counted for each key. -/
lemma checkMultisigKeys_ends
    (hcheck : ∀ hashType key sig, Keeps (Consumes 1) (check hashType key sig)) (numKeys : ℕ)
    (vm : TxScriptEngine) :
    Ends (checkMultisigKeys check numKeys) vm fun _ vm' => SigOnly numKeys vm vm' := by
  apply (onDstack_popRaw_ends numKeys vm).bind
  · rintro pubKeys vm₁ ⟨h₁, hkeys⟩
    apply (keeps_popNumSigs numKeys vm₁).bind
    · intro numSigs vm₂ h₂
      apply (onDstack_popRaw_ends numSigs vm₂).bind
      · rintro signatures vm₃ ⟨h₃, hsigs⟩
        have h₀₃ : SigOnly 0 vm vm₃ := (h₁.sigOnly.trans h₂.sigOnly).trans h₃.sigOnly
        have hcount : 0 + signatures.length = numSigs := by
          rw [zero_add, hsigs signatures rfl]
        have hloop := multisigLoop_ends hcheck signatures hcount pubKeys vm₃
        rw [hkeys pubKeys rfl] at hloop
        have hrest := ends_bind_stacksOnly (hloop.mono fun _ _ h => Consumes.sigOnly h)
          (keeps_pushMultisigResult signatures)
        exact hrest.mono fun _ _ h => (h₀₃.trans h).mono (by omega)
      · rintro e vm₃ ⟨h₃, -⟩
        exact ((h₁.sigOnly.trans h₂.sigOnly).trans h₃.sigOnly).mono (by omega)
    · intro e vm₂ h₂
      exact (h₁.sigOnly.trans h₂.sigOnly).mono (by omega)
  · rintro e vm₁ ⟨h₁, -⟩
    exact h₁.sigOnly.mono (by omega)

/-- The keys are counted as opcodes as well. -/
lemma opCheckMultisig_ends
    (hcheck : ∀ hashType key sig, Keeps (Consumes 1) (check hashType key sig))
    (vm : TxScriptEngine) : Ends (opCheckMultisig check) vm (MultisigSpec vm) := by
  apply (popNumKeys_ends vm).bind
  · rintro n vm₁ ⟨⟨dstack, numOps, rfl⟩, hok, -⟩
    obtain ⟨rfl, hmax, hops, hle⟩ := hok n rfl
    apply (checkMultisigKeys_ends hcheck vm.numKeys _).mono
    rintro r _ ⟨⟨dstack', astack, counter, rfl⟩, huses⟩
    exact {
      frame := ⟨dstack', astack, counter, numOps, rfl⟩
      uses := by
        rw [min_eq_left hmax]
        exact ⟨huses.isSome_counter, huses.used_le⟩
      numOps_ok := fun _ => hops
      numOps_le := fun _ => .inl hle }
  · rintro e _ ⟨⟨dstack, numOps, rfl⟩, -, herror⟩
    exact {
      frame := ⟨dstack, vm.astack, vm.runtimeSigOpCounter, numOps, rfl⟩
      uses := ⟨rfl, le_add_right _ _⟩
      numOps_ok := fun h => nomatch h
      numOps_le := fun hle => by
        rcases herror e rfl with h | rfl
        · exact .inl (by rw [h]; exact hle)
        · exact .inr rfl }

/-! ## Any opcode -/

/-- What an opcode may consume of the signature operations. -/
def Opcode.sigOpsIn (op : Opcode) (vm : TxScriptEngine) : ℕ :=
  if op.checksSignature then 1
  else if op.isMultisig then min vm.numKeys maxPubKeysPerMultisig.toNat
  else 0

/-- The public keys of a multisig count toward the operations. -/
def Opcode.countedKeys (op : Opcode) (vm : TxScriptEngine) : ℕ :=
  if op.isMultisig then vm.numKeys else 0

/-- What the execution of an opcode can do. -/
structure Executed (op : Opcode) (vm : TxScriptEngine) (r : Except TxScriptError Unit)
    (vm' : TxScriptEngine) : Prop where
  scriptSource : vm'.scriptSource = vm.scriptSource
  uses : Uses (op.sigOpsIn vm) vm vm'
  numOps_ok : r = .ok () → vm'.numOps = vm.numOps + op.countedKeys vm
  numOps_le : vm.numOps ≤ maxOpsPerScript →
    vm'.numOps ≤ maxOpsPerScript ∨ r = .error (.tooManyOperations maxOpsPerScript)
  condStack : ¬op.isConditional → vm'.condStack = vm.condStack
  skipped : op.isConditional → ¬vm.isExecuting → vm'.dstack = vm.dstack ∧ vm'.astack = vm.astack

section
variable {op : Opcode} {vm vm' : TxScriptEngine} {r : Except TxScriptError Unit}

/-- What holds of an opcode that changes the stacks and the counter only. -/
lemma Executed.of_sigOnly {n : ℕ} (hcond : ¬op.isConditional) (hm : ¬op.isMultisig)
    (hn : n ≤ op.sigOpsIn vm) (h : SigOnly n vm vm') : Executed op vm r vm' := by
  obtain ⟨⟨dstack, astack, counter, rfl⟩, huses⟩ := h
  exact {
    scriptSource := rfl
    uses := huses.mono hn
    numOps_ok := fun _ => by simp [Opcode.countedKeys, hm]
    numOps_le := fun hle => .inl hle
    condStack := fun _ => rfl
    skipped := fun hc => absurd hc hcond }

lemma Executed.of_multisig (hcond : ¬op.isConditional) (hc : ¬op.checksSignature)
    (hm : op.isMultisig) (h : MultisigSpec vm r vm') : Executed op vm r vm' := by
  obtain ⟨⟨dstack, astack, counter, numOps, rfl⟩, huses, hok, hle⟩ := h
  exact {
    scriptSource := rfl
    uses := by
      rw [Opcode.sigOpsIn, if_neg hc, if_pos hm]
      exact huses
    numOps_ok := fun h => by rw [Opcode.countedKeys, if_pos hm]; exact hok h
    numOps_le := hle
    condStack := fun _ => rfl
    skipped := fun hc => absurd hc hcond }

/-- The conditionals change the condition stack, and the data stack only if they are executed. -/
lemma Executed.of_conditional (dstack : Stack) {condStack : List OpCond}
    (hcond : op.isConditional) (hm : ¬op.isMultisig)
    (h : vm' = { vm with dstack := dstack, condStack := condStack })
    (hskipped : ¬vm.isExecuting → dstack = vm.dstack) : Executed op vm r vm' := by
  subst h
  exact {
    scriptSource := rfl
    uses := ⟨rfl, le_add_right _ _⟩
    numOps_ok := fun _ => by simp [Opcode.countedKeys, hm]
    numOps_le := fun hle => .inl hle
    condStack := fun hc => absurd hcond hc
    skipped := fun _ hexec => ⟨hskipped hexec, rfl⟩ }

end

/-- `OpIf` and `OpNotIf` read the stack only where they are executed. -/
lemma pushCond_ends (onTrue onFalse : OpCond) (vm : TxScriptEngine) :
    Ends (pushCond onTrue onFalse) vm fun _ vm' => ∃ dstack condStack,
      vm' = { vm with dstack := dstack, condStack := condStack } ∧
      (¬vm.isExecuting → dstack = vm.dstack) := by
  apply ends_get_bind
  split
  · next hexec =>
    split
    · exact ends_throw ⟨_, _, rfl, fun _ => rfl⟩
    · next condBuf dstack _ =>
      apply ends_bind_of_outcome (outcome_set _ _)
      split
      · exact ends_modify ⟨_, _, rfl, fun h => absurd hexec h⟩
      · exact ends_modify ⟨_, _, rfl, fun h => absurd hexec h⟩
      · exact ends_throw ⟨_, _, rfl, fun h => absurd hexec h⟩
  · exact ⟨_, _, rfl, _, _, rfl, fun _ => rfl⟩

/-- `OpElse` and `OpEndIf` change the conditions only. -/
lemma opElse_ends (vm : TxScriptEngine) : Ends opElse vm fun _ vm' =>
    ∃ condStack, vm' = { vm with condStack := condStack } := by
  apply ends_get_bind
  split
  · exact ends_throw ⟨_, rfl⟩
  · exact ⟨_, _, rfl, _, rfl⟩

lemma opEndIf_ends (vm : TxScriptEngine) : Ends opEndIf vm fun _ vm' =>
    ∃ condStack, vm' = { vm with condStack := condStack } := by
  apply ends_get_bind
  split
  · exact ends_throw ⟨_, rfl⟩
  · exact ⟨_, _, rfl, _, rfl⟩

/-- A name belongs to one group of opcodes only. -/
lemma not_multisig_of_checksSignature (h : op.checksSignature) :
    ¬op.isMultisig ∧ ¬op.isConditional := by
  rw [isConditional_eq]
  unfold Opcode.checksSignature at h
  unfold Opcode.isMultisig
  split at h <;> simp_all [OpName.isConditional]

lemma not_checksSignature_of_isMultisig (h : op.isMultisig) :
    ¬op.checksSignature ∧ ¬op.isConditional := by
  rw [isConditional_eq]
  unfold Opcode.isMultisig at h
  unfold Opcode.checksSignature
  split at h <;> simp_all [OpName.isConditional]

lemma not_isMultisig_of_isConditional (h : op.isConditional) :
    ¬op.isMultisig := fun hm => (not_checksSignature_of_isMultisig hm).2 h

section
variable (crypto : ScriptCrypto) {op : Opcode} (vm : TxScriptEngine)

/-- The opcodes that check one signature. -/
lemma execute_ends_of_checksSignature (h : op.checksSignature) :
    Ends (op.execute crypto) vm fun _ vm' => SigOnly 1 vm vm' := by
  unfold Opcode.checksSignature at h
  unfold Opcode.execute
  cases hname : op.name with
  | opCheckSig | opCheckSigECDSA => exact keeps_opCheckSig (keeps_checkSignature _ _) vm
  | opCheckSigVerify =>
    exact ends_bind_stacksOnly (keeps_opCheckSig (keeps_checkSignature _ _) vm)
      fun _ => keeps_popVerify
  | _ => simp [hname] at h

/-- The opcodes that check several signatures. -/
lemma execute_ends_of_isMultisig (h : op.isMultisig) :
    Ends (op.execute crypto) vm (MultisigSpec vm) := by
  unfold Opcode.isMultisig at h
  unfold Opcode.execute
  cases hname : op.name with
  | opCheckMultiSig | opCheckMultiSigECDSA =>
    exact opCheckMultisig_ends (keeps_checkSignature _ _) vm
  | opCheckMultiSigVerify =>
    apply (opCheckMultisig_ends (keeps_checkSignature _ _) vm).bind
    · intro _ vm₁ h₁
      apply (keeps_popVerify vm₁).mono
      rintro r _ ⟨dstack, astack, rfl⟩
      obtain ⟨⟨_, _, counter, numOps, rfl⟩, huses, hok, hle⟩ := h₁
      exact {
        frame := ⟨dstack, astack, counter, numOps, rfl⟩
        uses := ⟨huses.isSome_counter, huses.used_le⟩
        numOps_ok := fun _ => hok rfl
        numOps_le := fun hops => by
          rcases hle hops with h | h
          · exact .inl h
          · cases h }
    · intro e vm₁ h₁
      exact { h₁ with numOps_ok := fun h => nomatch h }
  | _ => simp [hname] at h

/-- The conditionals. -/
lemma execute_ends_of_isConditional (h : op.isConditional) :
    Ends (op.execute crypto) vm (Executed op vm) := by
  have hm := not_isMultisig_of_isConditional h
  have hname := h
  rw [isConditional_eq] at hname
  unfold Opcode.execute
  cases hop : op.name with
  | opIf | opNotIf =>
    apply (pushCond_ends _ _ vm).mono
    rintro r vm' ⟨dstack, condStack, hvm, hskip⟩
    exact .of_conditional dstack h hm hvm hskip
  | opVerIf | opVerNotIf => exact ends_throw (.of_conditional vm.dstack h hm rfl fun _ => rfl)
  | opElse =>
    apply (opElse_ends vm).mono
    rintro r vm' ⟨condStack, hvm⟩
    exact .of_conditional vm.dstack h hm hvm fun _ => rfl
  | opEndIf =>
    apply (opEndIf_ends vm).mono
    rintro r vm' ⟨condStack, hvm⟩
    exact .of_conditional vm.dstack h hm hvm fun _ => rfl
  | _ => simp [hop, OpName.isConditional] at hname

/-- The specification of every opcode: it does not panic, and it does what `Executed` says. -/
lemma execute_ends (op : Opcode) (vm : TxScriptEngine) :
    Ends (op.execute crypto) vm (Executed op vm) := by
  by_cases hcond : op.isConditional
  · exact execute_ends_of_isConditional crypto vm hcond
  · by_cases hm : op.isMultisig
    · apply (execute_ends_of_isMultisig crypto vm hm).mono
      exact fun r vm' h => .of_multisig hcond (not_checksSignature_of_isMultisig hm).1 hm h
    · by_cases hc : op.checksSignature
      · apply (execute_ends_of_checksSignature crypto vm hc).mono
        exact fun r vm' h => .of_sigOnly hcond hm (by simp [Opcode.sigOpsIn, hc]) h
      · apply (keeps_execute crypto hc hm hcond vm).mono
        exact fun r vm' h => .of_sigOnly hcond hm (zero_le _) h.sigOnly

end

end LapisMonetae.Script
