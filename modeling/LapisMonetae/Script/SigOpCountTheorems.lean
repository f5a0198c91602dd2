import LapisMonetae.Script.Opcode

/-!
# The static count of the signature operations

`get_sig_op_count_upper_bound` adds up one number for each opcode of the script that it reads. It
has no value exactly for the scripts in which `Op16` stands directly before a multisig opcode.
-/

namespace LapisMonetae.Script

open UInt8 Option

namespace Opcode

/-- The opcodes that check one signature. -/
def checksSignature (self : Opcode) : Bool :=
  match self.name with
  | .opCheckSig | .opCheckSigVerify | .opCheckSigECDSA => true
  | _ => false

/-- The multisig opcodes. -/
def isMultisig (self : Opcode) : Bool :=
  match self.name with
  | .opCheckMultiSig | .opCheckMultiSigVerify | .opCheckMultiSigECDSA => true
  | _ => false

/-- What an opcode adds to the static count, from the opcode before it: a multisig after a small
integer adds that integer. -/
def sigOps (prev : Option Opcode) (self : Opcode) : ℕ :=
  if self.checksSignature then 1
  else if self.isMultisig then
    match prev.map name with
    | some (.opN number) => number
    | _ => maxPubKeysPerMultisig.toNat
  else 0

end Opcode

/-- The sum of what the opcodes add. -/
def totalSigOps (prev : Option Opcode) : List Opcode → ℕ
  | [] => 0
  | op :: ops => op.sigOps prev + totalSigOps (some op) ops

/-- The opcodes up to the first parse error. -/
def parsedOpcodes : List (Except TxScriptError Opcode) → List Opcode
  | .ok op :: ops => op :: parsedOpcodes ops
  | _ => []

/-- `Op16` stands directly before a multisig opcode. -/
def Op16BeforeMultisig (ops : List Opcode) : Prop :=
  ∃ i op op', ops[i]? = some op ∧ ops[i + 1]? = some op' ∧ op.name = .opN 16 ∧ op'.isMultisig

/-- The script that is counted: the script public key, or for P2SH the data of the last push. -/
def countedScript (signatureScript : List UInt8) (scriptPublicKey : Utxo.ScriptPublicKey) :
    List UInt8 :=
  if !isPayToScriptHash scriptPublicKey.script then scriptPublicKey.script
  else if !isPushOnly (parseScript signatureScript) then []
  else
    match (parseScript signatureScript).getLast? with
    | some (.ok op) => op.data
    | _ => []

/-! ## Small integers -/

/-- The small integers are the opcodes from `OpTrue` to `Op16`. -/
lemma ofCode_eq_opN_iff (code : UInt8) (n : ℕ) :
    OpName.ofCode code = .opN n ↔ (0x51 ≤ code ∧ code ≤ 0x60) ∧ n = code.toNat - 0x50 := by
  constructor
  · intro h
    unfold OpName.ofCode at h
    split at h
    · cases h
    · split at h
      · next hrange =>
        cases h
        exact ⟨hrange, rfl⟩
      · split at h <;> cases h
  · rintro ⟨⟨hlow, hhigh⟩, rfl⟩
    unfold OpName.ofCode
    rw [if_neg, if_pos ⟨hlow, hhigh⟩]
    rintro ⟨-, h⟩
    exact absurd (UInt8.le_trans hlow h) (by decide)

lemma toSmallInt_eq {op : Opcode} {n : ℕ} (h : op.name = .opN n) (hn : n ≠ 16) :
    toSmallInt op = some n := by
  obtain ⟨⟨hlow, hhigh⟩, rfl⟩ := (ofCode_eq_opN_iff op.value n).mp h
  rw [le_iff_toNat_le] at hlow hhigh
  have hlow : 81 ≤ op.value.toNat := hlow
  have hhigh : op.value.toNat ≤ 96 := hhigh
  unfold toSmallInt
  rw [if_neg, if_pos]
  · rw [UInt8.toNat_sub_of_le]
    · rfl
    · rw [le_iff_toNat_le]
      show 80 ≤ _
      omega
  · constructor
    · exact le_iff_toNat_le.mpr hlow
    · apply lt_iff_toNat_lt.mpr
      show _ < 96
      omega
  · intro h0
    rw [h0] at hlow
    exact absurd hlow (by decide)

lemma toSmallInt_op16 {op : Opcode} (h : op.name = .opN 16) : toSmallInt op = none := by
  obtain ⟨⟨hlow, hhigh⟩, h16⟩ := (ofCode_eq_opN_iff op.value 16).mp h
  have hvalue : op.value = 0x60 := by
    apply UInt8.toNat_inj.mp
    show _ = 96
    omega
  unfold toSmallInt
  rw [hvalue]
  decide

/-! ## The loop -/

section
variable {op : Opcode} {ops : List (Except TxScriptError Opcode)} {numSigs : ℕ}
  {prev : Option (Except TxScriptError Opcode)}

lemma sigOpCountLoop_checksSignature
    (h : op.checksSignature) : sigOpCountLoop prev numSigs (.ok op :: ops) =
      sigOpCountLoop (some (.ok op)) (numSigs + 1) ops := by
  unfold Opcode.checksSignature at h
  rw [sigOpCountLoop.eq_def]
  dsimp only
  split at h
  · next hname => rw [hname]
  · next hname => rw [hname]
  · next hname => rw [hname]
  · cases h

/-- A multisig opcode adds 20, or the small integer before it. -/
lemma sigOpCountLoop_isMultisig {prev : Option Opcode} (h : op.isMultisig) :
    sigOpCountLoop (prev.map .ok) numSigs (.ok op :: ops) =
      (match prev.map Opcode.name with
        | some (.opN number) => if number = 16 then none else some number
        | _ => some maxPubKeysPerMultisig.toNat).bind fun added =>
          sigOpCountLoop (some (.ok op)) (numSigs + added) ops := by
  have hloop : sigOpCountLoop (prev.map .ok) numSigs (.ok op :: ops) =
      match prev with
      | none => sigOpCountLoop (some (.ok op)) (numSigs + maxPubKeysPerMultisig.toNat) ops
      | some prev =>
        if 0x51 ≤ prev.value ∧ prev.value ≤ 0x60 then do
          sigOpCountLoop (some (.ok op)) (numSigs + (← toSmallInt prev)) ops
        else sigOpCountLoop (some (.ok op)) (numSigs + maxPubKeysPerMultisig.toNat) ops := by
    unfold Opcode.isMultisig at h
    rw [sigOpCountLoop.eq_def]
    dsimp only
    split at h
    · next hname => rw [hname]; cases prev <;> rfl
    · next hname => rw [hname]; cases prev <;> rfl
    · next hname => rw [hname]; cases prev <;> rfl
    · cases h
  rw [hloop]
  cases prev with
  | none => rfl
  | some prev =>
    by_cases hrange : 0x51 ≤ prev.value ∧ prev.value ≤ 0x60
    · have hname : prev.name = .opN (prev.value.toNat - 0x50) :=
        (ofCode_eq_opN_iff prev.value _).mpr ⟨hrange, rfl⟩
      simp only [if_pos hrange, map_some, hname]
      split
      · next h16 =>
        rw [h16] at hname
        rw [toSmallInt_op16 hname]
        rfl
      · next h16 =>
        rw [toSmallInt_eq hname h16]
        rfl
    · have hname : ∀ n, prev.name ≠ .opN n := fun n hn =>
        hrange ((ofCode_eq_opN_iff prev.value n).mp hn).1
      simp only [if_neg hrange, map_some]
      split
      · next hn => exact absurd (some.inj hn) (hname _)
      · rfl

lemma sigOpCountLoop_other
    (hc : ¬op.checksSignature) (hm : ¬op.isMultisig) : sigOpCountLoop prev numSigs (.ok op :: ops) =
      sigOpCountLoop (some (.ok op)) numSigs ops := by
  unfold Opcode.checksSignature at hc
  unfold Opcode.isMultisig at hm
  rw [sigOpCountLoop.eq_def]
  dsimp only
  split <;> simp_all

end

/-! ## Adjacent opcodes -/

lemma not_op16BeforeMultisig_nil : ¬Op16BeforeMultisig [] := by
  rintro ⟨i, op, op', h, -⟩
  cases h

lemma not_op16BeforeMultisig_singleton (op : Opcode) : ¬Op16BeforeMultisig [op] := by
  rintro ⟨i, op, op', -, h, -⟩
  cases h

lemma op16BeforeMultisig_cons {a b : Opcode} {ops : List Opcode} :
    Op16BeforeMultisig (a :: b :: ops) ↔
      (a.name = .opN 16 ∧ b.isMultisig) ∨ Op16BeforeMultisig (b :: ops) := by
  constructor
  · rintro ⟨i, op, op', hop, hop', hpair⟩
    cases i with
    | zero =>
      cases hop
      cases hop'
      exact .inl hpair
    | succ i => exact .inr ⟨i, op, op', hop, hop', hpair⟩
  · rintro (hpair | ⟨i, op, op', hop, hop', hpair⟩)
    · exact ⟨0, a, b, rfl, rfl, hpair⟩
    · exact ⟨i + 1, op, op', hop, hop', hpair⟩

/-- The pairs of a list that starts with the opcode before it, if there is one. -/
lemma op16BeforeMultisig_toList_append {prev : Option Opcode} {op : Opcode}
    {ops : List Opcode} : Op16BeforeMultisig (prev.toList ++ op :: ops) ↔
      (prev.map Opcode.name = some (.opN 16) ∧ op.isMultisig) ∨ Op16BeforeMultisig (op :: ops) := by
  cases prev with
  | none => simp
  | some prev =>
    simp only [toList_some, List.cons_append, List.nil_append, map_some, some.injEq]
    exact op16BeforeMultisig_cons

lemma not_op16BeforeMultisig_toList (prev : Option Opcode) : ¬Op16BeforeMultisig prev.toList := by
  cases prev with
  | none => exact not_op16BeforeMultisig_nil
  | some prev => exact not_op16BeforeMultisig_singleton prev

/-- The loop returns the sum of what the opcodes add, unless an `Op16` stands before a multisig. -/
lemma sigOpCountLoop_eq_some_iff (prev : Option Opcode) (numSigs : ℕ)
    (ops : List (Except TxScriptError Opcode)) (n : ℕ) :
    sigOpCountLoop (prev.map .ok) numSigs ops = some n ↔
      ¬Op16BeforeMultisig (prev.toList ++ parsedOpcodes ops) ∧
        n = numSigs + totalSigOps prev (parsedOpcodes ops) := by
  induction ops generalizing prev numSigs with
  | nil =>
    have hnone := not_op16BeforeMultisig_toList prev
    simp [sigOpCountLoop, parsedOpcodes, totalSigOps, hnone, eq_comm]
  | cons parsed ops ih =>
    cases parsed with
    | error e =>
      have hnone := not_op16BeforeMultisig_toList prev
      simp [sigOpCountLoop, parsedOpcodes, totalSigOps, hnone, eq_comm]
    | ok op =>
      have ih := ih (some op)
      simp only [map_some, toList_some, List.cons_append, List.nil_append] at ih
      rw [parsedOpcodes, totalSigOps, op16BeforeMultisig_toList_append, ← Nat.add_assoc]
      by_cases hm : op.isMultisig
      · -- a multisig opcode: the opcode before it decides
        have hc : ¬op.checksSignature := fun hc => by
          unfold Opcode.checksSignature at hc
          unfold Opcode.isMultisig at hm
          split at hc <;> simp_all
        rw [sigOpCountLoop_isMultisig hm, Opcode.sigOps, if_neg hc, if_pos hm]
        cases hprev : prev.map Opcode.name with
        | none => simp [ih]
        | some name =>
          cases name
          case opN number =>
            by_cases h16 : number = 16
            · simp [h16, hm]
            · simp [h16, ih]
          all_goals simp [ih]
      · have hpair : ¬(prev.map Opcode.name = some (.opN 16) ∧ op.isMultisig) := fun h => hm h.2
        by_cases hc : op.checksSignature
        · rw [sigOpCountLoop_checksSignature hc, ih, Opcode.sigOps, if_pos hc, or_iff_right hpair]
        · rw [sigOpCountLoop_other hc hm, ih, Opcode.sigOps, if_neg hc, if_neg hm,
            or_iff_right hpair]
          simp

/-! ## The count of an input -/

/-- The count reads the counted script only. -/
lemma getSigOpCountUpperBound_eq (signatureScript : List UInt8)
    (scriptPublicKey : Utxo.ScriptPublicKey) :
    getSigOpCountUpperBound signatureScript scriptPublicKey =
      getSigOpCountByOpcodes (parseScript (countedScript signatureScript scriptPublicKey)) := by
  unfold getSigOpCountUpperBound countedScript
  by_cases hp2sh : isPayToScriptHash scriptPublicKey.script
  · simp only [hp2sh, Bool.not_true, Bool.false_eq_true, if_false]
    by_cases hpush : isPushOnly (parseScript signatureScript)
    · cases hlast : (parseScript signatureScript).getLast? with
      | none =>
        rw [List.getLast?_eq_none_iff.mp hlast]
        rfl
      | some last =>
        have hmem := List.mem_of_getLast? hlast
        have hne : (parseScript signatureScript).isEmpty = false := by
          cases hops : parseScript signatureScript with
          | nil => rw [hops] at hmem; cases hmem
          | cons => rfl
        simp only [hpush, hne, Bool.not_true, Bool.or_false, Bool.false_eq_true, if_false]
        cases last with
        | ok op => rfl
        | error e => exact absurd (List.all_eq_true.mp hpush _ hmem) Bool.false_ne_true
    · simp only [Bool.not_eq_true] at hpush
      simp only [hpush, Bool.not_false, Bool.or_true, if_true]
      rfl
  · simp [hp2sh]

/-- The count returns nothing but the sum of what the opcodes of the counted script add. -/
lemma getSigOpCountUpperBound_eq_some_iff (signatureScript : List UInt8)
    (scriptPublicKey : Utxo.ScriptPublicKey) (n : ℕ) :
    getSigOpCountUpperBound signatureScript scriptPublicKey = some n ↔
      ¬Op16BeforeMultisig
        (parsedOpcodes (parseScript (countedScript signatureScript scriptPublicKey))) ∧
      n = totalSigOps none
        (parsedOpcodes (parseScript (countedScript signatureScript scriptPublicKey))) := by
  have hloop := sigOpCountLoop_eq_some_iff none 0
    (parseScript (countedScript signatureScript scriptPublicKey)) n
  rw [getSigOpCountUpperBound_eq, getSigOpCountByOpcodes]
  simpa using hloop

/-- `get_sig_op_count_upper_bound` returns the sum of what the opcodes of the counted script add,
where a multisig after a small integer adds that integer, exactly when no `Op16` stands directly
before a multisig. -/
theorem getSigOpCountUpperBound_iff (signatureScript : List UInt8)
    (scriptPublicKey : Utxo.ScriptPublicKey) :
    (∃ n, getSigOpCountUpperBound signatureScript scriptPublicKey = some n ∧
      n = totalSigOps none
        (parsedOpcodes (parseScript (countedScript signatureScript scriptPublicKey)))) ↔
    ¬Op16BeforeMultisig
      (parsedOpcodes (parseScript (countedScript signatureScript scriptPublicKey))) := by
  have hiff := getSigOpCountUpperBound_eq_some_iff signatureScript scriptPublicKey
  constructor
  · rintro ⟨n, hn, -⟩
    exact ((hiff n).mp hn).1
  · intro h16
    exact ⟨_, (hiff _).mpr ⟨h16, rfl⟩, rfl⟩

/-- The script `Op16 OpCheckMultiSig` is not counted. -/
theorem getSigOpCountUpperBound_op16_checkMultiSig :
    getSigOpCountUpperBound [] ⟨0, [0x60, 0xae]⟩ = none := by
  decide

end LapisMonetae.Script
