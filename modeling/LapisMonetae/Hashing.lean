import LapisMonetae.Lib.LittleEndian
import Mathlib.Data.BitVec

/-!
# What the hashes commit to

`consensus/core/src/hashing` writes transactions and headers into a hasher. The bytes can be read
back, so with an injective hash nothing that is written can change without the hash.
-/

namespace LapisMonetae.Hashing

open LittleEndian
open List (append_assoc length map_id)

/-- A vector, whose length is a `usize`. -/
abbrev Vec (α : Type) : Type := { l : List α // l.length < 256 ^ 8 }

instance {α : Type} : Inhabited (Vec α) := ⟨[], Nat.pow_pos (Nat.succ_pos 255)⟩

/-- `Hash`, as its bytes. -/
abbrev HashBytes : Type := Vector UInt8 32

@[ext] structure TransactionOutpoint where
  transactionId : HashBytes
  index : BitVec 32

@[ext] structure TransactionInput where
  previousOutpoint : TransactionOutpoint
  signatureScript : Vec UInt8
  sequence : BitVec 64
  sigOpCount : BitVec 8

@[ext] structure ScriptPublicKey where
  version : BitVec 16
  script : Vec UInt8

@[ext] structure TransactionOutput where
  value : BitVec 64
  scriptPublicKey : ScriptPublicKey

/-- `Transaction`, without its cached id. -/
@[ext] structure Transaction where
  version : BitVec 16
  inputs : Vec TransactionInput
  outputs : Vec TransactionOutput
  lockTime : BitVec 64
  subnetworkId : Vector UInt8 20
  gas : BitVec 64
  payload : Vec UInt8
  mass : BitVec 64
deriving Inhabited

/-- `Header`, without its cached hash. -/
@[ext] structure Header where
  version : BitVec 16
  parentsByLevel : Vec (Vec HashBytes)
  hashMerkleRoot : HashBytes
  acceptedIdMerkleRoot : HashBytes
  utxoCommitment : HashBytes
  timestamp : BitVec 64
  bits : BitVec 32
  nonce : BitVec 64
  daaScore : BitVec 64
  blueWork : BitVec 192
  blueScore : BitVec 64
  pruningPoint : HashBytes

/-! ## Writers

Each returns the bytes that it adds to the hasher. -/

/-- `to_le_bytes` of an integer of `width` bytes. -/
def leBytes (width : ℕ) (x : BitVec (8 * width)) : List UInt8 := toLeBytes width x.toNat

/-- A length, as a `u64`. -/
def writeLen (len : ℕ) : List UInt8 := toLeBytes 8 len

/-- Bytes after their length. -/
def writeVarBytes (bytes : List UInt8) : List UInt8 := writeLen bytes.length ++ bytes

def writeVarArray (arr : Vec HashBytes) : List UInt8 :=
  writeLen arr.1.length ++ arr.1.flatMap Vector.toList

/-- The big-endian bytes without the leading zeros. -/
def writeBlueWork (work : BitVec 192) : List UInt8 :=
  writeVarBytes ((leBytes 24 work).reverse.dropWhile (· == 0))

/-- `TX_ENCODING_FULL`. -/
def txEncodingFull : UInt8 := 0

/-- `TX_ENCODING_EXCLUDE_SIGNATURE_SCRIPT`. -/
def txEncodingExcludeSignatureScript : UInt8 := 1

def writeOutpoint (outpoint : TransactionOutpoint) : List UInt8 :=
  outpoint.transactionId.toList ++ leBytes 4 outpoint.index

def writeInput (encodingFlags : UInt8) (input : TransactionInput) : List UInt8 :=
  writeOutpoint input.previousOutpoint ++
    (if encodingFlags &&& txEncodingExcludeSignatureScript ≠ txEncodingExcludeSignatureScript then
      writeVarBytes input.signatureScript.1 ++ leBytes 1 input.sigOpCount
    else writeVarBytes []) ++
    leBytes 8 input.sequence

def writeOutput (output : TransactionOutput) : List UInt8 :=
  leBytes 8 output.value ++ leBytes 2 output.scriptPublicKey.version ++
    writeVarBytes output.scriptPublicKey.script.1

def writeTransaction (tx : Transaction) (encodingFlags : UInt8) (includeMassField : Bool) :
    List UInt8 :=
  leBytes 2 tx.version ++ writeLen tx.inputs.1.length ++
    tx.inputs.1.flatMap (writeInput encodingFlags) ++
    writeLen tx.outputs.1.length ++ tx.outputs.1.flatMap writeOutput ++
    leBytes 8 tx.lockTime ++ tx.subnetworkId.toList ++ leBytes 8 tx.gas ++
    writeVarBytes tx.payload.1 ++
    if includeMassField then if tx.mass > 0 then leBytes 8 tx.mass else [] else []

section
variable {H : Type} (finalize : List UInt8 → H)

def Transaction.hash (tx : Transaction) (includeMassField : Bool) : H :=
  finalize (writeTransaction tx txEncodingFull includeMassField)

/-- Whether the subnetwork is `SUBNETWORK_ID_COINBASE`. -/
abbrev Transaction.isCoinbase (tx : Transaction) : Prop :=
  tx.subnetworkId = (Vector.replicate 20 0).set 0 1

/-- The id leaves out the mass and, but for a coinbase, the signature scripts. -/
def Transaction.id (tx : Transaction) : H :=
  let encodingFlags := if tx.isCoinbase then txEncodingFull else txEncodingExcludeSignatureScript
  finalize (writeTransaction tx encodingFlags false)

/-- `hash_override_nonce_time`. -/
def hashOverrideNonceTime (header : Header) (nonce timestamp : BitVec 64) : H :=
  finalize (leBytes 2 header.version ++ writeLen header.parentsByLevel.1.length ++
    header.parentsByLevel.1.flatMap writeVarArray ++
    header.hashMerkleRoot.toList ++ header.acceptedIdMerkleRoot.toList ++
    header.utxoCommitment.toList ++ leBytes 8 timestamp ++ leBytes 4 header.bits ++
    leBytes 8 nonce ++ leBytes 8 header.daaScore ++ leBytes 8 header.blueScore ++
    writeBlueWork header.blueWork ++ header.pruningPoint.toList)

def Header.hash (header : Header) : H :=
  hashOverrideNonceTime finalize header header.nonce header.timestamp

end

/-! ## Reading back -/

section
variable {α γ : Type} {f : α → List UInt8} {g : α → γ} {s t : List UInt8}

@[simp] lemma length_leBytes (width : ℕ) (x : BitVec (8 * width)) :
    (leBytes width x).length = width := length_toLeBytes width _

/-- An integer is read back from its bytes. -/
lemma fromLeBytes_leBytes {width : ℕ} (x : BitVec (8 * width)) :
    fromLeBytes (leBytes width x) = x.toNat := by
  have h := x.isLt
  rw [pow_mul] at h
  exact fromLeBytes_toLeBytes h

lemma leBytes_injective (width : ℕ) : (leBytes width).Injective := fun x y h =>
  BitVec.eq_of_toNat_eq (by rw [← fromLeBytes_leBytes x, h, fromLeBytes_leBytes])

/-- Texts that start with an integer agree where the integers and the rests do. -/
@[simp] lemma leBytes_append {width : ℕ} {x y : BitVec (8 * width)} :
    leBytes width x ++ s = leBytes width y ++ t ↔ x = y ∧ s = t :=
  append_inj_iff (by simp) fun h => leBytes_injective width h

@[simp] lemma toList_append {n : ℕ} {x y : Vector UInt8 n} :
    x.toList ++ s = y.toList ++ t ↔ x = y ∧ s = t :=
  append_inj_iff (by simp) Vector.toList_inj.mp

lemma writeLen_append {n m : ℕ} (hn : n < 256 ^ 8) (hm : m < 256 ^ 8) :
    writeLen n ++ s = writeLen m ++ t ↔ n = m ∧ s = t :=
  append_inj_iff (by simp [writeLen]) (toLeBytes_inj hn hm)

lemma varBytes_append {l l' : List UInt8} (hl : l.length < 256 ^ 8) (hl' : l'.length < 256 ^ 8) :
    writeVarBytes l ++ s = writeVarBytes l' ++ t ↔ l = l' ∧ s = t := by
  rw [writeVarBytes, writeVarBytes, append_assoc, append_assoc, writeLen_append hl hl']
  exact ⟨fun h => List.append_inj h.2 h.1, fun h => ⟨congrArg length h.1, by rw [h.1, h.2]⟩⟩

/-- Bytes with their length can be told from the rest. -/
@[simp] lemma writeVarBytes_append {v w : Vec UInt8} :
    writeVarBytes v.1 ++ s = writeVarBytes w.1 ++ t ↔ v = w ∧ s = t := by
  rw [varBytes_append v.2 w.2, Subtype.ext_iff]

@[simp] lemma writeBlueWork_append {x y : BitVec 192} :
    writeBlueWork x ++ s = writeBlueWork y ++ t ↔ x = y ∧ s = t := by
  have hlen : ∀ x : BitVec 192, ((leBytes 24 x).reverse.dropWhile (· == 0)).length < 256 ^ 8 := by
    intro x
    have h := ((leBytes 24 x).reverse.dropWhile_sublist (· == 0)).length_le
    rw [List.length_reverse, length_leBytes] at h
    omega
  rw [writeBlueWork, writeBlueWork, varBytes_append (hlen x) (hlen y)]
  refine and_congr_left fun _ => ⟨fun h => BitVec.eq_of_toNat_eq ?_, fun h => h ▸ rfl⟩
  -- the zeros that are left out do not change the number
  have hvalue := congrArg (fun bytes => fromLeBytes bytes.reverse) h
  simpa only [← List.rdropWhile.eq_1, fromLeBytes_rdropWhile, fromLeBytes_leBytes] using hvalue

/-- A vector is read back as far as its elements are. -/
lemma vec_append (hf : ∀ a b s t, f a ++ s = f b ++ t ↔ g a = g b ∧ s = t) {v w : Vec α} :
    writeLen v.1.length ++ (v.1.flatMap f ++ s) = writeLen w.1.length ++ (w.1.flatMap f ++ t) ↔
      v.1.map g = w.1.map g ∧ s = t := by
  rw [writeLen_append v.2 w.2, and_congr_right fun hlen => flatMap_append_inj hf hlen]
  exact and_iff_right_of_imp fun h => by simpa using congrArg length h.1

lemma vec_append_id (hf : ∀ a b s t, f a ++ s = f b ++ t ↔ a = b ∧ s = t) {v w : Vec α} :
    writeLen v.1.length ++ (v.1.flatMap f ++ s) = writeLen w.1.length ++ (w.1.flatMap f ++ t) ↔
      v = w ∧ s = t := by
  rw [vec_append (g := id) hf, map_id, map_id, Subtype.ext_iff]

/-- An array of hashes can be told from the rest. -/
lemma writeVarArray_append {v w : Vec HashBytes} :
    writeVarArray v ++ s = writeVarArray w ++ t ↔ v = w ∧ s = t := by
  rw [writeVarArray, writeVarArray, append_assoc, append_assoc,
    vec_append_id fun _ _ _ _ => toList_append]

@[simp] lemma writeOutpoint_append {x y : TransactionOutpoint} :
    writeOutpoint x ++ s = writeOutpoint y ++ t ↔ x = y ∧ s = t := by
  simp [writeOutpoint, TransactionOutpoint.ext_iff, and_assoc]

/-- An output can be told from the rest. -/
lemma writeOutput_append {x y : TransactionOutput} :
    writeOutput x ++ s = writeOutput y ++ t ↔ x = y ∧ s = t := by
  simp [writeOutput, TransactionOutput.ext_iff, ScriptPublicKey.ext_iff, and_assoc]

/-- With its signature script, an input can be told from the rest. -/
lemma writeInput_full {x y : TransactionInput} :
    writeInput txEncodingFull x ++ s = writeInput txEncodingFull y ++ t ↔ x = y ∧ s = t := by
  simp [writeInput, txEncodingFull, txEncodingExcludeSignatureScript, TransactionInput.ext_iff,
    and_assoc, and_left_comm]

/-- What the id commits to of an input. -/
def TransactionInput.unsigned (input : TransactionInput) : TransactionOutpoint × BitVec 64 :=
  (input.previousOutpoint, input.sequence)

/-- Without it, so can what the id commits to. -/
lemma writeInput_exclude {x y : TransactionInput} :
    writeInput txEncodingExcludeSignatureScript x ++ s =
      writeInput txEncodingExcludeSignatureScript y ++ t ↔ x.unsigned = y.unsigned ∧ s = t := by
  simp [writeInput, txEncodingExcludeSignatureScript, TransactionInput.unsigned, and_assoc]

/-- Only a mass of zero is not written. -/
lemma mass_inj {x y : BitVec 64}
    (h : (if x > 0 then leBytes 8 x else []) = if y > 0 then leBytes 8 y else []) : x = y := by
  have hne : ∀ x : BitVec 64, leBytes 8 x ≠ [] := fun x => List.ne_nil_of_length_pos (by simp)
  split_ifs at h with hx hy hy
  · exact leBytes_injective 8 h
  · exact absurd h (hne x)
  · exact absurd h.symm (hne y)
  · bv_omega

end

/-- With an injective hash, the full hash of a transaction determines the transaction. Its id
determines all but the signature scripts, the signature operation counts and the mass, if coinbase
transactions have no inputs. The hash of a header determines the header. -/
theorem hashes_determine {H : Type} {finalize : List UInt8 → H} (hfinalize : finalize.Injective) :
    (∀ tx tx' : Transaction, tx.hash finalize true = tx'.hash finalize true → tx = tx') ∧
    (∀ tx tx' : Transaction, (tx.isCoinbase → tx.inputs.1 = []) →
      (tx'.isCoinbase → tx'.inputs.1 = []) → tx.id finalize = tx'.id finalize →
      tx.version = tx'.version ∧ tx.inputs.1.map (·.unsigned) = tx'.inputs.1.map (·.unsigned) ∧
      tx.outputs = tx'.outputs ∧ tx.lockTime = tx'.lockTime ∧
      tx.subnetworkId = tx'.subnetworkId ∧ tx.gas = tx'.gas ∧ tx.payload = tx'.payload) ∧
    ∀ header header' : Header, header.hash finalize = header'.hash finalize → header = header' := by
  refine ⟨fun tx tx' h => ?_, fun tx tx' hcoinbase hcoinbase' h => ?_, fun header header' h => ?_⟩
  · have h := hfinalize h
    simp only [writeTransaction, append_assoc, leBytes_append, toList_append, writeVarBytes_append,
      vec_append_id fun _ _ _ _ => writeInput_full, if_true,
      vec_append_id fun _ _ _ _ => writeOutput_append] at h
    obtain ⟨hversion, hinputs, houtputs, hlock, hsubnetwork, hgas, hpayload, hmass⟩ := h
    exact Transaction.ext hversion hinputs houtputs hlock hsubnetwork hgas hpayload (mass_inj hmass)
  · -- without inputs, the two encodings are the same
    have hid : ∀ tx : Transaction, (tx.isCoinbase → tx.inputs.1 = []) → tx.id finalize =
        finalize (writeTransaction tx txEncodingExcludeSignatureScript false) := by
      intro tx hcoinbase
      unfold Transaction.id
      split
      · next hc => simp [writeTransaction, hcoinbase hc]
      · rfl
    rw [hid tx hcoinbase, hid tx' hcoinbase'] at h
    have h := hfinalize h
    simpa only [writeTransaction, append_assoc, leBytes_append, toList_append, writeVarBytes_append,
      vec_append fun _ _ _ _ => writeInput_exclude, and_true,
      vec_append_id fun _ _ _ _ => writeOutput_append, Bool.false_eq_true, if_false] using h
  · have h := hfinalize h
    simp only [append_assoc, leBytes_append, vec_append_id fun _ _ _ _ => writeVarArray_append,
      toList_append, writeBlueWork_append, Vector.toList_inj] at h
    obtain ⟨hversion, hparents, hmerkle, haccepted, hutxo, htime, hbits, hnonce, hdaa, hblue, hwork,
      hpruning⟩ := h
    exact Header.ext hversion hparents hmerkle haccepted hutxo htime hbits hnonce hdaa hwork hblue
      hpruning

/-- A transaction with one input, and with one output of the given value. -/
def payment (value mass : BitVec 64) : Transaction :=
  { (default : Transaction) with
    inputs := ⟨[⟨⟨default, 0⟩, default, 0, 1⟩], by decide⟩
    outputs := ⟨[⟨value, 0, default⟩], by simp⟩
    mass }

/-- The mass alone changes the hash, the value of an output the id. -/
theorem hashes_determine_payment : (payment 5 0).hash id true ≠ (payment 5 1).hash id true ∧
    (payment 5 0).id id ≠ (payment 6 0).id id := by
  obtain ⟨hhash, hid, -⟩ := hashes_determine Function.injective_id
  refine ⟨fun h => absurd (congrArg (·.mass) (hhash _ _ h)) (by decide), fun h => ?_⟩
  obtain ⟨-, -, houtputs, -⟩ := hid _ _ (by decide) (by decide) h
  exact absurd (congrArg (·.1.map (·.value)) houtputs) (by decide)

end LapisMonetae.Hashing
