import LapisMonetae.Script.SigOpsTheorems

/-!
# The script builder

`ScriptBuilder` appends data and numbers to a script in their shortest form. What it appends is one
push opcode, which passes the check for minimal pushes and pushes the data when it is executed.
-/

namespace LapisMonetae.Script

open Program LittleEndian List

inductive ScriptBuilderError where
  | dataRejected (size : ℕ)
  | elementExceedsMaxSize (size : ℕ)
  | integerRejected (val : ℤ)
  | serialization (val : ℤ)
deriving DecidableEq, Repr

def canonicalDataSize (data : List UInt8) : ℕ :=
  let dataLen := data.length
  let first := data.headD 0
  if dataLen = 0 ∨ dataLen = 1 ∧ (first ≤ 16 ∨ first = 0x81) then 1
  else dataLen +
    if dataLen ≤ 75 then 1 else if dataLen ≤ 255 then 2 else if dataLen ≤ 65535 then 3 else 5

/-- The bytes that `add_raw_data` appends. -/
def rawData (data : List UInt8) : List UInt8 :=
  let dataLen := data.length
  let first := data.headD 0
  if dataLen = 0 ∨ dataLen = 1 ∧ first = 0 then [0x00]
  else if dataLen = 1 ∧ first ≤ 16 then [0x51 - 1 + first]
  else if dataLen = 1 ∧ first = 0x81 then [0x4f]
  else if dataLen ≤ 75 then UInt8.ofNat dataLen :: data
  else if dataLen ≤ 255 then 0x4c :: toLeBytes 1 dataLen ++ data
  else if dataLen ≤ 65535 then 0x4d :: toLeBytes 2 dataLen ++ data
  else 0x4e :: toLeBytes 4 dataLen ++ data

def addData (script data : List UInt8) : Except ScriptBuilderError (List UInt8) :=
  let dataSize := canonicalDataSize data
  if script.length + dataSize > maxScriptsSize then .error (.dataRejected dataSize)
  else if data.length > maxScriptElementSize then .error (.elementExceedsMaxSize data.length)
  else .ok (script ++ rawData data)

def addI64 (script : List UInt8) (val : ℤ) : Except ScriptBuilderError (List UInt8) :=
  if script.length + 1 > maxScriptsSize then .error (.integerRejected val)
  else if val = 0 then .ok (script ++ [0x00])
  else if val = -1 ∨ 1 ≤ val ∧ val ≤ 16 then .ok (script ++ [UInt8.ofNat (0x50 + val).toNat])
  else
    match (serializeSized 8 val : Program Unit TxScriptError (List UInt8)).outcome () with
    | some (.ok bytes, _) => addData script bytes
    | _ => .error (.serialization val)

/-- The bytes are one push opcode, and it pushes `item` when it is executed. The check for minimal
pushes is part of the execution. -/
def PushesItem (crypto : ScriptCrypto) (bytes item : List UInt8) : Prop :=
  ∃ op, parseScript bytes = [.ok op] ∧ op.isPushOpcode ∧
    ∀ vm : TxScriptEngine, vm.isExecuting → (executeOpcode crypto op).outcome vm =
      some (.ok (), { vm with dstack := item :: vm.dstack })

/-- The bytes are what `add` appends to every script that has room for them. -/
def Appends (add : List UInt8 → Except ScriptBuilderError (List UInt8)) (bytes : List UInt8) :
    Prop :=
  ∀ script script', add script = .ok script' ↔
    script.length + bytes.length ≤ maxScriptsSize ∧ script' = script ++ bytes

section
variable (crypto : ScriptCrypto) {data : List UInt8}

lemma pushesItem_of_deserialize {bytes item : List UInt8} {op : Opcode}
    (hparse : deserializeNextOpcode bytes = some (.ok op, [])) (hpush : op.isPushOpcode)
    (hlen : op.data.length ≤ maxScriptElementSize)
    (hmin : 0 < op.value ∧ op.value ≤ 0x4e → op.checkMinimalDataPush = .ok ())
    (hexec : ∀ vm, (op.execute crypto).outcome vm =
      some (.ok (), { vm with dstack := item :: vm.dstack })) :
    PushesItem crypto bytes item := by
  refine ⟨op, by rw [parseScript_eq, hparse]; rfl, hpush, fun vm hvm => ?_⟩
  unfold executeOpcode
  simp only [hpush, Bool.not_true, Bool.false_eq_true, if_false]
  rw [if_neg (by omega)]
  unfold executeOpcode.runIfExecuting
  rw [outcome_get_bind, hvm, Bool.true_or, if_pos rfl]
  split
  · next hvalue =>
    rw [hmin hvalue, outcome_bind_ok (outcome_orFail _ vm), hexec]
  · rw [hexec]

lemma deserializeVar_append (code : UInt8) (width : ℕ) (h : data.length < 256 ^ width) :
    deserializeVar code width (toLeBytes width data.length ++ data) = (.ok ⟨code, data⟩, []) := by
  have hlen := length_toLeBytes width data.length
  unfold deserializeVar
  simp [take_left' hlen, drop_left' hlen, fromLeBytes_toLeBytes h]

/-- Every string but a zero byte is pushed as it is. -/
lemma rawData_pushes (hlen : data.length ≤ maxScriptElementSize) (hzero : data ≠ [0]) :
    PushesItem crypto (rawData data) data := by
  have hone : data.length = 1 → data = [data.headD 0] := by
    intro h
    obtain ⟨b, rfl⟩ := length_eq_one_iff.mp h
    rfl
  unfold rawData
  dsimp only
  split_ifs with h0 hsmall hneg hshort h255 hmax
  · obtain rfl : data = [] := by
      rcases h0 with h | ⟨h, hfirst⟩
      · exact length_eq_zero_iff.mp h
      · exact absurd (hfirst ▸ hone h) hzero
    exact pushesItem_of_deserialize crypto rfl rfl (by decide) (by decide) fun vm => rfl
  · have hfirst : data.headD 0 ≠ 0 := fun h => h0 (.inr ⟨hsmall.1, h⟩)
    rw [hone hsmall.1]
    generalize data.headD 0 = b at hsmall hfirst
    obtain ⟨n, hn, rfl⟩ : ∃ n ≤ 16, b = UInt8.ofNat n :=
      ⟨b.toNat, UInt8.le_iff_toNat_le.mp hsmall.2, by simp⟩
    have hpos : n ≠ 0 := fun h => hfirst (h ▸ rfl)
    interval_cases n
    · exact absurd rfl hpos
    all_goals
      exact pushesItem_of_deserialize crypto rfl rfl (by decide) (by decide) fun vm => rfl
  · rw [hone hneg.1, hneg.2]
    exact pushesItem_of_deserialize crypto rfl rfl (by decide) (by decide) fun vm => rfl
  -- the forms with data fall through the first branches of the check
  all_goals
    have hempty : ¬data.length = 0 := fun h => h0 (.inl h)
    have hint : ¬(data.length = 1 ∧ 1 ≤ data.headD 0 ∧ data.headD 0 ≤ 16) :=
      fun h => hsmall ⟨h.1, h.2.2⟩
  · have hcode : (UInt8.ofNat data.length).toNat = data.length :=
      UInt8.toNat_ofNat_of_lt' (by unfold UInt8.size; omega)
    have hrange : 1 ≤ UInt8.ofNat data.length ∧ UInt8.ofNat data.length ≤ 0x4b := by
      rw [UInt8.le_iff_toNat_le, UInt8.le_iff_toNat_le, hcode]
      exact ⟨by show 1 ≤ _; omega, hshort⟩
    have hname : OpName.ofCode (UInt8.ofNat data.length) = .opData := if_pos hrange
    have hparse : deserializeNextOpcode (UInt8.ofNat data.length :: data) =
        some (.ok ⟨UInt8.ofNat data.length, data⟩, []) := by
      unfold deserializeNextOpcode
      dsimp only
      rw [hname]
      simp [deserializeFixed, hcode]
    refine pushesItem_of_deserialize crypto hparse
      (decide_eq_true (UInt8.le_trans hrange.2 (by decide))) hlen (fun _ => ?_) fun vm => ?_
    · unfold Opcode.checkMinimalDataPush
      rw [if_neg hempty, if_neg hint, if_neg hneg, if_pos hshort, if_neg (not_not.mpr hcode)]
      rfl
    · unfold Opcode.execute Opcode.name
      rw [hname]
      rfl
  · have hparse := deserializeVar_append 0x4c 1 (show data.length < _ by omega)
    refine pushesItem_of_deserialize crypto (congrArg some hparse) rfl hlen (fun _ => ?_) fun _ => rfl
    unfold Opcode.checkMinimalDataPush
    rw [if_neg hempty, if_neg hint, if_neg hneg, if_neg hshort, if_pos h255, if_neg (by simp)]
    rfl
  · have hparse := deserializeVar_append 0x4d 2 (show data.length < _ by omega)
    refine pushesItem_of_deserialize crypto (congrArg some hparse) rfl hlen (fun _ => ?_) fun _ => rfl
    unfold Opcode.checkMinimalDataPush
    rw [if_neg hempty, if_neg hint, if_neg hneg, if_neg hshort, if_neg h255, if_neg (by simp)]
    rfl
  · unfold maxScriptElementSize at hlen
    omega

lemma length_rawData (data : List UInt8) : (rawData data).length = canonicalDataSize data := by
  unfold rawData canonicalDataSize
  rcases data with _ | ⟨b, _ | ⟨c, rest⟩⟩
  · rfl
  · by_cases hzero : b = 0
    · subst hzero
      rfl
    · by_cases hsmall : b ≤ 16 <;> by_cases hneg : b = 0x81 <;> simp [hzero, hsmall, hneg]
  · simp only [length_cons]
    split_ifs <;> simp_all <;> omega

lemma canonicalDataSize_pos (data : List UInt8) : 0 < canonicalDataSize data := by
  unfold canonicalDataSize
  dsimp only
  split_ifs <;> omega

lemma appends_of_eq_ite {add : List UInt8 → Except ScriptBuilderError (List UInt8)}
    {bytes : List UInt8} (error : ScriptBuilderError) (h : ∀ script : List UInt8, add script =
      if script.length + bytes.length > maxScriptsSize then .error error
      else .ok (script ++ bytes)) : Appends add bytes := by
  intro script script'
  rw [h script]
  split_ifs with hroom
  · exact ⟨fun h => absurd h (by simp), fun h => absurd h.1 (Nat.not_le.mpr hroom)⟩
  · simp [Nat.le_of_not_lt hroom, eq_comm]

lemma appends_addData (hlen : data.length ≤ maxScriptElementSize) :
    Appends (addData · data) (rawData data) := by
  refine appends_of_eq_ite (.dataRejected (canonicalDataSize data)) fun script => ?_
  unfold addData
  rw [length_rawData, if_neg (Nat.not_lt.mpr hlen)]

/-- What the builder appends for data other than a zero byte has the predicted length and pushes the
data, and what it appends for a number pushes the encoding of the number. -/
theorem addData_addI64_push :
    (∀ data : List UInt8, data.length ≤ maxScriptElementSize → data ≠ [0] → ∃ bytes,
      Appends (addData · data) bytes ∧ bytes.length = canonicalDataSize data ∧
        PushesItem crypto bytes data) ∧
    ∀ val : ℤ, val.natAbs < 2 ^ 63 → ∃ bytes item, Appends (addI64 · val) bytes ∧
      (serializeSized 8 val).outcome () = some (.ok item, ()) ∧ PushesItem crypto bytes item := by
  refine ⟨fun data hlen hzero => ⟨_, appends_addData hlen, length_rawData data,
    rawData_pushes crypto hlen hzero⟩, fun val hval => ?_⟩
  by_cases hzero : val = 0
  · subst hzero
    exact ⟨[0], [], appends_of_eq_ite (.integerRejected _) fun _ => rfl, rfl,
      @rawData_pushes crypto [] (by decide) (by decide)⟩
  by_cases hsmall : val = -1 ∨ 1 ≤ val ∧ val ≤ 16
  · have happends : Appends (addI64 · val) [UInt8.ofNat (0x50 + val).toNat] :=
      appends_of_eq_ite (.integerRejected _) fun _ => by rw [addI64, if_neg hzero, if_pos hsmall]; rfl
    rcases hsmall with rfl | ⟨hlow, hhigh⟩
    · exact ⟨_, [0x81], happends, rfl, @rawData_pushes crypto [0x81] (by decide) (by decide)⟩
    · obtain ⟨n, rfl⟩ := Int.eq_ofNat_of_zero_le (show 0 ≤ val by omega)
      have hpush := @rawData_pushes crypto [UInt8.ofNat n]
      have hlow : 1 ≤ n := by exact_mod_cast hlow
      have hhigh : n ≤ 16 := by exact_mod_cast hhigh
      refine ⟨_, [UInt8.ofNat n], happends, ?_⟩
      interval_cases n <;> exact ⟨rfl, hpush (by decide) (by decide)⟩
  · obtain ⟨low, msb, hmin, rfl, hlow⟩ := exists_signedValue hzero
    have hserialize := serializeSized_signedValue (hlow 7 hval) hmin ()
    have hlen : (low ++ [msb]).length ≤ maxScriptElementSize := by
      have h7 := hlow 7 hval
      have hmax : 8 ≤ maxScriptElementSize := by decide
      simp only [length_append, length_singleton]
      omega
    refine ⟨_, _, fun script script' => ?_, hserialize, rawData_pushes crypto hlen fun hbyte => ?_⟩
    · rw [← appends_addData hlen script script']
      dsimp only
      rw [addI64, if_neg hzero, if_neg hsmall, hserialize]
      split_ifs with hroom
      · have hpos := canonicalDataSize_pos (low ++ [msb])
        rw [addData, if_pos (by omega)]
        simp
      · rfl
    · -- a zero byte is no number
      obtain ⟨rfl, rfl⟩ : low = [] ∧ msb = 0 := by
        rcases low with _ | ⟨b, low⟩ <;> simp_all
      exact absurd hmin (by simp [MinimalEncoding, lastSaturated])

theorem addData_addI64_push_two : ∃ bytes, Appends (addData · [7, 7]) bytes ∧
    bytes.length = canonicalDataSize [7, 7] ∧ PushesItem acceptingCrypto bytes [7, 7] :=
  (addData_addI64_push acceptingCrypto).1 [7, 7] (by decide) (by decide)

/-- A zero byte is appended as `Op0`, which pushes an empty item. -/
theorem addData_zero_byte : ∃ bytes, Appends (addData · [0]) bytes ∧
    PushesItem acceptingCrypto bytes [] ∧ ¬PushesItem acceptingCrypto bytes [0] := by
  refine ⟨_, appends_addData (by decide),
    @rawData_pushes acceptingCrypto [] (by decide) (by decide), ?_⟩
  rintro ⟨op, hparse, -, hexec⟩
  cases hparse
  cases hexec (.fromScript [] false) rfl

end

end LapisMonetae.Script
