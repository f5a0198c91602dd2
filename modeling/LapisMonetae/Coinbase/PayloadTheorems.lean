import LapisMonetae.Coinbase.Payload

/-!
# Round trips of the coinbase payload

Reading undoes writing up to the length limit of the reader, writing undoes reading, and replacing
the miner's part of a payload is writing it anew.
-/

namespace LapisMonetae.Coinbase

open LittleEndian List UInt8

variable {m : PayloadLimits} {data : CoinbaseData} {payload : List UInt8} {bytes : List UInt8}
  {width : ℕ}

/-! ## Fields -/

@[simp] lemma take_append {n : ℕ} {segment remaining : List UInt8} (h : segment.length = n) :
    take n (segment ++ remaining) = some (segment, remaining) := by
  subst h
  simp [take, splitAt_eq]

@[simp] lemma ofNat_toLeBytes_uint64 (x : UInt64) :
    UInt64.ofNat (fromLeBytes (toLeBytes 8 x.toNat)) = x := by
  rw [fromLeBytes_toLeBytes x.toNat_lt, UInt64.ofNat_toNat]

@[simp] lemma ofNat_toLeBytes_uint16 (x : UInt16) :
    UInt16.ofNat (fromLeBytes (toLeBytes 2 x.toNat)) = x := by
  rw [fromLeBytes_toLeBytes x.toNat_lt, UInt16.ofNat_toNat]

@[simp] lemma ofNat_toLeBytes_uint8 (x : UInt8) :
    UInt8.ofNat (fromLeBytes (toLeBytes 1 x.toNat)) = x := by
  rw [fromLeBytes_toLeBytes x.toNat_lt, UInt8.ofNat_toNat]

lemma toLeBytes_of_length (h : bytes.length = width) :
    toLeBytes width (fromLeBytes bytes) = bytes := by
  subst h
  exact toLeBytes_fromLeBytes bytes

lemma fromLeBytes_lt_of_length (h : bytes.length = width) : fromLeBytes bytes < 256 ^ width := by
  subst h
  exact fromLeBytes_lt bytes

lemma exists_append_of_le {n : ℕ} {l : List UInt8} (h : n ≤ l.length) :
    ∃ segment remaining, l = segment ++ remaining ∧ segment.length = n :=
  ⟨l.take n, l.drop n, (take_append_drop n l).symm, length_take_of_le h⟩

/-! ## The reader -/

/-- What the reader does with a payload of admissible length, by its fields. -/
lemma deserializeCoinbasePayload_append {blueScore subsidy version length rest : List UInt8}
    (hb : blueScore.length = lengthOfBlueScore) (hs : subsidy.length = lengthOfSubsidy)
    (hv : version.length = lengthOfScriptPubKeyVersion)
    (hl : length.length = lengthOfScriptPubKeyLength)
    (hmax : (blueScore ++ subsidy ++ (version ++ length ++ rest)).length ≤
      m.maxCoinbasePayloadLen) :
    m.deserializeCoinbasePayload (blueScore ++ subsidy ++ (version ++ length ++ rest)) =
      let scriptPubKeyLen := ofNat (fromLeBytes length)
      if scriptPubKeyLen > m.coinbasePayloadScriptPublicKeyMaxLen then
        some (.error (.payloadScriptPublicKeyLenAboveMax scriptPubKeyLen.toNat
          m.coinbasePayloadScriptPublicKeyMaxLen))
      else if rest.length < scriptPubKeyLen.toNat then
        some (.error (.payloadCantContainScriptPublicKey (minPayloadLength + rest.length)
          (minPayloadLength + scriptPubKeyLen.toNat)))
      else
        some (.ok
          { blueScore := UInt64.ofNat (fromLeBytes blueScore)
            subsidy := UInt64.ofNat (fromLeBytes subsidy)
            minerData := ⟨⟨UInt16.ofNat (fromLeBytes version), rest.take scriptPubKeyLen.toNat⟩,
              rest.drop scriptPubKeyLen.toNat⟩ }) := by
  have hlen : (blueScore ++ subsidy ++ (version ++ length ++ rest)).length =
      minPayloadLength + rest.length := by
    simp only [length_append, hb, hs, hv, hl, minPayloadLength]
    omega
  have hmin : ¬(blueScore ++ subsidy ++ (version ++ length ++ rest)).length < minPayloadLength := by
    omega
  rw [PayloadLimits.deserializeCoinbasePayload, if_neg hmin, if_neg (by omega), hlen]
  simp only [append_assoc, take_append hb, take_append hs, take_append hv, take_append hl,
    Option.bind_eq_bind, Option.bind_some]
  split_ifs with hscript hrest
  · rfl
  · rfl
  · -- the script is read only when the remainder can contain it
    rw [take, if_pos (Nat.le_of_not_lt hrest), splitAt_eq]
    rfl

lemma exists_fields (h : minPayloadLength ≤ payload.length) :
    ∃ blueScore subsidy version length rest,
      payload = blueScore ++ subsidy ++ (version ++ length ++ rest) ∧
      blueScore.length = lengthOfBlueScore ∧ subsidy.length = lengthOfSubsidy ∧
      version.length = lengthOfScriptPubKeyVersion ∧
      length.length = lengthOfScriptPubKeyLength := by
  simp only [minPayloadLength, lengthOfBlueScore, lengthOfSubsidy, lengthOfScriptPubKeyVersion,
    lengthOfScriptPubKeyLength] at h ⊢
  obtain ⟨blueScore, l₁, rfl, hb⟩ := exists_append_of_le (n := 8) (l := payload) (by omega)
  rw [length_append] at h
  obtain ⟨subsidy, l₂, rfl, hs⟩ := exists_append_of_le (n := 8) (l := l₁) (by omega)
  rw [length_append] at h
  obtain ⟨version, l₃, rfl, hv⟩ := exists_append_of_le (n := 2) (l := l₂) (by omega)
  rw [length_append] at h
  obtain ⟨length, rest, rfl, hl⟩ := exists_append_of_le (n := 1) (l := l₃) (by omega)
  exact ⟨blueScore, subsidy, version, length, rest, by simp, hb, hs, hv, hl⟩

/-! ## The writer -/

lemma serializeCoinbasePayload_eq_ok : m.serializeCoinbasePayload data = .ok payload ↔
      data.minerData.scriptPublicKey.script.length ≤ m.coinbasePayloadScriptPublicKeyMaxLen.toNat ∧
      payload = toLeBytes lengthOfBlueScore data.blueScore.toNat
        ++ toLeBytes lengthOfSubsidy data.subsidy.toNat ++ minerBytes data.minerData := by
  unfold PayloadLimits.serializeCoinbasePayload
  dsimp only
  split_ifs with h
  · simp only [false_iff, not_and]
    omega
  · simp only [Except.ok.injEq, eq_comm (b := payload)]
    constructor
    · intro hp
      exact ⟨by omega, hp⟩
    · intro hp
      exact hp.2

/-- The length byte holds the script's length: the writer's limit is itself a byte. -/
lemma toNat_ofNat_script_length (h : data.minerData.scriptPublicKey.script.length ≤
      m.coinbasePayloadScriptPublicKeyMaxLen.toNat) :
    (ofNat data.minerData.scriptPublicKey.script.length).toNat =
      data.minerData.scriptPublicKey.script.length := by
  have hmax := m.coinbasePayloadScriptPublicKeyMaxLen.toNat_lt
  rw [toNat_ofNat']
  exact Nat.mod_eq_of_lt (by omega)

/-! ## Round trips -/

/-- A written payload of admissible length is read as the data it was written from. -/
lemma deserialize_serialize (hser : m.serializeCoinbasePayload data = .ok payload)
    (hmax : payload.length ≤ m.maxCoinbasePayloadLen) :
    m.deserializeCoinbasePayload payload = some (.ok data) := by
  obtain ⟨hscript, rfl⟩ := serializeCoinbasePayload_eq_ok.mp hser
  have hlen := toNat_ofNat_script_length hscript
  have hle : ¬ofNat data.minerData.scriptPublicKey.script.length >
      m.coinbasePayloadScriptPublicKeyMaxLen := by
    rw [gt_iff_lt, lt_iff_toNat_lt, hlen]
    omega
  rw [minerBytes, append_assoc (_ ++ _)] at hmax ⊢
  rw [deserializeCoinbasePayload_append (length_toLeBytes _ _) (length_toLeBytes _ _)
    (length_toLeBytes _ _) (length_toLeBytes _ _) hmax]
  simp only [lengthOfBlueScore, lengthOfSubsidy, lengthOfScriptPubKeyVersion,
    lengthOfScriptPubKeyLength, ofNat_toLeBytes_uint64, ofNat_toLeBytes_uint16,
    ofNat_toLeBytes_uint8, if_neg hle]
  rw [hlen]
  simp

lemma serialize_deserialize (hde : m.deserializeCoinbasePayload payload = some (.ok data)) :
    m.serializeCoinbasePayload data = .ok payload := by
  have hmin : ¬payload.length < minPayloadLength := by
    intro h
    simp [PayloadLimits.deserializeCoinbasePayload, h] at hde
  have hmax : ¬payload.length > m.maxCoinbasePayloadLen := by
    intro h
    simp [PayloadLimits.deserializeCoinbasePayload, hmin, h] at hde
  obtain ⟨blueScore, subsidy, version, length, rest, rfl, hb, hs, hv, hl⟩ :=
    exists_fields (Nat.le_of_not_lt hmin)
  rw [deserializeCoinbasePayload_append hb hs hv hl (Nat.le_of_not_lt hmax)] at hde
  dsimp only at hde
  split_ifs at hde with hscript hrest
  · simp at hde
  · simp at hde
  simp only [Option.some.injEq, Except.ok.injEq] at hde
  subst hde
  have htake : (rest.take (ofNat (fromLeBytes length)).toNat).length =
      (ofNat (fromLeBytes length)).toNat := length_take_of_le (Nat.le_of_not_lt hrest)
  have hb' := fromLeBytes_lt_of_length hb
  have hs' := fromLeBytes_lt_of_length hs
  have hv' := fromLeBytes_lt_of_length hv
  have hl' := fromLeBytes_lt_of_length hl
  rw [serializeCoinbasePayload_eq_ok]
  constructor
  · rw [htake]
    exact UInt8.le_iff_toNat_le.mp (UInt8.not_lt.mp hscript)
  · rw [minerBytes, htake, UInt8.ofNat_toNat, UInt64.toNat_ofNat_of_lt' hb',
      UInt64.toNat_ofNat_of_lt' hs', UInt16.toNat_ofNat_of_lt' hv', toNat_ofNat_of_lt' hl',
      toLeBytes_of_length hb, toLeBytes_of_length hs, toLeBytes_of_length hv,
      toLeBytes_of_length hl]
    simp

/-- Replacing the miner's part is writing the old blue score and subsidy with the new part. -/
lemma modify_serialize (hser : m.serializeCoinbasePayload data = .ok payload)
    (minerData : MinerData) : m.modifyCoinbasePayload payload minerData =
      m.serializeCoinbasePayload { data with minerData := minerData } := by
  obtain ⟨-, rfl⟩ := serializeCoinbasePayload_eq_ok.mp hser
  unfold PayloadLimits.modifyCoinbasePayload PayloadLimits.serializeCoinbasePayload
  dsimp only
  split_ifs
  · rfl
  · rw [take_left' (by simp)]

/-- The reader accepts a written payload, with the data it was written from, exactly when it is
within the reader's length limit (which the writer does not enforce); whatever the reader accepts
is written back to the same bytes; and replacing the miner's part agrees with writing anew. -/
theorem coinbasePayload_roundTrips (m : PayloadLimits) :
    (∀ data payload, m.serializeCoinbasePayload data = .ok payload →
      (m.deserializeCoinbasePayload payload = some (.ok data) ↔
        payload.length ≤ m.maxCoinbasePayloadLen)) ∧
    (∀ payload data, m.deserializeCoinbasePayload payload = some (.ok data) →
      m.serializeCoinbasePayload data = .ok payload) ∧
    (∀ data payload minerData, m.serializeCoinbasePayload data = .ok payload →
      m.modifyCoinbasePayload payload minerData =
        m.serializeCoinbasePayload { data with minerData := minerData }) := by
  refine ⟨fun data payload hser => ⟨fun hde => ?_, deserialize_serialize hser⟩,
    fun payload data => serialize_deserialize,
    fun data payload minerData hser => modify_serialize hser minerData⟩
  by_contra hmax
  by_cases hmin : payload.length < minPayloadLength
  · simp [PayloadLimits.deserializeCoinbasePayload, hmin] at hde
  · simp [PayloadLimits.deserializeCoinbasePayload, hmin, Nat.lt_of_not_le hmax] at hde

/-- A mainnet payload with a two-byte script and one byte of extra data. -/
theorem coinbasePayload_roundTrips_mainnet : let data : CoinbaseData := ⟨258, 5, ⟨⟨1, [7, 8]⟩, [9]⟩⟩
    let payload : List UInt8 :=
      [2, 1, 0, 0, 0, 0, 0, 0, 5, 0, 0, 0, 0, 0, 0, 0, 1, 0, 2, 7, 8, 9]
    mainnetPayloadLimits.serializeCoinbasePayload data = .ok payload ∧
      mainnetPayloadLimits.deserializeCoinbasePayload payload = some (.ok data) := by
  have hser : mainnetPayloadLimits.serializeCoinbasePayload ⟨258, 5, ⟨⟨1, [7, 8]⟩, [9]⟩⟩ =
      .ok [2, 1, 0, 0, 0, 0, 0, 0, 5, 0, 0, 0, 0, 0, 0, 0, 1, 0, 2, 7, 8, 9] := by decide +kernel
  exact ⟨hser, ((coinbasePayload_roundTrips mainnetPayloadLimits).1 _ _ hser).mpr (by decide)⟩

/-- On mainnet the writer accepts 186 bytes of extra data, and the reader rejects the result. -/
theorem serialize_above_max : let data : CoinbaseData := ⟨0, 0, ⟨⟨0, []⟩, replicate 186 0⟩⟩
    mainnetPayloadLimits.serializeCoinbasePayload data = .ok (replicate 205 0) ∧
      mainnetPayloadLimits.deserializeCoinbasePayload (replicate 205 0) =
        some (.error (.payloadLenAboveMax 205 204)) := by
  decide +kernel

end LapisMonetae.Coinbase
