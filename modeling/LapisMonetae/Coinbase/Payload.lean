import LapisMonetae.Lib.LittleEndian
import LapisMonetae.Utxo.Collection

/-!
# Coinbase payload

The byte format of a coinbase transaction's payload: blue score, subsidy, the script public key
with its length, and free extra data. `CoinbaseManager` writes it, reads it, and replaces the
miner's part of a payload in place.
-/

namespace LapisMonetae.Coinbase

open LittleEndian
open Utxo (ScriptPublicKey)

/-- `MinerData`: what the miner decides of a payload. -/
structure MinerData where
  scriptPublicKey : ScriptPublicKey
  extraData : List UInt8
deriving DecidableEq, Repr

/-- `CoinbaseData`: the content of a payload. -/
structure CoinbaseData where
  blueScore : UInt64
  subsidy : UInt64
  minerData : MinerData
deriving DecidableEq, Repr

/-- `CoinbaseError`, with the numbers each message reports. -/
inductive CoinbaseError where
  | payloadLenBelowMin (len min : ℕ)
  | payloadLenAboveMax (len max : ℕ)
  | payloadScriptPublicKeyLenAboveMax (len : ℕ) (max : UInt8)
  | payloadCantContainScriptPublicKey (len needed : ℕ)
deriving DecidableEq, Repr

def lengthOfBlueScore : ℕ := 8

def lengthOfSubsidy : ℕ := 8

def lengthOfScriptPubKeyVersion : ℕ := 2

def lengthOfScriptPubKeyLength : ℕ := 1

def minPayloadLength : ℕ :=
  lengthOfBlueScore + lengthOfSubsidy + lengthOfScriptPubKeyVersion + lengthOfScriptPubKeyLength

/-- The two limits of `CoinbaseManager` that the payload functions read. -/
structure PayloadLimits where
  coinbasePayloadScriptPublicKeyMaxLen : UInt8
  maxCoinbasePayloadLen : ℕ
deriving DecidableEq, Repr

/-- The limits of `MAINNET_PARAMS`. -/
def mainnetPayloadLimits : PayloadLimits := ⟨150, 204⟩

/-- `PayloadParser::take`: the first `n` bytes of the remainder, and what is left of it. The
source's `split_at` panics beyond the end. -/
def take (n : ℕ) (remaining : List UInt8) : Option (List UInt8 × List UInt8) :=
  if n ≤ remaining.length then some (remaining.splitAt n) else none

/-- The miner's part of a payload: version, length and bytes of the script, then the extra data. -/
def minerBytes (minerData : MinerData) : List UInt8 :=
  toLeBytes lengthOfScriptPubKeyVersion minerData.scriptPublicKey.version.toNat
    ++ toLeBytes lengthOfScriptPubKeyLength
        (UInt8.ofNat minerData.scriptPublicKey.script.length).toNat
    ++ minerData.scriptPublicKey.script ++ minerData.extraData

namespace PayloadLimits

def serializeCoinbasePayload (m : PayloadLimits) (data : CoinbaseData) :
    Except CoinbaseError (List UInt8) :=
  let scriptPubKeyLen := data.minerData.scriptPublicKey.script.length
  if scriptPubKeyLen > m.coinbasePayloadScriptPublicKeyMaxLen.toNat then
    .error (.payloadScriptPublicKeyLenAboveMax scriptPubKeyLen
      m.coinbasePayloadScriptPublicKeyMaxLen)
  else
    .ok (toLeBytes lengthOfBlueScore data.blueScore.toNat
      ++ toLeBytes lengthOfSubsidy data.subsidy.toNat ++ minerBytes data.minerData)

/-- `modify_coinbase_payload`: keeps the blue score and the subsidy, rewrites the rest. -/
def modifyCoinbasePayload (m : PayloadLimits) (payload : List UInt8) (minerData : MinerData) :
    Except CoinbaseError (List UInt8) :=
  let scriptPubKeyLen := minerData.scriptPublicKey.script.length
  if scriptPubKeyLen > m.coinbasePayloadScriptPublicKeyMaxLen.toNat then
    .error (.payloadScriptPublicKeyLenAboveMax scriptPubKeyLen
      m.coinbasePayloadScriptPublicKeyMaxLen)
  else
    .ok (payload.take (lengthOfBlueScore + lengthOfSubsidy) ++ minerBytes minerData)

/-- `deserialize_coinbase_payload`; `none` is a panic. -/
def deserializeCoinbasePayload (m : PayloadLimits) (payload : List UInt8) :
    Option (Except CoinbaseError CoinbaseData) :=
  if payload.length < minPayloadLength then
    some (.error (.payloadLenBelowMin payload.length minPayloadLength))
  else if payload.length > m.maxCoinbasePayloadLen then
    some (.error (.payloadLenAboveMax payload.length m.maxCoinbasePayloadLen))
  else do
    let (blueScore, remaining) ← take lengthOfBlueScore payload
    let (subsidy, remaining) ← take lengthOfSubsidy remaining
    let (version, remaining) ← take lengthOfScriptPubKeyVersion remaining
    let (length, remaining) ← take lengthOfScriptPubKeyLength remaining
    let scriptPubKeyLen := UInt8.ofNat (fromLeBytes length)
    if scriptPubKeyLen > m.coinbasePayloadScriptPublicKeyMaxLen then
      return .error (.payloadScriptPublicKeyLenAboveMax scriptPubKeyLen.toNat
        m.coinbasePayloadScriptPublicKeyMaxLen)
    if remaining.length < scriptPubKeyLen.toNat then
      return .error (.payloadCantContainScriptPublicKey payload.length
        (minPayloadLength + scriptPubKeyLen.toNat))
    let (script, extraData) ← take scriptPubKeyLen.toNat remaining
    return .ok
      { blueScore := UInt64.ofNat (fromLeBytes blueScore)
        subsidy := UInt64.ofNat (fromLeBytes subsidy)
        minerData := ⟨⟨UInt16.ofNat (fromLeBytes version), script⟩, extraData⟩ }

end PayloadLimits

end LapisMonetae.Coinbase
