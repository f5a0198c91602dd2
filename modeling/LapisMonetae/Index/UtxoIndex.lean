import LapisMonetae.Coinbase.Subsidy
import LapisMonetae.Lib.AssocMap
import LapisMonetae.Lib.LittleEndian
import LapisMonetae.Lib.Program
import LapisMonetae.Utxo.Diff
import Mathlib.Data.List.Lex
import Mathlib.Data.List.Sort

/-!
# The UTXO index

The index of the UTXO set by script public key. Its entries live in one flat key space: a key is
the script public key (the bucket) followed by the outpoint, and a query scans the keys that start
with a bucket. The index is filled from the consensus set page by page and then follows the
changes of the virtual state.

The database is a map, and what it holds is what was written last. Its caches and its I/O errors
are left out, so that the only error of a store is a missing item; `none` is a panic.
-/

namespace LapisMonetae.Index

open Utxo AssocMap LittleEndian

/-! ## Integers -/

/-- `as i64`, of a `u64`. -/
def asI64 (n : ℕ) : ℤ := if n < 2 ^ 63 then n else n - 2 ^ 64

/-- `as u64`, of an `i64`. -/
def asU64 (n : ℤ) : ℕ := (n % 2 ^ 64).toNat

def saturatingAddSigned (n : ℕ) (delta : ℤ) : ℕ := min (n + delta).toNat u64Max

/-! ## Compact entries -/

/-- `CompactUtxoEntry`: an entry without its script public key. -/
structure CompactUtxoEntry where
  amount : ℕ
  blockDaaScore : ℕ
  isCoinbase : Bool
deriving DecidableEq, Repr

def CompactUtxoEntry.from (entry : UtxoEntry) : CompactUtxoEntry :=
  ⟨entry.amount, entry.blockDaaScore, entry.isCoinbase⟩

abbrev CompactUtxoCollection := AList fun _ : TransactionOutpoint => CompactUtxoEntry

abbrev UtxoSetByScriptPublicKey := Nested ScriptPublicKey TransactionOutpoint CompactUtxoEntry

abbrev BalanceByScriptPublicKey := AList fun _ : ScriptPublicKey => ℕ

/-- An outpoint with its entry. -/
abbrev IndexedUtxo := Sigma fun _ : TransactionOutpoint => UtxoEntry

/-! ## The update container -/

structure UtxoChanges where
  added : UtxoSetByScriptPublicKey
  removed : UtxoSetByScriptPublicKey

structure UtxoIndexChanges where
  utxoChanges : UtxoChanges
  supplyChange : ℤ
  tips : List Hash

namespace UtxoIndexChanges

def new : UtxoIndexChanges := ⟨⟨∅, ∅⟩, 0, []⟩

/-- The body of the loops over added entries. -/
def addUtxo (self : UtxoIndexChanges) (utxo : IndexedUtxo) : Option UtxoIndexChanges := do
  let supplyChange ← checkedI64 (self.supplyChange + asI64 utxo.2.amount)
  let added := self.utxoChanges.added.insertInto utxo.2.scriptPublicKey utxo.1 (.from utxo.2)
  return { self with supplyChange, utxoChanges := { self.utxoChanges with added } }

/-- The body of the loop over removed entries. -/
def removeUtxo (self : UtxoIndexChanges) (utxo : IndexedUtxo) : Option UtxoIndexChanges := do
  let supplyChange ← checkedI64 (self.supplyChange - asI64 utxo.2.amount)
  let removed := self.utxoChanges.removed.insertInto utxo.2.scriptPublicKey utxo.1 (.from utxo.2)
  return { self with supplyChange, utxoChanges := { self.utxoChanges with removed } }

def addUtxosFromVector (self : UtxoIndexChanges) (utxoVector : List IndexedUtxo) :
    Option UtxoIndexChanges :=
  utxoVector.foldlM addUtxo self

def updateUtxoDiff (self : UtxoIndexChanges) (utxoDiff : UtxoDiff) : Option UtxoIndexChanges := do
  let self ← utxoDiff.add.entries.foldlM addUtxo self
  utxoDiff.remove.entries.foldlM removeUtxo self

def setTips (self : UtxoIndexChanges) (tips : List Hash) : UtxoIndexChanges :=
  { self with tips := tips.dedup }

end UtxoIndexChanges

/-! ## Keys -/

def hashSize : ℕ := 32

def transactionOutpointKeySize : ℕ := hashSize + 4

/-- The bytes of a hash. -/
def hashBytes (hash : Hash) : List UInt8 := (toLeBytes hashSize hash).reverse

/-- `Hash::from_slice`. -/
def hashFromSlice (bytes : List UInt8) : Hash := fromLeBytes bytes.reverse

/-- `ScriptPublicKeyBucket::from`. -/
def scriptPublicKeyBucket (scriptPublicKey : ScriptPublicKey) : List UInt8 :=
  toLeBytes 2 scriptPublicKey.version.toNat ++
    (toLeBytes 8 scriptPublicKey.script.length ++ scriptPublicKey.script)

/-- `TransactionOutpointKey::from`. -/
def transactionOutpointKey (outpoint : TransactionOutpoint) : List UInt8 :=
  hashBytes outpoint.transactionId ++ toLeBytes 4 outpoint.index

/-- `TransactionOutpoint::from`, of the bytes of an outpoint key. Bytes of another length panic. -/
def outpointOfKey (key : List UInt8) : Option TransactionOutpoint :=
  if key.length = transactionOutpointKeySize then
    some ⟨hashFromSlice (key.take hashSize), fromLeBytes (key.drop hashSize)⟩
  else
    none

/-- `UtxoEntryFullAccessKey::new`. -/
def utxoEntryFullAccessKey (scriptPublicKey : ScriptPublicKey) (outpoint : TransactionOutpoint) :
    List UInt8 :=
  scriptPublicKeyBucket scriptPublicKey ++ transactionOutpointKey outpoint

/-! ## The store -/

/-- The entries of the index by their full access keys. -/
abbrev IndexedUtxos := AList fun _ : List UInt8 => CompactUtxoEntry

namespace IndexedUtxos

def removeUtxoEntries (self : IndexedUtxos) (utxoEntries : UtxoSetByScriptPublicKey) :
    IndexedUtxos :=
  (utxoEntries.rows.map fun row => utxoEntryFullAccessKey row.1 row.2.1).foldl
    (fun self key => self.erase key) self

def addUtxoEntries (self : IndexedUtxos) (utxoEntries : UtxoSetByScriptPublicKey) :
    IndexedUtxos :=
  (utxoEntries.rows.map fun row =>
      (⟨utxoEntryFullAccessKey row.1 row.2.1, row.2.2⟩ : Sigma fun _ : List UInt8 =>
        CompactUtxoEntry)).foldl
    (fun self row => self.insert row.1 row.2) self

/-- `seek_iterator` over a bucket: the entries whose key starts with the bucket, under the rest of
their key. -/
def seekBucket (self : IndexedUtxos) (bucket : List UInt8) :
    List (List UInt8 × CompactUtxoEntry) :=
  (self.entries.filter fun row => bucket.isPrefixOf row.1).map fun row =>
    (row.1.drop bucket.length, row.2)

/-- The entries of one script public key. -/
def compactUtxos (self : IndexedUtxos) (scriptPublicKey : ScriptPublicKey) :
    Option CompactUtxoCollection :=
  (self.seekBucket (scriptPublicKeyBucket scriptPublicKey)).foldlM (fun utxos row => do
    return utxos.insert (← outpointOfKey row.1) row.2) ∅

def getUtxosFromScriptPublicKeys (self : IndexedUtxos) (scriptPublicKeys : List ScriptPublicKey) :
    Option UtxoSetByScriptPublicKey :=
  scriptPublicKeys.foldlM (fun utxos scriptPublicKey => do
    return utxos.insert scriptPublicKey (← self.compactUtxos scriptPublicKey)) ∅

/-- The balance of one script public key. -/
def balance (self : IndexedUtxos) (scriptPublicKey : ScriptPublicKey) : Option ℕ :=
  (self.seekBucket (scriptPublicKeyBucket scriptPublicKey)).foldlM
    (fun balance row => checkedAdd balance row.2.amount) 0

def getBalanceFromScriptPublicKeys (self : IndexedUtxos)
    (scriptPublicKeys : List ScriptPublicKey) : Option BalanceByScriptPublicKey :=
  scriptPublicKeys.foldlM (fun balances scriptPublicKey => do
    return balances.insert scriptPublicKey (← self.balance scriptPublicKey)) ∅

end IndexedUtxos

inductive StoreError
  | keyNotFound
deriving DecidableEq, Repr

/-- `Store`: the three stores of the index. -/
structure Store where
  tips : Option (List Hash)
  circulatingSupply : Option ℕ
  utxos : IndexedUtxos

namespace Store

/-- `update_utxo_state`: first the removals, then the additions. -/
def updateUtxoState (self : Store) (toAdd toRemove : UtxoSetByScriptPublicKey) : Store :=
  { self with utxos := (self.utxos.removeUtxoEntries toRemove).addUtxoEntries toAdd }

def updateCirculatingSupply (supplyDelta : ℤ) : Program Store StoreError ℕ := do
  match (← get).circulatingSupply with
  | none => throw .keyNotFound
  | some circulatingSupply =>
    if supplyDelta = 0 then
      return circulatingSupply
    else do
      let updated := saturatingAddSigned circulatingSupply supplyDelta
      modify fun self => { self with circulatingSupply := some updated }
      return updated

def deleteAll : Store := ⟨none, none, ∅⟩

end Store

/-! ## The consensus set -/

/-- The position of the last byte that is not zero. -/
def rpositionNonZero (bytes : List UInt8) : Option ℕ :=
  (bytes.reverse.findIdx? (· != 0)).map fun i => bytes.length - 1 - i

/-- `UtxoKey::from` and `as_ref`: the bytes of an outpoint without the trailing zeros of its
index. -/
def utxoKey (outpoint : TransactionOutpoint) : List UInt8 :=
  let index := toLeBytes 4 outpoint.index
  hashBytes outpoint.transactionId ++ index.take ((rpositionNonZero index).getD 0 + 1)

/-- `UtxoKey::try_from`, whose failure panics, and `TransactionOutpoint::from`: the bytes are padded
with zeros. -/
def outpointOfUtxoKey (bytes : List UInt8) : Option TransactionOutpoint :=
  if transactionOutpointKeySize < bytes.length ∨ bytes.length < hashSize + 1 then
    none
  else
    outpointOfKey (bytes ++ List.replicate (transactionOutpointKeySize - bytes.length) 0)

/-- The database order of the UTXO set: by the bytes of the keys. -/
def keyOrder (outpoint : TransactionOutpoint) : List ℕ := (utxoKey outpoint).map UInt8.toNat

/-- What the index reads from consensus. -/
structure Consensus where
  utxoSet : UtxoCollection
  virtualParents : List Hash

/-- The UTXO set in the order of the database. -/
def Consensus.sortedUtxos (self : Consensus) : List IndexedUtxo :=
  self.utxoSet.entries.insertionSort fun a b => keyOrder a.1 ≤ keyOrder b.1

def Consensus.getVirtualUtxos (self : Consensus) (fromOutpoint : Option TransactionOutpoint)
    (chunkSize : ℕ) (skipFirst : Bool) : Option (List IndexedUtxo) :=
  let sought : List IndexedUtxo := match fromOutpoint with
    | some outpoint => self.sortedUtxos.dropWhile fun utxo =>
      decide (keyOrder utxo.1 < keyOrder outpoint)
    | none => self.sortedUtxos
  ((if skipFirst then sought.drop 1 else sought).take chunkSize).mapM fun utxo => do
    return ⟨← outpointOfUtxoKey (utxoKey utxo.1), utxo.2⟩

/-! ## The index -/

def resyncChunkSize : ℕ := 2048

structure UtxoIndex where
  store : Store
  monotonicCirculatingSupply : ℕ

namespace UtxoIndex

/-- A program on the store of the index. -/
def onStore {α : Type} (p : Program Store StoreError α) : Program UtxoIndex StoreError α :=
  p.zoom (fun index => index.store) fun index store => { index with store }

def getUtxosByScriptPublicKeys (self : UtxoIndex) (scriptPublicKeys : List ScriptPublicKey) :
    Option UtxoSetByScriptPublicKey :=
  self.store.utxos.getUtxosFromScriptPublicKeys scriptPublicKeys

def getBalanceByScriptPublicKeys (self : UtxoIndex) (scriptPublicKeys : List ScriptPublicKey) :
    Option BalanceByScriptPublicKey :=
  self.store.utxos.getBalanceFromScriptPublicKeys scriptPublicKeys

def update (utxoDiff : UtxoDiff) (tips : List Hash) :
    Program UtxoIndex StoreError UtxoChanges := do
  let changes ← Program.unwrap (UtxoIndexChanges.new.updateUtxoDiff utxoDiff)
  let changes := changes.setTips tips
  onStore (modify fun store =>
    store.updateUtxoState changes.utxoChanges.added changes.utxoChanges.removed)
  let updated ← onStore (Store.updateCirculatingSupply changes.supplyChange)
  modify fun index => { index with
    monotonicCirculatingSupply := max index.monotonicCirculatingSupply updated }
  onStore (modify fun store => { store with tips := some changes.tips })
  return changes.utxoChanges

/-- The loop of `resync` over the pages of the consensus set; it returns the supply. -/
def resyncLoop (consensus : Consensus) : ℕ → List IndexedUtxo → ℕ → Program UtxoIndex StoreError ℕ
  | 0, _, _ => Program.unwrap none
  | fuel + 1, virtualUtxoBatch, circulatingSupply =>
    if virtualUtxoBatch.length = 0 then
      return circulatingSupply
    else do
      let last ← Program.unwrap virtualUtxoBatch.getLast?
      let changes ← Program.unwrap (UtxoIndexChanges.new.addUtxosFromVector virtualUtxoBatch)
      let circulatingSupply ←
        Program.unwrap (checkedAdd circulatingSupply (asU64 changes.supplyChange))
      onStore (modify fun store =>
        store.updateUtxoState changes.utxoChanges.added changes.utxoChanges.removed)
      if virtualUtxoBatch.length < resyncChunkSize then
        return circulatingSupply
      else do
        let virtualUtxoBatch ←
          Program.unwrap (consensus.getVirtualUtxos (some last.1) resyncChunkSize true)
        resyncLoop consensus fuel virtualUtxoBatch circulatingSupply

def resync (fuel : ℕ) (consensus : Consensus) : Program UtxoIndex StoreError Unit := do
  onStore (modify fun _ => Store.deleteAll)
  let virtualUtxoBatch ← Program.unwrap (consensus.getVirtualUtxos none resyncChunkSize false)
  let circulatingSupply ← resyncLoop consensus fuel virtualUtxoBatch 0
  onStore (modify fun store => { store with circulatingSupply := some circulatingSupply })
  modify fun index => { index with monotonicCirculatingSupply := circulatingSupply }
  onStore (modify fun store => { store with tips := some consensus.virtualParents })

end UtxoIndex

end LapisMonetae.Index
