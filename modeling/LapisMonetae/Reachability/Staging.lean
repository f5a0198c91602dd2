import LapisMonetae.Reachability.Store
import Mathlib.Data.List.Sort
import Mathlib.Data.Prod.Lex

/-!
# The reachability store in the database, and its staging area

The database keeps the data of a block under one key, and each of its two sets as a bucket with one
key for each element. Sets that were read are cached in order. Changes can be staged: the staging
area holds changed data, changed sets with their differences to the database, and deletions, and
writes them in one batch. The cache of single entries holds what the database holds and is left out.
-/

namespace LapisMonetae.Staging

open Reachability (Interval Result err fail unwrap ReachabilityError)
open Reachability.ReachabilityStore (splice)

structure ReachabilityData where
  parent : Hash
  interval : Interval
  height : ℕ
deriving DecidableEq

/-- The sets of a block: `children_access` or `fcs_access`. -/
inductive SetKind where
  | children
  | futureCovering
deriving DecidableEq

/-! ## The database -/

/-- The keys of the store in the database. -/
structure Db where
  data : AList fun _ : Hash => ReachabilityData
  /-- The elements of each bucket, in the order of their keys. -/
  sets : SetKind → Hash → List Hash
  reindexRoot : Option Hash

/-- One entry of a `WriteBatch`. -/
inductive DbWrite where
  | putData (hash : Hash) (data : ReachabilityData)
  | deleteData (hash : Hash)
  | put (kind : SetKind) (hash element : Hash)
  | delete (kind : SetKind) (hash element : Hash)
  | deleteBucket (kind : SetKind) (hash : Hash)
  | putReindexRoot (root : Hash)

namespace Db

def setBucket (db : Db) (kind : SetKind) (hash : Hash) (bucket : List Hash) : Db :=
  { db with sets := fun k h => if k = kind ∧ h = hash then bucket else db.sets k h }

/-- The effect of one write. -/
def apply (db : Db) : DbWrite → Db
  | .putData hash data => { db with data := db.data.insert hash data }
  | .deleteData hash => { db with data := db.data.erase hash }
  | .put kind hash element =>
    let bucket := db.sets kind hash
    db.setBucket kind hash
      (if element ∈ bucket then bucket else bucket.orderedInsert (· ≤ ·) element)
  | .delete kind hash element => db.setBucket kind hash ((db.sets kind hash).filter (· ≠ element))
  | .deleteBucket kind hash => db.setBucket kind hash []
  | .putReindexRoot root => { db with reindexRoot := some root }

/-- `DB::write`: the writes of a batch in order. -/
def write (db : Db) (batch : List DbWrite) : Db := batch.foldl apply db

def read (db : Db) (hash : Hash) : Result ReachabilityData :=
  match db.data.lookup hash with
  | some data => .ok data
  | none => err (.keyNotFound hash)

end Db

/-! ## Sets with a cache -/

/-- The derived order of intervals. -/
def intervalKey (interval : Interval) : ℕ ×ₗ ℕ := toLex (interval.start, interval.end_)

/-- `sort_by_cached_key`, which reads no key of a single element. -/
def sortByCachedKey (key : Hash → Result Interval) (set : List Hash) : Result (List Hash) :=
  if set.length < 2 then .ok set
  else do
    let keyed ← set.mapM fun hash => do return (intervalKey (← key hash), hash)
    return (keyed.insertionSort fun a b => a.1 ≤ b.1).map Prod.snd

/-- `Vec::insert` -/
def vecInsert (set : List Hash) (index : ℕ) (element : Hash) : Result (List Hash) :=
  if index ≤ set.length then .ok (set.insertIdx index element) else fail

/-- `Vec::splice` of the element at the index -/
def vecSplice (set : List Hash) (index : ℕ) (replaceWith : List Hash) : Result (List Hash) :=
  if index < set.length then .ok (splice set index replaceWith) else fail

structure StagingSetEntry where
  set : List Hash
  additions : List Hash
  deletions : List Hash

/-- `DbReachabilityStore`, with the caches of its two `DbReachabilitySet`s -/
structure DbReachabilityStore where
  db : Db
  caches : SetKind → Hash → Option (List Hash)

namespace DbReachabilityStore

def cacheSet (self : DbReachabilityStore) (kind : SetKind) (hash : Hash)
    (entry : Option (List Hash)) : DbReachabilityStore :=
  { self with caches := fun k h => if k = kind ∧ h = hash then entry else self.caches k h }

/-- Writes through a `DirectDbWriter` -/
def direct (self : DbReachabilityStore) (writes : List DbWrite) : DbReachabilityStore :=
  { self with db := self.db.write writes }

/-- The cached entry, if there is one, is changed along with the database. -/
def updateCached (self : DbReachabilityStore) (kind : SetKind) (hash : Hash)
    (change : List Hash → Result (List Hash)) : Result DbReachabilityStore :=
  match self.caches kind hash with
  | some entry => do return self.cacheSet kind hash (some (← change entry))
  | none => .ok self

/-- `DbReachabilitySet::append` -/
def appendToSet (self : DbReachabilityStore) (kind : SetKind) (hash element : Hash) :
    Result DbReachabilityStore := do
  let self ← self.updateCached kind hash fun entry => .ok (entry ++ [element])
  return self.direct [.put kind hash element]

/-- `DbReachabilitySet::insert` -/
def insertInSet (self : DbReachabilityStore) (kind : SetKind) (hash element : Hash)
    (insertionIndex : ℕ) : Result DbReachabilityStore := do
  let self ← self.updateCached kind hash fun entry => vecInsert entry insertionIndex element
  return self.direct [.put kind hash element]

/-- `DbReachabilitySet::replace`. The replaced element is checked in debug builds only. -/
def replaceInSet (self : DbReachabilityStore) (kind : SetKind) (hash replacedHash : Hash)
    (replacedIndex : ℕ) (replaceWith : List Hash) : Result DbReachabilityStore := do
  let self ← self.updateCached kind hash fun entry => vecSplice entry replacedIndex replaceWith
  return self.direct (.delete kind hash replacedHash :: replaceWith.map (.put kind hash))

def commitStagingEntry (self : DbReachabilityStore) (batch : List DbWrite) (kind : SetKind)
    (hash : Hash) (entry : StagingSetEntry) : DbReachabilityStore × List DbWrite :=
  (self.cacheSet kind hash (some entry.set),
    batch ++ entry.deletions.map (.delete kind hash) ++ entry.additions.map (.put kind hash))

/-- `DbReachabilitySet::delete` -/
def deleteSet (self : DbReachabilityStore) (batch : List DbWrite) (kind : SetKind) (hash : Hash) :
    DbReachabilityStore × List DbWrite :=
  (self.cacheSet kind hash none, batch ++ [.deleteBucket kind hash])

/-- `DbReachabilitySet::read`, ordered by the intervals: the set, and the store with its cache. -/
def readSet (self : DbReachabilityStore) (kind : SetKind) (hash : Hash) :
    Result (List Hash × DbReachabilityStore) :=
  match self.caches kind hash with
  | some entry => .ok (entry, self)
  | none => do
    let set ← sortByCachedKey (fun h => do return (← unwrap (self.db.read h)).interval)
      (self.db.sets kind hash)
    return (set, self.cacheSet kind hash (some set))

/-! ### `ReachabilityStore` and `ReachabilityStoreReader` -/

def has (self : DbReachabilityStore) (hash : Hash) : Bool := (self.db.data.lookup hash).isSome

def init (self : DbReachabilityStore) (origin : Hash) (capacity : Interval) :
    Result DbReachabilityStore :=
  if self.has origin then fail
  else .ok (self.direct [.putData origin ⟨BlockHash.none, capacity, 0⟩, .putReindexRoot origin])

def insert (self : DbReachabilityStore) (hash parent : Hash) (interval : Interval) (height : ℕ) :
    Result DbReachabilityStore :=
  if self.has hash then err (.hashAlreadyExists hash)
  else .ok (self.direct [.putData hash ⟨parent, interval, height⟩])

def setInterval (self : DbReachabilityStore) (hash : Hash) (interval : Interval) :
    Result DbReachabilityStore := do
  let data ← self.db.read hash
  return self.direct [.putData hash { data with interval }]

def setParent (self : DbReachabilityStore) (hash newParent : Hash) :
    Result DbReachabilityStore := do
  let data ← self.db.read hash
  return self.direct [.putData hash { data with parent := newParent }]

def appendChild (self : DbReachabilityStore) (hash child : Hash) : Result DbReachabilityStore :=
  self.appendToSet .children hash child

def insertFutureCoveringItem (self : DbReachabilityStore) (hash fci : Hash) (insertionIndex : ℕ) :
    Result DbReachabilityStore :=
  self.insertInSet .futureCovering hash fci insertionIndex

def replaceChild (self : DbReachabilityStore) (hash replacedHash : Hash) (replacedIndex : ℕ)
    (replaceWith : List Hash) : Result DbReachabilityStore :=
  self.replaceInSet .children hash replacedHash replacedIndex replaceWith

def replaceFutureCoveringItem (self : DbReachabilityStore) (hash replacedHash : Hash)
    (replacedIndex : ℕ) (replaceWith : List Hash) : Result DbReachabilityStore :=
  self.replaceInSet .futureCovering hash replacedHash replacedIndex replaceWith

/-- `delete`: the sets of the block stay. -/
def delete (self : DbReachabilityStore) (hash : Hash) : DbReachabilityStore :=
  self.direct [.deleteData hash]

def setReindexRoot (self : DbReachabilityStore) (root : Hash) : DbReachabilityStore :=
  self.direct [.putReindexRoot root]

def getInterval (self : DbReachabilityStore) (hash : Hash) : Result Interval := do
  return (← self.db.read hash).interval

def getParent (self : DbReachabilityStore) (hash : Hash) : Result Hash := do
  return (← self.db.read hash).parent

def getHeight (self : DbReachabilityStore) (hash : Hash) : Result ℕ := do
  return (← self.db.read hash).height

def getChildren (self : DbReachabilityStore) (hash : Hash) :
    Result (List Hash × DbReachabilityStore) :=
  self.readSet .children hash

def getFutureCoveringSet (self : DbReachabilityStore) (hash : Hash) :
    Result (List Hash × DbReachabilityStore) :=
  self.readSet .futureCovering hash

def getReindexRoot (self : DbReachabilityStore) : Result Hash :=
  match self.db.reindexRoot with
  | some root => .ok root
  | none => err (.keyNotFound BlockHash.none)

def count (self : DbReachabilityStore) : ℕ := self.db.data.entries.length

end DbReachabilityStore

/-! ## The staging area -/

namespace StagingSetEntry

def new (cachedSet : List Hash) : StagingSetEntry := ⟨cachedSet, [], []⟩

def markAddition (self : StagingSetEntry) (addition : Hash) : StagingSetEntry :=
  if addition ∈ self.deletions then
    { self with deletions := self.deletions.filter (· ≠ addition) }
  else { self with additions := self.additions.insert addition }

def markDeletion (self : StagingSetEntry) (deletion : Hash) : StagingSetEntry :=
  if deletion ∈ self.additions then
    { self with additions := self.additions.filter (· ≠ deletion) }
  else { self with deletions := self.deletions.insert deletion }

def append (self : StagingSetEntry) (element : Hash) : Result StagingSetEntry :=
  .ok ({ self with set := self.set ++ [element] }.markAddition element)

def insert (self : StagingSetEntry) (element : Hash) (insertionIndex : ℕ) :
    Result StagingSetEntry := do
  let set ← vecInsert self.set insertionIndex element
  return { self with set }.markAddition element

def replace (self : StagingSetEntry) (replacedHash : Hash) (replacedIndex : ℕ)
    (replaceWith : List Hash) : Result StagingSetEntry := do
  let set ← vecSplice self.set replacedIndex replaceWith
  return replaceWith.foldl markAddition ({ self with set }.markDeletion replacedHash)

end StagingSetEntry

structure StagingReachabilityStore where
  storeRead : DbReachabilityStore
  writes : AList fun _ : Hash => ReachabilityData
  /-- `staging_children` and `staging_fcs` -/
  sets : SetKind → AList fun _ : Hash => StagingSetEntry
  deletions : List Hash
  reindexRoot : Option Hash

namespace StagingReachabilityStore

def new (storeRead : DbReachabilityStore) : StagingReachabilityStore :=
  ⟨storeRead, ∅, fun _ => ∅, [], none⟩

def checkNotInDeletions (self : StagingReachabilityStore) (hash : Hash) : Result Unit :=
  if hash ∈ self.deletions then err (.keyNotFound hash) else .ok ()

/-- The data of a block that is not deleted. -/
def read (self : StagingReachabilityStore) (hash : Hash) : Result ReachabilityData :=
  match self.writes.lookup hash with
  | some data => .ok data
  | none => self.storeRead.db.read hash

def stageSet (self : StagingReachabilityStore) (kind : SetKind) (hash : Hash)
    (entry : StagingSetEntry) : StagingReachabilityStore :=
  { self with
    sets := fun k => if k = kind then (self.sets k).insert hash entry else self.sets k }

/-- The staged entry of a set, or a new one from the store, is changed. -/
def changeSet (self : StagingReachabilityStore) (kind : SetKind) (hash : Hash)
    (change : StagingSetEntry → Result StagingSetEntry) : Result StagingReachabilityStore :=
  match (self.sets kind).lookup hash with
  | some entry => do return self.stageSet kind hash (← change entry)
  | none => do
    let (set, storeRead) ← self.storeRead.readSet kind hash
    let entry ← change (.new set)
    return { self with storeRead }.stageSet kind hash entry

/-! ### `ReachabilityStore` and `ReachabilityStoreReader` -/

def insert (self : StagingReachabilityStore) (hash parent : Hash) (interval : Interval)
    (height : ℕ) : Result StagingReachabilityStore :=
  if self.storeRead.has hash then err (.hashAlreadyExists hash)
  else
    match self.writes.lookup hash with
    | none => .ok { self with writes := self.writes.insert hash ⟨parent, interval, height⟩ }
    | some _ => err (.hashAlreadyExists hash)

def setReindexRoot (self : StagingReachabilityStore) (root : Hash) : StagingReachabilityStore :=
  { self with reindexRoot := some root }

def init (self : StagingReachabilityStore) (origin : Hash) (capacity : Interval) :
    Result StagingReachabilityStore := do
  return (← self.insert origin BlockHash.none capacity 0).setReindexRoot origin

def setInterval (self : StagingReachabilityStore) (hash : Hash) (interval : Interval) :
    Result StagingReachabilityStore := do
  let data ← self.read hash
  return { self with writes := self.writes.insert hash { data with interval } }

def setParent (self : StagingReachabilityStore) (hash newParent : Hash) :
    Result StagingReachabilityStore := do
  let data ← self.read hash
  return { self with writes := self.writes.insert hash { data with parent := newParent } }

def appendChild (self : StagingReachabilityStore) (hash child : Hash) :
    Result StagingReachabilityStore :=
  self.changeSet .children hash (·.append child)

def insertFutureCoveringItem (self : StagingReachabilityStore) (hash fci : Hash)
    (insertionIndex : ℕ) : Result StagingReachabilityStore :=
  self.changeSet .futureCovering hash (·.insert fci insertionIndex)

def replaceChild (self : StagingReachabilityStore) (hash replacedHash : Hash) (replacedIndex : ℕ)
    (replaceWith : List Hash) : Result StagingReachabilityStore :=
  self.changeSet .children hash (·.replace replacedHash replacedIndex replaceWith)

def replaceFutureCoveringItem (self : StagingReachabilityStore) (hash replacedHash : Hash)
    (replacedIndex : ℕ) (replaceWith : List Hash) : Result StagingReachabilityStore :=
  self.changeSet .futureCovering hash (·.replace replacedHash replacedIndex replaceWith)

def delete (self : StagingReachabilityStore) (hash : Hash) : StagingReachabilityStore :=
  { self with writes := self.writes.erase hash, deletions := self.deletions.insert hash }

def has (self : StagingReachabilityStore) (hash : Hash) : Bool :=
  if hash ∈ self.deletions then false
  else (self.writes.lookup hash).isSome || self.storeRead.has hash

def getInterval (self : StagingReachabilityStore) (hash : Hash) : Result Interval := do
  self.checkNotInDeletions hash
  return (← self.read hash).interval

def getParent (self : StagingReachabilityStore) (hash : Hash) : Result Hash := do
  self.checkNotInDeletions hash
  return (← self.read hash).parent

def getHeight (self : StagingReachabilityStore) (hash : Hash) : Result ℕ := do
  self.checkNotInDeletions hash
  return (← self.read hash).height

/-- A staged set, or else the set of the store. -/
def readSet (self : StagingReachabilityStore) (kind : SetKind) (hash : Hash) :
    Result (List Hash × StagingReachabilityStore) := do
  self.checkNotInDeletions hash
  match (self.sets kind).lookup hash with
  | some entry => return (entry.set, self)
  | none =>
    let (set, storeRead) ← self.storeRead.readSet kind hash
    return (set, { self with storeRead })

def getChildren (self : StagingReachabilityStore) (hash : Hash) :
    Result (List Hash × StagingReachabilityStore) :=
  self.readSet .children hash

def getFutureCoveringSet (self : StagingReachabilityStore) (hash : Hash) :
    Result (List Hash × StagingReachabilityStore) :=
  self.readSet .futureCovering hash

def getReindexRoot (self : StagingReachabilityStore) : Result Hash :=
  match self.reindexRoot with
  | some root => .ok root
  | none => self.storeRead.getReindexRoot

def count (self : StagingReachabilityStore) : ℕ :=
  ((self.storeRead.db.data.keys ++ self.writes.keys).dedup.filter (· ∉ self.deletions)).length

/-! ### `commit` -/

/-- The staged entries of one of the two maps. -/
def commitSets (self : StagingReachabilityStore) (kind : SetKind)
    (state : DbReachabilityStore × List DbWrite) : DbReachabilityStore × List DbWrite :=
  (self.sets kind).entries.foldl
    (fun state entry => state.1.commitStagingEntry state.2 kind entry.1 entry.2) state

/-- `commit`: the store with its caches, and the batch. -/
def commit (self : StagingReachabilityStore) (batch : List DbWrite) :
    DbReachabilityStore × List DbWrite :=
  let batch := batch ++ self.writes.entries.map fun entry => .putData entry.1 entry.2
  let state := self.commitSets .children (self.storeRead, batch)
  let state := self.commitSets .futureCovering state
  -- deletions always come after mutations
  let state := (state.1, state.2 ++ self.deletions.map .deleteData)
  let state := self.deletions.foldl
    (fun state hash =>
      let state := state.1.deleteSet state.2 .children hash
      state.1.deleteSet state.2 .futureCovering hash) state
  match self.reindexRoot with
  | some root => (state.1, state.2 ++ [.putReindexRoot root])
  | none => state

/-- The store after the batch of a commit is written. -/
def committed (self : StagingReachabilityStore) : DbReachabilityStore :=
  let (store, batch) := self.commit []
  store.direct batch

end StagingReachabilityStore

/-! ## Operations -/

/-- The writing calls of the trait `ReachabilityStore`. -/
inductive Op where
  | init (origin : Hash) (capacity : Interval)
  | insert (hash parent : Hash) (interval : Interval) (height : ℕ)
  | setInterval (hash : Hash) (interval : Interval)
  | setParent (hash newParent : Hash)
  | appendChild (hash child : Hash)
  | insertFutureCoveringItem (hash fci : Hash) (insertionIndex : ℕ)
  | replaceChild (hash replacedHash : Hash) (replacedIndex : ℕ) (replaceWith : List Hash)
  | replaceFutureCoveringItem (hash replacedHash : Hash) (replacedIndex : ℕ)
      (replaceWith : List Hash)
  | delete (hash : Hash)
  | setReindexRoot (root : Hash)

namespace Op

/-- The call on the store. -/
def onStore (self : DbReachabilityStore) : Op → Result DbReachabilityStore
  | init origin capacity => self.init origin capacity
  | insert hash parent interval height => self.insert hash parent interval height
  | setInterval hash interval => self.setInterval hash interval
  | setParent hash newParent => self.setParent hash newParent
  | appendChild hash child => self.appendChild hash child
  | insertFutureCoveringItem hash fci index => self.insertFutureCoveringItem hash fci index
  | replaceChild hash replaced index replaceWith => self.replaceChild hash replaced index replaceWith
  | replaceFutureCoveringItem hash replaced index replaceWith =>
    self.replaceFutureCoveringItem hash replaced index replaceWith
  | delete hash => .ok (self.delete hash)
  | setReindexRoot root => .ok (self.setReindexRoot root)

/-- The call on the staging area. -/
def onStaging (self : StagingReachabilityStore) : Op → Result StagingReachabilityStore
  | init origin capacity => self.init origin capacity
  | insert hash parent interval height => self.insert hash parent interval height
  | setInterval hash interval => self.setInterval hash interval
  | setParent hash newParent => self.setParent hash newParent
  | appendChild hash child => self.appendChild hash child
  | insertFutureCoveringItem hash fci index => self.insertFutureCoveringItem hash fci index
  | replaceChild hash replaced index replaceWith => self.replaceChild hash replaced index replaceWith
  | replaceFutureCoveringItem hash replaced index replaceWith =>
    self.replaceFutureCoveringItem hash replaced index replaceWith
  | delete hash => .ok (self.delete hash)
  | setReindexRoot root => .ok (self.setReindexRoot root)

end Op

/-! ## Runs -/

/-- The state after a call, which a returned error leaves as it was, and the error. -/
def attempt {S : Type} (state : S) : Result S → Result (S × Option ReachabilityError)
  | .ok state => .ok (state, none)
  | .error (.error e) => .ok (state, some e)
  | .error failure => .error failure

/-- What happens to a store: the call of an operation, a read that fills the cache, or an eviction of all but
some entries of the caches. -/
inductive Event where
  | call (op : Op)
  | readSet (kind : SetKind) (hash : Hash)
  | evict (keep : SetKind → Hash → Bool)

/-- The caches of the store keep the given entries only. -/
def DbReachabilityStore.evict (self : DbReachabilityStore) (keep : SetKind → Hash → Bool) :
    DbReachabilityStore :=
  { self with caches := fun k h => if keep k h then self.caches k h else none }

namespace Event

/-- The event on the store, with the errors that were returned so far. -/
def onStore (state : DbReachabilityStore × List (Option ReachabilityError)) :
    Event → Result (DbReachabilityStore × List (Option ReachabilityError))
  | call op => do
    let (self, error) ← attempt state.1 (op.onStore state.1)
    return (self, state.2 ++ [error])
  | readSet kind hash => do return ((← state.1.readSet kind hash).2, state.2)
  | evict keep => .ok (state.1.evict keep, state.2)

/-- The event on the staging area, with the errors that were returned so far. A read of a deleted
block returns an error and changes nothing. -/
def onStaging (state : StagingReachabilityStore × List (Option ReachabilityError)) :
    Event → Result (StagingReachabilityStore × List (Option ReachabilityError))
  | call op => do
    let (self, error) ← attempt state.1 (op.onStaging state.1)
    return (self, state.2 ++ [error])
  | readSet kind hash => do
    let (self, _) ← attempt state.1 ((state.1.readSet kind hash).map Prod.snd)
    return (self, state.2)
  | evict keep => .ok ({ state.1 with storeRead := state.1.storeRead.evict keep }, state.2)

/-- The operations among the events. -/
def op? : Event → Option Op
  | call op => some op
  | _ => none

end Event

/-- The events on the store, one after another. -/
def runStore (self : DbReachabilityStore) (events : List Event) :
    Result (DbReachabilityStore × List (Option ReachabilityError)) :=
  events.foldlM Event.onStore (self, [])

/-- The events on a new staging area of the store, one after another. -/
def runStaging (self : DbReachabilityStore) (events : List Event) :
    Result (StagingReachabilityStore × List (Option ReachabilityError)) :=
  events.foldlM Event.onStaging (StagingReachabilityStore.new self, [])

end LapisMonetae.Staging
