import LapisMonetae.Lib.AssocMap
import LapisMonetae.Params
import Mathlib.Data.List.AList

/-!
# UTXO collections

Outpoints, UTXO entries and `UtxoCollection`, the hash map between them, with the set algebra
that takes the DAA score of an entry into account. A collection is an `AList`, whose entry list
stands for the iteration order of the hash map.
-/

namespace LapisMonetae.Utxo

/-- A transaction outpoint. -/
structure TransactionOutpoint where
  transactionId : Hash
  index : ℕ
deriving DecidableEq, Repr

/-- A script public key: its version and its bytes. -/
structure ScriptPublicKey where
  version : UInt16
  script : List UInt8
deriving DecidableEq, Repr

/-- A UTXO entry. -/
structure UtxoEntry where
  amount : ℕ
  scriptPublicKey : ScriptPublicKey
  blockDaaScore : ℕ
  isCoinbase : Bool
deriving DecidableEq, Repr

/-- A hash map from outpoints to entries. -/
abbrev UtxoCollection := AList (fun _ : TransactionOutpoint => UtxoEntry)

namespace UtxoCollection

/-- Checks if the `outpoint` key exists with an entry that holds
`entry.blockDaaScore = daaScore`. -/
def containsWithDaaScore (self : UtxoCollection) (outpoint : TransactionOutpoint)
    (daaScore : ℕ) : Bool :=
  match self.lookup outpoint with
  | some entry => entry.blockDaaScore == daaScore
  | none => false

/-- Adds all entries from `other` to `self`; values from `other` override values of `self`. -/
def addCollection (self other : UtxoCollection) : UtxoCollection :=
  other.entries.foldl (fun self s => self.insert s.1 s.2) self

/-- Removes all keys of `other` from `self`. -/
def removeCollection (self other : UtxoCollection) : UtxoCollection :=
  other.entries.foldl (fun self s => self.erase s.1) self

/-- Whether the two collections have a key in common. The loop runs over the smaller one. -/
def intersects (self other : UtxoCollection) : Bool :=
  if self.entries.length ≤ other.entries.length then
    self.entries.any fun s => (other.lookup s.1).isSome
  else
    other.entries.any fun s => (self.lookup s.1).isSome

/-- The first common outpoint whose two entries satisfy `rule`. The loop runs over the smaller
collection; the rule always gets the entry of `self` first. -/
def intersectsWithRule (self other : UtxoCollection)
    (rule : TransactionOutpoint → UtxoEntry → UtxoEntry → Bool) : Option TransactionOutpoint :=
  if self.entries.length ≤ other.entries.length then
    self.entries.findSome? fun s =>
      match other.lookup s.1 with
      | some v2 => if rule s.1 s.2 v2 then some s.1 else none
      | none => none
  else
    other.entries.findSome? fun s =>
      match self.lookup s.1 with
      | some v1 => if rule s.1 v1 s.2 then some s.1 else none
      | none => none

/-! ## Set algebra with the DAA score dimension -/

/-- `result ∪ (this ∩ other)` and `remainder ∪ (this ∖ other)`. -/
def intersectionWithRemainderHavingDaaScoreInPlace
    (this other result remainder : UtxoCollection) : UtxoCollection × UtxoCollection :=
  this.entries.foldl (fun acc s =>
    if other.containsWithDaaScore s.1 s.2.blockDaaScore then
      (acc.1.insert s.1 s.2, acc.2)
    else
      (acc.1, acc.2.insert s.1 s.2)) (result, remainder)

/-- `result ∪ (this ∖ other)`. -/
def subtractionHavingDaaScoreInPlace (this other result : UtxoCollection) : UtxoCollection :=
  this.entries.foldl (fun result s =>
    if !other.containsWithDaaScore s.1 s.2.blockDaaScore then
      result.insert s.1 s.2
    else
      result) result

/-- `result ∪ (this ∖ other)` and `remainder ∪ (this ∩ other)`. -/
def subtractionWithRemainderHavingDaaScoreInPlace
    (this other result remainder : UtxoCollection) : UtxoCollection × UtxoCollection :=
  this.entries.foldl (fun acc s =>
    if !other.containsWithDaaScore s.1 s.2.blockDaaScore then
      (acc.1.insert s.1 s.2, acc.2)
    else
      (acc.1, acc.2.insert s.1 s.2)) (result, remainder)

/-! ## Lookups

What each operation does to the entry of one outpoint. The diff theorems work with these pointwise
facts only, so they hold for every iteration order of the hash maps. -/

open AssocMap

variable {self other this result remainder : UtxoCollection} {p : TransactionOutpoint}

/-- `containsWithDaaScore`, as a statement about the looked-up entry. -/
lemma containsWithDaaScore_iff {daaScore : ℕ} : self.containsWithDaaScore p daaScore = true ↔
      ∃ e, self.lookup p = some e ∧ e.blockDaaScore = daaScore := by
  unfold containsWithDaaScore
  cases h : self.lookup p with
  | none => simp
  | some e => simp

lemma lookup_addCollection :
    (addCollection self other).lookup p = (other.lookup p).or (self.lookup p) := by
  unfold addCollection
  rw [foldl_observe (fun m : UtxoCollection => m.lookup p) p (fun v _ => some v)]
  · cases other.lookup p <;> rfl
  · intro acc s hs
    exact AList.lookup_insert_ne (Ne.symm hs)
  · intro acc v
    exact AList.lookup_insert acc

lemma lookup_removeCollection : (removeCollection self other).lookup p =
      if (other.lookup p).isSome then none else self.lookup p := by
  unfold removeCollection
  rw [foldl_observe (fun m : UtxoCollection => m.lookup p) p (fun _ _ => none)]
  · cases other.lookup p <;> rfl
  · intro acc s hs
    exact AList.lookup_erase_ne (Ne.symm hs)
  · intro acc v
    exact AList.lookup_erase p acc

lemma intersects_iff : self.intersects other = true ↔
      ∃ p, (self.lookup p).isSome ∧ (other.lookup p).isSome := by
  have key : ∀ a b : UtxoCollection, (a.entries.any fun s => (b.lookup s.1).isSome) = true ↔
      ∃ p, (a.lookup p).isSome ∧ (b.lookup p).isSome := by
    intro a b
    rw [List.any_eq_true]
    constructor
    · rintro ⟨⟨k, v⟩, hs, hb⟩
      exact ⟨k, Option.isSome_iff_exists.mpr ⟨v, AList.mem_lookup_iff.mpr hs⟩, hb⟩
    · rintro ⟨k, ha, hb⟩
      obtain ⟨v, hv⟩ := Option.isSome_iff_exists.mp ha
      exact ⟨⟨k, v⟩, AList.mem_lookup_iff.mp hv, hb⟩
  unfold intersects
  split
  · exact key self other
  · rw [key other self]
    simp only [and_comm]

/-- No outpoint is reported exactly when the rule rejects every common outpoint. -/
lemma intersectsWithRule_eq_none_iff {rule : TransactionOutpoint → UtxoEntry → UtxoEntry → Bool} :
    self.intersectsWithRule other rule = none ↔
      ∀ p v1 v2, self.lookup p = some v1 → other.lookup p = some v2 → rule p v1 v2 = false := by
  unfold intersectsWithRule
  split
  · rw [List.findSome?_eq_none_iff, forall_mem_entries]
    refine forall_congr' fun p => ⟨fun h v1 v2 h1 h2 => ?_, fun h v1 h1 => ?_⟩
    · have := h v1 h1
      rw [h2] at this
      simpa using this
    · cases h2 : other.lookup p with
      | none => rfl
      | some v2 => simp [h v1 v2 h1 h2]
  · rw [List.findSome?_eq_none_iff, forall_mem_entries]
    refine forall_congr' fun p => ⟨fun h v1 v2 h1 h2 => ?_, fun h v2 h2 => ?_⟩
    · have := h v2 h2
      rw [h1] at this
      simpa using this
    · cases h1 : self.lookup p with
      | none => rfl
      | some v1 => simp [h v1 v2 h1 h2]

/-! ## Set algebra with the DAA score dimension -/

/-- The entry `x`, if `y` is an entry with the same DAA score. -/
def shared (x y : Option UtxoEntry) : Option UtxoEntry :=
  match x, y with
  | some e, some e' => if e'.blockDaaScore = e.blockDaaScore then some e else none
  | _, _ => none

/-- The entry `x`, unless `y` is an entry with the same DAA score. -/
def unshared (x y : Option UtxoEntry) : Option UtxoEntry :=
  match x, y with
  | some e, some e' => if e'.blockDaaScore = e.blockDaaScore then none else some e
  | some e, none => some e
  | none, _ => none

/-- Keeping the entries held by `other` with the same score. -/
lemma keepIf_contains : keepIf this (fun s => other.containsWithDaaScore s.1 s.2.blockDaaScore) p =
      shared (this.lookup p) (other.lookup p) := by
  unfold keepIf containsWithDaaScore shared
  cases h1 : this.lookup p <;> cases h2 : other.lookup p <;> simp [h2]

/-- Keeping the entries not held by `other` with the same score. -/
lemma keepIf_not_contains :
    keepIf this (fun s => !other.containsWithDaaScore s.1 s.2.blockDaaScore) p =
      unshared (this.lookup p) (other.lookup p) := by
  unfold keepIf containsWithDaaScore unshared
  cases h1 : this.lookup p <;> cases h2 : other.lookup p <;> simp [h2]

/-- The intersection computed by `intersectionWithRemainderHavingDaaScoreInPlace`. -/
lemma lookup_intersection_fst :
    (intersectionWithRemainderHavingDaaScoreInPlace this other result remainder).1.lookup p =
      (shared (this.lookup p) (other.lookup p)).or (result.lookup p) := by
  unfold intersectionWithRemainderHavingDaaScoreInPlace
  rw [foldl_partition, lookup_foldl_insertIf, keepIf_contains]

/-- The remainder computed by `intersectionWithRemainderHavingDaaScoreInPlace`. -/
lemma lookup_intersection_snd :
    (intersectionWithRemainderHavingDaaScoreInPlace this other result remainder).2.lookup p =
      (unshared (this.lookup p) (other.lookup p)).or (remainder.lookup p) := by
  unfold intersectionWithRemainderHavingDaaScoreInPlace
  rw [foldl_partition, lookup_foldl_insertIf, keepIf_not_contains]

/-- The difference computed by `subtractionHavingDaaScoreInPlace`. -/
lemma lookup_subtraction : (subtractionHavingDaaScoreInPlace this other result).lookup p =
      (unshared (this.lookup p) (other.lookup p)).or (result.lookup p) := by
  unfold subtractionHavingDaaScoreInPlace
  rw [lookup_foldl_insertIf, keepIf_not_contains]

/-- The difference computed by `subtractionWithRemainderHavingDaaScoreInPlace`. -/
lemma lookup_subtraction_fst :
    (subtractionWithRemainderHavingDaaScoreInPlace this other result remainder).1.lookup p =
      (unshared (this.lookup p) (other.lookup p)).or (result.lookup p) := by
  unfold subtractionWithRemainderHavingDaaScoreInPlace
  rw [foldl_partition, lookup_foldl_insertIf, keepIf_not_contains]

/-- The intersection computed by `subtractionWithRemainderHavingDaaScoreInPlace`. -/
lemma lookup_subtraction_snd :
    (subtractionWithRemainderHavingDaaScoreInPlace this other result remainder).2.lookup p =
      (shared (this.lookup p) (other.lookup p)).or (remainder.lookup p) := by
  unfold subtractionWithRemainderHavingDaaScoreInPlace
  rw [foldl_partition, lookup_foldl_insertIf]
  simp only [Bool.not_not, keepIf_contains]

end UtxoCollection

end LapisMonetae.Utxo
