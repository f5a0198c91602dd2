import LapisMonetae.Pskt.Pskt
import LapisMonetae.Tx.StorageMassTheorems

/-!
# The lock time, the id and the entries of a PSKT

The lock time is the documented one unless inputs without a minimum time hide the fallback. The id
that finalization stores is that of the extracted transaction. The calls panic where an entry is
missing or the storage mass divides by zero.
-/

namespace LapisMonetae.Pskt

open List Hashing Option

namespace Inner

/-! ## Lock time -/

/-- The largest minimum time of the inputs that set one, else the fallback, else zero. -/
def documentedLockTime (self : Inner) : UInt64 :=
  (self.inputs.1.filterMap Input.minTime).max?.getD (self.global.fallbackLockTime.getD 0)

lemma foldl_max_option (l : List (Option UInt64)) (a : Option UInt64) :
    l.foldl max a = ((a :: l).filterMap id).max? := by
  induction l generalizing a with
  | nil => cases a <;> rfl
  | cons b l ih =>
    rw [foldl_cons, ih]
    cases a <;> cases b <;> rfl

lemma determineLockTime_eq (self : Inner) : self.determineLockTime =
    if self.inputs.1 = [] then self.global.fallbackLockTime.getD 0
    else (self.inputs.1.filterMap Input.minTime).max?.getD 0 := by
  unfold determineLockTime
  cases h : self.inputs.1 with
  | nil => rfl
  | cons input inputs =>
    rw [map_cons, max?_cons', foldl_max_option, ← map_cons, filterMap_map]
    rfl

/-- The lock time ignores the fallback where there are inputs and none sets a minimum time. -/
lemma determineLockTime_iff (self : Inner) : self.determineLockTime = self.documentedLockTime ↔
    (self.inputs.1 ≠ [] → (∀ input ∈ self.inputs.1, input.minTime = none) →
      self.global.fallbackLockTime.getD 0 = 0) := by
  rw [determineLockTime_eq, documentedLockTime]
  by_cases hinputs : self.inputs.1 = []
  · simp [hinputs]
  · rw [if_neg hinputs]
    cases hmax : (self.inputs.1.filterMap Input.minTime).max? with
    | none =>
      have hnone : ∀ input ∈ self.inputs.1, input.minTime = none :=
        filterMap_eq_nil_iff.mp (max?_eq_none_iff.mp hmax)
      exact ⟨fun h _ _ => h.symm, fun h => (h hinputs hnone).symm⟩
    | some time =>
      have hset : ¬∀ input ∈ self.inputs.1, input.minTime = none := by
        intro hnone
        rw [filterMap_eq_nil_iff.mpr hnone] at hmax
        cases hmax
      exact ⟨fun _ _ h => absurd h hset, fun _ => rfl⟩

/-! ## Id -/

/-- All inputs have their entries. -/
abbrev Populated (self : Inner) : Prop := ∀ input ∈ self.inputs.1, input.utxoEntry.isSome

section
variable {hash : List UInt8 → HashBytes} {self : Inner} {calculator : Wallet.MassCalculator}

/-- The id covers neither the signature scripts nor the mass. -/
lemma id_transaction (script : Input → Vec UInt8) (mass : BitVec 64) :
    (withMass (self.transaction script) mass).id hash =
      (self.transaction fun _ => default).id hash := by
  have hnative : ∀ script mass, ¬(withMass (self.transaction script) mass).isCoinbase := by
    intro script mass
    show ¬Vector.replicate 20 (0 : UInt8) = (Vector.replicate 20 0).set 0 1
    decide
  have hid : ∀ script mass, (withMass (self.transaction script) mass).id hash =
      hash (writeTransaction (withMass (self.transaction script) mass)
        txEncodingExcludeSignatureScript false) :=
    fun script mass => congrArg (fun flags => hash (writeTransaction _ flags false))
      (if_neg (hnative script mass))
  refine (hid script mass).trans (Eq.trans ?_ (hid (fun _ => default) 0).symm)
  simp only [writeTransaction, withMass, transaction, mapVec, flatMap_map, length_map]
  rfl

lemma unsignedTx_eq : self.unsignedTx =
    if self.Populated then
      some ⟨self.transaction fun _ => default, self.inputs.1.filterMap Input.utxoEntry⟩
    else none := by
  refine if_congr ?_ rfl rfl
  rw [transaction, mapVec, length_map, eq_comm]
  exact filterMap_length_eq_length

lemma calculateId_eq : self.calculateId hash =
    if self.Populated then some ((self.transaction fun _ => default).id hash) else none := by
  rw [calculateId, unsignedTx_eq]
  split <;> rfl

/-- The id that is stored is the one of the extracted transaction. -/
lemma finalizeInternal_id {ε : Type} {sigs : Except ε (List (Vec UInt8))} {finalized : Inner}
    {extracted : SignableTransaction}
    (hfinalized : self.finalizeInternal hash sigs = some (.ok finalized))
    (hextracted : finalized.extractTxUnchecked calculator = some (.ok extracted)) :
    finalized.global.id = some (extracted.tx.id hash) := by
  obtain ⟨unsigned, -, hextracted⟩ := bind_eq_some_iff.mp hextracted
  split at hextracted
  swap
  · cases hextracted
  obtain ⟨storageMass, -, hextracted⟩ := bind_eq_some_iff.mp hextracted
  cases hextracted
  unfold finalizeInternal at hfinalized
  split at hfinalized
  · cases hfinalized
  split at hfinalized
  · cases hfinalized
  split at hfinalized
  · cases hfinalized
  · obtain ⟨id, hid, hfinalized⟩ := map_eq_some_iff.mp hfinalized
    cases hfinalized
    rw [calculateId_eq] at hid
    obtain ⟨-, hid⟩ := ite_none_right_eq_some.mp hid
    rw [id_transaction]
    exact hid.symm

end

/-- The transaction has the documented lock time if and only if no input hides the fallback; the id
is the right one in any case. -/
theorem lockTime_id_iff (hash : List UInt8 → HashBytes) (self : Inner) :
    ((self.transaction fun _ => default).lockTime = self.documentedLockTime.toBitVec ∧
      ∀ (ε : Type) (sigs : Except ε (List (Vec UInt8))) (finalized : Inner)
        (calculator : Wallet.MassCalculator) (extracted : SignableTransaction),
        self.finalizeInternal hash sigs = some (.ok finalized) →
        finalized.extractTxUnchecked calculator = some (.ok extracted) →
        finalized.global.id = some (extracted.tx.id hash)) ↔
      (self.inputs.1 ≠ [] → (∀ input ∈ self.inputs.1, input.minTime = none) →
        self.global.fallbackLockTime.getD 0 = 0) := by
  rw [← determineLockTime_iff, ← UInt64.toBitVec_inj]
  exact and_iff_left fun _ _ _ _ _ => finalizeInternal_id

/-- A PSKT with one input and one output. -/
def single (fallbackLockTime : Option UInt64) (input : Input) : Inner :=
  ⟨⟨0, fallbackLockTime, none⟩, ⟨[input], by simp⟩, ⟨[⟨0, ⟨0, default⟩⟩], by simp⟩⟩

/-- The fallback of 5 is lost. -/
theorem determineLockTime_single :
    (single (some 5) Input.default).determineLockTime = 0 ∧
      (single (some 5) Input.default).documentedLockTime = 5 := by decide

/-! ## Panics -/

section
variable {ε : Type} {hash : List UInt8 → HashBytes} {self : Inner}
  {calculator : Wallet.MassCalculator}

lemma populated_finalizeInput {sigs : List (Vec UInt8)} (h : self.Populated) :
    { self with inputs := zipVec finalizeInput self.inputs sigs }.Populated := by
  intro input hinput
  obtain ⟨i, hi, rfl⟩ := mem_mapIdx.mp hinput
  have hentry := h _ (getElem_mem hi)
  cases sigs[i]? <;> exact hentry

lemma map_some_filterMap {α β : Type} {f : α → Option β} {l : List α}
    (h : ∀ a ∈ l, (f a).isSome) : (l.filterMap f).map some = l.map f := by
  induction l with
  | nil => rfl
  | cons a l ih =>
    obtain ⟨b, hb⟩ := Option.isSome_iff_exists.mp (h a mem_cons_self)
    rw [filterMap_cons_some hb, map_cons, map_cons, hb, ih fun a ha => h a (mem_cons_of_mem _ ha)]

/-- The entries are those of the inputs at the same positions. -/
lemma entries_eq {tx : SignableTransaction} (h : self.unsignedTx = some tx) :
    tx.entries.map some = self.inputs.1.map Input.utxoEntry := by
  rw [unsignedTx_eq] at h
  split at h
  · next hpopulated =>
    cases h
    exact map_some_filterMap hpopulated
  · cases h

/-- The cells of the entries. -/
def entryCells (self : Inner) : List Tx.UtxoCell :=
  (self.inputs.1.filterMap Input.utxoEntry).map Tx.entryCell

/-- The amounts for which the storage mass does not panic: no output of zero sompi is reached and,
where the outputs have a mass, the entries fit the formula of the case. -/
def MassReturns (self : Inner) (stormParam : ℕ) : Prop :=
  ¬Tx.ReachesZero stormParam self.outputCells ∧
    (Tx.ZeroFree self.outputCells → Tx.Computable stormParam self.outputCells →
      Tx.InputsFit stormParam self.entryCells self.outputCells)

lemma storageMass_returns_iff :
    (self.storageMass (self.inputs.1.filterMap Input.utxoEntry) calculator).isSome ↔
      self.MassReturns calculator.storageMassParameter := by
  apply Tx.calcStorageMass_isSome_iff
  intro cell hcell
  obtain ⟨entry, -, rfl⟩ := mem_map.mp hcell
  exact Tx.utxoPlurality_pos _

lemma finalizeInternal_returns (h : self.Populated) (sigs : Except ε (List (Vec UInt8))) :
    (self.finalizeInternal hash sigs).isSome := by
  unfold finalizeInternal
  split
  · rfl
  split
  · rfl
  split
  · rfl
  · rw [isSome_map, calculateId_eq, if_pos (populated_finalizeInput h)]
    rfl

lemma extractTxUnchecked_returns_iff (h : self.Populated) :
    (self.extractTxUnchecked calculator).isSome ↔
      ((∀ input ∈ self.inputs.1, input.finalScriptSig.isSome) →
        self.MassReturns calculator.storageMassParameter) := by
  rw [← storageMass_returns_iff]
  unfold extractTxUnchecked
  rw [unsignedTx_eq, if_pos h]
  by_cases hfinal : ∀ input ∈ self.inputs.1, input.finalScriptSig.isSome
  · rw [imp_iff_right hfinal]
    simp only [bind_eq_bind, bind_some, if_pos hfinal]
    cases self.storageMass (self.inputs.1.filterMap Input.utxoEntry) calculator <;> simp
  · simp [hfinal]

end

/-- No call panics if and only if all inputs have their entries and, once they are final, no amount
or sum of amounts makes the storage mass panic; the entries are aligned with the inputs in any
case. -/
theorem neverPanics_iff (hash : List UInt8 → HashBytes) (calculator : Wallet.MassCalculator)
    (self : Inner) :
    ((self.calculateId hash).isSome ∧
      (∀ (ε : Type) (signFn : SignableTransaction → List UInt8 → Except ε (List SignInputOk)),
        (self.passSignatureSync signFn).isSome) ∧
      (∀ (ε : Type) (sigs : Except ε (List (Vec UInt8))),
        (self.finalizeInternal hash sigs).isSome) ∧
      (self.extractTxUnchecked calculator).isSome ∧
      ∀ tx, self.unsignedTx = some tx →
        tx.entries.map some = self.inputs.1.map Input.utxoEntry) ↔
    self.Populated ∧ ((∀ input ∈ self.inputs.1, input.finalScriptSig.isSome) →
      self.MassReturns calculator.storageMassParameter) := by
  by_cases h : self.Populated
  · rw [calculateId_eq, if_pos h, extractTxUnchecked_returns_iff h]
    refine ⟨fun hcalls => ⟨h, hcalls.2.2.2.1⟩, fun hmass => ⟨rfl, fun _ _ => ?_,
      fun _ => finalizeInternal_returns h, hmass.2, fun _ => entries_eq⟩⟩
    rw [passSignatureSync, unsignedTx_eq, if_pos h]
    rfl
  · rw [calculateId_eq, if_neg h]
    exact ⟨fun hcalls => absurd hcalls.1 (by simp), fun hmass => absurd hmass.1 h⟩

/-- An input without its entry, and an output of zero sompi in a PSKT that is final. -/
theorem single_panics : ((single none Input.default).calculateId fun _ => .replicate 32 0) = none ∧
    (single none { Input.default with
      utxoEntry := some ⟨1, ⟨0, []⟩, 0, false⟩
      finalScriptSig := some default }).extractTxUnchecked .standard = none :=
  ⟨rfl, rfl⟩

end Inner

end LapisMonetae.Pskt
