import LapisMonetae.Utxo.DiffTheorems
import Mathlib.Tactic.Abel

/-!
# Transactions on UTXO sets

What `add_transaction` does to the set a diff stands for: the entries of the inputs leave the set
and the entries of the outputs enter it. A diff that collects transactions this way stays valid
over its base, as long as the inputs are unspent and the outputs are new.
-/

namespace LapisMonetae.Utxo

open List Function AssocMap

variable {base view : UtxoView} {d : UtxoDiff} {p : TransactionOutpoint} {entry : UtxoEntry}
  (entries : List (TransactionOutpoint × UtxoEntry))

/-! ## Chains of sets -/

/-- Entries of one outpoint with equal DAA score are identical, across the given sets. -/
def EntriesAgree (views : UtxoView → Prop) : Prop :=
  ∀ v v', views v → views v' → ∀ q e e', v q = some e → v' q = some e' →
    e.blockDaaScore = e'.blockDaaScore → e = e'

lemma validOver_default (base : UtxoView) : ValidOver base UtxoDiff.default := by
  intro q
  constructor <;> simp [changeAt, added, removed, UtxoDiff.default]

lemma compose_default (base : UtxoView) : base.compose UtxoDiff.default = base := by
  funext q
  simp [UtxoView.compose, added, removed, UtxoDiff.default]

/-- A valid diff can be taken back. -/
lemma ValidOver.asReversed (hd : ValidOver base d) :
    ValidOver (base.compose d) d.asReversed ∧ (base.compose d).compose d.asReversed = base := by
  refine ⟨fun q => ?_, funext fun q => ?_⟩
  · rw [compose_apply]
    exact (hd q).reversed
  · rw [compose_apply, compose_apply]
    exact (hd q).apply_reversed

/-- `with_diff_in_place` follows a diff from one set to the next. -/
lemma withDiffInPlace_follows {D : Type} [ImmutableUtxoDiff D] {other : D} {views : UtxoView → Prop}
    (hagree : EntriesAgree views) (hbase : views base) (hd : ValidOver base d)
    (hview : views (base.compose d)) (hother : ValidOver (base.compose d) other)
    (hnext : views ((base.compose d).compose other)) :
    ∃ d', d.withDiffInPlace other = (.ok (), d') ∧ ValidOver base d' ∧
      base.compose d' = (base.compose d).compose other := by
  obtain ⟨d', hd', hchange⟩ := withDiffInPlace_ok fun q =>
    Change.composable_of_valid (hd q) (hother q)
  -- every entry of the two diffs is in one of the three sets
  have hid : ∀ q, Change.Identified fun e => base q = some e ∨ (changeAt d q).Mentions e ∨
      (changeAt other q).Mentions e := by
    intro q
    have hin : ∀ e, (base q = some e ∨ (changeAt d q).Mentions e ∨
        (changeAt other q).Mentions e) → ∃ v, views v ∧ v q = some e := by
      rintro e (he | (he | he) | (he | he))
      · exact ⟨base, hbase, he⟩
      · refine ⟨base.compose d, hview, ?_⟩
        rw [compose_apply, Change.apply, he]
      · exact ⟨base, hbase, (hd q).remove e he⟩
      · refine ⟨_, hnext, ?_⟩
        rw [compose_apply, Change.apply, he]
      · exact ⟨_, hview, (hother q).remove e he⟩
    intro e e' he he' hscore
    obtain ⟨v, hv, hve⟩ := hin e he
    obtain ⟨v', hv', hve'⟩ := hin e' he'
    exact hagree v v' hv hv' q e e' hve hve' hscore
  refine ⟨d', hd', fun q => ?_, funext fun q => ?_⟩
  · rw [hchange q]
    exact Change.andThen_valid (hd q) (hother q) (hid q)
  · rw [compose_apply, hchange q, compose_apply, compose_apply]
    exact Change.apply_andThen (hd q) (hother q) (hid q)

/-! ## Transactions as changes of a set -/

/-- The set without the given entries. -/
def UtxoView.spend (view : UtxoView) (entries : List (TransactionOutpoint × UtxoEntry)) :
    UtxoView :=
  entries.foldl (fun view s => update view s.1 none) view

/-- The set with the given entries. -/
def UtxoView.create (view : UtxoView) (entries : List (TransactionOutpoint × UtxoEntry)) :
    UtxoView :=
  entries.foldl (fun view s => update view s.1 (some s.2)) view

/-- The set after a transaction accepted at `blockDaaScore`. -/
def UtxoView.apply (view : UtxoView) (blockDaaScore : ℕ) (transaction : VerifiableTransaction) :
    UtxoView :=
  (view.spend transaction.populatedInputs).create (transaction.createdEntries blockDaaScore)

/-! ## Single entries -/

/-- A diff that differs at one outpoint, where its change is valid. -/
lemma validOver_update {d' : UtxoDiff} {value : Option UtxoEntry} (hd : ValidOver base d)
    (hother : ∀ q, q ≠ p → changeAt d' q = changeAt d q) (hp : (changeAt d' p).Valid (base p))
    (hvalue : (changeAt d' p).apply (base p) = value) :
    ValidOver base d' ∧ base.compose d' = update (base.compose d) p value := by
  refine ⟨fun q => ?_, funext fun q => ?_⟩
  · by_cases hq : q = p
    · exact hq ▸ hp
    · rw [hother q hq]
      exact hd q
  · rw [compose_apply, update_apply, compose_apply]
    by_cases hq : q = p
    · rw [if_pos hq, hq, hvalue]
    · rw [if_neg hq, hother q hq]

lemma removeEntry_spec (hd : ValidOver base d) (hentry : base.compose d p = some entry) :
    ∃ d', d.removeEntry p entry = (.ok (), d') ∧ ValidOver base d' ∧
      base.compose d' = update (base.compose d) p none := by
  have hp := hd p
  rw [compose_apply] at hentry
  unfold UtxoDiff.removeEntry
  cases hadd : d.add.lookup p with
  | some e =>
    -- the diff created the entry: it leaves `add`
    have happly : (changeAt d p).apply (base p) = some e := by
      simp [changeAt, added, Change.apply, hadd]
    obtain rfl : e = entry := Option.some.inj (happly.symm.trans hentry)
    have hcontains : d.add.containsWithDaaScore p e.blockDaaScore = true := by
      simp [UtxoCollection.containsWithDaaScore, hadd]
    rw [if_pos hcontains]
    refine ⟨_, rfl, validOver_update hd (fun q hq => ?_) ⟨fun r hr => hp.remove r hr, ?_⟩ ?_⟩
    · simp [changeAt, added, removed, AList.lookup_erase_ne hq]
    · intro a ha
      simp [changeAt, added] at ha
    · have hfree := hp.add e hadd
      cases hremove : d.remove.lookup p with
      | some r => simp [changeAt, added, removed, Change.apply, hremove]
      | none =>
        have hbase : base p = none := by simpa [changeAt, removed, hremove] using hfree
        simp [changeAt, added, removed, Change.apply, hremove, hbase]
  | none =>
    -- the entry is of the base: it enters `remove`
    have hremove : d.remove.lookup p = none := by
      cases hremove : d.remove.lookup p with
      | none => rfl
      | some r => simp [changeAt, added, removed, Change.apply, hadd, hremove] at hentry
    have hbase : base p = some entry := by
      simpa [changeAt, added, removed, Change.apply, hadd, hremove] using hentry
    have hcontains : d.add.containsWithDaaScore p entry.blockDaaScore = false := by
      simp [UtxoCollection.containsWithDaaScore, hadd]
    rw [hcontains, if_neg Bool.false_ne_true, hremove]
    refine ⟨_, rfl, validOver_update hd (fun q hq => ?_) ⟨fun r hr => ?_, fun a ha => ?_⟩ ?_⟩
    · simp [changeAt, added, removed, AList.lookup_insert_ne hq]
    · have hr' : entry = r := by simpa [changeAt, removed] using hr
      rw [hbase, hr']
    · simp [changeAt, added, hadd] at ha
    · simp [changeAt, added, removed, Change.apply, hadd]

/-- `add_entry` of an entry that is not in the set. Where the base holds the outpoint with the same
DAA score, it has to be the same entry. -/
lemma addEntry_spec (hd : ValidOver base d) (hfree : base.compose d p = none)
    (hsame : ∀ e, base p = some e → e.blockDaaScore = entry.blockDaaScore → e = entry) :
    ∃ d', d.addEntry p entry = (.ok (), d') ∧ ValidOver base d' ∧
      base.compose d' = update (base.compose d) p (some entry) := by
  have hp := hd p
  rw [compose_apply] at hfree
  have hadd : d.add.lookup p = none := by
    cases hadd : d.add.lookup p with
    | none => rfl
    | some e => simp [changeAt, added, Change.apply, hadd] at hfree
  unfold UtxoDiff.addEntry
  by_cases hcontains : d.remove.containsWithDaaScore p entry.blockDaaScore = true
  · -- the diff removed the entry of the base: it leaves `remove`
    obtain ⟨r, hremove, hscore⟩ := UtxoCollection.containsWithDaaScore_iff.mp hcontains
    have hbase : base p = some r := hp.remove r hremove
    obtain rfl := hsame r hbase hscore
    rw [if_pos hcontains]
    refine ⟨_, rfl, validOver_update hd (fun q hq => ?_) ?_ ?_⟩
    · simp [changeAt, added, removed, AList.lookup_erase_ne hq]
    · constructor <;> simp [changeAt, added, removed, hadd]
    · simp [changeAt, added, removed, Change.apply, hadd, hbase]
  · rw [if_neg hcontains, hadd]
    refine ⟨_, rfl, validOver_update hd (fun q hq => ?_) ⟨fun r hr => hp.remove r hr, ?_⟩ ?_⟩
    · simp [changeAt, added, removed, AList.lookup_insert_ne hq]
    · intro a _
      cases hremove : d.remove.lookup p with
      | some r => exact Or.inr (by simp [changeAt, removed, hremove])
      | none =>
        refine Or.inl ?_
        simpa [changeAt, added, removed, Change.apply, hadd, hremove] using hfree
    · simp [changeAt, added, Change.apply]

/-! ## Lists of entries -/

lemma spend_apply (view : UtxoView) :
    view.spend entries p = if p ∈ entries.map Prod.fst then none else view p := by
  refine (foldl_overwrites (fun view : UtxoView => view p)
    (fun view s => update_apply view s.1 none p) entries view).trans (if_congr ?_ rfl rfl)
  simp only [mem_map, eq_comm]

lemma create_apply_of_notMem (view : UtxoView) (hp : p ∉ entries.map Prod.fst) :
    view.create entries p = view p := by
  apply foldl_keeps (fun view : UtxoView => view p)
  intro view s hs
  apply update_of_ne
  rintro rfl
  exact hp (mem_map_of_mem hs)

/-- The loop over entries with distinct outpoints, for a step that sets the outpoint of its entry
to `value`. A step does not touch what the later entries need of the set. -/
lemma forEntries_spec
    {step : UtxoDiff → TransactionOutpoint → UtxoEntry → Except UtxoAlgebraError Unit × UtxoDiff}
    (value : UtxoEntry → Option UtxoEntry)
    (ready : TransactionOutpoint × UtxoEntry → Option UtxoEntry → Prop)
    (hstep : ∀ {d : UtxoDiff} {s : TransactionOutpoint × UtxoEntry}, ValidOver base d →
      ready s (base.compose d s.1) → ∃ d', step d s.1 s.2 = (.ok (), d') ∧ ValidOver base d' ∧
        base.compose d' = update (base.compose d) s.1 (value s.2))
    (entries : List (TransactionOutpoint × UtxoEntry)) :
    ∀ {d : UtxoDiff}, ValidOver base d → (entries.map Prod.fst).Nodup →
      (∀ s ∈ entries, ready s (base.compose d s.1)) →
      ∃ d', UtxoDiff.forEntries step entries d = (.ok (), d') ∧ ValidOver base d' ∧
        base.compose d' =
          entries.foldl (fun view s => update view s.1 (value s.2)) (base.compose d) := by
  induction entries with
  | nil =>
    intro d hd _ _
    exact ⟨d, rfl, hd, rfl⟩
  | cons s entries ih =>
    intro d hd hnodup hready
    obtain ⟨d₁, hd₁, hvalid₁, hview₁⟩ := hstep hd (hready s mem_cons_self)
    rw [map_cons, nodup_cons] at hnodup
    have hrest : ∀ t ∈ entries, ready t (base.compose d₁ t.1) := by
      intro t ht
      have hne : t.1 ≠ s.1 := fun h => hnodup.1 (h ▸ mem_map_of_mem ht)
      rw [hview₁, update_of_ne hne]
      exact hready t (mem_cons_of_mem _ ht)
    obtain ⟨d', hd', hvalid', hview'⟩ := ih hvalid₁ hnodup.2 hrest
    refine ⟨d', ?_, hvalid', ?_⟩
    · rw [UtxoDiff.forEntries, hd₁]
      exact hd'
    · rw [hview', hview₁]
      rfl

/-! ## Transactions -/

section Transaction

variable {transaction : VerifiableTransaction} {blockDaaScore : ℕ}

/-- The created outpoints carry the id of the transaction. -/
lemma mem_createdEntries {s : TransactionOutpoint × UtxoEntry}
    (hs : s ∈ transaction.createdEntries blockDaaScore) : s.1.transactionId = transaction.id := by
  obtain ⟨i, hi, rfl⟩ := mem_mapIdx.mp hs
  rfl

lemma createdEntries_nodup : ((transaction.createdEntries blockDaaScore).map Prod.fst).Nodup := by
  unfold VerifiableTransaction.createdEntries
  rw [nodup_iff_injective_getElem]
  intro i j h
  simp only [getElem_map, getElem_mapIdx, TransactionOutpoint.mk.injEq] at h
  exact Fin.ext h.2

lemma apply_of_ne (hid : p.transactionId ≠ transaction.id) :
    view.apply blockDaaScore transaction p =
      if p ∈ transaction.populatedInputs.map Prod.fst then none else view p := by
  unfold UtxoView.apply
  rw [create_apply_of_notMem, spend_apply]
  intro hp
  obtain ⟨s, hs, rfl⟩ := mem_map.mp hp
  exact hid (mem_createdEntries hs)

/-- The inputs of the transaction are different unspent entries, and its outputs are new. -/
structure Applicable (base view : UtxoView) (transaction : VerifiableTransaction) : Prop where
  inputs_nodup : (transaction.populatedInputs.map Prod.fst).Nodup
  inputs : ∀ s ∈ transaction.populatedInputs, view s.1 = some s.2
  outputs : ∀ i, base ⟨transaction.id, i⟩ = none ∧ view ⟨transaction.id, i⟩ = none

/-- The inputs of the transaction are different entries of the view, its outputs are not in it, and
an output that the base holds with the same DAA score is the entry of the base. -/
structure Fits (base view : UtxoView) (transaction : VerifiableTransaction) (blockDaaScore : ℕ) :
    Prop where
  inputs_nodup : (transaction.populatedInputs.map Prod.fst).Nodup
  inputs : ∀ s ∈ transaction.populatedInputs, view s.1 = some s.2
  outputs : ∀ s ∈ transaction.createdEntries blockDaaScore, view s.1 = none
  recreated : ∀ s ∈ transaction.createdEntries blockDaaScore,
    ∀ e, base s.1 = some e → e.blockDaaScore = s.2.blockDaaScore → e = s.2

lemma Applicable.fits (h : Applicable base view transaction) (blockDaaScore : ℕ) :
    Fits base view transaction blockDaaScore := by
  have houtputs : ∀ s ∈ transaction.createdEntries blockDaaScore,
      base s.1 = none ∧ view s.1 = none := by
    intro s hs
    have hs' : s.1 = ⟨transaction.id, s.1.index⟩ := by rw [← mem_createdEntries hs]
    rw [hs']
    exact h.outputs s.1.index
  refine ⟨h.inputs_nodup, h.inputs, fun s hs => (houtputs s hs).2, fun s hs e he => ?_⟩
  rw [(houtputs s hs).1] at he
  cases he

/-- `add_transaction` applies the transaction to the set the diff stands for. -/
lemma addTransaction_spec (hd : ValidOver base d)
    (h : Fits base (base.compose d) transaction blockDaaScore) :
    ∃ d', d.addTransaction transaction blockDaaScore = (.ok (), d') ∧ ValidOver base d' ∧
      base.compose d' = (base.compose d).apply blockDaaScore transaction := by
  obtain ⟨d₁, hd₁, hvalid₁, hview₁⟩ :=
    forEntries_spec (fun _ => none) (fun s entry => entry = some s.2) removeEntry_spec _ hd
      h.inputs_nodup h.inputs
  change _ = (base.compose d).spend _ at hview₁
  have hfree : ∀ s ∈ transaction.createdEntries blockDaaScore, base.compose d₁ s.1 = none ∧
      ∀ e, base s.1 = some e → e.blockDaaScore = s.2.blockDaaScore → e = s.2 := by
    intro s hs
    rw [hview₁, spend_apply, h.outputs s hs, ite_self]
    exact ⟨rfl, h.recreated s hs⟩
  obtain ⟨d', hd', hvalid', hview'⟩ :=
    forEntries_spec some (fun s entry => entry = none ∧
        ∀ e, base s.1 = some e → e.blockDaaScore = s.2.blockDaaScore → e = s.2)
      (fun hd h => addEntry_spec hd h.1 h.2) _ hvalid₁ createdEntries_nodup hfree
  refine ⟨d', ?_, hvalid', ?_⟩
  · unfold UtxoDiff.addTransaction
    rw [hd₁]
    exact hd'
  · rw [hview', hview₁]
    rfl

end Transaction

/-! ## Sequences of transactions -/

/-- `add_transaction` for each transaction with its DAA score, until the first error. -/
def UtxoDiff.addTransactions : List (VerifiableTransaction × ℕ) → UtxoDiff →
    Except UtxoAlgebraError Unit × UtxoDiff
  | [], self => (.ok (), self)
  | (transaction, blockDaaScore) :: rest, self =>
    match self.addTransaction transaction blockDaaScore with
    | (.ok (), self) => addTransactions rest self
    | (.error e, self) => (.error e, self)

/-- The set after transactions, one after another. -/
def UtxoView.applyAll (view : UtxoView) (txs : List (VerifiableTransaction × ℕ)) :
    UtxoView :=
  txs.foldl (fun view s => view.apply s.2 s.1) view

/-- Each transaction fits the set that the base and the diff collected so far stand for. -/
def FitInTurn (base : UtxoView) : UtxoDiff → List (VerifiableTransaction × ℕ) → Prop
  | _, [] => True
  | d, (transaction, blockDaaScore) :: rest =>
    Fits base (base.compose d) transaction blockDaaScore ∧
      FitInTurn base (d.addTransaction transaction blockDaaScore).2 rest

lemma addTransactions_spec (txs : List (VerifiableTransaction × ℕ)) :
    ∀ {d : UtxoDiff}, ValidOver base d → FitInTurn base d txs →
      ∃ d', UtxoDiff.addTransactions txs d = (.ok (), d') ∧
        base.compose d' = (base.compose d).applyAll txs := by
  induction txs with
  | nil =>
    intro d _ _
    exact ⟨d, rfl, rfl⟩
  | cons s rest ih =>
    intro d hd h
    obtain ⟨d₁, hd₁, hvalid₁, hview₁⟩ := addTransaction_spec hd h.1
    have hrest := h.2
    rw [hd₁] at hrest
    obtain ⟨d', hd', hview'⟩ := ih hvalid₁ hrest
    refine ⟨d', ?_, ?_⟩
    · rw [UtxoDiff.addTransactions, hd₁]
      exact hd'
    · rw [hview', hview₁]
      rfl

/-- Transactions collected in a diff, which is then applied to the base, change the base as they
do one after another. -/
theorem addTransactions_refines (txs : List (VerifiableTransaction × ℕ))
    (h : FitInTurn base UtxoDiff.default txs) :
    ∃ d, UtxoDiff.addTransactions txs UtxoDiff.default = (.ok (), d) ∧
      base.compose d = base.applyAll txs ∧
      ∀ set : UtxoCollection, (fun o => set.lookup o) = base →
        ∀ o, (set.writeDiff d).lookup o = base.applyAll txs o := by
  obtain ⟨d, hd, hview⟩ := addTransactions_spec txs (validOver_default base) h
  rw [compose_default] at hview
  refine ⟨d, hd, hview, ?_⟩
  rintro set rfl o
  rw [lookup_writeDiff, hview]

/-- A set with one entry of DAA score 5. -/
def oneEntry : UtxoCollection :=
  (∅ : UtxoCollection).insert ⟨1, 0⟩ ⟨10, ⟨0, []⟩, 5, false⟩

/-- Spends the entry of `oneEntry`, as often as the list says, and creates `2:0`. -/
def spender (inputs : List Unit) : VerifiableTransaction :=
  ⟨2, inputs.map fun _ => (⟨1, 0⟩, ⟨10, ⟨0, []⟩, 5, false⟩), [(9, ⟨0, []⟩)], false⟩

/-- Creates the outpoint `1:0`, and spends nothing. -/
def recreator (amount : ℕ) : VerifiableTransaction := ⟨1, [], [(amount, ⟨0, []⟩)], true⟩

/-- An entry of the base is spent, its spender's output is spent, and its outpoint is created again
with another DAA score. -/
theorem addTransactions_refines_recreated : ∃ d, UtxoDiff.addTransactions
        [(spender [()], 6), (⟨3, [(⟨2, 0⟩, ⟨9, ⟨0, []⟩, 6, false⟩)], [], false⟩, 6),
          (recreator 20, 7)] UtxoDiff.default = (.ok (), d) ∧
      (oneEntry.writeDiff d).lookup ⟨1, 0⟩ = some ⟨20, ⟨0, []⟩, 7, true⟩ := by
  have hfit : FitInTurn (fun o => oneEntry.lookup o) UtxoDiff.default [(spender [()], 6),
      (⟨3, [(⟨2, 0⟩, ⟨9, ⟨0, []⟩, 6, false⟩)], [], false⟩, 6), (recreator 20, 7)] := by
    refine ⟨⟨by decide, by decide, by decide, ?_⟩, ⟨by decide, by decide, by decide, ?_⟩,
      ⟨by decide, by decide, by decide, ?_⟩, trivial⟩
    · intro s hs e he
      rw [mem_singleton.mp hs] at he
      exact nomatch he.symm.trans (by decide : oneEntry.lookup ⟨2, 0⟩ = none)
    · exact fun s hs => nomatch hs
    · intro s hs e he hscore
      rw [mem_singleton.mp hs] at he hscore
      obtain rfl := Option.some.inj
        (he.symm.trans (by decide : oneEntry.lookup ⟨1, 0⟩ = some ⟨10, ⟨0, []⟩, 5, false⟩))
      exact absurd hscore (by decide)
  obtain ⟨d, hd, -, hset⟩ := addTransactions_refines _ hfit
  exact ⟨d, hd, (hset oneEntry rfl _).trans (by decide)⟩

/-- A transaction with an input twice is refused, and an outpoint that is created again with its
DAA score keeps its old entry. -/
theorem addTransactions_not_refines :
    (UtxoDiff.addTransactions [(spender [(), ()], 6)] UtxoDiff.default).1 =
        .error (.doubleRemoveCall ⟨1, 0⟩) ∧
      ∃ d, UtxoDiff.addTransactions [(spender [()], 6), (recreator 20, 5)] UtxoDiff.default =
          (.ok (), d) ∧
        (oneEntry.writeDiff d).lookup ⟨1, 0⟩ = some ⟨10, ⟨0, []⟩, 5, false⟩ ∧
        UtxoView.applyAll (fun o => oneEntry.lookup o) [(spender [()], 6), (recreator 20, 5)]
          ⟨1, 0⟩ = some ⟨20, ⟨0, []⟩, 5, true⟩ := by
  refine ⟨by decide, _, rfl, by decide, by decide⟩

/-- Transactions that can be accepted one after the other from one set: their inputs are unspent
and no two of them share one, and their ids are new and different. -/
structure Independent (base view : UtxoView) (txs : List VerifiableTransaction) :
    Prop where
  inputs_nodup : (txs.flatMap fun t => t.populatedInputs.map Prod.fst).Nodup
  inputs : ∀ t ∈ txs, ∀ s ∈ t.populatedInputs, view s.1 = some s.2
  ids_nodup : (txs.map VerifiableTransaction.id).Nodup
  outputs : ∀ t ∈ txs, ∀ i, base ⟨t.id, i⟩ = none ∧ view ⟨t.id, i⟩ = none

namespace Independent

variable {t : VerifiableTransaction} {rest : List VerifiableTransaction}

lemma head (h : Independent base view (t :: rest)) : Applicable base view t where
  inputs_nodup := by
    have hnodup := h.inputs_nodup
    rw [flatMap_cons, nodup_append] at hnodup
    exact hnodup.1
  inputs := h.inputs t mem_cons_self
  outputs := h.outputs t mem_cons_self

/-- Accepting the first transaction leaves the others acceptable. -/
theorem tail (h : Independent base view (t :: rest)) (blockDaaScore : ℕ) :
    Independent base (view.apply blockDaaScore t) rest := by
  have hnodup := h.inputs_nodup
  rw [flatMap_cons, nodup_append] at hnodup
  obtain ⟨-, hrest, hdisjoint⟩ := hnodup
  have hids := h.ids_nodup
  rw [map_cons, nodup_cons] at hids
  refine ⟨hrest, fun t' ht' s hs => ?_, hids.2, fun t' ht' i => ?_⟩
  · have hunspent := h.inputs t' (mem_cons_of_mem _ ht') s hs
    have hmem : s.1 ∈ rest.flatMap fun t => t.populatedInputs.map Prod.fst :=
      mem_flatMap.mpr ⟨t', ht', mem_map_of_mem hs⟩
    rw [apply_of_ne, if_neg, hunspent]
    · exact fun hin => hdisjoint _ hin _ hmem rfl
    · -- an unspent outpoint is not one of the new outputs
      intro hid
      have hnew := (h.outputs t mem_cons_self s.1.index).2
      rw [← hid] at hnew
      exact absurd (hunspent.symm.trans hnew) (by simp)
  · obtain ⟨hbase, hview⟩ := h.outputs t' (mem_cons_of_mem _ ht') i
    rw [apply_of_ne, hview, ite_self]
    · exact ⟨hbase, rfl⟩
    · exact fun hid => hids.1 (hid ▸ mem_map_of_mem ht')

end Independent

end LapisMonetae.Utxo
