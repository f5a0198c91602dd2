import LapisMonetae.Index.StoreTheorems
import LapisMonetae.Utxo.DiffTheorems

/-!
# The UTXO index holds the current UTXO set

Along every history of resyncs and updates the index holds exactly the set that the history has
reached. A resync pages through the consensus set by the last key it has read; an update regroups
a diff by script public key and keeps the supply by a signed change.
-/

namespace LapisMonetae.Index

open Utxo AssocMap Coinbase List Program UtxoIndexChanges Option AList

/-! ## The index and the set -/

/-- A set whose values fit their types and whose amounts stay within the money supply. -/
structure Bounded (set : UtxoCollection) : Prop where
  encodable : ∀ s ∈ set.entries, Encodable s
  supply : amounts set.entries ≤ maxSompi

/-- The stores hold the set and the sum of its amounts. -/
structure Indexes (index : UtxoIndex) (set : UtxoCollection) : Prop where
  holds : index.store.utxos.Holds set.entries
  supply : index.store.circulatingSupply = some (amounts set.entries)

/-- Every query returns what the set says. -/
structure Answers (index : UtxoIndex) (set : UtxoCollection) : Prop where
  utxos : ∀ scripts, (∀ script ∈ scripts, EncodableScript script) →
    ∃ found, index.getUtxosByScriptPublicKeys scripts = some found ∧
      (∀ script, script ∈ found ↔ script ∈ scripts) ∧
      ∀ script outpoint compact, found.get script outpoint = some compact ↔
        script ∈ scripts ∧ ∃ entry, set.lookup outpoint = some entry ∧
          entry.scriptPublicKey = script ∧ .from entry = compact
  balances : ∀ scripts, (∀ script ∈ scripts, EncodableScript script) →
    ∃ balances, index.getBalanceByScriptPublicKeys scripts = some balances ∧
      ∀ script, balances.lookup script = if script ∈ scripts then
        some (amounts (set.entries.filter fun s => s.2.scriptPublicKey = script)) else none
  supply : index.store.circulatingSupply = some (amounts set.entries)

variable {index : UtxoIndex} {set : UtxoCollection}
variable {diff : UtxoDiff} {n : ℕ} {delta : ℤ} {utxos : List IndexedUtxo}

lemma maxSompi_lt : maxSompi < 2 ^ 63 := by decide

lemma Indexes.answers (h : Indexes index set) (hset : Bounded set) : Answers index set := by
  have hsum : amounts set.entries ≤ u64Max :=
    hset.supply.trans (maxSompi_lt.le.trans (by decide))
  refine ⟨fun scripts henc => ?_, fun scripts henc => ?_, h.supply⟩
  · have hquery := fun script (hin : script ∈ scripts) =>
      compactUtxos_eq h.holds hset.encodable set.nodupKeys (henc script hin)
    obtain ⟨found, hfound, hlookup⟩ := exists_foldlM_insert
      (f := index.store.utxos.compactUtxos) scripts ∅ fun script hin => by
        obtain ⟨m, hm, -⟩ := hquery script hin
        rw [hm]
        rfl
    refine ⟨found, hfound, fun script => ?_, fun script outpoint compact => ?_⟩
    · rw [← lookup_isSome, hlookup script]
      by_cases hin : script ∈ scripts
      · obtain ⟨m, hm, -⟩ := hquery script hin
        simp [hin, hm]
      · simp [hin]
    · rw [Nested.get, hlookup script]
      by_cases hin : script ∈ scripts
      · obtain ⟨m, hm, hentries⟩ := hquery script hin
        simp [hin, hm, hentries, ← mem_lookup_iff]
      · simp [hin]
  · obtain ⟨balances, hbalances, hlookup⟩ := exists_foldlM_insert
      (f := index.store.utxos.balance) scripts ∅ fun script hin => by
        rw [balance_eq h.holds hset.encodable set.nodupKeys (henc script hin) hsum]
        rfl
    refine ⟨balances, hbalances, fun script => ?_⟩
    rw [hlookup script]
    by_cases hin : script ∈ scripts
    · rw [if_pos hin, if_pos hin,
        balance_eq h.holds hset.encodable set.nodupKeys (henc script hin) hsum]
    · rw [if_neg hin, if_neg hin]
      rfl

/-! ## Regrouping by script public key -/

/-- The nested map that the loops over entries build. -/
def regroup (utxos : List IndexedUtxo) (init : UtxoSetByScriptPublicKey) :
    UtxoSetByScriptPublicKey :=
  utxos.foldl (fun m s => Nested.insertInto m s.2.scriptPublicKey s.1 (.from s.2)) init

lemma groups_regroup (h : utxos.NodupKeys) : Groups (regroup utxos ∅) utxos := by
  intro script outpoint compact
  have hget : (regroup utxos ∅).get script outpoint = (utxos.dlookup outpoint).elim none
      fun entry => if script = entry.scriptPublicKey then some (.from entry) else none := by
    unfold regroup
    rw [foldl_observe_entries (fun m : UtxoSetByScriptPublicKey => m.get script outpoint) outpoint
      (fun (entry : UtxoEntry) found =>
        if script = entry.scriptPublicKey then some (.from entry) else found) ?_ ?_ utxos ∅ h]
    · rfl
    · intro m s hs
      rw [Nested.get_insertInto, if_neg fun h => hs h.2.symm]
    · intro m entry
      simp [Nested.get_insertInto]
  rw [hget]
  cases hlookup : utxos.dlookup outpoint with
  | none =>
    have hnot := dlookup_eq_none.mp hlookup
    simp only [elim_none, reduceCtorEq, false_iff]
    rintro ⟨entry, hin, -⟩
    exact hnot (mem_keys_of_mem hin)
  | some entry =>
    have hin : ∀ entry', ⟨outpoint, entry'⟩ ∈ utxos ↔ entry' = entry := by
      intro entry'
      rw [← mem_dlookup_iff h, hlookup, mem_some_iff]
      exact eq_comm
    simp only [hin, elim_some, exists_eq_left]
    by_cases hscript : script = entry.scriptPublicKey
    · simp [hscript]
    · simp [hscript, Ne.symm hscript]

lemma asI64_of_le (h : n ≤ maxSompi) : asI64 n = n := by
  rw [asI64, if_pos (h.trans_lt maxSompi_lt)]

lemma checkedI64_of_le {n : ℤ} (h : -maxSompi ≤ n) (h' : n ≤ maxSompi) : checkedI64 n = some n := by
  have hlt := maxSompi_lt
  rw [checkedI64, if_pos]
  omega

/-- The loop over added entries. -/
lemma foldlM_addUtxo (utxos : List IndexedUtxo) (changes : UtxoIndexChanges)
    (hneg : 0 ≤ changes.supplyChange) (hle : changes.supplyChange + amounts utxos ≤ maxSompi) :
    utxos.foldlM addUtxo changes = some { changes with
      supplyChange := changes.supplyChange + amounts utxos
      utxoChanges := { changes.utxoChanges with
        added := regroup utxos changes.utxoChanges.added } } := by
  induction utxos generalizing changes with
  | nil => simp [amounts, regroup]
  | cons s utxos ih =>
    have hcons := amounts_cons s utxos
    have hamount : asI64 s.2.amount = s.2.amount := asI64_of_le (by omega)
    have hstep : changes.addUtxo s = some { changes with
        supplyChange := changes.supplyChange + s.2.amount
        utxoChanges := { changes.utxoChanges with
          added := changes.utxoChanges.added.insertInto s.2.scriptPublicKey s.1 (.from s.2) } } := by
      rw [addUtxo, hamount, checkedI64_of_le (by omega) (by omega)]
      rfl
    rw [foldlM_cons, hstep, some_bind_eq, ih _ (by simp only; omega) (by simp only; omega), hcons]
    simp [regroup, add_assoc]

lemma foldlM_removeUtxo (utxos : List IndexedUtxo) (changes : UtxoIndexChanges)
    (hle : changes.supplyChange ≤ maxSompi) (hsum : amounts utxos ≤ maxSompi)
    (hneg : -maxSompi ≤ changes.supplyChange - amounts utxos) :
    utxos.foldlM removeUtxo changes = some { changes with
      supplyChange := changes.supplyChange - amounts utxos
      utxoChanges := { changes.utxoChanges with
        removed := regroup utxos changes.utxoChanges.removed } } := by
  induction utxos generalizing changes with
  | nil => simp [amounts, regroup]
  | cons s utxos ih =>
    have hcons := amounts_cons s utxos
    have hamount : asI64 s.2.amount = s.2.amount := asI64_of_le (by omega)
    have hstep : changes.removeUtxo s = some { changes with
        supplyChange := changes.supplyChange - s.2.amount
        utxoChanges := { changes.utxoChanges with
          removed :=
            changes.utxoChanges.removed.insertInto s.2.scriptPublicKey s.1 (.from s.2) } } := by
      rw [removeUtxo, hamount, checkedI64_of_le (by omega) (by omega)]
      rfl
    rw [foldlM_cons, hstep, some_bind_eq,
      ih _ (by simp only; omega) (by omega) (by simp only; omega), hcons]
    simp [regroup, sub_sub]

lemma updateUtxoDiff_eq (hadd : amounts diff.add.entries ≤ maxSompi)
    (hremove : amounts diff.remove.entries ≤ maxSompi) : new.updateUtxoDiff diff = some
      ⟨⟨regroup diff.add.entries ∅, regroup diff.remove.entries ∅⟩,
        amounts diff.add.entries - amounts diff.remove.entries, []⟩ := by
  have hadded := foldlM_addUtxo diff.add.entries .new (by decide)
    (by simp only [new]; omega)
  rw [updateUtxoDiff, hadded, some_bind_eq,
    foldlM_removeUtxo _ _ (by simp only [new]; omega) hremove
      (by simp only [new]; omega)]
  simp [new]

/-! ## Updates -/

/-- A diff that is valid over the set revises it to the set it leads to. -/
lemma revises_writeDiff (hvalid : ValidOver (fun p => set.lookup p) diff)
    (hset : ∀ s ∈ set.entries, Encodable s)
    (hnext : ∀ s ∈ (set.writeDiff diff).entries, Encodable s) :
    Revises set.entries diff.add.entries diff.remove.entries (set.writeDiff diff).entries := by
  have hmem : ∀ s : IndexedUtxo, s ∈ (set.writeDiff diff).entries ↔
      s ∈ diff.add.entries ∨ s ∈ set.entries ∧ s ∉ diff.remove.entries := by
    rintro ⟨p, e⟩
    simp only [← mem_lookup_iff, mem_def]
    rw [lookup_writeDiff, compose_apply]
    exact (hvalid p).apply_eq_some_iff
  refine ⟨hset, fun s hs => hnext s ((hmem s).mpr (.inl hs)), set.nodupKeys, diff.add.nodupKeys,
    diff.remove.nodupKeys, nodupKeys _, ?_, ?_, hmem⟩
  · rintro ⟨p, e⟩ hs
    exact mem_lookup_iff.mp ((hvalid p).remove e (mem_lookup_iff.mpr hs))
  · rintro ⟨p, e⟩ hs ⟨q, a⟩ ht rfl
    have hset : set.lookup p = some e := mem_lookup_iff.mpr hs
    -- an outpoint that is taken is added only if its entry is removed
    rcases (hvalid p).add a (mem_lookup_iff.mpr ht) with hfree | hremoved
    · cases hset.symm.trans hfree
    · obtain ⟨e', he'⟩ := isSome_iff_exists.mp hremoved
      obtain rfl : e = e' := some.inj (hset.symm.trans ((hvalid p).remove e' he'))
      exact mem_lookup_iff.mp he'

lemma saturatingAddSigned_eq {m : ℕ} (h : n + delta = m) (hle : m ≤ u64Max) :
    saturatingAddSigned n delta = m := by
  rw [saturatingAddSigned, h, Int.toNat_natCast, Nat.min_eq_left hle]

lemma updateCirculatingSupply_outcome {store : Store} {supply supply' : ℕ}
    (hstore : store.circulatingSupply = some supply) (hdelta : supply + delta = supply')
    (hle : supply' ≤ u64Max) : (Store.updateCirculatingSupply delta).outcome store =
      some (.ok supply', { store with circulatingSupply := some supply' }) := by
  rw [Store.updateCirculatingSupply, outcome_get_bind, hstore]
  dsimp only
  by_cases hzero : delta = 0
  · obtain rfl : supply = supply' := by omega
    rw [if_pos hzero, ← hstore]
    rfl
  · rw [if_neg hzero, saturatingAddSigned_eq hdelta hle]
    rfl

/-- An update with a valid diff succeeds and follows the set. -/
lemma update_indexes {tips : List Hash} (h : Indexes index set) (hset : Bounded set)
    (hvalid : ValidOver (fun p => set.lookup p) diff) (hnext : Bounded (set.writeDiff diff)) :
    ∃ changes index', (UtxoIndex.update diff tips).outcome index = some (.ok changes, index') ∧
      Indexes index' (set.writeDiff diff) := by
  have hrevises := revises_writeDiff hvalid hset.encodable hnext.encodable
  obtain ⟨hremoved, hamounts⟩ := hrevises.amounts_eq
  have hle := hset.supply
  have hle' := hnext.supply
  have hchanges : new.updateUtxoDiff diff = _ :=
    updateUtxoDiff_eq (by omega) (by omega)
  let store := index.store.updateUtxoState (regroup diff.add.entries ∅)
    (regroup diff.remove.entries ∅)
  have hsupply : (Store.updateCirculatingSupply
        (amounts diff.add.entries - amounts diff.remove.entries)).outcome store =
      some (.ok (amounts (set.writeDiff diff).entries),
        { store with circulatingSupply := some (amounts (set.writeDiff diff).entries) }) :=
    updateCirculatingSupply_outcome h.supply (by omega)
      (hle'.trans (maxSompi_lt.le.trans (by decide)))
  refine ⟨⟨regroup diff.add.entries ∅, regroup diff.remove.entries ∅⟩,
    ⟨⟨some tips.dedup, some (amounts (set.writeDiff diff).entries), store.utxos⟩,
      max index.monotonicCirculatingSupply (amounts (set.writeDiff diff).entries)⟩, ?_, ?_, rfl⟩
  · simp only [UtxoIndex.update, hchanges, setTips, UtxoIndex.onStore,
      outcome_bind, outcome_zoom, outcome_unwrap, outcome_modify,
      outcome_pure, map_some, bind_some]
    rw [hsupply]
    rfl
  · exact h.holds.update hrevises (groups_regroup diff.add.nodupKeys)
      (groups_regroup diff.remove.nodupKeys)

/-! ## Resyncs -/

section Resync

variable {consensus : Consensus}
variable {last : IndexedUtxo} {batch done rest : List IndexedUtxo}

lemma sortedUtxos_perm (consensus : Consensus) : consensus.sortedUtxos.Perm consensus.utxoSet.entries :=
  perm_insertionSort _ _

lemma increasing_sortedUtxos (h : Bounded consensus.utxoSet) :
    KeyedSort.Increasing (fun s : IndexedUtxo => keyOrder s.1) consensus.sortedUtxos := by
  apply KeyedSort.increasing_insertionSort
  refine consensus.utxoSet.nodupKeys.nodup.map_on ?_
  intro s hs t ht heq
  exact consensus.utxoSet.nodupKeys.eq_of_fst_eq hs ht
    (keyOrder_inj (h.encodable s hs).outpoint (h.encodable t ht).outpoint heq)

lemma mapM_outpointOfUtxoKey (h : ∀ s ∈ utxos, Encodable s) : utxos.mapM (fun utxo => do
      return (⟨← outpointOfUtxoKey (utxoKey utxo.1), utxo.2⟩ : IndexedUtxo)) = some utxos := by
  induction utxos with
  | nil => rfl
  | cons s utxos ih =>
    have hs := outpointOfUtxoKey_utxoKey (h s mem_cons_self).outpoint
    rw [mapM_cons, hs, ih fun t ht => h t (mem_cons_of_mem s ht)]
    rfl

lemma nodupKeys_sortedUtxos (consensus : Consensus) : consensus.sortedUtxos.NodupKeys :=
  (perm_nodupKeys (sortedUtxos_perm consensus)).mpr consensus.utxoSet.nodupKeys

lemma encodable_of_mem_sortedUtxos (h : Bounded consensus.utxoSet) {s : IndexedUtxo}
    (hs : s ∈ consensus.sortedUtxos) : Encodable s :=
  h.encodable s ((sortedUtxos_perm consensus).mem_iff.mp hs)

lemma sortedUtxos_le (h : Bounded consensus.utxoSet) :
    amounts consensus.sortedUtxos ≤ maxSompi := by
  rw [amounts_eq_of_perm (sortedUtxos_perm consensus)]
  exact h.supply

lemma getVirtualUtxos_none (h : Bounded consensus.utxoSet) (chunkSize : ℕ) :
    consensus.getVirtualUtxos none chunkSize false = some (consensus.sortedUtxos.take chunkSize) :=
  mapM_outpointOfUtxoKey fun _ hs => encodable_of_mem_sortedUtxos h (mem_of_mem_take hs)

/-- The page after an outpoint of the set begins right after it. -/
lemma getVirtualUtxos_some (h : Bounded consensus.utxoSet) (chunkSize : ℕ)
    {before : List IndexedUtxo} (hsorted : consensus.sortedUtxos = before ++ last :: rest) :
    consensus.getVirtualUtxos (some last.1) chunkSize true = some (rest.take chunkSize) := by
  have hdrop : consensus.sortedUtxos.dropWhile
      (fun utxo => decide (keyOrder utxo.1 < keyOrder last.1)) = last :: rest := by
    have hincreasing := increasing_sortedUtxos h
    rw [hsorted] at hincreasing ⊢
    convert hincreasing.dropWhile_lt
  unfold Consensus.getVirtualUtxos
  dsimp only
  rw [hdrop]
  refine mapM_outpointOfUtxoKey fun s hs => encodable_of_mem_sortedUtxos h ?_
  rw [hsorted]
  exact mem_append_right _ (mem_cons_of_mem _ (mem_of_mem_take hs))

lemma asU64_natCast {n : ℕ} (h : n ≤ maxSompi) : asU64 n = n := by
  have hlt := maxSompi_lt
  rw [asU64]
  omega

lemma revises_append (hdistinct : (done ++ batch).NodupKeys)
    (henc : ∀ s ∈ done ++ batch, Encodable s) : Revises done batch [] (done ++ batch) where
  encodable s hs := henc s (mem_append_left _ hs)
  encodable_added s hs := henc s (mem_append_right _ hs)
  distinct := hdistinct.sublist (sublist_append_left _ _)
  distinct_added := hdistinct.sublist (sublist_append_right _ _)
  distinct_removed := nodupKeys_nil
  distinct_result := hdistinct
  removed_sub := nil_subset _
  replaced s hs t ht heq :=
    absurd heq ((pairwise_append.mp (nodupKeys_iff_pairwise.mp hdistinct)).2.2 s hs t ht)
  mem_result s := by simp [or_comm]

/-- One round of the loop writes its page and adds the amounts of the page to the supply. -/
lemma resyncLoop_page (h : Bounded consensus.utxoSet)
    (hsorted : consensus.sortedUtxos = done ++ batch ++ rest) (hlast : batch.getLast? = some last)
    (hholds : index.store.utxos.Holds done) :
    ∃ index' : UtxoIndex, index'.store.utxos.Holds (done ++ batch) ∧
      ∀ fuel, (UtxoIndex.resyncLoop consensus (fuel + 1) batch (amounts done)).outcome index =
        (if batch.length < resyncChunkSize then
          pure (amounts (done ++ batch))
        else do
          let page ← unwrap (consensus.getVirtualUtxos (some last.1) resyncChunkSize true)
          UtxoIndex.resyncLoop consensus fuel page (amounts (done ++ batch))).outcome index' := by
  have hbound := sortedUtxos_le h
  rw [hsorted, amounts_append, amounts_append] at hbound
  have hempty : batch.length ≠ 0 := by
    intro hzero
    rw [length_eq_zero_iff.mp hzero] at hlast
    cases hlast
  have hchanges : new.addUtxosFromVector batch =
      some ⟨⟨regroup batch ∅, ∅⟩, amounts batch, []⟩ := by
    have hadded := foldlM_addUtxo batch .new (by decide)
      (by simp only [new]; omega)
    rw [addUtxosFromVector, hadded]
    simp [new]
  have hsupply : checkedAdd (amounts done) (asU64 (amounts batch)) =
      some (amounts (done ++ batch)) := by
    have hlt : maxSompi ≤ u64Max := by decide
    rw [asU64_natCast (by omega), checkedAdd, if_pos (by omega), amounts_append]
  have hsub : (done ++ batch).Sublist consensus.sortedUtxos := by
    rw [hsorted]
    exact sublist_append_left _ _
  have hrevises := revises_append ((nodupKeys_sortedUtxos consensus).sublist hsub) fun s hs =>
    encodable_of_mem_sortedUtxos h (hsub.subset hs)
  refine ⟨{ index with store := index.store.updateUtxoState (regroup batch ∅) ∅ },
    hholds.update hrevises (groups_regroup hrevises.distinct_added)
      (groups_regroup nodupKeys_nil), fun fuel => ?_⟩
  simp only [UtxoIndex.resyncLoop, if_neg hempty, hlast, hchanges, hsupply, UtxoIndex.onStore,
    outcome_bind, outcome_zoom, outcome_unwrap, outcome_modify,
    map_some, bind_some]

/-- The loop writes the pages that are left. -/
lemma resyncLoop_returns (h : Bounded consensus.utxoSet) (n : ℕ)
    (done batch rest : List IndexedUtxo) (index : UtxoIndex)
    (hsorted : consensus.sortedUtxos = done ++ batch ++ rest)
    (hfull : batch.length < resyncChunkSize → rest = [])
    (hholds : index.store.utxos.Holds done) (hn : batch.length + rest.length < n) :
    ∃ index', Fuel.Returns (fun fuel =>
        (UtxoIndex.resyncLoop consensus fuel batch (amounts done)).outcome index)
        (.ok (amounts consensus.sortedUtxos), index') ∧
      index'.store.utxos.Holds consensus.sortedUtxos := by
  induction n generalizing done batch rest index with
  | zero => omega
  | succ n ih =>
    rcases eq_nil_or_concat' batch with rfl | ⟨before, last, hbatch⟩
    · -- an empty page is the last one
      have hall : consensus.sortedUtxos = done := by
        rw [hsorted, hfull (by decide), append_nil, append_nil]
      rw [hall]
      exact ⟨index, (Fuel.returns_const _).of_succ fun fuel => rfl, hholds⟩
    · have hlast : batch.getLast? = some last := by rw [hbatch, List.getLast?_concat]
      obtain ⟨index', hholds', hround⟩ := resyncLoop_page h hsorted hlast hholds
      by_cases hshort : batch.length < resyncChunkSize
      · have hall : consensus.sortedUtxos = done ++ batch := by
          rw [hsorted, hfull hshort, append_nil]
        rw [hall]
        refine ⟨index', (Fuel.returns_const _).of_succ fun fuel => ?_, hholds'⟩
        rw [hround, if_pos hshort]
        rfl
      · have hsplit : consensus.sortedUtxos = (done ++ before) ++ last :: rest := by
          rw [hsorted, hbatch]
          simp
        have hlength : batch.length = before.length + 1 := by simp [hbatch]
        have hrest := congrArg List.length (take_append_drop resyncChunkSize rest)
        rw [length_append] at hrest
        obtain ⟨index'', hreturns, hholds''⟩ := ih (done ++ batch)
          (rest.take resyncChunkSize) (rest.drop resyncChunkSize) index'
          (by rw [append_assoc, take_append_drop, hsorted])
          (fun hlt => drop_eq_nil_of_le (by rw [length_take] at hlt; omega))
          hholds' (by omega)
        refine ⟨index'', hreturns.of_succ fun fuel => ?_, hholds''⟩
        rw [hround, if_neg hshort, getVirtualUtxos_some h resyncChunkSize hsplit,
          outcome_bind_ok (outcome_unwrap_some _ _)]

/-- A resync succeeds, and the index then holds the set of consensus. -/
lemma resync_indexes (h : Bounded consensus.utxoSet) (index : UtxoIndex) :
    ∃ index', Fuel.Returns (fun fuel => (UtxoIndex.resync fuel consensus).outcome index)
        (.ok (), index') ∧ Indexes index' consensus.utxoSet := by
  have hperm := sortedUtxos_perm consensus
  have hall := take_append_drop resyncChunkSize consensus.sortedUtxos
  obtain ⟨index', hloop, hholds⟩ := resyncLoop_returns h _ []
    (consensus.sortedUtxos.take resyncChunkSize) (consensus.sortedUtxos.drop resyncChunkSize)
    { index with store := Store.deleteAll } (by rw [nil_append, hall])
    (fun hlt => drop_eq_nil_of_le (by rw [length_take] at hlt; omega))
    (fun r => by simp [Store.deleteAll]) (Nat.lt_succ_self _)
  refine ⟨⟨⟨some consensus.virtualParents, some (amounts consensus.sortedUtxos),
    index'.store.utxos⟩, amounts consensus.sortedUtxos⟩, ?_, ?_, ?_⟩
  · obtain ⟨enough, hreturns⟩ := hloop
    refine ⟨enough, fun fuel hfuel => ?_⟩
    simp only [UtxoIndex.resync, UtxoIndex.onStore, getVirtualUtxos_none h, outcome_bind,
      outcome_zoom, outcome_unwrap, outcome_modify, map_some,
      bind_some]
    have hrun : (UtxoIndex.resyncLoop consensus fuel _ 0).outcome _ = _ := hreturns fuel hfuel
    rw [hrun]
    rfl
  · intro r
    rw [hholds r, (hperm.map row).mem_iff]
  · rw [amounts_eq_of_perm hperm]

end Resync

/-! ## Histories -/

/-- An operation on the index: a resync with a consensus set, or an update with a diff. -/
inductive IndexOp
  | resync (consensus : Consensus)
  | update (utxoDiff : UtxoDiff) (tips : List Hash)

namespace IndexOp

/-- Runs an operation. -/
def exec (fuel : ℕ) : IndexOp → Program UtxoIndex StoreError Unit
  | resync consensus => UtxoIndex.resync fuel consensus
  | update utxoDiff tips => do
    let _ ← UtxoIndex.update utxoDiff tips
    return ()

/-- The UTXO set after an operation. -/
def next (set : UtxoCollection) : IndexOp → UtxoCollection
  | resync consensus => consensus.utxoSet
  | update utxoDiff _ => set.writeDiff utxoDiff

/-- A diff is valid over the set reached so far. -/
def Valid (set : UtxoCollection) : IndexOp → Prop
  | resync _ => True
  | update utxoDiff _ => ValidOver (fun p => set.lookup p) utxoDiff

end IndexOp

/-- Runs operations one after the other. -/
def runOps (fuel : ℕ) : List IndexOp → Program UtxoIndex StoreError Unit
  | [] => return ()
  | op :: ops => do
    op.exec fuel
    runOps fuel ops

/-- Every operation is valid over the set reached so far, and leads to a set within the bounds. -/
def ValidHistory (set : UtxoCollection) : List IndexOp → Prop
  | [] => True
  | op :: ops => op.Valid set ∧ Bounded (op.next set) ∧ ValidHistory (op.next set) ops

/-- Every operation keeps the index on the set. -/
lemma exec_indexes {op : IndexOp} (h : Indexes index set) (hset : Bounded set)
    (hvalid : op.Valid set) (hnext : Bounded (op.next set)) :
    ∃ index', Fuel.Returns (fun fuel => (op.exec fuel).outcome index) (.ok (), index') ∧
      Indexes index' (op.next set) := by
  cases op with
  | resync consensus => exact resync_indexes hnext index
  | update utxoDiff tips =>
    obtain ⟨changes, index', ho, hindexes⟩ := update_indexes h hset hvalid hnext
    refine ⟨index', ⟨0, fun fuel _ => ?_⟩, hindexes⟩
    dsimp only [IndexOp.exec]
    rw [outcome_bind_ok ho]
    rfl

lemma runOps_indexes (ops : List IndexOp) (h : Indexes index set) (hset : Bounded set)
    (hvalid : ValidHistory set ops) :
    ∃ index', Fuel.Returns (fun fuel => (runOps fuel ops).outcome index) (.ok (), index') ∧
      Answers index' (ops.foldl IndexOp.next set) := by
  induction ops generalizing index set with
  | nil => exact ⟨index, Fuel.returns_const _, h.answers hset⟩
  | cons op ops ih =>
    obtain ⟨hop, hnext, hrest⟩ := hvalid
    obtain ⟨index', hexec, h'⟩ := exec_indexes h hset hop hnext
    obtain ⟨index'', hrun, hanswers⟩ := ih h' hnext hrest
    exact ⟨index'', returns_bind hexec hrun, hanswers⟩

/-- After a first resync, every history of resyncs and valid updates succeeds, and the index
answers every query by the set it has reached. -/
theorem runOps_answers (index : UtxoIndex) (consensus : Consensus) (ops : List IndexOp)
    (hvalid : ValidHistory ∅ (.resync consensus :: ops)) :
    ∃ index', Fuel.Returns (fun fuel => (runOps fuel (.resync consensus :: ops)).outcome index)
        (.ok (), index') ∧
      Answers index' (ops.foldl IndexOp.next consensus.utxoSet) := by
  obtain ⟨-, hbounded, hrest⟩ := hvalid
  obtain ⟨index', hresync, h⟩ := resync_indexes hbounded index
  obtain ⟨index'', hrun, hanswers⟩ := runOps_indexes ops h hbounded hrest
  exact ⟨index'', returns_bind hresync hrun, hanswers⟩

/-- An output of ten sompi with the given DAA score. -/
def tenSompi (daaScore : ℕ) : UtxoEntry := ⟨10, ⟨0, [1, 2]⟩, daaScore, false⟩

/-- The diff that removes an output and adds it again under another DAA score. -/
def readdTen : UtxoDiff :=
  changeOnly ⟨1, 0⟩ ⟨some (tenSompi 7), some (tenSompi 5)⟩

theorem runOps_answers_readdTen : ∃ index', Fuel.Returns (fun fuel =>
        (runOps fuel [.resync ⟨entryOnly ⟨1, 0⟩ (some (tenSompi 5)), [1]⟩,
          .update readdTen [2]]).outcome ⟨Store.deleteAll, 0⟩) (.ok (), index') ∧
      Answers index' ((entryOnly ⟨1, 0⟩ (some (tenSompi 5))).writeDiff readdTen) := by
  have hbounded : ∀ daaScore, Bounded (entryOnly ⟨1, 0⟩ (some (tenSompi daaScore))) := by
    intro daaScore
    constructor
    · intro s hs
      obtain rfl := mem_singleton.mp hs
      exact ⟨⟨by norm_num, by norm_num⟩, ⟨by simp only [tenSompi]; decide⟩⟩
    · show 10 ≤ maxSompi
      decide
  refine runOps_answers ⟨Store.deleteAll, 0⟩ ⟨entryOnly ⟨1, 0⟩ (some (tenSompi 5)), [1]⟩
    [.update readdTen [2]] ⟨trivial, hbounded 5, ?_, hbounded 7, trivial⟩
  apply validOver_changeOnly
  constructor <;> simp [IndexOp.next, lookup_entryOnly]

end LapisMonetae.Index
