import LapisMonetae.Index.UtxoIndex
import LapisMonetae.Lib.KeyedSort
import Mathlib.Algebra.Order.BigOperators.Group.List

/-!
# The flat key space of the UTXO index

A bucket carries the length of its script, so no bucket starts another one and a prefix scan stays
within its script public key. What the store holds is then a list of outpoints with their entries,
and every query reads this list back.
-/

namespace LapisMonetae.Index

open Utxo AssocMap LittleEndian List

/-! ## Keys -/

/-- A script public key with a length that its type holds. -/
structure EncodableScript (scriptPublicKey : ScriptPublicKey) : Prop where
  length : scriptPublicKey.script.length < 2 ^ 64

/-- An outpoint with the values that its types hold. -/
structure EncodableOutpoint (outpoint : TransactionOutpoint) : Prop where
  transactionId : outpoint.transactionId < 2 ^ 256
  index : outpoint.index < 2 ^ 32

/-- An outpoint and an entry with the values that their types hold. -/
structure Encodable (utxo : IndexedUtxo) : Prop where
  outpoint : EncodableOutpoint utxo.1
  script : EncodableScript utxo.2.scriptPublicKey

variable {script script' : ScriptPublicKey} {outpoint outpoint' : TransactionOutpoint}

@[simp] lemma length_hashBytes (hash : Hash) : (hashBytes hash).length = hashSize := by
  simp [hashBytes]

@[simp] lemma length_transactionOutpointKey (outpoint : TransactionOutpoint) :
    (transactionOutpointKey outpoint).length = transactionOutpointKeySize := by
  simp [transactionOutpointKey, transactionOutpointKeySize]

lemma hashFromSlice_hashBytes {hash : Hash} (h : hash < 2 ^ 256) :
    hashFromSlice (hashBytes hash) = hash := by
  rw [hashFromSlice, hashBytes, reverse_reverse, fromLeBytes_toLeBytes]
  exact h

/-- An outpoint is read back from its key. -/
lemma outpointOfKey_transactionOutpointKey (h : EncodableOutpoint outpoint) :
    outpointOfKey (transactionOutpointKey outpoint) = some outpoint := by
  have htake : (transactionOutpointKey outpoint).take hashSize =
      hashBytes outpoint.transactionId := take_left' (length_hashBytes _)
  have hdrop : (transactionOutpointKey outpoint).drop hashSize = toLeBytes 4 outpoint.index :=
    drop_left' (length_hashBytes _)
  rw [outpointOfKey, if_pos (length_transactionOutpointKey outpoint), htake, hdrop,
    hashFromSlice_hashBytes h.transactionId, fromLeBytes_toLeBytes h.index]

/-- A bucket starts the keys of its own script only. -/
lemma eq_of_bucket_isPrefix (h : EncodableScript script) (h' : EncodableScript script')
    {rest : List UInt8} (hbegins : scriptPublicKeyBucket script <+:
      scriptPublicKeyBucket script' ++ rest) : script = script' := by
  obtain ⟨rest', heq⟩ := hbegins
  simp only [scriptPublicKeyBucket, append_assoc] at heq
  -- the version and the length have fixed widths, and equal lengths leave equal scripts
  obtain ⟨hversion, heq⟩ := append_inj heq (by simp)
  obtain ⟨hlength, heq⟩ := append_inj heq (by simp)
  obtain ⟨hscript, -⟩ := append_inj heq (toLeBytes_inj h.length h'.length hlength)
  have hversion := toLeBytes_inj script.version.toNat_lt script'.version.toNat_lt hversion
  cases script
  cases script'
  simp_all [UInt16.toNat_inj]

lemma utxoEntryFullAccessKey_inj (h : EncodableScript script) (ho : EncodableOutpoint outpoint)
    (h' : EncodableScript script') (ho' : EncodableOutpoint outpoint')
    (heq : utxoEntryFullAccessKey script outpoint = utxoEntryFullAccessKey script' outpoint') :
    script = script' ∧ outpoint = outpoint' := by
  have hscript : script = script' := eq_of_bucket_isPrefix h h' ⟨_, heq⟩
  subst hscript
  have hkey := append_cancel_left heq
  have hread := outpointOfKey_transactionOutpointKey ho
  rw [hkey, outpointOfKey_transactionOutpointKey ho'] at hread
  exact ⟨rfl, (Option.some.inj hread).symm⟩

/-! ## The keys of the consensus set -/

/-- What `UtxoKey` leaves out of the index is zeros. -/
lemma drop_rpositionNonZero {bytes : List UInt8} (hne : bytes ≠ []) :
    (rpositionNonZero bytes).getD 0 + 1 ≤ bytes.length ∧
      ∀ b ∈ bytes.drop ((rpositionNonZero bytes).getD 0 + 1), b = 0 := by
  have hpos : 0 < bytes.length := length_pos_iff.mpr hne
  unfold rpositionNonZero
  cases hfind : bytes.reverse.findIdx? (· != 0) with
  | none =>
    have hzero := List.findIdx?_eq_none_iff.mp hfind
    refine ⟨hpos, fun b hb => ?_⟩
    simpa using hzero b (mem_reverse.mpr (mem_of_mem_drop hb))
  | some i =>
    obtain ⟨hi, -, hbefore⟩ := List.findIdx?_eq_some_iff_getElem.mp hfind
    rw [length_reverse] at hi
    have hcut : bytes.length - 1 - i + 1 = bytes.length - i := by omega
    refine ⟨by simp; omega, fun b hb => ?_⟩
    -- the bytes after the position are the first ones of the reversed list
    rw [Option.map_some, Option.getD_some, hcut] at hb
    have hmem : b ∈ bytes.reverse.take i := by
      rw [take_reverse]
      exact mem_reverse.mpr hb
    obtain ⟨j, hj, rfl⟩ := mem_take_iff_getElem.mp hmem
    simpa using hbefore j (by omega)

lemma outpointOfUtxoKey_utxoKey (h : EncodableOutpoint outpoint) :
    outpointOfUtxoKey (utxoKey outpoint) = some outpoint := by
  have hlen : (toLeBytes 4 outpoint.index).length = 4 := length_toLeBytes 4 _
  have hne : toLeBytes 4 outpoint.index ≠ [] := ne_nil_of_length_pos (by omega)
  obtain ⟨hle, hzero⟩ := drop_rpositionNonZero hne
  have hpos : 0 < (rpositionNonZero (toLeBytes 4 outpoint.index)).getD 0 + 1 := Nat.succ_pos _
  unfold outpointOfUtxoKey utxoKey
  set n := (rpositionNonZero (toLeBytes 4 outpoint.index)).getD 0 + 1
  have hlength : (hashBytes outpoint.transactionId ++
      (toLeBytes 4 outpoint.index).take n).length = hashSize + n := by
    rw [length_append, length_hashBytes, length_take, Nat.min_eq_left hle]
  -- padding restores the bytes of the index
  have hrest : (toLeBytes 4 outpoint.index).drop n = List.replicate (4 - n) 0 := by
    rw [eq_replicate_of_mem hzero, length_drop, hlen]
  have hpad : hashBytes outpoint.transactionId ++ (toLeBytes 4 outpoint.index).take n ++
      List.replicate (transactionOutpointKeySize - (hashSize + n)) 0 =
      transactionOutpointKey outpoint := by
    rw [transactionOutpointKeySize, Nat.add_sub_add_left, ← hrest, append_assoc,
      take_append_drop, transactionOutpointKey]
  rw [hlength, if_neg (by simp only [transactionOutpointKeySize]; omega), hpad,
    outpointOfKey_transactionOutpointKey h]

lemma keyOrder_inj (h : EncodableOutpoint outpoint) (h' : EncodableOutpoint outpoint')
    (heq : keyOrder outpoint = keyOrder outpoint') : outpoint = outpoint' := by
  have hkey : utxoKey outpoint = utxoKey outpoint' :=
    map_injective_iff.mpr (fun _ _ => UInt8.toNat_inj.mp) heq
  have hread := outpointOfUtxoKey_utxoKey h
  rw [hkey, outpointOfUtxoKey_utxoKey h'] at hread
  exact (Option.some.inj hread).symm

/-! ## What the store holds -/

/-- The row of an outpoint and its entry. -/
def row (utxo : IndexedUtxo) : Sigma fun _ : List UInt8 => CompactUtxoEntry :=
  ⟨utxoEntryFullAccessKey utxo.2.scriptPublicKey utxo.1, .from utxo.2⟩

/-- The store holds the rows of `utxos` and no others. -/
def IndexedUtxos.Holds (db : IndexedUtxos) (utxos : List IndexedUtxo) : Prop :=
  ∀ r, r ∈ db.entries ↔ r ∈ utxos.map row

/-- A nested map groups `utxos` by their script public keys. -/
def Groups (nested : UtxoSetByScriptPublicKey) (utxos : List IndexedUtxo) : Prop :=
  ∀ script outpoint compact, nested.get script outpoint = some compact ↔
    ∃ entry, ⟨outpoint, entry⟩ ∈ utxos ∧ entry.scriptPublicKey = script ∧ .from entry = compact

/-- The sum of all amounts. -/
def amounts (utxos : List IndexedUtxo) : ℕ := (utxos.map fun utxo => utxo.2.amount).sum

/-- `result` is `utxos` after the removals and then the additions of an update: it removes what is
there, and adds at outpoints that are free or that it removes. -/
structure Revises (utxos added removed result : List IndexedUtxo) : Prop where
  encodable : ∀ s ∈ utxos, Encodable s
  encodable_added : ∀ s ∈ added, Encodable s
  distinct : utxos.NodupKeys
  distinct_added : added.NodupKeys
  distinct_removed : removed.NodupKeys
  distinct_result : result.NodupKeys
  removed_sub : removed ⊆ utxos
  replaced : ∀ s ∈ utxos, ∀ t ∈ added, s.1 = t.1 → s ∈ removed
  mem_result : ∀ s, s ∈ result ↔ s ∈ added ∨ s ∈ utxos ∧ s ∉ removed

variable {db : IndexedUtxos} {utxos added removed result : List IndexedUtxo} {s t : IndexedUtxo}

lemma outpoint_eq_of_row_fst_eq (hs : Encodable s) (ht : Encodable t)
    (h : (row s).1 = (row t).1) : s.1 = t.1 :=
  (utxoEntryFullAccessKey_inj hs.script hs.outpoint ht.script ht.outpoint h).2

/-- A key of the store belongs to one outpoint. -/
lemma eq_of_row_fst_eq (henc : ∀ s ∈ utxos, Encodable s) (hdistinct : utxos.NodupKeys)
    (hs : s ∈ utxos) (ht : t ∈ utxos) (h : (row s).1 = (row t).1) : s = t :=
  hdistinct.eq_of_fst_eq hs ht (outpoint_eq_of_row_fst_eq (henc s hs) (henc t ht) h)

/-- The rows that are written for a group. -/
lemma Groups.mem_rows {nested : UtxoSetByScriptPublicKey} (h : Groups nested utxos)
    (r : Sigma fun _ : List UInt8 => CompactUtxoEntry) :
    r ∈ (nested.rows.map fun row => (⟨utxoEntryFullAccessKey row.1 row.2.1, row.2.2⟩ :
      Sigma fun _ : List UInt8 => CompactUtxoEntry)) ↔ r ∈ utxos.map row := by
  constructor
  · intro hr
    obtain ⟨⟨script, outpoint, compact⟩, hmem, rfl⟩ := mem_map.mp hr
    obtain ⟨entry, hin, rfl, rfl⟩ := (h _ _ _).mp (nested.mem_rows.mp hmem)
    exact mem_map.mpr ⟨_, hin, rfl⟩
  · intro hr
    obtain ⟨⟨outpoint, entry⟩, hin, rfl⟩ := mem_map.mp hr
    exact mem_map.mpr
      ⟨(entry.scriptPublicKey, outpoint, .from entry),
        nested.mem_rows.mpr ((h _ _ _).mpr ⟨entry, hin, rfl, rfl⟩), rfl⟩

lemma mem_entries_removeUtxoEntries {toRemove : UtxoSetByScriptPublicKey}
    (h : Groups toRemove removed) (r : Sigma fun _ : List UInt8 => CompactUtxoEntry) :
    r ∈ (db.removeUtxoEntries toRemove).entries ↔
      (∀ s ∈ removed, (row s).1 ≠ r.1) ∧ r ∈ db.entries := by
  rw [← AList.mem_lookup_iff, ← AList.mem_lookup_iff, Option.mem_def, Option.mem_def,
    IndexedUtxos.removeUtxoEntries, lookup_foldl_erase]
  refine and_congr_left fun _ => ?_
  -- the keys that are erased are those of the rows of the group
  have hkeys : (toRemove.rows.map fun row => utxoEntryFullAccessKey row.1 row.2.1) =
      (toRemove.rows.map fun row => (⟨utxoEntryFullAccessKey row.1 row.2.1, row.2.2⟩ :
        Sigma fun _ : List UInt8 => CompactUtxoEntry)).map Sigma.fst := by
    rw [map_map]
    rfl
  rw [hkeys]
  constructor
  · intro hnot s hs heq
    exact hnot (mem_map.mpr
      ⟨row s, (h.mem_rows _).mpr (mem_map_of_mem hs), heq⟩)
  · intro hne hmem
    obtain ⟨r', hr', heq⟩ := mem_map.mp hmem
    obtain ⟨s, hs, rfl⟩ := mem_map.mp ((h.mem_rows _).mp hr')
    exact hne s hs heq

lemma mem_entries_addUtxoEntries {toAdd : UtxoSetByScriptPublicKey} (h : Groups toAdd added)
    (henc : ∀ s ∈ added, Encodable s) (hdistinct : added.NodupKeys)
    (r : Sigma fun _ : List UInt8 => CompactUtxoEntry) : r ∈ (db.addUtxoEntries toAdd).entries ↔
      r ∈ added.map row ∨ (∀ s ∈ added, (row s).1 ≠ r.1) ∧ r ∈ db.entries := by
  rw [← AList.mem_lookup_iff, ← AList.mem_lookup_iff, Option.mem_def, Option.mem_def,
    IndexedUtxos.addUtxoEntries, lookup_foldl_insert]
  · refine or_congr (h.mem_rows _) (and_congr_left fun _ => ?_)
    constructor
    · intro hnone s hs heq
      exact hnone (row s).2 ((h.mem_rows _).mpr (mem_map.mpr ⟨s, hs, by rw [← heq]⟩))
    · intro hne v' hv'
      obtain ⟨s, hs, heq⟩ := mem_map.mp ((h.mem_rows _).mp hv')
      exact hne s hs (by rw [heq])
  · intro k v v' hv hv'
    obtain ⟨s, hs, hsr⟩ := mem_map.mp ((h.mem_rows _).mp hv)
    obtain ⟨t, ht, htr⟩ := mem_map.mp ((h.mem_rows _).mp hv')
    have heq : s = t := eq_of_row_fst_eq henc hdistinct hs ht (by rw [hsr, htr])
    subst heq
    rw [hsr] at htr
    exact eq_of_heq (Sigma.mk.inj htr).2

/-- An update of the store follows the update of the set. -/
lemma IndexedUtxos.Holds.update (hdb : db.Holds utxos)
    (hrevises : Revises utxos added removed result) {toAdd toRemove : UtxoSetByScriptPublicKey}
    (hadd : Groups toAdd added) (hremove : Groups toRemove removed) :
    IndexedUtxos.Holds ((db.removeUtxoEntries toRemove).addUtxoEntries toAdd) result := by
  intro r
  rw [mem_entries_addUtxoEntries hadd hrevises.encodable_added hrevises.distinct_added,
    mem_entries_removeUtxoEntries hremove, hdb r]
  constructor
  · rintro (hin | ⟨-, hne, hin⟩)
    · obtain ⟨s, hs, rfl⟩ := mem_map.mp hin
      exact mem_map_of_mem ((hrevises.mem_result s).mpr (.inl hs))
    · obtain ⟨s, hs, rfl⟩ := mem_map.mp hin
      exact mem_map_of_mem
        ((hrevises.mem_result s).mpr (.inr ⟨hs, fun hrem => hne s hrem rfl⟩))
  · intro hin
    obtain ⟨s, hs, rfl⟩ := mem_map.mp hin
    rcases (hrevises.mem_result s).mp hs with hs | ⟨hs, hkept⟩
    · exact .inl (mem_map_of_mem hs)
    · -- neither an added nor a removed row has the key of an entry that stays
      refine .inr ⟨fun t ht heq => hkept ?_, fun t ht heq => hkept ?_, mem_map_of_mem hs⟩
      · have hkey := outpoint_eq_of_row_fst_eq (hrevises.encodable_added t ht)
          (hrevises.encodable s hs) heq
        exact hrevises.replaced s hs t ht hkey.symm
      · have hsame := eq_of_row_fst_eq hrevises.encodable hrevises.distinct
          (hrevises.removed_sub ht) hs heq
        exact hsame ▸ ht

/-! ## Amounts -/

lemma amounts_cons (s : IndexedUtxo) (l : List IndexedUtxo) :
    amounts (s :: l) = s.2.amount + amounts l := by simp [amounts]

lemma amounts_append (l l' : List IndexedUtxo) : amounts (l ++ l') = amounts l + amounts l' := by
  simp [amounts]

lemma amounts_eq_of_perm {l l' : List IndexedUtxo} (h : l.Perm l') : amounts l = amounts l' :=
  (h.map _).sum_eq

/-- What an update removes and what it leaves of the old set. -/
lemma Revises.perm_utxos (h : Revises utxos added removed result) :
    utxos.Perm (removed ++ utxos.filter fun s => s ∉ removed) := by
  rw [perm_ext_iff_of_nodup h.distinct.nodup]
  · intro s
    by_cases hs : s ∈ removed
    · simp [hs, h.removed_sub hs]
    · simp [hs]
  · refine nodup_append'.mpr ⟨h.distinct_removed.nodup, h.distinct.nodup.filter _, ?_⟩
    intro s hs hs'
    exact absurd hs (by simpa using (mem_filter.mp hs').2)

/-- What an update adds and what it leaves of the old set. -/
lemma Revises.perm_result (h : Revises utxos added removed result) :
    result.Perm (added ++ utxos.filter fun s => s ∉ removed) := by
  rw [perm_ext_iff_of_nodup h.distinct_result.nodup]
  · intro s
    simp [h.mem_result]
  · refine nodup_append'.mpr ⟨h.distinct_added.nodup, h.distinct.nodup.filter _, ?_⟩
    intro s hs hs'
    obtain ⟨hin, hnot⟩ : s ∈ utxos ∧ s ∉ removed := by simpa using hs'
    exact hnot (h.replaced s hin s hs rfl)

/-- The amounts of an update balance. -/
lemma Revises.amounts_eq (h : Revises utxos added removed result) :
    amounts removed ≤ amounts utxos ∧
      amounts result + amounts removed = amounts utxos + amounts added := by
  rw [amounts_eq_of_perm h.perm_result, amounts_eq_of_perm h.perm_utxos, amounts_append,
    amounts_append]
  omega

/-! ## Queries -/

section Queries

variable (hdb : db.Holds utxos) (henc : ∀ s ∈ utxos, Encodable s) (hdistinct : utxos.NodupKeys)
  (hscript : EncodableScript script)

/-- What a scan of a bucket finds of an entry. -/
def scanned (utxo : IndexedUtxo) : List UInt8 × CompactUtxoEntry :=
  (transactionOutpointKey utxo.1, .from utxo.2)

include henc hscript in
lemma isPrefixOf_row {s : IndexedUtxo} (hs : s ∈ utxos) :
    (scriptPublicKeyBucket script).isPrefixOf (row s).1 = true ↔ s.2.scriptPublicKey = script := by
  rw [ isPrefixOf_iff_prefix]
  constructor
  · exact fun h => (eq_of_bucket_isPrefix hscript (henc s hs).script h).symm
  · rintro rfl
    exact prefix_append _ _

include hdb henc hdistinct hscript in
/-- A scan finds the entries of its script public key and no others. -/
lemma seekBucket_perm : (db.seekBucket (scriptPublicKeyBucket script)).Perm
    ((utxos.filter fun s => s.2.scriptPublicKey = script).map scanned) := by
  have hrows : db.entries.Perm (utxos.map row) := by
    rw [perm_ext_iff_of_nodup db.nodupKeys.nodup]
    · exact hdb
    · refine hdistinct.nodup.map_on ?_
      intro s hs t ht heq
      exact eq_of_row_fst_eq henc hdistinct hs ht (by rw [heq])
  refine ((hrows.filter _).map _).trans ?_
  rw [filter_map, map_map]
  have hfilter : (utxos.filter ((fun r => (scriptPublicKeyBucket script).isPrefixOf r.1) ∘ row)) =
      utxos.filter fun s => s.2.scriptPublicKey = script := by
    apply filter_congr
    intro s hs
    rw [Bool.eq_iff_iff, decide_eq_true_iff]
    exact isPrefixOf_row henc hscript hs
  rw [hfilter]
  apply List.Perm.of_eq
  apply map_congr_left
  intro s hs
  obtain rfl : s.2.scriptPublicKey = script := by simpa using (mem_filter.mp hs).2
  show (List.drop _ (_ ++ _), _) = _
  rw [drop_left]
  rfl

include hdb henc hdistinct hscript in
/-- A query for one script public key returns the outpoints and entries of this script. -/
lemma compactUtxos_eq : ∃ m, db.compactUtxos script = some m ∧ ∀ outpoint compact,
    m.lookup outpoint = some compact ↔ ∃ entry, ⟨outpoint, entry⟩ ∈ utxos ∧
      entry.scriptPublicKey = script ∧ .from entry = compact := by
  obtain ⟨found, hperm, hrows⟩ :=
    exists_map_of_perm_map (seekBucket_perm hdb henc hdistinct hscript)
  have hfound : ∀ s, s ∈ found ↔ s ∈ utxos ∧ s.2.scriptPublicKey = script := by
    intro s
    rw [hperm.mem_iff, mem_filter, decide_eq_true_iff]
  let compactRow : IndexedUtxo → Sigma fun _ : TransactionOutpoint => CompactUtxoEntry :=
    fun s => ⟨s.1, .from s.2⟩
  refine ⟨(found.map compactRow).foldl (fun m s => m.insert s.1 s.2) ∅, ?_, ?_⟩
  · rw [IndexedUtxos.compactUtxos, hrows, foldlM_map, foldl_map]
    apply foldlM_eq_some_foldl
    intro m s hs
    have hkey := outpointOfKey_transactionOutpointKey (henc s ((hfound s).mp hs).1).outpoint
    show (do return m.insert (← outpointOfKey (transactionOutpointKey s.1)) _) = _
    rw [hkey]
    rfl
  · intro outpoint compact
    rw [lookup_foldl_insert]
    · constructor
      · rintro (hin | ⟨-, hin⟩)
        · obtain ⟨⟨o, entry⟩, hs, heq⟩ := mem_map.mp hin
          cases heq
          exact ⟨entry, ((hfound _).mp hs).1, ((hfound _).mp hs).2, rfl⟩
        · cases hin
      · rintro ⟨entry, hin, hentry, rfl⟩
        exact .inl (mem_map.mpr ⟨_, (hfound _).mpr ⟨hin, hentry⟩, rfl⟩)
    · intro o c c' hc hc'
      obtain ⟨s, hs, hsr⟩ := mem_map.mp hc
      obtain ⟨t, ht, htr⟩ := mem_map.mp hc'
      have hst : s = t := hdistinct.eq_of_fst_eq ((hfound s).mp hs).1 ((hfound t).mp ht).1
        ((Sigma.mk.inj hsr).1.trans (Sigma.mk.inj htr).1.symm)
      subst hst
      rw [hsr] at htr
      exact eq_of_heq (Sigma.mk.inj htr).2

include hdb henc hdistinct hscript in
lemma balance_eq (hsum : amounts utxos ≤ u64Max) : db.balance script =
    some (amounts (utxos.filter fun s => s.2.scriptPublicKey = script)) := by
  have hperm := seekBucket_perm hdb henc hdistinct hscript
  have hamounts : ((db.seekBucket (scriptPublicKeyBucket script)).map fun r => r.2.amount).sum =
      amounts (utxos.filter fun s => s.2.scriptPublicKey = script) := by
    rw [(hperm.map _).sum_eq, map_map]
    rfl
  have hle : amounts (utxos.filter fun s => s.2.scriptPublicKey = script) ≤ amounts utxos :=
    ((filter_sublist (l := utxos)).map _).sum_le_sum fun _ _ => Nat.zero_le _
  exact foldlM_checkedAdd_eq_some.mpr ⟨by omega, hamounts⟩

end Queries

end LapisMonetae.Index
