import LapisMonetae.Lib.AssocMap
import LapisMonetae.Lib.KeyedSort
import LapisMonetae.Reachability.Staging

/-!
# What the reachability operations mean, and that the store follows them

The meaning of an operation is given on a view: the data of each block, its two sets as lists, and
the reindex root. A store in the database follows the view when its data are those of the view, its
buckets hold the elements of the lists, and what it has cached are the lists. A set that is not
cached is read in the order of the intervals, so that it is the list when the intervals increase.
-/

namespace LapisMonetae.Staging

open KeyedSort List
open Reachability (Interval Result err fail unwrap ReachabilityError)
open Reachability.ReachabilityStore (splice)

/-! ## The database at one key -/

namespace DbWrite

/-- The effect of a write on the data of a block. -/
def onData (h : Hash) (data : Option ReachabilityData) : DbWrite → Option ReachabilityData
  | putData hash new => if h = hash then some new else data
  | deleteData hash => if h = hash then none else data
  | _ => data

/-- The effect of a write on a bucket. -/
def onBucket (k : SetKind) (h : Hash) (bucket : List Hash) : DbWrite → List Hash
  | put kind hash element =>
    if k = kind ∧ h = hash then
      if element ∈ bucket then bucket else bucket.orderedInsert (· ≤ ·) element
    else bucket
  | delete kind hash element => if k = kind ∧ h = hash then bucket.filter (· ≠ element) else bucket
  | deleteBucket kind hash => if k = kind ∧ h = hash then [] else bucket
  | _ => bucket

/-- The effect of a write on the reindex root. -/
def onRoot (root : Option Hash) : DbWrite → Option Hash
  | putReindexRoot new => some new
  | _ => root

end DbWrite

namespace Db

variable (db : Db)

lemma lookup_apply (h : Hash) (w : DbWrite) :
    (db.apply w).data.lookup h = w.onData h (db.data.lookup h) := by
  cases w with
  | putData hash data => exact AssocMap.lookup_insert_ite _ _ _ _
  | deleteData hash => exact AssocMap.lookup_erase_ite _ _ _
  | put | delete | deleteBucket | putReindexRoot => rfl

lemma sets_apply (k : SetKind) (h : Hash) (w : DbWrite) :
    (db.apply w).sets k h = w.onBucket k h (db.sets k h) := by
  cases w with
  | put kind hash | delete kind hash | deleteBucket kind hash =>
    by_cases heq : k = kind ∧ h = hash
    · obtain ⟨rfl, rfl⟩ := heq
      simp [apply, setBucket, DbWrite.onBucket]
    · simp only [apply, setBucket, DbWrite.onBucket, if_neg heq]
  | putData | deleteData | putReindexRoot => rfl

lemma reindexRoot_apply (w : DbWrite) : (db.apply w).reindexRoot = w.onRoot db.reindexRoot := by
  cases w <;> rfl

lemma lookup_write (h : Hash) (batch : List DbWrite) :
    (db.write batch).data.lookup h = batch.foldl (DbWrite.onData h) (db.data.lookup h) :=
  (foldl_hom (fun db : Db => db.data.lookup h) fun db w => (lookup_apply db h w).symm).symm

lemma sets_write (k : SetKind) (h : Hash) (batch : List DbWrite) :
    (db.write batch).sets k h = batch.foldl (DbWrite.onBucket k h) (db.sets k h) :=
  (foldl_hom (fun db : Db => db.sets k h) fun db w => (sets_apply db k h w).symm).symm

lemma reindexRoot_write (batch : List DbWrite) :
    (db.write batch).reindexRoot = batch.foldl DbWrite.onRoot db.reindexRoot :=
  (foldl_hom Db.reindexRoot fun db w => (reindexRoot_apply db w).symm).symm

end Db

/-! ## Edits of a set -/

/-- The bucket holds the elements of the list. -/
structure BucketOf (bucket l : List Hash) : Prop where
  nodup_bucket : bucket.Nodup
  nodup : l.Nodup
  mem_iff : ∀ x, x ∈ bucket ↔ x ∈ l

variable {l : List Hash} {index : ℕ}
variable {s : DbReachabilityStore} {element replaced : Hash} {bucket set : List Hash} {v : View}

lemma BucketOf.perm (h : BucketOf bucket l) : bucket.Perm l :=
  (perm_ext_iff_of_nodup h.nodup_bucket h.nodup).mpr h.mem_iff

/-- The list `l` becomes `l'`: some of its elements are removed, others are added. -/
structure Edit (l l' removed added : List Hash) : Prop where
  nodup : l'.Nodup
  mem_iff : ∀ x, x ∈ l' ↔ (x ∈ l ∧ x ∉ removed) ∨ x ∈ added
  removed_mem : ∀ x ∈ removed, x ∈ l
  fresh : ∀ x ∈ added, x ∈ l → x ∈ removed
  nodup_added : added.Nodup

lemma edit_insertIdx (hl : l.Nodup) (h : element ∉ l) (hindex : index ≤ l.length) :
    Edit l (l.insertIdx index element) [] [element] where
  nodup := ((perm_insertIdx element l hindex).nodup_iff).mpr (nodup_cons.mpr ⟨h, hl⟩)
  mem_iff x := by
    rw [mem_insertIdx hindex, mem_singleton]
    simp [or_comm]
  removed_mem x hx := absurd hx not_mem_nil
  fresh x hx hmem := by
    rw [mem_singleton] at hx
    exact absurd (hx ▸ hmem) h
  nodup_added := nodup_singleton element

lemma edit_append (hl : l.Nodup) (h : element ∉ l) : Edit l (l ++ [element]) [] [element] := by
  have hedit := edit_insertIdx hl h le_rfl
  rwa [insertIdx_length_self] at hedit

lemma edit_splice (hl : l.Nodup) (hindex : l[index]? = some replaced) {replaceWith : List Hash}
    (hnodup : replaceWith.Nodup) (hfresh : ∀ x ∈ replaceWith, x ∈ l → x = replaced) :
    Edit l (splice l index replaceWith) [replaced] replaceWith := by
  obtain ⟨hlt, hget⟩ := List.getElem?_eq_some_iff.mp hindex
  -- the list around the replaced element
  have hsplit : l = l.take index ++ replaced :: l.drop (index + 1) := by
    rw [← hget, getElem_cons_drop, take_append_drop]
  have hperm : (splice l index replaceWith).Perm
      (replaceWith ++ (l.take index ++ l.drop (index + 1))) := by
    unfold splice
    rw [append_assoc]
    exact perm_append_comm_assoc _ _ _
  generalize l.take index = before at hsplit hperm
  generalize l.drop (index + 1) = after at hsplit hperm
  subst hsplit
  have hparts := nodup_middle.mp hl
  obtain ⟨hnot, hrest⟩ := nodup_cons.mp hparts
  refine ⟨?_, ?_, ?_, ?_, hnodup⟩
  · rw [hperm.nodup_iff, nodup_append']
    refine ⟨hnodup, hrest, ?_⟩
    intro x hx hmem
    have hxl : x ∈ before ++ replaced :: after := by
      rw [mem_append] at hmem ⊢
      exact hmem.imp_right (mem_cons_of_mem _)
    exact hnot (hfresh x hx hxl ▸ hmem)
  · intro x
    rw [hperm.mem_iff, mem_append, mem_append, mem_append, mem_cons, mem_singleton]
    rw [mem_append] at hnot
    constructor
    · rintro (h | h)
      · exact .inr h
      · exact .inl ⟨h.imp_right .inr, fun heq => hnot (heq ▸ h)⟩
    · rintro (⟨h | h | h, hne⟩ | h)
      · exact .inr (.inl h)
      · exact absurd h hne
      · exact .inr (.inr h)
      · exact .inl h
  · intro x hx
    rw [mem_singleton] at hx
    rw [hx]
    exact mem_append_right _ mem_cons_self
  · intro x hx hmem
    exact mem_singleton.mpr (hfresh x hx hmem)

/-- The writes of an edit. -/
def editWrites (kind : SetKind) (hash : Hash) (removed added : List Hash) : List DbWrite :=
  removed.map (.delete kind hash) ++ added.map (.put kind hash)

section

variable (kind : SetKind) (hash : Hash)

lemma foldl_delete (removed bucket : List Hash) :
    (removed.map (.delete kind hash)).foldl (DbWrite.onBucket kind hash) bucket =
      bucket.filter (· ∉ removed) := by
  induction removed generalizing bucket with
  | nil => simp
  | cons x removed ih =>
    rw [map_cons, foldl_cons, ih]
    simp only [DbWrite.onBucket, and_self, if_true, filter_filter, mem_cons, not_or]
    congr 1
    funext y
    simp only [decide_not, Bool.decide_and, Bool.and_comm]

lemma foldl_put {bucket : List Hash} (hnodup : bucket.Nodup) (added : List Hash) :
    ((added.map (.put kind hash)).foldl (DbWrite.onBucket kind hash) bucket).Nodup ∧
    ∀ x, x ∈ (added.map (.put kind hash)).foldl (DbWrite.onBucket kind hash) bucket ↔
      x ∈ bucket ∨ x ∈ added := by
  induction added generalizing bucket with
  | nil => exact ⟨hnodup, fun x => by simp⟩
  | cons y added ih =>
    rw [map_cons, foldl_cons]
    simp only [DbWrite.onBucket, and_self, if_true]
    by_cases hy : y ∈ bucket
    · rw [if_pos hy]
      refine ⟨(ih hnodup).1, fun x => ?_⟩
      rw [(ih hnodup).2, mem_cons]
      constructor
      · exact Or.imp_right .inr
      · rintro (h | rfl | h)
        · exact .inl h
        · exact .inl hy
        · exact .inr h
    · rw [if_neg hy]
      have hinsert : (bucket.orderedInsert (· ≤ ·) y).Nodup :=
        ((perm_orderedInsert _ y bucket).nodup_iff).mpr (nodup_cons.mpr ⟨hy, hnodup⟩)
      refine ⟨(ih hinsert).1, fun x => ?_⟩
      rw [(ih hinsert).2, mem_orderedInsert, mem_cons]
      tauto

/-- The writes of an edit make the bucket of the new list. -/
lemma BucketOf.edit {bucket l l' removed added : List Hash} (h : BucketOf bucket l)
    (hedit : Edit l l' removed added) :
    BucketOf ((editWrites kind hash removed added).foldl (DbWrite.onBucket kind hash) bucket) l' := by
  unfold editWrites
  rw [foldl_append, foldl_delete]
  obtain ⟨hnodup, hmem⟩ := foldl_put kind hash (h.nodup_bucket.filter (· ∉ removed)) added
  refine ⟨hnodup, hedit.nodup, fun x => ?_⟩
  rw [hmem, hedit.mem_iff, mem_filter, h.mem_iff, decide_eq_true_iff]

/-- What neither write of an edit changes, the edit does not change. -/
lemma foldl_editWrites_fixed {α : Type} {f : α → DbWrite → α} {a : α}
    (hdelete : ∀ x, f a (.delete kind hash x) = a)
    (hput : ∀ x, f a (.put kind hash x) = a) (removed added : List Hash) :
    (editWrites kind hash removed added).foldl f a = a := by
  rw [editWrites, foldl_append, foldl_map, foldl_map,
    foldl_fixed' (f := fun a x => f a (.delete kind hash x)) hdelete]
  exact foldl_fixed' hput added

/-- The writes of an edit leave the other buckets. -/
lemma foldl_editWrites_of_ne {k : SetKind} {h : Hash} (hne : ¬(k = kind ∧ h = hash))
    (removed added bucket : List Hash) :
    (editWrites kind hash removed added).foldl (DbWrite.onBucket k h) bucket = bucket :=
  foldl_editWrites_fixed kind hash (fun _ => if_neg hne) (fun _ => if_neg hne) removed added

end

/-! ## Views -/

/-- What a store answers, and the blocks that were deleted. -/
structure View where
  data : Hash → Option ReachabilityData
  sets : SetKind → Hash → List Hash
  reindexRoot : Option Hash
  deleted : List Hash

namespace View

def setData (v : View) (hash : Hash) (data : Option ReachabilityData) : View :=
  { v with data := fun h => if h = hash then data else v.data h }

def setList (v : View) (kind : SetKind) (hash : Hash) (l : List Hash) : View :=
  { v with sets := fun k h => if k = kind ∧ h = hash then l else v.sets k h }

/-- The key by which a set is ordered. -/
def key (data : Hash → Option ReachabilityData) (hash : Hash) : ℕ ×ₗ ℕ :=
  (data hash).elim (toLex (0, 0)) fun d => intervalKey d.interval

/-- The elements of a list exist, and their intervals increase. -/
structure Ordered (data : Hash → Option ReachabilityData) (l : List Hash) : Prop where
  exist : ∀ x ∈ l, (data x).isSome
  increasing : Increasing (key data) l

end View

namespace Op

/-- The view after an operation, and the error that the operation returns. -/
def onView (v : View) : Op → View × Option ReachabilityError
  | init origin capacity =>
    if (v.data origin).isSome then (v, some (.hashAlreadyExists origin))
    else ({ v.setData origin (some ⟨BlockHash.none, capacity, 0⟩) with reindexRoot := some origin },
      none)
  | insert hash parent interval height =>
    if (v.data hash).isSome then (v, some (.hashAlreadyExists hash))
    else (v.setData hash (some ⟨parent, interval, height⟩), none)
  | setInterval hash interval =>
    match v.data hash with
    | some data => (v.setData hash (some { data with interval }), none)
    | none => (v, some (.keyNotFound hash))
  | setParent hash newParent =>
    match v.data hash with
    | some data => (v.setData hash (some { data with parent := newParent }), none)
    | none => (v, some (.keyNotFound hash))
  | appendChild hash child => (v.setList .children hash (v.sets .children hash ++ [child]), none)
  | insertFutureCoveringItem hash fci index =>
    (v.setList .futureCovering hash ((v.sets .futureCovering hash).insertIdx index fci), none)
  | replaceChild hash _ index replaceWith =>
    (v.setList .children hash (splice (v.sets .children hash) index replaceWith), none)
  | replaceFutureCoveringItem hash _ index replaceWith =>
    (v.setList .futureCovering hash (splice (v.sets .futureCovering hash) index replaceWith), none)
  | delete hash =>
    ({ v.setData hash none with deleted := v.deleted.insert hash }, none)
  | setReindexRoot root => ({ v with reindexRoot := some root }, none)

/-- A replacement of the element at the index by new elements. -/
def Replaces (l : List Hash) (replaced : Hash) (index : ℕ) (replaceWith : List Hash) : Prop :=
  l[index]? = some replaced ∧ replaceWith.Nodup ∧ ∀ x ∈ replaceWith, x ∈ l → x = replaced

/-- A new block was not deleted, and a new origin does not exist. What is added to a set is new
there, and what is replaced is at the index. -/
def Valid (v : View) : Op → Prop
  | init origin _ => origin ∉ v.deleted ∧ v.data origin = none
  | insert hash _ _ _ => hash ∉ v.deleted
  | appendChild hash child => child ∉ v.sets .children hash
  | insertFutureCoveringItem hash fci index =>
    fci ∉ v.sets .futureCovering hash ∧ index ≤ (v.sets .futureCovering hash).length
  | replaceChild hash replaced index replaceWith =>
    Replaces (v.sets .children hash) replaced index replaceWith
  | replaceFutureCoveringItem hash replaced index replaceWith =>
    Replaces (v.sets .futureCovering hash) replaced index replaceWith
  | setInterval _ _ | setParent _ _ | delete _ | setReindexRoot _ => True

end Op

/-! ## Reading a set -/

lemma mapM_eq_ok {α β : Type} {f : α → Result β} {g : α → β} {l : List α}
    (h : ∀ a ∈ l, f a = .ok (g a)) : l.mapM f = .ok (l.map g) := by
  induction l with
  | nil => rfl
  | cons a l ih =>
    rw [mapM_cons, h a mem_cons_self, ih fun b hb => h b (mem_cons_of_mem _ hb)]
    rfl

/-- A bucket is read in the order of the intervals. -/
lemma sortByCachedKey_eq {db : Db} {data : Hash → Option ReachabilityData}
    (hdata : ∀ h, db.data.lookup h = data h) (hbucket : BucketOf bucket l)
    (hordered : View.Ordered data l) :
    sortByCachedKey (fun h => do return (← unwrap (db.read h)).interval) bucket = .ok l := by
  have hperm := hbucket.perm
  unfold sortByCachedKey
  split_ifs with hlength
  · -- one element has one order
    match bucket, l, hperm with
    | [], l, hperm => rw [nil_perm.mp hperm]
    | [x], l, hperm => rw [singleton_perm.mp hperm]
    | _ :: _ :: bucket, l, hperm =>
      simp only [length_cons] at hlength
      omega
  · have hkeys : ∀ x ∈ bucket, (do return (intervalKey
        (← (do return (← unwrap (db.read x)).interval : Result Interval)), x)) =
        (.ok (View.key data x, x) : Result ((ℕ ×ₗ ℕ) × Hash)) := by
      intro x hx
      obtain ⟨d, hd⟩ := Option.isSome_iff_exists.mp (hordered.exist x (hperm.mem_iff.mp hx))
      have hread : db.read x = .ok d := by
        unfold Db.read
        rw [hdata, hd]
      rw [hread]
      unfold View.key
      rw [hd]
      rfl
    rw [mapM_eq_ok hkeys]
    exact congrArg Except.ok (hordered.increasing.insertionSort_keyed hperm)

/-! ## The store follows the view -/

/-- The data are those of the view. But for blocks that are gone, the sets have the elements of the
lists, and those of them that are cached are the lists. -/
structure Follows (gone : List Hash) (s : DbReachabilityStore) (v : View) : Prop where
  data : ∀ h, s.db.data.lookup h = v.data h
  sets : ∀ kind h, h ∉ gone → BucketOf (s.db.sets kind h) (v.sets kind h)
  cached : ∀ kind h, h ∉ gone → ∀ entry, s.caches kind h = some entry → entry = v.sets kind h
  root : s.db.reindexRoot = v.reindexRoot

namespace Follows

variable {gone : List Hash} {s : DbReachabilityStore} {v : View}
variable {hash : Hash} {kind : SetKind}

lemma evict (h : Follows gone s v) (keep : SetKind → Hash → Bool) : Follows gone (s.evict keep) v :=
  { h with
    cached kind hash hhash entry hentry := by
      unfold DbReachabilityStore.evict at hentry
      dsimp only at hentry
      split_ifs at hentry
      exact h.cached kind hash hhash entry hentry }

/-- A set in increasing order is read as the list, cached or not. -/
lemma readSet_eq (h : Follows gone s v) (hhash : hash ∉ gone)
    (hordered : View.Ordered v.data (v.sets kind hash)) :
    ∃ next, s.readSet kind hash = .ok (v.sets kind hash, next) ∧ next.db = s.db ∧
      ∀ k x entry, next.caches k x = some entry →
        s.caches k x = some entry ∨ (k = kind ∧ x = hash) ∧ entry = v.sets kind hash := by
  unfold DbReachabilityStore.readSet
  cases hcache : s.caches kind hash with
  | some entry =>
    obtain rfl := h.cached kind hash hhash entry hcache
    exact ⟨s, rfl, rfl, fun k x entry hentry => .inl hentry⟩
  | none =>
    have hsort := sortByCachedKey_eq h.data (h.sets kind hash hhash) hordered
    refine ⟨s.cacheSet kind hash (some (v.sets kind hash)), ?_, rfl, ?_⟩
    · show sortByCachedKey _ _ >>= _ = _
      rw [hsort]
      rfl
    · intro k x entry hentry
      unfold DbReachabilityStore.cacheSet at hentry
      dsimp only at hentry
      split_ifs at hentry with heq
      · exact .inr ⟨heq, (Option.some.inj hentry).symm⟩
      · exact .inl hentry

lemma has_eq (h : Follows gone s v) (hash : Hash) : s.has hash = (v.data hash).isSome :=
  congrArg Option.isSome (h.data hash)

lemma read_eq (h : Follows gone s v) (hash : Hash) : s.db.read hash = match v.data hash with
      | some data => .ok data
      | none => err (.keyNotFound hash) := by
  unfold Db.read
  cases hdata : v.data hash <;> simp only [h.data, hdata]

/-! ### Operations on the store -/

lemma putData (h : Follows [] s v) (hash : Hash) (data : ReachabilityData) :
    Follows [] (s.direct [.putData hash data]) (v.setData hash (some data)) :=
  { h with
    data x := by
      show (s.db.write _).data.lookup x = _
      rw [Db.lookup_write, h.data]
      rfl }

lemma deleteData (h : Follows [] s v) (hash : Hash) : Follows [] (s.direct [.deleteData hash])
      { v.setData hash none with deleted := v.deleted.insert hash } :=
  { h with
    data x := by
      show (s.db.write _).data.lookup x = _
      rw [Db.lookup_write, h.data]
      rfl }

lemma putReindexRoot (h : Follows [] s v) (root : Hash) :
    Follows [] (s.direct [.putReindexRoot root]) { v with reindexRoot := some root } :=
  { h with
    root := rfl }

lemma editSet (h : Follows [] s v) {l' removed added : List Hash}
    (hedit : Edit (v.sets kind hash) l' removed added) (change : List Hash → Result (List Hash))
    (hchange : change (v.sets kind hash) = .ok l') :
    ∃ next, attempt s (s.updateCached kind hash change >>= fun mid =>
        pure (mid.direct (editWrites kind hash removed added))) = .ok (next, none) ∧
      Follows [] next (v.setList kind hash l') := by
  -- the cache is changed first
  have hcache : ∃ mid, s.updateCached kind hash change = .ok mid ∧ mid.db = s.db ∧
      ∀ k x, x ∉ [] → ∀ entry, mid.caches k x = some entry →
        entry = (v.setList kind hash l').sets k x := by
    unfold DbReachabilityStore.updateCached
    cases hentry : s.caches kind hash with
    | some entry =>
      obtain rfl := h.cached kind hash not_mem_nil entry hentry
      refine ⟨s.cacheSet kind hash (some l'), ?_, rfl, ?_⟩
      · show change _ >>= _ = _
        rw [hchange]
        rfl
      · intro k x hx entry hsome
        unfold DbReachabilityStore.cacheSet at hsome
        unfold View.setList
        dsimp only at hsome ⊢
        split_ifs at hsome ⊢ with heq
        · exact (Option.some.inj hsome).symm
        · exact h.cached k x hx entry hsome
    | none =>
      refine ⟨s, rfl, rfl, ?_⟩
      intro k x hx entry hsome
      unfold View.setList
      dsimp only
      rw [if_neg]
      · exact h.cached k x hx entry hsome
      · rintro ⟨rfl, rfl⟩
        rw [hentry] at hsome
        exact absurd hsome (Option.some_ne_none entry).symm
  obtain ⟨mid, hmid, hdb, hcached⟩ := hcache
  refine ⟨mid.direct (editWrites kind hash removed added), ?_, ?_, ?_, hcached, ?_⟩
  · rw [hmid]
    rfl
  · intro x
    show (mid.db.write _).data.lookup x = v.data x
    rw [hdb, Db.lookup_write, foldl_editWrites_fixed _ _ (fun _ => rfl) fun _ => rfl, h.data]
  · intro k x hx
    show BucketOf ((mid.db.write _).sets k x) (if k = kind ∧ x = hash then l' else v.sets k x)
    rw [hdb, Db.sets_write]
    by_cases heq : k = kind ∧ x = hash
    · obtain ⟨rfl, rfl⟩ := heq
      rw [if_pos ⟨rfl, rfl⟩]
      exact (h.sets k x hx).edit k x hedit
    · rw [if_neg heq, foldl_editWrites_of_ne kind hash heq]
      exact h.sets k x hx
  · show (mid.db.write _).reindexRoot = v.reindexRoot
    rw [hdb, Db.reindexRoot_write, foldl_editWrites_fixed _ _ (fun _ => rfl) fun _ => rfl, h.root]

lemma changeData (h : Follows [] s v) (hash : Hash) (f : ReachabilityData → ReachabilityData) :
    let result : View × Option ReachabilityError := match v.data hash with
      | some data => (v.setData hash (some (f data)), none)
      | none => (v, some (.keyNotFound hash))
    ∃ next, attempt s (do
        let data ← s.db.read hash
        return s.direct [.putData hash (f data)]) = .ok (next, result.2) ∧
      Follows [] next result.1 := by
  rw [h.read_eq]
  cases v.data hash with
  | some data => exact ⟨_, rfl, h.putData hash (f data)⟩
  | none => exact ⟨s, rfl, h⟩

end Follows

lemma vecInsert_eq (h : index ≤ set.length) (element : Hash) :
    vecInsert set index element = .ok (set.insertIdx index element) := if_pos h

lemma vecSplice_eq (h : set[index]? = some replaced) (replaceWith : List Hash) :
    vecSplice set index replaceWith = .ok (splice set index replaceWith) :=
  if_pos (List.getElem?_eq_some_iff.mp h).1

lemma Op.onStore_follows (h : Follows [] s v) {op : Op} (hvalid : op.Valid v) :
    ∃ next, attempt s (op.onStore s) = .ok (next, (op.onView v).2) ∧
      Follows [] next (op.onView v).1 := by
  cases op with
  | init origin capacity =>
    have hhas : ¬(v.data origin).isSome := by
      rw [hvalid.2]
      exact Bool.false_ne_true
    simp only [onStore, DbReachabilityStore.init, onView, h.has_eq, if_neg hhas]
    exact ⟨_, rfl, (h.putData origin _).putReindexRoot origin⟩
  | insert hash parent interval height =>
    simp only [onStore, DbReachabilityStore.insert, onView, h.has_eq]
    by_cases hhas : (v.data hash).isSome
    · rw [if_pos hhas, if_pos hhas]
      exact ⟨s, rfl, h⟩
    · rw [if_neg hhas, if_neg hhas]
      exact ⟨_, rfl, h.putData hash _⟩
  | setInterval hash interval => exact h.changeData hash fun data => { data with interval }
  | setParent hash newParent => exact h.changeData hash fun data => { data with parent := newParent }
  | appendChild hash child =>
    exact h.editSet (edit_append (h.sets _ hash not_mem_nil).nodup hvalid)
      (fun l => .ok (l ++ [child])) rfl
  | insertFutureCoveringItem hash fci index =>
    obtain ⟨hfresh, hindex⟩ := hvalid
    exact h.editSet (edit_insertIdx (h.sets _ hash not_mem_nil).nodup hfresh hindex)
      (vecInsert · index fci) (vecInsert_eq hindex fci)
  | replaceChild hash replaced index replaceWith
  | replaceFutureCoveringItem hash replaced index replaceWith =>
    obtain ⟨hindex, hnodup, hfresh⟩ := hvalid
    exact h.editSet (edit_splice (h.sets _ hash not_mem_nil).nodup hindex hnodup hfresh)
      (vecSplice · index replaceWith) (vecSplice_eq hindex replaceWith)
  | delete hash => exact ⟨_, rfl, h.deleteData hash⟩
  | setReindexRoot root => exact ⟨_, rfl, h.putReindexRoot root⟩

/-! ## Runs -/

/-- The view after one more operation, with the errors that were returned so far. -/
def View.step (state : View × List (Option ReachabilityError)) (op : Op) :
    View × List (Option ReachabilityError) :=
  ((op.onView state.1).1, state.2 ++ [(op.onView state.1).2])

/-- The view after the operations, and the errors that they return. -/
def View.run (v : View) (ops : List Op) : View × List (Option ReachabilityError) :=
  ops.foldl View.step (v, [])

/-- Each operation is valid where it is called. -/
def View.ValidFrom (v : View) : List Op → Prop
  | [] => True
  | op :: ops => op.Valid v ∧ (op.onView v).1.ValidFrom ops

lemma foldlM_onStore_follows (events : List Event)
    (hreads : ∀ kind hash, Event.readSet kind hash ∉ events) :
    ∀ {s : DbReachabilityStore} {v : View} (errors : List (Option ReachabilityError)),
      Follows [] s v → v.ValidFrom (events.filterMap Event.op?) →
      ∃ next, events.foldlM Event.onStore (s, errors) =
          .ok (next, ((events.filterMap Event.op?).foldl View.step (v, errors)).2) ∧
        Follows [] next ((events.filterMap Event.op?).foldl View.step (v, errors)).1 := by
  induction events with
  | nil => exact fun _ h _ => ⟨_, rfl, h⟩
  | cons event events ih =>
    intro s v errors h hvalid
    have htail : ∀ kind hash, Event.readSet kind hash ∉ events :=
      fun kind hash hmem => hreads kind hash (mem_cons_of_mem _ hmem)
    cases event with
    | call op =>
      obtain ⟨mid, heval, hmid⟩ := op.onStore_follows h hvalid.1
      obtain ⟨next, hrun, hnext⟩ := ih htail (errors ++ [(op.onView v).2]) hmid hvalid.2
      refine ⟨next, ?_, hnext⟩
      rw [foldlM_cons]
      show (attempt s (op.onStore s) >>= _) >>= _ = _
      rw [heval]
      exact hrun
    | readSet kind hash => exact absurd mem_cons_self (hreads kind hash)
    | evict keep => exact ih htail errors (h.evict keep) hvalid

/-- A run of valid operations on the store, with evictions at any time, follows the view. -/
lemma runStore_follows (h : Follows [] s v) {events : List Event}
    (hreads : ∀ kind hash, Event.readSet kind hash ∉ events)
    (hvalid : v.ValidFrom (events.filterMap Event.op?)) :
    ∃ next, runStore s events = .ok (next, (v.run (events.filterMap Event.op?)).2) ∧
      Follows [] next (v.run (events.filterMap Event.op?)).1 :=
  foldlM_onStore_follows events hreads [] h hvalid

end LapisMonetae.Staging
