import LapisMonetae.Lib.AssocMap
import LapisMonetae.Reachability.DbStoreTheorems
import Mathlib.Data.List.Dedup

/-!
# Staged operations

The staging area follows the view of its operations: a staged set is the list of the view, and its
differences lead from the bucket in the database to that list. So the committed store follows the
view as well, and reads of the staging area, of the committed store and of a store on which the
operations were called directly give the same answers.
-/

namespace LapisMonetae.Staging

open List AList AssocMap Db

open Reachability (Interval Result err fail unwrap ReachabilityError)
open Reachability.ReachabilityStore (splice)

/-! ## Differences -/

/-- The differences of an entry lead from the elements of `l` to those that satisfy `mem`. -/
structure Differs (l : List Hash) (e : StagingSetEntry) (mem : Hash → Prop) : Prop where
  deletions_mem : ∀ x ∈ e.deletions, x ∈ l
  additions_fresh : ∀ x ∈ e.additions, x ∉ l
  nodup_additions : e.additions.Nodup
  mem_iff : ∀ x, mem x ↔ (x ∈ l ∧ x ∉ e.deletions) ∨ x ∈ e.additions

namespace Differs

variable {l : List Hash} {e : StagingSetEntry} {mem : Hash → Prop}

lemma congr (h : Differs l e mem) {mem' : Hash → Prop} (hmem : ∀ x, mem' x ↔ mem x) :
    Differs l e mem' :=
  ⟨h.deletions_mem, h.additions_fresh, h.nodup_additions, fun x => (hmem x).trans (h.mem_iff x)⟩

lemma markDeletion (h : Differs l e mem) {deletion : Hash} (hmem : mem deletion) :
    Differs l (e.markDeletion deletion) fun x => mem x ∧ x ≠ deletion := by
  rw [h.mem_iff] at hmem
  unfold StagingSetEntry.markDeletion
  split_ifs with hadded
  · -- an addition is taken back
    have hfresh := h.additions_fresh deletion hadded
    refine ⟨h.deletions_mem, ?_, h.nodup_additions.filter _, fun x => ?_⟩
    · exact fun x hx => h.additions_fresh x (mem_of_mem_filter hx)
    · rw [h.mem_iff, mem_filter, decide_eq_true_iff]
      have hne : x ∈ l → x ≠ deletion := fun hx heq => hfresh (heq ▸ hx)
      tauto
  · obtain ⟨hl, -⟩ := hmem.resolve_right hadded
    refine ⟨?_, h.additions_fresh, h.nodup_additions, fun x => ?_⟩
    · intro x hx
      rcases mem_insert_iff.mp hx with rfl | hx
      · exact hl
      · exact h.deletions_mem x hx
    · rw [h.mem_iff, mem_insert_iff]
      have hne : x ∈ e.additions → x ≠ deletion := fun hx heq => hadded (heq ▸ hx)
      tauto

lemma markAddition (h : Differs l e mem) {addition : Hash} (hmem : ¬mem addition) :
    Differs l (e.markAddition addition) fun x => mem x ∨ x = addition := by
  rw [h.mem_iff] at hmem
  unfold StagingSetEntry.markAddition
  split_ifs with hdeleted
  · -- a deletion is taken back
    have hl := h.deletions_mem addition hdeleted
    refine ⟨?_, h.additions_fresh, h.nodup_additions, fun x => ?_⟩
    · exact fun x hx => h.deletions_mem x (mem_of_mem_filter hx)
    · rw [h.mem_iff, mem_filter, decide_eq_true_iff]
      constructor
      · rintro (hx | rfl)
        · tauto
        · exact Or.inl ⟨hl, fun hx => hx.2 rfl⟩
      · tauto
  · have hfresh : addition ∉ l := fun hl => hmem (Or.inl ⟨hl, hdeleted⟩)
    refine ⟨h.deletions_mem, ?_, h.nodup_additions.insert, fun x => ?_⟩
    · intro x hx
      rcases mem_insert_iff.mp hx with rfl | hx
      · exact hfresh
      · exact h.additions_fresh x hx
    · rw [h.mem_iff, mem_insert_iff]
      tauto

lemma foldl_markAddition {added : List Hash} (hnodup : added.Nodup) :
    ∀ {e : StagingSetEntry} {mem : Hash → Prop}, Differs l e mem → (∀ x ∈ added, ¬mem x) →
      Differs l (added.foldl StagingSetEntry.markAddition e) fun x => mem x ∨ x ∈ added := by
  induction added with
  | nil => exact fun h _ => h.congr fun x => by simp
  | cons a added ih =>
    intro e mem h hfresh
    obtain ⟨hnot, hnodup⟩ := nodup_cons.mp hnodup
    have hfirst := h.markAddition (hfresh a mem_cons_self)
    have hrest := ih hnodup hfirst (by
      rintro x hx (hmem | rfl)
      · exact hfresh x (mem_cons_of_mem _ hx) hmem
      · exact hnot hx)
    apply hrest.congr
    intro x
    rw [mem_cons, or_assoc]

end Differs

/-- The entry is staged over the list `l` of the database. -/
structure EntryOf (l : List Hash) (e : StagingSetEntry) : Prop where
  nodup : e.set.Nodup
  differs : Differs l e (· ∈ e.set)

namespace EntryOf

variable {l : List Hash} {e : StagingSetEntry}

lemma new (hl : l.Nodup) : EntryOf l (StagingSetEntry.new l) where
  nodup := hl
  differs := by
    refine ⟨fun x hx => absurd hx not_mem_nil, fun x hx => absurd hx not_mem_nil,
      nodup_nil, fun x => ?_⟩
    simp [StagingSetEntry.new]

/-- The differences are the edit from the list of the database. -/
lemma edit (h : EntryOf l e) : Edit l e.set e.deletions e.additions where
  nodup := h.nodup
  mem_iff := h.differs.mem_iff
  removed_mem := h.differs.deletions_mem
  fresh x hx hmem := absurd hmem (h.differs.additions_fresh x hx)
  nodup_added := h.differs.nodup_additions

end EntryOf

@[simp] lemma set_markAddition (e : StagingSetEntry) (x : Hash) : (e.markAddition x).set = e.set := by
  unfold StagingSetEntry.markAddition
  split_ifs <;> rfl

@[simp] lemma set_markDeletion (e : StagingSetEntry) (x : Hash) : (e.markDeletion x).set = e.set := by
  unfold StagingSetEntry.markDeletion
  split_ifs <;> rfl

lemma set_foldl_markAddition (added : List Hash) (e : StagingSetEntry) :
    (added.foldl StagingSetEntry.markAddition e).set = e.set := by
  induction added generalizing e with
  | nil => rfl
  | cons a added ih => rw [foldl_cons, ih, set_markAddition]

/-- The marks of an edit, once its removed elements are marked. -/
lemma EntryOf.of_edit {l current l' removed added : List Hash} {e : StagingSetEntry}
    (h : Differs l e fun x => x ∈ current ∧ x ∉ removed) (hset : e.set = l')
    (hedit : Edit current l' removed added) :
    EntryOf l (added.foldl StagingSetEntry.markAddition e) := by
  have hdiffers := Differs.foldl_markAddition hedit.nodup_added h
    fun x hx hmem => hmem.2 (hedit.fresh x hx hmem.1)
  have hsets : (added.foldl StagingSetEntry.markAddition e).set = l' := by
    rw [set_foldl_markAddition, hset]
  refine ⟨?_, hdiffers.congr fun x => ?_⟩
  · rw [hsets]
    exact hedit.nodup
  · rw [hsets, hedit.mem_iff]

/-- A change of an entry that makes its list `l'`. -/
def ChangesTo (change : StagingSetEntry → Result StagingSetEntry) (current l' : List Hash) : Prop :=
  ∀ {l : List Hash} {e : StagingSetEntry}, EntryOf l e → e.set = current →
    ∃ e', change e = .ok e' ∧ EntryOf l e' ∧ e'.set = l'

section

variable {current : List Hash} {element : Hash} {index : ℕ}

lemma Differs.withSet {l : List Hash} {e : StagingSetEntry} (h : Differs l e (· ∈ e.set))
    (hset : e.set = current) (l' : List Hash) :
    Differs l { e with set := l' } fun x => x ∈ current ∧ x ∉ [] := by
  refine ⟨h.deletions_mem, h.additions_fresh, h.nodup_additions, fun x => ?_⟩
  rw [← hset, ← h.mem_iff]
  simp

lemma append_changesTo (hfresh : element ∉ current) :
    ChangesTo (·.append element) current (current ++ [element]) := by
  intro l e h hset
  have hedit := edit_append (hset ▸ h.nodup) hfresh
  refine ⟨_, rfl, ?_, ?_⟩
  · rw [hset]
    exact EntryOf.of_edit (h.differs.withSet hset _) rfl hedit
  · rw [set_markAddition, hset]

lemma insert_changesTo (hfresh : element ∉ current) (hindex : index ≤ current.length) :
    ChangesTo (·.insert element index) current (current.insertIdx index element) := by
  intro l e h hset
  have hedit := edit_insertIdx (hset ▸ h.nodup) hfresh hindex
  refine ⟨{ e with set := current.insertIdx index element }.markAddition element, ?_, ?_, ?_⟩
  · show vecInsert e.set index element >>= _ = _
    rw [hset, vecInsert_eq hindex]
    rfl
  · exact EntryOf.of_edit (h.differs.withSet hset _) rfl hedit
  · rw [set_markAddition]

lemma replace_changesTo {replaced : Hash} {replaceWith : List Hash}
    (h : Op.Replaces current replaced index replaceWith) :
    ChangesTo (·.replace replaced index replaceWith) current (splice current index replaceWith) := by
  obtain ⟨hindex, hnodup, hfresh⟩ := h
  intro l e h hset
  have hedit := edit_splice (hset ▸ h.nodup) hindex hnodup hfresh
  have hmem : replaced ∈ current := mem_of_getElem? hindex
  have hmarked := (h.differs.withSet hset (splice current index replaceWith)).markDeletion
    ⟨hmem, not_mem_nil⟩
  refine ⟨_, ?_, EntryOf.of_edit (hmarked.congr fun x => ?_) (set_markDeletion _ _) hedit, ?_⟩
  · show vecSplice e.set index replaceWith >>= _ = _
    rw [hset, vecSplice_eq hindex]
    rfl
  · simp
  · rw [set_foldl_markAddition, set_markDeletion]

end

/-! ## The staging area follows the view -/

/-- The store follows the view, and each set is in the order of the intervals. -/
structure InOrder (s : DbReachabilityStore) (v : View) : Prop extends Follows [] s v where
  ordered : ∀ kind h, View.Ordered v.data (v.sets kind h)

/-- The staging area over a store with the view `base` answers the view `v`. -/
structure Stages (t : StagingReachabilityStore) (base v : View) : Prop where
  store : InOrder t.storeRead base
  deletions : ∀ h, h ∈ t.deletions ↔ h ∈ v.deleted
  data : ∀ h, h ∉ v.deleted → v.data h = (t.writes.lookup h).or (base.data h)
  data_deleted : ∀ h ∈ v.deleted, v.data h = none
  entries : ∀ kind h e, (t.sets kind).lookup h = some e →
    EntryOf (base.sets kind h) e ∧ v.sets kind h = e.set
  unstaged : ∀ kind h, (t.sets kind).lookup h = none → v.sets kind h = base.sets kind h
  root : v.reindexRoot = t.reindexRoot.or base.reindexRoot

variable {s : DbReachabilityStore} {v : View} {t : StagingReachabilityStore} {gone : List Hash}
  {base : View} (state : DbReachabilityStore × List DbWrite) (deletions : List Hash)
  (kind : SetKind) (hash : Hash)

lemma stages_new (h : InOrder s v) (hdeleted : v.deleted = []) :
    Stages (StagingReachabilityStore.new s) v v where
  store := h
  deletions x := by rw [hdeleted]; rfl
  data _ _ := rfl
  data_deleted x hx := by
    rw [hdeleted] at hx
    exact absurd hx not_mem_nil
  entries kind x e he := absurd he (Option.some_ne_none e).symm
  unstaged _ _ _ := rfl
  root := rfl

lemma InOrder.evict (h : InOrder s v) (keep : SetKind → Hash → Bool) : InOrder (s.evict keep) v :=
  ⟨h.toFollows.evict keep, h.ordered⟩

lemma InOrder.readSet (h : InOrder s v) (kind : SetKind) (hash : Hash) :
    ∃ next, s.readSet kind hash = .ok (v.sets kind hash, next) ∧ InOrder next v := by
  obtain ⟨next, heval, hdb, hcaches⟩ :=
    h.toFollows.readSet_eq not_mem_nil (h.ordered kind hash)
  refine ⟨next, heval, ⟨?_, ?_, ?_, ?_⟩, h.ordered⟩
  · rw [hdb]
    exact h.data
  · rw [hdb]
    exact h.sets
  · intro k x hx entry hentry
    rcases hcaches k x entry hentry with hold | ⟨⟨rfl, rfl⟩, hlist⟩
    · exact h.cached k x hx entry hold
    · exact hlist
  · rw [hdb]
    exact h.root

namespace Stages

variable {t : StagingReachabilityStore} {base v : View}
variable {hash : Hash} {kind : SetKind}

lemma lookup_stageSet (t : StagingReachabilityStore) (kind k : SetKind) (hash x : Hash)
    (e : StagingSetEntry) : ((t.stageSet kind hash e).sets k).lookup x =
      if k = kind ∧ x = hash then some e else (t.sets k).lookup x := by
  unfold StagingReachabilityStore.stageSet
  by_cases hkind : k = kind
  · simp [hkind, lookup_insert_ite]
  · simp [hkind]

variable (h : Stages t base v)
include h

lemma withStore {s : DbReachabilityStore} (hs : InOrder s base) :
    Stages { t with storeRead := s } base v :=
  { h with store := hs }

/-- A read of a block that is not deleted gives the list of the view. -/
lemma readSet_eq (kind : SetKind) (hhash : hash ∉ v.deleted) :
    ∃ next, t.readSet kind hash = .ok (v.sets kind hash, next) ∧ Stages next base v := by
  have hcheck : t.checkNotInDeletions hash = .ok () := if_neg (hhash ∘ (h.deletions hash).mp)
  unfold StagingReachabilityStore.readSet
  rw [hcheck]
  cases hentry : (t.sets kind).lookup hash with
  | some e =>
    rw [(h.entries kind hash e hentry).2]
    exact ⟨t, rfl, h⟩
  | none =>
    obtain ⟨s, heval, hs⟩ := h.store.readSet kind hash
    refine ⟨{ t with storeRead := s }, ?_, h.withStore hs⟩
    rw [h.unstaged kind hash hentry]
    show t.storeRead.readSet kind hash >>= _ = _
    rw [heval]
    rfl

lemma readSet_deleted (kind : SetKind) (hhash : hash ∈ v.deleted) :
    t.readSet kind hash = err (.keyNotFound hash) := by
  have hcheck : t.checkNotInDeletions hash = err (.keyNotFound hash) :=
    if_pos ((h.deletions hash).mpr hhash)
  unfold StagingReachabilityStore.readSet
  rw [hcheck]
  rfl

lemma stageSet {e : StagingSetEntry} (he : EntryOf (base.sets kind hash) e) :
    Stages (t.stageSet kind hash e) base (v.setList kind hash e.set) :=
  { h with
    entries k x e' hlookup := by
      rw [lookup_stageSet] at hlookup
      unfold View.setList
      dsimp only
      split_ifs at hlookup ⊢ with hkey
      · obtain ⟨rfl, rfl⟩ := hkey
        obtain rfl := Option.some.inj hlookup
        exact ⟨he, rfl⟩
      · exact h.entries k x e' hlookup
    unstaged k x hlookup := by
      rw [lookup_stageSet] at hlookup
      unfold View.setList
      dsimp only
      split_ifs at hlookup ⊢
      exact h.unstaged k x hlookup }

lemma changeSet {change : StagingSetEntry → Result StagingSetEntry} {l' : List Hash}
    (hchange : ChangesTo change (v.sets kind hash) l') :
    ∃ next, t.changeSet kind hash change = .ok next ∧ Stages next base (v.setList kind hash l') := by
  unfold StagingReachabilityStore.changeSet
  cases hentry : (t.sets kind).lookup hash with
  | some e =>
    obtain ⟨he, hset⟩ := h.entries kind hash e hentry
    obtain ⟨e', heval, he', rfl⟩ := hchange he hset.symm
    refine ⟨_, ?_, h.stageSet he'⟩
    show change e >>= _ = _
    rw [heval]
    rfl
  | none =>
    obtain ⟨s, hread, hs⟩ := h.store.readSet kind hash
    have hnodup := (h.store.sets kind hash not_mem_nil).nodup
    obtain ⟨e', heval, he', rfl⟩ := hchange (EntryOf.new hnodup) (h.unstaged kind hash hentry).symm
    refine ⟨_, ?_, (h.withStore hs).stageSet he'⟩
    show t.storeRead.readSet kind hash >>= _ = _
    rw [hread]
    show change (.new (base.sets kind hash)) >>= _ = _
    rw [heval]
    rfl

lemma read_eq (hhash : hash ∉ v.deleted) : t.read hash = match v.data hash with
      | some data => .ok data
      | none => err (.keyNotFound hash) := by
  unfold StagingReachabilityStore.read
  rw [h.data hash hhash, h.store.read_eq hash]
  cases t.writes.lookup hash <;> rfl

lemma putData (hhash : hash ∉ v.deleted) (data : ReachabilityData) :
    Stages { t with writes := t.writes.insert hash data } base (v.setData hash (some data)) :=
  { h with
    data x hx := by
      show (if x = hash then some data else v.data x) = _
      rw [lookup_insert_ite]
      split_ifs with heq
      · rfl
      · exact h.data x hx
    data_deleted x hx := by
      have hne : x ≠ hash := fun heq => hhash (heq ▸ hx)
      unfold View.setData
      dsimp only
      rw [if_neg hne]
      exact h.data_deleted x hx }

lemma delete (hash : Hash) : Stages (t.delete hash) base
      { v.setData hash none with deleted := v.deleted.insert hash } :=
  { h with
    deletions x := by
      show x ∈ t.deletions.insert hash ↔ x ∈ v.deleted.insert hash
      rw [mem_insert_iff, mem_insert_iff, h.deletions]
    data x hx := by
      have hne : x ≠ hash := fun heq => hx (heq ▸ mem_insert_self)
      show (if x = hash then none else v.data x) = ((t.writes.erase hash).lookup x).or _
      rw [if_neg hne, lookup_erase_ne hne]
      exact h.data x fun hmem => hx (mem_insert_of_mem hmem)
    data_deleted x hx := by
      show (if x = hash then none else v.data x) = none
      by_cases heq : x = hash
      · rw [if_pos heq]
      · rw [if_neg heq]
        exact h.data_deleted x ((mem_insert_iff.mp hx).resolve_left heq) }

lemma setReindexRoot (root : Hash) :
    Stages (t.setReindexRoot root) base { v with reindexRoot := some root } :=
  { h with root := rfl }

lemma insert_eq (hhash : hash ∉ v.deleted) (parent : Hash)
    (interval : Interval) (height : ℕ) : t.insert hash parent interval height =
      if (v.data hash).isSome then err (.hashAlreadyExists hash)
      else .ok { t with writes := t.writes.insert hash ⟨parent, interval, height⟩ } := by
  unfold StagingReachabilityStore.insert
  rw [h.store.has_eq, h.data hash hhash]
  cases base.data hash with
  | some data => cases t.writes.lookup hash <;> rfl
  | none => cases t.writes.lookup hash <;> rfl

/-- A write for a deleted block is not seen. -/
lemma putData_deleted (hhash : hash ∈ v.deleted) (data : ReachabilityData) :
    Stages { t with writes := t.writes.insert hash data } base v :=
  { h with
    data x hx := by
      have hne : x ≠ hash := fun heq => hx (heq ▸ hhash)
      rw [lookup_insert_ne hne]
      exact h.data x hx }

/-- A change of the data of a block. Only for a deleted block the error may be missing. -/
lemma changeData (hash : Hash) (f : ReachabilityData → ReachabilityData) :
    let result : View × Option ReachabilityError := match v.data hash with
      | some data => (v.setData hash (some (f data)), none)
      | none => (v, some (.keyNotFound hash))
    ∃ next error, attempt t (do
        let data ← t.read hash
        return { t with writes := t.writes.insert hash (f data) }) = .ok (next, error) ∧
      Stages next base result.1 ∧ (hash ∉ v.deleted → error = result.2) := by
  by_cases hhash : hash ∈ v.deleted
  · rw [h.data_deleted hash hhash]
    have hread : (∃ data, t.read hash = .ok data) ∨ t.read hash = err (.keyNotFound hash) := by
      unfold StagingReachabilityStore.read
      rw [h.store.read_eq]
      cases t.writes.lookup hash with
      | some data => exact Or.inl ⟨data, rfl⟩
      | none =>
        cases base.data hash with
        | some data => exact Or.inl ⟨data, rfl⟩
        | none => exact Or.inr rfl
    rcases hread with ⟨data, hread⟩ | hread
    · rw [hread]
      exact ⟨_, _, rfl, h.putData_deleted hhash (f data), fun hnot => absurd hhash hnot⟩
    · rw [hread]
      exact ⟨t, _, rfl, h, fun hnot => absurd hhash hnot⟩
  · rw [h.read_eq hhash]
    cases v.data hash with
    | some data => exact ⟨_, _, rfl, h.putData hhash (f data), fun _ => rfl⟩
    | none => exact ⟨t, _, rfl, h, fun _ => rfl⟩

end Stages

/-- The operation does not change the data of a deleted block. -/
def Op.SparesDeleted (v : View) : Op → Prop
  | setInterval hash _ | setParent hash _ => hash ∉ v.deleted
  | _ => True

/-- A valid operation on a staging area that follows a view. -/
lemma Op.onStaging_stages (h : Stages t base v)
    {op : Op} (hvalid : op.Valid v) : ∃ next error, attempt t (op.onStaging t) = .ok (next, error) ∧
      Stages next base (op.onView v).1 ∧ (op.SparesDeleted v → error = (op.onView v).2) := by
  cases op with
  | init origin capacity =>
    have hhas : ¬(v.data origin).isSome := by
      rw [hvalid.2]
      exact Bool.false_ne_true
    simp only [onStaging, StagingReachabilityStore.init, onView, h.insert_eq hvalid.1, if_neg hhas]
    exact ⟨_, _, rfl, (h.putData hvalid.1 _).setReindexRoot origin, fun _ => rfl⟩
  | insert hash parent interval height =>
    simp only [onStaging, onView, h.insert_eq hvalid]
    by_cases hhas : (v.data hash).isSome
    · rw [if_pos hhas, if_pos hhas]
      exact ⟨t, _, rfl, h, fun _ => rfl⟩
    · rw [if_neg hhas, if_neg hhas]
      exact ⟨_, _, rfl, h.putData hvalid _, fun _ => rfl⟩
  | setInterval hash interval => exact h.changeData hash fun data => { data with interval }
  | setParent hash newParent => exact h.changeData hash fun data => { data with parent := newParent }
  | appendChild hash child =>
    obtain ⟨next, heval, hnext⟩ := h.changeSet (append_changesTo hvalid)
    exact ⟨next, none, congrArg (attempt t) heval, hnext, fun _ => rfl⟩
  | insertFutureCoveringItem hash fci index =>
    obtain ⟨next, heval, hnext⟩ := h.changeSet (insert_changesTo hvalid.1 hvalid.2)
    exact ⟨next, none, congrArg (attempt t) heval, hnext, fun _ => rfl⟩
  | replaceChild hash replaced index replaceWith
  | replaceFutureCoveringItem hash replaced index replaceWith =>
    obtain ⟨next, heval, hnext⟩ := h.changeSet (replace_changesTo hvalid)
    exact ⟨next, none, congrArg (attempt t) heval, hnext, fun _ => rfl⟩
  | delete hash => exact ⟨_, _, rfl, h.delete hash, fun _ => rfl⟩
  | setReindexRoot root => exact ⟨_, _, rfl, h.setReindexRoot root, fun _ => rfl⟩

/-- No operation changes the data of a block that was deleted before it. -/
def View.SparesDeletedFrom (v : View) : List Op → Prop
  | [] => True
  | op :: ops => op.SparesDeleted v ∧ (op.onView v).1.SparesDeletedFrom ops

lemma foldlM_onStaging_stages (events : List Event) :
    ∀ {t : StagingReachabilityStore} {base v : View}
      (returned errors : List (Option ReachabilityError)),
      Stages t base v → v.ValidFrom (events.filterMap Event.op?) →
      ∃ next returned', events.foldlM Event.onStaging (t, returned) = .ok (next, returned') ∧
        Stages next base ((events.filterMap Event.op?).foldl View.step (v, errors)).1 ∧
        (returned = errors → v.SparesDeletedFrom (events.filterMap Event.op?) →
          returned' = ((events.filterMap Event.op?).foldl View.step (v, errors)).2) := by
  induction events with
  | nil => exact fun returned _ h _ => ⟨_, returned, rfl, h, fun heq _ => heq⟩
  | cons event events ih =>
    intro t base v returned errors h hvalid
    cases event with
    | call op =>
      obtain ⟨mid, error, heval, hmid, herror⟩ := op.onStaging_stages h hvalid.1
      obtain ⟨next, returned', hrun, hnext, hreturned⟩ :=
        ih (returned ++ [error]) (errors ++ [(op.onView v).2]) hmid hvalid.2
      refine ⟨next, returned', ?_, hnext, ?_⟩
      · rw [foldlM_cons]
        show (attempt t (op.onStaging t) >>= _) >>= _ = _
        rw [heval]
        exact hrun
      · intro heq hspares
        apply hreturned ?_ hspares.2
        rw [heq, herror hspares.1]
    | readSet kind hash =>
      have hread : ∃ mid error, attempt t ((t.readSet kind hash).map Prod.snd) = .ok (mid, error) ∧
          Stages mid base v := by
        by_cases hhash : hash ∈ v.deleted
        · rw [h.readSet_deleted kind hhash]
          exact ⟨t, _, rfl, h⟩
        · obtain ⟨mid, heval, hmid⟩ := h.readSet_eq kind hhash
          rw [heval]
          exact ⟨mid, none, rfl, hmid⟩
      obtain ⟨mid, error, heval, hmid⟩ := hread
      obtain ⟨next, returned', hrun, hnext⟩ := ih returned errors hmid hvalid
      refine ⟨next, returned', ?_, hnext⟩
      rw [foldlM_cons]
      show (attempt t ((t.readSet kind hash).map Prod.snd) >>= _) >>= _ = _
      rw [heval]
      exact hrun
    | evict keep => exact ih returned errors (h.withStore (h.store.evict keep)) hvalid

/-- A run of valid operations on a staging area, with reads and evictions at any time, follows the
view. -/
lemma runStaging_stages (h : InOrder s v) (hdeleted : v.deleted = []) {events : List Event}
    (hvalid : v.ValidFrom (events.filterMap Event.op?)) :
    ∃ next returned, runStaging s events = .ok (next, returned) ∧
      Stages next v (v.run (events.filterMap Event.op?)).1 ∧
      (v.SparesDeletedFrom (events.filterMap Event.op?) →
        returned = (v.run (events.filterMap Event.op?)).2) := by
  obtain ⟨next, returned, hrun, hnext, hreturned⟩ :=
    foldlM_onStaging_stages events [] [] (stages_new h hdeleted) hvalid
  exact ⟨next, returned, hrun, hnext, hreturned rfl⟩

/-! ## The committed store -/

/-- The store once the batch is written. -/
def written (state : DbReachabilityStore × List DbWrite) : DbReachabilityStore :=
  state.1.direct state.2

lemma written_append (s : DbReachabilityStore) (batch writes : List DbWrite) :
    written (s, batch ++ writes) = (written (s, batch)).direct writes := by
  unfold written DbReachabilityStore.direct write
  rw [foldl_append]

/-- What a store has of a block and of one of its sets. -/
structure Cell where
  data : Option ReachabilityData
  bucket : List Hash
  cached : Option (List Hash)
  root : Option Hash

def DbReachabilityStore.cell (s : DbReachabilityStore) (k : SetKind) (h : Hash) : Cell :=
  ⟨s.db.data.lookup h, s.db.sets k h, s.caches k h, s.db.reindexRoot⟩

/-- The set of a deleted block is removed. -/
def Cell.dropSet (c : Cell) : Cell := { c with bucket := [], cached := none }

/-- A staged entry edits its bucket and becomes the cached set. -/
def Cell.stage (k : SetKind) (h : Hash) (e : StagingSetEntry) (c : Cell) : Cell :=
  { c with
    bucket := (editWrites k h e.deletions e.additions).foldl (DbWrite.onBucket k h) c.bucket
    cached := some e.set }

section Cells

variable (t : StagingReachabilityStore) (k : SetKind) (h : Hash)

lemma cell_direct (s : DbReachabilityStore) (batch : List DbWrite) : (s.direct batch).cell k h =
    ⟨batch.foldl (DbWrite.onData h) (s.db.data.lookup h),
      batch.foldl (DbWrite.onBucket k h) (s.db.sets k h), s.caches k h,
      batch.foldl DbWrite.onRoot s.db.reindexRoot⟩ := by
  rw [← lookup_write, ← sets_write, ← reindexRoot_write]
  rfl

lemma cell_commitStagingEntry (e : StagingSetEntry) :
    (written (state.1.commitStagingEntry state.2 kind hash e)).cell k h =
      if k = kind ∧ h = hash then ((written state).cell k h).stage k h e
      else (written state).cell k h := by
  unfold DbReachabilityStore.commitStagingEntry
  rw [append_assoc, written_append]
  show ((written _).direct (editWrites kind hash e.deletions e.additions)).cell k h = _
  rw [cell_direct, foldl_editWrites_fixed (f := DbWrite.onData h) _ _ (fun _ => rfl) fun _ => rfl,
    foldl_editWrites_fixed (f := DbWrite.onRoot) _ _ (fun _ => rfl) fun _ => rfl]
  split_ifs with heq
  · obtain ⟨rfl, rfl⟩ := heq
    exact congrArg (Cell.mk _ _ · _) (if_pos ⟨rfl, rfl⟩)
  · rw [foldl_editWrites_of_ne kind hash heq]
    exact congrArg (Cell.mk _ _ · _) (if_neg heq)

lemma cell_commitSets : (written (t.commitSets kind state)).cell k h =
    if k = kind then ((t.sets k).lookup h).elim ((written state).cell k h) fun e =>
      ((written state).cell k h).stage k h e
    else (written state).cell k h := by
  split_ifs with hk
  · subst hk
    refine foldl_observe (fun state => (written state).cell k h) h (Cell.stage k h) ?_ ?_
      (t.sets k) state
    · intro state entry hne
      rw [cell_commitStagingEntry, if_neg fun heq => hne heq.2.symm]
    · intro state e
      rw [cell_commitStagingEntry, if_pos ⟨rfl, rfl⟩]
  · refine foldl_keeps (fun state => (written state).cell k h) ?_ state
    intro state entry _
    rw [cell_commitStagingEntry, if_neg fun heq => hk heq.1]

/-- The removal of both sets of a deleted block. -/
def deleteSets (state : DbReachabilityStore × List DbWrite) (hash : Hash) :
    DbReachabilityStore × List DbWrite :=
  let state := state.1.deleteSet state.2 .children hash
  state.1.deleteSet state.2 .futureCovering hash

lemma cell_deleteSet : (written (state.1.deleteSet state.2 kind hash)).cell k h =
    if k = kind ∧ h = hash then ((written state).cell k h).dropSet
    else (written state).cell k h := by
  unfold DbReachabilityStore.deleteSet
  rw [written_append, cell_direct]
  split_ifs with heq
  · exact congrArg₂ (Cell.mk _ · · _) (if_pos heq) (if_pos heq)
  · exact congrArg₂ (Cell.mk _ · · _) (if_neg heq) (if_neg heq)

lemma cell_foldl_deleteSets (state : DbReachabilityStore × List DbWrite) :
    (written (deletions.foldl deleteSets state)).cell k h =
      if h ∈ deletions then ((written state).cell k h).dropSet else (written state).cell k h := by
  induction deletions generalizing state with
  | nil => rfl
  | cons hash deletions ih =>
    rw [foldl_cons, ih, deleteSets, cell_deleteSet, cell_deleteSet]
    cases k <;> by_cases heq : h = hash <;> by_cases hmem : h ∈ deletions <;>
      simp [heq, hmem, Cell.dropSet]

lemma foldl_deleteData (data : Option ReachabilityData) :
    (deletions.map DbWrite.deleteData).foldl (DbWrite.onData h) data =
      if h ∈ deletions then none else data := by
  induction deletions generalizing data with
  | nil => rfl
  | cons hash deletions ih =>
    rw [map_cons, foldl_cons, ih]
    simp only [DbWrite.onData, mem_cons]
    by_cases heq : h = hash
    · simp [heq]
    · simp [heq]

lemma foldl_putData (writes : AList fun _ : Hash => ReachabilityData)
    (data : Option ReachabilityData) :
    (writes.entries.map fun entry => DbWrite.putData entry.1 entry.2).foldl (DbWrite.onData h) data =
      (writes.lookup h).or data := by
  rw [foldl_map, foldl_observe (fun data : Option ReachabilityData => data) h
    (fun new _ => some new)]
  · cases writes.lookup h <;> rfl
  · exact fun data entry hne => if_neg (Ne.symm hne)
  · exact fun data new => if_pos rfl

/-- The store before the sets are deleted. -/
def mutated : DbReachabilityStore × List DbWrite :=
  t.commitSets .futureCovering (t.commitSets .children
    (t.storeRead, [] ++ t.writes.entries.map fun entry => .putData entry.1 entry.2))

/-- The store before the reindex root is written. -/
def pruned : DbReachabilityStore × List DbWrite :=
  t.deletions.foldl deleteSets
    ((mutated t).1, (mutated t).2 ++ t.deletions.map .deleteData)

lemma committed_eq : t.committed = (written (pruned t)).direct
    (t.reindexRoot.elim [] fun root => [.putReindexRoot root]) := by
  have hcommit : t.commit [] = t.reindexRoot.elim (pruned t) fun root =>
      ((pruned t).1, (pruned t).2 ++ [.putReindexRoot root]) := by
    unfold StagingReachabilityStore.commit
    cases t.reindexRoot <;> rfl
  unfold StagingReachabilityStore.committed
  rw [hcommit]
  cases t.reindexRoot with
  | some root => exact written_append _ _ _
  | none => rfl

/-- What a store has of a block before its sets are changed or deleted. -/
def unstagedCell : Cell :=
  ⟨(t.writes.lookup h).or (t.storeRead.db.data.lookup h), t.storeRead.db.sets k h,
    t.storeRead.caches k h, t.reindexRoot.or t.storeRead.db.reindexRoot⟩

lemma cell_committed : t.committed.cell k h =
    if h ∈ t.deletions then { (unstagedCell t k h).dropSet with data := none }
    else ((t.sets k).lookup h).elim (unstagedCell t k h) fun e =>
      (unstagedCell t k h).stage k h e := by
  have hdata : (written (t.storeRead, [] ++ t.writes.entries.map fun entry =>
      .putData entry.1 entry.2)).cell k h =
        { unstagedCell t k h with root := t.storeRead.db.reindexRoot } := by
    show (t.storeRead.direct _).cell k h = _
    rw [cell_direct, nil_append, foldl_putData, foldl_map, foldl_map, foldl_fixed' fun _ => rfl,
      foldl_fixed' fun _ => rfl]
    rfl
  have hmutated : (written (mutated t)).cell k h = ((t.sets k).lookup h).elim
      { unstagedCell t k h with root := t.storeRead.db.reindexRoot } fun e =>
        ({ unstagedCell t k h with root := t.storeRead.db.reindexRoot } : Cell).stage k h e := by
    unfold mutated
    rw [cell_commitSets, cell_commitSets, hdata]
    cases k <;> rfl
  have hdeleted : (written ((mutated t).1, (mutated t).2 ++ t.deletions.map .deleteData)).cell k h =
      { (written (mutated t)).cell k h with
        data := if h ∈ t.deletions then none else ((written (mutated t)).cell k h).data } := by
    rw [written_append, cell_direct, foldl_deleteData, foldl_map, foldl_map,
      foldl_fixed' fun _ => rfl, foldl_fixed' fun _ => rfl]
    rfl
  have hroot : t.committed.cell k h = { (written (pruned t)).cell k h with
      root := t.reindexRoot.or ((written (pruned t)).cell k h).root } := by
    rw [committed_eq, cell_direct]
    cases t.reindexRoot <;> rfl
  rw [hroot, pruned, cell_foldl_deleteSets, hdeleted, hmutated]
  split_ifs <;> cases (t.sets k).lookup h <;> rfl

/-- The committed store follows the view, and the sets of the deleted blocks are gone. -/
lemma Stages.committed_follows {base v : View}
    (h : Stages t base v) : Follows v.deleted t.committed v ∧ ∀ kind, ∀ hash ∈ v.deleted,
      t.committed.db.sets kind hash = [] ∧ t.committed.caches kind hash = none := by
  have hgone : ∀ kind, ∀ x ∈ v.deleted, t.committed.cell kind x =
      { (unstagedCell t kind x).dropSet with data := none } := fun kind x hx => by
    rw [cell_committed, if_pos ((h.deletions x).mpr hx)]
  have hkept : ∀ kind x, x ∉ v.deleted → t.committed.cell kind x =
      ((t.sets kind).lookup x).elim (unstagedCell t kind x) fun e =>
        (unstagedCell t kind x).stage kind x e := fun kind x hx => by
    rw [cell_committed, if_neg (hx ∘ (h.deletions x).mp)]
  refine ⟨⟨?_, ?_, ?_, ?_⟩, ?_⟩
  · intro x
    show (t.committed.cell .children x).data = _
    by_cases hx : x ∈ v.deleted
    · rw [hgone _ x hx, h.data_deleted x hx]
    · rw [hkept _ x hx, h.data x hx, ← h.store.data]
      cases (t.sets .children).lookup x <;> rfl
  · intro kind x hx
    have hbucket := h.store.sets kind x not_mem_nil
    show BucketOf (t.committed.cell kind x).bucket _
    rw [hkept kind x hx]
    cases hentry : (t.sets kind).lookup x with
    | some e =>
      obtain ⟨he, hset⟩ := h.entries kind x e hentry
      rw [hset]
      exact hbucket.edit kind x he.edit
    | none =>
      rw [h.unstaged kind x hentry]
      exact hbucket
  · intro kind x hx entry hcache
    replace hcache : (t.committed.cell kind x).cached = some entry := hcache
    rw [hkept kind x hx] at hcache
    cases hentry : (t.sets kind).lookup x with
    | some e =>
      rw [hentry] at hcache
      rw [(h.entries kind x e hentry).2]
      exact (Option.some.inj hcache).symm
    | none =>
      rw [hentry] at hcache
      rw [h.unstaged kind x hentry]
      exact h.store.cached kind x not_mem_nil entry hcache
  · show (t.committed.cell .children 0).root = _
    rw [h.root, ← h.store.root, cell_committed]
    split_ifs
    · rfl
    · cases (t.sets .children).lookup 0 <;> rfl
  · intro kind x hx
    have hcell := hgone kind x hx
    exact ⟨congrArg Cell.bucket hcell, congrArg Cell.cached hcell⟩

end Cells

/-! ## Answers -/

/-- What a read answers, without the cache that it leaves. -/
def answer {α S : Type} (result : Result (α × S)) : Result α := result.map Prod.fst

/-- A staging area, a store on which the same operations were called directly, and the committed
store answer the same reads. A deleted block has no data; the staging area has no sets of it, and
the committed store has empty sets. -/
structure SameAnswers (staging : StagingReachabilityStore) (store committed : DbReachabilityStore)
    (deleted : List Hash) : Prop where
  has : ∀ h, staging.has h = store.has h ∧ committed.has h = store.has h
  getInterval : ∀ h, staging.getInterval h = store.getInterval h ∧
    committed.getInterval h = store.getInterval h
  getParent : ∀ h, staging.getParent h = store.getParent h ∧
    committed.getParent h = store.getParent h
  getHeight : ∀ h, staging.getHeight h = store.getHeight h ∧
    committed.getHeight h = store.getHeight h
  getChildren : ∀ h, h ∉ deleted → ∃ l, answer (store.getChildren h) = .ok l ∧
    answer (staging.getChildren h) = .ok l ∧ answer (committed.getChildren h) = .ok l
  getFutureCoveringSet : ∀ h, h ∉ deleted → ∃ l, answer (store.getFutureCoveringSet h) = .ok l ∧
    answer (staging.getFutureCoveringSet h) = .ok l ∧
    answer (committed.getFutureCoveringSet h) = .ok l
  getReindexRoot : staging.getReindexRoot = store.getReindexRoot ∧
    committed.getReindexRoot = store.getReindexRoot
  count : staging.count = store.count ∧ committed.count = store.count
  deleted : ∀ h ∈ deleted, store.has h = false ∧ staging.getChildren h = err (.keyNotFound h) ∧
    staging.getFutureCoveringSet h = err (.keyNotFound h) ∧
    answer (committed.getChildren h) = .ok [] ∧
    answer (committed.getFutureCoveringSet h) = .ok []

lemma Follows.count_eq (h : Follows gone s v) {l : List Hash}
    (hnodup : l.Nodup) (hmem : ∀ x, x ∈ l ↔ (v.data x).isSome) : s.count = l.length := by
  have hkeys : s.db.data.keys.Perm l := by
    rw [perm_ext_iff_of_nodup s.db.data.keys_nodup hnodup]
    intro x
    rw [← AList.mem_keys, ← AList.lookup_isSome, h.data, hmem]
  rw [← hkeys.length_eq]
  exact (length_map _).symm

namespace Stages

variable {t : StagingReachabilityStore} {base v : View}

/-- A field of the data of a block. -/
lemma field_eq (h : Stages t base v) {s : DbReachabilityStore}
    (hs : Follows gone s v) (hash : Hash) {α : Type} (field : ReachabilityData → α) :
    (t.checkNotInDeletions hash >>= fun _ => t.read hash >>= fun data => pure (field data)) =
      s.db.read hash >>= fun data => pure (field data) := by
  unfold StagingReachabilityStore.checkNotInDeletions
  by_cases hhash : hash ∈ v.deleted
  · rw [if_pos ((h.deletions hash).mpr hhash), hs.read_eq, h.data_deleted hash hhash]
    rfl
  · rw [if_neg (hhash ∘ (h.deletions hash).mp), hs.read_eq, h.read_eq hhash]
    cases v.data hash <;> rfl

lemma has_eq (h : Stages t base v) (hash : Hash) : t.has hash = (v.data hash).isSome := by
  unfold StagingReachabilityStore.has
  by_cases hhash : hash ∈ v.deleted
  · rw [if_pos ((h.deletions hash).mpr hhash), h.data_deleted hash hhash]
    rfl
  · rw [if_neg (hhash ∘ (h.deletions hash).mp), h.data hash hhash, h.store.has_eq]
    cases t.writes.lookup hash <;> rfl

lemma count_eq (h : Stages t base v) {s : DbReachabilityStore}
    (hs : Follows gone s v) : t.count = s.count := by
  refine (hs.count_eq ((nodup_dedup _).filter _) fun x => ?_).symm
  rw [mem_filter, mem_dedup, mem_append, ← AList.mem_keys, ← AList.mem_keys,
    ← lookup_isSome, ← lookup_isSome, decide_eq_true_iff, h.deletions, h.store.data]
  by_cases hx : x ∈ v.deleted
  · rw [h.data_deleted x hx]
    simp [hx]
  · rw [h.data x hx]
    simp [hx, or_comm]

lemma getReindexRoot_eq (h : Stages t base v) : t.getReindexRoot = match v.reindexRoot with
      | some root => .ok root
      | none => err (.keyNotFound BlockHash.none) := by
  unfold StagingReachabilityStore.getReindexRoot DbReachabilityStore.getReindexRoot
  rw [h.root, h.store.root]
  cases t.reindexRoot <;> rfl

end Stages

/-- Two stores that follow a view and a staging area of it answer the same, if the sets of the blocks
that are not deleted are in the order of the intervals. -/
lemma sameAnswers (ht : Stages t base v)
    {store committed : DbReachabilityStore} (hstore : Follows [] store v)
    (hcommitted : Follows v.deleted committed v)
    (hordered : ∀ kind hash, hash ∉ v.deleted → View.Ordered v.data (v.sets kind hash))
    (hdeleted : ∀ kind, ∀ hash ∈ v.deleted, committed.db.sets kind hash = [] ∧
      committed.caches kind hash = none) :
    SameAnswers t store committed v.deleted := by
  have hsets : ∀ kind hash, hash ∉ v.deleted → ∃ l, answer (store.readSet kind hash) = .ok l ∧
      answer (t.readSet kind hash) = .ok l ∧ answer (committed.readSet kind hash) = .ok l := by
    intro kind hash hhash
    obtain ⟨_, hread, -⟩ := hstore.readSet_eq not_mem_nil (hordered kind hash hhash)
    obtain ⟨_, hread', -⟩ := hcommitted.readSet_eq hhash (hordered kind hash hhash)
    obtain ⟨_, hread'', -⟩ := ht.readSet_eq kind hhash
    rw [hread, hread', hread'']
    exact ⟨_, rfl, rfl, rfl⟩
  have hempty : ∀ kind, ∀ hash ∈ v.deleted, answer (committed.readSet kind hash) = .ok [] := by
    intro kind hash hhash
    obtain ⟨hbucket, hcache⟩ := hdeleted kind hash hhash
    unfold DbReachabilityStore.readSet
    rw [hcache, hbucket]
    rfl
  constructor
  · intro h
    rw [ht.has_eq, hstore.has_eq, hcommitted.has_eq]
    exact ⟨rfl, rfl⟩
  · exact fun h => ⟨ht.field_eq hstore h (·.interval),
      (ht.field_eq hcommitted h (·.interval)).symm.trans (ht.field_eq hstore h (·.interval))⟩
  · exact fun h => ⟨ht.field_eq hstore h (·.parent),
      (ht.field_eq hcommitted h (·.parent)).symm.trans (ht.field_eq hstore h (·.parent))⟩
  · exact fun h => ⟨ht.field_eq hstore h (·.height),
      (ht.field_eq hcommitted h (·.height)).symm.trans (ht.field_eq hstore h (·.height))⟩
  · exact fun h hh => hsets .children h hh
  · exact fun h hh => hsets .futureCovering h hh
  · unfold DbReachabilityStore.getReindexRoot
    rw [ht.getReindexRoot_eq, hstore.root, hcommitted.root]
    exact ⟨rfl, rfl⟩
  · rw [ht.count_eq hstore]
    refine ⟨rfl, ?_⟩
    rw [← ht.count_eq hstore, ht.count_eq hcommitted]
  · intro h hh
    refine ⟨?_, ht.readSet_deleted _ hh, ht.readSet_deleted _ hh, hempty _ h hh, hempty _ h hh⟩
    rw [hstore.has_eq, ht.data_deleted h hh]
    rfl

/-- Valid operations on the staging area of a store, whatever is read and evicted on the way. If in
the end the sets of the blocks that are not deleted are in the order of the intervals, then the
staging area and the committed store answer as the store does on which the operations were called
directly. The operations return the same errors, if none of them changes the data of a block that was
deleted before. -/
theorem runStaging_sameAnswers {s : DbReachabilityStore} {v : View} (h : InOrder s v)
    (hdeleted : v.deleted = []) {ops : List Op} (hvalid : v.ValidFrom ops) {events direct : List Event}
    (hevents : events.filterMap Event.op? = ops) (hdirect : direct.filterMap Event.op? = ops)
    (hreads : ∀ kind hash, Event.readSet kind hash ∉ direct)
    (hordered : ∀ kind hash, hash ∉ (v.run ops).1.deleted →
      View.Ordered (v.run ops).1.data ((v.run ops).1.sets kind hash)) :
    ∃ staging returned store errors, runStaging s events = .ok (staging, returned) ∧
      runStore s direct = .ok (store, errors) ∧
      (v.SparesDeletedFrom ops → returned = errors) ∧
      ∀ keep, SameAnswers staging store (staging.committed.evict keep) (v.run ops).1.deleted := by
  subst hevents
  rw [← hdirect] at hvalid
  obtain ⟨store, hrun, hstore⟩ := runStore_follows h.toFollows hreads hvalid
  rw [hdirect] at hvalid hrun hstore
  obtain ⟨staging, returned, hrun', hstaging, hreturned⟩ := runStaging_stages h hdeleted hvalid
  obtain ⟨hcommitted, hgone⟩ := hstaging.committed_follows
  refine ⟨staging, returned, store, _, hrun', hrun, hreturned, fun keep => ?_⟩
  refine sameAnswers hstaging hstore (hcommitted.evict keep) hordered ?_
  intro kind hash hhash
  obtain ⟨hbucket, hcache⟩ := hgone kind hash hhash
  refine ⟨hbucket, ?_⟩
  show (if keep kind hash then _ else none) = none
  rw [hcache, ite_self]

/-! ### Runs on an empty store -/

def emptyStore : DbReachabilityStore := ⟨⟨∅, fun _ _ => [], none⟩, fun _ _ => none⟩

def emptyView : View := ⟨fun _ => none, fun _ _ => [], none, []⟩

lemma ordered_nil (data : Hash → Option ReachabilityData) : View.Ordered data [] :=
  ⟨fun _ hx => absurd hx not_mem_nil, List.Pairwise.nil⟩

lemma emptyStore_inOrder : InOrder emptyStore emptyView where
  data _ := rfl
  sets _ _ _ := ⟨nodup_nil, nodup_nil, fun _ => Iff.rfl⟩
  cached _ _ _ entry hentry := absurd hentry (Option.some_ne_none entry).symm
  root := rfl
  ordered _ _ := ordered_nil _

/-- Two blocks are added to the origin, and a third one is added and deleted again. -/
def addAndDelete : List Op :=
  [.init 1 ⟨1, 100⟩, .insert 2 1 ⟨1, 50⟩ 1, .appendChild 1 2, .insert 3 1 ⟨51, 99⟩ 1,
    .appendChild 1 3, .insertFutureCoveringItem 2 3 0, .insert 4 3 ⟨60, 70⟩ 2, .appendChild 3 4,
    .setInterval 4 ⟨60, 65⟩, .replaceChild 3 4 0 [], .delete 4]

lemma addAndDelete_valid : emptyView.ValidFrom addAndDelete := by
  simp [addAndDelete, emptyView, View.ValidFrom, Op.Valid, Op.onView, Op.Replaces, View.setData,
    View.setList]

lemma addAndDelete_ordered :
    View.Ordered (emptyView.run addAndDelete).1.data
      ((emptyView.run addAndDelete).1.sets kind hash) := by
  have hsets : (emptyView.run addAndDelete).1.sets kind hash =
      if kind = .children ∧ hash = 1 then [2, 3]
      else if kind = .futureCovering ∧ hash = 2 then [3] else [] := by
    cases kind with
    | children =>
      simp only [addAndDelete, emptyView, View.run, View.step, Op.onView, View.setData,
        View.setList, splice, foldl_cons, foldl_nil]
      by_cases h3 : hash = 3
      · subst h3
        rfl
      · by_cases h1 : hash = 1
        · subst h1
          rfl
        · simp [h1, h3]
    | futureCovering =>
      simp [addAndDelete, emptyView, View.run, View.step, Op.onView, View.setData, View.setList]
  rw [hsets]
  split_ifs
  · refine ⟨by decide, ?_⟩
    unfold KeyedSort.Increasing
    decide
  · refine ⟨by decide, pairwise_singleton _ _⟩
  · exact ordered_nil _

theorem addAndDelete_sameAnswers : ∃ staging returned store errors,
    runStaging emptyStore (addAndDelete.map .call) = .ok (staging, returned) ∧
    runStore emptyStore (.evict (fun _ _ => false) :: addAndDelete.map .call) = .ok (store, errors) ∧
    (emptyView.SparesDeletedFrom addAndDelete → returned = errors) ∧
    ∀ keep, SameAnswers staging store (staging.committed.evict keep)
      (emptyView.run addAndDelete).1.deleted :=
  runStaging_sameAnswers emptyStore_inOrder rfl addAndDelete_valid rfl rfl
    (fun kind hash hmem => by simp [addAndDelete] at hmem) fun kind hash _ =>
      addAndDelete_ordered kind hash

/-- What a staging area, the store and the committed store answer after the same operations. -/
def answers {α : Type} (ops : List Op) (onStaging : StagingReachabilityStore → α)
    (onStore : DbReachabilityStore → α) : Result (α × α × α) := do
  let (staging, _) ← runStaging emptyStore (ops.map .call)
  let (store, _) ← runStore emptyStore (ops.map .call)
  return (onStaging staging, onStore store, onStore (staging.committed.evict fun _ _ => false))

def family : List Op :=
  [.init 1 ⟨1, 100⟩, .insert 2 1 ⟨51, 99⟩ 1, .insert 3 1 ⟨1, 50⟩ 1]

/-- A block that is deleted and inserted again is lost. The sets of a deleted block are kept by the
store only. Sets that are not in the order of the intervals, elements that are added twice, and
elements that are replaced at a wrong index are read differently. A second `init` is a panic of the
store only. -/
theorem answers_differ :
    answers (family ++ [.delete 2, .insert 2 1 ⟨51, 99⟩ 1]) (·.has 2) (·.has 2) =
      .ok (false, true, false) ∧
    answers (family ++ [.appendChild 1 2, .delete 1]) (fun t => answer (t.getChildren 1))
      (fun s => answer (s.getChildren 1)) = .ok (err (.keyNotFound 1), .ok [2], .ok []) ∧
    answers (family ++ [.appendChild 1 2, .appendChild 1 3]) (fun t => answer (t.getChildren 1))
      (fun s => answer (s.getChildren 1)) = .ok (.ok [2, 3], .ok [3, 2], .ok [3, 2]) ∧
    answers (family ++ [.appendChild 1 2, .appendChild 1 2]) (fun t => answer (t.getChildren 1))
      (fun s => answer (s.getChildren 1)) = .ok (.ok [2, 2], .ok [2], .ok [2]) ∧
    answers (family ++ [.appendChild 1 3, .appendChild 1 2, .replaceChild 1 3 1 []])
      (fun t => answer (t.getChildren 1)) (fun s => answer (s.getChildren 1)) =
      .ok (.ok [3], .ok [2], .ok [2]) ∧
    (∃ staging returned, runStaging emptyStore [.call (.init 1 ⟨1, 100⟩), .call (.init 1 ⟨1, 100⟩)] =
      .ok (staging, returned)) ∧
    runStore emptyStore [.call (.init 1 ⟨1, 100⟩), .call (.init 1 ⟨1, 100⟩)] = fail :=
  ⟨rfl, rfl, rfl, rfl, rfl, ⟨_, _, rfl⟩, rfl⟩

end LapisMonetae.Staging
