import LapisMonetae.Lib.AssocMap
import LapisMonetae.Lib.Dag
import LapisMonetae.Pipeline.DepsManager

/-!
# The dependency manager never loses a task

Every pending hash has one token: it is queued once, or it waits once in the dependents of one
pending parent, or one of its tasks runs. The steps move the tokens and never copy or drop one.
-/

namespace LapisMonetae.Pipeline

open List Option AList AssocMap Bool TaskQueue

open Relation (TransGen)

variable {S : Type} {parents : Hash → List Hash}

/-! ## Tokens -/

/-- How often a hash waits in the dependents of the pending groups. -/
def waiting (manager : BlockTaskDependencyManager S) (x : Hash) : ℕ :=
  total (fun entry => entry.2.dependentTasks.count x) manager

namespace System

/-- The tasks of a hash that run. -/
def runningOf (self : System S) (x : Hash) : List BlockTask := self.running.filter (·.hash = x)

/-- The tasks of a hash that were started. -/
def startedOf (self : System S) (x : Hash) : List BlockTask := self.started.filter (·.hash = x)

/-- The registrations of a hash. -/
def registeredOf (self : System S) (x : Hash) : List (Registration S) :=
  self.registered.filter (·.task.hash = x)

/-- The reports for a hash. -/
def reportedOf (self : System S) (x : Hash) : List (Registration S) :=
  self.reported.filter (·.task.hash = x)

/-- The tokens of a hash: how often it is queued, waits and runs. -/
def tokens (self : System S) (x : Hash) : ℕ :=
  self.queued.count x + waiting self.manager x + (self.runningOf x).length

end System

/-! ## The phases of a hash -/

/-- A registration, as it is kept in a group before it is taken. -/
def Registration.intern (self : Registration S) : BlockTaskInternal S :=
  .new self.task self.transmitters

/-- What is kept of a registration whose task is taken. -/
def Registration.taken (self : Registration S) : BlockTaskInternal S := ⟨none, self.transmitters⟩

/-- The tasks in the group of a hash. -/
def tasksOf (manager : BlockTaskDependencyManager S) (x : Hash) :
    Option (List (BlockTaskInternal S)) :=
  (manager.lookup x).map (·.tasks.toList)

/-- The phases of a hash, by the tasks in its group, its registrations and reports, and its started
and running tasks. -/
inductive Phase (tasks : Option (List (BlockTaskInternal S)))
    (registered reported : List (Registration S)) (started running : List BlockTask) : Prop
  | idle (htasks : tasks = none) (hregistered : registered = reported)
    (hstarted : started = reported.map (·.task)) (hrunning : running = [])
  | ready (r : Registration S) (rs : List (Registration S))
    (htasks : tasks = some (r.intern :: rs.map Registration.intern))
    (hregistered : registered = reported ++ r :: rs)
    (hstarted : started = reported.map (·.task)) (hrunning : running = [])
  | running (r : Registration S) (rs : List (Registration S))
    (htasks : tasks = some (r.taken :: rs.map Registration.intern))
    (hregistered : registered = reported ++ r :: rs)
    (hstarted : started = reported.map (·.task) ++ [r.task]) (hrunning : running = [r.task])

/-- Every hash waits in the dependents of one of its parents. -/
def WaitsForParents (parents : Hash → List Hash) (manager : BlockTaskDependencyManager S) : Prop :=
  ∀ p group, manager.lookup p = some group → ∀ x ∈ group.dependentTasks, p ∈ parents x

/-- The invariant of the system. -/
structure Consistent (parents : Hash → List Hash) (sys : System S) : Prop where
  tokens : ∀ x, sys.tokens x = if (sys.manager.lookup x).isSome then 1 else 0
  dependents : WaitsForParents parents sys.manager
  registered : ∀ r ∈ sys.registered, r.task.block.directParents = parents r.task.hash
  phase : ∀ x, Phase (tasksOf sys.manager x) (sys.registeredOf x) (sys.reportedOf x)
    (sys.startedOf x) (sys.runningOf x)

lemma consistent_new : Consistent parents (.new : System S) where
  tokens := fun _ => rfl
  dependents := fun _ _ h => nomatch h
  registered := fun _ h => nomatch h
  phase := fun _ => .idle rfl rfl rfl rfl

/-! ## Changes of one group -/

section
variable {manager : BlockTaskDependencyManager S} {group group' : BlockTaskGroup S} {y x : Hash}

lemma tasksOf_insert : tasksOf (manager.insert y group) x =
      if x = y then some group.tasks.toList else tasksOf manager x := by
  unfold tasksOf
  rw [lookup_insert_ite]
  split
  · rfl
  · rfl

lemma tasksOf_erase : tasksOf (manager.erase y) x = if x = y then none else tasksOf manager x := by
  unfold tasksOf
  rw [lookup_erase_ite]
  split
  · rfl
  · rfl

lemma isSome_lookup_insert :
    (AList.lookup x (manager.insert y group)).isSome = (x = y || (manager.lookup x).isSome) := by
  rw [lookup_insert_ite]
  by_cases hx : x = y
  · simp [hx]
  · simp [hx]

lemma isSome_lookup_replace (hsome : manager.lookup y = some group') :
    (AList.lookup x (manager.insert y group)).isSome = (manager.lookup x).isSome := by
  rw [isSome_lookup_insert]
  by_cases hx : x = y
  · subst hx
    simp [hsome]
  · simp [hx]

lemma waiting_insert_of_none (hnone : manager.lookup y = none) :
    waiting (manager.insert y group) x = group.dependentTasks.count x + waiting manager x := by
  unfold waiting
  rw [total_insert, erase_of_lookup_eq_none hnone]

lemma waiting_insert_of_some (hsome : manager.lookup y = some group') :
    waiting (manager.insert y group) x + group'.dependentTasks.count x =
      group.dependentTasks.count x + waiting manager x := by
  unfold waiting
  rw [total_insert, total_eq_add_erase _ hsome]
  dsimp only
  omega

lemma WaitsForParents.insert (h : WaitsForParents parents manager)
    (hgroup : ∀ x ∈ group.dependentTasks, y ∈ parents x) :
    WaitsForParents parents (manager.insert y group) := by
  intro p g hg
  rw [lookup_insert_ite] at hg
  split at hg
  · next hp =>
    cases hg
    exact hp ▸ hgroup
  · exact h p g hg

lemma WaitsForParents.erase (h : WaitsForParents parents manager) :
    WaitsForParents parents (manager.erase y) := by
  intro p g hg
  rw [lookup_erase_ite] at hg
  split at hg
  · cases hg
  · exact h p g hg

lemma waiting_erase (hsome : manager.lookup y = some group) :
    waiting manager x = group.dependentTasks.count x + waiting (manager.erase y) x :=
  total_eq_add_erase _ hsome

end

/-! ## Steps -/

variable {sys : System S} {r : Registration S} {id : TaskId} {task : BlockTask}

lemma filter_concat {α : Type} (l : List α) (a : α) (p : α → Bool) :
    (l ++ [a]).filter p = if p a then l.filter p ++ [a] else l.filter p := by
  rw [filter_append]
  cases h : p a <;> simp [h]

/-- The system after a registration. -/
lemma exec_register (sys : System S) (r : Registration S) :
    sys.exec (.register r) = some (match sys.manager.lookup r.task.hash with
      | none => { sys with
        manager := sys.manager.insert r.task.hash (.new r.intern)
        queued := sys.queued ++ [r.task.hash]
        registered := sys.registered ++ [r] }
      | some group => { sys with
        manager := sys.manager.insert r.task.hash
          { group with tasks := group.tasks.pushBack r.intern }
        registered := sys.registered ++ [r] }) := by
  unfold System.exec BlockTaskDependencyManager.register
  dsimp only
  cases sys.manager.lookup r.task.hash with
  | none => rfl
  | some group =>
    dsimp only [Option.toList]
    rw [append_nil]
    rfl

/-- A registration adds a task at the end of the group of its hash, and queues a hash that was not
pending. -/
lemma Consistent.register (h : Consistent parents sys)
    (hr : r.task.block.directParents = parents r.task.hash) :
    ∃ sys', sys.exec (.register r) = some sys' ∧ Consistent parents sys' := by
  refine ⟨_, exec_register sys r, ?_⟩
  have hregistered : ∀ r' ∈ sys.registered ++ [r],
      r'.task.block.directParents = parents r'.task.hash := by
    intro r' hr'
    rcases mem_append.mp hr' with hr' | hr'
    · exact h.registered r' hr'
    · rw [mem_singleton.mp hr', hr]
  cases hlookup : sys.manager.lookup r.task.hash with
  | none =>
    constructor
    case registered => exact hregistered
    case tokens =>
      intro x
      have htokens := h.tokens x
      simp only [System.tokens, System.runningOf, waiting_insert_of_none hlookup,
        isSome_lookup_insert, BlockTaskGroup.new, count_nil, count_append] at htokens ⊢
      by_cases hx : x = r.task.hash
      · subst hx
        simp only [hlookup, isSome_none, false_eq_true, if_false] at htokens
        simp only [decide_true, Bool.true_or, if_true, count_singleton_self]
        omega
      · have hcount : [r.task.hash].count x = 0 := count_eq_zero.mpr (by simpa using hx)
        simp only [hx, decide_false, Bool.false_or, hcount]
        omega
    case dependents => exact h.dependents.insert fun _ hx => nomatch hx
    case phase =>
      intro x
      have hphase := h.phase x
      simp only [System.registeredOf, System.reportedOf, System.startedOf, System.runningOf,
        tasksOf_insert, filter_concat, decide_eq_true_eq] at hphase ⊢
      by_cases hx : x = r.task.hash
      · rw [if_pos hx, if_pos hx.symm]
        have hnone : tasksOf sys.manager x = none := by rw [tasksOf, hx, hlookup]; rfl
        cases hphase with
        | idle _ hregistered hstarted hrunning =>
          exact .ready r [] rfl (by rw [hregistered]) hstarted hrunning
        | ready r' rs htasks => rw [hnone] at htasks; cases htasks
        | running r' rs htasks => rw [hnone] at htasks; cases htasks
      · rw [if_neg hx, if_neg (Ne.symm hx)]
        exact hphase
  | some group =>
    constructor
    case registered => exact hregistered
    case tokens =>
      intro x
      have htokens := h.tokens x
      have hwaiting := @waiting_insert_of_some S sys.manager
        { group with tasks := group.tasks.pushBack r.intern } group r.task.hash x hlookup
      simp only [System.tokens, System.runningOf, isSome_lookup_replace hlookup] at htokens hwaiting ⊢
      omega
    case dependents => exact h.dependents.insert (h.dependents _ group hlookup)
    case phase =>
      intro x
      have hphase := h.phase x
      simp only [System.registeredOf, System.reportedOf, System.startedOf, System.runningOf,
        tasksOf_insert, filter_concat, decide_eq_true_eq, toList_pushBack] at hphase ⊢
      by_cases hx : x = r.task.hash
      · rw [if_pos hx, if_pos hx.symm]
        have hsome : tasksOf sys.manager x = some group.tasks.toList := by
          rw [tasksOf, hx, hlookup]; rfl
        cases hphase with
        | idle htasks => rw [hsome] at htasks; cases htasks
        | ready r' rs htasks hregistered hstarted hrunning =>
          rw [hsome] at htasks
          refine .ready r' (rs ++ [r]) ?_ (by rw [hregistered]; simp) hstarted hrunning
          rw [some.inj htasks]
          simp
        | running r' rs htasks hregistered hstarted hrunning =>
          rw [hsome] at htasks
          refine .running r' (rs ++ [r]) ?_ (by rw [hregistered]; simp) hstarted hrunning
          rw [some.inj htasks]
          simp
      · rw [if_neg hx, if_neg (Ne.symm hx)]
        exact hphase

/-- A queued hash is pending and has a task that is not taken. -/
lemma Consistent.ready_of_queued (h : Consistent parents sys)
    (hid : id ∈ sys.queued) : ∃ group r rs, sys.manager.lookup id = some group ∧
      group.tasks.toList = r.intern :: rs.map Registration.intern ∧
      sys.registeredOf id = sys.reportedOf id ++ r :: rs ∧
      sys.startedOf id = (sys.reportedOf id).map (·.task) ∧ sys.runningOf id = [] := by
  have htokens := h.tokens id
  have hcount : 0 < sys.queued.count id := count_pos_iff.mpr hid
  unfold System.tokens at htokens
  cases hlookup : sys.manager.lookup id with
  | none =>
    rw [hlookup] at htokens
    simp only [isSome_none, false_eq_true, if_false] at htokens
    omega
  | some group =>
    rw [hlookup] at htokens
    simp only [isSome_some, if_true] at htokens
    have hsome : tasksOf sys.manager id = some group.tasks.toList := by rw [tasksOf, hlookup]; rfl
    cases h.phase id with
    | idle htasks => rw [hsome] at htasks; cases htasks
    | ready r rs htasks hregistered hstarted hrunning =>
      rw [hsome] at htasks
      exact ⟨group, r, rs, rfl, some.inj htasks, hregistered, hstarted, hrunning⟩
    | running r rs htasks hregistered hstarted hrunning =>
      -- a second token
      rw [hrunning, length_singleton] at htokens
      omega

/-- The registrations of a hash are those of blocks with this hash and its parents. -/
lemma Consistent.directParents (h : Consistent parents sys) {x : Hash}
    {done rs : List (Registration S)} (hregistered : sys.registeredOf x = done ++ r :: rs) :
    r.task.hash = x ∧ r.task.block.directParents = parents x := by
  have hr : r ∈ sys.registeredOf x := by rw [hregistered]; simp
  obtain ⟨hmem, hhash⟩ := mem_filter.mp hr
  have hhash : r.task.hash = x := of_decide_eq_true hhash
  refine ⟨hhash, ?_⟩
  rw [h.registered r hmem, hhash]

/-- What `try_begin` does with a queued hash: it waits for the first pending parent, or it starts if
no parent is pending. -/
lemma tryBegin_cases {group : BlockTaskGroup S}
    {rs : List (Registration S)} (hlookup : sys.manager.lookup id = some group)
    (htasks : group.tasks.toList = r.intern :: rs.map Registration.intern)
    (hparents : r.task.block.directParents = parents id) :
    (∃ p parentTask, p ∈ parents id ∧ sys.manager.lookup p = some parentTask ∧
      sys.manager.tryBegin id = some (none, sys.manager.insert p
        { parentTask with dependentTasks := parentTask.dependentTasks ++ [id] })) ∨
    ((∀ p ∈ parents id, sys.manager.lookup p = none) ∧ ∃ tasks : TaskQueue S,
      tasks.toList = r.taken :: rs.map Registration.intern ∧
      sys.manager.tryBegin id = some (some r.task,
        sys.manager.insert id { group with tasks := tasks })) := by
  have hfront : group.tasks.front = some r.intern := by
    rw [front_eq, htasks]
    rfl
  have htask : r.intern.task = some r.task := rfl
  unfold BlockTaskDependencyManager.tryBegin
  simp only [hlookup, hfront, htask, hparents, bind_eq_bind, bind_some]
  cases hfind : (parents id).findSome? fun parent =>
      (sys.manager.lookup parent).map fun parentTask => (parent, parentTask) with
  | some found =>
    left
    obtain ⟨p, hp, hfound⟩ := exists_of_findSome?_eq_some hfind
    obtain ⟨parentTask, hparent, rfl⟩ := map_eq_some_iff.mp hfound
    exact ⟨p, parentTask, hp, hparent, rfl⟩
  | none =>
    right
    obtain ⟨tasks, htake, hlist⟩ := takeFront_of_toList htasks htask
    refine ⟨fun p hp => ?_, tasks, hlist, ?_⟩
    · exact map_eq_none_iff.mp (List.findSome?_eq_none_iff.mp hfind p hp)
    · rw [htake]
      rfl

/-- `try_begin` moves the token of a queued hash to a pending parent or to the running tasks. -/
lemma Consistent.tryBegin (h : Consistent parents sys) (hid : id ∈ sys.queued) :
    ∃ sys', sys.exec (.tryBegin id) = some sys' ∧ Consistent parents sys' := by
  obtain ⟨group, r, rs, hlookup, htasks, hregistered, hstarted, hrunning⟩ := h.ready_of_queued hid
  obtain ⟨hhash, hparents⟩ := h.directParents hregistered
  have hcount : 0 < sys.queued.count id := count_pos_iff.mpr hid
  rcases tryBegin_cases hlookup htasks hparents with
    ⟨p, parentTask, hp, hparent, hbegin⟩ | ⟨-, tasks, hlist, hbegin⟩
  · refine ⟨_, by rw [System.exec, hbegin]; rfl, ?_⟩
    simp only [toList_none, append_nil]
    constructor
    case registered => exact h.registered
    case dependents =>
      apply h.dependents.insert
      intro x hx
      rcases mem_append.mp hx with hx | hx
      · exact h.dependents p parentTask hparent x hx
      · rw [mem_singleton.mp hx]
        exact hp
    case tokens =>
      intro x
      have htokens := h.tokens x
      have hwaiting := @waiting_insert_of_some S sys.manager { parentTask with
        dependentTasks := parentTask.dependentTasks ++ [id] } parentTask p x hparent
      simp only [System.tokens, System.runningOf, count_append,
        isSome_lookup_replace hparent] at htokens hwaiting ⊢
      by_cases hx : x = id
      · subst hx
        rw [count_erase_self]
        rw [count_singleton_self] at hwaiting
        omega
      · rw [count_erase_of_ne hx]
        rw [count_eq_zero.mpr (by simpa using hx : x ∉ [id])] at hwaiting
        omega
    case phase =>
      intro x
      have hsame : tasksOf (sys.manager.insert p { parentTask with
          dependentTasks := parentTask.dependentTasks ++ [id] }) x = tasksOf sys.manager x := by
        rw [tasksOf_insert]
        split
        · next hx =>
          rw [tasksOf, hx, hparent]
          rfl
        · rfl
      rw [hsame]
      exact h.phase x
  · refine ⟨_, by rw [System.exec, hbegin]; rfl, ?_⟩
    simp only [toList_some]
    constructor
    case registered => exact h.registered
    case dependents => exact h.dependents.insert (h.dependents id group hlookup)
    case tokens =>
      intro x
      have htokens := h.tokens x
      have hwaiting := @waiting_insert_of_some S sys.manager { group with tasks := tasks } group id x
        hlookup
      simp only [System.tokens, System.runningOf, filter_concat, decide_eq_true_eq, hhash,
        isSome_lookup_replace hlookup] at htokens hwaiting ⊢
      by_cases hx : x = id
      · subst hx
        rw [count_erase_self, if_pos rfl, length_append, length_singleton]
        omega
      · rw [count_erase_of_ne hx, if_neg (Ne.symm hx)]
        omega
    case phase =>
      intro x
      have hphase := h.phase x
      unfold System.startedOf System.reportedOf at hstarted
      unfold System.runningOf at hrunning
      simp only [System.registeredOf, System.reportedOf, System.startedOf, System.runningOf,
        tasksOf_insert, filter_concat, decide_eq_true_eq, hhash] at hphase ⊢
      by_cases hx : x = id
      · subst hx
        rw [if_pos rfl, if_pos rfl, if_pos rfl]
        exact .running r rs (congrArg some hlist) hregistered (by rw [hstarted]) (by rw [hrunning]; rfl)
      · rw [if_neg hx, if_neg (Ne.symm hx), if_neg (Ne.symm hx)]
        exact hphase

/-- The task of `r` runs: it is the first one in the group of its hash, before those of `rs`. -/
structure Runs (sys : System S) (group : BlockTaskGroup S) (r : Registration S)
    (rs : List (Registration S)) : Prop where
  lookup : sys.manager.lookup r.task.hash = some group
  tasks : group.tasks.toList = r.taken :: rs.map Registration.intern
  registered : sys.registeredOf r.task.hash = sys.reportedOf r.task.hash ++ r :: rs
  started : sys.startedOf r.task.hash = (sys.reportedOf r.task.hash).map (·.task) ++ [r.task]
  running : sys.runningOf r.task.hash = [r.task]

lemma Consistent.running_of_mem (h : Consistent parents sys) (htask : task ∈ sys.running) :
    ∃ group r rs, r.task = task ∧ Runs sys group r rs := by
  have hmem : task ∈ sys.runningOf task.hash := mem_filter.mpr ⟨htask, by simp⟩
  cases h.phase task.hash with
  | idle htasks hregistered hstarted hrunning => rw [hrunning] at hmem; cases hmem
  | ready r rs htasks hregistered hstarted hrunning => rw [hrunning] at hmem; cases hmem
  | running r rs htasks hregistered hstarted hrunning =>
    rw [hrunning] at hmem
    obtain rfl := mem_singleton.mp hmem
    obtain ⟨group, hgroup, hlist⟩ := map_eq_some_iff.mp htasks
    exact ⟨group, r, rs, rfl, hgroup, hlist, hregistered, hstarted, hrunning⟩

/-- The system in which the task of `r` has ended and is reported. -/
def System.ended (sys : System S) (r : Registration S) (nextTasks : List TaskId)
    (manager : BlockTaskDependencyManager S) : System S :=
  { sys with
    manager := manager
    queued := sys.queued ++ nextTasks
    running := sys.running.erase r.task
    reported := sys.reported ++ [r] }

section ended
variable {group : BlockTaskGroup S} {rs : List (Registration S)} {nextTasks : List TaskId}
  {manager : BlockTaskDependencyManager S}

/-- The last task of a group leaves with it. -/
lemma Runs.exec_last (h : Runs sys group r []) : sys.exec (.endTask r.task) =
    some (sys.ended r group.dependentTasks (sys.manager.erase r.task.hash)) := by
  obtain ⟨tasks, hpop, hrest⟩ := popFront_of_toList h.tasks
  have hempty : tasks.isEmpty := by rw [isEmpty_eq, hrest]; rfl
  simp only [System.exec, BlockTaskDependencyManager.endTask, h.lookup, hpop, hempty, if_true,
    bind_eq_bind, bind_some]
  rfl

/-- Another task of the group is queued. -/
lemma Runs.exec_next {r' : Registration S} (h : Runs sys group r (r' :: rs)) :
    ∃ tasks, tasks.toList = (r' :: rs).map Registration.intern ∧
      sys.exec (.endTask r.task) = some (sys.ended r [r.task.hash]
        (sys.manager.insert r.task.hash { group with tasks := tasks })) := by
  obtain ⟨tasks, hpop, hrest⟩ := popFront_of_toList h.tasks
  have hempty : ¬tasks.isEmpty := by rw [isEmpty_eq, hrest]; exact false_ne_true
  refine ⟨tasks, hrest, ?_⟩
  simp only [System.exec, BlockTaskDependencyManager.endTask, h.lookup, hpop, hempty,
    false_eq_true, if_false, bind_eq_bind, bind_some]
  rfl

lemma Runs.runningOf_ended (h : Runs sys group r rs) (x : Hash) :
    (sys.ended r nextTasks manager).runningOf x =
      if x = r.task.hash then [] else sys.runningOf x := by
  show (sys.running.erase r.task).filter (fun t => decide (t.hash = x)) = _
  rw [← erase_filter]
  split
  · next hx =>
    subst hx
    show (sys.runningOf r.task.hash).erase r.task = []
    rw [h.running, erase_cons_head]
  · next hx =>
    apply erase_of_not_mem
    intro hmem
    exact hx (of_decide_eq_true (mem_filter.mp hmem).2).symm

/-- The hash of the task that has ended goes to the phase of what is left of its group, and no
other hash changes its phase. -/
lemma Runs.phase_ended (hruns : Runs sys group r rs) (h : Consistent parents sys)
    {left : Option (List (BlockTaskInternal S))}
    (htasks : ∀ x, tasksOf manager x = if x = r.task.hash then left else tasksOf sys.manager x)
    (hleft : left = match rs with
      | [] => none
      | rs => some (rs.map Registration.intern)) (x : Hash) :
    Phase (tasksOf (sys.ended r nextTasks manager).manager x)
      ((sys.ended r nextTasks manager).registeredOf x)
      ((sys.ended r nextTasks manager).reportedOf x)
      ((sys.ended r nextTasks manager).startedOf x)
      ((sys.ended r nextTasks manager).runningOf x) := by
  have hphase := h.phase x
  have hregistered := hruns.registered
  have hstarted := hruns.started
  rw [hruns.runningOf_ended]
  simp only [System.registeredOf, System.reportedOf, System.startedOf, System.ended, htasks,
    filter_concat, decide_eq_true_eq] at hphase hregistered hstarted ⊢
  by_cases hx : x = r.task.hash
  · subst hx
    simp only [if_true]
    cases rs with
    | nil => exact .idle hleft hregistered (by rw [hstarted, map_append]; rfl) rfl
    | cons r' rs =>
      refine .ready r' rs hleft ?_ (by rw [hstarted, map_append]; rfl) rfl
      rw [hregistered, append_assoc]
      rfl
  · rw [if_neg hx, if_neg hx, if_neg (Ne.symm hx)]
    exact hphase

/-- The hash is no longer pending, and the tokens of its dependents are queued. -/
lemma Runs.consistent_last (hruns : Runs sys group r []) (h : Consistent parents sys) :
    Consistent parents
      (sys.ended r group.dependentTasks (sys.manager.erase r.task.hash)) where
  registered := h.registered
  dependents := h.dependents.erase
  phase := hruns.phase_ended h (fun _ => tasksOf_erase) rfl
  tokens := by
    intro x
    have htokens := h.tokens x
    have hwaiting := @waiting_erase S sys.manager group r.task.hash x hruns.lookup
    rw [System.tokens] at htokens
    rw [System.tokens, hruns.runningOf_ended]
    show (sys.queued ++ group.dependentTasks).count x +
      waiting (sys.manager.erase r.task.hash) x + _ =
        if ((sys.manager.erase r.task.hash).lookup x).isSome then 1 else 0
    rw [count_append]
    by_cases hx : x = r.task.hash
    · subst hx
      rw [if_pos rfl, lookup_erase]
      rw [hruns.lookup, hruns.running, length_singleton] at htokens
      simp only [isSome_some, isSome_none, if_true, false_eq_true, if_false,
        length_nil] at htokens ⊢
      omega
    · rw [if_neg hx, lookup_erase_ne hx]
      omega

/-- The token of the hash goes back to the queue. -/
lemma Runs.consistent_next {r' : Registration S} (hruns : Runs sys group r (r' :: rs))
    (h : Consistent parents sys) {tasks : TaskQueue S}
    (hrest : tasks.toList = (r' :: rs).map Registration.intern) :
    Consistent parents (sys.ended r [r.task.hash]
      (sys.manager.insert r.task.hash { group with tasks := tasks })) where
  registered := h.registered
  dependents := h.dependents.insert (h.dependents _ group hruns.lookup)
  phase := hruns.phase_ended h (fun _ => tasksOf_insert) (congrArg some hrest)
  tokens := by
    intro x
    have htokens := h.tokens x
    have hwaiting := @waiting_insert_of_some S sys.manager { group with tasks := tasks } group
      r.task.hash x hruns.lookup
    rw [System.tokens] at htokens
    rw [System.tokens, hruns.runningOf_ended]
    show (sys.queued ++ [r.task.hash]).count x + waiting (sys.manager.insert r.task.hash
      { group with tasks := tasks }) x + _ = if (AList.lookup x (sys.manager.insert r.task.hash
        { group with tasks := tasks })).isSome then 1 else 0
    simp only [count_append, isSome_lookup_replace hruns.lookup]
    dsimp only at hwaiting
    by_cases hx : x = r.task.hash
    · subst hx
      rw [if_pos rfl, count_singleton_self, length_nil]
      rw [hruns.running, length_singleton] at htokens
      omega
    · rw [if_neg hx, count_eq_zero.mpr (by simpa using hx : x ∉ [r.task.hash])]
      omega

end ended

/-- `end` keeps the invariant, whether or not the group has another task. -/
lemma Consistent.endTask (h : Consistent parents sys) (htask : task ∈ sys.running) :
    ∃ sys', sys.exec (.endTask task) = some sys' ∧ Consistent parents sys' := by
  obtain ⟨group, r, rs, rfl, hruns⟩ := h.running_of_mem htask
  cases rs with
  | nil => exact ⟨_, hruns.exec_last, hruns.consistent_last h⟩
  | cons r' rs =>
    obtain ⟨tasks, hrest, hexec⟩ := hruns.exec_next
    exact ⟨_, hexec, hruns.consistent_next h hrest⟩

/-- No enabled call panics, and all keep the invariant. -/
lemma Consistent.exec (h : Consistent parents sys) {call : Call S}
    (henabled : call.Enabled parents sys) :
    ∃ sys', sys.exec call = some sys' ∧ Consistent parents sys' := by
  cases call with
  | register r => exact h.register henabled
  | tryBegin id => exact h.tryBegin henabled
  | endTask task => exact h.endTask henabled

lemma consistent_of_reached (h : Reached parents sys) : Consistent parents sys := by
  induction h with
  | new => exact consistent_new
  | step _ henabled hexec ih =>
    obtain ⟨sys', hexec', hconsistent⟩ := ih.exec henabled
    rw [hexec] at hexec'
    cases hexec'
    exact hconsistent

/-! ## Runs -/

/-- A pending hash that neither is queued nor runs waits for a pending parent. -/
lemma Consistent.exists_pending_parent (h : Consistent parents sys) {x : Hash}
    (hx : (sys.manager.lookup x).isSome) (hqueued : sys.queued = []) (hrunning : sys.running = []) :
    ∃ p, (sys.manager.lookup p).isSome ∧ p ∈ parents x := by
  have htokens := h.tokens x
  rw [if_pos hx, System.tokens, hqueued, System.runningOf, hrunning] at htokens
  have hwaits : waiting sys.manager x ≠ 0 := by
    simp only [count_nil, filter_nil, length_nil] at htokens
    omega
  obtain ⟨p, group, hgroup, hcount⟩ := exists_of_total_ne_zero hwaits
  refine ⟨p, by rw [hgroup]; rfl, h.dependents p group hgroup x ?_⟩
  exact count_pos_iff.mp (Nat.pos_of_ne_zero hcount)

/-- In every interleaving of the calls, a pending hash is queued once, or waits once for one pending
parent, or runs, and other hashes do none of these; no call panics; no task starts while a direct
parent of its block is pending; the tasks of a hash run one at a time in the order of their
registrations, and each is reported to its own senders; and nothing is pending when nothing is
queued and nothing runs. -/
theorem dependencies_of_reached (hacyclic : ∀ x, ¬TransGen (fun p c => p ∈ parents c) x x)
    (h : Reached parents sys) :
    (∀ x, sys.queued.count x + waiting sys.manager x + (sys.runningOf x).length =
      if (sys.manager.lookup x).isSome then 1 else 0) ∧
    (∀ p group, sys.manager.lookup p = some group → ∀ x ∈ group.dependentTasks, p ∈ parents x) ∧
    (∀ call, call.Enabled parents sys → ∃ sys', sys.exec call = some sys') ∧
    (∀ id ∈ sys.queued, ∀ task manager, sys.manager.tryBegin id = some (some task, manager) →
      ∀ p ∈ task.block.directParents, ¬(sys.manager.lookup p).isSome) ∧
    (∀ x, (sys.runningOf x).length ≤ 1 ∧ sys.startedOf x <+: (sys.registeredOf x).map (·.task) ∧
      sys.reportedOf x <+: sys.registeredOf x) ∧
    (sys.queued = [] → sys.running = [] → ∀ x, ¬(sys.manager.lookup x).isSome) := by
  have hsys := consistent_of_reached h
  refine ⟨hsys.tokens, hsys.dependents, fun call henabled => ?_, ?_, ?_, ?_⟩
  · obtain ⟨sys', hexec, -⟩ := hsys.exec henabled
    exact ⟨sys', hexec⟩
  · intro id hid task manager hbegin p hp
    obtain ⟨group, r, rs, hlookup, htasks, hregistered, -, -⟩ := hsys.ready_of_queued hid
    have hdirect := (hsys.directParents hregistered).2
    rcases tryBegin_cases hlookup htasks hdirect with
      ⟨p', parentTask, -, -, hwaits⟩ | ⟨hparents, tasks, -, hstarts⟩
    · rw [hbegin] at hwaits
      cases hwaits
    · rw [hbegin] at hstarts
      cases hstarts
      rw [hdirect] at hp
      rw [hparents p hp]
      exact false_ne_true
  · intro x
    cases hsys.phase x with
    | idle _ hregistered hstarted hrunning =>
      rw [hregistered, hstarted, hrunning]
      exact ⟨Nat.zero_le 1, prefix_refl _, prefix_refl _⟩
    | ready r rs _ hregistered hstarted hrunning =>
      rw [hregistered, hstarted, hrunning, map_append]
      exact ⟨Nat.zero_le 1, prefix_append _ _, prefix_append _ _⟩
    | running r rs _ hregistered hstarted hrunning =>
      rw [hregistered, hstarted, hrunning, map_append, map_cons]
      refine ⟨Nat.le_refl 1, ?_, prefix_append _ _⟩
      exact (prefix_append_right_inj _).mpr ⟨_, rfl⟩
  · intro hqueued hrunning x hx
    -- the pending hashes are finitely many, and each has a pending parent
    have hmem : ∀ y, y ∈ sys.manager.keys.toFinset ↔ (sys.manager.lookup y).isSome := by
      intro y
      rw [List.mem_toFinset, ← AList.mem_keys, AList.lookup_isSome]
    obtain ⟨m, hm, hmin⟩ := Dag.exists_forall_not_parent hacyclic ⟨x, (hmem x).mpr hx⟩
    obtain ⟨p, hp, hparent⟩ := hsys.exists_pending_parent ((hmem m).mp hm) hqueued hrunning
    exact hmin p ((hmem p).mpr hp) hparent

/-- Block `2` is a child of block `1`. -/
def chainParents (x : Hash) : List Hash := if x = 2 then [1] else []

/-- The registration of a block with its parents. -/
def chainTask (x : Hash) : Registration Unit := ⟨.ordinary ⟨x, chainParents x⟩, (), ()⟩

/-- The child is tried first and waits for its parent, which can then begin. -/
theorem dependencies_of_reached_chain :
    ∃ sys : System Unit, Reached chainParents sys ∧ waiting sys.manager 2 = 1 ∧
      ∃ sys', sys.exec (.tryBegin 1) = some sys' := by
  have hlt : ∀ a b, TransGen (fun p c => p ∈ chainParents c) a b → a < b := by
    intro a b hab
    have hstep : ∀ p c, p ∈ chainParents c → p < c := by
      intro p c hp
      unfold chainParents at hp
      split at hp
      · next hc => rw [mem_singleton.mp hp, hc]; exact Nat.one_lt_two
      · cases hp
    induction hab with
    | single hp => exact hstep _ _ hp
    | tail _ hp ih => exact Nat.lt_trans ih (hstep _ _ hp)
  have hacyclic : ∀ x, ¬TransGen (fun p c => p ∈ chainParents c) x x :=
    fun x hx => Nat.lt_irrefl x (hlt x x hx)
  have hrun : ((System.new : System Unit).run chainParents
      [.register (chainTask 1), .register (chainTask 2), .tryBegin 2]).map
      (fun sys => (waiting sys.manager 2, sys.queued)) = some (1, [1]) := by
    decide
  obtain ⟨sys, hsys, hobs⟩ := map_eq_some_iff.mp hrun
  obtain ⟨hwaiting, hqueued⟩ := Prod.mk.inj hobs
  have hreached : Reached chainParents sys := Reached.new.run hsys
  refine ⟨sys, hreached, hwaiting, ?_⟩
  apply (dependencies_of_reached hacyclic hreached).2.2.1
  show 1 ∈ sys.queued
  rw [hqueued]
  exact mem_singleton_self 1

end LapisMonetae.Pipeline
