import LapisMonetae.Params
import Mathlib.Data.List.AList

/-!
# The dependency manager of block tasks

The manager keeps the pending block tasks, grouped by the hash of the block, and lets a task wait
while a direct parent of its block is pending. A receiver registers tasks, and workers begin and end
them; every call holds the lock of the manager, so the calls are the steps of the system. A call that
panics has no result.
-/

namespace LapisMonetae.Pipeline

/-! ## Tasks -/

/-- `Block`, as far as the manager reads it. -/
structure Block where
  hash : Hash
  directParents : List Hash
deriving DecidableEq, Repr

inductive BlockTask where
  | ordinary (block : Block)
  | trusted (block : Block)
deriving DecidableEq, Repr

def BlockTask.block : BlockTask → Block
  | ordinary block | trusted block => block

/-- The hash of the block of a task. -/
def BlockTask.hash (self : BlockTask) : Hash := self.block.hash

abbrev TaskId := Hash

/-- The two senders that receive the result of a task, of the type `S`. -/
structure Transmitters (S : Type) where
  blockResultTransmitter : S
  virtualStateResultTransmitter : S
deriving DecidableEq, Repr

variable {S : Type}

structure BlockTaskInternal (S : Type) where
  task : Option BlockTask
  transmitters : Transmitters S
deriving DecidableEq, Repr

def BlockTaskInternal.new (task : BlockTask) (transmitters : Transmitters S) :
    BlockTaskInternal S :=
  ⟨some task, transmitters⟩

/-! ## Queues of tasks -/

inductive TaskQueue (S : Type) where
  | empty
  | single (task : BlockTaskInternal S)
  | many (tasks : List (BlockTaskInternal S))
deriving DecidableEq, Repr

namespace TaskQueue

def new (task : BlockTaskInternal S) : TaskQueue S := single task

def pushBack (self : TaskQueue S) (task : BlockTaskInternal S) : TaskQueue S :=
  match self with
  | empty => single task
  | single t => many [t, task]
  | many q => many (q ++ [task])

def front : TaskQueue S → Option (BlockTaskInternal S)
  | empty => none
  | single t => some t
  | many q => q.head?

/-- The task of `front_mut`, which is taken. -/
def takeFront : TaskQueue S → Option (BlockTask × TaskQueue S)
  | empty => none
  | single t => t.task.map fun task => (task, single { t with task := none })
  | many [] => none
  | many (t :: q) => t.task.map fun task => (task, many ({ t with task := none } :: q))

def popFront : TaskQueue S → Option (BlockTaskInternal S × TaskQueue S)
  | empty => none
  | single t => some (t, empty)
  | many [] => none
  | many (t :: q) => some (t, many q)

def isEmpty : TaskQueue S → Bool
  | empty => true
  | single _ => false
  | many q => q.isEmpty

/-- The tasks of a queue, from its front on. -/
def toList : TaskQueue S → List (BlockTaskInternal S)
  | empty => []
  | single t => [t]
  | many q => q

@[simp] lemma toList_pushBack (self : TaskQueue S) (task : BlockTaskInternal S) :
    (self.pushBack task).toList = self.toList ++ [task] := by
  cases self <;> rfl

lemma front_eq (self : TaskQueue S) : self.front = self.toList.head? := by
  cases self <;> rfl

lemma isEmpty_eq (self : TaskQueue S) : self.isEmpty = self.toList.isEmpty := by
  cases self <;> rfl

lemma popFront_of_toList {self : TaskQueue S} {t : BlockTaskInternal S}
    {ts : List (BlockTaskInternal S)} (h : self.toList = t :: ts) :
    ∃ self', self.popFront = some (t, self') ∧ self'.toList = ts := by
  cases self with
  | empty => cases h
  | single t' =>
    cases h
    exact ⟨empty, rfl, rfl⟩
  | many q =>
    obtain rfl : q = t :: ts := h
    exact ⟨many ts, rfl, rfl⟩

lemma takeFront_of_toList {self : TaskQueue S} {t : BlockTaskInternal S} {task : BlockTask}
    {ts : List (BlockTaskInternal S)} (h : self.toList = t :: ts) (ht : t.task = some task) :
    ∃ self', self.takeFront = some (task, self') ∧
      self'.toList = { t with task := none } :: ts := by
  cases self with
  | empty => cases h
  | single t' =>
    cases h
    exact ⟨single { t with task := none }, by rw [takeFront, ht]; rfl, rfl⟩
  | many q =>
    obtain rfl : q = t :: ts := h
    exact ⟨many ({ t with task := none } :: ts), by rw [takeFront, ht]; rfl, rfl⟩

end TaskQueue

/-! ## The manager -/

structure BlockTaskGroup (S : Type) where
  tasks : TaskQueue S
  dependentTasks : List TaskId
deriving DecidableEq, Repr

def BlockTaskGroup.new (task : BlockTaskInternal S) : BlockTaskGroup S := ⟨.new task, []⟩

/-- `BlockTaskDependencyManager`: the pending hashes with their groups. -/
abbrev BlockTaskDependencyManager (S : Type) := AList fun _ : Hash => BlockTaskGroup S

namespace BlockTaskDependencyManager

def register (self : BlockTaskDependencyManager S) (task : BlockTask)
    (transmitters : Transmitters S) : Option TaskId × BlockTaskDependencyManager S :=
  match self.lookup task.hash with
  | none => (some task.hash, self.insert task.hash (.new (.new task transmitters)))
  | some g =>
    (none, self.insert task.hash { g with tasks := g.tasks.pushBack (.new task transmitters) })

def tryBegin (self : BlockTaskDependencyManager S) (taskId : TaskId) :
    Option (Option BlockTask × BlockTaskDependencyManager S) := do
  let group ← self.lookup taskId
  let internalTask ← group.tasks.front
  let task ← internalTask.task
  match task.block.directParents.findSome? fun parent =>
    (self.lookup parent).map fun parentTask => (parent, parentTask) with
  | some (parent, parentTask) =>
    return (none, self.insert parent
      { parentTask with dependentTasks := parentTask.dependentTasks ++ [taskId] })
  | none => do
    let (task, tasks) ← group.tasks.takeFront
    return (some task, self.insert taskId { group with tasks := tasks })

/-- `end`: the senders that are passed to the callback, and the tasks to be queued. -/
def endTask (self : BlockTaskDependencyManager S) (task : BlockTask) :
    Option (Transmitters S × List TaskId × BlockTaskDependencyManager S) := do
  let group ← self.lookup task.hash
  let (internalTask, tasks) ← group.tasks.popFront
  let (nextTasks, self) :=
    if tasks.isEmpty then (group.dependentTasks, self.erase task.hash)
    else ([task.hash], self.insert task.hash { group with tasks := tasks })
  if internalTask.task.isNone then some (internalTask.transmitters, nextTasks, self) else none

end BlockTaskDependencyManager

/-! ## The system -/

/-- A task with its senders, as it was registered or as it was reported. -/
structure Registration (S : Type) where
  task : BlockTask
  transmitters : Transmitters S
deriving DecidableEq, Repr

/-- The manager, the ids that are queued for a worker, the tasks that workers run, and what has
happened so far: the registrations, the tasks that were started, and the calls of the callback. -/
structure System (S : Type) where
  manager : BlockTaskDependencyManager S
  queued : List TaskId
  running : List BlockTask
  registered : List (Registration S)
  started : List BlockTask
  reported : List (Registration S)

/-- The calls of the receiver and of the workers. -/
inductive Call (S : Type) where
  | register (registration : Registration S)
  | tryBegin (taskId : TaskId)
  | endTask (task : BlockTask)

namespace System

/-- The system before the first call. -/
def new : System S := ⟨∅, [], [], [], [], []⟩

/-- The system after a call. The ids that a call returns are queued once. -/
def exec (self : System S) : Call S → Option (System S)
  | .register registration =>
    let (id, manager) := self.manager.register registration.task registration.transmitters
    some { self with
      manager := manager
      queued := self.queued ++ id.toList
      registered := self.registered ++ [registration] }
  | .tryBegin taskId => do
    let (task, manager) ← self.manager.tryBegin taskId
    return { self with
      manager := manager
      queued := self.queued.erase taskId
      running := self.running ++ task.toList
      started := self.started ++ task.toList }
  | .endTask task => do
    let (transmitters, nextTasks, manager) ← self.manager.endTask task
    return { self with
      manager := manager
      queued := self.queued ++ nextTasks
      running := self.running.erase task
      reported := self.reported ++ [⟨task, transmitters⟩] }

end System

/-- The receiver registers blocks with their parents. A worker begins an id that is queued for it,
and ends a task that it runs. -/
def Call.Enabled (parents : Hash → List Hash) (self : System S) : Call S → Prop
  | .register registration =>
    registration.task.block.directParents = parents registration.task.hash
  | .tryBegin taskId => taskId ∈ self.queued
  | .endTask task => task ∈ self.running

instance (parents : Hash → List Hash) (self : System S) (call : Call S) :
    Decidable (call.Enabled parents self) :=
  match call with
  | .register _ => inferInstanceAs (Decidable (_ = _))
  | .tryBegin _ => inferInstanceAs (Decidable (_ ∈ _))
  | .endTask _ => inferInstanceAs (Decidable (_ ∈ _))

/-- The systems that interleavings of calls lead to. -/
inductive Reached (parents : Hash → List Hash) : System S → Prop
  | new : Reached parents .new
  | step {sys sys' : System S} {call : Call S} :
    Reached parents sys → call.Enabled parents sys → sys.exec call = some sys' →
    Reached parents sys'

/-- The system after the given calls, if each of them is enabled. -/
def System.run (parents : Hash → List Hash) (self : System S) : List (Call S) → Option (System S)
  | [] => some self
  | call :: calls =>
    if call.Enabled parents self then (self.exec call).bind (run parents · calls) else none

lemma Reached.run {parents : Hash → List Hash} {sys sys' : System S} (h : Reached parents sys)
    {calls : List (Call S)} (hrun : sys.run parents calls = some sys') : Reached parents sys' := by
  induction calls generalizing sys with
  | nil =>
    cases hrun
    exact h
  | cons call calls ih =>
    rw [System.run] at hrun
    split at hrun
    · next henabled =>
      obtain ⟨sys₁, hexec, hrun⟩ := Option.bind_eq_some_iff.mp hrun
      exact ih (.step h henabled hexec) hrun
    · cases hrun

end LapisMonetae.Pipeline
