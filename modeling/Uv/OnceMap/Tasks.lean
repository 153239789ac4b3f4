import Uv.Core.Interleaving

/-!
# Tasks on a map

Tasks call the functions of a map whose jobs run once.  Each access to the map is a step of
its own, and so is the creation of a notification and the call of `notify_waiters`; between
two steps of a task the others may go on.

A notification receives the calls of `notify_waiters` after its creation: it keeps how often
the handle was notified before.
-/

namespace Uv.OnceMap

/-- The number of a `Notify`. -/
abbrev Notify := ℕ

inductive Value (V : Type) where
  | waiting (notify : Notify)
  | filled (value : V)
  deriving DecidableEq

inductive Panic where
  | appendOnly
  | notifyWasCalled
  deriving DecidableEq

/-- How far a task is in its call. -/
inductive TaskState (K V : Type) where
  | idle
  /-- `done` has replaced an entry whose waiters it has to notify. -/
  | notifying (notify : Notify)
  /-- `wait` has found a job that is running. -/
  | located (key : K) (notify : Notify)
  /-- `wait` has created its notification. -/
  | listening (key : K) (notify : Notify) (seen : ℕ)
  /-- `wait` has found no value and waits for the notification. -/
  | suspended (key : K) (notify : Notify) (seen : ℕ)
  /-- `wait` was notified. -/
  | woken (key : K)
  | panicked (panic : Panic)
  deriving DecidableEq

inductive Event (K V : Type) where
  | registered (key : K) (started : Bool)
  | done (key : K) (value : V)
  | returned (key : K) (value : Option V)
  deriving DecidableEq

structure State (Task K V : Type) where
  items : K → Option (Value V)
  notified : Notify → ℕ
  /-- The number of handles that were made. -/
  handles : ℕ
  tasks : Task → TaskState K V
  /-- What happened, the newest first. -/
  history : List (Event K V)

/-- A call, or the next step of the call a task is in. -/
inductive Action (K V : Type) where
  | register (key : K)
  | done (key : K) (value : V)
  | wait (key : K)
  | get (key : K)
  | remove (key : K)
  | proceed

namespace State

variable {Task K V : Type} [DecidableEq Task] [DecidableEq K]

/-- No entries, and all tasks outside of calls. -/
def empty : State Task K V where
  items _ := none
  notified _ := 0
  handles := 0
  tasks _ := .idle
  history := []

def setTask (s : State Task K V) (task : Task) (state : TaskState K V) : State Task K V :=
  { s with tasks := Function.update s.tasks task state }

def log (s : State Task K V) (event : Event K V) : State Task K V :=
  { s with history := event :: s.history }

/-- The call ends with a value. -/
def finish (s : State Task K V) (task : Task) (key : K) (value : Option V) : State Task K V :=
  (s.setTask task .idle).log (.returned key value)

def register (s : State Task K V) (key : K) : State Task K V :=
  match s.items key with
  | some _ => s.log (.registered key false)
  | none =>
      { s with
        items := Function.update s.items key (some (.waiting s.handles))
        handles := s.handles + 1 }.log (.registered key true)

/-- `done` up to the call of `notify_waiters`. -/
def done (s : State Task K V) (task : Task) (key : K) (value : V) : State Task K V :=
  let replaced := s.items key
  let s := { s with items := Function.update s.items key (some (.filled value)) }.log
    (.done key value)
  match replaced with
  | some (.waiting notify) => s.setTask task (.notifying notify)
  | _ => s

def notifyWaiters (s : State Task K V) (notify : Notify) : State Task K V :=
  { s with notified := Function.update s.notified notify (s.notified notify + 1) }

/-- `wait` up to its first access. -/
def wait (s : State Task K V) (task : Task) (key : K) : State Task K V :=
  match s.items key with
  | none => s.finish task key none
  | some (.filled value) => s.finish task key (some value)
  | some (.waiting notify) => s.setTask task (.located key notify)

/-- The second access of `wait`. -/
def recheck (s : State Task K V) (task : Task) (key : K) (notify : Notify) (seen : ℕ) :
    State Task K V :=
  match s.items key with
  | none => s.setTask task (.panicked .appendOnly)
  | some (.filled value) => s.finish task key (some value)
  | some (.waiting _) => s.setTask task (.suspended key notify seen)

/-- The last access of `wait`. -/
def reload (s : State Task K V) (task : Task) (key : K) : State Task K V :=
  match s.items key with
  | none => s.setTask task (.panicked .appendOnly)
  | some (.filled value) => s.finish task key (some value)
  | some (.waiting _) => s.setTask task (.panicked .notifyWasCalled)

def get (s : State Task K V) (task : Task) (key : K) : State Task K V :=
  match s.items key with
  | some (.filled value) => s.finish task key (some value)
  | _ => s.finish task key none

def remove (s : State Task K V) (key : K) : State Task K V :=
  { s with items := Function.update s.items key none }

/-- The next step of the call that a task is in, if it can be taken. -/
def proceed (s : State Task K V) (task : Task) : Option (State Task K V) :=
  match s.tasks task with
  | .notifying notify => some ((s.notifyWaiters notify).setTask task .idle)
  | .located key notify => some (s.setTask task (.listening key notify (s.notified notify)))
  | .listening key notify seen => some (s.recheck task key notify seen)
  | .suspended key notify seen =>
      if seen < s.notified notify then some (s.setTask task (.woken key)) else none
  | .woken key => some (s.reload task key)
  | .idle => none
  | .panicked _ => none

/-- The first step of a call. -/
def call (s : State Task K V) (task : Task) : Action K V → Option (State Task K V)
  | .register key => some (s.register key)
  | .done key value => some (s.done task key value)
  | .wait key => some (s.wait task key)
  | .get key => some (s.get task key)
  | .remove key => some (s.remove key)
  | .proceed => none

def step (s : State Task K V) (label : Task × Action K V) : Option (State Task K V) :=
  match s.tasks label.1, label.2 with
  | .idle, action => s.call label.1 action
  | _, .proceed => s.proceed label.1
  | _, _ => none

end State

end Uv.OnceMap
