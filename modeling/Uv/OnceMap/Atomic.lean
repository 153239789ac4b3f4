import Uv.OnceMap.Waiting

/-!
# The map as an atomic one

Calls report what they would if each of them was one step, in the order of the accesses that
decide them, and a call of `wait` comes back once its job is done.
-/

set_option linter.unusedSectionVars false

namespace Uv.OnceMap

open Function Uv.Core

variable {Task K V : Type} [DecidableEq Task] [DecidableEq K]

/-- What a call does to the jobs that were started, with their values if they are done, when
it is one step; `none` if it would report something else. -/
def atomicStep [DecidableEq V] (jobs : K → Option (Option V)) :
    Event K V → Option (K → Option (Option V))
  | .registered key started =>
      if started = (jobs key).isNone then
        some (if started then update jobs key (some none) else jobs)
      else none
  | .done key value => some (update jobs key (some (some value)))
  | .returned key value => if value = (jobs key).join then some jobs else none

namespace State

variable {s s' : State Task K V} {task : Task} {key : K} {value : V}

/-- The jobs that have entries. -/
def jobs (s : State Task K V) : K → Option (Option V) :=
  fun key => (s.items key).map Value.result

section Atomic

variable [DecidableEq V]

/-- A step of the atomic map, or one that is not seen there. -/
abbrev Refines (s s' : State Task K V) : Prop :=
  Simulates atomicStep jobs history s s'

theorem Ends.refines (hends : Ends s s' task) : Refines s s' := by
  rcases hends with ⟨hitems, hhistory⟩ | ⟨key, rfl⟩
  · exact .stutter hhistory (by unfold jobs; rw [hitems])
  · refine .event (.returned key _) rfl (if_pos ?_)
    cases hitem : s.items key <;> simp [jobs, hitem]

theorem jobs_update {entry : Value V} (hitems : s'.items = update s.items key (some entry)) :
    s'.jobs = update s.jobs key (some entry.result) := by
  funext other
  simp only [jobs, hitems, update_apply]
  split <;> rfl

theorem call_refines {action : Action K V} (hkeeps : ∀ key, action ≠ .remove key)
    (hcall : s.call task action = some s') : Refines s s' := by
  cases action with
  | register key =>
      cases hcall
      rw [register]
      cases hitem : s.items key with
      | some entry =>
          refine .event (.registered key false) rfl ?_
          change atomicStep s.jobs _ = some s.jobs
          simp [atomicStep, jobs, hitem]
      | none =>
          refine .event (.registered key true) rfl ?_
          have hitems : ∀ s' : State Task K V,
              s'.items = update s.items key (some (.waiting s.handles)) →
                atomicStep s.jobs (.registered key true) = some s'.jobs := by
            intro s' hitems
            rw [jobs_update hitems]
            simp [atomicStep, jobs, hitem, Value.result]
          exact hitems _ rfl
  | done key value =>
      cases hcall
      refine .event (.done key value) ?_ ?_
      · rw [done]
        split <;> rfl
      · rw [jobs_update (done_items s task key value)]
        rfl
  | wait key =>
      cases hcall
      exact (wait_ends s task key).refines
  | get key =>
      cases hcall
      exact (get_ends s task key).refines
  | remove key => exact absurd rfl (hkeeps key)
  | proceed => cases hcall

theorem step_refines {label : Task × Action K V} (hkeeps : s.Keeps label)
    (hstep : s.step label = some s') : Refines s s' := by
  rw [step] at hstep
  split at hstep
  · exact call_refines hkeeps hstep
  · exact (proceed_ends hstep).refines
  · cases hstep

/-- Without `remove`, what the calls of a run report, in the order in which they took effect,
is a run of the atomic map, and the entries are what it leads to. -/
theorem atomic_of_reaches (hreaches : Reaches step Keeps (empty : State Task K V) s) :
    s.history.reverse.foldlM atomicStep (fun _ => none) = some s.jobs :=
  hreaches.simulates rfl step_refines

end Atomic

/-- A task waits, and the job is done, but the waiters are not notified yet. -/
private def doneLabels : List (ℕ × Action ℕ ℕ) :=
  [(0, .register 7), (1, .wait 7), (1, .proceed), (1, .proceed), (0, .done 7 5)]

theorem doneLabels_keeps : ∀ label ∈ doneLabels, ∀ s : State ℕ ℕ ℕ, s.Keeps label := by
  simp [doneLabels, Keeps]

theorem atomic_of_reaches_done : ∃ s : State ℕ ℕ ℕ, doneLabels.foldlM step empty = some s ∧
    s.history = [.done 7 5, .registered 7 true] ∧
      s.history.reverse.foldlM atomicStep (fun _ => none) = some s.jobs :=
  ⟨_, rfl, rfl, atomic_of_reaches (.of_foldlM doneLabels_keeps rfl)⟩

/-! ## A call of `wait` comes back -/

/-- The next steps of these tasks end the call of the task with the value of the key. -/
def ReturnsAfter (s : State Task K V) (tasks : List Task) (task : Task) (key : K)
    (value : V) : Prop :=
  ∃ s', (tasks.map fun other => (other, Action.proceed)).foldlM step s = some s' ∧
    s'.tasks task = .idle ∧ s'.history = .returned key (some value) :: s.history

theorem returnsAfter_finish
    (hstep : s.step (task, .proceed) = some (s.finish task key (some value))) :
    s.ReturnsAfter [task] task key value :=
  ⟨s.finish task key (some value), by simpa using hstep, setTask_tasks, rfl⟩

theorem ReturnsAfter.cons {tasks : List Task} {other : Task}
    (hstep : s.step (other, .proceed) = some s') (hhistory : s'.history = s.history)
    (hrest : s'.ReturnsAfter tasks task key value) :
    s.ReturnsAfter (other :: tasks) task key value := by
  obtain ⟨last, hrun, htask, hlast⟩ := hrest
  refine ⟨last, ?_, htask, hhistory ▸ hlast⟩
  rw [List.map_cons, List.foldlM_cons, hstep]
  exact hrun

theorem woken_returns (hitem : s.items key = some (.filled value))
    (htask : s.tasks task = .woken key) : s.ReturnsAfter [task] task key value :=
  returnsAfter_finish (by simp [step, proceed, reload, htask, hitem])

theorem listening_returns {notify : Notify} {seen : ℕ}
    (hitem : s.items key = some (.filled value))
    (htask : s.tasks task = .listening key notify seen) :
    s.ReturnsAfter [task] task key value :=
  returnsAfter_finish (by simp [step, proceed, recheck, htask, hitem])

theorem notified_returns {notify : Notify} {seen : ℕ}
    (hitem : s.items key = some (.filled value))
    (htask : s.tasks task = .suspended key notify seen) (hseen : seen < s.notified notify) :
    s.ReturnsAfter [task, task] task key value := by
  have hstep : s.step (task, .proceed) = some (s.setTask task (.woken key)) := by
    simp [step, proceed, htask, hseen]
  exact .cons hstep rfl (woken_returns hitem setTask_tasks)

/-- A call of `wait` whose key has a value comes back with it after at most three steps of
calls that have begun: one of the call of `done`, if it has still to notify, and its own. -/
theorem wait_returns (hreaches : Reaches step Calm (empty : State Task K V) s)
    (hitem : s.items key = some (.filled value)) (hwaits : (s.tasks task).WaitsOn key) :
    ∃ tasks, tasks.length ≤ 3 ∧ s.ReturnsAfter tasks task key value := by
  have hsound : Sound s := hreaches.invariant sound_empty step_sound
  have hfits := hsound.tasks task
  rcases hwaits with ⟨notify, hlocated | ⟨seen, hlistening | hsuspended⟩⟩ | hwoken
  · have hstep : s.step (task, .proceed) =
        some (s.setTask task (.listening key notify (s.notified notify))) := by
      simp [step, proceed, hlocated]
    exact ⟨[task, task], by simp, .cons hstep rfl (listening_returns hitem setTask_tasks)⟩
  · exact ⟨[task], by simp, listening_returns hitem hlistening⟩
  · rw [hsuspended] at hfits
    rcases hfits.1 with hwaiting | ⟨_, hseen | ⟨other, hother⟩⟩
    · rw [hitem] at hwaiting
      cases hwaiting
    · exact ⟨[task, task], by simp, notified_returns hitem hsuspended hseen⟩
    · -- `done` has replaced the entry, and its next step notifies
      have hne : task ≠ other := by
        rintro rfl
        rw [hsuspended] at hother
        cases hother
      have hstep : s.step (other, .proceed) =
          some ((s.notifyWaiters notify).setTask other .idle) := by
        simp [step, proceed, hother]
      refine ⟨[other, task, task], by simp, .cons hstep rfl ?_⟩
      refine notified_returns hitem ((update_of_ne hne _ _).trans hsuspended) ?_
      change seen < update s.notified notify (s.notified notify + 1) notify
      rw [update_self]
      exact Nat.lt_succ_of_le hfits.2
  · exact ⟨[task], by simp, woken_returns hitem hwoken⟩

theorem wait_returns_done : ∃ s : State ℕ ℕ ℕ, doneLabels.foldlM step empty = some s ∧
    s.tasks 0 = .notifying 0 ∧ ∃ tasks, tasks.length ≤ 3 ∧ s.ReturnsAfter tasks 1 7 5 := by
  have hcalm : ∀ label ∈ doneLabels, ∀ s : State ℕ ℕ ℕ, s.Calm label :=
    fun label hlabel s => (doneLabels_keeps label hlabel s).calm
  exact ⟨_, rfl, rfl,
    wait_returns (.of_foldlM hcalm rfl) rfl (Or.inl ⟨0, Or.inr ⟨0, Or.inr rfl⟩⟩)⟩

end State

end Uv.OnceMap
