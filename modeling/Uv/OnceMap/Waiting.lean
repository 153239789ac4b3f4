import Uv.OnceMap.Tasks

/-!
# Waiting on a map

No wake-up is lost: a task that waits for a job finds it running, or finds its value and is
notified.  This needs that no entry is removed while a task waits on it.
-/

set_option linter.unusedSectionVars false

namespace Uv.OnceMap

open Function Uv.Core

variable {Task K V : Type} [DecidableEq Task] [DecidableEq K]

/-- The value of an entry, if its job is done. -/
def Value.result : Value V → Option V
  | .waiting _ => none
  | .filled value => some value

namespace TaskState

/-- The task waits on the key for the job of the handle. -/
def WaitsFor (state : TaskState K V) (key : K) (notify : Notify) : Prop :=
  state = .located key notify ∨ ∃ seen, state = .listening key notify seen ∨
    state = .suspended key notify seen

/-- The task is in a call of `wait` for the key, after its first access. -/
def WaitsOn (state : TaskState K V) (key : K) : Prop :=
  (∃ notify, state.WaitsFor key notify) ∨ state = .woken key

end TaskState

namespace State

variable {s s' : State Task K V} {task : Task} {key : K} {value : V}

/-- The last value that `done` was called with for the key. -/
def lastDone (history : List (Event K V)) (key : K) : Option V :=
  history.findSome? fun
    | .done key' value => if key' = key then some value else none
    | _ => none

/-- A notification that has not been received, or the call of `notify_waiters` is the next
step of a task. -/
def Pending (s : State Task K V) (notify : Notify) (seen : ℕ) : Prop :=
  seen < s.notified notify ∨ ∃ task, s.tasks task = .notifying notify

/-- The key has the last value that `done` was called with. -/
def Visible (s : State Task K V) (key : K) : Prop :=
  ∃ value, s.items key = some (.filled value) ∧ lastDone s.history key = some value

/-- The handle of a job that is running was not used. -/
structure Unused (s : State Task K V) (notify : Notify) : Prop where
  notified : s.notified notify = 0
  tasks : ∀ task, s.tasks task ≠ .notifying notify

/-- What is known of a task from how far it is in its call. -/
def Fits (s : State Task K V) : TaskState K V → Prop
  | .idle => True
  | .notifying _ => True
  | .located key notify => s.items key = some (.waiting notify) ∨ s.Visible key
  | .listening key notify seen =>
      (s.items key = some (.waiting notify) ∨ s.Visible key) ∧ seen ≤ s.notified notify
  | .suspended key notify seen =>
      (s.items key = some (.waiting notify) ∨ s.Visible key ∧ s.Pending notify seen) ∧
        seen ≤ s.notified notify
  | .woken key => s.Visible key
  | .panicked _ => False

structure Sound (s : State Task K V) : Prop where
  handles : ∀ key notify, s.items key = some (.waiting notify) → notify < s.handles
  distinct : ∀ key key' notify, s.items key = some (.waiting notify) →
    s.items key' = some (.waiting notify) → key = key'
  unused : ∀ notify, s.handles ≤ notify ∨ (∃ key, s.items key = some (.waiting notify)) →
    s.Unused notify
  filled : ∀ key value, s.items key = some (.filled value) →
    lastDone s.history key = some value
  tasks : ∀ task, s.Fits (s.tasks task)

theorem sound_empty : Sound (empty : State Task K V) where
  handles := by simp [empty]
  distinct := by simp [empty]
  unused _ _ := ⟨rfl, by simp [empty]⟩
  filled := by simp [empty]
  tasks _ := trivial

/-! ## One step -/

/-- A job that is running goes on or gets a value, and its waiters are to be notified; a value
stays. -/
structure Advances (s s' : State Task K V) (key : K) : Prop where
  waiting : ∀ notify, s.items key = some (.waiting notify) →
    s'.items key = some (.waiting notify) ∨
      s'.Visible key ∧ ∃ task, s'.tasks task = .notifying notify
  visible : s.Visible key → s'.Visible key

theorem Fits.mono {state : TaskState K V} (hfits : s.Fits state)
    (hadvances : ∀ key, state.WaitsOn key → Advances s s' key)
    (hnotified : ∀ notify, s.notified notify ≤ s'.notified notify)
    (hpending : ∀ notify seen, seen ≤ s.notified notify → s.Pending notify seen →
      s'.Pending notify seen) : s'.Fits state := by
  have hgo : ∀ key notify, Advances s s' key →
      (s.items key = some (.waiting notify) ∨ s.Visible key) →
        s'.items key = some (.waiting notify) ∨ s'.Visible key := by
    intro key notify hadvance hkey
    rcases hkey with hwaiting | hvisible
    · exact (hadvance.waiting notify hwaiting).imp id And.left
    · exact Or.inr (hadvance.visible hvisible)
  cases state with
  | idle => trivial
  | notifying => trivial
  | located key notify =>
      exact hgo key notify (hadvances key (Or.inl ⟨notify, Or.inl rfl⟩)) hfits
  | listening key notify seen =>
      have hadvance := hadvances key (Or.inl ⟨notify, Or.inr ⟨seen, Or.inl rfl⟩⟩)
      exact ⟨hgo key notify hadvance hfits.1, hfits.2.trans (hnotified notify)⟩
  | suspended key notify seen =>
      have hadvance := hadvances key (Or.inl ⟨notify, Or.inr ⟨seen, Or.inr rfl⟩⟩)
      refine ⟨?_, hfits.2.trans (hnotified notify)⟩
      rcases hfits.1 with hwaiting | ⟨hvisible, hpend⟩
      · exact (hadvance.waiting notify hwaiting).imp id fun h => ⟨h.1, Or.inr h.2⟩
      · exact Or.inr ⟨hadvance.visible hvisible, hpending notify seen hfits.2 hpend⟩
  | woken key => exact (hadvances key (Or.inr rfl)).visible hfits
  | panicked panic => exact hfits.elim

/-- The entries and the handles are the same; one task is elsewhere, and `done` was not
called. -/
structure Moves (s s' : State Task K V) (task : Task) : Prop where
  items : s'.items = s.items
  notified : s'.notified = s.notified
  handles : s'.handles = s.handles
  tasks : ∀ other, other ≠ task → s'.tasks other = s.tasks other
  notifying : ∀ notify, s.tasks task ≠ .notifying notify ∧ s'.tasks task ≠ .notifying notify
  history : ∀ key, lastDone s'.history key = lastDone s.history key

theorem Moves.visible (hmoves : Moves s s' task) : s'.Visible key ↔ s.Visible key := by
  simp only [Visible, hmoves.items, hmoves.history]

theorem Moves.notifying_iff (hmoves : Moves s s' task) {other : Task} {notify : Notify} :
    s'.tasks other = .notifying notify ↔ s.tasks other = .notifying notify := by
  by_cases hother : other = task
  · rw [hother]
    exact iff_of_false (hmoves.notifying notify).2 (hmoves.notifying notify).1
  · rw [hmoves.tasks other hother]

theorem Moves.fits (hmoves : Moves s s' task) {state : TaskState K V} (hfits : s.Fits state) :
    s'.Fits state := by
  apply hfits.mono
  · intro key _
    constructor
    · intro notify hwaiting
      exact Or.inl (by rw [hmoves.items, hwaiting])
    · exact hmoves.visible.mpr
  · intro notify
    rw [hmoves.notified]
  · intro notify seen _ hpending
    simpa only [Pending, hmoves.notified, hmoves.notifying_iff] using hpending

theorem Moves.sound (hmoves : Moves s s' task) (hsound : Sound s)
    (hfits : s.Fits (s'.tasks task)) : Sound s' where
  handles key notify := by
    rw [hmoves.items, hmoves.handles]
    exact hsound.handles key notify
  distinct key key' notify := by
    rw [hmoves.items]
    exact hsound.distinct key key' notify
  unused notify := by
    rw [hmoves.items, hmoves.handles]
    intro hunused
    obtain ⟨hnotified, htasks⟩ := hsound.unused notify hunused
    refine ⟨by rw [hmoves.notified, hnotified], ?_⟩
    intro other
    rw [Ne, hmoves.notifying_iff]
    exact htasks other
  filled key value := by
    rw [hmoves.items, hmoves.history]
    exact hsound.filled key value
  tasks other := by
    by_cases hother : other = task
    · rw [hother]
      exact hmoves.fits hfits
    · rw [hmoves.tasks other hother]
      exact hmoves.fits (hsound.tasks other)

theorem lastDone_done (history : List (Event K V)) (key : K) (value : V) (key' : K) :
    lastDone (.done key value :: history) key' =
      if key = key' then some value else lastDone history key' := by
  by_cases hkey : key = key' <;> simp [lastDone, hkey]

theorem setTask_tasks {state : TaskState K V} : (s.setTask task state).tasks task = state :=
  update_self _ _ _

theorem moves_setTask {state : TaskState K V} (hold : ∀ notify, s.tasks task ≠ .notifying notify)
    (hnew : ∀ notify, state ≠ .notifying notify) : Moves s (s.setTask task state) task where
  items := rfl
  notified := rfl
  handles := rfl
  tasks other hother := update_of_ne hother _ _
  notifying notify := ⟨hold notify, by
    rw [setTask_tasks]
    exact hnew notify⟩
  history _ := rfl

theorem moves_finish {returned : Option V} (hold : ∀ notify, s.tasks task ≠ .notifying notify) :
    Moves s (s.finish task key returned) task where
  items := rfl
  notified := rfl
  handles := rfl
  tasks other hother := update_of_ne hother _ _
  notifying notify := ⟨hold notify, by simp [finish, setTask, log]⟩
  history _ := rfl

theorem finish_sound {returned : Option V} (hsound : Sound s)
    (hold : ∀ notify, s.tasks task ≠ .notifying notify) :
    Sound (s.finish task key returned) := by
  apply (moves_finish hold).sound hsound
  simp [finish, setTask, log, Fits]

theorem setTask_sound {state : TaskState K V} (hsound : Sound s)
    (hold : ∀ notify, s.tasks task ≠ .notifying notify)
    (hnew : ∀ notify, state ≠ .notifying notify) (hfits : s.Fits state) :
    Sound (s.setTask task state) := by
  apply (moves_setTask hold hnew).sound hsound
  rw [setTask_tasks]
  exact hfits

theorem register_sound (hsound : Sound s) (key : K) : Sound (s.register key) := by
  rw [register]
  cases hitem : s.items key with
  | some entry =>
      dsimp only
      exact ⟨hsound.handles, hsound.distinct,
        fun notify hunused => ⟨(hsound.unused notify hunused).1, (hsound.unused notify hunused).2⟩,
        hsound.filled, fun task => (hsound.tasks task).mono
          (fun _ _ => ⟨fun _ => Or.inl, id⟩) (fun _ => le_rfl) fun _ _ _ => id⟩
  | none =>
      have hvisible : ∀ {key'}, s.Visible key' → key' ≠ key := by
        rintro key' ⟨value, hvalue, _⟩ rfl
        rw [hitem] at hvalue
        cases hvalue
      have hentry : ∀ {key' notify}, update s.items key (some (.waiting s.handles)) key' =
          some (.waiting notify) → key' = key ∧ notify = s.handles ∨
            s.items key' = some (.waiting notify) := by
        intro key' notify hentry
        by_cases hkey : key' = key
        · rw [hkey, update_self] at hentry
          cases hentry
          exact Or.inl ⟨hkey, rfl⟩
        · rw [update_of_ne hkey] at hentry
          exact Or.inr hentry
      dsimp only [log]
      constructor
      case handles =>
        intro key' notify hkey'
        rcases hentry hkey' with ⟨_, rfl⟩ | hold
        · exact Nat.lt_succ_self _
        · exact Nat.lt_succ_of_lt (hsound.handles key' notify hold)
      case distinct =>
        intro key' key'' notify hkey' hkey''
        rcases hentry hkey' with ⟨rfl, rfl⟩ | hold <;>
          rcases hentry hkey'' with ⟨rfl, heq⟩ | hold'
        · rfl
        · exact absurd (hsound.handles key'' _ hold') (Nat.lt_irrefl _)
        · rw [heq] at hold
          exact absurd (hsound.handles key' _ hold) (Nat.lt_irrefl _)
        · exact hsound.distinct key' key'' notify hold hold'
      case unused =>
        intro notify hunused
        have hold : s.Unused notify := by
          apply hsound.unused
          rcases hunused with hle | ⟨key', hkey'⟩
          · exact Or.inl (Nat.le_of_succ_le hle)
          · rcases hentry hkey' with ⟨_, rfl⟩ | hold
            · exact Or.inl le_rfl
            · exact Or.inr ⟨key', hold⟩
        exact ⟨hold.notified, hold.tasks⟩
      case filled =>
        intro key' value hvalue
        change update s.items key (some (.waiting s.handles)) key' = _ at hvalue
        by_cases hkey : key' = key
        · rw [hkey, update_self] at hvalue
          cases hvalue
        · rw [update_of_ne hkey] at hvalue
          exact hsound.filled key' value hvalue
      case tasks =>
        intro task
        apply (hsound.tasks task).mono
        · intro key' _
          constructor
          · intro notify hwaiting
            have hne : key' ≠ key := by
              rintro rfl
              rw [hitem] at hwaiting
              cases hwaiting
            exact Or.inl ((update_of_ne hne _ _).trans hwaiting)
          · intro hold
            obtain ⟨value, hvalue, hlast⟩ := hold
            have hne := hvisible ⟨value, hvalue, hlast⟩
            exact ⟨value, (update_of_ne hne _ _).trans hvalue, hlast⟩
        · exact fun _ => le_rfl
        · exact fun _ _ _ => id

/-- A value replaces the entry, and the waiters of that entry are to be notified. -/
theorem exists_done (hidle : s.tasks task = .idle) (key : K) (value : V) :
    ∃ state, s.done task key value =
      { s with
        items := update s.items key (some (.filled value))
        tasks := update s.tasks task state
        history := .done key value :: s.history } ∧
      (∀ notify, state = .notifying notify ↔ s.items key = some (.waiting notify)) ∧
        (state = .idle ∨ ∃ notify, state = .notifying notify) := by
  rw [done]
  cases hitem : s.items key with
  | none =>
      refine ⟨.idle, ?_, by simp, Or.inl rfl⟩
      rw [← hidle, update_eq_self]
      rfl
  | some entry =>
      cases entry with
      | waiting notify => exact ⟨.notifying notify, rfl, by simp, Or.inr ⟨notify, rfl⟩⟩
      | filled old =>
          refine ⟨.idle, ?_, by simp, Or.inl rfl⟩
          rw [← hidle, update_eq_self]
          rfl

theorem waiting_of_filled {key key' : K} {value : V} {notify : Notify}
    (hentry : update s.items key (some (.filled value)) key' = some (.waiting notify)) :
    key' ≠ key ∧ s.items key' = some (.waiting notify) := by
  by_cases hkey : key' = key
  · rw [hkey, update_self] at hentry
    cases hentry
  · rw [update_of_ne hkey] at hentry
    exact ⟨hkey, hentry⟩

theorem done_sound (hsound : Sound s) (hidle : s.tasks task = .idle) (key : K) (value : V) :
    Sound (s.done task key value) := by
  have hentry : ∀ {key' notify}, update s.items key (some (.filled value)) key' =
      some (.waiting notify) → key' ≠ key ∧ s.items key' = some (.waiting notify) :=
    waiting_of_filled
  obtain ⟨state, hdone, hstate, hcases⟩ := exists_done hidle key value
  rw [hdone]
  let s' : State Task K V :=
    { s with
      items := update s.items key (some (.filled value))
      tasks := update s.tasks task state
      history := .done key value :: s.history }
  have hlast : lastDone s'.history key = some value := by
    rw [lastDone_done, if_pos rfl]
  have hlastOther : ∀ {key'}, key' ≠ key → lastDone s'.history key' = lastDone s.history key' :=
    fun hkey => by rw [lastDone_done, if_neg (Ne.symm hkey)]
  have hvisible : s'.Visible key := ⟨value, update_self _ _ _, hlast⟩
  have htask : s'.tasks task = state := update_self _ _ _
  have hother : ∀ {other}, other ≠ task → s'.tasks other = s.tasks other :=
    fun hne => update_of_ne hne _ _
  have hadvances : ∀ key', Advances s s' key' := by
    intro key'
    by_cases hkey : key' = key
    · rw [hkey]
      constructor
      · intro notify hwaiting
        exact Or.inr ⟨hvisible, task, htask.trans ((hstate notify).mpr hwaiting)⟩
      · exact fun _ => hvisible
    · constructor
      · exact fun notify hwaiting => Or.inl ((update_of_ne hkey _ _).trans hwaiting)
      · rintro ⟨old, hvalue, hold⟩
        exact ⟨old, (update_of_ne hkey _ _).trans hvalue, (hlastOther hkey).trans hold⟩
  have hpending : ∀ notify seen, seen ≤ s.notified notify → s.Pending notify seen →
      s'.Pending notify seen := by
    rintro notify seen _ (hlt | ⟨other, hnotifying⟩)
    · exact Or.inl hlt
    · have hne : other ≠ task := by
        rintro rfl
        rw [hidle] at hnotifying
        cases hnotifying
      exact Or.inr ⟨other, (hother hne).trans hnotifying⟩
  change Sound s'
  constructor
  case handles => exact fun key' notify hkey' => hsound.handles key' notify (hentry hkey').2
  case distinct =>
    exact fun key' key'' notify hkey' hkey'' =>
      hsound.distinct key' key'' notify (hentry hkey').2 (hentry hkey'').2
  case unused =>
    intro notify hunused
    have hold := hsound.unused notify (hunused.imp id fun h => h.imp fun _ h => (hentry h).2)
    refine ⟨hold.notified, ?_⟩
    intro other hnotifying
    by_cases heq : other = task
    · -- the handle of the replaced entry is not that of another one, nor a new one
      have hwaiting := (hstate notify).mp (htask.symm.trans (heq ▸ hnotifying))
      rcases hunused with hle | ⟨key', hkey'⟩
      · exact absurd (hsound.handles key notify hwaiting) (Nat.not_lt.mpr hle)
      · exact (hentry hkey').1 (hsound.distinct key' key notify (hentry hkey').2 hwaiting)
    · exact hold.tasks other ((hother heq).symm.trans hnotifying)
  case filled =>
    intro key' value' hvalue
    change update s.items key (some (.filled value)) key' = _ at hvalue
    by_cases hkey : key' = key
    · rw [hkey, update_self] at hvalue
      cases hvalue
      rw [hkey]
      exact hlast
    · rw [update_of_ne hkey] at hvalue
      exact (hlastOther hkey).trans (hsound.filled key' value' hvalue)
  case tasks =>
    intro other
    by_cases heq : other = task
    · have hfits : s'.Fits state := by
        rcases hcases with rfl | ⟨notify, rfl⟩
        · trivial
        · trivial
      rw [heq, htask]
      exact hfits
    · have hfits : s'.Fits (s.tasks other) :=
        (hsound.tasks other).mono (fun key' _ => hadvances key') (fun _ => le_rfl) hpending
      rw [hother heq]
      exact hfits

theorem notifyWaiters_sound {notify : Notify} (hsound : Sound s)
    (htask : s.tasks task = .notifying notify) :
    Sound ((s.notifyWaiters notify).setTask task .idle) := by
  have hother : ∀ other notify', update s.tasks task .idle other = .notifying notify' →
      other ≠ task ∧ s.tasks other = .notifying notify' := by
    intro other notify' hnotifying
    by_cases hother : other = task
    · rw [hother, update_self] at hnotifying
      cases hnotifying
    · rw [update_of_ne hother] at hnotifying
      exact ⟨hother, hnotifying⟩
  have hle : ∀ notify', s.notified notify' ≤
      update s.notified notify (s.notified notify + 1) notify' := by
    intro notify'
    by_cases hnotify : notify' = notify
    · rw [hnotify, update_self]
      exact Nat.le_succ _
    · rw [update_of_ne hnotify]
  have hpending : ∀ notify' seen, seen ≤ s.notified notify' → s.Pending notify' seen →
      ((s.notifyWaiters notify).setTask task .idle).Pending notify' seen := by
    intro notify' seen hseen hpending
    rcases hpending with hlt | ⟨other, hnotifying⟩
    · exact Or.inl (hlt.trans_le (hle notify'))
    · by_cases hother : other = task
      · -- the notification of this task is the one that is given now
        rw [hother, htask] at hnotifying
        cases hnotifying
        refine Or.inl (Nat.lt_of_le_of_lt hseen ?_)
        change _ < update s.notified notify (s.notified notify + 1) notify
        rw [update_self]
        exact Nat.lt_succ_self _
      · exact Or.inr ⟨other, (update_of_ne hother _ _).trans hnotifying⟩
  have hfits : ∀ {state : TaskState K V}, s.Fits state →
      ((s.notifyWaiters notify).setTask task .idle).Fits state := by
    intro state hfits
    exact hfits.mono (fun _ _ => ⟨fun _ => Or.inl, id⟩) hle hpending
  refine ⟨hsound.handles, hsound.distinct, ?_, hsound.filled, ?_⟩
  · intro notify' hunused
    have hold := hsound.unused notify' hunused
    have hne : notify' ≠ notify := by
      rintro rfl
      exact hold.tasks task htask
    refine ⟨(update_of_ne hne _ _).trans hold.notified, ?_⟩
    intro other hnotifying
    exact hold.tasks other (hother other notify' hnotifying).2
  · intro other
    by_cases heq : other = task
    · rw [heq, setTask_tasks]
      trivial
    · have hsame : ((s.notifyWaiters notify).setTask task .idle).tasks other = s.tasks other :=
        update_of_ne heq _ _
      rw [hsame]
      exact hfits (hsound.tasks other)

theorem remove_sound (hsound : Sound s) (hcalm : ∀ task, ¬ (s.tasks task).WaitsOn key) :
    Sound (s.remove key) := by
  have hentry : ∀ {key' entry}, update s.items key none key' = some entry →
      s.items key' = some entry := by
    intro key' entry hentry
    by_cases hkey : key' = key
    · rw [hkey, update_self] at hentry
      cases hentry
    · rwa [update_of_ne hkey] at hentry
  constructor
  case handles => exact fun key' notify hkey' => hsound.handles key' notify (hentry hkey')
  case distinct =>
    exact fun key' key'' notify hkey' hkey'' =>
      hsound.distinct key' key'' notify (hentry hkey') (hentry hkey'')
  case unused =>
    intro notify hunused
    have hold := hsound.unused notify (hunused.imp id fun h => h.imp fun _ => hentry)
    exact ⟨hold.notified, hold.tasks⟩
  case filled => exact fun key' value hvalue => hsound.filled key' value (hentry hvalue)
  case tasks =>
    intro task
    apply (hsound.tasks task).mono
    · intro key' hwaits
      have hne : key' ≠ key := by
        rintro rfl
        exact hcalm task hwaits
      constructor
      · exact fun notify hwaiting => Or.inl ((update_of_ne hne _ _).trans hwaiting)
      · rintro ⟨value, hvalue, hlast⟩
        exact ⟨value, (update_of_ne hne _ _).trans hvalue, hlast⟩
    · exact fun _ => le_rfl
    · exact fun _ _ _ => id

theorem wait_sound (hsound : Sound s) (hidle : s.tasks task = .idle) (key : K) :
    Sound (s.wait task key) := by
  have hold : ∀ notify, s.tasks task ≠ .notifying notify := by simp [hidle]
  rw [wait]
  cases hitem : s.items key with
  | none => exact finish_sound hsound hold
  | some entry =>
      cases entry with
      | filled value => exact finish_sound hsound hold
      | waiting notify => exact setTask_sound hsound hold (by simp) (Or.inl hitem)

theorem get_sound (hsound : Sound s) (hidle : s.tasks task = .idle) (key : K) :
    Sound (s.get task key) := by
  have hold : ∀ notify, s.tasks task ≠ .notifying notify := by simp [hidle]
  rw [get]
  split
  · exact finish_sound hsound hold
  · exact finish_sound hsound hold

theorem recheck_sound {notify : Notify} {seen : ℕ} (hsound : Sound s)
    (htask : s.tasks task = .listening key notify seen) :
    Sound (s.recheck task key notify seen) := by
  have hold : ∀ notify, s.tasks task ≠ .notifying notify := by simp [htask]
  have hfits := hsound.tasks task
  rw [htask] at hfits
  obtain ⟨hkey, hseen⟩ := hfits
  rw [recheck]
  rcases hkey with hwaiting | ⟨value, hfilled, _⟩
  · rw [hwaiting]
    exact setTask_sound hsound hold (by simp) ⟨Or.inl hwaiting, hseen⟩
  · rw [hfilled]
    exact finish_sound hsound hold

theorem reload_sound (hsound : Sound s) (htask : s.tasks task = .woken key) :
    Sound (s.reload task key) := by
  have hold : ∀ notify, s.tasks task ≠ .notifying notify := by simp [htask]
  have hfits := hsound.tasks task
  rw [htask] at hfits
  obtain ⟨value, hfilled, _⟩ := hfits
  rw [reload, hfilled]
  exact finish_sound hsound hold

theorem proceed_sound (hsound : Sound s) (hstep : s.proceed task = some s') : Sound s' := by
  have hfits := hsound.tasks task
  rw [proceed] at hstep
  cases htask : s.tasks task with
  | idle => simp [htask] at hstep
  | panicked panic => simp [htask] at hstep
  | notifying notify =>
      simp only [htask, Option.some.injEq] at hstep
      exact hstep ▸ notifyWaiters_sound hsound htask
  | located key notify =>
      simp only [htask, Option.some.injEq] at hstep
      rw [htask] at hfits
      exact hstep ▸ setTask_sound hsound (by simp [htask]) (by simp) ⟨hfits, le_rfl⟩
  | listening key notify seen =>
      simp only [htask, Option.some.injEq] at hstep
      exact hstep ▸ recheck_sound hsound htask
  | suspended key notify seen =>
      simp only [htask] at hstep
      split at hstep
      · rename_i hlt
        cases hstep
        rw [htask] at hfits
        apply setTask_sound hsound (by simp [htask]) (by simp)
        rcases hfits.1 with hwaiting | hvisible
        · -- the handle of a job that is running was never notified
          have hzero := (hsound.unused notify (Or.inr ⟨key, hwaiting⟩)).notified
          rw [hzero] at hlt
          exact absurd hlt (Nat.not_lt_zero _)
        · exact hvisible.1
      · cases hstep
  | woken key =>
      simp only [htask, Option.some.injEq] at hstep
      exact hstep ▸ reload_sound hsound htask

/-- A step that takes no entry away that a task waits on. -/
def Calm (s : State Task K V) (label : Task × Action K V) : Prop :=
  ∀ key, label.2 = .remove key → ∀ task, ¬ (s.tasks task).WaitsOn key

theorem step_sound {label : Task × Action K V} (hsound : Sound s) (hcalm : s.Calm label)
    (hstep : s.step label = some s') : Sound s' := by
  obtain ⟨task, action⟩ := label
  cases hidle : s.tasks task with
  | idle =>
      simp only [step, hidle] at hstep
      cases action with
      | register key => exact Option.some.inj hstep ▸ register_sound hsound key
      | done key value => exact Option.some.inj hstep ▸ done_sound hsound hidle key value
      | wait key => exact Option.some.inj hstep ▸ wait_sound hsound hidle key
      | get key => exact Option.some.inj hstep ▸ get_sound hsound hidle key
      | remove key => exact Option.some.inj hstep ▸ remove_sound hsound (hcalm key rfl)
      | proceed => cases hstep
  | _ =>
      cases action with
      | proceed =>
          have hproceed : s.proceed task = some s' := by simpa only [step, hidle] using hstep
          exact proceed_sound hsound hproceed
      | _ => simp [step, hidle] at hstep

/-! ## The history -/

/-- The event of a call of `register` that returns true. -/
def starts (key : K) : Event K V → Bool
  | .registered key' started => started && key' = key
  | _ => false

/-- What a step may report: a job that was not there, and values that are there. -/
def Reports (s s' : State Task K V) : Event K V → Prop
  | .registered key true => s.items key = none ∧ s'.items key ≠ none
  | .returned key (some value) => s.items key = some (.filled value)
  | _ => True

/-- A step reports at most one event. -/
inductive Logs (s s' : State Task K V) : Prop
  | nothing (hhistory : s'.history = s.history)
  | event (event : Event K V) (hhistory : s'.history = event :: s.history)
      (hreports : Reports s s' event)

/-- A step that leaves the entries as they are. -/
structure Looks (s s' : State Task K V) : Prop where
  items : s'.items = s.items
  logs : Logs s s'

/-- A step that is not seen, or that ends a call with the value of its key. -/
def Ends (s s' : State Task K V) (task : Task) : Prop :=
  (s'.items = s.items ∧ s'.history = s.history) ∨
    ∃ key, s' = s.finish task key ((s.items key).bind Value.result)

theorem Ends.of_filled (hitem : s.items key = some (.filled value)) :
    Ends s (s.finish task key (some value)) task :=
  Or.inr ⟨key, by rw [hitem]; rfl⟩

theorem Ends.looks (hends : Ends s s' task) : Looks s s' := by
  rcases hends with ⟨hitems, hhistory⟩ | ⟨key, rfl⟩
  · exact ⟨hitems, .nothing hhistory⟩
  · refine ⟨rfl, .event (.returned key _) rfl ?_⟩
    cases hitem : s.items key with
    | none => trivial
    | some entry =>
        cases entry with
        | waiting notify => trivial
        | filled value => exact hitem

theorem wait_ends (s : State Task K V) (task : Task) (key : K) :
    Ends s (s.wait task key) task := by
  rw [wait]
  cases hitem : s.items key with
  | none => exact Or.inr ⟨key, by rw [hitem]; rfl⟩
  | some entry =>
      cases entry with
      | filled value => exact .of_filled hitem
      | waiting notify => exact Or.inl ⟨rfl, rfl⟩

theorem get_ends (s : State Task K V) (task : Task) (key : K) :
    Ends s (s.get task key) task := by
  refine Or.inr ⟨key, ?_⟩
  rw [get]
  cases s.items key with
  | none => rfl
  | some entry => cases entry <;> rfl

/-- Only the first step of a call changes the entries. -/
theorem proceed_ends (hstep : s.proceed task = some s') : Ends s s' task := by
  rw [proceed] at hstep
  cases htask : s.tasks task with
  | idle => simp [htask] at hstep
  | panicked panic => simp [htask] at hstep
  | notifying notify =>
      simp only [htask, Option.some.injEq] at hstep
      exact hstep ▸ Or.inl ⟨rfl, rfl⟩
  | located key notify =>
      simp only [htask, Option.some.injEq] at hstep
      exact hstep ▸ Or.inl ⟨rfl, rfl⟩
  | listening key notify seen =>
      simp only [htask, Option.some.injEq, recheck] at hstep
      split at hstep
      · exact hstep ▸ Or.inl ⟨rfl, rfl⟩
      · exact hstep ▸ .of_filled ‹_›
      · exact hstep ▸ Or.inl ⟨rfl, rfl⟩
  | suspended key notify seen =>
      simp only [htask] at hstep
      split at hstep
      · cases hstep
        exact Or.inl ⟨rfl, rfl⟩
      · cases hstep
  | woken key =>
      simp only [htask, Option.some.injEq, reload] at hstep
      split at hstep
      · exact hstep ▸ Or.inl ⟨rfl, rfl⟩
      · exact hstep ▸ .of_filled ‹_›
      · exact hstep ▸ Or.inl ⟨rfl, rfl⟩

theorem done_items (s : State Task K V) (task : Task) (key : K) (value : V) :
    (s.done task key value).items = update s.items key (some (.filled value)) := by
  rw [done]
  split <;> rfl

theorem call_logs {action : Action K V} (hcall : s.call task action = some s') : Logs s s' := by
  cases action with
  | register key =>
      cases hcall
      rw [register]
      cases hitem : s.items key with
      | some entry => exact .event (.registered key false) rfl trivial
      | none =>
          refine .event (.registered key true) rfl ⟨hitem, ?_⟩
          change update s.items key _ key ≠ none
          rw [update_self]
          exact Option.some_ne_none _
  | done key value =>
      cases hcall
      apply Logs.event (.done key value) ?_ trivial
      rw [done]
      split <;> rfl
  | wait key =>
      cases hcall
      exact (wait_ends s task key).looks.logs
  | get key =>
      cases hcall
      exact (get_ends s task key).looks.logs
  | remove key =>
      cases hcall
      exact .nothing rfl
  | proceed => cases hcall

theorem step_logs {label : Task × Action K V} (hstep : s.step label = some s') : Logs s s' := by
  rw [step] at hstep
  split at hstep
  · exact call_logs hstep
  · exact (proceed_ends hstep).looks.logs
  · cases hstep

/-- Without `remove` no entry is taken away. -/
theorem step_items {label : Task × Action K V} (hkeeps : ∀ key, label.2 ≠ .remove key)
    (hstep : s.step label = some s') (hitem : s.items key ≠ none) : s'.items key ≠ none := by
  have hupdate : ∀ key' entry, update s.items key' (some entry) key ≠ none := by
    intro key' entry
    by_cases hkey : key = key'
    · rw [hkey, update_self]
      exact Option.some_ne_none _
    · rwa [update_of_ne hkey]
  obtain ⟨task, action⟩ := label
  rw [step] at hstep
  split at hstep
  · cases action with
    | register key' =>
        cases hstep
        rw [register]
        split
        · exact hitem
        · exact hupdate key' _
    | done key' value =>
        cases hstep
        rw [done_items]
        exact hupdate key' _
    | wait key' =>
        cases hstep
        rwa [(wait_ends s task key').looks.items]
    | get key' =>
        cases hstep
        rwa [(get_ends s task key').looks.items]
    | remove key' => exact absurd rfl (hkeeps key')
    | proceed => cases hstep
  · rwa [(proceed_ends hstep).looks.items]
  · cases hstep

theorem mem_of_lastDone {history : List (Event K V)} (hlast : lastDone history key = some value) :
    Event.done key value ∈ history := by
  obtain ⟨event, hmem, hevent⟩ := List.exists_of_findSome?_eq_some hlast
  cases event with
  | done key' value' =>
      by_cases hkey : key' = key
      · simp only [hkey, if_true, Option.some.injEq] at hevent
        rwa [← hevent, ← hkey]
      · simp [hkey] at hevent
  | _ => cases hevent

/-- Values are those of jobs that are done. -/
def Honest (s : State Task K V) : Prop :=
  ∀ key value, Event.returned key (some value) ∈ s.history → Event.done key value ∈ s.history

theorem Logs.honest (hlogs : Logs s s') (hsound : Sound s) (hhonest : Honest s) : Honest s' := by
  intro key value hmem
  cases hlogs with
  | nothing hhistory =>
      rw [hhistory] at hmem ⊢
      exact hhonest key value hmem
  | event event hhistory hreports =>
      rw [hhistory] at hmem ⊢
      apply List.mem_cons_of_mem
      rcases List.mem_cons.mp hmem with heq | hmem
      · rw [← heq] at hreports
        exact mem_of_lastDone (hsound.filled key value hreports)
      · exact hhonest key value hmem

/-- A job is registered once, and not before it has an entry. -/
def RegisteredOnce (s : State Task K V) : Prop :=
  ∀ key, s.history.countP (starts key) ≤ 1 ∧
    (s.items key = none → s.history.countP (starts key) = 0)

theorem Logs.registeredOnce (hlogs : Logs s s')
    (hitems : ∀ key, s.items key ≠ none → s'.items key ≠ none) (honce : RegisteredOnce s) :
    RegisteredOnce s' := by
  intro key
  obtain ⟨hle, hzero⟩ := honce key
  have hnone : s'.items key = none → s.items key = none :=
    fun hnone => by_contra fun hitem => hitems key hitem hnone
  cases hlogs with
  | nothing hhistory =>
      rw [hhistory]
      exact ⟨hle, fun h => hzero (hnone h)⟩
  | event event hhistory hreports =>
      rw [hhistory]
      by_cases hstarts : starts key event = true
      · rw [List.countP_cons_of_pos hstarts]
        cases event with
        | registered key' started =>
            simp only [starts, Bool.and_eq_true, decide_eq_true_eq] at hstarts
            obtain ⟨rfl, rfl⟩ := hstarts
            obtain ⟨hold, hnew⟩ := hreports
            rw [hzero hold]
            exact ⟨le_rfl, fun h => absurd h hnew⟩
        | _ => cases hstarts
      · rw [List.countP_cons_of_neg hstarts]
        exact ⟨hle, fun h => hzero (hnone h)⟩

/-! ## Runs -/

/-- Steps other than those of `remove`. -/
def Keeps (_ : State Task K V) (label : Task × Action K V) : Prop :=
  ∀ key, label.2 ≠ .remove key

theorem Keeps.calm {label : Task × Action K V} (hkeeps : s.Keeps label) : s.Calm label :=
  fun key hremove => absurd hremove (hkeeps key)

/-- Jobs run once, values are those of their jobs, and no wake-up is lost. -/
theorem once_of_reaches (hreaches : Reaches step Keeps (empty : State Task K V) s) :
    (∀ key, s.history.countP (starts key) ≤ 1) ∧
      (∀ key value, Event.returned key (some value) ∈ s.history →
        Event.done key value ∈ s.history) ∧
      ∀ key value, s.items key = some (.filled value) → ∀ task notify seen,
        s.tasks task = .suspended key notify seen → s.Pending notify seen := by
  have hinv : Sound s ∧ Honest s ∧ RegisteredOnce s := by
    apply hreaches.invariant
    · exact ⟨sound_empty, by simp [Honest, empty], by simp [RegisteredOnce, empty]⟩
    · intro s s' label hinv hkeeps hstep
      obtain ⟨hsound, hhonest, honce⟩ := hinv
      have hlogs := step_logs hstep
      exact ⟨step_sound hsound hkeeps.calm hstep, hlogs.honest hsound hhonest,
        hlogs.registeredOnce (fun key => step_items hkeeps hstep) honce⟩
  obtain ⟨hsound, hhonest, honce⟩ := hinv
  refine ⟨fun key => (honce key).1, hhonest, ?_⟩
  intro key value hfilled task notify seen htask
  have hfits := hsound.tasks task
  rw [htask] at hfits
  rcases hfits.1 with hwaiting | hvisible
  · rw [hfilled] at hwaiting
    cases hwaiting
  · exact hvisible.2

/-- A task registers a key and another one waits for it, up to the value. -/
private def waitLabels : List (ℕ × Action ℕ ℕ) :=
  [(0, .register 7), (1, .wait 7), (1, .proceed), (1, .proceed), (0, .done 7 5), (0, .proceed),
    (1, .proceed), (1, .proceed)]

theorem once_of_reaches_wait : ∃ s : State ℕ ℕ ℕ, waitLabels.foldlM step empty = some s ∧
    Event.returned 7 (some 5) ∈ s.history ∧ s.history.countP (starts 7) ≤ 1 := by
  refine ⟨_, rfl, List.mem_cons_self, ?_⟩
  have hkeeps : ∀ label ∈ waitLabels, ∀ s : State ℕ ℕ ℕ, s.Keeps label := by
    simp [waitLabels, Keeps]
  exact (once_of_reaches (.of_foldlM hkeeps rfl)).1 7

/-- If no entry is removed while a task waits on it, then no call of `wait` panics, and what
a task waits for is running or has its value. -/
theorem waits_of_calm (hreaches : Reaches step Calm (empty : State Task K V) s) :
    (∀ task panic, s.tasks task ≠ .panicked panic) ∧
      (∀ task key notify, (s.tasks task).WaitsFor key notify →
        s.items key = some (.waiting notify) ∨ s.Visible key) ∧
      (∀ task key notify seen, s.tasks task = .suspended key notify seen →
        s.items key = some (.waiting notify) ∨ s.Pending notify seen) ∧
      ∀ task key, s.tasks task = .woken key → s.Visible key := by
  have hsound : Sound s := hreaches.invariant sound_empty step_sound
  refine ⟨?_, ?_, ?_, ?_⟩
  · intro task panic htask
    have hfits := hsound.tasks task
    rw [htask] at hfits
    exact hfits
  · intro task key notify hwaits
    have hfits := hsound.tasks task
    rcases hwaits with htask | ⟨seen, htask | htask⟩ <;> rw [htask] at hfits
    · exact hfits
    · exact hfits.1
    · exact hfits.1.imp id And.left
  · intro task key notify seen htask
    have hfits := hsound.tasks task
    rw [htask] at hfits
    exact hfits.1.imp id And.right
  · intro task key htask
    have hfits := hsound.tasks task
    rw [htask] at hfits
    exact hfits

theorem waits_of_calm_wait : ∃ s : State ℕ ℕ ℕ, waitLabels.foldlM step empty = some s ∧
    s.items 7 = some (.filled 5) ∧ ∀ task panic, s.tasks task ≠ .panicked panic := by
  refine ⟨_, rfl, rfl, ?_⟩
  have hcalm : ∀ label ∈ waitLabels, ∀ s : State ℕ ℕ ℕ, s.Calm label := by
    intro label hlabel s key hremove
    rw [← Prod.eta label, hremove] at hlabel
    simp [waitLabels] at hlabel
  exact (waits_of_calm (.of_foldlM hcalm rfl)).1

/-- A task waits on a key, another one removes the entry, and the second look up fails.  If
the waiting task was suspended, then it is not notified when the job is done. -/
theorem wait_fails :
    (∃ s : State ℕ ℕ ℕ, [(0, .register 7), (1, .wait 7), (2, .remove 7), (1, .proceed),
        (1, .proceed)].foldlM step empty = some s ∧ s.tasks 1 = .panicked .appendOnly) ∧
      ∃ s : State ℕ ℕ ℕ, [(0, .register 7), (1, .wait 7), (1, .proceed), (1, .proceed),
          (2, .remove 7), (0, .done 7 5)].foldlM step empty = some s ∧
        s.items 7 = some (.filled 5) ∧ s.tasks 0 = .idle ∧
          s.tasks 1 = .suspended 7 0 0 ∧ s.notified 0 = 0 :=
  ⟨⟨_, rfl, rfl⟩, _, rfl, rfl, rfl, rfl, rfl⟩

end State

end Uv.OnceMap
