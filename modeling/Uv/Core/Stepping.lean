import Uv.Core.Failing
import Uv.Core.Worklist

/-!
# Worklists step by step

A worklist that follows the links of each item, one after the other, is taken apart into
steps: an item leaves the queue, or one of its links is followed.  Every stage of a run that
succeeds lies on the way to its end.
-/

namespace Uv.Core.Worklist

open Relation

variable {ι κ σ ε lnk : Type} {links : ι → List lnk}
  {follow : Worklist ι κ σ → lnk → Except ε (Worklist ι κ σ)}

/-- One step; a stage has the links that are still to be followed, and the worklist. -/
inductive Step (links : ι → List lnk)
    (follow : Worklist ι κ σ → lnk → Except ε (Worklist ι κ σ)) :
    List lnk × Worklist ι κ σ → List lnk × Worklist ι κ σ → Prop where
  | take {work : Worklist ι κ σ} {item : ι} {queue : List ι}
      (hqueue : work.queue = item :: queue) :
      Step links follow ([], work) (links item, { work with queue })
  | follow {work work' : Worklist ι κ σ} {link : lnk} {rest : List lnk}
      (hfollow : follow work link = .ok work') :
      Step links follow (link :: rest, work) (rest, work')

theorem step_rightUnique : Relator.RightUnique (Step links follow) := by
  intro stage first second hfirst hsecond
  cases hfirst with
  | take hqueue =>
      cases hsecond with
      | take hqueue' =>
          cases hqueue.symm.trans hqueue'
          rfl
  | follow hfollow =>
      cases hsecond with
      | follow hfollow' =>
          cases hfollow.symm.trans hfollow'
          rfl

/-- The links of an item are followed in order. -/
theorem steps_of_foldlM {pending : List lnk} {work work' : Worklist ι κ σ}
    (hfold : pending.foldlM follow work = .ok work') :
    ReflTransGen (Step links follow) (pending, work) ([], work') := by
  induction pending generalizing work with
  | nil =>
      cases hfold
      exact .refl
  | cons link rest ih =>
      rw [List.foldlM_cons] at hfold
      obtain ⟨next, hnext, hrest⟩ := bind_eq_ok hfold
      exact .head (.follow hnext) (ih hrest)

/-- A run is made of steps. -/
theorem steps_of_run {fuel : ℕ} {work work' : Worklist ι κ σ}
    (hrun : run (fun item work => (links item).foldlM follow work) fuel work = .ok work') :
    ReflTransGen (Step links follow) ([], work) ([], work') := by
  induction fuel generalizing work with
  | zero =>
      cases hrun
      exact .refl
  | succ fuel ih =>
      rw [run] at hrun
      split at hrun
      case h_1 =>
        cases hrun
        exact .refl
      case h_2 item queue hqueue =>
        obtain ⟨next, hnext, hrest⟩ := bind_eq_ok hrun
        exact .head (.take hqueue) ((steps_of_foldlM hnext).trans (ih hrest))

/-- The end of a run comes after every stage. -/
theorem steps_to_end {start stage : List lnk × Worklist ι κ σ} {final : Worklist ι κ σ}
    (hqueue : final.queue = []) (hrun : ReflTransGen (Step links follow) start ([], final))
    (hstage : ReflTransGen (Step links follow) start stage) :
    ReflTransGen (Step links follow) stage ([], final) := by
  rcases hrun.total_of_right_unique step_rightUnique hstage with hafter | hbefore
  · -- Nothing comes after the end.
    rcases hafter.cases_head with heq | ⟨next, hnext, _⟩
    · rw [heq]
    · cases hnext with
      | take hnonempty =>
          rw [hqueue] at hnonempty
          cases hnonempty
  · exact hbefore

/-- What is there at the start and kept by each step holds at every stage. -/
theorem steps_invariant (Inv : List lnk × Worklist ι κ σ → Prop)
    {start stage : List lnk × Worklist ι κ σ} (hstart : Inv start)
    (hstep : ∀ {stage next}, ReflTransGen (Step links follow) start stage → Inv stage →
      Step links follow stage next → Inv next)
    (hstage : ReflTransGen (Step links follow) start stage) : Inv stage := by
  induction hstage with
  | refl => exact hstart
  | tail hbefore hnext ih => exact hstep hbefore ih hnext

end Uv.Core.Worklist
