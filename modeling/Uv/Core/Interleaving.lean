import Mathlib

/-!
# Interleavings

A system takes labelled steps.  The states of its runs are those that steps lead to that are
allowed where they are taken.
-/

namespace Uv.Core

variable {σ ℓ : Type} {step : σ → ℓ → Option σ} {allowed allowed' : σ → ℓ → Prop}
  {start s : σ}

/-- A run of allowed steps leads to the state. -/
inductive Reaches (step : σ → ℓ → Option σ) (allowed : σ → ℓ → Prop) (start : σ) : σ → Prop
  | start : Reaches step allowed start start
  | next {s s' : σ} {label : ℓ} (hreaches : Reaches step allowed start s)
      (hallowed : allowed s label) (hstep : step s label = some s') :
      Reaches step allowed start s'

namespace Reaches

/-- What holds at the start and is kept by allowed steps holds in every state of a run. -/
theorem invariant {Inv : σ → Prop} (hstart : Inv start)
    (hstep : ∀ {s s' label}, Inv s → allowed s label → step s label = some s' → Inv s')
    (hreaches : Reaches step allowed start s) : Inv s := by
  induction hreaches with
  | start => exact hstart
  | next _ hallowed hnext ih => exact hstep ih hallowed hnext

/-- Labels that can be taken one after the other, and that are allowed everywhere. -/
theorem of_foldlM {labels : List ℓ} (hallowed : ∀ label ∈ labels, ∀ s, allowed s label)
    (hrun : labels.foldlM step start = some s) : Reaches step allowed start s := by
  induction labels using List.reverseRecOn generalizing s with
  | nil =>
      cases hrun
      exact .start
  | append_singleton labels label ih =>
      have hlabels := fun other hother => hallowed other (List.mem_append_left [label] hother)
      rw [List.foldlM_append] at hrun
      obtain ⟨middle, hmiddle, hlast⟩ := Option.bind_eq_some_iff.mp hrun
      rw [List.foldlM_cons] at hlast
      obtain ⟨s', hstep, hs'⟩ := Option.bind_eq_some_iff.mp hlast
      cases hs'
      exact .next (ih hlabels hmiddle)
        (hallowed label (List.mem_append_right labels List.mem_cons_self) _) hstep

end Reaches

/-! ## Runs of another system -/

variable {τ ε : Type} {astep : τ → ε → Option τ} {view : σ → τ} {reported : σ → List ε}

/-- A step reports nothing and leaves the view of the state as it is, or it reports what another
system does to the view in one step. -/
inductive Simulates (astep : τ → ε → Option τ) (view : σ → τ) (reported : σ → List ε)
    (s s' : σ) : Prop
  | stutter (hreported : reported s' = reported s) (hview : view s' = view s)
  | event (event : ε) (hreported : reported s' = event :: reported s)
      (hstep : astep (view s) event = some (view s'))

/-- What is reported, the newest first, is a run of the other system that leads to the view. -/
theorem Reaches.simulates (hstart : reported start = [])
    (hstep : ∀ {s s' label}, allowed s label → step s label = some s' →
      Simulates astep view reported s s')
    (hreaches : Reaches step allowed start s) :
    (reported s).reverse.foldlM astep (view start) = some (view s) := by
  induction hreaches with
  | start => rw [hstart]; rfl
  | next _ hallowed hnext ih =>
      cases hstep hallowed hnext with
      | stutter hreported hview => rw [hreported, hview, ih]
      | event event hreported hevent =>
          rw [hreported, List.reverse_cons, List.foldlM_append, ih]
          simpa using hevent

end Uv.Core
