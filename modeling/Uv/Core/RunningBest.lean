import Mathlib

/-!
# The best element so far

A list is gone through once, and an element is kept in place of the best one so far where it
is better.  Where "better" decides between the elements of a linear order, except for ties,
the element that is kept in the end is a greatest one.
-/

namespace Uv.Core

variable {α κ : Type*} {better : α → α → Bool} {x best : α} {xs : List α}

/-- The best element so far, after one more element. -/
def keepBetter (better : α → α → Bool) : Option α → α → Option α
  | none, x => some x
  | some best, x => if better x best then some x else some best

/-- The element that is kept in the end. -/
def runningBest (better : α → α → Bool) (xs : List α) : Option α :=
  xs.foldl (keepBetter better) none

theorem runningBest_append_singleton :
    runningBest better (xs ++ [x]) = keepBetter better (runningBest better xs) x := by
  rw [runningBest, List.foldl_append]
  rfl

/-- Better elements have a higher rank, and elements of a higher rank are better. -/
structure Ranks [LinearOrder κ] (better : α → α → Bool) (rank : α → κ) : Prop where
  le_of_better : ∀ {x y}, better x y = true → rank y ≤ rank x
  better_of_lt : ∀ {x y}, rank y < rank x → better x y = true

variable [LinearOrder κ] {rank : α → κ}

/-- One more element: the element that is kept is in the list, and none has a higher rank. -/
theorem keepBetter_greatest (hranks : Ranks better rank)
    (hbest : best ∈ xs ∧ ∀ y ∈ xs, rank y ≤ rank best) : ∃ kept,
    keepBetter better (some best) x = some kept ∧ kept ∈ xs ++ [x] ∧
      ∀ y ∈ xs ++ [x], rank y ≤ rank kept := by
  rw [keepBetter]
  split
  · rename_i hbetter
    refine ⟨x, rfl, by simp, ?_⟩
    intro y hy
    rcases List.mem_append.mp hy with hy | hy
    · exact (hbest.2 y hy).trans (hranks.le_of_better hbetter)
    · rw [List.mem_singleton.mp hy]
  · rename_i hnot
    refine ⟨best, rfl, List.mem_append_left _ hbest.1, ?_⟩
    intro y hy
    rcases List.mem_append.mp hy with hy | hy
    · exact hbest.2 y hy
    · rw [List.mem_singleton.mp hy]
      exact not_lt.mp fun hlt => hnot (hranks.better_of_lt hlt)

/-- The element that is kept in the end is a greatest one. -/
theorem exists_runningBest (hranks : Ranks better rank) (hne : xs ≠ []) : ∃ best,
    runningBest better xs = some best ∧ best ∈ xs ∧ ∀ y ∈ xs, rank y ≤ rank best := by
  induction xs using List.reverseRecOn with
  | nil => exact absurd rfl hne
  | append_singleton xs x ih =>
      rw [runningBest_append_singleton]
      by_cases hxs : xs = []
      · subst hxs
        exact ⟨x, rfl, by simp, by simp⟩
      · obtain ⟨best, heq, hbest⟩ := ih hxs
        rw [heq]
        exact keepBetter_greatest hranks hbest

end Uv.Core
