import Mathlib

/-!
# Walks of a functional relation

Where every element has at most one successor, a walk that meets one of its own elements
again is a tail and a cycle.  The cycle is entered from outside unless the walk meets its
first element again.
-/

namespace Uv.Core

open Relation

variable {α : Type*} {R : α → α → Prop} {x y z again : α} {visited : List α}

/-- An element of a cycle is reached again from everything that it reaches. -/
theorem reaches_back (hR : Relator.RightUnique R) (hcycle : TransGen R x x)
    (hreaches : ReflTransGen R x y) : ReflTransGen R y x := by
  induction hreaches with
  | refl => exact .refl
  | tail _ hstep ih =>
      rcases ReflTransGen.cases_head ih with rfl | ⟨w, hw, hrest⟩
      · obtain ⟨w, hw, hrest⟩ := TransGen.head'_iff.mp hcycle
        rwa [hR hstep hw]
      · rwa [hR hstep hw]

/-- What an element of a cycle reaches is on a cycle. -/
theorem transGen_of_reaches (hR : Relator.RightUnique R) (hcycle : TransGen R x x)
    (hreaches : ReflTransGen R x y) : TransGen R y y :=
  TransGen.trans_right (reaches_back hR hcycle hreaches) (hcycle.trans_left hreaches)

/-- Along a chain every element has the next one as its successor. -/
theorem exists_successor {last : α} (hchain : List.IsChain R (visited ++ [last]))
    (hx : x ∈ visited) :
    (∃ y ∈ visited.tail, R x y) ∨ visited.getLast? = some x ∧ R x last := by
  induction visited with
  | nil => cases hx
  | cons first rest ih =>
      cases rest with
      | nil =>
          rw [List.mem_singleton] at hx
          subst hx
          simp only [List.cons_append, List.nil_append, List.isChain_cons_cons] at hchain
          exact Or.inr ⟨rfl, hchain.1⟩
      | cons second rest =>
          simp only [List.cons_append, List.isChain_cons_cons] at hchain
          rcases List.mem_cons.mp hx with rfl | hx
          · exact Or.inl ⟨second, List.mem_cons_self, hchain.1⟩
          · rcases ih hchain.2 hx with ⟨y, hy, hxy⟩ | ⟨hlast, hxy⟩
            · exact Or.inl ⟨y, List.mem_cons_of_mem _ hy, hxy⟩
            · exact Or.inr ⟨by rw [List.getLast?_cons_cons]; exact hlast, hxy⟩

/-- Every element of a chain reaches its end. -/
theorem reaches_last {last : α} (hchain : List.IsChain R (visited ++ [last]))
    (hx : x ∈ visited) : TransGen R x last := by
  induction visited generalizing x with
  | nil => cases hx
  | cons first rest ih =>
      cases rest with
      | nil =>
          rw [List.mem_singleton] at hx
          subst hx
          simp only [List.cons_append, List.nil_append, List.isChain_cons_cons] at hchain
          exact .single hchain.1
      | cons second rest =>
          simp only [List.cons_append, List.isChain_cons_cons] at hchain
          rcases List.mem_cons.mp hx with rfl | hx
          · exact .head hchain.1 (ih hchain.2 List.mem_cons_self)
          · exact ih hchain.2 hx

theorem step_of_getLast {last : α} (hchain : List.IsChain R (visited ++ [last]))
    (hx : visited.getLast? = some x) : R x last :=
  (List.isChain_append.mp hchain).2.2 x hx last rfl

/-- The first element of a chain reaches every other one. -/
theorem head_reaches {first : α} (hchain : List.IsChain R (first :: visited))
    (hx : x ∈ first :: visited) : ReflTransGen R first x := by
  induction visited generalizing first with
  | nil =>
      rw [List.mem_singleton] at hx
      subst hx
      exact .refl
  | cons second rest ih =>
      rw [List.isChain_cons_cons] at hchain
      rcases List.mem_cons.mp hx with rfl | hx
      · exact .refl
      · exact .head hchain.1 (ih hchain.2 hx)

/-- The walk from `x` enters a cycle from outside, where the element `last` of the cycle
leads as well. -/
def Enters (R : α → α → Prop) (x last : α) : Prop :=
  ∃ tail entry, ReflTransGen R x tail ∧ R tail entry ∧ ¬ TransGen R tail tail ∧
    R last entry ∧ TransGen R last last

/-- Such a walk goes on forever. -/
theorem Enters.exists_step {last : α} (hR : Relator.RightUnique R) (henters : Enters R x last)
    (hreaches : ReflTransGen R x y) : ∃ z, R y z := by
  obtain ⟨tail, entry, htail, hstep, _, hlast, hcycle⟩ := henters
  rcases ReflTransGen.total_of_right_unique hR hreaches htail with hback | hforth
  · rcases ReflTransGen.cases_head hback with rfl | ⟨z, hz, _⟩
    · exact ⟨entry, hstep⟩
    · exact ⟨z, hz⟩
  · rcases ReflTransGen.cases_head hforth with rfl | ⟨z, hz, hrest⟩
    · exact ⟨entry, hstep⟩
    · rw [hR hz hstep] at hrest
      have hentry := transGen_of_reaches hR hcycle (.single hlast)
      obtain ⟨w, hw, _⟩ := TransGen.head'_iff.mp (transGen_of_reaches hR hentry hrest)
      exact ⟨w, hw⟩

/-- A walk through distinct elements that ends at one of them again. -/
structure Lasso (R : α → α → Prop) (before cycle : List α) (again : α) : Prop where
  chain : List.IsChain R (before ++ again :: cycle ++ [again])
  nodup : (before ++ again :: cycle).Nodup

namespace Lasso

variable {before cycle : List α}

theorem cycle_chain (hlasso : Lasso R before cycle again) :
    List.IsChain R (again :: cycle ++ [again]) := by
  have hchain := hlasso.chain
  rw [List.append_assoc] at hchain
  exact hchain.right_of_append

theorem before_chain (hlasso : Lasso R before cycle again) :
    List.IsChain R (before ++ [again]) := by
  have hchain := hlasso.chain
  rw [List.append_assoc, List.cons_append, ← List.singleton_append, ← List.append_assoc]
    at hchain
  exact hchain.left_of_append

theorem transGen_of_mem (hlasso : Lasso R before cycle again) (hx : x ∈ again :: cycle) :
    TransGen R x x :=
  TransGen.trans_left (reaches_last hlasso.cycle_chain hx)
    (head_reaches hlasso.cycle_chain (List.mem_append_left _ hx))

variable (hR : Relator.RightUnique R)
include hR

/-- The cycle is not left. -/
theorem mem_cycle_of_reaches (hlasso : Lasso R before cycle again) (hx : x ∈ again :: cycle)
    (hreaches : ReflTransGen R x y) : y ∈ again :: cycle := by
  induction hreaches with
  | refl => exact hx
  | tail _ hstep ih =>
      rcases exists_successor hlasso.cycle_chain ih with ⟨w, hw, hsucc⟩ | ⟨_, hsucc⟩
      · rw [hR hstep hsucc]
        exact List.mem_cons_of_mem _ hw
      · rw [hR hstep hsucc]
        exact List.mem_cons_self

/-- What is before the cycle is on no cycle. -/
theorem not_transGen_of_mem_before (hlasso : Lasso R before cycle again) (hx : x ∈ before) :
    ¬ TransGen R x x := by
  intro hcycle
  have hreaches := (reaches_last hlasso.before_chain hx).to_reflTransGen
  have hback := mem_cycle_of_reaches hR hlasso List.mem_cons_self
    (reaches_back hR hcycle hreaches)
  exact List.disjoint_of_nodup_append hlasso.nodup hx hback

theorem mem_of_reaches (hlasso : Lasso R before cycle again)
    (hx : x ∈ before ++ again :: cycle) (hreaches : ReflTransGen R x y) :
    y ∈ before ++ again :: cycle := by
  induction hreaches with
  | refl => exact hx
  | tail _ hstep ih =>
      rcases List.mem_append.mp ih with hbefore | hcycle
      · rcases exists_successor hlasso.before_chain hbefore with ⟨w, hw, hsucc⟩ | ⟨_, hsucc⟩
        · rw [hR hstep hsucc]
          exact List.mem_append_left _ (List.mem_of_mem_tail hw)
        · rw [hR hstep hsucc]
          exact List.mem_append_right _ List.mem_cons_self
      · exact List.mem_append_right _
          (mem_cycle_of_reaches hR hlasso hcycle (.single hstep))

/-- The cycle is entered where it is met again. -/
theorem eq_of_entry (hlasso : Lasso R before cycle again) {tail entry : α}
    (htail : tail ∈ before) (hentry : entry ∈ again :: cycle) (hstep : R tail entry) :
    entry = again := by
  rcases exists_successor hlasso.before_chain htail with ⟨w, hw, hsucc⟩ | ⟨_, hsucc⟩
  · rw [hR hstep hsucc] at hentry
    have hdisjoint := List.disjoint_of_nodup_append hlasso.nodup
    exact absurd hentry (hdisjoint (List.mem_of_mem_tail hw))
  · exact hR hstep hsucc

/-- Of the cycle, only the last element of the walk leads back to the entry. -/
theorem getLast_of_step (hlasso : Lasso R before cycle again) {last : α}
    (hlast : last ∈ again :: cycle) (hstep : R last again) :
    (again :: cycle).getLast? = some last := by
  rcases exists_successor hlasso.cycle_chain hlast with ⟨w, hw, hsucc⟩ | ⟨h, _⟩
  · rw [← hR hstep hsucc] at hw
    have hnodup := (List.nodup_append.mp hlasso.nodup).2.1
    exact absurd hw (List.nodup_cons.mp hnodup).1
  · exact h

/-- A lasso enters its cycle from outside iff it has a tail, and the element before the
entry is the last one of the walk. -/
theorem enters_iff (hlasso : Lasso R before cycle again)
    (hx : (before ++ again :: cycle).head? = some x) (last : α) :
    Enters R x last ↔ x ≠ again ∧ (again :: cycle).getLast? = some last := by
  have hmem : x ∈ before ++ again :: cycle := List.mem_of_mem_head? hx
  have hfirst : before ≠ [] → before.head? = some x := by
    intro hne
    rwa [List.head?_append_of_ne_nil _ hne] at hx
  constructor
  · rintro ⟨tail, entry, hreaches, htail, houtside, hlast, hcycle⟩
    have htailBefore : tail ∈ before := by
      rcases List.mem_append.mp (mem_of_reaches hR hlasso hmem hreaches) with h | h
      · exact h
      · exact absurd (hlasso.transGen_of_mem h) houtside
    have hxBefore : x ∈ before := List.mem_of_mem_head? (hfirst (List.ne_nil_of_mem htailBefore))
    have hback : ReflTransGen R entry last := reaches_back hR hcycle (.single hlast)
    have hlastCycle : last ∈ again :: cycle := by
      have hreachesLast := (hreaches.tail htail).trans hback
      rcases List.mem_append.mp (mem_of_reaches hR hlasso hmem hreachesLast) with h | h
      · exact absurd hcycle (not_transGen_of_mem_before hR hlasso h)
      · exact h
    have hentryCycle := mem_cycle_of_reaches hR hlasso hlastCycle (.single hlast)
    have hentry : entry = again := eq_of_entry hR hlasso htailBefore hentryCycle htail
    refine ⟨?_, getLast_of_step hR hlasso hlastCycle (hentry ▸ hlast)⟩
    rintro rfl
    exact List.disjoint_of_nodup_append hlasso.nodup hxBefore List.mem_cons_self
  · rintro ⟨hne, hlast⟩
    have hbefore : before ≠ [] := by
      rintro rfl
      cases hx
      exact hne rfl
    obtain ⟨tail, htail⟩ := Option.ne_none_iff_exists'.mp (mt List.getLast?_eq_none_iff.mp hbefore)
    have htailBefore : tail ∈ before := List.mem_of_getLast? htail
    have hlastCycle : last ∈ again :: cycle := List.mem_of_getLast? hlast
    refine ⟨tail, again, ?_, step_of_getLast hlasso.before_chain htail,
      not_transGen_of_mem_before hR hlasso htailBefore,
      step_of_getLast hlasso.cycle_chain hlast, hlasso.transGen_of_mem hlastCycle⟩
    cases before with
    | nil => exact absurd rfl hbefore
    | cons first rest =>
        cases hx
        exact head_reaches hlasso.before_chain (List.mem_append_left _ htailBefore)

end Lasso

end Uv.Core
