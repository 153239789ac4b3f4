import Mathlib

/-!
# Actions on a state that only grows

An interning table is only ever appended to, so what has been established about
its entries stays true.  `Ensures` is the total-correctness triple for actions
on such a state: the action succeeds, keeps the invariant, extends the state
and establishes its postcondition.
-/

namespace Uv.Core

variable {σ α β : Type} [Preorder σ] {Inv : σ → Prop}

/-- Run in state `s`, the action succeeds in an extension of `s` that satisfies
the invariant and the postcondition. -/
def Ensures (Inv : σ → Prop) (action : StateT σ Option α) (s : σ)
    (post : σ → α → Prop) : Prop :=
  ∃ value s', action.run s = some (value, s') ∧ Inv s' ∧ s ≤ s' ∧ post s' value

/-- A property that stays true as the state grows. -/
def Stable (Inv P : σ → Prop) : Prop :=
  ∀ {s s'}, Inv s → Inv s' → s ≤ s' → P s → P s'

namespace Ensures

theorem pure {s : σ} {value : α} {post : σ → α → Prop} (hinv : Inv s)
    (hpost : post s value) : Ensures Inv (Pure.pure value) s post :=
  ⟨value, s, rfl, hinv, le_rfl, hpost⟩

theorem bind {action : StateT σ Option α} {next : α → StateT σ Option β} {s : σ}
    {middle : σ → α → Prop} {post : σ → β → Prop}
    (haction : Ensures Inv action s middle)
    (hnext : ∀ value s', Inv s' → s ≤ s' → middle s' value →
      Ensures Inv (next value) s' post) :
    Ensures Inv (action >>= next) s post := by
  obtain ⟨value, s', hrun, hinv, hle, hmiddle⟩ := haction
  obtain ⟨result, s'', hrun', hinv', hle', hpost⟩ :=
    hnext value s' hinv hle hmiddle
  refine ⟨result, s'', ?_, hinv', hle.trans hle', hpost⟩
  rw [StateT.run_bind, hrun]
  exact hrun'

theorem weaken {action : StateT σ Option α} {s : σ} {post post' : σ → α → Prop}
    (haction : Ensures Inv action s post)
    (hpost : ∀ value s', Inv s' → s ≤ s' → post s' value → post' s' value) :
    Ensures Inv action s post' := by
  obtain ⟨value, s', hrun, hinv, hle, hmiddle⟩ := haction
  exact ⟨value, s', hrun, hinv, hle, hpost value s' hinv hle hmiddle⟩

theorem get_bind {next : σ → StateT σ Option β} {s : σ} {post : σ → β → Prop}
    (hnext : Ensures Inv (next s) s post) : Ensures Inv (get >>= next) s post :=
  hnext

/-- What a successful run has established. -/
theorem of_run {action : StateT σ Option α} {s s' : σ} {value : α}
    {post : σ → α → Prop} (haction : Ensures Inv action s post)
    (hrun : action.run s = some (value, s')) :
    Inv s' ∧ s ≤ s' ∧ post s' value := by
  obtain ⟨result, s'', hrun', hinv, hle, hpost⟩ := haction
  rw [hrun] at hrun'
  cases hrun'
  exact ⟨hinv, hle, hpost⟩

/-- An action applied to every element of a list, for a relation that stays
true as the state grows. -/
theorem mapM {f : α → StateT σ Option β} {related : σ → α → β → Prop}
    (hstable : ∀ x y, Stable Inv (related · x y))
    {xs : List α} {s : σ} (hinv : Inv s)
    (hf : ∀ x ∈ xs, ∀ s', s ≤ s' → Inv s' →
      Ensures Inv (f x) s' fun s'' b => related s'' x b) :
    Ensures Inv (xs.mapM f) s fun s' ys => List.Forall₂ (related s') xs ys := by
  induction xs generalizing s with
  | nil =>
      rw [List.mapM_nil]
      exact pure hinv .nil
  | cons x xs ih =>
      rw [List.mapM_cons]
      refine bind (hf x (by simp) s le_rfl hinv) fun b s' hinv' hle hb => ?_
      refine bind (ih hinv' fun y hy s'' hle' =>
        hf y (by simp [hy]) s'' (hle.trans hle')) fun bs s'' hinv'' hle' hbs => ?_
      exact pure hinv'' (.cons (hstable x b hinv' hinv'' hle' hb) hbs)

theorem imp_inv {Inv' : σ → Prop} {action : StateT σ Option α} {s : σ}
    {post : σ → α → Prop} (haction : Ensures Inv action s post)
    (himp : ∀ s', Inv s' → Inv' s') : Ensures Inv' action s post := by
  obtain ⟨value, s', hrun, hinv, hle, hpost⟩ := haction
  exact ⟨value, s', hrun, himp s' hinv, hle, hpost⟩

/-- A loop with an accumulator; `done` is the part of the list it has seen. -/
theorem foldlM {f : β → α → StateT σ Option β} {P : σ → List α → β → Prop}
    {xs done : List α} {s : σ} {b : β} (hinv : Inv s) (hstart : P s done b)
    (hstep : ∀ done, ∀ x ∈ xs, ∀ s' b, s ≤ s' → Inv s' → P s' done b →
      Ensures Inv (f b x) s' fun s'' b' => P s'' (done ++ [x]) b') :
    Ensures Inv (xs.foldlM f b) s fun s' b' => P s' (done ++ xs) b' := by
  induction xs generalizing s done b with
  | nil =>
      rw [List.foldlM_nil, List.append_nil]
      exact pure hinv hstart
  | cons x xs ih =>
      rw [List.foldlM_cons]
      refine bind (hstep done x (by simp) s b le_rfl hinv hstart)
        fun b' s' hinv' hle hb' => ?_
      have hrest := ih hinv' hb' fun done y hy s'' b hle' =>
        hstep done y (List.mem_cons_of_mem _ hy) s'' b (hle.trans hle')
      rwa [List.append_assoc, List.singleton_append] at hrest

end Ensures

/-! ## Partial correctness -/

/-- Whenever the action succeeds in state `s`, it does so in an extension of `s`
that satisfies the invariant and the postcondition. -/
def Allows (Inv : σ → Prop) (action : StateT σ Option α) (s : σ)
    (post : σ → α → Prop) : Prop :=
  ∀ value s', action.run s = some (value, s') → Inv s' ∧ s ≤ s' ∧ post s' value

namespace Allows

theorem of_ensures {action : StateT σ Option α} {s : σ} {post : σ → α → Prop}
    (haction : Ensures Inv action s post) : Allows Inv action s post :=
  fun _ _ hrun => haction.of_run hrun

theorem bind {action : StateT σ Option α} {next : α → StateT σ Option β} {s : σ}
    {middle : σ → α → Prop} {post : σ → β → Prop}
    (haction : Allows Inv action s middle)
    (hnext : ∀ value s', Inv s' → s ≤ s' → middle s' value →
      Allows Inv (next value) s' post) :
    Allows Inv (action >>= next) s post := by
  intro result s'' hrun
  rw [StateT.run_bind] at hrun
  obtain ⟨⟨value, s'⟩, hfirst, hsecond⟩ := Option.bind_eq_some_iff.mp hrun
  obtain ⟨hinv, hle, hmiddle⟩ := haction value s' hfirst
  obtain ⟨hinv', hle', hpost⟩ := hnext value s' hinv hle hmiddle result s'' hsecond
  exact ⟨hinv', hle.trans hle', hpost⟩

theorem weaken {action : StateT σ Option α} {s : σ} {post post' : σ → α → Prop}
    (haction : Allows Inv action s post)
    (hpost : ∀ value s', Inv s' → s ≤ s' → post s' value → post' s' value) :
    Allows Inv action s post' := by
  intro value s' hrun
  obtain ⟨hinv, hle, hmiddle⟩ := haction value s' hrun
  exact ⟨hinv, hle, hpost value s' hinv hle hmiddle⟩

theorem pure {s : σ} {value : α} {post : σ → α → Prop} (hinv : Inv s)
    (hpost : post s value) : Allows Inv (Pure.pure value) s post :=
  of_ensures (Ensures.pure hinv hpost)

theorem mapM {f : α → StateT σ Option β} {related : σ → α → β → Prop}
    (hstable : ∀ x y, Stable Inv (related · x y))
    {xs : List α} {s : σ} (hinv : Inv s)
    (hf : ∀ x ∈ xs, ∀ s', s ≤ s' → Inv s' →
      Allows Inv (f x) s' fun s'' b => related s'' x b) :
    Allows Inv (xs.mapM f) s fun s' ys => List.Forall₂ (related s') xs ys := by
  induction xs generalizing s with
  | nil =>
      rw [List.mapM_nil]
      exact pure hinv .nil
  | cons x xs ih =>
      rw [List.mapM_cons]
      refine bind (hf x (by simp) s le_rfl hinv) fun b s' hinv' hle hb => ?_
      refine bind (ih hinv' fun y hy s'' hle' =>
        hf y (by simp [hy]) s'' (hle.trans hle')) fun bs s'' hinv'' hle' hbs => ?_
      exact pure hinv'' (.cons (hstable x b hinv' hinv'' hle' hb) hbs)

end Allows

/-! ## Fuel -/

/-- Whatever the first action does, the second one does as well. -/
def Extends (action action' : StateT σ Option α) : Prop :=
  ∀ s result, action.run s = some result → action'.run s = some result

namespace Extends

omit [Preorder σ] in
theorem refl (action : StateT σ Option α) : Extends action action :=
  fun _ _ => id

omit [Preorder σ] in
theorem bind {action action' : StateT σ Option α}
    {next next' : α → StateT σ Option β} (haction : Extends action action')
    (hnext : ∀ value, Extends (next value) (next' value)) :
    Extends (action >>= next) (action' >>= next') := by
  intro s result hrun
  rw [StateT.run_bind] at hrun ⊢
  obtain ⟨⟨value, s'⟩, hfirst, hsecond⟩ := Option.bind_eq_some_iff.mp hrun
  rw [haction s _ hfirst]
  exact hnext value s' result hsecond

omit [Preorder σ] in
theorem mapM {f f' : α → StateT σ Option β} (hf : ∀ x, Extends (f x) (f' x))
    (xs : List α) : Extends (xs.mapM f) (xs.mapM f') := by
  induction xs with
  | nil => exact refl _
  | cons x xs ih =>
      rw [List.mapM_cons, List.mapM_cons]
      exact bind (hf x) fun _ => bind ih fun _ => refl _

end Extends

/-- More fuel does not change what an action does. -/
def Steady (actions : ℕ → StateT σ Option α) : Prop :=
  ∀ fuel, Extends (actions fuel) (actions (fuel + 1))

omit [Preorder σ] in
theorem Steady.le {actions : ℕ → StateT σ Option α} (hsteady : Steady actions)
    {fuel fuel' : ℕ} (hle : fuel ≤ fuel') :
    Extends (actions fuel) (actions fuel') := by
  induction hle with
  | refl => exact .refl _
  | step _ ih => exact fun s result hrun => hsteady _ s result (ih s result hrun)

/-- With enough fuel the action succeeds. -/
def Eventually (Inv : σ → Prop) (actions : ℕ → StateT σ Option α) (s : σ)
    (post : σ → α → Prop) : Prop :=
  ∃ fuel, Ensures Inv (actions fuel) s post

namespace Eventually

variable {actions : ℕ → StateT σ Option α} {s : σ} {post : σ → α → Prop}

theorem of_ensures {action : StateT σ Option α}
    (haction : Ensures Inv action s post) : Eventually Inv (fun _ => action) s post :=
  ⟨0, haction⟩

theorem of_succ (hactions : Eventually Inv (fun fuel => actions (fuel + 1)) s post) :
    Eventually Inv actions s post := by
  obtain ⟨fuel, hensures⟩ := hactions
  exact ⟨fuel + 1, hensures⟩

theorem bind {next : ℕ → α → StateT σ Option β} {middle : σ → α → Prop}
    {post : σ → β → Prop} (hsteady : Steady actions)
    (hnextSteady : ∀ value, Steady fun fuel => next fuel value)
    (hactions : Eventually Inv actions s middle)
    (hnext : ∀ value s', Inv s' → s ≤ s' → middle s' value →
      Eventually Inv (fun fuel => next fuel value) s' post) :
    Eventually Inv (fun fuel => actions fuel >>= next fuel) s post := by
  obtain ⟨fuel, value, s', hrun, hinv, hle, hmiddle⟩ := hactions
  obtain ⟨fuel', result, s'', hrun', hinv', hle', hpost⟩ :=
    hnext value s' hinv hle hmiddle
  refine ⟨max fuel fuel', result, s'', ?_, hinv', hle.trans hle', hpost⟩
  rw [StateT.run_bind, hsteady.le (le_max_left fuel fuel') s _ hrun]
  exact (hnextSteady value).le (le_max_right fuel fuel') s' _ hrun'

theorem mapM {f : ℕ → α → StateT σ Option β} {related : σ → α → β → Prop}
    (hsteady : ∀ x, Steady fun fuel => f fuel x)
    (hstable : ∀ x y, Stable Inv (related · x y)) {xs : List α} (hinv : Inv s)
    (hf : ∀ x ∈ xs, ∀ s', s ≤ s' → Inv s' →
      Eventually Inv (fun fuel => f fuel x) s' fun s'' b => related s'' x b) :
    Eventually Inv (fun fuel => xs.mapM (f fuel)) s
      fun s' ys => List.Forall₂ (related s') xs ys := by
  have hmapM : ∀ xs : List α, Steady fun fuel => xs.mapM (f fuel) :=
    fun xs fuel => Extends.mapM (fun x => hsteady x fuel) xs
  induction xs generalizing s with
  | nil => exact ⟨0, Ensures.pure hinv .nil⟩
  | cons x xs ih =>
      simp only [List.mapM_cons]
      refine bind (hsteady x) (fun b fuel => .bind (hmapM xs fuel) fun _ => .refl _)
        (hf x (by simp) s le_rfl hinv) fun b s' hinv' hle hb => ?_
      refine bind (hmapM xs) (fun bs fuel => .refl _)
        (ih hinv' fun y hy s'' hle' => hf y (by simp [hy]) s'' (hle.trans hle'))
        fun bs s'' hinv'' hle' hbs => ?_
      exact of_ensures (Ensures.pure hinv''
        (.cons (hstable x b hinv' hinv'' hle' hb) hbs))

end Eventually

/-! ## Failure -/

/-- The action fails in every state. -/
def Fails (action : StateT σ Option α) : Prop :=
  ∀ s, action.run s = none

namespace Fails

omit [Preorder σ]

theorem bind_left {action : StateT σ Option α} {next : α → StateT σ Option β}
    (hfails : Fails action) : Fails (action >>= next) := by
  intro s
  rw [StateT.run_bind, hfails s]
  rfl

theorem bind_right {action : StateT σ Option α} {next : α → StateT σ Option β}
    (hfails : ∀ value, Fails (next value)) : Fails (action >>= next) := by
  intro s
  rw [StateT.run_bind]
  cases action.run s with
  | none => rfl
  | some result => exact hfails result.1 result.2

/-- A loop over a list fails once some element always does. -/
theorem foldlM {f : β → α → StateT σ Option β} {xs : List α} {x : α} (hx : x ∈ xs)
    (hfails : ∀ b, Fails (f b x)) (b : β) : Fails (xs.foldlM f b) := by
  induction xs generalizing b with
  | nil => cases hx
  | cons y xs ih =>
      rw [List.foldlM_cons]
      cases hx with
      | head => exact bind_left (hfails b)
      | tail _ hx =>
          apply bind_right
          intro b'
          exact ih hx b'

end Fails

/-- Every element of the second list has its partner in the first. -/
theorem exists_of_mem_forall₂ {R : α → β → Prop} {xs : List α} {ys : List β}
    (hall : List.Forall₂ R xs ys) {y : β} (hy : y ∈ ys) : ∃ x ∈ xs, R x y := by
  induction hall with
  | nil => cases hy
  | cons hhead _ ih =>
      rcases List.mem_cons.mp hy with rfl | htail
      · exact ⟨_, by simp, hhead⟩
      · obtain ⟨x, hx, hrel⟩ := ih htail
        exact ⟨x, List.mem_cons_of_mem _ hx, hrel⟩

end Uv.Core
