import Uv.Core.Running

/-!
# What every run does to the state

An action relates the state it leaves to the one it began in, whatever it returns.  The
relation is a preorder, so the actions of a sequence may be looked at one at a time.
-/

namespace Uv.Core

variable {ε σ α β : Type} {R R' : σ → σ → Prop}

/-- Whatever the action returns, it leaves a state with this relation to the first one. -/
def Moves (R : σ → σ → Prop) (action : StateT σ Option α) : Prop :=
  ∀ s value s', action.run s = some (value, s') → R s s'

namespace Moves

variable {action : StateT σ Option α} {next : α → StateT σ Option β}

theorem mono (himp : ∀ s s', R s s' → R' s s') (haction : Moves R action) :
    Moves R' action :=
  fun s value s' hrun => himp s s' (haction s value s' hrun)

theorem failure : Moves R (failure : StateT σ Option α) :=
  nofun

theorem get_bind {next : σ → StateT σ Option β} (hnext : ∀ s, Moves R (next s)) :
    Moves R (get >>= next) :=
  fun s => hnext s s

variable [IsPreorder σ R]

theorem pure (value : α) : Moves R (pure value : StateT σ Option α) := by
  intro s _ s' hrun
  cases hrun
  exact refl s

theorem bind (haction : Moves R action) (hnext : ∀ value, Moves R (next value)) :
    Moves R (action >>= next) := by
  intro s result s'' hrun
  rw [StateT.run_bind] at hrun
  obtain ⟨⟨value, s'⟩, hfirst, hsecond⟩ := Option.bind_eq_some_iff.mp hrun
  exact IsTrans.trans _ _ _ (haction s value s' hfirst) (hnext value s' result s'' hsecond)

theorem mapM {f : α → StateT σ Option β} (hf : ∀ x, Moves R (f x)) (xs : List α) :
    Moves R (xs.mapM f) := by
  induction xs with
  | nil =>
      rw [List.mapM_nil]
      exact pure _
  | cons x xs ih =>
      rw [List.mapM_cons]
      exact bind (hf x) fun _ => bind ih fun _ => pure _

theorem foldlM {f : β → α → StateT σ Option β} (hf : ∀ b x, Moves R (f b x)) (xs : List α)
    (b : β) : Moves R (xs.foldlM f b) := by
  induction xs generalizing b with
  | nil =>
      rw [List.foldlM_nil]
      exact pure b
  | cons x xs ih =>
      rw [List.foldlM_cons]
      exact bind (hf b x) ih

/-! ## Runs with errors -/

theorem runPure (value : α) : Moves R (Pure.pure value : RunM ε σ α).run :=
  pure (Except.ok value)

theorem runBind {m : RunM ε σ α} {f : α → RunM ε σ β} (hm : Moves R m.run)
    (hf : ∀ value, Moves R (f value).run) : Moves R (m >>= f).run := by
  intro s result s'' hrun
  rcases RunM.returns_bind.mp hrun with ⟨e, hfirst, _⟩ | ⟨value, s', hfirst, hsecond⟩
  · exact hm s _ s'' hfirst
  · exact IsTrans.trans _ _ _ (hm s _ s' hfirst) (hf value s' result s'' hsecond)

theorem runMap {m : RunM ε σ α} (g : α → β) (hm : Moves R m.run) : Moves R (g <$> m).run := by
  rw [map_eq_pure_bind]
  exact runBind hm fun _ => runPure _

end Moves

end Uv.Core
