import Mathlib

/-!
# Runs with a state and errors

A computation with a state may end with a value, end with an error or not end.  Its runs are
taken apart at a bind: what it returns, and when it ends.
-/

namespace Uv.Core

/-- A computation that keeps its state when it fails; without a result it does not end. -/
abbrev RunM (ε σ α : Type) :=
  ExceptT ε (StateT σ Option) α

namespace RunM

variable {ε δ σ α β : Type}

/-- A computation that does not end. -/
def diverge : RunM ε σ α :=
  ExceptT.mk fun _ => none

/-- `map_err`. -/
def mapErr (g : ε → δ) (m : RunM ε σ α) : RunM δ σ α :=
  ExceptT.mk fun s => (m.run.run s).map fun outcome => (outcome.1.mapError g, outcome.2)

/-- The computation ends with a result and a state. -/
def Returns (m : RunM ε σ α) (s : σ) (result : Except ε α) (s' : σ) : Prop :=
  m.run.run s = some (result, s')

/-- The computation ends. -/
def Ends (m : RunM ε σ α) (s : σ) : Prop :=
  ∃ result s', m.Returns s result s'

variable {m : RunM ε σ α} {f : α → RunM ε σ β} {s s' : σ}

theorem not_returns_diverge {result : Except ε α} :
    ¬ (diverge : RunM ε σ α).Returns s result s' :=
  fun h => by cases h

theorem Returns.unique {result result' : Except ε α} {s'' : σ} (h : m.Returns s result s')
    (h' : m.Returns s result' s'') : result = result' ∧ s' = s'' := by
  have heq := Option.some.inj (h.symm.trans h')
  exact Prod.mk.inj heq

theorem Returns.iff {result result' : Except ε α} {s'' : σ} (h : m.Returns s result s') :
    m.Returns s result' s'' ↔ result' = result ∧ s'' = s' := by
  refine ⟨fun h' => h'.unique h, ?_⟩
  rintro ⟨rfl, rfl⟩
  exact h

theorem returns_pure {a : α} {result : Except ε α} :
    (pure a : RunM ε σ α).Returns s result s' ↔ result = .ok a ∧ s' = s :=
  Returns.iff rfl

theorem returns_throw {e : ε} {result : Except ε α} :
    (throw e : RunM ε σ α).Returns s result s' ↔ result = .error e ∧ s' = s :=
  Returns.iff rfl

theorem returns_get {result : Except ε σ} :
    (get : RunM ε σ σ).Returns s result s' ↔ result = .ok s ∧ s' = s :=
  Returns.iff rfl

theorem returns_set {state : σ} {result : Except ε PUnit} :
    (set state : RunM ε σ PUnit).Returns s result s' ↔ result = .ok ⟨⟩ ∧ s' = state :=
  Returns.iff rfl

theorem returns_modify {g : σ → σ} {result : Except ε PUnit} :
    (modify g : RunM ε σ PUnit).Returns s result s' ↔ result = .ok ⟨⟩ ∧ s' = g s :=
  Returns.iff rfl

theorem run_bind : (m >>= f).run.run s =
    match m.run.run s with
    | none => none
    | some (.error e, s') => some (.error e, s')
    | some (.ok a, s') => (f a).run.run s' := by
  change (m.run.run s).bind (fun result => (ExceptT.bindCont f result.1).run result.2) = _
  cases m.run.run s with
  | none => rfl
  | some result =>
      obtain ⟨outcome, s'⟩ := result
      cases outcome <;> rfl

theorem returns_bind {result : Except ε β} : (m >>= f).Returns s result s' ↔
    (∃ e, m.Returns s (.error e) s' ∧ result = .error e) ∨
      ∃ a s₁, m.Returns s (.ok a) s₁ ∧ (f a).Returns s₁ result s' := by
  simp only [Returns, run_bind]
  cases hrun : m.run.run s with
  | none => simp
  | some outcome =>
      obtain ⟨outcome, s₁⟩ := outcome
      cases outcome with
      | error e =>
          simp only [Option.some.injEq, Prod.mk.injEq, Except.error.injEq, reduceCtorEq,
            false_and, exists_false, or_false]
          constructor
          · rintro ⟨rfl, rfl⟩
            exact ⟨e, ⟨rfl, rfl⟩, rfl⟩
          · rintro ⟨_, ⟨rfl, rfl⟩, rfl⟩
            exact ⟨rfl, rfl⟩
      | ok a =>
          simp only [Option.some.injEq, Prod.mk.injEq, reduceCtorEq, false_and, exists_false,
            false_or, Except.ok.injEq]
          constructor
          · intro h
            exact ⟨a, s₁, ⟨rfl, rfl⟩, h⟩
          · rintro ⟨_, _, ⟨rfl, rfl⟩, h⟩
            exact h

/-- A bind after a computation that returns a value. -/
theorem returns_bind_of {a : α} (hm : ∀ {outcome s₁}, m.Returns s outcome s₁ ↔
    outcome = .ok a ∧ s₁ = s') {result : Except ε β} {s'' : σ} :
    (m >>= f).Returns s result s'' ↔ (f a).Returns s' result s'' := by
  rw [returns_bind]
  constructor
  · rintro (⟨e, he, _⟩ | ⟨b, s₁, hb, h⟩)
    · cases (hm.mp he).1
    · obtain ⟨heq, rfl⟩ := hm.mp hb
      cases heq
      exact h
  · intro h
    exact Or.inr ⟨a, s', hm.mpr ⟨rfl, rfl⟩, h⟩

/-- After a value is returned, a bind ends iff what follows does. -/
theorem ends_bind_of_returns {a : α} (hm : m.Returns s (.ok a) s') :
    (m >>= f).Ends s ↔ (f a).Ends s' := by
  have hrun : m.run.run s = some (.ok a, s') := hm
  simp only [Ends, Returns, run_bind, hrun]

theorem ends_bind (hm : m.Ends s) (hf : ∀ a s₁, m.Returns s (.ok a) s₁ → (f a).Ends s₁) :
    (m >>= f).Ends s := by
  obtain ⟨outcome, s₁, hm⟩ := hm
  cases outcome with
  | error e => exact ⟨.error e, s₁, returns_bind.mpr (Or.inl ⟨e, hm, rfl⟩)⟩
  | ok a =>
      obtain ⟨result, s', hresult⟩ := hf a s₁ hm
      exact ⟨result, s', returns_bind.mpr (Or.inr ⟨a, s₁, hm, hresult⟩)⟩

theorem ends_pure (a : α) : (pure a : RunM ε σ α).Ends s :=
  ⟨.ok a, s, rfl⟩

theorem ends_get : (get : RunM ε σ σ).Ends s :=
  ⟨.ok s, s, rfl⟩

theorem ends_set (state : σ) : (set state : RunM ε σ PUnit).Ends s :=
  ⟨.ok ⟨⟩, state, rfl⟩

theorem ends_modify (g : σ → σ) : (modify g : RunM ε σ PUnit).Ends s :=
  ⟨.ok ⟨⟩, g s, rfl⟩

theorem ends_throw (e : ε) : (throw e : RunM ε σ α).Ends s :=
  ⟨.error e, s, rfl⟩

theorem returns_mapErr {g : ε → δ} {result : Except δ α} :
    (m.mapErr g).Returns s result s' ↔
      ∃ outcome, m.Returns s outcome s' ∧ result = outcome.mapError g := by
  change Option.map _ (m.run.run s) = some (result, s') ↔ _
  simp only [Returns, Option.map_eq_some_iff, Prod.mk.injEq]
  constructor
  · rintro ⟨⟨outcome, _⟩, h, rfl, rfl⟩
    exact ⟨outcome, h, rfl⟩
  · rintro ⟨outcome, h, rfl⟩
    exact ⟨(outcome, s'), h, rfl, rfl⟩

/-! ## What a computation that ends meets -/

/-- The computation ends with a result and a state that meet a condition. -/
def Meets (m : RunM ε σ α) (s : σ) (post : Except ε α → σ → Prop) : Prop :=
  ∃ result s', m.Returns s result s' ∧ post result s'

theorem Meets.weaken {post post' : Except ε α → σ → Prop} (hm : m.Meets s post)
    (hpost : ∀ result s', post result s' → post' result s') : m.Meets s post' := by
  obtain ⟨result, s', hreturns, hresult⟩ := hm
  exact ⟨result, s', hreturns, hpost result s' hresult⟩

theorem meets_pure {a : α} {post : Except ε α → σ → Prop} (hpost : post (.ok a) s) :
    (pure a : RunM ε σ α).Meets s post :=
  ⟨.ok a, s, rfl, hpost⟩

theorem meets_throw {e : ε} {post : Except ε α → σ → Prop} (hpost : post (.error e) s) :
    (throw e : RunM ε σ α).Meets s post :=
  ⟨.error e, s, rfl, hpost⟩

theorem meets_set {state : σ} {post : Except ε PUnit → σ → Prop}
    (hpost : post (.ok ⟨⟩) state) : (set state : RunM ε σ PUnit).Meets s post :=
  ⟨.ok ⟨⟩, state, rfl, hpost⟩

theorem Meets.bind {mid : Except ε α → σ → Prop} {post : Except ε β → σ → Prop}
    (hm : m.Meets s mid) (herror : ∀ e s', mid (.error e) s' → post (.error e) s')
    (hf : ∀ a s', mid (.ok a) s' → (f a).Meets s' post) : (m >>= f).Meets s post := by
  obtain ⟨outcome, s₁, hreturns, hmid⟩ := hm
  cases outcome with
  | error e =>
      exact ⟨.error e, s₁, returns_bind.mpr (Or.inl ⟨e, hreturns, rfl⟩), herror e s₁ hmid⟩
  | ok a =>
      obtain ⟨result, s', hresult, hpost⟩ := hf a s₁ hmid
      exact ⟨result, s', returns_bind.mpr (Or.inr ⟨a, s₁, hreturns, hresult⟩), hpost⟩

theorem meets_get_bind {g : σ → RunM ε σ β} {post : Except ε β → σ → Prop}
    (hg : (g s).Meets s post) : (get >>= g).Meets s post := by
  obtain ⟨result, s', hresult, hpost⟩ := hg
  exact ⟨result, s', (returns_bind_of returns_get).mpr hresult, hpost⟩

theorem ends_mapErr {g : ε → δ} (hm : m.Ends s) : (m.mapErr g).Ends s := by
  obtain ⟨outcome, s', h⟩ := hm
  exact ⟨_, s', returns_mapErr.mpr ⟨outcome, h, rfl⟩⟩

end RunM

end Uv.Core
