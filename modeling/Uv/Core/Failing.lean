import Mathlib

/-!
# Computations that may fail

When a computation with errors succeeds: the rules for a bind, for a list that is mapped, for
a loop over a list and for a loop with an accumulator.
-/

namespace Uv.Core

variable {ε α β σ : Type}

theorem bind_eq_ok {x : Except ε α} {f : α → Except ε β} {b : β}
    (hbind : (x >>= f) = .ok b) : ∃ a, x = .ok a ∧ f a = .ok b := by
  cases x with
  | error err => cases hbind
  | ok a => exact ⟨a, rfl, hbind⟩

theorem bind_eq_ok_iff {x : Except ε α} {f : α → Except ε β} {b : β} :
    (x >>= f) = .ok b ↔ ∃ a, x = .ok a ∧ f a = .ok b := by
  constructor
  · exact bind_eq_ok
  · rintro ⟨a, rfl, hf⟩
    exact hf

/-- A list is mapped iff every element is, and to the list of what the elements are mapped
to. -/
theorem mapM_eq_ok_iff {f : α → Except ε β} {g : α → β} {P : α → Prop} {xs : List α}
    (hf : ∀ x ∈ xs, ∀ y, f x = .ok y ↔ P x ∧ y = g x) {ys : List β} :
    xs.mapM f = .ok ys ↔ (∀ x ∈ xs, P x) ∧ ys = xs.map g := by
  induction xs generalizing ys with
  | nil => simp [pure, Except.pure, eq_comm]
  | cons x rest ih =>
      have hrest := fun zs => @ih (fun z hz => hf z (List.mem_cons_of_mem x hz)) zs
      simp only [List.mapM_cons, bind_eq_ok_iff, hf x (by simp), hrest, List.forall_mem_cons,
        List.map_cons, pure, Except.pure, Except.ok.injEq]
      constructor
      · rintro ⟨_, ⟨hx, rfl⟩, _, ⟨hxs, rfl⟩, rfl⟩
        exact ⟨⟨hx, hxs⟩, rfl⟩
      · rintro ⟨⟨hx, hxs⟩, rfl⟩
        exact ⟨_, ⟨hx, rfl⟩, _, ⟨hxs, rfl⟩, rfl⟩

theorem mapM_map_eq_ok_iff {γ : Type} {write : α → γ} {f : γ → Except ε β} {g : α → β}
    {P : α → Prop} {xs : List α} (hf : ∀ x ∈ xs, ∀ y, f (write x) = .ok y ↔ P x ∧ y = g x)
    {ys : List β} : (xs.map write).mapM f = .ok ys ↔ (∀ x ∈ xs, P x) ∧ ys = xs.map g := by
  rw [List.mapM_map]
  exact mapM_eq_ok_iff hf

/-- A list is restored iff its elements are. -/
theorem mapM_map_eq_ok_self_iff {γ : Type} {write : α → γ} {f : γ → Except ε α}
    {P : α → Prop} {xs : List α} (hf : ∀ x ∈ xs, ∀ y, f (write x) = .ok y ↔ P x ∧ y = x)
    {ys : List α} : (xs.map write).mapM f = .ok ys ↔ (∀ x ∈ xs, P x) ∧ ys = xs := by
  rw [mapM_map_eq_ok_iff (g := id) hf, List.map_id]

/-- A list is read back iff its elements are. -/
theorem mapM_map_eq_some {γ : Type} {write : α → γ} {read : γ → Option β} {g : α → β}
    {xs : List α} (hread : ∀ x ∈ xs, read (write x) = some (g x)) :
    (xs.map write).mapM read = some (xs.map g) := by
  induction xs with
  | nil => rfl
  | cons x rest ih =>
      rw [List.map_cons, List.mapM_cons, hread x (by simp),
        ih fun y hy => hread y (List.mem_cons_of_mem x hy)]
      rfl

theorem mapM_eq_some_iff {f : α → Option β} {xs : List α} {ys : List β} :
    xs.mapM f = some ys ↔ List.Forall₂ (fun x y => f x = some y) xs ys := by
  induction xs generalizing ys with
  | nil => simp [eq_comm]
  | cons x rest ih =>
      rw [List.mapM_cons, Option.bind_eq_bind, Option.bind_eq_some_iff,
        List.forall₂_cons_left_iff]
      constructor
      · rintro ⟨y, hy, hrest⟩
        obtain ⟨zs, hzs, heq⟩ := Option.bind_eq_some_iff.mp hrest
        cases heq
        exact ⟨y, zs, hy, ih.mp hzs, rfl⟩
      · rintro ⟨y, zs, hy, hzs, rfl⟩
        exact ⟨y, hy, Option.bind_eq_some_iff.mpr ⟨zs, ih.mpr hzs, rfl⟩⟩

theorem exists_of_forall₂ {R : α → β → Prop} {xs : List α} {ys : List β}
    (hxs : List.Forall₂ R xs ys) {x : α} (hx : x ∈ xs) : ∃ y ∈ ys, R x y := by
  induction hxs with
  | nil => cases hx
  | cons hfirst _ ih =>
      rcases List.mem_cons.mp hx with rfl | hx
      · exact ⟨_, List.mem_cons_self, hfirst⟩
      · obtain ⟨y, hy, hrel⟩ := ih hx
        exact ⟨y, List.mem_cons_of_mem _ hy, hrel⟩

theorem forM_eq_ok_iff {f : α → Except ε Unit} {xs : List α} :
    xs.forM f = .ok () ↔ ∀ x ∈ xs, f x = .ok () := by
  induction xs with
  | nil => simp [pure, Except.pure]
  | cons x rest ih =>
      cases hx : f x with
      | error e => simp [hx, bind, Except.bind]
      | ok u => simpa [hx, bind, Except.bind] using ih

/-- What holds at the start and is kept by every round, with the elements seen so far. -/
theorem foldlM_ok {f : σ → α → Except ε σ} {P : List α → σ → Prop} {xs : List α}
    {start final : σ} (hfold : xs.foldlM f start = .ok final) (hstart : P [] start)
    (hstep : ∀ {done x state next}, x ∈ xs → P done state → f state x = .ok next →
      P (done ++ [x]) next) : P xs final := by
  suffices h : ∀ rest done state, (∀ x ∈ rest, x ∈ xs) → P done state →
      rest.foldlM f state = .ok final → P (done ++ rest) final from
    h xs [] start (fun _ hx => hx) hstart hfold
  intro rest
  induction rest with
  | nil =>
      intro done state _ hdone hrest
      cases hrest
      rwa [List.append_nil]
  | cons x rest ih =>
      intro done state hmem hdone hrest
      rw [List.foldlM_cons] at hrest
      obtain ⟨next, hnext, hrest⟩ := bind_eq_ok hrest
      have hdone' := hstep (hmem x (by simp)) hdone hnext
      have hfinal := ih (done ++ [x]) next (fun y hy => hmem y (by simp [hy])) hdone' hrest
      rwa [List.append_assoc] at hfinal

/-! ## Computations with a state -/

theorem run_bind_eq_ok {x : StateT σ (Except ε) α} {f : α → StateT σ (Except ε) β} {s s'' : σ}
    {b : β} (hbind : (x >>= f).run s = .ok (b, s'')) :
    ∃ a s', x.run s = .ok (a, s') ∧ (f a).run s' = .ok (b, s'') := by
  rw [StateT.run_bind] at hbind
  obtain ⟨⟨a, s'⟩, hx, hf⟩ := bind_eq_ok hbind
  exact ⟨a, s', hx, hf⟩

/-- What holds at the start and is kept by every round, with the state and the elements seen
so far. -/
theorem run_foldlM_ok {f : β → α → StateT σ (Except ε) β} {P : List α → σ → β → Prop}
    {xs : List α} {s s' : σ} {start final : β}
    (hfold : (xs.foldlM f start).run s = .ok (final, s')) (hstart : P [] s start)
    (hstep : ∀ {done x s b s' b'}, x ∈ xs → P done s b → (f b x).run s = .ok (b', s') →
      P (done ++ [x]) s' b') : P xs s' final := by
  have hpairs : xs.foldlM (fun (state : β × σ) x => (f state.1 x).run state.2) (start, s) =
      .ok (final, s') := by
    rw [← hfold]
    clear hfold hstart hstep
    induction xs generalizing start s with
    | nil => rfl
    | cons x rest ih =>
        rw [List.foldlM_cons, List.foldlM_cons, StateT.run_bind]
        apply bind_congr
        intro state
        exact ih
  apply foldlM_ok (P := fun done state => P done state.2 state.1) hpairs hstart
  intro done x state next hx hdone hnext
  exact hstep hx hdone hnext

end Uv.Core
