import Uv.Resolver.Environment
import Uv.Core.Graph

/-!
# The environments a package is relevant for

Whenever the solver learns that one package depends on another, it keeps an
incompatibility for it.  `find_environments` follows these from a package back
to the root and joins what the markers on the way allow.

It is a plain recursion.  It returns if and only if the package does not depend,
directly or not, on a cycle; then the marker is exact.
-/

namespace Uv.Resolver

open Uv.Core Uv.Pep440 Uv.Pep508 Uv.Pep508.Interner

/-- What an incompatibility is for.  Only one of the kinds is followed. -/
inductive IncompatibilityKind (Id : Type) where
  /-- The first package depends on the second. -/
  | fromDependencyOf (id1 id2 : Id)
  | other

/-- The stores of the solver.  The ids are positions in the stores. -/
structure SolverState where
  packageStore : List PubGrubPackage
  incompatibilityStore : List (IncompatibilityKind (Fin packageStore.length))
  incompatibilities : Fin packageStore.length →
    Option (List (Fin incompatibilityStore.length))

namespace SolverState

/-- The id of a package. -/
abbrev Id (state : SolverState) : Type := Fin state.packageStore.length

variable (state : SolverState)

def package (id : state.Id) : PubGrubPackage := state.packageStore.get id

/-- The step of `find_environments` asks about the second package next. -/
def Visits (id dependent : state.Id) : Prop :=
  (state.package id).isRoot = false ∧ ∃ indices,
    state.incompatibilities id = some indices ∧ ∃ index ∈ indices,
      state.incompatibilityStore.get index = .fromDependencyOf dependent id

/-- There is a chain of dependencies from the root to the package along which
every marker is true. -/
inductive Relevant (holds : NodeId → Prop) : state.Id → Prop where
  | root {id : state.Id} (hroot : (state.package id).isRoot = true) :
      Relevant holds id
  | step {id dependent : state.Id} (hvisits : state.Visits id dependent)
      (hmarker : holds (state.package id).marker)
      (hdependent : Relevant holds dependent) : Relevant holds id

section Operations

variable [RangeOps ValidVersion] [RangeOps Text]

/-- One incompatibility of the package: another way for it to be relevant. -/
def orDependent (id : state.Id) (find : state.Id → InternerM NodeId) (marker : NodeId)
    (index : Fin state.incompatibilityStore.length) : InternerM NodeId :=
  match state.incompatibilityStore.get index with
  | .fromDependencyOf id1 id2 =>
      if id = id2 then do
        let environments ← find id1
        let conjunction ← Pep508.and (state.package id).marker environments
        Pep508.or marker conjunction
      else pure marker
  | .other => pure marker

/-- The set of markers for which a package is known to be relevant. -/
def findEnvironments : ℕ → state.Id → InternerM NodeId
  | 0, _ => failure
  | fuel + 1, id =>
      if (state.package id).isRoot then pure .TRUE
      else
        match state.incompatibilities id with
        | none => pure .FALSE
        | some indices =>
            indices.foldlM (state.orDependent id (findEnvironments fuel)) .FALSE

end Operations

variable {state}

/-! ## Cycles -/

section Cycles

variable [RangeOps ValidVersion] [RangeOps Text] {id dependent : state.Id}

/-- A package with a cycle among those that lead to it uses up any stack. -/
theorem findEnvironments_fails (hcycle : ReachesCycle state.Visits id) (fuel : ℕ) :
    Fails (state.findEnvironments fuel id) := by
  induction fuel generalizing id with
  | zero =>
      intro s
      rfl
  | succ fuel ih =>
      obtain ⟨dependent, ⟨hroot, indices, hindices, index, hindex, hkind⟩, hrest⟩ :=
        hcycle.exists_next
      rw [findEnvironments, hroot, hindices]
      apply Fails.foldlM hindex
      intro marker
      rw [orDependent, hkind]
      dsimp only
      rw [if_pos rfl]
      exact Fails.bind_left (ih hrest)

end Cycles

/-! ## The marker -/

section Marker

variable {s s' : Interner} {id : state.Id} {r : NodeId}
  {below : Variable → Variable → Prop}

/-- The marker is true exactly where the package is relevant. -/
structure Exact (state : SolverState) (s : Interner) (id : state.Id)
    (s' : Interner) (r : NodeId) : Prop where
  valid : s'.Valid r
  holds_iff : ∀ v : Valuation, ¬ v.Excluded →
    (Holds s' v r ↔ state.Relevant (Holds s v) id)
  vars : ∀ P, (∀ id, AllVars s P (state.package id).marker) → AllVars s' P r

/-- The marker is true exactly where the package is relevant by one of the
incompatibilities. -/
structure ExactOn (state : SolverState) (s : Interner) (id : state.Id)
    (s' : Interner) (done : List (Fin state.incompatibilityStore.length))
    (r : NodeId) : Prop where
  valid : s'.Valid r
  holds_iff : ∀ v : Valuation, ¬ v.Excluded → (Holds s' v r ↔ ∃ index ∈ done,
    ∃ dependent, state.incompatibilityStore.get index = .fromDependencyOf dependent id ∧
      Holds s v (state.package id).marker ∧ state.Relevant (Holds s v) dependent)
  vars : ∀ P, (∀ id, AllVars s P (state.package id).marker) → AllVars s' P r

theorem relevant_iff_of_isRoot {holds : NodeId → Prop}
    (hroot : (state.package id).isRoot = true) : state.Relevant holds id ↔ True :=
  iff_true_intro (.root hroot)

theorem relevant_iff_of_not_isRoot {holds : NodeId → Prop}
    (hroot : (state.package id).isRoot = false) :
    state.Relevant holds id ↔ ∃ indices, state.incompatibilities id = some indices ∧
      ∃ index ∈ indices, ∃ dependent,
        state.incompatibilityStore.get index = .fromDependencyOf dependent id ∧
          holds (state.package id).marker ∧ state.Relevant holds dependent := by
  constructor
  · intro hrelevant
    cases hrelevant with
    | root htrue =>
        rw [hroot] at htrue
        cases htrue
    | @step _ dependent hvisits hmarker hdependent =>
        obtain ⟨-, indices, hindices, index, hindex, hkind⟩ := hvisits
        exact ⟨indices, hindices, index, hindex, dependent, hkind, hmarker, hdependent⟩
  · rintro ⟨indices, hindices, index, hindex, dependent, hkind, hmarker, hdependent⟩
    exact .step ⟨hroot, indices, hindices, index, hindex, hkind⟩ hmarker hdependent

theorem Exact.mono {s'' : Interner} (hwf' : s'.WellFormed) (hwf'' : s''.WellFormed)
    (hle : s' ≤ s'') (hexact : Exact state s id s' r) : Exact state s id s'' r where
  valid := hexact.valid.mono hle
  holds_iff v hv := by
    rw [holds_mono hwf' hwf'' hle hexact.valid]
    exact hexact.holds_iff v hv
  vars P hP := (hexact.vars P hP).mono hle

theorem ExactOn.mono {s'' : Interner} (hwf' : s'.WellFormed) (hwf'' : s''.WellFormed)
    (hle : s' ≤ s'') {done : List (Fin state.incompatibilityStore.length)}
    (hdone : ExactOn state s id s' done r) : ExactOn state s id s'' done r where
  valid := hdone.valid.mono hle
  holds_iff v hv := by
    rw [holds_mono hwf' hwf'' hle hdone.valid]
    exact hdone.holds_iff v hv
  vars P hP := (hdone.vars P hP).mono hle

theorem ExactOn.append_other {done : List (Fin state.incompatibilityStore.length)}
    {index : Fin state.incompatibilityStore.length}
    (hdone : ExactOn state s id s' done r)
    (hkind : ∀ dependent,
      state.incompatibilityStore.get index ≠ .fromDependencyOf dependent id) :
    ExactOn state s id s' (done ++ [index]) r where
  valid := hdone.valid
  vars := hdone.vars
  holds_iff v hv := by
    rw [hdone.holds_iff v hv]
    constructor
    · rintro ⟨i, hi, hrest⟩
      exact ⟨i, List.mem_append_left _ hi, hrest⟩
    · rintro ⟨i, hi, dependent, hget, hrest⟩
      rcases List.mem_append.mp hi with hi | hi
      · exact ⟨i, hi, dependent, hget, hrest⟩
      · rw [List.mem_singleton.mp hi] at hget
        exact (hkind dependent hget).elim

theorem ExactOn.append_dependent {dependent : state.Id}
    {environments conjunction r' : NodeId}
    {done : List (Fin state.incompatibilityStore.length)}
    {index : Fin state.incompatibilityStore.length}
    (hdone : ExactOn state s id s' done r)
    (hkind : state.incompatibilityStore.get index = .fromDependencyOf dependent id)
    (hwf : s.WellFormed) (hwf' : s'.WellFormed) (hle : s ≤ s')
    (hmarker : s.Valid (state.package id).marker)
    (henvironments : Exact state s dependent s' environments)
    (hconj : Conj s' (state.package id).marker environments conjunction)
    (hdisj : Disj s' r conjunction r') :
    ExactOn state s id s' (done ++ [index]) r' where
  valid := hdisj.valid
  vars P hP := hdisj.vars P (hdone.vars P hP)
    (hconj.vars P ((hP id).mono hle) (henvironments.vars P hP))
  holds_iff v hv := by
    have hleft : Holds s' v r' ↔ Holds s' v r ∨ Holds s' v conjunction :=
      ⟨hdisj.sound v (.inr hv), hdisj.complete v⟩
    have hright : Holds s' v conjunction ↔
        Holds s v (state.package id).marker ∧ state.Relevant (Holds s v) dependent := by
      rw [← henvironments.holds_iff v hv, ← holds_mono hwf hwf' hle hmarker]
      exact ⟨hconj.sound v, fun hboth => hconj.complete v (.inr hv) hboth.1 hboth.2⟩
    rw [hleft, hright, hdone.holds_iff v hv]
    constructor
    · rintro (⟨i, hi, hrest⟩ | hdependent)
      · exact ⟨i, List.mem_append_left _ hi, hrest⟩
      · exact ⟨index, by simp, dependent, hkind, hdependent⟩
    · rintro ⟨i, hi, other, hget, hrest⟩
      rcases List.mem_append.mp hi with hi | hi
      · exact .inl ⟨i, hi, other, hget, hrest⟩
      · rw [List.mem_singleton.mp hi, hkind] at hget
        cases hget
        exact .inr hrest

section Operations

variable [RangeOps ValidVersion] [RangeOps Text]

/-- What one round of the loop adds. -/
theorem orDependent_ensures {find : state.Id → InternerM NodeId}
    (hwf : s.WellFormed) (hmarker : s.Valid (state.package id).marker)
    {done : List (Fin state.incompatibilityStore.length)}
    {index : Fin state.incompatibilityStore.length}
    (hfind : ∀ dependent,
      state.incompatibilityStore.get index = .fromDependencyOf dependent id →
      ∀ s', s ≤ s' → Sound below s' → Ensures (Sound below) (find dependent) s'
        fun s'' r => Exact state s dependent s'' r)
    (hle : s ≤ s') (hsound' : Sound below s') (hdone : ExactOn state s id s' done r) :
    Ensures (Sound below) (state.orDependent id find r index) s'
      fun s'' r' => ExactOn state s id s'' (done ++ [index]) r' := by
  rw [orDependent]
  cases hkind : state.incompatibilityStore.get index with
  | other =>
      apply Ensures.pure hsound'
      apply hdone.append_other
      intro dependent hget
      rw [hkind] at hget
      cases hget
  | fromDependencyOf id1 id2 =>
      dsimp only
      by_cases hid : id = id2
      · subst hid
        rw [if_pos rfl]
        apply Ensures.bind (hfind id1 hkind s' hle hsound')
        intro environments s₁ hsound₁ hle₁ henvironments
        apply Ensures.bind (and_ensures hsound₁ (hmarker.mono (hle.trans hle₁))
          henvironments.valid)
        intro conjunction s₂ hsound₂ hle₂ hconj
        apply (or_ensures hsound₂ (hdone.valid.mono (hle₁.trans hle₂))
          hconj.valid).weaken
        intro r' s₃ hsound₃ hle₃ hdisj
        have hwf' := hsound'.wellFormed
        have hwf₁ := hsound₁.wellFormed
        have hwf₃ := hsound₃.wellFormed
        have hle₁₃ := hle₂.trans hle₃
        apply (hdone.mono hwf' hwf₃ (hle₁.trans hle₁₃)).append_dependent hkind hwf
          hwf₃ (hle.trans (hle₁.trans hle₁₃)) hmarker
          (henvironments.mono hwf₁ hwf₃ hle₁₃)
        · exact hconj.mono hsound₂.wellFormed hwf₃ hle₃
        · exact hdisj
      · rw [if_neg hid]
        apply Ensures.pure hsound'
        apply hdone.append_other
        intro dependent hget
        rw [hkind] at hget
        cases hget
        exact hid rfl

theorem findEnvironments_ensures (hwf : s.WellFormed)
    (hmarkers : ∀ id, s.Valid (state.package id).marker)
    (hacyclic : ¬ ReachesCycle state.Visits id) :
    ∃ enough, ∀ fuel ≥ enough, ∀ s', s ≤ s' → Sound below s' →
      Ensures (Sound below) (state.findEnvironments fuel id) s'
        fun s'' r => Exact state s id s'' r := by
  -- The recursion only asks about packages the first one visits.
  suffices hall : ∀ visited, Relation.ReflTransGen state.Visits id visited →
      ∃ enough, ∀ fuel ≥ enough, ∀ s', s ≤ s' → Sound below s' →
        Ensures (Sound below) (state.findEnvironments fuel visited) s'
          fun s'' r => Exact state s visited s'' r from hall id .refl
  intro visited
  induction visited using (wellFounded_of_not_reachesCycle hacyclic).induction with
  | _ visited ih =>
      intro hreach
      have hnext : ∀ dependent, ∃ enough, state.Visits visited dependent →
          ∀ fuel ≥ enough, ∀ s', s ≤ s' → Sound below s' →
            Ensures (Sound below) (state.findEnvironments fuel dependent) s'
              fun s'' r => Exact state s dependent s'' r := by
        intro dependent
        by_cases hvisits : state.Visits visited dependent
        · obtain ⟨enough, henough⟩ := ih dependent ⟨.single hvisits, hreach⟩
            (hreach.tail hvisits)
          exact ⟨enough, fun _ => henough⟩
        · exact ⟨0, fun hv => (hvisits hv).elim⟩
      choose enough henough using hnext
      refine ⟨Finset.univ.sup enough + 1, ?_⟩
      intro fuel hfuel s' hle hsound
      obtain ⟨fuel, rfl⟩ : ∃ n, fuel = n + 1 := ⟨fuel - 1, by omega⟩
      rw [findEnvironments]
      cases hroot : (state.package visited).isRoot with
      | true =>
          rw [if_pos rfl]
          apply Ensures.pure hsound
          exact ⟨valid_true, fun v _ => by simp [relevant_iff_of_isRoot hroot],
            fun P _ => .true⟩
      | false =>
          rw [if_neg Bool.false_ne_true]
          cases hindices : state.incompatibilities visited with
          | none =>
              apply Ensures.pure hsound
              exact ⟨valid_false, fun v _ => by
                simp [relevant_iff_of_not_isRoot hroot, hindices], fun P _ => .false⟩
          | some indices =>
              have hstart : ExactOn state s visited s' [] .FALSE :=
                ⟨valid_false, fun v _ => by simp, fun P _ => .false⟩
              apply (Ensures.foldlM hsound hstart ?_).weaken
              · intro r s'' hsound'' hle' hdone
                refine ⟨hdone.valid, fun v hv => ?_, hdone.vars⟩
                rw [hdone.holds_iff v hv, relevant_iff_of_not_isRoot hroot]
                simp [hindices]
              · intro done index hindex s'' r hle' hsound'' hdone
                apply orDependent_ensures hwf (hmarkers visited) ?_ (hle.trans hle')
                  hsound'' hdone
                intro dependent hkind
                apply henough dependent ⟨hroot, indices, hindices, index, hindex, hkind⟩
                have hsup := Finset.le_sup (f := enough) (Finset.mem_univ dependent)
                omega

/-- The recursion returns a marker that is true, for every platform there can
be, exactly where the package is relevant. -/
def FindsEnvironments (state : SolverState) (s : Interner) (id : state.Id) : Prop :=
  ∃ fuel r s', (state.findEnvironments fuel id).run s = some (r, s') ∧
    (∀ v : Valuation, ¬ v.Excluded →
      (Holds s' v r ↔ state.Relevant (Holds s v) id)) ∧
    ((∀ id, Interner.Named s (state.package id).marker) → ∀ environment extras,
      environment.isExcluded = false → (s'.evaluate environment extras r = true ↔
        state.Relevant (fun marker => s.evaluate environment extras marker = true) id))

omit [RangeOps ValidVersion] [RangeOps Text] in
theorem Relevant.congr {holds holds' : NodeId → Prop} (hsame : ∀ id,
      holds (state.package id).marker ↔ holds' (state.package id).marker)
    (hrelevant : state.Relevant holds id) : state.Relevant holds' id := by
  induction hrelevant with
  | root hroot => exact .root hroot
  | @step id _ hvisits hmarker _ ih => exact .step hvisits ((hsame id).mp hmarker) ih

/-- The marker is found, and is exact, if and only if no cycle of dependencies
leads to the package. -/
theorem findEnvironments_iff (hreach : Reachable s)
    (hmarkers : ∀ id, s.Valid (state.package id).marker) :
    FindsEnvironments state s id ↔ ¬ ReachesCycle state.Visits id := by
  have hsound := hreach.sound
  have hwf := hsound.wellFormed
  constructor
  · rintro ⟨fuel, r, s', hrun, -⟩ hcycle
    rw [findEnvironments_fails hcycle fuel s] at hrun
    cases hrun
  · intro hacyclic
    obtain ⟨fuel, hfuel⟩ := findEnvironments_ensures hwf hmarkers hacyclic
    obtain ⟨r, s', hrun, hsound', hle, hexact⟩ := hfuel fuel le_rfl s le_rfl hsound
    refine ⟨fuel, r, s', hrun, hexact.holds_iff, ?_⟩
    intro hnamed environment extras hexcluded
    have hwellNamed : s'.WellNamed r :=
      hexact.vars _ fun id => (hnamed id).wellNamed
    have hsame : ∀ id, s.evaluate environment extras (state.package id).marker = true ↔
        Holds s (environment.valuation extras) (state.package id).marker :=
      fun id => evaluate_iff_holds hwf (hnamed id).valid (hnamed id).wellNamed
    rw [evaluate_iff_holds hsound'.wellFormed hexact.valid hwellNamed,
      hexact.holds_iff _ (not_excluded_valuation hexcluded)]
    exact ⟨.congr fun id => (hsame id).symm, .congr hsame⟩

end Operations

end Marker

/-! ## Concrete states -/

/-- A package that is relevant for every platform. -/
def anywhere (name : PackageName) : PubGrubPackage :=
  .package name none none .TRUE (.inl rfl)

theorem isNormalized_foo : isNormalized "foo".toList = some true := by decide

theorem isNormalized_bar : isNormalized "bar".toList = some true := by decide

/-- The root, `foo` and `bar`. -/
def packages : List PubGrubPackage :=
  [.root none, anywhere ⟨"foo".toList, isNormalized_foo⟩,
    anywhere ⟨"bar".toList, isNormalized_bar⟩]

/-- The root depends on `foo`, which depends on `bar`. -/
def chain : SolverState where
  packageStore := packages
  incompatibilityStore :=
    ([.fromDependencyOf 0 1, .other, .fromDependencyOf 1 2] :
      List (IncompatibilityKind (Fin 3)))
  incompatibilities := (![some [0], some [0, 1, 2], some [2]] : Fin 3 → Option (List (Fin 3)))

/-- The root depends on `foo`; `foo` and `bar` depend on each other. -/
def circle : SolverState where
  packageStore := packages
  incompatibilityStore :=
    ([.fromDependencyOf 0 1, .fromDependencyOf 1 2, .fromDependencyOf 2 1] :
      List (IncompatibilityKind (Fin 3)))
  incompatibilities := (![some [0], some [0, 1, 2], some [1, 2]] : Fin 3 → Option (List (Fin 3)))

theorem findEnvironments_chain : FindsEnvironments chain default (2 : Fin 3) ↔
    ¬ ReachesCycle chain.Visits (2 : Fin 3) :=
  findEnvironments_iff .default fun id => by
    fin_cases id <;> exact valid_true

/-- No stack is deep enough for `foo`. -/
theorem findEnvironments_circle : Interner.Reachable default ∧
    (∀ id, Interner.Valid default (circle.package id).marker) ∧
    ¬ FindsEnvironments circle default (1 : Fin 3) ∧
    ∀ fuel s, (circle.findEnvironments fuel (1 : Fin 3)).run s = none := by
  have hfoo : circle.Visits (1 : Fin 3) (2 : Fin 3) :=
    ⟨rfl, ([0, 1, 2] : List (Fin 3)), rfl, (2 : Fin 3),
      .tail _ (.tail _ (.head _)), rfl⟩
  have hbar : circle.Visits (2 : Fin 3) (1 : Fin 3) :=
    ⟨rfl, ([1, 2] : List (Fin 3)), rfl, (1 : Fin 3), .head _, rfl⟩
  have hcycle : ReachesCycle circle.Visits (1 : Fin 3) :=
    ⟨(1 : Fin 3), .refl, .tail (.single hfoo) hbar⟩
  have hfails := findEnvironments_fails hcycle
  refine ⟨.default, ?_, ?_, hfails⟩
  · intro id
    fin_cases id <;> exact valid_true
  · rintro ⟨fuel, r, s', hrun, -⟩
    rw [hfails fuel default] at hrun
    cases hrun

end SolverState

end Uv.Resolver
