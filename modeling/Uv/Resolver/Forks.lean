import Uv.Resolver.Environment

/-!
# Forks

The dependencies of one package are divided into forks: first along the markers
of dependencies on one name that differ in their markers, then along the sets of
conflicting items.  No environment is lost and none is in two forks.
-/

namespace Uv.Resolver

open Uv.Core Uv.Pep440 Uv.Pep508 Uv.Pep508.Interner

/-- A set of items of which at most one can be active. -/
structure ConflictSet where
  items : List ConflictItem
  nodup : items.Nodup

/-! ## Forks -/

structure Fork where
  dependencies : List PubGrubDependency
  conflicts : List ConflictItem
  env : ResolverEnvironment

namespace Fork

def new (env : ResolverEnvironment) : Fork := ⟨[], [], env⟩

/-- The item, if there is one, is taken out of the cache. -/
def forget (conflicts : List ConflictItem) (dep : PubGrubDependency) :
    List ConflictItem :=
  match dep.conflictingItem with
  | some item => conflicts.erase item
  | none => conflicts

def addDependency (fork : Fork) (dep : PubGrubDependency) : Fork :=
  { fork with
    conflicts := match dep.conflictingItem with
      | some item => fork.conflicts.insert item
      | none => fork.conflicts
    dependencies := fork.dependencies ++ [dep] }

def containsConflictingItem (fork : Fork) (item : ConflictItem) : Bool :=
  fork.conflicts.contains item

/-- Whether `filter` keeps a dependency.  A project is only dropped where it is
a top-level dependency. -/
def keeps (env : ResolverEnvironment) (dep : PubGrubDependency) : Bool :=
  match dep.conflictingItem with
  | none => true
  | some item =>
      env.includedByGroup item || (item.kind == .project && dep.parent.isSome)

/-- Include or exclude items; `none` if the environment knows better. -/
def filter (fork : Fork) (rules : List (Except ConflictItem ConflictItem)) :
    Option Fork :=
  (fork.env.filterByGroup rules).map fun env =>
    { env
      dependencies := fork.dependencies.filter (keeps env)
      conflicts := (fork.dependencies.filter fun dep => !keeps env dep).foldl
        forget fork.conflicts }

section Operations

variable [RangeOps ValidVersion] [RangeOps Text]

/-- One step of `set_env`: keep the dependency or forget its item. -/
def retain (env : ResolverEnvironment)
    (kept : List PubGrubDependency × List ConflictItem) (dep : PubGrubDependency) :
    InternerM (List PubGrubDependency × List ConflictItem) := do
  if ← env.includedByMarker dep.package.marker then
    pure (kept.1 ++ [dep], kept.2)
  else pure (kept.1, forget kept.2 dep)

def setEnv (fork : Fork) (env : ResolverEnvironment) : InternerM Fork := do
  let (dependencies, conflicts) ←
    fork.dependencies.foldlM (retain env) ([], fork.conflicts)
  pure { dependencies, conflicts, env }

/-- Add the dependency if its marker is not disjoint with the fork. -/
def addIncluded (dep : PubGrubDependency) (marker : NodeId) (fork : Fork) :
    InternerM Fork := do
  if ← fork.env.includedByMarker marker then pure (fork.addDependency dep)
  else pure fork

end Operations

end Fork

/-! ## Making forks -/

/-- The forks and the packages that provoked them. -/
structure Forks where
  forks : List Fork
  divergingPackages : List PackageName

namespace Forks

section Operations

variable [RangeOps ValidVersion] [RangeOps Text]

/-- The fork for one of the environments a fork is split into, unless it is
disjoint with the Python requirement. -/
def splitInto (pythonMarker : NodeId) (dep : PubGrubDependency) (forker : Forker)
    (fork : Fork) (new : List Fork) (env : ResolverEnvironment) :
    InternerM (List Fork) := do
  let newFork ← fork.setEnv env
  let included ← forker.included newFork.env
  let newFork := if included then newFork.addDependency dep else newFork
  let supported ← newFork.env.includedByMarker pythonMarker
  pure (if supported then new ++ [newFork] else new)

/-- Split one fork along what is left of the marker. -/
def splitFork (pythonMarker : NodeId) (dep : PubGrubDependency)
    (state : Forker × List Fork) (fork : Fork) : InternerM (Forker × List Fork) := do
  match ← state.1.fork fork.env with
  | none => pure (state.1, state.2 ++ [fork])
  | some (forker, envs) => do
      let new ← envs.foldlM (splitInto pythonMarker dep forker fork) state.2
      pure (forker, new)

/-- Fork along the marker of one dependency. -/
def forkDependency (env : ResolverEnvironment) (pythonMarker : NodeId)
    (name : PackageName) (this : Forks) (dep : PubGrubDependency) :
    InternerM Forks := do
  match ← ForkingPossibility.new env dep with
  | .dependencyAlwaysExcluded => pure this
  | .noForkingPossible =>
      pure { this with forks := this.forks.map (·.addDependency dep) }
  | .possible forker => do
      let (_, new) ← this.forks.foldlM (splitFork pythonMarker dep) (forker, [])
      pure ⟨new, this.divergingPackages.insert name⟩

/-- Whether a marker leaves the lower Python bound as it is. -/
def keepsPython (interner : Interner) (pythonRequirement : PythonRequirement)
    (marker : NodeId) : Bool :=
  match requiresPython interner marker with
  | none => true
  | some bound => !pythonRequirement.raises bound

/-- Add the dependencies to every fork that is not disjoint with the marker. -/
def addToForks (marker : NodeId) (deps : List PubGrubDependency)
    (forks : List Fork) : InternerM (List Fork) :=
  deps.foldlM (fun forks dep => forks.mapM (Fork.addIncluded dep marker)) forks

/-- The dependencies on one name.  They are forked along, unless they all have
the same marker and it does not raise the Python requirement. -/
def forkName (env : ResolverEnvironment) (pythonRequirement : PythonRequirement)
    (pythonMarker : NodeId) (this : Forks)
    (entry : PackageName × List PubGrubDependency) : InternerM Forks := do
  let interner ← get
  match entry.2 with
  | [] => failure
  | first :: _ =>
      let marker := first.package.marker
      if (entry.2.all fun dep => marker == dep.package.marker) &&
          keepsPython interner pythonRequirement marker then do
        let forks ← addToForks marker entry.2 this.forks
        pure { this with forks := forks }
      else entry.2.foldlM (forkDependency env pythonMarker entry.1) this

end Operations

/-- The rules of the fork that excludes all items of the set. -/
def excludeAll (set : ConflictSet) : List (Except ConflictItem ConflictItem) :=
  set.items.map .error

/-- The rules of the fork that excludes all items but the `i`-th. -/
def allowOne (set : ConflictSet) (i : ℕ) : List (Except ConflictItem ConflictItem) :=
  set.items.zipIdx.map fun (item, j) => if i = j then .ok item else .error item

/-- Split one fork along a set, if it has a dependency on one of the items. -/
def splitConflict (set : ConflictSet) (fork : Fork) : List Fork :=
  if set.items.any fork.containsConflictingItem then
    (fork.filter (excludeAll set)).toList ++
      (List.range set.items.length).filterMap fun i => fork.filter (allowOne set i)
  else [fork]

/-- The first item of the set that a fork has a dependency on. -/
def diverging (set : ConflictSet) (packages : List PackageName) (fork : Fork) :
    List PackageName :=
  match set.items.find? fork.containsConflictingItem with
  | some item => packages.insert item.package
  | none => packages

def forkConflicts (this : Forks) (set : ConflictSet) : Forks where
  forks := this.forks.flatMap (splitConflict set)
  divergingPackages := this.forks.foldl (diverging set) this.divergingPackages

section Operations

variable [RangeOps ValidVersion] [RangeOps Text]

/-- `Forks::new`. -/
def new (nameToDeps : List (PackageName × List PubGrubDependency))
    (env : ResolverEnvironment) (pythonRequirement : PythonRequirement)
    (conflicts : List ConflictSet) : InternerM Forks := do
  let pythonMarker ← pythonRequirement.toMarkerTree
  let start : Forks := ⟨[Fork.new env], []⟩
  let forks ← nameToDeps.foldlM (forkName env pythonRequirement pythonMarker) start
  pure (conflicts.foldl forkConflicts forks)

end Operations

end Forks

/-! ## Sharing out environments -/

/-- The markers of the fork and of its dependencies are well formed. -/
structure Fork.Named (s : Interner) (fork : Fork) : Prop where
  env : Interner.Named s fork.env.markers
  dependencies : ∀ dep ∈ fork.dependencies, Interner.Named s dep.package.marker

theorem Fork.Named.mono {s s' : Interner} {fork : Fork} (hle : s ≤ s')
    (hfork : fork.Named s) : fork.Named s' :=
  ⟨hfork.env.mono hle, fun dep hmem => (hfork.dependencies dep hmem).mono hle⟩

theorem Fork.Named.addDependency {s : Interner} {fork : Fork}
    {dep : PubGrubDependency} (hfork : fork.Named s)
    (hdep : Interner.Named s dep.package.marker) : (fork.addDependency dep).Named s := by
  refine ⟨hfork.env, ?_⟩
  intro dep' hmem
  rcases List.mem_append.mp hmem with hmem | hmem
  · exact hfork.dependencies dep' hmem
  · rw [List.mem_singleton.mp hmem]
    exact hdep

/-- Where the Python requirement holds, the forks are for a platform as often as
the environments are. -/
structure Replaces (s : Interner) (pythonMarker : NodeId)
    (envs : List ResolverEnvironment) (forks : List Fork) : Prop where
  source : ∀ env ∈ envs, Interner.Named s env.markers
  named : ∀ fork ∈ forks, fork.Named s
  count_eq : ∀ environment extras active, environment.isExcluded = false →
    s.evaluate environment extras pythonMarker = true →
      ResolverEnvironment.count s environment extras active (forks.map Fork.env) =
        ResolverEnvironment.count s environment extras active envs

namespace Replaces

variable {s s' : Interner} {pythonMarker : NodeId}
  {envs envs' : List ResolverEnvironment} {forks forks' : List Fork}

theorem env_named (hforks : ∀ fork ∈ forks, fork.Named s) :
    ∀ env ∈ forks.map Fork.env, Interner.Named s env.markers := by
  intro env hmem
  obtain ⟨fork, hfork, rfl⟩ := List.mem_map.mp hmem
  exact (hforks fork hfork).env

theorem refl {forks : List Fork} (hforks : ∀ fork ∈ forks, fork.Named s) :
    Replaces s pythonMarker (forks.map Fork.env) forks :=
  ⟨env_named hforks, hforks, fun _ _ _ _ _ => rfl⟩

theorem self {fork : Fork} (hfork : fork.Named s) :
    Replaces s pythonMarker [fork.env] [fork] := by
  have hforks : ∀ other ∈ [fork], other.Named s := by simpa using hfork
  exact refl hforks

theorem nil : Replaces s pythonMarker [] [] :=
  ⟨by simp, by simp, fun _ _ _ _ _ => rfl⟩

theorem mono (hwf : s.WellFormed) (hwf' : s'.WellFormed) (hle : s ≤ s')
    (hpython : Interner.Named s pythonMarker)
    (hreplaces : Replaces s pythonMarker envs forks) :
    Replaces s' pythonMarker envs forks := by
  refine ⟨fun env hmem => (hreplaces.source env hmem).mono hle,
    fun fork hmem => (hreplaces.named fork hmem).mono hle, ?_⟩
  intro environment extras active hexcluded hevaluate
  rw [hpython.evaluate_mono hwf hwf' hle] at hevaluate
  rw [ResolverEnvironment.count_mono hwf hwf' hle (env_named hreplaces.named),
    ResolverEnvironment.count_mono hwf hwf' hle hreplaces.source]
  exact hreplaces.count_eq environment extras active hexcluded hevaluate

theorem append (hfirst : Replaces s pythonMarker envs forks)
    (hsecond : Replaces s pythonMarker envs' forks') :
    Replaces s pythonMarker (envs ++ envs') (forks ++ forks') := by
  refine ⟨List.forall_mem_append.mpr ⟨hfirst.source, hsecond.source⟩,
    List.forall_mem_append.mpr ⟨hfirst.named, hsecond.named⟩, ?_⟩
  intro environment extras active hexcluded hevaluate
  rw [List.map_append, ResolverEnvironment.count_append,
    ResolverEnvironment.count_append,
    hfirst.count_eq environment extras active hexcluded hevaluate,
    hsecond.count_eq environment extras active hexcluded hevaluate]

theorem trans (hfirst : Replaces s pythonMarker envs forks)
    (hsecond : Replaces s pythonMarker (forks.map Fork.env) forks') :
    Replaces s pythonMarker envs forks' := by
  refine ⟨hfirst.source, hsecond.named, ?_⟩
  intro environment extras active hexcluded hevaluate
  rw [hsecond.count_eq environment extras active hexcluded hevaluate,
    hfirst.count_eq environment extras active hexcluded hevaluate]

/-- The environments may be exchanged for others that share out the same. -/
theorem of_split {env : ResolverEnvironment} {forker : Forker}
    {split : Forker × List ResolverEnvironment}
    (hreplaces : Replaces s pythonMarker split.2 forks)
    (henv : Interner.Named s env.markers) (hsplit : forker.Split s env split) :
    Replaces s pythonMarker [env] forks := by
  refine ⟨by simpa using henv, hreplaces.named, ?_⟩
  intro environment extras active hexcluded hevaluate
  rw [hreplaces.count_eq environment extras active hexcluded hevaluate,
    hsplit.count_eq environment extras active hexcluded,
    ResolverEnvironment.count_singleton]

end Replaces

/-! ## Forking by markers -/

section Markers

variable [RangeOps ValidVersion] [RangeOps Text] {s : Interner}
  {below : Variable → Variable → Prop} {pythonMarker : NodeId}
  {dep : PubGrubDependency} {forker : Forker} {fork : Fork}
  {env : ResolverEnvironment}

theorem Fork.setEnv_ensures (hsound : Sound below s) (hfork : fork.Named s)
    (henv : Interner.Named s env.markers) :
    Ensures (Sound below) (fork.setEnv env) s fun s' fork' =>
      fork'.env = env ∧ fork'.Named s' := by
  have hretain : Ensures (Sound below)
      (fork.dependencies.foldlM (retain env) ([], fork.conflicts)) s
        fun s' kept => ∀ dep ∈ kept.1, Interner.Named s' dep.package.marker := by
    let P (s' : Interner) (_ : List PubGrubDependency)
        (kept : List PubGrubDependency × List ConflictItem) : Prop :=
      ∀ dep ∈ kept.1, Interner.Named s' dep.package.marker
    have hstart : P s [] ([], fork.conflicts) := by simp [P]
    apply Ensures.foldlM hsound hstart
    intro done dep hmem s₁ kept hle₁ hsound₁ hkept
    have hdep := (hfork.dependencies dep hmem).mono hle₁
    apply Ensures.bind (ResolverEnvironment.includedByMarker_ensures hsound₁
      (henv.mono hle₁) hdep)
    intro included s₂ hsound₂ hle₂ _
    have hkept₂ : ∀ dep ∈ kept.1, Interner.Named s₂ dep.package.marker :=
      fun dep hmem => (hkept dep hmem).mono hle₂
    cases included with
    | false => exact Ensures.pure hsound₂ hkept₂
    | true =>
        apply Ensures.pure hsound₂
        apply List.forall_mem_append.mpr ⟨hkept₂, ?_⟩
        simpa using hdep.mono hle₂
  apply Ensures.bind hretain
  rintro ⟨dependencies, conflicts⟩ s' hsound' hle hkept
  exact Ensures.pure hsound' ⟨rfl, henv.mono hle, hkept⟩

namespace Forks

/-- Splitting off one environment. -/
theorem splitInto_ensures {new : List Fork} (hsound : Sound below s)
    (hpython : Interner.Named s pythonMarker)
    (hpackage : Interner.Named s forker.package.marker)
    (hdep : Interner.Named s dep.package.marker) (hfork : fork.Named s)
    (henv : Interner.Named s env.markers) :
    Ensures (Sound below) (splitInto pythonMarker dep forker fork new env) s
      fun s' new' => ∃ kept, new' = new ++ kept ∧
        Replaces s' pythonMarker [env] kept := by
  apply Ensures.bind (fork.setEnv_ensures hsound hfork henv)
  rintro newFork s₁ hsound₁ hle₁ ⟨rfl, hnewFork⟩
  apply Ensures.bind (ResolverEnvironment.includedByMarker_ensures hsound₁
    hnewFork.env (hpackage.mono hle₁))
  intro included s₂ hsound₂ hle₂ _
  let newFork' := if included then newFork.addDependency dep else newFork
  have hnewFork' : newFork'.env = newFork.env ∧ newFork'.Named s₂ := by
    cases included with
    | false => exact ⟨rfl, hnewFork.mono hle₂⟩
    | true =>
        exact ⟨rfl, (hnewFork.mono hle₂).addDependency
          ((hdep.mono hle₁).mono hle₂)⟩
  obtain ⟨henv', hnamed'⟩ := hnewFork'
  apply Ensures.bind (ResolverEnvironment.includedByMarker_ensures hsound₂
    hnamed'.env ((hpython.mono hle₁).mono hle₂))
  intro supported s₃ hsound₃ hle₃ hsupported
  apply Ensures.pure hsound₃
  cases supported with
  | true =>
      refine ⟨[newFork'], rfl, ?_⟩
      rw [← henv']
      exact Replaces.self (hnamed'.mono hle₃)
  | false =>
      refine ⟨[], by simp, by simpa [henv'] using (hnamed'.mono hle₃).env, by simp, ?_⟩
      intro environment extras active hexcluded hevaluate
      rw [ResolverEnvironment.count_singleton, ResolverEnvironment.admits, ← henv']
      -- The fork that is dropped is for no platform the requirement is for.
      cases hmarkers : s₃.evaluate environment extras newFork'.env.markers with
      | false => rfl
      | true =>
          rw [hsupported rfl environment extras hexcluded hmarkers] at hevaluate
          cases hevaluate

/-- Splitting a fork along what is left of a marker. -/
theorem splitFork_ensures {new : List Fork} (hsound : Sound below s)
    (hpython : Interner.Named s pythonMarker)
    (hpackage : Interner.Named s forker.package.marker)
    (hmarker : Interner.Named s forker.marker)
    (hdep : Interner.Named s dep.package.marker) (hfork : fork.Named s) :
    Ensures (Sound below) (splitFork pythonMarker dep (forker, new) fork) s
      fun s' state => state.1.package = forker.package ∧
        Interner.Named s' state.1.marker ∧ ∃ kept, state.2 = new ++ kept ∧
          Replaces s' pythonMarker [fork.env] kept := by
  apply Ensures.bind (forker.fork_ensures hsound hfork.env hmarker)
  intro result s₁ hsound₁ hle₁ hresult
  cases result with
  | none =>
      apply Ensures.pure hsound₁
      exact ⟨rfl, hmarker.mono hle₁, [fork], rfl, Replaces.self (hfork.mono hle₁)⟩
  | some split =>
      have hsplit := hresult split rfl
      obtain ⟨forker', envs⟩ := split
      have hpackage' : Interner.Named s₁ forker'.package.marker := by
        rw [hsplit.package]
        exact hpackage.mono hle₁
      let P (s' : Interner) (done : List ResolverEnvironment) (new' : List Fork) :
          Prop :=
        ∃ kept, new' = new ++ kept ∧ Replaces s' pythonMarker done kept
      have hstart : P s₁ [] new := ⟨[], by simp, Replaces.nil⟩
      have hfold : Ensures (Sound below)
          (envs.foldlM (splitInto pythonMarker dep forker' fork) new) s₁
            fun s' new' => P s' ([] ++ envs) new' := by
        apply Ensures.foldlM hsound₁ hstart
        rintro done env hmem s₂ _ hle₂ hsound₂ ⟨kept, rfl, hkept⟩
        have hle := hle₁.trans hle₂
        apply (splitInto_ensures hsound₂ (hpython.mono hle) (hpackage'.mono hle₂)
          (hdep.mono hle) (hfork.mono hle) ((hsplit.named env hmem).mono hle₂)).weaken
        rintro new' s₃ hsound₃ hle₃ ⟨more, rfl, hmore⟩
        refine ⟨kept ++ more, by simp, ?_⟩
        apply Replaces.append _ hmore
        exact hkept.mono hsound₂.wellFormed hsound₃.wellFormed hle₃ (hpython.mono hle)
      apply Ensures.bind hfold
      rintro new' s₂ hsound₂ hle₂ ⟨kept, rfl, hkept⟩
      apply Ensures.pure hsound₂
      refine ⟨hsplit.package, hsplit.marker.mono hle₂, kept, rfl, ?_⟩
      have hsplit₂ := hsplit.mono hsound₁.wellFormed hsound₂.wellFormed hle₂
        (hfork.env.mono hle₁)
      exact hkept.of_split ((hfork.env.mono hle₁).mono hle₂) hsplit₂

/-- Forking along one dependency. -/
theorem forkDependency_ensures {name : PackageName} {this : Forks}
    (hsound : Sound below s) (hpython : Interner.Named s pythonMarker)
    (henv : Interner.Named s env.markers)
    (hdep : Interner.Named s dep.package.marker)
    (hforks : ∀ fork ∈ this.forks, fork.Named s) :
    Ensures (Sound below) (forkDependency env pythonMarker name this dep) s
      fun s' this' => Replaces s' pythonMarker (this.forks.map Fork.env) this'.forks := by
  have hpossible : Ensures (Sound below) (ForkingPossibility.new env dep) s
      fun _ possibility => ∀ forker, possibility = .possible forker →
        forker = ⟨dep.package, dep.package.marker⟩ := by
    apply Ensures.bind (ResolverEnvironment.includedByMarker_ensures hsound henv hdep)
    intro included s' hsound' _ _
    split
    · exact Ensures.pure hsound' (by simp)
    · split
      · exact Ensures.pure hsound' (by simp)
      · exact Ensures.pure hsound' (by simp)
  apply Ensures.bind hpossible
  intro possibility s₁ hsound₁ hle₁ hforker
  have hforks₁ : ∀ fork ∈ this.forks, fork.Named s₁ :=
    fun fork hmem => (hforks fork hmem).mono hle₁
  cases possibility with
  | dependencyAlwaysExcluded =>
      exact Ensures.pure hsound₁ (Replaces.refl hforks₁)
  | noForkingPossible =>
      apply Ensures.pure hsound₁
      have hadded : ∀ fork ∈ this.forks.map (·.addDependency dep), fork.Named s₁ := by
        intro fork hmem
        obtain ⟨fork', hfork', rfl⟩ := List.mem_map.mp hmem
        exact (hforks₁ fork' hfork').addDependency (hdep.mono hle₁)
      have hreplaces : Replaces s₁ pythonMarker _ _ := Replaces.refl hadded
      rw [List.map_map] at hreplaces
      exact hreplaces
  | possible forker =>
      obtain rfl := hforker forker rfl
      let P (s' : Interner) (done : List Fork) (state : Forker × List Fork) : Prop :=
        state.1.package = dep.package ∧ Interner.Named s' state.1.marker ∧
          Replaces s' pythonMarker (done.map Fork.env) state.2
      have hstart : P s₁ [] (⟨dep.package, dep.package.marker⟩, []) :=
        ⟨rfl, hdep.mono hle₁, Replaces.nil⟩
      have hfold : Ensures (Sound below)
          (this.forks.foldlM (splitFork pythonMarker dep)
            (⟨dep.package, dep.package.marker⟩, [])) s₁
              fun s' state => P s' ([] ++ this.forks) state := by
        apply Ensures.foldlM hsound₁ hstart
        rintro done fork hmem s₂ ⟨forker, new⟩ hle₂ hsound₂ ⟨hpackage, hmarker, hnew⟩
        have hdep₂ := (hdep.mono hle₁).mono hle₂
        have hpackage₂ : Interner.Named s₂ forker.package.marker := by
          rw [hpackage]
          exact hdep₂
        have hpython₂ := (hpython.mono hle₁).mono hle₂
        apply (splitFork_ensures hsound₂ hpython₂ hpackage₂ hmarker hdep₂
          ((hforks₁ fork hmem).mono hle₂)).weaken
        rintro ⟨forker', new'⟩ s₃ hsound₃ hle₃ ⟨hpackage', hmarker', kept, rfl, hkept⟩
        refine ⟨hpackage'.trans hpackage, hmarker', ?_⟩
        rw [List.map_append]
        exact (hnew.mono hsound₂.wellFormed hsound₃.wellFormed hle₃ hpython₂).append
          hkept
      apply Ensures.bind hfold
      rintro ⟨forker, new⟩ s₂ hsound₂ _ ⟨-, -, hnew⟩
      exact Ensures.pure hsound₂ hnew

/-- Adding a dependency without forking. -/
theorem addToForks_ensures {marker : NodeId} {deps : List PubGrubDependency}
    {forks : List Fork} (hsound : Sound below s)
    (hmarker : Interner.Named s marker)
    (hdeps : ∀ dep ∈ deps, Interner.Named s dep.package.marker)
    (hforks : ∀ fork ∈ forks, fork.Named s) :
    Ensures (Sound below) (addToForks marker deps forks) s fun s' forks' =>
      forks'.map Fork.env = forks.map Fork.env ∧ ∀ fork ∈ forks', fork.Named s' := by
  let P (s' : Interner) (_ : List PubGrubDependency) (forks' : List Fork) : Prop :=
    forks'.map Fork.env = forks.map Fork.env ∧ ∀ fork ∈ forks', fork.Named s'
  have hstart : P s [] forks := ⟨rfl, hforks⟩
  apply Ensures.foldlM hsound hstart
  rintro done dep hmem s₁ forks₁ hle₁ hsound₁ ⟨henvs, hforks₁⟩
  have hdep := (hdeps dep hmem).mono hle₁
  let related (s' : Interner) (fork fork' : Fork) : Prop :=
    fork'.env = fork.env ∧ fork'.Named s'
  have hmapM : Ensures (Sound below) (forks₁.mapM (Fork.addIncluded dep marker)) s₁
      fun s' forks' => List.Forall₂ (related s') forks₁ forks' := by
    apply Ensures.mapM (fun fork fork' s s' _ _ hle hrelated =>
      ⟨hrelated.1, hrelated.2.mono hle⟩) hsound₁
    intro fork hfork s₂ hle₂ hsound₂
    have hfork₂ := (hforks₁ fork hfork).mono hle₂
    apply Ensures.bind (ResolverEnvironment.includedByMarker_ensures hsound₂
      hfork₂.env ((hmarker.mono hle₁).mono hle₂))
    intro included s₃ hsound₃ hle₃ _
    cases included with
    | false => exact Ensures.pure hsound₃ ⟨rfl, hfork₂.mono hle₃⟩
    | true =>
        exact Ensures.pure hsound₃ ⟨rfl, (hfork₂.mono hle₃).addDependency
          ((hdep.mono hle₂).mono hle₃)⟩
  apply hmapM.weaken
  intro forks₂ s₂ _ _ hrelated
  constructor
  · rw [← henvs]
    have hsame : List.Forall₂ (fun env env' => env = env') (forks₁.map Fork.env)
        (forks₂.map Fork.env) := by
      rw [List.forall₂_map_left_iff, List.forall₂_map_right_iff]
      exact hrelated.imp fun _ _ h => h.1.symm
    exact (List.forall₂_eq_eq_eq ▸ hsame).symm
  · intro fork' hfork'
    obtain ⟨fork, -, hfork⟩ := exists_of_mem_forall₂ hrelated hfork'
    exact hfork.2

/-- The dependencies on one name. -/
theorem forkName_ensures {pythonRequirement : PythonRequirement} {this : Forks}
    {entry : PackageName × List PubGrubDependency} (hsound : Sound below s)
    (hpython : Interner.Named s pythonMarker)
    (henv : Interner.Named s env.markers) (hnonempty : entry.2 ≠ [])
    (hdeps : ∀ dep ∈ entry.2, Interner.Named s dep.package.marker)
    (hforks : ∀ fork ∈ this.forks, fork.Named s) :
    Ensures (Sound below) (forkName env pythonRequirement pythonMarker this entry) s
      fun s' this' => Replaces s' pythonMarker (this.forks.map Fork.env) this'.forks := by
  apply Ensures.get_bind
  obtain ⟨first, rest, hentry⟩ := List.exists_cons_of_ne_nil hnonempty
  have hfirst := hdeps first (by simp [hentry])
  simp only [hentry]
  rw [hentry] at hdeps
  split
  · apply Ensures.bind (addToForks_ensures hsound hfirst hdeps hforks)
    rintro forks' s₁ hsound₁ hle₁ ⟨henvs, hforks₁⟩
    apply Ensures.pure hsound₁
    rw [← henvs]
    exact Replaces.refl hforks₁
  · let P (s' : Interner) (_ : List PubGrubDependency) (this' : Forks) : Prop :=
      Replaces s' pythonMarker (this.forks.map Fork.env) this'.forks
    have hstart : P s [] this := Replaces.refl hforks
    apply Ensures.foldlM hsound hstart
    intro done dep hmem s₁ this₁ hle₁ hsound₁ hthis₁
    have hpython₁ := hpython.mono hle₁
    apply (forkDependency_ensures hsound₁ hpython₁ (henv.mono hle₁)
      ((hdeps dep hmem).mono hle₁) hthis₁.named).weaken
    intro this₂ s₂ hsound₂ hle₂ hthis₂
    exact (hthis₁.mono hsound₁.wellFormed hsound₂.wellFormed hle₂ hpython₁).trans
      hthis₂

end Forks

end Markers

/-! ## Forking by conflicts -/

namespace Forks

variable {s : Interner} {environment : MarkerEnvironment}
  {extras : ExtrasEnvironment} {active : ConflictItem → Bool} {fork : Fork}
  {set : ConflictSet}

/-- At most one item of the set is active. -/
def AtMostOne (active : ConflictItem → Bool) (set : ConflictSet) : Prop :=
  ∀ item ∈ set.items, ∀ other ∈ set.items, active item = true →
    active other = true → item = other

theorem any_filter (rules : List (Except ConflictItem ConflictItem)) :
    (fork.filter rules).any (fun fork => fork.env.admits s environment extras active) =
      (fork.env.admits s environment extras active &&
        rules.all (ResolverEnvironment.agrees active)) := by
  rw [← ResolverEnvironment.admits_filterByGroup, Fork.filter]
  cases fork.env.filterByGroup rules <;> rfl

theorem all_excludeAll : (excludeAll set).all (ResolverEnvironment.agrees active) =
    set.items.all fun item => !active item := by
  rw [excludeAll, List.all_map]
  rfl

theorem all_allowOne (i : ℕ) :
    (allowOne set i).all (ResolverEnvironment.agrees active) = true ↔
      ∀ j, ∀ hj : j < set.items.length, active set.items[j] = decide (i = j) := by
  rw [allowOne, List.all_map, List.all_eq_true]
  constructor
  · intro hall j hj
    have hagrees := hall (set.items[j], j) (List.mk_mem_zipIdx_iff_getElem?.mpr
      (List.getElem?_eq_getElem hj))
    by_cases heq : i = j
    · simpa [heq, ResolverEnvironment.agrees] using hagrees
    · simpa [heq, ResolverEnvironment.agrees] using hagrees
  · rintro hall ⟨item, j⟩ hmem
    obtain ⟨hj, rfl⟩ := List.getElem?_eq_some_iff.mp
      (List.mk_mem_zipIdx_iff_getElem?.mp hmem)
    have hactive := hall j hj
    by_cases heq : i = j
    · simpa [heq, ResolverEnvironment.agrees] using hactive
    · simpa [heq, ResolverEnvironment.agrees] using hactive

/-- Of the rules for a set, exactly one choice agrees with the active items. -/
theorem count_agreeing (hsingle : AtMostOne active set) :
    ((excludeAll set).all (ResolverEnvironment.agrees active)).toNat +
      (List.range set.items.length).countP (fun i =>
        (allowOne set i).all (ResolverEnvironment.agrees active)) = 1 := by
  by_cases hnone : ∀ item ∈ set.items, active item = false
  · have hall : (excludeAll set).all (ResolverEnvironment.agrees active) = true := by
      rw [all_excludeAll, List.all_eq_true]
      intro item hmem
      rw [hnone item hmem, Bool.not_false]
    have hcount : (List.range set.items.length).countP (fun i =>
        (allowOne set i).all (ResolverEnvironment.agrees active)) = 0 := by
      rw [List.countP_eq_zero]
      intro i hi hagrees
      rw [List.mem_range] at hi
      have hactive := (all_allowOne i).mp hagrees i hi
      rw [hnone _ (List.getElem_mem hi)] at hactive
      simp at hactive
    rw [hall, hcount]
    rfl
  · push Not at hnone
    obtain ⟨item, hmem, hactive⟩ := hnone
    rw [Bool.ne_false_iff] at hactive
    obtain ⟨k, hk, rfl⟩ := List.getElem_of_mem hmem
    have hall : (excludeAll set).all (ResolverEnvironment.agrees active) = false := by
      rw [all_excludeAll, List.all_eq_false]
      exact ⟨set.items[k], hmem, by simp [hactive]⟩
    have hagrees : ∀ i ∈ List.range set.items.length,
        ((allowOne set i).all (ResolverEnvironment.agrees active) = true ↔
          (i == k) = true) := by
      intro i hi
      rw [List.mem_range] at hi
      rw [all_allowOne, beq_iff_eq]
      constructor
      · intro hall
        by_contra hne
        have hk' := hall k hk
        rw [hactive] at hk'
        exact hne (of_decide_eq_true hk'.symm)
      · rintro rfl j hj
        by_cases heq : i = j
        · subst heq
          simpa using hactive
        · rw [decide_eq_false heq, ← Bool.not_eq_true]
          intro hactive'
          have hsame := hsingle _ (List.getElem_mem hj) _ (List.getElem_mem hi)
            hactive' hactive
          exact heq ((List.Nodup.getElem_inj_iff set.nodup).mp hsame).symm
    rw [hall, List.countP_congr hagrees, ← List.count,
      List.count_eq_one_of_mem List.nodup_range (List.mem_range.mpr hk)]
    rfl

/-- Splitting along a set gives every platform and choice of active items to as
many forks as before. -/
theorem count_splitConflict (hsingle : AtMostOne active set) :
    ResolverEnvironment.count s environment extras active
      ((splitConflict set fork).map Fork.env) =
        (fork.env.admits s environment extras active).toNat := by
  unfold splitConflict
  split
  · rw [List.map_append, ResolverEnvironment.count_append]
    have hnone : ResolverEnvironment.count s environment extras active
        ((fork.filter (excludeAll set)).toList.map Fork.env) =
          (fork.env.admits s environment extras active &&
            (excludeAll set).all (ResolverEnvironment.agrees active)).toNat := by
      rw [← any_filter]
      cases fork.filter (excludeAll set) with
      | none => rfl
      | some fork' => exact ResolverEnvironment.count_singleton ..
    have hone : ResolverEnvironment.count s environment extras active
        (((List.range set.items.length).filterMap fun i =>
          fork.filter (allowOne set i)).map Fork.env) =
            (List.range set.items.length).countP (fun i =>
              fork.env.admits s environment extras active &&
                (allowOne set i).all (ResolverEnvironment.agrees active)) := by
      rw [ResolverEnvironment.count, List.countP_map, List.countP_filterMap]
      apply List.countP_congr
      intro i _
      rw [← any_filter]
      cases fork.filter (allowOne set i) <;> rfl
    rw [hnone, hone]
    have hagreeing := count_agreeing hsingle
    cases fork.env.admits s environment extras active with
    | false => simp
    | true => simpa using hagreeing
  · exact ResolverEnvironment.count_singleton ..

theorem count_forkConflicts {this : Forks} (hsingle : AtMostOne active set) :
    ResolverEnvironment.count s environment extras active
      ((this.forkConflicts set).forks.map Fork.env) =
        ResolverEnvironment.count s environment extras active
          (this.forks.map Fork.env) := by
  simp only [forkConflicts]
  induction this.forks with
  | nil => rfl
  | cons fork forks ih =>
      rw [List.flatMap_cons, List.map_append, ResolverEnvironment.count_append,
        count_splitConflict hsingle, ih, List.map_cons, ← List.singleton_append,
        ResolverEnvironment.count_append, ResolverEnvironment.count_singleton]

theorem count_foldl_forkConflicts {conflicts : List ConflictSet}
    (hsingle : ∀ set ∈ conflicts, AtMostOne active set) (this : Forks) :
    ResolverEnvironment.count s environment extras active
      ((conflicts.foldl forkConflicts this).forks.map Fork.env) =
        ResolverEnvironment.count s environment extras active
          (this.forks.map Fork.env) := by
  induction conflicts generalizing this with
  | nil => rfl
  | cons set conflicts ih =>
      rw [List.foldl_cons, ih fun set hmem => hsingle set (List.mem_cons_of_mem _ hmem),
        count_forkConflicts (hsingle set List.mem_cons_self)]

end Forks

/-! ## All forks -/

section New

variable [RangeOps ValidVersion] [RangeOps Text] {s : Interner}
  {below : Variable → Variable → Prop} {pythonMarker : NodeId}
  {env : ResolverEnvironment} {nameToDeps : List (PackageName × List PubGrubDependency)}

/-- Forking along all names. -/
theorem Forks.foldlM_forkName_ensures (pythonRequirement : PythonRequirement)
    (hsound : Sound below s) (hpython : Interner.Named s pythonMarker)
    (henv : Interner.Named s env.markers)
    (hnonempty : ∀ entry ∈ nameToDeps, entry.2 ≠ [])
    (hdeps : ∀ entry ∈ nameToDeps, ∀ dep ∈ entry.2,
      Interner.Named s dep.package.marker) :
    Ensures (Sound below) (nameToDeps.foldlM
      (forkName env pythonRequirement pythonMarker) ⟨[Fork.new env], []⟩) s
        fun s' this => Replaces s' pythonMarker [env] this.forks := by
  let P (s' : Interner) (_ : List (PackageName × List PubGrubDependency))
      (this : Forks) : Prop :=
    Replaces s' pythonMarker [env] this.forks
  have hnew : (Fork.new env).Named s := ⟨henv, by simp [Fork.new]⟩
  have hstart : P s [] ⟨[Fork.new env], []⟩ := Replaces.self hnew
  apply Ensures.foldlM hsound hstart
  intro done entry hmem s₁ this₁ hle₁ hsound₁ hthis₁
  have hpython₁ := hpython.mono hle₁
  apply (forkName_ensures hsound₁ hpython₁ (henv.mono hle₁) (hnonempty entry hmem)
    (fun dep hdep => (hdeps entry hmem dep hdep).mono hle₁) hthis₁.named).weaken
  intro this₂ s₂ hsound₂ hle₂ hthis₂
  exact (hthis₁.mono hsound₁.wellFormed hsound₂.wellFormed hle₂ hpython₁).trans hthis₂

/-- Every platform that the environment and the Python requirement allow, with
every choice of active items that has at most one item of each set, is for
exactly one of the forks. -/
theorem Forks.new_admits_once (hreach : Reachable s)
    (henv : Interner.Named s env.markers)
    (hnonempty : ∀ entry ∈ nameToDeps, entry.2 ≠ [])
    (hdeps : ∀ entry ∈ nameToDeps, ∀ dep ∈ entry.2,
      Interner.Named s dep.package.marker)
    (pythonRequirement : PythonRequirement) (conflicts : List ConflictSet) :
    ∃ pythonMarker s₁ result s',
      pythonRequirement.toMarkerTree.run s = some (pythonMarker, s₁) ∧
      (Forks.new nameToDeps env pythonRequirement conflicts).run s =
        some (result, s') ∧
      ∀ environment extras active, environment.isExcluded = false →
        s'.evaluate environment extras pythonMarker = true →
        env.admits s' environment extras active = true →
        (∀ set ∈ conflicts, AtMostOne active set) →
        (result.forks.countP fun fork =>
          fork.env.admits s' environment extras active) = 1 := by
  have hsound := hreach.sound
  obtain ⟨pythonMarker, s₁, hrunPython, hsound₁, hle₁, hpython⟩ :=
    pythonRequirement.toMarkerTree_ensures hsound
  obtain ⟨this, s', hrunForks, -, -, hreplaces⟩ :=
    Forks.foldlM_forkName_ensures pythonRequirement hsound₁ hpython (henv.mono hle₁)
      hnonempty fun entry hmem dep hdep => (hdeps entry hmem dep hdep).mono hle₁
  refine ⟨pythonMarker, s₁, conflicts.foldl forkConflicts this, s', hrunPython, ?_, ?_⟩
  · rw [Forks.new, StateT.run_bind, hrunPython, Option.bind_eq_bind,
      Option.bind_some]
    dsimp only
    rw [StateT.run_bind, hrunForks]
    rfl
  · intro environment extras active hexcluded hevaluate hadmits hsingle
    have hcount : ResolverEnvironment.count s' environment extras active _ = _ :=
      count_foldl_forkConflicts hsingle this
    rw [hreplaces.count_eq environment extras active hexcluded hevaluate,
      ResolverEnvironment.count_singleton, hadmits, ResolverEnvironment.count,
      List.countP_map] at hcount
    exact hcount

end New

/-! ## Concrete forks -/

theorem isNormalized_foo : isNormalized "foo".toList = some true := by decide

/-- The package `foo`. -/
def foo : PackageName := ⟨"foo".toList, isNormalized_foo⟩

def anyPython : PythonRequirement := ⟨.unbounded, .unbounded⟩

/-- A dependency on `foo` where the marker holds and one where it does not. -/
def fooDependencies (marker : NodeId) : List (PackageName × List PubGrubDependency) :=
  [(foo, [⟨.markerProxy foo marker, none⟩, ⟨.markerProxy foo marker.not, none⟩])]

/-- Linux is for one of the two forks along `extra == 'test'`. -/
theorem Forks.new_admits_once_linux : ∃ (s : Interner) (marker : NodeId)
    (result : Forks) (s' : Interner),
    (Forks.new (fooDependencies marker) (.universal []) anyPython []).run s =
      some (result, s') ∧ (result.forks.countP fun fork =>
        fork.env.admits s' linuxEnvironment (.extras []) fun _ => false) = 1 := by
  have hedges : expressionEdges (.extra (.extra "test".toList) .equal) =
      some (.ok (.extra "test".toList, Edges.fromBool true)) := rfl
  have hsound : Sound Variable.Below Interner.default := sound_default strata_below
  obtain ⟨marker, s, hrun, -, -, hvalid, hrep⟩ :=
    createSimple_ensures hsound (expressionEdges_describes hedges)
  have hmarker : Interner.Named s marker :=
    ⟨hvalid, hrep.allVars_simple (expressionEdges_describes hedges) rfl⟩
  have hreach : Reachable s := .step (.expression (.extra (.extra "test".toList) .equal))
    .default (by simp [Operation.arguments]) (by
      simp only [Operation.perform, Pep508.expression, hedges, StateT.run_map, hrun]
      rfl)
  obtain ⟨pythonMarker, s₁, result, s', hpython, hnew, honce⟩ :=
    @Forks.new_admits_once _ _ s (.universal []) (fooDependencies marker)
      hreach named_true (by simp [fooDependencies]) (by
        simpa [fooDependencies, PubGrubPackage.marker] using
          And.intro hmarker hmarker.not) anyPython []
  obtain ⟨rfl, -⟩ : NodeId.TRUE = pythonMarker ∧ s = s₁ := by
    simpa using Option.some.inj hpython
  exact ⟨s, marker, result, s', hnew, honce linuxEnvironment (.extras []) _
    (by decide +kernel) rfl rfl (by simp)⟩

/-- With a malformed list name in its marker a dependency has two forks, and
neither is for any platform. -/
theorem Forks.new_admits_never_malformed : ∃ (s : Interner) (marker : NodeId)
    (result : Forks) (s' : Interner), Reachable s ∧ s.Valid marker ∧
    (Forks.new (fooDependencies marker) (.universal []) anyPython []).run s =
      some (result, s') ∧ linuxEnvironment.isExcluded = false ∧
      anyPython.toMarkerTree.run s = some (.TRUE, s) ∧
      (ResolverEnvironment.universal []).admits s' linuxEnvironment (.extras [])
        (fun _ => false) = true ∧
      (result.forks.countP fun fork =>
        fork.env.admits s' linuxEnvironment (.extras []) fun _ => false) = 0 := by
  have hrun : ((performAll [.expression (.list (.arbitrary .extras "foo bar".toList)
      .isIn)] Interner.default).bind fun s =>
        ((Forks.new (fooDependencies (.new 0 false)) (.universal []) anyPython []).run
          s).map fun (result, s') => decide (s.Valid (.new 0 false)) &&
            (result.forks.countP fun fork => fork.env.admits s' linuxEnvironment
              (.extras []) fun _ => false) == 0) = some true := by
    decide +kernel
  obtain ⟨s, hperform, hrun⟩ := Option.bind_eq_some_iff.mp hrun
  obtain ⟨⟨result, s'⟩, hnew, hcheck⟩ := Option.map_eq_some_iff.mp hrun
  simp only [Bool.and_eq_true, decide_eq_true_eq, beq_iff_eq] at hcheck
  exact ⟨s, .new 0 false, result, s', Reachable.default.performAll hperform, hcheck.1,
    hnew, by decide +kernel, rfl, rfl, hcheck.2⟩

end Uv.Resolver
