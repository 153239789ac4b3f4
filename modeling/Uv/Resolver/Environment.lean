import Uv.Resolver.Conflicts
import Uv.Resolver.RequiresPython

/-!
# Resolver environments

The part of a universal resolution that one fork is for: a marker, and conflict
items that are known to be active or known not to be.  A fork is narrowed by a
marker or by rules about conflict items.

Only the universal kind is modelled.  In a resolution for one specific marker
environment nothing forks, and narrowing is unreachable.
-/

namespace Uv.Resolver

open Uv.Core Uv.Pep440 Uv.Pep508 Uv.Pep508.Interner

/-! ## Packages and dependencies -/

/-- A package as the solver sees it.  A package never has both an extra and a
group. -/
inductive PubGrubPackage where
  | root (name : Option PackageName)
  | python
  | system (name : PackageName)
  | package (name : PackageName) (extra : Option ExtraName)
      (group : Option GroupName) (marker : NodeId)
      (hsingle : extra = none ∨ group = none)
  | extraProxy (name : PackageName) (extra : ExtraName) (marker : NodeId)
  | groupProxy (name : PackageName) (group : GroupName) (marker : NodeId)
  | markerProxy (name : PackageName) (marker : NodeId)

namespace PubGrubPackage

def nameNoRoot : PubGrubPackage → Option PackageName
  | .root _ => none
  | .python => none
  | .system _ => none
  | .package name _ _ _ _ => some name
  | .extraProxy name _ _ => some name
  | .groupProxy name _ _ => some name
  | .markerProxy name _ => some name

def isRoot : PubGrubPackage → Bool
  | .root _ => true
  | _ => false

def marker : PubGrubPackage → NodeId
  | .root _ => .TRUE
  | .python => .TRUE
  | .system _ => .TRUE
  | .package _ _ _ marker _ => marker
  | .extraProxy _ _ marker => marker
  | .groupProxy _ _ marker => marker
  | .markerProxy _ marker => marker

def extra : PubGrubPackage → Option ExtraName
  | .package _ extra _ _ _ => extra
  | .extraProxy _ extra _ => some extra
  | _ => none

def group : PubGrubPackage → Option GroupName
  | .package _ _ group _ _ => group
  | .groupProxy _ group _ => some group
  | _ => none

/-- The conflict item the package may stand for. -/
def conflictingItem (this : PubGrubPackage) : Option ConflictItem :=
  this.nameNoRoot.map fun package =>
    match this.extra, this.group with
    | some extra, _ => .ofExtra package extra
    | none, some group => .ofGroup package group
    | none, none => ⟨package, .project⟩

end PubGrubPackage

/-- A dependency.  Its version range and URL play no role when forks are made. -/
structure PubGrubDependency where
  package : PubGrubPackage
  parent : Option PackageName

def PubGrubDependency.conflictingItem (dep : PubGrubDependency) :
    Option ConflictItem :=
  dep.package.conflictingItem

/-! ## Environments -/

/-- The universal kind of a resolver environment. -/
structure ResolverEnvironment where
  initialForks : List NodeId
  markers : NodeId
  included : List ConflictItem
  excluded : List ConflictItem

namespace ResolverEnvironment

def universal (initialForks : List NodeId) : ResolverEnvironment :=
  ⟨initialForks, .TRUE, [], []⟩

def includedByGroup (env : ResolverEnvironment) (group : ConflictItem) : Bool :=
  !env.excluded.contains group

/-- One rule of `filter_by_group`: `ok` includes an item, `error` excludes one. -/
def applyRule (env : ResolverEnvironment) :
    Except ConflictItem ConflictItem → Option ResolverEnvironment
  | .ok item =>
      if item ∈ env.excluded then none
      else some { env with included := env.included.insert item }
  | .error item =>
      if item ∈ env.included then none
      else some { env with excluded := env.excluded.insert item }

def filterByGroup (env : ResolverEnvironment)
    (rules : List (Except ConflictItem ConflictItem)) :
    Option ResolverEnvironment :=
  rules.foldlM applyRule env

/-- The environment is one for this platform and these active items. -/
def admits (interner : Interner) (environment : MarkerEnvironment)
    (extras : ExtrasEnvironment) (active : ConflictItem → Bool)
    (env : ResolverEnvironment) : Bool :=
  interner.evaluate environment extras env.markers &&
    (env.included.all active && env.excluded.all fun item => !active item)

section Operations

variable [RangeOps ValidVersion] [RangeOps Text]

/-- False only if the environment is disjoint with the marker. -/
def includedByMarker (env : ResolverEnvironment) (marker : NodeId) :
    InternerM Bool := do
  let disjoint ← isDisjoint env.markers marker
  pure !disjoint

def narrowEnvironment (env : ResolverEnvironment) (rhs : NodeId) :
    InternerM ResolverEnvironment := do
  let markers ← Pep508.and env.markers rhs
  pure { env with markers := markers }

/-- The narrowed environment, unless it is disjoint with the marker. -/
def narrowIfIncluded (env : ResolverEnvironment) (marker : NodeId) :
    InternerM (List ResolverEnvironment) := do
  if !(← isDisjoint env.markers marker) then do
    let env ← env.narrowEnvironment marker
    pure [env]
  else pure []

end Operations

end ResolverEnvironment

/-! ## Forking by a dependency -/

/-- The marker of a dependency, or what of it is left when some forks have been
split already. -/
structure Forker where
  package : PubGrubPackage
  marker : NodeId

inductive ForkingPossibility where
  | possible (forker : Forker)
  | dependencyAlwaysExcluded
  | noForkingPossible

section Operations

variable [RangeOps ValidVersion] [RangeOps Text]

def ForkingPossibility.new (env : ResolverEnvironment) (dep : PubGrubDependency) :
    InternerM ForkingPossibility := do
  let marker := dep.package.marker
  if !(← env.includedByMarker marker) then pure .dependencyAlwaysExcluded
  else if marker.isTrue then pure .noForkingPossible
  else pure (.possible ⟨dep.package, marker⟩)

/-- Split an environment: the part outside the marker, if it is not known to be
empty, and the part inside. -/
def Forker.fork (forker : Forker) (env : ResolverEnvironment) :
    InternerM (Option (Forker × List ResolverEnvironment)) := do
  if !(← env.includedByMarker forker.marker) then pure none
  else
    let outside ← env.narrowIfIncluded forker.marker.not
    let inside ← env.narrowEnvironment forker.marker
    let remainingMarker ← Pep508.and forker.marker env.markers.not
    pure (some (⟨forker.package, remainingMarker⟩, outside ++ [inside]))

def Forker.included (forker : Forker) (env : ResolverEnvironment) :
    InternerM Bool :=
  env.includedByMarker forker.package.marker

end Operations

/-! ## What narrowing and filtering mean -/

namespace ResolverEnvironment

variable {s s' : Interner} {environment : MarkerEnvironment}
  {extras : ExtrasEnvironment} {active : ConflictItem → Bool}
  {env env' : ResolverEnvironment} {marker : NodeId}

/-- The rule says of its item what is the case. -/
def agrees (active : ConflictItem → Bool) : Except ConflictItem ConflictItem → Bool
  | .ok item => active item
  | .error item => !active item

private theorem all_insert (p : ConflictItem → Bool) (items : List ConflictItem)
    (item : ConflictItem) : (items.insert item).all p = (p item && items.all p) := by
  rw [Bool.eq_iff_iff]
  simp only [List.all_eq_true, Bool.and_eq_true, List.mem_insert_iff,
    forall_eq_or_imp]

/-- A rule about an item the environment knows better leaves nothing. -/
theorem admits_applyRule (rule : Except ConflictItem ConflictItem) :
    (env.applyRule rule).any (admits s environment extras active) =
      (env.admits s environment extras active && agrees active rule) := by
  cases rule with
  | ok item =>
      by_cases hmem : item ∈ env.excluded
      · rw [applyRule, if_pos hmem, Option.any_none]
        by_cases hactive : active item = true
        · have hall : (env.excluded.all fun item => !active item) = false := by
            rw [List.all_eq_false]
            exact ⟨item, hmem, by simp [hactive]⟩
          simp only [admits, hall, Bool.and_false, Bool.false_and]
        · simp only [agrees, hactive, Bool.and_false]
      · rw [applyRule, if_neg hmem, Option.any_some]
        simp only [admits, agrees, all_insert]
        ac_rfl
  | error item =>
      by_cases hmem : item ∈ env.included
      · rw [applyRule, if_pos hmem, Option.any_none]
        by_cases hactive : active item = true
        · simp only [agrees, hactive, Bool.not_true, Bool.and_false]
        · have hall : env.included.all active = false := by
            rw [List.all_eq_false]
            exact ⟨item, hmem, hactive⟩
          simp only [admits, hall, Bool.and_false, Bool.false_and]
      · rw [applyRule, if_neg hmem, Option.any_some]
        simp only [admits, agrees, all_insert (fun item => !active item)]
        ac_rfl

theorem admits_filterByGroup (rules : List (Except ConflictItem ConflictItem)) :
    (env.filterByGroup rules).any (admits s environment extras active) =
      (env.admits s environment extras active && rules.all (agrees active)) := by
  unfold filterByGroup
  induction rules generalizing env with
  | nil =>
      rw [List.foldlM_nil, List.all_nil, Bool.and_true]
      exact Option.any_some
  | cons rule rules ih =>
      rw [List.foldlM_cons, List.all_cons, ← Bool.and_assoc, ← admits_applyRule]
      cases env.applyRule rule with
      | none => rfl
      | some env' => exact ih

section Ensures

variable [RangeOps ValidVersion] [RangeOps Text]
  {below : Variable → Variable → Prop}

theorem includedByMarker_ensures (hsound : Sound below s)
    (henv : Named s env.markers) (hmarker : Named s marker) :
    Ensures (Sound below) (env.includedByMarker marker) s fun s' answer =>
      answer = false → ∀ environment extras, environment.isExcluded = false →
        s'.evaluate environment extras env.markers = true →
          s'.evaluate environment extras marker = false := by
  apply Ensures.bind (isDisjoint_evaluate hsound henv hmarker)
  intro disjoint s' hsound' _ hdisjoint
  apply Ensures.pure hsound'
  intro hanswer
  exact hdisjoint (by simpa using hanswer)

/-- What narrowing by a marker promises. -/
structure Narrowed (s : Interner) (env : ResolverEnvironment) (rhs : NodeId)
    (env' : ResolverEnvironment) : Prop where
  named : Named s env'.markers
  admits_eq : ∀ environment extras active, environment.isExcluded = false →
    env'.admits s environment extras active =
      (env.admits s environment extras active && s.evaluate environment extras rhs)

theorem narrowEnvironment_ensures (hsound : Sound below s)
    (henv : Named s env.markers) (hmarker : Named s marker) :
    Ensures (Sound below) (env.narrowEnvironment marker) s
      fun s' env' => Narrowed s' env marker env' := by
  apply Ensures.bind (and_ensures hsound henv.valid hmarker.valid)
  intro markers s' hsound' hle hconj
  apply Ensures.pure hsound'
  have henv' := henv.mono hle
  have hmarker' := hmarker.mono hle
  refine ⟨hconj.named henv' hmarker', ?_⟩
  intro environment extras active hexcluded
  simp only [admits, hconj.evaluate hsound'.wellFormed henv' hmarker' hexcluded]
  ac_rfl

end Ensures

theorem admits_mono (hwf : s.WellFormed) (hwf' : s'.WellFormed) (hle : s ≤ s')
    (henv : Named s env.markers) :
    env.admits s' environment extras active = env.admits s environment extras active := by
  simp only [admits, henv.evaluate_mono hwf hwf' hle]

/-- The number of the environments that are for a platform and active items. -/
abbrev count (s : Interner) (environment : MarkerEnvironment)
    (extras : ExtrasEnvironment) (active : ConflictItem → Bool)
    (envs : List ResolverEnvironment) : ℕ :=
  envs.countP (admits s environment extras active)

theorem count_mono (hwf : s.WellFormed) (hwf' : s'.WellFormed) (hle : s ≤ s')
    {envs : List ResolverEnvironment} (henvs : ∀ env ∈ envs, Named s env.markers)
    (environment : MarkerEnvironment) (extras : ExtrasEnvironment)
    (active : ConflictItem → Bool) :
    count s' environment extras active envs = count s environment extras active envs := by
  apply List.countP_congr
  intro env hmem
  rw [admits_mono hwf hwf' hle (henvs env hmem)]

theorem count_append (environment : MarkerEnvironment) (extras : ExtrasEnvironment)
    (active : ConflictItem → Bool) (envs envs' : List ResolverEnvironment) :
    count s environment extras active (envs ++ envs') =
      count s environment extras active envs +
        count s environment extras active envs' :=
  List.countP_append

theorem count_singleton (environment : MarkerEnvironment)
    (extras : ExtrasEnvironment) (active : ConflictItem → Bool)
    (env : ResolverEnvironment) :
    count s environment extras active [env] =
      (env.admits s environment extras active).toNat := by
  rw [count, List.countP_singleton]
  cases env.admits s environment extras active <;> rfl

end ResolverEnvironment

/-! ## What splitting means -/

section Split

variable [RangeOps ValidVersion] [RangeOps Text] {s : Interner}
  {below : Variable → Variable → Prop} {forker : Forker} {env : ResolverEnvironment}

/-- The environments share out what one environment is for. -/
structure Forker.Split (s : Interner) (forker : Forker) (env : ResolverEnvironment)
    (result : Forker × List ResolverEnvironment) : Prop where
  package : result.1.package = forker.package
  marker : Named s result.1.marker
  named : ∀ env' ∈ result.2, Named s env'.markers
  count_eq : ∀ environment extras active, environment.isExcluded = false →
    ResolverEnvironment.count s environment extras active result.2 =
      (env.admits s environment extras active).toNat

omit [RangeOps ValidVersion] [RangeOps Text] in
theorem Forker.Split.mono {s' : Interner} {split : Forker × List ResolverEnvironment}
    (hwf : s.WellFormed) (hwf' : s'.WellFormed) (hle : s ≤ s')
    (henv : Named s env.markers) (hsplit : forker.Split s env split) :
    forker.Split s' env split := by
  refine ⟨hsplit.package, hsplit.marker.mono hle,
    fun env' hmem => (hsplit.named env' hmem).mono hle, ?_⟩
  intro environment extras active hexcluded
  rw [ResolverEnvironment.count_mono hwf hwf' hle hsplit.named,
    ResolverEnvironment.admits_mono hwf hwf' hle henv]
  exact hsplit.count_eq environment extras active hexcluded

theorem ResolverEnvironment.narrowIfIncluded_ensures {marker : NodeId}
    (hsound : Sound below s) (henv : Named s env.markers)
    (hmarker : Named s marker) :
    Ensures (Sound below) (env.narrowIfIncluded marker) s
      fun s' envs => (∀ env' ∈ envs, Named s' env'.markers) ∧
        ∀ environment extras active, environment.isExcluded = false →
          count s' environment extras active envs =
            (env.admits s' environment extras active &&
              s'.evaluate environment extras marker).toNat := by
  apply Ensures.bind (isDisjoint_evaluate hsound henv hmarker)
  intro disjoint s₁ hsound₁ hle₁ hdisjoint
  cases disjoint with
  | true =>
      apply Ensures.pure hsound₁
      refine ⟨by simp, ?_⟩
      intro environment extras active hexcluded
      have hnone : (env.admits s₁ environment extras active &&
          s₁.evaluate environment extras marker) = false := by
        cases hevaluate : s₁.evaluate environment extras env.markers with
        | false => simp [admits, hevaluate]
        | true => simp [hdisjoint rfl environment extras hexcluded hevaluate]
      simp [hnone]
  | false =>
      apply Ensures.bind (narrowEnvironment_ensures hsound₁ (henv.mono hle₁)
        (hmarker.mono hle₁))
      intro env' s₂ hsound₂ _ hnarrowed
      apply Ensures.pure hsound₂
      refine ⟨by simpa using hnarrowed.named, ?_⟩
      intro environment extras active hexcluded
      rw [count_singleton, hnarrowed.admits_eq environment extras active hexcluded]

theorem Forker.fork_ensures (hsound : Sound below s) (henv : Named s env.markers)
    (hmarker : Named s forker.marker) :
    Ensures (Sound below) (forker.fork env) s fun s' result =>
      ∀ split, result = some split → Split s' forker env split := by
  apply Ensures.bind (ResolverEnvironment.includedByMarker_ensures hsound henv hmarker)
  intro included s₁ hsound₁ hle₁ _
  cases included with
  | false => exact Ensures.pure hsound₁ (by simp)
  | true =>
      have henv₁ := henv.mono hle₁
      have hmarker₁ := hmarker.mono hle₁
      apply Ensures.bind (env.narrowIfIncluded_ensures hsound₁ henv₁ hmarker₁.not)
      rintro outside s₂ hsound₂ hle₂ ⟨houtside, hcountOutside⟩
      have henv₂ := henv₁.mono hle₂
      have hmarker₂ := hmarker₁.mono hle₂
      apply Ensures.bind (ResolverEnvironment.narrowEnvironment_ensures hsound₂ henv₂
        hmarker₂)
      intro inside s₃ hsound₃ hle₃ hinside
      have henv₃ := henv₂.mono hle₃
      have hmarker₃ := hmarker₂.mono hle₃
      apply Ensures.bind (and_ensures hsound₃ hmarker₃.valid henv₃.not.valid)
      intro remaining s₄ hsound₄ hle₄ hremaining
      apply Ensures.pure hsound₄
      rintro _ ⟨⟩
      have hwf₂ := hsound₂.wellFormed
      have hwf₃ := hsound₃.wellFormed
      have hwf₄ := hsound₄.wellFormed
      refine ⟨rfl, hremaining.named (hmarker₃.mono hle₄) (henv₃.not.mono hle₄), ?_, ?_⟩
      · intro env' hmem
        rcases List.mem_append.mp hmem with hmem | hmem
        · exact ((houtside env' hmem).mono hle₃).mono hle₄
        · rw [List.mem_singleton.mp hmem]
          exact hinside.named.mono hle₄
      · intro environment extras active hexcluded
        have hcount₄ := ResolverEnvironment.count_mono hwf₂ hwf₄ (hle₃.trans hle₄)
          houtside environment extras active
        rw [ResolverEnvironment.count_append, ResolverEnvironment.count_singleton,
          hcount₄,
          hcountOutside environment extras active hexcluded,
          hmarker₂.evaluate_not hwf₂,
          ResolverEnvironment.admits_mono hwf₃ hwf₄ hle₄ hinside.named,
          hinside.admits_eq environment extras active hexcluded,
          hmarker₂.evaluate_mono hwf₂ hwf₃ hle₃,
          ResolverEnvironment.admits_mono hwf₂ hwf₃ hle₃ henv₂,
          ResolverEnvironment.admits_mono hwf₂ hwf₄ (hle₃.trans hle₄) henv₂]
        cases env.admits s₂ environment extras active <;>
          cases s₂.evaluate environment extras forker.marker <;> rfl

end Split

end Uv.Resolver
