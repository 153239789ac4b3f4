import Uv.Resolver.FromResolution
import Uv.Resolver.LockCanonical

/-!
# The edges in a lock

What the dependency lists of a locked package require in an environment is what the edges of
its nodes require there.  Simplified markers that are the same node agree where the Python
requirement holds, so edges can be merged; the pairs of one list are the union of the pairs
of its edges in any order.
-/

set_option linter.unusedSectionVars false

namespace Uv.Resolver

open Uv.Core Uv.Pep440 Uv.Pep508 Uv.Pep508.Interner

section Edges

variable {Name Version Location Dist Error Id : Type} [LinearOrder Name] [LinearOrder Version]
  [LinearOrder Location] [DecidableEq Id] [RangeOps ValidVersion] [RangeOps Text]
  {s s' : Interner} {requiresPython : RequiresPythonRange}
  {env : MarkerEnvironment} {extras : ExtrasEnvironment}

/-- The Python version of the environment satisfies the requirement. -/
def RequiresPythonRange.Supports (requiresPython : RequiresPythonRange)
    (env : MarkerEnvironment) : Prop :=
  (Ranges.fromRangeBounds requiresPython.lower requiresPython.upper).contains
    env.pythonFullVersion = true

/-! ## What a dependency requires -/

namespace Dependency

/-- An active dependency requires its package and every extra of it. -/
def Requires (s : Interner) (env : MarkerEnvironment) (extras : ExtrasEnvironment)
    (pair : Id × Option Name) (dep : Dependency Name Id NodeId) : Prop :=
  s.evaluate env extras dep.complexifiedMarker = true ∧ dep.packageId = pair.1 ∧
    ∀ extra ∈ pair.2, extra ∈ dep.extra

/-- Both markers of the dependency mean the same for supported Python versions. -/
structure Good (requiresPython : RequiresPythonRange) (s : Interner)
    (dep : Dependency Name Id NodeId) : Prop where
  simplified : Named s dep.simplifiedMarker
  complexified : Named s dep.complexifiedMarker
  evaluate : ∀ env extras, requiresPython.Supports env →
    s.evaluate env extras dep.complexifiedMarker = s.evaluate env extras dep.simplifiedMarker

theorem Good.mono {dep : Dependency Name Id NodeId} (hgood : dep.Good requiresPython s)
    (hsound : Sound Variable.Below s) (hsound' : Sound Variable.Below s') (hle : s ≤ s') :
    dep.Good requiresPython s' where
  simplified := hgood.simplified.mono hle
  complexified := hgood.complexified.mono hle
  evaluate env extras hpython := by
    rw [hgood.simplified.evaluate_mono hsound.wellFormed hsound'.wellFormed hle,
      hgood.complexified.evaluate_mono hsound.wellFormed hsound'.wellFormed hle]
    exact hgood.evaluate env extras hpython

theorem Good.requires_mono {dep : Dependency Name Id NodeId} (hgood : dep.Good requiresPython s)
    (hsound : Sound Variable.Below s) (hsound' : Sound Variable.Below s') (hle : s ≤ s')
    (pair : Id × Option Name) :
    dep.Requires s' env extras pair ↔ dep.Requires s env extras pair := by
  rw [Requires, Requires,
    hgood.complexified.evaluate_mono hsound.wellFormed hsound'.wellFormed hle]

/-- A new dependency has the marker it is made from, as far as it matters. -/
theorem new_ensures {packageId : Id} {extra : Finset Name} {marker : NodeId}
    (hsound : Sound Variable.Below s) (hmarker : Named s marker) :
    Ensures (Sound Variable.Below) (Dependency.new requiresPython packageId extra marker) s
      fun s' dep => dep.packageId = packageId ∧ dep.extra = extra ∧ dep.Good requiresPython s' ∧
        ∀ env extras, requiresPython.Supports env →
          s'.evaluate env extras dep.complexifiedMarker = s.evaluate env extras marker := by
  rw [Dependency.new]
  apply (simplifyPythonVersions_ensures hsound hmarker.valid _ _).bind
  intro simplified s₁ hsound₁ hle₁ hsimplified
  apply (complexifyPythonVersions_ensures hsound₁ hsimplified.valid _ _
    fun _ => admits_below hsound₁.wellFormed hsimplified.valid).bind
  intro complexified s₂ hsound₂ hle₂ hcomplexified
  have hwf := hsound.wellFormed
  have hwf₁ := hsound₁.wellFormed
  have hwf₂ := hsound₂.wellFormed
  have hmarker₁ := hmarker.mono hle₁
  have hnamed : Named s₁ simplified := ⟨hsimplified.valid, hsimplified.vars _ hmarker₁.wellNamed⟩
  have hnamed₂ := hnamed.mono hle₂
  have hnamed' : Named s₂ complexified :=
    ⟨hcomplexified.valid, hcomplexified.vars _ rfl hnamed₂.wellNamed⟩
  have hcomplexify : ∀ env extras, requiresPython.Supports env →
      s₂.evaluate env extras complexified = s₂.evaluate env extras simplified := by
    intro env extras hpython
    rw [Bool.eq_iff_iff, evaluate_iff_holds hwf₂ hnamed'.valid hnamed'.wellNamed,
      evaluate_iff_holds hwf₂ hnamed₂.valid hnamed₂.wellNamed, hcomplexified.holds_iff]
    exact and_iff_left (inPython_valuation_iff.mpr hpython)
  have hsimplify : ∀ env extras, requiresPython.Supports env →
      s₁.evaluate env extras simplified = s₁.evaluate env extras marker := by
    intro env extras hpython
    rw [Bool.eq_iff_iff, evaluate_iff_holds hwf₁ hnamed.valid hnamed.wellNamed,
      evaluate_iff_holds hwf₁ hmarker₁.valid hmarker₁.wellNamed]
    exact hsimplified.holds_iff _ (inPython_valuation_iff.mpr hpython)
  apply Ensures.pure hsound₂
  refine ⟨rfl, rfl, ⟨hnamed₂, hnamed', hcomplexify⟩, ?_⟩
  intro env extras hpython
  calc s₂.evaluate env extras complexified
      = s₂.evaluate env extras simplified := hcomplexify env extras hpython
    _ = s₁.evaluate env extras simplified := hnamed.evaluate_mono hwf₁ hwf₂ hle₂
    _ = s₁.evaluate env extras marker := hsimplify env extras hpython
    _ = s.evaluate env extras marker := hmarker.evaluate_mono hwf hwf₁ hle₁

end Dependency

/-! ## Lists of dependencies -/

/-- Some dependency requires the pair. -/
def Required (s : Interner) (env : MarkerEnvironment) (extras : ExtrasEnvironment)
    (deps : List (Dependency Name Id NodeId)) (pair : Id × Option Name) : Prop :=
  ∃ dep ∈ deps, dep.Requires s env extras pair

theorem required_mono {deps : List (Dependency Name Id NodeId)}
    (hgood : ∀ dep ∈ deps, dep.Good requiresPython s) (hsound : Sound Variable.Below s)
    (hsound' : Sound Variable.Below s') (hle : s ≤ s') (pair : Id × Option Name) :
    Required s' env extras deps pair ↔ Required s env extras deps pair := by
  constructor
  · rintro ⟨dep, hdep, hrequires⟩
    exact ⟨dep, hdep, ((hgood dep hdep).requires_mono hsound hsound' hle pair).mp hrequires⟩
  · rintro ⟨dep, hdep, hrequires⟩
    exact ⟨dep, hdep, ((hgood dep hdep).requires_mono hsound hsound' hle pair).mpr hrequires⟩

theorem good_addTo {newDep : Dependency Name Id NodeId} {deps : List (Dependency Name Id NodeId)}
    (hdeps : ∀ dep ∈ deps, dep.Good requiresPython s) (hnew : newDep.Good requiresPython s) :
    ∀ dep ∈ addTo newDep deps, dep.Good requiresPython s := by
  induction deps with
  | nil => simpa [addTo] using hnew
  | cons existing rest ih =>
      rw [List.forall_mem_cons] at hdeps
      rw [addTo]
      split
      · rw [List.forall_mem_cons]
        exact ⟨⟨hdeps.1.simplified, hdeps.1.complexified, hdeps.1.evaluate⟩, hdeps.2⟩
      · rw [List.forall_mem_cons]
        exact ⟨hdeps.1, ih hdeps.2⟩

/-- A dependency that is merged into another one is still required. -/
theorem required_addTo {newDep : Dependency Name Id NodeId}
    {deps : List (Dependency Name Id NodeId)}
    (hdeps : ∀ dep ∈ deps, dep.Good requiresPython s) (hnew : newDep.Good requiresPython s)
    (hpython : requiresPython.Supports env) (pair : Id × Option Name) :
    Required s env extras (addTo newDep deps) pair ↔
      Required s env extras deps pair ∨ newDep.Requires s env extras pair := by
  induction deps with
  | nil => simp [addTo, Required]
  | cons existing rest ih =>
      rw [List.forall_mem_cons] at hdeps
      have hcons : ∀ dep deps, Required s env extras (dep :: deps) pair ↔
          dep.Requires s env extras pair ∨ Required s env extras deps pair := by
        intro dep deps
        simp [Required]
      rw [addTo]
      split
      · rename_i hsame
        have hevaluate : s.evaluate env extras newDep.complexifiedMarker =
            s.evaluate env extras existing.complexifiedMarker := by
          rw [hdeps.1.evaluate env extras hpython, hnew.evaluate env extras hpython, hsame.2]
        have hmerged : Dependency.Requires s env extras pair
            { existing with extra := existing.extra ∪ newDep.extra } ↔
              existing.Requires s env extras pair ∨ newDep.Requires s env extras pair := by
          simp only [Dependency.Requires, hevaluate, ← hsame.1, ← and_or_left]
          cases pair.2 with
          | none => simp
          | some extra => simp [Finset.mem_union]
        rw [hcons, hcons, hmerged]
        tauto
      · rw [hcons, hcons, ih hdeps.2]
        tauto

/-! ## Slots -/

section Upsert

variable {α : Type}

theorem lookup_orderedInsert {key : Name} {value : List α} {entries : List (Name × List α)}
    (hkey : entries.lookup key = none) (key' : Name) :
    (entries.orderedInsert (fun a b => a.1 ≤ b.1) (key, value)).lookup key' =
      if key' = key then some value else entries.lookup key' := by
  induction entries with
  | nil =>
      rw [List.orderedInsert_nil, List.lookup_cons]
      by_cases heq : key' = key
      · simp [heq]
      · simp [heq, beq_false_of_ne heq]
  | cons entry rest ih =>
      have hne : key ≠ entry.1 := by
        intro heq
        rw [List.lookup_cons, heq, beq_self_eq_true] at hkey
        cases hkey
      have hrest : rest.lookup key = none := by
        rwa [List.lookup_cons, beq_false_of_ne hne] at hkey
      rw [List.orderedInsert_cons]
      split
      · rw [List.lookup_cons]
        by_cases heq : key' = key
        · simp [heq]
        · simp [heq, beq_false_of_ne heq]
      · rw [List.lookup_cons, List.lookup_cons, ih hrest]
        by_cases heq : key' = key
        · simp [heq, beq_false_of_ne hne]
        · simp [heq]

theorem lookup_map_entry {key : Name} {f : List α → List α} {entries : List (Name × List α)}
    (key' : Name) :
    (entries.map fun entry => if entry.1 = key then (entry.1, f entry.2) else entry).lookup key' =
      (entries.lookup key').map fun value => if key' = key then f value else value := by
  induction entries with
  | nil => rfl
  | cons entry rest ih =>
      rw [List.map_cons, List.lookup_cons, List.lookup_cons, ih]
      by_cases hkey : key' = entry.1
      · by_cases hentry : entry.1 = key <;> simp [hkey, hentry]
      · have hne : (key' == entry.1) = false := beq_false_of_ne hkey
        by_cases hentry : entry.1 = key
        · rw [if_pos hentry]
          simp [hne]
        · rw [if_neg hentry]
          simp [hne]

/-- The list under the key is changed, and no other. -/
theorem lookup_upsert {key : Name} {f : List α → List α} {entries : List (Name × List α)}
    (key' : Name) : ((upsert key f entries).lookup key').getD [] =
      if key' = key then f ((entries.lookup key').getD []) else (entries.lookup key').getD [] := by
  rw [upsert]
  cases hlookup : entries.lookup key with
  | some value =>
      rw [lookup_map_entry]
      by_cases heq : key' = key
      · simp [heq, hlookup]
      · cases entries.lookup key' <;> simp [heq]
  | none =>
      rw [lookup_orderedInsert hlookup]
      by_cases heq : key' = key
      · simp [heq, hlookup]
      · simp [heq]

end Upsert

namespace Package

theorem id_add (slot : Slot Name) (package : Package Name Id NodeId)
    (dep : Dependency Name Id NodeId) : (package.add slot dep).id = package.id := by
  cases slot <;> rfl

theorem list_add (slot slot' : Slot Name) (package : Package Name Id NodeId)
    (dep : Dependency Name Id NodeId) : (package.add slot dep).list slot' =
      if slot' = slot then addTo dep (package.list slot') else package.list slot' := by
  cases slot <;> cases slot' <;>
    simp [add, list, addDependency, addOptionalDependency, addGroupDependency, lookup_upsert]

end Package

/-! ## What edges require -/

namespace LockM

variable {α : Type} {value : α}

theorem intern_ok {action : InternerM α}
    (hrun : (intern action : LockM Name Version Location Error α).run s = .ok (value, s')) :
    action.run s = some (value, s') := by
  change intern action s = _ at hrun
  rw [intern] at hrun
  cases haction : action.run s with
  | none => simp [haction] at hrun
  | some result => simpa [haction] using hrun

theorem result_ok {outcome : Except (FromResolutionError Name Version Location Error) α}
    (hrun : (result outcome).run s = .ok (value, s')) : outcome = .ok value ∧ s' = s := by
  cases outcome with
  | error error =>
      change Except.error error = _ at hrun
      cases hrun
  | ok value' =>
      change Except.ok (value', s) = _ at hrun
      simp only [Except.ok.injEq, Prod.mk.injEq] at hrun
      exact ⟨by rw [hrun.1], hrun.2.symm⟩

theorem result_mapError_ok {Cause : Type}
    {error : Cause → FromResolutionError Name Version Location Error} {outcome : Except Cause α}
    (hrun : (result (outcome.mapError error) :
      LockM Name Version Location Error α).run s = .ok (value, s')) :
    outcome = .ok value ∧ s' = s := by
  obtain ⟨houtcome, hs⟩ := result_ok hrun
  cases outcome with
  | error error => simp [Except.mapError] at houtcome
  | ok value' => exact ⟨by simpa [Except.mapError] using houtcome, hs⟩

end LockM

/-- A state that some state has grown to. -/
structure Later (s₀ s : Interner) : Prop where
  sound : Sound Variable.Below s
  le : s₀ ≤ s

variable {s₀ : Interner} {dists : Distributions Name Version Location Dist Error}
  {graph : ResolverOutput Name Version Dist}

theorem Later.trans (hlater : Later s₀ s) (hlater' : Later s s') :
    Later s₀ s' :=
  ⟨hlater'.sound, hlater.le.trans hlater'.le⟩

namespace ResolverOutput

/-- An edge with its target: if its marker holds, it requires the target and its extra. -/
def EdgeRequires (dists : Distributions Name Version Location Dist Error) (s : Interner)
    (env : MarkerEnvironment) (extras : ExtrasEnvironment)
    (pair : PackageId Name Version Location × Option Name)
    (edge : ResolutionGraphNode Name Version Dist × NodeId) : Prop :=
  ∃ target, edge.1 = .dist target ∧ s.evaluate env extras edge.2 = true ∧
    dists.packageId target = .ok pair.1 ∧ ∀ extra ∈ pair.2, target.extra = some extra

/-- The markers of the graph have no malformed list names. -/
structure Named (graph : ResolverOutput Name Version Dist) (s : Interner) : Prop where
  edges : ∀ edge ∈ graph.edges, Interner.Named s edge.2.2
  forks : ∀ marker ∈ graph.forkMarkers, Interner.Named s marker
  dists : ∀ dist, .dist dist ∈ graph.nodes → Interner.Named s dist.marker

theorem Named.outgoing (hnamed : graph.Named s) {i : ℕ}
    {edge : ResolutionGraphNode Name Version Dist × NodeId} (hedge : edge ∈ graph.outgoing i) :
    Interner.Named s edge.2 := by
  obtain ⟨original, horiginal, hmap⟩ := List.mem_filterMap.mp hedge
  obtain ⟨node, _, rfl⟩ := Option.map_eq_some_iff.mp hmap
  rw [List.mem_reverse, List.mem_filter] at horiginal
  exact hnamed.edges original horiginal.1

/-- What locking the edges of a node does to the package. -/
structure Extended (graph : ResolverOutput Name Version Dist)
    (dists : Distributions Name Version Location Dist Error) (s₀ s s' : Interner)
    (slot : Slot Name) (edges : List (ResolutionGraphNode Name Version Dist × NodeId))
    (package package' : Package Name (PackageId Name Version Location) NodeId) : Prop where
  later : Later s s'
  id : package'.id = package.id
  others : ∀ slot' ≠ slot, package'.list slot' = package.list slot'
  good : ∀ dep ∈ package'.list slot, dep.Good graph.requiresPython s'
  required : ∀ env extras pair, graph.requiresPython.Supports env →
    (Required s' env extras (package'.list slot) pair ↔
      Required s env extras (package.list slot) pair ∨
        ∃ edge ∈ edges, EdgeRequires dists s₀ env extras pair edge)

theorem fromAnnotatedDist_ok {target : AnnotatedDist Name Version Dist} {marker : NodeId}
    {dep : Dependency Name (PackageId Name Version Location) NodeId}
    (hsound₀ : Sound Variable.Below s₀) (hlater : Later s₀ s) (hmarker : Interner.Named s₀ marker)
    (hrun : (Dependency.fromAnnotatedDist dists requiresPython target marker).run s =
      .ok (dep, s')) :
    Later s s' ∧ dep.Good requiresPython s' ∧
      ∀ env extras pair, requiresPython.Supports env →
        (dep.Requires s' env extras pair ↔
          EdgeRequires dists s₀ env extras pair (.dist target, marker)) := by
  rw [Dependency.fromAnnotatedDist] at hrun
  obtain ⟨packageId, s₁, hresult, hnewRun⟩ := run_bind_eq_ok hrun
  obtain ⟨hid, rfl⟩ := LockM.result_mapError_ok hresult
  have hnew : Ensures _ (Dependency.new requiresPython packageId target.extra.toFinset marker) _ _ :=
    Dependency.new_ensures hlater.sound (hmarker.mono hlater.le)
  obtain ⟨hsound, hle, hpackageId, hextra, hgood, hevaluate⟩ := hnew.of_run (LockM.intern_ok hnewRun)
  refine ⟨⟨hsound, hle⟩, hgood, ?_⟩
  intro env extras pair hpython
  rw [Dependency.Requires, hevaluate env extras hpython, hpackageId, hextra,
    hmarker.evaluate_mono hsound₀.wellFormed hlater.sound.wellFormed hlater.le]
  constructor
  · rintro ⟨hactive, rfl, hextras⟩
    exact ⟨target, rfl, hactive, hid, fun extra hmem => by simpa using hextras extra hmem⟩
  · rintro ⟨target', htarget, hactive, hid', hextras⟩
    cases htarget
    cases hid.symm.trans hid'
    exact ⟨hactive, rfl, fun extra hmem => by simpa using hextras extra hmem⟩

theorem addEdges_ok {i : ℕ} {slot : Slot Name}
    {package package' : Package Name (PackageId Name Version Location) NodeId}
    (hsound₀ : Sound Variable.Below s₀) (hnamed : graph.Named s₀) (hlater : Later s₀ s)
    (hgood : ∀ dep ∈ package.list slot, dep.Good graph.requiresPython s)
    (hrun : (graph.addEdges dists i slot package).run s = .ok (package', s')) :
    graph.Extended dists s₀ s s' slot (graph.outgoing i) package package' := by
  apply run_foldlM_ok (P := fun edges s' package' =>
    graph.Extended dists s₀ s s' slot edges package package') hrun
  · exact ⟨⟨hlater.sound, le_rfl⟩, rfl, fun _ _ => rfl, hgood, by simp⟩
  · intro done edge s₁ package₁ s₂ package₂ hedge hdone hstep
    have hmarker := hnamed.outgoing hedge
    obtain ⟨node, marker⟩ := edge
    cases node with
    | root =>
        cases hstep
        refine ⟨hdone.later, hdone.id, hdone.others, hdone.good, ?_⟩
        intro env extras pair hpython
        rw [hdone.required env extras pair hpython]
        simp [EdgeRequires]
    | dist target =>
        obtain ⟨dep, s₃, hdep, hstep⟩ := run_bind_eq_ok hstep
        cases hstep
        obtain ⟨hlater', hgood', hrequires⟩ :=
          fromAnnotatedDist_ok hsound₀ (hlater.trans hdone.later) hmarker hdep
        have hgoods : ∀ dep ∈ package₁.list slot, dep.Good graph.requiresPython s₂ :=
          fun dep hmem => (hdone.good dep hmem).mono hdone.later.sound hlater'.sound hlater'.le
        constructor
        case later => exact hdone.later.trans hlater'
        case id => rw [Package.id_add, hdone.id]
        case others =>
          intro slot' hne
          rw [Package.list_add, if_neg hne, hdone.others slot' hne]
        case good =>
          rw [Package.list_add, if_pos rfl]
          exact good_addTo hgoods hgood'
        case required =>
          intro env extras pair hpython
          rw [Package.list_add, if_pos rfl, required_addTo hgoods hgood' hpython,
            required_mono hdone.good hdone.later.sound hlater'.sound hlater'.le,
            hdone.required env extras pair hpython, hrequires env extras pair hpython]
          simp only [List.mem_append, List.mem_singleton, or_and_right, exists_or, exists_eq_left,
            or_assoc]

/-! ## All nodes -/

/-- The slot that the edges of a node go to. -/
def Feeds (dist : AnnotatedDist Name Version Dist) : Slot Name → Prop
  | .base => dist.isBase = true
  | .extra extra => dist.extra = some extra
  | .group group => dist.group = some group

/-- What the edges of the nodes that feed the slot of a package require. -/
def FedRequires (graph : ResolverOutput Name Version Dist)
    (dists : Distributions Name Version Location Dist Error) (s₀ : Interner)
    (fed : Slot Name → ℕ → AnnotatedDist Name Version Dist → Prop) (env : MarkerEnvironment)
    (extras : ExtrasEnvironment) (id : PackageId Name Version Location) (slot : Slot Name)
    (pair : PackageId Name Version Location × Option Name) : Prop :=
  ∃ i dist, fed slot i dist ∧ dists.packageId dist = .ok id ∧
    ∃ edge ∈ graph.outgoing i, EdgeRequires dists s₀ env extras pair edge

/-- The packages when the nodes fed so far are locked. -/
structure Locked (graph : ResolverOutput Name Version Dist)
    (dists : Distributions Name Version Location Dist Error) (s₀ : Interner)
    (fed : Slot Name → ℕ → AnnotatedDist Name Version Dist → Prop) (s : Interner)
    (packages : List (Package Name (PackageId Name Version Location) NodeId)) : Prop where
  later : Later s₀ s
  ids : (packages.map (·.id)).Nodup
  present : ∀ slot i dist, fed slot i dist →
    ∃ package ∈ packages, dists.packageId dist = .ok package.id
  good : ∀ package ∈ packages, ∀ slot, ∀ dep ∈ package.list slot,
    dep.Good graph.requiresPython s
  required : ∀ package ∈ packages, ∀ slot env extras pair, graph.requiresPython.Supports env →
    (Required s env extras (package.list slot) pair ↔
      graph.FedRequires dists s₀ fed env extras package.id slot pair)

variable {fed fed' : Slot Name → ℕ → AnnotatedDist Name Version Dist → Prop}
  {packages packages' : List (Package Name (PackageId Name Version Location) NodeId)}

theorem Locked.congr (hlocked : graph.Locked dists s₀ fed s packages)
    (hfed : ∀ slot i dist, fed slot i dist ↔ fed' slot i dist) :
    graph.Locked dists s₀ fed' s packages := by
  have heq : fed = fed' := by
    funext slot i dist
    exact propext (hfed slot i dist)
  rwa [← heq]

theorem Locked.grow (hlocked : graph.Locked dists s₀ fed s packages) (hlater : Later s s') :
    graph.Locked dists s₀ fed s' packages where
  later := hlocked.later.trans hlater
  ids := hlocked.ids
  present := hlocked.present
  good package hpackage slot dep hdep :=
    (hlocked.good package hpackage slot dep hdep).mono hlocked.later.sound hlater.sound hlater.le
  required package hpackage slot env extras pair hpython := by
    rw [required_mono (hlocked.good package hpackage slot) hlocked.later.sound hlater.sound
      hlater.le]
    exact hlocked.required package hpackage slot env extras pair hpython

/-- One package is replaced by one with the edges of a node, or added. -/
theorem Locked.replace {slot : Slot Name} {i : ℕ} {dist : AnnotatedDist Name Version Dist}
    {package package' : Package Name (PackageId Name Version Location) NodeId}
    (hlocked : graph.Locked dists s₀ fed s packages)
    (hextended : graph.Extended dists s₀ s s' slot (graph.outgoing i) package package')
    (hid : dists.packageId dist = .ok package.id)
    (hgood : ∀ slot, ∀ dep ∈ package.list slot, dep.Good graph.requiresPython s)
    (hrequired : ∀ slot env extras pair, graph.requiresPython.Supports env →
      (Required s env extras (package.list slot) pair ↔
        graph.FedRequires dists s₀ fed env extras package.id slot pair))
    (hids : (packages'.map (·.id)).Nodup) (hmem : package' ∈ packages')
    (hold : ∀ other ∈ packages', other = package' ∨ other ∈ packages ∧ other.id ≠ package.id)
    (hkept : ∀ other ∈ packages, ∃ other' ∈ packages', other'.id = other.id) :
    graph.Locked dists s₀ (fun slot' j dist' => fed slot' j dist' ∨
      slot' = slot ∧ j = i ∧ dist' = dist) s' packages' := by
  have hgrown := hlocked.grow hextended.later
  have hsplit : ∀ env extras id slot' pair, graph.FedRequires dists s₀
      (fun slot' j dist' => fed slot' j dist' ∨ slot' = slot ∧ j = i ∧ dist' = dist) env extras
        id slot' pair ↔ graph.FedRequires dists s₀ fed env extras id slot' pair ∨
          slot' = slot ∧ package.id = id ∧
            ∃ edge ∈ graph.outgoing i, EdgeRequires dists s₀ env extras pair edge := by
    intro env extras id slot' pair
    constructor
    · rintro ⟨j, dist', hfed | ⟨rfl, rfl, rfl⟩, hid', hedge⟩
      · exact Or.inl ⟨j, dist', hfed, hid', hedge⟩
      · exact Or.inr ⟨rfl, Except.ok.inj (hid.symm.trans hid'), hedge⟩
    · rintro (⟨j, dist', hfed, hid', hedge⟩ | ⟨rfl, rfl, hedge⟩)
      · exact ⟨j, dist', Or.inl hfed, hid', hedge⟩
      · exact ⟨i, dist, Or.inr ⟨rfl, rfl, rfl⟩, hid, hedge⟩
  constructor
  case later => exact hgrown.later
  case ids => exact hids
  case present =>
    rintro slot' j dist' (hfed | ⟨rfl, rfl, rfl⟩)
    · obtain ⟨other, hother, hid'⟩ := hlocked.present slot' j dist' hfed
      obtain ⟨other', hother', heq⟩ := hkept other hother
      exact ⟨other', hother', by rw [heq]; exact hid'⟩
    · exact ⟨package', hmem, by rw [hextended.id]; exact hid⟩
  case good =>
    intro other hother slot' dep hdep
    rcases hold other hother with rfl | ⟨hother, _⟩
    · by_cases hslot : slot' = slot
      · rw [hslot] at hdep
        exact hextended.good dep hdep
      · rw [hextended.others slot' hslot] at hdep
        exact (hgood slot' dep hdep).mono hlocked.later.sound hextended.later.sound
          hextended.later.le
    · exact hgrown.good other hother slot' dep hdep
  case required =>
    intro other hother slot' env extras pair hpython
    rw [hsplit]
    rcases hold other hother with rfl | ⟨hother, hne⟩
    · rw [hextended.id]
      by_cases hslot : slot' = slot
      · rw [hslot, hextended.required env extras pair hpython,
          hrequired slot env extras pair hpython]
        simp
      · rw [hextended.others slot' hslot, required_mono (hgood slot') hlocked.later.sound
          hextended.later.sound hextended.later.le, hrequired slot' env extras pair hpython]
        simp [hslot]
    · rw [hgrown.required other hother slot' env extras pair hpython]
      simp [Ne.symm hne]

theorem forkMarkersOf_later {dist : AnnotatedDist Name Version Dist} {markers : List NodeId}
    (hnamed : graph.Named s₀) (hdist : .dist dist ∈ graph.nodes) (hlater : Later s₀ s)
    (hrun : (graph.forkMarkersOf dist).run s = some (markers, s')) : Later s s' := by
  have hensures : Ensures (Sound Variable.Below) (graph.forkMarkersOf dist) s
      fun _ _ => True := by
    rw [forkMarkersOf]
    split
    · exact Ensures.pure hlater.sound trivial
    · let P (_ : Interner) (_ _ : List NodeId) : Prop := True
      have hstart : P s [] [] := trivial
      apply Ensures.foldlM hlater.sound hstart
      intro done marker hmarker s₁ kept hle hsound _
      have hle' := hlater.le.trans hle
      apply (isDisjoint_ensures hsound ((hnamed.forks marker hmarker).valid.mono hle')
        ((hnamed.dists dist hdist).valid.mono hle')).bind
      intro disjoint s₂ hsound₂ _ _
      exact Ensures.pure hsound₂ trivial
  obtain ⟨hsound, hle, _⟩ := hensures.of_run hrun
  exact ⟨hsound, hle⟩

theorem lockBase_ok {i : ℕ} {node : ResolutionGraphNode Name Version Dist}
    (hsound₀ : Sound Variable.Below s₀) (hnamed : graph.Named s₀) (hnode : node ∈ graph.nodes)
    (hlocked : graph.Locked dists s₀ fed s packages)
    (hrun : (graph.lockBase dists packages (node, i)).run s = .ok (packages', s')) :
    graph.Locked dists s₀ (fun slot j dist => fed slot j dist ∨
      slot = .base ∧ j = i ∧ node = .dist dist ∧ Feeds dist .base) s' packages' := by
  cases node with
  | root =>
      cases hrun
      apply hlocked.congr
      simp
  | dist dist =>
      rw [lockBase] at hrun
      by_cases hbase : dist.isBase = true
      · simp only [hbase, if_true] at hrun
        obtain ⟨forkMarkers, s₁, hforks, hrest⟩ := run_bind_eq_ok hrun
        obtain ⟨id, s₂, hresult, hrest₁⟩ := run_bind_eq_ok hrest
        obtain ⟨hid, rfl⟩ := LockM.result_mapError_ok hresult
        obtain ⟨wheelHashes, s₃, hwheels, hrest₂⟩ := run_bind_eq_ok hrest₁
        obtain ⟨_, rfl⟩ := LockM.result_mapError_ok hwheels
        obtain ⟨package, s₄, hedges, hinsert⟩ := run_bind_eq_ok hrest₂
        have hlater := forkMarkersOf_later hnamed hnode hlocked.later (LockM.intern_ok hforks)
        have hlocked := hlocked.grow hlater
        have hempty : ∀ slot, (⟨id, wheelHashes, forkMarkers, [], [], []⟩ :
            Package Name (PackageId Name Version Location) NodeId).list slot = [] := by
          intro slot
          cases slot <;> rfl
        have hextended := addEdges_ok hsound₀ hnamed hlocked.later (by simp [hempty]) hedges
        split at hinsert
        · obtain ⟨herror, _⟩ := LockM.result_ok hinsert
          cases herror
        · rename_i hnew
          cases hinsert
          have hperm := List.perm_orderedInsert
            (fun a b : Package Name (PackageId Name Version Location) NodeId => a.id ≤ b.id)
            package packages
          have hpackage : package.id = id := hextended.id
          apply (hlocked.replace hextended hid (by simp [hempty]) ?_ ?_ ?_ ?_
            ?_).congr
          · intro slot j dist'
            simp only [ResolutionGraphNode.dist.injEq, Feeds]
            constructor
            · rintro (hfed | ⟨rfl, rfl, rfl⟩)
              · exact Or.inl hfed
              · exact Or.inr ⟨rfl, rfl, rfl, hbase⟩
            · rintro (hfed | ⟨rfl, rfl, rfl, _⟩)
              · exact Or.inl hfed
              · exact Or.inr ⟨rfl, rfl, rfl⟩
          · intro slot env extras pair _
            rw [hempty]
            constructor
            · rintro ⟨dep, hdep, _⟩
              cases hdep
            · rintro ⟨j, dist', hfed, hid', _⟩
              obtain ⟨other, hother, hid''⟩ := hlocked.present slot j dist' hfed
              cases hid'.symm.trans hid''
              exact absurd (List.mem_map_of_mem hother) hnew
          · rw [(hperm.map (·.id)).nodup_iff, List.map_cons, List.nodup_cons, hpackage]
            exact ⟨hnew, hlocked.ids⟩
          · exact hperm.mem_iff.mpr List.mem_cons_self
          · intro other hother
            rcases List.mem_cons.mp (hperm.mem_iff.mp hother) with rfl | hother
            · exact Or.inl rfl
            · have hne : other.id ≠ id := by
                intro heq
                apply hnew
                rw [← heq]
                exact List.mem_map_of_mem hother
              exact Or.inr ⟨hother, hne⟩
          · intro other hother
            exact ⟨other, hperm.mem_iff.mpr (List.mem_cons_of_mem _ hother), rfl⟩
      · simp only [hbase, Bool.false_eq_true, if_false] at hrun
        cases hrun
        apply hlocked.congr
        intro slot j dist'
        simp only [ResolutionGraphNode.dist.injEq, Feeds]
        constructor
        · exact Or.inl
        · rintro (hfed | ⟨_, _, rfl, hbase'⟩)
          · exact hfed
          · exact absurd hbase' hbase

theorem extendPackage_ok {i : ℕ} {slot : Slot Name} {dist : AnnotatedDist Name Version Dist}
    {error : PackageId Name Version Location → FromResolutionError Name Version Location Error}
    (hsound₀ : Sound Variable.Below s₀) (hnamed : graph.Named s₀)
    (hlocked : graph.Locked dists s₀ fed s packages)
    (hrun : (graph.extendPackage dists slot error dist i packages).run s =
      .ok (packages', s')) :
    graph.Locked dists s₀ (fun slot' j dist' => fed slot' j dist' ∨
      slot' = slot ∧ j = i ∧ dist' = dist) s' packages' := by
  rw [extendPackage] at hrun
  obtain ⟨id, s₁, hresult, hrest⟩ := run_bind_eq_ok hrun
  obtain ⟨hid, rfl⟩ := LockM.result_mapError_ok hresult
  cases hfind : packages.find? fun package => package.id = id with
  | none =>
      rw [hfind] at hrest
      obtain ⟨herror, _⟩ := LockM.result_ok hrest
      cases herror
  | some package =>
      rw [hfind] at hrest
      obtain ⟨package', s₂, hedges, hpure⟩ := run_bind_eq_ok hrest
      cases hpure
      have hmem := List.mem_of_find?_eq_some hfind
      have hpackage : package.id = id := by simpa using List.find?_some hfind
      have hextended := addEdges_ok hsound₀ hnamed hlocked.later
        (hlocked.good package hmem slot) hedges
      have hid' : package'.id = id := hextended.id.trans hpackage
      have hids : (packages.map fun other => if other.id = id then package' else other).map
          (·.id) = packages.map (·.id) := by
        rw [List.map_map]
        apply List.map_congr_left
        intro other _
        by_cases heq : other.id = id <;> simp [heq, hid']
      apply hlocked.replace hextended (hpackage ▸ hid) (hlocked.good package hmem)
        (hlocked.required package hmem)
      · rw [hids]
        exact hlocked.ids
      · exact List.mem_map.mpr ⟨package, hmem, by rw [if_pos hpackage]⟩
      · intro other hother
        obtain ⟨original, horiginal, rfl⟩ := List.mem_map.mp hother
        by_cases heq : original.id = id
        · exact Or.inl (by rw [if_pos heq])
        · rw [if_neg heq]
          exact Or.inr ⟨horiginal, by rwa [hpackage]⟩
      · intro other hother
        refine ⟨_, List.mem_map_of_mem hother, ?_⟩
        by_cases heq : other.id = id <;> simp [heq, hid']

theorem lockExtra_ok {i : ℕ} {node : ResolutionGraphNode Name Version Dist}
    (hsound₀ : Sound Variable.Below s₀) (hnamed : graph.Named s₀)
    (hlocked : graph.Locked dists s₀ fed s packages)
    (hrun : (graph.lockExtra dists packages (node, i)).run s = .ok (packages', s')) :
    graph.Locked dists s₀ (fun slot j dist => fed slot j dist ∨
      slot ≠ .base ∧ j = i ∧ node = .dist dist ∧ Feeds dist slot) s' packages' := by
  cases node with
  | root =>
      cases hrun
      apply hlocked.congr
      simp
  | dist dist =>
      rw [lockExtra] at hrun
      obtain ⟨packages₁, s₁, hextra, hgroup⟩ := run_bind_eq_ok hrun
      have hlocked₁ : graph.Locked dists s₀ (fun slot j dist' => fed slot j dist' ∨
          (∃ extra, slot = .extra extra ∧ dist.extra = some extra) ∧ j = i ∧ dist' = dist)
          s₁ packages₁ := by
        cases hextras : dist.extra with
        | none =>
            rw [lockExtraOf, hextras] at hextra
            cases hextra
            apply hlocked.congr
            simp
        | some extra =>
            rw [lockExtraOf, hextras] at hextra
            apply (extendPackage_ok hsound₀ hnamed hlocked hextra).congr
            simp
      have hlocked₂ : graph.Locked dists s₀ (fun slot j dist' => (fed slot j dist' ∨
          (∃ extra, slot = .extra extra ∧ dist.extra = some extra) ∧ j = i ∧ dist' = dist) ∨
            (∃ group, slot = .group group ∧ dist.group = some group) ∧ j = i ∧ dist' = dist)
          s' packages' := by
        cases hgroups : dist.group with
        | none =>
            rw [lockGroupOf, hgroups] at hgroup
            cases hgroup
            apply hlocked₁.congr
            simp
        | some group =>
            rw [lockGroupOf, hgroups] at hgroup
            apply (extendPackage_ok hsound₀ hnamed hlocked₁ hgroup).congr
            simp
      apply hlocked₂.congr
      intro slot j dist'
      cases slot with
      | base => simp
      | extra extra =>
          simp only [Slot.extra.injEq, reduceCtorEq, false_and, exists_false, or_false, ne_eq,
            not_false_eq_true, true_and, ResolutionGraphNode.dist.injEq, Feeds]
          grind
      | group group =>
          simp only [Slot.group.injEq, reduceCtorEq, false_and, exists_false, or_false, ne_eq,
            not_false_eq_true, true_and, ResolutionGraphNode.dist.injEq, Feeds]
          grind

/-- The nodes of the graph, by the slots they feed. -/
def Fed (graph : ResolverOutput Name Version Dist) (slot : Slot Name) (i : ℕ)
    (dist : AnnotatedDist Name Version Dist) : Prop :=
  graph.nodes[i]? = some (.dist dist) ∧ Feeds dist slot

/-- The packages before `Lock::new` have what the edges of the graph require. -/
theorem toLock_locked {packages₁ packages₂ :
      List (Package Name (PackageId Name Version Location) NodeId)}
    {s₁ s₂ : Interner} (hsound : Sound Variable.Below s) (hnamed : graph.Named s)
    (hbase : (graph.nodes.zipIdx.foldlM (graph.lockBase dists) []).run s = .ok (packages₁, s₁))
    (hextra : (graph.nodes.zipIdx.foldlM (graph.lockExtra dists) packages₁).run s₁ =
      .ok (packages₂, s₂)) : graph.Locked dists s graph.Fed s₂ packages₂ := by
  have hmem : ∀ node i, (node, i) ∈ graph.nodes.zipIdx ↔ graph.nodes[i]? = some node := by
    intro node i
    simp [List.mem_zipIdx_iff_getElem?]
  have hlocked₁ := run_foldlM_ok (P := fun done s' packages => graph.Locked dists s
    (fun slot i dist => slot = .base ∧ (.dist dist, i) ∈ done ∧ Feeds dist .base) s' packages)
    hbase ⟨⟨hsound, le_rfl⟩, by simp, by simp, by simp, by simp⟩
    (by
      intro done x s₃ packages s₄ packages' hx hdone hstep
      obtain ⟨node, i⟩ := x
      have hnode := List.mem_of_getElem? ((hmem node i).mp hx)
      apply (lockBase_ok hsound hnamed hnode hdone hstep).congr
      intro slot j dist
      simp only [List.mem_append, List.mem_singleton, Prod.mk.injEq]
      grind)
  have hlocked₂ := run_foldlM_ok (P := fun done s' packages => graph.Locked dists s
    (fun slot i dist => (slot = .base ∧ (.dist dist, i) ∈ graph.nodes.zipIdx ∧ Feeds dist .base) ∨
      slot ≠ .base ∧ (.dist dist, i) ∈ done ∧ Feeds dist slot) s' packages)
    hextra (hlocked₁.congr (by simp))
    (by
      intro done x s₃ packages s₄ packages' hx hdone hstep
      obtain ⟨node, i⟩ := x
      apply (lockExtra_ok hsound hnamed hdone hstep).congr
      intro slot j dist
      simp only [List.mem_append, List.mem_singleton, Prod.mk.injEq]
      grind)
  apply hlocked₂.congr
  intro slot i dist
  rw [Fed, ← hmem]
  by_cases hslot : slot = .base <;> simp [hslot]

/-- The resolver makes every edge to an extra together with an edge to the package itself. -/
def HasBaseEdges (graph : ResolverOutput Name Version Dist)
    (dists : Distributions Name Version Location Dist Error) (s : Interner) : Prop :=
  ∀ i, ∀ edge ∈ graph.outgoing i, ∀ target, edge.1 = .dist target →
    ∃ base ∈ graph.outgoing i, ∃ target', base.1 = .dist target' ∧ target'.extra = none ∧
      dists.packageId target' = dists.packageId target ∧
        ∀ env extras, s.evaluate env extras edge.2 = true → s.evaluate env extras base.2 = true

/-- The pairs of the edges of the nodes for a slot of a package that hold in an
environment. -/
def EdgePair (graph : ResolverOutput Name Version Dist)
    (dists : Distributions Name Version Location Dist Error) (s : Interner)
    (env : MarkerEnvironment) (extras : ExtrasEnvironment)
    (id : PackageId Name Version Location) (slot : Slot Name)
    (pair : PackageId Name Version Location × Option Name) : Prop :=
  ∃ i dist, graph.Fed slot i dist ∧ dists.packageId dist = .ok id ∧
    ∃ edge ∈ graph.outgoing i, ∃ target, edge.1 = .dist target ∧
      s.evaluate env extras edge.2 = true ∧ dists.packageId target = .ok pair.1 ∧
        target.extra = pair.2

theorem fedRequires_iff (hbase : graph.HasBaseEdges dists s)
    {id : PackageId Name Version Location} {slot : Slot Name}
    {pair : PackageId Name Version Location × Option Name} :
    graph.FedRequires dists s graph.Fed env extras id slot pair ↔
      graph.EdgePair dists s env extras id slot pair := by
  constructor
  · rintro ⟨i, dist, hfed, hid, edge, hedge, target, htarget, hactive, hpair, hextra⟩
    obtain ⟨pairId, pairExtra⟩ := pair
    cases pairExtra with
    | none =>
        obtain ⟨base, hbase, target', htarget', hnone, hsame, hholds⟩ :=
          hbase i edge hedge target htarget
        exact ⟨i, dist, hfed, hid, base, hbase, target', htarget', hholds env extras hactive,
          hsame.trans hpair, hnone⟩
    | some extra =>
        exact ⟨i, dist, hfed, hid, edge, hedge, target, htarget, hactive, hpair,
          hextra extra rfl⟩
  · rintro ⟨i, dist, hfed, hid, edge, hedge, target, htarget, hactive, hpair, hextra⟩
    refine ⟨i, dist, hfed, hid, edge, hedge, target, htarget, hactive, hpair, ?_⟩
    intro extra hmem
    rw [hextra]
    exact hmem

/-! ## `Lock::new` -/

section New

variable [LinearOrder NodeId]

omit [RangeOps ValidVersion] [RangeOps Text] in
theorem list_mapLists {f : List (Dependency Name Id NodeId) → List (Dependency Name Id NodeId)}
    (hf : f [] = []) (package : Package Name Id NodeId) (slot : Slot Name) :
    (package.mapLists f).list slot = f (package.list slot) := by
  have hlookup : ∀ (entries : List (Name × List (Dependency Name Id NodeId))) key,
      ((entries.map fun entry => (entry.1, f entry.2)).lookup key).getD [] =
        f ((entries.lookup key).getD []) := by
    intro entries key
    induction entries with
    | nil => simp [hf]
    | cons entry rest ih =>
        rw [List.map_cons, List.lookup_cons, List.lookup_cons]
        cases key == entry.1
        · exact ih
        · rfl
  cases slot with
  | base => rfl
  | extra extra => exact hlookup package.optionalDependencies extra
  | group group => exact hlookup package.dependencyGroups group

/-- Pruning takes exactly the pairs with a missing extra. -/
theorem required_prune
    {packages : List (Package Name (PackageId Name Version Location) NodeId)}
    {deps : List (Dependency Name (PackageId Name Version Location) NodeId)}
    {pair : PackageId Name Version Location × Option Name} :
    Required s env extras (deps.map (Lock.pruneDependency packages)) pair ↔
      Required s env extras deps pair ∧
        ∀ extra ∈ pair.2, Lock.providesExtra packages pair.1 extra = true := by
  constructor
  · rintro ⟨pruned, hpruned, hactive, hid, hextra⟩
    obtain ⟨dep, hdep, rfl⟩ := List.mem_map.mp hpruned
    have hmem : ∀ extra ∈ pair.2, extra ∈ dep.extra ∧
        Lock.providesExtra packages dep.packageId extra = true := by
      intro extra hpair
      exact Finset.mem_filter.mp (hextra extra hpair)
    have hid' : dep.packageId = pair.1 := hid
    constructor
    · exact ⟨dep, hdep, hactive, hid', fun extra hpair => (hmem extra hpair).1⟩
    · intro extra hpair
      rw [← hid']
      exact (hmem extra hpair).2
  · rintro ⟨⟨dep, hdep, hactive, hid, hextra⟩, hprovides⟩
    refine ⟨_, List.mem_map_of_mem hdep, hactive, hid, ?_⟩
    intro extra hpair
    apply Finset.mem_filter.mpr
    exact ⟨hextra extra hpair, hid ▸ hprovides extra hpair⟩

theorem ids_new {packages : List (Package Name (PackageId Name Version Location) NodeId)}
    {lock : Lock Name (PackageId Name Version Location) NodeId}
    (hnew : Lock.new packages = .ok lock) :
    (packages.map (·.id)).Perm (lock.packages.map (·.id)) := by
  obtain ⟨_, _, _, rfl⟩ := Lock.new_eq_ok_iff.mp hnew
  rw [Lock.prunePackages_ids]
  have hperm := (Lock.perm_sortPackages (packages.map (·.mapLists Lock.sort))).symm.map (·.id)
  rwa [List.map_map] at hperm

/-- A package of a new lock has the lists of one of the packages before, less the pairs with
a missing extra. -/
theorem required_new
    {packages : List (Package Name (PackageId Name Version Location) NodeId)}
    {lock : Lock Name (PackageId Name Version Location) NodeId}
    (hnew : Lock.new packages = .ok lock)
    {package : Package Name (PackageId Name Version Location) NodeId}
    (hpackage : package ∈ lock.packages) :
    ∃ original ∈ packages, original.id = package.id ∧
      ∀ s env extras slot pair, Required s env extras (package.list slot) pair ↔
        Required s env extras (original.list slot) pair ∧
          ∀ extra ∈ pair.2, Lock.providesExtra lock.packages pair.1 extra = true := by
  obtain ⟨_, _, _, rfl⟩ := Lock.new_eq_ok_iff.mp hnew
  obtain ⟨sorted, hsorted, rfl⟩ := List.mem_map.mp hpackage
  rw [Lock.sortedPackages, (Lock.perm_sortPackages _).mem_iff] at hsorted
  obtain ⟨original, horiginal, rfl⟩ := List.mem_map.mp hsorted
  refine ⟨original, horiginal, rfl, ?_⟩
  intro s env extras slot pair
  rw [list_mapLists (List.map_nil), list_mapLists rfl, required_prune]
  simp only [Lock.providesExtra_prune, Required, Lock.mem_sort]

/-- The dependency lists of a package in the lock require, in an environment that is
supported, what the edges of the nodes of the package require there, except for extras that
no package provides. -/
theorem toLock_required_iff {lock : Lock Name (PackageId Name Version Location) NodeId}
    (hreach : Reachable s) (hnamed : graph.Named s) (hbase : graph.HasBaseEdges dists s)
    (hlock : (graph.toLock dists).run s = .ok (lock, s')) :
    (lock.packages.map (·.id)).Nodup ∧
    (∀ slot i dist, graph.Fed slot i dist →
      ∃ package ∈ lock.packages, dists.packageId dist = .ok package.id) ∧
    ∀ package ∈ lock.packages, ∀ slot env extras pair, graph.requiresPython.Supports env →
      (Required s' env extras (package.list slot) pair ↔
        graph.EdgePair dists s env extras package.id slot pair ∧
          ∀ extra ∈ pair.2, Lock.providesExtra lock.packages pair.1 extra = true) := by
  rw [toLock] at hlock
  obtain ⟨packages₁, s₁, hbases, hrest⟩ := run_bind_eq_ok hlock
  obtain ⟨packages₂, s₂, hextras, hresult⟩ := run_bind_eq_ok hrest
  obtain ⟨hnew, rfl⟩ := LockM.result_mapError_ok hresult
  have hlocked := toLock_locked hreach.sound hnamed hbases hextras
  have hids := ids_new hnew
  refine ⟨hids.nodup_iff.mp hlocked.ids, ?_, ?_⟩
  · intro slot i dist hfed
    obtain ⟨package, hpackage, hid⟩ := hlocked.present slot i dist hfed
    obtain ⟨locked, hmem, heq⟩ := List.mem_map.mp
      (hids.mem_iff.mp (List.mem_map.mpr ⟨package, hpackage, rfl⟩))
    exact ⟨locked, hmem, hid.trans (congrArg Except.ok heq.symm)⟩
  · intro package hpackage slot env extras pair hsupports
    obtain ⟨original, horiginal, hid, hrequired⟩ := required_new hnew hpackage
    rw [hrequired, hlocked.required original horiginal slot env extras pair hsupports, hid,
      fedRequires_iff hbase]

end New

end ResolverOutput

end Edges

/-! ## Concrete graphs -/

section Concrete

namespace ResolverOutput

/-- Every distribution is its own location in a registry. -/
private def registry : Distributions ℕ ℕ ℕ ℕ Empty where
  source dist := .ok ⟨.registry, dist⟩
  wheelHashes _ := .ok []

private abbrev rawOrder : LinearOrder NodeId :=
  LinearOrder.lift' NodeId.raw fun x y heq => by
    cases x
    cases y
    exact congrArg NodeId.mk heq

/-- The packages 0 and 1, an extra of the latter, and one edge of package 0. -/
private def oneEdge (target : ℕ) (marker : NodeId) : ResolverOutput ℕ ℕ ℕ where
  nodes := [.dist ⟨0, 0, 0, none, none, false, .TRUE⟩, .dist ⟨1, 1, 0, none, none, false, .TRUE⟩,
    .dist ⟨1, 1, 0, some 0, none, false, .TRUE⟩]
  edges := [(0, target, marker)]
  requiresPython := ⟨.included (.new [3, 8]), .unbounded⟩
  forkMarkers := []

private def locked (target : ℕ) (marker : NodeId) (s : Interner) :
    Except (FromResolutionError ℕ ℕ ℕ Empty) (Lock ℕ (PackageId ℕ ℕ ℕ) NodeId × Interner) :=
  letI := rawOrder
  ((oneEdge target marker).toLock registry).run s

private def packageId (name : ℕ) : PackageId ℕ ℕ ℕ :=
  ⟨name, some 0, .registry, name⟩

/-- Whether package 0 requires package 1 in the lock. -/
private def lockedRequires (target : ℕ) (marker : NodeId) (s : Interner) : Bool :=
  match locked target marker s with
  | .ok (lock, s') => lock.packages.any fun package => decide (package.id = packageId 0) &&
      package.dependencies.any fun dep =>
        s'.evaluate linuxEnvironment (.extras []) dep.complexifiedMarker &&
          decide (dep.packageId = packageId 1)
  | .error _ => false

private theorem required_of_lockedRequires {target : ℕ} {marker : NodeId} {s : Interner}
    (hrequires : lockedRequires target marker s = true) :
    ∃ lock s', locked target marker s = .ok (lock, s') ∧ ∃ package ∈ lock.packages,
      package.id = packageId 0 ∧ Required s' linuxEnvironment (.extras []) (package.list .base)
        (packageId 1, none) := by
  rw [lockedRequires] at hrequires
  cases hlocked : locked target marker s with
  | error error => simp [hlocked] at hrequires
  | ok result =>
      obtain ⟨lock, s'⟩ := result
      simp only [hlocked, List.any_eq_true, Bool.and_eq_true, decide_eq_true_eq] at hrequires
      obtain ⟨package, hpackage, hid, dep, hdep, hactive, hdepId⟩ := hrequires
      exact ⟨lock, s', rfl, package, hpackage, hid, dep, hdep, hactive, hdepId, by simp⟩

private theorem outgoing_oneEdge {target i : ℕ} {marker : NodeId}
    {edge : ResolutionGraphNode ℕ ℕ ℕ × NodeId} (hedge : edge ∈ (oneEdge target marker).outgoing i) :
    (oneEdge target marker).nodes[target]? = some edge.1 ∧ edge.2 = marker := by
  obtain ⟨original, horiginal, hmap⟩ := List.mem_filterMap.mp hedge
  rw [List.mem_reverse, List.mem_filter] at horiginal
  have hsame : original = (0, target, marker) := by simpa [oneEdge] using horiginal.1
  obtain ⟨node, hnode, rfl⟩ := Option.map_eq_some_iff.mp hmap
  subst hsame
  exact ⟨hnode, rfl⟩

private theorem supports_linux {target : ℕ} {marker : NodeId} :
    (oneEdge target marker).requiresPython.Supports linuxEnvironment := by
  change (Ranges.fromRangeBounds (.included (.new [3, 8])) .unbounded).contains
    linuxEnvironment.pythonFullVersion = true
  decide +kernel

private theorem named_oneEdge {target : ℕ} {s : Interner} : (oneEdge target .TRUE).Named s where
  edges := by simp [oneEdge, named_true]
  forks := by simp [oneEdge]
  dists := by simp [oneEdge, named_true]

private theorem hasBaseEdges_oneEdge {marker : NodeId} {s : Interner} :
    (oneEdge 1 marker).HasBaseEdges registry s := by
  intro i edge hedge target htarget
  have hnode := (outgoing_oneEdge hedge).1
  rw [htarget] at hnode
  cases hnode
  exact ⟨edge, hedge, _, htarget, rfl, rfl, fun _ _ => id⟩

/-- `'foo bar' not in extras or python_full_version >= '3.8'`, with a malformed name. -/
private def fooBar : List Operation :=
  [.expression (.list (.arbitrary .extras "foo bar".toList) .isIn),
    .complexifyPythonVersions (.new 0 false) (.included (.new [3, 8])) .unbounded,
    .or (.new 2 true) (.new 0 true)]

/-- Simplifying a marker takes a malformed name out of it, and an edge to an extra alone
becomes a dependency on the package as well. -/
theorem toLock_moreRequired :
    (∃ s x lock s' package, Reachable s ∧ s.Valid x ∧ (oneEdge 1 x).HasBaseEdges registry s ∧
      locked 1 x s = .ok (lock, s') ∧ package ∈ lock.packages ∧
      (oneEdge 1 x).requiresPython.Supports linuxEnvironment ∧
      Required s' linuxEnvironment (.extras []) (package.list .base) (packageId 1, none) ∧
      ¬ (oneEdge 1 x).EdgePair registry s linuxEnvironment (.extras []) package.id .base
        (packageId 1, none)) ∧
    ∃ s lock s' package, Reachable s ∧ (oneEdge 2 .TRUE).Named s ∧
      locked 2 .TRUE s = .ok (lock, s') ∧ package ∈ lock.packages ∧
      (oneEdge 2 .TRUE).requiresPython.Supports linuxEnvironment ∧
      Required s' linuxEnvironment (.extras []) (package.list .base) (packageId 1, none) ∧
      ¬ (oneEdge 2 .TRUE).EdgePair registry s linuxEnvironment (.extras []) package.id .base
        (packageId 1, none) := by
  constructor
  · have hrun : ((performAll fooBar Interner.default).map fun s =>
        decide (s.Valid (.new 3 true)) && lockedRequires 1 (.new 3 true) s &&
          !s.evaluate linuxEnvironment (.extras []) (.new 3 true)) = some true := by
      decide +kernel
    obtain ⟨s, hperform, hcheck⟩ := Option.map_eq_some_iff.mp hrun
    simp only [Bool.and_eq_true, decide_eq_true_eq, Bool.not_eq_true'] at hcheck
    obtain ⟨⟨hvalid, hrequires⟩, hfalse⟩ := hcheck
    obtain ⟨lock, s', hlock, package, hpackage, _, hrequired⟩ :=
      required_of_lockedRequires hrequires
    refine ⟨s, .new 3 true, lock, s', package, Reachable.default.performAll hperform, hvalid,
      hasBaseEdges_oneEdge, hlock, hpackage, supports_linux, hrequired, ?_⟩
    rintro ⟨i, dist, _, _, edge, hedge, _, _, hactive, _⟩
    rw [(outgoing_oneEdge hedge).2, hfalse] at hactive
    cases hactive
  · have hrequires : lockedRequires 2 .TRUE Interner.default = true := by
      decide +kernel
    obtain ⟨lock, s', hlock, package, hpackage, _, hrequired⟩ :=
      required_of_lockedRequires hrequires
    refine ⟨_, lock, s', package, Reachable.default, named_oneEdge, hlock, hpackage,
      supports_linux, hrequired, ?_⟩
    rintro ⟨i, dist, _, _, edge, hedge, target, htarget, _, _, hextra⟩
    have hnode := (outgoing_oneEdge hedge).1
    rw [htarget] at hnode
    cases hnode
    cases hextra

theorem toLock_required_iff_oneEdge : ∃ lock s' package,
    locked 1 .TRUE Interner.default = .ok (lock, s') ∧ package ∈ lock.packages ∧
      (oneEdge 1 .TRUE).EdgePair registry Interner.default linuxEnvironment (.extras [])
        package.id .base (packageId 1, none) := by
  have hrequires : lockedRequires 1 .TRUE Interner.default = true := by
    decide +kernel
  obtain ⟨lock, s', hlock, package, hpackage, _, hrequired⟩ :=
    required_of_lockedRequires hrequires
  let _ := rawOrder
  have hiff := (toLock_required_iff Reachable.default named_oneEdge hasBaseEdges_oneEdge hlock).2.2
    package hpackage .base linuxEnvironment (.extras []) (packageId 1, none) supports_linux
  exact ⟨lock, s', package, hlock, hpackage, (hiff.mp hrequired).1⟩

end ResolverOutput

end Concrete

end Uv.Resolver
