import Uv.Resolver.LockFile
import Uv.Resolver.RequiresPython

/-!
# Locking a resolution

`Lock::from_resolution` makes a package of every base node of the graph, and a dependency of
every edge; edges of one package to the same id and with the same simplified marker are one
dependency with all their extras.

Markers are nodes of the interner.  Of a universal marker only the combined marker is kept,
since its projection is not evaluated.  What is taken from a distribution other than its
name, version, extra and group is a parameter.
-/

namespace Uv.Resolver

open Uv.Core Uv.Pep440 Uv.Pep508 Uv.Pep508.Interner

/-! ## The graph -/

/-- A distribution with the extra or the group it is in the graph for. -/
structure AnnotatedDist (Name Version Dist : Type) where
  dist : Dist
  name : Name
  version : Version
  extra : Option Name
  group : Option Name
  /-- Whether there is metadata that says that the version is dynamic. -/
  dynamic : Bool
  marker : NodeId

def AnnotatedDist.isBase {Name Version Dist : Type} (dist : AnnotatedDist Name Version Dist) :
    Bool :=
  dist.extra.isNone && dist.group.isNone

inductive ResolverOutput.ResolutionGraphNode (Name Version Dist : Type) where
  | root
  | dist (dist : AnnotatedDist Name Version Dist)

/-- The output of the resolver; an edge has its ends and its marker, in the order in which
the edges were added. -/
structure ResolverOutput (Name Version Dist : Type) where
  nodes : List (ResolverOutput.ResolutionGraphNode Name Version Dist)
  edges : List (ℕ × ℕ × NodeId)
  requiresPython : RequiresPythonRange
  forkMarkers : List NodeId

/-- What a lock takes from a distribution: `Source::from_resolved_dist`, and for every wheel of
the package that is kept whether it has a hash. -/
structure Distributions (Name Version Location Dist Error : Type) where
  source : Dist → Except Error (Source Location)
  wheelHashes : AnnotatedDist Name Version Dist → Except Error (List Bool)

/-! ## Errors and the interner -/

inductive FromResolutionError (Name Version Location Error : Type) where
  | panic
  | dist (error : Error)
  | duplicatePackage (id : PackageId Name Version Location)
  | missingExtraBase (id : PackageId Name Version Location) (extra : Name)
  | missingDevBase (id : PackageId Name Version Location) (group : Name)
  | lock (error : LockError Name (PackageId Name Version Location) NodeId)

/-- An action on the interner that may fail. -/
abbrev LockM (Name Version Location Error : Type) :=
  StateT Interner (Except (FromResolutionError Name Version Location Error))

namespace LockM

variable {Name Version Location Error α : Type}

/-- An operation of the interner. -/
def intern (action : InternerM α) : LockM Name Version Location Error α :=
  fun interner =>
    match action.run interner with
    | some result => .ok result
    | none => .error .panic

/-- A result that does not depend on the interner. -/
def result (value : Except (FromResolutionError Name Version Location Error) α) :
    LockM Name Version Location Error α :=
  fun interner =>
    match value with
    | .ok value => .ok (value, interner)
    | .error error => .error error

end LockM

variable {Name Version Location Dist Error : Type} [LinearOrder Name] [LinearOrder Version]
  [LinearOrder Location] [RangeOps ValidVersion] [RangeOps Text]

/-! ## Dependencies -/

/-- `PackageId::from_annotated_dist`: the version of a dynamic source tree is left out. -/
def Distributions.packageId (dists : Distributions Name Version Location Dist Error)
    (dist : AnnotatedDist Name Version Dist) : Except Error (PackageId Name Version Location) := do
  let source ← dists.source dist.dist
  let version := if source.isSourceTree && dist.dynamic then none else some dist.version
  pure ⟨dist.name, version, source⟩

/-- `Dependency::new`. -/
def Dependency.new {Id : Type} (requiresPython : RequiresPythonRange) (packageId : Id)
    (extra : Finset Name) (complexifiedMarker : NodeId) :
    InternerM (Dependency Name Id NodeId) := do
  let simplified ← simplifyPythonVersions complexifiedMarker requiresPython.lower
    requiresPython.upper
  let complexified ← complexifyPythonVersions simplified requiresPython.lower
    requiresPython.upper
  pure ⟨packageId, extra, simplified, complexified⟩

/-- `Dependency::from_annotated_dist`. -/
def Dependency.fromAnnotatedDist (dists : Distributions Name Version Location Dist Error)
    (requiresPython : RequiresPythonRange) (dist : AnnotatedDist Name Version Dist)
    (complexifiedMarker : NodeId) :
    LockM Name Version Location Error
      (Dependency Name (PackageId Name Version Location) NodeId) := do
  let packageId ← LockM.result ((dists.packageId dist).mapError .dist)
  LockM.intern (Dependency.new requiresPython packageId dist.extra.toFinset complexifiedMarker)

/-- The loop over the dependencies that are there: the extras are added to the first one
with the same id and simplified marker, if there is one. -/
def addTo {Id : Type} [DecidableEq Id] (newDep : Dependency Name Id NodeId) :
    List (Dependency Name Id NodeId) → List (Dependency Name Id NodeId)
  | [] => [newDep]
  | existingDep :: rest =>
      if existingDep.packageId = newDep.packageId ∧
          existingDep.simplifiedMarker = newDep.simplifiedMarker then
        { existingDep with extra := existingDep.extra ∪ newDep.extra } :: rest
      else existingDep :: addTo newDep rest

/-- `entry(key).or_default()`, changed. -/
def upsert {α : Type} (key : Name) (f : List α → List α) (entries : List (Name × List α)) :
    List (Name × List α) :=
  match entries.lookup key with
  | some _ => entries.map fun entry => if entry.1 = key then (entry.1, f entry.2) else entry
  | none => entries.orderedInsert (fun a b => a.1 ≤ b.1) (key, f [])

/-- A dependency list of a package. -/
inductive Slot (Name : Type) where
  | base
  | extra (extra : Name)
  | group (group : Name)
  deriving DecidableEq

namespace Package

variable {Id : Type} [DecidableEq Id]

/-- The list in a slot; one that is not there is empty. -/
def list (package : Package Name Id NodeId) : Slot Name → List (Dependency Name Id NodeId)
  | .base => package.dependencies
  | .extra extra => (package.optionalDependencies.lookup extra).getD []
  | .group group => (package.dependencyGroups.lookup group).getD []

def addDependency (package : Package Name Id NodeId) (dep : Dependency Name Id NodeId) :
    Package Name Id NodeId :=
  { package with dependencies := addTo dep package.dependencies }

def addOptionalDependency (extra : Name) (package : Package Name Id NodeId)
    (dep : Dependency Name Id NodeId) : Package Name Id NodeId :=
  { package with
    optionalDependencies := upsert extra (addTo dep) package.optionalDependencies }

def addGroupDependency (group : Name) (package : Package Name Id NodeId)
    (dep : Dependency Name Id NodeId) : Package Name Id NodeId :=
  { package with dependencyGroups := upsert group (addTo dep) package.dependencyGroups }

/-- The method for a slot. -/
def add : Slot Name → Package Name Id NodeId → Dependency Name Id NodeId →
    Package Name Id NodeId
  | .base => addDependency
  | .extra extra => addOptionalDependency extra
  | .group group => addGroupDependency group

end Package

/-! ## `Lock::from_resolution` -/

namespace ResolverOutput

variable (graph : ResolverOutput Name Version Dist)

/-- `edges`: the edges of a node with their targets, the last one first. -/
def outgoing (i : ℕ) : List (ResolutionGraphNode Name Version Dist × NodeId) :=
  (graph.edges.filter (·.1 = i)).reverse.filterMap fun edge =>
    (graph.nodes[edge.2.1]?).map fun node => (node, edge.2.2)

/-- The names of the base nodes. -/
def baseNames : List Name :=
  graph.nodes.filterMap fun node =>
    match node with
    | .root => none
    | .dist dist => if dist.isBase then some dist.name else none

variable (dists : Distributions Name Version Location Dist Error)

/-- The loop over the edges of a node, with the method for the slot. -/
def addEdges (i : ℕ) (slot : Slot Name)
    (package : Package Name (PackageId Name Version Location) NodeId) :
    LockM Name Version Location Error
      (Package Name (PackageId Name Version Location) NodeId) :=
  (graph.outgoing i).foldlM (fun package edge =>
    match edge.1 with
    | .root => pure package
    | .dist dependencyDist => do
        let dep ← Dependency.fromAnnotatedDist dists graph.requiresPython dependencyDist edge.2
        pure (package.add slot dep)) package

/-- If there are several packages with the name, the markers of all forks that the
distribution is in. -/
def forkMarkersOf (dist : AnnotatedDist Name Version Dist) : InternerM (List NodeId) :=
  if graph.baseNames.count dist.name ≤ 1 then pure []
  else
    graph.forkMarkers.foldlM (fun kept marker => do
      let disjoint ← isDisjoint marker dist.marker
      pure (if disjoint then kept else kept ++ [marker])) []

variable {graph}

/-- Lock a base node. -/
def lockBase (graph : ResolverOutput Name Version Dist)
    (packages : List (Package Name (PackageId Name Version Location) NodeId))
    (node : ResolutionGraphNode Name Version Dist × ℕ) :
    LockM Name Version Location Error
      (List (Package Name (PackageId Name Version Location) NodeId)) :=
  match node.1 with
  | .root => pure packages
  | .dist dist =>
      if dist.isBase then do
        let forkMarkers ← LockM.intern (graph.forkMarkersOf dist)
        let id ← LockM.result ((dists.packageId dist).mapError .dist)
        let wheelHashes ← LockM.result ((dists.wheelHashes dist).mapError .dist)
        let package ← graph.addEdges dists node.2 .base ⟨id, wheelHashes, forkMarkers, [], [], []⟩
        if id ∈ packages.map (·.id) then LockM.result (.error (.duplicatePackage id))
        else pure (packages.orderedInsert (fun a b => a.id ≤ b.id) package)
      else pure packages

/-- Add the edges of a node for an extra or a group to the package with its id. -/
def extendPackage (graph : ResolverOutput Name Version Dist) (slot : Slot Name)
    (error : PackageId Name Version Location → FromResolutionError Name Version Location Error)
    (dist : AnnotatedDist Name Version Dist) (i : ℕ)
    (packages : List (Package Name (PackageId Name Version Location) NodeId)) :
    LockM Name Version Location Error
      (List (Package Name (PackageId Name Version Location) NodeId)) := do
  let id ← LockM.result ((dists.packageId dist).mapError .dist)
  match packages.find? (·.id = id) with
  | none => LockM.result (.error (error id))
  | some package =>
      let package ← graph.addEdges dists i slot package
      pure (packages.map fun other => if other.id = id then package else other)

/-- A node for an extra: the edges are its optional dependencies. -/
def lockExtraOf (graph : ResolverOutput Name Version Dist)
    (dist : AnnotatedDist Name Version Dist) (i : ℕ)
    (packages : List (Package Name (PackageId Name Version Location) NodeId)) :
    LockM Name Version Location Error
      (List (Package Name (PackageId Name Version Location) NodeId)) :=
  match dist.extra with
  | none => pure packages
  | some extra => graph.extendPackage dists (.extra extra) (.missingExtraBase · extra) dist i packages

/-- A node for a group: the edges are the dependencies of the group. -/
def lockGroupOf (graph : ResolverOutput Name Version Dist)
    (dist : AnnotatedDist Name Version Dist) (i : ℕ)
    (packages : List (Package Name (PackageId Name Version Location) NodeId)) :
    LockM Name Version Location Error
      (List (Package Name (PackageId Name Version Location) NodeId)) :=
  match dist.group with
  | none => pure packages
  | some group => graph.extendPackage dists (.group group) (.missingDevBase · group) dist i packages

/-- Lock a node for an extra or a group. -/
def lockExtra (graph : ResolverOutput Name Version Dist)
    (packages : List (Package Name (PackageId Name Version Location) NodeId))
    (node : ResolutionGraphNode Name Version Dist × ℕ) :
    LockM Name Version Location Error
      (List (Package Name (PackageId Name Version Location) NodeId)) :=
  match node.1 with
  | .root => pure packages
  | .dist dist => do
      let packages ← graph.lockExtraOf dists dist node.2 packages
      graph.lockGroupOf dists dist node.2 packages

/-- `Lock::from_resolution`, for an order of markers. -/
def toLock [LinearOrder NodeId] (graph : ResolverOutput Name Version Dist) :
    LockM Name Version Location Error
      (Lock Name (PackageId Name Version Location) NodeId) := do
  let packages ← graph.nodes.zipIdx.foldlM (graph.lockBase dists) []
  let packages ← graph.nodes.zipIdx.foldlM (graph.lockExtra dists) packages
  LockM.result ((Lock.new packages).mapError .lock)

end ResolverOutput

end Uv.Resolver
