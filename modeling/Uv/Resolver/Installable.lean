import Uv.Core.Worklist
import Uv.Resolver.LockCanonical

/-!
# From a lock to a resolution

`to_resolution` selects the packages of a lock for one environment.  It enters the roots,
the dependency groups and the requirements of the root, and follows their dependencies
with a worklist of packages and extras.  With conflicts, a first traversal collects the
extras that are activated on the way.

How a marker is evaluated, which extras and groups are selected, which packages the
install options include and how a distribution is chosen for a package are parameters.
-/

namespace Uv.Resolver

open Uv.Core

variable {Name Id Marker Dist Error : Type} [LinearOrder Name] [LinearOrder Id]
  [LinearOrder Marker] [LockId Id Name]

/-- A requirement of the root. -/
structure Requirement (Name Marker : Type) where
  name : Name
  extras : List Name
  marker : Marker

/-- The projects, extras and groups that are activated. -/
structure Activated (Name : Type) where
  projects : List Name
  extras : List (Name × Name)
  groups : List (Name × Name)

/-- A target to install, with the arguments of `to_resolution`. -/
structure Installable (Name Id Marker Dist Error : Type) [DecidableEq Id] where
  lock : IndexedLock Name Id Marker
  /-- The extras of each set of conflicting items. -/
  conflicts : List (Finset (Name × Name))
  requirements : List (Requirement Name Marker)
  dependencyGroups : List (Name × List (Requirement Name Marker))
  roots : List Name
  /-- Whether production dependencies are selected. -/
  prod : Bool
  containsGroup : Name → Bool
  containsExtra : Name → Bool
  /-- A marker in the environment, with what is activated. -/
  evaluate : Marker → Activated Name → Bool
  includePackage : Package Name Id Marker → Bool
  /-- The distribution of a package, to be installed or not. -/
  toDist : Package Name Id Marker → Bool → Except Error Dist

inductive InstallError (Name Id Error : Type) where
  | multipleRootPackages (name : Name)
  | missingRootPackage (name : Name)
  | conflictingExtra (package1 extra1 package2 extra2 : Name)
  | dist (error : Error)
  /-- The id is not in the lock, or has no node: the source panics. -/
  | missing (id : Id)

inductive Node (Name Id Marker Dist : Type) where
  | root
  | dist (package : Package Name Id Marker) (dist : Dist) (install : Bool)

inductive Edge (Name : Type) where
  | prod
  | optional (extra : Name)
  | dev (group : Name)
  deriving DecidableEq

/-- The graph, and the node of each package id. -/
structure GraphState (Name Id Marker Dist : Type) where
  nodes : List (Node Name Id Marker Dist)
  edges : List (ℕ × ℕ × Edge Name)
  inverse : Id → Option ℕ

/-- A package or an extra of it. -/
abbrev Item (Name Id Marker : Type) := Package Name Id Marker × Option Name

/-- The queue, the seen items and the graph. -/
abbrev InstallState (Name Id Marker Dist : Type) :=
  Worklist (Item Name Id Marker) (Id × Option Name) (GraphState Name Id Marker Dist)

def Package.name (package : Package Name Id Marker) : Name :=
  LockId.name package.id

/-- The dependencies of the package or of one of its extras. -/
def Package.dependenciesOf (package : Package Name Id Marker) :
    Option Name → List (Dependency Name Id Marker)
  | none => package.dependencies
  | some extra => (package.optionalDependencies.lookup extra).getD []

namespace GraphState

/-- Add a node for the id. -/
def addNode (id : Id) (node : Node Name Id Marker Dist) (graph : GraphState Name Id Marker Dist) :
    ℕ × GraphState Name Id Marker Dist :=
  (graph.nodes.length,
    { graph with
      nodes := graph.nodes ++ [node]
      inverse := Function.update graph.inverse id (some graph.nodes.length) })

def setNode (index : ℕ) (node : Node Name Id Marker Dist)
    (graph : GraphState Name Id Marker Dist) : GraphState Name Id Marker Dist :=
  { graph with nodes := graph.nodes.set index node }

def addEdge (source target : ℕ) (edge : Edge Name) (graph : GraphState Name Id Marker Dist) :
    GraphState Name Id Marker Dist :=
  { graph with edges := graph.edges ++ [(source, target, edge)] }

end GraphState

namespace Installable

/-! Extras are sorted by their names. -/

local instance isTrans_name : IsTrans Name (· ≤ ·) := inferInstance

local instance antisymm_name : Std.Antisymm fun name other : Name => name ≤ other := inferInstance

variable (self : Installable Name Id Marker Dist Error)

/-! ## Packages -/

/-- The only package with the name that is kept. -/
def findPackage (name : Name) (keep : Package Name Id Marker → Bool) :
    Except (InstallError Name Id Error) (Package Name Id Marker) := do
  let foundDist ← self.lock.packages.foldlM (fun foundDist dist =>
    if dist.name = name && keep dist then
      if foundDist.isSome then .error (.multipleRootPackages name) else .ok (some dist)
    else .ok foundDist) none
  match foundDist with
  | some dist => .ok dist
  | none => .error (.missingRootPackage name)

def findByName (name : Name) : Except (InstallError Name Id Error) (Package Name Id Marker) :=
  self.findPackage name fun _ => true

def evaluateNoExtras (marker : Marker) : Bool :=
  self.evaluate marker ⟨[], [], []⟩

def findByMarkers (name : Name) : Except (InstallError Name Id Error) (Package Name Id Marker) :=
  self.findPackage name fun dist =>
    dist.forkMarkers.isEmpty || dist.forkMarkers.any self.evaluateNoExtras

def findById (id : Id) : Except (InstallError Name Id Error) (Package Name Id Marker) :=
  match (self.lock.byId.lookup id).bind (self.lock.packages[·]?) with
  | some dist => .ok dist
  | none => .error (.missing id)

/-- `installable_node` and `non_installable_node`. -/
def makeNode (package : Package Name Id Marker) (install : Bool) :
    Except (InstallError Name Id Error) (Node Name Id Marker Dist) :=
  match self.toDist package install with
  | .ok dist => .ok (.dist package dist install)
  | .error error => .error (.dist error)

def nonInstallableNode (package : Package Name Id Marker) :
    Except (InstallError Name Id Error) (Node Name Id Marker Dist) :=
  self.makeNode package false

def packageToNode (package : Package Name Id Marker) :
    Except (InstallError Name Id Error) (Node Name Id Marker Dist) :=
  self.makeNode package (self.includePackage package)

/-! ## Roots, groups and requirements -/

/-- The projects, extras and groups that the roots activate. -/
def activateRoots : Except (InstallError Name Id Error) (Activated Name) :=
  if self.conflicts.isEmpty then .ok ⟨[], [], []⟩
  else self.roots.foldlM (fun activated name => do
    let dist ← self.findByName name
    let groups := (dist.dependencyGroups.map (·.1)).filter self.containsGroup
    let extras := (dist.optionalDependencies.map (·.1)).filter self.containsExtra
    .ok {
      projects := if self.prod then activated.projects ++ [dist.name] else activated.projects
      extras := if self.prod then activated.extras ++ extras.map (dist.name, ·)
        else activated.extras
      groups := activated.groups ++ groups.map (dist.name, ·) }) ⟨[], [], []⟩

/-- Put the package and the extras in the queue. -/
def pushDependencies {σ : Type} (dist : Package Name Id Marker) (id : Id) (extras : List Name)
    (work : Worklist (Item Name Id Marker) (Id × Option Name) σ) :
    Worklist (Item Name Id Marker) (Id × Option Name) σ :=
  extras.foldl (fun work extra => work.push (id, some extra) (dist, some extra))
    (work.push (id, none) (dist, none))

/-- The node of a root or of a requirement. -/
def entryNode (dist : Package Name Id Marker) :
    Except (InstallError Name Id Error) (Node Name Id Marker Dist) :=
  if self.prod then self.packageToNode dist else self.nonInstallableNode dist

/-- Initialize a workspace root. -/
def addRoot (state : InstallState Name Id Marker Dist × List (Package Name Id Marker × ℕ))
    (name : Name) : Except (InstallError Name Id Error)
      (InstallState Name Id Marker Dist × List (Package Name Id Marker × ℕ)) := do
  let (work, roots) := state
  let dist ← self.findByName name
  let node ← self.entryNode dist
  let (index, graph) := work.state.addNode dist.id node
  return ({ work with state := graph.addEdge 0 index .prod }, roots ++ [(dist, index)])

/-- The index of a package of a group: a new node, or the one that is there, which is
re-enabled if it was omitted. -/
def enableNode (dist : Package Name Id Marker) (id : Id) (graph : GraphState Name Id Marker Dist) :
    Except (InstallError Name Id Error) (ℕ × GraphState Name Id Marker Dist) := do
  match graph.inverse id with
  | none => return graph.addNode id (← self.packageToNode dist)
  | some index =>
      if self.prod then return (index, graph)
      else return (index, graph.setNode index (← self.packageToNode dist))

/-- Add a dependency of a group of a root. -/
def addGroupDependency (activated : Activated Name) (source : ℕ)
    (work : InstallState Name Id Marker Dist) (entry : Name × Dependency Name Id Marker) :
    Except (InstallError Name Id Error) (InstallState Name Id Marker Dist) := do
  let (group, dep) := entry
  if !self.evaluate dep.complexifiedMarker activated then return work
  let depDist ← self.findById dep.packageId
  let (index, graph) ← self.enableNode depDist dep.packageId work.state
  return pushDependencies depDist dep.packageId (dep.extra.sort (· ≤ ·))
    { work with state := graph.addEdge source index (.dev group) }

/-- The dependencies of the selected groups. -/
def selectedGroups {α : Type} (groups : List (Name × List α)) : List (Name × α) :=
  (groups.filter fun entry => self.containsGroup entry.1).flatMap fun (group, deps) =>
    deps.map (group, ·)

/-- Add the workspace dependencies of a root to the queue. -/
def addRootDependencies (activated : Activated Name) (work : InstallState Name Id Marker Dist)
    (root : Package Name Id Marker × ℕ) :
    Except (InstallError Name Id Error) (InstallState Name Id Marker Dist) :=
  let (dist, index) := root
  let extras := (dist.optionalDependencies.map (·.1)).filter self.containsExtra
  let work :=
    if self.prod then
      { work with queue := work.queue ++ (dist, none) :: extras.map fun extra => (dist, some extra) }
    else work
  (self.selectedGroups dist.dependencyGroups).foldlM
    (self.addGroupDependency activated index) work

/-- Add a requirement that is exclusive to the workspace root. -/
def addRequirement (work : InstallState Name Id Marker Dist)
    (dependency : Requirement Name Marker) :
    Except (InstallError Name Id Error) (InstallState Name Id Marker Dist) := do
  if !self.evaluateNoExtras dependency.marker then return work
  let dist ← self.findByMarkers dependency.name
  let node ← self.entryNode dist
  let (index, graph) := work.state.addNode dist.id node
  return pushDependencies dist dist.id dependency.extras
    { work with state := graph.addEdge 0 index .prod }

/-- Add a dependency of a group that is exclusive to the workspace root. -/
def addGroupRequirement (work : InstallState Name Id Marker Dist)
    (entry : Name × Requirement Name Marker) :
    Except (InstallError Name Id Error) (InstallState Name Id Marker Dist) := do
  let (group, dependency) := entry
  if !self.evaluateNoExtras dependency.marker then return work
  let dist ← self.findByMarkers dependency.name
  let (index, graph) ← self.enableNode dist dist.id work.state
  return pushDependencies dist dist.id dependency.extras
    { work with state := graph.addEdge 0 index (.dev group) }

/-- Only the root, and nothing to do. -/
def initial : InstallState Name Id Marker Dist :=
  ⟨[], [], ⟨[.root], [], fun _ => none⟩⟩

/-- Everything before the dependencies are followed. -/
def enter (activated : Activated Name) :
    Except (InstallError Name Id Error) (InstallState Name Id Marker Dist) := do
  let (work, roots) ← self.roots.foldlM self.addRoot (initial, [])
  let work ← roots.foldlM (self.addRootDependencies activated) work
  let work ← self.requirements.foldlM self.addRequirement work
  (self.selectedGroups self.dependencyGroups).foldlM self.addGroupRequirement work

/-! ## The traversals -/

/-- The package and the extras that a dependency asks for. -/
def dependencyItems (dep : Dependency Name Id Marker) : List (Id × Option Name) :=
  (dep.packageId, none) :: (dep.extra.sort (· ≤ ·)).map fun extra => (dep.packageId, some extra)

/-- Everything that a dependency of the lock can ask for. -/
def allItems : List (Id × Option Name) :=
  self.lock.packages.flatMap fun package =>
    (package.dependencies ++ package.optionalDependencies.flatMap (·.2)).flatMap dependencyItems

/-- Activate the extras of a dependency, if it applies with them.  The set of the source
holds the elements of this list. -/
def activateDependency (activated : Activated Name)
    (work : Worklist (Item Name Id Marker) (Id × Option Name) (List (Name × Name)))
    (dep : Dependency Name Id Marker) : Except (InstallError Name Id Error)
      (Worklist (Item Name Id Marker) (Id × Option Name) (List (Name × Name))) := do
  let keys := (dep.extra.sort (· ≤ ·)).map (LockId.name dep.packageId, ·)
  let additionalActivatedExtras := keys.filter (· ∉ work.state)
  let extras := work.state ++ additionalActivatedExtras
  if !self.evaluate dep.complexifiedMarker { activated with extras } then return work
  let depDist ← self.findById dep.packageId
  return pushDependencies depDist dep.packageId (dep.extra.sort (· ≤ ·))
    { work with state := extras }

def pairs {α : Type} : List α → List (α × α)
  | [] => []
  | x :: rest => rest.map (x, ·) ++ pairs rest

/-- Refuse two activated extras of one set of conflicts. -/
def checkConflicts (activatedExtras : List (Name × Name)) :
    Except (InstallError Name Id Error) Unit :=
  let activatedExtrasSet := (Lock.sort (activatedExtras.map toLex)).dedup.map ofLex
  self.conflicts.forM fun set =>
    (pairs activatedExtrasSet).forM fun ((package1, extra1), (package2, extra2)) =>
      if (package1, extra1) ∈ set && (package2, extra2) ∈ set then
        .error (.conflictingExtra package1 extra1 package2 extra2)
      else .ok ()

/-- The first traversal: visit the dependencies and collect the extras. -/
def collectExtras (activated : Activated Name)
    (work : Worklist (Item Name Id Marker) (Id × Option Name) (List (Name × Name))) :
    Except (InstallError Name Id Error)
      (Worklist (Item Name Id Marker) (Id × Option Name) (List (Name × Name))) :=
  Worklist.run (fun (package, extra) work =>
      (package.dependenciesOf extra).foldlM (self.activateDependency activated) work)
    (work.queue.length + self.allItems.length) work

/-- All extras that are activated. -/
def activate (activated : Activated Name) (work : InstallState Name Id Marker Dist) :
    Except (InstallError Name Id Error) (Activated Name) := do
  if self.conflicts.isEmpty then return activated
  let final ← self.collectExtras activated { work with state := activated.extras }
  self.checkConflicts final.state
  return { activated with extras := final.state }

/-- The index of a dependency: a new node, or the one that is there. -/
def visitNode (dist : Package Name Id Marker) (id : Id) (graph : GraphState Name Id Marker Dist) :
    Except (InstallError Name Id Error) (ℕ × GraphState Name Id Marker Dist) := do
  match graph.inverse id with
  | none => return graph.addNode id (← self.packageToNode dist)
  | some index => return (index, graph)

/-- Add a dependency to the graph. -/
def followDependency (activated : Activated Name) (package : Package Name Id Marker)
    (extra : Option Name) (work : InstallState Name Id Marker Dist)
    (dep : Dependency Name Id Marker) :
    Except (InstallError Name Id Error) (InstallState Name Id Marker Dist) := do
  if !self.evaluate dep.complexifiedMarker activated then return work
  let depDist ← self.findById dep.packageId
  let (depIndex, graph) ← self.visitNode depDist dep.packageId work.state
  match graph.inverse package.id with
  | none => .error (.missing package.id)
  | some index =>
      return pushDependencies depDist dep.packageId (dep.extra.sort (· ≤ ·))
        { work with
          state := graph.addEdge index depIndex
            (match extra with | some extra => .optional extra | none => .prod) }

/-- The second traversal: the graph with all dependencies. -/
def follow (activated : Activated Name) (work : InstallState Name Id Marker Dist) :
    Except (InstallError Name Id Error) (InstallState Name Id Marker Dist) :=
  Worklist.run (fun (package, extra) work =>
      (package.dependenciesOf extra).foldlM (self.followDependency activated package extra) work)
    (work.queue.length + self.allItems.length) work

/-- What is activated in the end. -/
def activations : Except (InstallError Name Id Error) (Activated Name) := do
  let activated ← self.activateRoots
  let work ← self.enter activated
  self.activate activated work

/-- Convert the lock to a resolution. -/
def toResolution : Except (InstallError Name Id Error) (GraphState Name Id Marker Dist) := do
  let activated ← self.activateRoots
  let work ← self.enter activated
  let activated ← self.activate activated work
  let work ← self.follow activated work
  return work.state

end Installable

end Uv.Resolver
