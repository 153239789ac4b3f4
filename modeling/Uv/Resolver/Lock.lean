import Mathlib

/-!
# The lock file

A lock is a list of packages with their dependencies.  `Lock.new` sorts the lists,
refuses duplicates and dependencies on packages that are not in the lock, and removes
extras that the package depended on does not have.

Package ids, names and markers are types with the order of the source; what is stored in a
lock without being looked at is left out.  A tree map is the list of its
entries in the order of their keys, and a hash map the list of its entries.
-/

namespace Uv.Resolver

/-- What is read in a package id. -/
class LockId (Id : Type) (Name : outParam Type) where
  name : Id → Name
  /-- Whether the source must or must not include a hash. -/
  requiresHash : Id → Option Bool

variable {Name Id Marker : Type} [LinearOrder Name] [LinearOrder Id] [LinearOrder Marker]

/-- A single dependency of a package. -/
structure Dependency (Name Id Marker : Type) where
  packageId : Id
  extra : Finset Name
  simplifiedMarker : Marker
  complexifiedMarker : Marker

namespace Dependency

/-- The fields in the order in which they are compared. -/
def key (dep : Dependency Name Id Marker) : Id ×ₗ List Name ×ₗ Marker ×ₗ Marker :=
  toLex (dep.packageId, toLex (dep.extra.sort (· ≤ ·),
    toLex (dep.simplifiedMarker, dep.complexifiedMarker)))

omit [LinearOrder Id] [LinearOrder Marker] in
theorem key_injective :
    Function.Injective (key : Dependency Name Id Marker → _) := by
  rintro ⟨id, extra, simplified, complexified⟩ ⟨id', extra', simplified', complexified'⟩ heq
  simp only [key, EmbeddingLike.apply_eq_iff_eq, Prod.mk.injEq] at heq
  obtain ⟨rfl, hextra, rfl, rfl⟩ := heq
  have hsame := congrArg List.toFinset hextra
  rw [Finset.sort_toFinset, Finset.sort_toFinset] at hsame
  rw [hsame]

instance : LinearOrder (Dependency Name Id Marker) :=
  LinearOrder.lift' key key_injective

end Dependency

/-- A package in the lock; of a wheel only whether it has a hash. -/
structure Package (Name Id Marker : Type) where
  id : Id
  wheelHashes : List Bool
  forkMarkers : List Marker
  dependencies : List (Dependency Name Id Marker)
  optionalDependencies : List (Name × List (Dependency Name Id Marker))
  dependencyGroups : List (Name × List (Dependency Name Id Marker))

structure Lock (Name Id Marker : Type) where
  packages : List (Package Name Id Marker)
  byId : List (Id × ℕ)

/-- A lock whose map finds the packages by their ids. -/
structure IndexedLock (Name Id Marker : Type) [DecidableEq Id] extends Lock Name Id Marker where
  index : ∀ id i, byId.lookup id = some i ↔
    ∃ package, packages[i]? = some package ∧ package.id = id

inductive LockError (Name Id Marker : Type) where
  | duplicateDependency (id : Id) (dependency : Dependency Name Id Marker)
  | duplicateOptionalDependency (id : Id) (extra : Name)
      (dependency : Dependency Name Id Marker)
  | duplicateDevDependency (id : Id) (group : Name)
      (dependency : Dependency Name Id Marker)
  | duplicatePackage (id : Id)
  | unrecognizedDependency (id : Id) (dependency : Dependency Name Id Marker)
  | hash (id : Id) (expected : Bool)

namespace Package

/-- All dependency lists of the package. -/
def lists (package : Package Name Id Marker) : List (List (Dependency Name Id Marker)) :=
  package.dependencies :: (package.optionalDependencies.map (·.2) ++
    package.dependencyGroups.map (·.2))

/-- Change every dependency list. -/
def mapLists (f : List (Dependency Name Id Marker) → List (Dependency Name Id Marker))
    (package : Package Name Id Marker) : Package Name Id Marker :=
  { package with
    dependencies := f package.dependencies
    optionalDependencies := package.optionalDependencies.map fun entry => (entry.1, f entry.2)
    dependencyGroups := package.dependencyGroups.map fun entry => (entry.1, f entry.2) }

end Package

/-! ## `Lock::new` -/

namespace Lock

/-- `sort`. -/
def sort {α : Type} [LinearOrder α] (xs : List α) : List α :=
  xs.insertionSort (· ≤ ·)

/-- The first element that is equal to the one after it. -/
def firstDuplicate {α : Type} [DecidableEq α] : List α → Option α
  | x :: y :: rest => if x = y then some x else firstDuplicate (y :: rest)
  | _ => none

/-- Refuse a sorted list with duplicates. -/
def checkDuplicates (deps : List (Dependency Name Id Marker))
    (error : Dependency Name Id Marker → LockError Name Id Marker) :
    Except (LockError Name Id Marker) Unit :=
  match firstDuplicate (sort deps) with
  | some dep => .error (error dep)
  | none => .ok ()

/-- The loop over the packages at the start: the lists of one package are sorted and
checked for duplicates. -/
def sortPackage (package : Package Name Id Marker) :
    Except (LockError Name Id Marker) (Package Name Id Marker) := do
  checkDuplicates package.dependencies (.duplicateDependency package.id)
  package.optionalDependencies.forM fun (extra, deps) =>
    checkDuplicates deps (.duplicateOptionalDependency package.id extra)
  package.dependencyGroups.forM fun (group, deps) =>
    checkDuplicates deps (.duplicateDevDependency package.id group)
  pure (package.mapLists sort)

/-- The packages by id. -/
def sortPackages (packages : List (Package Name Id Marker)) :
    List (Package Name Id Marker) :=
  packages.insertionSort fun dist₁ dist₂ => dist₁.id ≤ dist₂.id

/-- The map from ids to positions, unless an id occurs twice. -/
def indexPackages (packages : List (Package Name Id Marker)) :
    Except (LockError Name Id Marker) (List (Id × ℕ)) :=
  packages.zipIdx.foldlM (fun byId (dist, i) =>
    if (byId.lookup dist.id).isSome then .error (.duplicatePackage dist.id)
    else .ok ((dist.id, i) :: byId)) []

/-- Whether the package with the id has the extra. -/
def providesExtra (packages : List (Package Name Id Marker)) (id : Id) (extra : Name) :
    Bool :=
  packages.any fun dist =>
    decide (dist.id = id) && dist.optionalDependencies.any fun entry => entry.1 = extra

/-- Remove extras that were requested but do not exist. -/
def pruneDependency (packages : List (Package Name Id Marker))
    (dep : Dependency Name Id Marker) : Dependency Name Id Marker :=
  { dep with extra := dep.extra.filter fun extra => providesExtra packages dep.packageId extra }

def prunePackages (packages : List (Package Name Id Marker)) :
    List (Package Name Id Marker) :=
  packages.map (·.mapLists (·.map (pruneDependency packages)))

variable [LockId Id Name]

/-- Check the dependencies and the hashes of one package. -/
def checkPackage (byId : List (Id × ℕ)) (dist : Package Name Id Marker) :
    Except (LockError Name Id Marker) Unit := do
  dist.lists.forM fun deps => deps.forM fun dep =>
    if (byId.lookup dep.packageId).isSome then .ok ()
    else .error (.unrecognizedDependency dist.id dep)
  match LockId.requiresHash dist.id with
  | some requiresHash =>
      dist.wheelHashes.forM fun hash =>
        if requiresHash ≠ hash then .error (.hash dist.id requiresHash) else .ok ()
  | none => pure ()

/-- Initialize a lock from a list of packages. -/
def new (packages : List (Package Name Id Marker)) :
    Except (LockError Name Id Marker) (Lock Name Id Marker) := do
  let packages ← packages.mapM sortPackage
  let packages := sortPackages packages
  let byId ← indexPackages packages
  let packages := prunePackages packages
  packages.forM (checkPackage byId)
  pure ⟨packages, byId⟩

end Lock

end Uv.Resolver
