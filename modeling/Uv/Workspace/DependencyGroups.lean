import Uv.Core.Running
import Uv.Resolver.RequiresPython

/-!
# Dependency groups

The groups of a project are lists of requirements, which may include other groups.  They are
flattened depth first, and groups that are flattened already are used again.

How a requirement is written and parsed is a parameter; of its result the marker matters,
which is a node of the interner.  A map that is given is the list of its entries in the order
of their keys; in the map that is made the newest entry of a key counts.
-/

namespace Uv.Workspace

open Uv.Core Uv.Pep440 Uv.Pep508 Uv.Pep508.Interner Uv.Resolver

/-- A requirement with its marker. -/
structure Requirement (Package : Type) where
  package : Package
  marker : NodeId

inductive DependencyGroupSpecifier (Name Written Object : Type) where
  | requirement (requirement : Written)
  | includeGroup (includeGroup : Name)
  | object (map : Object)

structure FlatDependencyGroup (Package : Type) where
  requirements : List (Requirement Package)
  requiresPython : Option (List VersionSpecifier)

inductive DependencyGroupError (Name Written Object ParseError : Type) where
  | groupParseError (group : Name) (requirement : Written) (error : ParseError)
  | groupNotFound (group parent : Name)
  | dependencyGroupCycle (cycle : List Name)
  | dependencyObjectSpecifierNotSupported (group : Name) (map : Object)
  | settingsGroupNotFound (group : Name)

/-- The groups of a project with the `requires-python` settings, and how requirements are
parsed. -/
structure Groups (Name Written Object Package ParseError : Type) where
  groups : List (Name × List (DependencyGroupSpecifier Name Written Object))
  settings : List (Name × Option (List VersionSpecifier))
  parse : Written → Except ParseError (Requirement Package)

/-- The groups that are flattened already, and the interner. -/
structure GroupState (Name Package : Type) where
  resolved : List (Name × FlatDependencyGroup Package)
  interner : Interner

variable {Name Written Object Package ParseError α : Type} [DecidableEq Name]
  [RangeOps ValidVersion] [RangeOps Text]

abbrev GroupM (Name Written Object Package ParseError : Type) :=
  RunM (DependencyGroupError Name Written Object ParseError) (GroupState Name Package)

namespace GroupM

/-- An operation of the interner; a panic has no result. -/
def intern (action : InternerM α) : GroupM Name Written Object Package ParseError α :=
  ExceptT.mk fun state => (action.run state.interner).map fun outcome =>
    (.ok outcome.1, { state with interner := outcome.2 })

/-- A value that is there, or a panic. -/
def orPanic (value : Option α) : GroupM Name Written Object Package ParseError α :=
  match value with
  | some value => pure value
  | none => RunM.diverge

end GroupM

/-- `VersionSpecifiers::from_iter`: in the order of the versions. -/
def specifiersOf (specifiers : List VersionSpecifier) : List VersionSpecifier :=
  specifiers.insertionSort fun left right => (compare left.version right.version).isLE

namespace Groups

variable (table : Groups Name Written Object Package ParseError)

/-- The body of the loop over the specifiers of a group. -/
def resolveSpecifier (name : Name)
    (resolve : Name → GroupM Name Written Object Package ParseError Unit)
    (found : List (Requirement Package) × List VersionSpecifier) :
    DependencyGroupSpecifier Name Written Object →
      GroupM Name Written Object Package ParseError
        (List (Requirement Package) × List VersionSpecifier)
  | .requirement written =>
      match table.parse written with
      | .ok requirement => pure (found.1 ++ [requirement], found.2)
      | .error error => throw (.groupParseError name written error)
  | .includeGroup group => do
      resolve group
      let state ← get
      match state.resolved.lookup group with
      | some flat => pure (found.1 ++ flat.requirements,
          specifiersOf (found.2 ++ flat.requiresPython.getD []))
      | none => pure found
  | .object map => throw (.dependencyObjectSpecifierNotSupported name map)

/-- Add the marker of a Python requirement to a requirement. -/
def addMarker (specifiers : List VersionSpecifier) (requirement : Requirement Package) :
    GroupM Name Written Object Package ParseError (Requirement Package) := do
  let range ← GroupM.orPanic (RequiresPythonRange.fromSpecifiers specifiers)
  let extraMarkers ← GroupM.intern (PythonRequirement.toMarkerTree ⟨range⟩)
  let marker ← GroupM.intern (Pep508.and requirement.marker extraMarkers)
  pure { requirement with marker := marker }

/-- Apply the settings of a group to what its specifiers gave. -/
def applySettings (name : Name) (found : List (Requirement Package) × List VersionSpecifier) :
    GroupM Name Written Object Package ParseError
      (List (Requirement Package) × List VersionSpecifier) :=
  match table.settings.lookup name with
  | some (some requiresPython) => do
      let requirements ← found.1.mapM (addMarker requiresPython)
      pure (requirements, specifiersOf (found.2 ++ requiresPython))
  | _ => pure found

/-- What is stored for a group. -/
def flatGroup (found : List (Requirement Package) × List VersionSpecifier) :
    FlatDependencyGroup Package :=
  ⟨found.1, if found.2 = [] then none else some found.2⟩

def insertGroup (name : Name) (found : List (Requirement Package) × List VersionSpecifier) :
    GroupM Name Written Object Package ParseError Unit := do
  let state ← get
  set (GroupState.mk ((name, flatGroup found) :: state.resolved) state.interner)

/-- `resolve_group`. -/
def resolveGroup : ℕ → List Name → Name → GroupM Name Written Object Package ParseError Unit
  | 0, _, _ => RunM.diverge
  | fuel + 1, parents, name =>
      match table.groups.lookup name with
      | none => do
          let parent ← GroupM.orPanic parents.getLast?
          throw (.groupNotFound name parent)
      | some specifiers =>
          if name ∈ parents then throw (.dependencyGroupCycle parents)
          else do
            let state ← get
            if (state.resolved.lookup name).isSome then pure ()
            else do
              let found ← specifiers.foldlM
                (table.resolveSpecifier name (resolveGroup fuel (parents ++ [name]))) ([], [])
              let found ← table.applySettings name found
              insertGroup name found

/-- `FlatDependencyGroups::from_dependency_groups`. -/
def fromDependencyGroups (fuel : ℕ) :
    GroupM Name Written Object Package ParseError
      (List (Name × FlatDependencyGroup Package)) := do
  table.settings.forM fun setting =>
    if (table.groups.lookup setting.1).isSome then pure ()
    else throw (.settingsGroupNotFound setting.1)
  table.groups.forM fun group => table.resolveGroup fuel [] group.1
  let state ← get
  pure state.resolved

end Groups

end Uv.Workspace
