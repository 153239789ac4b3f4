import Uv.Normalize

/-!
# Conflict items

Users declare sets of extras, groups and projects that must not be active
together.  A conflict item names one of them.
-/

namespace Uv.Resolver

/-- The conflicting part of a package: an extra, a group or the whole project. -/
inductive ConflictKind where
  | extra (name : ExtraName)
  | group (name : GroupName)
  | project
  deriving DecidableEq

structure ConflictItem where
  package : PackageName
  kind : ConflictKind
  deriving DecidableEq

namespace ConflictItem

def ofExtra (package : PackageName) (extra : ExtraName) : ConflictItem :=
  ⟨package, .extra extra⟩

def ofGroup (package : PackageName) (group : GroupName) : ConflictItem :=
  ⟨package, .group group⟩

end ConflictItem

/-- A node of the resolution graph.  Of a distribution only the names matter
here. -/
inductive ResolutionGraphNode where
  | root
  | dist (name : PackageName) (extra : Option ExtraName)
      (group : Option GroupName)
  deriving DecidableEq

namespace ResolutionGraphNode

def packageExtraNames : ResolutionGraphNode → Option (PackageName × ExtraName)
  | .root => none
  | .dist name extra _ => extra.map (name, ·)

def packageGroupNames : ResolutionGraphNode → Option (PackageName × GroupName)
  | .root => none
  | .dist name _ group => group.map (name, ·)

/-- The items of a node: its extra and its group, where it has them. -/
def conflictItems (node : ResolutionGraphNode) : List ConflictItem :=
  (node.packageExtraNames.map fun (package, extra) =>
      ConflictItem.ofExtra package extra).toList ++
    (node.packageGroupNames.map fun (package, group) =>
      ConflictItem.ofGroup package group).toList

end ResolutionGraphNode

end Uv.Resolver
