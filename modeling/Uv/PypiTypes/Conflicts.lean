import Uv.Resolver.Conflicts

/-!
# Conflicts

The sets of conflicting items as users declare them, and what a table of
dependency groups adds to them: where a group is in a conflict, so is every group
that includes it.

A `BTreeSet` of items is a finite set whose elements are visited in their order.
Hash sets and the values of hash maps are finite sets too; where the source
iterates over a hash map, the order is a parameter.  So is the topological sort
of the graph library, which the source does not contain.
-/

namespace Uv

theorem Name.text_injective : Function.Injective Name.text := by
  intro left right heq
  cases left
  cases right
  cases heq
  rfl

/-- `Ord` for names. -/
instance : LinearOrder Name := LinearOrder.lift' Name.text Name.text_injective

end Uv

namespace Uv.Resolver

/-- Extras come before groups, groups before projects. -/
def ConflictKind.key : ConflictKind → ℕ ×ₗ List Char
  | .extra name => toLex (0, name.text)
  | .group name => toLex (1, name.text)
  | .project => toLex (2, [])

def ConflictItem.key (item : ConflictItem) : List Char ×ₗ (ℕ ×ₗ List Char) :=
  toLex (item.package.text, item.kind.key)

theorem ConflictKind.key_injective : Function.Injective ConflictKind.key := by
  intro left right heq
  cases left <;> cases right <;>
    simp_all [key, Name.text_injective.eq_iff]

theorem ConflictItem.key_injective : Function.Injective ConflictItem.key := by
  intro left right heq
  obtain ⟨hpackage, hkind⟩ := Prod.ext_iff.mp (toLex_inj.mp heq)
  cases left
  cases right
  cases Name.text_injective hpackage
  cases ConflictKind.key_injective hkind
  rfl

/-- `Ord` for conflict items. -/
instance : LinearOrder ConflictItem :=
  LinearOrder.lift' ConflictItem.key ConflictItem.key_injective

end Uv.Resolver

namespace Uv.PypiTypes

open Uv.Resolver (ConflictItem ConflictKind)

/-- An error that occurs when the given conflicting set is invalid. -/
inductive ConflictError where
  | zeroItems
  | oneItem
  | missingPackage
  | missingPackageAndExtraAndGroup
  | foundExtraAndGroup
  | replaceMissingConflictItem
  deriving DecidableEq

/-! ## Conflict sets -/

/-- A single set of items that conflict with one another. -/
abbrev ConflictSet : Type := Finset ConflictItem

/-- A list of conflicting sets. -/
abbrev Conflicts : Type := List ConflictSet

namespace ConflictSet

/-- The items in their order. -/
def iter (set : ConflictSet) : List ConflictItem :=
  Quot.liftOn set.val (List.insertionSort (· ≤ ·)) fun left right hperm => by
    have hsorted := ((List.perm_insertionSort (· ≤ ·) left).trans hperm).trans
      (List.perm_insertionSort (· ≤ ·) right).symm
    exact hsorted.eq_of_pairwise' (List.pairwise_insertionSort (· ≤ ·) left)
      (List.pairwise_insertionSort (· ≤ ·) right)

def containsItem (set : ConflictSet) (conflictItem : ConflictItem) : Bool :=
  conflictItem ∈ set

/-- Replace an old item with a new one. -/
def replacedItem (set : ConflictSet) (old new : ConflictItem) :
    Except ConflictError ConflictSet :=
  if old ∉ set then .error .replaceMissingConflictItem
  else .ok (insert new (set.erase old))

/-- `TryFrom<Vec<ConflictItem>>`. -/
def tryFrom (items : List ConflictItem) : Except ConflictError ConflictSet :=
  match items.length with
  | 0 => .error .zeroItems
  | 1 => .error .oneItem
  | _ => .ok items.toFinset

theorem coe_iter (set : ConflictSet) : (set.iter : Multiset ConflictItem) = set.val := by
  obtain ⟨items, hnodup⟩ := set
  induction items using Quot.inductionOn with
  | _ items => exact Multiset.coe_eq_coe.mpr (List.perm_insertionSort (· ≤ ·) items)

@[simp]
theorem mem_iter {set : ConflictSet} {item : ConflictItem} :
    item ∈ set.iter ↔ item ∈ set := by
  rw [← Multiset.mem_coe, coe_iter, Finset.mem_val]

theorem toFinset_iter (set : ConflictSet) : set.iter.toFinset = set := by
  ext item
  rw [List.mem_toFinset, mem_iter]

theorem length_iter (set : ConflictSet) : set.iter.length = set.card := by
  rw [← Multiset.coe_card, coe_iter, Finset.card_val]

end ConflictSet

/-! ## Dependency groups -/

/-- A specifier item in a dependency group. -/
inductive DependencyGroupSpecifier where
  | requirement (text : String)
  | includeGroup (includeGroup : GroupName)
  | object (entries : List (String × String))

/-- The groups in the order of their names. -/
structure DependencyGroups where
  entries : List (GroupName × List DependencyGroupSpecifier)
  sorted : (entries.map Prod.fst).Pairwise (· < ·)

def DependencyGroups.keys (groups : DependencyGroups) : List GroupName :=
  groups.entries.map Prod.fst

/-! ## The inclusion graph -/

/-- A node of the graph: its group, its conflict item and its first canonical
items. -/
structure GroupNode where
  group : GroupName
  item : ConflictItem
  canonicalItems : Finset ConflictItem

/-- Whether there is a node for the group.  There is never a second one. -/
def seen (nodes : List GroupNode) (group : GroupName) : Bool :=
  nodes.any (·.group = group)

/-- A group that a conflict set names. -/
def addConflictItem (nodes : List GroupNode) (item : ConflictItem) : List GroupNode :=
  match item.kind with
  | .group group =>
      if seen nodes group then nodes else nodes ++ [⟨group, item, {item}⟩]
  | .extra _ => nodes
  | .project => nodes

/-- A remaining group. -/
def addGroup (package : PackageName) (nodes : List GroupNode) (group : GroupName) :
    List GroupNode :=
  if seen nodes group then nodes
  else nodes ++ [⟨group, ⟨package, .group group⟩, ∅⟩]

def groupNodes (sets : Conflicts) (package : PackageName) (groups : DependencyGroups) :
    List GroupNode :=
  groups.keys.foldl (addGroup package)
    (sets.foldl (fun nodes set => set.iter.foldl addConflictItem nodes) [])

/-- The edges from included to including groups. -/
def groupEdges (nodes : List GroupNode) (groups : DependencyGroups) :
    List (GroupName × GroupName) :=
  groups.entries.flatMap fun (group, specifiers) =>
    if seen nodes group then
      specifiers.filterMap fun specifier =>
        match specifier with
        | .includeGroup included =>
            if seen nodes included then some (included, group) else none
        | .requirement _ => none
        | .object _ => none
    else []

/-- `graph.neighbors(node)`. -/
def neighbors (edges : List (GroupName × GroupName)) (node : GroupName) :
    List GroupName :=
  (edges.reverse.filter (·.1 = node)).map Prod.snd

/-! ## Propagation -/

/-- The canonical items of each node so far, and the substitutes of each
canonical item. -/
structure Propagation where
  canonicalItems : GroupName → Finset ConflictItem
  substitutions : Finset (ConflictItem × ConflictItem)

def Propagation.start (nodes : List GroupNode) : Propagation where
  canonicalItems group :=
    match nodes.find? (·.group = group) with
    | some node => node.canonicalItems
    | none => ∅
  substitutions := ∅

/-- The node hands its canonical items on to a neighbor. -/
def propagateTo (nodes : List GroupNode) (node : GroupName) (state : Propagation)
    (neighbor : GroupName) : Option Propagation :=
  match nodes.find? (·.group = neighbor) with
  -- "ConflictItem should already be in graph"
  | none => none
  | some neighborNode =>
      some {
        canonicalItems := Function.update state.canonicalItems neighbor
          (state.canonicalItems neighbor ∪ state.canonicalItems node)
        substitutions := state.substitutions ∪
          (state.canonicalItems node).image (·, neighborNode.item) }

def propagate (nodes : List GroupNode) (edges : List (GroupName × GroupName))
    (state : Propagation) (node : GroupName) : Option Propagation :=
  (neighbors edges node).foldlM (propagateTo nodes node) state

/-! ## Expansion -/

/-- What is not in the source: the topological sort, and the orders in which the
substitutions and the new conflict sets are visited. -/
structure Runtime where
  toposort : List GroupNode → List (GroupName × GroupName) → Option (List GroupName)
  substitutionOrder : Finset ConflictItem → List ConflictItem
  setOrder : Finset ConflictSet → List ConflictSet

/-- The substitutes of an item. -/
def substitutes (substitutions : Finset (ConflictItem × ConflictItem))
    (canonicalItem : ConflictItem) : Finset ConflictItem :=
  (substitutions.filter (·.1 = canonicalItem)).image Prod.snd

/-- The sets that arise when one canonical item is replaced. -/
def newConflictSets (substitutions : Finset (ConflictItem × ConflictItem))
    (conflictSets : Finset ConflictSet) (canonicalItem : ConflictItem) :
    Finset ConflictSet :=
  (conflictSets.filter (ConflictSet.containsItem · canonicalItem)).biUnion
    fun conflictSet => (substitutes substitutions canonicalItem).biUnion fun sub =>
      -- "`ConflictItem` should be in `ConflictSet`"
      match conflictSet.replacedItem canonicalItem sub with
      | .ok newSet => if newSet ∈ conflictSets then ∅ else {newSet}
      | .error _ => ∅

def substituteItem (substitutions : Finset (ConflictItem × ConflictItem))
    (conflictSets : Finset ConflictSet) (canonicalItem : ConflictItem) :
    Finset ConflictSet :=
  conflictSets ∪ newConflictSets substitutions conflictSets canonicalItem

/-- A set is added unless it is there already. -/
def pushNew (sets : Conflicts) (set : ConflictSet) : Conflicts :=
  if set ∈ sets then sets else sets ++ [set]

/-- Expand conflicts to all sets that can be transitively inferred from group
conflicts; `none` stands for a panic. -/
def Conflicts.expandTransitiveGroupIncludes (runtime : Runtime) (sets : Conflicts)
    (package : PackageName) (groups : DependencyGroups) : Option Conflicts :=
  let nodes := groupNodes sets package groups
  let edges := groupEdges nodes groups
  match runtime.toposort nodes edges with
  | none => some sets
  | some topoNodes =>
      (topoNodes.foldlM (propagate nodes edges) (.start nodes)).map fun state =>
        let keys := runtime.substitutionOrder (state.substitutions.image Prod.fst)
        let conflictSets := keys.foldl (substituteItem state.substitutions) sets.toFinset
        (runtime.setOrder conflictSets).foldl pushNew sets

end Uv.PypiTypes
