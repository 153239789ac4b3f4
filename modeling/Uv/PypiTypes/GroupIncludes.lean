import Uv.Core.Graph
import Uv.Core.Substitution
import Uv.PypiTypes.Conflicts

/-!
# Transitive group includes

Every run of the expansion replaces the same items by the same items, whatever
the order of the hash maps: a group's item, the first one in the conflicts that
has the group's name, by the items of the groups that include it.  Names do not
say which package a group belongs to, so the outcome is the intended one if the
items that come first are those of the table's own package.
-/

namespace Uv.PypiTypes

open Relation
open Uv.Core
open Uv.Resolver (ConflictItem ConflictKind)

/-! ## Items of groups -/

/-- The first item with the group's name. -/
def firstItem (sets : Conflicts) (group : GroupName) : Option ConflictItem :=
  (sets.flatMap ConflictSet.iter).find? (·.kind = .group group)

/-- The item a group stands for. -/
def itemOf (sets : Conflicts) (package : PackageName) (group : GroupName) :
    ConflictItem :=
  (firstItem sets group).getD ⟨package, .group group⟩

theorem kind_firstItem {sets : Conflicts} {group : GroupName} {item : ConflictItem}
    (hitem : firstItem sets group = some item) : item.kind = .group group := by
  have hfound := List.find?_some hitem
  simpa using hfound

theorem kind_itemOf (sets : Conflicts) (package : PackageName) (group : GroupName) :
    (itemOf sets package group).kind = .group group := by
  rw [itemOf]
  cases hitem : firstItem sets group with
  | none => rfl
  | some item => exact kind_firstItem hitem

/-- The second group includes the first one. -/
def DependencyGroups.Includes (groups : DependencyGroups)
    (included group : GroupName) : Prop :=
  ∃ specifiers, (group, specifiers) ∈ groups.entries ∧
    .includeGroup included ∈ specifiers

/-- No group includes itself. -/
def DependencyGroups.Acyclic (groups : DependencyGroups) : Prop :=
  ∀ group, ¬ TransGen groups.Includes group group

theorem DependencyGroups.Includes.mem_keys {groups : DependencyGroups}
    {included group : GroupName} (hincludes : groups.Includes included group) :
    group ∈ groups.keys := by
  obtain ⟨specifiers, hmem, -⟩ := hincludes
  exact List.mem_map.mpr ⟨_, hmem, rfl⟩

/-! ## The graph -/

theorem seen_eq (nodes : List GroupNode) (group : GroupName) :
    seen nodes group = (nodes.find? (·.group = group)).isSome :=
  List.isSome_find?.symm

theorem find_addConflictItem (nodes : List GroupNode) (item : ConflictItem)
    (group : GroupName) :
    (addConflictItem nodes item).find? (·.group = group) =
      (nodes.find? (·.group = group)).or
        (if item.kind = .group group then some ⟨group, item, {item}⟩ else none) := by
  unfold addConflictItem
  cases hkind : item.kind with
  | extra name => simp
  | project => simp
  | group name =>
      dsimp only
      by_cases hname : name = group
      · subst hname
        rw [if_pos rfl, seen_eq]
        cases hfind : nodes.find? (·.group = name) with
        | none => simp [hfind]
        | some node => simp [hfind]
      · have hkinds : ¬ ConflictKind.group name = .group group := by
          simpa using hname
        rw [if_neg hkinds, Option.or_none]
        split
        · rfl
        · simp [List.find?_append, hname]

theorem find_foldl_addConflictItem (items : List ConflictItem) (nodes : List GroupNode)
    (group : GroupName) :
    (items.foldl addConflictItem nodes).find? (·.group = group) =
      (nodes.find? (·.group = group)).or
        ((items.find? (·.kind = .group group)).map fun item =>
          ⟨group, item, {item}⟩) := by
  induction items generalizing nodes with
  | nil => simp
  | cons item items ih =>
      rw [List.foldl_cons, ih, find_addConflictItem, Option.or_assoc, List.find?_cons]
      by_cases hkind : item.kind = .group group <;> simp [hkind]

theorem find_foldl_addGroup (package : PackageName) (keys : List GroupName)
    (nodes : List GroupNode) (group : GroupName) :
    (keys.foldl (addGroup package) nodes).find? (·.group = group) =
      (nodes.find? (·.group = group)).or
        (if group ∈ keys then some ⟨group, ⟨package, .group group⟩, ∅⟩ else none) := by
  induction keys generalizing nodes with
  | nil => simp
  | cons key keys ih =>
      have hone : (addGroup package nodes key).find? (·.group = group) =
          (nodes.find? (·.group = group)).or
            (if key = group then some ⟨group, ⟨package, .group group⟩, ∅⟩ else none) := by
        unfold addGroup
        rw [seen_eq]
        by_cases hkey : key = group
        · subst hkey
          cases hfind : nodes.find? (·.group = key) <;> simp [hfind]
        · split <;> simp [List.find?_append, hkey]
      rw [List.foldl_cons, ih, hone, Option.or_assoc]
      by_cases hkey : key = group
      · simp [hkey]
      · have hkey' : ¬ group = key := fun heq => hkey heq.symm
        simp [hkey, hkey']

section Graph

variable (sets : Conflicts) (package : PackageName) (groups : DependencyGroups)

/-- The node of a group, if it has one. -/
theorem find_groupNodes (group : GroupName) :
    (groupNodes sets package groups).find? (·.group = group) =
      ((firstItem sets group).map fun item => ⟨group, item, {item}⟩).or
        (if group ∈ groups.keys then some ⟨group, ⟨package, .group group⟩, ∅⟩
        else none) := by
  rw [groupNodes, find_foldl_addGroup, ← List.foldl_flatMap,
    find_foldl_addConflictItem, List.find?_nil, Option.none_or, firstItem]

theorem item_groupNodes {group : GroupName} {node : GroupNode}
    (hnode : (groupNodes sets package groups).find? (·.group = group) = some node) :
    node.item = itemOf sets package group := by
  rw [find_groupNodes] at hnode
  rw [itemOf]
  cases hitem : firstItem sets group with
  | none =>
      rw [hitem, Option.map_none, Option.none_or] at hnode
      split at hnode
      · cases hnode
        rfl
      · cases hnode
  | some item =>
      rw [hitem] at hnode
      cases hnode
      rfl

theorem mem_start_canonicalItems {group : GroupName} {item : ConflictItem} :
    item ∈ (Propagation.start (groupNodes sets package groups)).canonicalItems group ↔
      firstItem sets group = some item := by
  simp only [Propagation.start, find_groupNodes]
  cases firstItem sets group with
  | none => by_cases hkey : group ∈ groups.keys <;> simp [hkey]
  | some first => simp [eq_comm]

theorem seen_groupNodes {group : GroupName} :
    seen (groupNodes sets package groups) group = true ↔
      (firstItem sets group).isSome = true ∨ group ∈ groups.keys := by
  rw [seen_eq, find_groupNodes, Option.isSome_or]
  cases firstItem sets group <;> simp

/-- The edges of the graph. -/
def Edge (included group : GroupName) : Prop :=
  (included, group) ∈ groupEdges (groupNodes sets package groups) groups

theorem edge_iff {included group : GroupName} :
    Edge sets package groups included group ↔
      seen (groupNodes sets package groups) included = true ∧
        groups.Includes included group := by
  rw [Edge, groupEdges, List.mem_flatMap]
  constructor
  · rintro ⟨⟨key, specifiers⟩, hentry, hmem⟩
    dsimp only at hmem
    split at hmem
    · obtain ⟨specifier, hspecifier, hsome⟩ := List.mem_filterMap.mp hmem
      split at hsome
      · rename_i name
        split at hsome
        · rename_i hseen
          cases hsome
          exact ⟨hseen, specifiers, hentry, hspecifier⟩
        · cases hsome
      · cases hsome
      · cases hsome
    · cases hmem
  · rintro ⟨hseen, specifiers, hentry, hspecifier⟩
    have hkey : group ∈ groups.keys := List.mem_map.mpr ⟨_, hentry, rfl⟩
    refine ⟨(group, specifiers), hentry, ?_⟩
    dsimp only
    rw [if_pos ((seen_groupNodes sets package groups).mpr (.inr hkey)),
      List.mem_filterMap]
    exact ⟨_, hspecifier, if_pos hseen⟩

/-- From a group that has a node, the paths of the graph are those of the table. -/
theorem transGen_edge_iff {included group : GroupName}
    (hseen : seen (groupNodes sets package groups) included = true) :
    TransGen (Edge sets package groups) included group ↔
      TransGen groups.Includes included group := by
  constructor
  · exact TransGen.mono (fun _ _ hedge =>
      ((edge_iff sets package groups).mp hedge).2) _ _
  · intro hpath
    induction hpath with
    | single hincludes => exact .single ((edge_iff sets package groups).mpr ⟨hseen, hincludes⟩)
    | @tail middle _ hpath hincludes ih =>
        have hkey : seen (groupNodes sets package groups) middle = true := by
          obtain ⟨_, -, hlast⟩ := TransGen.tail'_iff.mp hpath
          exact (seen_groupNodes sets package groups).mpr (.inr hlast.mem_keys)
        exact ih.tail ((edge_iff sets package groups).mpr ⟨hkey, hincludes⟩)

theorem mem_neighbors {node neighbor : GroupName} :
    neighbor ∈ neighbors (groupEdges (groupNodes sets package groups) groups) node ↔
      Edge sets package groups node neighbor := by
  simp only [neighbors, List.mem_map, List.mem_filter, List.mem_reverse,
    decide_eq_true_eq, Edge]
  constructor
  · rintro ⟨⟨source, target⟩, ⟨hmem, rfl⟩, rfl⟩
    exact hmem
  · exact fun hmem => ⟨(node, neighbor), ⟨hmem, rfl⟩, rfl⟩

theorem seen_of_edge {included group : GroupName}
    (hedge : Edge sets package groups included group) :
    seen (groupNodes sets package groups) group = true :=
  (seen_groupNodes sets package groups).mpr
    (.inr ((edge_iff sets package groups).mp hedge).2.mem_keys)

/-! ## Propagation -/

/-- What a node hands on to its neighbors, and what is recorded of it. -/
theorem foldlM_propagateTo {node : GroupName} {targets : List GroupName}
    (hseen : ∀ target ∈ targets, seen (groupNodes sets package groups) target = true)
    (hself : node ∉ targets) (state : Propagation) :
    ∃ state', targets.foldlM (propagateTo (groupNodes sets package groups) node) state =
        some state' ∧
      (∀ group item, item ∈ state'.canonicalItems group ↔
        item ∈ state.canonicalItems group ∨
          group ∈ targets ∧ item ∈ state.canonicalItems node) ∧
      ∀ item sub, (item, sub) ∈ state'.substitutions ↔
        (item, sub) ∈ state.substitutions ∨ item ∈ state.canonicalItems node ∧
          ∃ target ∈ targets, sub = itemOf sets package target := by
  induction targets generalizing state with
  | nil =>
      refine ⟨state, rfl, ?_, ?_⟩ <;> simp
  | cons target targets ih =>
      obtain ⟨targetNode, hnode⟩ : ∃ targetNode,
          (groupNodes sets package groups).find? (·.group = target) = some targetNode := by
        have htarget := hseen target (by simp)
        rw [seen_eq] at htarget
        exact Option.isSome_iff_exists.mp htarget
      have hitem := item_groupNodes sets package groups hnode
      have hne : node ≠ target := fun heq => hself (by simp [heq])
      let next : Propagation := {
        canonicalItems := Function.update state.canonicalItems target
          (state.canonicalItems target ∪ state.canonicalItems node)
        substitutions := state.substitutions ∪
          (state.canonicalItems node).image (·, targetNode.item) }
      have hnext : propagateTo (groupNodes sets package groups) node state target =
          some next := by
        rw [propagateTo, hnode]
      obtain ⟨state', hrun, hcanonical, hsubs⟩ := ih
        (fun t ht => hseen t (List.mem_cons_of_mem _ ht))
        (fun hmem => hself (List.mem_cons_of_mem _ hmem)) next
      have hsame : next.canonicalItems node = state.canonicalItems node :=
        Function.update_of_ne hne _ _
      refine ⟨state', ?_, ?_, ?_⟩
      · rw [List.foldlM_cons, hnext]
        exact hrun
      · intro group item
        rw [hcanonical, hsame]
        by_cases hgroup : group = target
        · subst hgroup
          have hhere : next.canonicalItems group =
              state.canonicalItems group ∪ state.canonicalItems node :=
            Function.update_self _ _ _
          rw [hhere, Finset.mem_union]
          simp only [List.mem_cons, true_or, true_and]
          tauto
        · have hhere : next.canonicalItems group = state.canonicalItems group :=
            Function.update_of_ne hgroup _ _
          simp [hhere, hgroup]
      · intro item sub
        rw [hsubs, hsame]
        simp only [next, Finset.mem_union, Finset.mem_image, Prod.mk.injEq, hitem,
          List.mem_cons, exists_eq_or_imp]
        constructor
        · rintro ((hold | ⟨c, hc, rfl, rfl⟩) | ⟨hc, hrest⟩)
          · exact .inl hold
          · exact .inr ⟨hc, .inl rfl⟩
          · exact .inr ⟨hc, .inr hrest⟩
        · rintro (hold | ⟨hc, rfl | hrest⟩)
          · exact .inl (.inl hold)
          · exact .inl (.inr ⟨item, hc, rfl, rfl⟩)
          · exact .inr ⟨hc, hrest⟩

/-- What is known once some groups have been visited: canonical items have gone
along the edges out of these. -/
structure Propagated (done : List GroupName) (state : Propagation) : Prop where
  canonicalItems : ∀ group item, item ∈ state.canonicalItems group ↔
    ∃ first, firstItem sets first = some item ∧
      ReflTransGen (Visited (Edge sets package groups) done) first group
  substitutions : ∀ item sub, (item, sub) ∈ state.substitutions ↔
    ∃ first group, firstItem sets first = some item ∧
      TransGen (Visited (Edge sets package groups) done) first group ∧
        sub = itemOf sets package group

theorem propagated_start :
    Propagated sets package groups [] (.start (groupNodes sets package groups)) where
  canonicalItems group item := by
    rw [mem_start_canonicalItems]
    constructor
    · exact fun hitem => ⟨group, hitem, .refl⟩
    · rintro ⟨first, hitem, hreach⟩
      rcases hreach.cases_head with rfl | ⟨_, hstep, -⟩
      · exact hitem
      · cases hstep.1
  substitutions item sub := by
    constructor
    · intro hmem
      cases hmem
    · rintro ⟨first, group, -, hreach, -⟩
      obtain ⟨_, hstep, -⟩ := TransGen.head'_iff.mp hreach
      cases hstep.1

/-- One more group in topological order. -/
theorem Propagated.propagate {done rest : List GroupName} {node : GroupName}
    (horder : Topological (Edge sets package groups) (done ++ node :: rest))
    {state : Propagation} (hstate : Propagated sets package groups done state) :
    ∃ state', propagate (groupNodes sets package groups)
        (groupEdges (groupNodes sets package groups) groups) state node = some state' ∧
      Propagated sets package groups (done ++ [node]) state' := by
  have hneighbors := fun neighbor => @mem_neighbors sets package groups node neighbor
  obtain ⟨state', hrun, hcanonical, hsubs⟩ := foldlM_propagateTo sets package groups
    (fun target htarget => seen_of_edge sets package groups ((hneighbors target).mp htarget))
    (fun hself => horder.irrefl node (by simp) ((hneighbors node).mp hself)) state
  refine ⟨state', hrun, ?_, ?_⟩
  · intro group item
    rw [hcanonical, hneighbors, hstate.canonicalItems, hstate.canonicalItems]
    simp only [horder.reflTransGen_visited]
    constructor
    · rintro (⟨first, hfirst, hreach⟩ | ⟨hedge, first, hfirst, hreach⟩)
      · exact ⟨first, hfirst, .inl hreach⟩
      · exact ⟨first, hfirst, .inr ⟨hreach, hedge⟩⟩
    · rintro ⟨first, hfirst, hreach | ⟨hreach, hedge⟩⟩
      · exact .inl ⟨first, hfirst, hreach⟩
      · exact .inr ⟨hedge, first, hfirst, hreach⟩
  · intro item sub
    rw [hsubs, hstate.substitutions, hstate.canonicalItems]
    simp only [horder.transGen_visited, hneighbors]
    constructor
    · rintro (⟨first, group, hfirst, hreach, hsub⟩ |
        ⟨⟨first, hfirst, hreach⟩, group, hedge, hsub⟩)
      · exact ⟨first, group, hfirst, .inl hreach, hsub⟩
      · exact ⟨first, group, hfirst, .inr ⟨hreach, hedge⟩, hsub⟩
    · rintro ⟨first, group, hfirst, hreach | ⟨hreach, hedge⟩, hsub⟩
      · exact .inl ⟨first, group, hfirst, hreach, hsub⟩
      · exact .inr ⟨⟨first, hfirst, hreach⟩, group, hedge, hsub⟩

theorem Propagated.foldlM {rest : List GroupName} {done : List GroupName}
    (horder : Topological (Edge sets package groups) (done ++ rest))
    {state : Propagation} (hstate : Propagated sets package groups done state) :
    ∃ state', rest.foldlM (PypiTypes.propagate (groupNodes sets package groups)
        (groupEdges (groupNodes sets package groups) groups)) state = some state' ∧
      Propagated sets package groups (done ++ rest) state' := by
  induction rest generalizing done state with
  | nil => exact ⟨state, rfl, by rwa [List.append_nil]⟩
  | cons node rest ih =>
      obtain ⟨next, hnext, hpropagated⟩ := hstate.propagate sets package groups horder
      rw [List.append_cons] at horder ⊢
      obtain ⟨state', hrun, hfinal⟩ := ih horder hpropagated
      refine ⟨state', ?_, hfinal⟩
      rw [List.foldlM_cons, hnext]
      exact hrun

end Graph

/-! ## Expansion -/

/-- What the graph library promises about `toposort`. -/
def IsToposort (nodes : List GroupNode) (edges : List (GroupName × GroupName)) :
    Option (List GroupName) → Prop
  | some order => order.Perm (nodes.map GroupNode.group) ∧
      Topological (fun included group => (included, group) ∈ edges) order
  | none => ∃ group, TransGen (fun included group => (included, group) ∈ edges) group group

/-- The parameters do for this input what they stand for. -/
structure Runtime.Valid (runtime : Runtime) (sets : Conflicts) (package : PackageName)
    (groups : DependencyGroups) : Prop where
  toposort : IsToposort (groupNodes sets package groups)
    (groupEdges (groupNodes sets package groups) groups)
    (runtime.toposort (groupNodes sets package groups)
      (groupEdges (groupNodes sets package groups) groups))
  mem_substitutionOrder : ∀ items item,
    item ∈ runtime.substitutionOrder items ↔ item ∈ items
  mem_setOrder : ∀ sets set, set ∈ runtime.setOrder sets ↔ set ∈ sets

/-- What the code replaces: the first item with a group's name, by the items of
the groups that include the group. -/
def Replaces (sets : Conflicts) (package : PackageName) (groups : DependencyGroups)
    (item sub : ConflictItem) : Prop :=
  ∃ first group, firstItem sets first = some item ∧
    TransGen groups.Includes first group ∧ sub = itemOf sets package group

section Expansion

variable {runtime : Runtime} {sets : Conflicts} {package : PackageName}
  {groups : DependencyGroups}

theorem Replaces.trans {item sub sub' : ConflictItem}
    (hitem : Replaces sets package groups item sub)
    (hsub : Replaces sets package groups sub sub') :
    Replaces sets package groups item sub' := by
  obtain ⟨first, group, hfirst, hpath, rfl⟩ := hitem
  obtain ⟨first', group', hfirst', hpath', rfl⟩ := hsub
  have hkind := kind_firstItem hfirst'
  rw [kind_itemOf] at hkind
  cases hkind
  exact ⟨first, group', hfirst, hpath.trans hpath', rfl⟩

theorem substituteItem_eq (substitutions : Finset (ConflictItem × ConflictItem)) :
    substituteItem substitutions = substituteOne (substitutes substitutions) := by
  funext conflictSets item
  ext target
  rw [mem_substituteOne, substituteItem, Finset.mem_union]
  simp only [newConflictSets, Finset.mem_biUnion, Finset.mem_filter,
    ConflictSet.containsItem, decide_eq_true_eq]
  constructor
  · rintro (hold | ⟨set, ⟨hset, hitem⟩, sub, hsub, htarget⟩)
    · exact .inl hold
    · rw [ConflictSet.replacedItem, if_neg (not_not.mpr hitem)] at htarget
      dsimp only at htarget
      split at htarget
      · cases htarget
      · rw [Finset.mem_singleton] at htarget
        exact .inr ⟨set, hset, hitem, sub, hsub, htarget.symm⟩
  · rintro (hold | ⟨set, hset, hitem, sub, hsub, htarget⟩)
    · exact .inl hold
    · by_cases hold : target ∈ conflictSets
      · exact .inl hold
      · refine .inr ⟨set, ⟨hset, hitem⟩, sub, hsub, ?_⟩
        rw [ConflictSet.replacedItem, if_neg (not_not.mpr hitem)]
        dsimp only
        rw [htarget, if_neg hold]
        exact Finset.mem_singleton_self target

theorem mem_substitutes {substitutions : Finset (ConflictItem × ConflictItem)}
    {item sub : ConflictItem} :
    sub ∈ substitutes substitutions item ↔ (item, sub) ∈ substitutions := by
  simp only [substitutes, Finset.mem_image, Finset.mem_filter]
  constructor
  · rintro ⟨⟨first, second⟩, ⟨hmem, rfl⟩, rfl⟩
    exact hmem
  · exact fun hmem => ⟨(item, sub), ⟨hmem, rfl⟩, rfl⟩

theorem foldl_pushNew (found sets : Conflicts) :
    ∃ new, found.foldl pushNew sets = sets ++ new ∧ new.Nodup ∧
      ∀ set, set ∈ new ↔ set ∈ found ∧ set ∉ sets := by
  induction found generalizing sets with
  | nil => exact ⟨[], (List.append_nil sets).symm, List.nodup_nil, by simp⟩
  | cons set found ih =>
      rw [List.foldl_cons, pushNew]
      by_cases hset : set ∈ sets
      · obtain ⟨new, hfold, hnodup, hmem⟩ := ih sets
        rw [if_pos hset]
        refine ⟨new, hfold, hnodup, fun other => ?_⟩
        rw [hmem, List.mem_cons]
        constructor
        · exact fun hother => ⟨.inr hother.1, hother.2⟩
        · rintro ⟨rfl | hother, hnot⟩
          · exact (hnot hset).elim
          · exact ⟨hother, hnot⟩
      · obtain ⟨new, hfold, hnodup, hmem⟩ := ih (sets ++ [set])
        rw [if_neg hset]
        refine ⟨set :: new, by rw [hfold, List.append_assoc, List.singleton_append],
          List.nodup_cons.mpr ⟨fun hin => ?_, hnodup⟩, fun other => ?_⟩
        · exact ((hmem set).mp hin).2 (by simp)
        · rw [List.mem_cons, hmem, List.mem_cons, List.mem_append, List.mem_singleton]
          by_cases heq : other = set
          · subst heq
            simp [hset]
          · simp [heq]

theorem edge_le_includes :
    Edge sets package groups ≤ groups.Includes :=
  fun _ _ hedge => ((edge_iff sets package groups).mp hedge).2

theorem visited_edge {order : List GroupName}
    (hseen : ∀ group, seen (groupNodes sets package groups) group = true →
      group ∈ order) :
    Visited (Edge sets package groups) order = Edge sets package groups := by
  funext included group
  apply propext
  exact ⟨And.right, fun hedge =>
    ⟨hseen _ ((edge_iff sets package groups).mp hedge).1, hedge⟩⟩

/-- The sort of the graph fails exactly if the table has a cycle. -/
theorem Runtime.Valid.cases (hvalid : runtime.Valid sets package groups) :
    (runtime.toposort (groupNodes sets package groups)
        (groupEdges (groupNodes sets package groups) groups) = none ∧
      ¬ groups.Acyclic) ∨
    groups.Acyclic ∧ ∃ order, runtime.toposort (groupNodes sets package groups)
        (groupEdges (groupNodes sets package groups) groups) = some order ∧
      Topological (Edge sets package groups) order ∧
      ∀ group, seen (groupNodes sets package groups) group = true → group ∈ order := by
  have htoposort := hvalid.toposort
  cases hresult : runtime.toposort (groupNodes sets package groups)
      (groupEdges (groupNodes sets package groups) groups) with
  | none =>
      rw [hresult] at htoposort
      obtain ⟨group, hcycle⟩ := htoposort
      have hpath : TransGen groups.Includes group group :=
        TransGen.mono edge_le_includes _ _ hcycle
      exact .inl ⟨rfl, fun hacyclic => hacyclic group hpath⟩
  | some order =>
      rw [hresult] at htoposort
      have hmem : ∀ group, seen (groupNodes sets package groups) group = true →
          group ∈ order := by
        intro group hseen
        obtain ⟨node, hnode, hgroup⟩ := List.any_eq_true.mp hseen
        rw [htoposort.1.mem_iff, List.mem_map]
        exact ⟨node, hnode, by simpa using hgroup⟩
      refine .inr ⟨fun group hcycle => ?_, order, rfl, htoposort.2, hmem⟩
      obtain ⟨_, -, hlast⟩ := TransGen.tail'_iff.mp hcycle
      rw [← transGen_edge_iff sets package groups
        ((seen_groupNodes sets package groups).mpr (.inr hlast.mem_keys)),
        ← visited_edge hmem] at hcycle
      exact htoposort.2.not_transGen_visited group hcycle

/-- What the propagation finds. -/
theorem Propagated.mem_substitutions {order : List GroupName}
    (hseen : ∀ group, seen (groupNodes sets package groups) group = true →
      group ∈ order) {state : Propagation}
    (hstate : Propagated sets package groups order state) {item sub : ConflictItem} :
    (item, sub) ∈ state.substitutions ↔ Replaces sets package groups item sub := by
  rw [hstate.substitutions, visited_edge hseen]
  apply exists_congr
  intro first
  apply exists_congr
  intro group
  apply and_congr_right
  intro hfirst
  rw [transGen_edge_iff sets package groups
    ((seen_groupNodes sets package groups).mpr (.inl (by rw [hfirst]; rfl)))]

/-- The outcome on a table without cycles: the sets as they were, and every other
set that arises by replacing items. -/
theorem expand_eq (hacyclic : groups.Acyclic) (hvalid : runtime.Valid sets package groups) :
    ∃ new, Conflicts.expandTransitiveGroupIncludes runtime sets package groups =
        some (sets ++ new) ∧ new.Nodup ∧
      ∀ set, set ∈ new ↔ set ∉ sets ∧
        ∃ source ∈ sets, Rewrites (Replaces sets package groups) source set := by
  obtain ⟨-, hcyclic⟩ | ⟨-, order, hresult, horder, hseen⟩ := hvalid.cases
  · exact (hcyclic hacyclic).elim
  obtain ⟨state, hrun, hpropagated⟩ :=
    @Propagated.foldlM sets package groups order [] horder _
      (propagated_start sets package groups)
  rw [List.nil_append] at hpropagated
  have hsubs : ∀ item sub, sub ∈ substitutes state.substitutions item ↔
      Replaces sets package groups item sub := by
    intro item sub
    rw [mem_substitutes, hpropagated.mem_substitutions hseen]
  obtain ⟨new, hnew, hnodup, hmem⟩ := foldl_pushNew (runtime.setOrder
    ((runtime.substitutionOrder (state.substitutions.image Prod.fst)).foldl
      (substituteItem state.substitutions) sets.toFinset)) sets
  refine ⟨new, ?_, hnodup, fun set => ?_⟩
  · rw [Conflicts.expandTransitiveGroupIncludes, hresult]
    dsimp only
    rw [hrun, ← hnew]
    rfl
  · rw [hmem, hvalid.mem_setOrder, substituteItem_eq, and_comm, mem_foldl_substituteOne]
    · have hrelation : (fun item sub => sub ∈ substitutes state.substitutions item) =
          Replaces sets package groups := by
        funext item sub
        exact propext (hsubs item sub)
      simp only [List.mem_toFinset, hrelation]
    · intro item sub sub' hsub hsub'
      rw [hsubs] at hsub hsub' ⊢
      exact hsub.trans hsub'
    · rintro item ⟨sub, hsub⟩
      rw [hvalid.mem_substitutionOrder, Finset.mem_image]
      exact ⟨(item, sub), mem_substitutes.mp hsub, rfl⟩

/-- Nothing is added on a table with a cycle. -/
theorem expand_eq_of_cyclic (hcyclic : ¬ groups.Acyclic)
    (hvalid : runtime.Valid sets package groups) :
    Conflicts.expandTransitiveGroupIncludes runtime sets package groups = some sets := by
  obtain ⟨hresult, -⟩ | ⟨hacyclic, -⟩ := hvalid.cases
  · rw [Conflicts.expandTransitiveGroupIncludes, hresult]
  · exact (hcyclic hacyclic).elim

/-! ## The intended expansion -/

/-- An item of the package's own may become that of a group that includes it. -/
def Includes (package : PackageName) (groups : DependencyGroups)
    (item sub : ConflictItem) : Prop :=
  ∃ included group, item = ⟨package, .group included⟩ ∧
    TransGen groups.Includes included group ∧ sub = ⟨package, .group group⟩

/-- The original sets, and once each every other set that arises when items of
the package become those of groups that include them. -/
def Expands (sets : Conflicts) (package : PackageName) (groups : DependencyGroups)
    (result : Option Conflicts) : Prop :=
  ∃ new, result = some (sets ++ new) ∧ new.Nodup ∧
    ∀ set, set ∈ new ↔ set ∉ sets ∧
      ∃ source ∈ sets, Rewrites (Includes package groups) source set

/-- Where a group of the conflicts is included by others, the items that come
first for it and for the others are those of the package. -/
def OwnFirst (sets : Conflicts) (package : PackageName) (groups : DependencyGroups) :
    Prop :=
  ∀ included item, firstItem sets included = some item → ∀ group,
    TransGen groups.Includes included group →
      item.package = package ∧ (itemOf sets package group).package = package

theorem eq_of_kind {item : ConflictItem} {group : GroupName}
    (hkind : item.kind = .group group) (hpackage : item.package = package) :
    item = ⟨package, .group group⟩ := by
  cases item
  cases hkind
  cases hpackage
  rfl

theorem mem_of_firstItem {group : GroupName} {item : ConflictItem}
    (hitem : firstItem sets group = some item) : ∃ set ∈ sets, item ∈ set := by
  obtain ⟨set, hset, hmem⟩ := List.mem_flatMap.mp (List.mem_of_find?_eq_some hitem)
  exact ⟨set, hset, ConflictSet.mem_iter.mp hmem⟩

theorem exists_firstItem {set : ConflictSet} (hset : set ∈ sets) {item : ConflictItem}
    (hitem : item ∈ set) {group : GroupName} (hkind : item.kind = .group group) :
    ∃ first, firstItem sets group = some first := by
  apply Option.isSome_iff_exists.mp
  rw [firstItem, List.find?_isSome]
  exact ⟨item, List.mem_flatMap.mpr ⟨set, hset, ConflictSet.mem_iter.mpr hitem⟩,
    decide_eq_true hkind⟩

/-- The code replaces what it should exactly if the package's items come
first. -/
theorem replaces_iff_includes :
    (∀ set ∈ sets, ∀ item ∈ set, ∀ sub, Replaces sets package groups item sub ↔
      Includes package groups item sub) ↔ OwnFirst sets package groups := by
  constructor
  · intro hsame included item hitem group hpath
    obtain ⟨set, hset, hmem⟩ := mem_of_firstItem hitem
    obtain ⟨_, _, hown, -, hsub⟩ :=
      (hsame set hset item hmem _).mp ⟨included, group, hitem, hpath, rfl⟩
    exact ⟨by rw [hown], by rw [hsub]⟩
  · intro hown set hset item hmem sub
    constructor
    · rintro ⟨first, group, hfirst, hpath, rfl⟩
      obtain ⟨hitem, hsub⟩ := hown first item hfirst group hpath
      exact ⟨first, group, eq_of_kind (kind_firstItem hfirst) hitem, hpath,
        eq_of_kind (kind_itemOf sets package group) hsub⟩
    · rintro ⟨included, group, rfl, hpath, rfl⟩
      obtain ⟨first, hfirst⟩ := exists_firstItem hset hmem rfl
      obtain ⟨hitem, hsub⟩ := hown included first hfirst group hpath
      have heq := eq_of_kind (kind_firstItem hfirst) hitem
      rw [heq] at hfirst
      exact ⟨included, group, hfirst, hpath,
        (eq_of_kind (kind_itemOf sets package group) hsub).symm⟩

/-- Whatever the hash order, the expansion gives the same sets.  They are the
intended ones if the package's items come first, which is when the code replaces
what it should. -/
theorem expandTransitiveGroupIncludes_expands (hacyclic : groups.Acyclic)
    (hvalid : runtime.Valid sets package groups) :
    ((∀ set ∈ sets, ∀ item ∈ set, ∀ sub, Replaces sets package groups item sub ↔
      Includes package groups item sub) ↔ OwnFirst sets package groups) ∧
    (OwnFirst sets package groups → Expands sets package groups
      (Conflicts.expandTransitiveGroupIncludes runtime sets package groups)) ∧
    ∀ runtime' : Runtime, runtime'.Valid sets package groups → ∃ result result',
      Conflicts.expandTransitiveGroupIncludes runtime sets package groups = some result ∧
      Conflicts.expandTransitiveGroupIncludes runtime' sets package groups =
        some result' ∧ result.Perm result' := by
  obtain ⟨new, hresult, hnodup, hmem⟩ := expand_eq hacyclic hvalid
  refine ⟨replaces_iff_includes, ?_, ?_⟩
  · intro hown
    have hsame := replaces_iff_includes.mpr hown
    refine ⟨new, hresult, hnodup, fun set => ?_⟩
    rw [hmem]
    apply and_congr_right
    intro _
    apply exists_congr
    intro source
    apply and_congr_right
    intro hsource
    exact Rewrites.congr (hsame source hsource)
  · intro runtime' hvalid'
    obtain ⟨new', hresult', hnodup', hmem'⟩ := expand_eq hacyclic hvalid'
    refine ⟨_, _, hresult, hresult', List.Perm.append_left sets ?_⟩
    rw [List.perm_ext_iff_of_nodup hnodup hnodup']
    intro set
    rw [hmem, hmem']

end Expansion

/-! ## A concrete table -/

def testGroup : GroupName := ⟨"test".toList, by decide⟩

def devGroup : GroupName := ⟨"dev".toList, by decide⟩

def gpuExtra : ExtraName := ⟨"gpu".toList, by decide⟩

theorem isNormalized_foo : isNormalized "foo".toList = some true := by decide

def foo : PackageName := ⟨"foo".toList, isNormalized_foo⟩

def bar : PackageName := ⟨"bar".toList, by decide⟩

/-- The group `dev` includes the group `test`. -/
def devTable : DependencyGroups where
  entries := [(devGroup, [.includeGroup testGroup])]
  sorted := List.pairwise_singleton _ _

/-- The group `test` and the extra `gpu` of a package conflict. -/
def testConflicts (package : PackageName) : Conflicts :=
  [{⟨package, .group testGroup⟩, ⟨package, .extra gpuExtra⟩}]

theorem includes_devTable {included group : GroupName} :
    devTable.Includes included group ↔ included = testGroup ∧ group = devGroup := by
  constructor
  · rintro ⟨specifiers, hentry, hmem⟩
    cases List.mem_singleton.mp hentry
    cases List.mem_singleton.mp hmem
    exact ⟨rfl, rfl⟩
  · rintro ⟨rfl, rfl⟩
    exact ⟨_, List.mem_singleton_self _, List.mem_singleton_self _⟩

theorem transGen_devTable {included group : GroupName} :
    TransGen devTable.Includes included group ↔
      included = testGroup ∧ group = devGroup := by
  constructor
  · intro hpath
    obtain ⟨_, hfirst, -⟩ := TransGen.head'_iff.mp hpath
    obtain ⟨_, -, hlast⟩ := TransGen.tail'_iff.mp hpath
    exact ⟨(includes_devTable.mp hfirst).1, (includes_devTable.mp hlast).2⟩
  · exact fun hboth => .single (includes_devTable.mpr hboth)

theorem acyclic_devTable : devTable.Acyclic := by
  intro group hcycle
  obtain ⟨rfl, hsame⟩ := transGen_devTable.mp hcycle
  exact absurd hsame (by decide)

theorem exists_valid (sets : Conflicts)
    (hnodes : [testGroup, devGroup].Perm
      ((groupNodes sets foo devTable).map GroupNode.group)) :
    ∃ runtime : Runtime, runtime.Valid sets foo devTable := by
  refine ⟨⟨fun _ _ => some [testGroup, devGroup], ConflictSet.iter, Finset.toList⟩, ?_,
    fun _ _ => ConflictSet.mem_iter, fun _ _ => Finset.mem_toList⟩
  have hedges : ∀ included group,
      (included, group) ∈ groupEdges (groupNodes sets foo devTable) devTable →
        included = testGroup ∧ group = devGroup := fun included group hedge =>
    includes_devTable.mp ((edge_iff sets foo devTable).mp hedge).2
  refine ⟨hnodes, ?_, ?_⟩
  · rw [List.pairwise_pair]
    exact fun hedge => absurd (hedges _ _ hedge).1 (by decide)
  · intro group _ hedge
    obtain ⟨rfl, hsame⟩ := hedges _ _ hedge
    exact absurd hsame (by decide)

/-- The group `dev` of `foo` gets the conflicts of `test`. -/
theorem expandTransitiveGroupIncludes_expands_foo : ∃ runtime : Runtime,
    Expands (testConflicts foo) foo devTable
      (Conflicts.expandTransitiveGroupIncludes runtime (testConflicts foo) foo
        devTable) := by
  obtain ⟨runtime, hvalid⟩ := exists_valid (testConflicts foo) (by decide +kernel)
  refine ⟨runtime,
    (expandTransitiveGroupIncludes_expands acyclic_devTable hvalid).2.1 ?_⟩
  intro included item hitem group hpath
  obtain ⟨rfl, rfl⟩ := transGen_devTable.mp hpath
  have hfirst : firstItem (testConflicts foo) testGroup =
      some ⟨foo, .group testGroup⟩ := by
    decide +kernel
  rw [hfirst] at hitem
  cases hitem
  exact ⟨rfl, by decide +kernel⟩

/-- The conflict is one of `bar`, the table one of `foo`; the group of `bar` is
replaced by the one of `foo`. -/
theorem expandTransitiveGroupIncludes_replaces_bar : devTable.Acyclic ∧
    (∃ runtime : Runtime, runtime.Valid (testConflicts bar) foo devTable) ∧
    ∀ runtime : Runtime, runtime.Valid (testConflicts bar) foo devTable →
      (∃ result, Conflicts.expandTransitiveGroupIncludes runtime (testConflicts bar) foo
          devTable = some result ∧
        {⟨foo, .group devGroup⟩, ⟨bar, .extra gpuExtra⟩} ∈ result) ∧
      ¬ Expands (testConflicts bar) foo devTable
        (Conflicts.expandTransitiveGroupIncludes runtime (testConflicts bar) foo
          devTable) := by
  refine ⟨acyclic_devTable, exists_valid (testConflicts bar) (by decide +kernel), ?_⟩
  intro runtime hvalid
  obtain ⟨new, hresult, -, hmem⟩ := expand_eq acyclic_devTable hvalid
  have hnew : ({⟨foo, .group devGroup⟩, ⟨bar, .extra gpuExtra⟩} : ConflictSet) ∈ new := by
    rw [hmem]
    refine ⟨by decide +kernel, _, List.mem_singleton_self _, ?_⟩
    have hreplaces : Replaces (testConflicts bar) foo devTable ⟨bar, .group testGroup⟩
        ⟨foo, .group devGroup⟩ :=
      ⟨testGroup, devGroup, by decide +kernel, transGen_devTable.mpr ⟨rfl, rfl⟩,
        by decide +kernel⟩
    have hstep := @Rewrites.replace _ _ (Replaces (testConflicts bar) foo devTable)
      {⟨bar, .group testGroup⟩, ⟨bar, .extra gpuExtra⟩} _ (fun _ _ _ => Replaces.trans)
      _ _ (Finset.mem_insert_self _ _) hreplaces (.refl _ _)
    have herase : ({⟨bar, .group testGroup⟩, ⟨bar, .extra gpuExtra⟩} :
        ConflictSet).erase ⟨bar, .group testGroup⟩ = {⟨bar, .extra gpuExtra⟩} := by
      decide +kernel
    rwa [herase] at hstep
  refine ⟨⟨_, hresult, List.mem_append_right _ hnew⟩, ?_⟩
  rintro ⟨new', hresult', -, hmem'⟩
  rw [hresult, Option.some.injEq, List.append_cancel_left_eq] at hresult'
  rw [hresult', hmem'] at hnew
  obtain ⟨-, source, hsource, f, hf, himage⟩ := hnew
  cases List.mem_singleton.mp hsource
  -- Neither item is one of `foo`, so both stay.
  have hstays : ∀ item ∈ ({⟨bar, .group testGroup⟩, ⟨bar, .extra gpuExtra⟩} : ConflictSet),
      f item = item := by
    intro item hitem
    rcases hf item hitem with hsame | ⟨included, _, hown, -⟩
    · exact hsame
    · have hpair : foo = bar ∧ included = testGroup := by
        simpa [hown] using hitem
      exact absurd hpair.1 (by decide)
  have hid : ({⟨bar, .group testGroup⟩, ⟨bar, .extra gpuExtra⟩} : ConflictSet).image f =
      {⟨bar, .group testGroup⟩, ⟨bar, .extra gpuExtra⟩} := by
    rw [Finset.image_congr hstays, Finset.image_id']
  rw [hid] at himage
  exact absurd himage (by decide +kernel)

end Uv.PypiTypes
