import Uv.Resolver.Closure

/-!
# Which packages are installed

Without production dependencies, roots and requirements get nodes that are not installed.
A dependency of a group re-enables the node of its package, a followed dependency does
not, so it matters which packages are still omitted when dependencies are followed.
-/

set_option linter.unusedSectionVars false

namespace Uv.Resolver

open Uv.Core Worklist

variable {Name Id Marker Dist Error : Type} [LinearOrder Name] [LinearOrder Id]
  [LinearOrder Marker] [LockId Id Name]

namespace Installable

variable {self : Installable Name Id Marker Dist Error} {activated rootActivated : Activated Name}
  {package dist : Package Name Id Marker} {id : Id} {index : ℕ}
  {graph graph' : GraphState Name Id Marker Dist} {work work' : InstallState Name Id Marker Dist}
  {reached : Id × Option Name → Prop} {omitted omitted' : Id → Prop}

/-- There is a package node at the index, installed if its package is included. -/
def Installed (self : Installable Name Id Marker Dist Error)
    (graph : GraphState Name Id Marker Dist) (index : ℕ) : Prop :=
  ∃ package dist install, graph.nodes[index]? = some (.dist package dist install) ∧
    (self.includePackage package = true → install = true)

/-- The node of each package is installed if its package is included and not omitted; edges
come from the root, from groups or from followed dependencies. -/
structure Flagged (target : Installable Name Id Marker Dist Error) (activated : Activated Name)
    (reached : Id × Option Name → Prop) (omitted : Id → Prop)
    (graph : GraphState Name Id Marker Dist) : Prop where
  flag : ∀ id i, graph.inverse id = some i → ∃ package dist install,
    graph.nodes[i]? = some (.dist package dist install) ∧ target.findById id = .ok package ∧
      (install = true ↔ target.includePackage package = true ∧ ¬ omitted id)
  omitted : ∀ id, omitted id → graph.inverse id ≠ none ∧ target.prod = false
  root : graph.nodes[0]? = some .root
  edges : ∀ i j edge, (i, j, edge) ∈ graph.edges → (edge = .prod ∧ i = 0) ∨
    ((∃ group, edge = .dev group) ∧ target.Installed graph j) ∨
      (∀ group, edge ≠ .dev group) ∧ ∃ k, reached k ∧
        ∃ dep ∈ target.activeDependencies activated k,
          graph.inverse k.1 = some i ∧ graph.inverse dep.packageId = some j

namespace Flagged

theorem congr (hflagged : Flagged self activated reached omitted graph)
    (homitted : ∀ id, omitted id ↔ omitted' id) :
    Flagged self activated reached omitted' graph := by
  have heq : omitted = omitted' := funext fun id => propext (homitted id)
  rwa [← heq]

theorem mono (hflagged : Flagged self activated reached omitted graph)
    {reached' : Id × Option Name → Prop} (hreached : ∀ k, reached k → reached' k) :
    Flagged self activated reached' omitted graph where
  flag := hflagged.flag
  omitted := hflagged.omitted
  root := hflagged.root
  edges i j edge hedge :=
    (hflagged.edges i j edge hedge).imp_right (Or.imp_right fun ⟨hkind, k, hk, hdep⟩ =>
      ⟨hkind, k, hreached k hk, hdep⟩)

/-- A new node whose flag fits.  Only an id without a node may be added once dependencies
are followed. -/
theorem addNode (hflagged : Flagged self activated reached omitted graph) {install : Bool}
    {d : Dist} (hdist : self.findById id = .ok dist)
    (hreached : (∀ k, ¬ reached k) ∨ graph.inverse id = none)
    (hinstall : install = true ↔ self.includePackage dist = true ∧ ¬ omitted' id)
    (homitted : ∀ other, other ≠ id → (omitted' other ↔ omitted other))
    (hprod : omitted' id → self.prod = false) :
    Flagged self activated reached omitted' (graph.addNode id (.dist dist d install)).2 := by
  have hold : ∀ (i : ℕ) node, graph.nodes[i]? = some node →
      (graph.nodes ++ [Node.dist dist d install])[i]? = some node := by
    intro i node hget
    rw [List.getElem?_append_left (List.getElem?_eq_some_iff.mp hget).1, hget]
  constructor
  case flag =>
    intro other i hinverse
    simp only [GraphState.addNode, Function.update_apply] at hinverse ⊢
    split at hinverse
    case isTrue heq =>
      cases hinverse
      rw [heq]
      exact ⟨dist, d, install, by simp, hdist, hinstall⟩
    case isFalse hne =>
      obtain ⟨p, d', b, hget, hfind, hb⟩ := hflagged.flag other i hinverse
      exact ⟨p, d', b, hold i _ hget, hfind, by rw [hb, homitted other hne]⟩
  case omitted =>
    intro other hother
    simp only [GraphState.addNode, Function.update_apply]
    split
    case isTrue heq => exact ⟨by simp, hprod (heq ▸ hother)⟩
    case isFalse hne => exact hflagged.omitted other ((homitted other hne).mp hother)
  case root => exact hold 0 _ hflagged.root
  case edges =>
    intro i j edge hedge
    rcases hflagged.edges i j edge hedge with hroot | ⟨hdev, p, d', b, hget, hb⟩ | hfollowed
    · exact Or.inl hroot
    · exact Or.inr (Or.inl ⟨hdev, p, d', b, hold j _ hget, hb⟩)
    · obtain ⟨hkind, k, hk, dep, hdep, hi, hj⟩ := hfollowed
      have hnone := hreached.resolve_left fun h => h k hk
      have hne : ∀ other index, graph.inverse other = some index →
          Function.update graph.inverse id (some graph.nodes.length) other = some index := by
        intro other index hother
        rw [Function.update_of_ne, hother]
        rintro rfl
        simp [hnone] at hother
      exact Or.inr (Or.inr ⟨hkind, k, hk, dep, hdep, hne _ _ hi, hne _ _ hj⟩)

/-- The node of an id replaced by one that is installed if its package is included. -/
theorem setNode (hflagged : Flagged self activated reached omitted graph) {d : Dist}
    (hinverse : graph.inverse id = some index) (hdist : self.findById id = .ok dist) :
    Flagged self activated reached (fun other => omitted other ∧ other ≠ id)
      (graph.setNode index (.dist dist d (self.includePackage dist))) := by
  obtain ⟨p, d₀, b, hget, hfind, _⟩ := hflagged.flag id index hinverse
  have hlt := (List.getElem?_eq_some_iff.mp hget).1
  have hself : (graph.nodes.set index (.dist dist d (self.includePackage dist)))[index]? =
      some (.dist dist d (self.includePackage dist)) := by
    rw [List.getElem?_set_self hlt]
  have hother : ∀ i, i ≠ index →
      (graph.nodes.set index (.dist dist d (self.includePackage dist)))[i]? = graph.nodes[i]? :=
    fun i hi => List.getElem?_set_ne (Ne.symm hi)
  constructor
  case flag =>
    intro other i hother'
    obtain ⟨p', d', b', hget', hfind', hb'⟩ := hflagged.flag other i hother'
    by_cases heq : i = index
    · -- The package of the node is the one of both ids.
      subst heq
      cases hget.symm.trans hget'
      have hid : other = id := (findById_ok hfind').2.symm.trans (findById_ok hfind).2
      subst hid
      exact ⟨dist, d, _, hself, hdist, by simp⟩
    · have hne : other ≠ id := by
        rintro rfl
        rw [GraphState.setNode, hinverse] at hother'
        exact heq (Option.some.inj hother').symm
      exact ⟨p', d', b', by rw [GraphState.setNode, hother i heq, hget'], hfind', by
        simp [hb', hne]⟩
  case omitted => exact fun other hother' => hflagged.omitted other hother'.1
  case root =>
    have hne : (0 : ℕ) ≠ index := by
      rintro rfl
      simp [hflagged.root] at hget
    rw [GraphState.setNode, hother 0 hne, hflagged.root]
  case edges =>
    intro i j edge hedge
    rcases hflagged.edges i j edge hedge with hroot | ⟨hdev, p', d', b', hget', hb'⟩ | hfollowed
    · exact Or.inl hroot
    · refine Or.inr (Or.inl ⟨hdev, ?_⟩)
      by_cases heq : j = index
      · exact ⟨dist, d, _, by rw [heq]; exact hself, fun h => h⟩
      · exact ⟨p', d', b', by rw [GraphState.setNode, hother j heq, hget'], hb'⟩
    · exact Or.inr (Or.inr hfollowed)

theorem addEdge (hflagged : Flagged self activated reached omitted graph) {source target : ℕ}
    {edge : Edge Name} (hedge : (edge = .prod ∧ source = 0) ∨
      ((∃ group, edge = .dev group) ∧ self.Installed graph target) ∨
        (∀ group, edge ≠ .dev group) ∧ ∃ k, reached k ∧
          ∃ dep ∈ self.activeDependencies activated k,
            graph.inverse k.1 = some source ∧ graph.inverse dep.packageId = some target) :
    Flagged self activated reached omitted (graph.addEdge source target edge) where
  flag := hflagged.flag
  omitted := hflagged.omitted
  root := hflagged.root
  edges i j edge' hmem := by
    rcases List.mem_append.mp hmem with hmem | hmem
    · exact hflagged.edges i j edge' hmem
    · cases List.mem_singleton.mp hmem
      exact hedge

end Flagged

/-! ## One package -/

/-- The node of a root or requirement is omitted without production dependencies. -/
theorem Flagged.entryNode (hflagged : Flagged self activated reached omitted graph)
    {node : Node Name Id Marker Dist} (hdist : self.findById dist.id = .ok dist)
    (hreached : ∀ k, ¬ reached k) (hnode : self.entryNode dist = .ok node) :
    Flagged self activated reached
      (fun other => omitted other ∨ self.prod = false ∧ other = dist.id)
      (graph.addNode dist.id node).2 := by
  rw [Installable.entryNode] at hnode
  cases hprod : self.prod with
  | true =>
      rw [hprod, if_pos rfl] at hnode
      obtain ⟨d, rfl⟩ := makeNode_ok hnode
      have hnone : ∀ other, ¬ omitted other := fun other hother => by
        simpa [hprod] using (hflagged.omitted other hother).2
      exact hflagged.addNode hdist (Or.inl hreached) (by simp [hnone]) (by simp) (by simp [hnone])
  | false =>
      rw [hprod, if_neg Bool.false_ne_true] at hnode
      obtain ⟨d, rfl⟩ := makeNode_ok hnode
      exact hflagged.addNode hdist (Or.inl hreached) (by simp)
        (fun other hne => by simp [hne]) (fun _ => hprod)

/-- A dependency of a group is not omitted any more, and its node is the target. -/
theorem Flagged.enableNode (hflagged : Flagged self activated reached omitted graph)
    (hdist : self.findById id = .ok dist)
    (henable : self.enableNode dist id graph = .ok (index, graph')) :
    Flagged self activated reached (fun other => omitted other ∧ other ≠ id) graph' ∧
      self.Installed graph' index := by
  rw [Installable.enableNode] at henable
  split at henable
  case h_1 hinverse =>
    obtain ⟨node, hnode, henable⟩ := bind_eq_ok henable
    cases henable
    obtain ⟨d, rfl⟩ := makeNode_ok hnode
    constructor
    · exact hflagged.addNode hdist (Or.inr hinverse) (by simp)
        (fun other hne => by simp [hne]) (by simp)
    · exact ⟨dist, d, _, List.getElem?_concat_length, fun h => h⟩
  case h_2 i hinverse =>
    obtain ⟨p, d, b, hget, hfind, hb⟩ := hflagged.flag id i hinverse
    split at henable
    case isTrue hprod =>
      cases henable
      have hnone : ∀ other, ¬ omitted other := fun other hother => by
        simpa [hprod] using (hflagged.omitted other hother).2
      exact ⟨hflagged.congr (by simp [hnone]), p, d, b, hget, fun h => hb.mpr ⟨h, hnone id⟩⟩
    case isFalse =>
      obtain ⟨node, hnode, henable⟩ := bind_eq_ok henable
      cases henable
      obtain ⟨d', rfl⟩ := makeNode_ok hnode
      refine ⟨hflagged.setNode hinverse hdist, dist, d', _, ?_, fun h => h⟩
      rw [GraphState.setNode, List.getElem?_set_self (List.getElem?_eq_some_iff.mp hget).1]

/-! ## Roots, groups and requirements -/

theorem addRoots_flagged {roots : List (Package Name Id Marker × ℕ)} (hreached : ∀ k, ¬ reached k)
    (hroots : self.roots.foldlM self.addRoot (initial, []) = .ok (work, roots)) :
    Flagged self activated reached
      (fun id => self.prod = false ∧ id ∈ self.rootPackages.map (·.id)) work.state := by
  apply foldlM_ok hroots (P := fun names (state : _ × List (Package Name Id Marker × ℕ)) =>
    Flagged self activated reached
      (fun id => self.prod = false ∧
        id ∈ (names.filterMap fun name => (self.findByName name).toOption).map (·.id))
      state.1.state)
  · constructor
    case flag => simp [initial]
    case omitted => simp
    case root => rfl
    case edges => simp [initial]
  · intro done name state next _ hstate hnext
    obtain ⟨dist, hdist, hnext⟩ := bind_eq_ok hnext
    obtain ⟨node, hnode, hnext⟩ := bind_eq_ok hnext
    cases hnext
    have hfind := findById_of_mem (findPackage_mem hdist)
    refine ((hstate.entryNode hfind hreached hnode).addEdge (Or.inl ⟨rfl, rfl⟩)).congr ?_
    intro other
    simp [hdist, Except.toOption, and_or_left]

theorem addGroupDependencies_flagged {source : ℕ}
    {entries : List (Name × Dependency Name Id Marker)}
    (hflagged : Flagged self activated reached omitted work.state)
    (hadd : entries.foldlM (self.addGroupDependency rootActivated source) work = .ok work') :
    Flagged self activated reached
      (fun id => omitted id ∧ id ∉ ((entries.map (·.2)).filter fun dep =>
        self.evaluate dep.complexifiedMarker rootActivated).map (·.packageId)) work'.state := by
  apply foldlM_ok hadd (P := fun entries (work' : InstallState Name Id Marker Dist) =>
    Flagged self activated reached
      (fun id => omitted id ∧ id ∉ ((entries.map (·.2)).filter fun dep =>
        self.evaluate dep.complexifiedMarker rootActivated).map (·.packageId)) work'.state)
  · exact hflagged.congr (by simp)
  · intro done entry state next _ hstate hnext
    rw [addGroupDependency] at hnext
    dsimp only at hnext
    split at hnext
    case isTrue hfalse =>
      cases hnext
      apply hstate.congr
      intro id
      simp only [Bool.not_eq_true'] at hfalse
      simp [hfalse]
    case isFalse htrue =>
      obtain ⟨depDist, hdepDist, hnext⟩ := bind_eq_ok hnext
      obtain ⟨⟨depIndex, graph⟩, henable, hnext⟩ := bind_eq_ok hnext
      cases hnext
      obtain ⟨hnode, hinstalled⟩ := hstate.enableNode hdepDist henable
      rw [pushDependencies_state]
      refine (hnode.addEdge (Or.inr (Or.inl ⟨⟨entry.1, rfl⟩, hinstalled⟩))).congr ?_
      intro id
      simp only [Bool.not_eq_true', Bool.not_eq_false] at htrue
      rw [List.map_append, List.filter_append, List.map_append, List.mem_append, not_or,
        ← and_assoc]
      simp [htrue]

/-- All roots with their groups. -/
theorem addRootsDependencies_flagged {roots : List (Package Name Id Marker × ℕ)}
    (hflagged : Flagged self activated reached omitted work.state)
    (hadd : roots.foldlM (self.addRootDependencies rootActivated) work = .ok work') :
    Flagged self activated reached
      (fun id => omitted id ∧ id ∉ ((roots.map (·.1)).flatMap
        (self.activeGroups rootActivated)).map (·.packageId)) work'.state := by
  apply foldlM_ok hadd (P := fun roots (work' : InstallState Name Id Marker Dist) =>
    Flagged self activated reached
      (fun id => omitted id ∧ id ∉ ((roots.map (·.1)).flatMap
        (self.activeGroups rootActivated)).map (·.packageId)) work'.state)
  · exact hflagged.congr (by simp)
  · intro done root state next _ hstate hnext
    rw [addRootDependencies] at hnext
    have hstart : ∀ queue, (if self.prod then { state with queue } else state).state =
        state.state := by
      intro queue
      split <;> rfl
    refine (addGroupDependencies_flagged (by rw [hstart]; exact hstate) hnext).congr ?_
    intro id
    rw [List.map_append, List.flatMap_append, List.map_append, List.mem_append, not_or,
      ← and_assoc, List.map_singleton, List.flatMap_singleton]
    rfl

theorem addRequirements_flagged {requirements : List (Requirement Name Marker)}
    (hreached : ∀ k, ¬ reached k)
    (hflagged : Flagged self activated reached omitted work.state)
    (hadd : requirements.foldlM self.addRequirement work = .ok work') :
    Flagged self activated reached
      (fun id => omitted id ∨ self.prod = false ∧
        id ∈ (self.resolveRequirements requirements).map (·.1.id)) work'.state := by
  apply foldlM_ok hadd (P := fun requirements (work' : InstallState Name Id Marker Dist) =>
    Flagged self activated reached
      (fun id => omitted id ∨ self.prod = false ∧
        id ∈ (self.resolveRequirements requirements).map (·.1.id)) work'.state)
  · exact hflagged.congr (by simp [resolveRequirements])
  · intro done dependency state next _ hstate hnext
    rw [addRequirement] at hnext
    split at hnext
    case isTrue hfalse =>
      cases hnext
      rw [Bool.not_eq_true'] at hfalse
      apply hstate.congr
      intro id
      rw [resolveRequirements_append, resolveRequirements_singleton, hfalse]
      simp
    case isFalse htrue =>
      rw [Bool.not_eq_true', Bool.not_eq_false] at htrue
      obtain ⟨dist, hdist, hnext⟩ := bind_eq_ok hnext
      obtain ⟨node, hnode, hnext⟩ := bind_eq_ok hnext
      cases hnext
      rw [pushDependencies_state]
      refine ((hstate.entryNode (findByMarkers_ok hdist) hreached hnode).addEdge
        (Or.inl ⟨rfl, rfl⟩)).congr ?_
      intro id
      rw [resolveRequirements_append, resolveRequirements_singleton, htrue, hdist,
        List.map_append, List.mem_append, and_or_left, ← or_assoc]
      simp [Except.toOption]

theorem addGroupRequirements_flagged {entries : List (Name × Requirement Name Marker)}
    (hflagged : Flagged self activated reached omitted work.state)
    (hadd : entries.foldlM self.addGroupRequirement work = .ok work') :
    Flagged self activated reached
      (fun id => omitted id ∧
        id ∉ (self.resolveRequirements (entries.map (·.2))).map (·.1.id)) work'.state := by
  apply foldlM_ok hadd (P := fun entries (work' : InstallState Name Id Marker Dist) =>
    Flagged self activated reached
      (fun id => omitted id ∧
        id ∉ (self.resolveRequirements (entries.map (·.2))).map (·.1.id)) work'.state)
  · exact hflagged.congr (by simp [resolveRequirements])
  · intro done entry state next _ hstate hnext
    rw [addGroupRequirement] at hnext
    dsimp only at hnext
    split at hnext
    case isTrue hfalse =>
      cases hnext
      rw [Bool.not_eq_true'] at hfalse
      apply hstate.congr
      intro id
      rw [List.map_append, resolveRequirements_append, List.map_singleton,
        resolveRequirements_singleton, hfalse]
      simp
    case isFalse htrue =>
      rw [Bool.not_eq_true', Bool.not_eq_false] at htrue
      obtain ⟨dist, hdist, hnext⟩ := bind_eq_ok hnext
      obtain ⟨⟨index, graph⟩, henable, hnext⟩ := bind_eq_ok hnext
      cases hnext
      obtain ⟨hnode, hinstalled⟩ := hstate.enableNode (findByMarkers_ok hdist) henable
      rw [pushDependencies_state]
      refine (hnode.addEdge (Or.inr (Or.inl ⟨⟨entry.1, rfl⟩, hinstalled⟩))).congr ?_
      intro id
      rw [List.map_append, resolveRequirements_append, List.map_singleton,
        resolveRequirements_singleton, htrue, hdist, List.map_append, List.mem_append, not_or,
        ← and_assoc]
      simp [Except.toOption]

/-- The packages that are not installed when dependencies are followed although they may be
included: production dependencies are off, and they are roots or requirements that no
group re-enabled since. -/
def Omitted (self : Installable Name Id Marker Dist Error) (activated : Activated Name)
    (id : Id) : Prop :=
  self.prod = false ∧
    (id ∈ self.activeRequirements.map (·.1.id) ∨ id ∈ self.rootPackages.map (·.id) ∧
      id ∉ (self.activeGroupDependencies activated).map (·.packageId)) ∧
    id ∉ self.activeGroupRequirements.map (·.1.id)

theorem enter_flagged (henter : self.enter rootActivated = .ok work) :
    Flagged self activated (fun _ => False) (self.Omitted rootActivated) work.state := by
  have hreached : ∀ k : Id × Option Name, ¬ (fun _ => False) k := fun _ => id
  obtain ⟨⟨work₁, roots⟩, hroots, henter⟩ := bind_eq_ok henter
  obtain ⟨work₂, hgroups, henter⟩ := bind_eq_ok henter
  obtain ⟨work₃, hrequirements, henter⟩ := bind_eq_ok henter
  have hflagged₁ : Flagged self activated _ _ _ := addRoots_flagged hreached hroots
  have hflagged₂ := addRootsDependencies_flagged hflagged₁ hgroups
  have hflagged₃ := addRequirements_flagged hreached hflagged₂ hrequirements
  apply (addGroupRequirements_flagged hflagged₃ henter).congr
  intro id
  rw [(addRoots_ok hroots).1]
  simp only [Omitted, activeRequirements, activeGroupRequirements, activeGroupDependencies]
  tauto

/-! ## Following the dependencies -/

/-- Nodes of packages and edges that are there stay. -/
structure Grows (graph graph' : GraphState Name Id Marker Dist) : Prop where
  inverse : ∀ id i, graph.inverse id = some i → graph'.inverse id = some i
  edges : ∀ edge ∈ graph.edges, edge ∈ graph'.edges

theorem Grows.trans {graph'' : GraphState Name Id Marker Dist} (hfirst : Grows graph graph')
    (hsecond : Grows graph' graph'') : Grows graph graph'' where
  inverse id i hinverse := hsecond.inverse id i (hfirst.inverse id i hinverse)
  edges edge hedge := hsecond.edges edge (hfirst.edges edge hedge)

/-- There is an edge from the package of the item to the dependency. -/
def HasEdge (graph : GraphState Name Id Marker Dist) (k : Id × Option Name)
    (dep : Dependency Name Id Marker) : Prop :=
  ∃ i j edge, graph.inverse k.1 = some i ∧ graph.inverse dep.packageId = some j ∧
    (i, j, edge) ∈ graph.edges

theorem HasEdge.grows {k : Id × Option Name} {dep : Dependency Name Id Marker}
    (hedge : HasEdge graph k dep) (hgrows : Grows graph graph') : HasEdge graph' k dep := by
  obtain ⟨i, j, edge, hi, hj, hmem⟩ := hedge
  exact ⟨i, j, edge, hgrows.inverse _ _ hi, hgrows.inverse _ _ hj, hgrows.edges _ hmem⟩

theorem Flagged.visitNode (hflagged : Flagged self activated reached omitted graph)
    (hdist : self.findById id = .ok dist)
    (hvisit : self.visitNode dist id graph = .ok (index, graph')) :
    Flagged self activated reached omitted graph' ∧ Grows graph graph' ∧
      graph'.inverse id = some index := by
  rw [Installable.visitNode] at hvisit
  split at hvisit
  case h_1 hinverse =>
    obtain ⟨node, hnode, hvisit⟩ := bind_eq_ok hvisit
    cases hvisit
    obtain ⟨d, rfl⟩ := makeNode_ok hnode
    have hnot : ¬ omitted id := fun h => (hflagged.omitted id h).1 hinverse
    refine ⟨hflagged.addNode hdist (Or.inr hinverse) (by simp [hnot]) (fun _ _ => Iff.rfl)
      (fun h => absurd h hnot), ⟨?_, fun _ h => h⟩, Function.update_self ..⟩
    intro other i hother
    have hne : other ≠ id := by
      rintro rfl
      simp [hinverse] at hother
    change Function.update graph.inverse id _ other = some i
    rw [Function.update_of_ne hne, hother]
  case h_2 i hinverse =>
    cases hvisit
    exact ⟨hflagged, ⟨fun _ _ h => h, fun _ h => h⟩, hinverse⟩

theorem followDependency_flagged {extra : Option Name} {dep : Dependency Name Id Marker}
    (hpackage : self.findById package.id = .ok package) (hreached : reached (package.id, extra))
    (hdep : dep ∈ package.dependenciesOf extra)
    (hflagged : Flagged self activated reached omitted work.state)
    (hfollow : self.followDependency activated package extra work dep = .ok work') :
    Flagged self activated reached omitted work'.state ∧ Grows work.state work'.state ∧
      (self.evaluate dep.complexifiedMarker activated = true →
        HasEdge work'.state (package.id, extra) dep) := by
  rw [followDependency.eq_def] at hfollow
  split at hfollow
  case isTrue hfalse =>
    cases hfollow
    rw [Bool.not_eq_true'] at hfalse
    exact ⟨hflagged, ⟨fun _ _ h => h, fun _ h => h⟩, by simp [hfalse]⟩
  case isFalse htrue =>
    rw [Bool.not_eq_true', Bool.not_eq_false] at htrue
    obtain ⟨depDist, hdepDist, hfollow⟩ := bind_eq_ok hfollow
    obtain ⟨⟨depIndex, graph⟩, hvisit, hfollow⟩ := bind_eq_ok hfollow
    obtain ⟨hvisited, hgrows, hinverse⟩ := hflagged.visitNode hdepDist hvisit
    dsimp only at hfollow
    split at hfollow
    case h_1 => cases hfollow
    case h_2 i hi =>
      cases hfollow
      rw [pushDependencies_state]
      have hactive : dep ∈ self.activeDependencies activated (package.id, extra) := by
        rw [activeDependencies_eq hpackage]
        exact List.mem_filter.mpr ⟨hdep, htrue⟩
      refine ⟨hvisited.addEdge (Or.inr (Or.inr
        ⟨fun group => ?_, _, hreached, dep, hactive, hi, hinverse⟩)),
        hgrows.trans ⟨fun _ _ h => h, fun _ h => List.mem_append_left _ h⟩, fun _ => ?_⟩
      · cases extra <;> simp
      · exact ⟨i, depIndex, _, hi, hinverse,
          List.mem_append_right _ (List.mem_singleton.mpr rfl)⟩

theorem followDependencies_flagged {extra : Option Name} {queue : List (Item Name Id Marker)}
    (hpackage : self.findById package.id = .ok package) (hreached : reached (package.id, extra))
    (hflagged : Flagged self activated reached omitted work.state)
    (hfollow : (package.dependenciesOf extra).foldlM
      (self.followDependency activated package extra) { work with queue } = .ok work') :
    Flagged self activated reached omitted work'.state ∧ Grows work.state work'.state ∧
      ∀ dep ∈ self.activeDependencies activated (package.id, extra),
        HasEdge work'.state (package.id, extra) dep := by
  rw [activeDependencies_eq hpackage]
  apply foldlM_ok hfollow (P := fun deps (work' : InstallState Name Id Marker Dist) =>
    Flagged self activated reached omitted work'.state ∧ Grows work.state work'.state ∧
      ∀ dep ∈ deps.filter fun dep => self.evaluate dep.complexifiedMarker activated,
        HasEdge work'.state (package.id, extra) dep)
  · exact ⟨hflagged, ⟨fun _ _ h => h, fun _ h => h⟩, by simp⟩
  · intro done dep state next hdep ⟨hstate, hgrows, hedges⟩ hnext
    obtain ⟨hnext, hgrows', hedge⟩ := followDependency_flagged hpackage hreached hdep hstate hnext
    refine ⟨hnext, hgrows.trans hgrows', ?_⟩
    intro other hother
    rw [List.filter_append, List.mem_append] at hother
    rcases hother with hother | hother
    · exact (hedges other hother).grows hgrows'
    · obtain ⟨hmem, htrue⟩ := List.mem_filter.mp hother
      cases List.mem_singleton.mp hmem
      exact hedge htrue

/-- What holds while dependencies are followed, with the flags and the edges. -/
structure Linking (target : Installable Name Id Marker Dist Error) (activated : Activated Name)
    (keys : Id × Option Name → Prop) (count : Id → ℕ) (omitted : Id → Prop)
    (work : InstallState Name Id Marker Dist) : Prop where
  following : Following target activated keys count work
  flagged : Flagged target activated (Reached keys (target.Asks activated)) omitted work.state
  linked : Finishing itemKey keys
    (fun k work => ∀ dep ∈ target.activeDependencies activated k, HasEdge work.state k dep) work

theorem Linking.step {keys : Id × Option Name → Prop} {count : Id → ℕ} {extra : Option Name}
    {queue : List (Item Name Id Marker)} (hlinking : Linking self activated keys count omitted work)
    (hqueue : work.queue = (package, extra) :: queue)
    (hstep : (package.dependenciesOf extra).foldlM
      (self.followDependency activated package extra) { work with queue } = .ok work') :
    Linking self activated keys count omitted work' ∧
      remaining self.allItems.toFinset work' ≤
        remaining self.allItems.toFinset { work with queue } := by
  obtain ⟨hfollowing, hle⟩ := hlinking.following.step hqueue hstep
  have hmem : (package, extra) ∈ work.queue := by simp [hqueue]
  have hpackage := hlinking.following.packages _ hmem
  have hreached := hlinking.following.searching.queue _ hmem
  obtain ⟨hflagged, hgrows, hedges⟩ :=
    followDependencies_flagged hpackage hreached hlinking.flagged hstep
  have hindexed : ({ work with queue } : InstallState Name Id Marker Dist).state.Indexed :=
    hlinking.following.indexed
  refine ⟨⟨hfollowing, hflagged, ?_⟩, hle⟩
  apply hlinking.linked.step hqueue (followDependencies_ok hindexed hstep).pushed
  · exact fun k hk dep hdep => (hk dep hdep).grows hgrows
  · exact hedges

theorem follow_linking {keys seenKeys : Id × Option Name → Prop} {count : Id → ℕ}
    (hentered : Entered self keys seenKeys count work)
    (hcount : ∀ id, seenKeys (id, none) → 1 ≤ count id)
    (hflagged : Flagged self activated (Reached keys (self.Asks activated)) omitted work.state)
    (hfollow : self.follow activated work = .ok work') :
    Linking self activated keys count omitted work' ∧ work'.queue = [] := by
  have hstart : Linking self activated keys count omitted work :=
    ⟨hentered.following hcount, hflagged, fun k hk => Or.inl (hentered.exists_queue hk)⟩
  exact run_ok (Linking self activated keys count omitted)
    (fun hinv hqueue hstep => Linking.step hinv hqueue hstep) hstart (remaining_le_length _ _) hfollow

/-- The install options include the package. -/
def Included (self : Installable Name Id Marker Dist Error) (id : Id) : Prop :=
  ∃ dist, self.findById id = .ok dist ∧ self.includePackage dist = true

/-- The edge comes from another package or from a dependency group. -/
def Requires (graph : GraphState Name Id Marker Dist) (source target : ℕ) (edge : Edge Name) :
    Prop :=
  (∃ group, edge = .dev group) ∨
    source ≠ target ∧ ∃ package dist install,
      graph.nodes[source]? = some (.dist package dist install)

/-- All included packages that another package or a group requires are installed iff no
included package that another one depends on was omitted as a root or requirement without
being re-enabled. -/
theorem toResolution_installed_iff (hroot : self.activateRoots = .ok rootActivated)
    (hactivated : self.activations = .ok activated) (hresolve : self.toResolution = .ok graph) :
    (∀ i j edge, (i, j, edge) ∈ graph.edges → Requires graph i j edge →
      ∀ package dist install, graph.nodes[j]? = some (.dist package dist install) →
        self.includePackage package = true → install = true) ↔
      ∀ k, Reached (· ∈ self.entryItems rootActivated) (self.Asks activated) k →
        ∀ dep ∈ self.activeDependencies activated k, dep.packageId ≠ k.1 →
          self.Included dep.packageId → ¬ self.Omitted rootActivated dep.packageId := by
  obtain ⟨work, final, henter, hfollow, rfl⟩ := toResolution_ok hroot hactivated hresolve
  have hflagged : Flagged self activated
      (Reached (· ∈ self.entryItems rootActivated) (self.Asks activated))
      (self.Omitted rootActivated) work.state :=
    (enter_flagged henter).mono fun _ => False.elim
  obtain ⟨hlinking, hqueue⟩ := follow_linking (enter_ok henter) (fun _ => one_le_of_seenItems)
    hflagged hfollow
  have hflag := hlinking.flagged.flag
  constructor
  · intro hinstalled k hk dep hdep hne ⟨dist, hdist, hincluded⟩
    obtain ⟨i, j, edge, hi, hj, hedge⟩ := hlinking.linked.done_of_reached
      hlinking.following.searching hqueue hk dep hdep
    obtain ⟨source, d, b, hsource, hfindSource, _⟩ := hflag _ i hi
    obtain ⟨target, d', b', htarget, hfindTarget, hb'⟩ := hflag _ j hj
    cases hdist.symm.trans hfindTarget
    have hij : i ≠ j := by
      rintro rfl
      cases hsource.symm.trans htarget
      exact hne ((findById_ok hdist).2.symm.trans (findById_ok hfindSource).2)
    have htrue := hinstalled i j edge hedge (Or.inr ⟨hij, source, d, b, hsource⟩) dist d' b' htarget
      hincluded
    exact (hb'.mp htrue).2
  · intro hcondition i j edge hedge hrequires package d install hnode hincluded
    rcases hlinking.flagged.edges i j edge hedge with
      ⟨rfl, rfl⟩ | ⟨_, p, d', b, hget, hb⟩ | ⟨hkind, k, hk, dep, hdep, hi, hj⟩
    · rcases hrequires with ⟨group, hgroup⟩ | ⟨_, p, d', b, hget⟩
      · cases hgroup
      · simp [hlinking.flagged.root] at hget
    · cases hnode.symm.trans hget
      exact hb hincluded
    · rcases hrequires with ⟨group, hgroup⟩ | ⟨hij, _⟩
      · exact absurd hgroup (hkind group)
      · obtain ⟨target, d', b', htarget, hfind, hb'⟩ := hflag _ j hj
        cases hnode.symm.trans htarget
        have hne : dep.packageId ≠ k.1 := by
          intro heq
          rw [heq, hi] at hj
          exact hij (Option.some.inj hj)
        exact hb'.mpr ⟨hincluded, hcondition k hk dep hdep hne ⟨package, hfind, hincluded⟩⟩

/-! ## A member that a plugin needs -/

section Example

local instance : LockId ℕ String := ⟨fun id => if id = 0 then "app" else "plugin", fun _ => none⟩

/-- A dependency without extras. -/
def dependsOn (id : ℕ) : Dependency String ℕ Unit :=
  ⟨id, ∅, (), ()⟩

/-- The project `app` with a development dependency on `plugin`, which depends on `app`. -/
def pluginLock : IndexedLock String ℕ Unit where
  packages := [⟨0, [], [], [], [], [("dev", [dependsOn 1])]⟩,
    ⟨1, [], [], [dependsOn 0], [], []⟩]
  byId := [(0, 0), (1, 1)]
  index id i := by
    by_cases hzero : id = 0
    · rcases i with _ | _ | i <;> simp [hzero]
    · by_cases hone : id = 1
      · rcases i with _ | _ | i <;> simp [List.lookup_cons, hone]
      · rcases i with _ | _ | i <;>
          simp [List.lookup_cons, beq_false_of_ne hzero, beq_false_of_ne hone, Ne.symm hzero,
            Ne.symm hone]

/-- Install `app` with its group, with or without production dependencies. -/
def withGroup (prod : Bool) : Installable String ℕ Unit Unit Unit where
  lock := pluginLock
  conflicts := []
  requirements := []
  dependencyGroups := []
  roots := ["app"]
  prod := prod
  containsGroup group := group = "dev"
  containsExtra _ := false
  evaluate _ _ := true
  includePackage _ := true
  toDist _ _ := .ok ()

/-- The package and the flag of a node. -/
def flagOf : Node String ℕ Unit Unit → Option (ℕ × Bool)
  | .root => none
  | .dist package _ install => some (package.id, install)

/-- With the group alone, `app` is not installed although `plugin` depends on it. -/
theorem toResolution_onlyGroup : ∃ graph, (withGroup false).toResolution = .ok graph ∧
    (2, 1, .prod) ∈ graph.edges ∧ Requires graph 2 1 .prod ∧
      ∃ package, graph.nodes[1]? = some (.dist package () false) ∧
        (withGroup false).includePackage package = true := by
  have hedges : (withGroup false).toResolution.toOption.map (·.edges) =
      some [(0, 1, .prod), (1, 2, .dev "dev"), (2, 1, .prod)] := by decide +kernel
  have hnodes : (withGroup false).toResolution.toOption.map (fun graph => graph.nodes.map flagOf) =
      some [none, some (0, false), some (1, true)] := by decide +kernel
  cases hresolve : (withGroup false).toResolution with
  | error e => simp [hresolve, Except.toOption] at hedges
  | ok graph =>
      simp only [hresolve, Except.toOption, Option.map_some, Option.some.injEq] at hedges hnodes
      have hget : ∀ i : ℕ, (graph.nodes[i]?).map flagOf =
          [none, some (0, false), some (1, true)][i]? := by
        intro i
        rw [← hnodes, List.getElem?_map]
      have happ' := hget 1
      have hplugin := hget 2
      cases happ : graph.nodes[1]? with
      | none => simp [happ] at happ'
      | some app =>
          cases hplugin' : graph.nodes[2]? with
          | none => simp [hplugin'] at hplugin
          | some plugin =>
              rw [happ] at happ'
              rw [hplugin'] at hplugin
              cases app <;> cases plugin <;> simp [flagOf] at happ' hplugin
              rw [happ'.2] at happ
              exact ⟨graph, rfl, by simp [hedges], Or.inr ⟨by decide, _, _, _, hplugin'⟩, _, happ, rfl⟩

/-- With production dependencies, both are installed. -/
theorem toResolution_installed_iff_prod : ∃ graph, (withGroup true).toResolution = .ok graph ∧
    ∀ i j edge, (i, j, edge) ∈ graph.edges → Requires graph i j edge →
      ∀ package dist install, graph.nodes[j]? = some (.dist package dist install) →
        (withGroup true).includePackage package = true → install = true := by
  have hok : (withGroup true).toResolution.isOk = true := by decide +kernel
  cases hresolve : (withGroup true).toResolution with
  | error e => simp [hresolve, Except.isOk, Except.toBool] at hok
  | ok graph =>
      obtain ⟨_, _, hroot, hactivated⟩ := exists_activations hresolve
      refine ⟨graph, rfl, (toResolution_installed_iff hroot hactivated hresolve).mpr ?_⟩
      intro k _ dep _ _ _ homitted
      exact Bool.noConfusion homitted.1

end Example

end Installable

end Uv.Resolver
