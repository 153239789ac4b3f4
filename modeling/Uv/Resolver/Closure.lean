import Uv.Resolver.Installable

/-!
# The closure that is installed

The resolution of a lock has a node for every package that is reached from the roots, the
requirements and the dependency groups.  Nodes are looked up before they are added, except
for roots and requirements, so these are the packages that can be there twice.
-/

set_option linter.unusedSectionVars false

namespace Uv.Resolver

open Uv.Core Worklist

variable {Name Id Marker Dist Error : Type} [LinearOrder Name] [LinearOrder Id]
  [LinearOrder Marker] [LockId Id Name]

/-- The id of the package of a node. -/
def Node.id? : Node Name Id Marker Dist → Option Id
  | .root => none
  | .dist package _ _ => some package.id

/-! ## Nodes -/

namespace GraphState

variable {graph : GraphState Name Id Marker Dist} {id : Id} {index : ℕ}
  {node : Node Name Id Marker Dist}

/-- How many nodes a package id has. -/
def nodeCount (graph : GraphState Name Id Marker Dist) (id : Id) : ℕ :=
  (graph.nodes.map Node.id?).count (some id)

/-- The map finds a node of the id, for all ids that have one. -/
structure Indexed (graph : GraphState Name Id Marker Dist) : Prop where
  sound : ∀ id i, graph.inverse id = some i → (graph.nodes.map Node.id?)[i]? = some (some id)
  complete : ∀ id, graph.inverse id = none → graph.nodeCount id = 0

theorem nodeCount_addNode (hnode : node.id? = some id) (other : Id) :
    (graph.addNode id node).2.nodeCount other =
      graph.nodeCount other + if other = id then 1 else 0 := by
  simp only [nodeCount, addNode, List.map_append, List.count_append, List.map_singleton, hnode]
  by_cases heq : other = id
  · simp [heq]
  · simp [heq, Ne.symm heq]

theorem Indexed.addNode (hindexed : graph.Indexed) (hnode : node.id? = some id) :
    (graph.addNode id node).2.Indexed := by
  constructor
  · intro other i hinverse
    simp only [GraphState.addNode, Function.update_apply] at hinverse ⊢
    rw [List.map_append]
    split at hinverse
    case isTrue heq =>
      cases hinverse
      simp [heq, hnode]
    case isFalse =>
      have hold := hindexed.sound other i hinverse
      rw [List.getElem?_append_left (List.getElem?_eq_some_iff.mp hold).1, hold]
  · intro other hinverse
    simp only [GraphState.addNode, Function.update_apply] at hinverse
    split at hinverse
    case isTrue => cases hinverse
    case isFalse hne => rw [nodeCount_addNode hnode, hindexed.complete other hinverse, if_neg hne]

theorem map_setNode (hindex : (graph.nodes.map Node.id?)[index]? = some node.id?) :
    (graph.setNode index node).nodes.map Node.id? = graph.nodes.map Node.id? := by
  rw [setNode, List.map_set]
  obtain ⟨hlt, hget⟩ := List.getElem?_eq_some_iff.mp hindex
  rw [← hget, List.set_getElem_self]

theorem Indexed.congr {graph' : GraphState Name Id Marker Dist} (hindexed : graph.Indexed)
    (hnodes : graph'.nodes.map Node.id? = graph.nodes.map Node.id?)
    (hinverse : graph'.inverse = graph.inverse) : graph'.Indexed := by
  constructor
  · rw [hnodes, hinverse]
    exact hindexed.sound
  · simp only [nodeCount, hnodes, hinverse]
    exact hindexed.complete

theorem Indexed.pos (hindexed : graph.Indexed) (hinverse : graph.inverse id = some index) :
    1 ≤ graph.nodeCount id :=
  List.one_le_count_iff.mpr (List.mem_of_getElem? (hindexed.sound id index hinverse))

@[simp] theorem nodeCount_addEdge (source target : ℕ) (edge : Edge Name) :
    (graph.addEdge source target edge).nodeCount = graph.nodeCount := rfl

theorem Indexed.addEdge (hindexed : graph.Indexed) (source target : ℕ) (edge : Edge Name) :
    (graph.addEdge source target edge).Indexed :=
  hindexed.congr rfl rfl

end GraphState

namespace Installable

variable {self : Installable Name Id Marker Dist Error} {activated rootActivated : Activated Name}
  {package dist : Package Name Id Marker} {id : Id} {index : ℕ}
  {graph graph' : GraphState Name Id Marker Dist} {work work' : InstallState Name Id Marker Dist}

/-! ## Packages -/

theorem findPackage_mem {name : Name} {keep : Package Name Id Marker → Bool}
    (hfind : self.findPackage name keep = .ok dist) : dist ∈ self.lock.packages := by
  obtain ⟨found, hfound, hdist⟩ := bind_eq_ok hfind
  have hmem : ∀ package ∈ found, package ∈ self.lock.packages := by
    apply foldlM_ok hfound (P := fun _ found => ∀ package ∈ found, package ∈ self.lock.packages)
    · simp
    · intro done x state next hx hstate hnext
      split at hnext
      · split at hnext
        · cases hnext
        · cases hnext
          simpa using hx
      · cases hnext
        exact hstate
  cases found with
  | none => cases hdist
  | some package =>
      cases hdist
      exact hmem dist rfl

theorem findById_ok (hfind : self.findById id = .ok dist) :
    dist ∈ self.lock.packages ∧ dist.id = id := by
  rw [findById] at hfind
  split at hfind
  case h_1 package hget =>
    cases hfind
    obtain ⟨i, hlookup, hget⟩ := Option.bind_eq_some_iff.mp hget
    obtain ⟨package, hpackage, hid⟩ := (self.lock.index id i).mp hlookup
    rw [hpackage] at hget
    cases hget
    exact ⟨List.mem_of_getElem? hpackage, hid⟩
  case h_2 => cases hfind

theorem findById_of_mem (hdist : dist ∈ self.lock.packages) :
    self.findById dist.id = .ok dist := by
  obtain ⟨i, hget⟩ := List.mem_iff_getElem?.mp hdist
  have hlookup := (self.lock.index dist.id i).mpr ⟨dist, hget, rfl⟩
  rw [findById, hlookup, Option.bind_some, hget]

theorem makeNode_ok {install : Bool} {node : Node Name Id Marker Dist}
    (hnode : self.makeNode package install = .ok node) :
    ∃ dist, node = .dist package dist install := by
  rw [makeNode] at hnode
  split at hnode
  case h_1 dist _ =>
    cases hnode
    exact ⟨dist, rfl⟩
  case h_2 => cases hnode

theorem packageToNode_id {node : Node Name Id Marker Dist}
    (hnode : self.packageToNode package = .ok node) : node.id? = some package.id := by
  obtain ⟨dist, rfl⟩ := makeNode_ok hnode
  rfl

/-! ## Adding packages that are not there yet -/

/-- The key of an item in the queue. -/
def itemKey (item : Item Name Id Marker) : Id × Option Name :=
  (item.1.id, item.2)

/-- The package and the given extras. -/
def itemsOf (id : Id) (extras : List Name) : List (Id × Option Name) :=
  (id, none) :: extras.map fun extra => (id, some extra)

theorem push_state {σ : Type} (k : Id × Option Name) (item : Item Name Id Marker)
    (work : Worklist (Item Name Id Marker) (Id × Option Name) σ) :
    (work.push k item).state = work.state := by
  rw [push]
  split <;> rfl

theorem pushDependencies_state {σ : Type} (dist : Package Name Id Marker) (id : Id)
    (extras : List Name) (work : Worklist (Item Name Id Marker) (Id × Option Name) σ) :
    (pushDependencies dist id extras work).state = work.state := by
  rw [pushDependencies]
  induction extras using List.reverseRecOn with
  | nil => exact push_state _ _ _
  | append_singleton extras extra ih =>
      rw [List.foldl_append, List.foldl_cons, List.foldl_nil, push_state, ih]

theorem pushDependencies_spec {σ : Type} (hdist : dist.id = id) (extras : List Name)
    (work : Worklist (Item Name Id Marker) (Id × Option Name) σ) :
    Pushed itemKey (· ∈ itemsOf id extras) work (pushDependencies dist id extras work) ∧
      (pushDependencies dist id extras work).state = work.state ∧
      ∀ item ∈ (pushDependencies dist id extras work).queue, item ∈ work.queue ∨ item.1 = dist := by
  subst hdist
  have hpush : ∀ extra (work : Worklist (Item Name Id Marker) (Id × Option Name) σ),
      Pushed itemKey (· = (dist.id, extra)) work (work.push (dist.id, extra) (dist, extra)) ∧
        ∀ item ∈ (work.push (dist.id, extra) (dist, extra)).queue,
          item ∈ work.queue ∨ item.1 = dist := by
    intro extra work
    constructor
    · exact Pushed.push (dist, extra)
    · rw [push]
      split
      · exact fun item hitem => Or.inl hitem
      · intro item hitem
        rcases List.mem_append.mp hitem with hitem | hitem
        · exact Or.inl hitem
        · rw [List.mem_singleton.mp hitem]
          exact Or.inr rfl
  have hstate := pushDependencies_state dist dist.id extras work
  induction extras using List.reverseRecOn with
  | nil =>
      have hfirst := hpush none work
      refine ⟨?_, hstate, hfirst.2⟩
      simpa [itemsOf, pushDependencies] using hfirst.1
  | append_singleton extras extra ih =>
      obtain ⟨hpushed, _, hqueue⟩ := ih (pushDependencies_state dist dist.id extras work)
      have hnext := hpush (some extra) (pushDependencies dist dist.id extras work)
      refine ⟨?_, hstate, ?_⟩
      · rw [pushDependencies, List.foldl_append, ← pushDependencies]
        apply (hpushed.trans hnext.1).congr
        intro k
        simp [itemsOf, or_assoc]
      · rw [pushDependencies, List.foldl_append, ← pushDependencies]
        intro item hitem
        exact (hnext.2 item hitem).elim (hqueue item) Or.inr

/-- Packages that are not there yet got a node, and the items were put in the queue. -/
structure Extended (target : Installable Name Id Marker Dist Error)
    (items : List (Id × Option Name)) (work work' : InstallState Name Id Marker Dist) : Prop where
  indexed : work'.state.Indexed
  pushed : Pushed itemKey (· ∈ items) work work'
  count : ∀ id, work'.state.nodeCount id =
    max (work.state.nodeCount id) (if (id, none) ∈ items then 1 else 0)
  packages : ∀ item ∈ work'.queue, item ∈ work.queue ∨ target.findById item.1.id = .ok item.1

namespace Extended

variable {items items' : List (Id × Option Name)} {work'' : InstallState Name Id Marker Dist}

theorem refl (hindexed : work.state.Indexed) : Extended self [] work work where
  indexed := hindexed
  pushed := .none rfl rfl (by simp)
  count := by simp
  packages := fun _ => Or.inl

theorem trans (hfirst : Extended self items work work')
    (hsecond : Extended self items' work' work'') :
    Extended self (items ++ items') work work'' where
  indexed := hsecond.indexed
  pushed := (hfirst.pushed.trans hsecond.pushed).congr fun k => by rw [List.mem_append]
  count id := by
    rw [hsecond.count, hfirst.count, max_assoc]
    congr 1
    by_cases hmem : (id, none) ∈ items <;> by_cases hmem' : (id, none) ∈ items' <;>
      simp [hmem, hmem']
  packages item hitem := by
    rcases hsecond.packages item hitem with hitem | hfind
    · exact hfirst.packages item hitem
    · exact Or.inr hfind

end Extended

/-- A node for the id is there afterwards, and was added if there was none. -/
structure Visited (id : Id) (index : ℕ) (graph graph' : GraphState Name Id Marker Dist) : Prop where
  indexed : graph'.Indexed
  count : ∀ other, graph'.nodeCount other =
    max (graph.nodeCount other) (if other = id then 1 else 0)

theorem visited_addNode {node : Node Name Id Marker Dist} (hindexed : graph.Indexed)
    (hinverse : graph.inverse id = none) (hnode : node.id? = some id) :
    Visited id graph.nodes.length graph (graph.addNode id node).2 where
  indexed := hindexed.addNode hnode
  count other := by
    rw [GraphState.nodeCount_addNode hnode]
    split
    case isTrue heq =>
      rw [heq, hindexed.complete id hinverse]
      rfl
    case isFalse => simp

theorem visited_of_inverse (hindexed : graph.Indexed) (hinverse : graph.inverse id = some index)
    (hindexed' : graph'.Indexed)
    (hnodes : graph'.nodes.map Node.id? = graph.nodes.map Node.id?) :
    Visited id index graph graph' where
  indexed := hindexed'
  count other := by
    have hcount : graph'.nodeCount other = graph.nodeCount other := by
      rw [GraphState.nodeCount, hnodes, GraphState.nodeCount]
    rw [hcount]
    split
    case isTrue heq => rw [heq, max_eq_left (hindexed.pos hinverse)]
    case isFalse => simp

theorem visitNode_ok (hindexed : graph.Indexed) (hdist : dist.id = id)
    (hvisit : self.visitNode dist id graph = .ok (index, graph')) :
    Visited id index graph graph' := by
  rw [visitNode] at hvisit
  split at hvisit
  case h_1 hinverse =>
    obtain ⟨node, hnode, hvisit⟩ := bind_eq_ok hvisit
    cases hvisit
    exact visited_addNode hindexed hinverse (hdist ▸ packageToNode_id hnode)
  case h_2 i hinverse =>
    cases hvisit
    exact visited_of_inverse hindexed hinverse hindexed rfl

theorem enableNode_ok (hindexed : graph.Indexed) (hdist : dist.id = id)
    (henable : self.enableNode dist id graph = .ok (index, graph')) :
    Visited id index graph graph' := by
  rw [enableNode] at henable
  split at henable
  case h_1 hinverse =>
    obtain ⟨node, hnode, henable⟩ := bind_eq_ok henable
    cases henable
    exact visited_addNode hindexed hinverse (hdist ▸ packageToNode_id hnode)
  case h_2 i hinverse =>
    split at henable
    · cases henable
      exact visited_of_inverse hindexed hinverse hindexed rfl
    · obtain ⟨node, hnode, henable⟩ := bind_eq_ok henable
      cases henable
      have hid : (graph.nodes.map Node.id?)[index]? = some node.id? := by
        rw [packageToNode_id hnode, hdist]
        exact hindexed.sound id index hinverse
      have hnodes := GraphState.map_setNode hid
      exact visited_of_inverse hindexed hinverse (hindexed.congr hnodes rfl) hnodes

/-- A visited package whose items are put in the queue. -/
theorem Visited.extended (hvisited : Visited id index work.state graph')
    (hdist : self.findById id = .ok dist) (extras : List Name) (source target : ℕ)
    (edge : Edge Name) :
    Extended self (itemsOf id extras) work (pushDependencies dist id extras
      { work with state := graph'.addEdge source target edge }) := by
  have hid := (findById_ok hdist).2
  obtain ⟨hpushed, hstate, hqueue⟩ := pushDependencies_spec hid extras
    { work with state := graph'.addEdge source target edge }
  constructor
  case indexed =>
    rw [hstate]
    exact hvisited.indexed.addEdge source target edge
  case pushed => exact ⟨hpushed.seen, hpushed.queue⟩
  case count =>
    intro other
    rw [hstate, GraphState.nodeCount_addEdge, hvisited.count]
    simp [itemsOf]
  case packages =>
    intro item hitem
    rcases hqueue item hitem with hitem | hitem
    · exact Or.inl hitem
    · rw [hitem, hid]
      exact Or.inr hdist

/-! ## What is selected -/

/-- The packages of the roots. -/
def rootPackages (self : Installable Name Id Marker Dist Error) : List (Package Name Id Marker) :=
  self.roots.filterMap fun name => (self.findByName name).toOption

/-- A root and its selected extras. -/
def rootItems (self : Installable Name Id Marker Dist Error) (dist : Package Name Id Marker) :
    List (Id × Option Name) :=
  itemsOf dist.id ((dist.optionalDependencies.map (·.1)).filter self.containsExtra)

/-- The dependencies of the selected groups of a package whose marker is true. -/
def activeGroups (self : Installable Name Id Marker Dist Error) (activated : Activated Name)
    (dist : Package Name Id Marker) : List (Dependency Name Id Marker) :=
  ((self.selectedGroups dist.dependencyGroups).map (·.2)).filter fun dep =>
    self.evaluate dep.complexifiedMarker activated

def activeGroupDependencies (self : Installable Name Id Marker Dist Error)
    (activated : Activated Name) : List (Dependency Name Id Marker) :=
  self.rootPackages.flatMap (self.activeGroups activated)

/-- The requirements whose marker is true, with their packages. -/
def resolveRequirements (self : Installable Name Id Marker Dist Error)
    (requirements : List (Requirement Name Marker)) :
    List (Package Name Id Marker × Requirement Name Marker) :=
  (requirements.filter fun dependency => self.evaluateNoExtras dependency.marker).filterMap
    fun dependency => (self.findByMarkers dependency.name).toOption.map (·, dependency)

def activeRequirements (self : Installable Name Id Marker Dist Error) :
    List (Package Name Id Marker × Requirement Name Marker) :=
  self.resolveRequirements self.requirements

def activeGroupRequirements (self : Installable Name Id Marker Dist Error) :
    List (Package Name Id Marker × Requirement Name Marker) :=
  self.resolveRequirements ((self.selectedGroups self.dependencyGroups).map (·.2))

/-- The package and the extras that a requirement asks for. -/
def requirementItems (entry : Package Name Id Marker × Requirement Name Marker) :
    List (Id × Option Name) :=
  itemsOf entry.1.id entry.2.extras

/-- The dependencies of an item whose marker is true. -/
def activeDependencies (self : Installable Name Id Marker Dist Error) (activated : Activated Name)
    (item : Id × Option Name) : List (Dependency Name Id Marker) :=
  match self.findById item.1 with
  | .ok dist => (dist.dependenciesOf item.2).filter fun dep =>
      self.evaluate dep.complexifiedMarker activated
  | .error _ => []

/-! ## Dependencies -/

theorem followDependency_ok {extra : Option Name} {dep : Dependency Name Id Marker}
    (hindexed : work.state.Indexed)
    (hfollow : self.followDependency activated package extra work dep = .ok work') :
    Extended self
      (if self.evaluate dep.complexifiedMarker activated then dependencyItems dep else [])
      work work' := by
  rw [followDependency.eq_def] at hfollow
  split at hfollow
  case isTrue hfalse =>
    cases hfollow
    rw [if_neg (by simpa using hfalse)]
    exact .refl hindexed
  case isFalse htrue =>
    rw [if_pos (by simpa using htrue)]
    obtain ⟨depDist, hdepDist, hfollow⟩ := bind_eq_ok hfollow
    obtain ⟨⟨depIndex, graph⟩, hvisit, hfollow⟩ := bind_eq_ok hfollow
    have hvisited := visitNode_ok hindexed (findById_ok hdepDist).2 hvisit
    dsimp only at hfollow
    split at hfollow
    case h_1 => cases hfollow
    case h_2 index _ =>
      cases hfollow
      exact hvisited.extended hdepDist _ _ _ _

theorem followDependencies_ok {extra : Option Name} {deps : List (Dependency Name Id Marker)}
    (hindexed : work.state.Indexed)
    (hfollow : deps.foldlM (self.followDependency activated package extra) work = .ok work') :
    Extended self
      ((deps.filter fun dep => self.evaluate dep.complexifiedMarker activated).flatMap
        dependencyItems) work work' := by
  apply foldlM_ok hfollow (P := fun deps work' => Extended self
    ((deps.filter fun dep => self.evaluate dep.complexifiedMarker activated).flatMap
      dependencyItems) work work')
  · exact .refl hindexed
  · intro done dep state next _ hstate hnext
    have htrans := hstate.trans (followDependency_ok hstate.indexed hnext)
    rw [List.filter_append, List.flatMap_append, List.filter_singleton]
    cases hmarker : self.evaluate dep.complexifiedMarker activated <;>
      simpa [hmarker] using htrans

theorem addGroupDependency_ok {source : ℕ} {entry : Name × Dependency Name Id Marker}
    (hindexed : work.state.Indexed)
    (hadd : self.addGroupDependency activated source work entry = .ok work') :
    Extended self
      (if self.evaluate entry.2.complexifiedMarker activated then dependencyItems entry.2 else [])
      work work' := by
  rw [addGroupDependency] at hadd
  dsimp only at hadd
  split at hadd
  case isTrue hfalse =>
    cases hadd
    rw [if_neg (by simpa using hfalse)]
    exact .refl hindexed
  case isFalse htrue =>
    rw [if_pos (by simpa using htrue)]
    obtain ⟨depDist, hdepDist, hadd⟩ := bind_eq_ok hadd
    obtain ⟨⟨depIndex, graph⟩, henable, hadd⟩ := bind_eq_ok hadd
    cases hadd
    exact (enableNode_ok hindexed (findById_ok hdepDist).2 henable).extended hdepDist _ _ _ _

/-! ## Roots, requirements and groups -/

/-- What is in the queue and what was seen before the dependencies are followed, and how
many nodes each package has. -/
structure Entered (target : Installable Name Id Marker Dist Error)
    (keys seenKeys : Id × Option Name → Prop) (count : Id → ℕ)
    (work : InstallState Name Id Marker Dist) : Prop where
  indexed : work.state.Indexed
  queue : ∀ k, (∃ item ∈ work.queue, itemKey item = k) ↔ keys k
  seen : ∀ k, k ∈ work.seen ↔ seenKeys k
  seen_le : ∀ k, seenKeys k → keys k
  packages : ∀ item ∈ work.queue, target.findById item.1.id = .ok item.1
  count : ∀ id, work.state.nodeCount id = count id

namespace Entered

variable {keys seenKeys keys' seenKeys' : Id × Option Name → Prop} {count count' : Id → ℕ}
  {items : List (Id × Option Name)}

theorem congr (hentered : Entered self keys seenKeys count work)
    (hkeys : ∀ k, keys k ↔ keys' k) (hseen : ∀ k, seenKeys k ↔ seenKeys' k)
    (hcount : ∀ id, count id = count' id) : Entered self keys' seenKeys' count' work := by
  have hkeys' : keys = keys' := funext fun k => propext (hkeys k)
  have hseen' : seenKeys = seenKeys' := funext fun k => propext (hseen k)
  have hcount' : count = count' := funext hcount
  rwa [← hkeys', ← hseen', ← hcount']

/-- Items that are pushed, in a state with other nodes. -/
theorem pushed (hentered : Entered self keys seenKeys count work)
    (hindexed : work'.state.Indexed) (hpushed : Pushed itemKey (· ∈ items) work work')
    (hpackages : ∀ item ∈ work'.queue, item ∈ work.queue ∨ self.findById item.1.id = .ok item.1)
    (hcount : ∀ id, work'.state.nodeCount id = count' id) :
    Entered self (fun k => keys k ∨ k ∈ items) (fun k => seenKeys k ∨ k ∈ items) count' work' where
  indexed := hindexed
  queue k := by
    obtain ⟨new, hnew, _, hmem⟩ := hpushed.queue
    rw [hnew, ← hentered.queue]
    simp only [List.mem_append, or_and_right, exists_or, ← List.mem_map (f := itemKey)]
    rw [hmem, hentered.seen, List.mem_map]
    constructor
    · exact Or.imp_right And.left
    · intro hk
      by_cases hseen : seenKeys k
      · exact Or.inl ((hentered.queue k).mpr (hentered.seen_le k hseen))
      · exact hk.imp_right fun hitem => ⟨hitem, hseen⟩
  seen k := by rw [hpushed.seen, hentered.seen]
  seen_le k := Or.imp_left (hentered.seen_le k)
  packages item hitem := (hpackages item hitem).elim (hentered.packages item) id
  count := hcount

theorem extended (hentered : Entered self keys seenKeys count work)
    (hextended : Extended self items work work') :
    Entered self (fun k => keys k ∨ k ∈ items) (fun k => seenKeys k ∨ k ∈ items)
      (fun id => max (count id) (if (id, none) ∈ items then 1 else 0)) work' :=
  hentered.pushed hextended.indexed hextended.pushed hextended.packages fun id => by
    rw [hextended.count, hentered.count]

/-- Items that are put in the queue although they may have been seen. -/
theorem queued (hentered : Entered self keys seenKeys count work) {new : List (Item Name Id Marker)}
    (hnew : ∀ item ∈ new, self.findById item.1.id = .ok item.1) :
    Entered self (fun k => keys k ∨ k ∈ new.map itemKey) seenKeys count
      { work with queue := work.queue ++ new } where
  indexed := hentered.indexed
  queue k := by
    simp only [List.mem_append, or_and_right, exists_or, hentered.queue, List.mem_map]
  seen := hentered.seen
  seen_le k hk := Or.inl (hentered.seen_le k hk)
  packages item hitem := (List.mem_append.mp hitem).elim (hentered.packages item) (hnew item)
  count := hentered.count

end Entered

theorem makeNode_id {install : Bool} {node : Node Name Id Marker Dist}
    (hnode : self.makeNode package install = .ok node) : node.id? = some package.id := by
  obtain ⟨dist, rfl⟩ := makeNode_ok hnode
  rfl

theorem entryNode_id {node : Node Name Id Marker Dist} (hnode : self.entryNode dist = .ok node) :
    node.id? = some dist.id := by
  rw [entryNode] at hnode
  split at hnode
  · exact makeNode_id hnode
  · exact makeNode_id hnode

theorem initial_entered :
    Entered self (fun _ => False) (fun _ => False) (fun _ => 0)
      (initial : InstallState Name Id Marker Dist) where
  indexed := ⟨fun _ _ h => by simp [initial] at h, fun _ _ => rfl⟩
  queue := by simp [initial]
  seen := by simp [initial]
  seen_le := by simp
  packages := by simp [initial]
  count _ := rfl

theorem addRoots_ok {roots : List (Package Name Id Marker × ℕ)}
    (hroots : self.roots.foldlM self.addRoot (initial, []) = .ok (work, roots)) :
    roots.map (·.1) = self.rootPackages ∧
      Entered self (fun _ => False) (fun _ => False)
        (fun id => (self.rootPackages.map (·.id)).count id) work := by
  have h := foldlM_ok hroots (P := fun names (state : _ × List (Package Name Id Marker × ℕ)) =>
    state.2.map (·.1) = names.filterMap (fun name => (self.findByName name).toOption) ∧
      Entered self (fun _ => False) (fun _ => False)
        (fun id => ((names.filterMap fun name => (self.findByName name).toOption).map
          (·.id)).count id) state.1) ⟨rfl, initial_entered⟩ ?_
  · exact h
  · intro done name state next _ hstate hnext
    obtain ⟨dist, hdist, hnext⟩ := bind_eq_ok hnext
    obtain ⟨node, hnode, hnext⟩ := bind_eq_ok hnext
    cases hnext
    obtain ⟨hroots, hentered⟩ := hstate
    have hid := entryNode_id hnode
    constructor
    · simp [hroots, hdist, Except.toOption]
    · refine ⟨(hentered.indexed.addNode hid).addEdge _ _ _, hentered.queue, hentered.seen,
        hentered.seen_le, hentered.packages, ?_⟩
      intro other
      change (state.1.state.addNode dist.id node).2.nodeCount other = _
      rw [GraphState.nodeCount_addNode hid, hentered.count, List.filterMap_append,
        List.map_append, List.count_append]
      by_cases heq : other = dist.id
      · simp [hdist, Except.toOption, heq]
      · simp [hdist, Except.toOption, heq, Ne.symm heq]

theorem addGroupDependencies_ok {source : ℕ} {entries : List (Name × Dependency Name Id Marker)}
    (hindexed : work.state.Indexed)
    (hadd : entries.foldlM (self.addGroupDependency activated source) work = .ok work') :
    Extended self
      (((entries.map (·.2)).filter fun dep =>
        self.evaluate dep.complexifiedMarker activated).flatMap dependencyItems) work work' := by
  apply foldlM_ok hadd (P := fun entries work' => Extended self
    (((entries.map (·.2)).filter fun dep =>
      self.evaluate dep.complexifiedMarker activated).flatMap dependencyItems) work work')
  · exact .refl hindexed
  · intro done entry state next _ hstate hnext
    have htrans := hstate.trans (addGroupDependency_ok hstate.indexed hnext)
    rw [List.map_append, List.filter_append, List.flatMap_append, List.map_singleton,
      List.filter_singleton]
    cases hmarker : self.evaluate entry.2.complexifiedMarker activated <;>
      simpa [hmarker] using htrans

theorem mem_dependencyItems_none {dep : Dependency Name Id Marker} :
    (id, none) ∈ dependencyItems dep ↔ id = dep.packageId := by
  simp [dependencyItems]

theorem addRootDependencies_ok {keys seenKeys : Id × Option Name → Prop} {count : Id → ℕ}
    (hdist : self.findById dist.id = .ok dist)
    (hentered : Entered self keys seenKeys count work)
    (hadd : self.addRootDependencies activated work (dist, index) = .ok work') :
    Entered self
      (fun k => (keys k ∨ self.prod = true ∧ k ∈ self.rootItems dist) ∨
        k ∈ (self.activeGroups activated dist).flatMap dependencyItems)
      (fun k => seenKeys k ∨ k ∈ (self.activeGroups activated dist).flatMap dependencyItems)
      (fun id => max (count id)
        (if id ∈ (self.activeGroups activated dist).map (·.packageId) then 1 else 0)) work' := by
  have hstart : Entered self (fun k => keys k ∨ self.prod = true ∧ k ∈ self.rootItems dist) seenKeys
      count (if self.prod then
        { work with
          queue := work.queue ++ (dist, none) ::
            ((dist.optionalDependencies.map (·.1)).filter self.containsExtra).map
              (fun extra => (dist, some extra)) }
        else work) := by
    cases hprod : self.prod with
    | false => exact hentered.congr (by simp) (fun _ => Iff.rfl) fun _ => rfl
    | true =>
        refine (hentered.queued ?_).congr ?_ (fun _ => Iff.rfl) fun _ => rfl
        · intro item hitem
          have hfst : item.1 = dist := by
            rcases List.mem_cons.mp hitem with rfl | hitem
            · rfl
            · obtain ⟨extra, _, rfl⟩ := List.mem_map.mp hitem
              rfl
          rw [hfst, hdist]
        · intro k
          rw [List.map_cons, List.map_map]
          simp [rootItems, itemsOf, itemKey, Function.comp_def]
  have hextended := addGroupDependencies_ok hstart.indexed hadd
  refine (hstart.extended hextended).congr (fun _ => Iff.rfl) (fun _ => Iff.rfl) ?_
  intro id
  simp only [List.mem_flatMap, mem_dependencyItems_none, List.mem_map, eq_comm, activeGroups]

/-- All roots with their groups. -/
theorem addRootsDependencies_ok {roots : List (Package Name Id Marker × ℕ)} {count : Id → ℕ}
    (hroots : ∀ root ∈ roots, self.findById root.1.id = .ok root.1)
    (hentered : Entered self (fun _ => False) (fun _ => False) count work)
    (hadd : roots.foldlM (self.addRootDependencies activated) work = .ok work') :
    Entered self
      (fun k => self.prod = true ∧ k ∈ (roots.map (·.1)).flatMap self.rootItems ∨
        k ∈ ((roots.map (·.1)).flatMap (self.activeGroups activated)).flatMap dependencyItems)
      (fun k => k ∈ ((roots.map (·.1)).flatMap (self.activeGroups activated)).flatMap
        dependencyItems)
      (fun id => max (count id)
        (if id ∈ ((roots.map (·.1)).flatMap (self.activeGroups activated)).map (·.packageId) then 1
          else 0)) work' := by
  apply foldlM_ok hadd (P := fun roots work' => Entered self
      (fun k => self.prod = true ∧ k ∈ (roots.map (·.1)).flatMap self.rootItems ∨
        k ∈ ((roots.map (·.1)).flatMap (self.activeGroups activated)).flatMap dependencyItems)
      (fun k => k ∈ ((roots.map (·.1)).flatMap (self.activeGroups activated)).flatMap
        dependencyItems)
      (fun id => max (count id)
        (if id ∈ ((roots.map (·.1)).flatMap (self.activeGroups activated)).map (·.packageId) then 1
          else 0)) work')
  · exact hentered.congr (by simp) (by simp) (by simp)
  · intro done root state next hroot hstate hnext
    refine (addRootDependencies_ok (hroots root hroot) hstate hnext).congr ?_ ?_ ?_
    · intro k
      simp only [List.map_append, List.flatMap_append, List.mem_append, List.map_singleton,
        List.flatMap_singleton]
      tauto
    · intro k
      simp only [List.map_append, List.flatMap_append, List.mem_append, List.map_singleton,
        List.flatMap_singleton]
    · intro id
      simp only [List.map_append, List.flatMap_append, List.mem_append, List.map_singleton,
        List.flatMap_singleton]
      by_cases hdone : id ∈ (((done.map (·.1)).flatMap (self.activeGroups activated)).map
          (·.packageId)) <;>
        by_cases hnew : id ∈ (self.activeGroups activated root.1).map (·.packageId) <;>
        simp [hdone, hnew]

theorem resolveRequirements_append (requirements requirements' : List (Requirement Name Marker)) :
    self.resolveRequirements (requirements ++ requirements') =
      self.resolveRequirements requirements ++ self.resolveRequirements requirements' := by
  simp [resolveRequirements]

/-- A requirement whose marker is true has its package, any other none. -/
theorem resolveRequirements_singleton {dependency : Requirement Name Marker} :
    self.resolveRequirements [dependency] =
      if self.evaluateNoExtras dependency.marker then
        ((self.findByMarkers dependency.name).toOption.map (·, dependency)).toList
      else [] := by
  cases hmarker : self.evaluateNoExtras dependency.marker
  · simp [resolveRequirements, hmarker]
  · cases hfind : (self.findByMarkers dependency.name).toOption <;>
      simp [resolveRequirements, hmarker, hfind]

theorem findByMarkers_ok {name : Name} (hfind : self.findByMarkers name = .ok dist) :
    self.findById dist.id = .ok dist :=
  findById_of_mem (findPackage_mem hfind)

theorem addRequirement_ok {keys seenKeys : Id × Option Name → Prop} {count : Id → ℕ}
    {dependency : Requirement Name Marker}
    (hentered : Entered self keys seenKeys count work)
    (hadd : self.addRequirement work dependency = .ok work') :
    Entered self
      (fun k => keys k ∨ k ∈ (self.resolveRequirements [dependency]).flatMap requirementItems)
      (fun k => seenKeys k ∨ k ∈ (self.resolveRequirements [dependency]).flatMap requirementItems)
      (fun id => count id + ((self.resolveRequirements [dependency]).map (·.1.id)).count id)
      work' := by
  rw [resolveRequirements_singleton]
  rw [addRequirement] at hadd
  split at hadd
  case isTrue hfalse =>
    cases hadd
    rw [if_neg (by simpa using hfalse)]
    exact hentered.congr (by simp) (by simp) (by simp)
  case isFalse htrue =>
    rw [if_pos (by simpa using htrue)]
    obtain ⟨dist, hdist, hadd⟩ := bind_eq_ok hadd
    obtain ⟨node, hnode, hadd⟩ := bind_eq_ok hadd
    cases hadd
    have hid := entryNode_id hnode
    have hnode' : ∀ other, (work.state.addNode dist.id node).2.nodeCount other = _ :=
      GraphState.nodeCount_addNode hid
    obtain ⟨hpushed, hstate, hqueue⟩ := pushDependencies_spec (rfl : dist.id = dist.id)
      dependency.extras
      { work with
        state := (work.state.addNode dist.id node).2.addEdge 0 work.state.nodes.length .prod }
    have hitems : Pushed itemKey (· ∈ itemsOf dist.id dependency.extras) work _ :=
      ⟨hpushed.seen, hpushed.queue⟩
    refine (hentered.pushed ?_ hitems ?_ ?_).congr ?_ ?_ fun _ => rfl
    · rw [hstate]
      exact (hentered.indexed.addNode hid).addEdge _ _ _
    · intro item hitem
      rcases hqueue item hitem with hitem | hitem
      · exact Or.inl hitem
      · rw [hitem]
        exact Or.inr (findByMarkers_ok hdist)
    · intro other
      rw [hstate, GraphState.nodeCount_addEdge, hnode', hentered.count]
      by_cases heq : other = dist.id
      · simp [hdist, Except.toOption, heq]
      · simp [hdist, Except.toOption, heq, Ne.symm heq]
    · simp [hdist, Except.toOption, requirementItems]
    · simp [hdist, Except.toOption, requirementItems]

theorem addGroupRequirement_ok {entry : Name × Requirement Name Marker}
    (hindexed : work.state.Indexed)
    (hadd : self.addGroupRequirement work entry = .ok work') :
    Extended self ((self.resolveRequirements [entry.2]).flatMap requirementItems) work work' := by
  rw [resolveRequirements_singleton]
  rw [addGroupRequirement] at hadd
  dsimp only at hadd
  split at hadd
  case isTrue hfalse =>
    cases hadd
    rw [if_neg (by simpa using hfalse)]
    exact .refl hindexed
  case isFalse htrue =>
    rw [if_pos (by simpa using htrue)]
    obtain ⟨dist, hdist, hadd⟩ := bind_eq_ok hadd
    obtain ⟨⟨index, graph⟩, henable, hadd⟩ := bind_eq_ok hadd
    cases hadd
    have hextended := (enableNode_ok hindexed rfl henable).extended (findByMarkers_ok hdist)
      entry.2.extras 0 index (.dev entry.1)
    simpa [hdist, Except.toOption, requirementItems] using hextended

theorem addRequirements_ok {keys seenKeys : Id × Option Name → Prop} {count : Id → ℕ}
    {requirements : List (Requirement Name Marker)}
    (hentered : Entered self keys seenKeys count work)
    (hadd : requirements.foldlM self.addRequirement work = .ok work') :
    Entered self
      (fun k => keys k ∨ k ∈ (self.resolveRequirements requirements).flatMap requirementItems)
      (fun k => seenKeys k ∨ k ∈ (self.resolveRequirements requirements).flatMap requirementItems)
      (fun id => count id + ((self.resolveRequirements requirements).map (·.1.id)).count id)
      work' := by
  apply foldlM_ok hadd (P := fun requirements work' => Entered self
      (fun k => keys k ∨ k ∈ (self.resolveRequirements requirements).flatMap requirementItems)
      (fun k => seenKeys k ∨ k ∈ (self.resolveRequirements requirements).flatMap requirementItems)
      (fun id => count id + ((self.resolveRequirements requirements).map (·.1.id)).count id)
      work')
  · exact hentered.congr (by simp [resolveRequirements]) (by simp [resolveRequirements])
      (by simp [resolveRequirements])
  · intro done dependency state next _ hstate hnext
    apply (addRequirement_ok hstate hnext).congr
    · intro k
      rw [resolveRequirements_append, List.flatMap_append, List.mem_append, or_assoc]
    · intro k
      rw [resolveRequirements_append, List.flatMap_append, List.mem_append, or_assoc]
    · intro id
      rw [resolveRequirements_append, List.map_append, List.count_append, add_assoc]

theorem addGroupRequirements_ok {entries : List (Name × Requirement Name Marker)}
    (hindexed : work.state.Indexed)
    (hadd : entries.foldlM self.addGroupRequirement work = .ok work') :
    Extended self
      ((self.resolveRequirements (entries.map (·.2))).flatMap requirementItems) work work' := by
  apply foldlM_ok hadd (P := fun entries work' => Extended self
    ((self.resolveRequirements (entries.map (·.2))).flatMap requirementItems) work work')
  · exact .refl hindexed
  · intro done entry state next _ hstate hnext
    have htrans := hstate.trans (addGroupRequirement_ok hstate.indexed hnext)
    rwa [List.map_append, resolveRequirements_append, List.flatMap_append]

theorem mem_requirementItems_none {entry : Package Name Id Marker × Requirement Name Marker} :
    (id, none) ∈ requirementItems entry ↔ id = entry.1.id := by
  simp [requirementItems, itemsOf]

/-- The items from which dependencies are followed. -/
def entryItems (self : Installable Name Id Marker Dist Error) (activated : Activated Name) :
    List (Id × Option Name) :=
  (if self.prod then self.rootPackages.flatMap self.rootItems else []) ++
    (self.activeGroupDependencies activated).flatMap dependencyItems ++
    self.activeRequirements.flatMap requirementItems ++
    self.activeGroupRequirements.flatMap requirementItems

/-- The items that can be there without being seen are those of the roots. -/
def seenItems (self : Installable Name Id Marker Dist Error) (activated : Activated Name) :
    List (Id × Option Name) :=
  (self.activeGroupDependencies activated).flatMap dependencyItems ++
    self.activeRequirements.flatMap requirementItems ++
    self.activeGroupRequirements.flatMap requirementItems

/-- How many nodes a package has before dependencies are followed. -/
def entryCount (self : Installable Name Id Marker Dist Error) (activated : Activated Name)
    (id : Id) : ℕ :=
  max
    (max ((self.rootPackages.map (·.id)).count id)
        (if id ∈ (self.activeGroupDependencies activated).map (·.packageId) then 1 else 0) +
      (self.activeRequirements.map (·.1.id)).count id)
    (if id ∈ self.activeGroupRequirements.map (·.1.id) then 1 else 0)

theorem enter_ok (henter : self.enter activated = .ok work) :
    Entered self (· ∈ self.entryItems activated) (· ∈ self.seenItems activated)
      (self.entryCount activated) work := by
  obtain ⟨⟨work₁, roots⟩, hroots, henter⟩ := bind_eq_ok henter
  obtain ⟨work₂, hgroups, henter⟩ := bind_eq_ok henter
  obtain ⟨work₃, hrequirements, henter⟩ := bind_eq_ok henter
  obtain ⟨hmap, hentered⟩ := addRoots_ok hroots
  have hfind : ∀ root ∈ roots, self.findById root.1.id = .ok root.1 := by
    intro root hroot
    have hmem : root.1 ∈ self.rootPackages := hmap ▸ List.mem_map_of_mem hroot
    obtain ⟨name, _, hname⟩ := List.mem_filterMap.mp hmem
    cases hdist : self.findByName name with
    | error e => simp [hdist, Except.toOption] at hname
    | ok dist =>
        rw [hdist] at hname
        cases hname
        exact findById_of_mem (findPackage_mem hdist)
  have hentered₂ := addRootsDependencies_ok hfind hentered hgroups
  have hentered₃ := addRequirements_ok hentered₂ hrequirements
  have hentered₄ := hentered₃.extended (addGroupRequirements_ok hentered₃.indexed henter)
  rw [hmap] at hentered₄
  apply hentered₄.congr
  · intro k
    simp only [entryItems, List.mem_append]
    cases self.prod <;> simp [activeGroupDependencies, activeRequirements, activeGroupRequirements]
  · intro k
    simp only [seenItems, List.mem_append]
    rfl
  · intro id
    have hmem : (id, none) ∈ self.activeGroupRequirements.flatMap requirementItems ↔
        id ∈ self.activeGroupRequirements.map (·.1.id) := by
      simp only [List.mem_flatMap, mem_requirementItems_none, List.mem_map, eq_comm]
    simp only [entryCount, ← hmem]
    rfl

/-! ## Following the dependencies -/

/-- An item asks for another one: by a dependency whose marker is true. -/
def Asks (self : Installable Name Id Marker Dist Error) (activated : Activated Name)
    (k k' : Id × Option Name) : Prop :=
  ∃ dep ∈ self.activeDependencies activated k, k' ∈ dependencyItems dep

theorem mem_allItems {extra : Option Name} {dep : Dependency Name Id Marker}
    (hpackage : package ∈ self.lock.packages) (hdep : dep ∈ package.dependenciesOf extra)
    {k : Id × Option Name} (hk : k ∈ dependencyItems dep) : k ∈ self.allItems := by
  have hmem : dep ∈ package.dependencies ++ package.optionalDependencies.flatMap (·.2) := by
    cases extra with
    | none => exact List.mem_append_left _ hdep
    | some extra =>
        rw [Package.dependenciesOf] at hdep
        cases hlookup : package.optionalDependencies.lookup extra with
        | none => simp [hlookup] at hdep
        | some deps =>
            obtain ⟨l₁, l₂, heq, _⟩ := List.lookup_eq_some_iff.mp hlookup
            rw [hlookup, Option.getD_some] at hdep
            rw [List.mem_append, List.mem_flatMap]
            exact Or.inr ⟨(extra, deps), by rw [heq]; simp, hdep⟩
  exact List.mem_flatMap.mpr ⟨package, hpackage, List.mem_flatMap.mpr ⟨dep, hmem, hk⟩⟩

theorem activeDependencies_eq (hpackage : self.findById package.id = .ok package)
    (extra : Option Name) : self.activeDependencies activated (package.id, extra) =
      (package.dependenciesOf extra).filter fun dep =>
        self.evaluate dep.complexifiedMarker activated := by
  rw [activeDependencies, hpackage]

/-- What holds while dependencies are followed. -/
structure Following (target : Installable Name Id Marker Dist Error) (activated : Activated Name)
    (keys : Id × Option Name → Prop) (count : Id → ℕ)
    (work : InstallState Name Id Marker Dist) : Prop where
  indexed : work.state.Indexed
  searching : Searching itemKey keys (target.Asks activated) work
  packages : ∀ item ∈ work.queue, target.findById item.1.id = .ok item.1
  count : ∀ id, work.state.nodeCount id = max (count id) (if (id, none) ∈ work.seen then 1 else 0)

theorem Following.step {keys : Id × Option Name → Prop} {count : Id → ℕ} {extra : Option Name}
    {queue : List (Item Name Id Marker)} (hfollowing : Following self activated keys count work)
    (hqueue : work.queue = (package, extra) :: queue)
    (hstep : (package.dependenciesOf extra).foldlM
      (self.followDependency activated package extra) { work with queue } = .ok work') :
    Following self activated keys count work' ∧
      remaining self.allItems.toFinset work' ≤
        remaining self.allItems.toFinset { work with queue } := by
  have hpackage := hfollowing.packages (package, extra) (by simp [hqueue])
  have hindexed : ({ work with queue } : InstallState Name Id Marker Dist).state.Indexed :=
    hfollowing.indexed
  have hextended := followDependencies_ok hindexed hstep
  rw [← activeDependencies_eq hpackage] at hextended
  have hpushed : Pushed itemKey (self.Asks activated (package.id, extra)) { work with queue } work' :=
    hextended.pushed.congr fun k => by rw [List.mem_flatMap]; rfl
  constructor
  · constructor
    case indexed => exact hextended.indexed
    case searching => exact hfollowing.searching.step hqueue hpushed
    case packages =>
      intro item hitem
      rcases hextended.packages item hitem with hitem | hfind
      · exact hfollowing.packages item (by rw [hqueue]; exact List.mem_cons_of_mem _ hitem)
      · exact hfind
    case count =>
      intro id
      rw [hextended.count]
      change max (work.state.nodeCount id) _ = _
      rw [hfollowing.count]
      simp only [hextended.pushed.seen]
      rw [max_assoc]
      congr 1
      by_cases hseen : (id, none) ∈ work.seen <;>
        by_cases hitem : (id, none) ∈ (self.activeDependencies activated (package.id, extra)).flatMap
          dependencyItems <;> simp [hseen, hitem]
  · apply hpushed.remaining_le
    intro k ⟨dep, hdep, hk⟩
    rw [activeDependencies_eq hpackage] at hdep
    rw [List.mem_toFinset]
    exact mem_allItems (findById_ok hpackage).1 (List.mem_of_mem_filter hdep) hk

theorem Entered.exists_queue {keys seenKeys : Id × Option Name → Prop} {count : Id → ℕ}
    (hentered : Entered self keys seenKeys count work) {k : Id × Option Name}
    (hk : keys k ∨ k ∈ work.seen) : ∃ item ∈ work.queue, itemKey item = k :=
  (hentered.queue k).mpr (hk.elim id fun hk => hentered.seen_le k ((hentered.seen k).mp hk))

theorem Entered.following {keys seenKeys : Id × Option Name → Prop} {count : Id → ℕ}
    (hentered : Entered self keys seenKeys count work)
    (hcount : ∀ id, seenKeys (id, none) → 1 ≤ count id) :
    Following self activated keys count work := by
  constructor
  case indexed => exact hentered.indexed
  case searching =>
    constructor
    · exact fun item hitem => .start ((hentered.queue _).mp ⟨item, hitem, rfl⟩)
    · exact fun k hk => .start (hentered.seen_le k ((hentered.seen k).mp hk))
    · exact fun k hk => Or.inl (hentered.exists_queue hk)
  case packages => exact hentered.packages
  case count =>
    intro id
    rw [hentered.count]
    split
    case isTrue hmem => rw [max_eq_left (hcount id ((hentered.seen _).mp hmem))]
    case isFalse => simp

theorem follow_ok {keys seenKeys : Id × Option Name → Prop} {count : Id → ℕ}
    (hentered : Entered self keys seenKeys count work)
    (hcount : ∀ id, seenKeys (id, none) → 1 ≤ count id)
    (hfollow : self.follow activated work = .ok work') :
    (∀ k, Reached keys (self.Asks activated) k ↔ keys k ∨ k ∈ work'.seen) ∧
      ∀ id, work'.state.nodeCount id =
        max (count id) (if (id, none) ∈ work'.seen then 1 else 0) := by
  obtain ⟨hfollowing, hqueue⟩ := run_ok (Following self activated keys count)
    (fun hinv hqueue hstep => Following.step hinv hqueue hstep) (hentered.following hcount)
    (remaining_le_length _ _) hfollow
  exact ⟨fun k => hfollowing.searching.reached_iff hqueue, hfollowing.count⟩

/-- The first traversal ends by itself as well. -/
theorem collectExtras_queue
    {work work' : Worklist (Item Name Id Marker) (Id × Option Name) (List (Name × Name))}
    (hpackages : ∀ item ∈ work.queue, self.findById item.1.id = .ok item.1)
    (hcollect : self.collectExtras activated work = .ok work') : work'.queue = [] := by
  refine (run_ok (fun work => ∀ item ∈ work.queue, self.findById item.1.id = .ok item.1)
    ?_ hpackages (remaining_le_length self.allItems work) hcollect).2
  intro work work' item queue hinv hqueue hstep
  have hpackage := (findById_ok (hinv item (by simp [hqueue]))).1
  have hstart : ∀ item ∈ queue, self.findById item.1.id = .ok item.1 :=
    fun item hitem => hinv item (by simp [hqueue, hitem])
  apply foldlM_ok hstep (P := fun _ next =>
    (∀ item ∈ next.queue, self.findById item.1.id = .ok item.1) ∧
      remaining self.allItems.toFinset next ≤
        remaining self.allItems.toFinset { work with queue }) ⟨hstart, le_rfl⟩
  intro done dep state next hdep ⟨hstate, hle⟩ hnext
  rw [activateDependency] at hnext
  split at hnext
  case isTrue =>
    cases hnext
    exact ⟨hstate, hle⟩
  case isFalse =>
    obtain ⟨depDist, hdepDist, hnext⟩ := bind_eq_ok hnext
    cases hnext
    have hid := (findById_ok hdepDist).2
    obtain ⟨hpushed, _, hitems⟩ := pushDependencies_spec hid (dep.extra.sort (· ≤ ·))
      { state with
        state := state.state ++ ((dep.extra.sort (· ≤ ·)).map (LockId.name dep.packageId, ·)).filter
          (· ∉ state.state) }
    constructor
    · intro item hitem
      rcases hitems item hitem with hitem | hitem
      · exact hstate item hitem
      · rw [hitem, hid, hdepDist]
    · refine le_trans (hpushed.remaining_le ?_) hle
      intro k hk
      rw [List.mem_toFinset]
      exact mem_allItems hpackage hdep hk

/-! ## The closure -/

/-- The least set with the roots and with the packages of all items that are reached. -/
def InClosure (self : Installable Name Id Marker Dist Error)
    (rootActivated activated : Activated Name) (id : Id) : Prop :=
  id ∈ self.rootPackages.map (·.id) ∨
    Reached (· ∈ self.entryItems rootActivated) (self.Asks activated) (id, none)

theorem mem_entryItems_none :
    (id, none) ∈ self.entryItems rootActivated ↔
      (self.prod = true ∧ id ∈ self.rootPackages.map (·.id)) ∨
        (id, none) ∈ self.seenItems rootActivated := by
  have hroot : (id, none) ∈ self.rootPackages.flatMap self.rootItems ↔
      id ∈ self.rootPackages.map (·.id) := by
    have hitems : ∀ dist, (id, none) ∈ self.rootItems dist ↔ id = dist.id := by
      simp [rootItems, itemsOf]
    simp only [List.mem_flatMap, hitems, List.mem_map, eq_comm]
  simp only [entryItems, seenItems, List.mem_append]
  cases self.prod <;> simp [hroot, or_assoc]

theorem mem_seenItems_none :
    (id, none) ∈ self.seenItems rootActivated ↔
      id ∈ (self.activeGroupDependencies rootActivated).map (·.packageId) ∨
        id ∈ self.activeRequirements.map (·.1.id) ∨
          id ∈ self.activeGroupRequirements.map (·.1.id) := by
  simp only [seenItems, List.mem_append, List.mem_flatMap, mem_dependencyItems_none,
    mem_requirementItems_none, List.mem_map, or_assoc, eq_comm]

theorem one_le_ite {p : Prop} [Decidable p] : 1 ≤ (if p then 1 else 0) ↔ p := by
  by_cases hp : p <;> simp [hp]

theorem one_le_entryCount : 1 ≤ self.entryCount rootActivated id ↔
    id ∈ self.rootPackages.map (·.id) ∨ (id, none) ∈ self.seenItems rootActivated := by
  have hadd : ∀ m n : ℕ, 1 ≤ m + n ↔ 1 ≤ m ∨ 1 ≤ n := by omega
  simp only [entryCount, mem_seenItems_none, le_max_iff, hadd, one_le_ite, List.one_le_count_iff,
    or_assoc]

/-- The nodes before the dependencies are followed are distinct iff the packages of roots
and requirements are, and no requirement is a dependency of a group of a root. -/
theorem entryCount_le_one_iff : (∀ id, self.entryCount rootActivated id ≤ 1) ↔
    (self.rootPackages.map (·.id) ++ self.activeRequirements.map (·.1.id)).Nodup ∧
      ∀ id ∈ self.activeRequirements.map (·.1.id),
        id ∉ (self.activeGroupDependencies rootActivated).map (·.packageId) := by
  rw [List.nodup_iff_count_le_one, ← forall_and]
  apply forall_congr'
  intro id
  have harith : ∀ (r q : ℕ) (g h : Prop) [Decidable g] [Decidable h],
      max (max r (if g then 1 else 0) + q) (if h then 1 else 0) ≤ 1 ↔
        r + q ≤ 1 ∧ (1 ≤ q → ¬ g) := by
    intro r q g h _ _
    by_cases hg : g <;> by_cases hh : h <;> simp only [hg, hh, if_true, if_false] <;> grind
  rw [entryCount, harith, List.count_append, List.one_le_count_iff]

/-- A resolution that succeeds has activated extras and groups. -/
theorem exists_activations (hresolve : self.toResolution = .ok graph) :
    ∃ rootActivated activated, self.activateRoots = .ok rootActivated ∧
      self.activations = .ok activated := by
  obtain ⟨rootActivated, hroot, hresolve⟩ := bind_eq_ok hresolve
  obtain ⟨work, henter, hresolve⟩ := bind_eq_ok hresolve
  obtain ⟨activated, hactivate, _⟩ := bind_eq_ok hresolve
  refine ⟨rootActivated, activated, hroot, ?_⟩
  rw [activations, hroot]
  change (self.enter rootActivated >>= _) = _
  rw [henter]
  exact hactivate

/-- The parts of a resolution that succeeds. -/
theorem toResolution_ok (hroot : self.activateRoots = .ok rootActivated)
    (hactivated : self.activations = .ok activated) (hresolve : self.toResolution = .ok graph) :
    ∃ work final, self.enter rootActivated = .ok work ∧ self.follow activated work = .ok final ∧
      graph = final.state := by
  obtain ⟨_, hroot', hresolve⟩ := bind_eq_ok hresolve
  obtain ⟨work, henter, hresolve⟩ := bind_eq_ok hresolve
  obtain ⟨_, hactivate, hresolve⟩ := bind_eq_ok hresolve
  obtain ⟨final, hfollow, hresolve⟩ := bind_eq_ok hresolve
  cases hresolve
  cases hroot.symm.trans hroot'
  have hsame : self.activations = self.activate rootActivated work := by
    rw [activations, hroot]
    change (self.enter rootActivated >>= _) = _
    rw [henter]
    rfl
  cases (hactivated.symm.trans hsame).trans hactivate
  exact ⟨work, final, henter, hfollow, rfl⟩

theorem one_le_of_seenItems (hseen : (id, none) ∈ self.seenItems rootActivated) :
    1 ≤ self.entryCount rootActivated id :=
  one_le_entryCount.mpr (Or.inr hseen)

/-- The resolution has one node for each package of the closure, and no other package node,
iff the roots and the requirements are distinct packages and no requirement is also an
active group dependency of a root. -/
theorem toResolution_closure_iff (hroot : self.activateRoots = .ok rootActivated)
    (hactivated : self.activations = .ok activated) (hresolve : self.toResolution = .ok graph) :
    (∀ id, (self.InClosure rootActivated activated id → graph.nodeCount id = 1) ∧
        (¬ self.InClosure rootActivated activated id → graph.nodeCount id = 0)) ↔
      (self.rootPackages.map (·.id) ++ self.activeRequirements.map (·.1.id)).Nodup ∧
        ∀ id ∈ self.activeRequirements.map (·.1.id),
          id ∉ (self.activeGroupDependencies rootActivated).map (·.packageId) := by
  obtain ⟨work, final, henter, hfollow, rfl⟩ := toResolution_ok hroot hactivated hresolve
  obtain ⟨hreached, hcount⟩ := follow_ok (enter_ok henter) (fun _ => one_le_of_seenItems) hfollow
  have hclosure : ∀ id, self.InClosure rootActivated activated id ↔
      1 ≤ final.state.nodeCount id := by
    intro id
    rw [InClosure, hreached, mem_entryItems_none, hcount, le_max_iff, one_le_entryCount,
      one_le_ite]
    tauto
  have hle : (∀ id, final.state.nodeCount id ≤ 1) ↔
      ∀ id, self.entryCount rootActivated id ≤ 1 := by
    apply forall_congr'
    intro id
    rw [hcount, max_le_iff]
    split <;> simp
  rw [← entryCount_le_one_iff, ← hle]
  apply forall_congr'
  intro id
  rw [hclosure]
  omega

/-! ## A script -/

section Example

local instance : LockId ℕ String := ⟨fun _ => "foo", fun _ => none⟩

/-- A lock with the package `foo`, which has an extra `bar`. -/
def fooLock : IndexedLock String ℕ Unit where
  packages := [⟨0, [], [], [], [("bar", [])], []⟩]
  byId := [(0, 0)]
  index id i := by
    by_cases hid : id = 0
    · cases i <;> simp [hid]
    · cases i <;> simp [List.lookup_cons, beq_false_of_ne hid, Ne.symm hid]

/-- A script with requirements on `foo`, installed from its lock. -/
def script (requirements : List (Requirement String Unit)) :
    Installable String ℕ Unit Unit Unit where
  lock := fooLock
  conflicts := []
  requirements := requirements
  dependencyGroups := []
  roots := []
  prod := true
  containsGroup _ := false
  containsExtra _ := false
  evaluate _ _ := true
  includePackage _ := true
  toDist _ _ := .ok ()

/-- With `foo` and `foo[bar]` as requirements, `foo` is there twice. -/
theorem toResolution_twice : ∃ graph,
    (script [⟨"foo", [], ()⟩, ⟨"foo", ["bar"], ()⟩]).toResolution = .ok graph ∧
      (script [⟨"foo", [], ()⟩, ⟨"foo", ["bar"], ()⟩]).InClosure ⟨[], [], []⟩ ⟨[], [], []⟩ 0 ∧
      graph.nodeCount 0 = 2 :=
  ⟨_, rfl, .inr (.start (by decide +kernel)), by decide +kernel⟩

/-- With `foo[bar]` alone, the resolution is the closure. -/
theorem toResolution_closure_iff_once : ∃ graph,
    (script [⟨"foo", ["bar"], ()⟩]).toResolution = .ok graph ∧
      ∀ id, ((script [⟨"foo", ["bar"], ()⟩]).InClosure ⟨[], [], []⟩ ⟨[], [], []⟩ id →
          graph.nodeCount id = 1) ∧
        (¬ (script [⟨"foo", ["bar"], ()⟩]).InClosure ⟨[], [], []⟩ ⟨[], [], []⟩ id →
          graph.nodeCount id = 0) :=
  ⟨_, rfl, (toResolution_closure_iff rfl rfl rfl).mpr (by decide +kernel)⟩

end Example

end Installable

end Uv.Resolver
