import Uv.Pep508.Meaning

/-!
# Well-formed tables

Nodes only refer to nodes that were created before them, test a variable with
edges of its kind, have at least two different children and are stored once.
The table only grows, so a diagram keeps its meaning.
-/

namespace Uv.Pep508

open Uv.Core Uv.Pep440

namespace Interner

/-! ## Growth -/

/-- Later states keep every node, and the exclusions once they are built. -/
instance : Preorder Interner where
  le s s' := s.nodes <+: s'.nodes ∧
    ∀ tree, s.exclusions = some tree → s'.exclusions = some tree
  le_refl s := ⟨List.prefix_refl _, fun _ h => h⟩
  le_trans _ _ _ hle hle' :=
    ⟨hle.1.trans hle'.1, fun tree h => hle'.2 tree (hle.2 tree h)⟩

/-- The reference is a terminal or points into the table. -/
def Valid (s : Interner) (id : NodeId) : Prop := id.rank ≤ s.nodes.length

instance (s : Interner) (id : NodeId) : Decidable (s.Valid id) :=
  inferInstanceAs (Decidable (id.rank ≤ s.nodes.length))

variable {s s' : Interner} {id : NodeId} {node : Node}

theorem Valid.mono (hle : s ≤ s') (hvalid : s.Valid id) : s'.Valid id :=
  hvalid.trans hle.1.length_le

@[simp]
theorem valid_not : s.Valid id.not ↔ s.Valid id := by
  simp [Valid]

@[simp]
theorem valid_negate {parent : NodeId} : s.Valid (id.negate parent) ↔ s.Valid id := by
  simp [Valid]

theorem valid_true : s.Valid .TRUE := Nat.zero_le _

theorem valid_false : s.Valid .FALSE := Nat.zero_le _

@[simp]
theorem node_not : s.node id.not = s.node id := by
  simp [node]

theorem node_new {index : ℕ} {complement : Bool} :
    s.node (NodeId.new index complement) = s.nodes[index]? := by
  simp [Interner.node]

theorem mem_cache {x y r : NodeId} (hcached : s.cached x y = some r) :
    ((x, y), r) ∈ s.cache := by
  obtain ⟨before, after, hcache, -⟩ := List.lookup_eq_some_iff.mp hcached
  rw [hcache]
  simp

theorem node_mono (hle : s ≤ s') (hnode : s.node id = some node) :
    s'.node id = some node := by
  unfold Interner.node at hnode ⊢
  cases hindex : id.index with
  | none => simp [hindex] at hnode
  | some index =>
      simp only [hindex, Option.bind_some] at hnode ⊢
      obtain ⟨more, hmore⟩ := hle.1
      rw [← hmore, List.getElem?_append_left
        (List.getElem?_eq_some_iff.mp hnode).1, hnode]

theorem exists_index (hnode : s.node id = some node) :
    ∃ index, id = NodeId.new index id.isComplement ∧
      s.nodes[index]? = some node := by
  rcases id.cases_index with rfl | rfl | ⟨index, hid⟩
  · cases hnode
  · cases hnode
  · rw [hid, node_new] at hnode
    exact ⟨index, hid, hnode⟩

theorem valid_of_node (hnode : s.node id = some node) : s.Valid id := by
  obtain ⟨index, hid, hget⟩ := exists_index hnode
  rw [Valid, hid, NodeId.rank_new]
  exact (List.getElem?_eq_some_iff.mp hget).1

theorem isTrue_of_node (hnode : s.node id = some node) : id.isTrue = false := by
  rw [Bool.eq_false_iff]
  intro htrue
  rw [NodeId.isTrue_iff.mp htrue] at hnode
  cases hnode

theorem isFalse_of_node (hnode : s.node id = some node) : id.isFalse = false := by
  rw [Bool.eq_false_iff]
  intro hfalse
  rw [NodeId.isFalse_iff.mp hfalse] at hnode
  cases hnode

/-- A valid reference is a terminal or has a node. -/
theorem Valid.cases (hvalid : s.Valid id) :
    id = .TRUE ∨ id = .FALSE ∨ ∃ node, s.node id = some node := by
  rcases id.cases_index with htrue | hfalse | ⟨index, hid⟩
  · exact .inl htrue
  · exact .inr (.inl hfalse)
  · refine .inr (.inr ?_)
    rw [hid, node_new]
    rw [Valid, hid, NodeId.rank_new] at hvalid
    exact ⟨_, List.getElem?_eq_getElem hvalid⟩

/-- Two trees that are no terminals are nodes. -/
theorem exists_nodes {x y : NodeId} (hx : s.Valid x) (hy : s.Valid y)
    (htrue : ¬ (x.isTrue || y.isTrue) = true) (hfalse : ¬ (x.isFalse || y.isFalse) = true) :
    ∃ xNode yNode, s.node x = some xNode ∧ s.node y = some yNode := by
  simp only [Bool.or_eq_true, not_or, NodeId.isTrue_iff, NodeId.isFalse_iff] at htrue hfalse
  obtain ⟨xNode, hxNode⟩ := (hx.cases.resolve_left htrue.1).resolve_left hfalse.1
  obtain ⟨yNode, hyNode⟩ := (hy.cases.resolve_left htrue.2).resolve_left hfalse.2
  exact ⟨xNode, yNode, hxNode, hyNode⟩

end Interner

/-! ## Well-formed nodes -/

/-- A node at the given place of the table. -/
structure Node.WellFormed (index : ℕ) (node : Node) : Prop where
  fits : node.children.Fits node.var
  rank_le : ∀ child ∈ node.children.nodes, child.rank ≤ index
  first : ∀ first, node.children.nodes.head? = some first →
    first.isComplement = false
  reduced : ∃ child ∈ node.children.nodes, ∃ child' ∈ node.children.nodes,
    child ≠ child'

namespace Interner

structure WellFormed (s : Interner) : Prop where
  node : ∀ {index : ℕ} {node : Node}, s.nodes[index]? = some node →
    node.WellFormed index
  unique : ∀ {index index' : ℕ} {node node' : Node}, s.nodes[index]? = some node →
    s.nodes[index']? = some node' → node.var = node'.var →
      node.children.branches = node'.children.branches → index = index'

theorem wellFormed_default : WellFormed default where
  node hget := by simp [default] at hget
  unique hget := by simp [default] at hget

variable {s s' : Interner} {id : NodeId} {node : Node}

namespace WellFormed

theorem fits (hwf : WellFormed s) (hnode : s.node id = some node) :
    node.children.Fits node.var := by
  obtain ⟨index, -, hget⟩ := exists_index hnode
  exact (hwf.node hget).fits

theorem rank_lt (hwf : WellFormed s) (hnode : s.node id = some node)
    {child : NodeId} (hchild : child ∈ node.children.nodes) :
    child.rank < id.rank := by
  obtain ⟨index, hid, hget⟩ := exists_index hnode
  rw [hid, NodeId.rank_new]
  exact Nat.lt_succ_of_le ((hwf.node hget).rank_le child hchild)

theorem valid_child (hwf : WellFormed s) (hnode : s.node id = some node)
    {child : NodeId} (hchild : child ∈ node.children.nodes) : s.Valid child :=
  (hwf.rank_lt hnode hchild).le.trans (valid_of_node hnode)

theorem valid_step (hwf : WellFormed s) (hnode : s.node id = some node) {child parent : NodeId}
    (hchild : child ∈ node.children.nodes) : s.Valid (child.negate parent) :=
  valid_negate.mpr (hwf.valid_child hnode hchild)

theorem rank_step (hwf : WellFormed s) (hnode : s.node id = some node) {child : NodeId}
    (hchild : child ∈ node.children.nodes) : (child.negate id).rank < id.rank := by
  rw [NodeId.rank_negate]
  exact hwf.rank_lt hnode hchild

/-- The children as they are used, negated as the node is. -/
theorem valid_negate_children (hwf : WellFormed s) (hnode : s.node id = some node) :
    ∀ child ∈ node.children.nodes.map (·.negate id), s.Valid child := by
  intro child hmem
  obtain ⟨child, hchild, rfl⟩ := List.mem_map.mp hmem
  exact hwf.valid_step hnode hchild

theorem reduced (hwf : WellFormed s) (hnode : s.node id = some node) :
    ∃ child ∈ node.children.nodes, ∃ child' ∈ node.children.nodes,
      child ≠ child' := by
  obtain ⟨index, -, hget⟩ := exists_index hnode
  exact (hwf.node hget).reduced

end WellFormed

/-- Induction over the diagram below a valid reference. -/
theorem Valid.induct (hwf : WellFormed s) {motive : ∀ id, s.Valid id → Prop}
    (true : motive .TRUE valid_true) (false : motive .FALSE valid_false)
    (step : ∀ {id node} (hnode : s.node id = some node),
      (∀ child ∈ node.children.nodes, ∀ parent hchild,
        motive (child.negate parent) hchild) →
      motive id (valid_of_node hnode))
    (hvalid : s.Valid id) : motive id hvalid := by
  induction hrank : id.rank using Nat.strong_induction_on generalizing id with
  | _ rank ih =>
      subst hrank
      rcases hvalid.cases with rfl | rfl | ⟨node, hnode⟩
      · exact true
      · exact false
      · exact step hnode fun child hchild parent hvalidChild =>
          ih _ (hwf.rank_lt hnode hchild) hvalidChild (NodeId.rank_negate _ _)

/-! ## Truth -/

/-- Following the picked edges leads to `true`. -/
inductive Holds (s : Interner) (v : Valuation) : NodeId → Prop where
  | true : Holds s v .TRUE
  | node {id : NodeId} {node : Node} {child : NodeId}
      (hnode : s.node id = some node)
      (hpick : v.Picks node.var node.children child)
      (hchild : Holds s v (child.negate id)) : Holds s v id

variable {v : Valuation}

@[simp]
theorem holds_true : Holds s v .TRUE := .true

@[simp]
theorem not_holds_false : ¬ Holds s v .FALSE := by
  intro hholds
  cases hholds with
  | node hnode => cases hnode

theorem holds_iff_child (hwf : WellFormed s) (hnode : s.node id = some node)
    {child : NodeId} (hpick : v.Picks node.var node.children child) :
    Holds s v id ↔ Holds s v (child.negate id) := by
  constructor
  · intro hholds
    cases hholds with
    | true => cases hnode
    | node hnode' hpick' hchild' =>
        obtain rfl : node = _ := Option.some.inj (hnode.symm.trans hnode')
        rwa [Valuation.picks_unique (hwf.fits hnode) hpick hpick']
  · exact .node hnode hpick

theorem holds_not (hwf : WellFormed s) (hvalid : s.Valid id) :
    Holds s v id.not ↔ ¬ Holds s v id := by
  induction id, hvalid using Valid.induct hwf with
  | true => simp
  | false => simp
  | @step id node hnode ih =>
      obtain ⟨child, hpick⟩ := v.exists_picks (hwf.fits hnode)
      have hnodeNot : s.node id.not = some node := by rw [node_not, hnode]
      rw [holds_iff_child hwf hnode hpick, holds_iff_child hwf hnodeNot hpick,
        NodeId.negate_not_parent]
      exact ih child hpick.mem id
        (hwf.valid_step hnode hpick.mem)

theorem holds_mono (hwf : WellFormed s) (hwf' : WellFormed s') (hle : s ≤ s')
    (hvalid : s.Valid id) : Holds s' v id ↔ Holds s v id := by
  induction id, hvalid using Valid.induct hwf with
  | true => simp
  | false => simp
  | @step id node hnode ih =>
      obtain ⟨child, hpick⟩ := v.exists_picks (hwf.fits hnode)
      rw [holds_iff_child hwf hnode hpick,
        holds_iff_child hwf' (node_mono hle hnode) hpick]
      exact ih child hpick.mem id
        (hwf.valid_step hnode hpick.mem)

/-! ## Variables of a diagram -/

/-- Every variable below the reference has the property. -/
inductive AllVars (s : Interner) (P : Variable → Prop) : NodeId → Prop where
  | true : AllVars s P .TRUE
  | false : AllVars s P .FALSE
  | node {id : NodeId} {node : Node} (hnode : s.node id = some node)
      (hvar : P node.var)
      (hchildren : ∀ child ∈ node.children.nodes, AllVars s P child) :
      AllVars s P id

variable {P : Variable → Prop}

theorem AllVars.cases_node (hvars : AllVars s P id) (hnode : s.node id = some node) :
    P node.var ∧ ∀ child ∈ node.children.nodes, AllVars s P child := by
  cases hvars with
  | true => cases hnode
  | false => cases hnode
  | node hnode' hvar hchildren =>
      obtain rfl : node = _ := Option.some.inj (hnode.symm.trans hnode')
      exact ⟨hvar, hchildren⟩

theorem AllVars.not (hvars : AllVars s P id) : AllVars s P id.not := by
  cases hvars with
  | true => exact .false
  | false => exact .true
  | node hnode hvar hchildren =>
      exact .node (by rw [node_not, hnode]) hvar hchildren

theorem AllVars.negate (hvars : AllVars s P id) (parent : NodeId) :
    AllVars s P (id.negate parent) := by
  unfold NodeId.negate
  split
  · exact hvars.not
  · exact hvars

theorem AllVars.mono (hle : s ≤ s') (hvars : AllVars s P id) : AllVars s' P id := by
  induction hvars with
  | true => exact .true
  | false => exact .false
  | node hnode hvar _ ih => exact .node (node_mono hle hnode) hvar ih

theorem AllVars.of_mono (hwf : WellFormed s) (hle : s ≤ s') (hvalid : s.Valid id)
    (hvars : AllVars s' P id) : AllVars s P id := by
  induction id, hvalid using Valid.induct hwf with
  | true => exact .true
  | false => exact .false
  | @step id node hnode ih =>
      obtain ⟨hvar, hchildren⟩ := hvars.cases_node (node_mono hle hnode)
      exact .node hnode hvar fun child hchild =>
        ih child hchild .TRUE (hwf.valid_child hnode hchild)
          (hchildren child hchild)

theorem AllVars.imp {Q : Variable → Prop} (himp : ∀ var, P var → Q var)
    (hvars : AllVars s P id) : AllVars s Q id := by
  induction hvars with
  | true => exact .true
  | false => exact .false
  | node hnode hvar _ ih => exact .node hnode (himp _ hvar) ih

theorem AllVars.and {Q : Variable → Prop} (hvars : AllVars s P id)
    (hvars' : AllVars s Q id) : AllVars s (fun var => P var ∧ Q var) id := by
  induction hvars with
  | true => exact .true
  | false => exact .false
  | node hnode hvar _ ih =>
      obtain ⟨hvar', hchildren'⟩ := hvars'.cases_node hnode
      exact .node hnode ⟨hvar, hvar'⟩ fun child hchild =>
        ih child hchild (hchildren' child hchild)

/-- Truth only depends on the variables of the diagram. -/
theorem AllVars.holds_congr (hwf : WellFormed s) {v v' : Valuation}
    (hagree : ∀ var, P var → v.AgreeOn v' var) (hvalid : s.Valid id)
    (hvars : AllVars s P id) : Holds s v id ↔ Holds s v' id := by
  induction id, hvalid using Valid.induct hwf with
  | true => simp
  | false => simp
  | @step id node hnode ih =>
      obtain ⟨hvar, hchildren⟩ := hvars.cases_node hnode
      obtain ⟨child, hpick⟩ := v.exists_picks (hwf.fits hnode)
      rw [holds_iff_child hwf hnode hpick,
        holds_iff_child hwf hnode ((hagree _ hvar _ _).mp hpick)]
      exact ih child hpick.mem id
        (hwf.valid_step hnode hpick.mem)
        ((hchildren child hpick.mem).negate id)

end Interner

/-! ## Environments -/

/-- The environment as a valuation. -/
def MarkerEnvironment.valuation (env : MarkerEnvironment)
    (extras : ExtrasEnvironment) : Valuation where
  version key := Point.ofPosition (Cut.before (env.getVersion key))
  string key := Point.ofPosition (Cut.before (env.getString key))
  bool var := env.test extras var

/-- A list marker with a malformed name. -/
def Variable.isArbitrary : Variable → Bool
  | .list pair => pair.isArbitrary
  | _ => false

theorem Cover.find?_contains {T : Type} [OrdKey T]
    {edges : List (Ranges T × NodeId)} (hcover : Cover edges) {value : T}
    {child : NodeId} :
    (edges.find? fun (range, _) => range.contains value).map Prod.snd =
        some child ↔
      OnEdge (Point.ofPosition (Cut.before value)) edges child := by
  have hcontains : ∀ edge ∈ edges, edge.1.contains value = true ↔
      (Point.ofPosition (Cut.before value)).In edge.1.hull := fun edge hedge =>
    Ranges.contains_iff_has.trans ((hcover.interval edge hedge).has_iff _)
  have hfound : ∀ edge, (edges.find? fun (range, _) => range.contains value) =
      some edge → OnEdge (Point.ofPosition (Cut.before value)) edges edge.2 := by
    intro edge hfind
    have hmem := List.mem_of_find?_eq_some hfind
    have hpred := List.find?_some hfind
    exact onEdge_iff.mpr ⟨edge, hmem, rfl, (hcontains edge hmem).mp hpred⟩
  constructor
  · intro hmap
    obtain ⟨edge, hfind, rfl⟩ := Option.map_eq_some_iff.mp hmap
    exact hfound edge hfind
  · intro honEdge
    cases hfind : edges.find? fun (range, _) => range.contains value with
    | none =>
        obtain ⟨edge, hmem, rfl, hin⟩ := onEdge_iff.mp honEdge
        exact absurd ((hcontains edge hmem).mpr hin)
          (List.find?_eq_none.mp hfind edge hmem)
    | some edge =>
        rw [Option.map_some, hcover.onEdge_unique (hfound edge hfind) honEdge]

theorem MarkerEnvironment.child_eq_some_iff {env : MarkerEnvironment}
    {extras : ExtrasEnvironment} {var : Variable} {edges : Edges}
    {child : NodeId} (hfits : edges.Fits var) (hvar : var.isArbitrary = false) :
    env.child extras var edges = some child ↔
      (env.valuation extras).Picks var edges child := by
  unfold Edges.Fits at hfits
  unfold Valuation.Picks
  cases var with
  | version key =>
      cases edges <;> simp only [Variable.domain] at hfits ⊢
      exact hfits.find?_contains
  | string key =>
      cases edges <;> simp only [Variable.domain] at hfits ⊢
      exact hfits.find?_contains
  | list pair =>
      cases edges <;> simp only [Variable.domain] at hfits ⊢
      cases pair with
      | arbitrary => simp [Variable.isArbitrary,
          CanonicalMarkerListPair.isArbitrary] at hvar
      | _ => exact Option.some_inj.trans eq_comm
  | _ =>
      cases edges <;> simp only [Variable.domain] at hfits ⊢
      exact Option.some_inj.trans eq_comm

namespace Interner

variable {s s' : Interner} {id : NodeId}

theorem evaluateFuel_iff_holds (hwf : WellFormed s) {env : MarkerEnvironment}
    {extras : ExtrasEnvironment} (hvalid : s.Valid id)
    (hvars : AllVars s (·.isArbitrary = false) id) {fuel : ℕ}
    (hfuel : id.rank < fuel) :
    s.evaluateFuel env extras fuel id = true ↔
      Holds s (env.valuation extras) id := by
  induction fuel generalizing id with
  | zero => omega
  | succ fuel ih =>
      rcases hvalid.cases with rfl | rfl | ⟨node, hnode⟩
      · simp [evaluateFuel, NodeId.isTrue]
      · simp [evaluateFuel, NodeId.isTrue, NodeId.isFalse]
      · obtain ⟨hvar, hchildren⟩ := hvars.cases_node hnode
        obtain ⟨child, hpick⟩ :=
          (env.valuation extras).exists_picks (hwf.fits hnode)
        have hchild :=
          (MarkerEnvironment.child_eq_some_iff (hwf.fits hnode) hvar).mpr hpick
        have hrank := hwf.rank_step hnode hpick.mem
        simp only [evaluateFuel, isTrue_of_node hnode, isFalse_of_node hnode,
          Bool.false_eq_true, if_false, hnode, hchild,
          holds_iff_child hwf hnode hpick]
        exact ih (hwf.valid_step hnode hpick.mem)
          ((hchildren child hpick.mem).negate id)
          (by omega)

/-- Evaluation of a marker without malformed names. -/
theorem evaluate_iff_holds (hwf : WellFormed s) {env : MarkerEnvironment}
    {extras : ExtrasEnvironment} (hvalid : s.Valid id)
    (hvars : AllVars s (·.isArbitrary = false) id) :
    s.evaluate env extras id = true ↔ Holds s (env.valuation extras) id :=
  evaluateFuel_iff_holds hwf hvalid hvars (Nat.lt_succ_self _)

/-! ## Creating nodes -/

/-- The reference stands for the node with the given variable and children, or
for the only child. -/
def Represents (s : Interner) (var : Variable) (children : Edges)
    (id : NodeId) : Prop :=
  (∀ child ∈ children.nodes, child = id) ∨
    ∃ node, s.node id = some node ∧ node.var = var ∧
      node.children.branches =
        (if id.isComplement then children.not else children).branches

namespace Represents

variable {var : Variable} {children : Edges}

/-- A node picks what the children it was made from pick, negated as its reference is. -/
theorem picks_of_branches {node : Node} (hbranches : node.children.branches =
    (if id.isComplement then children.not else children).branches)
    {v : Valuation} {child : NodeId} (hpick : v.Picks var children child) :
    v.Picks var node.children (child.negate id) := by
  rw [Valuation.picks_congr hbranches]
  unfold NodeId.negate
  split
  · rw [Edges.picks_not, NodeId.not_not]
    exact hpick
  · exact hpick

theorem holds_iff (hwf : WellFormed s) (hrep : Represents s var children id)
    {v : Valuation} {child : NodeId} (hpick : v.Picks var children child) :
    Holds s v id ↔ Holds s v child := by
  rcases hrep with hsame | ⟨node, hnode, rfl, hbranches⟩
  · rw [hsame child hpick.mem]
  · rw [holds_iff_child hwf hnode (picks_of_branches hbranches hpick),
      NodeId.negate_negate]

theorem allVars (hrep : Represents s var children id) {P : Variable → Prop}
    (hvar : P var) (hnonempty : children.nodes ≠ [])
    (hchildren : ∀ child ∈ children.nodes, AllVars s P child) :
    AllVars s P id := by
  rcases hrep with hsame | ⟨node, hnode, rfl, hbranches⟩
  · obtain ⟨child, hchild⟩ := List.exists_mem_of_ne_nil _ hnonempty
    rw [← hsame child hchild]
    exact hchildren child hchild
  · refine .node hnode hvar fun child hchild => ?_
    rw [Edges.nodes_eq_of_branches_eq hbranches] at hchild
    split at hchild
    · rw [Edges.nodes_not] at hchild
      obtain ⟨child', hchild', rfl⟩ := List.mem_map.mp hchild
      exact (hchildren child' hchild').not
    · exact hchildren child hchild

theorem valid (hrep : Represents s var children id)
    (hnonempty : children.nodes ≠ [])
    (hvalid : ∀ child ∈ children.nodes, s.Valid child) : s.Valid id := by
  rcases hrep with hsame | ⟨node, hnode, -, -⟩
  · obtain ⟨child, hchild⟩ := List.exists_mem_of_ne_nil _ hnonempty
    rw [← hsame child hchild]
    exact hvalid child hchild
  · exact valid_of_node hnode

end Represents

/-- A new node that is equal to none in the table. -/
theorem WellFormed.append (hwf : WellFormed s) {node : Node}
    (hnode : node.WellFormed s.nodes.length)
    (hnew : s.nodes.findIdx? (·.beq node) = none) :
    WellFormed { s with nodes := s.nodes ++ [node] } := by
  have hget : ∀ {index : ℕ} {node' : Node},
      (s.nodes ++ [node])[index]? = some node' →
        s.nodes[index]? = some node' ∨ index = s.nodes.length ∧ node' = node := by
    intro index node' hget
    rcases Nat.lt_or_ge index s.nodes.length with hlt | hge
    · rw [List.getElem?_append_left hlt] at hget
      exact .inl hget
    · rw [List.getElem?_append_right hge] at hget
      have hindex : index - s.nodes.length = 0 := by
        have hlt := (List.getElem?_eq_some_iff.mp hget).1
        simpa using hlt
      rw [hindex] at hget
      exact .inr ⟨by omega, by simpa using hget.symm⟩
  have hdistinct : ∀ {index : ℕ} {node' : Node}, s.nodes[index]? = some node' →
      node'.var = node.var → node'.children.branches = node.children.branches →
        False := by
    intro index node' hget' hvar hbranches
    have hbeq := List.findIdx?_eq_none_iff.mp hnew node'
      (List.mem_of_getElem? hget')
    have hfits := (hwf.node hget').fits
    have hfits' := hnode.fits
    rw [hvar] at hfits
    simp [Node.beq, hvar, (hfits.beq_iff hfits').mpr hbranches] at hbeq
  constructor
  · intro index node' hget'
    rcases hget hget' with hold | ⟨rfl, rfl⟩
    · exact hwf.node hold
    · exact hnode
  · intro index index' node₁ node₂ hget₁ hget₂ hvar hbranches
    rcases hget hget₁ with hold₁ | ⟨rfl, rfl⟩
    · rcases hget hget₂ with hold₂ | ⟨rfl, rfl⟩
      · exact hwf.unique hold₁ hold₂ hvar hbranches
      · exact (hdistinct hold₁ hvar hbranches).elim
    · rcases hget hget₂ with hold₂ | ⟨rfl, rfl⟩
      · exact (hdistinct hold₂ hvar.symm hbranches.symm).elim
      · rfl

/-- What `createNode` does to the table; the cache and the exclusions stay. -/
theorem createNode_spec (hwf : WellFormed s) {var : Variable} {children : Edges}
    (hfits : children.Fits var) (hvalid : ∀ child ∈ children.nodes, s.Valid child) :
    ∃ id s', (createNode var children).run s = some (id, s') ∧ WellFormed s' ∧
      s ≤ s' ∧ s'.cache = s.cache ∧ s'.exclusions = s.exclusions ∧
      Represents s' var children id ∧ ∀ node ∈ s'.nodes, node ∈ s.nodes ∨
        node.var = var ∧ ∀ child ∈ node.children.nodes,
          child ∈ children.nodes ∨ child.not ∈ children.nodes := by
  obtain ⟨first, rest, hnodes⟩ := List.exists_cons_of_ne_nil hfits.nodes_ne_nil
  -- The children as they are stored: the first one is not complemented.
  let flipped := first.isComplement
  let stored := if flipped then children.not else children
  let storedFirst := if flipped then first.not else first
  have hstoredNodes : stored.nodes =
      if flipped then children.nodes.map NodeId.not else children.nodes := by
    simp only [stored]
    split <;> simp [Edges.nodes_not]
  have hstoredHead : stored.nodes.head? = some storedFirst := by
    rw [hstoredNodes, hnodes]
    simp only [storedFirst]
    split <;> rfl
  have hstoredFits : stored.Fits var := by
    simp only [stored]
    split
    · exact hfits.not
    · exact hfits
  have hstoredMem : ∀ child ∈ stored.nodes,
      child ∈ children.nodes ∨ child.not ∈ children.nodes := by
    intro child hchild
    rw [hstoredNodes] at hchild
    split at hchild
    · obtain ⟨child', hchild', rfl⟩ := List.mem_map.mp hchild
      exact .inr (by rwa [NodeId.not_not])
    · exact .inl hchild
  have hrun : (createNode var children).run s =
      if stored.nodes.all (· == storedFirst) then
        some (first, s)
      else
        (s.nodes.findIdx? (·.beq ⟨var, stored⟩)).elim
          (some (NodeId.new s.nodes.length flipped,
            { s with nodes := s.nodes ++ [⟨var, stored⟩] }))
          fun index => some (NodeId.new index flipped, s) := by
    show createNode var children s = _
    unfold createNode
    rw [hnodes]
    by_cases hcomplement : first.isComplement = true <;>
      simp only [Node.not, stored, storedFirst, flipped, hcomplement, if_true,
        if_false, Bool.false_eq_true, NodeId.not_not] <;>
      cases s.nodes.findIdx? _ <;> rfl
  rw [hrun]
  by_cases hsame : stored.nodes.all (· == storedFirst) = true
  · rw [if_pos hsame]
    refine ⟨first, s, rfl, hwf, le_rfl, rfl, rfl, .inl fun child hchild => ?_,
      fun _ => .inl⟩
    rw [List.all_eq_true, hstoredNodes] at hsame
    by_cases hflipped : flipped = true
    · have hnot := hsame child.not (by
        rw [if_pos hflipped]
        exact List.mem_map_of_mem hchild)
      simpa [storedFirst, hflipped] using hnot
    · have heq := hsame child (by rwa [if_neg hflipped])
      simpa [storedFirst, hflipped] using heq
  · rw [if_neg hsame]
    cases hfind : s.nodes.findIdx? (·.beq ⟨var, stored⟩) with
    | some index =>
        refine ⟨_, s, rfl, hwf, le_rfl, rfl, rfl, .inr ?_, fun _ => .inl⟩
        obtain ⟨hlt, hbeq, -⟩ := List.findIdx?_eq_some_iff_getElem.mp hfind
        have hget : s.nodes[index]? = some s.nodes[index] :=
          List.getElem?_eq_getElem hlt
        simp only [Node.beq, Bool.and_eq_true, beq_iff_eq] at hbeq
        have hfits' := (hwf.node hget).fits
        rw [hbeq.1] at hfits'
        refine ⟨_, by rw [node_new, hget], hbeq.1, ?_⟩
        rw [NodeId.isComplement_new]
        exact (hfits'.beq_iff hstoredFits).mp hbeq.2
    | none =>
        have hnode : Node.WellFormed s.nodes.length ⟨var, stored⟩ := by
          refine ⟨hstoredFits, fun child hchild => ?_, fun head hhead => ?_, ?_⟩
          · rcases hstoredMem child hchild with hold | hnot
            · exact hvalid child hold
            · exact valid_not.mp (hvalid _ hnot)
          · rw [hstoredHead] at hhead
            cases hhead
            cases hcomplement : first.isComplement <;>
              simp [storedFirst, flipped, hcomplement]
          · rw [Bool.not_eq_true, List.all_eq_false] at hsame
            obtain ⟨child, hchild, hne⟩ := hsame
            exact ⟨child, hchild, storedFirst, List.mem_of_head? hstoredHead,
              by simpa using hne⟩
        refine ⟨_, _, rfl, hwf.append hnode hfind,
          ⟨List.prefix_append _ _, fun _ h => h⟩, rfl, rfl, .inr ?_, ?_⟩
        · refine ⟨_, by rw [node_new, List.getElem?_concat_length], rfl, ?_⟩
          rw [NodeId.isComplement_new]
        · intro node hmem
          rcases List.mem_append.mp hmem with hold | hnew
          · exact .inl hold
          · obtain rfl := List.mem_singleton.mp hnew
            exact .inr ⟨rfl, hstoredMem⟩

end Interner

end Uv.Pep508
