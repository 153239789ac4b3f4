import Uv.Pep508.Reachable

/-!
# Projecting extras away

`without_extras` replaces an `extra` node by the disjunction of its children and
goes on with the result, a diagram that did not exist before.  It ends because
the extra does not occur in that diagram any more.  What is left holds where
some choice of extras makes the original hold.
-/

namespace Uv.Pep508

open Uv.Core Uv.Pep440

namespace Edges

section Fuel

variable {σ : Type} [Preorder σ] {Inv : σ → Prop}
  {related : σ → NodeId → NodeId → Prop} {edges : Edges} {parent : NodeId}

omit [Preorder σ] in
private theorem mapRanges_extends {T : Type} [OrdKey T]
    {f f' : NodeId → StateT σ Option NodeId} (hf : ∀ id, Extends (f id) (f' id))
    (edges : List (Ranges T × NodeId)) :
    Extends (mapRanges edges parent f) (mapRanges edges parent f') := by
  unfold mapRanges
  refine .mapM (fun edge => ?_) edges
  exact .bind (hf (edge.2.negate parent)) fun _ => .refl _

omit [Preorder σ] in
theorem map_extends {f f' : NodeId → StateT σ Option NodeId}
    (hf : ∀ id, Extends (f id) (f' id)) (edges : Edges) :
    Extends (edges.map parent f) (edges.map parent f') := by
  cases edges with
  | version edges => exact .bind (mapRanges_extends hf edges) fun _ => .refl _
  | string edges => exact .bind (mapRanges_extends hf edges) fun _ => .refl _
  | boolean high low =>
      exact .bind (hf (low.negate parent)) fun _ =>
        .bind (hf (high.negate parent)) fun _ => .refl _

variable {f : ℕ → NodeId → StateT σ Option NodeId}
  (hsteady : ∀ id, Steady fun fuel => f fuel id)
  (hstable : ∀ x y, Stable Inv (related · x y)) {s : σ} (hinv : Inv s)

include hsteady hstable hinv

private theorem mapRanges_eventually {T : Type} [OrdKey T]
    {edges : List (Ranges T × NodeId)}
    (hf : ∀ s', s ≤ s' → Inv s' → ∀ child ∈ edges.map Prod.snd,
      Eventually Inv (fun fuel => f fuel (child.negate parent)) s' fun s'' r =>
        related s'' (child.negate parent) r) :
    Eventually Inv (fun fuel => mapRanges edges parent (f fuel)) s fun s' edges' =>
      List.Forall₂ (fun edge edge' => edge.1 = edge'.1 ∧
        related s' (edge.2.negate parent) edge'.2) edges edges' := by
  unfold mapRanges
  refine Eventually.mapM (fun edge fuel => ?_) ?_ hinv
    fun edge hedge s' hle hinv' => ?_
  · exact .bind (hsteady (edge.2.negate parent) fuel) fun _ => .refl _
  · exact fun edge edge' s s' hs hs' hle hrel =>
      ⟨hrel.1, hstable _ _ hs hs' hle hrel.2⟩
  · exact Eventually.bind (hsteady _) (fun _ _ => .refl _)
      (hf s' hle hinv' edge.2 (List.mem_map_of_mem hedge))
      fun node s'' hinv'' _ hnode => .of_ensures (Ensures.pure hinv'' ⟨rfl, hnode⟩)

theorem map_eventually
    (hf : ∀ s', s ≤ s' → Inv s' → ∀ child ∈ edges.nodes,
      Eventually Inv (fun fuel => f fuel (child.negate parent)) s' fun s'' r =>
        related s'' (child.negate parent) r) :
    Eventually Inv (fun fuel => edges.map parent (f fuel)) s fun s' edges' =>
      Mapped (fun child child' => related s' (child.negate parent) child') edges
        edges' := by
  cases edges with
  | version edges =>
      exact Eventually.bind (fun fuel => mapRanges_extends (hsteady · fuel) edges)
        (fun _ _ => .refl _) (mapRanges_eventually hsteady hstable hinv hf)
        fun edges' s' hinv' _ hedges' => .of_ensures (Ensures.pure hinv' hedges')
  | string edges =>
      exact Eventually.bind (fun fuel => mapRanges_extends (hsteady · fuel) edges)
        (fun _ _ => .refl _) (mapRanges_eventually hsteady hstable hinv hf)
        fun edges' s' hinv' _ hedges' => .of_ensures (Ensures.pure hinv' hedges')
  | boolean high low =>
      refine Eventually.bind (hsteady _)
        (fun _ fuel => .bind (hsteady _ fuel) fun _ => .refl _)
        (hf s le_rfl hinv low (by simp [nodes])) fun low' s' hinv' hle hlow => ?_
      refine Eventually.bind (hsteady _) (fun _ _ => .refl _)
        (hf s' hle hinv' high (by simp [nodes])) fun high' s'' hinv'' hle' hhigh => ?_
      exact .of_ensures (Ensures.pure hinv''
        ⟨hhigh, hstable _ _ hinv' hinv'' hle' hlow⟩)

end Fuel

end Edges

namespace Interner

variable [RangeOps ValidVersion] [RangeOps Text]
  {s : Interner} {i : NodeId} {below : Variable → Variable → Prop}

theorem steady_withoutVariables (drop : Variable → Bool) (i : NodeId) :
    Steady fun fuel => withoutVariables drop fuel i := by
  intro fuel
  induction fuel generalizing i with
  | zero =>
      intro s result hrun
      cases hrun
  | succ fuel ih =>
      simp only
      rw [withoutVariables, withoutVariables]
      split
      · exact .refl _
      refine .bind (.refl _) fun node => ?_
      split
      · refine .bind (.refl _) fun tree => ?_
        split
        · exact .refl _
        · exact ih tree
      · exact .bind (Edges.map_extends ih node.children) fun _ => .refl _

omit [RangeOps ValidVersion] [RangeOps Text] in
theorem readNode_eventually {β : Type} {node : Node}
    {next : ℕ → Node → InternerM β} {post : Interner → β → Prop}
    (hnode : s.node i = some node)
    (hnext : Eventually (Sound below) (fun fuel => next fuel node) s post) :
    Eventually (Sound below) (fun fuel => readNode i >>= next fuel) s post := by
  obtain ⟨fuel, hnext⟩ := hnext
  exact ⟨fuel, readNode_bind hnode hnext⟩

omit [RangeOps ValidVersion] [RangeOps Text] in
/-- A node rebuilt by an action on its children that needs fuel. -/
theorem Rebuilds.rebuild_eventually {added : Variable → Prop}
    {related : Interner → NodeId → NodeId → Prop} {node : Node}
    (hrebuilds : Rebuilds below added related) {f : ℕ → NodeId → InternerM NodeId}
    (hsteady : ∀ id, Steady fun fuel => f fuel id) (hsound : Sound below s)
    (hnode : s.node i = some node)
    (hadded : ∀ var, added var → below node.var var)
    (hf : ∀ s', s ≤ s' → Sound below s' → ∀ child ∈ node.children.nodes,
      Eventually (Sound below) (fun fuel => f fuel (child.negate i)) s' fun s'' r =>
        related s'' (child.negate i) r) :
    Eventually (Sound below)
      (fun fuel => node.children.map i (f fuel) >>= createNode node.var) s
      fun s' r => s'.Valid r := by
  refine Eventually.bind (fun fuel => Edges.map_extends (hsteady · fuel) _)
    (fun _ _ => .refl _) (Edges.map_eventually hsteady hrebuilds.stable hsound hf)
    fun children s' hsound' hle hmapped => ?_
  obtain ⟨hfits, hvalid, hbelow⟩ :=
    hrebuilds.children_spec hsound' (node_mono hle hnode) hadded hmapped
  exact .of_ensures ((createNode_sound hsound' hfits hvalid hbelow).weaken
    fun _ _ _ _ hpost => hpost.1)

omit [RangeOps ValidVersion] [RangeOps Text] in
theorem allVars_nodes (hwf : s.WellFormed) (hvalid : s.Valid i) :
    AllVars s (· ∈ s.nodes.map Node.var) i := by
  induction i, hvalid using Valid.induct hwf with
  | true => exact .true
  | false => exact .false
  | @step id node hnode ih =>
      obtain ⟨index, -, hget⟩ := exists_index hnode
      refine .node hnode (List.mem_map_of_mem (List.mem_of_getElem? hget))
        fun child hchild => ?_
      have hvars := (ih child hchild id
        (hwf.valid_step hnode hchild)).negate id
      rwa [NodeId.negate_negate] at hvars

omit [RangeOps ValidVersion] [RangeOps Text] in
/-- An extra does not occur below its own node. -/
theorem Sound.allVars_erase (hsound : Sound below s) {node : Node}
    (hnode : s.node i = some node) (hextra : isExtraVariable node.var = true)
    {names : Finset Variable}
    (hvars : AllVars s (fun var => isExtraVariable var = true → var ∈ names) i)
    {child : NodeId} (hchild : child ∈ node.children.nodes) :
    AllVars s (fun var => isExtraVariable var = true → var ∈ names.erase node.var)
      child := by
  refine ((hsound.allVars_child hnode hchild).and
    ((hvars.cases_node hnode).2 child hchild)).imp fun var ⟨hbelow, hmem⟩ hvar => ?_
  refine Finset.mem_erase.mpr ⟨?_, hmem hvar⟩
  rintro rfl
  rw [hsound.strata.irrefl hbelow] at hextra
  cases hextra

/-- A diagram can be projected if its children can, or what replaces them. -/
theorem withoutVariables_eventually_of_step {drop : Variable → Bool} (hsound : Sound below s)
    (hvalid : s.Valid i)
    (htree : ∀ node, s.node i = some node → drop node.var = true → ∀ s' tree, s ≤ s' →
      Sound below s' → AnyChild s' (node.children.nodes.map (·.negate i)) tree →
      Eventually (Sound below) (fun fuel => withoutVariables drop fuel tree) s'
        (Dropped drop · tree))
    (hchild : ∀ node, s.node i = some node → ∀ s', s ≤ s' → Sound below s' →
      ∀ child ∈ node.children.nodes, Eventually (Sound below)
        (fun fuel => withoutVariables drop fuel (child.negate i)) s'
        (Dropped drop · (child.negate i))) :
    Eventually (Sound below) (fun fuel => withoutVariables drop fuel i) s
      (Dropped drop · i) := by
  -- A successful run does what projecting promises.
  suffices hsucceeds : Eventually (Sound below)
      (fun fuel => withoutVariables drop fuel i) s fun _ _ => True by
    obtain ⟨fuel, value, s', hrun, -⟩ := hsucceeds
    exact ⟨fuel, value, s', hrun, withoutVariables_allows hsound hvalid value s' hrun⟩
  refine .of_succ ?_
  simp only [withoutVariables]
  rcases hvalid.cases with rfl | rfl | ⟨node, hnode⟩
  · exact .of_ensures (Ensures.pure hsound trivial)
  · exact .of_ensures (Ensures.pure hsound trivial)
  rw [isTrue_of_node hnode, isFalse_of_node hnode]
  refine readNode_eventually hnode ?_
  by_cases hdrop : drop node.var = true
  · simp only [hdrop, if_true]
    have hany := anyChild_ensures hsound (hsound.wellFormed.valid_negate_children hnode)
    rw [List.foldlM_map] at hany
    refine Eventually.bind (fun _ => .refl _) (fun tree fuel => ?_)
      (.of_ensures hany) fun tree s' hsound' hle hany' => ?_
    · split
      · exact .refl _
      · exact steady_withoutVariables _ tree fuel
    · split
      · exact .of_ensures (Ensures.pure hsound' trivial)
      obtain ⟨fuel, hfuel⟩ := htree node hnode hdrop s' tree hle hsound' hany'
      exact ⟨fuel, hfuel.weaken fun _ _ _ _ _ => trivial⟩
  · simp only [hdrop]
    obtain ⟨fuel, hfuel⟩ := (rebuilds_dropped drop).rebuild_eventually
      (steady_withoutVariables drop) hsound hnode (fun _ hfalse => hfalse.elim)
      (hchild node hnode)
    exact ⟨fuel, hfuel.weaken fun _ _ _ _ _ => trivial⟩

/-- With all extras of the diagram among some names, there are fewer names left
each time an extra is projected away; in between the rank decreases. -/
private theorem withoutExtras_eventually_of_names (count : ℕ)
    {names : Finset Variable} (hcount : names.card = count) (rank : ℕ)
    (hsound : Sound below s) (hvalid : s.Valid i) (hrank : i.rank < rank)
    (hvars : AllVars s (fun var => isExtraVariable var = true → var ∈ names) i) :
    Eventually (Sound below) (fun fuel => withoutExtras fuel i) s
      (Dropped isExtraVariable · i) := by
  induction count using Nat.strong_induction_on generalizing names rank s i with
  | _ count ihCount =>
  induction rank generalizing s i with
  | zero => omega
  | succ rank ih =>
      have hwf := hsound.wellFormed
      refine withoutVariables_eventually_of_step hsound hvalid
        (fun node hnode hextra s' tree hle hsound' htree => ?_)
        fun node hnode s' hle hsound' child hchild => ?_
      · have hvars' : AllVars s' (fun var => isExtraVariable var = true →
            var ∈ names.erase node.var) tree := by
          refine htree.vars _ fun child hmem => ?_
          obtain ⟨child, hchild, rfl⟩ := List.mem_map.mp hmem
          exact ((hsound.allVars_erase hnode hextra hvars hchild).negate i).mono hle
        have hcard : (names.erase node.var).card < count := by
          rw [← hcount]
          exact Finset.card_erase_lt_of_mem ((hvars.cases_node hnode).1 hextra)
        exact ihCount _ hcard rfl _ hsound' htree.valid (Nat.lt_succ_self _) hvars'
      · have hlt := hwf.rank_lt hnode hchild
        refine ih hsound' ((hwf.valid_step hnode hchild).mono hle) ?_
          ((((hvars.cases_node hnode).2 child hchild).negate i).mono hle)
        rw [NodeId.rank_negate]
        omega

theorem withoutExtras_eventually (hsound : Sound below s) (hvalid : s.Valid i) :
    Eventually (Sound below) (fun fuel => withoutExtras fuel i) s
      (Dropped isExtraVariable · i) := by
  have hvars : AllVars s (fun var => isExtraVariable var = true →
      var ∈ (s.nodes.map Node.var).toFinset) i :=
    (allVars_nodes hsound.wellFormed hvalid).imp fun _ hvar _ =>
      List.mem_toFinset.mpr hvar
  exact withoutExtras_eventually_of_names _ rfl _ hsound hvalid
    (Nat.lt_succ_self _) hvars

end Interner

end Uv.Pep508
