import Uv.Pep508.Exclusions
import Uv.Pep508.PythonVersions

/-!
# The other operations

Restricting extras, projecting variables away and changing the Python context
all rebuild a diagram from the bottom up.  Each of them keeps the state sound,
and its result means what it should at every valuation.
-/

namespace Uv.Pep508

open Uv.Core Uv.Pep440

/-- The valuation with some boolean variables at fixed values. -/
def Valuation.override (f : Variable → Option Bool) (v : Valuation) : Valuation :=
  { v with bool := fun var => (f var).getD (v.bool var) }

/-- The valuations agree on all variables that are not dropped. -/
structure Valuation.AgreeOff (drop : Variable → Bool) (v v' : Valuation) : Prop where
  version : ∀ key, drop (.version key) = false → v.version key = v'.version key
  string : ∀ key, drop (.string key) = false → v.string key = v'.string key
  bool : ∀ var, drop var = false → v.bool var = v'.bool var

namespace Valuation.AgreeOff

variable {drop : Variable → Bool} {v v' v'' : Valuation}

theorem refl (v : Valuation) : v.AgreeOff drop v :=
  ⟨fun _ _ => rfl, fun _ _ => rfl, fun _ _ => rfl⟩

theorem trans (hagree : v.AgreeOff drop v') (hagree' : v'.AgreeOff drop v'') :
    v.AgreeOff drop v'' :=
  ⟨fun key hkeep => (hagree.version key hkeep).trans (hagree'.version key hkeep),
    fun key hkeep => (hagree.string key hkeep).trans (hagree'.string key hkeep),
    fun var hkeep => (hagree.bool var hkeep).trans (hagree'.bool var hkeep)⟩

theorem agreeOn (hagree : v.AgreeOff drop v') {var : Variable}
    (hkeep : drop var = false) : v.AgreeOn v' var := by
  intro edges child
  unfold Valuation.Picks
  cases var with
  | version key =>
      cases edges <;> simp only [Variable.domain, hagree.version key hkeep]
  | string key =>
      cases edges <;> simp only [Variable.domain, hagree.string key hkeep]
  | _ => cases edges <;> simp only [Variable.domain, hagree.bool _ hkeep]

theorem excluded_iff (hagree : v.AgreeOff drop v')
    (hextra : ∀ var, drop var = true → isExtraVariable var = true) :
    v.Excluded ↔ v'.Excluded := by
  have hstring : v.string = v'.string := by
    funext key
    refine hagree.string key ?_
    by_contra hdrop
    have hvar := hextra _ (by simpa using hdrop)
    cases hvar
  simp only [Valuation.Excluded, Valuation.Is, hstring]

end Valuation.AgreeOff

namespace Interner

variable {s s' : Interner} {x y i r : NodeId} {v : Valuation}
  {below : Variable → Variable → Prop}

/-! ## Rebuilding a node -/

theorem holds_negate_congr (hwf : s.WellFormed) (hx : s.Valid x) (hy : s.Valid y)
    (hiff : Holds s v x ↔ Holds s v y) :
    Holds s v (x.negate i) ↔ Holds s v (y.negate i) := by
  unfold NodeId.negate
  split
  · rw [holds_not hwf hx, holds_not hwf hy, hiff]
  · exact hiff

/-- A node rebuilt from its children, at a valuation: one child and what became
of it. -/
theorem exists_mapped_child {related : NodeId → NodeId → Prop} {node : Node}
    {children : Edges} (hwf : s.WellFormed) (hnode : s.node i = some node)
    (hmapped : Edges.Mapped (fun child r => related (child.negate i) r)
      node.children children)
    (hrep : Represents s node.var children r) (v : Valuation) :
    ∃ child child', v.Picks node.var node.children child ∧
      related (child.negate i) child' ∧ (Holds s v r ↔ Holds s v child') ∧
      (Holds s v i ↔ Holds s v (child.negate i)) := by
  obtain ⟨child', hpick'⟩ := v.exists_picks (hmapped.fits (hwf.fits hnode))
  obtain ⟨child, hpick, hrelated⟩ := hmapped.picks hpick'
  exact ⟨child, child', hpick, hrelated, hrep.holds_iff hwf hpick',
    holds_iff_child hwf hnode hpick⟩

theorem createNode_sound {var : Variable} {children : Edges}
    (hsound : Sound below s) (hfits : children.Fits var)
    (hvalid : ∀ child ∈ children.nodes, s.Valid child)
    (hbelow : ∀ child ∈ children.nodes, AllVars s (below var) child) :
    Ensures (Sound below) (createNode var children) s fun s' r =>
      s'.Valid r ∧ Represents s' var children r := by
  have hcreate : SoundWith below (fun _ => True) s := ⟨hsound, trivial⟩
  exact (createNode_ensures hcreate hfits hvalid hbelow).imp_inv fun _ h => h.1

/-- What every rebuilding operation promises about a diagram and what became of
it, for the variables it may add. -/
structure Rebuilds (below : Variable → Variable → Prop) (added : Variable → Prop)
    (related : Interner → NodeId → NodeId → Prop) : Prop where
  stable : ∀ x r, Stable (Sound below) (related · x r)
  valid : ∀ {s x r}, related s x r → s.Valid r
  allVars : ∀ {s x r P}, related s x r → (∀ var, added var → P var) →
    AllVars s P x → AllVars s P r

namespace Rebuilds

variable {added : Variable → Prop} {related : Interner → NodeId → NodeId → Prop}
  {node : Node}

/-- The children of a rebuilt node can be stored. -/
theorem children_spec (hrebuilds : Rebuilds below added related)
    (hsound : Sound below s) (hnode : s.node i = some node)
    (hadded : ∀ var, added var → below node.var var) {children : Edges}
    (hmapped : Edges.Mapped (fun child r => related s (child.negate i) r)
      node.children children) :
    children.Fits node.var ∧ (∀ child' ∈ children.nodes, s.Valid child') ∧
      ∀ child' ∈ children.nodes, AllVars s (below node.var) child' := by
  refine ⟨hmapped.fits (hsound.wellFormed.fits hnode), fun child' hmem => ?_,
    fun child' hmem => ?_⟩
  · obtain ⟨child, -, hrelated⟩ := hmapped.exists_of_mem hmem
    exact hrebuilds.valid hrelated
  · obtain ⟨child, hchild, hrelated⟩ := hmapped.exists_of_mem hmem
    exact hrebuilds.allVars hrelated hadded
      ((hsound.allVars_child hnode hchild).negate i)

/-- A node rebuilt by a total action on its children. -/
theorem rebuild_ensures (hrebuilds : Rebuilds below added related)
    {f : NodeId → InternerM NodeId} (hsound : Sound below s)
    (hnode : s.node i = some node)
    (hadded : ∀ var, added var → below node.var var)
    (hf : ∀ s', s ≤ s' → Sound below s' → ∀ child ∈ node.children.nodes,
      Ensures (Sound below) (f (child.negate i)) s' fun s'' r =>
        related s'' (child.negate i) r) :
    Ensures (Sound below) (node.children.map i f >>= createNode node.var) s
      fun s' r => s'.Valid r ∧ ∃ children, Represents s' node.var children r ∧
        children.Fits node.var ∧ Edges.Mapped
          (fun child r => related s' (child.negate i) r) node.children children := by
  refine Ensures.bind (Edges.map_ensures hrebuilds.stable hsound hf)
    fun children s' hsound' hle hmapped => ?_
  obtain ⟨hfits, hvalid, hbelow⟩ :=
    hrebuilds.children_spec hsound' (node_mono hle hnode) hadded hmapped
  refine (createNode_sound hsound' hfits hvalid hbelow).weaken
    fun r s'' hsound'' hle' ⟨hvalidR, hrep⟩ => ⟨hvalidR, children, hrep, hfits, ?_⟩
  exact hmapped.imp fun child r => hrebuilds.stable _ _ hsound' hsound'' hle'

/-- The same for an action that may fail. -/
theorem rebuild_allows (hrebuilds : Rebuilds below added related)
    {f : NodeId → InternerM NodeId} (hsound : Sound below s)
    (hnode : s.node i = some node)
    (hadded : ∀ var, added var → below node.var var)
    (hf : ∀ s', s ≤ s' → Sound below s' → ∀ child ∈ node.children.nodes,
      Allows (Sound below) (f (child.negate i)) s' fun s'' r =>
        related s'' (child.negate i) r) :
    Allows (Sound below) (node.children.map i f >>= createNode node.var) s
      fun s' r => s'.Valid r ∧ ∃ children, Represents s' node.var children r ∧
        children.Fits node.var ∧ Edges.Mapped
          (fun child r => related s' (child.negate i) r) node.children children := by
  refine Allows.bind (Edges.map_allows hrebuilds.stable hsound hf)
    fun children s' hsound' hle hmapped => ?_
  obtain ⟨hfits, hvalid, hbelow⟩ :=
    hrebuilds.children_spec hsound' (node_mono hle hnode) hadded hmapped
  refine .of_ensures ((createNode_sound hsound' hfits hvalid hbelow).weaken
    fun r s'' hsound'' hle' ⟨hvalidR, hrep⟩ => ⟨hvalidR, children, hrep, hfits, ?_⟩)
  exact hmapped.imp fun child r => hrebuilds.stable _ _ hsound' hsound'' hle'

end Rebuilds

/-- The variables of a rebuilt node. -/
theorem allVars_rebuilt {related : NodeId → NodeId → Prop} {node : Node}
    {children : Edges} {P Q : Variable → Prop} (hvars : AllVars s P i)
    (hnode : s.node i = some node) (hvar : Q node.var)
    (hmapped : Edges.Mapped (fun child r => related (child.negate i) r)
      node.children children)
    (hfits : children.Fits node.var) (hrep : Represents s node.var children r)
    (hrelated : ∀ x r, related x r → AllVars s P x → AllVars s Q r) :
    AllVars s Q r :=
  hrep.allVars hvar hfits.nodes_ne_nil fun child' hmem => by
    obtain ⟨child, hchild, hrel⟩ := hmapped.exists_of_mem hmem
    exact hrelated _ _ hrel (((hvars.cases_node hnode).2 child hchild).negate i)

/-! ## Expressions -/

section Expression

variable [RangeOps ValidVersion] [RangeOps Text]

omit [RangeOps ValidVersion] [RangeOps Text] in
/-- Edges whose children are terminals can be stored in any state. -/
theorem createSimple_ensures {var : Variable} {children : Edges}
    (hsound : Sound below s) (hsimple : children.Simple var) :
    Ensures (Sound below) (createNode var children) s fun s' r =>
      s'.Valid r ∧ Represents s' var children r := by
  refine createNode_sound hsound hsimple.fits (fun child hchild => ?_)
    fun child hchild => ?_
  · rcases hsimple.terminal child hchild with rfl | rfl
    · exact valid_true
    · exact valid_false
  · rcases hsimple.terminal child hchild with rfl | rfl
    · exact .true
    · exact .false

omit [RangeOps ValidVersion] [RangeOps Text] in
/-- A simple node has no other variable than its own. -/
theorem Represents.allVars_simple {var : Variable} {children : Edges}
    {P : Variable → Prop} (hrep : Represents s var children r)
    (hsimple : children.Simple var) (hvar : P var) : AllVars s P r := by
  refine hrep.allVars hvar hsimple.fits.nodes_ne_nil fun child hchild => ?_
  rcases hsimple.terminal child hchild with rfl | rfl
  · exact .true
  · exact .false

theorem expression_ensures {expr : MarkerExpression}
    {result : Except NodeId (Variable × Edges)} (hsound : Sound below s)
    (hresult : expressionEdges expr = some result) :
    Ensures (Sound below) (expression expr) s fun s' r => s'.Valid r := by
  have hdescribes := expressionEdges_describes hresult
  simp only [expression, hresult]
  cases result with
  | error node =>
      refine Ensures.pure hsound ?_
      rcases hdescribes with rfl | rfl
      · exact valid_true
      · exact valid_false
  | ok edges =>
      exact (createSimple_ensures hsound hdescribes).weaken fun _ _ _ _ h => h.1

end Expression

/-! ## Restricting variables -/

/-- What restricting boolean variables promises. -/
structure Restricted (f : Variable → Option Bool) (s : Interner) (i r : NodeId) :
    Prop where
  source : s.Valid i
  valid : s.Valid r
  holds_iff : ∀ v, Holds s v r ↔ Holds s (v.override f) i
  vars : ∀ P, AllVars s P i → AllVars s P r

theorem Restricted.terminal {f : Variable → Option Bool}
    (hterminal : i = .TRUE ∨ i = .FALSE) : Restricted f s i i := by
  rcases hterminal with rfl | rfl
  · exact ⟨valid_true, valid_true, by simp, fun _ h => h⟩
  · exact ⟨valid_false, valid_false, by simp, fun _ h => h⟩

theorem rebuilds_restricted (f : Variable → Option Bool) :
    Rebuilds below (fun _ => False) (Restricted f) where
  stable x r s s' hsound hsound' hle hrestricted := by
    have hwf := hsound.wellFormed
    have hwf' := hsound'.wellFormed
    refine ⟨hrestricted.source.mono hle, hrestricted.valid.mono hle, fun v => ?_,
      fun P hvars => ?_⟩
    · rw [holds_mono hwf hwf' hle hrestricted.valid,
        holds_mono hwf hwf' hle hrestricted.source]
      exact hrestricted.holds_iff v
    · exact (hrestricted.vars P (hvars.of_mono hwf hle hrestricted.source)).mono hle
  valid hrestricted := hrestricted.valid
  allVars hrestricted _ hvars := hrestricted.vars _ hvars

/-- Fixing variables does not change what an unrestricted node picks. -/
theorem Valuation.picks_override {f : Variable → Option Bool} {var : Variable}
    {edges : Edges} {child : NodeId}
    (hfree : f var = none ∨ var.domain ≠ .boolean) :
    (v.override f).Picks var edges child ↔ v.Picks var edges child := by
  unfold Valuation.Picks
  cases hdomain : var.domain <;> cases edges <;> try rfl
  have hnone := hfree.resolve_right (by simp [hdomain])
  simp only [Valuation.override, hnone, Option.getD_none]

/-- A node whose variable is fixed picks the child of that value. -/
theorem WellFormed.picks_override (hwf : WellFormed s) {f : Variable → Option Bool}
    {node : Node} {high low : NodeId} {value : Bool} (hnode : s.node i = some node)
    (hchildren : node.children = .boolean high low) (hvalue : f node.var = some value)
    (v : Valuation) :
    (v.override f).Picks node.var node.children (if value then high else low) := by
  have hfits := hwf.fits hnode
  unfold Edges.Fits at hfits
  unfold Valuation.Picks
  cases hdomain : node.var.domain <;>
    simp only [hdomain, hchildren] at hfits ⊢
  simp only [Valuation.override, hvalue, Option.getD_some]

theorem mem_nodes_boolean {children : Edges} {high low : NodeId}
    (hchildren : children = .boolean high low) (value : Bool) :
    (if value then high else low) ∈ children.nodes := by
  rw [hchildren, Edges.nodes]
  split <;> simp

/-- A node that is rebuilt has a variable that is not fixed. -/
theorem WellFormed.free_of_not_boolean (hwf : WellFormed s) {f : Variable → Option Bool}
    {node : Node} (hnode : s.node i = some node)
    (hfree : ∀ high low value, node.children = .boolean high low →
      f node.var = some value → False) :
    f node.var = none ∨ node.var.domain ≠ .boolean := by
  by_contra hboth
  obtain ⟨hsome, hdomain⟩ := not_or.mp hboth
  obtain ⟨value, hvalue⟩ := Option.ne_none_iff_exists'.mp hsome
  have hfits := hwf.fits hnode
  unfold Edges.Fits at hfits
  cases hchildren : node.children <;>
    simp only [not_not.mp hdomain, hchildren] at hfits
  exact hfree _ _ _ hchildren hvalue

theorem restrict_ensures {f : Variable → Option Bool} {fuel : ℕ}
    (hsound : Sound below s) (hvalid : s.Valid i) (hfuel : i.rank < fuel) :
    Ensures (Sound below) (restrict f fuel i) s (Restricted f · i) := by
  induction fuel generalizing s i with
  | zero => omega
  | succ fuel ih =>
      have hwf := hsound.wellFormed
      unfold restrict
      rcases hvalid.cases with rfl | rfl | ⟨node, hnode⟩
      · exact Ensures.pure hsound (.terminal (.inl rfl))
      · exact Ensures.pure hsound (.terminal (.inr rfl))
      rw [isTrue_of_node hnode, isFalse_of_node hnode]
      refine readNode_bind hnode ?_
      split
      · -- A restricted node is replaced by one of its children.
        rename_i high low value hchildren hvalue
        have hpick := hwf.picks_override hnode hchildren hvalue
        have hmem := mem_nodes_boolean hchildren value
        have hchild := hwf.valid_child hnode hmem
        have hrank := hwf.rank_step hnode hmem
        refine (ih hsound (valid_negate.mpr hchild) (by omega)).weaken
          fun r s' hsound' hle hrestricted => ?_
        refine ⟨hvalid.mono hle, hrestricted.valid, fun v => ?_, fun P hvars => ?_⟩
        · rw [hrestricted.holds_iff]
          exact (holds_iff_child hsound'.wellFormed (node_mono hle hnode)
            (hpick v)).symm
        · exact hrestricted.vars P
            (((hvars.cases_node (node_mono hle hnode)).2 _ hmem).negate i)
      · rename_i hfree
        have hunrestricted := hwf.free_of_not_boolean hnode hfree
        refine ((rebuilds_restricted f).rebuild_ensures hsound hnode
          (fun _ hfalse => hfalse.elim)
          fun s' hle hsound' child hchild => ?_).weaken
            fun r s' hsound' hle ⟨hvalidR, children, hrep, hfits, hmapped⟩ => ?_
        · refine ih hsound' ((hwf.valid_step hnode hchild).mono hle) ?_
          have hrank := hwf.rank_step hnode hchild
          omega
        · have hnode' := node_mono hle hnode
          refine ⟨hvalid.mono hle, hvalidR, fun v => ?_, fun P hvars => ?_⟩
          · obtain ⟨child, child', hpick, hrelated, hr, -⟩ :=
              exists_mapped_child hsound'.wellFormed hnode' hmapped hrep v
            rw [hr, hrelated.holds_iff, holds_iff_child hsound'.wellFormed hnode'
              ((Valuation.picks_override hunrestricted).mpr hpick)]
          · exact allVars_rebuilt hvars hnode' (hvars.cases_node hnode').1 hmapped
              hfits hrep fun _ _ hrelated => hrelated.vars P

/-! ## Projecting variables away -/

section Project

variable [RangeOps ValidVersion] [RangeOps Text]

/-- The disjunction of all children of a node. -/
structure AnyChild (s : Interner) (children : List NodeId) (tree : NodeId) :
    Prop where
  valid : s.Valid tree
  complete : ∀ v, (∃ child ∈ children, Holds s v child) → Holds s v tree
  sound : ∀ v, s.exclusions = none ∨ ¬ v.Excluded → Holds s v tree →
    ∃ child ∈ children, Holds s v child
  vars : ∀ P, (∀ child ∈ children, AllVars s P child) → AllVars s P tree

theorem anyChild_ensures {children : List NodeId} (hsound : Sound below s)
    (hvalid : ∀ child ∈ children, s.Valid child) :
    Ensures (Sound below)
      (children.foldlM (fun tree child => or tree child) NodeId.FALSE) s
        fun s' tree => AnyChild s' children tree := by
  let P (s' : Interner) (done : List NodeId) (tree : NodeId) : Prop :=
    (∀ child ∈ done, s'.Valid child) ∧ AnyChild s' done tree
  have hstart : P s [] .FALSE :=
    ⟨by simp, valid_false, by simp, by simp, fun _ _ => .false⟩
  have hstep : ∀ done, ∀ child ∈ children, ∀ s' tree, s ≤ s' → Sound below s' →
      P s' done tree → Ensures (Sound below) (or tree child) s'
        fun s'' tree' => P s'' (done ++ [child]) tree' := by
    intro done child hmem s' tree hle hsound' ⟨hdone, htree⟩
    have hchild := (hvalid child hmem).mono hle
    refine (or_ensures hsound' htree.valid hchild).weaken
      fun tree' s'' hsound'' hle' hdisj => ?_
    have hwf' := hsound'.wellFormed
    have hwf'' := hsound''.wellFormed
    have hmono : ∀ v x, s'.Valid x → (Holds s'' v x ↔ Holds s' v x) :=
      fun v x hx => holds_mono hwf' hwf'' hle' hx
    refine ⟨List.forall_mem_append.mpr ⟨fun x hx => (hdone x hx).mono hle', by
      simpa using hchild.mono hle'⟩, hdisj.valid, fun v => ?_, fun v hv hholds => ?_,
      fun Q hvars => ?_⟩
    · rintro ⟨x, hx, hholds⟩
      refine hdisj.complete v ?_
      rcases List.mem_append.mp hx with hx | hx
      · rw [hmono v x (hdone x hx)] at hholds
        exact .inl ((hmono v tree htree.valid).mpr
          (htree.complete v ⟨x, hx, hholds⟩))
      · exact .inr (List.mem_singleton.mp hx ▸ hholds)
    · rcases hdisj.sound v hv hholds with hholds | hholds
      · obtain ⟨x, hx, hholds⟩ := htree.sound v
          (hv.imp_left (exclusions_eq_none_of_le hle'))
          ((hmono v tree htree.valid).mp hholds)
        exact ⟨x, List.mem_append_left _ hx, (hmono v x (hdone x hx)).mpr hholds⟩
      · exact ⟨child, by simp, hholds⟩
    · refine hdisj.vars Q ?_ (hvars child (by simp))
      exact (htree.vars Q fun x hx =>
        (hvars x (List.mem_append_left _ hx)).of_mono hwf' hle' (hdone x hx)).mono
          hle'
  refine (Ensures.foldlM hsound hstart hstep).weaken fun _ _ _ _ hpost => ?_
  simpa using hpost.2

omit [RangeOps ValidVersion] [RangeOps Text] in
/-- What projecting variables away promises. -/
structure Dropped (drop : Variable → Bool) (s : Interner) (i r : NodeId) :
    Prop where
  source : s.Valid i
  valid : s.Valid r
  complete : ∀ v v', v.AgreeOff drop v' → Holds s v' i → Holds s v r
  sound : (∀ var, drop var = true → isExtraVariable var = true) → ∀ v,
    s.exclusions = none ∨ ¬ v.Excluded → Holds s v r →
      ∃ v', v.AgreeOff drop v' ∧ Holds s v' i
  vars : ∀ P, AllVars s P i → AllVars s (fun var => P var ∧ drop var = false) r

omit [RangeOps ValidVersion] [RangeOps Text] in
theorem Dropped.terminal {drop : Variable → Bool}
    (hterminal : i = .TRUE ∨ i = .FALSE) : Dropped drop s i i := by
  rcases hterminal with rfl | rfl
  · exact ⟨valid_true, valid_true, by simp, fun _ v _ _ => ⟨v, .refl v, .true⟩,
      fun _ _ => .true⟩
  · exact ⟨valid_false, valid_false, by simp, by simp, fun _ _ => .false⟩

omit [RangeOps ValidVersion] [RangeOps Text] in
theorem rebuilds_dropped (drop : Variable → Bool) :
    Rebuilds below (fun _ => False) (Dropped drop) where
  stable x r s s' hsound hsound' hle hdropped := by
    have hwf := hsound.wellFormed
    have hwf' := hsound'.wellFormed
    have hmono : ∀ v x, s.Valid x → (Holds s' v x ↔ Holds s v x) :=
      fun v x hx => holds_mono hwf hwf' hle hx
    refine ⟨hdropped.source.mono hle, hdropped.valid.mono hle,
      fun v v' hagree hholds => ?_, fun hextra v hv hholds => ?_, fun P hvars => ?_⟩
    · rw [hmono v r hdropped.valid]
      exact hdropped.complete v v' hagree ((hmono v' x hdropped.source).mp hholds)
    · obtain ⟨v', hagree, hholds⟩ := hdropped.sound hextra v
        (hv.imp_left (exclusions_eq_none_of_le hle))
        ((hmono v r hdropped.valid).mp hholds)
      exact ⟨v', hagree, (hmono v' x hdropped.source).mpr hholds⟩
    · exact (hdropped.vars P (hvars.of_mono hwf hle hdropped.source)).mono hle
  valid hdropped := hdropped.valid
  allVars hdropped _ hvars := (hdropped.vars _ hvars).imp fun _ h => h.1

omit [RangeOps ValidVersion] [RangeOps Text] in
/-- A child of an `extra` node that holds makes the node hold for one value of
the variable. -/
theorem holds_of_extra_child (hsound : Sound below s) {node : Node}
    {drop : Variable → Bool} (hnode : s.node i = some node)
    (hextra : isExtraVariable node.var = true) (hdrop : drop node.var = true)
    {child : NodeId} (hchild : child ∈ node.children.nodes)
    (hholds : Holds s v (child.negate i)) :
    ∃ v', v.AgreeOff drop v' ∧ Holds s v' i := by
  have hwf := hsound.wellFormed
  have hfits := hwf.fits hnode
  obtain ⟨u, hpick⟩ := exists_picks_of_mem hfits hchild
  let v' : Valuation :=
    { v with bool := Function.update v.bool node.var (u.bool node.var) }
  refine ⟨v', ⟨fun _ _ => rfl, fun _ _ => rfl, fun var hkeep => ?_⟩, ?_⟩
  · refine (Function.update_of_ne ?_ _ _).symm
    rintro rfl
    rw [hdrop] at hkeep
    cases hkeep
  · have hdomain : node.var.domain = .boolean := by
      cases hvar : node.var <;> simp [hvar, isExtraVariable] at hextra
      rfl
    have hpick' : v'.Picks node.var node.children child := by
      unfold Valuation.Picks at hpick ⊢
      cases hchildren : node.children <;>
        simp only [hdomain, hchildren] at hpick ⊢
      simpa [v'] using hpick
    rw [holds_iff_child hwf hnode hpick']
    have hvars := (hsound.allVars_child hnode hchild).negate i
    refine (hvars.holds_congr hwf (fun var hvar => ?_)
      (hwf.valid_step hnode hchild)).mp hholds
    have hne : var ≠ node.var := by
      rintro rfl
      simp [hsound.strata.irrefl hvar, isExtraVariable] at hextra
    intro edges child'
    unfold Valuation.Picks
    cases var.domain <;> cases edges <;> try rfl
    simp only [v', Function.update_of_ne hne]

theorem withoutVariables_allows {drop : Variable → Bool} {fuel : ℕ}
    (hsound : Sound below s) (hvalid : s.Valid i) :
    Allows (Sound below) (withoutVariables drop fuel i) s (Dropped drop · i) := by
  induction fuel generalizing s i with
  | zero =>
      intro value s' hrun
      cases hrun
  | succ fuel ih =>
      have hwf := hsound.wellFormed
      unfold withoutVariables
      rcases hvalid.cases with rfl | rfl | ⟨node, hnode⟩
      · exact Allows.pure hsound (.terminal (.inl rfl))
      · exact Allows.pure hsound (.terminal (.inr rfl))
      rw [isTrue_of_node hnode, isFalse_of_node hnode]
      refine readNode_allows hnode ?_
      by_cases hdrop : drop node.var = true
      · rw [if_pos hdrop]
        have hany := anyChild_ensures hsound (hwf.valid_negate_children hnode)
        rw [List.foldlM_map] at hany
        refine Allows.bind (.of_ensures hany) fun tree s' hsound' hle htree => ?_
        have hnode' := node_mono hle hnode
        have hwf' := hsound'.wellFormed
        have hcomplete : ∀ v, Holds s' v i → Holds s' v tree := by
          intro v hholds
          obtain ⟨child, hpick⟩ := v.exists_picks (hwf'.fits hnode')
          exact htree.complete v ⟨child.negate i, List.mem_map_of_mem hpick.mem,
            (holds_iff_child hwf' hnode' hpick).mp hholds⟩
        have hsoundTree : (∀ var, drop var = true → isExtraVariable var = true) →
            ∀ v, s'.exclusions = none ∨ ¬ v.Excluded → Holds s' v tree →
              ∃ v', v.AgreeOff drop v' ∧ Holds s' v' i := by
          intro hextra v hv hholds
          obtain ⟨child, hmem, hholds⟩ := htree.sound v hv hholds
          obtain ⟨child, hchild, rfl⟩ := List.mem_map.mp hmem
          exact holds_of_extra_child hsound' hnode' (hextra _ hdrop) hdrop hchild
            hholds
        have hvars : ∀ P, AllVars s' P i → AllVars s' P tree := fun P hvars =>
          htree.vars P fun child hmem => by
            obtain ⟨child, hchild, rfl⟩ := List.mem_map.mp hmem
            exact ((hvars.cases_node hnode').2 child hchild).negate i
        split
        · rename_i htrue
          obtain rfl := NodeId.isTrue_iff.mp htrue
          exact Allows.pure hsound' ⟨hvalid.mono hle, valid_true, by simp,
            fun hextra v hv hholds => hsoundTree hextra v hv hholds,
            fun _ _ => .true⟩
        · intro r s'' hrun
          obtain ⟨hsound'', hle', hdropped⟩ := ih hsound' htree.valid r s'' hrun
          have hwf'' := hsound''.wellFormed
          have hvalid' : s'.Valid i := hvalid.mono hle
          refine ⟨hsound'', hle', hvalid'.mono hle', hdropped.valid,
            fun v v' hagree hholds => ?_, fun hextra v hv hholds => ?_,
            fun P hvarsI => ?_⟩
          · refine hdropped.complete v v' hagree ?_
            rw [holds_mono hwf' hwf'' hle' hvalid'] at hholds
            rw [holds_mono hwf' hwf'' hle' htree.valid]
            exact hcomplete v' hholds
          · obtain ⟨v₁, hagree, hholds⟩ := hdropped.sound hextra v hv hholds
            have hv₁ : s'.exclusions = none ∨ ¬ v₁.Excluded :=
              (hv.imp_left (exclusions_eq_none_of_le hle')).imp_right
                fun hnot hexcluded => hnot ((hagree.excluded_iff hextra).mpr
                  hexcluded)
            rw [holds_mono hwf' hwf'' hle' htree.valid] at hholds
            obtain ⟨v₂, hagree', hholds⟩ := hsoundTree hextra v₁ hv₁ hholds
            exact ⟨v₂, hagree.trans hagree',
              (holds_mono hwf' hwf'' hle' hvalid').mpr hholds⟩
          · have hvarsI := hvarsI.of_mono hwf' hle' hvalid'
            exact hdropped.vars P ((hvars P hvarsI).mono hle')
      · rw [if_neg hdrop]
        refine ((rebuilds_dropped drop).rebuild_allows hsound hnode
          (fun _ hfalse => hfalse.elim) fun s' hle hsound' child hchild =>
            ih hsound' ((hwf.valid_step hnode hchild).mono hle)).weaken
            fun r s' hsound' hle ⟨hvalidR, children, hrep, hfits, hmapped⟩ => ?_
        have hnode' := node_mono hle hnode
        have hwf' := hsound'.wellFormed
        rw [Bool.not_eq_true] at hdrop
        refine ⟨hvalid.mono hle, hvalidR, fun v v' hagree hholds => ?_,
          fun hextra v hv hholds => ?_, fun P hvars => ?_⟩
        · obtain ⟨child, child', hpick, hrelated, hr, -⟩ :=
            exists_mapped_child hwf' hnode' hmapped hrep v
          have hpick' := (hagree.agreeOn hdrop _ _).mp hpick
          rw [hr]
          exact hrelated.complete v v' hagree
            ((holds_iff_child hwf' hnode' hpick').mp hholds)
        · obtain ⟨child, child', hpick, hrelated, hr, -⟩ :=
            exists_mapped_child hwf' hnode' hmapped hrep v
          obtain ⟨v', hagree, hholds⟩ := hrelated.sound hextra v hv (hr.mp hholds)
          have hpick' := (hagree.agreeOn hdrop _ _).mp hpick
          exact ⟨v', hagree, (holds_iff_child hwf' hnode' hpick').mpr hholds⟩
        · exact allVars_rebuilt hvars hnode' ⟨(hvars.cases_node hnode').1, hdrop⟩
            hmapped hfits hrep fun _ _ hrelated => hrelated.vars P

end Project

/-! ## Python versions -/

section PythonVersions

variable [RangeOps ValidVersion] {pyLower pyUpper : Bound ValidVersion}

/-- The Python version of the valuation lies inside the bounds. -/
def InPython (pyLower pyUpper : Bound ValidVersion) (v : Valuation) : Prop :=
  (v.version .pythonFullVersion).In (cutsOf (pyLower, pyUpper))

omit [RangeOps ValidVersion] in
theorem inPython_unbounded (hlower : pyLower.isUnbounded = true)
    (hupper : pyUpper.isUnbounded = true) : InPython pyLower pyUpper v := by
  cases pyLower <;> cases hlower
  cases pyUpper <;> cases hupper
  exact ⟨(v.version _).below_bot, (v.version _).belowTop_top⟩

omit [RangeOps ValidVersion] in
theorem not_inPython_of_isEmpty
    (hempty : (Ranges.fromRangeBounds pyLower pyUpper).isEmpty = true) :
    ¬ InPython pyLower pyUpper v := by
  intro hin
  have hinvalid : Bound.validSegment pyLower pyUpper = false := by
    by_contra hvalid
    rw [Bool.not_eq_false] at hvalid
    rw [(Ranges.isInterval_fromRangeBounds hvalid).isEmpty_eq] at hempty
    cases hempty
  have hle : pyUpper.upperCut ≤ pyLower.lowerCut := by
    rw [← not_lt, ← Bound.validSegment_iff, hinvalid]
    simp
  exact hin.2 (Point.belowTop_of_le _ hle hin.1)

omit [RangeOps ValidVersion] in
theorem validSegment_of_not_isEmpty
    (hempty : ¬ (Ranges.fromRangeBounds pyLower pyUpper).isEmpty = true) :
    Bound.validSegment pyLower pyUpper = true := by
  by_contra hinvalid
  simp [Ranges.fromRangeBounds, hinvalid, Ranges.empty, Ranges.isEmpty] at hempty

omit [RangeOps ValidVersion] in
/-- What assuming a Python range promises. -/
structure Simplified (pyLower pyUpper : Bound ValidVersion) (s : Interner)
    (i r : NodeId) : Prop where
  source : s.Valid i
  valid : s.Valid r
  holds_iff : ∀ v, InPython pyLower pyUpper v → (Holds s v r ↔ Holds s v i)
  vars : ∀ P, AllVars s P i → AllVars s P r

omit [RangeOps ValidVersion] in
theorem rebuilds_simplified (pyLower pyUpper : Bound ValidVersion) :
    Rebuilds below (fun _ => False) (Simplified pyLower pyUpper) where
  stable x r s s' hsound hsound' hle hsimplified := by
    have hwf := hsound.wellFormed
    have hwf' := hsound'.wellFormed
    refine ⟨hsimplified.source.mono hle, hsimplified.valid.mono hle,
      fun v hin => ?_, fun P hvars => ?_⟩
    · rw [holds_mono hwf hwf' hle hsimplified.valid,
        holds_mono hwf hwf' hle hsimplified.source]
      exact hsimplified.holds_iff v hin
    · exact (hsimplified.vars P (hvars.of_mono hwf hle hsimplified.source)).mono hle
  valid hsimplified := hsimplified.valid
  allVars hsimplified _ hvars := hsimplified.vars _ hvars

omit [RangeOps ValidVersion] in
/-- The edges of a Python node, stored with the complement of the node they come
from. -/
theorem createPython_ensures {edges new : List (Ranges ValidVersion × NodeId)}
    {node : Node} (hsound : Sound below s) (hnode : s.node i = some node)
    (hvar : node.var = .version .pythonFullVersion)
    (hchildren : node.children = .version edges) (hcover : Cover new)
    (hnodes : ∀ child ∈ new.map Prod.snd,
      child ∈ edges.map Prod.snd ∨ child = .TRUE ∨ child = .FALSE) :
    Ensures (Sound below) (do
      let node ← createNode node.var (.version new)
      pure (node.negate i)) s fun s' r => s'.Valid r ∧
        (∀ v child, OnEdge (v.version .pythonFullVersion) new child →
          (Holds s' v r ↔ Holds s' v (child.negate i))) ∧
        ∀ P, AllVars s' P i → AllVars s' P r := by
  have hwf := hsound.wellFormed
  have hfits : Edges.Fits node.var (.version new) := by
    rw [hvar]
    exact hcover
  have hold : ∀ child ∈ edges.map Prod.snd, child ∈ node.children.nodes := by
    intro child hchild
    rwa [hchildren]
  have hvalid : ∀ child ∈ new.map Prod.snd, s.Valid child := by
    intro child hchild
    rcases hnodes child hchild with hchild | rfl | rfl
    · exact hwf.valid_child hnode (hold child hchild)
    · exact valid_true
    · exact valid_false
  have hvars : ∀ {s'} P, s ≤ s' → AllVars s' P i → ∀ child ∈ new.map Prod.snd,
      AllVars s' P child := by
    intro s' P hle hvars child hchild
    rcases hnodes child hchild with hchild | rfl | rfl
    · exact (hvars.cases_node (node_mono hle hnode)).2 child (hold child hchild)
    · exact .true
    · exact .false
  have hbelow : ∀ child ∈ new.map Prod.snd, AllVars s (below node.var) child := by
    intro child hchild
    rcases hnodes child hchild with hchild | rfl | rfl
    · exact hsound.allVars_child hnode (hold child hchild)
    · exact .true
    · exact .false
  refine Ensures.bind (createNode_sound hsound hfits hvalid hbelow)
    fun r s' hsound' hle ⟨hvalidR, hrep⟩ => Ensures.pure hsound' ?_
  have hwf' := hsound'.wellFormed
  refine ⟨valid_negate.mpr hvalidR, fun v child hedge => ?_, fun P hvarsI => ?_⟩
  · have hpick : v.Picks node.var (.version new) child := by
      rw [hvar]
      exact hedge
    exact holds_negate_congr hwf' hvalidR ((hvalid child hedge.mem).mono hle)
      (hrep.holds_iff hwf' hpick)
  · exact (hrep.allVars (hvarsI.cases_node (node_mono hle hnode)).1
      hfits.nodes_ne_nil (hvars P hle hvarsI)).negate i

theorem simplifyPythonVersionsFuel_ensures {fuel : ℕ} (hsound : Sound below s)
    (hvalid : s.Valid i) (hfuel : i.rank < fuel) :
    Ensures (Sound below) (simplifyPythonVersionsFuel pyLower pyUpper fuel i) s
      (Simplified pyLower pyUpper · i) := by
  induction fuel generalizing s i with
  | zero => omega
  | succ fuel ih =>
      have hwf := hsound.wellFormed
      have hself : Simplified pyLower pyUpper s i i :=
        ⟨hvalid, hvalid, fun _ _ => Iff.rfl, fun _ h => h⟩
      unfold simplifyPythonVersionsFuel
      split
      · exact Ensures.pure hsound hself
      rename_i hnonterminal
      simp only [Bool.or_eq_true, not_or, NodeId.isTrue_iff, NodeId.isFalse_iff]
        at hnonterminal
      obtain ⟨node, hnode⟩ := (hvalid.cases.resolve_left
        hnonterminal.1.1).resolve_left hnonterminal.1.2
      refine readNode_bind hnode ?_
      split
      · rename_i edges hvar hchildren
        have hfits := hwf.fits hnode
        rw [hvar, hchildren] at hfits
        have hcover : Cover edges := hfits
        simp only
        split
        · rename_i hempty
          exact Ensures.pure hsound ⟨hvalid, valid_false,
            fun v hin => (not_inPython_of_isEmpty hempty hin).elim,
            fun _ _ => .false⟩
        · rename_i hempty
          have hpy := Ranges.isInterval_fromRangeBounds
            (validSegment_of_not_isEmpty hempty)
          obtain ⟨new, hnew, hcoverNew, hinside, hnodes⟩ :=
            simplifyEdges_spec hcover hpy
          rw [hnew]
          refine (createPython_ensures hsound hnode hvar hchildren hcoverNew
            fun child hchild => .inl (hnodes child hchild)).weaken
              fun r s' hsound' hle ⟨hvalidR, hholds, hvars⟩ =>
                ⟨hvalid.mono hle, hvalidR, fun v hin => ?_, hvars⟩
          obtain ⟨child, hedge⟩ := hcover.exists_onEdge
            (v.version .pythonFullVersion)
          have hpick : v.Picks node.var node.children child := by
            rw [hvar, hchildren]
            exact hedge
          rw [hholds v child (hinside _ _ hin hedge),
            holds_iff_child hsound'.wellFormed (node_mono hle hnode) hpick]
      · refine ((rebuilds_simplified pyLower pyUpper).rebuild_ensures hsound hnode
          (fun _ hfalse => hfalse.elim)
          fun s' hle hsound' child hchild => ?_).weaken
            fun r s' hsound' hle ⟨hvalidR, children, hrep, hfits, hmapped⟩ => ?_
        · refine ih hsound' ((hwf.valid_step hnode hchild).mono hle) ?_
          have hrank := hwf.rank_step hnode hchild
          omega
        · have hnode' := node_mono hle hnode
          refine ⟨hvalid.mono hle, hvalidR, fun v hin => ?_, fun P hvars => ?_⟩
          · obtain ⟨child, child', hpick, hrelated, hr, hi⟩ :=
              exists_mapped_child hsound'.wellFormed hnode' hmapped hrep v
            rw [hr, hi, hrelated.holds_iff v hin]
          · exact allVars_rebuilt hvars hnode' (hvars.cases_node hnode').1 hmapped
              hfits hrep fun _ _ hrelated => hrelated.vars P

omit [RangeOps ValidVersion] in
/-- What requiring a Python range promises. -/
structure Complexified (pyLower pyUpper : Bound ValidVersion) (s : Interner)
    (i r : NodeId) : Prop where
  source : s.Valid i
  valid : s.Valid r
  holds_iff : ∀ v, Holds s v r ↔ Holds s v i ∧ InPython pyLower pyUpper v
  vars : ∀ P, P (.version .pythonFullVersion) → AllVars s P i → AllVars s P r

omit [RangeOps ValidVersion] in
theorem rebuilds_complexified (pyLower pyUpper : Bound ValidVersion) :
    Rebuilds below (· = .version .pythonFullVersion)
      (Complexified pyLower pyUpper) where
  stable x r s s' hsound hsound' hle hcomplexified := by
    have hwf := hsound.wellFormed
    have hwf' := hsound'.wellFormed
    refine ⟨hcomplexified.source.mono hle, hcomplexified.valid.mono hle,
      fun v => ?_, fun P hpython hvars => ?_⟩
    · rw [holds_mono hwf hwf' hle hcomplexified.valid,
        holds_mono hwf hwf' hle hcomplexified.source]
      exact hcomplexified.holds_iff v
    · exact (hcomplexified.vars P hpython
        (hvars.of_mono hwf hle hcomplexified.source)).mono hle
  valid hcomplexified := hcomplexified.valid
  allVars hcomplexified hadded hvars := hcomplexified.vars _ (hadded _ rfl) hvars

omit [RangeOps ValidVersion] in
/-- The nodes that are rebuilt allow a Python node below them. -/
inductive Admits (below : Variable → Variable → Prop) (s : Interner) :
    NodeId → Prop where
  | true : Admits below s .TRUE
  | false : Admits below s .FALSE
  | python {id : NodeId} {node : Node} (hnode : s.node id = some node)
      (hvar : node.var = .version .pythonFullVersion) : Admits below s id
  | node {id : NodeId} {node : Node} (hnode : s.node id = some node)
      (hbelow : below node.var (.version .pythonFullVersion))
      (hchildren : ∀ child ∈ node.children.nodes, ∀ parent,
        Admits below s (child.negate parent)) : Admits below s id

omit [RangeOps ValidVersion] in
theorem Admits.mono (hle : s ≤ s') (hadmits : Admits below s i) :
    Admits below s' i := by
  induction hadmits with
  | true => exact .true
  | false => exact .false
  | python hnode hvar => exact .python (node_mono hle hnode) hvar
  | node hnode hbelow _ ih => exact .node (node_mono hle hnode) hbelow ih

omit [RangeOps ValidVersion] in
theorem Admits.cases_node {node : Node} (hadmits : Admits below s i)
    (hnode : s.node i = some node)
    (hvar : node.var ≠ .version .pythonFullVersion) :
    below node.var (.version .pythonFullVersion) ∧
      ∀ child ∈ node.children.nodes, ∀ parent,
        Admits below s (child.negate parent) := by
  cases hadmits with
  | true => cases hnode
  | false => cases hnode
  | python hnode' hvar' =>
      obtain rfl : node = _ := Option.some.inj (hnode.symm.trans hnode')
      exact (hvar hvar').elim
  | node hnode' hbelow hchildren =>
      obtain rfl : node = _ := Option.some.inj (hnode.symm.trans hnode')
      exact ⟨hbelow, hchildren⟩

omit [RangeOps ValidVersion] in
/-- Bounds that change a marker: some Python versions are inside and some are
outside. -/
def Restricts (pyLower pyUpper : Bound ValidVersion) : Prop :=
  ¬ (pyLower.isUnbounded && pyUpper.isUnbounded) = true ∧
    ¬ (Ranges.fromRangeBounds pyLower pyUpper).isEmpty = true

/-- The range itself stands for the marker that is always true. -/
theorem complexified_true (hsound : Sound below s)
    (hpy : (Ranges.fromRangeBounds pyLower pyUpper).IsInterval (cutsOf (pyLower, pyUpper)))
    (hvalid : s.Valid r)
    (hrep : Represents s (.version .pythonFullVersion)
      (.version (Edges.fromRange (.fromRangeBounds pyLower pyUpper))) r) :
    Complexified pyLower pyUpper s .TRUE r := by
  have hsimple := Edges.simple_version .pythonFullVersion hpy.valid
  refine ⟨valid_true, hvalid, fun v => ?_, fun P hpython _ => hrep.allVars_simple hsimple hpython⟩
  obtain ⟨child, hpick⟩ := v.exists_picks hsimple.fits
  rw [hrep.holds_iff hsound.wellFormed hpick]
  rcases onEdge_fromRange_iff_has hpy.valid hpick with ⟨rfl, hhas⟩ | ⟨rfl, hhas⟩
  · simpa [InPython] using (hpy.has_iff _).mp hhas
  · simpa [InPython] using (hpy.has_iff _).not.mp hhas

omit [RangeOps ValidVersion] in
/-- Outside the range there is only `exclude`. -/
theorem mem_of_clipped {edges new : List (Ranges ValidVersion × NodeId)} {exclude child : NodeId}
    {window : Cut ValidVersion × WithTop (Cut ValidVersion)} (hcover : Cover new)
    (hlabel : ∀ point child, OnEdge point new child →
      (point.In window → OnEdge point edges child) ∧ (¬ point.In window → child = exclude))
    (hchild : child ∈ new.map Prod.snd) : child ∈ edges.map Prod.snd ∨ child = exclude := by
  obtain ⟨point, -, hedge⟩ := hcover.exists_point separates_all hchild
  by_cases hin : point.In window
  · exact .inl ((hlabel point child hedge).1 hin).mem
  · exact .inr ((hlabel point child hedge).2 hin)

theorem complexifyPythonVersionsFuel_ensures {fuel : ℕ} (hsound : Sound below s)
    (hvalid : s.Valid i) (hadmits : Restricts pyLower pyUpper → Admits below s i)
    (hfuel : i.rank < fuel) :
    Ensures (Sound below) (complexifyPythonVersionsFuel pyLower pyUpper fuel i) s
      (Complexified pyLower pyUpper · i) := by
  induction fuel generalizing s i with
  | zero => omega
  | succ fuel ih =>
      have hwf := hsound.wellFormed
      unfold complexifyPythonVersionsFuel
      split
      · rename_i hstop
        refine Ensures.pure hsound ⟨hvalid, hvalid, fun v => ?_, fun _ _ h => h⟩
        simp only [Bool.or_eq_true, NodeId.isFalse_iff, Bool.and_eq_true] at hstop
        rcases hstop with rfl | ⟨hlower, hupper⟩
        · simp
        · simp [inPython_unbounded hlower hupper]
      rename_i hstop
      simp only
      split
      · rename_i hempty
        refine Ensures.pure hsound ⟨hvalid, valid_false, fun v => ?_,
          fun _ _ _ => .false⟩
        simp [not_inPython_of_isEmpty hempty]
      rename_i hempty
      have hvalidSegment := validSegment_of_not_isEmpty hempty
      have hpy := Ranges.isInterval_fromRangeBounds hvalidSegment
      split
      · rename_i htrue
        obtain rfl := NodeId.isTrue_iff.mp htrue
        have hsimple := Edges.simple_version .pythonFullVersion hpy.valid
        refine Ensures.bind (createSimple_ensures hsound hsimple)
          fun r s' hsound' hle hcreated => Ensures.pure hsound' ?_
        obtain ⟨hvalidR, hrep⟩ := hcreated
        have hnegate : r.negate .TRUE = r := rfl
        rw [hnegate]
        exact complexified_true hsound' hpy hvalidR hrep
      rename_i htrue
      simp only [Bool.or_eq_true, not_or, NodeId.isTrue_iff, NodeId.isFalse_iff]
        at hstop htrue
      obtain ⟨node, hnode⟩ :=
        (hvalid.cases.resolve_left htrue).resolve_left hstop.1
      refine readNode_bind hnode ?_
      split
      · rename_i edges hvar hchildren
        have hfits := hwf.fits hnode
        rw [hvar, hchildren] at hfits
        have hcover : Cover edges := hfits
        obtain ⟨new, hnew, hcoverNew, hlabel⟩ := complexifyEdges_spec hcover
          hvalidSegment
        rw [hnew]
        have hnodes : ∀ child ∈ new.map Prod.snd,
            child ∈ edges.map Prod.snd ∨ child = .TRUE ∨ child = .FALSE := by
          intro child hchild
          refine (mem_of_clipped hcoverNew hlabel hchild).imp id ?_
          rintro rfl
          rw [NodeId.negate]
          split
          · exact .inl rfl
          · exact .inr rfl
        refine (createPython_ensures hsound hnode hvar hchildren hcoverNew
          hnodes).weaken fun r s' hsound' hle hcreated => ?_
        obtain ⟨hvalidR, hholds, hvars⟩ := hcreated
        refine ⟨hvalid.mono hle, hvalidR, fun v => ?_, fun P _ => hvars P⟩
        obtain ⟨child, hedge⟩ := hcoverNew.exists_onEdge
          (v.version .pythonFullVersion)
        rw [hholds v child hedge]
        by_cases hin : InPython pyLower pyUpper v
        · have hpick : v.Picks node.var node.children child := by
            rw [hvar, hchildren]
            exact (hlabel _ _ hedge).1 hin
          rw [holds_iff_child hsound'.wellFormed (node_mono hle hnode) hpick]
          simp [hin]
        · rw [(hlabel _ _ hedge).2 hin, NodeId.negate_negate]
          simp [hin]
      · rename_i hnotPython
        have hvar : node.var ≠ .version .pythonFullVersion := by
          intro hvar
          have hfits := hwf.fits hnode
          unfold Edges.Fits at hfits
          cases hchildren : node.children <;>
            simp only [hvar, Variable.domain, hchildren] at hfits
          exact hnotPython _ hvar hchildren
        obtain ⟨hbelow, hadmitsChildren⟩ :=
          (hadmits ⟨hstop.2, hempty⟩).cases_node hnode hvar
        refine ((rebuilds_complexified pyLower pyUpper).rebuild_ensures hsound hnode
          (by rintro _ rfl; exact hbelow)
          fun s' hle hsound' child hchild => ?_).weaken
            fun r s' hsound' hle hrebuilt => ?_
        · refine ih hsound' ((hwf.valid_step hnode hchild).mono hle)
            (fun _ => (hadmitsChildren child hchild i).mono hle) ?_
          have hrank := hwf.rank_step hnode hchild
          omega
        · obtain ⟨hvalidR, children, hrep, hfits, hmapped⟩ := hrebuilt
          have hnode' := node_mono hle hnode
          refine ⟨hvalid.mono hle, hvalidR, fun v => ?_, fun P hpython hvars => ?_⟩
          · obtain ⟨child, child', hpick, hrelated, hr, hi⟩ :=
              exists_mapped_child hsound'.wellFormed hnode' hmapped hrep v
            rw [hr, hi, hrelated.holds_iff v]
          · exact allVars_rebuilt hvars hnode' (hvars.cases_node hnode').1 hmapped
              hfits hrep fun _ _ hrelated => hrelated.vars P hpython

theorem simplifyPythonVersions_ensures (hsound : Sound below s)
    (hvalid : s.Valid i) (pyLower pyUpper : Bound ValidVersion) :
    Ensures (Sound below) (simplifyPythonVersions i pyLower pyUpper) s
      (Simplified pyLower pyUpper · i) :=
  simplifyPythonVersionsFuel_ensures hsound hvalid (Nat.lt_succ_self _)

theorem complexifyPythonVersions_ensures (hsound : Sound below s)
    (hvalid : s.Valid i) (pyLower pyUpper : Bound ValidVersion)
    (hadmits : Restricts pyLower pyUpper → Admits below s i) :
    Ensures (Sound below) (complexifyPythonVersions i pyLower pyUpper) s
      (Complexified pyLower pyUpper · i) :=
  complexifyPythonVersionsFuel_ensures hsound hvalid hadmits (Nat.lt_succ_self _)

end PythonVersions

end Interner

end Uv.Pep508
