import Uv.Pep508.Memoized

/-!
# Conjunctions with extras

A conjunction with a diagram over extras alone is exact in every environment: extras are
no conflicting variables, and they come before all malformed list names.
-/

namespace Uv.Pep508

open Uv.Core Uv.Pep440

namespace Interner

variable {s s' : Interner} {v : Valuation} {id id' x y r xi yi : NodeId} {node : Node}
  {var : Variable} {child : NodeId} {below : Variable → Variable → Prop}

/-- The diagram is about extras alone. -/
def OnlyExtras (s : Interner) (id : NodeId) : Prop :=
  AllVars s (isExtraVariable · = true) id

theorem isArbitrary_of_isExtraVariable (hvar : isExtraVariable var = true) :
    var.isArbitrary = false := by
  cases var <;> first | rfl | cases hvar

/-- Malformed names come after the extras. -/
theorem isArbitrary_of_lt_extra {other : Variable} (hother : isExtraVariable other = true)
    (hlt : var < other) : var.isArbitrary = false := by
  by_contra harbitrary
  rw [Bool.not_eq_false] at harbitrary
  have hgt : other < var := by
    rw [← Variable.cmp_eq_lt]
    cases other with
    | extra name =>
        cases var with
        | list pair => cases pair <;> rfl
        | _ => cases harbitrary
    | _ => cases hother
  exact hlt.not_gt hgt

theorem OnlyExtras.accepts_iff_holds (hwf : WellFormed s) (hvalid : s.Valid id)
    (hextras : OnlyExtras s id) : Accepts s v id ↔ Holds s v id := by
  refine ⟨Accepts.holds, fun hholds => ?_⟩
  induction hholds with
  | true => exact .true
  | node hnode hpick _ ih =>
      obtain ⟨hvar, hchildren⟩ := hextras.cases_node hnode
      exact .node hnode (isArbitrary_of_isExtraVariable hvar) hpick
        (ih (hwf.valid_step hnode hpick.mem)
          ((hchildren _ hpick.mem).negate _))

/-- The marker and its negation are not both accepted, and one of them is. -/
theorem OnlyExtras.accepts_not (hwf : WellFormed s) (hvalid : s.Valid id)
    (hextras : OnlyExtras s id) : Accepts s v id.not ↔ ¬ Accepts s v id := by
  have hextras' : OnlyExtras s id.not := hextras.not
  rw [hextras'.accepts_iff_holds hwf (valid_not.mpr hvalid),
    hextras.accepts_iff_holds hwf hvalid, holds_not hwf hvalid]

/-! ## Negated diagrams -/

theorem accepts_not_iff_child (hwf : WellFormed s) (hnode : s.node id = some node)
    (hvar : node.var.isArbitrary = false) (hpick : v.Picks node.var node.children child) :
    Accepts s v id.not ↔ Accepts s v (child.negate id).not := by
  have hnode' : s.node id.not = some node := by rw [node_not, hnode]
  rw [accepts_iff_child hwf hnode' hvar hpick, NodeId.negate_not_parent]

theorem Represents.accepts_not_iff (hwf : WellFormed s) {children : Edges}
    (hrep : Represents s var children id) (hvar : var.isArbitrary = false)
    (hpick : v.Picks var children child) : Accepts s v id.not ↔ Accepts s v child.not := by
  rcases hrep with hsame | ⟨node, hnode, rfl, hbranches⟩
  · rw [hsame child hpick.mem]
  · rw [accepts_not_iff_child hwf hnode hvar (picks_of_branches hbranches hpick),
      NodeId.negate_negate]

theorem Cofactor.accepts_not_iff (hwf : WellFormed s) (hcofactor : Cofactor s v var id id')
    (hvar : var.isArbitrary = false) : Accepts s v id.not ↔ Accepts s v id'.not := by
  cases hcofactor with
  | child hnode hnodeVar hpick => exact accepts_not_iff_child hwf hnode (hnodeVar ▸ hvar) hpick
  | self => rfl

/-! ## The promise -/

/-- A conjunction with a diagram over extras, and its negation, are what they should be. -/
def JoinsExtras (s : Interner) (x y r : NodeId) : Prop :=
  OnlyExtras s x ∨ OnlyExtras s y → ∀ v,
    (Accepts s v r ↔ Accepts s v x ∧ Accepts s v y) ∧
      (Accepts s v r.not ↔ Accepts s v x.not ∨ Accepts s v y.not)

theorem JoinsExtras.symm (hjoins : JoinsExtras s y x r) : JoinsExtras s x y r :=
  fun hextras v => ⟨(hjoins hextras.symm v).1.trans and_comm,
    (hjoins hextras.symm v).2.trans or_comm⟩

/-- The variable that such a conjunction is made for. -/
theorem Expanded.isArbitrary_extras {Good : NodeId → NodeId → NodeId → Prop} {xNode yNode : Node}
    {children : Edges} (hx : s.node xi = some xNode) (hy : s.node yi = some yNode)
    (hextras : OnlyExtras s xi ∨ OnlyExtras s yi)
    (hexpanded : Expanded Good xi yi xNode yNode var children) : var.isArbitrary = false := by
  have hroot : isExtraVariable xNode.var = true ∨ isExtraVariable yNode.var = true :=
    hextras.imp (fun hvars => (hvars.cases_node hx).1) fun hvars => (hvars.cases_node hy).1
  cases hexpanded with
  | left hlt =>
      exact hroot.elim isArbitrary_of_isExtraVariable (isArbitrary_of_lt_extra · hlt)
  | right hlt =>
      exact hroot.elim (isArbitrary_of_lt_extra · hlt) isArbitrary_of_isExtraVariable
  | both heq =>
      exact hroot.elim isArbitrary_of_isExtraVariable
        fun hvar => isArbitrary_of_isExtraVariable (heq ▸ hvar)

theorem promise_joinsExtras (below : Variable → Variable → Prop) :
    Promise below JoinsExtras where
  mono hwf hwf' hle hconj hjoins := by
    intro hextras v
    rw [accepts_mono hwf hwf' hle hconj.valid, accepts_mono hwf hwf' hle hconj.left,
      accepts_mono hwf hwf' hle hconj.right,
      accepts_mono hwf hwf' hle (valid_not.mpr hconj.valid),
      accepts_mono hwf hwf' hle (valid_not.mpr hconj.left),
      accepts_mono hwf hwf' hle (valid_not.mpr hconj.right)]
    exact hjoins (hextras.imp (·.of_mono hwf hle hconj.left)
      (·.of_mono hwf hle hconj.right)) v
  left_true _ _ _ v := by simp
  right_true _ _ _ v := by simp
  same _ _ _ v := by simp
  left_false _ _ _ v := by simp
  right_false _ _ _ v := by simp
  opposite := by
    intro s x hwf hvalid hextras v
    have hx : OnlyExtras s x := hextras.elim (fun hx => hx) fun hx =>
      NodeId.not_not x ▸ AllVars.not hx
    rw [NodeId.not_not, hx.accepts_not hwf hvalid]
    simp [em']
  create := by
    intro s xi yi xNode yNode var children r hsound hx hy hexpanded hrep hextras v
    have hwf := hsound.wellFormed
    have hvar := hexpanded.isArbitrary_extras hx hy hextras
    obtain ⟨child, hpick⟩ := v.exists_picks (hexpanded.fits hwf hx hy)
    obtain ⟨xi', yi', hcx, hcy, -, hjoins⟩ := hexpanded.cofactors
      (fun _ _ _ hgood => ⟨hgood.1.symm, hgood.2.symm⟩) hx hy hpick
    rw [hrep.accepts_iff hwf hvar hpick, hrep.accepts_not_iff hwf hvar hpick,
      hcx.accepts_iff hwf hvar, hcy.accepts_iff hwf hvar, hcx.accepts_not_iff hwf hvar,
      hcy.accepts_not_iff hwf hvar]
    exact hjoins (hextras.imp hcx.allVars hcy.allVars) v
  -- Extras are no conflicting variables.
  excluded := by
    intro s xi yi xNode yNode r _ hx hy hboth _ _ hextras
    have hnot : ∀ {var : Variable}, isExtraVariable var = true →
        var.isConflictingVariable = false := by
      intro var hvar
      cases var <;> first | rfl | cases hvar
    rw [Bool.and_eq_true] at hboth
    rcases hextras with hextras | hextras
    · rw [hnot (hextras.cases_node hx).1] at hboth
      cases hboth.1
    · rw [hnot (hextras.cases_node hy).1] at hboth
      cases hboth.2

/-! ## Reachable states -/

section Runs

variable [RangeOps ValidVersion] [RangeOps Text]

/-- An operation that makes a marker leads to a reachable state. -/
theorem Reachable.of_run {op : Operation} {action : InternerM NodeId} (hreach : Reachable s)
    (hvalid : ∀ id ∈ op.arguments, s.Valid id) (hperform : op.perform = some <$> action)
    (hrun : action.run s = some (r, s')) : Reachable s' :=
  .step op hreach hvalid (hperform ▸ run_map_some hrun)

theorem Reachable.ensures (op : Operation) {action : InternerM NodeId} {Inv : Interner → Prop}
    {post : Interner → NodeId → Prop} (hreach : Reachable s)
    (hvalid : ∀ id ∈ op.arguments, s.Valid id) (hperform : op.perform = some <$> action)
    (haction : Ensures Inv action s post) : Ensures Reachable action s post := by
  obtain ⟨r, s', hrun, -, hle, hpost⟩ := haction
  exact ⟨r, s', hrun, hreach.of_run hvalid hperform hrun, hle, hpost⟩

/-- `extra == name`. -/
theorem expressionExtra_ensures (hreach : Reachable s) (name : Text) :
    Ensures Reachable (expression (.extra (.extra name) .equal)) s fun s' r => s'.Valid r ∧
      OnlyExtras s' r ∧ ∀ v, Accepts s' v r ↔ v.bool (.extra name) = true := by
  have hsimple : (Edges.fromBool true).Simple (.extra name) :=
    Edges.simple_fromBool rfl true
  have hcreate := createSimple_ensures hreach.sound hsimple
  apply (hreach.ensures (.expression (.extra (.extra name) .equal)) (by
    simp [Operation.arguments]) rfl hcreate).weaken
  rintro r s' hreach' - ⟨hvalid, hrep⟩
  refine ⟨hvalid, hrep.allVars_simple hsimple rfl, fun v => ?_⟩
  have hpick : v.Picks (.extra name) (Edges.fromBool true)
      (if v.bool (.extra name) then .TRUE else .FALSE) := rfl
  rw [hrep.accepts_iff hreach'.sound.wellFormed rfl hpick]
  cases v.bool (.extra name) <;> simp

theorem and_reachable (hreach : Reachable s) (hx : s.Valid x) (hy : s.Valid y) :
    Ensures Reachable (and x y) s fun s' r => Conj s' x y r ∧ JoinsExtras s' x y r := by
  have hrun := (promise_joinsExtras _).and_ensures (hreach.consistent (promise_joinsExtras _)) hx hy
  exact hreach.ensures (.and x y) (by simp [Operation.arguments, hx, hy]) rfl hrun

theorem or_reachable (hreach : Reachable s) (hx : s.Valid x) (hy : s.Valid y) :
    Ensures Reachable (or x y) s fun s' r => Conj s' x.not y.not r.not ∧
      JoinsExtras s' x.not y.not r.not := by
  have hrun := (promise_joinsExtras _).or_ensures (hreach.consistent (promise_joinsExtras _)) hx hy
  exact hreach.ensures (.or x y) (by simp [Operation.arguments, hx, hy]) rfl hrun

end Runs

end Interner

end Uv.Pep508
