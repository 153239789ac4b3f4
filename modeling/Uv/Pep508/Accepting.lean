import Uv.Pep508.Combine

/-!
# Accepting valuations

Evaluation follows the picked edges as truth does, but stops at a malformed list name.  The
Python version comes before all such names, so that a conjunction with a diagram over the
Python version alone never expands them.
-/

namespace Uv.Pep508

open Uv.Core Uv.Pep440

namespace Interner

variable {s s' : Interner} {v : Valuation} {id id' : NodeId} {node : Node}
  {var : Variable} {child : NodeId}

/-- Following the picked edges leads to `true`, and past no malformed name. -/
inductive Accepts (s : Interner) (v : Valuation) : NodeId → Prop where
  | true : Accepts s v .TRUE
  | node {id : NodeId} {node : Node} {child : NodeId}
      (hnode : s.node id = some node) (hvar : node.var.isArbitrary = false)
      (hpick : v.Picks node.var node.children child)
      (hchild : Accepts s v (child.negate id)) : Accepts s v id

@[simp]
theorem accepts_true : Accepts s v .TRUE := .true

@[simp]
theorem not_accepts_false : ¬ Accepts s v .FALSE := by
  intro haccepts
  cases haccepts with
  | node hnode => cases hnode

theorem accepts_iff_child (hwf : WellFormed s) (hnode : s.node id = some node)
    (hvar : node.var.isArbitrary = false) (hpick : v.Picks node.var node.children child) :
    Accepts s v id ↔ Accepts s v (child.negate id) := by
  constructor
  · intro haccepts
    cases haccepts with
    | true => cases hnode
    | node hnode' _ hpick' hchild' =>
        obtain rfl : node = _ := Option.some.inj (hnode.symm.trans hnode')
        rwa [Valuation.picks_unique (hwf.fits hnode) hpick hpick']
  · exact .node hnode hvar hpick

theorem not_accepts_of_isArbitrary (hnode : s.node id = some node)
    (hvar : node.var.isArbitrary = true) : ¬ Accepts s v id := by
  intro haccepts
  cases haccepts with
  | true => cases hnode
  | node hnode' hvar' =>
      obtain rfl : node = _ := Option.some.inj (hnode.symm.trans hnode')
      rw [hvar] at hvar'
      cases hvar'

theorem Accepts.holds (haccepts : Accepts s v id) : Holds s v id := by
  induction haccepts with
  | true => exact .true
  | node hnode _ hpick _ ih => exact .node hnode hpick ih

theorem accepts_mono (hwf : WellFormed s) (hwf' : WellFormed s') (hle : s ≤ s')
    (hvalid : s.Valid id) : Accepts s' v id ↔ Accepts s v id := by
  induction id, hvalid using Valid.induct hwf with
  | true => simp
  | false => simp
  | @step id node hnode ih =>
      have hnode' := node_mono hle hnode
      cases hvar : node.var.isArbitrary with
      | true =>
          exact iff_of_false (not_accepts_of_isArbitrary hnode' hvar)
            (not_accepts_of_isArbitrary hnode hvar)
      | false =>
          obtain ⟨child, hpick⟩ := v.exists_picks (hwf.fits hnode)
          rw [accepts_iff_child hwf hnode hvar hpick, accepts_iff_child hwf' hnode' hvar hpick]
          exact ih child hpick.mem id (hwf.valid_step hnode hpick.mem)

theorem evaluateFuel_iff_accepts (hwf : WellFormed s) {env : MarkerEnvironment}
    {extras : ExtrasEnvironment} (hvalid : s.Valid id) {fuel : ℕ} (hfuel : id.rank < fuel) :
    s.evaluateFuel env extras fuel id = true ↔ Accepts s (env.valuation extras) id := by
  induction fuel generalizing id with
  | zero => omega
  | succ fuel ih =>
      rcases hvalid.cases with rfl | rfl | ⟨node, hnode⟩
      · simp [evaluateFuel, NodeId.isTrue]
      · simp [evaluateFuel, NodeId.isTrue, NodeId.isFalse]
      · simp only [evaluateFuel, isTrue_of_node hnode, isFalse_of_node hnode,
          Bool.false_eq_true, if_false, hnode]
        cases hvar : node.var.isArbitrary with
        | true =>
            have hchild : env.child extras node.var node.children = none := by
              cases hnodeVar : node.var <;> rw [hnodeVar] at hvar
              case list pair =>
                cases pair <;> first | rfl | cases hvar
              all_goals cases hvar
            rw [hchild]
            exact iff_of_false Bool.false_ne_true (not_accepts_of_isArbitrary hnode hvar)
        | false =>
            obtain ⟨child, hpick⟩ := (env.valuation extras).exists_picks (hwf.fits hnode)
            have hchild :=
              (MarkerEnvironment.child_eq_some_iff (hwf.fits hnode) hvar).mpr hpick
            have hrank := hwf.rank_step hnode hpick.mem
            rw [hchild, accepts_iff_child hwf hnode hvar hpick]
            exact ih (hwf.valid_step hnode hpick.mem) (by omega)

/-- Evaluation of any marker. -/
theorem evaluate_iff_accepts (hwf : WellFormed s) {env : MarkerEnvironment}
    {extras : ExtrasEnvironment} (hvalid : s.Valid id) :
    s.evaluate env extras id = true ↔ Accepts s (env.valuation extras) id :=
  evaluateFuel_iff_accepts hwf hvalid (Nat.lt_succ_self _)

theorem evaluate_mono (hwf : WellFormed s) (hwf' : WellFormed s') (hle : s ≤ s')
    (hvalid : s.Valid id) (env : MarkerEnvironment) (extras : ExtrasEnvironment) :
    s'.evaluate env extras id = s.evaluate env extras id := by
  rw [Bool.eq_iff_iff, evaluate_iff_accepts hwf hvalid,
    evaluate_iff_accepts hwf' (hvalid.mono hle), accepts_mono hwf hwf' hle hvalid]

theorem Represents.accepts_iff (hwf : WellFormed s) {children : Edges}
    (hrep : Represents s var children id) (hvar : var.isArbitrary = false)
    (hpick : v.Picks var children child) : Accepts s v id ↔ Accepts s v child := by
  rcases hrep with hsame | ⟨node, hnode, rfl, hbranches⟩
  · rw [hsame child hpick.mem]
  · rw [accepts_iff_child hwf hnode hvar (picks_of_branches hbranches hpick),
      NodeId.negate_negate]

theorem Cofactor.accepts_iff (hwf : WellFormed s) (hcofactor : Cofactor s v var id id')
    (hvar : var.isArbitrary = false) : Accepts s v id ↔ Accepts s v id' := by
  cases hcofactor with
  | child hnode hnodeVar hpick => exact accepts_iff_child hwf hnode (hnodeVar ▸ hvar) hpick
  | self => rfl

/-! ## The Python version -/

/-- The diagram is about the Python version alone. -/
def OnlyPython (s : Interner) (id : NodeId) : Prop :=
  AllVars s (· = .version .pythonFullVersion) id

/-- Malformed names come after the Python version. -/
theorem isArbitrary_of_le_python (hle : var ≤ .version .pythonFullVersion) :
    var.isArbitrary = false := by
  by_contra harbitrary
  rw [Bool.not_eq_false] at harbitrary
  have hlt : (.version .pythonFullVersion : Variable) < var := by
    rw [← Variable.cmp_eq_lt]
    cases var with
    | list pair => cases pair <;> rfl
    | _ => cases harbitrary
  exact absurd hlt (not_lt.mpr hle)

/-- The variable that a conjunction with a diagram over the Python version is made for. -/
theorem Expanded.isArbitrary {Good : NodeId → NodeId → NodeId → Prop} {xi yi : NodeId}
    {x y : Node} {children : Edges} (hx : s.node xi = some x) (hy : s.node yi = some y)
    (hpython : OnlyPython s xi ∨ OnlyPython s yi)
    (hexpanded : Expanded Good xi yi x y var children) : var.isArbitrary = false := by
  have hroot : x.var = .version .pythonFullVersion ∨ y.var = .version .pythonFullVersion :=
    hpython.imp (fun hvars => (hvars.cases_node hx).1) fun hvars => (hvars.cases_node hy).1
  apply isArbitrary_of_le_python
  cases hexpanded with
  | left hlt => exact hroot.elim le_of_eq fun heq => heq ▸ hlt.le
  | right hlt => exact hroot.elim (fun heq => heq ▸ hlt.le) le_of_eq
  | both heq => exact hroot.elim le_of_eq fun heq' => (heq.trans heq').le

end Interner

end Uv.Pep508
