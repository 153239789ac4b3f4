import Uv.Pep508.Reachable

/-!
# The order of the variables

Conjunction always expands the smaller variable, so it keeps diagrams ordered,
and the other operations rebuild a node with the variables it had.  The one
exception is requiring a Python range: where a path ends without a Python node,
a new one is put below whatever variable is there.
-/

namespace Uv.Pep508

open Uv.Core Uv.Pep440

namespace Interner

variable {s s' : Interner}

/-- The variable of every node is smaller than those of its children. -/
def Ordered (s : Interner) : Prop :=
  ∀ node ∈ s.nodes, ∀ child ∈ node.children.nodes, ∀ childNode,
    s.node child = some childNode → node.var < childNode.var

theorem ordered_of_stratified (hstratified : Stratified (· < ·) s) : Ordered s :=
  fun node hmem child hchild _ hchildNode =>
    ((hstratified node hmem child hchild).cases_node hchildNode).1

section Run

variable [RangeOps ValidVersion] [RangeOps Text]

/-- A Python range is only required of markers that, on the way down to their
first Python node, have variables below which a Python node may stand. -/
def KeepsOrder (s : Interner) (op : Operation) : Prop :=
  ∀ i pyLower pyUpper, op = .complexifyPythonVersions i pyLower pyUpper →
    Restricts pyLower pyUpper → Admits (· < ·) s i

/-- The states of the runs whose steps all keep the order. -/
inductive ReachableInOrder : Interner → Prop where
  | default : ReachableInOrder default
  | step {s s' : Interner} {result : Option NodeId} (op : Operation)
      (hreach : ReachableInOrder s) (hvalid : ∀ id ∈ op.arguments, s.Valid id)
      (hkeeps : KeepsOrder s op)
      (hrun : op.perform.run s = some (result, s')) : ReachableInOrder s'

theorem ReachableInOrder.sound (hreach : ReachableInOrder s) :
    Sound (· < ·) s := by
  induction hreach with
  | default => exact sound_default strata_lt
  | step op _ hvalid hkeeps hrun ih =>
      exact (perform_allows ih hvalid hkeeps _ _ hrun).1

/-- In these states every node lies above its children, and no variable occurs
twice on a path: all variables below a node are larger than its own. -/
theorem ReachableInOrder.ordered (hreach : ReachableInOrder s) :
    Ordered s ∧ ∀ node ∈ s.nodes, ∀ child ∈ node.children.nodes,
      AllVars s (node.var < ·) child :=
  ⟨ordered_of_stratified hreach.sound.stratified, hreach.sound.stratified⟩

end Run

/-- `python_full_version >= '3.8'` from the marker that is always true. -/
theorem ReachableInOrder.ordered_python : ∃ s : Interner, s.nodes.length = 1 ∧
    Ordered s := by
  have hrun : ∃ result s', (Operation.complexifyPythonVersions .TRUE
      (.included (.new [3, 8])) .unbounded).perform.run Interner.default =
        some (result, s') ∧ s'.nodes.length = 1 := by
    refine ⟨_, _, rfl, ?_⟩
    rfl
  obtain ⟨result, s', hrun, hlength⟩ := hrun
  refine ⟨s', hlength, (ReachableInOrder.step _ .default ?_ ?_ hrun).ordered.1⟩
  · simpa [Operation.arguments] using valid_true
  · rintro _ _ _ ⟨⟩ -
    exact .true

/-- Requiring a Python version of `extra == 'test'` puts a Python node below the
`extra` node. -/
theorem not_ordered_of_complexify_extra : ∃ s : Interner, Reachable s ∧
    ¬ Ordered s := by
  have hrun : ((performAll [.expression (.extra (.extra "test".toList) .equal),
      .complexifyPythonVersions (.new 0 false) (.included (.new [3, 8]))
        .unbounded] Interner.default).map fun s =>
      s.nodes.any fun node => node.children.nodes.any fun child =>
        (s.node child).any fun childNode =>
          decide (childNode.var < node.var)) = some true := by
    decide +kernel
  obtain ⟨s, hperform, hcheck⟩ := Option.map_eq_some_iff.mp hrun
  simp only [List.any_eq_true, Option.any_eq_true, decide_eq_true_eq] at hcheck
  obtain ⟨node, hnode, child, hchild, childNode, hchildNode, hlt⟩ := hcheck
  refine ⟨s, Reachable.default.performAll hperform, fun hordered => ?_⟩
  exact lt_asymm hlt (hordered node hnode child hchild childNode hchildNode)

end Interner

end Uv.Pep508
