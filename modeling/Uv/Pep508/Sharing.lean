import Uv.Pep508.ExtraSubstitution

/-!
# Sharing

A reference is a marker for good: whatever is computed later, it has the same node and
evaluates the same. A diagram has only one reference.
-/

namespace Uv.Pep508.Interner

open Uv.Core Uv.Pep440

section Runs

variable [RangeOps ValidVersion] [RangeOps Text] {s s' : Interner} {id other : NodeId}

theorem Reachable.le_performAll {ops : List Operation} (hreach : Reachable s)
    (hrun : Interner.performAll ops s = some s') : s ≤ s' := by
  induction ops generalizing s with
  | nil =>
      cases hrun
      exact le_rfl
  | cons op ops ih =>
      simp only [Interner.performAll] at hrun
      split at hrun
      · rename_i hall
        have hvalid : ∀ id ∈ op.arguments, s.Valid id :=
          fun id hid => of_decide_eq_true (List.all_eq_true.mp hall id hid)
        obtain ⟨⟨result, next⟩, hop, hrest⟩ := Option.bind_eq_some_iff.mp hrun
        have hgrown := perform_allows hreach.sound hvalid (fun i _ _ heq _ =>
          admits_below hreach.sound.wellFormed (hvalid i (by simp [heq, Operation.arguments])))
          _ _ hop
        exact hgrown.2.1.trans (ih (.step op hreach hvalid hop) hrest)
      · cases hrun

/-- A marker stays what it is, and evaluates the same, whatever is computed later. -/
theorem Reachable.evaluate_performAll {ops : List Operation} (hreach : Reachable s)
    (hrun : Interner.performAll ops s = some s') (hvalid : s.Valid id) :
    s'.Valid id ∧ s'.node id = s.node id ∧ ∀ env extras,
      s'.evaluate env extras id = s.evaluate env extras id := by
  have hle := hreach.le_performAll hrun
  refine ⟨hvalid.mono hle, ?_, fun env extras => evaluate_mono hreach.sound.wellFormed
    (hreach.performAll hrun).sound.wellFormed hle hvalid env extras⟩
  rcases hvalid.cases with rfl | rfl | ⟨node, hnode⟩
  · rfl
  · rfl
  · rw [hnode, node_mono hle hnode]

/-- References that unfold to the same diagram are the same: a relation that holds of two nodes
only if they are for one variable and it holds of their children is equality. -/
theorem Reachable.eq_of_unfolds (hreach : Reachable s) {related : NodeId → NodeId → Prop}
    (hunfold : ∀ id other, related id other → id = other ∨
      ∃ node node', s.node id = some node ∧ s.node other = some node' ∧ node'.var = node.var ∧
        Edges.Mapped (fun child child' => related (child.negate id) (child'.negate other))
          node.children node'.children)
    (hrelated : related id other) : id = other := by
  have hwf := hreach.sound.wellFormed
  induction hrank : id.rank using Nat.strong_induction_on generalizing id other with
  | _ rank ih =>
      subst hrank
      obtain rfl | ⟨node, node', hnode, hnode', hvar, hmapped⟩ := hunfold _ _ hrelated
      · rfl
      have hchildren : Edges.Mapped (fun child child' => child' = child.negate (id.negate other))
          node.children node'.children := hmapped.imp_mem fun child hmem child' hchild => by
        rw [← child'.negate_negate other, ← ih _ (hwf.rank_step hnode hmem) hchild rfl]
        cases hid : id.isComplement <;> cases hother : other.isComplement <;>
          simp [NodeId.negate, hid, hother]
      refine (Represents.eq_of_same hwf hnode (.inr ⟨node', hnode', hvar, ?_⟩)).symm
      rw [Edges.eq_of_mapped_negate hchildren]
      cases hid : id.isComplement <;> cases hother : other.isComplement <;>
        simp [NodeId.negate, hid, hother, Edges.not_not]

end Runs

/-- `extra == 'test'`, and then `os_name == 'nt'` and both of them. -/
private def madeFirst : List Operation :=
  [.expression (.extra (.extra "test".toList) .equal)]

private def madeLater : List Operation :=
  [.expression (.string .osName .equal "nt".toList), .and (.new 0 false) (.new 1 false)]

theorem Reachable.evaluate_performAll_linux : ∃ s s' : Interner,
    s.nodes.length = 1 ∧ s'.nodes.length = 3 ∧
      s'.evaluate linuxEnvironment (.extras []) (.new 0 false) =
        s.evaluate linuxEnvironment (.extras []) (.new 0 false) := by
  have hrun : ((Interner.performAll madeFirst Interner.default).bind fun s =>
      (Interner.performAll madeLater s).map fun s' =>
        decide (s.nodes.length = 1 ∧ s'.nodes.length = 3 ∧ s.Valid (.new 0 false))) =
          some true := by
    decide +kernel
  obtain ⟨s, hfirst, hrun⟩ := Option.bind_eq_some_iff.mp hrun
  obtain ⟨s', hlater, hcheck⟩ := Option.map_eq_some_iff.mp hrun
  obtain ⟨hnodes, hnodes', hvalid⟩ := of_decide_eq_true hcheck
  exact ⟨s, s', hnodes, hnodes', ((Reachable.default.performAll hfirst).evaluate_performAll
    hlater hvalid).2.2 _ _⟩

/-- All uncomplemented references to the node of `extra == 'test'` are one. -/
theorem Reachable.eq_of_unfolds_extra : ∃ s : Interner, ∀ id : NodeId,
    s.node id = s.node (.new 0 false) → id.isComplement = false → id = .new 0 false := by
  obtain ⟨s, hfirst, hnode⟩ : ∃ s, Interner.performAll madeFirst Interner.default = some s ∧
      s.node (.new 0 false) = some ⟨.extra "test".toList, .boolean .TRUE .FALSE⟩ := ⟨_, rfl, rfl⟩
  refine ⟨s, fun id hid hpositive => @Reachable.eq_of_unfolds _ _ s id _
    (Reachable.default.performAll hfirst)
    (fun id' other => id' = other ∨ id' = id ∧ other = .new 0 false) ?_ (.inr ⟨rfl, rfl⟩)⟩
  rintro _ _ (rfl | ⟨rfl, rfl⟩)
  · exact .inl rfl
  · exact .inr ⟨_, _, hid.trans hnode, hnode, rfl, by simp [Edges.Mapped, NodeId.negate, hpositive]⟩

end Uv.Pep508.Interner
