import Uv.Pep508.ExtraSubstitution

/-!
# Evaluating extras alone

A marker that may apply for some environment, and one that applies for every
environment, whatever the list names; both follow the edges of the extras and
quantify over the other edges.  Full evaluation lies between the two.
-/

namespace Uv.Pep508

open Uv.Core Uv.Pep440

namespace Interner

/-- Follow the edges of the active extras; `quantify` decides over the children
of every other node. -/
def evaluateExtrasWith (quantify : List NodeId → (NodeId → Bool) → Bool)
    (interner : Interner) (extras : List Text) : ℕ → NodeId → Bool
  | 0, _ => false
  | fuel + 1, id =>
      if id.isTrue then true
      else if id.isFalse then false
      else
        match interner.node id with
        | none => false
        | some node =>
            match node.var, node.children with
            | .extra name, .boolean high low =>
                evaluateExtrasWith quantify interner extras fuel
                  ((if extras.contains name then high else low).negate id)
            | _, children =>
                quantify children.nodes fun child =>
                  evaluateExtrasWith quantify interner extras fuel (child.negate id)

/-- Whether there may be an environment in which the marker applies. -/
def evaluateExtras (interner : Interner) (extras : List Text) (id : NodeId) : Bool :=
  evaluateExtrasWith List.any interner extras (id.rank + 1) id

/-- Whether the marker is true once the extras are active. -/
def evaluateOnlyExtras (interner : Interner) (extras : List Text) (id : NodeId) : Bool :=
  evaluateExtrasWith List.all interner extras (id.rank + 1) id

variable {s : Interner} {i : NodeId} {node : Node} {extras : List Text}
  {env : MarkerEnvironment} {quantify : List NodeId → (NodeId → Bool) → Bool} {fuel : ℕ}

/-- What happens at a node: an extra selects a child, all other variables are
quantified over. -/
theorem evaluateExtrasWith_node (hwf : s.WellFormed) (hnode : s.node i = some node) :
    (∃ name high low, node.var = .extra name ∧ node.children = .boolean high low ∧
      evaluateExtrasWith quantify s extras (fuel + 1) i =
        evaluateExtrasWith quantify s extras fuel
          ((if extras.contains name then high else low).negate i)) ∨
    isExtraVariable node.var = false ∧
      evaluateExtrasWith quantify s extras (fuel + 1) i =
        quantify node.children.nodes fun child =>
          evaluateExtrasWith quantify s extras fuel (child.negate i) := by
  have hfits := hwf.fits hnode
  simp only [evaluateExtrasWith, isTrue_of_node hnode, isFalse_of_node hnode, hnode,
    Bool.false_eq_true, if_false]
  cases hvar : node.var with
  | extra name =>
      rw [hvar] at hfits
      cases hchildren : node.children with
      | boolean high low => exact .inl ⟨name, high, low, rfl, rfl, rfl⟩
      | _ => rw [hchildren] at hfits; exact hfits.elim
  | _ => exact .inr ⟨rfl, rfl⟩

/-- An edge that is true for every value of the other variables is true. -/
theorem eq_true_of_evaluateOnlyExtras (hwf : s.WellFormed) (hvalid : s.Valid i)
    (hfuel : i.rank < fuel) (hvars : AllVars s (isExtraVariable · = false) i)
    (heval : evaluateExtrasWith List.all s extras fuel i = true) : i = .TRUE := by
  induction fuel generalizing i with
  | zero => omega
  | succ fuel ih =>
      rcases hvalid.cases with rfl | rfl | ⟨node, hnode⟩
      · rfl
      · cases heval
      obtain ⟨hvar, hchildren⟩ := hvars.cases_node hnode
      rcases evaluateExtrasWith_node hwf hnode with ⟨name, _, _, hextra, _⟩ | ⟨-, heq⟩
      · rw [hextra] at hvar
        cases hvar
      rw [heq, List.all_eq_true] at heval
      -- All children would be the same terminal, but the node is reduced.
      have htrue : ∀ child ∈ node.children.nodes, child = NodeId.TRUE.negate i := by
        intro child hchild
        have hrank := hwf.rank_step hnode hchild
        have hsame := ih (hwf.valid_step hnode hchild) (by omega)
          ((hchildren child hchild).negate i) (heval child hchild)
        rw [← hsame, NodeId.negate_negate]
      obtain ⟨index, -, hget⟩ := exists_index hnode
      obtain ⟨left, hleft, right, hright, hne⟩ := (hwf.node hget).reduced
      exact (hne ((htrue left hleft).trans (htrue right hright).symm)).elim

theorem accepts_of_evaluateOnlyExtras (hsound : Sound Variable.Below s) (hvalid : s.Valid i)
    (hfuel : i.rank < fuel)
    (heval : evaluateExtrasWith List.all s extras fuel i = true) :
    Accepts s (env.valuation (.extras extras)) i := by
  induction fuel generalizing i with
  | zero => omega
  | succ fuel ih =>
      have hwf := hsound.wellFormed
      rcases hvalid.cases with rfl | rfl | ⟨node, hnode⟩
      · exact .true
      · cases heval
      have hchild : ∀ child ∈ node.children.nodes,
          evaluateExtrasWith List.all s extras fuel (child.negate i) = true →
            Accepts s (env.valuation (.extras extras)) (child.negate i) := by
        intro child hmem
        have hrank := hwf.rank_step hnode hmem
        exact ih (hwf.valid_step hnode hmem) (by omega)
      obtain ⟨child, hpick⟩ := (env.valuation (.extras extras)).exists_picks (hwf.fits hnode)
      rcases evaluateExtrasWith_node hwf hnode with
        ⟨name, high, low, hvar, hchildren, heq⟩ | ⟨hvar, heq⟩
      · rw [heq] at heval
        have hpicked : child = if extras.contains name then high else low := by
          rw [hvar, hchildren] at hpick
          exact hpick
        rw [← hpicked] at heval
        exact .node hnode (by rw [hvar]; rfl) hpick (hchild child hpick.mem heval)
      · cases harbitrary : node.var.isArbitrary with
        | true =>
            -- A list name has no extras below it.
            have hfree := hsound.allVars_free
              (f := fun var => if isExtraVariable var then some true else none)
              (fun var hextra => by rw [hextra]; rfl) hnode harbitrary
            have hvars : AllVars s (isExtraVariable · = false) i := hfree.imp fun var hnone => by
              by_contra hextra
              simp [Bool.not_eq_false _ ▸ hextra] at hnone
            have htrue := eq_true_of_evaluateOnlyExtras hwf hvalid hfuel hvars heval
            rw [htrue] at hnode
            cases hnode
        | false =>
            rw [heq, List.all_eq_true] at heval
            exact .node hnode harbitrary hpick
              (hchild child hpick.mem (heval child hpick.mem))

theorem evaluateExtras_of_accepts (hwf : s.WellFormed) (hfuel : i.rank < fuel)
    (haccepts : Accepts s (env.valuation (.extras extras)) i) :
    evaluateExtrasWith List.any s extras fuel i = true := by
  induction fuel generalizing i with
  | zero => omega
  | succ fuel ih =>
      cases haccepts with
      | true => rfl
      | @node _ node child hnode hvar hpick hchild =>
          have hrank := hwf.rank_step hnode hpick.mem
          have hrest := ih (by omega) hchild
          rcases evaluateExtrasWith_node hwf hnode with
            ⟨name, high, low, hvar, hchildren, heq⟩ | ⟨-, heq⟩
          · have hpicked : child = if extras.contains name then high else low := by
              rw [hvar, hchildren] at hpick
              exact hpick
            rw [heq, ← hpicked, hrest]
          · rw [heq, List.any_eq_true]
            exact ⟨child, hpick.mem, hrest⟩

/-- Full evaluation lies between the two evaluations of the extras alone. -/
theorem Reachable.evaluate_between [RangeOps ValidVersion] [RangeOps Text]
    (hreach : Reachable s) (hvalid : s.Valid i) (env : MarkerEnvironment)
    (extras : List Text) :
    (s.evaluateOnlyExtras extras i = true → s.evaluate env (.extras extras) i = true) ∧
      (s.evaluate env (.extras extras) i = true → s.evaluateExtras extras i = true) := by
  have hsound := hreach.sound
  have hwf := hsound.wellFormed
  rw [evaluate_iff_accepts hwf hvalid]
  exact ⟨accepts_of_evaluateOnlyExtras hsound hvalid (Nat.lt_succ_self _),
    evaluateExtras_of_accepts hwf (Nat.lt_succ_self _)⟩

theorem Reachable.evaluate_between_test : ∃ s : Interner,
    (s.evaluateOnlyExtras [] (.new 0 false) = true →
      s.evaluate linuxEnvironment (.extras []) (.new 0 false) = true) ∧
    (s.evaluate linuxEnvironment (.extras []) (.new 0 false) = true →
      s.evaluateExtras [] (.new 0 false) = true) := by
  obtain ⟨s, hreach, hvalid⟩ := exists_reachable_extra
  exact ⟨s, hreach.evaluate_between hvalid linuxEnvironment []⟩

end Interner

end Uv.Pep508
