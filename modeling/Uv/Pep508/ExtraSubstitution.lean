import Uv.Pep508.Projection
import Uv.Pep508.Algebra

/-!
# Substituting extras

Restricting extras is substitution, also below and above malformed list names:
no extra occurs below a list name, so that such a node is left as it is, and a
diagram without restricted variables is given back unchanged.

An environment has finitely many active extras, while a predicate may hold for
any number of them; the extras that occur in the table decide.
-/

namespace Uv.Core.Ensures

/-- Two promises about one action hold together. -/
theorem and {σ α : Type} [Preorder σ] {Inv : σ → Prop} {action : StateT σ Option α} {s : σ}
    {post post' : σ → α → Prop} (hpost : Ensures Inv action s post)
    (hpost' : Ensures Inv action s post') :
    Ensures Inv action s fun s' value => post s' value ∧ post' s' value := by
  obtain ⟨value, s', hrun, hinv, hle, hvalue⟩ := hpost
  obtain ⟨value', s'', hrun', -, -, hvalue'⟩ := hpost'
  obtain ⟨rfl, rfl⟩ := Prod.mk.inj (Option.some.inj (hrun.symm.trans hrun'))
  exact ⟨value, s', hrun, hinv, hle, hvalue, hvalue'⟩

end Uv.Core.Ensures

namespace Uv.Pep508

open Uv.Core Uv.Pep440

namespace Edges

/-- Only the children of the edges have to be related. -/
theorem Mapped.imp_mem {related related' : NodeId → NodeId → Prop} {edges edges' : Edges}
    (himp : ∀ child ∈ edges.nodes, ∀ child', related child child' → related' child child')
    (hmapped : Mapped related edges edges') : Mapped related' edges edges' := by
  have hranges : ∀ {T : Type} [OrdKey T] {ranges ranges' : List (Ranges T × NodeId)},
      (∀ child ∈ ranges.map Prod.snd, ∀ child', related child child' →
        related' child child') →
      List.Forall₂ (fun edge edge' => edge.1 = edge'.1 ∧ related edge.2 edge'.2) ranges
        ranges' →
      List.Forall₂ (fun edge edge' => edge.1 = edge'.1 ∧ related' edge.2 edge'.2) ranges
        ranges' := by
    intro T _ ranges ranges' himp hforall
    induction hforall with
    | nil => exact .nil
    | cons hedge _ ih =>
        rw [List.map_cons, List.forall_mem_cons] at himp
        exact .cons ⟨hedge.1, himp.1 _ hedge.2⟩ (ih himp.2)
  cases edges <;> cases edges' <;> simp only [Mapped] at hmapped ⊢
  · exact hranges himp hmapped
  · exact hranges himp hmapped
  · simp only [nodes, List.forall_mem_cons, List.not_mem_nil, false_implies, implies_true,
      and_true] at himp
    exact ⟨himp.1 _ hmapped.1, himp.2 _ hmapped.2⟩

theorem not_not (edges : Edges) : edges.not.not = edges := by
  cases edges <;> simp [not, Function.comp_def]

/-- Edges whose children are only read through their parent. -/
theorem eq_of_mapped_negate {i : NodeId} {edges edges' : Edges}
    (hmapped : Mapped (fun child r => r = child.negate i) edges edges') :
    edges' = if i.isComplement then edges.not else edges := by
  have hranges : ∀ {T : Type} [OrdKey T] {ranges ranges' : List (Ranges T × NodeId)},
      List.Forall₂ (fun edge edge' => edge.1 = edge'.1 ∧ edge'.2 = edge.2.negate i)
        ranges ranges' → ranges' = ranges.map fun edge => (edge.1, edge.2.negate i) := by
    intro T _ ranges ranges' hforall
    induction hforall with
    | nil => rfl
    | cons hedge _ ih => rw [ih, List.map_cons, hedge.1, ← hedge.2]
  unfold NodeId.negate at hmapped hranges
  cases edges <;> cases edges' <;> simp only [Mapped] at hmapped
  · rw [hranges hmapped]
    split <;> simp [not]
  · rw [hranges hmapped]
    split <;> simp [not]
  · rw [hmapped.1, hmapped.2]
    split <;> rfl

end Edges

namespace Interner

variable {s s' : Interner} {i r : NodeId} {v v' : Valuation}
  {below : Variable → Variable → Prop}

/-- A node made again from its own children is the node. -/
theorem Represents.eq_of_same (hwf : s.WellFormed) {node : Node}
    (hnode : s.node i = some node)
    (hrep : Represents s node.var (if i.isComplement then node.children.not else node.children)
      r) : r = i := by
  obtain ⟨index, hid, hget⟩ := exists_index hnode
  have hwfNode := hwf.node hget
  rcases hrep with hsame | ⟨node', hnode', hvar, hbranches⟩
  · obtain ⟨left, hleft, right, hright, hne⟩ := hwfNode.reduced
    refine (hne ?_).elim
    split at hsame
    · rw [Edges.nodes_not] at hsame
      have heq := (hsame _ (List.mem_map_of_mem hleft)).trans
        (hsame _ (List.mem_map_of_mem hright)).symm
      rw [← NodeId.not_not left, heq, NodeId.not_not]
    · exact (hsame left hleft).trans (hsame right hright).symm
  · obtain ⟨index', hid', hget'⟩ := exists_index hnode'
    -- The first child decides whether the reference is complemented.
    have hpolarity : ¬ node'.children.branches = node.children.not.branches := by
      intro hnot
      obtain ⟨first, rest, hnodes⟩ :=
        List.exists_cons_of_ne_nil hwfNode.fits.nodes_ne_nil
      have hfirst := hwfNode.first first (by rw [hnodes]; rfl)
      have hfirst' := (hwf.node hget').first first.not (by
        rw [Edges.nodes_eq_of_branches_eq hnot, Edges.nodes_not, hnodes]
        rfl)
      rw [NodeId.isComplement_not, hfirst] at hfirst'
      cases hfirst'
    have hsame : r.isComplement = i.isComplement ∧
        node'.children.branches = node.children.branches := by
      cases hr : r.isComplement <;> cases hi : i.isComplement <;>
        simp only [hr, hi, if_true, Bool.false_eq_true, if_false, Edges.not_not] at hbranches
      · exact ⟨rfl, hbranches⟩
      · exact (hpolarity hbranches).elim
      · exact (hpolarity hbranches).elim
      · exact ⟨rfl, hbranches⟩
    rw [hid, hid', hsame.1, hwf.unique hget' hget hvar hsame.2]

/-! ## Restriction and acceptance -/

theorem AllVars.accepts_congr (hwf : s.WellFormed) {P : Variable → Prop}
    (hagree : ∀ var, P var → v.AgreeOn v' var) (hvalid : s.Valid i)
    (hvars : AllVars s P i) : Accepts s v i ↔ Accepts s v' i := by
  induction i, hvalid using Valid.induct hwf with
  | true => simp
  | false => simp
  | @step id node hnode ih =>
      obtain ⟨hvar, hchildren⟩ := hvars.cases_node hnode
      cases harbitrary : node.var.isArbitrary with
      | true =>
          exact iff_of_false (not_accepts_of_isArbitrary hnode harbitrary)
            (not_accepts_of_isArbitrary hnode harbitrary)
      | false =>
          obtain ⟨child, hpick⟩ := v.exists_picks (hwf.fits hnode)
          rw [accepts_iff_child hwf hnode harbitrary hpick,
            accepts_iff_child hwf hnode harbitrary ((hagree _ hvar _ _).mp hpick)]
          exact ih child hpick.mem id (hwf.valid_step hnode hpick.mem)
            ((hchildren child hpick.mem).negate id)

/-- Only the extras that the marker tests decide how it evaluates. -/
theorem AllVars.evaluate_extras_congr (hwf : s.WellFormed) {P : Variable → Prop}
    {env : MarkerEnvironment} {extras extras' : List Text}
    (hextra : ∀ name, P (.extra name) → extras.contains name = extras'.contains name)
    (hvalid : s.Valid i) (hvars : AllVars s P i) :
    s.evaluate env (.extras extras) i = s.evaluate env (.extras extras') i := by
  rw [Bool.eq_iff_iff, evaluate_iff_accepts hwf hvalid, evaluate_iff_accepts hwf hvalid]
  refine hvars.accepts_congr hwf (fun var hvar => ?_) hvalid
  intro edges child
  cases var with
  | extra name =>
      have htruth : (env.valuation (.extras extras)).bool (.extra name) =
          (env.valuation (.extras extras')).bool (.extra name) := hextra name hvar
      unfold Valuation.Picks
      cases edges <;> simp [Variable.domain, htruth]
  | list pair => cases pair <;> cases edges <;> rfl
  | _ => cases edges <;> rfl

/-- What restricting extras promises about every marker. -/
structure Substituted (f : Variable → Option Bool) (s : Interner) (i r : NodeId) :
    Prop where
  restricted : Restricted f s i r
  accepts_iff : ∀ v, Accepts s v r ↔ Accepts s (v.override f) i
  same : AllVars s (f · = none) i → r = i

theorem rebuilds_substituted (f : Variable → Option Bool) :
    Rebuilds below (fun _ => False) (Substituted f) where
  stable x r s s' hsound hsound' hle hsubstituted := by
    have hwf := hsound.wellFormed
    have hwf' := hsound'.wellFormed
    have hrestricted := hsubstituted.restricted
    refine ⟨(rebuilds_restricted f).stable x r hsound hsound' hle hrestricted, fun v => ?_,
      fun hfree => hsubstituted.same (hfree.of_mono hwf hle hrestricted.source)⟩
    rw [accepts_mono hwf hwf' hle hrestricted.valid,
      accepts_mono hwf hwf' hle hrestricted.source]
    exact hsubstituted.accepts_iff v
  valid hsubstituted := hsubstituted.restricted.valid
  allVars hsubstituted _ hvars := hsubstituted.restricted.vars _ hvars

/-- No extra is restricted below a list name. -/
theorem Sound.allVars_free (hsound : Sound Variable.Below s) {node : Node}
    {f : Variable → Option Bool} (hf : ∀ var, isExtraVariable var = false → f var = none)
    (hnode : s.node i = some node) (harbitrary : node.var.isArbitrary = true) :
    AllVars s (f · = none) i := by
  have hlist : ∀ var, isExtraVariable var = true → ¬ Variable.Below node.var var := by
    intro var hextra hbelow
    cases var <;> simp only [isExtraVariable, Bool.false_eq_true] at hextra
    rcases hbelow with hlt | heq
    · rw [← Variable.cmp_eq_lt] at hlt
      cases hvar : node.var <;> rw [hvar] at harbitrary hlt
      case list pair => cases pair <;> cases hlt
      all_goals cases harbitrary
    · cases heq
  refine .node hnode (hf _ ?_) fun child hchild =>
    (hsound.allVars_child hnode hchild).imp fun var hbelow => hf var ?_
  · cases hvar : node.var <;> rw [hvar] at harbitrary <;> first | rfl | cases harbitrary
  · by_contra hextra
    exact hlist var (Bool.not_eq_false _ ▸ hextra) hbelow

theorem restrict_substitutes {f : Variable → Option Bool}
    (hf : ∀ var, isExtraVariable var = false → f var = none) {fuel : ℕ}
    (hsound : Sound Variable.Below s) (hvalid : s.Valid i) (hfuel : i.rank < fuel) :
    Ensures (Sound Variable.Below) (restrict f fuel i) s (Substituted f · i) := by
  induction fuel generalizing s i with
  | zero => omega
  | succ fuel ih =>
      have hwf := hsound.wellFormed
      suffices hrest : Ensures (Sound Variable.Below) (restrict f (fuel + 1) i) s fun s' r =>
          (∀ v, Accepts s' v r ↔ Accepts s' (v.override f) i) ∧
            (AllVars s' (f · = none) i → r = i) from
        ((restrict_ensures hsound hvalid hfuel).and hrest).weaken
          fun _ _ _ _ hboth => ⟨hboth.1, hboth.2.1, hboth.2.2⟩
      unfold restrict
      rcases hvalid.cases with rfl | rfl | ⟨node, hnode⟩
      · exact Ensures.pure hsound ⟨by simp, fun _ => rfl⟩
      · exact Ensures.pure hsound ⟨by simp, fun _ => rfl⟩
      rw [isTrue_of_node hnode, isFalse_of_node hnode]
      refine readNode_bind hnode ?_
      split
      · rename_i high low value hchildren hvalue
        have harbitrary : node.var.isArbitrary = false := by
          by_contra harbitrary
          have hfree := (hsound.allVars_free hf hnode (by simpa using harbitrary)).cases_node
            hnode
          rw [hfree.1] at hvalue
          cases hvalue
        have hpick := hwf.picks_override hnode hchildren hvalue
        have hmem := mem_nodes_boolean hchildren value
        have hrank := hwf.rank_step hnode hmem
        refine (ih hsound (hwf.valid_step hnode hmem) (by omega)).weaken
          fun r s' hsound' hle hsubstituted => ⟨fun v => ?_, fun hfree => ?_⟩
        · rw [hsubstituted.accepts_iff]
          exact (accepts_iff_child hsound'.wellFormed (node_mono hle hnode) harbitrary
            (hpick v)).symm
        · have hnone := (hfree.cases_node (node_mono hle hnode)).1
          rw [hnone] at hvalue
          cases hvalue
      · rename_i hfree
        have hunrestricted := hwf.free_of_not_boolean hnode hfree
        refine ((rebuilds_substituted f).rebuild_ensures hsound hnode
          (fun _ hfalse => hfalse.elim) fun s' hle hsound' child hchild => ?_).weaken
            fun r s' hsound' hle ⟨hvalidR, children, hrep, hfits, hmapped⟩ => ?_
        · refine ih hsound' ((hwf.valid_step hnode hchild).mono hle) ?_
          have hrank := hwf.rank_step hnode hchild
          omega
        have hwf' := hsound'.wellFormed
        have hnode' := node_mono hle hnode
        have hsame : AllVars s' (f · = none) i → r = i := by
          intro hfree
          have hmapped' : Edges.Mapped (fun child r => r = child.negate i) node.children
              children := hmapped.imp_mem fun child hchild child' hsubstituted =>
            hsubstituted.same (((hfree.cases_node hnode').2 child hchild).negate i)
          rw [Edges.eq_of_mapped_negate hmapped'] at hrep
          exact hrep.eq_of_same hwf' hnode'
        refine ⟨fun v => ?_, hsame⟩
        cases harbitrary : node.var.isArbitrary with
        | true =>
            rw [hsame (hsound'.allVars_free hf hnode' harbitrary)]
            exact iff_of_false (not_accepts_of_isArbitrary hnode' harbitrary)
              (not_accepts_of_isArbitrary hnode' harbitrary)
        | false =>
            obtain ⟨child', hpick'⟩ := v.exists_picks hfits
            obtain ⟨child, hpick, hsubstituted⟩ := hmapped.picks hpick'
            rw [hrep.accepts_iff hwf' harbitrary hpick', hsubstituted.accepts_iff,
              accepts_iff_child hwf' hnode' harbitrary
                ((Valuation.picks_override hunrestricted).mpr hpick)]

/-! ## Active extras -/

/-- The extras that markers of the table refer to. -/
def extraNames (s : Interner) : List Text :=
  s.nodes.filterMap fun node =>
    match node.var with
    | .extra name => some name
    | _ => none

theorem contains_filter_extraNames {isActive : Text → Bool} {name : Text}
    (hname : .extra name ∈ s.nodes.map Node.var) :
    (s.extraNames.filter isActive).contains name = isActive name := by
  have hmem : name ∈ s.extraNames := by
    obtain ⟨node, hnode, hvar⟩ := List.mem_map.mp hname
    exact List.mem_filterMap.mpr ⟨node, hnode, by rw [hvar]⟩
  rw [Bool.eq_iff_iff, List.contains_iff_mem, List.mem_filter]
  exact and_iff_right hmem

/-- The marker cannot tell the list of extras from the predicate. -/
def Lists (s : Interner) (i : NodeId) (isActive : Text → Bool) (extras : List Text) : Prop :=
  AllVars s (fun var => ∀ name, var = .extra name → extras.contains name = isActive name) i

/-- Every predicate can be listed for a marker. -/
theorem exists_lists (hwf : s.WellFormed) (hvalid : s.Valid i) (isActive : Text → Bool) :
    ∃ extras, Lists s i isActive extras := by
  refine ⟨s.extraNames.filter isActive, (allVars_nodes hwf hvalid).imp ?_⟩
  rintro var hvar name rfl
  exact contains_filter_extraNames hvar

theorem Substituted.evaluate {f : Variable → Option Bool} {extras united : List Text}
    {isActive : Text → Bool} {env : MarkerEnvironment} (hwf : s.WellFormed)
    (hf : ∀ var, isExtraVariable var = false → f var = none)
    (hactive : ∀ name, isActive name = (f (.extra name)).getD (extras.contains name))
    (hunited : Lists s i isActive united) (hsubstituted : Substituted f s i r) :
    s.evaluate env (.extras extras) r = s.evaluate env (.extras united) i := by
  have hrestricted := hsubstituted.restricted
  rw [Bool.eq_iff_iff, evaluate_iff_accepts hwf hrestricted.valid,
    evaluate_iff_accepts hwf hrestricted.source, hsubstituted.accepts_iff]
  refine hunited.accepts_congr hwf (fun var hvar edges child => ?_) hrestricted.source
  have hbool : ((env.valuation (.extras extras)).override f).bool var =
      (env.valuation (.extras united)).bool var := by
    simp only [Valuation.override, MarkerEnvironment.valuation]
    cases var with
    | extra name => exact (hactive name).symm.trans (hvar name rfl).symm
    | list pair =>
        rw [hf _ rfl]
        cases pair <;> rfl
    | _ =>
        rw [hf _ rfl]
        rfl
  unfold Valuation.Picks
  cases var.domain with
  | boolean => cases edges <;> simp only [hbool]
  | _ => cases edges <;> rfl

section Reachable

variable [RangeOps ValidVersion] [RangeOps Text]

/-- Simplifying a marker by extras that are provided, or absent, evaluates it with
these extras added to the active ones, or taken from them. -/
theorem Reachable.evaluate_simplifyExtras (hreach : Reachable s) (hvalid : s.Valid i)
    (isExtra : Text → Bool) (env : MarkerEnvironment) (extras : List Text) :
    (∃ r s', (simplifyExtrasWith isExtra i).run s = some (r, s') ∧
      (∃ united, Lists s i (fun name => extras.contains name || isExtra name) united) ∧
      ∀ united, Lists s i (fun name => extras.contains name || isExtra name) united →
        s'.evaluate env (.extras extras) r = s.evaluate env (.extras united) i) ∧
    ∃ r s', (simplifyNotExtrasWith isExtra i).run s = some (r, s') ∧
      (∃ rest, Lists s i (fun name => extras.contains name && !isExtra name) rest) ∧
      ∀ rest, Lists s i (fun name => extras.contains name && !isExtra name) rest →
        s'.evaluate env (.extras extras) r = s.evaluate env (.extras rest) i := by
  have hsound := hreach.sound
  have hwf := hsound.wellFormed
  have hrestrict : ∀ (f : Variable → Option Bool) (isActive : Text → Bool),
      (∀ var, isExtraVariable var = false → f var = none) →
      (∀ name, isActive name = (f (.extra name)).getD (extras.contains name)) →
      ∃ r s', (restrict f (i.rank + 1) i).run s = some (r, s') ∧
        (∃ active, Lists s i isActive active) ∧ ∀ active, Lists s i isActive active →
          s'.evaluate env (.extras extras) r = s.evaluate env (.extras active) i := by
    intro f isActive hf hactive
    obtain ⟨r, s', hrun, hsound', hle, hsubstituted⟩ :=
      restrict_substitutes hf hsound hvalid (Nat.lt_succ_self _)
    refine ⟨r, s', hrun, exists_lists hwf hvalid isActive, fun active hactive' => ?_⟩
    rw [hsubstituted.evaluate hsound'.wellFormed hf hactive (hactive'.mono hle),
      evaluate_mono hwf hsound'.wellFormed hle hvalid]
  refine ⟨hrestrict _ _ (fun var hvar => ?_) fun name => ?_,
    hrestrict _ _ (fun var hvar => ?_) fun name => ?_⟩
  · cases var <;> first | rfl | cases hvar
  · cases hextra : isExtra name <;> simp [hextra]
  · cases var <;> first | rfl | cases hvar
  · cases hextra : isExtra name <;> simp [hextra]

end Reachable

/-- After `extra == 'test'`. -/
theorem exists_reachable_extra : ∃ s, Reachable s ∧ s.Valid (.new 0 false) := by
  have hrun : ((performAll [.expression (.extra (.extra "test".toList) .equal)]
      Interner.default).map fun s => decide (s.Valid (.new 0 false))) = some true := by
    decide +kernel
  obtain ⟨s, hperform, hvalid⟩ := Option.map_eq_some_iff.mp hrun
  exact ⟨s, Reachable.default.performAll hperform, of_decide_eq_true hvalid⟩

theorem Reachable.evaluate_simplifyExtras_test : ∃ (s : Interner) (r : NodeId) (s' : Interner),
    (simplifyExtrasWith (· == "test".toList) (.new 0 false)).run s = some (r, s') ∧
      s'.evaluate linuxEnvironment (.extras []) r =
        s.evaluate linuxEnvironment (.extras ["test".toList]) (.new 0 false) := by
  obtain ⟨s, hreach, hvalid⟩ := exists_reachable_extra
  obtain ⟨⟨r, s', hrun, -, hevaluate⟩, -⟩ :=
    hreach.evaluate_simplifyExtras hvalid (· == "test".toList) linuxEnvironment []
  refine ⟨s, r, s', hrun, hevaluate _ ?_⟩
  refine (allVars_nodes hreach.sound.wellFormed hvalid).imp fun _ _ name _ => ?_
  simp [Bool.beq_eq_decide_eq]

end Interner

end Uv.Pep508
