import Uv.Pep508.Memoized

/-!
# Disjointness agrees with conjunction

`disjointness` visits the pairs of nodes that the conjunction is made of, so it finds two
diagrams disjoint exactly if their conjunction is `false`.  Roots that are both about
conflicting variables are left out: their conjunction may be `false` because it is
excluded, which is what `is_disjoint` computes the conjunction for.
-/

namespace Uv.Pep508

open Uv.Core Uv.Pep440

/-! ## Conflicting variables -/

/-- Conflicting variables come first in the order. -/
theorem Variable.isConflicting_of_lt {var other : Variable} (hlt : var < other)
    (hother : other.isConflictingVariable = true) : var.isConflictingVariable = true := by
  rw [lt_iff, key, key, Prod.Lex.toLex_lt_toLex, Prod.Lex.toLex_lt_toLex] at hlt
  cases other with
  | string name =>
      have hname : name.rank ≤ 2 := of_decide_eq_true hother
      cases var with
      | string name' =>
          have hrank : name'.rank ≤ name.rank := by
            simp only [fields, lt_self_iff_false, false_or, true_and] at hlt
            rcases hlt with hlt | ⟨heq, -⟩
            · exact hlt.le
            · exact heq.le
          exact decide_eq_true (hrank.trans hname)
      | list pair => cases pair <;> simp [fields] at hlt
      | _ => simp [fields] at hlt
  | _ => cases hother

theorem NodeId.not_ne (id : NodeId) : id.not ≠ id := by
  intro hsame
  have hcomplement := NodeId.isComplement_not id
  rw [hsame] at hcomplement
  exact Bool.not_ne_self _ hcomplement.symm

namespace Interner

variable {s s' : Interner} {x y r xi yi : NodeId} {xNode yNode : Node}

/-- The roots are not both about conflicting variables. -/
def Split (s : Interner) (xi yi : NodeId) : Prop :=
  ∀ xNode yNode, s.node xi = some xNode → s.node yi = some yNode →
    (xNode.var.isConflictingVariable && yNode.var.isConflictingVariable) = false

theorem Split.mono (hle : s ≤ s') (hsplit : Split s' xi yi) : Split s xi yi :=
  fun xNode yNode hx hy => hsplit xNode yNode (node_mono hle hx) (node_mono hle hy)

/-- The children of a node whose variable does not conflict do not conflict either. -/
theorem isConflicting_child (hsound : Sound Variable.Below s) {node childNode : Node}
    (hnode : s.node xi = some node) {child : NodeId} (hchild : child ∈ node.children.nodes)
    (hvar : node.var.isConflictingVariable = false)
    (hchildNode : s.node (child.negate xi) = some childNode) :
    childNode.var.isConflictingVariable = false := by
  have hbelow := (((hsound.allVars_child hnode hchild).negate xi).cases_node hchildNode).1
  rcases hbelow with hlt | hpython
  · rw [Bool.eq_false_iff] at hvar ⊢
    exact fun hconflicting => hvar (Variable.isConflicting_of_lt hlt hconflicting)
  · rw [hpython]
    rfl

/-- The pairs that such a pair is reduced to are of the same kind. -/
theorem Split.sub (hsound : Sound Variable.Below s) (hx : s.node xi = some xNode)
    (hy : s.node yi = some yNode) (hsplit : Split s xi yi) {xi' yi' : NodeId}
    (hsub : SubPair xi yi xNode yNode xi' yi') : Split s xi' yi' := by
  have hroots := hsplit xNode yNode hx hy
  intro left right hleft hright
  rw [Bool.and_eq_false_iff] at hroots ⊢
  cases hsub with
  | left hlt hchild =>
      -- The smaller variable conflicts if the larger one does.
      right
      rw [hy] at hright
      cases hright
      rw [Bool.eq_false_iff]
      intro hconflicting
      rw [Variable.isConflicting_of_lt hlt hconflicting, hconflicting] at hroots
      simp at hroots
  | right hlt hchild =>
      right
      rw [hx] at hright
      cases hright
      rw [Bool.eq_false_iff]
      intro hconflicting
      rw [Variable.isConflicting_of_lt hlt hconflicting, hconflicting] at hroots
      simp at hroots
  | both heq hpick _ =>
      left
      rw [← heq, or_self] at hroots
      exact isConflicting_child hsound hx hpick.mem hroots hleft

/-! ## Nodes made from children -/

/-- A node made from children is `false` if all of them are. -/
theorem Represents.eq_false_iff (hwf : WellFormed s) {var : Variable} {children : Edges}
    (hrep : Represents s var children r) (hnonempty : children.nodes ≠ []) :
    r = .FALSE ↔ ∀ child ∈ children.nodes, child = .FALSE := by
  rcases hrep with hsame | ⟨node, hnode, -, hbranches⟩
  · constructor
    · rintro rfl
      exact hsame
    · intro hall
      obtain ⟨child, hchild⟩ := List.exists_mem_of_ne_nil _ hnonempty
      exact (hsame child hchild).symm.trans (hall child hchild)
  · constructor
    · rintro rfl
      cases isFalse_of_node hnode
    · intro hall
      -- All children would be the same terminal, but the node is reduced.
      obtain ⟨left, hleft, right, hright, hne⟩ := hwf.reduced hnode
      rw [Edges.nodes_eq_of_branches_eq hbranches] at hleft hright
      have hterminal : ∀ child ∈ (if r.isComplement = true then children.not
          else children).nodes, child = if r.isComplement = true then .TRUE else .FALSE := by
        intro child hchild
        split at hchild
        · rename_i hcomplement
          rw [Edges.nodes_not] at hchild
          obtain ⟨source, hsource, rfl⟩ := List.mem_map.mp hchild
          rw [hall source hsource, if_pos hcomplement]
          rfl
        · rename_i hplain
          rw [hall child hchild, if_neg hplain]
      exact absurd ((hterminal left hleft).trans (hterminal right hright).symm) hne

/-! ## What `disjointness` finds -/

/-- A pair of opposites is reduced to pairs of opposites. -/
theorem SubPair.opposite (hwf : WellFormed s) (hx : s.node xi = some xNode)
    {xi' yi' : NodeId} (hsub : SubPair xi xi.not xNode xNode xi' yi') : yi' = xi'.not := by
  cases hsub with
  | left hlt => exact absurd hlt (lt_irrefl _)
  | right hlt => exact absurd hlt (lt_irrefl _)
  | both _ hleft hright =>
      rw [Valuation.picks_unique (hwf.fits hx) hleft hright, NodeId.negate_not_parent]

variable [RangeOps ValidVersion] [RangeOps Text]

theorem disjointness_self (fuel : ℕ) :
    disjointness s (fuel + 1) xi xi = some xi.isFalse := by
  rw [disjointness, Bool.or_self, Bool.or_self]
  cases hfalse : xi.isFalse with
  | true => rfl
  | false => simp

theorem disjointness_true_left (fuel : ℕ) :
    disjointness s (fuel + 1) .TRUE yi = some yi.isFalse := by
  rw [disjointness]
  cases yi.isFalse <;> rfl

theorem disjointness_true_right (fuel : ℕ) :
    disjointness s (fuel + 1) xi .TRUE = some xi.isFalse := by
  have htrue : (xi.isTrue || NodeId.TRUE.isTrue) = true := Bool.or_true _
  rw [disjointness, if_pos htrue]
  cases xi.isFalse <;> rfl

theorem disjointness_false_right (fuel : ℕ) :
    disjointness s (fuel + 1) xi .FALSE = some true := by
  have hfalse : (xi.isFalse || NodeId.FALSE.isFalse) = true := Bool.or_true _
  rw [disjointness, if_pos hfalse]

theorem disjointness_not (fuel : ℕ) : disjointness s (fuel + 1) xi xi.not = some true := by
  by_cases hfalse : (xi.isFalse || xi.not.isFalse) = true
  · rw [disjointness, if_pos hfalse]
  have htrue : ¬ (xi.isTrue || xi.not.isTrue) = true := by
    simp only [Bool.or_eq_true, not_or, NodeId.isTrue_iff, NodeId.isFalse_iff] at hfalse ⊢
    constructor
    · rintro rfl
      exact hfalse.2 rfl
    · intro hnot
      apply hfalse.1
      rw [← NodeId.not_not xi, hnot]
      rfl
  rw [disjointness, if_neg hfalse, if_neg htrue, if_neg (NodeId.not_ne xi).symm, if_pos rfl]

/-- New nodes make no difference. -/
theorem disjointness_mono (hwf : WellFormed s) (hwf' : WellFormed s') (hle : s ≤ s')
    (hxValid : s.Valid xi) (hyValid : s.Valid yi) {fuel : ℕ}
    (hfuel : xi.rank + yi.rank < fuel) :
    disjointness s' fuel xi yi = disjointness s fuel xi yi := by
  induction fuel generalizing xi yi with
  | zero => omega
  | succ fuel ih =>
      by_cases hfalse : (xi.isFalse || yi.isFalse) = true
      · rw [disjointness, disjointness, if_pos hfalse, if_pos hfalse]
      by_cases htrue : (xi.isTrue || yi.isTrue) = true
      · rw [disjointness, disjointness, if_neg hfalse, if_neg hfalse, if_pos htrue,
          if_pos htrue]
      by_cases hsame : xi = yi
      · rw [hsame, disjointness_self, disjointness_self]
      by_cases hopposite : xi.not = yi
      · rw [← hopposite, disjointness_not, disjointness_not]
      obtain ⟨x, y, hx, hy⟩ := exists_nodes hxValid hyValid htrue hfalse
      have hpair : ∀ xi' yi', SubPair xi yi x y xi' yi' →
          disjointness s' fuel xi' yi' = disjointness s fuel xi' yi' ∧
            ∃ answer, disjointness s fuel xi' yi' = some answer := by
        intro xi' yi' hsub
        obtain ⟨hvalid, hvalid'⟩ := hsub.valid hwf hx hy
        have hrank := hsub.rank_lt hwf hx hy
        have hlt : xi'.rank + yi'.rank < fuel := by omega
        exact ⟨ih hvalid hvalid' hlt,
          (disjointness_sound hwf hvalid hvalid' hlt).imp fun _ h => h.1⟩
      obtain ⟨answer, hanswer, hiff⟩ := disjointness_step hwf hx hy hsame hopposite
        fun xi' yi' hsub => (hpair xi' yi' hsub).2
      obtain ⟨answer', hanswer', hiff'⟩ := disjointness_step hwf' (node_mono hle hx)
        (node_mono hle hy) hsame hopposite fun xi' yi' hsub => by
          rw [(hpair xi' yi' hsub).1]
          exact (hpair xi' yi' hsub).2
      have hboth : answer' = true ↔ answer = true := by
        rw [hiff, hiff']
        apply forall₃_congr
        intro xi' yi' hsub
        rw [(hpair xi' yi' hsub).1]
      rw [hanswer, hanswer', Bool.eq_iff_iff.mpr hboth]

/-! ## The promise -/

/-- Markers with this conjunction are found disjoint if it is `false`. -/
def Agrees (s : Interner) (xi yi r : NodeId) : Prop :=
  Split s xi yi → ∀ fuel, xi.rank + yi.rank < fuel →
    disjointness s fuel xi yi = some r.isFalse

/-- A promise about every positive amount of fuel. -/
theorem Agrees.of_succ
    (hanswer : ∀ fuel, disjointness s (fuel + 1) xi yi = some r.isFalse) :
    Agrees s xi yi r := by
  intro _ fuel hfuel
  obtain ⟨fuel, rfl⟩ := Nat.exists_eq_succ_of_ne_zero (Nat.ne_zero_of_lt hfuel)
  exact hanswer fuel

theorem Agrees.mono (hwf : WellFormed s) (hwf' : WellFormed s') (hle : s ≤ s')
    (hx : s.Valid xi) (hy : s.Valid yi) (hagrees : Agrees s xi yi r) :
    Agrees s' xi yi r := by
  intro hsplit fuel hfuel
  rw [disjointness_mono hwf hwf' hle hx hy hfuel]
  exact hagrees (hsplit.mono hle) fuel hfuel

/-- A node whose children agree with the pairs agrees with the pair they come from. -/
theorem Agrees.of_children (hsound : Sound Variable.Below s) (hx : s.node xi = some xNode)
    (hy : s.node yi = some yNode) {var : Variable} {children : Edges}
    (hexpanded : Expanded (Agrees s) xi yi xNode yNode var children)
    (hr : r = .FALSE ↔ ∀ child ∈ children.nodes, child = .FALSE) : Agrees s xi yi r := by
  intro hsplit fuel hfuel
  obtain ⟨fuel, rfl⟩ := Nat.exists_eq_succ_of_ne_zero (Nat.ne_zero_of_lt hfuel)
  have hwf := hsound.wellFormed
  have hrank : ∀ {xi' yi'}, SubPair xi yi xNode yNode xi' yi' →
      xi'.rank + yi'.rank < fuel := by
    intro xi' yi' hsub
    have hlt := hsub.rank_lt hwf hx hy
    omega
  have hiff : r.isFalse = true ↔ ∀ xi' yi', SubPair xi yi xNode yNode xi' yi' →
      disjointness s fuel xi' yi' = some true := by
    rw [NodeId.isFalse_iff, hr]
    constructor
    · intro hall xi' yi' hsub
      obtain ⟨child, hchild, hagrees⟩ := hexpanded.exists_child hwf hx hy hsub
      rw [hagrees (hsplit.sub hsound hx hy hsub) fuel (hrank hsub), hall child hchild]
      rfl
    · intro hall child hchild
      obtain ⟨xi', yi', hsub, hagrees⟩ := hexpanded.exists_subPair hchild
      have hanswer := hall xi' yi' hsub
      rw [hagrees (hsplit.sub hsound hx hy hsub) fuel (hrank hsub)] at hanswer
      exact NodeId.isFalse_iff.mp (Option.some.inj hanswer)
  by_cases hsame : xi = yi
  · -- The children of a node are not all `false`, as it is reduced.
    subst hsame
    rw [hx] at hy
    cases hy
    rw [disjointness_self, isFalse_of_node hx, eq_comm, Option.some.injEq,
      Bool.eq_false_iff, Ne, hiff]
    intro hall
    obtain ⟨left, hleft, right, hright, hchildren⟩ := hwf.reduced hx
    have hfalse : ∀ child ∈ xNode.children.nodes, child.negate xi = .FALSE := by
      intro child hchild
      obtain ⟨v, hpick⟩ := exists_picks_of_mem (hwf.fits hx) hchild
      have hsub : SubPair xi xi xNode xNode (child.negate xi) (child.negate xi) :=
        .both rfl hpick hpick
      have hanswer := hall _ _ hsub
      obtain ⟨fuel', rfl⟩ := Nat.exists_eq_succ_of_ne_zero (Nat.ne_zero_of_lt (hrank hsub))
      rw [Nat.succ_eq_add_one, disjointness_self] at hanswer
      exact NodeId.isFalse_iff.mp (Option.some.inj hanswer)
    exact hchildren (NodeId.negate_injective xi
      ((hfalse left hleft).trans (hfalse right hright).symm))
  by_cases hopposite : xi.not = yi
  · subst hopposite
    rw [node_not, hx] at hy
    cases hy
    rw [disjointness_not, eq_comm, Option.some.injEq, hiff]
    intro xi' yi' hsub
    obtain ⟨fuel', rfl⟩ := Nat.exists_eq_succ_of_ne_zero (Nat.ne_zero_of_lt (hrank hsub))
    rw [hsub.opposite hwf hx, Nat.succ_eq_add_one, disjointness_not]
  obtain ⟨answer, hanswer, hanswerIff⟩ := disjointness_step hwf hx hy hsame hopposite
    fun xi' yi' hsub => (disjointness_sound hwf (hsub.valid hwf hx hy).1
      (hsub.valid hwf hx hy).2 (hrank hsub)).imp fun _ h => h.1
  rw [hanswer, Bool.eq_iff_iff.mpr (hanswerIff.trans hiff.symm)]

theorem promise_agrees : Promise Variable.Below Agrees where
  mono hwf hwf' hle hconj hagrees := hagrees.mono hwf hwf' hle hconj.left hconj.right
  left_true _ _ := .of_succ disjointness_true_left
  right_true _ _ := .of_succ disjointness_true_right
  same _ _ := .of_succ disjointness_self
  left_false _ _ := .of_succ fun _ => rfl
  right_false _ _ := .of_succ disjointness_false_right
  opposite _ _ := .of_succ disjointness_not
  create hsound hx hy hexpanded hrep := by
    have hwf := hsound.wellFormed
    have hfits := hexpanded.fits hwf hx hy
    exact .of_children hsound hx hy (hexpanded.imp fun _ _ _ => And.right)
      (hrep.eq_false_iff hwf hfits.nodes_ne_nil)
  -- Only where both roots are about conflicting variables.
  excluded _ hx hy hboth _ _ hsplit := by
    have hneither := hsplit _ _ hx hy
    rw [hboth] at hneither
    cases hneither

/-- In every reachable state two markers are found disjoint exactly if their conjunction
is `false`. -/
theorem Reachable.isDisjoint_iff_and (hreach : Reachable s) (hx : s.Valid xi)
    (hy : s.Valid yi) :
    ∃ r s₁ answer s₂, (and xi yi).run s = some (r, s₁) ∧
      (isDisjoint xi yi).run s = some (answer, s₂) ∧ (answer = true ↔ r = .FALSE) := by
  have hinv := hreach.consistent promise_agrees
  have hwf := hinv.1.wellFormed
  obtain ⟨r, s₁, hrun, hinv₁, hle, hconj, hagrees⟩ :=
    promise_agrees.and_ensures hinv hx hy
  by_cases hsplit : Split s xi yi
  · have hsplit₁ : Split s₁ xi yi := by
      intro xNode yNode hxNode hyNode
      have hback : ∀ {id node}, s.Valid id → s₁.node id = some node →
          s.node id = some node := by
        intro id node hvalid hnode
        rcases hvalid.cases with rfl | rfl | ⟨known, hknown⟩
        · cases isTrue_of_node hnode
        · cases isFalse_of_node hnode
        · rw [← hnode, node_mono hle hknown, hknown]
      exact hsplit xNode yNode (hback hx hxNode) (hback hy hyNode)
    have hanswer := hagrees hsplit₁ _ (Nat.lt_succ_self _)
    rw [disjointness_mono hwf hinv₁.1.wellFormed hle hx hy (Nat.lt_succ_self _)] at hanswer
    obtain ⟨answer, s₂, hdisjoint, -, -, hfound, -⟩ :=
      isDisjoint_of_not_conflicting hinv.1 hx hy hsplit hanswer
    exact ⟨r, s₁, answer, s₂, hrun, hdisjoint, hfound ▸ NodeId.isFalse_iff⟩
  · -- Roots that are both about conflicting variables are no terminals.
    simp only [Split, not_forall, Bool.not_eq_false] at hsplit
    obtain ⟨x, y, hxNode, hyNode, hboth⟩ := hsplit
    have hfalse : ¬ (xi.isFalse || yi.isFalse) = true := by
      simp [isFalse_of_node hxNode, isFalse_of_node hyNode]
    have htrue : ¬ (xi.isTrue || yi.isTrue) = true := by
      simp [isTrue_of_node hxNode, isTrue_of_node hyNode]
    have hshort := hrun
    rw [Pep508.and, combine, if_neg (by simp [isTrue_of_node hxNode]),
      if_neg (by simp [isTrue_of_node hyNode])] at hshort
    by_cases hsame : xi = yi
    · rw [if_pos hsame] at hshort
      cases hshort
      refine ⟨_, _, false, s, hrun, ?_, ?_⟩
      · rw [isDisjoint, if_neg hfalse, if_neg htrue, if_pos hsame]
        rfl
      · rw [← NodeId.isFalse_iff, isFalse_of_node hxNode]
    by_cases hopposite : xi.not = yi
    · rw [if_neg hsame, if_neg hfalse, if_pos hopposite] at hshort
      cases hshort
      refine ⟨_, _, true, s, hrun, ?_, by simp⟩
      rw [isDisjoint, if_neg hfalse, if_neg htrue, if_neg hsame, if_pos hopposite]
      rfl
    · refine ⟨r, s₁, r.isFalse, s₁, hrun, ?_, NodeId.isFalse_iff⟩
      rw [isDisjoint, if_neg hfalse, if_neg htrue, if_neg hsame, if_neg hopposite,
        run_readNode_bind hxNode, run_readNode_bind hyNode, if_pos hboth, StateT.run_bind, hrun]
      rfl

end Interner

open Interner in
/-- `os_name == 'nt'` and `sys_platform == 'linux'` in a new interner. -/
theorem Interner.Reachable.isDisjoint_iff_and_ntOnLinux :
    ∃ r s₁ answer s₂,
      (and (.new 0 true) (.new 1 true)).run (equalsTable "nt" "linux") = some (r, s₁) ∧
      (isDisjoint (.new 0 true) (.new 1 true)).run (equalsTable "nt" "linux") =
        some (answer, s₂) ∧ (answer = true ↔ r = .FALSE) := by
  have hntRun : (equals .osName "nt").run Interner.default =
      some (.new 0 true, ⟨[equalsNode .osName "nt"], [], none⟩) := rfl
  have hlinuxRun : (equals .sysPlatform "linux").run ⟨[equalsNode .osName "nt"], [], none⟩ =
      some (.new 1 true, equalsTable "nt" "linux") := rfl
  have hnt : Reachable ⟨[equalsNode .osName "nt"], [], none⟩ :=
    .step (.expression (.string .osName .equal "nt".toList)) .default
      (by simp [Operation.arguments]) (run_map_some hntRun)
  have hreach : Reachable (equalsTable "nt" "linux") :=
    .step (.expression (.string .sysPlatform .equal "linux".toList)) hnt
      (by simp [Operation.arguments]) (run_map_some hlinuxRun)
  exact hreach.isDisjoint_iff_and (by decide) (by decide)

end Uv.Pep508
