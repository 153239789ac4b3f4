import Uv.Pep508.CollectDnf
import Uv.Pep508.Formula

/-!
# The terms of the clauses

The terms along a path are about the variables of its nodes, and simplifying makes up no
terms.  So the clauses of a marker without malformed list names have none either.
-/

namespace Uv.Pep508

open Uv.Core Uv.Pep440

/-- All terms of all clauses satisfy the predicate. -/
def AllTerms (P : MarkerExpression → Prop) (dnf : List Clause) : Prop :=
  ∀ clause ∈ dnf, ∀ term ∈ clause, P term

theorem allTerms_singleton {P : MarkerExpression → Prop} {clause : Clause} :
    AllTerms P [clause] ↔ ∀ term ∈ clause, P term :=
  List.forall_mem_singleton

namespace AllTerms

variable {P : MarkerExpression → Prop} {dnf : List Clause}

theorem eliminateTerms (hdnf : AllTerms P dnf) (count : ℕ) :
    AllTerms P (eliminateTerms dnf count) := by
  induction count with
  | zero => exact hdnf
  | succ i ih =>
      intro clause hclause term hterm
      rw [Pep508.eliminateTerms] at hclause
      obtain ⟨k, hk, rfl⟩ := List.mem_iff_getElem.mp hclause
      have hold := ih _ (List.getElem_mem (by simpa using hk))
      rw [List.getElem_modify] at hterm
      split at hterm
      · exact hold term ((foldl_eraseIdx_sublist _ _).subset hterm)
      · exact hold term hterm

theorem simplify (hdnf : AllTerms P dnf) : AllTerms P (simplify dnf) :=
  fun clause hclause => hdnf.eliminateTerms dnf.length clause
    ((foldl_eraseIdx_sublist _ _).subset hclause)

theorem sortDnf (hdnf : AllTerms P dnf) : AllTerms P (sortDnf dnf) := by
  intro clause hclause term hterm
  obtain ⟨clause', hclause', rfl⟩ := List.mem_map.mp (List.mem_mergeSort.mp hclause)
  exact hdnf clause' hclause' term (List.mem_mergeSort.mp hterm)

end AllTerms

/-! ## What the clauses mean -/

/-- All terms of some clause hold. -/
def ClausesHold (holds : MarkerExpression → Prop) (dnf : List Clause) : Prop :=
  ∃ clause ∈ dnf, ∀ term ∈ clause, holds term

theorem ClausesHold.congr {holds holds' : MarkerExpression → Prop} {dnf : List Clause}
    (hsame : AllTerms (fun term => holds term ↔ holds' term) dnf) :
    ClausesHold holds dnf ↔ ClausesHold holds' dnf :=
  exists_congr fun clause => and_congr_right fun hclause =>
    forall₂_congr fun term hterm => hsame clause hclause term hterm

theorem clausesHold_singleton {holds : MarkerExpression → Prop} {clause : Clause} :
    ClausesHold holds [clause] ↔ ∀ term ∈ clause, holds term := by
  simp [ClausesHold]

section Meaning

variable [RangeOps ValidVersion] [RangeOps Text]

/-- The value of an expression alone: a malformed list name makes it false, whichever its
operator is. -/
def MarkerExpression.IsTrue (v : Valuation) (expr : MarkerExpression) : Prop :=
  expr.isNamed = true ∧ expr.Holds v

/-- The clauses can be lowered again and are true where the marker is. -/
structure PreservesMeaning (s : Interner) (tree : NodeId) (dnf : List Clause) : Prop where
  lowered : AllTerms (fun term => (expressionEdges term).isSome = true) dnf
  evaluate_iff : ∀ (env : MarkerEnvironment) (names : List Text),
    s.evaluate env (.extras names) tree = true ↔
      ClausesHold (·.IsTrue (env.valuation (.extras names))) dnf

/-- The marker of an expression is one clause of one term. -/
theorem PreservesMeaning.of_literal {s : Interner} {tree : NodeId} (hwf : s.WellFormed)
    (htree : s.Named tree) {term : MarkerExpression}
    (hlowered : (expressionEdges term).isSome = true) (hnamed : term.isNamed = true)
    (hholds : ∀ v, s.Holds v tree ↔ term.Holds v) : PreservesMeaning s tree [[term]] := by
  refine ⟨allTerms_singleton.mpr (List.forall_mem_singleton.mpr hlowered), fun env names => ?_⟩
  rw [Interner.evaluate_iff_holds hwf htree.valid htree.wellNamed, hholds,
    clausesHold_singleton, List.forall_mem_singleton]
  exact (and_iff_right hnamed).symm

/-- Only extras tell apart valuations that agree on all other variables. -/
theorem MarkerExpression.holds_agreeOff {v v' : Valuation}
    (hagree : v.AgreeOff isExtraVariable v') {expr : MarkerExpression}
    (hother : ∀ name operator, expr ≠ .extra (.extra name) operator) :
    expr.Holds v ↔ expr.Holds v' := by
  unfold MarkerExpression.Holds
  cases hresult : expressionEdges expr with
  | none => rfl
  | some result =>
      cases result with
      | error node => rfl
      | ok described =>
          obtain ⟨var, edges⟩ := described
          have hvar : isExtraVariable var = false :=
            variable_expressionEdges (isExtraVariable · = false) hresult (fun _ => rfl)
              (fun _ => rfl) (fun _ _ => rfl) (fun _ _ => rfl) (fun _ _ _ => rfl)
              fun name operator hexpr => absurd hexpr (hother name operator)
          exact hagree.agreeOn hvar edges .TRUE

end Meaning

/-! ## Terms without malformed names -/

theorem isNamed_versionTerms {key : MarkerValueVersion} {range : Ranges ValidVersion}
    {alternatives : List Clause} (hterms : versionTerms key range = some alternatives) :
    AllTerms (·.isNamed = true) alternatives := by
  have hversions : ∀ specifiers : List VersionSpecifier,
      ∀ term ∈ specifiers.map (MarkerExpression.version key), term.isNamed = true := by
    intro specifiers term hterm
    obtain ⟨specifier, -, rfl⟩ := List.mem_map.mp hterm
    rfl
  intro clause hclause
  unfold versionTerms at hterms
  split at hterms
  · rename_i excluded _
    cases hterms
    rw [List.mem_singleton.mp hclause]
    simpa using hversions (excluded.map .notEqualsVersion)
  · rename_i specifier _ _
    cases hterms
    rw [List.mem_singleton.mp hclause]
    exact hversions [specifier]
  · obtain ⟨segment, -, hsome⟩ := exists_of_forall₂ (mapM_eq_some_iff.mp hterms).flip hclause
    obtain ⟨specifiers, -, rfl⟩ := Option.map_eq_some_iff.mp hsome
    exact hversions specifiers

theorem isNamed_stringTerms (key : MarkerValueString) (range : Ranges Text) :
    AllTerms (·.isNamed = true) (stringTerms key range) := by
  intro clause hclause term hterm
  unfold stringTerms at hclause
  split at hclause
  · rw [List.mem_singleton.mp hclause] at hterm
    obtain ⟨value, -, rfl⟩ := List.mem_map.mp hterm
    rfl
  · obtain ⟨segment, -, rfl⟩ := List.mem_map.mp hclause
    obtain ⟨bound, -, rfl⟩ := List.mem_map.mp hterm
    rfl

theorem isNamed_booleanTerm {var : Variable} {high : Bool} {term : MarkerExpression}
    (hterm : booleanTerm var high = some term) (hvar : var.isArbitrary = false) :
    term.isNamed = true := by
  cases var with
  | list pair =>
      cases hterm
      cases pair with
      | arbitrary key value => cases hvar
      | _ => rfl
  | version key => cases hterm
  | string key => cases hterm
  | _ =>
      cases hterm
      rfl

namespace Interner

variable [RangeOps ValidVersion] [RangeOps Text] {s : Interner} {tree : NodeId} {node : Node}

theorem isNamed_branchTerms {branches : List (NodeId × Clause)} {branch : NodeId × Clause}
    (hvar : node.var.isArbitrary = false) (hbranches : node.branchTerms tree = some branches)
    (hbranch : branch ∈ branches) : ∀ term ∈ branch.2, term.isNamed = true := by
  unfold Node.branchTerms at hbranches
  split at hbranches <;> simp only [Option.bind_eq_bind, Option.bind_eq_some_iff, Option.pure_def,
    Option.some.injEq, reduceCtorEq] at hbranches
  · obtain ⟨paths, -, all, hall, rfl⟩ := hbranches
    obtain ⟨reached, hreached, hmem⟩ := List.mem_flatten.mp hbranch
    obtain ⟨path, -, hsome⟩ := exists_of_forall₂ (mapM_eq_some_iff.mp hall).flip hreached
    obtain ⟨alternatives, halternatives, rfl⟩ := Option.map_eq_some_iff.mp hsome
    obtain ⟨terms, hterms, rfl⟩ := List.mem_map.mp hmem
    exact isNamed_versionTerms halternatives terms hterms
  · obtain ⟨paths, -, rfl⟩ := hbranches
    obtain ⟨path, -, hmem⟩ := List.mem_flatMap.mp hbranch
    obtain ⟨terms, hterms, rfl⟩ := List.mem_map.mp hmem
    exact isNamed_stringTerms _ path.2 terms hterms
  · obtain ⟨highTerm, hhigh, lowTerm, hlow, rfl⟩ := hbranches
    simp only [List.mem_cons, List.not_mem_nil, or_false] at hbranch
    intro term hterm
    rcases hbranch with rfl | rfl <;> rw [List.mem_singleton.mp hterm]
    · exact isNamed_booleanTerm hhigh hvar
    · exact isNamed_booleanTerm hlow hvar

theorem isNamed_collectDnf {fuel : ℕ} {path : Clause} {clauses : List Clause}
    (hnames : s.WellNamed tree) (hpath : ∀ term ∈ path, term.isNamed = true)
    (hclauses : collectDnf s fuel tree path = some clauses) :
    AllTerms (·.isNamed = true) clauses := by
  induction fuel generalizing tree path clauses with
  | zero => cases hclauses
  | succ fuel ih =>
      cases hnames with
      | true =>
          obtain rfl : (if path.isEmpty then [] else [path]) = clauses := Option.some.inj hclauses
          intro clause hclause
          split at hclause
          · cases hclause
          · rwa [List.mem_singleton.mp hclause]
      | false =>
          obtain rfl : [] = clauses := Option.some.inj hclauses
          exact fun clause hclause => by cases hclause
      | @node _ node hnode hvar hchildren =>
          simp only [collectDnf, isTrue_of_node hnode, isFalse_of_node hnode, hnode,
            Bool.false_eq_true, if_false, Option.bind_eq_bind, Option.bind_some,
            Option.bind_eq_some_iff, Option.pure_def, Option.some.injEq] at hclauses
          obtain ⟨branches, hbranches, all, hall, rfl⟩ := hclauses
          intro clause hclause
          obtain ⟨below, hbelow, hmem⟩ := List.mem_flatten.mp hclause
          obtain ⟨branch, hbranch, hsome⟩ :=
            exists_of_forall₂ (mapM_eq_some_iff.mp hall).flip hbelow
          obtain ⟨child, hchild, heq⟩ := exists_child_of_branchTerms hbranches hbranch
          refine ih (heq ▸ (hchildren child hchild).negate _) ?_ hsome clause hmem
          exact List.forall_mem_append.mpr ⟨hpath, isNamed_branchTerms hvar hbranches hbranch⟩

/-- The clauses of a marker without malformed list names have none either. -/
theorem isNamed_toDnf {dnf : List Clause} (hnames : s.WellNamed tree)
    (hdnf : toDnf s tree = some dnf) : AllTerms (·.isNamed = true) dnf := by
  obtain ⟨clauses, hclauses, rfl⟩ := Option.map_eq_some_iff.mp hdnf
  exact (isNamed_collectDnf hnames (by simp) hclauses).simplify.sortDnf

end Interner

end Uv.Pep508
