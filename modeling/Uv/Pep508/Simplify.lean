import Uv.Pep440.ReleaseOnlyBounds
import Uv.Pep508.Interner

/-!
# Disjunctive normal form

A diagram is a disjunction of its paths to `true`.  The clauses are collected in a
walk over the diagram, with equal children merged; redundant terms and redundant
clauses are removed afterwards.  `none` stands for a panic.
-/

namespace Uv.Pep508

open Uv.Core Uv.Pep440

abbrev Clause := List MarkerExpression

/-! ## Terms -/

/-- Equality of versions is that of their order. -/
def sameVersion (left right : ValidVersion) : Bool := compare left right == .eq

namespace MarkerExpression

/-- Derived equality. -/
def same : MarkerExpression → MarkerExpression → Bool
  | .version key specifier, .version key' specifier' =>
      decide (key = key') && decide (specifier.operator = specifier'.operator) &&
        sameVersion specifier.version specifier'.version
  | .versionIn key versions operator, .versionIn key' versions' operator' =>
      decide (key = key') && (versions.length == versions'.length &&
        (versions.zip versions').all fun (left, right) => sameVersion left right) &&
          decide (operator = operator')
  | left, right => decide (left = right)

/-- One expression is the negation of the other. -/
def isNegation : MarkerExpression → MarkerExpression → Bool
  | .version key specifier, .version key' specifier' =>
      decide (key = key') && sameVersion specifier.version specifier'.version &&
        decide (specifier.operator.negate = some specifier'.operator)
  | .versionIn key versions operator, .versionIn key' versions' operator' =>
      decide (key = key') && (versions.length == versions'.length &&
        (versions.zip versions').all fun (left, right) => sameVersion left right) &&
          decide (operator ≠ operator')
  | .string key operator value, .string key' operator' value' =>
      decide (key = key') && decide (value = value') &&
        decide (operator.negate = some operator')
  | .extra name operator, .extra name' operator' =>
      decide (name = name') && decide (operator.negate = operator')
  | .list pair operator, .list pair' operator' =>
      decide (pair = pair') && decide (operator ≠ operator')
  | _, _ => false

@[simp]
theorem same_extra {name : MarkerValueExtra} {operator : ExtraOperator}
    {term : MarkerExpression} :
    term.same (.extra name operator) = true ↔ term = .extra name operator := by
  cases term <;> simp [same]

end MarkerExpression

def CanonicalMarkerListPair.key : CanonicalMarkerListPair → MarkerValueList
  | .extras _ => .extras
  | .dependencyGroup _ => .dependencyGroups
  | .arbitrary key _ => key

/-- The kind of an expression, by the order of the kinds. -/
def MarkerExpression.kind : MarkerExpression → ℕ ×ₗ ℕ
  | .version key _ => toLex (0, key.ctorIdx)
  | .versionIn key _ _ => toLex (1, key.ctorIdx)
  | .string key _ _ => toLex (2, key.ctorIdx)
  | .list pair _ => toLex (3, pair.key.ctorIdx)
  | .extra _ _ => toLex (4, 0)

/-! ## Edges -/

section Edges

variable {T : Type} [OrdKey T]

/-- Add a range to the entry of a child, behind all others when there is none. -/
def insertUnion [RangeOps T] (tree : NodeId) (range : Ranges T) :
    List (NodeId × Ranges T) → List (NodeId × Ranges T)
  | [] => [(tree, range)]
  | (other, union) :: paths =>
      if other = tree then (other, RangeOps.union union range) :: paths
      else (other, union) :: insertUnion tree range paths

/-- Merge the edges that lead to identical subtrees into a single range. -/
def collectEdgesLoop [RangeOps T] :
    List (Ranges T × NodeId) → List (NodeId × Ranges T) → Option (List (NodeId × Ranges T))
  | [], paths => some paths
  | (range, tree) :: edges, paths =>
      match range.boundingRange with
      | none => none
      | some (start, stop) =>
          collectEdgesLoop edges (insertUnion tree (.fromRangeBounds start stop) paths)

def collectEdges [RangeOps T] (edges : List (Ranges T × NodeId)) :
    Option (List (NodeId × Ranges T)) :=
  collectEdgesLoop edges []

/-- The single values between neighbouring intervals. -/
def excludedValues : List (Bound T × Bound T) → Option (List T)
  | (_, .excluded stop) :: (.excluded start, next) :: rest =>
      if compare stop start == .eq then
        (excludedValues ((.excluded start, next) :: rest)).map (stop :: ·)
      else none
  | _ :: _ :: _ => none
  | _ => some []

/-- The values a range leaves out, when it is all the others. -/
def rangeInequality (range : Ranges T) : Option (List T) :=
  match range.boundingRange with
  | some (.unbounded, .unbounded) => excludedValues range.segments
  | _ => none

end Edges

/-- `< V` or above the next release of `V` is `!= V.*`. -/
def starRangeSpecifier (range : Ranges ValidVersion) : Option VersionSpecifier :=
  match range.segments with
  | [(.unbounded, .excluded start), (.included stop, .unbounded)] =>
      match start.val.onlyReleaseTrimmed.release with
      | [major] =>
          if stop.val.release = [major, 1] then
            some (.notEqualsStarVersion (.new [major, 0]))
          else none
      | [major, minor] =>
          if stop.val.release = [major, u64Succ minor] then some (.notEqualsStarVersion start)
          else none
      | _ => none
  | _ => none

namespace MarkerOperator

def fromLowerBound : Bound Text → List (MarkerOperator × Text)
  | .included value => [(.greaterEqual, value)]
  | .excluded value => [(.greaterThan, value)]
  | .unbounded => []

def fromUpperBound : Bound Text → List (MarkerOperator × Text)
  | .included value => [(.lessEqual, value)]
  | .excluded value => [(.lessThan, value)]
  | .unbounded => []

/-- The operators and values that together stand for an interval. -/
def fromBounds : Bound Text × Bound Text → List (MarkerOperator × Text)
  | (.included lower, .included upper) =>
      if lower = upper then [(.equal, lower)]
      else fromLowerBound (.included lower) ++ fromUpperBound (.included upper)
  | (.excluded lower, .excluded upper) =>
      if lower = upper then [(.notEqual, lower)]
      else fromLowerBound (.excluded lower) ++ fromUpperBound (.excluded upper)
  | (lower, upper) => fromLowerBound lower ++ fromUpperBound upper

end MarkerOperator

/-! ## Collecting the clauses -/

/-- The conjunctions whose disjunction is a range of versions. -/
def versionTerms (key : MarkerValueVersion) (range : Ranges ValidVersion) :
    Option (List Clause) :=
  match rangeInequality range, starRangeSpecifier range with
  | some excluded, _ => some [excluded.map fun version => .version key (.notEqualsVersion version)]
  | none, some specifier => some [[.version key specifier]]
  | none, none => range.segments.mapM fun bounds =>
      (VersionSpecifier.fromReleaseOnlyBounds bounds).map (·.map (.version key))

/-- The conjunctions whose disjunction is a range of texts. -/
def stringTerms (key : MarkerValueString) (range : Ranges Text) : List Clause :=
  match rangeInequality range with
  | some excluded => [excluded.map (.string key .notEqual)]
  | none => range.segments.map fun bounds =>
      (MarkerOperator.fromBounds bounds).map fun (operator, value) => .string key operator value

/-- The term for a truth value of a boolean variable. -/
def booleanTerm : Variable → Bool → Option MarkerExpression
  | .isIn key value, high =>
      some (.string key.toMarkerValue (if high then .isIn else .notIn) value)
  | .contains key value, high =>
      some (.string key.toMarkerValue (if high then .contains else .notContains) value)
  | .list pair, high => some (.list pair (if high then .isIn else .notIn))
  | .extra name, high => some (.extra (.extra name) (if high then .equal else .notEqual))
  | _, _ => none

section Collect

variable [RangeOps ValidVersion] [RangeOps Text]

/-- The children of a node, each with the terms that lead to it. -/
def Node.branchTerms (node : Node) (parent : NodeId) : Option (List (NodeId × Clause)) :=
  match node.var, node.children with
  | .version key, .version edges => do
      let paths ← collectEdges (edges.map fun (range, child) => (range, child.negate parent))
      let branches ← paths.mapM fun (tree, range) =>
        (versionTerms key.toMarkerValue range).map (·.map (tree, ·))
      return branches.flatten
  | .string key, .string edges => do
      let paths ← collectEdges (edges.map fun (range, child) => (range, child.negate parent))
      return paths.flatMap fun (tree, range) => (stringTerms key.toMarkerValue range).map (tree, ·)
  | var, .boolean high low => do
      return [(high.negate parent, [← booleanTerm var true]),
        (low.negate parent, [← booleanTerm var false])]
  | _, _ => none

/-- Collect all paths to `true`. -/
def collectDnf (s : Interner) : ℕ → NodeId → Clause → Option (List Clause)
  | 0, _, _ => none
  | fuel + 1, tree, path =>
      if tree.isFalse then some []
      else if tree.isTrue then some (if path.isEmpty then [] else [path])
      else do
        let branches ← (← s.node tree).branchTerms tree
        let clauses ← branches.mapM fun (child, terms) => collectDnf s fuel child (path ++ terms)
        return clauses.flatten

end Collect

/-! ## Simplifying -/

/-- Another clause would be contained in this one if the term were negated. -/
def isRedundantTerm (dnf : List Clause) (i : ℕ) (clause : Clause) (redundant : List ℕ)
    (skipped : MarkerExpression) : Bool :=
  dnf.zipIdx.any fun (other, j) => i != j && other.all fun term =>
    !term.same skipped && (term.isNegation skipped ||
      (clause.findIdx? (·.same term)).any fun k => !redundant.contains k)

/-- The positions of the redundant terms of a clause. -/
def redundantTerms (dnf : List Clause) (i : ℕ) (clause : Clause) : List ℕ :=
  clause.zipIdx.foldl (fun redundant (skipped, k) =>
    if isRedundantTerm dnf i clause redundant skipped then redundant ++ [k] else redundant) []

/-- Eliminate the redundant terms of the first clauses, one clause after the other. -/
def eliminateTerms (dnf : List Clause) : ℕ → List Clause
  | 0 => dnf
  | i + 1 =>
      let dnf := eliminateTerms dnf i
      dnf.modify i fun clause =>
        ((redundantTerms dnf i clause).mergeSort (· ≥ ·)).foldl List.eraseIdx clause

/-- Another clause, which is not going to be eliminated, is a subset of this one. -/
def isRedundantClause (dnf : List Clause) (redundant : List ℕ) (i : ℕ) : Bool :=
  dnf.zipIdx.any fun (other, j) => i != j && !redundant.contains j &&
    other.all fun term => (dnf.getD i []).any (·.same term)

/-- The redundant ones among the first clauses. -/
def redundantClauses (dnf : List Clause) : ℕ → List ℕ
  | 0 => []
  | i + 1 =>
      let redundant := redundantClauses dnf i
      if isRedundantClause dnf redundant i then redundant ++ [i] else redundant

def simplify (dnf : List Clause) : List Clause :=
  let dnf := eliminateTerms dnf dnf.length
  (redundantClauses dnf dnf.length).reverse.foldl List.eraseIdx dnf

/-- Sort the terms of each clause and then the clauses, by their kinds. -/
def sortDnf (dnf : List Clause) : List Clause :=
  (dnf.map (·.mergeSort fun left right => left.kind ≤ right.kind)).mergeSort fun left right =>
    (List.compareLex compare (left.map (·.kind)) (right.map (·.kind))).isLE

/-- A simplified disjunctive normal form of a marker. -/
def toDnf [RangeOps ValidVersion] [RangeOps Text] (s : Interner) (tree : NodeId) :
    Option (List Clause) :=
  (collectDnf s (tree.rank + 1) tree []).map fun dnf => sortDnf (simplify dnf)

/-! ## What simplifying keeps -/

/-- The extras of the first clause are in the second. -/
def ExtrasWithin (clause' clause : Clause) : Prop :=
  ∀ name operator, .extra name operator ∈ clause' → .extra name operator ∈ clause

/-- The extras of every old clause contain those of a new one. -/
def CoversExtras (dnf' dnf : List Clause) : Prop :=
  ∀ clause ∈ dnf, ∃ clause' ∈ dnf', ExtrasWithin clause' clause

theorem ExtrasWithin.of_subset {clause' clause : Clause} (hsubset : clause' ⊆ clause) :
    ExtrasWithin clause' clause :=
  fun _ _ hmem => hsubset hmem

theorem ExtrasWithin.trans {clause'' clause' clause : Clause}
    (hwithin' : ExtrasWithin clause'' clause') (hwithin : ExtrasWithin clause' clause) :
    ExtrasWithin clause'' clause :=
  fun name operator hmem => hwithin name operator (hwithin' name operator hmem)

theorem CoversExtras.refl (dnf : List Clause) : CoversExtras dnf dnf :=
  fun clause hclause => ⟨clause, hclause, .of_subset (List.Subset.refl _)⟩

theorem CoversExtras.trans {dnf'' dnf' dnf : List Clause} (hcovers' : CoversExtras dnf'' dnf')
    (hcovers : CoversExtras dnf' dnf) : CoversExtras dnf'' dnf := by
  intro clause hclause
  obtain ⟨clause', hclause', hwithin⟩ := hcovers clause hclause
  obtain ⟨clause'', hclause'', hwithin'⟩ := hcovers' clause' hclause'
  exact ⟨clause'', hclause'', hwithin'.trans hwithin⟩

theorem foldl_eraseIdx_sublist {α : Type} (indices : List ℕ) (l : List α) :
    (indices.foldl List.eraseIdx l).Sublist l := by
  induction indices generalizing l with
  | nil => exact List.Sublist.refl l
  | cons index indices ih => exact (ih _).trans (List.eraseIdx_sublist l index)

/-- Eliminating terms leaves a part of every clause. -/
theorem coversExtras_eliminateTerms (dnf : List Clause) (count : ℕ) :
    CoversExtras (eliminateTerms dnf count) dnf := by
  induction count with
  | zero => exact .refl dnf
  | succ i ih =>
      refine .trans (fun clause hclause => ?_) ih
      obtain ⟨k, hk, hget⟩ := List.mem_iff_getElem.mp hclause
      rw [eliminateTerms]
      by_cases hsame : i = k
      · subst hsame
        refine ⟨_, List.mem_iff_getElem.mpr ⟨i, by simpa using hk, rfl⟩, ?_⟩
        simp only [List.getElem_modify, if_true, hget]
        exact .of_subset (foldl_eraseIdx_sublist _ _).subset
      · refine ⟨clause, List.mem_iff_getElem.mpr ⟨k, by simpa using hk, ?_⟩,
          .of_subset (List.Subset.refl _)⟩
        simp only [List.getElem_modify, hsame, if_false, hget]

section Redundant

variable {dnf : List Clause} {n i k : ℕ}

theorem mem_redundantClauses :
    k ∈ redundantClauses dnf n ↔
      k < n ∧ isRedundantClause dnf (redundantClauses dnf k) k = true := by
  induction n with
  | zero => simp [redundantClauses]
  | succ n ih =>
      rw [redundantClauses]
      by_cases hredundant : isRedundantClause dnf (redundantClauses dnf n) n = true
      · simp only [hredundant, if_true, List.mem_append, ih, List.mem_singleton]
        constructor
        · rintro (⟨hlt, hk⟩ | rfl)
          · exact ⟨by omega, hk⟩
          · exact ⟨by omega, hredundant⟩
        · rintro ⟨hlt, hk⟩
          rcases Nat.lt_succ_iff_lt_or_eq.mp hlt with hbefore | rfl
          · exact .inl ⟨hbefore, hk⟩
          · exact .inr rfl
      · simp only [hredundant, if_false, Bool.false_eq_true, ih]
        constructor
        · rintro ⟨hlt, hk⟩
          exact ⟨by omega, hk⟩
        · rintro ⟨hlt, hk⟩
          refine ⟨lt_of_le_of_ne (by omega) ?_, hk⟩
          rintro rfl
          exact hredundant hk

theorem pairwise_redundantClauses : (redundantClauses dnf n).Pairwise (· < ·) := by
  induction n with
  | zero => exact List.Pairwise.nil
  | succ n ih =>
      rw [redundantClauses]
      split
      · refine List.pairwise_append.mpr ⟨ih, List.pairwise_singleton _ _, fun k hk j hj => ?_⟩
        rw [List.mem_singleton.mp hj]
        exact (mem_redundantClauses.mp hk).1
      · exact ih

/-- A redundant clause contains a clause that is not among the redundant ones so far. -/
theorem exists_within_of_isRedundantClause {redundant : List ℕ}
    (hredundant : isRedundantClause dnf redundant i = true) :
    ∃ j < dnf.length, j ∉ redundant ∧ j ≠ i ∧
      ExtrasWithin (dnf.getD j []) (dnf.getD i []) := by
  obtain ⟨⟨other, j⟩, hmem, hother⟩ := List.any_eq_true.mp hredundant
  obtain ⟨hj, hget⟩ := List.mem_zipIdx' hmem
  simp only [Bool.and_eq_true, bne_iff_ne, ne_eq, Bool.not_eq_true', List.all_eq_true,
    List.any_eq_true] at hother
  obtain ⟨⟨hne, hkept⟩, hsubset⟩ := hother
  refine ⟨j, hj, by simpa using hkept, fun h => hne h.symm, fun name operator hterm => ?_⟩
  rw [List.getD_eq_getElem _ _ hj, ← hget] at hterm
  obtain ⟨term, hterm', hsame⟩ := hsubset _ hterm
  rwa [MarkerExpression.same_extra.mp hsame] at hterm'

/-- Every clause contains one that is kept: a redundant clause contains a kept one, or a
later one that is dealt with in the same way. -/
theorem exists_kept (hi : i < dnf.length) :
    ∃ j < dnf.length, j ∉ redundantClauses dnf dnf.length ∧
      ExtrasWithin (dnf.getD j []) (dnf.getD i []) := by
  induction hleft : dnf.length - i using Nat.strong_induction_on generalizing i with
  | _ left ih =>
      by_cases hmem : i ∈ redundantClauses dnf dnf.length
      · obtain ⟨-, hredundant⟩ := mem_redundantClauses.mp hmem
        obtain ⟨j, hj, hkept, hne, hwithin⟩ := exists_within_of_isRedundantClause hredundant
        rcases Nat.lt_or_gt_of_ne hne with hbefore | hafter
        · refine ⟨j, hj, fun hdropped => hkept ?_, hwithin⟩
          exact mem_redundantClauses.mpr ⟨hbefore, (mem_redundantClauses.mp hdropped).2⟩
        · obtain ⟨k, hk, hnot, hwithin'⟩ := ih (dnf.length - j) (by omega) hj rfl
          exact ⟨k, hk, hnot, hwithin'.trans hwithin⟩
      · exact ⟨i, hi, hmem, .of_subset (List.Subset.refl _)⟩

end Redundant

/-- Removing positions from the last to the first keeps what is at all others. -/
theorem mem_foldl_eraseIdx {α : Type} {indices : List ℕ} {l : List α} {j : ℕ} {x : α}
    (hsorted : indices.Pairwise (· > ·)) (hj : j ∉ indices) (hget : l[j]? = some x) :
    x ∈ indices.foldl List.eraseIdx l := by
  induction indices generalizing l j with
  | nil => exact List.mem_of_getElem? hget
  | cons index indices ih =>
      obtain ⟨hindex, hsorted⟩ := List.pairwise_cons.mp hsorted
      rw [List.mem_cons, not_or] at hj
      rcases Nat.lt_or_gt_of_ne hj.1 with hbefore | hafter
      · exact ih hsorted hj.2 (by rw [List.getElem?_eraseIdx_of_lt hbefore, hget])
      · refine @ih _ (j - 1) hsorted (fun hmem => ?_) ?_
        · have := hindex _ hmem
          omega
        · rw [List.getElem?_eraseIdx_of_ge (by omega), Nat.sub_add_cancel (by omega), hget]

theorem coversExtras_simplify (dnf : List Clause) : CoversExtras (simplify dnf) dnf := by
  refine .trans (fun clause hclause => ?_) (coversExtras_eliminateTerms dnf dnf.length)
  obtain ⟨i, hi, rfl⟩ := List.mem_iff_getElem.mp hclause
  obtain ⟨j, hj, hkept, hwithin⟩ := exists_kept hi
  rw [List.getD_eq_getElem _ _ hi] at hwithin
  refine ⟨_, mem_foldl_eraseIdx (List.pairwise_reverse.mpr pairwise_redundantClauses)
    (by simpa using hkept) ?_, hwithin⟩
  rw [List.getD_eq_getElem _ _ hj, List.getElem?_eq_getElem hj]

/-- `A or (not A and B)` is `A or B`. -/
example :
    simplify [[.extra (.extra ['a']) .equal],
      [.extra (.extra ['a']) .notEqual, .extra (.extra ['b']) .equal]] =
      [[.extra (.extra ['a']) .equal], [.extra (.extra ['b']) .equal]] := by
  decide +kernel

theorem coversExtras_sortDnf (dnf : List Clause) : CoversExtras (sortDnf dnf) dnf := by
  intro clause hclause
  refine ⟨clause.mergeSort fun left right => left.kind ≤ right.kind, ?_,
    .of_subset (List.mergeSort_perm _ _).subset⟩
  exact List.mem_mergeSort.mpr (List.mem_map_of_mem hclause)

/-- Every path to `true` has the extras of a clause. -/
theorem coversExtras_toDnf [RangeOps ValidVersion] [RangeOps Text] {s : Interner} {tree : NodeId}
    {dnf : List Clause} (hdnf : toDnf s tree = some dnf) :
    ∃ paths, collectDnf s (tree.rank + 1) tree [] = some paths ∧ CoversExtras dnf paths := by
  obtain ⟨paths, hpaths, rfl⟩ := Option.map_eq_some_iff.mp hdnf
  exact ⟨paths, hpaths, (coversExtras_sortDnf _).trans (coversExtras_simplify paths)⟩

end Uv.Pep508
