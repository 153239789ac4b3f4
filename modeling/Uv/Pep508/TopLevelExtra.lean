import Uv.Pep508.CollectDnf
import Uv.Pep508.EvaluateExtras

/-!
# The extra at the top level

A marker names an extra at its top level when the extra is part of all clauses of its
normal form.  A marker whose root is an extra with a `true` high edge skips the normal
form; then nothing has been said about the low edge.
-/

namespace Uv.Pep508

open Uv.Core Uv.Pep440

/-! ## The operations -/

def MarkerExpression.isExtraEqual : MarkerExpression → Bool
  | .extra _ .equal => true
  | _ => false

/-- The first extra of every clause must be the same. -/
def topLevelExtraLoop : List Clause → Option MarkerExpression → Option MarkerExpression
  | [], extraExpression => extraExpression
  | conjunction :: dnf, extraExpression =>
      match conjunction.find? MarkerExpression.isExtraEqual, extraExpression with
      | none, _ => none
      | some found, some expression =>
          if expression.same found then topLevelExtraLoop dnf (some expression) else none
      | some found, none => topLevelExtraLoop dnf (some found)

namespace Interner

/-- The extra of a root with a `true` high edge. -/
def extraAtRoot (s : Interner) (tree : NodeId) : Option Text :=
  match s.node tree with
  | some ⟨.extra name, .boolean high _⟩ =>
      if (high.negate tree).isTrue then some name else none
  | _ => none

section Run

variable [RangeOps ValidVersion] [RangeOps Text]

/-- Find a top level `extra == "..."` expression. -/
def topLevelExtra (s : Interner) (tree : NodeId) : Option (Option MarkerExpression) :=
  (toDnf s tree).map (topLevelExtraLoop · none)

/-- Find a top level `extra == "..."` name. -/
def topLevelExtraName (s : Interner) (tree : NodeId) : Option (Option Text) :=
  match s.extraAtRoot tree with
  | some name => some (some name)
  | none => do
      match ← s.topLevelExtra tree with
      | some (.extra (.extra name) _) => return some name
      | _ => return none

end Run

/-! ## The normal form -/

variable {s : Interner} {tree : NodeId} {v : Valuation}

/-- The expression found is in every clause. -/
theorem mem_of_topLevelExtraLoop {dnf : List Clause} {known : Option MarkerExpression}
    {expression : MarkerExpression} (hfound : topLevelExtraLoop dnf known = some expression)
    (hknown : ∀ term, known = some term → term.isExtraEqual = true) :
    expression.isExtraEqual = true ∧ (∀ term, known = some term → term = expression) ∧
      ∀ clause ∈ dnf, expression ∈ clause := by
  induction dnf generalizing known with
  | nil =>
      have hsome : known = some expression := hfound
      exact ⟨hknown _ hsome, fun term hterm => Option.some.inj (hterm.symm.trans hsome),
        by simp⟩
  | cons conjunction dnf ih =>
      unfold topLevelExtraLoop at hfound
      split at hfound
      · cases hfound
      · rename_i found term hfind
        have hextra := List.find?_some hfind
        have hmem := List.mem_of_find?_eq_some hfind
        split at hfound
        · rename_i hsame
          obtain ⟨hequal, heq, hrest⟩ := ih hfound hknown
          obtain rfl := heq term rfl
          refine ⟨hequal, heq, List.forall_mem_cons.mpr ⟨?_, hrest⟩⟩
          cases found <;> simp only [MarkerExpression.isExtraEqual, Bool.false_eq_true] at hextra
          rwa [MarkerExpression.same_extra.mp hsame]
        · cases hfound
      · rename_i found hfind
        have hextra := List.find?_some hfind
        have hmem := List.mem_of_find?_eq_some hfind
        obtain ⟨hequal, heq, hrest⟩ := ih hfound fun term hterm => by
          cases hterm
          exact hextra
        obtain rfl := heq found rfl
        exact ⟨hequal, by simp, List.forall_mem_cons.mpr ⟨hmem, hrest⟩⟩

section Run

variable [RangeOps ValidVersion] [RangeOps Text]

/-- An expression found in the normal form asks for an extra that every valuation of the
marker has. -/
theorem bool_of_topLevelExtra (hwf : s.WellFormed) {name : Text} {operator : ExtraOperator}
    (hfound : s.topLevelExtra tree = some (some (.extra (.extra name) operator)))
    (hholds : Holds s v tree) : v.bool (.extra name) = true := by
  obtain ⟨dnf, hdnf, hloop⟩ := Option.map_eq_some_iff.mp hfound
  obtain ⟨hequal, -, hmem⟩ := mem_of_topLevelExtraLoop hloop (by simp)
  obtain ⟨paths, hpaths, hcovers⟩ := coversExtras_toDnf hdnf
  cases operator with
  | notEqual => cases hequal
  | equal =>
      by_cases htrue : tree = .TRUE
      · -- There is no clause, so nothing is found.
        subst htrue
        simp [toDnf, collectDnf, NodeId.isTrue, NodeId.isFalse, simplify, sortDnf,
          eliminateTerms, redundantClauses] at hdnf
        subst hdnf
        cases hloop
      · obtain ⟨path, hpath, hfollows⟩ := exists_follows hwf hholds hpaths
          (fun name hmem => by cases hmem) (.inr htrue)
        obtain ⟨clause, hclause, hwithin⟩ := hcovers path hpath
        exact hfollows name (hwithin _ _ (hmem clause hclause))

/-! ## The fast path -/

omit [RangeOps ValidVersion] [RangeOps Text] in
theorem extraAtRoot_eq_some {name : Text} :
    s.extraAtRoot tree = some name ↔ ∃ high low,
      s.node tree = some ⟨.extra name, .boolean high low⟩ ∧ high.negate tree = .TRUE := by
  unfold extraAtRoot
  constructor
  · intro hroot
    split at hroot
    · rename_i name' high low hnode
      split at hroot
      · rename_i htrue
        cases hroot
        exact ⟨high, low, hnode, NodeId.isTrue_iff.mp htrue⟩
      · cases hroot
    · cases hroot
  · rintro ⟨high, low, hnode, htrue⟩
    simp [hnode, NodeId.isTrue_iff.mpr htrue]

omit [RangeOps ValidVersion] [RangeOps Text] in
/-- Below the node of an extra, that extra does not matter. -/
theorem evaluate_low_filter (hsound : Sound Variable.Below s) {name : Text}
    {high low : NodeId} (hnode : s.node tree = some ⟨.extra name, .boolean high low⟩)
    (env : MarkerEnvironment) (extras : List Text) :
    s.evaluate env (.extras (extras.filter (· != name))) (low.negate tree) =
      s.evaluate env (.extras extras) (low.negate tree) := by
  have hwf := hsound.wellFormed
  have hlow : low ∈ (⟨.extra name, .boolean high low⟩ : Node).children.nodes := by
    simp [Edges.nodes]
  have hvalid : s.Valid (low.negate tree) := hwf.valid_step hnode hlow
  refine ((hsound.allVars_child hnode hlow).negate tree).evaluate_extras_congr hwf
    (fun other hbelow => ?_) hvalid
  have hne : other ≠ name := by
    rintro rfl
    rcases hbelow with hlt | hpython
    · exact lt_irrefl _ hlt
    · cases hpython
  rw [Bool.eq_iff_iff]
  simp [hne]

/-- The name found is an active extra whenever the marker applies, unless the fast path
takes a root whose low edge applies somewhere, too. -/
theorem Reachable.topLevelExtraName_iff (hreach : Reachable s) (hvalid : s.Valid tree) :
    (∀ name, s.topLevelExtraName tree = some (some name) → ∀ env extras,
      s.evaluate env (.extras extras) tree = true → name ∈ extras) ↔
    ∀ name high low, s.node tree = some ⟨.extra name, .boolean high low⟩ →
      high.negate tree = .TRUE → ∀ env extras,
        s.evaluate env (.extras extras) (low.negate tree) = false := by
  have hsound := hreach.sound
  have hwf := hsound.wellFormed
  have hlow : ∀ {name : Text} {high low : NodeId} {env : MarkerEnvironment} {extras : List Text},
      s.node tree = some ⟨.extra name, .boolean high low⟩ → name ∉ extras →
        s.evaluate env (.extras extras) tree =
          s.evaluate env (.extras extras) (low.negate tree) := by
    intro name high low env extras hnode hinactive
    have hvalidLow : s.Valid (low.negate tree) :=
      valid_negate.mpr (hwf.valid_child hnode (by simp [Edges.nodes]))
    rw [Bool.eq_iff_iff, evaluate_iff_accepts hwf hvalid, evaluate_iff_accepts hwf hvalidLow]
    refine accepts_iff_child hwf hnode rfl ?_
    simp [Valuation.Picks, Variable.domain, MarkerEnvironment.valuation,
      MarkerEnvironment.test, ExtrasEnvironment.extra, hinactive]
  constructor
  · intro hproperty name high low hnode htrue env extras
    have hfound : s.topLevelExtraName tree = some (some name) := by
      rw [topLevelExtraName, extraAtRoot_eq_some.mpr ⟨high, low, hnode, htrue⟩]
    -- The low edge applies without the extra as well, and then so does the marker.
    have hinactive : name ∉ extras.filter (· != name) := by simp
    rw [← evaluate_low_filter hsound hnode, ← hlow hnode hinactive, ← Bool.not_eq_true]
    exact fun happlies => hinactive (hproperty name hfound env _ happlies)
  · intro hnever name hfound env extras happlies
    unfold topLevelExtraName at hfound
    split at hfound
    · rename_i root hroot
      cases hfound
      obtain ⟨high, low, hnode, htrue⟩ := extraAtRoot_eq_some.mp hroot
      by_contra hinactive
      rw [hlow hnode hinactive, hnever name high low hnode htrue env extras] at happlies
      cases happlies
    · simp only [Option.bind_eq_bind, Option.bind_eq_some_iff] at hfound
      obtain ⟨expression, hexpression, hname⟩ := hfound
      split at hname
      · cases hname
        have hholds := ((evaluate_iff_accepts hwf hvalid).mp happlies).holds
        have hactive := bool_of_topLevelExtra hwf hexpression hholds
        simpa [MarkerEnvironment.valuation, MarkerEnvironment.test,
          ExtrasEnvironment.extra] using hactive
      · cases hname

end Run

section Examples

/-- `extra == 'a'`. -/
private def onlyExtraA : Operation :=
  .expression (.extra (.extra ['a']) .equal)

private def extraNodeA : Node :=
  ⟨.extra ['a'], .boolean .TRUE .FALSE⟩

theorem Reachable.topLevelExtraName_onlyExtraA : ∃ s : Interner,
    (∀ name, s.topLevelExtraName (.new 0 false) = some (some name) → ∀ env extras,
      s.evaluate env (.extras extras) (.new 0 false) = true → name ∈ extras) ↔
    ∀ name high low, s.node (.new 0 false) = some ⟨.extra name, .boolean high low⟩ →
      high.negate (.new 0 false) = .TRUE → ∀ env extras,
        s.evaluate env (.extras extras) (low.negate (.new 0 false)) = false := by
  let s : Interner := ⟨[extraNodeA], [], none⟩
  have hrun : onlyExtraA.perform.run Interner.default = some (some (.new 0 false), s) := rfl
  have hreach : Reachable s :=
    .step _ .default (by simp [onlyExtraA, Operation.arguments]) hrun
  exact ⟨s, Reachable.topLevelExtraName_iff hreach (show s.Valid (.new 0 false) by decide)⟩

/-- `extra == 'a' or extra == 'b'`. -/
private def eitherExtra : List Operation :=
  [onlyExtraA, .expression (.extra (.extra ['b']) .equal), .or (.new 0 false) (.new 1 false)]

/-- The high edge of the disjunction is `true`, but it applies with the other extra alone. -/
theorem not_topLevelExtraName : ¬ ∀ (s : Interner) (m : NodeId), Reachable s → s.Valid m →
    ∀ name, s.topLevelExtraName m = some (some name) → ∀ env extras,
      s.evaluate env (.extras extras) m = true → name ∈ extras := by
  intro hclaim
  have hrun : (performAll eitherExtra Interner.default).map (fun s =>
      decide (s.Valid (.new 2 false)) &&
        decide (s.topLevelExtraName (.new 2 false) = some (some ['a'])) &&
          s.evaluate linuxEnvironment (.extras [['b']]) (.new 2 false)) = some true := by
    decide +kernel
  obtain ⟨s, hperform, hcheck⟩ := Option.map_eq_some_iff.mp hrun
  simp only [Bool.and_eq_true, decide_eq_true_eq] at hcheck
  obtain ⟨⟨hvalid, hname⟩, happlies⟩ := hcheck
  have hmem := hclaim s _ (Reachable.default.performAll hperform) hvalid _ hname
    linuxEnvironment _ happlies
  simp at hmem

end Examples

end Interner

end Uv.Pep508
