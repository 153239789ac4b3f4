import Uv.Pep508.Algebra
import Uv.Pep508.Lowering

/-!
# Formulas

What a marker text says, before anything is lowered: expressions joined by `and`
and `or`.  A diagram denotes a formula if both hold for the same valuations, of
those that no incompatible pair rules out.
-/

namespace Uv.Pep508

open Uv.Core Uv.Pep440

inductive Formula where
  | literal (expr : MarkerExpression)
  | and (left right : Formula)
  | or (left right : Formula)

/-- Join two formulas that may be missing. -/
def join (combine : Formula → Formula → Formula) :
    Option Formula → Option Formula → Option Formula
  | some left, some right => some (combine left right)
  | some left, none => some left
  | none, right => right

@[simp]
theorem join_none (combine : Formula → Formula → Formula) (formula : Option Formula) :
    join combine formula none = formula := by
  cases formula <;> rfl

section Meaning

variable [RangeOps ValidVersion] [RangeOps Text]

/-- An expression holds if its variable's value leads to the true terminal. -/
def MarkerExpression.Holds (v : Valuation) (expr : MarkerExpression) : Prop :=
  match expressionEdges expr with
  | some (.ok (var, edges)) => v.Picks var edges .TRUE
  | some (.error node) => node = .TRUE
  | none => False

def Formula.Holds (v : Valuation) : Formula → Prop
  | literal expr => expr.Holds v
  | and left right => left.Holds v ∧ right.Holds v
  | or left right => left.Holds v ∨ right.Holds v

omit [RangeOps ValidVersion] [RangeOps Text] in
/-- An expression without a malformed list name. -/
def MarkerExpression.isNamed : MarkerExpression → Bool
  | .list (.arbitrary _ _) _ => false
  | _ => true

omit [RangeOps ValidVersion] [RangeOps Text] in
def Formula.isNamed : Formula → Bool
  | literal expr => expr.isNamed
  | and left right => left.isNamed && right.isNamed
  | or left right => left.isNamed && right.isNamed

/-- What the variable of an expression can be. -/
theorem variable_expressionEdges (P : Variable → Prop) {expr : MarkerExpression}
    {var : Variable} {edges : Edges} (hresult : expressionEdges expr = some (.ok (var, edges)))
    (hversion : ∀ key, P (.version key)) (hstring : ∀ key, P (.string key))
    (hisIn : ∀ key value, P (.isIn key value)) (hcontains : ∀ key value, P (.contains key value))
    (hlist : ∀ pair operator, expr = .list pair operator → P (.list pair))
    (hextra : ∀ name operator, expr = .extra (.extra name) operator → P (.extra name)) :
    P var := by
  cases expr with
  | version key specifier =>
      cases key with
      | pythonVersion =>
          obtain ⟨full, -, hfull⟩ := Option.bind_eq_some_iff.mp hresult
          cases full with
          | error node => cases hfull
          | ok specifier =>
              obtain ⟨_, -, heq⟩ := Option.bind_eq_some_iff.mp hfull
              cases heq
              exact hversion _
      | _ =>
          obtain ⟨_, -, heq⟩ := Option.bind_eq_some_iff.mp hresult
          cases heq
          exact hversion _
  | versionIn key versions operator =>
      cases key with
      | pythonVersion =>
          obtain ⟨built, -, hbuilt⟩ := Option.bind_eq_some_iff.mp hresult
          cases built <;> cases hbuilt
          exact hversion _
      | _ =>
          cases hresult
          exact hversion _
  | string key operator value =>
      cases operator with
      | isIn | notIn =>
          cases hresult
          exact hisIn _ _
      | contains | notContains =>
          cases hresult
          exact hcontains _ _
      | _ =>
          simp only [expressionEdges] at hresult
          obtain ⟨_, -, heq⟩ := Option.map_eq_some_iff.mp hresult
          cases heq
          exact hstring _
  | list pair operator =>
      cases hresult
      exact hlist pair operator rfl
  | extra name operator =>
      cases name with
      | arbitrary name => cases operator <;> cases hresult
      | extra name =>
          cases operator <;>
          · cases hresult
            exact hextra name _ rfl

/-- Only a malformed list name makes a variable arbitrary. -/
theorem isArbitrary_expressionEdges {expr : MarkerExpression} {var : Variable}
    {edges : Edges} (hresult : expressionEdges expr = some (.ok (var, edges)))
    (hnamed : expr.isNamed = true) : var.isArbitrary = false := by
  refine variable_expressionEdges (·.isArbitrary = false) hresult (fun _ => rfl) (fun _ => rfl)
    (fun _ _ => rfl) (fun _ _ => rfl) (fun pair operator hexpr => ?_) fun _ _ _ => rfl
  cases pair with
  | arbitrary key value =>
      rw [hexpr] at hnamed
      cases hnamed
  | _ => rfl

namespace Interner

variable {s s' : Interner} {below : Variable → Variable → Prop}

/-- The diagram stands for the formula. -/
structure StandsFor (s : Interner) (tree : NodeId) (formula : Formula) : Prop where
  valid : s.Valid tree
  holds_iff : ∀ v : Valuation, ¬ v.Excluded → (Holds s v tree ↔ formula.Holds v)
  named : formula.isNamed = true → s.WellNamed tree

/-- The same where both may be missing. -/
def Denotes (s : Interner) : Option NodeId → Option Formula → Prop
  | some tree, some formula => StandsFor s tree formula
  | none, none => True
  | _, _ => False

theorem StandsFor.mono (hwf : s.WellFormed) (hwf' : s'.WellFormed) (hle : s ≤ s')
    {tree : NodeId} {formula : Formula} (hstands : StandsFor s tree formula) :
    StandsFor s' tree formula where
  valid := hstands.valid.mono hle
  holds_iff v hv := by
    rw [holds_mono hwf hwf' hle hstands.valid]
    exact hstands.holds_iff v hv
  named hnamed := (hstands.named hnamed).mono hle

theorem Denotes.mono (hwf : s.WellFormed) (hwf' : s'.WellFormed) (hle : s ≤ s')
    {tree : Option NodeId} {formula : Option Formula} (hdenotes : Denotes s tree formula) :
    Denotes s' tree formula := by
  cases tree <;> cases formula
  · trivial
  · exact hdenotes
  · exact hdenotes
  · exact StandsFor.mono hwf hwf' hle hdenotes

/-- Lowering an expression is exact, also where the exclusions do not allow the environment. -/
theorem expression_exact {expr : MarkerExpression} (hsound : Sound below s)
    {result : Except NodeId (Variable × Edges)}
    (hresult : expressionEdges expr = some result) :
    Ensures (Sound below) (expression expr) s fun s' tree =>
      s'.Valid tree ∧ (∀ v, Holds s' v tree ↔ expr.Holds v) ∧
        (expr.isNamed = true → s'.WellNamed tree) := by
  have hholds : ∀ v, MarkerExpression.Holds v expr ↔
      match result with
      | .ok (var, edges) => v.Picks var edges .TRUE
      | .error node => node = .TRUE := by
    intro v
    simp only [MarkerExpression.Holds, hresult]
    cases result <;> rfl
  have hdescribes := expressionEdges_describes hresult
  simp only [expression, hresult]
  cases result with
  | error node =>
      apply Ensures.pure hsound
      rcases hdescribes with rfl | rfl
      · refine ⟨valid_true, fun v => ?_, fun _ => .true⟩
        rw [hholds]
        exact ⟨fun _ => rfl, fun _ => holds_true⟩
      · refine ⟨valid_false, fun v => ?_, fun _ => .false⟩
        rw [hholds]
        exact ⟨fun hholds => (not_holds_false hholds).elim, fun heq => by cases heq⟩
  | ok described =>
      obtain ⟨var, edges⟩ := described
      have hsimple : edges.Simple var := hdescribes
      apply (createSimple_ensures hsound hsimple).weaken
      intro tree s' hsound' hle hcreated
      obtain ⟨hvalid, hrep⟩ := hcreated
      refine ⟨hvalid, fun v => ?_, fun hnamed => ?_⟩
      · rw [hholds]
        obtain ⟨child, hpick⟩ := v.exists_picks hsimple.fits
        rw [hrep.holds_iff hsound'.wellFormed hpick]
        constructor
        · intro hchild
          rcases hsimple.terminal child hpick.mem with rfl | rfl
          · exact hpick
          · exact (not_holds_false hchild).elim
        · intro htrue
          rw [Valuation.picks_unique hsimple.fits hpick htrue]
          exact holds_true
      · exact hrep.allVars_simple hsimple (isArbitrary_expressionEdges hresult hnamed)

/-- Lowering an expression. -/
theorem expression_standsFor {expr : MarkerExpression} (hsound : Sound below s)
    {result : Except NodeId (Variable × Edges)}
    (hresult : expressionEdges expr = some result) :
    Ensures (Sound below) (expression expr) s fun s' tree =>
      StandsFor s' tree (.literal expr) :=
  (expression_exact hsound hresult).weaken fun _ _ _ _ hexact =>
    ⟨hexact.1, fun v _ => hexact.2.1 v, hexact.2.2⟩

/-- Conjunctions of diagrams stand for conjunctions of formulas. -/
theorem and_standsFor (hsound : Sound below s) {x y : NodeId} {left right : Formula}
    (hx : StandsFor s x left) (hy : StandsFor s y right) :
    Ensures (Sound below) (and x y) s fun s' tree =>
      StandsFor s' tree (.and left right) := by
  apply (and_ensures hsound hx.valid hy.valid).weaken
  intro tree s' hsound' hle hconj
  have hwf := hsound.wellFormed
  have hx' := hx.mono hwf hsound'.wellFormed hle
  have hy' := hy.mono hwf hsound'.wellFormed hle
  refine ⟨hconj.valid, fun v hv => ?_, fun hnamed => ?_⟩
  · rw [Formula.Holds, ← hx'.holds_iff v hv, ← hy'.holds_iff v hv]
    constructor
    · exact hconj.sound v
    · rintro ⟨hleft, hright⟩
      exact hconj.complete v (.inr hv) hleft hright
  · obtain ⟨hleft, hright⟩ := Bool.and_eq_true_iff.mp hnamed
    exact hconj.vars _ (hx'.named hleft) (hy'.named hright)

theorem or_standsFor (hsound : Sound below s) {x y : NodeId} {left right : Formula}
    (hx : StandsFor s x left) (hy : StandsFor s y right) :
    Ensures (Sound below) (or x y) s fun s' tree =>
      StandsFor s' tree (.or left right) := by
  apply (or_ensures hsound hx.valid hy.valid).weaken
  intro tree s' hsound' hle hdisj
  have hwf := hsound.wellFormed
  have hx' := hx.mono hwf hsound'.wellFormed hle
  have hy' := hy.mono hwf hsound'.wellFormed hle
  refine ⟨hdisj.valid, fun v hv => ?_, fun hnamed => ?_⟩
  · rw [Formula.Holds, ← hx'.holds_iff v hv, ← hy'.holds_iff v hv]
    constructor
    · exact hdisj.sound v (.inr hv)
    · exact hdisj.complete v
  · obtain ⟨hleft, hright⟩ := Bool.and_eq_true_iff.mp hnamed
    exact hdisj.vars _ (hx'.named hleft) (hy'.named hright)

/-- An operation on diagrams that does what one on formulas does. -/
def Implements (below : Variable → Variable → Prop)
    (apply : NodeId → NodeId → InternerM NodeId)
    (combine : Formula → Formula → Formula) : Prop :=
  ∀ {s : Interner} {x y : NodeId} {left right : Formula}, Sound below s →
    StandsFor s x left → StandsFor s y right →
      Ensures (Sound below) (apply x y) s fun s' tree =>
        StandsFor s' tree (combine left right)

/-- Combining the tree so far with a further expression. -/
theorem applyTo_denotes {apply : NodeId → NodeId → InternerM NodeId}
    {combine : Formula → Formula → Formula} (himplements : Implements below apply combine)
    (hsound : Sound below s) {tree : Option NodeId} {formula : Option Formula}
    (htree : Denotes s tree formula) {expression : NodeId} {literal : Formula}
    (hexpression : StandsFor s expression literal) :
    Ensures (Sound below) (applyTo apply tree expression) s fun s' tree' =>
      Denotes s' (some tree') (join combine formula (some literal)) := by
  cases tree <;> cases formula
  · exact Ensures.pure hsound hexpression
  · exact htree.elim
  · exact htree.elim
  · exact himplements hsound htree hexpression

end Interner

end Meaning

end Uv.Pep508
