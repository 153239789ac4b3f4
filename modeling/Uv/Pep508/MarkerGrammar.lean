import Uv.Pep508.Scan

/-!
# The grammar of markers

The grammar that the parser quotes, with the whitespace of every derivation.  A
derivation has a text and says a formula: `and` binds tighter than `or`, and an
ignored expression is dropped from its connective.

The parser finds the end of a word by looking for whitespace.  So it reads a
derivation if its words are spaced: `and` and `or` stand before whitespace, a name
before something that cannot go on with it, and `in` before whitespace or a quotation
mark.
-/

namespace Uv.Pep508

open Uv.Core Uv.Pep440
open Uv.Pep440.VersionSpecifier (isWhitespace)

/-! ## Derivations -/

/-- `wsp*` -/
structure Space where
  text : Text
  isSpace : ∀ c ∈ text, isWhitespace c = true

def markerVars : List (String × MarkerValue) :=
  [("python_version", .markerEnvVersion .pythonVersion),
    ("python_full_version", .markerEnvVersion .pythonFullVersion),
    ("os_name", .markerEnvString .osName),
    ("sys_platform", .markerEnvString .sysPlatform),
    ("platform_release", .markerEnvString .platformRelease),
    ("platform_system", .markerEnvString .platformSystem),
    ("platform_version", .markerEnvString .platformVersion),
    ("platform_machine", .markerEnvString .platformMachine),
    ("platform_python_implementation",
      .markerEnvString .platformPythonImplementation),
    ("implementation_name", .markerEnvString .implementationName),
    ("implementation_version", .markerEnvVersion .implementationVersion),
    ("extra", .extra)]

/-- The comparisons the parser knows; the grammar also has `===`. -/
def versionCmps : List (String × MarkerOperator) :=
  [("<=", .lessEqual), ("<", .lessThan), ("!=", .notEqual), ("==", .equal),
    (">=", .greaterEqual), (">", .greaterThan), ("~=", .tildeEqual)]

/-- `marker_var`: a quoted string or a name. -/
inductive MarkerVar where
  | quoted (mark : Char) (content : Text) (hmark : quotationMarks.contains mark = true)
      (hcontent : ∀ c ∈ content, (c != mark) = true)
  | name (name : String) (value : MarkerValue) (hname : (name, value) ∈ markerVars)

/-- `marker_op` -/
inductive MarkerOp where
  | versionCmp (symbol : String) (operator : MarkerOperator)
      (hsymbol : (symbol, operator) ∈ versionCmps)
  | arbitraryEqual
  | isIn
  | notIn (space : Space) (hspace : space.text ≠ [])

/-- `marker_var:l marker_op:o marker_var:r` -/
structure MarkerComparison where
  beforeLeft : Space
  left : MarkerVar
  beforeOp : Space
  op : MarkerOp
  beforeRight : Space
  right : MarkerVar

inductive Rule where
  | markerExpr
  | markerAnd
  | markerOr

/-- The derivations of a rule.  A conjunction has any number of operands, and so has
a disjunction. -/
inductive Derivation : Rule → Type where
  | comparison (comparison : MarkerComparison) : Derivation .markerExpr
  | parenthesized (before : Space) (marker : Derivation .markerOr) (after : Space) :
      Derivation .markerExpr
  | expr (expr : Derivation .markerExpr) : Derivation .markerAnd
  | and (left : Derivation .markerAnd) (before : Space)
      (right : Derivation .markerExpr) : Derivation .markerAnd
  | conjunction (conjunction : Derivation .markerAnd) : Derivation .markerOr
  | or (left : Derivation .markerOr) (before : Space)
      (right : Derivation .markerAnd) : Derivation .markerOr

/-! ## Their texts -/

def MarkerVar.text : MarkerVar → Text
  | quoted mark content _ _ => mark :: (content ++ [mark])
  | name word _ _ => word.toList

def MarkerOp.text : MarkerOp → Text
  | versionCmp symbol _ _ => symbol.toList
  | arbitraryEqual => "===".toList
  | isIn => "in".toList
  | notIn space _ => "not".toList ++ space.text ++ "in".toList

/-- The text after the first whitespace. -/
def MarkerComparison.body (comparison : MarkerComparison) : Text :=
  comparison.left.text ++ (comparison.beforeOp.text ++ (comparison.op.text ++
    (comparison.beforeRight.text ++ comparison.right.text)))

def Derivation.text {rule : Rule} : Derivation rule → Text
  | comparison c => c.beforeLeft.text ++ c.body
  | parenthesized before marker after =>
      before.text ++ '(' :: (marker.text ++ (after.text ++ [')']))
  | expr e => e.text
  | and left before right => left.text ++ (before.text ++ ("and".toList ++ right.text))
  | conjunction c => c.text
  | or left before right => left.text ++ (before.text ++ ("or".toList ++ right.text))

/-! ## What they say -/

def MarkerVar.value : MarkerVar → MarkerValue
  | quoted _ content _ _ => .quotedString content
  | name _ value _ => value

def MarkerOp.operator : MarkerOp → Option MarkerOperator
  | versionCmp _ operator _ => some operator
  | arbitraryEqual => none
  | isIn => some .isIn
  | notIn _ _ => some .notIn

/-- The typed expression, if it is not ignored. -/
def MarkerComparison.expression (comparison : MarkerComparison) :
    Option MarkerExpression :=
  comparison.op.operator.bind fun operator =>
    (typed comparison.left.value operator comparison.right.value).join

def Derivation.formula {rule : Rule} : Derivation rule → Option Formula
  | comparison c => c.expression.map .literal
  | parenthesized _ marker _ => marker.formula
  | expr e => e.formula
  | and left _ right => join .and left.formula right.formula
  | conjunction c => c.formula
  | or left _ right => join .or left.formula right.formula

/-! ## Spacing -/

/-- A name stands before something that cannot go on with it. -/
def MarkerVar.EndsBefore : MarkerVar → Text → Prop
  | quoted _ _ _ _, _ => True
  | name _ _ _, rest => ∀ c ∈ rest.head?, isKeyChar c = false

/-- `in` stands before whitespace or a quotation mark; `===` is not known. -/
def MarkerOp.EndsBefore : MarkerOp → Text → Prop
  | versionCmp _ _ _, _ => True
  | arbitraryEqual, _ => False
  | isIn, rest => ∀ c ∈ rest.head?, isOperatorWord c = false
  | notIn _ _, _ => True

/-- A comparison is spaced, and it is not an inverted `~=` of strings. -/
structure MarkerComparison.Spaced (comparison : MarkerComparison) (rest : Text) :
    Prop where
  left : comparison.left.EndsBefore (comparison.beforeOp.text ++ (comparison.op.text ++
    (comparison.beforeRight.text ++ (comparison.right.text ++ rest))))
  op : comparison.op.EndsBefore
    (comparison.beforeRight.text ++ (comparison.right.text ++ rest))
  right : comparison.right.EndsBefore rest
  lowered : ∀ expr ∈ comparison.expression, expr.isTilde = false

/-- A derivation whose text stands before some text is spaced. -/
def Derivation.Spaced {rule : Rule} : Derivation rule → Text → Prop
  | comparison c, rest => c.Spaced rest
  | parenthesized _ marker after, rest => marker.Spaced (after.text ++ ')' :: rest)
  | expr e, rest => e.Spaced rest
  | and left before right, rest =>
      left.Spaced (before.text ++ ("and".toList ++ (right.text ++ rest))) ∧
        right.text.head?.any isWhitespace = true ∧ right.Spaced rest
  | conjunction c, rest => c.Spaced rest
  | or left before right, rest =>
      left.Spaced (before.text ++ ("or".toList ++ (right.text ++ rest))) ∧
        right.text.head?.any isWhitespace = true ∧ right.Spaced rest

end Uv.Pep508
